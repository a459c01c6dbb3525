import MeteredLedger.Settings
import MeteredLedger.Transaction

/-!
# The fee of a step

The base fee of a step is the fee of its kind of transaction and one surcharge for the callable;
every other script run adds one more surcharge. What a step is charged depends on where it stands in
its invocation.
-/

namespace MeteredLedger

/-- Where a step stands in its invocation. -/
inductive StepPosition where
  /-- The first step, which also ends the invocation. -/
  | first (declared : UInt64)
  /-- The first step of several. -/
  | firstSuspended
  /-- A continuation that leaves the invocation in progress. -/
  | intermediate
  /-- The continuation that ends the invocation. -/
  | final

namespace Fees

/-- The fee of a kind of transaction. -/
def ofKind (fees : Fees) : TransactionKind → UInt64
  | .invocation => fees.invocation
  | .continuation => fees.continuation

/-- The fee of a transaction that runs `extra` scripts besides the callable. -/
def minimal (fees : Fees) (kind : TransactionKind) (extra : Nat) : UInt64 :=
  saturate64 ((fees.ofKind kind).toNat + fees.scriptRun.toNat * (1 + extra))

/-- The fee of a step: the first is charged what the invocation declares when it also ends it, and a
step between the first and the last is charged the base fee only. -/
def ofStep (fees : Fees) (kind : TransactionKind) (position : StepPosition) (extra : Nat) :
    UInt64 :=
  match position with
  | .first declared => declared
  | .intermediate => fees.minimal kind 0
  | .firstSuspended | .final => fees.minimal kind extra

end Fees

end MeteredLedger

import MeteredLedger.Step.Continuation
import MeteredLedger.Step.Invocation

/-!
# Transitions

A transaction turns a view into a delta, or is rejected. A block applies its transactions in order,
each to the view that those before it have left; the account that generates the block receives the
fees.
-/

namespace MeteredLedger

open Script (Evaluator)

/-- Applies one transaction. -/
def transition (evaluator : Evaluator) (view : View) : Transaction → Except Rejection StepResult
  | .invocation tx => tx.apply view evaluator
  | .continuation tx => tx.apply view evaluator

/-! ## Blocks -/

/-- The effect of a block, or of its first transactions. -/
structure BlockResult where
  delta : Delta := .empty
  /-- The transactions applied, each with the status of its invocation after it. -/
  applied : List (TxId × Status) := []
  rejected : List (TxId × Rejection) := []
  totalFee : UInt64 := 0

namespace BlockResult

/-- The block with its next transaction left out. -/
def reject (b : BlockResult) (id : TxId) (reason : Rejection) : BlockResult :=
  { b with rejected := b.rejected ++ [(id, reason)] }

/-- The block with the effect of its next transaction. A transaction whose effect does not merge
with those before it is left out. -/
def accept (b : BlockResult) (id : TxId) (result : StepResult) : BlockResult :=
  match b.delta.merge result.delta with
  | .error o => b.reject id (.overflow o)
  | .ok delta =>
    { b with
      delta
      applied := b.applied ++ [(id, result.status)]
      totalFee := saturate64 (b.totalFee.toNat + result.fee.toNat) }

/-- The block with its next transaction. A violation is an error of the whole block. -/
def next (evaluator : Evaluator) (view : View) (b : BlockResult) (tx : Transaction) :
    Except Rejection BlockResult :=
  match transition evaluator (view.stack b.delta) tx with
  | .ok result => .ok (b.accept tx.id result)
  | .error reason => if reason.isFatal then .error reason else .ok (b.reject tx.id reason)

/-- The block with its fees paid to an account. -/
def reward (b : BlockResult) (generator : Address) : Except Rejection BlockResult := do
  let fees := Delta.balance generator .native (.ofFee b.totalFee)
  let delta ← (b.delta.merge fees).mapError .overflow
  pure { b with delta }

end BlockResult

/-- Applies the transactions of a block. -/
def transitionBlock (evaluator : Evaluator) (view : View) (txs : List Transaction) :
    Except Rejection BlockResult := do
  let b ← txs.foldlM (BlockResult.next evaluator view) {}
  b.reward view.header.generator

end MeteredLedger

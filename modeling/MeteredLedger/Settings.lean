import MeteredLedger.Script.Expr

/-!
# Settings

The numbers that govern fees, complexity and the size of what an invocation may do. A ledger may
change any of them; the defaults below hold where it does not.
-/

namespace MeteredLedger

open Script (Version)

/-! ## Fees -/

/-- The unit that the default fees are multiples of. -/
def feeUnit : UInt64 := 100000

/-- The fees of a ledger, in the smallest unit of the native token. -/
structure Fees where
  /-- Charged for an invocation. -/
  invocation : UInt64 := 5 * feeUnit
  /-- Charged for a continuation. -/
  continuation : UInt64 := 5 * feeUnit
  /-- Charged for the callable, and again for every other script that runs. -/
  scriptRun : UInt64 := 4 * feeUnit
  deriving DecidableEq

/-! ## Limits -/

/-- What one invocation may hold and do at most. -/
structure Limits where
  payments : Nat := 2
  transfers : Nat := 10
  dataEntries : Nat := 100
  /-- The size of the key of a data entry, in bytes. -/
  keySize : Nat := 400
  deriving DecidableEq

/-- The settings of a ledger. -/
structure Settings where
  fees : Fees := {}
  limits : Limits := {}
  /-- The complexity a callable may spend in one step, for the versions that have such a limit. -/
  complexityLimit : Version → Option UInt64 := fun
    | .v3 | .v4 => some 4000
    | .v5 => some 10000
  /-- The complexity one run of a verifier or of an asset script may spend. -/
  assetScriptComplexity : UInt64 := 4000

namespace Settings

/-- The budget of one step of a callable; a version without a limit has none. -/
def maxComplexity (s : Settings) (v : Version) : UInt64 := (s.complexityLimit v).getD 0

end Settings

end MeteredLedger

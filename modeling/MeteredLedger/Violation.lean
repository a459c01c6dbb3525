import MeteredLedger.Transaction

/-!
# Violations

What never happens where blocks are checked before they are applied: a step of an invocation that
has ended, or a step out of order.
-/

namespace MeteredLedger

/-- A breach of the order of steps. -/
inductive Violation where
  | alreadyFinished (invocation : InvocationId)
  | stepMismatch (stored actual : UInt32)
  deriving DecidableEq

/-- The wording of a violation. -/
def Violation.message : Violation → String
  | alreadyFinished invocation => "invocation " ++ invocation.text ++ " is already finished"
  | stepMismatch stored actual =>
    s!"continuation step mismatch: stored {stored.toNat}, transaction {actual.toNat}"

end MeteredLedger

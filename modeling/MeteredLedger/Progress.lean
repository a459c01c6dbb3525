import MeteredLedger.Transaction

/-!
# The progress of an invocation

Between two blocks an invocation that has run out of budget is kept as the expression that remains.
-/

namespace MeteredLedger

/-- How far an invocation has come. -/
inductive Progress where
  /-- The step that a continuation has to name, what remains to evaluate, and the complexity that
  the last step did not spend. -/
  | suspended (step : UInt32) (rest : Script.Expr) (unused : UInt64)
  /-- The result of the invocation has been applied, or it has failed. -/
  | finished
  deriving DecidableEq

/-- The step that a continuation has to name, if there is one to take. -/
def Progress.step? : Progress → Option UInt32
  | suspended step _ _ => some step
  | finished => none

theorem Progress.step?_eq_some_iff {p : Progress} {step : UInt32} :
    p.step? = some step ↔ ∃ rest unused, p = .suspended step rest unused := by
  cases p <;> simp [step?]

end MeteredLedger

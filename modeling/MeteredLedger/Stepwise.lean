import MeteredLedger.Script.Evaluation
import MeteredLedger.Wire.Transaction

/-!
# Stepwise evaluation

An expression can be evaluated in steps, each with the same budget and with what the step before it
did not spend. Between two steps the remainder is kept in its binary form.
-/

namespace MeteredLedger

open Script (Evaluation Expr)

/-- The progress that is read back from the bytes written for it. There are none where a length
does not fit its four bytes. -/
def Progress.reload (p : Progress) : Option Progress := (Wire.encode? p).bind Wire.decode?

/-- The evaluations of at most `limit` steps with budget `max` each, beginning with step `step`. -/
def evaluateSteps (max : UInt64) : (limit : Nat) → Progress → List Evaluation
  | 0, _ | _, .finished => []
  | limit + 1, .suspended step rest unused =>
    let answer := Script.run rest (saturate64 (max.toNat + unused.toNat))
    match answer with
    | .completed .. => [answer]
    | .suspended rest unused =>
      let next := Progress.suspended (saturate32 (step.toNat + 1)) rest unused
      answer :: (next.reload.elim [] (evaluateSteps max limit))

/-- Evaluates a closed expression in at most `limit` steps. -/
def Script.Expr.evaluateSteps (e : Expr) (max : UInt64) (limit : Nat) : List Evaluation :=
  MeteredLedger.evaluateSteps max limit (.suspended 0 e 0)

end MeteredLedger

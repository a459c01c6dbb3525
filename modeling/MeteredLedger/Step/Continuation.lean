import MeteredLedger.Step.Closing

/-!
# The later steps of an invocation

A continuation names an invocation and the step to take. What remained after the step before is
evaluated with the budget of one step and the complexity that the step before did not spend. The
sender of the invocation pays.
-/

namespace MeteredLedger

open Script (Evaluation Evaluator Expr)

namespace Continuation

/-! ## Admission -/

/-- The invocation that a record is of. -/
def requireInvocation (record : Record) : Except Rejection Invocation :=
  match record.tx with
  | .invocation invocation => .ok invocation
  | .continuation _ => .error .notAnInvocation

/-- What remains to evaluate and the complexity left over, if the step is the one to take now. -/
def requireStep (tx : Continuation) (view : View) : Except Rejection (Expr × UInt64) :=
  match view.progress tx.invocation with
  | none => .error .notInProgress
  | some .finished => .error (.violation (.alreadyFinished tx.invocation))
  | some (.suspended step rest unused) =>
    if step = tx.step then .ok (rest, unused)
    else .error (.violation (.stepMismatch step tx.step))

/-- What a continuation that passes its checks is evaluated with. -/
structure Admission where
  /-- The record of the invocation that is carried on. -/
  record : Record
  invocation : Invocation
  /-- What remains to evaluate. -/
  rest : Expr
  /-- The complexity the step may spend. -/
  budget : UInt64

/-- The fee of a step that leaves the invocation in progress. -/
def baseFee (view : View) : UInt64 := view.settings.fees.ofStep .continuation .intermediate 0

/-- The checks before any script runs. -/
def admission (tx : Continuation) (view : View) : Except Rejection Admission := do
  demand (view.record tx.id).isNone .alreadyApplied
  let record ← demandSome (view.record tx.invocation) .unknownInvocation
  let invocation ← requireInvocation record
  let (rest, unused) ← tx.requireStep view
  let dapp ← demandSome (view.account invocation.dapp) .noDApp
  let budget := saturate64 ((view.settings.maxComplexity dapp.version).toNat + unused.toNat)
  demand (budget ≠ 0) (.noComplexityBudget dapp.version)
  demand (baseFee view ≤ tx.fee) (.insufficientFee (baseFee view) tx.fee)
  requireFunds view invocation.sender (baseFee view)
  pure { record, invocation, rest, budget }

/-! ## Evaluation -/

/-- How a later step ends after the answer of the evaluator. -/
def conclude (tx : Continuation) (view : View) (evaluator : Evaluator) (admission : Admission)
    (answer : Evaluation) : StepResult :=
  let step : Step :=
    { invocation := admission.invocation, origin := .continuation tx admission.record }
  match answer with
  | .completed result spent => (step.countRun spent).complete view evaluator result
  | .suspended rest unused =>
    let step := step.countRun (admission.budget - min unused admission.budget)
    step.suspend view (baseFee view) (.suspended (saturate32 (tx.step.toNat + 1)) rest unused)

/-- Takes one more step of an invocation. -/
def apply (tx : Continuation) (view : View) (evaluator : Evaluator) :
    Except Rejection StepResult := do
  let admission ← tx.admission view
  let answer ← (evaluator (.resume admission.rest) admission.budget).mapError .evaluation
  pure (tx.conclude view evaluator admission answer)

end Continuation

end MeteredLedger

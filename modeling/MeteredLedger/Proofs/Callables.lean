import MeteredLedger.Proofs.Steps

/-! # Callables

    An accepted transaction has the callable of its invocation evaluated once:
    the first one starts it, a continuation goes on with what remains. This
    module says what it has returned, in the step in which it ends.

    * `Transaction.Asks`: what is evaluated, and within which budget.
    * `Transaction.Returns`: the actions that the callable has returned.
    * `returned_of_succeeded`: a transaction that succeeds has applied what its
      callable has returned. -/

namespace MeteredLedger

open Script (Action Evaluator ScriptError Task Value)

/-- `t.Asks view owner task budget`: the transaction `t`, admitted to `view`, has
    the callable of the invocation `owner` evaluated within a budget. -/
inductive Transaction.Asks (view : View) : Transaction → Invocation → Task → UInt64 → Prop where
  /-- The first step starts the callable. -/
  | first {tx a} : tx.Admitted view a →
      Asks view (.invocation tx) tx (.start a.dapp tx.call tx.callBindings) a.budget
  /-- A later step goes on with what remains of it. -/
  | later {tx a} : tx.Admitted view a →
      Asks view (.continuation tx) a.invocation (.resume a.rest) a.budget

/-- The callable has ended in the step of `t`, and has returned these actions. -/
def Transaction.Returns (evaluator : Evaluator) (view : View) (t : Transaction)
    (owner : Invocation) (actions : List Action) : Prop :=
  ∃ task budget value spent, t.Asks view owner task budget ∧
    evaluator task budget = .ok (.completed (.ok value) spent) ∧ value.actions = .ok actions

variable {view : View} {evaluator : Evaluator} {t : Transaction}

theorem Step.asks_of_calls {s : Step} {task : Task} {budget : UInt64}
    (h : s.Calls view evaluator t task budget) : t.Asks view s.invocation task budget := by
  cases h with
  | first hadmitted _ hs =>
    rw [hs]
    exact .first hadmitted
  | later hadmitted hs =>
    rw [hs]
    exact .later hadmitted

/-- A step that completes and succeeds has applied the actions that its callable
    has returned. -/
theorem Step.succeed_of_complete {s : Step} {value : Except ScriptError Value}
    (h : (s.complete view evaluator value).status = .succeeded) :
    ∃ returned actions batch, value = .ok returned ∧ returned.actions = .ok actions ∧
      applyBatch view evaluator s.invocation actions = .ok batch ∧
      (s.countRuns batch.runs).succeed view batch = .ok (s.complete view evaluator value) := by
  unfold complete at h ⊢
  cases value with
  | error error => exact nomatch h
  | ok returned =>
    cases hactions : returned.actions with
    | error error => simp [Except.bind, hactions, fail, close] at h
    | ok actions =>
      simp only [Except.bind, hactions] at h ⊢
      cases hbatch : applyBatch view evaluator s.invocation actions with
      | error failure => simp [hbatch, fail, close] at h
      | ok batch =>
        simp only [hbatch] at h ⊢
        cases hsucceed : (s.countRuns batch.runs).succeed view batch with
        | error reason => simp [hsucceed, fail, close] at h
        | ok r => exact ⟨returned, actions, batch, rfl, hactions, hbatch, hsucceed⟩

/-- **A transaction that succeeds** has applied the actions that the callable of
    its invocation has returned. -/
theorem returned_of_succeeded {r : StepResult} (h : transition evaluator view t = .ok r)
    (hstatus : r.status = .succeeded) :
    ∃ (s : Step) (actions : List Action) (batch : Batch), s.Takes view t ∧
      t.Returns evaluator view s.invocation actions ∧
      applyBatch view evaluator s.invocation actions = .ok batch ∧
      s.succeed view batch = .ok r := by
  obtain ⟨s, task, budget, answer, hcalls, hanswer, hanswered⟩ := answered_of_transition h
  cases hanswered with
  | suspended => exact nomatch hstatus
  | exceeded => exact nomatch hstatus
  | @completed value spent =>
    obtain ⟨returned, actions, batch, rfl, hactions, hbatch, hsucceed⟩ :=
      Step.succeed_of_complete hstatus
    have hreturns : t.Returns evaluator view s.invocation actions :=
      ⟨task, budget, returned, spent, Step.asks_of_calls hcalls, hanswer, hactions⟩
    -- what the step has counted since leaves the invocation as it was
    exact ⟨(s.countRun spent).countRuns batch.runs, actions, batch,
      Step.takes_of_calls hcalls rfl rfl, hreturns, hbatch, hsucceed⟩

end MeteredLedger

import MeteredLedger.Proofs.Batches
import MeteredLedger.Transition

/-! # Steps

    What an accepted transaction has passed and how its step can end. Later
    proofs about transactions are case analyses on these two facts and never
    open the checks themselves.

    * `Invocation.Admitted`, `Continuation.Admitted`: what the checks before
      the evaluation guarantee.
    * `Step.Takes`: the step that an accepted transaction takes.
    * `Step.Ends`: the three endings of a step.
    * `Step.Calls`, `Step.Answered`: the evaluation of the callable, and how a step
      ends after each answer.
    * `answered_of_transition`: an accepted transaction ends after an answer.
    * `step_of_transition`: it takes a step, and its effect is an ending of that
      step. -/

namespace MeteredLedger

open Script (Evaluation Evaluator Expr ScriptError Task Value)

/-! ## Section 1: Admission -/

/-- What is known of an invocation that has passed the checks before any
    script runs. -/
structure Invocation.Admitted (tx : Invocation) (view : View) (a : Admission) : Prop where
  fresh : view.record tx.id = none
  positive : ∀ p ∈ tx.payments, 0 < p.amount
  account : view.account tx.dapp = some a.dapp
  verifier : a.verifier = (view.account tx.sender).bind (·.verifier)
  prepaid : a.prepaid = tx.prepaidRuns view a.verifier
  covered : view.settings.fees.minimal .invocation a.prepaid ≤ tx.fee
  budget : a.budget = view.settings.maxComplexity a.dapp.version
  budget_ne_zero : a.budget ≠ 0
  funds : (tx.fee.toNat : Int) ≤ (view.balance tx.sender .native).toInt

theorem Invocation.positive_of_requirePositive {payments : List Payment} {u : Unit}
    (h : requirePositive payments = .ok u) : ∀ p ∈ payments, 0 < p.amount := by
  unfold requirePositive at h
  split at h
  · exact nomatch h
  · rename_i hnone
    intro p hp
    have hnot := List.find?_eq_none.1 hnone p hp
    exact Int64.not_le.1 fun hle => hnot (decide_eq_true hle)

theorem Invocation.admitted_of_admission {tx : Invocation} {view : View} {a : Admission}
    (h : tx.admission view = .ok a) : tx.Admitted view a := by
  obtain ⟨hfresh, h⟩ := demand_bind_eq_ok_iff.1 h
  obtain ⟨-, h⟩ := demand_bind_eq_ok_iff.1 h
  obtain ⟨u, hpositive, h⟩ := bind_eq_ok_iff.1 h
  obtain ⟨dapp, hdapp, h⟩ := demandSome_bind_eq_ok_iff.1 h
  obtain ⟨hfee, h⟩ := demand_bind_eq_ok_iff.1 h
  obtain ⟨hbudget, h⟩ := demand_bind_eq_ok_iff.1 h
  obtain ⟨u', hfunds, h⟩ := bind_eq_ok_iff.1 h
  obtain rfl := Except.ok.inj h
  exact {
    fresh := Option.isNone_iff_eq_none.1 hfresh
    positive := positive_of_requirePositive hpositive
    account := hdapp
    verifier := rfl
    prepaid := rfl
    covered := of_decide_eq_true hfee
    budget := rfl
    budget_ne_zero := of_decide_eq_true hbudget
    funds := of_decide_eq_true (demand_eq_ok_iff.1 hfunds) }

/-- What is known of a continuation that has passed the checks before any
    script runs. -/
structure Continuation.Admitted (tx : Continuation) (view : View) (a : Admission) : Prop where
  fresh : view.record tx.id = none
  known : view.record tx.invocation = some a.record
  invocation : a.record.tx = .invocation a.invocation
  /-- The step named is the one that is stored, and it adds what the step
      before has not spent to its budget. -/
  pending : ∃ unused dapp, view.progress tx.invocation = some (.suspended tx.step a.rest unused) ∧
    view.account a.invocation.dapp = some dapp ∧
    a.budget = saturate64 ((view.settings.maxComplexity dapp.version).toNat + unused.toNat)
  budget_ne_zero : a.budget ≠ 0
  funds : ((baseFee view).toNat : Int) ≤ (view.balance a.invocation.sender .native).toInt

theorem Continuation.tx_of_requireInvocation {record : Record} {invocation : Invocation}
    (h : requireInvocation record = .ok invocation) : record.tx = .invocation invocation := by
  unfold requireInvocation at h
  split at h
  · rename_i hrecord
    exact Except.ok.inj h ▸ hrecord
  · exact nomatch h

theorem Continuation.progress_of_requireStep {tx : Continuation} {view : View} {rest : Expr}
    {unused : UInt64} (h : tx.requireStep view = .ok (rest, unused)) :
    view.progress tx.invocation = some (.suspended tx.step rest unused) := by
  unfold requireStep at h
  split at h
  · exact nomatch h
  · exact nomatch h
  · rename_i step rest' unused' hprogress
    split at h
    · rename_i hstep
      obtain ⟨rfl, rfl⟩ := Prod.mk.inj (Except.ok.inj h)
      rw [hprogress, hstep]
    · exact nomatch h

theorem Continuation.admitted_of_admission {tx : Continuation} {view : View} {a : Admission}
    (h : tx.admission view = .ok a) : tx.Admitted view a := by
  obtain ⟨hfresh, h⟩ := demand_bind_eq_ok_iff.1 h
  obtain ⟨record, hrecord, h⟩ := demandSome_bind_eq_ok_iff.1 h
  obtain ⟨invocation, hinvocation, h⟩ := bind_eq_ok_iff.1 h
  obtain ⟨⟨rest, unused⟩, hstep, h⟩ := bind_eq_ok_iff.1 h
  obtain ⟨dapp, hdapp, h⟩ := demandSome_bind_eq_ok_iff.1 h
  obtain ⟨hbudget, h⟩ := demand_bind_eq_ok_iff.1 h
  obtain ⟨-, h⟩ := demand_bind_eq_ok_iff.1 h
  obtain ⟨u, hfunds, h⟩ := bind_eq_ok_iff.1 h
  obtain rfl := Except.ok.inj h
  exact {
    fresh := Option.isNone_iff_eq_none.1 hfresh
    known := hrecord
    invocation := tx_of_requireInvocation hinvocation
    pending := ⟨unused, dapp, progress_of_requireStep hstep, hdapp, rfl⟩
    budget_ne_zero := of_decide_eq_true hbudget
    funds := of_decide_eq_true (demand_eq_ok_iff.1 hfunds) }

/-! ## Section 2: Evaluation -/

/-- An invocation is accepted with the answer that the evaluator gives to its
    callable, after the sender has approved. -/
theorem Invocation.apply_eq_ok {tx : Invocation} {view : View} {evaluator : Evaluator}
    {r : StepResult} (h : tx.apply view evaluator = .ok r) :
    ∃ a spent answer, tx.Admitted view a ∧ tx.authorize view evaluator a.verifier = .ok spent ∧
      evaluator (.start a.dapp tx.call tx.callBindings) a.budget = .ok answer ∧
      r = conclude (Step.countRun { invocation := tx, origin := .invocation a.prepaid } spent)
        view evaluator a answer := by
  obtain ⟨a, hadmission, h⟩ := bind_eq_ok_iff.1 h
  obtain ⟨spent, hauthorize, h⟩ := bind_eq_ok_iff.1 h
  obtain ⟨answer, hanswer, h⟩ := bind_eq_ok_iff.1 h
  exact ⟨a, spent, answer, admitted_of_admission hadmission, hauthorize,
    mapError_eq_ok_iff.1 hanswer, (Except.ok.inj h).symm⟩

/-- A continuation is accepted with the answer that the evaluator gives to the
    stored remainder. -/
theorem Continuation.apply_eq_ok {tx : Continuation} {view : View} {evaluator : Evaluator}
    {r : StepResult} (h : tx.apply view evaluator = .ok r) :
    ∃ a answer, tx.Admitted view a ∧ evaluator (.resume a.rest) a.budget = .ok answer ∧
      r = tx.conclude view evaluator a answer := by
  obtain ⟨a, hadmission, h⟩ := bind_eq_ok_iff.1 h
  obtain ⟨answer, hanswer, h⟩ := bind_eq_ok_iff.1 h
  exact ⟨a, answer, admitted_of_admission hadmission, mapError_eq_ok_iff.1 hanswer,
    (Except.ok.inj h).symm⟩

/-! ## Section 3: Endings -/

namespace Step

/-- The step that the next continuation of the invocation has to name. -/
def nextStep (s : Step) : UInt32 :=
  match s.origin with
  | .invocation _ => 0
  | .continuation tx _ => saturate32 (tx.step.toNat + 1)

/-- The fee of the step if it leaves the invocation in progress. -/
def suspensionFee (s : Step) (view : View) : UInt64 :=
  match s.origin with
  | .invocation prepaid => view.settings.fees.ofStep .invocation .firstSuspended prepaid
  | .continuation .. => Continuation.baseFee view

/-- The three endings of a step. -/
inductive Ends (view : View) (evaluator : Evaluator) (s : Step) : StepResult → Prop where
  /-- The budget ran out. -/
  | suspended {rest unused} : Ends view evaluator s
      (s.suspend view (s.suspensionFee view) (.suspended s.nextStep rest unused))
  /-- The callable failed, or what it asked for cannot be done. -/
  | failed {reason} : Ends view evaluator s (s.fail view reason)
  /-- What the callable asked for has been done. -/
  | succeeded {actions batch r} : applyBatch view evaluator s.invocation actions = .ok batch →
      s.succeed view batch = .ok r → Ends view evaluator s r

/-- `s.Takes view tx`: the transaction `tx`, admitted to `view`, takes the step
    `s`. -/
inductive Takes (view : View) (s : Step) : Transaction → Prop where
  | first {tx a} : tx.Admitted view a → s.invocation = tx → s.origin = .invocation a.prepaid →
      Takes view s (.invocation tx)
  | later {tx a} : tx.Admitted view a → s.invocation = a.invocation →
      s.origin = .continuation tx a.record → Takes view s (.continuation tx)

theorem succeed_eq_ok {s : Step} {view : View} {batch : Batch} {r : StepResult}
    (h : s.succeed view batch = .ok r) :
    ∃ fee changes, s.finalFee view batch.runs.actions = .ok fee ∧
      (charge s.invocation.sender fee).merge batch.delta = .ok changes ∧
      checkBalances view changes = .ok () ∧
      r = s.close view changes .succeeded fee
        (s.parties.insertMany (batch.result.transfers.map (·.recipient))) .finished
        (some batch.result) := by
  obtain ⟨fee, hfee, h⟩ := bind_eq_ok_iff.1 h
  obtain ⟨changes, hchanges, h⟩ := bind_eq_ok_iff.1 h
  obtain ⟨u, hbalances, h⟩ := bind_eq_ok_iff.1 h
  exact ⟨fee, changes, hfee, mapError_eq_ok_iff.1 hchanges, hbalances, (Except.ok.inj h).symm⟩

/-- A step that completes succeeds or fails, whatever it has counted. -/
theorem ends_of_complete (s : Step) (view : View) (evaluator : Evaluator)
    (result : Except ScriptError Value) :
    ∃ s' : Step, s'.invocation = s.invocation ∧ s'.origin = s.origin ∧
      s'.Ends view evaluator (s.complete view evaluator result) := by
  unfold complete
  split
  · exact ⟨s, rfl, rfl, .failed⟩
  · rename_i actions _
    split
    · exact ⟨s.countRuns _, rfl, rfl, .failed⟩
    · rename_i batch hbatch
      dsimp only
      split
      · rename_i r hsucceed
        -- the runs of the batch are counted before the step succeeds or fails
        exact ⟨s.countRuns batch.runs, rfl, rfl, .succeeded hbatch hsucceed⟩
      · exact ⟨s.countRuns batch.runs, rfl, rfl, .failed⟩

/-! ## Section 4: From the answer to the ending -/

/-- The transaction takes the step `s`, which has counted the approval of the
    sender if it is a first one, and is about to have its callable evaluated. -/
inductive Calls (view : View) (evaluator : Evaluator) (s : Step) :
    Transaction → Task → UInt64 → Prop where
  | first {tx a verified} : tx.Admitted view a →
      tx.authorize view evaluator a.verifier = .ok verified →
      s = countRun { invocation := tx, origin := .invocation a.prepaid } verified →
      Calls view evaluator s (.invocation tx) (.start a.dapp tx.call tx.callBindings) a.budget
  | later {tx a} : tx.Admitted view a →
      s = { invocation := a.invocation, origin := .continuation tx a.record } →
      Calls view evaluator s (.continuation tx) (.resume a.rest) a.budget

/-- How a step ends after the answer for its callable, which is counted first. -/
inductive Answered (view : View) (evaluator : Evaluator) (s : Step) (budget : UInt64) :
    Evaluation → StepResult → Prop where
  | completed {value spent} : Answered view evaluator s budget (.completed value spent)
      ((s.countRun spent).complete view evaluator value)
  | suspended {rest unused} : Answered view evaluator s budget (.suspended rest unused)
      ((s.countRun (budget - min unused budget)).suspend view (s.suspensionFee view)
        (.suspended s.nextStep rest unused))
  /-- Where continuations are not active, a callable has to end within its budget. -/
  | exceeded {rest unused} : Answered view evaluator s budget (.suspended rest unused)
      ((s.countRun (budget - min unused budget)).fail view .complexityLimitExceeded)

variable {view : View} {evaluator : Evaluator} {s : Step} {t : Transaction} {task : Task}
  {budget : UInt64}

/-- What the step counts later makes no difference to who takes it. -/
theorem takes_of_calls (h : s.Calls view evaluator t task budget) {s' : Step}
    (hinvocation : s'.invocation = s.invocation) (horigin : s'.origin = s.origin) :
    s'.Takes view t := by
  cases h with
  | first hadmitted _ hs =>
    rw [hs] at hinvocation horigin
    exact .first hadmitted hinvocation horigin
  | later hadmitted hs =>
    rw [hs] at hinvocation horigin
    exact .later hadmitted hinvocation horigin

theorem ends_of_answered {answer : Evaluation} {r : StepResult}
    (h : s.Answered view evaluator budget answer r) :
    ∃ s' : Step, s'.invocation = s.invocation ∧ s'.origin = s.origin ∧
      s'.Ends view evaluator r := by
  cases h with
  | completed => exact ends_of_complete (s.countRun _) view evaluator _
  | @suspended rest unused => exact ⟨s.countRun (budget - min unused budget), rfl, rfl, .suspended⟩
  | @exceeded rest unused => exact ⟨s.countRun (budget - min unused budget), rfl, rfl, .failed⟩

end Step

/-- **Every accepted transaction** has its callable evaluated once, and ends as the
    answer says. -/
theorem answered_of_transition {evaluator : Evaluator} {view : View} {t : Transaction}
    {r : StepResult} (h : transition evaluator view t = .ok r) :
    ∃ s task budget answer, Step.Calls view evaluator s t task budget ∧
      evaluator task budget = .ok answer ∧ s.Answered view evaluator budget answer r := by
  cases t with
  | invocation tx =>
    obtain ⟨a, verified, answer, hadmitted, hauthorize, hanswer, rfl⟩ := Invocation.apply_eq_ok h
    refine ⟨_, _, _, answer, .first hadmitted hauthorize rfl, hanswer, ?_⟩
    cases answer with
    | completed value spent => exact .completed
    | suspended rest unused =>
      unfold Invocation.conclude
      dsimp only
      -- only where continuations are active does the invocation stay in progress
      split
      · exact .suspended
      · exact .exceeded
  | continuation tx =>
    obtain ⟨a, answer, hadmitted, hanswer, rfl⟩ := Continuation.apply_eq_ok h
    refine ⟨_, _, _, answer, .later hadmitted rfl, hanswer, ?_⟩
    cases answer with
    | completed value spent => exact .completed
    | suspended rest unused => exact .suspended

/-- **What an accepted transaction does**: it takes a step, and its effect is
    one of the three endings of that step. -/
theorem step_of_transition {evaluator : Evaluator} {view : View} {tx : Transaction}
    {r : StepResult} (h : transition evaluator view tx = .ok r) :
    ∃ s : Step, s.Takes view tx ∧ s.Ends view evaluator r := by
  obtain ⟨s, task, budget, answer, hcalls, -, hanswered⟩ := answered_of_transition h
  obtain ⟨s', hinvocation, horigin, hends⟩ := Step.ends_of_answered hanswered
  exact ⟨s', Step.takes_of_calls hcalls hinvocation horigin, hends⟩

end MeteredLedger

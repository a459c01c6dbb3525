import Mathlib.Algebra.Order.BigOperators.Group.List
import Mathlib.Algebra.Order.Ring.Nat
import MeteredLedger.Proofs.Approvals
import MeteredLedger.Proofs.Callables
import MeteredLedger.Proofs.Charges
import MeteredLedger.Proofs.Threshold
import MeteredLedger.Proofs.Transparency

/-! # Tallies

    The counters of a transaction say how often the evaluator has been asked and
    what its answers have cost, also where the transaction fails. They are compared
    with a list of the evaluations: the verifier of the sender, the callable, and
    the scripts of assets that the batch gets to.

    * `ScriptRun`, `ScriptRun.cost`: one evaluation, and what it counts for.
    * `Batch.asks`: the evaluation that a payment or an action leads to.
    * `Batch.scriptRuns`: those of a list of them, up to the first that fails.
    * `counted_of_perform`, `counted_of_performs`: a batch counts them all.
    * `Transaction.Performs`: the evaluations of a whole transaction.
    * `transition_congr`: no other answers matter to it.
    * `counters_report_runs`: the counters of every accepted transaction. -/

namespace MeteredLedger

open Script (Action Evaluation EvaluationError Evaluator Expr ScriptError Task Value)

/-! ## Section 1: Evaluations -/

/-- A task that the evaluator is given, with a budget. -/
structure ScriptRun where
  task : Task
  budget : UInt64

namespace ScriptRun

/-- What the answer counts for. A callable that does not end has left a part of its
    budget; a script that is to approve something is charged all of it. -/
def cost (evaluator : Evaluator) (run : ScriptRun) : Nat :=
  match evaluator run.task run.budget with
  | .error _ => 0
  | .ok (.completed _ spent) => spent.toNat
  | .ok (.suspended _ unused) =>
    match run.task with
    | .verify .. => run.budget.toNat
    | _ => run.budget.toNat - unused.toNat

/-- The evaluators give the same answer. -/
def SameAnswer (evaluator evaluator' : Evaluator) (run : ScriptRun) : Prop :=
  evaluator' run.task run.budget = evaluator run.task run.budget

/-- No run of the evaluator of the ledger counts for more than its budget. -/
theorem cost_le_budget (run : ScriptRun) : run.cost Script.evaluate ≤ run.budget.toNat := by
  unfold cost
  split
  · exact Nat.zero_le _
  · rename_i hanswer
    obtain ⟨e, -, hrun⟩ := Script.evaluate_eq_ok hanswer
    exact UInt64.le_iff_toNat_le.1 (Script.spent_le_of_run_completed hrun)
  · split
    · exact Nat.le_refl _
    · exact Nat.sub_le _ _

end ScriptRun

/-- What several runs count for. -/
def totalCost (evaluator : Evaluator) (runs : List ScriptRun) : Nat :=
  (runs.map (·.cost evaluator)).sum

theorem totalCost_append (evaluator : Evaluator) (runs runs' : List ScriptRun) :
    totalCost evaluator (runs ++ runs') = totalCost evaluator runs + totalCost evaluator runs' := by
  simp [totalCost]

theorem totalCost_cons (evaluator : Evaluator) (run : ScriptRun) (runs : List ScriptRun) :
    totalCost evaluator (run :: runs) = run.cost evaluator + totalCost evaluator runs := by
  simp [totalCost]

/-! ## Section 2: Batches -/

section

variable {view : View} {evaluator evaluator' : Evaluator} {tx : Invocation}

/-- The run of the script of an asset, if it has one. -/
def View.approvalRun (v : View) (op : Operation) : Option ScriptRun :=
  (v.assetScript op.asset).map fun script =>
    ⟨.verify script op.bindings, v.settings.assetScriptComplexity⟩

namespace Batch

/-- The run that an item leads to: if it passes its checks, the script of its asset
    is asked for approval. -/
def asks (view : View) (tx : Invocation) (b : Batch) (item : BatchItem) : Option ScriptRun :=
  match b.check view tx item with
  | .error _ => none
  | .ok _ => (item.operation? tx).bind view.approvalRun

/-- The runs that a list of items leads to, up to the first that fails, with its own. -/
def scriptRuns (view : View) (evaluator : Evaluator) (tx : Invocation) :
    Batch → List BatchItem → List ScriptRun
  | _, [] => []
  | b, item :: items => (b.asks view tx item).toList ++
    match b.perform view evaluator tx item with
    | .ok next => scriptRuns view evaluator tx next items
    | .error _ => []

end Batch

/-- More has been counted afterwards: these runs, and what they cost. -/
structure ScriptRuns.Counted (before : ScriptRuns) (evaluator : Evaluator) (runs : List ScriptRun)
    (after : ScriptRuns) : Prop where
  total : after.total = before.total + runs.length
  complexity : after.complexity = before.complexity + totalCost evaluator runs

theorem ScriptRuns.counted_nil (runs : ScriptRuns) : runs.Counted evaluator [] runs where
  total := rfl
  complexity := rfl

theorem ScriptRuns.Counted.append {before between after : ScriptRuns} {runs runs' : List ScriptRun}
    (h : before.Counted evaluator runs between) (h' : between.Counted evaluator runs' after) :
    before.Counted evaluator (runs ++ runs') after where
  total := by
    rw [h'.total, h.total, List.length_append]
    omega
  complexity := by
    rw [h'.complexity, h.complexity, totalCost_append]
    omega

theorem ScriptRuns.counted_count (evaluator : Evaluator) (runs : ScriptRuns) (kind : OperationKind)
    (run : ScriptRun) : runs.Counted evaluator [run] (runs.count kind (run.cost evaluator)) := by
  constructor
  · cases kind <;> simp [count, ScriptRuns.total] <;> omega
  · cases kind <;> simp [count, totalCost]

/-- What is charged for an approval is the cost of its run. -/
theorem verdict_cost (script : Expr) (bindings : Script.Scope) (budget : UInt64) :
    (verdict budget (evaluator (.verify script bindings) budget)).2.toNat =
      ScriptRun.cost evaluator ⟨.verify script bindings, budget⟩ := by
  unfold ScriptRun.cost verdict
  dsimp only
  split <;> simp_all

namespace Batch

variable {b : Batch}

/-! ### Items and lists of items -/

theorem runs_of_check (item : BatchItem) :
    FailsOnlyWith (fun failure => failure.runs = b.runs) (b.check view tx item) := by
  have hknown : ∀ asset, FailsOnlyWith (fun failure => failure.runs = b.runs)
      (b.requireKnown view asset) := by
    intro asset
    cases asset with
    | native => exact failsOnlyWith_ok ()
    | issued id => exact failsOnlyWith_demand rfl
  cases item with
  | payment p => exact hknown p.asset
  | action a =>
    cases a with
    | data key value => exact failsOnlyWith_ok ()
    | transfer recipient asset amount =>
      refine failsOnlyWith_bind (failsOnlyWith_demand rfl) fun _ => ?_
      exact failsOnlyWith_bind (failsOnlyWith_demand rfl) fun _ => hknown asset
    | reissue asset amount flag =>
      refine failsOnlyWith_bind (failsOnlyWith_demand rfl) fun _ => ?_
      refine failsOnlyWith_bind (failsOnlyWith_demandSome rfl) fun description => ?_
      refine failsOnlyWith_bind (failsOnlyWith_demand rfl) fun _ => ?_
      exact failsOnlyWith_bind (failsOnlyWith_demand rfl) fun _ => failsOnlyWith_demand rfl
    | burn asset amount =>
      exact failsOnlyWith_bind (failsOnlyWith_demand rfl) fun _ => hknown (.issued asset)

/-- An approval counts the run of the script, whatever its answer. -/
theorem counted_of_approve? (view : View) (evaluator : Evaluator) (b : Batch)
    (op : Option Operation) : b.runs.Counted evaluator (op.bind view.approvalRun).toList
      (countedRuns (b.approve? view evaluator op)) := by
  cases op with
  | none => exact ScriptRuns.counted_nil _
  | some op =>
    cases hscript : view.assetScript op.asset with
    | none =>
      simp only [approve?, approve, hscript, Option.bind_some, View.approvalRun, Option.map_none]
      exact ScriptRuns.counted_nil _
    | some script =>
      have hcount := ScriptRuns.counted_count evaluator b.runs op.kind
        ⟨.verify script op.bindings, view.settings.assetScriptComplexity⟩
      rw [← verdict_cost] at hcount
      simp only [approve?, approve, hscript, Option.bind_some, View.approvalRun, Option.map_some]
      split
      · exact hcount
      · exact hcount

/-- **One item** counts the run that it leads to, also where it fails. -/
theorem counted_of_perform (view : View) (evaluator : Evaluator) (tx : Invocation) (b : Batch)
    (item : BatchItem) : b.runs.Counted evaluator (b.asks view tx item).toList
      (countedRuns (b.perform view evaluator tx item)) := by
  rw [perform_eq]
  unfold asks
  cases hcheck : b.check view tx item with
  | error failure =>
    have hsame : failure.runs = b.runs := runs_of_check item failure hcheck
    show b.runs.Counted evaluator [] failure.runs
    rw [hsame]
    exact ScriptRuns.counted_nil _
  | ok u =>
    have hcarried : ∀ approved : Batch, countedRuns (do
        let carried ← approved.carryOut tx item
        pure (carried.noteItem item)) = approved.runs := by
      intro approved
      rw [countedRuns_bind fun carried _ => ?_, countedRuns_carryOut]
      cases item <;> rfl
    have happroved := counted_of_approve? view evaluator b (item.operation? tx)
    rw [← countedRuns_bind fun approved _ => hcarried approved] at happroved
    exact happroved

/-- **A list of items** counts the runs that it leads to. -/
theorem counted_of_performs (view : View) (evaluator : Evaluator) (tx : Invocation) (b : Batch)
    (items : List BatchItem) : b.runs.Counted evaluator (scriptRuns view evaluator tx b items)
      (countedRuns (items.foldlM (perform view evaluator tx) b)) := by
  -- induction on the items that are still to be performed
  induction items generalizing b with
  | nil => exact ScriptRuns.counted_nil _
  | cons item items ih =>
    have hitem := counted_of_perform view evaluator tx b item
    rw [List.foldlM_cons]
    unfold scriptRuns
    cases hperform : b.perform view evaluator tx item with
    | error failure =>
      rw [hperform] at hitem
      rw [List.append_nil]
      exact hitem
    | ok next =>
      rw [hperform] at hitem
      exact hitem.append (ih next)

/-! ### The answers that matter -/

theorem approve?_congr {op : Option Operation}
    (h : ∀ run ∈ op.bind view.approvalRun, run.SameAnswer evaluator evaluator') :
    b.approve? view evaluator' op = b.approve? view evaluator op := by
  cases op with
  | none => rfl
  | some op =>
    cases hscript : view.assetScript op.asset with
    | none => simp [approve?, approve, hscript]
    | some script =>
      have hsame := h ⟨.verify script op.bindings, view.settings.assetScriptComplexity⟩
        (by simp [View.approvalRun, hscript])
      unfold ScriptRun.SameAnswer at hsame
      simp only [approve?, approve, hscript, hsame]

theorem perform_congr {item : BatchItem}
    (h : ∀ run ∈ b.asks view tx item, run.SameAnswer evaluator evaluator') :
    b.perform view evaluator' tx item = b.perform view evaluator tx item := by
  rw [perform_eq, perform_eq]
  unfold asks at h
  cases hcheck : b.check view tx item with
  | error failure => rfl
  | ok u =>
    rw [hcheck] at h
    rw [approve?_congr h]

theorem performs_congr {items : List BatchItem}
    (h : ∀ run ∈ scriptRuns view evaluator tx b items, run.SameAnswer evaluator evaluator') :
    items.foldlM (perform view evaluator' tx) b = items.foldlM (perform view evaluator tx) b := by
  -- induction on the items that are still to be performed
  induction items generalizing b with
  | nil => rfl
  | cons item items ih =>
    unfold scriptRuns at h
    have hitem : b.perform view evaluator' tx item = b.perform view evaluator tx item :=
      perform_congr fun run hrun => h run (List.mem_append_left _ (Option.mem_toList.2 hrun))
    rw [List.foldlM_cons, List.foldlM_cons, hitem]
    cases hperform : b.perform view evaluator tx item with
    | error failure => rfl
    | ok next =>
      rw [hperform] at h
      exact ih fun run hrun => h run (List.mem_append_right _ hrun)

end Batch

/-! ## Section 3: Transactions -/

namespace Invocation

/-- The runs of asset scripts for the payments and actions of an invocation. There
    are none if a limit is exceeded. -/
def batchRuns (tx : Invocation) (view : View) (evaluator : Evaluator) (actions : List Action) :
    List ScriptRun :=
  match view.settings.limits.exceeded actions with
  | some _ => []
  | none => Batch.scriptRuns view evaluator tx {} (tx.items actions)

/-- The runs that follow an answer for the callable: those for what it has returned. -/
def laterRuns (tx : Invocation) (view : View) (evaluator : Evaluator) : Evaluation → List ScriptRun
  | .completed result _ =>
    match result.bind Value.actions with
    | .ok actions => tx.batchRuns view evaluator actions
    | .error _ => []
  | .suspended .. => []

theorem counted_of_applyBatch (view : View) (evaluator : Evaluator) (tx : Invocation)
    (actions : List Action) :
    ({} : ScriptRuns).Counted evaluator (tx.batchRuns view evaluator actions)
      (Batch.countedRuns (applyBatch view evaluator tx actions)) := by
  rw [applyBatch_eq_foldlM]
  unfold batchRuns
  cases view.settings.limits.exceeded actions with
  | some fault => exact ScriptRuns.counted_nil _
  | none => exact Batch.counted_of_performs view evaluator tx {} (tx.items actions)

theorem applyBatch_congr {actions : List Action}
    (h : ∀ run ∈ tx.batchRuns view evaluator actions, run.SameAnswer evaluator evaluator') :
    applyBatch view evaluator' tx actions = applyBatch view evaluator tx actions := by
  rw [applyBatch_eq_foldlM, applyBatch_eq_foldlM]
  unfold batchRuns at h
  split
  · rfl
  · rename_i hlimits
    rw [hlimits] at h
    exact Batch.performs_congr h

end Invocation

/-- A verifier approves by returning true. -/
theorem Invocation.answer_of_authorize {verifier : Expr} {spent : UInt64}
    (h : tx.authorize view evaluator (some verifier) = .ok spent) :
    evaluator (.verify verifier tx.verifierBindings) view.settings.assetScriptComplexity =
      .ok (.completed (.ok (.bool true)) spent) := by
  unfold authorize at h
  dsimp only at h
  split at h
  · exact nomatch h
  · rename_i hanswer
    rw [hanswer, Except.ok.inj h]
  · exact nomatch h
  · exact nomatch h
  · exact nomatch h

/-- The run that approves an invocation, if its sender has a verifier. -/
def Transaction.verifierRun (view : View) : Transaction → Option ScriptRun
  | .invocation tx => ((view.account tx.sender).bind (·.verifier)).map fun verifier =>
    ⟨.verify verifier tx.verifierBindings, view.settings.assetScriptComplexity⟩
  | .continuation _ => none

/-- What is counted for the approval of an invocation although nothing has run. -/
def Transaction.unverified (view : View) : Transaction → Nat
  | .invocation tx => 1 - view.verifierRuns tx.sender
  | .continuation _ => 0

/-- The evaluations that a transaction performs: the verifier, the callable and,
    after its answer, the scripts of assets. -/
def Transaction.Performs (evaluator : Evaluator) (view : View) (t : Transaction)
    (call : ScriptRun) (runs : List ScriptRun) : Prop :=
  ∃ owner answer, t.Asks view owner call.task call.budget ∧
    evaluator call.task call.budget = .ok answer ∧
    runs = (t.verifierRun view).toList ++ call :: owner.laterRuns view evaluator answer

/-- The counters of the transaction, before they are cut off. -/
structure StepResult.Tallies (r : StepResult) (runs complexity : Nat) : Prop where
  scriptsRun : r.delta.scriptsRun = saturate32 runs
  complexity : r.delta.complexity = saturate64 complexity

namespace Step

variable {s : Step} {t : Transaction} {task : Task} {budget : UInt64}

/-- Before the callable is evaluated, the verifier has been counted. -/
theorem counted_of_calls (h : s.Calls view evaluator t task budget) :
    s.scriptsRun = (t.verifierRun view).toList.length + t.unverified view ∧
      s.complexity = totalCost evaluator (t.verifierRun view).toList := by
  cases h with
  | later _ hs =>
    rw [hs]
    exact ⟨rfl, rfl⟩
  | @first tx a verified hadmitted hauthorize hs =>
    rw [hadmitted.verifier] at hauthorize
    rw [hs]
    simp only [Transaction.verifierRun, Transaction.unverified, View.verifierRuns]
    cases hverifier : (view.account tx.sender).bind (·.verifier) with
    | none =>
      rw [hverifier] at hauthorize
      obtain rfl := Except.ok.inj hauthorize
      simp [countRun, totalCost]
    | some verifier =>
      rw [hverifier] at hauthorize
      have hanswer := Invocation.answer_of_authorize hauthorize
      simp [countRun, totalCost, ScriptRun.cost, hanswer]

/-- The callable is not evaluated to approve something. -/
theorem cost_of_suspended (h : s.Calls view evaluator t task budget) {rest : Expr}
    {unused : UInt64} (hanswer : evaluator task budget = .ok (.suspended rest unused)) :
    ScriptRun.cost evaluator ⟨task, budget⟩ = (budget - min unused budget).toNat := by
  have hleft : (budget - min unused budget).toNat = budget.toNat - unused.toNat := by
    by_cases hle : unused ≤ budget
    · have hmin : min unused budget = unused := if_pos hle
      rw [hmin, UInt64.toNat_sub_of_le _ _ hle]
    · have hmin : min unused budget = budget := if_neg hle
      have hlt := UInt64.lt_iff_toNat_lt.1 (UInt64.not_le.1 hle)
      rw [hmin, UInt64.sub_self, UInt64.toNat_zero]
      omega
  rw [hleft]
  unfold ScriptRun.cost
  dsimp only
  rw [hanswer]
  cases h <;> rfl

/-- What a batch has counted, also until it failed, is added to the counters. -/
theorem tallies_of_counted {runs : List ScriptRun} {after : ScriptRuns} {r : StepResult}
    (h : ({} : ScriptRuns).Counted evaluator runs after)
    (hr : r.Tallies (s.scriptsRun + after.total) (s.complexity + after.complexity)) :
    r.Tallies (s.scriptsRun + runs.length) (s.complexity + totalCost evaluator runs) := by
  have htotal : after.total = runs.length := h.total.trans (Nat.zero_add _)
  have hcomplexity : after.complexity = totalCost evaluator runs :=
    h.complexity.trans (Nat.zero_add _)
  rwa [htotal, hcomplexity] at hr

theorem tallies_of_complete (s : Step) (value : Except ScriptError Value) (spent : UInt64) :
    (s.complete view evaluator value).Tallies
      (s.scriptsRun + (s.invocation.laterRuns view evaluator (.completed value spent)).length)
      (s.complexity +
        totalCost evaluator (s.invocation.laterRuns view evaluator (.completed value spent))) := by
  unfold complete Invocation.laterRuns
  dsimp only
  cases value.bind Value.actions with
  | error error =>
    have hfail : (s.fail view (.script error)).Tallies s.scriptsRun s.complexity := ⟨rfl, rfl⟩
    simpa [totalCost] using hfail
  | ok actions =>
    have hcounted := Invocation.counted_of_applyBatch view evaluator s.invocation actions
    dsimp only
    cases hbatch : applyBatch view evaluator s.invocation actions with
    | error failure =>
      rw [hbatch] at hcounted
      exact tallies_of_counted hcounted ⟨rfl, rfl⟩
    | ok batch =>
      rw [hbatch] at hcounted
      refine tallies_of_counted hcounted ?_
      dsimp only
      cases hsucceed : (s.countRuns batch.runs).succeed view batch with
      | error reason => exact ⟨rfl, rfl⟩
      | ok r =>
        obtain ⟨fee, changes, -, -, -, rfl⟩ := succeed_eq_ok hsucceed
        exact ⟨rfl, rfl⟩

/-- **Every answer for the callable** is counted, with the runs that follow it. -/
theorem tallies_of_answered {answer : Evaluation} {r : StepResult}
    (hcalls : s.Calls view evaluator t task budget) (hanswer : evaluator task budget = .ok answer)
    (h : s.Answered view evaluator budget answer r) :
    r.Tallies (s.scriptsRun + (1 + (s.invocation.laterRuns view evaluator answer).length))
      (s.complexity + (ScriptRun.cost evaluator ⟨task, budget⟩ +
        totalCost evaluator (s.invocation.laterRuns view evaluator answer))) := by
  rw [← Nat.add_assoc, ← Nat.add_assoc]
  cases h with
  | @completed value spent =>
    have hcost : ScriptRun.cost evaluator ⟨task, budget⟩ = spent.toNat := by
      simp [ScriptRun.cost, hanswer]
    rw [hcost]
    exact (s.countRun spent).tallies_of_complete value spent
  | suspended =>
    rw [cost_of_suspended hcalls hanswer]
    exact ⟨rfl, rfl⟩
  | exceeded =>
    rw [cost_of_suspended hcalls hanswer]
    exact ⟨rfl, rfl⟩

end Step

/-! ### The answers that matter -/

theorem Invocation.Admitted.unique {a a' : Invocation.Admission} (h : tx.Admitted view a)
    (h' : tx.Admitted view a') : a = a' := by
  have hdapp : a.dapp = a'.dapp := Option.some.inj (h.account.symm.trans h'.account)
  have hverifier : a.verifier = a'.verifier := h.verifier.trans h'.verifier.symm
  have hprepaid : a.prepaid = a'.prepaid := by rw [h.prepaid, h'.prepaid, hverifier]
  have hbudget : a.budget = a'.budget := by rw [h.budget, h'.budget, hdapp]
  cases a
  cases a'
  simp_all

theorem Continuation.Admitted.unique {tx : Continuation} {a a' : Continuation.Admission}
    (h : tx.Admitted view a) (h' : tx.Admitted view a') : a = a' := by
  have hrecord : a.record = a'.record := Option.some.inj (h.known.symm.trans h'.known)
  have hinvocation : a.invocation = a'.invocation := by
    have hsame := h.invocation.symm.trans (hrecord ▸ h'.invocation)
    exact Transaction.invocation.inj hsame
  obtain ⟨unused, dapp, hprogress, hdapp, hbudget⟩ := h.pending
  obtain ⟨unused', dapp', hprogress', hdapp', hbudget'⟩ := h'.pending
  obtain ⟨-, hrest, rfl⟩ := Progress.suspended.inj
    (Option.some.inj (hprogress.symm.trans hprogress'))
  rw [hinvocation] at hdapp
  obtain rfl : dapp = dapp' := Option.some.inj (hdapp.symm.trans hdapp')
  have hsame : a.budget = a'.budget := hbudget.trans hbudget'.symm
  cases a
  cases a'
  simp_all

theorem Invocation.authorize_congr {verifier : Option Expr}
    (h : verifier = (view.account tx.sender).bind (·.verifier))
    (hsame : ∀ run ∈ (Transaction.invocation tx).verifierRun view,
      run.SameAnswer evaluator evaluator') :
    tx.authorize view evaluator' verifier = tx.authorize view evaluator verifier := by
  cases verifier with
  | none => rfl
  | some verifier =>
    have hrun := hsame ⟨.verify verifier tx.verifierBindings, view.settings.assetScriptComplexity⟩
      (by simp [Transaction.verifierRun, ← h])
    unfold ScriptRun.SameAnswer at hrun
    simp only [authorize, hrun]

theorem Step.complete_congr {s : Step} {value : Except ScriptError Value} {spent : UInt64}
    (h : ∀ run ∈ s.invocation.laterRuns view evaluator (.completed value spent),
      run.SameAnswer evaluator evaluator') :
    s.complete view evaluator' value = s.complete view evaluator value := by
  unfold Invocation.laterRuns at h
  unfold complete
  dsimp only at h
  cases hactions : value.bind Value.actions with
  | error error => rfl
  | ok actions =>
    rw [hactions] at h
    simp only [Invocation.applyBatch_congr h]

/-- **No other answers matter.** An evaluator that gives the same answers to the
    evaluations performed has the same effect. -/
theorem transition_congr {t : Transaction} {r : StepResult} {call : ScriptRun}
    {runs : List ScriptRun} (h : transition evaluator view t = .ok r)
    (hperforms : t.Performs evaluator view call runs)
    (hsame : ∀ run ∈ runs, run.SameAnswer evaluator evaluator') :
    transition evaluator' view t = .ok r := by
  obtain ⟨owner, answer, hasks, hanswer, rfl⟩ := hperforms
  have hverifier : ∀ run ∈ t.verifierRun view, run.SameAnswer evaluator evaluator' :=
    fun run hrun => hsame run (List.mem_append_left _ (Option.mem_toList.2 hrun))
  have hcall : evaluator' call.task call.budget = .ok answer := by
    rw [← hanswer]
    exact hsame call (List.mem_append_right _ List.mem_cons_self)
  have hlater : ∀ run ∈ owner.laterRuns view evaluator answer,
      run.SameAnswer evaluator evaluator' :=
    fun run hrun => hsame run (List.mem_append_right _ (List.mem_cons_of_mem _ hrun))
  generalize call.task = task at hasks hanswer hcall
  generalize call.budget = budget at hasks hanswer hcall
  cases hasks with
  | @first tx a hadmitted =>
    obtain ⟨a', hadmission, h⟩ := bind_eq_ok_iff.1 h
    obtain rfl : a = a' := hadmitted.unique (Invocation.admitted_of_admission hadmission)
    obtain ⟨spent, hauthorize, h⟩ := bind_eq_ok_iff.1 h
    obtain ⟨answer', hanswer', h⟩ := bind_eq_ok_iff.1 h
    obtain rfl : answer = answer' :=
      Except.ok.inj (hanswer.symm.trans (mapError_eq_ok_iff.1 hanswer'))
    rw [← Invocation.authorize_congr hadmitted.verifier hverifier] at hauthorize
    refine bind_eq_ok_iff.2 ⟨a, hadmission, bind_eq_ok_iff.2 ⟨spent, hauthorize, ?_⟩⟩
    refine bind_eq_ok_iff.2 ⟨answer, mapError_eq_ok_iff.2 hcall, ?_⟩
    rw [← h]
    cases answer with
    | suspended rest unused => rfl
    | completed value spent' => exact congrArg Except.ok (Step.complete_congr hlater)
  | @later tx a hadmitted =>
    obtain ⟨a', hadmission, h⟩ := bind_eq_ok_iff.1 h
    obtain rfl : a = a' := hadmitted.unique (Continuation.admitted_of_admission hadmission)
    obtain ⟨answer', hanswer', h⟩ := bind_eq_ok_iff.1 h
    obtain rfl : answer = answer' :=
      Except.ok.inj (hanswer.symm.trans (mapError_eq_ok_iff.1 hanswer'))
    refine bind_eq_ok_iff.2 ⟨a, hadmission, ?_⟩
    refine bind_eq_ok_iff.2 ⟨answer, mapError_eq_ok_iff.2 hcall, ?_⟩
    rw [← h]
    cases answer with
    | suspended rest unused => rfl
    | completed value spent' => exact congrArg Except.ok (Step.complete_congr hlater)

/-! ### Budgets -/

theorem Batch.budget_of_mem_scriptRuns {b : Batch} {items : List BatchItem} {run : ScriptRun}
    (h : run ∈ scriptRuns view evaluator tx b items) :
    run.budget = view.settings.assetScriptComplexity := by
  induction items generalizing b with
  | nil => exact nomatch h
  | cons item items ih =>
    unfold scriptRuns at h
    rcases List.mem_append.1 h with hitem | hrest
    · have hasks := Option.mem_toList.1 hitem
      unfold asks at hasks
      split at hasks
      · exact nomatch hasks
      · obtain ⟨op, -, hrun⟩ := Option.bind_eq_some_iff.1 hasks
        obtain ⟨script, -, rfl⟩ := Option.map_eq_some_iff.1 hrun
        rfl
    · split at hrest
      · exact ih hrest
      · exact nomatch hrest

/-- All evaluations but that of the callable have the budget of an asset script. -/
theorem budget_of_mem_laterRuns {answer : Evaluation} {run : ScriptRun}
    (h : run ∈ tx.laterRuns view evaluator answer) :
    run.budget = view.settings.assetScriptComplexity := by
  unfold Invocation.laterRuns Invocation.batchRuns at h
  split at h
  · split at h
    · split at h
      · exact nomatch h
      · exact Batch.budget_of_mem_scriptRuns h
    · exact nomatch h
  · exact nomatch h

theorem budget_of_mem_verifierRun {t : Transaction} {run : ScriptRun}
    (h : run ∈ t.verifierRun view) : run.budget = view.settings.assetScriptComplexity := by
  cases t with
  | invocation tx =>
    obtain ⟨verifier, -, rfl⟩ := Option.map_eq_some_iff.1 h
    rfl
  | continuation tx => exact nomatch h

theorem totalCost_le {runs : List ScriptRun} {budget : UInt64}
    (h : ∀ run ∈ runs, run.budget = budget) :
    totalCost Script.evaluate runs ≤ runs.length * budget.toNat := by
  have hsum := List.sum_le_card_nsmul (runs.map (·.cost Script.evaluate)) budget.toNat
    (by
      intro cost hcost
      obtain ⟨run, hrun, rfl⟩ := List.mem_map.1 hcost
      rw [← h run hrun]
      exact run.cost_le_budget)
  simpa [totalCost] using hsum

/-! ## Section 4: What the counters say -/

/-- **The counters report the work done**, also where the transaction fails: they
    are the number of evaluations performed, with one for the approval by a sender
    who has no verifier, and what these evaluations cost. No answer to any other
    question has a part in the effect. The evaluator of the ledger keeps to its
    budgets, so that the complexity is bounded by them. -/
theorem counters_report_runs {t : Transaction} {r : StepResult}
    (h : transition evaluator view t = .ok r) :
    ∃ call runs, t.Performs evaluator view call runs ∧
      r.delta.scriptsRun.toNat = min (runs.length + t.unverified view) (UInt32.size - 1) ∧
      r.delta.complexity.toNat = min (totalCost evaluator runs) (UInt64.size - 1) ∧
      (∀ evaluator', (∀ run ∈ runs, run.SameAnswer evaluator evaluator') →
        transition evaluator' view t = .ok r) ∧
      (evaluator = Script.evaluate → runs.length + t.unverified view < UInt32.size →
        r.delta.complexity.toNat ≤ call.budget.toNat +
          (r.delta.scriptsRun.toNat - 1) * view.settings.assetScriptComplexity.toNat) := by
  obtain ⟨s, task, budget, answer, hcalls, hanswer, hanswered⟩ := answered_of_transition h
  have hperforms : t.Performs evaluator view ⟨task, budget⟩ _ :=
    ⟨s.invocation, answer, Step.asks_of_calls hcalls, hanswer, rfl⟩
  have htallies := Step.tallies_of_answered hcalls hanswer hanswered
  obtain ⟨hruns, hcomplexity⟩ := Step.counted_of_calls hcalls
  have hverifier : ∀ run ∈ (t.verifierRun view).toList,
      run.budget = view.settings.assetScriptComplexity :=
    fun run hrun => budget_of_mem_verifierRun (Option.mem_toList.1 hrun)
  have hlater : ∀ run ∈ s.invocation.laterRuns view evaluator answer,
      run.budget = view.settings.assetScriptComplexity :=
    fun run hrun => budget_of_mem_laterRuns hrun
  generalize (t.verifierRun view).toList = first at hperforms hruns hcomplexity hverifier
  generalize s.invocation.laterRuns view evaluator answer = last at hperforms htallies hlater
  have hcount : r.delta.scriptsRun.toNat =
      min ((first ++ ⟨task, budget⟩ :: last).length + t.unverified view) (UInt32.size - 1) := by
    rw [htallies.scriptsRun, toNat_saturate32, hruns, List.length_append, List.length_cons]
    congr 1
    omega
  have hcost : r.delta.complexity.toNat =
      min (totalCost evaluator (first ++ ⟨task, budget⟩ :: last)) (UInt64.size - 1) := by
    rw [htallies.complexity, toNat_saturate64, hcomplexity, totalCost_append, totalCost_cons]
  refine ⟨⟨task, budget⟩, _, hperforms, hcount, hcost, ?_, ?_⟩
  · intro evaluator' hsame
    exact transition_congr h hperforms hsame
  · rintro rfl hfits
    have hcall := ScriptRun.cost_le_budget ⟨task, budget⟩
    have hothers : totalCost Script.evaluate first + totalCost Script.evaluate last ≤
        (r.delta.scriptsRun.toNat - 1) * view.settings.assetScriptComplexity.toNat := by
      refine Nat.le_trans (Nat.add_le_add (totalCost_le hverifier) (totalCost_le hlater)) ?_
      rw [← Nat.add_mul]
      refine Nat.mul_le_mul_right _ ?_
      rw [hcount]
      simp only [List.length_append, List.length_cons] at hfits ⊢
      omega
    rw [hcost, totalCost_append, totalCost_cons]
    dsimp only at hcall ⊢
    omega

/-- The last step of an invocation fails at its second action, which the script of
    the asset rejects. The callable and both scripts are counted. -/
theorem counters_report_runs_of_rejected :
    let answering (answer : Bool) : Expr :=
      .ite (.const (.bool true)) (.const (.bool answer)) (.const .unit)
    let owner : Invocation := ⟨.fill 7, .fill 1, .fill 2, ⟨"", []⟩, [], 900000, 0⟩
    let rest : Expr := .const (.list [.action (.transfer (.fill 3) (.issued (.fill 9)) 3),
      .action (.burn (.fill 8) 5), .action (.burn (.fill 9) 1)])
    let view := ({ View.fresh ⟨.v3, ∅, none⟩ 5000000 with
      asset := fun _ => some ⟨.fill 2, "", 100, true⟩
      assetScript := fun id => some (answering (id = .fill 9)) } : View).withPending owner rest 0
    let tx : Continuation := ⟨.fill 8, owner.id, 0, 900000, 0⟩
    ∃ r call runs, transition Script.evaluate view (.continuation tx) = .ok r ∧
      r.status = .failed ∧
      Transaction.Performs Script.evaluate view (.continuation tx) call runs ∧
      runs.length = 3 ∧ totalCost Script.evaluate runs = 2 ∧
      r.delta.complexity.toNat ≤
        call.budget.toNat + 2 * view.settings.assetScriptComplexity.toNat := by
  intro answering owner rest view tx
  have hrun : (transition Script.evaluate view (.continuation tx)).toOption.map
      (fun r => (r.status, r.delta.scriptsRun, r.delta.complexity)) = some (.failed, 3, 2) := by
    decide +kernel
  obtain ⟨r, hr, hrun⟩ := exists_eq_ok_of_map hrun
  simp only [Prod.mk.injEq] at hrun
  obtain ⟨hstatus, hruns, hspent⟩ := hrun
  obtain ⟨call, runs, hperforms, hcount, hcost, -, hbound⟩ := counters_report_runs hr
  have hunverified : (Transaction.continuation tx).unverified view = 0 := rfl
  have hthree : (3 : UInt32).toNat = 3 := rfl
  have htwo : (2 : UInt64).toNat = 2 := rfl
  rw [hruns, hunverified, hthree] at hcount
  rw [hspent, htwo] at hcost
  simp only [UInt32.size, UInt64.size] at hcount hcost
  have hlength : runs.length = 3 := by omega
  have hbudget := hbound rfl (by rw [hlength, hunverified]; decide)
  rw [hruns, hthree] at hbudget
  exact ⟨r, call, runs, hr, hstatus, hperforms, hlength, by omega, hbudget⟩

end

end MeteredLedger

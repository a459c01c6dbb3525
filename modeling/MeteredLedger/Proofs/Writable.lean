import MeteredLedger.Proofs.Blocks
import MeteredLedger.Proofs.Endings
import MeteredLedger.Proofs.Stepping

/-! # Blocks that can be written

    A block writes progress in two forms: that an invocation has finished, which
    can always be written, and what remains of one that has been suspended, which
    is what the evaluator has answered. So whether a block can be written is up to
    the evaluator, and only to its answers to what the block can have evaluated:
    the callables that its invocations name, and remainders that could be written
    before.

    * `Delta.Writable`: all progress that a delta holds can be written.
    * `View.Writes`: the evaluator leaves nothing else of what a block can have
      evaluated.
    * `writable_of_transition`, `writable_of_block`: then a step holds nothing
      else, and neither does a block.
    * `writes_evaluate`: the evaluator of the ledger is of this kind, where the
      scripts and the invocations themselves can be written. -/

namespace MeteredLedger

open Script (DApp Evaluation Evaluator Expr Scope Task Value)
open Wire (Fits)

/-! ## Section 1: What can be written -/

/-- All progress in a delta can be written. -/
def Delta.Writable (d : Delta) : Prop :=
  ∀ (id : InvocationId) mark, d.progress[id]? = some mark → Fits mark

/-- All progress that a view shows can be written. -/
def View.Writable (v : View) : Prop :=
  ∀ id mark, v.progress id = some mark → Fits mark

/-- What a block on a view can have evaluated besides approvals: the callables
    that its invocations name, and what could be written of earlier ones. -/
inductive View.Poses (v : View) (txs : List Transaction) : Task → Prop where
  | start {tx dapp} : .invocation tx ∈ txs → v.account tx.dapp = some dapp →
      Poses v txs (.start dapp tx.call tx.callBindings)
  | resume {rest} : Fits rest → Poses v txs (.resume rest)

/-- What the evaluator leaves of the tasks that a block can pose can be written. -/
def View.Writes (v : View) (evaluator : Evaluator) (txs : List Transaction) : Prop :=
  ∀ task budget rest unused, v.Poses txs task →
    evaluator task budget = .ok (.suspended rest unused) → Fits rest

section

variable {view : View} {evaluator : Evaluator} {txs : List Transaction} {d d' : Delta}
  {r : StepResult}

theorem View.writable_stack (hview : view.Writable) (hd : d.Writable) :
    (view.stack d).Writable := by
  intro id mark hmark
  rcases Option.or_eq_some_iff.1 hmark with hnew | ⟨-, hold⟩
  · exact hd id mark hnew
  · exact hview id mark hold

theorem Delta.writable_empty : empty.Writable := by
  intro id mark hmark
  simp [empty] at hmark

theorem Delta.writable_of_merge {a b : Delta} (ha : a.Writable) (hb : b.Writable)
    (h : a.merge b = .ok d) : d.Writable := by
  intro id mark hmark
  obtain ⟨-, -, -, -, -, hprogress, -, -, -⟩ := merge_eq_ok_iff.1 h
  rw [hprogress, Std.ExtTreeMap.getElem?_union] at hmark
  rcases Option.or_eq_some_iff.1 hmark with hlater | ⟨-, hearlier⟩
  · exact hb id mark hlater
  · exact ha id mark hearlier

/-! ## Section 2: Steps and blocks -/

/-- A step leaves an invocation finished, or with what its answer leaves. -/
theorem Step.mark_of_answered {s : Step} {budget : UInt64} {answer : Evaluation}
    (h : s.Answered view evaluator budget answer r) {id : InvocationId} {mark : Progress}
    (hmark : r.delta.progress[id]? = some mark) :
    mark = .finished ∨
      ∃ step rest unused, mark = .suspended step rest unused ∧ answer = .suspended rest unused := by
  -- only the progress of its own invocation is written
  have hid : id = s.invocation.id := by
    obtain ⟨s', hinvocation, -, hends⟩ := ends_of_answered h
    obtain ⟨_, _, _, hcloses⟩ := closes_of_ends hends
    by_contra hne
    rw [hcloses.progress, hinvocation, if_neg hne] at hmark
    exact nomatch hmark
  subst hid
  cases h with
  | @completed value spent =>
    have hwritten := progress_complete (s.countRun spent) view evaluator value
    exact .inl (Option.some.inj (hmark.symm.trans hwritten))
  | @suspended rest unused =>
    have hwritten := hmark.symm.trans (progress_close (s := s.countRun _))
    exact .inr ⟨_, rest, unused, Option.some.inj hwritten, rfl⟩
  | @exceeded rest unused =>
    exact .inl (Option.some.inj (hmark.symm.trans (progress_close (s := s.countRun _))))

/-- A step poses a task that a block with its transaction can pose. -/
theorem Step.poses_of_calls {s : Step} {tx : Transaction} {task : Task} {budget : UInt64}
    (hview : (view.stack d).Writable) (htx : tx ∈ txs)
    (h : s.Calls (view.stack d) evaluator tx task budget) : view.Poses txs task := by
  cases h with
  | first hadmitted => exact .start htx hadmitted.account
  | later hadmitted =>
    obtain ⟨unused, dapp, hprogress, -, -⟩ := hadmitted.pending
    exact .resume (hview _ _ hprogress)

/-- **A step keeps what can be written.** -/
theorem writable_of_transition {tx : Transaction} (hwrites : view.Writes evaluator txs)
    (hview : view.Writable) (hd : d.Writable) (htx : tx ∈ txs)
    (h : transition evaluator (view.stack d) tx = .ok r) : r.delta.Writable := by
  intro id mark hmark
  obtain ⟨s, task, budget, answer, hcalls, hanswer, hanswered⟩ := answered_of_transition h
  rcases Step.mark_of_answered hanswered hmark with rfl | ⟨step, rest, unused, rfl, rfl⟩
  · exact trivial
  · have hposes := Step.poses_of_calls (View.writable_stack hview hd) htx hcalls
    exact hwrites task budget rest unused hposes hanswer

/-- **A block can be written** if the evaluator leaves nothing that cannot. -/
theorem writable_of_block {b : BlockResult} (hwrites : view.Writes evaluator txs)
    (hview : view.Writable) (h : transitionBlock evaluator view txs = .ok b) :
    b.delta.Writable := by
  obtain ⟨d, hd, hmerge⟩ := transitionBlock_keeps (P := fun d _ => d.Writable)
    Delta.writable_empty
    (fun _ _ _ _ _ htx hd htransition hmerge => Delta.writable_of_merge hd
      (writable_of_transition hwrites hview hd htx htransition) hmerge) h
  refine Delta.writable_of_merge hd ?_ hmerge
  intro id mark hmark
  simp [Delta.balance] at hmark

end

/-! ## Section 3: The evaluator of the ledger -/

/-- The parameters and the body of every callable can be written. -/
def Script.DApp.Writable (dapp : DApp) : Prop :=
  ∀ (name : String) callable, dapp.callables[name]? = some callable →
    (∀ param ∈ callable.params, Fits param) ∧ Fits callable.body

/-- The names and the values of a scope can be written. -/
def Script.Scope.Writable (scope : Scope) : Prop :=
  ∀ binding ∈ scope, Wire.Fits binding.1 ∧ Wire.Fits binding.2

theorem Script.fits_bindAll {bindings : Scope} {body : Expr} (h : bindings.Writable)
    (hbody : Fits body) : Fits (bindAll bindings body) := by
  induction bindings with
  | nil => exact hbody
  | cons binding bindings ih =>
    obtain ⟨⟨hname, hvalue⟩, hrest⟩ := List.forall_mem_cons.1 h
    exact ⟨hname, hvalue, ih hrest⟩

theorem Invocation.fits_paymentValue (p : Payment) : Fits (paymentValue p) := by
  have hpair : 2 < UInt32.size := by decide
  refine ⟨hpair, ?_, trivial, trivial⟩
  cases p.asset with
  | native => exact trivial
  | issued id => exact Script.fits_bytes id

/-- An invocation that can be written gives its callable what can be written. -/
theorem Invocation.writable_callBindings {tx : Invocation} (h : Fits tx) :
    tx.callBindings.Writable := by
  have hpayments : Fits (Value.list (tx.payments.map paymentValue)) := by
    refine ⟨?_, Script.fitsItems_iff.2 fun v hv => ?_⟩
    · rw [List.length_map]
      exact h.2.1
    · obtain ⟨p, -, rfl⟩ := List.mem_map.1 hv
      exact fits_paymentValue p
  simp only [callBindings, Script.Scope.Writable, List.forall_mem_cons]
  exact ⟨⟨by decide, Script.fits_bytes tx.sender⟩, ⟨by decide, Script.fits_bytes tx.id⟩,
    ⟨by decide, trivial⟩, ⟨by decide, hpayments⟩, nofun⟩

theorem Script.fits_of_start {dapp : DApp} {tx : Invocation} {e : Expr} (hdapp : dapp.Writable)
    (htx : Fits tx) (h : (Task.start dapp tx.call tx.callBindings).expr = .ok e) : Fits e := by
  unfold Task.expr at h
  dsimp only at h
  split at h
  · exact nomatch h
  · rename_i callable hcallable
    split at h
    · obtain rfl := Except.ok.inj h
      obtain ⟨hparams, hbody⟩ := hdapp _ _ hcallable
      refine fits_bindAll (fun binding hmem => ?_) hbody
      rcases List.mem_append.1 hmem with hgiven | harg
      · exact Invocation.writable_callBindings htx binding hgiven
      · obtain ⟨hparam, hvalue⟩ := List.of_mem_zip harg
        exact ⟨hparams _ hparam, htx.1.2.2 _ hvalue⟩
    · exact nomatch h

/-- **The evaluator of the ledger** leaves nothing that cannot be written where
    the scripts of accounts and the invocations of a block can be written. -/
theorem writes_evaluate {view : View} {txs : List Transaction}
    (hscripts : ∀ address dapp, view.account address = some dapp → dapp.Writable)
    (htxs : ∀ tx, .invocation tx ∈ txs → Fits tx) : view.Writes Script.evaluate txs := by
  intro task budget rest unused hposes hanswer
  obtain ⟨e, he, hrun⟩ := map_eq_ok_iff.1 hanswer
  refine Script.fits_of_run_suspended ?_ hrun
  cases hposes with
  | start htx hdapp => exact Script.fits_of_start (hscripts _ _ hdapp) (htxs _ htx) he
  | resume hrest => exact Except.ok.inj he ▸ hrest

end MeteredLedger

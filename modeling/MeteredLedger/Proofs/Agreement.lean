import MeteredLedger.Proofs.Entries
import MeteredLedger.Proofs.Lifecycle
import MeteredLedger.Proofs.Writable

/-! # The runtime and the store

    Two components see to it that a finished invocation is not taken up again: the
    checks of a continuation, on the view of a block, and the store, when the
    block is applied to it. They never come to different answers. A block writes
    to no invocation that had finished before it, so the store has nothing to
    object to in a block except that it cannot be written as bytes, and what it
    shows afterwards is what the block has left.

    * `View.Awaits`: the step that a continuation of an invocation has to name.
    * `ProgressStore.Serves`: a store that shows the progress of a view, and lists
      what the view waits for.
    * `ProgressStore.TakesOver`: what a store makes of a block on a view.
    * `Course`: the views and stores that a chain of blocks comes to.
    * `finished_persists`: a block leaves alone what has finished.
    * `serves_of_course`: the store serves every view of a course, and takes over
      every block on it. -/

namespace MeteredLedger

open Script (Evaluation Evaluator)

/-! ## Section 1: What is waited for -/

/-- The invocation waits for this step: a continuation that names it passes the
    check of the stored progress, and any other one is rejected as a violation. -/
structure View.Awaits (v : View) (evaluator : Evaluator) (id : InvocationId) (step : UInt32) :
    Prop where
  passes : ∀ tx : Continuation, tx.invocation = id → tx.step = step →
    ∃ e, tx.requireStep v = .ok e
  mismatch : ∀ tx : Continuation, tx.invocation = id → tx.step ≠ step →
    tx.requireStep v = .error (.violation (.stepMismatch step tx.step))
  /-- This is what the runtime answers, if the continuation itself is new. -/
  rejected : ∀ tx : Continuation, tx.invocation = id → tx.step ≠ step → v.record tx.id = none →
    transition evaluator v (.continuation tx) = .error (.violation (.stepMismatch step tx.step))

/-- The store shows the progress of the view. It lists exactly the invocations that
    are in progress by their records, each with the step that the view waits for. -/
structure ProgressStore.Serves (s : ProgressStore) (evaluator : Evaluator) (v : View) : Prop where
  get : ∀ id, s.get id = .ok (v.progress id)
  pending : ∃ listed, s.pending = .ok listed ∧
    (∀ id step, (id, step) ∈ listed ↔
      (∃ record tx, v.record id = some record ∧ record.tx = .invocation tx ∧
        record.status = .inProgress) ∧ v.Awaits evaluator id step) ∧
    (listed.map (·.1)).Pairwise fun a b => compare a b = .lt

/-- The store takes over the progress that a block on the view has left, or it
    refuses the block because some of it cannot be written. -/
structure ProgressStore.TakesOver (s : ProgressStore) (evaluator : Evaluator) (v : View)
    (txs : List Transaction) (b : BlockResult) : Prop where
  serves : ∀ s', s.apply v.height b.delta.progress = .ok s' →
    s'.Serves evaluator (v.stack b.delta)
  applied_iff : (∃ s', s.apply v.height b.delta.progress = .ok s') ↔ b.delta.Writable
  refused : ∀ error, s.apply v.height b.delta.progress = .error error →
    ∃ id mark, b.delta.progress[id]? = some mark ∧ ¬Wire.Fits mark ∧ error = .encoding id
  /-- It never fails if the evaluator leaves nothing that cannot be written. -/
  applied : v.Writes evaluator txs → ∃ s', s.apply v.height b.delta.progress = .ok s'

section

variable {evaluator : Evaluator} {v : View} {id : InvocationId} {step : UInt32}

theorem Continuation.requireStep_eq_ok {tx : Continuation} {rest : Script.Expr} {unused : UInt64}
    (h : v.progress tx.invocation = some (.suspended tx.step rest unused)) :
    tx.requireStep v = .ok (rest, unused) := by
  unfold requireStep
  rw [h]
  exact if_pos rfl

theorem Continuation.requireStep_eq_error {tx : Continuation} {rest : Script.Expr}
    {unused : UInt64} (h : v.progress tx.invocation = some (.suspended step rest unused))
    (hstep : tx.step ≠ step) :
    tx.requireStep v = .error (.violation (.stepMismatch step tx.step)) := by
  unfold requireStep
  rw [h]
  exact if_neg (Ne.symm hstep)

/-- A known invocation that is suspended waits for the step stored. -/
theorem View.awaits_of_progress {rest : Script.Expr} {unused : UInt64} {record : Record}
    {owner : Invocation} (hprogress : v.progress id = some (.suspended step rest unused))
    (hrecord : v.record id = some record) (howner : record.tx = .invocation owner) :
    v.Awaits evaluator id step := by
  refine ⟨?_, ?_, ?_⟩
  · rintro tx rfl rfl
    exact ⟨_, Continuation.requireStep_eq_ok hprogress⟩
  · rintro tx rfl hstep
    exact Continuation.requireStep_eq_error hprogress hstep
  · rintro tx rfl hstep hfresh
    -- the checks before that of the progress are passed
    have hmismatch := Continuation.requireStep_eq_error hprogress hstep
    have hinvocation : Continuation.requireInvocation record = .ok owner := by
      unfold Continuation.requireInvocation
      rw [howner]
    have hadmission : tx.admission v = .error (.violation (.stepMismatch step tx.step)) := by
      unfold Continuation.admission
      rw [hfresh, hrecord]
      show Continuation.requireInvocation record >>= _ = _
      rw [hinvocation]
      show tx.requireStep v >>= _ = _
      rw [hmismatch]
      rfl
    show tx.admission v >>= _ = _
    rw [hadmission]
    rfl

/-- What an invocation waits for is what its progress says. -/
theorem View.Awaits.eq_step {step' : UInt32} {rest : Script.Expr} {unused : UInt64}
    (h : v.Awaits evaluator id step)
    (hprogress : v.progress id = some (.suspended step' rest unused)) : step = step' := by
  by_contra hne
  let tx : Continuation := ⟨id, id, step, 0, 0⟩
  obtain ⟨e, hpasses⟩ := h.passes tx rfl rfl
  have hmismatch : tx.requireStep v = _ := Continuation.requireStep_eq_error hprogress hne
  exact nomatch hpasses.symm.trans hmismatch

/-- An invocation in progress is one that is waited for. -/
theorem View.Consistent.suspended_iff_awaits (hv : v.Consistent) :
    (∃ rest unused, v.progress id = some (.suspended step rest unused)) ↔
      (∃ record tx, v.record id = some record ∧ record.tx = .invocation tx ∧
        record.status = .inProgress) ∧ v.Awaits evaluator id step := by
  constructor
  · rintro ⟨rest, unused, hprogress⟩
    obtain ⟨record, owner, hrecord, howner⟩ := hv.known id _ hprogress
    obtain ⟨hstatus, -⟩ := (hv.tells_of_progress hrecord hprogress).fits
    exact ⟨⟨record, owner, hrecord, howner, hstatus⟩,
      View.awaits_of_progress hprogress hrecord howner⟩
  · rintro ⟨⟨record, owner, hrecord, howner, hstatus⟩, hawaits⟩
    obtain ⟨step', rest, unused, hprogress⟩ := (hv.suspended_iff id).2 ⟨record, hrecord, hstatus⟩
    obtain rfl := hawaits.eq_step hprogress
    exact ⟨rest, unused, hprogress⟩

/-- On a consistent view the store need only show the right progress. -/
theorem ProgressStore.serves_of_consistent {s : ProgressStore} (hv : v.Consistent)
    (h : ∀ id, s.get id = .ok (v.progress id)) : s.Serves evaluator v where
  get := h
  pending := by
    obtain ⟨listed, hlisted, hmem, hordered⟩ := exists_pending h
    refine ⟨listed, hlisted, fun id step => ?_, hordered⟩
    rw [hmem, hv.suspended_iff_awaits]

end

/-! ## Section 2: What has finished -/

/-- What is kept of a block while its transactions are applied: it writes to no
    invocation that had finished before it. -/
structure Delta.SparesFinished (d : Delta) (view : View) : Prop where
  consistent : (view.stack d).Consistent
  finished : ∀ id, view.progress id = some .finished → d.progress[id]? = none

section

variable {evaluator : Evaluator} {view : View} {d d' : Delta} {r : StepResult}

theorem Delta.sparesFinished_empty (hview : view.Consistent) : empty.SparesFinished view where
  consistent := View.consistent_of_sameHistory (View.sameHistory_stack_empty view).symm hview
  finished _ _ := rfl

/-- A step writes to an invocation that begins or is in progress. -/
theorem Delta.not_finished_of_advances (hd : d.SparesFinished view)
    (h : r.Advances (view.stack d)) {id : InvocationId}
    (hid : view.progress id = some .finished) : r.delta.progress[id]? = none := by
  have hstacked : (view.stack d).progress id = some .finished := by
    have hnone := hd.finished id hid
    simp [View.stack, hnone, hid]
  cases h with
  | @begins tx record mark result hbegins =>
    rw [hbegins.progress]
    by_cases hsame : id = tx.id
    · -- an invocation with progress has been recorded
      subst hsame
      obtain ⟨record', -, hrecord', -⟩ := hd.consistent.known tx.id _ hstacked
      rw [hbegins.fresh] at hrecord'
      cases hrecord'
    · exact if_neg hsame
  | @continues tx old record affected mark result hcontinues =>
    rw [hcontinues.progress]
    by_cases hsame : id = tx.invocation
    · subst hsame
      obtain ⟨rest, unused, hpending⟩ := hcontinues.pending
      rw [hstacked] at hpending
      cases hpending
    · exact if_neg hsame

theorem Delta.sparesFinished_of_transition {tx : Transaction} (hd : d.SparesFinished view)
    (h : transition evaluator (view.stack d) tx = .ok r) (hmerge : d.merge r.delta = .ok d') :
    d'.SparesFinished view where
  consistent := View.consistent_of_sameHistory (sameHistory_of_transition h hmerge).symm
    (consistent_of_transition hd.consistent h)
  finished := by
    intro id hid
    obtain ⟨-, -, -, -, -, hprogress, -, -, -⟩ := Delta.merge_eq_ok_iff.1 hmerge
    have hadvances := advances_of_transition hd.consistent.named h
    rw [hprogress, Std.ExtTreeMap.getElem?_union, hd.finished id hid,
      Delta.not_finished_of_advances hd hadvances hid]
    rfl

/-- **What has finished stays finished**: a block does not touch it. -/
theorem finished_persists {txs : List Transaction} {b : BlockResult} (hview : view.Consistent)
    (h : transitionBlock evaluator view txs = .ok b) {id : InvocationId}
    (hid : view.progress id = some .finished) : b.delta.progress[id]? = none := by
  obtain ⟨d, hd, hmerge⟩ := transitionBlock_keeps (P := fun d _ => d.SparesFinished view)
    (Delta.sparesFinished_empty hview)
    (fun _ _ _ _ _ _ hd htransition hmerge =>
      Delta.sparesFinished_of_transition hd htransition hmerge) h
  obtain ⟨-, -, -, -, -, hprogress, -, -, -⟩ := Delta.merge_eq_ok_iff.1 hmerge
  rw [hprogress, Std.ExtTreeMap.getElem?_union, hd.finished id hid]
  simp [Delta.balance]

end

/-! ## Section 3: Chains of blocks -/

/-- The views that a chain of blocks comes to, each with the store that serves it. -/
inductive Course (evaluator : Evaluator) : View → ProgressStore → Prop where
  /-- Nothing has been recorded, and the store is empty. -/
  | start {v} : (∀ id, v.record id = none) →
      (∀ id, ProgressStore.empty.get id = .ok (v.progress id)) → Course evaluator v .empty
  /-- Between two blocks everything but records and progress may change; the height
      never decreases. -/
  | change {v w s} : Course evaluator v s → v.SameHistory w → v.height ≤ w.height →
      Course evaluator w s
  /-- A block is applied. Its records are kept, and the store takes over the progress
      that it leaves. -/
  | block {v w s s' txs b} : Course evaluator v s → transitionBlock evaluator v txs = .ok b →
      s.apply v.height b.delta.progress = .ok s' →
      w.record = (v.stack b.delta).record → (∀ id, s'.get id = .ok (w.progress id)) →
      v.height ≤ w.height → Course evaluator w s'

section

variable {evaluator : Evaluator} {v : View} {s s' : ProgressStore} {txs : List Transaction}
  {b : BlockResult}

/-- What the store shows after a block is what the stacked view shows. -/
theorem get_of_block (h : ∀ id, s.get id = .ok (v.progress id))
    (happly : s.apply v.height b.delta.progress = .ok s') (id : InvocationId) :
    s'.get id = .ok ((v.stack b.delta).progress id) :=
  ProgressStore.get_apply happly (h id)

/-- What is kept along a course. -/
structure View.Served (v : View) (s : ProgressStore) : Prop where
  consistent : v.Consistent
  height_le : s.height ≤ v.height
  progress : ∀ id, s.get id = .ok (v.progress id)

/-- What a store shows has been written. -/
theorem View.Served.writable (h : v.Served s) : v.Writable := fun id mark hmark =>
  (ProgressStore.get_eq_ok_iff.1 (h.progress id)).1 mark hmark

/-- A store that serves the view refuses a block for one reason only. -/
theorem View.Served.refused (h : v.Served s) (hblock : transitionBlock evaluator v txs = .ok b)
    {error : StoreError} (happly : s.apply v.height b.delta.progress = .error error) :
    ∃ id mark, b.delta.progress[id]? = some mark ∧ ¬Wire.Fits mark ∧ error = .encoding id := by
  rcases ProgressStore.exists_of_apply_eq_error happly with
    ⟨hbelow, -⟩ | ⟨id, mark, hmark, hrefused⟩
  · exact absurd h.height_le (UInt32.not_le.2 hbelow)
  · have hshown := h.progress id
    rcases ProgressStore.prepare_eq_error hrefused with hcorrupted | ⟨-, hfinished, -⟩ | hunwritable
    · exact nomatch hshown.symm.trans hcorrupted
    · -- the block leaves alone what has finished
      have hended := Except.ok.inj (hshown.symm.trans hfinished)
      have huntouched := finished_persists h.consistent hblock hended
      exact nomatch hmark.symm.trans huntouched
    · exact ⟨id, mark, hmark, hunwritable⟩

theorem View.Served.takesOver (h : v.Served s) (hblock : transitionBlock evaluator v txs = .ok b) :
    s.TakesOver evaluator v txs b := by
  have happlied : b.delta.Writable → ∃ s', s.apply v.height b.delta.progress = .ok s' := by
    intro hwritable
    cases happly : s.apply v.height b.delta.progress with
    | ok s' => exact ⟨s', rfl⟩
    | error error =>
      obtain ⟨id, mark, hmark, hunfit, -⟩ := h.refused hblock happly
      exact absurd (hwritable id mark hmark) hunfit
  refine ⟨fun s' happly => ?_, ⟨?_, happlied⟩, fun _ => h.refused hblock, fun hwrites => ?_⟩
  · exact ProgressStore.serves_of_consistent (View.consistent_of_block h.consistent hblock)
      (get_of_block h.progress happly)
  · rintro ⟨s', happly⟩ id mark hmark
    exact ProgressStore.fits_of_apply happly hmark
  · exact happlied (writable_of_block hwrites h.writable hblock)

theorem served_of_course (h : Course evaluator v s) : v.Served s := by
  induction h with
  | start hrecord hprogress =>
    refine ⟨View.consistent_of_none hrecord fun id => ?_, UInt32.zero_le, hprogress⟩
    exact (Except.ok.inj (hprogress id)).symm
  | change _ hhistory hheight ih =>
    refine ⟨View.consistent_of_sameHistory hhistory ih.consistent,
      UInt32.le_trans ih.height_le hheight, ?_⟩
    rw [← hhistory.progress]
    exact ih.progress
  | @block v w s s' txs b _ hblock happly hrecord hprogress hheight ih =>
    have hhistory : (v.stack b.delta).SameHistory w := by
      refine ⟨hrecord.symm, funext fun id => ?_⟩
      exact Except.ok.inj ((get_of_block ih.progress happly id).symm.trans (hprogress id))
    have hconsistent := View.consistent_of_block ih.consistent hblock
    refine ⟨View.consistent_of_sameHistory hhistory hconsistent, ?_, hprogress⟩
    rw [ProgressStore.height_apply happly]
    exact hheight

end

end MeteredLedger

import MeteredLedger.Proofs.History

/-! # The life of an invocation

    The ledger tells three times where an invocation stands: by its progress, by
    the status in its record, and by the records of its continuations. On every
    view that a ledger comes to show the three agree.

    * `Reachable`: the views that a ledger comes to show.
    * `View.Consistent`: the invariant that carries the proofs, kept by every
      accepted transaction.
    * `View.Lifecycle`: what it says about a view.
    * `Delta.ResultsFit`: what a block says about the invocations that it ends.
    * `lifecycle_of_reachable`: every reachable view, and every block on it. -/

namespace MeteredLedger

open Script (Evaluator)

/-! ## Section 1: Reachable views -/

/-- The views that a ledger comes to show. It starts without a history; between
    blocks everything else may change. -/
inductive Reachable (evaluator : Evaluator) : View → Prop where
  | start {v} : (∀ id, v.record id = none) → (∀ id, v.progress id = none) → Reachable evaluator v
  | change {v w} : Reachable evaluator v → v.SameHistory w → Reachable evaluator w
  | block {v txs b} : Reachable evaluator v → transitionBlock evaluator v txs = .ok b →
      Reachable evaluator (v.stack b.delta)

/-! ## Section 2: The invariant -/

/-- `c` is recorded as the continuation that took step `i` of the invocation
    `id`, with this status. -/
def View.Lists (v : View) (id : InvocationId) (status : Status) (i : Nat) (c : TxId) : Prop :=
  ∃ record tx, v.record c = some record ∧ record.tx = .continuation tx ∧
    record.invocation = some id ∧ tx.step = saturate32 i ∧ record.status = status

/-- The record and the progress of the invocation `id` tell the same, and so do
    the records of its continuations. -/
structure View.Tells (v : View) (id : InvocationId) (record : Record) (mark : Progress) :
    Prop where
  fits : mark.Fits record.status (saturate32 record.continuations.length)
  lists : ∀ i c, record.continuations[i]? = some c →
    v.Lists id record.status.ofContinuations i c
  nodup : record.continuations.Nodup

/-- The continuation `tx`, recorded under `id`, belongs to an invocation that
    lists it. -/
structure View.Owned (v : View) (id : TxId) (record : Record) (tx : Continuation) : Prop where
  status : record.status ≠ .inProgress
  continuations : record.continuations = []
  invocation : record.invocation = some tx.invocation
  owner : ∃ old owner, v.record tx.invocation = some old ∧ old.tx = .invocation owner ∧
    id ∈ old.continuations

/-- The history of a view hangs together. -/
structure View.Consistent (v : View) : Prop where
  named : v.Named
  known : ∀ id mark, v.progress id = some mark →
    ∃ record tx, v.record id = some record ∧ record.tx = .invocation tx
  tells : ∀ id record tx, v.record id = some record → record.tx = .invocation tx →
    ∃ mark, v.progress id = some mark ∧ v.Tells id record mark
  owned : ∀ id record tx, v.record id = some record → record.tx = .continuation tx →
    v.Owned id record tx

namespace View

variable {v w : View}

theorem consistent_of_sameHistory (h : v.SameHistory w) (hv : v.Consistent) : w.Consistent := by
  obtain ⟨hrecord, hprogress⟩ := h
  have hlists : ∀ id status i c, v.Lists id status i c → w.Lists id status i c := by
    intro id status i c hc
    rwa [Lists, ← hrecord]
  exact {
    named := by
      intro id record hid
      exact hv.named id record (by rwa [hrecord])
    known := by
      intro id mark hid
      rw [← hrecord]
      exact hv.known id mark (by rwa [hprogress])
    tells := by
      intro id record tx hid htx
      rw [← hrecord] at hid
      obtain ⟨mark, hmark, htells⟩ := hv.tells id record tx hid htx
      exact ⟨mark, by rwa [← hprogress],
        ⟨htells.fits, fun i c hc => hlists _ _ _ _ (htells.lists i c hc), htells.nodup⟩⟩
    owned := by
      intro id record tx hid htx
      rw [← hrecord] at hid
      have howned := hv.owned id record tx hid htx
      exact ⟨howned.status, howned.continuations, howned.invocation, by
        rw [← hrecord]; exact howned.owner⟩ }

theorem consistent_of_none (hrecord : ∀ id, v.record id = none)
    (hprogress : ∀ id, v.progress id = none) : v.Consistent where
  named id _ h := nomatch (hrecord id).symm.trans h
  known id _ h := nomatch (hprogress id).symm.trans h
  tells id _ _ h := nomatch (hrecord id).symm.trans h
  owned id _ _ h := nomatch (hrecord id).symm.trans h

/-- An invocation is no continuation. -/
theorem Lists.ne_invocation {id c id' : TxId} {status : Status} {i : Nat} {record : Record}
    {tx : Invocation} (h : v.Lists id status i c) (hid : v.record id' = some record)
    (htx : record.tx = .invocation tx) : c ≠ id' := by
  rintro rfl
  obtain ⟨record', tx', hrecord', htx', -⟩ := h
  obtain rfl := Option.some.inj (hid.symm.trans hrecord')
  exact nomatch htx.symm.trans htx'

end View

/-! ## Section 3: What a transaction keeps -/

section Steps

variable {v : View} {r : StepResult}

/-- An invocation begins with an empty list; nothing that was recorded before
    changes. -/
theorem consistent_of_begins {tx : Invocation} {record : Record} {mark : Progress}
    {result : Option ScriptResult} (hv : v.Consistent) (h : r.Begins v tx record mark result) :
    (v.stack r.delta).Consistent := by
  have hprogress := @View.progress_stack_of_single v r.delta tx.id mark h.progress
  have hself : (v.stack r.delta).record tx.id = some record := by rw [h.records, if_pos rfl]
  have hlists : ∀ id status i c, v.Lists id status i c → (v.stack r.delta).Lists id status i c := by
    rintro id status i c ⟨record', tx', hrecord', hc⟩
    exact ⟨record', tx', h.record_of_recorded hrecord', hc⟩
  -- a record of the new view is the new one or an old one
  have hcases : ∀ id record', (v.stack r.delta).record id = some record' →
      id = tx.id ∧ record' = record ∨ id ≠ tx.id ∧ v.record id = some record' := by
    intro id record' hid
    rw [h.records] at hid
    split at hid
    · rename_i heq
      exact .inl ⟨heq, (Option.some.inj hid).symm⟩
    · rename_i hne
      exact .inr ⟨hne, hid⟩
  exact {
    named := by
      intro id record' hid
      rcases hcases id record' hid with ⟨rfl, rfl⟩ | ⟨-, hold⟩
      · exact congrArg Transaction.id h.record_tx
      · exact hv.named id record' hold
    known := by
      intro id mark' hid
      rw [hprogress] at hid
      split at hid
      · rename_i heq
        exact ⟨record, tx, heq ▸ hself, h.record_tx⟩
      · obtain ⟨record', tx', hrecord', htx'⟩ := hv.known id mark' hid
        exact ⟨record', tx', h.record_of_recorded hrecord', htx'⟩
    tells := by
      intro id record' tx' hid htx'
      rw [hprogress]
      rcases hcases id record' hid with ⟨rfl, rfl⟩ | ⟨hne, hold⟩
      · refine ⟨mark, if_pos rfl, ?_, ?_, ?_⟩
        · rw [h.record_status, h.record_continuations]
          exact h.fits
        · rw [h.record_continuations]
          exact nofun
        · rw [h.record_continuations]
          exact .nil
      · obtain ⟨mark', hmark', htells⟩ := hv.tells id record' tx' hold htx'
        exact ⟨mark', by rw [if_neg hne, hmark'],
          ⟨htells.fits, fun i c hc => hlists _ _ _ _ (htells.lists i c hc), htells.nodup⟩⟩
    owned := by
      intro id record' tx' hid htx'
      rcases hcases id record' hid with ⟨rfl, rfl⟩ | ⟨hne, hold⟩
      · exact nomatch h.record_tx.symm.trans htx'
      · have howned := hv.owned id record' tx' hold htx'
        obtain ⟨old, owner, hold', howner⟩ := howned.owner
        exact { howned with owner := ⟨old, owner, h.record_of_recorded hold', howner⟩ } }

variable {tx : Continuation} {old record : Record} {affected : SortedSet Address} {mark : Progress}
  {result : Option ScriptResult}

/-- The invocation that is carried on is in progress, and waits for the step
    after its last continuation. -/
theorem pending_of_continues (hv : v.Consistent)
    (h : r.Continues v tx old record affected mark result) :
    old.status = .inProgress ∧ tx.step = saturate32 old.continuations.length ∧
      (∀ i c, old.continuations[i]? = some c → v.Lists tx.invocation .succeeded i c) ∧
      old.continuations.Nodup := by
  obtain ⟨owner, howner⟩ := h.invocation
  obtain ⟨mark', hmark', htells⟩ := hv.tells _ _ _ h.known howner
  obtain ⟨rest, unused, hpending⟩ := h.pending
  obtain rfl := Option.some.inj (hmark'.symm.trans hpending)
  obtain ⟨hstatus, hstep⟩ := htells.fits
  refine ⟨hstatus, hstep, ?_, htells.nodup⟩
  have hlists := htells.lists
  rwa [hstatus] at hlists

/-- The continuations of the invocation take over the status of the step. -/
theorem lists_of_listed (hv : v.Consistent) (h : r.Continues v tx old record affected mark result)
    {i : Nat} {c : TxId} (hc : old.continuations[i]? = some c) :
    (v.stack r.delta).Lists tx.invocation r.status.ofContinuations i c := by
  obtain ⟨owner, howner⟩ := h.invocation
  obtain ⟨-, -, hlists, -⟩ := pending_of_continues hv h
  have hne := (hlists i c hc).ne_invocation h.known howner
  obtain ⟨record', tx', hrecord', htx', hinvocation, hstep, hstatus⟩ := hlists i c hc
  refine ⟨_, tx', h.record_of_listed hrecord' hne (List.mem_of_getElem? hc), htx', hinvocation,
    hstep, ?_⟩
  dsimp only [Status.ofContinuations]
  rw [hstatus]

/-- The step itself is listed last. -/
theorem lists_of_joined (hv : v.Consistent) (h : r.Continues v tx old record affected mark result)
    {i : Nat} {c : TxId} (hc : (old.continuations ++ [tx.id])[i]? = some c) :
    (v.stack r.delta).Lists tx.invocation r.status.ofContinuations i c := by
  obtain ⟨-, hstep, -, -⟩ := pending_of_continues hv h
  -- an earlier continuation, or the one that takes this step
  by_cases hi : i < old.continuations.length
  · rw [List.getElem?_append_left hi] at hc
    exact lists_of_listed hv h hc
  · rw [List.getElem?_append_right (by omega), List.getElem?_singleton] at hc
    split at hc
    · have hlast : i = old.continuations.length := by omega
      obtain rfl := Option.some.inj hc
      subst hlast
      exact ⟨record, tx, h.record_id_stack, h.record_tx, h.record_invocation, hstep,
        h.record_status⟩
    · exact nomatch hc

/-- Continuations of other invocations keep their records. -/
theorem lists_of_other (hv : v.Consistent) (h : r.Continues v tx old record affected mark result)
    {id c : TxId} {status : Status} {i : Nat} (hid : id ≠ tx.invocation)
    (hc : v.Lists id status i c) : (v.stack r.delta).Lists id status i c := by
  obtain ⟨owner, howner⟩ := h.invocation
  obtain ⟨-, -, hlists, -⟩ := pending_of_continues hv h
  have hne := hc.ne_invocation h.known howner
  obtain ⟨record', tx', hrecord', htx', hinvocation, hrest⟩ := hc
  -- a continuation names one invocation only
  have hlisted : c ∉ old.continuations := by
    intro hmem
    obtain ⟨j, hj⟩ := List.getElem?_of_mem hmem
    obtain ⟨record'', _, hrecord'', _, hinvocation'', _⟩ := hlists j c hj
    obtain rfl := Option.some.inj (hrecord'.symm.trans hrecord'')
    exact hid (Option.some.inj (hinvocation.symm.trans hinvocation''))
  exact ⟨record', tx', h.record_of_not_listed hrecord' hne hlisted, htx', hinvocation, hrest⟩

/-- Other invocations keep their records. -/
theorem record_of_other (hv : v.Consistent) (h : r.Continues v tx old record affected mark result)
    {id : TxId} {earlier : Record} {owner : Invocation} (hid : id ≠ tx.invocation)
    (hearlier : v.record id = some earlier) (howner : earlier.tx = .invocation owner) :
    (v.stack r.delta).record id = some earlier := by
  obtain ⟨-, -, hlists, -⟩ := pending_of_continues hv h
  have hlisted : id ∉ old.continuations := by
    intro hmem
    obtain ⟨j, hj⟩ := List.getElem?_of_mem hmem
    exact (hlists j id hj).ne_invocation hearlier howner rfl
  exact h.record_of_not_listed hearlier hid hlisted

/-- The continuation joins the list of its invocation. -/
theorem tells_of_continues (hv : v.Consistent)
    (h : r.Continues v tx old record affected mark result) :
    (v.stack r.delta).Tells tx.invocation (old.join tx.id r.status affected) mark := by
  obtain ⟨hstatus, hstep, hlists, hnodup⟩ := pending_of_continues hv h
  refine ⟨?_, ?_, ?_⟩
  · rw [Record.status_join hstatus, Record.continuations_join, List.length_append,
      List.length_singleton, ← saturate32_succ, ← hstep]
    exact h.fits
  · rw [Record.status_join hstatus, Record.continuations_join]
    intro i c hc
    exact lists_of_joined hv h hc
  · rw [Record.continuations_join]
    -- what is listed has been recorded, and the continuation has not
    have hfresh : tx.id ∉ old.continuations := by
      intro hmem
      obtain ⟨j, hj⟩ := List.getElem?_of_mem hmem
      obtain ⟨record', -, hrecord', -⟩ := hlists j _ hj
      exact nomatch h.fresh.symm.trans hrecord'
    exact List.nodup_append.2 ⟨hnodup, List.pairwise_singleton _ _, by
      rintro c hc _ hlast rfl
      exact hfresh (List.mem_singleton.1 hlast ▸ hc)⟩

/-- A continuation extends the list of its invocation, and ends both or
    neither; nothing else changes. -/
theorem consistent_of_continues (hv : v.Consistent)
    (h : r.Continues v tx old record affected mark result) : (v.stack r.delta).Consistent := by
  obtain ⟨owner, howner⟩ := h.invocation
  have hprogress := @View.progress_stack_of_single v r.delta tx.invocation mark h.progress
  -- in every field: the invocation, then the continuation, then what was recorded before
  exact {
    named := by
      intro id later hid
      rcases h.record_cases hid with ⟨rfl, rfl⟩ | ⟨rfl, rfl⟩ | ⟨earlier, hearlier, -, rfl⟩
      · rw [Record.tx_join]
        exact hv.named _ _ h.known
      · exact congrArg Transaction.id h.record_tx
      · exact hv.named id earlier hearlier
    known := by
      intro id mark' hid
      rw [hprogress] at hid
      split at hid
      · rename_i heq
        exact ⟨_, owner, heq ▸ h.record_invocation_stack, by rw [Record.tx_join, howner]⟩
      · rename_i hne
        obtain ⟨earlier, owner', hearlier, howner'⟩ := hv.known id mark' hid
        exact ⟨earlier, owner', record_of_other hv h hne hearlier howner', howner'⟩
    tells := by
      intro id later owner' hid howner'
      rw [hprogress]
      rcases h.record_cases hid with ⟨rfl, rfl⟩ | ⟨rfl, rfl⟩ | ⟨earlier, hearlier, hne, hlater⟩
      · exact ⟨mark, if_pos rfl, tells_of_continues hv h⟩
      · exact nomatch h.record_tx.symm.trans howner'
      · rw [hlater] at howner'
        obtain rfl := Option.some.inj
          (hid.symm.trans (record_of_other hv h hne hearlier howner'))
        obtain ⟨mark', hmark', htells⟩ := hv.tells id later owner' hearlier howner'
        exact ⟨mark', by rw [if_neg hne, hmark'], htells.fits,
          fun i c hc => lists_of_other hv h hne (htells.lists i c hc), htells.nodup⟩
    owned := by
      intro id later tx' hid htx'
      rcases h.record_cases hid with ⟨rfl, rfl⟩ | ⟨rfl, rfl⟩ | ⟨earlier, hearlier, hne, rfl⟩
      · rw [Record.tx_join, howner] at htx'
        exact nomatch htx'
      · -- the new continuation is the last in the list of its invocation
        obtain rfl := Transaction.continuation.inj (h.record_tx.symm.trans htx')
        refine ⟨?_, h.record_continuations, h.record_invocation, _, owner,
          h.record_invocation_stack, by rw [Record.tx_join, howner], ?_⟩
        · rw [h.record_status, Status.ofContinuations]
          split
          · exact nofun
          · assumption
        · rw [Record.continuations_join]
          exact List.mem_append_right _ (List.mem_singleton_self _)
      · have howned := hv.owned id earlier tx' hearlier htx'
        refine ⟨?_, howned.continuations, howned.invocation, ?_⟩
        · dsimp only
          split
          · rename_i hended
            exact hended.1
          · exact howned.status
        · -- the list of its invocation has at most become longer
          obtain ⟨old', owner', hold', howner', hmem⟩ := howned.owner
          by_cases hsame : tx'.invocation = tx.invocation
          · rw [hsame, h.known] at hold'
            obtain rfl := Option.some.inj hold'
            refine ⟨_, owner, hsame ▸ h.record_invocation_stack, by rw [Record.tx_join, howner], ?_⟩
            rw [Record.continuations_join]
            exact List.mem_append_left _ hmem
          · exact ⟨old', owner', record_of_other hv h hsame hold' howner', howner', hmem⟩ }

/-- **The invariant is kept** by every accepted transaction. -/
theorem consistent_of_transition {evaluator : Evaluator} {t : Transaction} (hv : v.Consistent)
    (h : transition evaluator v t = .ok r) : (v.stack r.delta).Consistent := by
  cases advances_of_transition hv.named h with
  | begins hbegins => exact consistent_of_begins hv hbegins
  | continues hcontinues => exact consistent_of_continues hv hcontinues

end Steps

theorem View.consistent_of_block {evaluator : Evaluator} {v : View} {txs : List Transaction}
    {b : BlockResult} (hv : v.Consistent) (h : transitionBlock evaluator v txs = .ok b) :
    (v.stack b.delta).Consistent :=
  view_keeps_of_block (fun _ _ => consistent_of_sameHistory) (fun _ _ _ => consistent_of_transition)
    h hv

theorem consistent_of_reachable {evaluator : Evaluator} {v : View} (h : Reachable evaluator v) :
    v.Consistent := by
  -- between the blocks everything may change except what the invariant speaks of
  induction h with
  | start hrecord hprogress => exact View.consistent_of_none hrecord hprogress
  | change _ hhistory ih => exact View.consistent_of_sameHistory hhistory ih
  | block _ hblock ih => exact View.consistent_of_block ih hblock

/-! ## Section 4: Results -/

/-- The results in the delta of a block fit what the view `w` shows after the
    block: an invocation that the block has touched has the result that its status
    asks for, and no other has any. -/
structure Delta.ResultsFit (d : Delta) (w : View) : Prop where
  touched : ∀ (id : InvocationId) record, w.record id = some record → d.progress[id]? ≠ none →
    record.status.HasResult d.results[id]?
  untouched : ∀ id : InvocationId, d.progress[id]? = none → d.results[id]? = none

theorem Status.hasResult_or {status : Status} {result before : Option ScriptResult}
    (h : status.HasResult result) (hbefore : status = .inProgress → before = none) :
    status.HasResult (result.or before) := by
  cases status with
  | inProgress =>
    obtain rfl : result = none := h
    rw [hbefore rfl]
    exact rfl
  | succeeded =>
    obtain ⟨r, rfl, hr⟩ := h
    exact ⟨r, rfl, hr⟩
  | failed =>
    obtain ⟨r, rfl, hr⟩ := h
    exact ⟨r, rfl, hr⟩

section Results

variable {view w : View} {d d' : Delta} {r : StepResult}

/-- A step sets the progress and the result of one invocation, which has had no
    result before if it has none now; the other invocations that the block has
    touched keep their records. -/
theorem resultsFit_of_single {id : InvocationId} {mark : Progress} {result : Option ScriptResult}
    (hd : d.ResultsFit view) (hmerge : d.merge r.delta = .ok d')
    (hprogress : ∀ id', r.delta.progress[id']? = if id' = id then some mark else none)
    (hresults : ∀ id', r.delta.results[id']? = if id' = id then result else none)
    (hself : ∀ record, w.record id = some record →
      record.status.HasResult (result.or d.results[id]?))
    (hother : ∀ id' record, id' ≠ id → d.progress[id']? ≠ none → w.record id' = some record →
      view.record id' = some record) :
    d'.ResultsFit w := by
  obtain ⟨-, -, -, -, -, hprogress', hresults', -, -⟩ := Delta.merge_eq_ok_iff.1 hmerge
  refine ⟨?_, ?_⟩
  · intro id' record hid htouched
    rw [hprogress', Std.ExtTreeMap.getElem?_union, hprogress] at htouched
    rw [hresults', Std.ExtTreeMap.getElem?_union, hresults]
    by_cases hsame : id' = id
    · subst hsame
      rw [if_pos rfl]
      exact hself record hid
    · rw [if_neg hsame, Option.none_or] at htouched ⊢
      exact hd.touched id' record (hother id' record hsame htouched hid) htouched
  · intro id' huntouched
    rw [hprogress', Std.ExtTreeMap.getElem?_union, hprogress] at huntouched
    rw [hresults', Std.ExtTreeMap.getElem?_union, hresults]
    by_cases hsame : id' = id
    · rw [if_pos hsame] at huntouched
      exact nomatch huntouched
    · rw [if_neg hsame, Option.none_or] at huntouched ⊢
      exact hd.untouched id' huntouched

/-- An invocation that has just begun has no earlier result. -/
theorem resultsFit_of_begins {tx : Invocation} {record : Record} {mark : Progress}
    {result : Option ScriptResult} (hv : (view.stack d).Consistent)
    (hd : d.ResultsFit (view.stack d)) (h : r.Begins (view.stack d) tx record mark result)
    (hmerge : d.merge r.delta = .ok d') : d'.ResultsFit ((view.stack d).stack r.delta) := by
  -- a block that had touched it would have recorded it
  have hnone : d.results[tx.id]? = none := by
    apply hd.untouched
    by_contra hsome
    obtain ⟨mark', hmark'⟩ := Option.ne_none_iff_exists'.1 hsome
    obtain ⟨record', -, hrecord', -⟩ := hv.known tx.id mark' (View.progress_stack_of_some hmark')
    exact nomatch h.fresh.symm.trans hrecord'
  refine resultsFit_of_single hd hmerge h.progress h.results ?_ ?_
  · intro record' hid
    rw [h.records, if_pos rfl] at hid
    obtain rfl := Option.some.inj hid
    rw [h.record_status]
    exact Status.hasResult_or h.hasResult fun _ => hnone
  · intro id record' hne _ hid
    rwa [h.records, if_neg hne] at hid

/-- An invocation in progress has no earlier result. -/
theorem resultsFit_of_continues {tx : Continuation} {old record : Record}
    {affected : SortedSet Address} {mark : Progress} {result : Option ScriptResult}
    (hv : (view.stack d).Consistent) (hd : d.ResultsFit (view.stack d))
    (h : r.Continues (view.stack d) tx old record affected mark result)
    (hmerge : d.merge r.delta = .ok d') : d'.ResultsFit ((view.stack d).stack r.delta) := by
  obtain ⟨hstatus, -, -, -⟩ := pending_of_continues hv h
  have hnone : d.results[tx.invocation]? = none := by
    by_cases htouched : d.progress[tx.invocation]? = none
    · exact hd.untouched _ htouched
    · have hresult := hd.touched _ _ h.known htouched
      rwa [hstatus] at hresult
  refine resultsFit_of_single hd hmerge h.progress h.results ?_ ?_
  · intro later hid
    rw [h.record_invocation_stack] at hid
    obtain rfl := Option.some.inj hid
    rw [Record.status_join hstatus]
    exact Status.hasResult_or h.hasResult fun _ => hnone
  · intro id later hne htouched hid
    -- what the block has touched are invocations, and these keep their records
    obtain ⟨mark', hmark'⟩ := Option.ne_none_iff_exists'.1 htouched
    obtain ⟨earlier, owner, hearlier, howner⟩ :=
      hv.known id mark' (View.progress_stack_of_some hmark')
    rw [record_of_other hv h hne hearlier howner] at hid
    obtain rfl := Option.some.inj hid
    exact hearlier

theorem resultsFit_of_sameHistory (h : view.SameHistory w) (hd : d.ResultsFit view) :
    d.ResultsFit w :=
  ⟨fun id record hid => hd.touched id record (by rwa [h.record]), hd.untouched⟩

/-- What is kept of a block while its transactions are applied. -/
structure Delta.Followed (d : Delta) (view : View) : Prop where
  consistent : (view.stack d).Consistent
  results : d.ResultsFit (view.stack d)

theorem Delta.followed_empty (hview : view.Consistent) : empty.Followed view where
  consistent := View.consistent_of_sameHistory (View.sameHistory_stack_empty view).symm hview
  results := ⟨fun _ _ _ htouched => absurd rfl htouched, fun _ _ => rfl⟩

/-- **One more transaction** keeps history and results together. -/
theorem Delta.followed_of_transition {evaluator : Evaluator} {tx : Transaction}
    (hd : d.Followed view) (h : transition evaluator (view.stack d) tx = .ok r)
    (hmerge : d.merge r.delta = .ok d') : d'.Followed view := by
  obtain ⟨hconsistent, hfit⟩ := hd
  -- the step is seen on top of the block so far, and only then merged into it
  have hhistory := (sameHistory_of_transition h hmerge).symm
  have hfit' : d'.ResultsFit ((view.stack d).stack r.delta) := by
    cases advances_of_transition hconsistent.named h with
    | begins hbegins => exact resultsFit_of_begins hconsistent hfit hbegins hmerge
    | continues hcontinues => exact resultsFit_of_continues hconsistent hfit hcontinues hmerge
  have hconsistent' := consistent_of_transition hconsistent h
  exact ⟨View.consistent_of_sameHistory hhistory hconsistent',
    resultsFit_of_sameHistory hhistory hfit'⟩

/-- Over a whole block the results fit the view that the block leaves. -/
theorem resultsFit_of_block {evaluator : Evaluator} {txs : List Transaction} {b : BlockResult}
    (hview : view.Consistent) (h : transitionBlock evaluator view txs = .ok b) :
    b.delta.ResultsFit (view.stack b.delta) := by
  obtain ⟨d, hd, hmerge⟩ := transitionBlock_keeps (P := fun d _ => d.Followed view)
    (Delta.followed_empty hview)
    (fun _ _ _ _ _ _ hd htransition hmerge => Delta.followed_of_transition hd htransition hmerge) h
  have hfit := resultsFit_of_sameHistory (sameHistory_of_reward hmerge).symm hd.results
  -- the reward has neither progress nor results
  obtain ⟨-, -, -, -, -, hprogress, hresults, -, -⟩ := Delta.merge_eq_ok_iff.1 hmerge
  refine ⟨fun id record hid htouched => ?_, fun id huntouched => ?_⟩
  · rw [hresults, Std.ExtTreeMap.getElem?_union]
    rw [hprogress, Std.ExtTreeMap.getElem?_union] at htouched
    exact hfit.touched id record hid (by simpa [Delta.balance] using htouched)
  · rw [hresults, Std.ExtTreeMap.getElem?_union]
    rw [hprogress, Std.ExtTreeMap.getElem?_union] at huntouched
    exact hfit.untouched id (by simpa [Delta.balance] using huntouched)

end Results

/-! ## Section 5: What every reachable view shows -/

/-- What a view shows of the invocations that the ledger knows. -/
structure View.Lifecycle (v : View) : Prop where
  /-- Progress is kept of the invocations, and of nothing else. -/
  tracked : ∀ id, (∃ mark, v.progress id = some mark) ↔
    ∃ record tx, v.record id = some record ∧ record.tx = .invocation tx
  /-- What is in progress by its record waits for a step. -/
  suspended : ∀ id, (∃ step rest unused, v.progress id = some (.suspended step rest unused)) ↔
    ∃ record, v.record id = some record ∧ record.status = .inProgress
  /-- The step is the number of continuations, as far as that can be counted,
      and they have all succeeded. -/
  step : ∀ id record step rest unused, v.record id = some record →
    v.progress id = some (.suspended step rest unused) →
      step.toNat = min record.continuations.length (UInt32.size - 1) ∧
        ∀ c ∈ record.continuations, ∃ r, v.record c = some r ∧ r.status = .succeeded
  /-- What has ended by its record is finished. -/
  finished : ∀ id, v.progress id = some .finished ↔ ∃ record tx, v.record id = some record ∧
    record.tx = .invocation tx ∧ (record.status = .succeeded ∨ record.status = .failed)
  /-- Then the continuations share the status. -/
  shared : ∀ id record, v.record id = some record → v.progress id = some .finished →
    ∀ c ∈ record.continuations, ∃ r, v.record c = some r ∧ r.status = record.status
  distinct : ∀ id record, v.record id = some record → record.continuations.Nodup
  /-- Continuations are listed in the order of their steps. -/
  listed : ∀ id record (i : Nat) c, v.record id = some record → record.continuations[i]? = some c →
    ∃ r tx, v.record c = some r ∧ r.tx = .continuation tx ∧ r.invocation = some id ∧
      tx.step.toNat = min i (UInt32.size - 1)
  /-- A continuation is listed by the invocation that it names. -/
  owned : ∀ id record tx, v.record id = some record → record.tx = .continuation tx →
    record.invocation = some tx.invocation ∧ ∃ old owner, v.record tx.invocation = some old ∧
      old.tx = .invocation owner ∧ id ∈ old.continuations

namespace View.Consistent

variable {v : View} (hv : v.Consistent)
include hv

/-- The record of an invocation fits its progress. -/
theorem tells_of_progress {id : InvocationId} {record : Record} {mark : Progress}
    (hrecord : v.record id = some record) (hmark : v.progress id = some mark) :
    v.Tells id record mark := by
  obtain ⟨record', tx, hrecord', htx⟩ := hv.known id mark hmark
  obtain rfl := Option.some.inj (hrecord.symm.trans hrecord')
  obtain ⟨mark', hmark', htells⟩ := hv.tells id record tx hrecord htx
  obtain rfl := Option.some.inj (hmark.symm.trans hmark')
  exact htells

/-- Only invocations list continuations. -/
theorem tells_of_listed {id : TxId} {record : Record} {i : Nat} {c : TxId}
    (hrecord : v.record id = some record) (hc : record.continuations[i]? = some c) :
    ∃ mark, v.progress id = some mark ∧ v.Tells id record mark := by
  cases htx : record.tx with
  | invocation tx => exact hv.tells id record tx hrecord htx
  | continuation tx =>
    rw [(hv.owned id record tx hrecord htx).continuations] at hc
    exact nomatch hc

theorem suspended_iff (id : InvocationId) :
    (∃ step rest unused, v.progress id = some (.suspended step rest unused)) ↔
      ∃ record, v.record id = some record ∧ record.status = .inProgress := by
  constructor
  · rintro ⟨step, rest, unused, hmark⟩
    obtain ⟨record, tx, hrecord, -⟩ := hv.known id _ hmark
    exact ⟨record, hrecord, (hv.tells_of_progress hrecord hmark).fits.1⟩
  · rintro ⟨record, hrecord, hstatus⟩
    cases htx : record.tx with
    | invocation tx =>
      obtain ⟨mark, hmark, htells⟩ := hv.tells id record tx hrecord htx
      cases mark with
      | suspended step rest unused => exact ⟨step, rest, unused, hmark⟩
      | finished =>
        have hended := htells.fits
        rw [hstatus] at hended
        exact hended.elim nofun nofun
    | continuation tx => exact absurd hstatus (hv.owned id record tx hrecord htx).status

theorem finished_iff (id : InvocationId) :
    v.progress id = some .finished ↔ ∃ record tx, v.record id = some record ∧
      record.tx = .invocation tx ∧ (record.status = .succeeded ∨ record.status = .failed) := by
  constructor
  · intro hmark
    obtain ⟨record, tx, hrecord, htx⟩ := hv.known id _ hmark
    exact ⟨record, tx, hrecord, htx, (hv.tells_of_progress hrecord hmark).fits⟩
  · rintro ⟨record, tx, hrecord, htx, hstatus⟩
    obtain ⟨mark, hmark, htells⟩ := hv.tells id record tx hrecord htx
    cases mark with
    | suspended step rest unused =>
      rw [htells.fits.1] at hstatus
      exact hstatus.elim nofun nofun
    | finished => exact hmark

theorem lifecycle : v.Lifecycle where
  tracked id := by
    constructor
    · rintro ⟨mark, hmark⟩
      exact hv.known id mark hmark
    · rintro ⟨record, tx, hrecord, htx⟩
      obtain ⟨mark, hmark, -⟩ := hv.tells id record tx hrecord htx
      exact ⟨mark, hmark⟩
  suspended := hv.suspended_iff
  step := by
    intro id record step rest unused hrecord hmark
    have htells := hv.tells_of_progress hrecord hmark
    obtain ⟨hstatus, hstep⟩ := htells.fits
    refine ⟨by rw [hstep, toNat_saturate32], fun c hc => ?_⟩
    obtain ⟨i, hi⟩ := List.getElem?_of_mem hc
    obtain ⟨r, tx, hr, -, -, -, hsucceeded⟩ := htells.lists i c hi
    exact ⟨r, hr, by rw [hsucceeded, hstatus]; rfl⟩
  finished := hv.finished_iff
  shared := by
    intro id record hrecord hmark c hc
    have htells := hv.tells_of_progress hrecord hmark
    have hended : record.status ≠ .inProgress := by
      rcases htells.fits with hstatus | hstatus <;> rw [hstatus] <;> exact nofun
    obtain ⟨i, hi⟩ := List.getElem?_of_mem hc
    obtain ⟨r, tx, hr, -, -, -, hstatus⟩ := htells.lists i c hi
    exact ⟨r, hr, by rw [hstatus, Status.ofContinuations, if_neg hended]⟩
  distinct := by
    intro id record hrecord
    cases htx : record.tx with
    | invocation tx =>
      obtain ⟨mark, -, htells⟩ := hv.tells id record tx hrecord htx
      exact htells.nodup
    | continuation tx =>
      rw [(hv.owned id record tx hrecord htx).continuations]
      exact .nil
  listed := by
    intro id record i c hrecord hc
    obtain ⟨mark, -, htells⟩ := hv.tells_of_listed hrecord hc
    obtain ⟨r, tx, hr, htx, hinvocation, hstep, -⟩ := htells.lists i c hc
    exact ⟨r, tx, hr, htx, hinvocation, by rw [hstep, toNat_saturate32]⟩
  owned := by
    intro id record tx hrecord htx
    have howned := hv.owned id record tx hrecord htx
    exact ⟨howned.invocation, howned.owner⟩

end View.Consistent

/-- **The lifecycle invariant**: on every reachable view progress, records and
    lists of continuations agree, and the results of every block on it fit what
    the view after the block shows. -/
theorem lifecycle_of_reachable {evaluator : Evaluator} {v : View} (h : Reachable evaluator v) :
    v.Lifecycle ∧ ∀ txs b, transitionBlock evaluator v txs = .ok b →
      b.delta.ResultsFit (v.stack b.delta) :=
  have hv := consistent_of_reachable h
  ⟨hv.lifecycle, fun _ _ hblock => resultsFit_of_block hv hblock⟩

/-- A block in which an invocation is suspended and then carried on to its end. -/
theorem lifecycle_of_reachable_continued :
    let tx : Invocation := ⟨.fill 7, .fill 1, .fill 2, ⟨"", []⟩, [], 900000, 0⟩
    let continuation : Continuation := ⟨.fill 8, tx.id, 0, 900000, 0⟩
    let evaluator : Evaluator := fun
      | .start .., _ => .ok (.suspended (.const .unit) 0)
      | _, _ => .ok (.completed (.ok .unit) 0)
    let view := View.fresh ⟨.v3, ∅, none⟩ 2000000
    ∃ b, transitionBlock evaluator view [.invocation tx, .continuation continuation] = .ok b ∧
      b.applied = [(tx.id, .inProgress), (continuation.id, .succeeded)] ∧
      Reachable evaluator (view.stack b.delta) ∧ (view.stack b.delta).Lifecycle := by
  intro tx continuation evaluator view
  have hrun : (transitionBlock evaluator view
      [.invocation tx, .continuation continuation]).toOption.map (·.applied) =
        some [(tx.id, .inProgress), (continuation.id, .succeeded)] := by decide +kernel
  obtain ⟨b, hblock, happlied⟩ := Option.map_eq_some_iff.1 hrun
  have hb := toOption_eq_some_iff.1 hblock
  have hreachable : Reachable evaluator (view.stack b.delta) :=
    .block (.start (fun _ => rfl) fun _ => rfl) hb
  exact ⟨b, hb, happlied, hreachable, (lifecycle_of_reachable hreachable).1⟩

end MeteredLedger

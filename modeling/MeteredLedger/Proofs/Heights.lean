import MeteredLedger.Proofs.Store

/-! # Heights that have not been passed

    No write is recorded above the height of a store, so going back to this
    height or to one above it should take nothing back. The cut through the log is
    made at the height that follows the one gone back to, and none follows the
    greatest: there the cut is made at the greatest height itself, and the writes
    made at it are taken back.

    * `Reached`: the stores that blocks, rollbacks and restored snapshots lead to.
    * `WellKept`: the invariant of their logs.
    * `mem_rollbackIds_of_le`: what such a rollback takes back.
    * `rollback_idle_iff`: when it leaves the store as it is.
    * `rollback_undoes_greatest`: at the greatest height it may not. -/

namespace MeteredLedger.ProgressStore

/-! ## Section 1: The stores that are reached -/

/-- The stores that can be reached from the empty one, at whatever heights. A block
    that is refused leaves the store as it is; a snapshot may be one of any store
    that can be reached. -/
inductive Reached : ProgressStore → Prop where
  | start : Reached .empty
  | applied {s s' height updates} : Reached s → s.apply height updates = .ok s' → Reached s'
  | rolledBack {s height} : Reached s → Reached (s.rollback height)
  | restored {s t} : Reached s → Reached t → Reached (s.restore t.snapshot)

/-- No height of the log lies above the height of the store, and there is a write
    at every one of them. -/
structure WellKept (s : ProgressStore) : Prop where
  below : ∀ e ∈ s.undo.toList, e.1 ≤ s.height
  written : ∀ e ∈ s.undo.toList, e.2 ≠ []

section

variable {s s' t : ProgressStore} {height : UInt32}

theorem wellKept_empty : WellKept .empty where
  below := nofun
  written := nofun

theorem written_put (hs : ∀ e ∈ s.undo.toList, e.2 ≠ []) (write : InvocationId × List UInt8) :
    ∀ e ∈ (put height s write).undo.toList, e.2 ≠ [] := by
  rintro ⟨t, undos⟩ hmem
  unfold put at hmem
  rw [Std.ExtTreeMap.mem_toList_iff_getElem?_eq_some, Std.ExtTreeMap.getElem?_insert] at hmem
  split at hmem
  · obtain rfl := Option.some.inj hmem
    exact List.cons_ne_nil _ _
  · exact hs (t, undos) (Std.ExtTreeMap.mem_toList_iff_getElem?_eq_some.2 hmem)

theorem wellKept_of_apply {updates : SortedMap InvocationId Progress} (hs : s.WellKept)
    (h : s.apply height updates = .ok s') : s'.WellKept := by
  obtain ⟨-, hbuilt⟩ := builtOn_of_apply hs.below h
  constructor
  · rw [hbuilt.height_eq]
    exact hbuilt.below
  · refine apply_keeps (P := fun s' => ∀ e ∈ s'.undo.toList, e.2 ≠ []) ?_ ?_ h
    · exact fun _ write hs => written_put hs write
    · exact hs.written

theorem wellKept_rollback (hs : s.WellKept) (height : UInt32) : (s.rollback height).WellKept where
  below := by
    intro e he
    obtain ⟨he, hbelow⟩ := mem_cut.1 he
    exact Std.le_min_iff.2 ⟨hs.below e he, le_of_lt_firstDropped hbelow⟩
  written e he := hs.written e (mem_cut.1 he).1

theorem wellKept_restore (hs : s.WellKept) (t : ProgressStore) :
    (s.restore t.snapshot).WellKept where
  below _ he := le_of_lt_firstDropped (mem_cut.1 he).2
  written e he := hs.written e (mem_cut.1 he).1

theorem wellKept_of_reached (h : Reached s) : s.WellKept := by
  induction h with
  | start => exact wellKept_empty
  | applied _ happly ih => exact wellKept_of_apply ih happly
  | @rolledBack s height _ ih => exact wellKept_rollback ih height
  | @restored s t _ _ ih _ => exact wellKept_restore ih t

/-! ## Section 2: Going back to where the store has not been -/

/-- A rollback to a height that the store has not passed takes back only what was
    written at the greatest height, and this only if that is where it goes. -/
theorem mem_rollbackIds_of_le (hs : s.WellKept) (h : s.height ≤ height) {id : InvocationId} :
    id ∈ s.rollbackIds height ↔ height = greatestHeight ∧ Records s.undo id greatestHeight := by
  rw [mem_rollbackIds, exists_records_iff]
  constructor
  · rintro ⟨t, hfirst, hrecord⟩
    have hle : t ≤ height := by
      obtain ⟨e, he, rfl, -⟩ := hrecord
      exact UInt32.le_trans (hs.below e he) h
    -- below the greatest height the cut is made above the height gone back to
    have hgreatest : height = greatestHeight := by
      by_contra hne
      have hlt : height < greatestHeight := by grind
      exact absurd hfirst (UInt32.not_le.2 ((lt_firstDropped_iff hlt).2 hle))
    subst hgreatest
    exact ⟨rfl, UInt32.le_antisymm hle hfirst ▸ hrecord⟩
  · rintro ⟨rfl, hrecord⟩
    exact ⟨greatestHeight, by decide, hrecord⟩

/-- A rollback that takes nothing back leaves the store as it is. -/
theorem rollback_eq_self (hs : s.WellKept) (h : s.height ≤ height)
    (hids : s.rollbackIds height = []) : s.rollback height = s := by
  have hbelow : ∀ e ∈ s.undo.toList, e.1 < firstDropped height := by
    intro e he
    by_contra hnot
    -- something has been written at every height of the log, and would be listed
    obtain ⟨u, hu⟩ := List.exists_mem_of_ne_nil _ (hs.written e he)
    have hmem : u.1 ∈ s.rollbackIds height :=
      mem_rollbackIds.2 ⟨u, mem_writesOf.2 ⟨e, he, UInt32.not_lt.1 hnot, hu⟩, rfl⟩
    rw [hids] at hmem
    exact nomatch hmem
  have hheight : min s.height height = s.height := if_pos h
  unfold rollback
  rw [writesOf_eq_nil hbelow, cut_eq_self hbelow, hheight]
  rfl

end

/-- **Going back to a height that the store has not passed** takes nothing back and
    leaves the store as it is, its log included, so that every later rollback does
    what it would have done; except that a rollback to the greatest height takes
    back what was written there. -/
theorem rollback_idle_iff {s : ProgressStore} (hs : Reached s) {height : UInt32}
    (h : s.height ≤ height) : s.rollbackIds height = [] ∧ s.rollback height = s ↔
      ¬(height = greatestHeight ∧ ∃ id, Records s.undo id greatestHeight) := by
  have hkept := wellKept_of_reached hs
  constructor
  · rintro ⟨hids, -⟩ ⟨hheight, id, hrecord⟩
    have hmem := (mem_rollbackIds_of_le hkept h).2 ⟨hheight, hrecord⟩
    rw [hids] at hmem
    exact nomatch hmem
  · intro hnone
    have hids : s.rollbackIds height = [] := by
      rw [List.eq_nil_iff_forall_not_mem]
      intro id hmem
      obtain ⟨hheight, hrecord⟩ := (mem_rollbackIds_of_le hkept h).1 hmem
      exact hnone ⟨hheight, id, hrecord⟩
    exact ⟨hids, rollback_eq_self hkept h hids⟩

/-- A store with one write, made at the height before the greatest. -/
theorem rollback_idle_iff_of_one_write :
    let id : InvocationId := .fill 170
    let mark : Progress := .suspended 0 (.const (.int 0)) 0
    let store : ProgressStore := {
      entries := SortedMap.ofEntries [(id, Wire.encode mark)]
      undo := SortedMap.ofEntries [(4294967294, [(id, none)])]
      height := 4294967294 }
    ProgressStore.empty.apply 4294967294 (SortedMap.ofEntries [(id, mark)]) = .ok store ∧
      store.rollbackIds 4294967294 = [] ∧ store.rollback 4294967294 = store ∧
      store.rollback greatestHeight = store := by
  intro id mark store
  have happly :
      ProgressStore.empty.apply 4294967294 (SortedMap.ofEntries [(id, mark)]) = .ok store := rfl
  have hreached : Reached store := .applied .start happly
  have hheight : (4294967294 : UInt32) ≠ greatestHeight := by decide
  have hsame := (rollback_idle_iff hreached (UInt32.le_refl _)).2 fun h => hheight h.1
  have hnone : ¬∃ id, Records store.undo id greatestHeight := by
    rintro ⟨id', e, he, hgreatest, -⟩
    have hlog : store.undo.toList = [(4294967294, [(id, none)])] := rfl
    rw [hlog] at he
    obtain rfl := List.mem_singleton.1 he
    exact hheight hgreatest
  have htop : _ ∧ store.rollback greatestHeight = store :=
    (rollback_idle_iff hreached (by decide)).2 fun h => hnone h.2
  exact ⟨happly, hsame.1, hsame.2, htop.2⟩

/-- **A rollback to the greatest height undoes what was written there**: one block
    is applied at the greatest height, and going back to the same height takes it
    back. -/
theorem rollback_undoes_greatest : ¬∀ s, Reached s → ∀ height, s.height ≤ height →
    s.rollbackIds height = [] ∧ (s.rollback height).height = s.height ∧
      (∀ id, (s.rollback height).get id = s.get id) ∧
      ∀ later id, ((s.rollback height).rollback later).get id = (s.rollback later).get id := by
  intro hall
  let id : InvocationId := .fill 170
  let mark : Progress := .suspended 0 (.const (.int 0)) 0
  let store : ProgressStore := {
    entries := SortedMap.ofEntries [(id, Wire.encode mark)]
    undo := SortedMap.ofEntries [(greatestHeight, [(id, none)])]
    height := greatestHeight }
  have happly :
      ProgressStore.empty.apply greatestHeight (SortedMap.ofEntries [(id, mark)]) = .ok store := rfl
  obtain ⟨-, -, hentries, -⟩ :=
    hall store (.applied .start happly) greatestHeight (UInt32.le_refl _)
  have hgone : (store.rollback greatestHeight).get id = .ok none := rfl
  have hwritten : store.get id = .ok (some mark) := rfl
  rw [hentries id, hwritten] at hgone
  exact nomatch hgone

end MeteredLedger.ProgressStore

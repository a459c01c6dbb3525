import MeteredLedger.Proofs.Entries

/-! # Snapshots and the log

    A snapshot holds the entries of a store and its height, but not the log. When
    it is restored, its entries meet what the log of the store then holds up to
    that height. A later rollback is right as long as that part of the log still
    belongs to the entries, and this module says when it does.

    * `Journey`: a store with the snapshots taken of it, and which of them are
      intact.
    * `Journey.Possible`: what can be done with a store.
    * `ProgressStore.GoesOnFrom`: a store that has not gone back beyond an earlier
      one. It still has what the log of the earlier one has to tell.
    * `heldBefore_restored`: so the log of such a store serves the entries of the
      earlier one.
    * `rollback_after_restore`: rolling back after restoring a snapshot is rolling
      back the store of which it was taken, if the snapshot is intact or the
      rollback does not reach below its height.
    * `rollback_leaves_discarded_branch`: otherwise it may leave entries of a
      branch that lies above the height rolled back to. -/

namespace MeteredLedger

open ProgressStore

/-! ## Section 1: Journeys -/

/-- A snapshot that has been taken. -/
structure Taken where
  /-- The store of which it was taken. -/
  origin : ProgressStore
  /-- Since then the store has not gone below the height of the snapshot, and no
      snapshot has been restored that was not intact. -/
  intact : Bool

/-- The snapshot, intact only if it has been and a condition holds. -/
def Taken.keptIf (t : Taken) (condition : Bool) : Taken :=
  { t with intact := t.intact && condition }

/-- A store and the snapshots that have been taken of it. -/
structure Journey where
  store : ProgressStore := .empty
  taken : List Taken := []

namespace Journey

/-- The store has gone back to a height. -/
def rolledBack (j : Journey) (height : UInt32) : Journey where
  store := j.store.rollback height
  taken := j.taken.map fun t => t.keptIf (t.origin.height ≤ height)

/-- A snapshot has been taken. -/
def withSnapshot (j : Journey) : Journey := { j with taken := ⟨j.store, true⟩ :: j.taken }

/-- A snapshot has been restored. One that is not intact brings entries that the
    log knows nothing of, and the next block may record them as what it replaces;
    then no snapshot counts as intact any longer. -/
def restored (j : Journey) (back : Taken) : Journey where
  store := j.store.restore back.origin.snapshot
  taken := j.taken.map fun t => t.keptIf (back.intact && t.origin.height ≤ back.origin.height)

/-- What can be done with a store, from the empty one on. Every snapshot taken can
    be restored at any time. -/
inductive Possible : Journey → Prop where
  | start : Possible {}
  /-- A block is applied. -/
  | applied {j store height updates} : Possible j → height < greatestHeight →
      j.store.apply height updates = .ok store → Possible { j with store }
  /-- A block is refused. -/
  | refused {j height updates error} : Possible j → height < greatestHeight →
      j.store.apply height updates = .error error → Possible j
  | rolledBack {j height} : Possible j → height < greatestHeight → Possible (j.rolledBack height)
  | withSnapshot {j} : Possible j → Possible j.withSnapshot
  | restored {j back} : Possible j → back ∈ j.taken → Possible (j.restored back)

end Journey

/-! ## Section 2: Stores that go on from earlier ones -/

namespace ProgressStore

/-- No height lies above the height of the store. -/
structure Bounded (s : ProgressStore) : Prop where
  height_lt : s.height < greatestHeight
  log : ∀ e ∈ s.undo.toList, e.1 ≤ s.height

/-- The store `s` has come from `t` without going below its height: taking back
    from there or from below gives what it gave at `t`, and where that changes an
    entry of `t`, there is a record of it. -/
structure GoesOnFrom (s t : ProgressStore) : Prop where
  height_le : t.height ≤ s.height
  takenBack : ∀ first ≤ t.height, ∀ id, heldBefore id (writesOf s.undo first) s.entries[id]? =
    heldBefore id (writesOf t.undo first) t.entries[id]?
  recorded : ∀ first id, heldBefore id (writesOf t.undo first) t.entries[id]? ≠ t.entries[id]? →
    ∃ height, first ≤ height ∧ height ≤ t.height ∧ Records s.undo id height

variable {s s' t : ProgressStore} {first height : UInt32}

theorem bounded_empty : Bounded .empty where
  height_lt := by decide
  log := nofun

theorem lt_firstDropped_of_le (hmax : first < greatestHeight) (h : first ≤ height) :
    first < firstDropped height := by
  have hbelow : first.toNat < 4294967295 := UInt32.lt_iff_toNat_lt.1 hmax
  have hle : first.toNat ≤ height.toNat := UInt32.le_iff_toNat_le.1 h
  rw [UInt32.lt_iff_toNat_lt, firstDropped, toNat_saturate32]
  simp only [UInt32.size]
  omega

theorem goesOnFrom_self (hs : s.Bounded) : s.GoesOnFrom s where
  height_le := UInt32.le_refl _
  takenBack _ _ _ := rfl
  recorded := by
    intro first id hchanges
    by_contra hnone
    refine hchanges (heldBefore_of_not_exists ?_ _)
    intro hexists
    obtain ⟨height, hfirst, hrecord⟩ := exists_records_iff.1 hexists
    have hle : height ≤ s.height := by
      obtain ⟨e, he, rfl, -⟩ := hrecord
      exact hs.log e he
    exact hnone ⟨height, hfirst, hle, hrecord⟩

/-- A store goes on while taking back gives the same and the records up to the
    height stay in the log. -/
theorem GoesOnFrom.next (h : s.GoesOnFrom t) (hheight : t.height ≤ s'.height)
    (htakenBack : ∀ first ≤ t.height, ∀ id, heldBefore id (writesOf s'.undo first) s'.entries[id]? =
      heldBefore id (writesOf s.undo first) s.entries[id]?)
    (hrecords : ∀ id height, height ≤ t.height → Records s.undo id height →
      Records s'.undo id height) : s'.GoesOnFrom t where
  height_le := hheight
  takenBack first hfirst id := (htakenBack first hfirst id).trans (h.takenBack first hfirst id)
  recorded := by
    intro first id hchanges
    obtain ⟨height, hfirst, hle, hrecord⟩ := h.recorded first id hchanges
    exact ⟨height, hfirst, hle, hrecords id height hle hrecord⟩

/-! ### Blocks -/

theorem bounded_of_apply {updates : SortedMap InvocationId Progress} (hs : s.Bounded)
    (hheight : height < greatestHeight) (h : s.apply height updates = .ok s') : s'.Bounded := by
  obtain ⟨-, hbuilt⟩ := builtOn_of_apply hs.log h
  constructor
  · rw [hbuilt.height_eq]
    exact hheight
  · rw [hbuilt.height_eq]
    exact hbuilt.below

theorem goesOnFrom_of_apply {updates : SortedMap InvocationId Progress} (hs : s.Bounded)
    (hst : s.GoesOnFrom t) (h : s.apply height updates = .ok s') : s'.GoesOnFrom t := by
  obtain ⟨hle, hbuilt⟩ := builtOn_of_apply hs.log h
  have hheight : t.height ≤ height := UInt32.le_trans hst.height_le hle
  refine hst.next ?_ ?_ ?_
  · rw [hbuilt.height_eq]
    exact hheight
  · intro first hfirst id
    exact hbuilt.takenBack first (UInt32.le_trans hfirst hheight) id
  · exact fun id t _ hrecord => hbuilt.records id t hrecord

/-! ### Rollbacks -/

theorem bounded_rollback (hs : s.Bounded) (h : height < greatestHeight) :
    (s.rollback height).Bounded where
  height_lt := UInt32.lt_of_le_of_lt Std.min_le_left hs.height_lt
  log := by
    intro e he
    obtain ⟨he, hbelow⟩ := mem_cut.1 he
    exact Std.le_min_iff.2 ⟨hs.log e he, (lt_firstDropped_iff h).1 hbelow⟩

/-- What is left to take back after a rollback comes after what it has taken back. -/
theorem goesOnFrom_rollback (hst : s.GoesOnFrom t) (h : height < greatestHeight)
    (hheight : t.height ≤ height) : (s.rollback height).GoesOnFrom t := by
  have hlt : t.height < firstDropped height := (lt_firstDropped_iff h).2 hheight
  refine hst.next (Std.le_min_iff.2 ⟨hst.height_le, hheight⟩) ?_ ?_
  · intro first hfirst id
    have hsplit := writesOf_split s.undo (UInt32.le_of_lt (UInt32.lt_of_le_of_lt hfirst hlt))
    rw [entries_rollback, hsplit, heldBefore_append]
    rfl
  · intro id height' hle hrecord
    exact records_cut hrecord (UInt32.lt_of_le_of_lt hle hlt)

/-! ### Restored snapshots -/

/-- **The log that has gone on serves the snapshot**: taking back from below its
    height gives what it gave when the snapshot was taken. -/
theorem heldBefore_restored (hst : s.GoesOnFrom t) (ht : t.Bounded) (hfirst : first ≤ t.height)
    (id : InvocationId) :
    heldBefore id (writesOf (cut s.undo (firstDropped t.height)) first) t.entries[id]? =
      heldBefore id (writesOf t.undo first) t.entries[id]? := by
  have hlt : ∀ {height}, height < firstDropped t.height ↔ height ≤ t.height :=
    lt_firstDropped_iff ht.height_lt
  by_cases hrecorded : ∃ u ∈ writesOf (cut s.undo (firstDropped t.height)) first, u.1 = id
  · -- the oldest record decides, so it does not matter that the snapshot has its own entry here
    have hsplit := writesOf_split s.undo (UInt32.le_of_lt (hlt.2 hfirst))
    rw [← hst.takenBack first hfirst id, hsplit, heldBefore_append]
    exact heldBefore_congr hrecorded _ _
  · rw [heldBefore_of_not_exists hrecorded]
    by_contra hchanges
    obtain ⟨height, hle, hheight, hrecord⟩ := hst.recorded first id (Ne.symm hchanges)
    have hkept := records_cut hrecord (hlt.2 hheight)
    exact hrecorded (exists_records_iff.2 ⟨height, hle, hkept⟩)

theorem bounded_restore (s : ProgressStore) (ht : t.Bounded) : (s.restore t.snapshot).Bounded where
  height_lt := ht.height_lt
  log := by
    intro e he
    exact (lt_firstDropped_iff ht.height_lt).1 (mem_cut.1 he).2

theorem goesOnFrom_restore {t' : ProgressStore} (hst : s.GoesOnFrom t) (hst' : s.GoesOnFrom t')
    (ht' : t'.Bounded) (hheight : t.height ≤ t'.height) :
    (s.restore t'.snapshot).GoesOnFrom t := by
  refine hst.next hheight ?_ ?_
  · intro first hfirst id
    have hfirst' : first ≤ t'.height := UInt32.le_trans hfirst hheight
    rw [hst'.takenBack first hfirst' id]
    exact heldBefore_restored hst' ht' hfirst' id
  · intro id height hle hrecord
    exact records_cut hrecord ((lt_firstDropped_iff ht'.height_lt).2 (UInt32.le_trans hle hheight))

end ProgressStore

/-! ## Section 3: The invariant -/

/-- What is kept of a journey: the store has gone on from where each intact
    snapshot was taken. -/
structure Journey.Sound (j : Journey) : Prop where
  bounded : j.store.Bounded
  origins : ∀ t ∈ j.taken, t.origin.Bounded
  intact : ∀ t ∈ j.taken, t.intact = true → j.store.GoesOnFrom t.origin

theorem Taken.intact_keptIf {t : Taken} {condition : Bool} :
    (t.keptIf condition).intact = true ↔ t.intact = true ∧ condition = true := by
  rw [keptIf, Bool.and_eq_true]

namespace Journey

variable {j : Journey}

theorem sound_applied {store : ProgressStore} {height : UInt32}
    {updates : SortedMap InvocationId Progress} (hj : j.Sound) (hheight : height < greatestHeight)
    (h : j.store.apply height updates = .ok store) : Sound { j with store } where
  bounded := bounded_of_apply hj.bounded hheight h
  origins := hj.origins
  intact t ht hintact := goesOnFrom_of_apply hj.bounded (hj.intact t ht hintact) h

theorem sound_rolledBack {height : UInt32} (hj : j.Sound) (h : height < greatestHeight) :
    (j.rolledBack height).Sound where
  bounded := bounded_rollback hj.bounded h
  origins := by
    intro t' ht'
    obtain ⟨t, ht, rfl⟩ := List.mem_map.1 ht'
    exact hj.origins t ht
  intact := by
    intro t' ht' hintact
    obtain ⟨t, ht, rfl⟩ := List.mem_map.1 ht'
    obtain ⟨hintact, hheight⟩ := Taken.intact_keptIf.1 hintact
    exact goesOnFrom_rollback (hj.intact t ht hintact) h (of_decide_eq_true hheight)

theorem sound_withSnapshot (hj : j.Sound) : j.withSnapshot.Sound where
  bounded := hj.bounded
  origins := by
    intro t ht
    rcases List.mem_cons.1 ht with rfl | ht
    · exact hj.bounded
    · exact hj.origins t ht
  intact := by
    intro t ht hintact
    rcases List.mem_cons.1 ht with rfl | ht
    · exact goesOnFrom_self hj.bounded
    · exact hj.intact t ht hintact

theorem sound_restored {back : Taken} (hj : j.Sound) (hback : back ∈ j.taken) :
    (j.restored back).Sound where
  bounded := bounded_restore j.store (hj.origins back hback)
  origins := by
    intro t' ht'
    obtain ⟨t, ht, rfl⟩ := List.mem_map.1 ht'
    exact hj.origins t ht
  intact := by
    intro t' ht' hintact
    obtain ⟨t, ht, rfl⟩ := List.mem_map.1 ht'
    -- a snapshot stays intact only if the one restored is intact as well
    obtain ⟨hintact, hcondition⟩ := Taken.intact_keptIf.1 hintact
    obtain ⟨hbackIntact, hheight⟩ := (Bool.and_eq_true _ _).mp hcondition
    exact goesOnFrom_restore (hj.intact t ht hintact) (hj.intact back hback hbackIntact)
      (hj.origins back hback) (of_decide_eq_true hheight)

theorem sound_of_possible (h : j.Possible) : j.Sound := by
  induction h with
  | start => exact ⟨bounded_empty, nofun, nofun⟩
  | applied _ hheight happly ih => exact sound_applied ih hheight happly
  | refused _ _ _ ih => exact ih
  | rolledBack _ hheight ih => exact sound_rolledBack ih hheight
  | withSnapshot _ ih => exact sound_withSnapshot ih
  | restored _ hback ih => exact sound_restored ih hback

end Journey

/-! ## Section 4: Rolling back after restoring -/

theorem entries_rollback_restore (s t : ProgressStore) (height : UInt32) (id : InvocationId) :
    ((s.restore t.snapshot).rollback height).entries[id]? =
      heldBefore id (writesOf (cut s.undo (firstDropped t.height)) (firstDropped height))
        t.entries[id]? :=
  entries_rollback _ height id

/-- **Rolling back after restoring a snapshot** leaves what rolling back would have
    left when the snapshot was taken, if the snapshot is intact, or if the rollback
    does not go below its height. -/
theorem rollback_after_restore {j : Journey} (hj : j.Possible) {t : Taken} (ht : t ∈ j.taken)
    {height : UInt32} (h : t.intact = true ∨ t.origin.height ≤ height) (id : InvocationId) :
    ((j.store.restore t.origin.snapshot).rollback height).entries[id]? =
      (t.origin.rollback height).entries[id]? := by
  have hsound := Journey.sound_of_possible hj
  have hbounded := hsound.origins t ht
  rw [entries_rollback_restore, entries_rollback]
  by_cases hheight : t.origin.height ≤ height
  · -- neither log reaches above the height of the snapshot
    have hlt : ∀ e : UInt32, e ≤ t.origin.height → e < firstDropped height := by
      intro e he
      exact lt_firstDropped_of_le (UInt32.lt_of_le_of_lt he hbounded.height_lt)
        (UInt32.le_trans he hheight)
    rw [writesOf_eq_nil fun e he => hlt e.1 (hbounded.log e he), writesOf_eq_nil]
    intro e he
    exact hlt e.1 ((lt_firstDropped_iff hbounded.height_lt).1 (mem_cut.1 he).2)
  · have hintact : t.intact = true := h.resolve_right hheight
    have hmax : height < greatestHeight :=
      UInt32.lt_trans (UInt32.not_le.1 hheight) hbounded.height_lt
    have hfirst : firstDropped height ≤ t.origin.height :=
      UInt32.not_lt.1 fun hlt => hheight ((lt_firstDropped_iff hmax).1 hlt)
    exact heldBefore_restored (hsound.intact t ht hintact) hbounded hfirst id

/-- An invocation begins at height 1 and goes on at height 2; a snapshot is taken at
    either height. The first one is restored, and the store goes back to the
    start. -/
theorem rollback_after_restore_of_two_blocks :
    let id : InvocationId := .fill 170
    let mark : UInt32 → Progress := fun step => .suspended step (.const (.int 0)) 0
    let first : ProgressStore := {
      entries := SortedMap.ofEntries [(id, Wire.encode (mark 0))]
      undo := SortedMap.ofEntries [(1, [(id, none)])]
      height := 1 }
    let second : ProgressStore := {
      entries := SortedMap.ofEntries [(id, Wire.encode (mark 1))]
      undo := SortedMap.ofEntries [(1, [(id, none)]), (2, [(id, some (Wire.encode (mark 0)))])]
      height := 2 }
    ProgressStore.empty.apply 1 (SortedMap.ofEntries [(id, mark 0)]) = .ok first ∧
      first.apply 2 (SortedMap.ofEntries [(id, mark 1)]) = .ok second ∧
      Journey.Possible ⟨second, [⟨second, true⟩, ⟨first, true⟩]⟩ ∧
      ((second.restore first.snapshot).rollback 0).entries[id]? =
        (first.rollback 0).entries[id]? ∧
      (first.rollback 0).entries[id]? = none := by
  intro id mark first second
  have hfirst : ProgressStore.empty.apply 1 (SortedMap.ofEntries [(id, mark 0)]) = .ok first := rfl
  have hsecond : first.apply 2 (SortedMap.ofEntries [(id, mark 1)]) = .ok second := rfl
  have hpossible : Journey.Possible ⟨second, [⟨second, true⟩, ⟨first, true⟩]⟩ := by
    have hbegun : Journey.Possible ⟨first, [⟨first, true⟩]⟩ :=
      .withSnapshot (.applied .start (by decide) hfirst)
    exact .withSnapshot (.applied hbegun (by decide) hsecond)
  have hsame : ((second.restore first.snapshot).rollback 0).entries[id]? =
      (first.rollback 0).entries[id]? :=
    rollback_after_restore hpossible (t := ⟨first, true⟩) (by simp) (.inl rfl) id
  exact ⟨hfirst, hsecond, hpossible, hsame, rfl⟩

/-- **A rollback may leave entries of a discarded branch**: a snapshot is taken of
    a store with an invocation from height 1, the store goes back to the start, and
    the snapshot is restored. The invocation is back, its record is not, so when the
    store goes back to the start once more the invocation stays. -/
theorem rollback_leaves_discarded_branch : ¬∀ j : Journey, j.Possible → ∀ t ∈ j.taken,
    ∀ height id, ((j.store.restore t.origin.snapshot).rollback height).get id =
      (t.origin.rollback height).get id := by
  intro hall
  let id : InvocationId := .fill 170
  let mark : Progress := .suspended 0 (.const (.int 0)) 0
  let store : ProgressStore := {
    entries := SortedMap.ofEntries [(id, Wire.encode mark)]
    undo := SortedMap.ofEntries [(1, [(id, none)])]
    height := 1 }
  have happly : ProgressStore.empty.apply 1 (SortedMap.ofEntries [(id, mark)]) = .ok store := rfl
  have hpossible : Journey.Possible ⟨store.rollback 0, [⟨store, false⟩]⟩ := by
    have htaken : Journey.Possible ⟨store, [⟨store, true⟩]⟩ :=
      .withSnapshot (.applied .start (by decide) happly)
    exact .rolledBack htaken (by decide)
  have hunrecorded :
      writesOf (cut (store.rollback 0).undo (firstDropped 1)) (firstDropped 0) = [] :=
    writesOf_eq_nil fun e he => (mem_cut.1 (mem_cut.1 he).1).2
  have hstays :
      (((store.rollback 0).restore store.snapshot).rollback 0).get id = .ok (some mark) := by
    refine get_eq_ok_iff.2 ⟨fun _ hsame => Option.some.inj hsame ▸ trivial, ?_⟩
    rw [entries_rollback_restore]
    show heldBefore id (writesOf (cut (store.rollback 0).undo (firstDropped 1)) (firstDropped 0))
      (some (Wire.encode mark)) = some (Wire.encode mark)
    rw [hunrecorded]
    rfl
  have hgone : (store.rollback 0).get id = .ok none := rfl
  have hsame := hall _ hpossible ⟨store, false⟩ (by simp) 0 id
  exact nomatch hstays.symm.trans (hsame.trans hgone)

end MeteredLedger

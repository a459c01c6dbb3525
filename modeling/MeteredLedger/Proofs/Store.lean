import Mathlib.Data.List.Sort
import MeteredLedger.ProgressStore

/-! # The log of a store

    The log of a store keeps with every write what it replaced. Taking back the
    writes of a height and of all above it leaves what the entries held before
    the first of them, because of the writes to one entry the oldest is taken
    back last. What the bytes of an entry stand for does not matter here.

    * `mem_writesOf`, `writesOf_split`: the writes of a log from a height on, and
      how they split where the log is `cut`.
    * `heldBefore`: what an entry held before a list of writes.
    * `apply_keeps`: what every write keeps is kept by a block.
    * `BuiltOn`: a store with more writes at a height, which can be taken back;
      so is every store after a block.
    * `mem_rollbackIds_of_ne`: what a rollback lists. -/

namespace MeteredLedger.ProgressStore

/-! ## Section 1: The writes of a log -/

section

variable {log : SortedMap UInt32 (List Undo)} {first height : UInt32} {u : Undo}

theorem mem_writesOf :
    u ∈ writesOf log first ↔ ∃ e ∈ log.toList, first ≤ e.1 ∧ u ∈ e.2 := by
  simp only [writesOf, List.mem_flatMap, List.mem_filter, List.mem_reverse, decide_eq_true_iff,
    and_assoc]

theorem toList_cut (log : SortedMap UInt32 (List Undo)) (height : UInt32) :
    (cut log height).toList = log.toList.filter (·.1 < height) :=
  Std.ExtTreeMap.toList_filter

theorem mem_cut {e : UInt32 × List Undo} :
    e ∈ (cut log height).toList ↔ e ∈ log.toList ∧ e.1 < height := by
  rw [toList_cut, List.mem_filter, decide_eq_true_iff]

theorem writesOf_eq_nil (h : ∀ e ∈ log.toList, e.1 < first) : writesOf log first = [] := by
  rw [List.eq_nil_iff_forall_not_mem]
  intro u hu
  obtain ⟨e, he, hle, -⟩ := mem_writesOf.1 hu
  have hlt := h e he
  grind

/-- Heights come in descending order, so those from a height on come first. -/
theorem filter_split {β : Type} {l : List (UInt32 × β)} (hl : l.Pairwise fun a b => b.1 < a.1)
    (h : first ≤ height) : l.filter (first ≤ ·.1) =
      l.filter (height ≤ ·.1) ++ (l.filter (·.1 < height)).filter (first ≤ ·.1) := by
  induction l with
  | nil => rfl
  | cons e l ih =>
    obtain ⟨hbelow, hl⟩ := List.pairwise_cons.1 hl
    by_cases hheight : height ≤ e.1
    · have hfirst : first ≤ e.1 := UInt32.le_trans h hheight
      have hnot : ¬e.1 < height := UInt32.not_lt.2 hheight
      simp [hfirst, hheight, hnot, ih hl]
    · -- everything that follows is below the height as well
      have hnone : l.filter (height ≤ ·.1) = [] := by
        rw [List.filter_eq_nil_iff]
        intro e' he'
        have hlt := hbelow e' he'
        grind
      have hlt : e.1 < height := UInt32.not_le.1 hheight
      have hrest := ih hl
      rw [hnone, List.nil_append] at hrest
      simp [hheight, hlt, hnone, List.filter_cons, hrest]

theorem pairwise_reverse_toList (log : SortedMap UInt32 (List Undo)) :
    log.toList.reverse.Pairwise fun a b => b.1 < a.1 := by
  rw [List.pairwise_reverse]
  exact log.ordered_keys_toList.imp fun h => Std.compare_eq_lt.1 h

/-- The writes from a height on are those from a later height on and those that a
    log cut there still has. -/
theorem writesOf_split (log : SortedMap UInt32 (List Undo)) (h : first ≤ height) :
    writesOf log first = writesOf log height ++ writesOf (cut log height) first := by
  have hbelow : (cut log height).toList.reverse = log.toList.reverse.filter (·.1 < height) := by
    rw [toList_cut, List.filter_reverse]
  unfold writesOf
  rw [filter_split (pairwise_reverse_toList log) h, List.flatMap_append, hbelow]

/-- There is one entry of the log at most from its greatest height on. -/
theorem filter_greatest (h : ∀ e ∈ log.toList, e.1 ≤ height) :
    log.toList.reverse.filter (height ≤ ·.1) =
      (log[height]?.map fun undos => (height, undos)).toList := by
  have : Std.Antisymm fun a b : UInt32 × List Undo => b.1 < a.1 :=
    ⟨fun _ _ hab hba => absurd (UInt32.lt_trans hab hba) (UInt32.lt_irrefl _)⟩
  have : Std.Irrefl fun a b : UInt32 × List Undo => b.1 < a.1 := ⟨fun a => UInt32.lt_irrefl a.1⟩
  -- both lists are in order, so it is enough that they have the same members
  refine List.Pairwise.eq_of_mem_iff ((pairwise_reverse_toList log).filter _) ?_ ?_
  · cases log[height]? <;> simp
  · intro ⟨t, undos⟩
    rw [List.mem_filter, List.mem_reverse, decide_eq_true_iff, Option.mem_toList,
      Option.map_eq_some_iff]
    constructor
    · intro ⟨hmem, hge⟩
      have hsame : t = height := UInt32.le_antisymm (h _ hmem) hge
      exact ⟨undos, hsame ▸ Std.ExtTreeMap.mem_toList_iff_getElem?_eq_some.1 hmem, hsame ▸ rfl⟩
    · intro ⟨undos', hlast, hsame⟩
      obtain ⟨rfl, rfl⟩ := Prod.mk.inj hsame
      exact ⟨Std.ExtTreeMap.mem_toList_iff_getElem?_eq_some.2 hlast, UInt32.le_refl _⟩

/-- At the greatest height of a log there are the writes of that height only. -/
theorem writesOf_greatest (h : ∀ e ∈ log.toList, e.1 ≤ height) :
    writesOf log height = log.getD height [] := by
  unfold writesOf
  rw [filter_greatest h, Std.ExtTreeMap.getD_eq_getD_getElem?]
  cases log[height]? <;> simp

theorem getElem?_cut (log : SortedMap UInt32 (List Undo)) (height t : UInt32) :
    (cut log height)[t]? = if t < height then log[t]? else none := by
  refine Option.ext fun undos => ?_
  rw [← Std.ExtTreeMap.mem_toList_iff_getElem?_eq_some, mem_cut,
    Std.ExtTreeMap.mem_toList_iff_getElem?_eq_some]
  by_cases hlt : t < height <;> simp [hlt]

/-- There is nothing to cut where no height is reached from the cut on. -/
theorem cut_eq_self (h : ∀ e ∈ log.toList, e.1 < height) : cut log height = log := by
  refine Std.ExtTreeMap.ext_getElem? fun t => ?_
  rw [getElem?_cut]
  split
  · rfl
  · rename_i hnot
    refine (Option.eq_none_iff_forall_ne_some.2 fun undos hundos => hnot ?_).symm
    exact h (t, undos) (Std.ExtTreeMap.mem_toList_iff_getElem?_eq_some.2 hundos)

theorem le_of_mem_insert (h : ∀ e ∈ log.toList, e.1 ≤ height) (undos : List Undo) :
    ∀ e ∈ (log.insert height undos).toList, e.1 ≤ height := by
  rintro ⟨t, undos'⟩ hmem
  rw [Std.ExtTreeMap.mem_toList_iff_getElem?_eq_some, Std.ExtTreeMap.getElem?_insert] at hmem
  by_cases hsame : height = t
  · exact hsame ▸ UInt32.le_refl _
  · rw [if_neg (by simpa using hsame)] at hmem
    exact h _ (Std.ExtTreeMap.mem_toList_iff_getElem?_eq_some.2 hmem)

/-- One more write at the greatest height comes first. -/
theorem writesOf_insert (h : ∀ e ∈ log.toList, e.1 ≤ height) (hfirst : first ≤ height) (u : Undo) :
    writesOf (log.insert height (u :: log.getD height [])) first = u :: writesOf log first := by
  have hbelow : cut (log.insert height (u :: log.getD height [])) height = cut log height := by
    refine Std.ExtTreeMap.ext_getElem? fun t => ?_
    rw [getElem?_cut, getElem?_cut, Std.ExtTreeMap.getElem?_insert]
    by_cases hlt : t < height
    · have hne : height ≠ t := by grind
      simp [hlt, hne]
    · simp [hlt]
  rw [writesOf_split _ hfirst, writesOf_split log hfirst, hbelow, writesOf_greatest h,
    writesOf_greatest (le_of_mem_insert h _)]
  simp

end

/-! ## Section 2: Taking back -/

/-- What the entry of an invocation held before these writes, the last one first,
    if it holds `now` after them. -/
def heldBefore (id : InvocationId) (undos : List Undo) (now : Option (List UInt8)) :
    Option (List UInt8) :=
  undos.foldl (fun held u => if u.1 = id then u.2 else held) now

section

variable {id : InvocationId} {undos undos' : List Undo}

theorem heldBefore_append (now : Option (List UInt8)) :
    heldBefore id (undos ++ undos') now = heldBefore id undos' (heldBefore id undos now) :=
  List.foldl_append

theorem heldBefore_cons (u : Undo) (now : Option (List UInt8)) :
    heldBefore id (u :: undos) now = heldBefore id undos (if u.1 = id then u.2 else now) := rfl

/-- An entry that has not been written to holds what it held. -/
theorem heldBefore_of_not_exists (h : ¬∃ u ∈ undos, u.1 = id) (now : Option (List UInt8)) :
    heldBefore id undos now = now := by
  induction undos with
  | nil => rfl
  | cons u undos ih =>
    have hother : u.1 ≠ id := fun hsame => h ⟨u, List.mem_cons_self, hsame⟩
    rw [heldBefore_cons, if_neg hother]
    exact ih fun ⟨u', hu', hsame⟩ => h ⟨u', List.mem_cons_of_mem u hu', hsame⟩

/-- The oldest write to an entry tells what it held before, whatever it holds
    now. -/
theorem heldBefore_congr (h : ∃ u ∈ undos, u.1 = id) (now now' : Option (List UInt8)) :
    heldBefore id undos now = heldBefore id undos now' := by
  induction undos generalizing now now' with
  | nil =>
    obtain ⟨u, hu, -⟩ := h
    exact nomatch hu
  | cons u undos ih =>
    rw [heldBefore_cons, heldBefore_cons]
    by_cases hsame : u.1 = id
    · rw [if_pos hsame, if_pos hsame]
    · rw [if_neg hsame, if_neg hsame]
      obtain ⟨u', hu', hid⟩ := h
      rcases List.mem_cons.1 hu' with rfl | hlater
      · exact absurd hid hsame
      · exact ih ⟨u', hlater, hid⟩ now now'

theorem getElem?_takeBack (entries : SortedMap InvocationId (List UInt8)) (u : Undo) :
    (takeBack entries u)[id]? = if u.1 = id then u.2 else entries[id]? := by
  obtain ⟨id', held⟩ := u
  by_cases hsame : id' = id
  · subst hsame
    cases held <;> simp [takeBack]
  · cases held <;>
      simp [takeBack, hsame, Std.ExtTreeMap.getElem?_insert, Std.ExtTreeMap.getElem?_erase]

theorem getElem?_foldl_takeBack (entries : SortedMap InvocationId (List UInt8)) :
    (undos.foldl takeBack entries)[id]? = heldBefore id undos entries[id]? := by
  induction undos generalizing entries with
  | nil => rfl
  | cons u undos ih => rw [List.foldl_cons, ih, getElem?_takeBack, heldBefore_cons]

theorem entries_rollback (s : ProgressStore) (height : UInt32) (id : InvocationId) :
    (s.rollback height).entries[id]? =
      heldBefore id (writesOf s.undo (firstDropped height)) s.entries[id]? :=
  getElem?_foldl_takeBack s.entries

/-- The greatest height there is. No height lies above it. -/
abbrev greatestHeight : UInt32 := 4294967295

theorem lt_firstDropped_iff {height t : UInt32} (h : height < greatestHeight) :
    t < firstDropped height ↔ t ≤ height := by
  have hlt : height.toNat < 4294967295 := UInt32.lt_iff_toNat_lt.1 h
  rw [UInt32.lt_iff_toNat_lt, UInt32.le_iff_toNat_le, firstDropped, toNat_saturate32]
  simp only [UInt32.size]
  omega

/-- What is kept lies at the height or below, also at the greatest height. -/
theorem le_of_lt_firstDropped {height t : UInt32} (h : t < firstDropped height) : t ≤ height := by
  rw [UInt32.lt_iff_toNat_lt, firstDropped, toNat_saturate32] at h
  rw [UInt32.le_iff_toNat_le]
  omega

end

/-! ## Section 3: Blocks that are applied -/

/-- A write to the entry is kept under this height. -/
def Records (log : SortedMap UInt32 (List Undo)) (id : InvocationId) (height : UInt32) : Prop :=
  ∃ e ∈ log.toList, e.1 = height ∧ ∃ u ∈ e.2, u.1 = id

/-- `s` is `base` with more writes at a height: taking back from there on or from
    below gives the same. -/
structure BuiltOn (s base : ProgressStore) (height : UInt32) : Prop where
  height_eq : s.height = height
  below : ∀ e ∈ s.undo.toList, e.1 ≤ height
  takenBack : ∀ first ≤ height, ∀ id, heldBefore id (writesOf s.undo first) s.entries[id]? =
    heldBefore id (writesOf base.undo first) base.entries[id]?
  records : ∀ id t, Records base.undo id t → Records s.undo id t

theorem exists_records_iff {log : SortedMap UInt32 (List Undo)} {id : InvocationId}
    {first : UInt32} :
    (∃ u ∈ writesOf log first, u.1 = id) ↔ ∃ height, first ≤ height ∧ Records log id height := by
  constructor
  · rintro ⟨u, hu, hid⟩
    obtain ⟨e, he, hle, hmem⟩ := mem_writesOf.1 hu
    exact ⟨e.1, hle, e, he, rfl, u, hmem, hid⟩
  · rintro ⟨height, hle, e, he, rfl, u, hu, hid⟩
    exact ⟨u, mem_writesOf.2 ⟨e, he, hle, hu⟩, hid⟩

/-- Cutting a log keeps the writes below the cut. -/
theorem records_cut {log : SortedMap UInt32 (List Undo)} {id : InvocationId}
    {height t : UInt32} (h : Records log id t) (hlt : t < height) :
    Records (cut log height) id t := by
  obtain ⟨e, he, rfl, hid⟩ := h
  exact ⟨e, mem_cut.2 ⟨he, hlt⟩, rfl, hid⟩

section

variable {s s' base : ProgressStore} {height : UInt32}

/-- What the application of a block does: it writes at a height that is not below
    that of the store. -/
theorem apply_eq_ok {updates : SortedMap InvocationId Progress}
    (h : s.apply height updates = .ok s') : s.height ≤ height ∧
      ∃ writes, updates.toList.filterMapM (fun e => s.prepare e.1 e.2) = .ok writes ∧
        s' = writes.foldl (put height) { s with height } := by
  obtain ⟨hheight, h⟩ := demand_bind_eq_ok_iff.1 h
  obtain ⟨writes, hwrites, h⟩ := bind_eq_ok_iff.1 h
  exact ⟨of_decide_eq_true hheight, writes, hwrites, (Except.ok.inj h).symm⟩

/-- What every write keeps is kept by a block. -/
theorem apply_keeps {updates : SortedMap InvocationId Progress} {P : ProgressStore → Prop}
    (hput : ∀ s write, P s → P (put height s write)) (hs : P { s with height })
    (h : s.apply height updates = .ok s') : P s' := by
  obtain ⟨-, writes, -, rfl⟩ := apply_eq_ok h
  exact List.foldlRecOn writes (put height) hs fun s hs write _ => hput s write hs

theorem height_apply {updates : SortedMap InvocationId Progress}
    (h : s.apply height updates = .ok s') : s'.height = height :=
  apply_keeps (P := fun s => s.height = height) (fun _ _ hs => hs) rfl h

theorem entries_put (s : ProgressStore) (write : InvocationId × List UInt8) (id : InvocationId) :
    (put height s write).entries[id]? =
      if write.1 = id then some write.2 else s.entries[id]? := by
  unfold put
  rw [Std.ExtTreeMap.getElem?_insert]
  by_cases hsame : write.1 = id <;> simp [hsame]

theorem records_insert {log : SortedMap UInt32 (List Undo)} {id : InvocationId} {t : UInt32}
    (h : Records log id t) (height : UInt32) (u : Undo) :
    Records (log.insert height (u :: log.getD height [])) id t := by
  obtain ⟨⟨t, undos⟩, hmem, rfl, u', hu', hid⟩ := h
  have hold := Std.ExtTreeMap.mem_toList_iff_getElem?_eq_some.1 hmem
  by_cases hsame : height = t
  · subst hsame
    refine ⟨(height, u :: log.getD height []), ?_, rfl, u', ?_, hid⟩
    · simp [Std.ExtTreeMap.mem_toList_iff_getElem?_eq_some]
    · simp [Std.ExtTreeMap.getD_eq_getD_getElem?, hold, hu']
  · refine ⟨(t, undos), ?_, rfl, u', hu', hid⟩
    rw [Std.ExtTreeMap.mem_toList_iff_getElem?_eq_some, Std.ExtTreeMap.getElem?_insert]
    simp [hsame, hold]

theorem builtOn_put (hs : s.BuiltOn base height) (write : InvocationId × List UInt8) :
    (put height s write).BuiltOn base height where
  height_eq := hs.height_eq
  below := le_of_mem_insert hs.below _
  takenBack := by
    intro first hfirst id
    have hlog : writesOf (put height s write).undo first =
      (write.1, s.entries[write.1]?) :: writesOf s.undo first :=
        writesOf_insert hs.below hfirst _
    rw [← hs.takenBack first hfirst id, hlog, heldBefore_cons, entries_put]
    congr 1
    by_cases hsame : write.1 = id
    · rw [if_pos hsame, hsame]
    · rw [if_neg hsame, if_neg hsame]
  records id t hrecords := records_insert (hs.records id t hrecords) height _

/-- **A block that is applied can be taken back.** -/
theorem builtOn_of_apply {updates : SortedMap InvocationId Progress}
    (hlog : ∀ e ∈ s.undo.toList, e.1 ≤ s.height) (h : s.apply height updates = .ok s') :
    s.height ≤ height ∧ s'.BuiltOn s height := by
  have hle := (apply_eq_ok h).1
  have hstart : BuiltOn { s with height } s height :=
    ⟨rfl, fun e he => UInt32.le_trans (hlog e he) hle, fun _ _ _ => rfl, fun _ _ h => h⟩
  exact ⟨hle, apply_keeps (P := fun s' => s'.BuiltOn s height)
    (fun _ write hs => builtOn_put hs write) hstart h⟩

end

/-! ## Section 4: What a rollback lists -/

section

variable {s : ProgressStore} {height : UInt32} {id : InvocationId}

theorem pairwise_rollbackIds (s : ProgressStore) (height : UInt32) :
    (s.rollbackIds height).Pairwise fun a b => compare a b = .lt :=
  Std.ExtTreeSet.ordered_toList

theorem mem_rollbackIds :
    id ∈ s.rollbackIds height ↔ ∃ u ∈ writesOf s.undo (firstDropped height), u.1 = id := by
  unfold rollbackIds
  simp [Std.ExtTreeSet.mem_toList, Std.ExtTreeSet.mem_ofList]

/-- A rollback names every entry that it changes. -/
theorem mem_rollbackIds_of_ne (h : (s.rollback height).entries[id]? ≠ s.entries[id]?) :
    id ∈ s.rollbackIds height := by
  rw [mem_rollbackIds]
  by_contra hnone
  rw [entries_rollback] at h
  exact h (heldBefore_of_not_exists hnone _)

end

end MeteredLedger.ProgressStore

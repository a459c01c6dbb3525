import MeteredLedger.Proofs.Canonical
import MeteredLedger.Proofs.Store

/-! # The entries of a store

    The store keeps bytes and shows progress. What is read from an entry is what
    has been written to it: progress that cannot be written is refused, and bytes
    that can be read are those of the progress read from them. So a block leaves
    in the store what it writes, and else what there was.

    * `get_eq_ok_iff`: what is read, in terms of the bytes that are kept.
    * `prepare_eq_ok`, `prepare_eq_error`: which updates are accepted, and with
      what errors the others are refused.
    * `entries_apply`, `get_apply`: what a block leaves.
    * `fits_of_apply`, `exists_of_apply_eq_error`: which blocks are applied.
    * `exists_pending`: what the store lists. -/

namespace MeteredLedger.ProgressStore

open Wire (Fits)

variable {s s' : ProgressStore} {id : InvocationId} {mark : Progress} {p : Option Progress}
  {height : UInt32} {updates : SortedMap InvocationId Progress} {error : StoreError}

/-! ## Section 1: Reading -/

theorem readEntry_eq_ok_iff {bytes : List UInt8} :
    readEntry id bytes = .ok mark ↔ Fits mark ∧ Wire.encode mark = bytes := by
  unfold readEntry
  rw [demandSome_eq_ok_iff, Wire.decode?_eq_some_iff]

/-- **What is read** is progress that can be written, and the entry has the bytes
    that are written for it. -/
theorem get_eq_ok_iff : s.get id = .ok p ↔
    (∀ mark, p = some mark → Fits mark) ∧ s.entries[id]? = p.map Wire.encode := by
  constructor
  · intro h
    unfold get at h
    split at h
    · rename_i hentry
      obtain rfl := Except.ok.inj h
      exact ⟨nofun, hentry⟩
    · rename_i bytes hentry
      obtain ⟨mark, hread, rfl⟩ := map_eq_ok_iff.1 h
      obtain ⟨hfits, rfl⟩ := readEntry_eq_ok_iff.1 hread
      exact ⟨fun _ hsame => Option.some.inj hsame ▸ hfits, hentry⟩
  · rintro ⟨hfits, hbytes⟩
    unfold get
    rw [hbytes]
    cases p with
    | none => rfl
    | some mark => exact map_eq_ok_iff.2 ⟨mark, readEntry_eq_ok_iff.2 ⟨hfits mark rfl, rfl⟩, rfl⟩

theorem get_eq_some_iff :
    s.get id = .ok (some mark) ↔ ∃ bytes, s.entries[id]? = some bytes ∧
      readEntry id bytes = .ok mark := by
  rw [get_eq_ok_iff]
  constructor
  · rintro ⟨hfits, hbytes⟩
    exact ⟨_, hbytes, readEntry_eq_ok_iff.2 ⟨hfits mark rfl, rfl⟩⟩
  · rintro ⟨bytes, hbytes, hread⟩
    obtain ⟨hfits, rfl⟩ := readEntry_eq_ok_iff.1 hread
    exact ⟨fun _ hsame => Option.some.inj hsame ▸ hfits, hbytes⟩

/-- Entries with the same bytes are read in the same way. -/
theorem get_congr (h : s.entries[id]? = s'.entries[id]?) : s.get id = s'.get id := by
  unfold get
  rw [h]

/-! ## Section 2: Updates -/

/-- An update that is accepted finishes a finished invocation, or it can be
    written and is. -/
theorem prepare_eq_ok {o : Option (InvocationId × List UInt8)} (h : s.prepare id mark = .ok o) :
    (o = none ∧ mark = .finished ∧ s.get id = .ok (some .finished)) ∨
      (o = some (id, Wire.encode mark) ∧ Fits mark) := by
  obtain ⟨p, hget, h⟩ := bind_eq_ok_iff.1 h
  split at h
  · exact .inl ⟨(Except.ok.inj h).symm, rfl, hget⟩
  · exact nomatch h
  · obtain ⟨bytes, hbytes, h⟩ := demandSome_bind_eq_ok_iff.1 h
    obtain ⟨hfits, rfl⟩ := Wire.encode?_eq_some_iff.1 hbytes
    exact .inr ⟨(Except.ok.inj h).symm, hfits⟩

/-- An update is refused where the entry cannot be read, where it takes up a
    finished invocation again, or where it cannot be written. -/
theorem prepare_eq_error (h : s.prepare id mark = .error error) :
    s.get id = .error error ∨
      (mark ≠ .finished ∧ s.get id = .ok (some .finished) ∧
        error = .violation (.alreadyFinished id)) ∨
      (¬Fits mark ∧ error = .encoding id) := by
  rcases bind_eq_error_iff.1 h with hget | ⟨p, hget, h⟩
  · exact .inl hget
  · split at h
    · exact nomatch h
    · exact .inr (.inl ⟨nofun, hget, (Except.error.inj h).symm⟩)
    · rcases bind_eq_error_iff.1 h with hbytes | ⟨bytes, -, h⟩
      · obtain ⟨hnone, herror⟩ := demandSome_eq_error_iff.1 hbytes
        exact .inr (.inr ⟨Wire.encode?_eq_none_iff.1 hnone, herror.symm⟩)
      · exact nomatch h

/-! ## Section 3: What a block leaves -/

/-- Writes to other entries leave an entry as it is, and of writes to different
    entries each stays. -/
theorem entries_puts {writes : List (InvocationId × List UInt8)}
    (hdistinct : writes.Pairwise fun a b => a.1 ≠ b.1) (height : UInt32) (s : ProgressStore)
    (id : InvocationId) :
    ((∀ bytes, (id, bytes) ∉ writes) →
      (writes.foldl (put height) s).entries[id]? = s.entries[id]?) ∧
    ∀ bytes, (id, bytes) ∈ writes → (writes.foldl (put height) s).entries[id]? = some bytes := by
  induction writes generalizing s with
  | nil => exact ⟨fun _ => rfl, nofun⟩
  | cons write writes ih =>
    obtain ⟨hfirst, hdistinct⟩ := List.pairwise_cons.1 hdistinct
    obtain ⟨hother, hwritten⟩ := ih hdistinct (put height s write)
    rw [List.foldl_cons]
    constructor
    · intro hnone
      have hne : write.1 ≠ id := by
        rintro rfl
        exact hnone write.2 List.mem_cons_self
      rw [hother fun bytes hmem => hnone bytes (List.mem_cons_of_mem _ hmem), entries_put,
        if_neg hne]
    · intro bytes hmem
      rcases List.mem_cons.1 hmem with rfl | hlater
      · rw [hother fun bytes' hmem' => hfirst _ hmem' rfl, entries_put, if_pos rfl]
      · exact hwritten bytes hlater

/-- What a block writes for an invocation, if it writes anything. -/
theorem mem_writes {writes : List (InvocationId × List UInt8)} {write : InvocationId × List UInt8}
    (h : updates.toList.filterMapM (fun e => s.prepare e.1 e.2) = .ok writes) :
    write ∈ writes ↔ ∃ mark, updates[write.1]? = some mark ∧
      s.prepare write.1 mark = .ok (some write) := by
  obtain ⟨-, rfl⟩ := filterMapM_eq_ok_iff.1 h
  rw [List.mem_filterMap, Prod.exists]
  constructor
  · rintro ⟨id, mark, hmem, hwrite⟩
    obtain ⟨o, hprepare, rfl⟩ := Option.bind_eq_some_iff.1 hwrite
    rw [toOption_eq_some_iff] at hprepare
    -- an update is written under its own name
    rcases prepare_eq_ok hprepare with ⟨hnone, -, -⟩ | ⟨hsome, -⟩
    · exact nomatch hnone
    · obtain rfl := Option.some.inj hsome
      exact ⟨mark, Std.ExtTreeMap.mem_toList_iff_getElem?_eq_some.1 hmem, hprepare⟩
  · rintro ⟨mark, hmark, hprepare⟩
    refine ⟨write.1, mark, Std.ExtTreeMap.mem_toList_iff_getElem?_eq_some.2 hmark, ?_⟩
    rw [hprepare]
    rfl

theorem pairwise_writes {writes : List (InvocationId × List UInt8)}
    (h : updates.toList.filterMapM (fun e => s.prepare e.1 e.2) = .ok writes) :
    writes.Pairwise fun a b => a.1 ≠ b.1 := by
  have hmem : ∀ {e : InvocationId × Progress} {write : InvocationId × List UInt8},
      (s.prepare e.1 e.2).toOption.join = some write → write.1 = e.1 := by
    intro e write hwrite
    obtain ⟨o, hprepare, rfl⟩ := Option.bind_eq_some_iff.1 hwrite
    rcases prepare_eq_ok (toOption_eq_some_iff.1 hprepare) with ⟨hnone, -, -⟩ | ⟨hsome, -⟩
    · exact nomatch hnone
    · rw [Option.some.inj hsome]
  obtain ⟨-, rfl⟩ := filterMapM_eq_ok_iff.1 h
  refine List.Pairwise.filterMap _ ?_ updates.distinct_keys_toList
  intro e e' hne write hwrite write' hwrite'
  rw [hmem hwrite, hmem hwrite']
  rintro hsame
  exact hne (by rw [hsame]; exact Std.ReflCmp.compare_self)

section

variable (h : s.apply height updates = .ok s')
include h

/-- Every update of a block that is applied has been accepted. -/
theorem exists_prepare_of_apply (hmark : updates[id]? = some mark) :
    ∃ o, s.prepare id mark = .ok o := by
  obtain ⟨-, writes, hwrites, -⟩ := apply_eq_ok h
  obtain ⟨hall, -⟩ := filterMapM_eq_ok_iff.1 hwrites
  exact hall (id, mark) (Std.ExtTreeMap.mem_toList_iff_getElem?_eq_some.2 hmark)

/-- A block holds progress that can be written only. -/
theorem fits_of_apply (hmark : updates[id]? = some mark) : Fits mark := by
  obtain ⟨o, hprepare⟩ := exists_prepare_of_apply h hmark
  rcases prepare_eq_ok hprepare with ⟨-, rfl, -⟩ | ⟨-, hfits⟩
  · exact trivial
  · exact hfits

/-- **A block leaves the bytes of what it writes**, and else what there was. -/
theorem entries_apply (id : InvocationId) :
    s'.entries[id]? = (updates[id]?.map Wire.encode).or s.entries[id]? := by
  obtain ⟨-, writes, hwrites, rfl⟩ := apply_eq_ok h
  obtain ⟨hother, hwritten⟩ :=
    entries_puts (pairwise_writes hwrites) height { s with height } id
  cases hmark : updates[id]? with
  | none =>
    refine hother fun bytes hmem => ?_
    obtain ⟨mark, hmark', -⟩ := (mem_writes hwrites).1 hmem
    exact nomatch hmark.symm.trans hmark'
  | some mark =>
    obtain ⟨o, hprepare⟩ := exists_prepare_of_apply h hmark
    rcases prepare_eq_ok hprepare with ⟨rfl, rfl, hget⟩ | ⟨rfl, -⟩
    · -- nothing is written, but the entry has the same bytes already
      have hnone : ∀ bytes, (id, bytes) ∉ writes := by
        intro bytes hmem
        obtain ⟨mark', hmark', hprepare'⟩ := (mem_writes hwrites).1 hmem
        obtain rfl := Option.some.inj (hmark.symm.trans hmark')
        exact nomatch hprepare.symm.trans hprepare'
      rw [hother hnone]
      exact (get_eq_ok_iff.1 hget).2
    · exact hwritten _ ((mem_writes hwrites).2 ⟨mark, hmark, hprepare⟩)

/-- **What a block has written is read back.** -/
theorem get_apply (hget : s.get id = .ok p) : s'.get id = .ok (updates[id]?.or p) := by
  obtain ⟨hfits, hbytes⟩ := get_eq_ok_iff.1 hget
  rw [get_eq_ok_iff, entries_apply h, hbytes]
  cases hmark : updates[id]? with
  | none => exact ⟨hfits, rfl⟩
  | some mark =>
    refine ⟨?_, rfl⟩
    rintro mark' hsame
    obtain rfl := Option.some.inj hsame
    exact fits_of_apply h hmark

end

/-- **A block is refused** only for its height or for one of its updates. -/
theorem exists_of_apply_eq_error (h : s.apply height updates = .error error) :
    (height < s.height ∧ error = .heightBelowCurrent height s.height) ∨
      ∃ id mark, updates[id]? = some mark ∧ s.prepare id mark = .error error := by
  rcases bind_eq_error_iff.1 h with hheight | ⟨-, -, h⟩
  · left
    unfold demand at hheight
    split at hheight
    · exact nomatch hheight
    · rename_i hnot
      exact ⟨UInt32.not_le.1 fun hle => hnot (decide_eq_true hle),
        (Except.error.inj hheight).symm⟩
  · rcases bind_eq_error_iff.1 h with hwrites | ⟨writes, -, h⟩
    · obtain ⟨⟨id, mark⟩, hmem, hprepare⟩ := exists_of_filterMapM_eq_error hwrites
      exact .inr ⟨id, mark, Std.ExtTreeMap.mem_toList_iff_getElem?_eq_some.1 hmem, hprepare⟩
    · exact nomatch h

/-! ## Section 4: What the store lists -/

section

variable {listed : List (InvocationId × UInt32)}

theorem pending_eq_ok (h : s.pending = .ok listed) :
    listed = s.entries.toList.filterMap fun e =>
      (readEntry e.1 e.2).toOption.bind fun mark => mark.step?.map (e.1, ·) := by
  obtain ⟨hall, rfl⟩ := filterMapM_eq_ok_iff.1 h
  refine List.filterMap_congr fun e he => ?_
  obtain ⟨o, ho⟩ := hall e he
  obtain ⟨mark, hread, rfl⟩ := map_eq_ok_iff.1 ho
  rw [ho, hread]
  rfl

/-- Exactly the invocations in progress are listed, with their steps. -/
theorem mem_pending (h : s.pending = .ok listed) {step : UInt32} :
    (id, step) ∈ listed ↔
      ∃ rest unused, s.get id = .ok (some (.suspended step rest unused)) := by
  rw [pending_eq_ok h, List.mem_filterMap, Prod.exists]
  constructor
  · rintro ⟨id', bytes, hmem, hlisted⟩
    obtain ⟨mark, hread, hlisted⟩ := Option.bind_eq_some_iff.1 hlisted
    obtain ⟨step', hstep, hsame⟩ := Option.map_eq_some_iff.1 hlisted
    obtain ⟨rfl, rfl⟩ := Prod.mk.inj hsame
    obtain ⟨rest, unused, rfl⟩ := Progress.step?_eq_some_iff.1 hstep
    exact ⟨rest, unused, get_eq_some_iff.2 ⟨bytes,
      Std.ExtTreeMap.mem_toList_iff_getElem?_eq_some.1 hmem, toOption_eq_some_iff.1 hread⟩⟩
  · rintro ⟨rest, unused, hget⟩
    obtain ⟨bytes, hbytes, hread⟩ := get_eq_some_iff.1 hget
    refine ⟨id, bytes, Std.ExtTreeMap.mem_toList_iff_getElem?_eq_some.2 hbytes, ?_⟩
    rw [hread]
    rfl

theorem pairwise_pending (h : s.pending = .ok listed) :
    (listed.map (·.1)).Pairwise fun a b => compare a b = .lt := by
  rw [pending_eq_ok h, List.pairwise_map]
  refine List.Pairwise.filterMap _ ?_ s.entries.ordered_keys_toList
  intro e e' hlt listing hlisting listing' hlisting'
  -- an entry that is listed is listed under its own name
  obtain ⟨mark, -, hmark⟩ := Option.bind_eq_some_iff.1 hlisting
  obtain ⟨step, -, rfl⟩ := Option.map_eq_some_iff.1 hmark
  obtain ⟨mark', -, hmark'⟩ := Option.bind_eq_some_iff.1 hlisting'
  obtain ⟨step', -, rfl⟩ := Option.map_eq_some_iff.1 hmark'
  exact hlt

end

/-- **A store of which every entry can be read** lists exactly the invocations in
    progress, each with its step, in the order of their names. -/
theorem exists_pending {shown : InvocationId → Option Progress}
    (h : ∀ id, s.get id = .ok (shown id)) : ∃ listed, s.pending = .ok listed ∧
      (∀ id step, (id, step) ∈ listed ↔
        ∃ rest unused, shown id = some (.suspended step rest unused)) ∧
      (listed.map (·.1)).Pairwise fun a b => compare a b = .lt := by
  have hread : ∀ e ∈ s.entries.toList, ∃ o : Option (InvocationId × UInt32),
      (readEntry e.1 e.2).map (fun mark => mark.step?.map (e.1, ·)) = .ok o := by
    rintro ⟨id, bytes⟩ hmem
    obtain ⟨hfits, hbytes⟩ := get_eq_ok_iff.1 (h id)
    rw [Std.ExtTreeMap.mem_toList_iff_getElem?_eq_some.1 hmem] at hbytes
    obtain ⟨mark, hmark, rfl⟩ := Option.map_eq_some_iff.1 hbytes.symm
    exact ⟨_, map_eq_ok_iff.2 ⟨mark, readEntry_eq_ok_iff.2 ⟨hfits mark hmark, rfl⟩, rfl⟩⟩
  have hlisted : s.pending = .ok _ := filterMapM_eq_ok_iff.2 ⟨hread, rfl⟩
  refine ⟨_, hlisted, fun id step => ?_, pairwise_pending hlisted⟩
  rw [mem_pending hlisted, h]
  simp only [Except.ok.injEq]

end MeteredLedger.ProgressStore

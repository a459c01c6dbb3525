import MeteredLedger.Proofs.Merging

/-! # Merging in either order

    The later of two deltas stands only under keys that both have in the tables of
    data, records, progress and results. Balances and volumes are added up, and
    sums do not depend on the order. So deltas without such a key merge to the
    same delta in either order, or the same amount is reported to be out of range.

    * `SortedMap.tryMerge_comm`, `SortedMap.mergeWith_comm`: tables can be swapped
      if the values under their common keys can.
    * `VolumeChange.merge_comm`: changes of a volume, in all their forms.
    * `Delta.Compatible`: deltas with no entry of which the later would stand.
    * `merge_in_either_order`: compatible deltas can be swapped. -/

namespace MeteredLedger

/-! ## Section 1: Tables -/

namespace SortedMap

variable {K V ε : Type} [Ord K] [Std.TransOrd K] [Std.LawfulEqOrd K] {a b : SortedMap K V}

theorem tryMerge_comm {f : K → V → V → Except ε V} (hf : ∀ k x y, f k x y = f k y x)
    (a b : SortedMap K V) : tryMerge f a b = tryMerge f b a := by
  apply tryMerge_congr
  intro k
  cases a[k]? with
  | none =>
    rw [tryCombine_none]
    rfl
  | some x =>
    cases b[k]? with
    | none => rfl
    | some y => rw [tryCombine, tryCombine, hf]

theorem mergeWith_comm {f : V → V → V}
    (hf : ∀ (k : K) x y, a[k]? = some x → b[k]? = some y → f x y = f y x) :
    mergeWith f a b = mergeWith f b a := by
  apply Std.ExtTreeMap.ext_getElem?
  intro k
  rw [getElem?_mergeWith, getElem?_mergeWith]
  cases ha : a[k]? with
  | none => cases b[k]? <;> rfl
  | some x =>
    cases hb : b[k]? with
    | none => rfl
    | some y => rw [combine, combine, hf k x y ha hb]

theorem union_comm_of_apart (h : a.Apart b) : a ∪ b = b ∪ a := by
  have hswapped := union_right_comm ∅ h
  rwa [empty_union, empty_union] at hswapped

end SortedMap

/-! ## Section 2: Amounts, portfolios and volumes -/

theorem Amount.add?_comm (a b : Amount) : add? a b = add? b a := by
  rw [add?, add?, Int.add_comm]

theorem Portfolio.addExact_comm (asset : Asset) (a b : Amount) :
    addExact asset a b = addExact asset b a := by
  rw [addExact, addExact, Amount.add?_comm]

theorem Portfolio.merge_comm (p q : Portfolio) : p.merge q = q.merge p := by
  have htables := SortedMap.tryMerge_comm (fun id => addExact_comm (.issued id)) p.assets q.assets
  rw [merge, merge, addExact_comm, htables]

/-- **Changes of a volume** come to the same in either order. -/
theorem VolumeChange.merge_comm (u v : VolumeChange) : u.merge v = v.merge u := by
  by_cases hsame : u.direction = v.direction ∧ u.direction ≠ none
  · cases u <;> cases v <;> simp [direction] at hsame
    · rw [merge, merge, Amount.add?_comm, Bool.and_comm]
    · rw [merge, merge, Amount.add?_comm]
  · have hmixed : u.direction = v.direction → u.direction = none := by grind
    have hmixed' : v.direction = u.direction → v.direction = none := by grind
    rw [merge_of_mixed hmixed, merge_of_mixed hmixed', Int.add_comm, Bool.and_comm]

/-! ## Section 3: Deltas -/

namespace Delta

/-- The deltas have no entry in common of which the later would stand. Their
    balances and volumes may have any entries in common. -/
structure Compatible (a b : Delta) : Prop where
  data : ∀ address key, a.dataEntry address key = none ∨ b.dataEntry address key = none
  records : a.records.Apart b.records
  rewritten : a.rewritten.Apart b.rewritten
  progress : a.progress.Apart b.progress
  results : a.results.Apart b.results

theorem dataEntry_entry (holder address : Address) (key key' : String) (value : Script.DataValue) :
    (entry holder key value).dataEntry address key' =
      if address = holder ∧ key' = key then some value else none := by
  by_cases haddress : holder = address
  · subst haddress
    simp [dataEntry, entry, Std.ExtTreeMap.getElem?_insert, @eq_comm String]
  · simp [dataEntry, entry, haddress, Ne.symm haddress]

theorem mergePortfolio_comm (address : Address) (p q : Portfolio) :
    mergePortfolio address p q = mergePortfolio address q p := by
  rw [mergePortfolio, mergePortfolio, Portfolio.merge_comm]

theorem mergeVolume_comm (asset : AssetId) (u v : VolumeChange) :
    mergeVolume asset u v = mergeVolume asset v u := by
  rw [mergeVolume, mergeVolume, VolumeChange.merge_comm]

/-- An account may have data in both deltas, under different keys. -/
theorem Compatible.data_comm {a b : Delta} (h : a.Compatible b) :
    SortedMap.mergeWith (· ∪ ·) a.data b.data = SortedMap.mergeWith (· ∪ ·) b.data a.data := by
  apply SortedMap.mergeWith_comm
  intro address entries entries' ha hb
  apply SortedMap.union_comm_of_apart
  intro key
  have hkey := h.data address key
  rwa [dataEntry, dataEntry, ha, hb] at hkey

end Delta

/-- **Merging in either order**: deltas that have no common entry of which the
    later would stand merge to the same delta, or the same amount of the same
    account or asset is out of range. -/
theorem merge_in_either_order {a b : Delta} (h : a.Compatible b) : a.merge b = b.merge a := by
  have hbalances := SortedMap.tryMerge_comm Delta.mergePortfolio_comm a.portfolios b.portfolios
  have hvolumes := SortedMap.tryMerge_comm Delta.mergeVolume_comm a.volumes b.volumes
  rw [Delta.merge, Delta.merge, hbalances, hvolumes, h.data_comm,
    SortedMap.union_comm_of_apart h.records, SortedMap.union_comm_of_apart h.rewritten,
    SortedMap.union_comm_of_apart h.progress, SortedMap.union_comm_of_apart h.results,
    Nat.add_comm a.scriptsRun.toNat, Nat.add_comm a.complexity.toNat]

/-- Two deltas write different data of one account, and both change its balance
    and the volume of one asset, which the one issues and the other destroys. -/
theorem merge_in_either_order_of_overlap :
    let holder : Address := .fill 1
    let asset : AssetId := .fill 9
    let a := { Delta.entry holder "x" (.int 1) with
      portfolios := (Delta.balance holder .native 7).portfolios
      volumes := (Delta.volume asset (.reissue 5 false)).volumes }
    let b := { Delta.entry holder "y" (.int 2) with
      portfolios := (Delta.balance holder .native (-3)).portfolios
      volumes := (Delta.volume asset (.burn 8)).volumes }
    a.Compatible b ∧ ∃ d, a.merge b = .ok d ∧ b.merge a = .ok d ∧
      d.balanceChange holder .native = 4 ∧ d.volumes[asset]? = some (.net (-3) false) := by
  intro holder asset a b
  have hcompatible : a.Compatible b := by
    refine ⟨?_, fun _ => .inl rfl, fun _ => .inl rfl, fun _ => .inl rfl, fun _ => .inl rfl⟩
    intro address key
    have ha : a.dataEntry address key = _ := Delta.dataEntry_entry holder address "x" key (.int 1)
    have hb : b.dataEntry address key = _ := Delta.dataEntry_entry holder address "y" key (.int 2)
    rw [ha, hb]
    by_cases hkey : key = "x"
    · right
      simp [hkey]
    · left
      simp [hkey]
  have hrun : (a.merge b).toOption.map (fun d =>
      (d.balanceChange holder .native, d.volumes[asset]?)) = some (4, some (.net (-3) false)) := by
    decide +kernel
  obtain ⟨d, hmerge, hholds⟩ := Option.map_eq_some_iff.1 hrun
  rw [toOption_eq_some_iff] at hmerge
  obtain ⟨hbalance, hvolume⟩ := Prod.mk.inj hholds
  exact ⟨hcompatible, d, hmerge, merge_in_either_order hcompatible ▸ hmerge, hbalance, hvolume⟩

end MeteredLedger

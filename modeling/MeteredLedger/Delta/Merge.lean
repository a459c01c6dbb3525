import MeteredLedger.Delta.Basic
import MeteredLedger.SortedMap.Merge

/-!
# What a merged delta holds

Where a merge succeeds, every amount in it is the exact sum of the two amounts merged. Where it is
refused, the amount that it names has no exact sum.

* `Portfolio.toInt_get_of_merge`: the amount of an asset in a merged portfolio.
* `VolumeChange.netChange_of_merge`: the volume that a merged change adds.
* `Delta.toInt_balanceChange_of_merge`: the change of a balance in a merged delta.
* `Delta.add?_balanceChange_of_merge_eq_error`, `Delta.volumes_of_merge_eq_error`: why deltas do not
  merge.
-/

namespace MeteredLedger

theorem Amount.add?_eq_some_iff {a b c : Amount} :
    Amount.add? a b = some c ↔ c.toInt = a.toInt + b.toInt := Amount.ofInt?_eq_some_iff

theorem Amount.add?_eq_none_iff {a b : Amount} :
    Amount.add? a b = none ↔
      ¬(Amount.least ≤ a.toInt + b.toInt ∧ a.toInt + b.toInt ≤ Amount.greatest) :=
  Amount.ofInt?_eq_none_iff

namespace Portfolio

theorem get_single (asset asset' : Asset) (amount : Amount) :
    (single asset amount).get asset' = if asset' = asset then amount else 0 := by
  cases asset with
  | native => cases asset' <;> simp [single, get]
  | issued id =>
    cases asset' with
    | native => simp [single, get]
    | issued id' =>
      by_cases hid : id = id'
      · simp [single, get, hid]
      · simp [single, get, Std.ExtTreeMap.getD_insert, hid, Ne.symm hid]

theorem addExact_eq_ok_iff {asset : Asset} {a b c : Amount} :
    addExact asset a b = .ok c ↔ c.toInt = a.toInt + b.toInt := by
  rw [addExact, demandSome_eq_ok_iff, Amount.add?_eq_some_iff]

theorem merge_eq_ok_iff {p q r : Portfolio} :
    p.merge q = .ok r ↔
      r.native.toInt = p.native.toInt + q.native.toInt ∧
        SortedMap.tryMerge (fun id => addExact (.issued id)) p.assets q.assets = .ok r.assets := by
  unfold merge
  cases hn : addExact .native p.native q.native with
  | error e =>
    have : ¬r.native.toInt = p.native.toInt + q.native.toInt := fun h => by
      exact nomatch hn.symm.trans (addExact_eq_ok_iff.2 h)
    simp [bind, Except.bind, this]
  | ok n =>
    rw [addExact_eq_ok_iff] at hn
    cases ha : SortedMap.tryMerge (fun id => addExact (.issued id)) p.assets q.assets with
    | error e => simp [bind, Except.bind]
    | ok assets =>
      simp only [bind, Except.bind, pure, Except.pure, Except.ok.injEq]
      obtain ⟨native, held⟩ := r
      simp only [mk.injEq, ← hn, Int64.toInt_inj, eq_comm]

theorem toInt_get_of_merge {p q r : Portfolio} (h : p.merge q = .ok r) (asset : Asset) :
    (r.get asset).toInt = (p.get asset).toInt + (q.get asset).toInt := by
  obtain ⟨hnative, hassets⟩ := merge_eq_ok_iff.1 h
  cases asset with
  | native => exact hnative
  | issued id =>
    simp only [get, Std.ExtTreeMap.getD_eq_getD_getElem?]
    exact SortedMap.sum_of_tryMerge (g := fun o => (o.getD 0).toInt) hassets id rfl
      fun _ _ _ hsum => addExact_eq_ok_iff.1 hsum

theorem addExact_eq_error_iff {asset asset' : Asset} {a b : Amount} :
    addExact asset a b = .error asset' ↔ Amount.add? a b = none ∧ asset = asset' :=
  demandSome_eq_error_iff

/-- The asset that a refused merge names has no sum. -/
theorem add?_get_of_merge_eq_error {p q : Portfolio} {asset : Asset}
    (h : p.merge q = .error asset) : Amount.add? (p.get asset) (q.get asset) = none := by
  unfold merge at h
  cases hn : addExact .native p.native q.native with
  | error e =>
    rw [hn] at h
    obtain ⟨hsum, rfl⟩ := addExact_eq_error_iff.1 hn
    obtain rfl := Except.error.inj h
    exact hsum
  | ok n =>
    cases ha : SortedMap.tryMerge (fun id => addExact (.issued id)) p.assets q.assets with
    | ok assets => simp [hn, ha, bind, Except.bind, pure, Except.pure] at h
    | error e =>
      obtain rfl : e = asset := by simpa [hn, ha, bind, Except.bind] using h
      obtain ⟨id, a, b, hp, hq, hsum⟩ := SortedMap.exists_of_tryMerge_eq_error ha
      obtain ⟨hnone, rfl⟩ := addExact_eq_error_iff.1 hsum
      simpa [get, Std.ExtTreeMap.getD_eq_getD_getElem?, hp, hq] using hnone

end Portfolio

theorem VolumeChange.netChange_of_merge {u v w : VolumeChange} (h : u.merge v = some w) :
    w.netChange = u.netChange + v.netChange := by
  cases u <;> cases v <;>
    (simp only [merge, Option.map_eq_some_iff, Amount.add?_eq_some_iff,
      Amount.ofInt?_eq_some_iff] at h
     obtain ⟨s, hs, rfl⟩ := h
     simp only [netChange] at hs ⊢
     omega)

theorem VolumeChange.reissuable?_of_merge {u v w : VolumeChange} (h : u.merge v = some w) :
    w.reissuable? = Option.merge (· && ·) u.reissuable? v.reissuable? := by
  cases u <;> cases v <;>
    (simp only [merge, Option.map_eq_some_iff] at h
     obtain ⟨s, -, rfl⟩ := h
     simp [reissuable?])

/-- Changes of a volume whose sum is an amount, and so is its negative, are merged. -/
theorem VolumeChange.netChange_of_merge_eq_none {u v : VolumeChange} (h : u.merge v = none) :
    u.netChange + v.netChange < -Amount.greatest ∨ Amount.greatest < u.netChange + v.netChange := by
  cases u <;> cases v <;>
    (simp only [merge, Option.map_eq_none_iff, Amount.add?_eq_none_iff,
      Amount.ofInt?_eq_none_iff] at h
     simp only [netChange, Amount.least, Amount.greatest] at h ⊢
     omega)

namespace Delta

theorem balanceChange_balance (payer address : Address) (asset asset' : Asset) (amount : Amount) :
    (balance payer asset amount).balanceChange address asset' =
      if address = payer ∧ asset' = asset then amount else 0 := by
  by_cases haddress : payer = address
  · subst haddress
    simp [balanceChange, balance, Portfolio.get_single]
  · simp [balanceChange, balance, haddress, Ne.symm haddress]

theorem mergePortfolio_eq_ok_iff {address : Address} {p q r : Portfolio} :
    mergePortfolio address p q = .ok r ↔ p.merge q = .ok r := by
  unfold mergePortfolio
  cases p.merge q with
  | error e => exact ⟨nofun, nofun⟩
  | ok s =>
    exact ⟨fun h => congrArg _ (Except.ok.inj h), fun h => congrArg _ (Except.ok.inj h)⟩

theorem mergeVolume_eq_ok_iff {asset : AssetId} {u v w : VolumeChange} :
    mergeVolume asset u v = .ok w ↔ u.merge v = some w := demandSome_eq_ok_iff

theorem merge_eq_ok_iff {a b d : Delta} :
    a.merge b = .ok d ↔
      SortedMap.tryMerge mergePortfolio a.portfolios b.portfolios = .ok d.portfolios ∧
        d.data = SortedMap.mergeWith (· ∪ ·) a.data b.data ∧
        SortedMap.tryMerge mergeVolume a.volumes b.volumes = .ok d.volumes ∧
        d.records = a.records ∪ b.records ∧
        d.rewritten = a.rewritten ∪ b.rewritten ∧
        d.progress = a.progress ∪ b.progress ∧
        d.results = a.results ∪ b.results ∧
        d.scriptsRun = saturate32 (a.scriptsRun.toNat + b.scriptsRun.toNat) ∧
        d.complexity = saturate64 (a.complexity.toNat + b.complexity.toNat) := by
  unfold merge
  cases SortedMap.tryMerge mergePortfolio a.portfolios b.portfolios with
  | error e => simp [bind, Except.bind]
  | ok portfolios =>
    cases SortedMap.tryMerge mergeVolume a.volumes b.volumes with
    | error e => simp [bind, Except.bind]
    | ok volumes =>
      obtain ⟨_, _, _, _, _, _, _, _, _⟩ := d
      simp only [bind, Except.bind, pure, Except.pure, Except.ok.injEq, mk.injEq, eq_comm]

theorem toInt_balanceChange_of_merge {a b d : Delta} (h : a.merge b = .ok d) (address : Address)
    (asset : Asset) :
    (d.balanceChange address asset).toInt =
      (a.balanceChange address asset).toInt + (b.balanceChange address asset).toInt :=
  SortedMap.sum_of_tryMerge (g := fun o => ((o.map fun p : Portfolio => p.get asset).getD 0).toInt)
    (merge_eq_ok_iff.1 h).1 address rfl
    fun _ _ _ hmerge => Portfolio.toInt_get_of_merge (mergePortfolio_eq_ok_iff.1 hmerge) asset

/-- Of two data entries under one key the later stands. -/
theorem dataEntry_of_merge {a b d : Delta} (h : a.merge b = .ok d) (address : Address)
    (key : String) :
    d.dataEntry address key = (b.dataEntry address key).or (a.dataEntry address key) := by
  obtain ⟨-, hdata, -⟩ := merge_eq_ok_iff.1 h
  unfold dataEntry
  rw [hdata, SortedMap.getElem?_mergeWith]
  cases a.data[address]? <;> cases b.data[address]? <;>
    simp [SortedMap.combine, Std.ExtTreeMap.getElem?_union]

theorem reissuable?_of_merge {a b d : Delta} (h : a.merge b = .ok d) (asset : AssetId) :
    d.reissuable? asset = Option.merge (· && ·) (a.reissuable? asset) (b.reissuable? asset) := by
  obtain ⟨-, -, hvolumes, -⟩ := merge_eq_ok_iff.1 h
  have hcombine := SortedMap.tryCombine_of_tryMerge hvolumes asset
  unfold reissuable?
  cases ha : a.volumes[asset]? with
  | none =>
    rw [ha] at hcombine
    simp [← Except.ok.inj hcombine]
  | some u =>
    cases hb : b.volumes[asset]? with
    | none =>
      rw [ha, hb] at hcombine
      simp [← Except.ok.inj hcombine]
    | some v =>
      rw [ha, hb] at hcombine
      obtain ⟨w, hmerge, hw⟩ := SortedMap.tryCombine_eq_ok_iff.1 hcombine
      have hflags := VolumeChange.reissuable?_of_merge (mergeVolume_eq_ok_iff.1 hmerge)
      simpa [hw] using hflags

/-! ## Refused merges -/

theorem mergePortfolio_eq_error_iff {address : Address} {p q : Portfolio} {o : Overflow} :
    mergePortfolio address p q = .error o ↔
      ∃ asset, p.merge q = .error asset ∧ .balance address asset = o :=
  mapError_eq_error_iff

theorem mergeVolume_eq_error_iff {asset : AssetId} {u v : VolumeChange} {o : Overflow} :
    mergeVolume asset u v = .error o ↔ u.merge v = none ∧ .volume asset = o :=
  demandSome_eq_error_iff

/-- Deltas do not merge because of a balance or because of a volume. -/
theorem merge_eq_error {a b : Delta} {o : Overflow} (h : a.merge b = .error o) :
    SortedMap.tryMerge mergePortfolio a.portfolios b.portfolios = .error o ∨
      SortedMap.tryMerge mergeVolume a.volumes b.volumes = .error o := by
  unfold merge at h
  cases hp : SortedMap.tryMerge mergePortfolio a.portfolios b.portfolios with
  | error e =>
    rw [hp] at h
    exact .inl (congrArg _ (Except.error.inj h))
  | ok portfolios =>
    cases hv : SortedMap.tryMerge mergeVolume a.volumes b.volumes with
    | error e =>
      rw [hp, hv] at h
      exact .inr (congrArg _ (Except.error.inj h))
    | ok volumes =>
      rw [hp, hv] at h
      exact nomatch h

theorem add?_balanceChange_of_merge_eq_error {a b : Delta} {address : Address} {asset : Asset}
    (h : a.merge b = .error (.balance address asset)) :
    Amount.add? (a.balanceChange address asset) (b.balanceChange address asset) = none := by
  rcases merge_eq_error h with h | h
  · obtain ⟨address', p, q, hp, hq, hmerge⟩ := SortedMap.exists_of_tryMerge_eq_error h
    obtain ⟨asset', hasset, he⟩ := mergePortfolio_eq_error_iff.1 hmerge
    obtain ⟨rfl, rfl⟩ := Overflow.balance.inj he
    simpa [balanceChange, hp, hq] using Portfolio.add?_get_of_merge_eq_error hasset
  · obtain ⟨asset', u, v, -, -, hmerge⟩ := SortedMap.exists_of_tryMerge_eq_error h
    exact nomatch (mergeVolume_eq_error_iff.1 hmerge).2

theorem volumes_of_merge_eq_error {a b : Delta} {asset : AssetId}
    (h : a.merge b = .error (.volume asset)) :
    ∃ u v, a.volumes[asset]? = some u ∧ b.volumes[asset]? = some v ∧ u.merge v = none := by
  rcases merge_eq_error h with h | h
  · obtain ⟨address, p, q, -, -, hmerge⟩ := SortedMap.exists_of_tryMerge_eq_error h
    obtain ⟨asset', -, he⟩ := mergePortfolio_eq_error_iff.1 hmerge
    exact nomatch he
  · obtain ⟨asset', u, v, hu, hv, hmerge⟩ := SortedMap.exists_of_tryMerge_eq_error h
    obtain ⟨hnone, he⟩ := mergeVolume_eq_error_iff.1 hmerge
    obtain rfl := Overflow.volume.inj he
    exact ⟨u, v, hu, hv, hnone⟩

end Delta

end MeteredLedger

import MeteredLedger.Proofs.Merging

/-! # Merging entry by entry

    Deltas are merged table by table and entry by entry, and the first sum that is
    out of range ends it. The outcome does not depend on the way: a merge is
    refused if any sum is out of range, what it reports is the first of them in
    the order of the keys, and otherwise every entry of the result is what becomes
    of the entries of the two deltas under its own key.

    * `SortedMap.tryMerge_eq_error_iff_refused`: the key that a merge of tables is
      refused for.
    * `Portfolio.merge_eq_error_iff`, `VolumeChange.merge_eq_none_iff`: why
      portfolios and changes of a volume are not merged.
    * `Delta.MergesTo`: what every entry of a merged delta is.
    * `merge_is_pointwise`: which deltas merge, what they merge to, and what is
      reported of the others. -/

namespace MeteredLedger

/-! ## Section 1: Tables -/

namespace SortedMap

variable {K V ε : Type} [Ord K] [Std.TransOrd K]

/-- Two values of the key are refused with this error. -/
def Refused (f : K → V → V → Except ε V) (a b : SortedMap K V) (k : K) (e : ε) : Prop :=
  ∃ x y, a[k]? = some x ∧ b[k]? = some y ∧ f k x y = .error e

/-- The table `r` has the entries of `b` and, under all other keys, those of `a`. -/
def Overlays (a b r : SortedMap K V) : Prop := ∀ k : K, r[k]? = b[k]?.or a[k]?

variable {f : K → V → V → Except ε V} {a b : SortedMap K V} {e : ε}

theorem tryCombine_eq_error_iff {f : V → V → Except ε V} {o o' : Option V} :
    tryCombine f o o' = .error e ↔ ∃ x y, o = some x ∧ o' = some y ∧ f x y = .error e := by
  cases o with
  | none => simp [tryCombine]
  | some x =>
    cases o' with
    | none => simp [tryCombine]
    | some y => cases hf : f x y <;> simp [tryCombine, Except.map, hf]

theorem exists_tryCombine_eq_ok_iff {k : K} :
    (∃ o, tryCombine (f k) a[k]? b[k]? = .ok o) ↔ ∀ e, ¬Refused f a b k e := by
  cases h : tryCombine (f k) a[k]? b[k]? with
  | ok o =>
    refine iff_of_true ⟨o, rfl⟩ fun e hrefused => ?_
    rw [tryCombine_eq_error_iff.2 hrefused] at h
    exact nomatch h
  | error e =>
    refine iff_of_false nofun fun hnone => ?_
    exact hnone e (tryCombine_eq_error_iff.1 h)

theorem overlays_union [Std.LawfulEqOrd K] (a b : SortedMap K V) : Overlays a b (a ∪ b) :=
  fun _ => Std.ExtTreeMap.getElem?_union

variable [Std.LawfulEqOrd K]

/-- A merge is refused for the least key of which two values are refused. -/
theorem tryMerge_eq_error_iff_refused :
    tryMerge f a b = .error e ↔
      ∃ k, Refused f a b k e ∧ ∀ j, compare j k = .lt → ∀ e', ¬Refused f a b j e' := by
  rw [tryMerge_eq_error_iff]
  refine exists_congr fun k => and_congr tryCombine_eq_error_iff ?_
  exact forall_congr' fun j => imp_congr_right fun _ => exists_tryCombine_eq_ok_iff

theorem exists_tryMerge_eq_error_iff :
    (∃ e, tryMerge f a b = .error e) ↔ ∃ k e, Refused f a b k e := by
  constructor
  · rintro ⟨e, h⟩
    obtain ⟨k, hrefused, -⟩ := tryMerge_eq_error_iff_refused.1 h
    exact ⟨k, e, hrefused⟩
  · rintro ⟨k, e, hrefused⟩
    cases h : tryMerge f a b with
    | error e' => exact ⟨e', rfl⟩
    | ok r =>
      exact absurd hrefused (exists_tryCombine_eq_ok_iff.1 ⟨_, tryCombine_of_tryMerge h k⟩ e)

end SortedMap

/-! ## Section 2: Portfolios -/

/-- The integer is an amount. -/
def Amount.InRange (x : Int) : Prop := least ≤ x ∧ x ≤ greatest

/-- The order in which the assets of a portfolio come: the native token first, then
    the issued assets in key order. -/
def Asset.Before : Asset → Asset → Prop
  | .native, .issued _ => True
  | .issued id, .issued id' => compare id id' = .lt
  | _, .native => False

namespace Portfolio

/-- The amount of an asset, if the portfolio has an entry for it. It always has one
    for the native token. -/
def amount? (p : Portfolio) : Asset → Option Amount
  | .native => some p.native
  | .issued id => p.assets[id]?

/-- Both portfolios have an entry for the asset, and the sum is out of range. -/
def Overflows (p q : Portfolio) (asset : Asset) : Prop :=
  ∃ x y, p.amount? asset = some x ∧ q.amount? asset = some y ∧
    ¬Amount.InRange (x.toInt + y.toInt)

variable {p q r : Portfolio} {asset : Asset} {id : AssetId}

theorem get_of_amount? {x : Amount} (h : p.amount? asset = some x) : p.get asset = x := by
  cases asset with
  | native => exact Option.some.inj h
  | issued id =>
    change p.assets[id]? = some x at h
    rw [get, Std.ExtTreeMap.getD_eq_getD_getElem?, h]
    rfl

theorem overflows_native_iff :
    p.Overflows q .native ↔ addExact .native p.native q.native = .error .native := by
  rw [addExact_eq_error_iff, Amount.add?_eq_none_iff]
  simp [Overflows, amount?, Amount.InRange]

theorem refused_iff {asset : Asset} :
    SortedMap.Refused (fun id => addExact (.issued id)) p.assets q.assets id asset ↔
      p.Overflows q (.issued id) ∧ asset = .issued id := by
  simp only [SortedMap.Refused, Overflows, amount?, Amount.InRange, addExact_eq_error_iff,
    Amount.add?_eq_none_iff]
  grind

/-- A portfolio that has been merged holds every sum. -/
theorem not_overflows_of_merge (h : p.merge q = .ok r) (asset : Asset) : ¬p.Overflows q asset := by
  rintro ⟨x, y, hx, hy, hrange⟩
  have hsum := toInt_get_of_merge h asset
  rw [get_of_amount? hx, get_of_amount? hy] at hsum
  rw [← hsum] at hrange
  exact hrange ⟨Amount.least_le_toInt _, Amount.toInt_le_greatest _⟩

theorem addExact_native_eq_ok (h : ¬p.Overflows q .native) :
    ∃ n, addExact .native p.native q.native = .ok n := by
  cases hsum : addExact .native p.native q.native with
  | ok n => exact ⟨n, rfl⟩
  | error asset =>
    obtain ⟨-, rfl⟩ := addExact_eq_error_iff.1 hsum
    exact absurd (overflows_native_iff.2 hsum) h

theorem tryMerge_assets_eq_error_iff :
    SortedMap.tryMerge (fun id => addExact (.issued id)) p.assets q.assets = .error asset ↔
      ∃ id, asset = .issued id ∧ p.Overflows q (.issued id) ∧
        ∀ id', compare id' id = .lt → ¬p.Overflows q (.issued id') := by
  rw [SortedMap.tryMerge_eq_error_iff_refused]
  simp only [refused_iff]
  constructor
  · rintro ⟨id, ⟨hoverflows, rfl⟩, hbefore⟩
    exact ⟨id, rfl, hoverflows, fun id' hlt hover => hbefore id' hlt _ ⟨hover, rfl⟩⟩
  · rintro ⟨id, rfl, hoverflows, hbefore⟩
    exact ⟨id, ⟨hoverflows, rfl⟩, fun id' hlt _ hover => hbefore id' hlt hover.1⟩

/-- **Portfolios are not merged** if a sum is out of range, and the first such asset
    is named. -/
theorem merge_eq_error_iff :
    p.merge q = .error asset ↔
      p.Overflows q asset ∧ ∀ earlier, earlier.Before asset → ¬p.Overflows q earlier := by
  unfold merge
  by_cases hnative : p.Overflows q .native
  · rw [overflows_native_iff.1 hnative]
    constructor
    · intro h
      obtain rfl := Except.error.inj h
      refine ⟨hnative, fun earlier hbefore => ?_⟩
      cases earlier <;> exact hbefore.elim
    · rintro ⟨-, hfirst⟩
      cases asset with
      | native => rfl
      | issued id => exact absurd hnative (hfirst .native trivial)
  · -- the native token has a sum, so it is up to the issued assets
    obtain ⟨n, hn⟩ := addExact_native_eq_ok hnative
    have hassets : ∀ assets : SortedMap AssetId Amount,
        (pure ⟨n, assets⟩ : Except Asset Portfolio) ≠ .error asset := nofun
    rw [hn]
    show (SortedMap.tryMerge (fun id => addExact (.issued id)) p.assets q.assets >>=
      fun assets => pure (mk n assets)) = .error asset ↔ _
    rw [bind_eq_error_iff, tryMerge_assets_eq_error_iff]
    simp only [hassets, and_false, exists_false, or_false]
    constructor
    · rintro ⟨id, rfl, hoverflows, hfirst⟩
      refine ⟨hoverflows, fun earlier hbefore => ?_⟩
      cases earlier with
      | native => exact hnative
      | issued id' => exact hfirst id' hbefore
    · rintro ⟨hoverflows, hfirst⟩
      cases asset with
      | native => exact absurd hoverflows hnative
      | issued id => exact ⟨id, rfl, hoverflows, fun id' hlt => hfirst (.issued id') hlt⟩

theorem exists_merge_eq_error_iff :
    (∃ asset, p.merge q = .error asset) ↔ ∃ asset, p.Overflows q asset := by
  constructor
  · rintro ⟨asset, h⟩
    exact ⟨asset, (merge_eq_error_iff.1 h).1⟩
  · rintro ⟨asset, hoverflows⟩
    cases h : p.merge q with
    | error asset' => exact ⟨asset', rfl⟩
    | ok r => exact absurd hoverflows (not_overflows_of_merge h asset)

theorem amount?_ne_none_of_merge (h : p.merge q = .ok r) (asset : Asset) :
    r.amount? asset ≠ none ↔ p.amount? asset ≠ none ∨ q.amount? asset ≠ none := by
  cases asset with
  | native => simp [amount?]
  | issued id => exact SortedMap.ne_none_iff_of_tryMerge (merge_eq_ok_iff.1 h).2

end Portfolio

/-! ## Section 3: Changes of a volume -/

namespace VolumeChange

/-- The amount that a change is given by. -/
def amount : VolumeChange → Amount
  | reissue amount _ | burn amount | net amount _ => amount

/-- What the amount of two changes is together: amounts add up if both are reissues
    or both are burns, and otherwise the net changes do. -/
def sum : VolumeChange → VolumeChange → Int
  | reissue x _, reissue y _ | burn x, burn y => x.toInt + y.toInt
  | u, v => u.netChange + v.netChange

/-- Two changes of a volume come to `w`: a reissue or a burn if both are, and
    otherwise a net change. It allows another reissue if every reissue in them
    does. -/
structure SumsTo (u v w : VolumeChange) : Prop where
  amount : w.amount.toInt = u.sum v
  direction : w.direction = if u.direction = v.direction then u.direction else none
  reissuable : w.reissuable? = Option.merge (· && ·) u.reissuable? v.reissuable?

variable {u v w : VolumeChange}

theorem merge_eq_none_iff : u.merge v = none ↔ ¬Amount.InRange (u.sum v) := by
  cases u <;> cases v <;>
    simp only [merge, sum, Amount.InRange, Option.map_eq_none_iff, Amount.add?_eq_none_iff,
      Amount.ofInt?_eq_none_iff]

theorem sumsTo_of_merge (h : u.merge v = some w) : u.SumsTo v w where
  amount := by
    cases u <;> cases v <;>
      (simp only [merge, Option.map_eq_some_iff, Amount.add?_eq_some_iff,
        Amount.ofInt?_eq_some_iff] at h
       obtain ⟨s, hs, rfl⟩ := h
       exact hs)
  direction := direction_of_merge h
  reissuable := reissuable?_of_merge h

end VolumeChange

/-! ## Section 4: Deltas -/

namespace Delta

/-- The change of a balance, if the delta has an entry for it. -/
def amount? (d : Delta) (address : Address) (asset : Asset) : Option Amount :=
  d.portfolios[address]?.bind (·.amount? asset)

/-- Both deltas have an entry for the balance, and the sum is out of range. -/
def BalanceOverflows (a b : Delta) (address : Address) (asset : Asset) : Prop :=
  ∃ x y, a.amount? address asset = some x ∧ b.amount? address asset = some y ∧
    ¬Amount.InRange (x.toInt + y.toInt)

/-- Both deltas change the volume, and the sum is out of range. -/
def VolumeOverflows (a b : Delta) (asset : AssetId) : Prop :=
  ∃ u v, a.volumes[asset]? = some u ∧ b.volumes[asset]? = some v ∧ ¬Amount.InRange (u.sum v)

/-- The first balance that is out of range: accounts come in key order, and so do
    the assets of an account, after the native token. -/
structure FirstBalanceOverflow (a b : Delta) (address : Address) (asset : Asset) : Prop where
  overflows : a.BalanceOverflows b address asset
  account : ∀ earlier, compare earlier address = .lt →
    ∀ asset', ¬a.BalanceOverflows b earlier asset'
  asset : ∀ earlier, earlier.Before asset → ¬a.BalanceOverflows b address earlier

/-- The first volume that is out of range. -/
structure FirstVolumeOverflow (a b : Delta) (asset : AssetId) : Prop where
  overflows : a.VolumeOverflows b asset
  asset : ∀ earlier, compare earlier asset = .lt → ¬a.VolumeOverflows b earlier

/-- What every entry of the merged delta `d` is. A table has the keys of both deltas.
    Balances are the exact sums, volumes what the two changes come to; under all
    other keys that are in both, the entry of `b` stands. -/
structure MergesTo (a b d : Delta) : Prop where
  accounts : ∀ address : Address, d.portfolios[address]? ≠ none ↔
    a.portfolios[address]? ≠ none ∨ b.portfolios[address]? ≠ none
  balanceEntries : ∀ address asset, d.amount? address asset ≠ none ↔
    a.amount? address asset ≠ none ∨ b.amount? address asset ≠ none
  balances : ∀ address asset, (d.balanceChange address asset).toInt =
    (a.balanceChange address asset).toInt + (b.balanceChange address asset).toInt
  dataAccounts : ∀ address : Address,
    d.data[address]? ≠ none ↔ a.data[address]? ≠ none ∨ b.data[address]? ≠ none
  data : ∀ address key,
    d.dataEntry address key = (b.dataEntry address key).or (a.dataEntry address key)
  volumes : ∀ asset : AssetId, (a.volumes[asset]? = none ∨ b.volumes[asset]? = none) →
    d.volumes[asset]? = b.volumes[asset]?.or a.volumes[asset]?
  volumeSums : ∀ (asset : AssetId) u v, a.volumes[asset]? = some u → b.volumes[asset]? = some v →
    ∃ w, d.volumes[asset]? = some w ∧ u.SumsTo v w
  records : a.records.Overlays b.records d.records
  rewritten : a.rewritten.Overlays b.rewritten d.rewritten
  progress : a.progress.Overlays b.progress d.progress
  results : a.results.Overlays b.results d.results
  scriptsRun : d.scriptsRun.toNat =
    min (a.scriptsRun.toNat + b.scriptsRun.toNat) (UInt32.size - 1)
  complexity : d.complexity.toNat =
    min (a.complexity.toNat + b.complexity.toNat) (UInt64.size - 1)

variable {a b d : Delta} {address : Address} {asset : Asset} {id : AssetId} {o : Overflow}

/-! ### Refused merges -/

theorem balanceOverflows_iff {p q : Portfolio} (hp : a.portfolios[address]? = some p)
    (hq : b.portfolios[address]? = some q) (asset : Asset) :
    a.BalanceOverflows b address asset ↔ p.Overflows q asset := by
  rw [BalanceOverflows, amount?, amount?, hp, hq]
  rfl

theorem exists_portfolios (h : a.BalanceOverflows b address asset) :
    ∃ p q, a.portfolios[address]? = some p ∧ b.portfolios[address]? = some q := by
  obtain ⟨x, y, hx, hy, -⟩ := h
  obtain ⟨p, hp, -⟩ := Option.bind_eq_some_iff.1 hx
  obtain ⟨q, hq, -⟩ := Option.bind_eq_some_iff.1 hy
  exact ⟨p, q, hp, hq⟩

theorem refused_mergePortfolio_iff :
    SortedMap.Refused mergePortfolio a.portfolios b.portfolios address o ↔
      ∃ asset, o = .balance address asset ∧ a.BalanceOverflows b address asset ∧
        ∀ earlier, earlier.Before asset → ¬a.BalanceOverflows b address earlier := by
  constructor
  · rintro ⟨p, q, hp, hq, hmerge⟩
    obtain ⟨asset, hasset, rfl⟩ := mergePortfolio_eq_error_iff.1 hmerge
    simp only [balanceOverflows_iff hp hq]
    exact ⟨asset, rfl, Portfolio.merge_eq_error_iff.1 hasset⟩
  · rintro ⟨asset, rfl, hfirst⟩
    obtain ⟨p, q, hp, hq⟩ := exists_portfolios hfirst.1
    simp only [balanceOverflows_iff hp hq] at hfirst
    exact ⟨p, q, hp, hq,
      mergePortfolio_eq_error_iff.2 ⟨asset, Portfolio.merge_eq_error_iff.2 hfirst, rfl⟩⟩

theorem exists_refused_mergePortfolio_iff :
    (∃ o, SortedMap.Refused mergePortfolio a.portfolios b.portfolios address o) ↔
      ∃ asset, a.BalanceOverflows b address asset := by
  constructor
  · rintro ⟨o, hrefused⟩
    obtain ⟨asset, -, hoverflows, -⟩ := refused_mergePortfolio_iff.1 hrefused
    exact ⟨asset, hoverflows⟩
  · rintro ⟨asset, hoverflows⟩
    obtain ⟨p, q, hp, hq⟩ := exists_portfolios hoverflows
    rw [balanceOverflows_iff hp hq] at hoverflows
    obtain ⟨asset', hmerge⟩ := Portfolio.exists_merge_eq_error_iff.2 ⟨asset, hoverflows⟩
    exact ⟨_, p, q, hp, hq, mergePortfolio_eq_error_iff.2 ⟨asset', hmerge, rfl⟩⟩

theorem refused_mergeVolume_iff :
    SortedMap.Refused mergeVolume a.volumes b.volumes id o ↔
      o = .volume id ∧ a.VolumeOverflows b id := by
  simp only [SortedMap.Refused, VolumeOverflows, mergeVolume_eq_error_iff,
    VolumeChange.merge_eq_none_iff]
  grind

/-- Balances come before volumes. -/
theorem merge_eq_error_iff :
    a.merge b = .error o ↔
      SortedMap.tryMerge mergePortfolio a.portfolios b.portfolios = .error o ∨
      (∃ portfolios, SortedMap.tryMerge mergePortfolio a.portfolios b.portfolios = .ok portfolios) ∧
        SortedMap.tryMerge mergeVolume a.volumes b.volumes = .error o := by
  unfold merge
  cases SortedMap.tryMerge mergePortfolio a.portfolios b.portfolios with
  | error e => simp [bind, Except.bind]
  | ok portfolios =>
    cases SortedMap.tryMerge mergeVolume a.volumes b.volumes <;>
      simp [bind, Except.bind, pure, Except.pure]

theorem tryMerge_portfolios_eq_error_iff :
    SortedMap.tryMerge mergePortfolio a.portfolios b.portfolios = .error o ↔
      ∃ address asset, o = .balance address asset ∧ a.FirstBalanceOverflow b address asset := by
  rw [SortedMap.tryMerge_eq_error_iff_refused]
  constructor
  · rintro ⟨address, hrefused, hearlier⟩
    -- an earlier account would be refused for whichever of its assets comes first
    obtain ⟨asset, rfl, hoverflows, hfirst⟩ := refused_mergePortfolio_iff.1 hrefused
    refine ⟨address, asset, rfl, hoverflows, ?_, hfirst⟩
    intro earlier hlt asset' hover
    obtain ⟨o, hrefused'⟩ := exists_refused_mergePortfolio_iff.2 ⟨asset', hover⟩
    exact hearlier earlier hlt o hrefused'
  · rintro ⟨address, asset, rfl, hfirst⟩
    refine ⟨address, refused_mergePortfolio_iff.2 ⟨asset, rfl, hfirst.overflows, hfirst.asset⟩, ?_⟩
    intro earlier hlt o hrefused
    obtain ⟨asset', hover⟩ := exists_refused_mergePortfolio_iff.1 ⟨o, hrefused⟩
    exact hfirst.account earlier hlt asset' hover

theorem exists_tryMerge_portfolios_eq_error_iff :
    (∃ o, SortedMap.tryMerge mergePortfolio a.portfolios b.portfolios = .error o) ↔
      ∃ address asset, a.BalanceOverflows b address asset := by
  rw [SortedMap.exists_tryMerge_eq_error_iff]
  exact exists_congr fun _ => exists_refused_mergePortfolio_iff

theorem tryMerge_volumes_eq_error_iff :
    SortedMap.tryMerge mergeVolume a.volumes b.volumes = .error o ↔
      ∃ asset, o = .volume asset ∧ a.FirstVolumeOverflow b asset := by
  rw [SortedMap.tryMerge_eq_error_iff_refused]
  simp only [refused_mergeVolume_iff]
  constructor
  · rintro ⟨asset, ⟨rfl, hoverflows⟩, hearlier⟩
    exact ⟨asset, rfl, hoverflows, fun earlier hlt hover => hearlier earlier hlt _ ⟨rfl, hover⟩⟩
  · rintro ⟨asset, rfl, hfirst⟩
    exact ⟨asset, ⟨rfl, hfirst.overflows⟩,
      fun earlier hlt _ hover => hfirst.asset earlier hlt hover.2⟩

theorem exists_tryMerge_volumes_eq_error_iff :
    (∃ o, SortedMap.tryMerge mergeVolume a.volumes b.volumes = .error o) ↔
      ∃ asset, a.VolumeOverflows b asset := by
  rw [SortedMap.exists_tryMerge_eq_error_iff]
  simp [refused_mergeVolume_iff]

theorem exists_tryMerge_portfolios_eq_ok_iff :
    (∃ portfolios, SortedMap.tryMerge mergePortfolio a.portfolios b.portfolios = .ok portfolios) ↔
      ∀ address asset, ¬a.BalanceOverflows b address asset := by
  have herror := @exists_tryMerge_portfolios_eq_error_iff a b
  cases h : SortedMap.tryMerge mergePortfolio a.portfolios b.portfolios with
  | error o =>
    obtain ⟨address, asset, hoverflows⟩ := herror.1 ⟨o, h⟩
    exact iff_of_false nofun fun hnone => hnone address asset hoverflows
  | ok portfolios =>
    refine iff_of_true ⟨portfolios, rfl⟩ fun address asset hoverflows => ?_
    obtain ⟨o, ho⟩ := herror.2 ⟨address, asset, hoverflows⟩
    exact nomatch h.symm.trans ho

theorem exists_merge_eq_error_iff :
    (∃ o, a.merge b = .error o) ↔
      (∃ address asset, a.BalanceOverflows b address asset) ∨
        ∃ asset, a.VolumeOverflows b asset := by
  rw [← exists_tryMerge_portfolios_eq_error_iff, ← exists_tryMerge_volumes_eq_error_iff]
  cases hp : SortedMap.tryMerge mergePortfolio a.portfolios b.portfolios <;>
    simp [merge_eq_error_iff, hp]

/-- A balance is reported if it is the first one out of range. -/
theorem merge_eq_error_balance_iff :
    a.merge b = .error (.balance address asset) ↔ a.FirstBalanceOverflow b address asset := by
  rw [merge_eq_error_iff, tryMerge_portfolios_eq_error_iff, tryMerge_volumes_eq_error_iff]
  constructor
  · rintro (⟨_, _, hsame, hfirst⟩ | ⟨-, _, hsame, -⟩)
    · obtain ⟨rfl, rfl⟩ := Overflow.balance.inj hsame
      exact hfirst
    · exact nomatch hsame
  · intro hfirst
    exact .inl ⟨address, asset, rfl, hfirst⟩

/-- A volume is reported if it is the first one out of range, and no balance is. -/
theorem merge_eq_error_volume_iff :
    a.merge b = .error (.volume id) ↔
      (∀ address asset, ¬a.BalanceOverflows b address asset) ∧ a.FirstVolumeOverflow b id := by
  rw [merge_eq_error_iff, tryMerge_portfolios_eq_error_iff, tryMerge_volumes_eq_error_iff,
    exists_tryMerge_portfolios_eq_ok_iff]
  simp

/-! ### Merged deltas -/

theorem amount?_ne_none_of_merge (h : a.merge b = .ok d) (address : Address) (asset : Asset) :
    d.amount? address asset ≠ none ↔
      a.amount? address asset ≠ none ∨ b.amount? address asset ≠ none := by
  have hcombined := SortedMap.tryCombine_of_tryMerge (merge_eq_ok_iff.1 h).1 address
  unfold amount?
  cases ha : a.portfolios[address]? with
  | none =>
    rw [ha] at hcombined
    simp [← Except.ok.inj hcombined]
  | some p =>
    cases hb : b.portfolios[address]? with
    | none =>
      rw [ha, hb] at hcombined
      simp [← Except.ok.inj hcombined]
    | some q =>
      rw [ha, hb] at hcombined
      obtain ⟨r, hmerge, hr⟩ := SortedMap.tryCombine_eq_ok_iff.1 hcombined
      rw [hr]
      exact Portfolio.amount?_ne_none_of_merge (mergePortfolio_eq_ok_iff.1 hmerge) asset

theorem mergesTo_of_merge (h : a.merge b = .ok d) : a.MergesTo b d := by
  obtain ⟨hportfolios, hdata, hvolumes, hrecords, hrewritten, hprogress, hresults, hruns,
    hcomplexity⟩ := merge_eq_ok_iff.1 h
  have hchanges := SortedMap.tryCombine_of_tryMerge hvolumes
  -- balances, data and volumes have entries of entries; the other tables are overlaid
  refine ⟨fun _ => SortedMap.ne_none_iff_of_tryMerge hportfolios, amount?_ne_none_of_merge h,
    toInt_balanceChange_of_merge h, ?_, dataEntry_of_merge h, ?_, ?_, ?_, ?_, ?_, ?_, ?_, ?_⟩
  · intro address
    rw [hdata, SortedMap.getElem?_mergeWith]
    cases a.data[address]? <;> cases b.data[address]? <;> simp [SortedMap.combine]
  · rintro asset (ha | hb)
    · have hasset := hchanges asset
      rw [ha] at hasset
      rw [ha, Option.or_none, ← Except.ok.inj hasset]
    · have hasset := hchanges asset
      rw [hb, SortedMap.tryCombine_none] at hasset
      rw [hb, Option.none_or, ← Except.ok.inj hasset]
  · intro asset u v hu hv
    have hasset := hchanges asset
    rw [hu, hv] at hasset
    obtain ⟨w, hmerge, hw⟩ := SortedMap.tryCombine_eq_ok_iff.1 hasset
    exact ⟨w, hw, VolumeChange.sumsTo_of_merge (mergeVolume_eq_ok_iff.1 hmerge)⟩
  · exact hrecords ▸ SortedMap.overlays_union _ _
  · exact hrewritten ▸ SortedMap.overlays_union _ _
  · exact hprogress ▸ SortedMap.overlays_union _ _
  · exact hresults ▸ SortedMap.overlays_union _ _
  · rw [hruns, toNat_saturate32]
  · rw [hcomplexity, toNat_saturate64]

end Delta

/-- **Merging is decided entry by entry.** Deltas do not merge if and only if there
    is a balance with an entry in both, or a volume that both change, of which the
    sum is out of range. What is reported is the first such balance, or, if there is
    none, the first such volume. Deltas that merge come to what their entries come
    to, each under its own key. -/
theorem merge_is_pointwise (a b : Delta) :
    ((∃ o, a.merge b = .error o) ↔
      (∃ address asset, a.BalanceOverflows b address asset) ∨
        ∃ asset, a.VolumeOverflows b asset) ∧
    (∀ address asset,
      a.merge b = .error (.balance address asset) ↔ a.FirstBalanceOverflow b address asset) ∧
    (∀ asset, a.merge b = .error (.volume asset) ↔
      (∀ address asset', ¬a.BalanceOverflows b address asset') ∧ a.FirstVolumeOverflow b asset) ∧
    ∀ d, a.merge b = .ok d → a.MergesTo b d := by
  refine ⟨Delta.exists_merge_eq_error_iff, ?_, ?_, ?_⟩
  · intro address asset
    exact Delta.merge_eq_error_balance_iff
  · intro asset
    exact Delta.merge_eq_error_volume_iff
  · intro d h
    exact Delta.mergesTo_of_merge h

/-- Balances of two accounts and a volume are out of range, and the first account is
    reported. Other changes of this account and of the volume merge. -/
theorem merge_is_pointwise_of_three_overflows :
    let asset : AssetId := .fill 9
    let held (amount : Amount) := (∅ : SortedMap AssetId Amount).insert asset amount
    let a : Delta := {
      portfolios := SortedMap.ofEntries [(.fill 2, ⟨9223372036854775807, ∅⟩),
        (.fill 1, ⟨5, held 9223372036854775807⟩)]
      volumes := (Delta.volume asset (.reissue 9223372036854775807 true)).volumes }
    let b : Delta := {
      portfolios := SortedMap.ofEntries [(.fill 2, ⟨1, ∅⟩), (.fill 1, ⟨-5, held 1⟩)]
      volumes := (Delta.volume asset (.reissue 1 true)).volumes }
    let b' : Delta := {
      portfolios := SortedMap.ofEntries [(.fill 1, ⟨-5, ∅⟩)]
      volumes := (Delta.volume asset (.burn 7)).volumes }
    a.merge b = .error (.balance (.fill 1) (.issued asset)) ∧
      a.FirstBalanceOverflow b (.fill 1) (.issued asset) ∧
      ∃ d, a.merge b' = .ok d ∧ a.MergesTo b' d := by
  intro asset held a b b'
  have hrefused : a.merge b = .error (.balance (.fill 1) (.issued asset)) := by
    have hreported : (match a.merge b with
      | .error o => some o
      | .ok _ => none) = some (.balance (.fill 1) (.issued asset)) := by decide +kernel
    cases hmerge : a.merge b with
    | ok d =>
      rw [hmerge] at hreported
      exact nomatch hreported
    | error o =>
      rw [hmerge] at hreported
      exact congrArg Except.error (Option.some.inj hreported)
  have hrun : (a.merge b').toOption.isSome = true := by decide +kernel
  obtain ⟨d, hmerge⟩ := Option.isSome_iff_exists.1 hrun
  rw [toOption_eq_some_iff] at hmerge
  have hfirst := ((merge_is_pointwise a b).2.1 _ _).1 hrefused
  exact ⟨hrefused, hfirst, d, hmerge, (merge_is_pointwise a b').2.2.2 d hmerge⟩

end MeteredLedger

import MeteredLedger.Delta.Merge

/-! # Merging

    Merging deltas is associative as far as it goes. Where the first two of three
    deltas merge and the last two do, it makes no difference which two are
    merged first: the outcome is the same delta, or the same amount is reported
    to be out of range. The delta that changes nothing is neutral.

    * `SortedMap.mergeWith_assoc`, `SortedMap.tryMerge_assoc`: merges of tables
      are as associative as the combination of two values.
    * `SortedMap.Apart`: tables with no key in common merge to their union.
    * `VolumeChange.merge_assoc`: changes of a volume, in all their forms.
    * `merge_partial_monoid`: the same for whole deltas. -/

namespace MeteredLedger

/-! ## Section 1: Tables -/

namespace SortedMap

variable {K V ε : Type} [Ord K]

theorem combine_assoc {f : V → V → V} (hf : ∀ x y z, f (f x y) z = f x (f y z))
    (x y z : Option V) :
    combine f (combine f x y) z = combine f x (combine f y z) := by
  cases x <;> cases y <;> cases z <;> simp [combine, hf]

/-- `f` is associative where it combines the first two of three values and the
    last two. -/
def AssocWhere (f : V → V → Except ε V) : Prop :=
  ∀ ⦃x y z xy yz⦄, f x y = .ok xy → f y z = .ok yz → f xy z = f x yz

theorem tryCombine_assoc {f : V → V → Except ε V} (hf : AssocWhere f) {x y z xy yz : Option V}
    (hxy : tryCombine f x y = .ok xy) (hyz : tryCombine f y z = .ok yz) :
    tryCombine f xy z = tryCombine f x yz := by
  -- a value that is missing leaves the combination of the other two
  cases x with
  | none =>
    obtain rfl := Except.ok.inj hxy
    exact hyz
  | some x =>
    cases z with
    | none =>
      rw [tryCombine_none] at hyz ⊢
      obtain rfl := Except.ok.inj hyz
      exact hxy.symm
    | some z =>
      cases y with
      | none =>
        obtain rfl := Except.ok.inj hxy
        obtain rfl := Except.ok.inj hyz
        rfl
      | some y =>
        obtain ⟨xy', hfxy, rfl⟩ := tryCombine_eq_ok_iff.1 hxy
        obtain ⟨yz', hfyz, rfl⟩ := tryCombine_eq_ok_iff.1 hyz
        rw [tryCombine, tryCombine, hf hfxy hfyz]

variable [Std.TransOrd K] [Std.LawfulEqOrd K]

theorem mergeWith_empty (f : V → V → V) (m : SortedMap K V) : mergeWith f ∅ m = m := by
  apply Std.ExtTreeMap.ext_getElem?
  intro k
  rw [getElem?_mergeWith, Std.ExtTreeMap.getElem?_empty]
  cases m[k]? <;> rfl

theorem mergeWith_empty_right (f : V → V → V) (m : SortedMap K V) : mergeWith f m ∅ = m := by
  apply Std.ExtTreeMap.ext_getElem?
  intro k
  rw [getElem?_mergeWith, Std.ExtTreeMap.getElem?_empty]
  cases m[k]? <;> rfl

theorem mergeWith_assoc {f : V → V → V} (hf : ∀ x y z, f (f x y) z = f x (f y z))
    (a b c : SortedMap K V) :
    mergeWith f (mergeWith f a b) c = mergeWith f a (mergeWith f b c) := by
  apply Std.ExtTreeMap.ext_getElem?
  intro k
  rw [getElem?_mergeWith, getElem?_mergeWith, getElem?_mergeWith, getElem?_mergeWith,
    combine_assoc hf]

theorem union_assoc (a b c : SortedMap K V) : a ∪ b ∪ c = a ∪ (b ∪ c) := by
  apply Std.ExtTreeMap.ext_getElem?
  intro k
  simp only [Std.ExtTreeMap.getElem?_union, Option.or_assoc]

theorem empty_union (m : SortedMap K V) : ∅ ∪ m = m := by
  apply Std.ExtTreeMap.ext_getElem?
  intro k
  rw [Std.ExtTreeMap.getElem?_union, Std.ExtTreeMap.getElem?_empty, Option.or_none]

theorem union_empty (m : SortedMap K V) : m ∪ ∅ = m := by
  apply Std.ExtTreeMap.ext_getElem?
  intro k
  rw [Std.ExtTreeMap.getElem?_union, Std.ExtTreeMap.getElem?_empty, Option.none_or]

theorem tryMerge_empty (f : K → V → V → Except ε V) (m : SortedMap K V) :
    tryMerge f ∅ m = .ok m := by
  rw [tryMerge_eq_ok_iff]
  intro k
  rw [Std.ExtTreeMap.getElem?_empty]
  cases m[k]? <;> rfl

theorem tryMerge_empty_right (f : K → V → V → Except ε V) (m : SortedMap K V) :
    tryMerge f m ∅ = .ok m := by
  rw [tryMerge_eq_ok_iff]
  intro k
  rw [Std.ExtTreeMap.getElem?_empty, tryCombine_none]

variable {f : K → V → V → Except ε V}

/-- What a merge does is decided by what the values of each key do. -/
theorem tryMerge_congr {a b a' b' : SortedMap K V}
    (h : ∀ k, tryCombine (f k) a[k]? b[k]? = tryCombine (f k) a'[k]? b'[k]?) :
    tryMerge f a b = tryMerge f a' b' := by
  cases hmerge : tryMerge f a' b' with
  | ok r =>
    rw [tryMerge_eq_ok_iff] at hmerge ⊢
    intro k
    rw [h, hmerge]
  | error e =>
    rw [tryMerge_eq_error_iff] at hmerge ⊢
    obtain ⟨k, he, hbefore⟩ := hmerge
    refine ⟨k, by rw [h, he], ?_⟩
    intro j hj
    rw [h]
    exact hbefore j hj

/-- **Merges that may refuse**: if values are combined associatively, so are
    tables, and where a merge is refused, both orders name the same key. -/
theorem tryMerge_assoc (hf : ∀ k, AssocWhere (f k)) {a b c ab bc : SortedMap K V}
    (hab : tryMerge f a b = .ok ab) (hbc : tryMerge f b c = .ok bc) :
    tryMerge f ab c = tryMerge f a bc := by
  apply tryMerge_congr
  intro k
  exact tryCombine_assoc (hf k) (tryCombine_of_tryMerge hab k) (tryCombine_of_tryMerge hbc k)

end SortedMap

/-! ### Tables with no key in common -/

namespace SortedMap

variable {K V ε : Type} [Ord K] [Std.TransOrd K]

/-- No key has a value in both tables. -/
def Apart (a b : SortedMap K V) : Prop := ∀ k : K, a[k]? = none ∨ b[k]? = none

theorem apart_empty (m : SortedMap K V) : Apart ∅ m :=
  fun _ => .inl Std.ExtTreeMap.getElem?_empty

theorem Apart.symm {a b : SortedMap K V} (h : a.Apart b) : b.Apart a := fun k => (h k).symm

theorem apart_union {a b c : SortedMap K V} (hac : a.Apart c) (hbc : b.Apart c) :
    Apart (a ∪ b) c := by
  intro k
  rw [Std.ExtTreeMap.getElem?_union]
  rcases hac k with ha | hc
  · rcases hbc k with hb | hc
    · exact .inl (by rw [ha, hb, Option.or_none])
    · exact .inr hc
  · exact .inr hc

variable [Std.LawfulEqOrd K] {a b : SortedMap K V}

/-- Tables with no key in common have no two values to combine. -/
theorem tryMerge_of_apart (f : K → V → V → Except ε V) (h : a.Apart b) :
    tryMerge f a b = .ok (a ∪ b) := by
  rw [tryMerge_eq_ok_iff]
  intro k
  rw [Std.ExtTreeMap.getElem?_union]
  rcases h k with ha | hb
  · rw [ha, Option.or_none]
    rfl
  · rw [hb, tryCombine_none, Option.none_or]

theorem mergeWith_of_apart (f : V → V → V) (h : a.Apart b) : mergeWith f a b = a ∪ b := by
  apply Std.ExtTreeMap.ext_getElem?
  intro k
  rw [getElem?_mergeWith, Std.ExtTreeMap.getElem?_union]
  rcases h k with ha | hb
  · rw [ha, Option.or_none]
    rfl
  · rw [hb, Option.none_or]
    cases a[k]? <;> rfl

theorem union_right_comm (m : SortedMap K V) (h : a.Apart b) : m ∪ a ∪ b = m ∪ b ∪ a := by
  apply Std.ExtTreeMap.ext_getElem?
  intro k
  simp only [Std.ExtTreeMap.getElem?_union]
  rcases h k with ha | hb
  · rw [ha, Option.none_or, Option.none_or]
  · rw [hb, Option.none_or, Option.none_or]

end SortedMap

/-! ## Section 2: Amounts, portfolios and volumes -/

theorem Amount.add?_assoc {a b c ab bc : Amount} (hab : add? a b = some ab)
    (hbc : add? b c = some bc) : add? ab c = add? a bc := by
  rw [add?_eq_some_iff] at hab hbc
  rw [add?, add?, hab, hbc, Int.add_assoc]

theorem saturate64_add_assoc (a b c : UInt64) :
    saturate64 ((saturate64 (a.toNat + b.toNat)).toNat + c.toNat) =
      saturate64 (a.toNat + (saturate64 (b.toNat + c.toNat)).toNat) := by
  apply UInt64.toNat_inj.1
  simp only [toNat_saturate64]
  omega

theorem saturate32_add_assoc (a b c : UInt32) :
    saturate32 ((saturate32 (a.toNat + b.toNat)).toNat + c.toNat) =
      saturate32 (a.toNat + (saturate32 (b.toNat + c.toNat)).toNat) := by
  apply UInt32.toNat_inj.1
  simp only [toNat_saturate32]
  omega

theorem Portfolio.addExact_assoc (asset : Asset) : SortedMap.AssocWhere (addExact asset) := by
  intro a b c ab bc hab hbc
  rw [addExact, addExact, Amount.add?_assoc (demandSome_eq_ok_iff.1 hab)
    (demandSome_eq_ok_iff.1 hbc)]

theorem Portfolio.merge_assoc : SortedMap.AssocWhere Portfolio.merge := by
  intro p q r pq qr hpq hqr
  obtain ⟨hnative, hassets⟩ := merge_eq_ok_iff.1 hpq
  obtain ⟨hnative', hassets'⟩ := merge_eq_ok_iff.1 hqr
  have hsum : addExact .native pq.native r.native = addExact .native p.native qr.native :=
    addExact_assoc .native (addExact_eq_ok_iff.2 hnative) (addExact_eq_ok_iff.2 hnative')
  have htables := SortedMap.tryMerge_assoc (fun id => addExact_assoc (.issued id)) hassets hassets'
  rw [merge, merge, hsum, htables]

/-- Where nothing is said of an asset, it stays reissuable. -/
theorem getD_merge_and (o p : Option Bool) :
    (Option.merge (· && ·) o p).getD true = (o.getD true && p.getD true) := by
  cases o <;> cases p <;> simp

namespace VolumeChange

/-- The only direction in which a change goes, if there is only one. -/
def direction : VolumeChange → Option Ordering
  | reissue .. => some .gt
  | burn _ => some .lt
  | net .. => none

/-- Whether the change leaves an asset reissuable that has been so. -/
def allowsReissue (u : VolumeChange) : Bool := u.reissuable?.getD true

variable {u v w uv vw : VolumeChange}

theorem direction_of_merge (h : u.merge v = some w) :
    w.direction = if u.direction = v.direction then u.direction else none := by
  cases u <;> cases v <;>
    (simp only [merge, Option.map_eq_some_iff] at h
     obtain ⟨s, -, rfl⟩ := h
     simp [direction])

theorem allowsReissue_of_merge (h : u.merge v = some w) :
    w.allowsReissue = (u.allowsReissue && v.allowsReissue) := by
  unfold allowsReissue
  rw [reissuable?_of_merge h, getD_merge_and]

/-- Changes in two directions are merged to their net change. -/
theorem merge_of_mixed (h : u.direction = v.direction → u.direction = none) :
    u.merge v = (Amount.ofInt? (u.netChange + v.netChange)).map
      (net · (u.allowsReissue && v.allowsReissue)) := by
  cases u <;> cases v <;> first | rfl | exact absurd (h rfl) nofun

/-- **Changes of a volume** that go in one direction stay so in both orders, and
    all others come to the net change. -/
theorem merge_assoc (huv : u.merge v = some uv) (hvw : v.merge w = some vw) :
    uv.merge w = u.merge vw := by
  by_cases hsame : u.direction = v.direction ∧ v.direction = w.direction ∧ u.direction ≠ none
  · cases u <;> cases v <;> cases w <;> simp [direction] at hsame
    · simp only [merge, Option.map_eq_some_iff] at huv hvw
      obtain ⟨ab, hab, rfl⟩ := huv
      obtain ⟨bc, hbc, rfl⟩ := hvw
      rw [merge, merge, Amount.add?_assoc hab hbc, Bool.and_assoc]
    · simp only [merge, Option.map_eq_some_iff] at huv hvw
      obtain ⟨ab, hab, rfl⟩ := huv
      obtain ⟨bc, hbc, rfl⟩ := hvw
      rw [merge, merge, Amount.add?_assoc hab hbc]
  · have hleft : uv.direction = w.direction → uv.direction = none := by
      rw [direction_of_merge huv]
      grind
    have hright : u.direction = vw.direction → u.direction = none := by
      rw [direction_of_merge hvw]
      grind
    rw [merge_of_mixed hleft, merge_of_mixed hright, netChange_of_merge huv,
      netChange_of_merge hvw, allowsReissue_of_merge huv, allowsReissue_of_merge hvw,
      Int.add_assoc, Bool.and_assoc]

end VolumeChange

namespace Delta

theorem mergePortfolio_assoc (address : Address) :
    SortedMap.AssocWhere (mergePortfolio address) := by
  intro p q r pq qr hpq hqr
  rw [mergePortfolio, mergePortfolio, Portfolio.merge_assoc (mergePortfolio_eq_ok_iff.1 hpq)
    (mergePortfolio_eq_ok_iff.1 hqr)]

theorem mergeVolume_assoc (asset : AssetId) : SortedMap.AssocWhere (mergeVolume asset) := by
  intro u v w uv vw huv hvw
  rw [mergeVolume, mergeVolume, VolumeChange.merge_assoc (mergeVolume_eq_ok_iff.1 huv)
    (mergeVolume_eq_ok_iff.1 hvw)]

/-! ## Section 3: Deltas -/

theorem merge_empty (d : Delta) : d.merge .empty = .ok d := by
  rw [merge_eq_ok_iff]
  refine ⟨SortedMap.tryMerge_empty_right _ _, (SortedMap.mergeWith_empty_right _ _).symm,
    SortedMap.tryMerge_empty_right _ _, (SortedMap.union_empty _).symm,
    (SortedMap.union_empty _).symm, (SortedMap.union_empty _).symm,
    (SortedMap.union_empty _).symm, (saturate32_toNat _).symm, (saturate64_toNat _).symm⟩

theorem empty_merge (d : Delta) : empty.merge d = .ok d := by
  rw [merge_eq_ok_iff]
  refine ⟨SortedMap.tryMerge_empty _ _, (SortedMap.mergeWith_empty _ _).symm,
    SortedMap.tryMerge_empty _ _, (SortedMap.empty_union _).symm,
    (SortedMap.empty_union _).symm, (SortedMap.empty_union _).symm,
    (SortedMap.empty_union _).symm, ?_, ?_⟩
  · show d.scriptsRun = saturate32 (0 + d.scriptsRun.toNat)
    rw [Nat.zero_add, saturate32_toNat]
  · show d.complexity = saturate64 (0 + d.complexity.toNat)
    rw [Nat.zero_add, saturate64_toNat]

theorem data_of_merge {a b d : Delta} (h : a.merge b = .ok d) (hb : b.data = ∅) :
    d.data = a.data := by
  obtain ⟨-, hdata, -⟩ := merge_eq_ok_iff.1 h
  rw [hdata, hb, SortedMap.mergeWith_empty_right]

theorem volumes_of_merge {a b d : Delta} (h : a.merge b = .ok d) (hb : b.volumes = ∅) :
    d.volumes = a.volumes := by
  obtain ⟨-, -, hvolumes, -⟩ := merge_eq_ok_iff.1 h
  rw [hb, SortedMap.tryMerge_empty_right] at hvolumes
  exact (Except.ok.inj hvolumes).symm

theorem merge_assoc {a b c ab bc : Delta} (hab : a.merge b = .ok ab) (hbc : b.merge c = .ok bc) :
    ab.merge c = a.merge bc := by
  obtain ⟨hportfolios, hdata, hvolumes, hrecords, hrewritten, hprogress, hresults, hruns,
    hcomplexity⟩ := merge_eq_ok_iff.1 hab
  obtain ⟨hportfolios', hdata', hvolumes', hrecords', hrewritten', hprogress', hresults', hruns',
    hcomplexity'⟩ := merge_eq_ok_iff.1 hbc
  have hsums := SortedMap.tryMerge_assoc mergePortfolio_assoc hportfolios hportfolios'
  have hchanges := SortedMap.tryMerge_assoc mergeVolume_assoc hvolumes hvolumes'
  rw [merge, merge, hsums, hchanges, hdata, hdata', hrecords, hrecords', hrewritten, hrewritten',
    hprogress, hprogress', hresults, hresults', hruns, hruns', hcomplexity, hcomplexity']
  simp only [SortedMap.mergeWith_assoc SortedMap.union_assoc, SortedMap.union_assoc,
    saturate32_add_assoc, saturate64_add_assoc]

end Delta

/-- **Deltas are a partial monoid**: the empty delta is neutral, and of three
    deltas that merge pairwise, either order of merging gives the same delta or
    the same overflow, which names the same account or asset. -/
theorem merge_partial_monoid :
    (∀ d : Delta, d.merge .empty = .ok d ∧ Delta.empty.merge d = .ok d) ∧
    ∀ a b c ab bc : Delta, a.merge b = .ok ab → b.merge c = .ok bc →
      ab.merge c = a.merge bc := by
  constructor
  · intro d
    exact ⟨d.merge_empty, d.empty_merge⟩
  · intro a b c ab bc hab hbc
    exact Delta.merge_assoc hab hbc

/-- The first two changes of a balance merge, and so do the last two. All three
    together are one too much in both orders. -/
theorem merge_partial_monoid_of_overflow :
    let change (amount : Amount) : Delta := .balance (.fill 1) .native amount
    ∃ ab bc, (change 9223372036854775807).merge (change (-1)) = .ok ab ∧
      (change (-1)).merge (change 2) = .ok bc ∧
      ab.merge (change 2) = .error (.balance (.fill 1) .native) ∧
      (change 9223372036854775807).merge bc = .error (.balance (.fill 1) .native) := by
  intro change
  have hrun : (do
      let ab ← (change 9223372036854775807).merge (change (-1))
      let bc ← (change (-1)).merge (change 2)
      pure (match ab.merge (change 2) with
        | .error o => some o
        | .ok _ => none)).toOption = some (some (.balance (.fill 1) .native)) := by
    decide +kernel
  obtain ⟨ab, hab, hrun⟩ := bind_eq_ok_iff.1 (toOption_eq_some_iff.1 hrun)
  obtain ⟨bc, hbc, hrun⟩ := bind_eq_ok_iff.1 hrun
  have hrefused := Except.ok.inj hrun
  cases hmerge : ab.merge (change 2) with
  | ok d =>
    rw [hmerge] at hrefused
    exact nomatch hrefused
  | error o =>
    rw [hmerge] at hrefused
    obtain rfl := Option.some.inj hrefused
    have hsame := merge_partial_monoid.2 _ _ _ _ _ hab hbc
    exact ⟨ab, bc, hab, hbc, hmerge, hsame ▸ hmerge⟩

end MeteredLedger

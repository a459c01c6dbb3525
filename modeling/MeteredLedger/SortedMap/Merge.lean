import MeteredLedger.SortedMap.Basic

/-!
# What a merge holds

A merge of two tables is decided key by key, whatever the order in which entries are added.

* `getElem?_mergeWith`: the value of a key in a merge that always succeeds.
* `tryMerge_eq_ok_iff`: a merge that may refuse succeeds with the table that holds, for every key,
  the combination of the values of that key.
* `sum_of_tryMerge`: what adds up for two values of a key adds up in the merge.
* `tryMerge_eq_error_iff`: otherwise its error is that of the least key whose values do not combine.
-/

namespace MeteredLedger.SortedMap

variable {K V ε : Type} [Ord K]

/-! ## Two values of one key -/

/-- The value of a key that may have one in either of two tables. -/
def combine (f : V → V → V) : Option V → Option V → Option V
  | some x, some y => some (f x y)
  | some x, none => some x
  | none, y => y

/-- The value of a key that may have one in either of two tables, if two can be combined. -/
def tryCombine (f : V → V → Except ε V) : Option V → Option V → Except ε (Option V)
  | some x, some y => (f x y).map some
  | some x, none => .ok (some x)
  | none, y => .ok y

theorem tryCombine_some (f : V → V → Except ε V) (o : Option V) (v : V) :
    (∃ e, tryCombine f o (some v) = .error e) ∨ ∃ w, tryCombine f o (some v) = .ok (some w) := by
  cases o with
  | none => exact .inr ⟨v, rfl⟩
  | some u => cases h : f u v <;> simp [tryCombine, h, Except.map]

theorem tryCombine_none (f : V → V → Except ε V) (x : Option V) : tryCombine f x none = .ok x := by
  cases x <;> rfl

theorem tryCombine_eq_ok_iff {f : V → V → Except ε V} {x y : V} {o : Option V} :
    tryCombine f (some x) (some y) = .ok o ↔ ∃ z, f x y = .ok z ∧ o = some z := by
  cases hf : f x y <;> simp [tryCombine, hf, Except.map, eq_comm]

variable [Std.TransOrd K]

theorem tryInsert_of_error {f : K → V → V → Except ε V} {m : SortedMap K V} {k : K} {v : V} {e : ε}
    (h : tryCombine (f k) m[k]? (some v) = .error e) : tryInsert f m k v = .error e := by
  unfold tryInsert
  cases hm : m[k]? with
  | none => simp [hm, tryCombine] at h
  | some u =>
    rw [hm] at h
    cases hf : f k u v <;> simp_all [tryCombine, Except.map]

theorem tryInsert_of_ok {f : K → V → V → Except ε V} {m : SortedMap K V} {k : K} {v w : V}
    (h : tryCombine (f k) m[k]? (some v) = .ok (some w)) :
    tryInsert f m k v = .ok (m.insert k w) := by
  unfold tryInsert
  cases hm : m[k]? with
  | none => simp_all [tryCombine]
  | some u =>
    rw [hm] at h
    cases hf : f k u v <;> simp_all [tryCombine, Except.map]

variable [Std.LawfulEqOrd K]

/-! ## The merge that always succeeds -/

theorem getElem?_insertWith_self (f : V → V → V) (m : SortedMap K V) (k : K) (v : V) :
    (insertWith f m k v)[k]? = combine f m[k]? (some v) := by
  unfold insertWith
  cases h : m[k]? <;> simp [combine]

theorem getElem?_insertWith_of_ne (f : V → V → V) (m : SortedMap K V) {j k : K} (v : V)
    (h : k ≠ j) : (insertWith f m k v)[j]? = m[j]? := by
  simp [insertWith, Std.ExtTreeMap.getElem?_insert, h]

/-- Adding entries with distinct keys changes the values of these keys alone. -/
theorem getElem?_foldl_insertWith (f : V → V → V) (l : List (K × V)) (m : SortedMap K V)
    (distinct : l.Pairwise fun x y => ¬compare x.1 y.1 = .eq) :
    (∀ k, (∀ v, (k, v) ∉ l) → (l.foldl (fun m e => insertWith f m e.1 e.2) m)[k]? = m[k]?) ∧
    ∀ k v, (k, v) ∈ l →
      (l.foldl (fun m e => insertWith f m e.1 e.2) m)[k]? = combine f m[k]? (some v) := by
  induction l generalizing m with
  | nil => simp
  | cons e l ih =>
    obtain ⟨j, u⟩ := e
    rw [List.pairwise_cons] at distinct
    obtain ⟨absent, present⟩ := ih (insertWith f m j u) distinct.2
    -- the key of the first entry does not come again
    have fresh : ∀ v, (j, v) ∉ l := fun v hv => distinct.1 _ hv Std.ReflCmp.compare_self
    constructor
    · intro k hk
      rw [List.foldl_cons, absent k fun v hv => hk v (List.mem_cons_of_mem _ hv)]
      exact getElem?_insertWith_of_ne f m u fun e => hk u (by simp [e])
    · intro k v hkv
      rw [List.foldl_cons]
      rcases List.mem_cons.1 hkv with he | hv
      · cases he
        rw [absent j fresh, getElem?_insertWith_self]
      · rw [present k v hv, getElem?_insertWith_of_ne f m u]
        rintro rfl
        exact fresh v hv

theorem getElem?_mergeWith (f : V → V → V) (a b : SortedMap K V) (k : K) :
    (mergeWith f a b)[k]? = combine f a[k]? b[k]? := by
  have h := getElem?_foldl_insertWith f b.toList a b.distinct_keys_toList
  unfold mergeWith
  rw [Std.ExtTreeMap.foldl_eq_foldl_toList]
  cases hb : b[k]? with
  | none =>
    rw [h.1 k fun v hv => ?_]
    · cases a[k]? <;> rfl
    · rw [Std.ExtTreeMap.mem_toList_iff_getElem?_eq_some, hb] at hv
      exact nomatch hv
  | some v => exact h.2 k v (Std.ExtTreeMap.mem_toList_iff_getElem?_eq_some.2 hb)

/-! ## The merge that may refuse -/

/-- Adding entries in key order: either each of them combines with the value of its key, or the
error is that of the least key whose values do not combine. -/
theorem foldlM_tryInsert (f : K → V → V → Except ε V) (l : List (K × V)) (m : SortedMap K V)
    (sorted : l.Pairwise fun x y => compare x.1 y.1 = .lt) :
    match l.foldlM (fun m e => tryInsert f m e.1 e.2) m with
    | .ok r =>
      (∀ k, (∀ v, (k, v) ∉ l) → r[k]? = m[k]?) ∧
        ∀ k v, (k, v) ∈ l → tryCombine (f k) m[k]? (some v) = .ok r[k]?
    | .error e =>
      ∃ k v, (k, v) ∈ l ∧ tryCombine (f k) m[k]? (some v) = .error e ∧
        ∀ j u, (j, u) ∈ l → compare j k = .lt → ∃ o, tryCombine (f j) m[j]? (some u) = .ok o := by
  induction l generalizing m with
  | nil => simp [pure, Except.pure]
  | cons x l ih =>
    obtain ⟨i, t⟩ := x
    rw [List.pairwise_cons] at sorted
    have fresh : ∀ {k v}, (k, v) ∈ l → i ≠ k := by
      rintro k v hv rfl
      have := sorted.1 _ hv
      simp [Std.ReflCmp.compare_self] at this
    rcases tryCombine_some (f i) m[i]? t with ⟨e, he⟩ | ⟨w, hw⟩
    · rw [List.foldlM_cons, tryInsert_of_error he]
      refine ⟨i, t, List.mem_cons_self, he, fun j u hj hlt => ?_⟩
      rcases List.mem_cons.1 hj with h | h
      · cases h
        simp [Std.ReflCmp.compare_self] at hlt
      · have above : compare i j = .lt := sorted.1 _ h
        have swap : compare j i = (compare i j).swap := Std.OrientedCmp.eq_swap
        simp [swap, above] at hlt
    · rw [List.foldlM_cons, tryInsert_of_ok hw]
      have step := ih (m.insert i w) sorted.2
      have same : ∀ {k v}, (k, v) ∈ l → (m.insert i w)[k]? = m[k]? := fun hk => by
        simp [Std.ExtTreeMap.getElem?_insert, fresh hk]
      show match l.foldlM (fun m e => tryInsert f m e.1 e.2) (m.insert i w) with
        | .ok c => _
        | .error e => _
      split at step <;> rename_i r hr
      · refine ⟨fun k hk => ?_, fun k v hk => ?_⟩
        · rw [step.1 k fun v hv => hk v (List.mem_cons_of_mem _ hv)]
          have : i ≠ k := fun h => hk t (by simp [h])
          simp [Std.ExtTreeMap.getElem?_insert, this]
        · rcases List.mem_cons.1 hk with h | h
          · cases h
            rw [hw, step.1 i fun v hv => fresh hv rfl]
            simp
          · rw [← same h]
            exact step.2 k v h
      · obtain ⟨k, v, hk, he, before⟩ := step
        rw [same hk] at he
        refine ⟨k, v, List.mem_cons_of_mem _ hk, he, fun j u hj hlt => ?_⟩
        rcases List.mem_cons.1 hj with h | h
        · cases h
          exact ⟨_, hw⟩
        · have := before j u h hlt
          rwa [same h] at this

theorem tryCombine_of_tryMerge {f : K → V → V → Except ε V} {a b r : SortedMap K V}
    (h : tryMerge f a b = .ok r) (k : K) : tryCombine (f k) a[k]? b[k]? = .ok r[k]? := by
  have entries := foldlM_tryInsert f b.toList a b.ordered_keys_toList
  unfold tryMerge at h
  rw [Std.ExtTreeMap.foldlM_eq_foldlM_toList] at h
  rw [h] at entries
  cases hb : b[k]? with
  | none =>
    rw [entries.1 k fun v hv => ?_]
    · cases a[k]? <;> rfl
    · rw [Std.ExtTreeMap.mem_toList_iff_getElem?_eq_some, hb] at hv
      exact nomatch hv
  | some v => exact entries.2 k v (Std.ExtTreeMap.mem_toList_iff_getElem?_eq_some.2 hb)

theorem exists_least_of_tryMerge {f : K → V → V → Except ε V} {a b : SortedMap K V} {e : ε}
    (h : tryMerge f a b = .error e) :
    ∃ k, tryCombine (f k) a[k]? b[k]? = .error e ∧
      ∀ j, compare j k = .lt → ∃ o, tryCombine (f j) a[j]? b[j]? = .ok o := by
  have entries := foldlM_tryInsert f b.toList a b.ordered_keys_toList
  unfold tryMerge at h
  rw [Std.ExtTreeMap.foldlM_eq_foldlM_toList] at h
  rw [h] at entries
  obtain ⟨k, v, hk, he, before⟩ := entries
  refine ⟨k, ?_, fun j hlt => ?_⟩
  · rw [Std.ExtTreeMap.mem_toList_iff_getElem?_eq_some.1 hk, he]
  · cases hb : b[j]? with
    | none => cases a[j]? <;> exact ⟨_, rfl⟩
    | some u => exact before j u (Std.ExtTreeMap.mem_toList_iff_getElem?_eq_some.2 hb) hlt

theorem tryMerge_eq_ok_iff {f : K → V → V → Except ε V} {a b r : SortedMap K V} :
    tryMerge f a b = .ok r ↔ ∀ k, tryCombine (f k) a[k]? b[k]? = .ok r[k]? := by
  refine ⟨tryCombine_of_tryMerge, fun h => ?_⟩
  cases hm : tryMerge f a b with
  | ok m =>
    congr 1
    refine Std.ExtTreeMap.ext_getElem? fun k => ?_
    exact Except.ok.inj ((tryCombine_of_tryMerge hm k).symm.trans (h k))
  | error e =>
    obtain ⟨k, he, -⟩ := exists_least_of_tryMerge hm
    rw [h k] at he
    exact nomatch he

/-- A merge has the keys of both tables that are merged, and no others. -/
theorem ne_none_iff_of_tryMerge {f : K → V → V → Except ε V} {a b r : SortedMap K V}
    (h : tryMerge f a b = .ok r) {k : K} :
    r[k]? ≠ none ↔ a[k]? ≠ none ∨ b[k]? ≠ none := by
  have hcombined := tryCombine_of_tryMerge h k
  cases ha : a[k]? with
  | none =>
    rw [ha] at hcombined
    simp [← Except.ok.inj hcombined]
  | some x =>
    cases hb : b[k]? with
    | none =>
      rw [ha, hb] at hcombined
      simp [← Except.ok.inj hcombined]
    | some y =>
      rw [ha, hb] at hcombined
      obtain ⟨z, -, hr⟩ := tryCombine_eq_ok_iff.1 hcombined
      simp [hr]

/-- What adds up when two values are combined adds up in a merge, where a key without a value counts
for nothing. -/
theorem sum_of_tryMerge {f : K → V → V → Except ε V} {a b r : SortedMap K V}
    (h : tryMerge f a b = .ok r) (k : K) {g : Option V → Int} (hnone : g none = 0)
    (hg : ∀ x y z, f k x y = .ok z → g (some z) = g (some x) + g (some y)) :
    g r[k]? = g a[k]? + g b[k]? := by
  have combined := tryCombine_of_tryMerge h k
  cases ha : a[k]? with
  | none =>
    rw [ha] at combined
    rw [← Except.ok.inj combined, hnone, Int.zero_add]
  | some x =>
    cases hb : b[k]? with
    | none =>
      rw [ha, hb] at combined
      rw [← Except.ok.inj combined, hnone, Int.add_zero]
    | some y =>
      rw [ha, hb] at combined
      obtain ⟨z, hz, hr⟩ := tryCombine_eq_ok_iff.1 combined
      rw [hr, hg x y z hz]

theorem tryMerge_eq_error_iff {f : K → V → V → Except ε V} {a b : SortedMap K V} {e : ε} :
    tryMerge f a b = .error e ↔
      ∃ k, tryCombine (f k) a[k]? b[k]? = .error e ∧
        ∀ j, compare j k = .lt → ∃ o, tryCombine (f j) a[j]? b[j]? = .ok o := by
  refine ⟨exists_least_of_tryMerge, ?_⟩
  rintro ⟨k, he, before⟩
  cases hr : tryMerge f a b with
  | ok c =>
    rw [tryCombine_of_tryMerge hr k] at he
    exact nomatch he
  | error e' =>
    obtain ⟨k', he', before'⟩ := exists_least_of_tryMerge hr
    have : k = k' := by
      cases hc : compare k k' with
      | lt =>
        obtain ⟨o, ho⟩ := before' k hc
        rw [he] at ho
        exact nomatch ho
      | eq => exact Std.LawfulEqCmp.eq_of_compare hc
      | gt =>
        obtain ⟨o, ho⟩ := before k' (Std.OrientedCmp.gt_iff_lt.1 hc)
        rw [he'] at ho
        exact nomatch ho
    subst this
    rw [he] at he'
    exact congrArg _ (Except.error.inj he').symm

/-- A merge is refused only because of two values of one key. -/
theorem exists_of_tryMerge_eq_error {f : K → V → V → Except ε V} {a b : SortedMap K V} {e : ε}
    (h : tryMerge f a b = .error e) :
    ∃ k u v, a[k]? = some u ∧ b[k]? = some v ∧ f k u v = .error e := by
  obtain ⟨k, hk, -⟩ := tryMerge_eq_error_iff.1 h
  cases hu : a[k]? <;> cases hv : b[k]? <;> rw [hu, hv] at hk
  case some.some u v =>
    refine ⟨k, u, v, hu, hv, ?_⟩
    cases hf : f k u v <;> simp_all [tryCombine, Except.map]
  all_goals exact nomatch hk

end MeteredLedger.SortedMap

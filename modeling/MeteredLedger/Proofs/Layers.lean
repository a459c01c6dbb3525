import MeteredLedger.Proofs.Conservation
import MeteredLedger.Proofs.Merging

/-! # Layers

    Two deltas that are merged show the same on a view as the two stacked one on
    the other, under every name. Stacked, each amount stops at the bounds once
    more, and the records of the later delta hide all of the earlier one; where
    neither makes a difference, no lookup does.

    * `View.WithinBounds`: the amounts below the later delta are in range.
    * `Delta.Supersedes`: the later delta rewrites what it records and the
      earlier one has rewritten.
    * `asset_stack_of_merge`, `record_stack_of_merge`: the lookups that take more
      than one case.
    * `stack_merge_eq_stack_stack`: all lookups, and with them all transitions. -/

namespace MeteredLedger

open Script (Evaluator)

/-! ## Section 1: When layers agree -/

/-- No balance leaves the range of amounts after `d`, and no volume that of
    amounts that are not negative. -/
structure View.WithinBounds (v : View) (d : Delta) : Prop where
  balance : ∀ address asset,
    Amount.least ≤ (v.balance address asset).toInt + (d.balanceChange address asset).toInt ∧
      (v.balance address asset).toInt + (d.balanceChange address asset).toInt ≤ Amount.greatest
  volume : ∀ asset description, v.asset asset = some description →
    0 ≤ description.volume.toInt + d.netChange asset ∧
      description.volume.toInt + d.netChange asset ≤ Amount.greatest

/-- Transactions that `b` records and that `a` has rewritten are rewritten by `b`
    as well. -/
def Delta.Supersedes (b a : Delta) : Prop :=
  ∀ id : TxId, b.records[id]? ≠ none → a.rewritten[id]? ≠ none → b.rewritten[id]? ≠ none

/-! ## Section 2: Lookups -/

section Lookups

variable {v : View} {a b d : Delta}

theorem balance_stack_of_merge (h : a.merge b = .ok d) (hbounds : v.WithinBounds a) :
    (v.stack d).balance = ((v.stack a).stack b).balance := by
  funext address asset
  obtain ⟨hleast, hgreatest⟩ := hbounds.balance address asset
  apply Int64.toInt_inj.1
  simp only [View.stack, Amount.addClamped, Amount.toInt_clamp,
    Delta.toInt_balanceChange_of_merge h]
  omega

theorem data_stack_of_merge (h : a.merge b = .ok d) :
    (v.stack d).data = ((v.stack a).stack b).data := by
  funext address key
  simp only [View.stack, Delta.dataEntry_of_merge h, Option.or_assoc]

/-- A change after a change within bounds comes to the same as the two merged. -/
theorem AssetDescription.after_of_merge {description : AssetDescription} {u w u' : VolumeChange}
    (h : u.merge w = some u') (hleast : 0 ≤ description.volume.toInt + u.netChange)
    (hgreatest : description.volume.toInt + u.netChange ≤ Amount.greatest) :
    description.after u' = (description.after u).after w := by
  have hvolume : Amount.clamp (max 0 (description.volume.toInt + u'.netChange)) =
      Amount.clamp (max 0 ((Amount.clamp
        (max 0 (description.volume.toInt + u.netChange))).toInt + w.netChange)) := by
    rw [VolumeChange.netChange_of_merge h, Amount.toInt_clamp]
    unfold Amount.least Amount.greatest at *
    congr 1
    omega
  have hreissuable := VolumeChange.allowsReissue_of_merge h
  unfold VolumeChange.allowsReissue at hreissuable
  simp only [after, hvolume, hreissuable, Bool.and_assoc]

theorem asset_stack_of_merge (h : a.merge b = .ok d) (hbounds : v.WithinBounds a) :
    (v.stack d).asset = ((v.stack a).stack b).asset := by
  obtain ⟨-, -, hvolumes, -⟩ := Delta.merge_eq_ok_iff.1 h
  funext asset
  have hcombine := SortedMap.tryCombine_of_tryMerge hvolumes asset
  simp only [View.stack]
  cases hasset : v.asset asset with
  | none => rfl
  | some description =>
    obtain ⟨hleast, hgreatest⟩ := hbounds.volume asset description hasset
    simp only [Option.map_some]
    congr 1
    -- the asset has been changed by the first delta, by the second, by both or by neither
    cases hu : a.volumes[asset]? with
    | none =>
      rw [hu] at hcombine
      rw [← Except.ok.inj hcombine, Option.elim_none]
    | some u =>
      cases hw : b.volumes[asset]? with
      | none =>
        rw [hu, hw] at hcombine
        rw [← Except.ok.inj hcombine, Option.elim_some, Option.elim_none]
      | some w =>
        rw [hu, hw] at hcombine
        obtain ⟨u', hmerge, hu'⟩ := SortedMap.tryCombine_eq_ok_iff.1 hcombine
        have hchange : a.netChange asset = u.netChange := by
          rw [Delta.netChange, hu, Option.map_some, Option.getD_some]
        rw [hchange] at hleast hgreatest
        rw [hu', Option.elim_some, Option.elim_some, Option.elim_some]
        exact AssetDescription.after_of_merge (Delta.mergeVolume_eq_ok_iff.1 hmerge) hleast
          hgreatest

/-- In the merged delta what `a` has rewritten hides what `b` records, in the
    stack it is the other way round. -/
theorem record_stack_of_merge (h : a.merge b = .ok d) (hsupersedes : b.Supersedes a) :
    (v.stack d).record = ((v.stack a).stack b).record := by
  obtain ⟨-, -, -, hrecords, hrewritten, -⟩ := Delta.merge_eq_ok_iff.1 h
  funext id
  have hid := hsupersedes id
  simp only [View.stack, Delta.record, hrecords, hrewritten, Std.ExtTreeMap.getElem?_union]
  by_cases hnew : b.rewritten[id]? = none
  · by_cases hrecorded : b.records[id]? = none
    · simp [hnew, hrecorded, Option.or_assoc]
    · have hold : a.rewritten[id]? = none := by
        by_contra hsome
        exact hid hrecorded hsome hnew
      simp [hnew, hold, Option.or_assoc]
  · obtain ⟨record, hrecord⟩ := Option.ne_none_iff_exists'.1 hnew
    simp [hrecord]

theorem progress_stack_of_merge (h : a.merge b = .ok d) :
    (v.stack d).progress = ((v.stack a).stack b).progress := by
  obtain ⟨-, -, -, -, -, hprogress, -⟩ := Delta.merge_eq_ok_iff.1 h
  funext id
  simp only [View.stack, hprogress, Std.ExtTreeMap.getElem?_union, Option.or_assoc]

end Lookups

/-! ## Section 3: Views -/

/-- **A merged delta is as good as two layers**: within bounds, and if the later
    delta supersedes the earlier, both views answer every lookup alike, and so
    every transaction does the same on them. -/
theorem stack_merge_eq_stack_stack {v : View} {a b d : Delta} (h : a.merge b = .ok d)
    (hbounds : v.WithinBounds a) (hsupersedes : b.Supersedes a) :
    v.stack d = (v.stack a).stack b ∧
      ∀ (evaluator : Evaluator) (tx : Transaction),
        transition evaluator (v.stack d) tx = transition evaluator ((v.stack a).stack b) tx := by
  have hprogress := progress_stack_of_merge (v := v) h
  have hrecord := record_stack_of_merge (v := v) h hsupersedes
  have hdata := data_stack_of_merge (v := v) h
  have hasset := asset_stack_of_merge h hbounds
  have hbalance := balance_stack_of_merge h hbounds
  -- the other lookups are those of the view below
  have hviews : v.stack d = (v.stack a).stack b := by
    have hsplit : v.stack d = { (v.stack a).stack b with
        progress := (v.stack d).progress
        record := (v.stack d).record
        data := (v.stack d).data
        asset := (v.stack d).asset
        balance := (v.stack d).balance } := rfl
    rw [hsplit, hprogress, hrecord, hdata, hasset, hbalance]
  refine ⟨hviews, ?_⟩
  intro evaluator tx
  rw [hviews]

/-- An asset of which 5 are issued and then 3 destroyed. -/
theorem stack_merge_eq_stack_stack_of_burn :
    let asset : AssetId := .fill 9
    let view := { View.fresh ⟨.v3, ∅, none⟩ 100 with
      asset := fun _ => some ⟨.fill 2, "", 10, true⟩ }
    let a := Delta.volume asset (.reissue 5 false)
    let b := Delta.volume asset (.burn 3)
    ∃ d, a.merge b = .ok d ∧ d.volumes[asset]? = some (.net 2 false) ∧ view.WithinBounds a ∧
      b.Supersedes a ∧ view.stack d = (view.stack a).stack b := by
  intro asset view a b
  have hrun : (a.merge b).toOption.map (·.volumes[asset]?) = some (some (.net 2 false)) := by
    decide +kernel
  obtain ⟨d, hmerge, hvolume⟩ := Option.map_eq_some_iff.1 hrun
  rw [toOption_eq_some_iff] at hmerge
  have hbounds : view.WithinBounds a := by
    constructor
    · intro address asset'
      have hchange : a.balanceChange address asset' = 0 := by
        simp [a, Delta.balanceChange, Delta.volume]
      rw [hchange]
      show Amount.least ≤ (100 : Int) + 0 ∧ (100 : Int) + 0 ≤ Amount.greatest
      decide
    · intro asset' description hdescription
      obtain rfl := Option.some.inj hdescription
      rw [Delta.netChange_volume]
      show 0 ≤ (10 : Int) + _ ∧ (10 : Int) + _ ≤ Amount.greatest
      split
      · decide
      · decide
  have hsupersedes : b.Supersedes a := by
    intro id hrecorded _
    exact absurd (by simp [b, Delta.volume]) hrecorded
  exact ⟨d, hmerge, hvolume, hbounds, hsupersedes,
    (stack_merge_eq_stack_stack hmerge hbounds hsupersedes).1⟩

end MeteredLedger

import Mathlib.Algebra.Order.BigOperators.Group.Finset
import MeteredLedger.Proofs.Conservation
import MeteredLedger.Proofs.Solvency

/-! # Volumes and balances

    On a ledger whose balances in every asset add up to the volume of the asset,
    nothing that a block does can leave the range of amounts. No balance is
    larger than the sum of all, no fee is larger than what is there to pay it,
    and burns cannot exceed what is held, although nobody compares them with the
    volume.

    * `View.Reconciled`: balances and volumes agree.
    * `Delta.WithinVolumes`: a delta issues no more than volumes can hold; every
      accepted transaction leaves such a delta.
    * `Delta.Settles`: what a reconciled view can take in, so that it stays
      reconciled and no volume is clamped.
    * `settles_of_merge`: one such delta after the other settles as a whole.
    * `block_stays_reconciled`: no block on such a view meets an overflow. -/

namespace MeteredLedger

open Script (Evaluator)

/-! ## Section 1: Reconciled views -/

namespace View

/-- All balances in an asset. -/
noncomputable def total (v : View) (asset : Asset) : Int :=
  ∑ address : Address, (v.balance address asset).toInt

/-- Balances and volumes agree: nobody owes anything, all of the native token is
    an amount, an asset that is described is held up to its volume, and no other
    asset is held. (There are finitely many addresses.) -/
structure Reconciled (v : View) : Prop where
  solvent : v.Solvent
  native : v.total .native ≤ Amount.greatest
  described : ∀ id description, v.asset id = some description →
    v.total (.issued id) = description.volume.toInt
  undescribed : ∀ id, v.asset id = none → ∀ address, v.balance address (.issued id) = 0
  positive : v.PositivePayments

/-- After the delta every volume is an amount, and none is negative: the stacked
    view has nothing to clamp. -/
def HoldsVolumes (v : View) (d : Delta) : Prop :=
  ∀ id description, v.asset id = some description →
    0 ≤ description.volume.toInt + d.netChange id ∧
      description.volume.toInt + d.netChange id ≤ Amount.greatest

end View

section

variable {v : View} {d : Delta}

theorem sum_balanceAfter (v : View) (d : Delta) (asset : Asset) :
    ∑ address : Address, v.balanceAfter d address asset = v.total asset + d.total asset :=
  Finset.sum_add_distrib

/-- What is there after a covered delta is not negative. -/
theorem total_add_total_nonneg (h : v.Covers d) (asset : Asset) :
    0 ≤ v.total asset + d.total asset := by
  rw [← sum_balanceAfter]
  exact Finset.sum_nonneg fun address _ => (h address asset).1

/-- Nobody has more than there is. -/
theorem balanceAfter_le_total (h : v.Covers d) (address : Address) (asset : Asset) :
    v.balanceAfter d address asset ≤ v.total asset + d.total asset := by
  rw [← sum_balanceAfter]
  exact Finset.single_le_sum (f := fun address => v.balanceAfter d address asset)
    (fun address _ => (h address asset).1) (Finset.mem_univ address)

theorem total_stack (h : v.Covers d) (asset : Asset) :
    (v.stack d).total asset = v.total asset + d.total asset := by
  rw [← sum_balanceAfter]
  exact Finset.sum_congr rfl fun address _ => View.toInt_balance_stack h address asset

theorem asset_stack_eq_none_iff {id : AssetId} : (v.stack d).asset id = none ↔ v.asset id = none :=
  Option.map_eq_none_iff

/-- Where nothing is clamped, the volumes of the stacked view are exact. -/
theorem exists_asset_stack (h : v.HoldsVolumes d) {id : AssetId} {description : AssetDescription}
    (hid : v.asset id = some description) : ∃ after, (v.stack d).asset id = some after ∧
      after.volume.toInt = description.volume.toInt + d.netChange id := by
  obtain ⟨hnonneg, hle⟩ := h id description hid
  refine ⟨_, Option.map_eq_some_iff.2 ⟨description, hid, rfl⟩, ?_⟩
  cases hchange : d.volumes[id]? with
  | none => simp [Delta.netChange, hchange]
  | some change =>
    have hnet : d.netChange id = change.netChange := by simp [Delta.netChange, hchange]
    rw [hnet] at hnonneg hle ⊢
    show (Amount.clamp _).toInt = _
    rw [Amount.toInt_clamp]
    unfold Amount.least Amount.greatest at *
    omega

/-- The assets of the stacked view are those below it. -/
theorem exists_of_asset_stack (h : v.HoldsVolumes d) {id : AssetId} {after : AssetDescription}
    (hafter : (v.stack d).asset id = some after) :
    ∃ description, v.asset id = some description ∧
      after.volume.toInt = description.volume.toInt + d.netChange id := by
  obtain ⟨description, hid, -⟩ := Option.map_eq_some_iff.1 hafter
  obtain ⟨after', hafter', hvolume⟩ := exists_asset_stack h hid
  obtain rfl := Option.some.inj (hafter.symm.trans hafter')
  exact ⟨description, hid, hvolume⟩

/-- Nothing is held of an asset that is not described. -/
theorem View.Reconciled.total_eq_zero (hv : v.Reconciled) {id : AssetId} (h : v.asset id = none) :
    v.total (.issued id) = 0 := by
  unfold total
  refine Finset.sum_eq_zero fun address _ => ?_
  rw [hv.undescribed id h address]
  rfl

end

/-! ## Section 2: Volumes within a step -/

/-- The delta leaves every volume an amount, as far as it adds to it, and changes
    the volumes of described assets only. -/
structure Delta.WithinVolumes (d : Delta) (v : View) : Prop where
  described : ∀ id description, v.asset id = some description →
    description.volume.toInt + d.netChange id ≤ Amount.greatest
  undescribed : ∀ id, v.asset id = none → d.netChange id = 0

section

variable {v : View} {d d' : Delta}

theorem withinVolumes_of_netChange_eq (hd : d.WithinVolumes v)
    (h : ∀ id, d'.netChange id = d.netChange id) : d'.WithinVolumes v := by
  refine ⟨?_, ?_⟩
  · intro id description hid
    rw [h]
    exact hd.described id description hid
  · intro id hid
    rw [h]
    exact hd.undescribed id hid

theorem withinVolumes_of_volumes_empty (h : d.volumes = ∅) : d.WithinVolumes v := by
  refine ⟨?_, ?_⟩
  · intro id description _
    have hle := description.volume.toInt_le_greatest
    rw [Delta.netChange_of_volumes_empty h]
    omega
  · intro id _
    exact Delta.netChange_of_volumes_empty h id

/-- Reissues are checked against the volume that the batch has left so far, and
    burns only make it smaller. -/
theorem withinVolumes_of_effect {tx : Invocation} (h : Effect v tx d d') (hd : d.WithinVolumes v) :
    d'.WithinVolumes v := by
  cases h with
  | payment _ _ hmoves => exact withinVolumes_of_netChange_eq hd (Delta.netChange_of_moves hmoves)
  | transfer _ _ _ hmoves =>
    exact withinVolumes_of_netChange_eq hd (Delta.netChange_of_moves hmoves)
  | @data key value hmerge =>
    refine withinVolumes_of_netChange_eq hd fun id => ?_
    have hentry : (Delta.entry tx.dapp key value).netChange id = 0 :=
      Delta.netChange_of_volumes_empty rfl id
    rw [Delta.netChange_of_merge hmerge, hentry, Int.add_zero]
  | @reissue asset amount reissuable _ hmay hadjusts =>
    have hnet := Delta.netChange_of_adjusts hadjusts
    obtain ⟨description, hdescription, -, -, hvolume⟩ := hmay.described
    refine ⟨?_, ?_⟩
    · intro id description' hid
      rw [hnet]
      by_cases hsame : id = asset
      · subst hsame
        obtain rfl := Option.some.inj (hid.symm.trans hdescription)
        rw [if_pos rfl]
        show _ + (_ + amount.toInt) ≤ _
        omega
      · rw [if_neg hsame, Int.add_zero]
        exact hd.described id description' hid
    · intro id hid
      have hother : id ≠ asset := by
        rintro rfl
        exact nomatch hid.symm.trans hdescription
      rw [hnet, if_neg hother, Int.add_zero]
      exact hd.undescribed id hid
  | @burn asset amount hamount hknown hadjusts =>
    have hnet := Delta.netChange_of_adjusts hadjusts
    have hnonneg : 0 ≤ amount.toInt := Int64.le_iff_toInt_le.1 hamount
    refine ⟨?_, ?_⟩
    · intro id description hid
      have hle := hd.described id description hid
      have hburn : (VolumeChange.burn amount).netChange = -amount.toInt := rfl
      rw [hnet, hburn]
      split <;> omega
    · intro id hid
      have hother : id ≠ asset := by
        rintro rfl
        exact hknown hid
      rw [hnet, if_neg hother, Int.add_zero]
      exact hd.undescribed id hid

/-- However a step ends, only its batch has changed volumes. -/
theorem Step.withinVolumes_of_ends {evaluator : Evaluator} {s : Step} {r : StepResult}
    (h : s.Ends v evaluator r) : r.delta.WithinVolumes v := by
  cases h with
  | suspended => exact withinVolumes_of_volumes_empty rfl
  | failed => exact withinVolumes_of_volumes_empty rfl
  | @succeeded actions batch _ hbatch hsucceed =>
    obtain ⟨fee, changes, -, hchanges, -, rfl⟩ := succeed_eq_ok hsucceed
    have hwithin : batch.delta.WithinVolumes v :=
      applyBatch_keeps (withinVolumes_of_volumes_empty rfl)
        (fun _ _ heffect hd => withinVolumes_of_effect heffect hd) hbatch
    have hnet : ∀ id, changes.netChange id = batch.delta.netChange id := by
      intro id
      rw [Delta.netChange_of_merge hchanges, charge, Delta.netChange_balance]
      omega
    exact withinVolumes_of_netChange_eq hwithin hnet

theorem withinVolumes_of_transition {evaluator : Evaluator} {tx : Transaction} {r : StepResult}
    (h : transition evaluator v tx = .ok r) : r.delta.WithinVolumes v := by
  obtain ⟨s, -, hends⟩ := step_of_transition h
  exact Step.withinVolumes_of_ends hends

end

/-! ## Section 3: Reconciled views stay reconciled -/

/-- What a view can take in: the delta is covered, it creates nothing except what
    volumes say, and when `paid` of the native token has gone out of circulation
    the rest of it is still an amount. -/
structure Delta.Settles (d : Delta) (v : View) (paid : Int) : Prop where
  covers : v.Covers d
  balanced : d.Balanced paid
  native : v.total .native - paid ≤ Amount.greatest
  volumes : d.WithinVolumes v
  positive : (v.stack d).PositivePayments

section

variable {v : View} {d : Delta} {paid : Int}

/-- A volume that were negative would have holders who owe something. -/
theorem holdsVolumes_of_settles (hv : v.Reconciled) (hd : d.Settles v paid) : v.HoldsVolumes d := by
  intro id description hid
  have hnonneg := total_add_total_nonneg hd.covers (.issued id)
  have hle := hd.volumes.described id description hid
  rw [hv.described id description hid, hd.balanced.issued] at hnonneg
  exact ⟨hnonneg, hle⟩

/-- **Balances and volumes keep agreeing.** -/
theorem reconciled_stack (hv : v.Reconciled) (hd : d.Settles v paid) : (v.stack d).Reconciled where
  solvent := View.solvent_stack hd.covers
  native := by
    rw [total_stack hd.covers, hd.balanced.native]
    exact hd.native
  described := by
    intro id after hafter
    obtain ⟨description, hid, hvolume⟩ :=
      exists_of_asset_stack (holdsVolumes_of_settles hv hd) hafter
    rw [total_stack hd.covers, hd.balanced.issued, hv.described id description hid, hvolume]
  undescribed := by
    intro id hafter address
    have hid := asset_stack_eq_none_iff.1 hafter
    -- the balances are not negative and their sum is zero
    have hle := balanceAfter_le_total hd.covers address (.issued id)
    have hnonneg := (hd.covers address (.issued id)).1
    have hexact := View.toInt_balance_stack hd.covers address (.issued id)
    rw [hv.total_eq_zero hid, hd.balanced.issued, hd.volumes.undescribed id hid] at hle
    apply Int64.toInt_inj.1
    rw [hexact]
    show _ = (0 : Int)
    omega
  positive := hd.positive

/-- **What a reconciled view accepts settles on it.** -/
theorem settles_of_transition {evaluator : Evaluator} {tx : Transaction} {r : StepResult}
    (hv : v.Reconciled) (h : transition evaluator v tx = .ok r) :
    r.delta.Settles v (Amount.ofFee r.fee).toInt where
  covers := covers_of_transition hv.solvent h
  balanced := by
    obtain ⟨s, htakes, hends⟩ := step_of_transition h
    exact Step.balanced_of_ends (Step.positive_of_takes hv.positive htakes) hends
  native := by
    have hbefore := hv.native
    have hpaid : (0 : Int) ≤ _ := Int64.le_iff_toInt_le.1 (Amount.ofFee_nonneg r.fee)
    omega
  volumes := withinVolumes_of_transition h
  positive := positivePayments_of_transition hv.positive h

/-! ## Section 4: Deltas that settle one after the other -/

variable {r d' : Delta} {paid' : Int}

/-- Neither a balance nor a volume can leave its range where both deltas settle. -/
theorem merge_ne_error_of_settles (hv : v.Reconciled) (hd : d.Settles v paid)
    (hr : r.Settles (v.stack d) paid') (o : Overflow) : d.merge r ≠ .error o := by
  intro herror
  cases o with
  | balance address asset =>
    exact View.merge_ne_balance_overflow hv.solvent hd.covers hr.covers address asset herror
  | volume asset =>
    obtain ⟨u, w, hu, hw, hnone⟩ := Delta.volumes_of_merge_eq_error herror
    have hrange := VolumeChange.netChange_of_merge_eq_none hnone
    have hnet : d.netChange asset = u.netChange := by simp [Delta.netChange, hu]
    have hnet' : r.netChange asset = w.netChange := by simp [Delta.netChange, hw]
    cases hasset : v.asset asset with
    | none =>
      -- nothing is issued or burned of an asset that is not described
      have hzero := hd.volumes.undescribed asset hasset
      have hzero' := hr.volumes.undescribed asset (asset_stack_eq_none_iff.2 hasset)
      unfold Amount.greatest at hrange
      omega
    | some description =>
      have hholds := holdsVolumes_of_settles hv hd
      have hholds' := holdsVolumes_of_settles (reconciled_stack hv hd) hr
      obtain ⟨after, hafter, hvolume⟩ := exists_asset_stack hholds hasset
      obtain ⟨hnonneg, hle⟩ := hholds' asset after hafter
      have hbefore := total_add_total_nonneg (View.covers_empty hv.solvent) (.issued asset)
      have hempty := Delta.total_of_portfolios_empty (d := .empty) rfl (.issued asset)
      have hmax := description.volume.toInt_le_greatest
      rw [hv.described asset description hasset, hempty] at hbefore
      omega

/-- Two deltas that settle one after the other settle together. -/
theorem settles_of_merge (hv : v.Reconciled) (hd : d.Settles v paid)
    (hr : r.Settles (v.stack d) paid') (h : d.merge r = .ok d')
    (hhistory : (v.stack d').SameHistory ((v.stack d).stack r)) : d'.Settles v (paid + paid') where
  covers := View.covers_of_merge hd.covers hr.covers h
  balanced := Delta.balanced_of_merge hd.balanced hr.balanced h
  native := by
    have hnative := hr.native
    rw [total_stack hd.covers, hd.balanced.native] at hnative
    omega
  volumes := by
    have hnet := Delta.netChange_of_merge h
    refine ⟨?_, ?_⟩
    · intro id description hid
      obtain ⟨after, hafter, hvolume⟩ := exists_asset_stack (holdsVolumes_of_settles hv hd) hid
      have hle := hr.volumes.described id after hafter
      rw [hnet]
      omega
    · intro id hid
      have hzero := hd.volumes.undescribed id hid
      have hzero' := hr.volumes.undescribed id (asset_stack_eq_none_iff.2 hid)
      rw [hnet, hzero, hzero']
      rfl
  positive := View.positivePayments_of_sameHistory hhistory.symm hr.positive

/-- The fees of a delta that settles are an amount, so they can be paid back. -/
theorem settles_reward {generator : Address} {fee : UInt64} (hv : v.Reconciled)
    (hd : d.Settles v (Amount.ofFee fee).toInt) :
    (Delta.balance generator .native (.ofFee fee)).Settles (v.stack d)
      (-(Amount.ofFee fee).toInt) where
  covers := by
    intro address asset
    have hnonneg := (hd.covers address asset).1
    have hle := (hd.covers address asset).2
    have hexact := View.toInt_balance_stack hd.covers address asset
    have hfee : (0 : Int) ≤ (Amount.ofFee fee).toInt :=
      Int64.le_iff_toInt_le.1 (Amount.ofFee_nonneg fee)
    unfold View.balanceAfter at hexact hnonneg hle ⊢
    rw [hexact, Delta.balanceChange_balance]
    by_cases hpaid : address = generator ∧ asset = .native
    · obtain ⟨rfl, rfl⟩ := hpaid
      -- the fees are missing from what all accounts hold, the generator included
      have hheld := balanceAfter_le_total hd.covers address .native
      have hnative := hv.native
      unfold View.balanceAfter at hheld
      rw [hd.balanced.native] at hheld
      rw [if_pos ⟨rfl, rfl⟩]
      omega
    · have hzero : (0 : Amount).toInt = 0 := rfl
      rw [if_neg hpaid, hzero]
      omega
  balanced := Delta.balanced_balance_native _ _
  native := by
    have hnative := hv.native
    rw [total_stack hd.covers, hd.balanced.native]
    omega
  volumes := withinVolumes_of_volumes_empty rfl
  positive := View.positivePayments_of_sameHistory
    (View.sameHistory_stack_balance _ generator .native _).symm hd.positive

end

/-! ## Section 5: Blocks -/

section

variable {evaluator : Evaluator} {view : View} {txs : List Transaction} {b b' : BlockResult}
  {tx : Transaction}

/-- Fees add up as long as their sum is an amount. -/
theorem Amount.toInt_ofFee_add {fee fee' : UInt64}
    (h : (ofFee fee).toInt + (ofFee fee').toInt ≤ greatest) :
    (ofFee (saturate64 (fee.toNat + fee'.toNat))).toInt =
      (ofFee fee).toInt + (ofFee fee').toInt := by
  unfold ofFee at h ⊢
  simp only [toInt_clamp, toNat_saturate64, UInt64.size] at h ⊢
  unfold greatest least at *
  omega

/-- What is kept of a block while its transactions are applied: it settles, with
    all its fees still to be paid out. -/
structure BlockResult.Settled (b : BlockResult) (view : View) : Prop where
  settles : b.delta.Settles view (Amount.ofFee b.totalFee).toInt
  rejected : ∀ e ∈ b.rejected, e.2.NoOverflow

theorem BlockResult.settled_empty (hview : view.Reconciled) : Settled {} view where
  settles := {
    covers := View.covers_empty hview.solvent
    balanced := Delta.balanced_empty
    native := by
      have hnative := hview.native
      show _ - (0 : Int) ≤ _
      omega
    volumes := withinVolumes_of_volumes_empty rfl
    positive := View.positivePayments_of_sameHistory (View.sameHistory_stack_empty view).symm
      hview.positive }
  rejected := nofun

/-- One more transaction settles on what those before it have left, so it is
    never refused. -/
theorem BlockResult.settled_of_goes (hview : view.Reconciled) (hb : b.Settled view)
    (h : b.Goes evaluator view tx b') : b'.Settled view := by
  obtain ⟨hsettles, hrejected⟩ := hb
  have hreconciled := reconciled_stack hview hsettles
  cases h with
  | applied htransition hmerge =>
    have hsettles' := settles_of_transition hreconciled htransition
    have hsum := settles_of_merge hview hsettles hsettles' hmerge
      (sameHistory_of_transition htransition hmerge)
    -- the fees cannot exceed what there was to pay them
    have hheld := total_add_total_nonneg hsum.covers .native
    have hnative := hview.native
    rw [hsum.balanced.native] at hheld
    rw [← Amount.toInt_ofFee_add (by omega)] at hsum
    exact ⟨hsum, hrejected⟩
  | refused htransition hmerge =>
    have hsettles' := settles_of_transition hreconciled htransition
    exact absurd hmerge (merge_ne_error_of_settles hview hsettles hsettles' _)
  | rejected htransition _ =>
    have hreason := noOverflow_transition tx _ htransition
    exact ⟨hsettles, forall_mem_rejected_reject hrejected hreason tx.id⟩

theorem BlockResult.settled_of_after (hview : view.Reconciled)
    (h : after evaluator view txs = .ok b) : b.Settled view :=
  after_keeps (settled_empty hview) (fun _ _ _ _ hb hgoes => settled_of_goes hview hb hgoes) h

/-- **On a reconciled ledger nothing overflows**: no block is refused and no
    transaction is left out because of amounts that do not add up, no volume is
    clamped on the way, and the ledger stays reconciled. -/
theorem block_stays_reconciled (hview : view.Reconciled) :
    (∀ o, transitionBlock evaluator view txs ≠ .error (.overflow o)) ∧
      (∀ earlier b, earlier <+: txs → BlockResult.after evaluator view earlier = .ok b →
        (∀ id o, (id, .overflow o) ∉ b.rejected) ∧ view.HoldsVolumes b.delta) ∧
      ∀ b, transitionBlock evaluator view txs = .ok b →
        (∀ id o, (id, .overflow o) ∉ b.rejected) ∧ view.HoldsVolumes b.delta ∧
          (view.stack b.delta).Reconciled := by
  refine ⟨?_, ?_, ?_⟩
  · intro o herror
    rcases transitionBlock_eq_error herror with hafter | ⟨b, o', hafter, hmerge, -⟩
    · exact BlockResult.noOverflow_after _ hafter o rfl
    · have hb := BlockResult.settled_of_after hview hafter
      exact merge_ne_error_of_settles hview hb.settles (settles_reward hview hb.settles) o' hmerge
  · intro earlier b _ hafter
    have hb := BlockResult.settled_of_after hview hafter
    exact ⟨fun id o hmem => hb.rejected _ hmem o rfl, holdsVolumes_of_settles hview hb.settles⟩
  · intro b h
    obtain ⟨b₀, d, hafter, hmerge, rfl⟩ := transitionBlock_eq_ok h
    have hb₀ := BlockResult.settled_of_after hview hafter
    have hd := settles_of_merge hview hb₀.settles (settles_reward hview hb₀.settles) hmerge
      (View.sameHistory_of_merge hmerge fun id hid => by simp [Delta.balance] at hid)
    exact ⟨fun id o hmem => hb₀.rejected _ hmem o rfl, holdsVolumes_of_settles hview hd,
      reconciled_stack hview hd⟩

/-- A block on a ledger with two holders, in which the issuer of an asset burns
    more of it than it issues. -/
theorem block_stays_reconciled_of_burn :
    let asset : AssetId := .fill 9
    let dapp : Address := .fill 2
    let view := { View.fresh ⟨.v3, ∅, none⟩ 0 with
      asset := fun id => if id = asset then some ⟨dapp, "", 100, true⟩ else none
      balance := fun address a =>
        if address = .fill 1 ∧ a = .native then 1000000
        else if address = dapp ∧ a = .issued asset then 100 else 0 }
    let tx : Invocation := ⟨.fill 7, .fill 1, dapp, ⟨"", []⟩, [⟨.native, 4⟩], 900000, 0⟩
    let evaluator : Evaluator := fun _ _ => .ok (.completed (.ok (.list
      [.action (.burn asset 7), .action (.reissue asset 5 true)])) 0)
    view.Reconciled ∧ ∃ b, transitionBlock evaluator view [.invocation tx] = .ok b ∧
      b.applied = [(tx.id, .succeeded)] ∧ b.totalFee = 900000 ∧
      (view.stack b.delta).asset asset = some ⟨dapp, "", 98, true⟩ ∧
      (view.stack b.delta).Reconciled := by
  intro asset dapp view tx evaluator
  have hbalance : ∀ address a, view.balance address a =
      if address = .fill 1 ∧ a = .native then 1000000
      else if address = dapp ∧ a = .issued asset then 100 else 0 := fun _ _ => rfl
  have hasset : ∀ id, view.asset id = if id = asset then some ⟨dapp, "", 100, true⟩ else none :=
    fun _ => rfl
  have hreconciled : view.Reconciled := by
    refine ⟨?_, ?_, ?_, ?_, ?_⟩
    · intro address a
      rw [hbalance]
      split
      · decide
      · split <;> decide
    · have htotal : view.total .native = 1000000 := by
        unfold View.total
        rw [Finset.sum_eq_single (.fill 1) (fun address _ hne => by simp [hbalance, hne])
          (fun hnot => absurd (Finset.mem_univ _) hnot)]
        rfl
      rw [htotal]
      decide
    · intro id description hid
      rw [hasset] at hid
      split at hid
      · rename_i hsame
        obtain rfl := hsame
        obtain rfl := Option.some.inj hid
        unfold View.total
        rw [Finset.sum_eq_single dapp (fun address _ hne => by simp [hbalance, hne])
          (fun hnot => absurd (Finset.mem_univ _) hnot)]
        rfl
      · exact nomatch hid
    · intro id hid address
      rw [hasset] at hid
      have hother : id ≠ asset := by
        rintro rfl
        rw [if_pos rfl] at hid
        exact nomatch hid
      simp [hbalance, hother]
    · intro id record tx hrecord
      exact nomatch hrecord
  have hrun : (transitionBlock evaluator view [.invocation tx]).toOption.map
      (fun b => (b.applied, b.totalFee, (view.stack b.delta).asset asset)) =
        some ([(tx.id, .succeeded)], 900000, some ⟨dapp, "", 98, true⟩) := by decide +kernel
  obtain ⟨b, hblock, hrun⟩ := Option.map_eq_some_iff.1 hrun
  have hb : transitionBlock evaluator view [.invocation tx] = .ok b := toOption_eq_some_iff.1 hblock
  obtain ⟨happlied, hfee, hasset⟩ : b.applied = _ ∧ b.totalFee = _ ∧
      (view.stack b.delta).asset asset = _ := by simpa using hrun
  have hafter := (block_stays_reconciled hreconciled).2.2 b hb
  exact ⟨hreconciled, b, hb, happlied, hfee, hasset, hafter.2.2⟩

end

end MeteredLedger

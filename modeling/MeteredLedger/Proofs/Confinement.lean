import MeteredLedger.Proofs.Conservation
import MeteredLedger.Proofs.Debits

/-! # Confinement

    An invocation takes value from two accounts only: its sender, who pays the
    fee and what the invocation hands over, and its DApp, in whose name the
    actions are done. Nobody else loses anything, whatever the callable returns,
    and everybody whom the step concerns is named in its record.

    * `Delta.Touches`: the accounts that a delta mentions.
    * `paidIn`: what payments hand over in an asset.
    * `Batch.Confined`: what holds of every batch; payments and actions are
      looked at one by one.
    * `StepResult.Confined`: what holds of every accepted transaction.
    * `transition_is_confined`: it does. -/

namespace MeteredLedger

open Script (Action Evaluator Expr)

/-! ## Section 1: What a delta touches -/

/-- The delta changes a balance of the account or writes a data entry of it. -/
def Delta.Touches (d : Delta) (address : Address) : Prop :=
  d.portfolios[address]? ≠ none ∨ d.data[address]? ≠ none

namespace SortedMap

variable {K V : Type} [Ord K] [Std.TransOrd K] {a b : SortedMap K V} {k : K}

/-- A table with at most one entry. -/
theorem eq_of_single [DecidableEq K] {key : K} {o : Option V}
    (h : ∀ k : K, a[k]? = if k = key then o else none) (hk : a[k]? ≠ none) : k = key := by
  by_contra hne
  rw [h, if_neg hne] at hk
  exact hk rfl

variable [Std.LawfulEqOrd K]

theorem ne_none_of_mergeWith {f : V → V → V} (hk : (mergeWith f a b)[k]? ≠ none) :
    a[k]? ≠ none ∨ b[k]? ≠ none := by
  by_contra hnone
  push Not at hnone
  rw [getElem?_mergeWith, hnone.1, hnone.2] at hk
  exact hk rfl

end SortedMap

namespace Delta

variable {a b d d' : Delta} {address payer payee holder : Address} {asset : Asset} {id : AssetId}
  {amount : Amount} {change : VolumeChange}

theorem touches_of_merge (h : a.merge b = .ok d) (hd : d.Touches address) :
    a.Touches address ∨ b.Touches address := by
  obtain ⟨hportfolios, hdata, -⟩ := merge_eq_ok_iff.1 h
  rcases hd with hd | hd
  · exact ((SortedMap.ne_none_iff_of_tryMerge hportfolios).1 hd).imp .inl .inl
  · rw [hdata] at hd
    exact (SortedMap.ne_none_of_mergeWith hd).imp .inr .inr

theorem eq_of_touches_balance (h : (balance payer asset amount).Touches address) :
    address = payer := by
  by_contra hne
  simp [Touches, balance, Ne.symm hne] at h

theorem eq_of_touches_entry {key : String} {value : Script.DataValue}
    (h : (entry holder key value).Touches address) : address = holder := by
  by_contra hne
  simp [Touches, entry, Ne.symm hne] at h

theorem not_touches_empty (address : Address) : ¬empty.Touches address := by
  simp [Touches, empty]

theorem touches_of_moves (h : d.Moves asset amount payer payee d') (hd : d'.Touches address) :
    d.Touches address ∨ address = payer ∨ address = payee := by
  obtain ⟨d₁, h₁, h₂⟩ := h
  rcases touches_of_merge h₂ hd with hd₁ | hpayee
  · rcases touches_of_merge h₁ hd₁ with hd | hpayer
    · exact .inl hd
    · exact .inr (.inl (eq_of_touches_balance hpayer))
  · exact .inr (.inr (eq_of_touches_balance hpayee))

theorem touches_of_adjusts (h : d.Adjusts id holder amount change d') (hd : d'.Touches address) :
    d.Touches address ∨ address = holder := by
  obtain ⟨d₁, h₁, h₂⟩ := h
  rcases touches_of_merge h₂ hd with hd₁ | hvolume
  · exact (touches_of_merge h₁ hd₁).imp_right eq_of_touches_balance
  · exact absurd hvolume (not_touches_empty address)

/-! ### Data entries and volumes -/

theorem data_of_moves (h : d.Moves asset amount payer payee d') : d'.data = d.data := by
  obtain ⟨d₁, h₁, h₂⟩ := h
  rw [data_of_merge h₂ rfl, data_of_merge h₁ rfl]

theorem data_of_adjusts (h : d.Adjusts id holder amount change d') : d'.data = d.data := by
  obtain ⟨d₁, h₁, h₂⟩ := h
  rw [data_of_merge h₂ rfl, data_of_merge h₁ rfl]

theorem volumes_of_moves (h : d.Moves asset amount payer payee d') : d'.volumes = d.volumes := by
  obtain ⟨d₁, h₁, h₂⟩ := h
  rw [volumes_of_merge h₂ rfl, volumes_of_merge h₁ rfl]

/-- Issuing and burning change the volume of the asset, and of no other. -/
theorem volumes_ne_none_iff_of_adjusts {other : AssetId}
    (h : d.Adjusts id holder amount change d') :
    d'.volumes[other]? ≠ none ↔ d.volumes[other]? ≠ none ∨ other = id := by
  obtain ⟨d₁, h₁, h₂⟩ := h
  obtain ⟨-, -, hvolumes, -⟩ := merge_eq_ok_iff.1 h₂
  have hvolume : (volume id change).volumes[other]? ≠ none ↔ other = id := by
    by_cases hid : id = other
    · simp [volume, hid]
    · simp [volume, hid, Ne.symm hid]
  rw [SortedMap.ne_none_iff_of_tryMerge hvolumes, hvolume, volumes_of_merge h₁ rfl]

/-! ### Balances -/

/-- Moving an amount takes it from one account and gives it to the other. -/
theorem toInt_balanceChange_of_moves (hamount : 0 ≤ amount)
    (h : d.Moves asset amount payer payee d') (address : Address) (asset' : Asset) :
    (d'.balanceChange address asset').toInt = (d.balanceChange address asset').toInt -
      (if address = payer ∧ asset' = asset then amount.toInt else 0) +
      (if address = payee ∧ asset' = asset then amount.toInt else 0) := by
  obtain ⟨d₁, h₁, h₂⟩ := h
  rw [toInt_balanceChange_of_merge h₂, toInt_balanceChange_of_merge h₁, balanceChange_balance,
    balanceChange_balance, apply_ite Int64.toInt, apply_ite Int64.toInt,
    Amount.toInt_neg_of_nonneg hamount, Int64.toInt_zero]
  split <;> omega

/-- Issuing and burning change the balance of one account in the asset. -/
theorem toInt_balanceChange_of_adjusts (h : d.Adjusts id holder amount change d')
    (address : Address) (asset : Asset) :
    (d'.balanceChange address asset).toInt = (d.balanceChange address asset).toInt +
      if address = holder ∧ asset = .issued id then amount.toInt else 0 := by
  obtain ⟨d₁, h₁, h₂⟩ := h
  have hvolume : ((volume id change).balanceChange address asset).toInt = 0 := rfl
  rw [toInt_balanceChange_of_merge h₂, toInt_balanceChange_of_merge h₁, hvolume,
    balanceChange_balance, apply_ite Int64.toInt, Int64.toInt_zero]
  omega

end Delta

/-! ## Section 2: Payments -/

/-- What payments hand over in an asset. -/
def paidIn (payments : List Payment) (asset : Asset) : Int :=
  (payments.map fun p => if asset = p.asset then p.amount.toInt else 0).sum

theorem paidIn_cons (p : Payment) (payments : List Payment) (asset : Asset) :
    paidIn (p :: payments) asset =
      (if asset = p.asset then p.amount.toInt else 0) + paidIn payments asset := by
  simp [paidIn]

theorem paidIn_nonneg {payments : List Payment} (h : ∀ p ∈ payments, 0 < p.amount)
    (asset : Asset) : 0 ≤ paidIn payments asset := by
  induction payments with
  | nil => simp [paidIn]
  | cons p payments ih =>
    rw [paidIn_cons]
    have hrest := ih fun q hq => h q (List.mem_cons_of_mem p hq)
    have hp : 0 < p.amount.toInt := Int64.lt_iff_toInt_lt.1 (h p List.mem_cons_self)
    split <;> omega

section

variable {view : View} {evaluator : Evaluator} {tx : Invocation} {b b' : Batch}

/-- Payments move from the sender to the DApp, asset by asset. -/
theorem balanceChange_of_pays {payments : List Payment} (hpositive : ∀ p ∈ payments, 0 < p.amount)
    (h : payments.foldlM (Batch.pay view evaluator tx) b = .ok b') (address : Address)
    (asset : Asset) :
    (b'.delta.balanceChange address asset).toInt = (b.delta.balanceChange address asset).toInt -
      (if address = tx.sender then paidIn payments asset else 0) +
      (if address = tx.dapp then paidIn payments asset else 0) := by
  -- induction on the payments that are still to be applied
  induction payments generalizing b with
  | nil =>
    obtain rfl := Except.ok.inj h
    simp [paidIn]
  | cons p payments ih =>
    rw [List.foldlM_cons] at h
    obtain ⟨b₁, hpay, hrest⟩ := bind_eq_ok_iff.1 h
    obtain ⟨-, hmoves, -⟩ := Batch.pay_eq_ok hpay
    have hp := Int64.le_of_lt (hpositive p List.mem_cons_self)
    rw [ih (fun q hq => hpositive q (List.mem_cons_of_mem p hq)) hrest,
      Delta.toInt_balanceChange_of_moves hp hmoves, paidIn_cons]
    by_cases hasset : asset = p.asset
    · simp only [hasset, and_true, if_true]
      split <;> split <;> omega
    · simp [hasset]

/-! ## Section 3: Actions -/

/-- An action takes value from nobody but the DApp. -/
theorem balanceChange_le_of_act {dapp address : Address} {action : Action}
    (h : b.act view evaluator dapp action = .ok b') (haddress : address ≠ dapp) (asset : Asset) :
    (b.delta.balanceChange address asset).toInt ≤ (b'.delta.balanceChange address asset).toInt := by
  obtain ⟨b₁, happly, rfl⟩ := Batch.act_eq_ok h
  show _ ≤ (b₁.delta.balanceChange address asset).toInt
  cases action with
  | data key value =>
    have hadd : b.add (.entry dapp key value) = .ok b₁ := happly
    obtain ⟨d, hmerge, rfl⟩ := Batch.add_eq_ok_iff.1 hadd
    have hentry : ((Delta.entry dapp key value).balanceChange address asset).toInt = 0 := rfl
    show _ ≤ (d.balanceChange address asset).toInt
    rw [Delta.toInt_balanceChange_of_merge hmerge, hentry, Int.add_zero]
  | transfer recipient asset' amount =>
    obtain ⟨hamount, -, -, hmoves, -⟩ := Batch.transfer_eq_ok happly
    have hnonneg := Int64.le_iff_toInt_le.1 hamount
    rw [Int64.toInt_zero] at hnonneg
    rw [Delta.toInt_balanceChange_of_moves hamount hmoves, if_neg fun hsame => haddress hsame.1]
    split <;> omega
  | reissue asset' amount reissuable =>
    obtain ⟨-, -, hadjusts, -⟩ := Batch.reissue_eq_ok happly
    rw [Delta.toInt_balanceChange_of_adjusts hadjusts, if_neg fun hsame => haddress hsame.1,
      Int.add_zero]
  | burn asset' amount =>
    obtain ⟨-, -, hadjusts, -⟩ := Batch.burn_eq_ok happly
    rw [Delta.toInt_balanceChange_of_adjusts hadjusts, if_neg fun hsame => haddress hsame.1,
      Int.add_zero]

theorem mem_transfers_push {r : ScriptResult} {t : Transfer} (h : t ∈ r.transfers)
    (action : Action) : t ∈ (r.push action).transfers := by
  cases action with
  | transfer recipient asset amount => exact List.mem_append_left _ h
  | data key value => exact h
  | reissue asset amount reissuable => exact h
  | burn asset amount => exact h

/-- The account is the sender, the DApp, or receives one of the transfers noted. -/
def Batch.Concerns (b : Batch) (tx : Invocation) (address : Address) : Prop :=
  address = tx.sender ∨ address = tx.dapp ∨ ∃ t ∈ b.result.transfers, t.recipient = address

/-- An action touches the DApp, and the recipient that is noted with it. -/
theorem concerns_of_act {action : Action} (h : b.act view evaluator tx.dapp action = .ok b')
    (hb : ∀ address, b.delta.Touches address → b.Concerns tx address) {address : Address}
    (hb' : b'.delta.Touches address) : b'.Concerns tx address := by
  have hresult := result_of_act h
  have hbefore : b.delta.Touches address → b'.Concerns tx address := by
    intro htouched
    rcases hb address htouched with hsender | hdapp | ⟨t, ht, hrecipient⟩
    · exact .inl hsender
    · exact .inr (.inl hdapp)
    · refine .inr (.inr ⟨t, ?_, hrecipient⟩)
      rw [hresult]
      exact mem_transfers_push ht action
  have hdapp : address = tx.dapp → b'.Concerns tx address := fun hdapp => .inr (.inl hdapp)
  obtain ⟨b₁, happly, rfl⟩ := Batch.act_eq_ok h
  cases action with
  | data key value =>
    have hadd : b.add (.entry tx.dapp key value) = .ok b₁ := happly
    obtain ⟨d, hmerge, rfl⟩ := Batch.add_eq_ok_iff.1 hadd
    rcases Delta.touches_of_merge hmerge hb' with htouched | hentry
    · exact hbefore htouched
    · exact hdapp (Delta.eq_of_touches_entry hentry)
  | transfer recipient asset amount =>
    obtain ⟨-, -, -, hmoves, -⟩ := Batch.transfer_eq_ok happly
    rcases Delta.touches_of_moves hmoves hb' with htouched | hpayer | hpayee
    · exact hbefore htouched
    · exact hdapp hpayer
    · refine .inr (.inr ⟨⟨recipient, asset, amount⟩, ?_, hpayee.symm⟩)
      rw [hresult]
      exact List.mem_append_right _ List.mem_cons_self
  | reissue asset amount reissuable =>
    obtain ⟨-, -, hadjusts, -⟩ := Batch.reissue_eq_ok happly
    exact (Delta.touches_of_adjusts hadjusts hb').elim hbefore hdapp
  | burn asset amount =>
    obtain ⟨-, -, hadjusts, -⟩ := Batch.burn_eq_ok happly
    exact (Delta.touches_of_adjusts hadjusts hb').elim hbefore hdapp

/-! ## Section 4: Batches -/

/-- Data entries are only written for the DApp. -/
theorem data_of_effect {d d' : Delta} {address : Address} (h : Effect view tx d d')
    (hd' : d'.data[address]? ≠ none) : d.data[address]? ≠ none ∨ address = tx.dapp := by
  cases h with
  | payment _ _ hmoves => exact .inl (Delta.data_of_moves hmoves ▸ hd')
  | transfer _ _ _ hmoves => exact .inl (Delta.data_of_moves hmoves ▸ hd')
  | reissue _ _ hadjusts => exact .inl (Delta.data_of_adjusts hadjusts ▸ hd')
  | burn _ _ hadjusts => exact .inl (Delta.data_of_adjusts hadjusts ▸ hd')
  | data hmerge =>
    obtain ⟨-, hdata, -⟩ := Delta.merge_eq_ok_iff.1 hmerge
    rw [hdata] at hd'
    exact (SortedMap.ne_none_of_mergeWith hd').imp_right fun hentry =>
      Delta.eq_of_touches_entry (.inr hentry)

/-- Volumes only change of assets that the view knows. -/
theorem volumes_of_effect {d d' : Delta} {id : AssetId} (h : Effect view tx d d')
    (hd' : d'.volumes[id]? ≠ none) : d.volumes[id]? ≠ none ∨ view.asset id ≠ none := by
  have hadjusts : ∀ {asset holder amount change}, d.Adjusts asset holder amount change d' →
      view.asset asset ≠ none → d.volumes[id]? ≠ none ∨ view.asset id ≠ none := by
    intro asset holder amount change hadjusts hknown
    rcases (Delta.volumes_ne_none_iff_of_adjusts hadjusts).1 hd' with hbefore | rfl
    · exact .inl hbefore
    · exact .inr hknown
  cases h with
  | payment _ _ hmoves => exact .inl (Delta.volumes_of_moves hmoves ▸ hd')
  | data hmerge => exact .inl (Delta.volumes_of_merge hmerge rfl ▸ hd')
  | transfer _ _ _ hmoves => exact .inl (Delta.volumes_of_moves hmoves ▸ hd')
  | reissue _ hmay h =>
    obtain ⟨description, hdescribed, -⟩ := hmay.described
    exact hadjusts h (by simp [hdescribed])
  | burn _ hknown h => exact hadjusts h hknown

/-- A batch takes from the sender what the payments hand over, and from nobody
    else but the DApp. -/
structure Batch.Confined (b : Batch) (view : View) (tx : Invocation) : Prop where
  others : ∀ address, address ≠ tx.sender → address ≠ tx.dapp → ∀ asset,
    0 ≤ (b.delta.balanceChange address asset).toInt
  sender : tx.sender ≠ tx.dapp → ∀ asset,
    -paidIn tx.payments asset ≤ (b.delta.balanceChange tx.sender asset).toInt
  data : ∀ address, b.delta.data[address]? ≠ none → address = tx.dapp
  volumes : ∀ id, b.delta.volumes[id]? ≠ none → view.asset id ≠ none
  touched : ∀ address, b.delta.Touches address → b.Concerns tx address

theorem Batch.confined_empty (hpositive : ∀ p ∈ tx.payments, 0 < p.amount) :
    Batch.Confined {} view tx where
  others address _ _ asset := Int.le_refl 0
  sender _ asset := by
    have hnonneg := paidIn_nonneg hpositive asset
    show -paidIn tx.payments asset ≤ 0
    omega
  data address h := absurd Std.ExtTreeMap.getElem?_empty h
  volumes id h := absurd Std.ExtTreeMap.getElem?_empty h
  touched address h := absurd h (Delta.not_touches_empty address)

/-- **Batches are confined**: the payments move what the sender hands over, and
    every action after them takes from the DApp alone. -/
theorem Batch.confined_of_applyBatch {actions : List Action}
    (hpositive : ∀ p ∈ tx.payments, 0 < p.amount)
    (h : applyBatch view evaluator tx actions = .ok b) : b.Confined view tx := by
  obtain ⟨b₁, hpayments, hactions⟩ := applyBatch_eq_ok h
  have hpaid := balanceChange_of_pays hpositive hpayments
  have hzero : ∀ address asset,
      ((({} : Batch).delta.balanceChange address asset).toInt = 0) := fun _ _ => rfl
  -- no action takes back what an account other than the DApp has after the payments
  have hlater : ∀ address, address ≠ tx.dapp → ∀ asset,
      (b₁.delta.balanceChange address asset).toInt ≤
        (b.delta.balanceChange address asset).toInt := by
    intro address haddress asset
    refine foldlM_keeps (P := fun b => (b₁.delta.balanceChange address asset).toInt ≤
      (b.delta.balanceChange address asset).toInt) (fun c action c' _ hc hact => ?_)
      (Int.le_refl _) hactions
    exact Int.le_trans hc (balanceChange_le_of_act hact haddress asset)
  have hconcerned : ∀ address, b₁.delta.Touches address → b₁.Concerns tx address := by
    refine foldlM_keeps (P := fun b => ∀ address, b.delta.Touches address → b.Concerns tx address)
      (fun c p c' _ hc hpay address htouched => ?_)
      (fun address htouched => absurd htouched (Delta.not_touches_empty address)) hpayments
    obtain ⟨-, hmoves, hresult⟩ := Batch.pay_eq_ok hpay
    rcases Delta.touches_of_moves hmoves htouched with hbefore | hsender | hdapp
    · have hconcerns := hc address hbefore
      unfold Concerns at hconcerns ⊢
      rwa [hresult]
    · exact .inl hsender
    · exact .inr (.inl hdapp)
  refine ⟨?_, ?_, ?_, ?_, ?_⟩
  · intro address hsender hdapp asset
    have hsum := hpaid address asset
    rw [hzero, if_neg hsender, if_neg hdapp] at hsum
    have hle := hlater address hdapp asset
    omega
  · intro hne asset
    have hsum := hpaid tx.sender asset
    rw [hzero, if_pos rfl, if_neg hne] at hsum
    have hle := hlater tx.sender hne asset
    omega
  · intro address
    refine applyBatch_keeps (P := fun d => d.data[address]? ≠ none → address = tx.dapp) ?_ ?_ h
    · exact fun hempty => absurd Std.ExtTreeMap.getElem?_empty hempty
    · intro d d' heffect hd hd'
      exact (data_of_effect heffect hd').elim hd id
  · intro id
    refine applyBatch_keeps (P := fun d => d.volumes[id]? ≠ none → view.asset id ≠ none) ?_ ?_ h
    · exact fun hempty => absurd Std.ExtTreeMap.getElem?_empty hempty
    · intro d d' heffect hd hd'
      exact (volumes_of_effect heffect hd').elim hd fun hknown => hknown
  · exact foldlM_keeps
      (P := fun b => ∀ address, b.delta.Touches address → b.Concerns tx address)
      (fun c action c' _ hc hact address htouched => concerns_of_act hact hc htouched)
      hconcerned hactions

/-! ## Section 5: Transactions -/

/-- The transaction, which takes a step of `owner`, takes value from the sender
    and the DApp alone, writes under its own names alone, and names in its record
    every account whose balances or data it touches. -/
structure StepResult.Confined (r : StepResult) (v : View) (t : Transaction)
    (owner : Invocation) : Prop where
  others : ∀ address, address ≠ owner.sender → address ≠ owner.dapp → ∀ asset,
    0 ≤ (r.delta.balanceChange address asset).toInt
  /-- The sender loses at most the fee and what it hands over. -/
  sender : owner.sender ≠ owner.dapp → ∀ asset,
    -((if asset = .native then (r.fee.toNat : Int) else 0) + paidIn owner.payments asset) ≤
      (r.delta.balanceChange owner.sender asset).toInt
  data : ∀ address, r.delta.data[address]? ≠ none → address = owner.dapp
  volumes : ∀ id, r.delta.volumes[id]? ≠ none → v.asset id ≠ none
  recorded : ∃ record, r.delta.records[t.id]? = some record ∧
    ∀ address, r.delta.Touches address → address ∈ record.affected
  /-- When the invocation has ended, its own record names the accounts as well. -/
  ended : r.status ≠ .inProgress → ∃ record,
    (v.stack r.delta).record owner.id = some record ∧ record.tx = .invocation owner ∧
      ∀ address, r.delta.Touches address → address ∈ record.affected
  records : ∀ id, r.delta.records[id]? ≠ none → id = t.id
  /-- Only records of the invocation and of its earlier continuations are rewritten. -/
  rewritten : ∀ id, r.delta.rewritten[id]? ≠ none → ∃ c record, t = .continuation c ∧
    v.record c.invocation = some record ∧ (id = owner.id ∨ id ∈ record.continuations)
  progress : ∀ id, r.delta.progress[id]? ≠ none → id = owner.id
  results : ∀ id, r.delta.results[id]? ≠ none → id = owner.id

namespace Step

variable {s : Step} {status : Status} {mark : Progress} {result : Option ScriptResult}
  {t : Transaction}

theorem confined_of_applies (hpositive : ∀ p ∈ s.invocation.payments, 0 < p.amount)
    (h : s.Applies view evaluator status b mark result) : b.Confined view s.invocation := by
  cases h with
  | suspended => exact Batch.confined_empty hpositive
  | failed => exact Batch.confined_empty hpositive
  | succeeded hbatch => exact Batch.confined_of_applyBatch hpositive hbatch

/-- The accounts that a batch concerns are those that the step names. -/
theorem mem_affected {address : Address} (h : b.Concerns s.invocation address) :
    address ∈ s.affected b := by
  rw [affected, Std.ExtTreeSet.mem_insertMany_list, parties, Std.ExtTreeSet.mem_insertMany_list]
  rcases h with rfl | rfl | ⟨t, ht, rfl⟩
  · simp
  · simp
  · right
    simpa using ⟨t, ht, rfl⟩

theorem newRecord_affected (s : Step) (view : View) (status : Status) (fee : UInt64)
    (affected : SortedSet Address) :
    (s.newRecord view status fee affected).affected = affected := by
  unfold newRecord
  cases s.origin <;> rfl

/-- The record of an invocation that has ended names the accounts that its last
    step affects. -/
theorem record_of_ended {r : StepResult} {affected : SortedSet Address} (htakes : s.Takes view t)
    (hcloses : s.Closes view r affected mark result) (hstatus : r.status ≠ .inProgress) :
    ∃ record, (view.stack r.delta).record s.invocation.id = some record ∧
      record.tx = .invocation s.invocation ∧
      ∀ address, address ∈ affected → address ∈ record.affected := by
  cases htakes with
  | first _ _ horigin =>
    have htx : s.tx = .invocation s.invocation := by rw [Step.tx, horigin]
    have hid : s.invocation.id = s.tx.id := by
      rw [htx]
      rfl
    refine ⟨s.newRecord view r.status r.fee affected, ?_, ?_, ?_⟩
    · show ((r.delta.rewritten[s.invocation.id]?.or r.delta.records[s.invocation.id]?).or _) = _
      rw [hcloses.rewritten, getElem?_rewrittenRecords_first horigin, hcloses.records, if_pos hid]
      rfl
    · rw [newRecord_tx, htx]
    · intro address haddress
      rwa [newRecord_affected]
  | @later tx a hadmitted hinvocation horigin =>
    refine ⟨a.record.join tx.id r.status affected, ?_, ?_, ?_⟩
    · show ((r.delta.rewritten[s.invocation.id]?.or r.delta.records[s.invocation.id]?).or _) = _
      rw [hcloses.rewritten, getElem?_rewrittenRecords_later horigin, if_pos rfl]
      rfl
    · rw [Record.tx_join, hadmitted.invocation, hinvocation]
    · intro address haddress
      unfold Record.join
      rw [if_neg hstatus]
      exact Std.ExtTreeSet.mem_union_of_right haddress

/-- Only a continuation rewrites records: that of its invocation, and those of the
    continuations listed there. -/
theorem rewritten_of_takes {r : StepResult} {affected : SortedSet Address}
    (htakes : s.Takes view t) (hcloses : s.Closes view r affected mark result) {id : TxId}
    (hid : r.delta.rewritten[id]? ≠ none) : ∃ c record, t = .continuation c ∧
      view.record c.invocation = some record ∧
        (id = s.invocation.id ∨ id ∈ record.continuations) := by
  rw [hcloses.rewritten] at hid
  cases htakes with
  | first _ _ horigin => exact absurd (getElem?_rewrittenRecords_first horigin id) hid
  | @later tx a hadmitted hinvocation horigin =>
    refine ⟨tx, a.record, rfl, hadmitted.known, ?_⟩
    by_contra hother
    push Not at hother
    rw [getElem?_rewrittenRecords_later horigin, if_neg hother.1,
      if_neg fun hlisted => hother.2 hlisted.2] at hid
    exact hid rfl

/-- Besides what the batch takes from the sender, the step takes its fee. -/
theorem sender_of_adds {tx : Invocation} {fee : UInt64} {d : Delta} (hbatch : b.Confined view tx)
    (hadds : d.Adds tx.sender b.delta (Amount.ofFee fee).toInt) (hne : tx.sender ≠ tx.dapp)
    (asset : Asset) :
    -((if asset = .native then (fee.toNat : Int) else 0) + paidIn tx.payments asset) ≤
      (d.balanceChange tx.sender asset).toInt := by
  have hpaid := hbatch.sender hne asset
  have hcut : (Amount.ofFee fee).toInt ≤ (fee.toNat : Int) := by
    rw [Amount.toInt_ofFee_eq_min]
    exact Int.min_le_left _ _
  rw [hadds.balance]
  by_cases hnative : asset = .native
  · simp only [hnative, and_self, if_true] at hpaid ⊢
    omega
  · simp only [hnative, and_false, if_false]
    omega

/-- **Every ending is confined**: it adds a fee to a batch that is. -/
theorem confined_of_ends {r : StepResult} (hpositive : ∀ p ∈ s.invocation.payments, 0 < p.amount)
    (htakes : s.Takes view t) (h : s.Ends view evaluator r) : r.Confined view t s.invocation := by
  obtain ⟨status, fee, b, changes, mark, result, happlies, hchanges, rfl⟩ := applies_of_ends h
  have hcloses := closes_of_applies happlies hchanges
  have hbatch := confined_of_applies hpositive happlies
  have hadds := Delta.adds_of_merge (Delta.adds_charge s.invocation.sender fee)
    (Delta.adds_self b.delta _) hchanges
  rw [Int.add_zero] at hadds
  have hrecord := hcloses.records t.id
  rw [tx_of_takes htakes, if_pos rfl] at hrecord
  have haffected : ∀ address, changes.Touches address → address ∈ s.affected b := by
    intro address htouches
    rcases Delta.touches_of_merge hchanges htouches with hcharge | hbatch'
    · exact mem_affected (.inl (Delta.eq_of_touches_balance hcharge))
    · exact mem_affected (hbatch.touched address hbatch')
  exact {
    others := by
      intro address hsender hdapp asset
      show 0 ≤ (changes.balanceChange address asset).toInt
      rw [hadds.balance, if_neg fun hpayer => hsender hpayer.1, Int.sub_zero]
      exact hbatch.others address hsender hdapp asset
    sender := by
      intro hne asset
      have hpaid := sender_of_adds hbatch hadds hne asset
      exact hpaid
    data := by
      intro address hdata
      have hwritten : changes.data[address]? ≠ none := hdata
      rw [hadds.data] at hwritten
      exact hbatch.data address hwritten
    volumes := by
      intro id hvolume
      have hchanged : changes.volumes[id]? ≠ none := hvolume
      rw [hadds.volumes] at hchanged
      exact hbatch.volumes id hchanged
    recorded := by
      refine ⟨_, hrecord, fun address htouches => ?_⟩
      rw [newRecord_affected]
      exact haffected address htouches
    ended := by
      intro hstatus
      obtain ⟨record, hrecord, htx, hnamed⟩ := record_of_ended htakes hcloses hstatus
      exact ⟨record, hrecord, htx, fun address htouches =>
        hnamed address (haffected address htouches)⟩
    records := by
      intro id hid
      have hsame := SortedMap.eq_of_single hcloses.records hid
      rwa [tx_of_takes htakes] at hsame
    rewritten := fun id hid => rewritten_of_takes htakes hcloses hid
    progress := fun id hid => SortedMap.eq_of_single hcloses.progress hid
    results := fun id hid => SortedMap.eq_of_single hcloses.results hid }

end Step

/-- **An invocation takes value only from its sender and its DApp.** Whatever the
    evaluator answers, every accepted transaction is confined to the invocation
    that it begins or carries on. -/
theorem transition_is_confined {t : Transaction} {r : StepResult}
    (hview : view.PositivePayments) (h : transition evaluator view t = .ok r) :
    ∃ owner, t.owner view = some owner ∧ r.Confined view t owner := by
  obtain ⟨s, htakes, hends⟩ := step_of_transition h
  have hpositive := Step.positive_of_takes hview htakes
  exact ⟨s.invocation, owner_of_takes htakes, Step.confined_of_ends hpositive htakes hends⟩

theorem View.positivePayments_withPending {v : View} (hv : v.PositivePayments)
    (hpositive : ∀ p ∈ tx.payments, 0 < p.amount) (rest : Expr) (unused : UInt64) :
    (v.withPending tx rest unused).PositivePayments := by
  intro id record owner hrecord howner
  by_cases hid : id = tx.id
  · simp only [withPending, hid, if_true, Option.some.injEq] at hrecord
    rw [← hrecord] at howner
    obtain rfl := Transaction.invocation.inj howner
    exact hpositive
  · simp only [withPending, hid, if_false] at hrecord
    exact hv id record owner hrecord howner

/-- The last step of an invocation that hands over 4 and whose callable passes 3
    of that on: the sender loses the fee and the 4. -/
theorem transition_is_confined_of_transfer :
    let owner : Invocation :=
      ⟨.fill 7, .fill 1, .fill 2, ⟨"", []⟩, [⟨.native, 4⟩], 900000, 0⟩
    let rest : Expr := .const (.list
      [.action (.transfer (.fill 3) .native 3), .action (.data "key" (.int 1))])
    let view := (View.fresh ⟨.v3, ∅, none⟩ 2000000).withPending owner rest 0
    let tx : Continuation := ⟨.fill 8, owner.id, 0, 900000, 0⟩
    ∃ r, transition Script.evaluate view (.continuation tx) = .ok r ∧ r.status = .succeeded ∧
      r.delta.balanceChange (.fill 3) .native = 3 ∧
      r.delta.balanceChange (.fill 1) .native = -900004 ∧
      r.Confined view (.continuation tx) owner := by
  intro owner rest view tx
  have hrun : (transition Script.evaluate view (.continuation tx)).toOption.map
      (fun r => (r.status, r.delta.balanceChange (.fill 3) .native,
        r.delta.balanceChange (.fill 1) .native)) = some (.succeeded, 3, -900004) := by
    decide +kernel
  obtain ⟨r, hr, hrun⟩ := exists_eq_ok_of_map hrun
  simp only [Prod.mk.injEq] at hrun
  obtain ⟨hstatus, hrecipient, hsender⟩ := hrun
  have hfresh : (View.fresh ⟨.v3, ∅, none⟩ 2000000).PositivePayments := by
    intro id record tx hrecord
    exact nomatch hrecord
  have hpositive : ∀ p ∈ owner.payments, 0 < p.amount := by decide
  have hview := View.positivePayments_withPending hfresh hpositive rest 0
  obtain ⟨owner', howner, hconfined⟩ := transition_is_confined hview hr
  obtain rfl : owner = owner' := Option.some.inj howner
  exact ⟨r, hr, hstatus, hrecipient, hsender, hconfined⟩

end

end MeteredLedger

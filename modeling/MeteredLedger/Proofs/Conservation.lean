import Mathlib.Algebra.BigOperators.Ring.Finset
import Mathlib.Data.Fintype.Vector
import MeteredLedger.Proofs.Blocks

/-! # Conservation of value

    A block creates and destroys nothing except what its deltas say. What one
    account pays another receives, fees included, and the amount of an issued
    asset changes by what the volume of the asset changes.

    * `Delta.total`: the changes of an asset summed over all accounts.
    * `Delta.Balanced`: the sums are those of a delta that takes a fee out of
      circulation and else only moves, issues and burns.
    * `balanced_of_ends`: every ending of a step is balanced by its fee.
    * `accounted_of_transition`: so is every transaction of a block.
    * `block_conserves_value`: over a block everything adds up. -/

namespace MeteredLedger

open Script (Evaluator)

/-! ## Section 1: Sums over all accounts -/

instance : Finite Bytes32 := by
  have hbytes : Finite UInt8 := Finite.of_injective UInt8.toFin fun _ _ h => UInt8.toFin_inj.1 h
  have : Fintype UInt8 := Fintype.ofFinite UInt8
  exact Finite.of_injective (β := List.Vector UInt8 32) (fun a => ⟨a.bytes, a.length_bytes⟩)
    fun _ _ h => Bytes32.ext (congrArg Subtype.val h)

noncomputable instance : Fintype Bytes32 := Fintype.ofFinite Bytes32

namespace Delta

/-- The changes of the balances in an asset, summed over all accounts. -/
noncomputable def total (d : Delta) (asset : Asset) : Int :=
  ∑ address : Address, (d.balanceChange address asset).toInt

theorem total_of_portfolios_empty {d : Delta} (h : d.portfolios = ∅) (asset : Asset) :
    d.total asset = 0 := by
  simp [total, balanceChange, h]

theorem total_balance (address : Address) (asset asset' : Asset) (amount : Amount) :
    (balance address asset amount).total asset' = if asset' = asset then amount.toInt else 0 := by
  unfold total
  by_cases hasset : asset' = asset
  · simp [balanceChange_balance, hasset, apply_ite Int64.toInt]
  · simp [balanceChange_balance, hasset]

theorem total_of_merge {a b d : Delta} (h : a.merge b = .ok d) (asset : Asset) :
    d.total asset = a.total asset + b.total asset := by
  unfold total
  rw [← Finset.sum_add_distrib]
  exact Finset.sum_congr rfl fun address _ => toInt_balanceChange_of_merge h address asset

theorem netChange_of_merge {a b d : Delta} (h : a.merge b = .ok d) (asset : AssetId) :
    d.netChange asset = a.netChange asset + b.netChange asset :=
  SortedMap.sum_of_tryMerge (g := fun o => (o.map VolumeChange.netChange).getD 0)
    (merge_eq_ok_iff.1 h).2.2.1 asset rfl
    fun _ _ _ hmerge => VolumeChange.netChange_of_merge (mergeVolume_eq_ok_iff.1 hmerge)

theorem netChange_volume (asset asset' : AssetId) (change : VolumeChange) :
    (volume asset change).netChange asset' = if asset' = asset then change.netChange else 0 := by
  by_cases hasset : asset = asset'
  · simp [netChange, volume, hasset]
  · simp [netChange, volume, hasset, Ne.symm hasset]

theorem total_volume (asset : AssetId) (change : VolumeChange) (asset' : Asset) :
    (volume asset change).total asset' = 0 :=
  total_of_portfolios_empty rfl asset'

theorem netChange_of_volumes_empty {d : Delta} (h : d.volumes = ∅) (asset : AssetId) :
    d.netChange asset = 0 := by
  simp [netChange, h]

theorem netChange_balance (address : Address) (asset : Asset) (amount : Amount)
    (asset' : AssetId) : (balance address asset amount).netChange asset' = 0 :=
  netChange_of_volumes_empty rfl asset'

/-- Moving an amount changes no volume. -/
theorem netChange_of_moves {d d' : Delta} {asset : Asset} {amount : Amount}
    {payer payee : Address} (h : d.Moves asset amount payer payee d') (asset' : AssetId) :
    d'.netChange asset' = d.netChange asset' := by
  obtain ⟨d₁, h₁, h₂⟩ := h
  rw [netChange_of_merge h₂, netChange_of_merge h₁, netChange_balance, netChange_balance]
  omega

theorem netChange_of_adjusts {d d' : Delta} {asset : AssetId} {holder : Address} {amount : Amount}
    {change : VolumeChange} (h : d.Adjusts asset holder amount change d') (asset' : AssetId) :
    d'.netChange asset' = d.netChange asset' + if asset' = asset then change.netChange else 0 := by
  obtain ⟨d₁, h₁, h₂⟩ := h
  rw [netChange_of_merge h₂, netChange_of_merge h₁, netChange_volume, netChange_balance]
  omega

/-! ## Section 2: Balanced deltas -/

/-- A delta that takes `paid` of the native token out of circulation and changes
    the balances in an issued asset by what the volume changes. -/
structure Balanced (d : Delta) (paid : Int) : Prop where
  native : d.total .native = -paid
  issued : ∀ asset, d.total (.issued asset) = d.netChange asset

theorem balanced_of_merge {a b d : Delta} {p q : Int} (ha : a.Balanced p) (hb : b.Balanced q)
    (h : a.merge b = .ok d) : d.Balanced (p + q) where
  native := by
    rw [total_of_merge h, ha.native, hb.native]
    omega
  issued asset := by
    rw [total_of_merge h, netChange_of_merge h, ha.issued, hb.issued]

theorem balanced_empty : empty.Balanced 0 where
  native := total_of_portfolios_empty rfl _
  issued asset := by
    rw [total_of_portfolios_empty rfl, netChange_of_volumes_empty rfl]

/-- Data entries have no part in the sums. -/
theorem balanced_entry (address : Address) (key : String) (value : Script.DataValue) :
    (entry address key value).Balanced 0 where
  native := total_of_portfolios_empty rfl _
  issued asset := by
    rw [total_of_portfolios_empty rfl, netChange_of_volumes_empty rfl]

/-- A single change of a native balance is balanced by what it takes away. -/
theorem balanced_balance_native (address : Address) (amount : Amount) :
    (balance address .native amount).Balanced (-amount.toInt) where
  native := by simp [total_balance]
  issued asset := by
    rw [total_balance, netChange_balance, if_neg nofun]

/-- Moving an amount between accounts keeps the sums, as long as the amount can
    be negated. -/
theorem balanced_of_moves {d d' : Delta} {asset : Asset} {amount : Amount}
    {payer payee : Address} {paid : Int} (hamount : 0 ≤ amount) (hd : d.Balanced paid)
    (h : d.Moves asset amount payer payee d') : d'.Balanced paid := by
  have hnet := netChange_of_moves h
  obtain ⟨d₁, h₁, h₂⟩ := h
  -- the least amount has no negative; it is the only one that would not balance
  have hneg := Amount.toInt_neg_of_nonneg hamount
  have htotal : ∀ x, d'.total x = d.total x := fun x => by
    rw [total_of_merge h₂, total_of_merge h₁, total_balance, total_balance, hneg]
    split <;> omega
  exact {
    native := by rw [htotal, hd.native]
    issued := fun x => by rw [htotal, hnet, hd.issued] }

/-- Issuing and burning change the sums as they change the volume. -/
theorem balanced_of_adjusts {d d' : Delta} {asset : AssetId} {holder : Address} {amount : Amount}
    {change : VolumeChange} {paid : Int} (hamount : amount.toInt = change.netChange)
    (hd : d.Balanced paid) (h : d.Adjusts asset holder amount change d') : d'.Balanced paid := by
  have hnet := netChange_of_adjusts h
  obtain ⟨d₁, h₁, h₂⟩ := h
  have htotal : ∀ x, d'.total x = d.total x + if x = .issued asset then amount.toInt else 0 :=
    fun x => by
      rw [total_of_merge h₂, total_of_merge h₁, total_balance, total_volume]
      omega
  exact {
    native := by rw [htotal, hd.native, if_neg nofun]; omega
    issued := fun x => by rw [htotal, hnet, hd.issued, hamount]; simp }

end Delta

/-! ## Section 3: Batches and steps -/

/-- Every payment and every action keeps the sums. -/
theorem balanced_of_effect {view : View} {tx : Invocation}
    (hpositive : ∀ p ∈ tx.payments, 0 < p.amount) {d d' : Delta} (h : Effect view tx d d')
    (hd : d.Balanced 0) : d'.Balanced 0 := by
  -- payments and transfers move an amount, issuing and burning change a volume
  cases h with
  | payment hp _ hmoves =>
    exact Delta.balanced_of_moves (Int64.le_of_lt (hpositive _ hp)) hd hmoves
  | data hmerge =>
    have hsum := Delta.balanced_of_merge hd (Delta.balanced_entry _ _ _) hmerge
    simpa using hsum
  | transfer hamount _ _ hmoves => exact Delta.balanced_of_moves hamount hd hmoves
  | reissue _ _ hadjusts => exact Delta.balanced_of_adjusts rfl hd hadjusts
  | burn hamount _ hadjusts =>
    exact Delta.balanced_of_adjusts (Amount.toInt_neg_of_nonneg hamount) hd hadjusts

theorem balanced_of_applyBatch {view : View} {evaluator : Evaluator} {tx : Invocation}
    {actions : List Script.Action} {b : Batch} (hpositive : ∀ p ∈ tx.payments, 0 < p.amount)
    (h : applyBatch view evaluator tx actions = .ok b) : b.delta.Balanced 0 :=
  applyBatch_keeps Delta.balanced_empty (fun _ _ heffect => balanced_of_effect hpositive heffect) h

/-- A fee leaves the account that pays it and arrives nowhere yet. -/
theorem balanced_charge (payer : Address) (fee : UInt64) :
    (charge payer fee).Balanced (Amount.ofFee fee).toInt := by
  have hsum := Delta.balanced_balance_native payer (-Amount.ofFee fee)
  rw [Amount.toInt_neg_of_nonneg (Amount.ofFee_nonneg fee), Int.neg_neg] at hsum
  exact hsum

/-- Closing a step adds records, progress and a result, none of which has a
    part in the sums. -/
theorem Step.balanced_close {s : Step} {view : View} {changes : Delta} {status : Status}
    {fee : UInt64} {affected : SortedSet Address} {progress : Progress}
    {result : Option ScriptResult} {paid : Int} (h : changes.Balanced paid) :
    (s.close view changes status fee affected progress result).delta.Balanced paid :=
  ⟨h.native, h.issued⟩

/-- **A step is balanced by its fee**, however it ends. -/
theorem Step.balanced_of_ends {view : View} {evaluator : Evaluator} {s : Step} {r : StepResult}
    (hpositive : ∀ p ∈ s.invocation.payments, 0 < p.amount) (h : s.Ends view evaluator r) :
    r.delta.Balanced (Amount.ofFee r.fee).toInt := by
  cases h with
  | suspended => exact balanced_close (balanced_charge _ _)
  | failed => exact balanced_close (balanced_charge _ _)
  | succeeded hbatch hsucceed =>
    obtain ⟨fee, changes, -, hchanges, -, rfl⟩ := succeed_eq_ok hsucceed
    have hdelta := balanced_of_applyBatch hpositive hbatch
    have hsum := Delta.balanced_of_merge (balanced_charge _ fee) hdelta hchanges
    rw [Int.add_zero] at hsum
    exact balanced_close hsum

/-! ## Section 4: Blocks -/

/-- Every invocation that the view remembers pays positive amounts. -/
def View.PositivePayments (v : View) : Prop :=
  ∀ id record tx, v.record id = some record → record.tx = .invocation tx →
    ∀ p ∈ tx.payments, 0 < p.amount

/-- The payments of the invocation of a step are positive: those of a new
    invocation are checked, and those of an older one are remembered. -/
theorem Step.positive_of_takes {view : View} {s : Step} {tx : Transaction}
    (hview : view.PositivePayments) (h : s.Takes view tx) :
    ∀ p ∈ s.invocation.payments, 0 < p.amount := by
  cases h with
  | first hadmitted hinvocation _ =>
    rw [hinvocation]
    exact hadmitted.positive
  | later hadmitted hinvocation _ =>
    rw [hinvocation]
    exact hview _ _ _ hadmitted.known hadmitted.invocation

theorem positivePayments_of_transition {evaluator : Evaluator} {view : View} {tx : Transaction}
    {r : StepResult} (hview : view.PositivePayments) (h : transition evaluator view tx = .ok r) :
    (view.stack r.delta).PositivePayments := by
  obtain ⟨s, htakes, hends⟩ := step_of_transition h
  have hpositive := Step.positive_of_takes hview htakes
  -- a rewritten record keeps its transaction, so only the new one has to be looked at
  intro id record tx' hrecord htx
  obtain htx' | ⟨id', record', hrecord', htx'⟩ := Step.tx_of_record_stack htakes hends hrecord
  · -- the record is that of the step, which is an invocation only if it is the first
    obtain rfl : s.invocation = tx' := Step.invocation_of_tx (htx'.symm.trans htx)
    exact hpositive
  · exact hview id' record' tx' hrecord' (htx'.trans htx)

theorem View.positivePayments_of_sameHistory {v w : View} (h : v.SameHistory w)
    (hv : v.PositivePayments) : w.PositivePayments := fun id record tx hrecord =>
  hv id record tx (h.record ▸ hrecord)

theorem positivePayments_of_merge {evaluator : Evaluator} {view : View} {d d' : Delta}
    {tx : Transaction} {r : StepResult} (hd : (view.stack d).PositivePayments)
    (h : transition evaluator (view.stack d) tx = .ok r) (hmerge : d.merge r.delta = .ok d') :
    (view.stack d').PositivePayments := by
  have hhistory := sameHistory_of_transition h hmerge
  have hstacked := positivePayments_of_transition hd h
  exact View.positivePayments_of_sameHistory hhistory.symm hstacked

/-- What is kept of a block while its transactions are applied: the fees so far
    are all that is missing, as long as they are an amount. -/
structure Delta.Accounted (d : Delta) (view : View) (fee : UInt64) : Prop where
  positive : (view.stack d).PositivePayments
  balanced : (fee.toNat : Int) ≤ Amount.greatest → d.Balanced fee.toNat

theorem Delta.accounted_empty {view : View} (hview : view.PositivePayments) :
    empty.Accounted view 0 where
  positive := View.positivePayments_of_sameHistory (View.sameHistory_stack_empty view).symm hview
  balanced _ := balanced_empty

/-- **One more transaction** adds its fee to what is missing. -/
theorem Delta.accounted_of_transition {evaluator : Evaluator} {view : View} {d d' : Delta}
    {fee : UInt64} {tx : Transaction} {r : StepResult} (hd : d.Accounted view fee)
    (h : transition evaluator (view.stack d) tx = .ok r) (hmerge : d.merge r.delta = .ok d') :
    d'.Accounted view (saturate64 (fee.toNat + r.fee.toNat)) where
  positive := positivePayments_of_merge hd.positive h hmerge
  balanced := by
    intro hsum
    -- a sum of fees that is an amount has not been cut off
    rw [toNat_saturate64] at hsum ⊢
    have hexact : min (fee.toNat + r.fee.toNat) (UInt64.size - 1) = fee.toNat + r.fee.toNat := by
      unfold Amount.greatest at hsum
      simp only [UInt64.size] at hsum ⊢
      omega
    rw [hexact] at hsum ⊢
    obtain ⟨s, htakes, hends⟩ := step_of_transition h
    have hpositive := Step.positive_of_takes hd.positive htakes
    have hbalanced := Step.balanced_of_ends hpositive hends
    rw [Amount.toInt_ofFee (by omega)] at hbalanced
    rw [Int.natCast_add]
    exact balanced_of_merge (hd.balanced (by omega)) hbalanced hmerge

/-- **Conservation of value**: over a block the changes of the native balances
    add up to nothing, the fees included, and the changes of the balances in an
    issued asset add up to what the block adds to the volume of the asset. -/
theorem block_conserves_value {evaluator : Evaluator} {view : View} {txs : List Transaction}
    {b : BlockResult} (hview : view.PositivePayments)
    (h : transitionBlock evaluator view txs = .ok b)
    (hfee : (b.totalFee.toNat : Int) ≤ Amount.greatest) :
    b.delta.total .native = 0 ∧
      ∀ asset, b.delta.total (.issued asset) = b.delta.netChange asset := by
  obtain ⟨d, hd, hmerge⟩ := transitionBlock_keeps (P := fun d fee => d.Accounted view fee)
    (Delta.accounted_empty hview)
    (fun _ _ _ _ _ _ hd htransition hmerge => Delta.accounted_of_transition hd htransition hmerge) h
  -- what the transactions have taken out of circulation is put back as the reward
  have hreward := Delta.balanced_balance_native view.header.generator (.ofFee b.totalFee)
  rw [Amount.toInt_ofFee hfee] at hreward
  have htotal := Delta.balanced_of_merge (hd.balanced hfee) hreward hmerge
  refine ⟨?_, htotal.issued⟩
  rw [htotal.native]
  omega

/-- A block with one invocation that pays the DApp, which passes a part of it on
    and issues 5 of an asset. -/
theorem block_conserves_value_of_reissue :
    let asset : AssetId := .fill 9
    let dapp : Address := .fill 2
    let view := { View.fresh ⟨.v3, ∅, none⟩ 1000000 with
      asset := fun _ => some ⟨dapp, "", 0, true⟩ }
    let tx : Invocation := ⟨.fill 7, .fill 1, dapp, ⟨"", []⟩, [⟨.native, 4⟩], 900000, 0⟩
    let evaluator : Evaluator := fun _ _ => .ok (.completed (.ok (.list
      [.action (.transfer (.fill 3) .native 3), .action (.reissue asset 5 false)])) 0)
    ∃ b, transitionBlock evaluator view [.invocation tx] = .ok b ∧
      b.applied = [(tx.id, .succeeded)] ∧ b.totalFee = 900000 ∧ b.delta.netChange asset = 5 ∧
      b.delta.total .native = 0 ∧
      ∀ asset, b.delta.total (.issued asset) = b.delta.netChange asset := by
  intro asset dapp view tx evaluator
  have hrun : (transitionBlock evaluator view [.invocation tx]).toOption.map
      (fun b => (b.applied, b.totalFee, b.delta.netChange asset)) =
        some ([(tx.id, .succeeded)], 900000, 5) := by decide +kernel
  obtain ⟨b, hblock, hrun⟩ := Option.map_eq_some_iff.1 hrun
  have hb : transitionBlock evaluator view [.invocation tx] = .ok b := toOption_eq_some_iff.1 hblock
  obtain ⟨happlied, hfee, hnet⟩ : b.applied = _ ∧ b.totalFee = _ ∧ b.delta.netChange asset = _ := by
    simpa using hrun
  have hpositive : view.PositivePayments := by
    intro id record tx hrecord
    exact nomatch hrecord
  have hamount : (b.totalFee.toNat : Int) ≤ Amount.greatest := by
    rw [hfee]
    decide
  exact ⟨b, hb, happlied, hfee, hnet, block_conserves_value hpositive hb hamount⟩

end MeteredLedger

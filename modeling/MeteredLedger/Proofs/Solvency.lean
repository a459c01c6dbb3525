import MeteredLedger.Proofs.Blocks

/-! # Solvency

    No account ever comes to owe anything. A step that is suspended or fails
    takes a fee that its sender was seen to hold, and a step that succeeds has
    every balance checked that it changes. Within a block the balances of the
    stacked view are therefore exact, and the deltas of its transactions always
    add up.

    * `View.Covers`: after a delta every balance is an amount, and none is
      negative.
    * `toInt_balance_stack`: stacking a covered delta cuts nothing off.
    * `covers_of_transition`: a solvent view covers what it accepts.
    * `block_stays_solvent`: so it is all through a block. -/

namespace MeteredLedger

open Script (Evaluator)

/-! ## Section 1: Covered deltas -/

/-- No balance is negative. -/
def View.Solvent (v : View) : Prop :=
  ∀ address asset, 0 ≤ (v.balance address asset).toInt

/-- The balance of an account after a delta, as an exact integer. -/
def View.balanceAfter (v : View) (d : Delta) (address : Address) (asset : Asset) : Int :=
  (v.balance address asset).toInt + (d.balanceChange address asset).toInt

/-- After the delta every balance is an amount, and none is negative. -/
def View.Covers (v : View) (d : Delta) : Prop :=
  ∀ address asset,
    0 ≤ v.balanceAfter d address asset ∧ v.balanceAfter d address asset ≤ Amount.greatest

section

variable {v : View} {d r d' : Delta}

/-- Where nothing is out of range, the balances of the stacked view are exact. -/
theorem View.toInt_balance_stack (h : v.Covers d) (address : Address) (asset : Asset) :
    ((v.stack d).balance address asset).toInt = v.balanceAfter d address asset := by
  have hrange := h address asset
  unfold balanceAfter at hrange ⊢
  show (Amount.clamp _).toInt = _
  rw [Amount.toInt_clamp]
  unfold Amount.greatest Amount.least at *
  omega

theorem View.solvent_stack (h : v.Covers d) : (v.stack d).Solvent := by
  intro address asset
  rw [toInt_balance_stack h]
  exact (h address asset).1

theorem View.covers_empty (hv : v.Solvent) : v.Covers .empty := by
  intro address asset
  have hempty : (Delta.empty.balanceChange address asset).toInt = 0 := rfl
  have hnonneg := hv address asset
  have hle := (v.balance address asset).toInt_le_greatest
  unfold balanceAfter
  rw [hempty]
  omega

/-- An account can pay the fees that it holds. -/
theorem View.covers_charge {payer : Address} {fee : UInt64} (hv : v.Solvent)
    (hfunds : (fee.toNat : Int) ≤ (v.balance payer .native).toInt) :
    v.Covers (charge payer fee) := by
  intro address asset
  have hnonneg := hv address asset
  have hle := (v.balance address asset).toInt_le_greatest
  have hpayer := (v.balance payer .native).toInt_le_greatest
  unfold balanceAfter
  rw [charge, Delta.balanceChange_balance]
  by_cases hpaid : address = payer ∧ asset = .native
  · obtain ⟨rfl, rfl⟩ := hpaid
    rw [if_pos ⟨rfl, rfl⟩, Amount.toInt_neg_of_nonneg (Amount.ofFee_nonneg fee),
      Amount.toInt_ofFee (by omega)]
    omega
  · rw [if_neg hpaid]
    show 0 ≤ (v.balance address asset).toInt + 0 ∧ (v.balance address asset).toInt + 0 ≤ _
    omega

/-! ## Section 2: Merging covered deltas -/

theorem View.balanceAfter_of_merge (hd : v.Covers d) (h : d.merge r = .ok d') (address : Address)
    (asset : Asset) :
    v.balanceAfter d' address asset = (v.stack d).balanceAfter r address asset := by
  have hsum := Delta.toInt_balanceChange_of_merge h address asset
  have hexact := toInt_balance_stack hd address asset
  unfold balanceAfter at hexact ⊢
  omega

theorem View.covers_of_merge (hd : v.Covers d) (hr : (v.stack d).Covers r)
    (h : d.merge r = .ok d') : v.Covers d' := by
  intro address asset
  rw [balanceAfter_of_merge hd h]
  exact hr address asset

/-- The sum of the two changes is the difference of two balances, which is always
    an amount. -/
theorem View.merge_ne_balance_overflow (hv : v.Solvent) (hd : v.Covers d)
    (hr : (v.stack d).Covers r) (address : Address) (asset : Asset) :
    d.merge r ≠ .error (.balance address asset) := by
  intro herror
  have hnone := Delta.add?_balanceChange_of_merge_eq_error herror
  have hbefore := hv address asset
  have hexact := toInt_balance_stack hd address asset
  have hafter := hr address asset
  have hle := (v.balance address asset).toInt_le_greatest
  unfold balanceAfter at hexact hafter
  rw [Amount.add?_eq_none_iff] at hnone
  unfold Amount.least Amount.greatest at *
  omega

/-! ## Section 3: Checked balances -/

/-- An amount that a portfolio does not list is zero. -/
theorem Portfolio.mem_entries_or_get_eq_zero (p : Portfolio) (asset : Asset) :
    (asset, p.get asset) ∈ p.entries ∨ p.get asset = 0 := by
  cases asset with
  | native => exact .inl List.mem_cons_self
  | issued id =>
    show _ ∨ p.assets.getD id 0 = 0
    cases hid : p.assets[id]? with
    | none =>
      right
      simp [Std.ExtTreeMap.getD_eq_getD_getElem?, hid]
    | some amount =>
      left
      have hget : p.get (.issued id) = amount := by
        simp [Portfolio.get, Std.ExtTreeMap.getD_eq_getD_getElem?, hid]
      have hlisted := Std.ExtTreeMap.mem_toList_iff_getElem?_eq_some.2 hid
      rw [hget]
      exact List.mem_cons_of_mem _ (List.mem_map.2 ⟨_, hlisted, rfl⟩)

theorem checkBalance_eq_ok {address : Address} {asset : Asset} {change : Amount} {u : Unit}
    (h : checkBalance v address asset change = .ok u) :
    0 ≤ (v.balance address asset).toInt + change.toInt ∧
      (v.balance address asset).toInt + change.toInt ≤ Amount.greatest := by
  unfold checkBalance at h
  split at h
  · exact nomatch h
  · rename_i balance hsum
    split at h
    · exact nomatch h
    · rename_i hnonneg
      have hexact := Amount.add?_eq_some_iff.1 hsum
      have hle := balance.toInt_le_greatest
      rw [Int64.lt_iff_toInt_lt] at hnonneg
      have hzero : (0 : Int64).toInt = 0 := rfl
      omega

/-- What has been checked is covered, and what is not listed does not change. -/
theorem View.covers_of_checkBalances {u : Unit} (hv : v.Solvent)
    (h : checkBalances v d = .ok u) : v.Covers d := by
  intro address asset
  have hnonneg := hv address asset
  have hle := (v.balance address asset).toInt_le_greatest
  have hunchanged : d.balanceChange address asset = 0 → 0 ≤ v.balanceAfter d address asset ∧
      v.balanceAfter d address asset ≤ Amount.greatest := by
    intro hzero
    unfold balanceAfter
    rw [hzero]
    show 0 ≤ _ + (0 : Int) ∧ _ + (0 : Int) ≤ _
    omega
  cases hp : d.portfolios[address]? with
  | none =>
    apply hunchanged
    simp [Delta.balanceChange, hp]
  | some p =>
    have hchange : d.balanceChange address asset = p.get asset := by simp [Delta.balanceChange, hp]
    rcases p.mem_entries_or_get_eq_zero asset with hentry | hzero
    · have hportfolio := Std.ExtTreeMap.mem_toList_iff_getElem?_eq_some.2 hp
      have hchecked := forM_eq_ok_iff.1 (forM_eq_ok_iff.1 h _ hportfolio) _ hentry
      unfold balanceAfter
      rw [hchange]
      exact checkBalance_eq_ok hchecked
    · exact hunchanged (hchange.trans hzero)

end

/-! ## Section 4: Transactions -/

section

variable {evaluator : Evaluator} {v : View} {s : Step} {tx : Transaction} {r : StepResult}

/-- The fee that is known before the evaluation: what an invocation declares, and
    the base fee of a continuation. -/
def Transaction.preCharged (v : View) : Transaction → UInt64
  | .invocation tx => tx.fee
  | .continuation _ => Continuation.baseFee v

/-- A step that does not succeed takes no more than the fee that is known before
    the evaluation, and its sender holds that. -/
theorem Step.fee_le_preCharged (h : s.Takes v tx) (reason : FailureReason) :
    s.suspensionFee v ≤ tx.preCharged v ∧ (s.fail v reason).fee ≤ tx.preCharged v ∧
      ((tx.preCharged v).toNat : Int) ≤ (v.balance s.invocation.sender .native).toInt := by
  cases h with
  | @first tx a hadmitted hinvocation horigin =>
    have hsuspended : s.suspensionFee v = v.settings.fees.minimal .invocation a.prepaid := by
      rw [suspensionFee, horigin]
      rfl
    have hfailed : (s.fail v reason).fee = tx.fee := by
      rw [fail, horigin, hinvocation]
      rfl
    rw [hsuspended, hfailed, hinvocation]
    exact ⟨hadmitted.covered, UInt64.le_refl _, hadmitted.funds⟩
  | @later tx a hadmitted hinvocation horigin =>
    have hsuspended : s.suspensionFee v = Continuation.baseFee v := by rw [suspensionFee, horigin]
    have hfailed : (s.fail v reason).fee = Continuation.baseFee v := by
      rw [fail, horigin]
      rfl
    rw [hsuspended, hfailed, hinvocation]
    exact ⟨UInt64.le_refl _, UInt64.le_refl _, hadmitted.funds⟩

/-- Whatever fee a step takes that does not succeed, its sender holds it. -/
theorem Step.funds_of_takes (h : s.Takes v tx) (reason : FailureReason) :
    ((s.suspensionFee v).toNat : Int) ≤ (v.balance s.invocation.sender .native).toInt ∧
      ((s.fail v reason).fee.toNat : Int) ≤ (v.balance s.invocation.sender .native).toInt := by
  obtain ⟨hsuspended, hfailed, hfunds⟩ := fee_le_preCharged h reason
  rw [UInt64.le_iff_toNat_le] at hsuspended hfailed
  omega

/-- A step that does not succeed only takes its fee, and one that succeeds has
    been checked. -/
theorem Step.covers_of_ends (hv : v.Solvent) (htakes : s.Takes v tx)
    (hends : s.Ends v evaluator r) : v.Covers r.delta := by
  cases hends with
  | suspended =>
    obtain ⟨hfunds, -⟩ := funds_of_takes htakes .complexityLimitExceeded
    exact View.covers_charge hv hfunds
  | @failed reason =>
    obtain ⟨-, hfunds⟩ := funds_of_takes htakes reason
    exact View.covers_charge hv hfunds
  | succeeded hbatch hsucceed =>
    obtain ⟨fee, changes, -, -, hchecked, rfl⟩ := succeed_eq_ok hsucceed
    exact View.covers_of_checkBalances hv hchecked

/-- **What a solvent view accepts, it covers.** -/
theorem covers_of_transition (hv : v.Solvent) (h : transition evaluator v tx = .ok r) :
    v.Covers r.delta := by
  obtain ⟨s, htakes, hends⟩ := step_of_transition h
  exact Step.covers_of_ends hv htakes hends

end

/-! ## Section 5: Blocks -/

section

variable {evaluator : Evaluator} {view : View} {txs : List Transaction} {b b' : BlockResult}
  {tx : Transaction}

/-- What is kept of a block while its transactions are applied. -/
structure BlockResult.Covered (b : BlockResult) (view : View) : Prop where
  covers : view.Covers b.delta
  rejected : ∀ e ∈ b.rejected, ∀ address asset, e.2 ≠ .overflow (.balance address asset)

/-- One more transaction is covered by what those before it have left. -/
theorem BlockResult.covered_of_goes (hview : view.Solvent) (hb : b.Covered view)
    (h : b.Goes evaluator view tx b') : b'.Covered view := by
  obtain ⟨hcovers, hrejected⟩ := hb
  have hsolvent := View.solvent_stack hcovers
  have hreject : ∀ reason, (∀ address asset, reason ≠ .overflow (.balance address asset)) →
      (b.reject tx.id reason).Covered view := by
    intro reason hreason
    have hall := forall_mem_rejected_reject
      (Q := fun reason => ∀ address asset, reason ≠ .overflow (.balance address asset))
      hrejected hreason tx.id
    exact ⟨hcovers, hall⟩
  cases h with
  | applied htransition hmerge =>
    have hcovers' := covers_of_transition hsolvent htransition
    exact ⟨View.covers_of_merge hcovers hcovers' hmerge, hrejected⟩
  | refused htransition hmerge =>
    -- a volume may be at fault here, but no balance is
    have hcovers' := covers_of_transition hsolvent htransition
    apply hreject
    intro address asset hsame
    obtain rfl := Rejection.overflow.inj hsame
    exact View.merge_ne_balance_overflow hview hcovers hcovers' address asset hmerge
  | rejected htransition _ =>
    exact hreject _ fun _ _ => noOverflow_transition tx _ htransition _

theorem BlockResult.covered_of_after (hview : view.Solvent) (h : after evaluator view txs = .ok b) :
    b.Covered view := by
  have hstart : BlockResult.Covered {} view := ⟨View.covers_empty hview, nofun⟩
  exact after_keeps hstart (fun _ _ _ _ hb hgoes => covered_of_goes hview hb hgoes) h

/-- The reward adds to the balance of the generator and to no other. -/
theorem View.balanceAfter_reward {d d' : Delta} {generator : Address} {fee : UInt64}
    (h : d.merge (.balance generator .native (.ofFee fee)) = .ok d') (address : Address)
    (asset : Asset) : view.balanceAfter d' address asset = view.balanceAfter d address asset +
      if address = generator ∧ asset = .native then (Amount.ofFee fee).toInt else 0 := by
  have hsum := Delta.toInt_balanceChange_of_merge h address asset
  rw [Delta.balanceChange_balance] at hsum
  unfold balanceAfter
  split at hsum
  · rename_i hpaid
    rw [if_pos hpaid]
    omega
  · rename_i hpaid
    have hzero : (0 : Amount).toInt = 0 := rfl
    rw [if_neg hpaid]
    omega

/-- **No balance goes negative**: on a solvent view every balance is exact and in
    range after each transaction of a block, none is negative when the fees have
    been paid out, and no transaction is left out because of a balance. -/
theorem block_stays_solvent (hview : view.Solvent)
    (h : transitionBlock evaluator view txs = .ok b) :
    (∀ earlier, earlier <+: txs → ∃ b', BlockResult.after evaluator view earlier = .ok b' ∧
      ∀ address asset, 0 ≤ view.balanceAfter b'.delta address asset ∧
        view.balanceAfter b'.delta address asset ≤ Amount.greatest ∧
        ((view.stack b'.delta).balance address asset).toInt =
          view.balanceAfter b'.delta address asset) ∧
      (∀ address asset, 0 ≤ view.balanceAfter b.delta address asset) ∧
      ∀ id address asset, (id, .overflow (.balance address asset)) ∉ b.rejected := by
  obtain ⟨b₀, d, hafter, hmerge, rfl⟩ := transitionBlock_eq_ok h
  have hb₀ := BlockResult.covered_of_after hview hafter
  refine ⟨?_, ?_, fun id address asset hmem => hb₀.rejected _ hmem address asset rfl⟩
  · intro earlier hearlier
    obtain ⟨b', hb'⟩ := BlockResult.exists_after_of_prefix hearlier hafter
    have hcovers := (BlockResult.covered_of_after hview hb').covers
    refine ⟨b', hb', fun address asset => ?_⟩
    obtain ⟨hnonneg, hle⟩ := hcovers address asset
    exact ⟨hnonneg, hle, View.toInt_balance_stack hcovers address asset⟩
  · intro address asset
    obtain ⟨hnonneg, -⟩ := hb₀.covers address asset
    have hreward := Int64.le_iff_toInt_le.1 (Amount.ofFee_nonneg b₀.totalFee)
    have hzero : (0 : Int64).toInt = 0 := rfl
    show 0 ≤ view.balanceAfter d address asset
    rw [View.balanceAfter_reward hmerge]
    split <;> omega

/-- A block with two invocations of one account, which can pay the first only. -/
theorem block_stays_solvent_of_spent :
    let view := View.fresh ⟨.v3, ∅, none⟩ 1000000
    let tx : Invocation := ⟨.fill 7, .fill 1, .fill 2, ⟨"", []⟩, [], 900000, 0⟩
    let tx' : Invocation := ⟨.fill 8, .fill 1, .fill 2, ⟨"", []⟩, [], 900000, 0⟩
    let evaluator : Evaluator := fun _ _ => .ok (.completed (.ok (.list
      [.action (.transfer (.fill 3) .native 1000000)])) 0)
    ∃ b, transitionBlock evaluator view [.invocation tx, .invocation tx'] = .ok b ∧
      b.applied = [(tx.id, .succeeded)] ∧
      b.rejected = [(tx'.id, .insufficientBalance 100000 900000)] ∧
      (view.stack b.delta).balance (.fill 2) .native = 0 ∧
      ∀ address asset, 0 ≤ view.balanceAfter b.delta address asset := by
  intro view tx tx' evaluator
  have hrun : (transitionBlock evaluator view [.invocation tx, .invocation tx']).toOption.map
      (fun b => (b.applied, b.rejected, (view.stack b.delta).balance (.fill 2) .native)) =
        some ([(tx.id, .succeeded)], [(tx'.id, .insufficientBalance 100000 900000)], 0) := by
    decide +kernel
  obtain ⟨b, hblock, hrun⟩ := Option.map_eq_some_iff.1 hrun
  have hb := toOption_eq_some_iff.1 hblock
  obtain ⟨happlied, hrejected, hspent⟩ : b.applied = _ ∧ b.rejected = _ ∧ _ = _ := by
    simpa using hrun
  have hsolvent : view.Solvent := by
    intro address asset
    show (0 : Int) ≤ 1000000
    decide
  exact ⟨b, hb, happlied, hrejected, hspent, (block_stays_solvent hsolvent hb).2.1⟩

end

end MeteredLedger

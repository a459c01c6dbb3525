import MeteredLedger.Delta.Merge
import MeteredLedger.Step.Batch

/-! # Batches

    What the payments and actions of an invocation add to the delta of a batch.
    Each of them moves an amount from one account to another, or creates or
    destroys an amount in the hands of the DApp together with the volume, or
    writes a data entry; nothing else ever happens in a batch.

    * `View.Knows`, `View.MayReissue`: what the view has to say about an asset
      before an amount of it is moved, destroyed or created.
    * `Effect`: the five ways in which a batch grows.
    * `applyBatch_eq_ok`: a batch that succeeds, as the two runs it consists of.
    * `applyBatch_keeps`: what every effect keeps holds of the delta of every
      batch that succeeds.
    * `error_of_applyBatch`: such a batch reports no error. -/

namespace MeteredLedger

open Script (Action Evaluator)

/-! ## Section 1: What a single operation adds -/

namespace Delta

/-- `d` becomes `d'` when an amount goes from one account to another. -/
def Moves (d : Delta) (asset : Asset) (amount : Amount) (payer payee : Address) (d' : Delta) :
    Prop :=
  ∃ d₁, d.merge (.balance payer asset (-amount)) = .ok d₁ ∧
    d₁.merge (.balance payee asset amount) = .ok d'

/-- `d` becomes `d'` when the balance of an account changes together with the
    volume of the asset. -/
def Adjusts (d : Delta) (asset : AssetId) (holder : Address) (amount : Amount)
    (change : VolumeChange) (d' : Delta) : Prop :=
  ∃ d₁, d.merge (.balance holder (.issued asset) amount) = .ok d₁ ∧
    d₁.merge (.volume asset change) = .ok d'

/-- What a delta adds to the volume of an asset. -/
def netChange (d : Delta) (asset : AssetId) : Int :=
  (d.volumes[asset]?.map (·.netChange)).getD 0

end Delta

/-- The native token is always known, and an issued asset if it is described. -/
def View.Knows (v : View) : Asset → Prop
  | .native => True
  | .issued id => v.asset id ≠ none

/-- After the delta the account may create an amount of the asset: it has issued
    the asset, which has stayed reissuable, and the volume remains an amount. -/
structure View.MayReissue (v : View) (d : Delta) (holder : Address) (asset : AssetId)
    (amount : Amount) : Prop where
  described : ∃ description, v.asset asset = some description ∧ description.issuer = holder ∧
    description.reissuable = true ∧
    description.volume.toInt + d.netChange asset + amount.toInt ≤ Amount.greatest
  pending : (d.volumes[asset]?.bind (·.reissuable?)).getD true = true

namespace Batch

theorem add_eq_ok_iff {b b' : Batch} {change : Delta} :
    b.add change = .ok b' ↔ ∃ d, b.delta.merge change = .ok d ∧ b' = { b with delta := d } := by
  unfold add
  cases b.delta.merge change <;> simp [fail, eq_comm]

theorem move_eq_ok {b b' : Batch} {asset : Asset} {amount : Amount} {payer payee : Address}
    (h : b.move asset amount payer payee = .ok b') :
    b.delta.Moves asset amount payer payee b'.delta ∧ b'.result = b.result := by
  obtain ⟨b₁, h₁, h₂⟩ := bind_eq_ok_iff.1 h
  obtain ⟨d₁, hd₁, rfl⟩ := add_eq_ok_iff.1 h₁
  obtain ⟨d₂, hd₂, rfl⟩ := add_eq_ok_iff.1 h₂
  exact ⟨⟨d₁, hd₁, hd₂⟩, rfl⟩

theorem adjust_eq_ok {b b' : Batch} {asset : AssetId} {holder : Address} {amount : Amount}
    {change : VolumeChange} (h : b.adjust asset holder amount change = .ok b') :
    b.delta.Adjusts asset holder amount change b'.delta ∧ b'.result = b.result := by
  obtain ⟨b₁, h₁, h₂⟩ := bind_eq_ok_iff.1 h
  obtain ⟨d₁, hd₁, rfl⟩ := add_eq_ok_iff.1 h₁
  obtain ⟨d₂, hd₂, rfl⟩ := add_eq_ok_iff.1 h₂
  exact ⟨⟨d₁, hd₁, hd₂⟩, rfl⟩

variable {view : View} {evaluator : Evaluator}

/-- An approval counts a run and changes nothing else. -/
theorem approve_eq_ok {b b' : Batch} {op : Operation}
    (h : b.approve view evaluator op = .ok b') : b'.delta = b.delta ∧ b'.result = b.result := by
  unfold approve at h
  split at h
  · exact Except.ok.inj h ▸ ⟨rfl, rfl⟩
  · dsimp only at h
    split at h
    · exact Except.ok.inj h ▸ ⟨rfl, rfl⟩
    · exact nomatch h

theorem approveMove_eq_ok {b b' : Batch} {kind : OperationKind} {asset : Asset} {amount : Amount}
    {payer payee : Address}
    (h : b.approveMove view evaluator kind asset amount payer payee = .ok b') :
    b'.delta = b.delta ∧ b'.result = b.result := by
  cases asset with
  | native => exact Except.ok.inj h ▸ ⟨rfl, rfl⟩
  | issued id => exact approve_eq_ok h

theorem knows_of_requireKnown {b : Batch} {asset : Asset} {u : Unit}
    (h : b.requireKnown view asset = .ok u) : view.Knows asset := by
  cases asset with
  | native => exact trivial
  | issued id =>
    have hsome := demand_eq_ok_iff.1 h
    exact Option.isSome_iff_ne_none.1 hsome

theorem pay_eq_ok {tx : Invocation} {b b' : Batch} {p : Payment}
    (h : b.pay view evaluator tx p = .ok b') :
    view.Knows p.asset ∧ b.delta.Moves p.asset p.amount tx.sender tx.dapp b'.delta ∧
      b'.result = b.result := by
  obtain ⟨u, hknown, h⟩ := bind_eq_ok_iff.1 h
  obtain ⟨b₁, happrove, hmove⟩ := bind_eq_ok_iff.1 h
  obtain ⟨hdelta, hresult⟩ := approveMove_eq_ok happrove
  obtain ⟨hmoves, hresult'⟩ := move_eq_ok hmove
  exact ⟨knows_of_requireKnown hknown, hdelta ▸ hmoves, hresult'.trans hresult⟩

theorem transfer_eq_ok {dapp recipient : Address} {b b' : Batch} {asset : Asset} {amount : Amount}
    (h : b.transfer view evaluator dapp recipient asset amount = .ok b') :
    0 ≤ amount ∧ recipient ≠ dapp ∧ view.Knows asset ∧
      b.delta.Moves asset amount dapp recipient b'.delta ∧ b'.result = b.result := by
  obtain ⟨hamount, h⟩ := demand_bind_eq_ok_iff.1 h
  obtain ⟨hrecipient, h⟩ := demand_bind_eq_ok_iff.1 h
  obtain ⟨u, hknown, h⟩ := bind_eq_ok_iff.1 h
  obtain ⟨b₁, happrove, hmove⟩ := bind_eq_ok_iff.1 h
  obtain ⟨hdelta, hresult⟩ := approveMove_eq_ok happrove
  obtain ⟨hmoves, hresult'⟩ := move_eq_ok hmove
  exact ⟨of_decide_eq_true hamount, of_decide_eq_true hrecipient, knows_of_requireKnown hknown,
    hdelta ▸ hmoves, hresult'.trans hresult⟩

theorem reissue_eq_ok {dapp : Address} {b b' : Batch} {asset : AssetId} {amount : Amount}
    {reissuable : Bool} (h : b.reissue view evaluator dapp asset amount reissuable = .ok b') :
    0 ≤ amount ∧ view.MayReissue b.delta dapp asset amount ∧
      b.delta.Adjusts asset dapp amount (.reissue amount reissuable) b'.delta ∧
      b'.result = b.result := by
  obtain ⟨hamount, h⟩ := demand_bind_eq_ok_iff.1 h
  obtain ⟨description, hdescription, h⟩ := demandSome_bind_eq_ok_iff.1 h
  obtain ⟨hissuer, h⟩ := demand_bind_eq_ok_iff.1 h
  obtain ⟨hreissuable, h⟩ := demand_bind_eq_ok_iff.1 h
  obtain ⟨hvolume, h⟩ := demand_bind_eq_ok_iff.1 h
  obtain ⟨b₁, happrove, hadjust⟩ := bind_eq_ok_iff.1 h
  obtain ⟨hdelta, hresult⟩ := approve_eq_ok happrove
  obtain ⟨hadjusts, hresult'⟩ := adjust_eq_ok hadjust
  obtain ⟨hdescribed, hpending⟩ := Bool.and_eq_true_iff.1 hreissuable
  have hmay : view.MayReissue b.delta dapp asset amount :=
    ⟨⟨description, hdescription, of_decide_eq_true hissuer, hdescribed, of_decide_eq_true hvolume⟩,
      hpending⟩
  exact ⟨of_decide_eq_true hamount, hmay, hdelta ▸ hadjusts, hresult'.trans hresult⟩

theorem burn_eq_ok {dapp : Address} {b b' : Batch} {asset : AssetId} {amount : Amount}
    (h : b.burn view evaluator dapp asset amount = .ok b') :
    0 ≤ amount ∧ view.Knows (.issued asset) ∧
      b.delta.Adjusts asset dapp (-amount) (.burn amount) b'.delta ∧ b'.result = b.result := by
  obtain ⟨hamount, h⟩ := demand_bind_eq_ok_iff.1 h
  obtain ⟨u, hknown, h⟩ := bind_eq_ok_iff.1 h
  obtain ⟨b₁, happrove, hadjust⟩ := bind_eq_ok_iff.1 h
  obtain ⟨hdelta, hresult⟩ := approve_eq_ok happrove
  obtain ⟨hadjusts, hresult'⟩ := adjust_eq_ok hadjust
  exact ⟨of_decide_eq_true hamount, knows_of_requireKnown hknown, hdelta ▸ hadjusts,
    hresult'.trans hresult⟩

end Batch

/-! ## Section 2: What a batch adds -/

/-- One payment or action of an invocation on a view, as it changes the delta of
    a batch. -/
inductive Effect (view : View) (tx : Invocation) : Delta → Delta → Prop where
  /-- A payment goes from the sender to the DApp. -/
  | payment {d d' p} : p ∈ tx.payments → view.Knows p.asset →
      d.Moves p.asset p.amount tx.sender tx.dapp d' → Effect view tx d d'
  /-- A data entry of the DApp is written. -/
  | data {d d' key value} : d.merge (.entry tx.dapp key value) = .ok d' → Effect view tx d d'
  /-- An amount goes from the DApp to another account. -/
  | transfer {d d' recipient asset amount} : 0 ≤ amount → recipient ≠ tx.dapp →
      view.Knows asset → d.Moves asset amount tx.dapp recipient d' → Effect view tx d d'
  /-- The DApp receives an amount that did not exist before. -/
  | reissue {d d' asset amount reissuable} : 0 ≤ amount →
      view.MayReissue d tx.dapp asset amount →
      d.Adjusts asset tx.dapp amount (.reissue amount reissuable) d' → Effect view tx d d'
  /-- The DApp loses an amount that exists no longer. -/
  | burn {d d' asset amount} : 0 ≤ amount → view.Knows (.issued asset) →
      d.Adjusts asset tx.dapp (-amount) (.burn amount) d' → Effect view tx d d'

variable {view : View} {evaluator : Evaluator} {tx : Invocation}

/-- An action is applied and then noted. -/
theorem Batch.act_eq_ok {b b' : Batch} {dapp : Address} {action : Action}
    (h : b.act view evaluator dapp action = .ok b') :
    ∃ b₁, b.applyAction view evaluator dapp action = .ok b₁ ∧ b' = b₁.note action := by
  unfold act at h
  cases happly : b.applyAction view evaluator dapp action with
  | error failure => simp [happly, Except.map] at h
  | ok b₁ =>
    rw [happly] at h
    exact ⟨b₁, rfl, (Except.ok.inj h).symm⟩

theorem effect_of_act {b b' : Batch} {action : Action}
    (h : b.act view evaluator tx.dapp action = .ok b') : Effect view tx b.delta b'.delta := by
  obtain ⟨b₁, happly, rfl⟩ := Batch.act_eq_ok h
  cases action with
  | data key value =>
    have hadd : b.add (.entry tx.dapp key value) = .ok b₁ := happly
    obtain ⟨d, hd, rfl⟩ := Batch.add_eq_ok_iff.1 hadd
    exact .data hd
  | transfer recipient asset amount =>
    obtain ⟨hamount, hrecipient, hknown, hmoves, -⟩ := Batch.transfer_eq_ok happly
    exact .transfer hamount hrecipient hknown hmoves
  | reissue asset amount reissuable =>
    obtain ⟨hamount, hmay, hadjusts, -⟩ := Batch.reissue_eq_ok happly
    exact .reissue hamount hmay hadjusts
  | burn asset amount =>
    obtain ⟨hamount, hknown, hadjusts, -⟩ := Batch.burn_eq_ok happly
    exact .burn hamount hknown hadjusts

/-- The result of a batch lists the actions that have been applied. -/
theorem result_of_act {b b' : Batch} {dapp : Address} {action : Action}
    (h : b.act view evaluator dapp action = .ok b') : b'.result = b.result.push action := by
  obtain ⟨b₁, happly, rfl⟩ := Batch.act_eq_ok h
  -- the action itself only touches the delta; noting it is what changes the result
  have hresult : b₁.result = b.result := by
    cases action with
    | data key value =>
      have hadd : b.add (.entry dapp key value) = .ok b₁ := happly
      obtain ⟨d, -, rfl⟩ := Batch.add_eq_ok_iff.1 hadd
      rfl
    | transfer recipient asset amount => exact (Batch.transfer_eq_ok happly).2.2.2.2
    | reissue asset amount reissuable => exact (Batch.reissue_eq_ok happly).2.2.2
    | burn asset amount => exact (Batch.burn_eq_ok happly).2.2.2
  rw [Batch.note, hresult]

/-- A batch applies the payments first, and then the actions on what they have left. -/
theorem applyBatch_eq_ok {actions : List Action} {b : Batch}
    (h : applyBatch view evaluator tx actions = .ok b) :
    ∃ b₁, tx.payments.foldlM (Batch.pay view evaluator tx) {} = .ok b₁ ∧
      actions.foldlM (Batch.act view evaluator tx.dapp) b₁ = .ok b := by
  unfold applyBatch at h
  split at h
  · exact nomatch h
  · exact bind_eq_ok_iff.1 h

/-- What holds of the empty delta and is kept by every effect holds of the
    delta of every batch that succeeds. -/
theorem applyBatch_keeps {P : Delta → Prop} (hempty : P .empty)
    (heffect : ∀ d d', Effect view tx d d' → P d → P d') {actions : List Action} {b : Batch}
    (h : applyBatch view evaluator tx actions = .ok b) : P b.delta := by
  obtain ⟨b₁, hpayments, hactions⟩ := applyBatch_eq_ok h
  have hpaid : P b₁.delta := by
    refine foldlM_keeps (P := fun b => P b.delta) (fun b p b' hp hb hpay => ?_) hempty hpayments
    obtain ⟨hknown, hmoves, -⟩ := Batch.pay_eq_ok hpay
    exact heffect _ _ (.payment hp hknown hmoves) hb
  refine foldlM_keeps (P := fun b => P b.delta) (fun b action b' _ hb hact => ?_) hpaid hactions
  exact heffect _ _ (effect_of_act hact) hb

theorem error_push (r : ScriptResult) (action : Action) : (r.push action).error = r.error := by
  cases action <;> rfl

/-- A batch that succeeds reports no error. -/
theorem error_of_applyBatch {actions : List Action} {b : Batch}
    (h : applyBatch view evaluator tx actions = .ok b) : b.result.error = none := by
  obtain ⟨b₁, hpayments, hactions⟩ := applyBatch_eq_ok h
  have hpaid : b₁.result.error = none := by
    refine foldlM_keeps (P := fun b => b.result.error = none) (fun b p b' _ hb hpay => ?_) rfl
      hpayments
    rw [(Batch.pay_eq_ok hpay).2.2, hb]
  refine foldlM_keeps (P := fun b => b.result.error = none) (fun b action b' _ hb hact => ?_)
    hpaid hactions
  rw [result_of_act hact, error_push, hb]

end MeteredLedger

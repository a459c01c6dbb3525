import MeteredLedger.Proofs.Debits

/-! # Atomicity

    A step applies all that its callable has asked for, or nothing of it. What a
    batch has done before it fails, however much that is, never gets into the
    delta of the step: an invocation that fails or stays in progress only pays
    its fee. The fee was seen to be there before the evaluation.

    * `StepResult.OnlyCharges`: the fee is all that the transaction takes.
    * `Transaction.nextStep`: the step that a suspended invocation waits for.
    * `onlyCharges_of_takes`: a step that takes no more than the fee known before
      the evaluation.
    * `all_or_nothing`: what each status says about the delta. -/

namespace MeteredLedger

open Script (Evaluator Expr)

/-! ## Section 1: Charging and nothing else -/

/-- The transaction takes its fee from the sender of the invocation and changes
    no other balance, no data entry and no volume. The fee is covered by the one
    that is known before the evaluation, which the sender holds. -/
structure StepResult.OnlyCharges (r : StepResult) (v : View) (t : Transaction)
    (owner : Invocation) : Prop where
  portfolios : r.delta.portfolios =
    (∅ : SortedMap Address Portfolio).insert owner.sender { native := -Amount.ofFee r.fee }
  /-- The amount taken is the fee. -/
  exact : (-Amount.ofFee r.fee).toInt = -(r.fee.toNat : Int)
  data : r.delta.data = ∅
  volumes : r.delta.volumes = ∅
  covered : r.fee ≤ t.preCharged v
  funds : ((t.preCharged v).toNat : Int) ≤ (v.balance owner.sender .native).toInt

/-- The step that an invocation waits for when the transaction has left it in
    progress: the first one, or the one after the step that was stored. -/
def Transaction.nextStep (v : View) : Transaction → Option UInt32
  | .invocation _ => some 0
  | .continuation tx =>
    match v.progress tx.invocation with
    | some (.suspended step _ _) => some (saturate32 (step.toNat + 1))
    | _ => none

section

variable {view : View} {evaluator : Evaluator} {t : Transaction} {s : Step} {r : StepResult}

theorem nextStep_of_takes (h : s.Takes view t) : t.nextStep view = some s.nextStep := by
  cases h with
  | first _ _ horigin => simp [Transaction.nextStep, Step.nextStep, horigin]
  | later hadmitted _ horigin =>
    obtain ⟨unused, dapp, hprogress, -⟩ := hadmitted.pending
    simp [Transaction.nextStep, Step.nextStep, horigin, hprogress]

/-- A step that is closed with nothing but its fee only charges that. -/
theorem onlyCharges_of_takes {status : Status} {fee : UInt64} {affected : SortedSet Address}
    {mark : Progress} {result : Option ScriptResult} (htakes : s.Takes view t)
    (hcovered : fee ≤ t.preCharged view) :
    (s.close view (charge s.invocation.sender fee) status fee affected mark result).OnlyCharges
      view t s.invocation := by
  obtain ⟨-, -, hfunds⟩ := Step.fee_le_preCharged htakes .complexityLimitExceeded
  have hexact : (-Amount.ofFee fee).toInt = -(fee.toNat : Int) := by
    have hbalance := (view.balance s.invocation.sender .native).toInt_le_greatest
    have hle := UInt64.le_iff_toNat_le.1 hcovered
    rw [Amount.toInt_neg_of_nonneg (Amount.ofFee_nonneg fee), Amount.toInt_ofFee (by omega)]
  exact {
    portfolios := rfl
    exact := hexact
    data := rfl
    volumes := rfl
    covered := hcovered
    funds := hfunds }

/-! ## Section 2: What the status says -/

/-- **All or nothing.** Whatever the reason of a failure, and however much of the
    batch has been done before, only the fee is taken, the invocation has ended,
    and its result holds an error and no action. An invocation that is left in
    progress has been charged in the same way and waits for its next step, without
    a result. One that has succeeded has ended with a result without an error. -/
theorem all_or_nothing (h : transition evaluator view t = .ok r) :
    ∃ owner, t.owner view = some owner ∧
      (r.status = .failed → r.OnlyCharges view t owner ∧
        r.delta.progress[owner.id]? = some .finished ∧
        ∃ error, r.delta.results[owner.id]? = some (.failed error)) ∧
      (r.status = .inProgress → r.OnlyCharges view t owner ∧ r.delta.results = ∅ ∧
        ∃ step rest unused, t.nextStep view = some step ∧
          r.delta.progress[owner.id]? = some (.suspended step rest unused)) ∧
      (r.status = .succeeded → r.delta.progress[owner.id]? = some .finished ∧
        ∃ result, r.delta.results[owner.id]? = some result ∧ result.error = none) := by
  obtain ⟨s, htakes, hends⟩ := step_of_transition h
  refine ⟨s.invocation, owner_of_takes htakes, ?_⟩
  cases hends with
  | suspended =>
    obtain ⟨hcovered, -, -⟩ := Step.fee_le_preCharged htakes .complexityLimitExceeded
    refine ⟨nofun, ?_, nofun⟩
    intro _
    refine ⟨onlyCharges_of_takes htakes hcovered, rfl, ?_⟩
    exact ⟨_, _, _, nextStep_of_takes htakes, Step.progress_close⟩
  | @failed reason =>
    obtain ⟨-, hcovered, -⟩ := Step.fee_le_preCharged htakes reason
    refine ⟨?_, nofun, nofun⟩
    intro _
    exact ⟨onlyCharges_of_takes htakes hcovered, Step.progress_close, _, Step.results_close⟩
  | succeeded hbatch hsucceed =>
    obtain ⟨fee, changes, -, -, -, rfl⟩ := Step.succeed_eq_ok hsucceed
    refine ⟨nofun, nofun, ?_⟩
    intro _
    exact ⟨Step.progress_close, _, Step.results_close, error_of_applyBatch hbatch⟩

/-- A continuation ends its invocation, which has written an entry and then asks
    for more than its DApp holds: nothing but the base fee is left of it. -/
theorem all_or_nothing_of_overdrawn :
    let owner : Invocation :=
      ⟨.fill 7, .fill 1, .fill 2, ⟨"", []⟩, [⟨.native, 4⟩], 900000, 0⟩
    let rest : Expr := .const (.list
      [.action (.data "key" (.int 1)), .action (.transfer (.fill 3) .native 2000005)])
    let view := (View.fresh ⟨.v3, ∅, none⟩ 2000000).withPending owner rest 0
    let tx : Continuation := ⟨.fill 8, owner.id, 0, 900000, 0⟩
    ∃ r, transition Script.evaluate view (.continuation tx) = .ok r ∧ r.status = .failed ∧
      r.fee = 900000 ∧ r.OnlyCharges view (.continuation tx) owner ∧
      ∃ error, r.delta.results[owner.id]? = some (.failed error) := by
  intro owner rest view tx
  have hrun : (transition Script.evaluate view (.continuation tx)).toOption.map
      (fun r => (r.status, r.fee)) = some (.failed, 900000) := by decide +kernel
  obtain ⟨r, hr, hrun⟩ := exists_eq_ok_of_map hrun
  obtain ⟨hstatus, hfee⟩ := Prod.mk.inj hrun
  obtain ⟨owner', howner, hfailed, -, -⟩ := all_or_nothing hr
  obtain rfl : owner = owner' := Option.some.inj howner
  obtain ⟨hcharges, -, herror⟩ := hfailed hstatus
  exact ⟨r, hr, hstatus, hfee, hcharges, herror⟩

end

end MeteredLedger

import MeteredLedger.Proofs.Charges
import MeteredLedger.Proofs.Commuting
import MeteredLedger.Proofs.Solvency

/-! # Debits

    Every transaction debits its fee to the sender of the invocation, on top of
    the payments and actions that it applies. The debit stops at the greatest
    amount. A fee that the sender was seen to hold before the evaluation does not
    get there. The fee of the continuation that ends its invocation is only known
    after the evaluation, when the scripts that its actions have run are counted,
    and may exceed what is debited.

    * `StepResult.Debits`: an amount taken from the sender, and a batch.
    * `StepResult.Exceeds`: a fee that is not an amount, and where it comes from.
    * `debits_of_ends`: every ending debits its fee, up to the greatest amount.
    * `fee_le_or_exceeds`: every other fee is an amount.
    * `fee_is_taken`: the fee reported is the fee taken, unless it exceeds. -/

namespace MeteredLedger

open Script (Evaluator Expr)

/-! ## Section 1: What is debited -/

/-- The transaction takes `paid` of the native token from the sender of its
    invocation, and does what the batch does. Where the invocation has succeeded,
    its result lists the actions of the batch; else nothing has been applied. -/
structure StepResult.Debits (r : StepResult) (v : View) (evaluator : Evaluator)
    (owner : Invocation) (b : Batch) (paid : Int) : Prop where
  applied : r.status = .succeeded → ∃ actions, applyBatch v evaluator owner actions = .ok b ∧
    r.delta.results[owner.id]? = some b.result
  nothing : r.status ≠ .succeeded → b.delta = .empty
  adds : r.delta.Adds owner.sender b.delta paid

theorem Amount.toInt_ofFee_eq_min (fee : UInt64) :
    (ofFee fee).toInt = min (fee.toNat : Int) greatest := by
  rw [ofFee, toInt_clamp]
  unfold least greatest
  omega

section

variable {v : View} {evaluator : Evaluator} {tx : Transaction} {s : Step} {r : StepResult}

/-- Every ending debits its fee, up to the greatest amount. -/
theorem debits_of_ends (h : s.Ends v evaluator r) :
    ∃ b, r.Debits v evaluator s.invocation b (min (r.fee.toNat : Int) Amount.greatest) := by
  obtain ⟨status, fee, b, changes, mark, result, happlies, hchanges, rfl⟩ := Step.applies_of_ends h
  have hfee := Delta.adds_charge s.invocation.sender fee
  have hadds := Delta.adds_of_merge hfee (Delta.adds_self b.delta _) hchanges
  rw [Int.add_zero, Amount.toInt_ofFee_eq_min] at hadds
  refine ⟨b, ?_, ?_, ⟨hadds.data, hadds.volumes, hadds.balance⟩⟩
  · intro hstatus
    cases happlies with
    | suspended => exact Status.noConfusion hstatus
    | failed => exact Status.noConfusion hstatus
    | succeeded hbatch => exact ⟨_, hbatch, Step.results_close⟩
  · intro hstatus
    cases happlies with
    | suspended => rfl
    | failed => rfl
    | succeeded hbatch => exact absurd rfl hstatus

/-! ## Section 2: Fees that are amounts -/

/-- The fee is not an amount. It is that of a continuation that ends its
    invocation, and whose actions have run scripts. -/
structure StepResult.Exceeds (r : StepResult) (v : View) (tx : Transaction) : Prop where
  fee : Amount.greatest < r.fee.toNat
  status : r.status = .succeeded
  last : ∃ c actionRuns, tx = .continuation c ∧ 0 < actionRuns ∧
    r.fee = v.settings.fees.minimal .continuation actionRuns

/-- The declared fee and the base fee are covered before the evaluation, so only
    the surcharges for actions can make a fee exceed. -/
theorem fee_le_or_exceeds (htakes : s.Takes v tx) (h : s.Ends v evaluator r) :
    (r.fee.toNat : Int) ≤ Amount.greatest ∨ r.Exceeds v tx := by
  have hbalance := (v.balance s.invocation.sender .native).toInt_le_greatest
  cases h with
  | suspended =>
    obtain ⟨hfunds, -⟩ := Step.funds_of_takes htakes .complexityLimitExceeded
    exact .inl (Int.le_trans hfunds hbalance)
  | @failed reason =>
    obtain ⟨-, hfunds⟩ := Step.funds_of_takes htakes reason
    exact .inl (Int.le_trans hfunds hbalance)
  | @succeeded actions batch r hbatch hsucceed =>
    obtain ⟨fee, changes, hfee, -, -, rfl⟩ := Step.succeed_eq_ok hsucceed
    cases htakes with
    | first hadmitted hinvocation horigin =>
      left
      obtain ⟨rfl, -⟩ := Step.finalFee_first horigin hfee
      rw [hinvocation] at hbalance ⊢
      exact Int.le_trans hadmitted.funds hbalance
    | @later c a hadmitted hinvocation horigin =>
      obtain rfl := Step.finalFee_later horigin hfee
      rw [hinvocation] at hbalance
      by_cases hfits : ((v.settings.fees.minimal .continuation batch.runs.actions).toNat : Int) ≤
          Amount.greatest
      · exact .inl hfits
      · right
        have hruns : batch.runs.actions ≠ 0 := by
          -- without surcharges this is the base fee, which the sender holds
          intro hzero
          rw [hzero] at hfits
          exact hfits (Int.le_trans hadmitted.funds hbalance)
        exact {
          fee := Int.not_le.1 hfits
          status := rfl
          last := ⟨c, batch.runs.actions, rfl, Nat.pos_of_ne_zero hruns, rfl⟩ }

/-! ## Section 3: What is reported -/

/-- **The fee reported is the fee taken**, on top of what has been applied, and it
    is an amount. The one exception is a fee that exceeds: then the greatest
    amount is taken, and more is reported. -/
theorem fee_is_taken (h : transition evaluator v tx = .ok r) :
    ∃ owner b paid, tx.owner v = some owner ∧ r.Debits v evaluator owner b paid ∧
      (paid = r.fee.toNat ∧ paid ≤ Amount.greatest ∨
        paid = Amount.greatest ∧ r.Exceeds v tx) := by
  obtain ⟨s, htakes, hends⟩ := step_of_transition h
  obtain ⟨b, hdebits⟩ := debits_of_ends hends
  refine ⟨s.invocation, b, _, owner_of_takes htakes, hdebits, ?_⟩
  rcases fee_le_or_exceeds htakes hends with hle | hexceeds
  · rw [Int.min_eq_left hle]
    exact .inl ⟨rfl, hle⟩
  · have hfee := hexceeds.fee
    rw [Int.min_eq_right (by omega)]
    exact .inr ⟨rfl, hexceeds⟩

/-- A continuation whose only action runs the script of an asset pays one
    surcharge for that, and its sender is debited all of it. -/
theorem fee_is_taken_of_surcharge :
    let allowed : Expr := .const (.bool true)
    let owner : Invocation := ⟨.fill 7, .fill 1, .fill 2, ⟨"", []⟩, [], 900000, 0⟩
    let rest : Expr := .const (.list [.action (.transfer (.fill 3) (.issued (.fill 9)) 4)])
    let view := { View.fresh ⟨.v3, ∅, none⟩ 2000000 with
      asset := fun _ => some ⟨.fill 2, "", 0, true⟩
      assetScript := fun _ => some allowed }
    let pending := view.withPending owner rest 0
    let tx : Continuation := ⟨.fill 8, owner.id, 0, 900000, 0⟩
    ∃ r b, transition Script.evaluate pending (.continuation tx) = .ok r ∧
      r.status = .succeeded ∧ r.fee = 1300000 ∧
      r.Debits pending Script.evaluate owner b 1300000 := by
  intro allowed owner rest view pending tx
  have hrun : (transition Script.evaluate pending (.continuation tx)).toOption.map
      (fun r => (r.status, r.fee)) = some (.succeeded, 1300000) := by decide +kernel
  obtain ⟨r, hr, hrun⟩ := exists_eq_ok_of_map hrun
  obtain ⟨hstatus, hfee⟩ := Prod.mk.inj hrun
  obtain ⟨owner', b, paid, howner, hdebits, hpaid⟩ := fee_is_taken hr
  obtain rfl : owner = owner' := Option.some.inj howner
  have hamount : paid = 1300000 := by
    rcases hpaid with ⟨hpaid, -⟩ | ⟨-, hexceeds⟩
    · rw [hpaid, hfee]
      rfl
    · have hgreat := hexceeds.fee
      rw [hfee] at hgreat
      exact absurd hgreat (by decide)
  rw [hamount] at hdebits
  exact ⟨r, b, hr, hstatus, hfee, hdebits⟩

/-- With surcharges of 2 ^ 62 the same continuation reports a fee of 2 ^ 63. Its
    sender holds the greatest amount, which is one less, and is debited that. -/
theorem fee_exceeds_debit :
    let allowed : Expr := .const (.bool true)
    let owner : Invocation := ⟨.fill 7, .fill 1, .fill 2, ⟨"", []⟩, [], 900000, 0⟩
    let rest : Expr := .const (.list [.action (.transfer (.fill 3) (.issued (.fill 9)) 0)])
    let view := { View.fresh ⟨.v3, ∅, none⟩ 9223372036854775807 with
      settings := { fees := ⟨0, 0, 4611686018427387904⟩ }
      asset := fun _ => some ⟨.fill 2, "", 0, true⟩
      assetScript := fun _ => some allowed }
    let pending := view.withPending owner rest 0
    let tx : Continuation := ⟨.fill 8, owner.id, 0, 4611686018427387904, 0⟩
    pending.Solvent ∧ ∃ r, transition Script.evaluate pending (.continuation tx) = .ok r ∧
      r.status = .succeeded ∧ (r.fee.toNat : Int) = Amount.greatest + 1 ∧
      (r.delta.balanceChange owner.sender .native).toInt = -Amount.greatest := by
  intro allowed owner rest view pending tx
  refine ⟨?_, ?_⟩
  · intro address asset
    show (0 : Int) ≤ 9223372036854775807
    decide
  · have hrun : (transition Script.evaluate pending (.continuation tx)).toOption.map
        (fun r => (r.status, (r.fee.toNat : Int),
          (r.delta.balanceChange owner.sender .native).toInt)) =
            some (.succeeded, Amount.greatest + 1, -Amount.greatest) := by decide +kernel
    obtain ⟨r, hr, hrun⟩ := exists_eq_ok_of_map hrun
    simp only [Prod.mk.injEq] at hrun
    exact ⟨r, hr, hrun⟩

end

end MeteredLedger

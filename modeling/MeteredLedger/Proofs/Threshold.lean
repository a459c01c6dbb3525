import MeteredLedger.Proofs.Stepping
import MeteredLedger.Proofs.StepwiseLimit

/-! # The budget is a threshold

    What an expression costs until it ends is a property of the expression. A
    budget that covers the cost leads to the end, always to the same one and for
    the same bill, be it a value, an error or the limit of nesting; every smaller
    budget runs out on the way there. Nothing is asked of the nesting: how an
    evaluation that has been suspended goes on does depend on it, but not whether
    it is suspended.

    * `Expr.Costs.price_le_iff`: the runs that complete are those whose budget
      covers the price.
    * `run_completed_of_le`, `run_suspended_of_le`: what one run says of others.
    * `unused_le_of_run_suspended`: a run leaves no more than it was given.
    * `budget_is_threshold`: the same from what a single run shows. -/

namespace MeteredLedger.Script

/-! ## Section 1: Runs and prices -/

section

variable {e rest : Expr} {price : Nat} {result : Except ScriptError Value} {budget b spent : UInt64}

/-- **Threshold**: a run completes exactly if its budget covers the price. -/
theorem Expr.Costs.price_le_iff (h : e.Costs price result) :
    price ≤ budget.toNat ↔ ∃ result spent, run e budget = .completed result spent := by
  constructor
  · intro hcovered
    exact ⟨result, .ofNat price, run_of_price h hcovered⟩
  · rintro ⟨result', spent, hrun⟩
    rcases Nat.lt_or_ge budget.toNat price with hshort | hcovered
    · obtain ⟨rest, unused, hsuspended⟩ := h.run_suspended hshort
      rw [hrun] at hsuspended
      exact nomatch hsuspended
    · exact hcovered

/-- A bill is covered by the budget. -/
theorem spent_le_of_run_completed (h : run e budget = .completed result spent) :
    spent ≤ budget := by
  have hcosts : e.Costs spent.toNat result := price_of_run_completed h
  exact UInt64.le_iff_toNat_le.2 (hcosts.price_le_iff.2 ⟨result, spent, h⟩)

/-- Whoever can pay the bill ends in the same way for the same bill. -/
theorem run_completed_of_le (h : run e budget = .completed result spent) (hb : spent ≤ b) :
    run e b = .completed result spent := by
  have hcosts : e.Costs spent.toNat result := price_of_run_completed h
  have hrun := run_of_price hcosts (UInt64.le_iff_toNat_le.1 hb)
  rwa [UInt64.ofNat_toNat] at hrun

/-- What runs out under one budget runs out under every smaller one. -/
theorem run_suspended_of_le {unused : UInt64} (h : run e budget = .suspended rest unused)
    (hb : b ≤ budget) : ∃ rest' unused', run e b = .suspended rest' unused' := by
  obtain ⟨price, result, hcosts⟩ := e.exists_costs
  rcases Nat.lt_or_ge b.toNat price with hshort | hcovered
  · exact hcosts.run_suspended hshort
  · -- then the price would be covered by the greater budget as well
    have hle : price ≤ budget.toNat := Nat.le_trans hcovered (UInt64.le_iff_toNat_le.1 hb)
    obtain ⟨result', spent, hrun⟩ := hcosts.price_le_iff.1 hle
    rw [h] at hrun
    exact nomatch hrun

/-- A run that is suspended has spent a part of its budget and leaves the rest. -/
theorem unused_le_of_run_suspended {unused : UInt64} (h : run e budget = .suspended rest unused) :
    unused ≤ budget := by
  obtain ⟨spent, hspent, -⟩ := eval_goesOnOrStops_of_suspends (suspends_of_run h)
  refine UInt64.le_iff_toNat_le.2 ?_
  omega

end

/-! ## Section 2: One cost -/

/-- **An evaluation has one cost, and the budget is a threshold.** If a budget
    leads to an end, the bill is within the budget; every budget that covers the
    bill leads to the same end for the same bill, and every smaller one runs out.
    If a budget runs out, less than the dearest node costs is left of it, and no
    smaller budget leads to an end. -/
theorem budget_is_threshold (e : Expr) (budget : UInt64) :
    (∀ result spent, evaluate (.resume e) budget = .ok (.completed result spent) →
      spent ≤ budget ∧
      (∀ b, spent ≤ b → evaluate (.resume e) b = .ok (.completed result spent)) ∧
      ∀ b, b < spent → ∃ rest unused, evaluate (.resume e) b = .ok (.suspended rest unused)) ∧
    ∀ rest unused, evaluate (.resume e) budget = .ok (.suspended rest unused) →
      unused ≤ budget ∧ unused < 200 ∧
      ∀ b, b ≤ budget →
        ∃ rest' unused', evaluate (.resume e) b = .ok (.suspended rest' unused') := by
  constructor
  · intro result spent h
    have hrun : run e budget = .completed result spent := Except.ok.inj h
    refine ⟨spent_le_of_run_completed hrun, ?_, ?_⟩
    · intro b hb
      exact congrArg Except.ok (run_completed_of_le hrun hb)
    · intro b hb
      have hcosts : e.Costs spent.toNat result := price_of_run_completed hrun
      obtain ⟨rest, unused, hsuspended⟩ := hcosts.run_suspended (UInt64.lt_iff_toNat_lt.1 hb)
      exact ⟨rest, unused, congrArg Except.ok hsuspended⟩
  · intro rest unused h
    have hrun : run e budget = .suspended rest unused := Except.ok.inj h
    have hlt := unused_lt_of_run_suspended hrun
    refine ⟨unused_le_of_run_suspended hrun, UInt64.lt_iff_toNat_lt.2 hlt, ?_⟩
    intro b hb
    obtain ⟨rest', unused', hsuspended⟩ := run_suspended_of_le hrun hb
    exact ⟨rest', unused', congrArg Except.ok hsuspended⟩

/-- Conditionals that are nested too deep: with a budget of 511 they are stopped by
    the limit, with 510 they are suspended two levels before it. -/
theorem budget_is_threshold_of_branches :
    let e := nestedBranches 512
    (evaluate (.resume e) 1000 = .ok (.completed (.error .nestingExceeded) 511) ∧
      evaluate (.resume e) 511 = .ok (.completed (.error .nestingExceeded) 511)) ∧
    evaluate (.resume e) 510 = .ok (.suspended (nestedBranches 2) 0) ∧
      ∃ rest unused, evaluate (.resume e) 7 = .ok (.suspended rest unused) := by
  intro e
  have hprice : GoesOn (eval [] maxDepth e) 511 (.failed .nestingExceeded, ·) :=
    @goesOn_nestedBranches_of_lt [] 511 512 (by decide)
  have hstopped : evaluate (.resume e) 1000 = .ok (.completed (.error .nestingExceeded) 511) :=
    congrArg Except.ok (@run_of_price e 1000 (.error .nestingExceeded) 511 hprice (by decide))
  have heval : eval [] maxDepth e (510 : UInt64).toNat = (.suspended (nestedBranches 2), 0) :=
    @eval_nestedBranches [] maxDepth 512 510 (by decide) (by decide)
  have hsuspended : evaluate (.resume e) 510 = .ok (.suspended (nestedBranches 2) 0) := by
    show Except.ok (run e 510) = _
    rw [run, heval]
    rfl
  have hcovered := ((budget_is_threshold e 1000).1 _ _ hstopped).2.1 511 (by decide)
  have hshort := ((budget_is_threshold e 510).2 _ _ hsuspended).2.2 7 (by decide)
  exact ⟨⟨hstopped, hcovered⟩, hsuspended, hshort⟩

end MeteredLedger.Script

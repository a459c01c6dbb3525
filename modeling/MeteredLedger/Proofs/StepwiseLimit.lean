import MeteredLedger.Proofs.Resumption

/-! # The limit of nesting in stepwise evaluation

    An expression that is nested too deep for one evaluation may end well when it
    is evaluated in steps: a conditional whose branch has been chosen is not part
    of the remainder, so a step that is suspended inside of the branch leaves an
    expression with fewer levels. In all other cases the steps end with what one
    evaluation ends with, the error of the limit included.

    * `Expr.EndsIn`: what an expression ends with in steps.
    * `endsIn_of_keeps`: what every step keeps until the price is paid.
    * `endsIn_of_price`, `endsIn_of_stops`: the two ways in which one evaluation
      can end.
    * `steps_end_alike`: in steps the end is the same, unless a step is suspended
      in a branch on the way to the place where one evaluation is stopped.
    * `steps_escape_the_limit`: there it need not be the same. -/

namespace MeteredLedger.Script

/-! ## Section 1: Steps -/

/-- The budget of a step: what the step before has not spent comes on top. -/
def stepBudget (max unused : UInt64) : UInt64 := saturate64 (max.toNat + unused.toNat)

/-- `e.EndsIn max unused result`: in steps with the budget `max` and what the step
    before has not spent, which is `unused` for the first one, `e` ends with
    `result`. -/
inductive Expr.EndsIn (max : UInt64) : Expr → UInt64 → Except ScriptError Value → Prop where
  /-- The step gets to the end. -/
  | last {e unused result spent} :
      evaluate (.resume e) (stepBudget max unused) = .ok (.completed result spent) →
      EndsIn max e unused result
  /-- The step is suspended, and the next one goes on with its remainder. -/
  | next {e unused rest left result} :
      evaluate (.resume e) (stepBudget max unused) = .ok (.suspended rest left) →
      EndsIn max rest left result → EndsIn max e unused result

variable {max : UInt64} {e : Expr} {unused : UInt64} {result : Except ScriptError Value}

theorem endsIn_unique {result' : Except ScriptError Value} (h : e.EndsIn max unused result)
    (h' : e.EndsIn max unused result') : result = result' := by
  induction h with
  | last hrun =>
    cases h' with
    | last hrun' => exact (Evaluation.completed.inj (Except.ok.inj (hrun.symm.trans hrun'))).1
    | next hrun' _ => exact nomatch hrun.symm.trans hrun'
  | next hrun _ ih =>
    cases h' with
    | last hrun' => exact nomatch hrun.symm.trans hrun'
    | next hrun' hrest =>
      obtain ⟨rfl, rfl⟩ := Evaluation.suspended.inj (Except.ok.inj (hrun.symm.trans hrun'))
      exact ih hrest

/-- What holds of an expression, of what it has not spent and of its price, and is
    kept by every step that is suspended, leads to the end that belongs to the
    price. -/
theorem endsIn_of_keeps {I : Expr → Nat → Nat → Prop} (hmax : 0 < max.toNat)
    (hprice : ∀ e unused price, I e unused price → e.Costs price result)
    (hkeeps : ∀ e unused price rest left, I e unused price → max.toNat + unused < price →
      eval [] maxDepth e (max.toNat + unused) = (.suspended rest, left) →
      ∃ spent remaining, max.toNat + unused = spent + left ∧ price = spent + remaining ∧
        I rest left remaining)
    {price : Nat} (h : I e unused.toNat price) (hfits : price < UInt64.size) :
    e.EndsIn max unused result := by
  -- complexity that a step does not spend is there in the next one, so with every step there is
  -- less to pay that is not there yet
  induction hn : price - unused.toNat using Nat.strongRecOn generalizing e unused price with
  | ind n ih =>
    have hgo := hprice e _ price h
    have hbudget := toNat_saturate64 (max.toNat + unused.toNat)
    rcases Nat.lt_or_ge (stepBudget max unused).toNat price with hshort | hcovered
    · have hexact : (stepBudget max unused).toNat = max.toNat + unused.toNat := by
        unfold stepBudget at hshort ⊢
        omega
      rcases heval : eval [] maxDepth e (stepBudget max unused).toNat with ⟨o | rest | error, left⟩
      · have hpaid := ((hasPrice_eval _ _ _).eq_of_goesOn hgo heval trivial).2
        omega
      · have hrun : run e (stepBudget max unused) = .suspended rest (.ofNat left) := by
          rw [run, heval]
        rw [hexact] at heval hshort
        obtain ⟨spent, remaining, hspent, rfl, hrest⟩ := hkeeps _ _ _ _ _ h hshort heval
        have hleft := @toNat_ofNat_of_le (stepBudget max unused) left (by omega)
        rw [← hleft] at hrest
        exact .next (congrArg Except.ok hrun)
          (ih (remaining - left) (by omega) hrest (by omega) (by rw [hleft]))
      · have hpaid := ((hasPrice_eval _ _ _).eq_of_goesOn hgo heval trivial).2
        omega
    · exact .last (congrArg Except.ok (run_of_price hgo hcovered))

/-! ## Section 2: The two ends -/

/-- What one evaluation ends with, the steps end with, if it is not stopped. -/
theorem endsIn_of_price {price : Nat} (hmax : 0 < max.toNat)
    (hcosts : e.Costs price result) (hfits : price < UInt64.size)
    (hgoes : result ≠ .error .nestingExceeded) : e.EndsIn max unused result := by
  refine endsIn_of_keeps (I := fun e _ price => e.Costs price result) hmax
    (fun _ _ _ h => h) ?_ hcosts hfits
  intro e unused price rest left h _ hsuspended
  have hother : Outcome.ofResult result ≠ .failed .nestingExceeded :=
    fun hsame => hgoes (Outcome.ofResult_injective hsame)
  exact goesOn_rest_of_suspended hsuspended h (Outcome.ofResult_isFinal result) hother

/-- Where one evaluation is stopped, the steps are stopped, if none of them is
    suspended in a branch on the way there. -/
theorem endsIn_of_stops {entered price : Nat} (hmax : 0 < max.toNat)
    (hstops : Stops [] maxDepth e entered price) (hfits : price < UInt64.size)
    (houtside : ∀ steps, 0 < steps →
      steps * max.toNat < entered ∨ price ≤ steps * max.toNat) :
    e.EndsIn max 0 (.error .nestingExceeded) := by
  refine endsIn_of_keeps
    (I := fun e unused price => ∃ entered, Stops [] maxDepth e entered price ∧
      ∀ steps, 0 < steps →
        unused + steps * max.toNat < entered ∨ price ≤ unused + steps * max.toNat) hmax
    ?_ ?_ ⟨entered, hstops, ?_⟩ hfits
  · rintro e unused price ⟨entered, hstops, -⟩
    exact goesOn_of_stops hstops
  · rintro e unused price rest left ⟨entered, hstops, houtside⟩ hshort hsuspended
    have hbefore : max.toNat + unused < entered := by
      have hnext := houtside 1 Nat.one_pos
      omega
    obtain ⟨spent, entered', price', hspent, rfl, rfl, hlater⟩ :=
      stops_of_suspended hstops hbefore hsuspended
    refine ⟨spent, price', hspent, rfl, entered', hlater, ?_⟩
    intro steps hsteps
    -- what a step has not spent counts for the later ones, so they are suspended where they were
    have hlaterSteps := houtside (steps + 1) (Nat.succ_pos steps)
    rw [Nat.succ_mul] at hlaterSteps
    omega
  · intro steps hsteps
    show 0 + steps * max.toNat < entered ∨ price ≤ 0 + steps * max.toNat
    rw [Nat.zero_add]
    exact houtside steps hsteps

theorem goesOn_of_eq {α : Type} {f g : Nat → α} {p q : Nat} (h : GoesOn f p g) (hpq : p = q) :
    GoesOn f q g := hpq ▸ h

/-- Bindings, each in the body of the one around it, that all read the outermost. -/
def nestedBindings : Nat → Expr
  | 0 => .ref "x"
  | k + 1 => .letIn "x" (.ref "x") (nestedBindings k)

theorem goesOn_nestedBindings {scope : Scope} {n k : Nat} {v : Value} (hk : n < k)
    (hscope : scope.lookup "x" = some v) :
    GoesOn (eval scope (n + 1) (nestedBindings k)) n (.failed .nestingExceeded, ·) := by
  induction n generalizing scope k with
  | zero =>
    obtain ⟨k, rfl⟩ : ∃ j, k = j + 1 := ⟨k - 1, by omega⟩
    rw [nestedBindings, eval_letIn, eval_zero]
    exact goesOn_failed_andThen (goesOn_self _)
  | succ n ih =>
    obtain ⟨k, rfl⟩ : ∃ j, k = j + 1 := ⟨k - 1, by omega⟩
    have hvalue : GoesOn (eval scope (n + 1) (.ref "x")) 1 (.done v, ·) := by
      rw [eval_ref, hscope]
      exact goesOn_spend (goesOn_self _)
    have hbody := @ih (("x", v) :: scope) k (by omega) rfl
    rw [nestedBindings, eval_letIn]
    exact goesOn_of_eq (goesOn_andThen_next hvalue (goesOn_failed_andThen hbody)) (by omega)

theorem entered_of_nestedBindings {scope : Scope} {n k entered price : Nat}
    (h : Stops scope n (nestedBindings k) entered price) : entered = price := by
  induction k generalizing scope n entered price with
  | zero =>
    cases h
    rfl
  | succ k ih =>
    cases h with
    | limit => rfl
    | value hvalue =>
      cases hvalue
      rfl
    | body _ hbody => rw [ih hbody]

/-- **In steps the end is the same**, and the limit of nesting stops an expression
    in steps if and only if it stops one evaluation, unless a step is suspended in
    a branch on the way to the place where one evaluation is stopped: in all steps
    together there is then enough to choose that branch, but not enough to be
    stopped. -/
theorem steps_end_alike {budget spent : UInt64} (hmax : max ≠ 0)
    (h : evaluate (.resume e) budget = .ok (.completed result spent))
    (houtside : ∀ entered price, Stops [] maxDepth e entered price → ∀ steps, 0 < steps →
      steps * max.toNat < entered ∨ price ≤ steps * max.toNat)
    (result' : Except ScriptError Value) : e.EndsIn max 0 result' ↔ result' = result := by
  have hpositive : 0 < max.toNat := Nat.pos_of_ne_zero fun hzero => hmax (UInt64.toNat_inj.1 hzero)
  have hgo := price_of_run_completed (Except.ok.inj h)
  have hend : e.EndsIn max 0 result := by
    by_cases hstopped : result = .error .nestingExceeded
    · subst hstopped
      obtain ⟨entered, price, hstops, hprice⟩ := exists_stops (hgo 0)
      have hsize := spent.toNat_lt_size
      exact endsIn_of_stops hpositive hstops (by omega) (houtside entered price hstops)
    · exact endsIn_of_price hpositive hgo spent.toNat_lt hstopped
  constructor
  · intro hother
    exact endsIn_unique hother hend
  · rintro rfl
    exact hend

/-- Bindings are nested too deep, which the second step comes to. -/
theorem steps_end_alike_of_bindings :
    let e := Expr.letIn "x" (.const .unit) (nestedBindings 600)
    evaluate (.resume e) 1000 = .ok (.completed (.error .nestingExceeded) 510) ∧
      e.EndsIn 300 0 (.error .nestingExceeded) ∧ ¬ e.EndsIn 300 0 (.ok .unit) := by
  intro e
  have hprice : GoesOn (eval [] maxDepth e) 510 (.failed .nestingExceeded, ·) := by
    have hbody := @goesOn_nestedBindings [("x", .unit)] 510 600 .unit (by decide) rfl
    have hvalue := @goesOn_const [] 511 (by decide) .unit
    show GoesOn (eval [] (511 + 1) (.letIn "x" _ _)) 510 _
    rw [eval_letIn]
    exact goesOn_of_eq (goesOn_andThen_next hvalue (goesOn_failed_andThen hbody)) (by omega)
  have hrun : evaluate (.resume e) 1000 = .ok (.completed (.error .nestingExceeded) 510) :=
    congrArg Except.ok (@run_of_price e 1000 (.error .nestingExceeded) 510 hprice (by decide))
  have houtside : ∀ entered price, Stops [] maxDepth e entered price → ∀ steps, 0 < steps →
      steps * (300 : UInt64).toNat < entered ∨ price ≤ steps * (300 : UInt64).toNat := by
    intro entered price hstops steps _
    obtain rfl : entered = price := by
      change Stops [] (511 + 1) (.letIn "x" (.const .unit) (nestedBindings 600)) _ _ at hstops
      cases hstops with
      | value hvalue =>
        cases hvalue
      | body _ hbody => rw [entered_of_nestedBindings hbody]
    exact Nat.lt_or_ge _ _
  refine ⟨hrun, (steps_end_alike (by decide) hrun houtside _).2 rfl, ?_⟩
  intro hend
  exact nomatch (steps_end_alike (by decide) hrun houtside _).1 hend

/-! ## Section 3: Steps in branches -/

/-- Conditionals, each in the branch that the one around it chooses. -/
def nestedBranches : Nat → Expr
  | 0 => .const (.int 1)
  | k + 1 => .ite (.const (.bool true)) (nestedBranches k) (.const .unit)

theorem goesOn_nestedBranches {scope : Scope} {n k : Nat} (hk : k < n) :
    GoesOn (eval scope n (nestedBranches k)) k (.done (.int 1), ·) := by
  induction k generalizing n with
  | zero => exact goesOn_const hk _
  | succ k ih =>
    obtain ⟨n, rfl⟩ : ∃ m, n = m + 1 := ⟨n - 1, by omega⟩
    have hcond := @goesOn_const scope n (by omega) (.bool true)
    rw [nestedBranches, eval_ite]
    exact goesOn_of_eq (goesOn_andThen_next hcond (goesOn_spend (ih (by omega)))) (by omega)

theorem goesOn_nestedBranches_of_lt {scope : Scope} {n k : Nat} (hk : n < k) :
    GoesOn (eval scope (n + 1) (nestedBranches k)) n (.failed .nestingExceeded, ·) := by
  induction n generalizing k with
  | zero =>
    obtain ⟨k, rfl⟩ : ∃ j, k = j + 1 := ⟨k - 1, by omega⟩
    rw [nestedBranches, eval_ite, eval_zero]
    exact goesOn_failed_andThen (goesOn_self _)
  | succ n ih =>
    obtain ⟨k, rfl⟩ : ∃ j, k = j + 1 := ⟨k - 1, by omega⟩
    have hcond := @goesOn_const scope (n + 1) (Nat.succ_pos n) (.bool true)
    rw [nestedBranches, eval_ite]
    exact goesOn_of_eq (goesOn_andThen_next hcond (goesOn_spend (ih (by omega)))) (by omega)

theorem eval_nestedBranches {scope : Scope} {n k b : Nat} (hb : b < k) (hn : b + 1 < n) :
    eval scope n (nestedBranches k) b = (.suspended (nestedBranches (k - b)), 0) := by
  induction b generalizing n k with
  | zero =>
    obtain ⟨k, rfl⟩ : ∃ j, k = j + 1 := ⟨k - 1, by omega⟩
    obtain ⟨n, rfl⟩ : ∃ m, n = m + 1 := ⟨n - 1, by omega⟩
    rw [nestedBranches, eval_ite, andThen_const (by omega)]
    rfl
  | succ b ih =>
    obtain ⟨k, rfl⟩ : ∃ j, k = j + 1 := ⟨k - 1, by omega⟩
    obtain ⟨n, rfl⟩ : ∃ m, n = m + 1 := ⟨n - 1, by omega⟩
    rw [nestedBranches, eval_ite, andThen_const (by omega), spend, if_pos (by omega),
      Nat.add_sub_cancel, Nat.add_sub_add_right]
    exact ih (by omega) (by omega)

/-- **Steps escape the limit** where they are suspended in a branch: one evaluation
    is stopped, but the remainder of the first step has lost the conditionals
    whose branches have been chosen, and the second step gets to the end. -/
theorem steps_escape_the_limit :
    let e := nestedBranches 512
    evaluate (.resume e) 1000 = .ok (.completed (.error .nestingExceeded) 511) ∧
      e.EndsIn 500 0 (.ok (.int 1)) ∧ ¬ e.EndsIn 500 0 (.error .nestingExceeded) := by
  intro e
  have hprice : GoesOn (eval [] maxDepth e) 511 (.failed .nestingExceeded, ·) :=
    @goesOn_nestedBranches_of_lt [] 511 512 (by decide)
  have hfirst : evaluate (.resume e) (stepBudget 500 0) =
      .ok (.suspended (nestedBranches 12) 0) := by
    have heval : eval [] maxDepth e (stepBudget 500 0).toNat =
        (.suspended (nestedBranches 12), 0) :=
      @eval_nestedBranches [] maxDepth 512 500 (by decide) (by decide)
    have hrun : run e (stepBudget 500 0) = .suspended (nestedBranches 12) 0 := by
      unfold run
      rw [heval]
      rfl
    exact congrArg Except.ok hrun
  have hsecond : evaluate (.resume (nestedBranches 12)) (stepBudget 500 0) =
      .ok (.completed (.ok (.int 1)) 12) :=
    congrArg Except.ok (@run_of_price _ _ (.ok (.int 1)) 12
      (goesOn_nestedBranches (by decide)) (by decide))
  have hend : e.EndsIn 500 0 (.ok (.int 1)) := .next hfirst (.last hsecond)
  refine ⟨?_, hend, ?_⟩
  · exact congrArg Except.ok (@run_of_price e 1000 (.error .nestingExceeded) 511 hprice (by decide))
  · intro hstopped
    exact nomatch endsIn_unique hend hstopped

end MeteredLedger.Script

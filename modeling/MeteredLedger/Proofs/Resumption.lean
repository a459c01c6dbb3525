import MeteredLedger.Proofs.Stopping

/-! # Resumption

    An evaluation that runs out of budget leaves a remainder. The remainder is
    as good as the expression it came from: evaluating it later, with whatever
    budget, is going on with the evaluation that was suspended.

    * `Expr.levels`: how deep an expression is nested. A remainder is never
      nested deeper than the expression.
    * `eval_goesOn_of_suspends`: after what it has spent, an expression behaves
      as its remainder under every budget.
    * `Expr.Costs`: what an expression ends with, and what it spends until then.
    * `resume_splits_budget`: hence a budget can be split between two
      evaluations. -/

namespace MeteredLedger.Script

/-! ## Section 1: Nesting -/

mutual

/-- The number of nodes on the longest path down an expression. -/
def Expr.levels : Expr → Nat
  | .const _ | .ref _ | .throw _ => 1
  | .letIn _ value body => 1 + max value.levels body.levels
  | .ite cond yes no => 1 + max cond.levels (max yes.levels no.levels)
  | .call _ args => 1 + Expr.argLevels args

/-- The number of nodes on the longest path down one of several arguments. -/
def Expr.argLevels : List Expr → Nat
  | [] => 0
  | arg :: args => max arg.levels (Expr.argLevels args)

end

theorem Expr.levels_pos (e : Expr) : 0 < e.levels := by
  cases e <;> simp only [Expr.levels] <;> omega

@[simp] theorem Expr.argLevels_append (as bs : List Expr) :
    Expr.argLevels (as ++ bs) = max (Expr.argLevels as) (Expr.argLevels bs) := by
  induction as with
  | nil => simp [Expr.argLevels]
  | cons a as ih => rw [List.cons_append, Expr.argLevels, Expr.argLevels, ih]; omega

/-- Finished arguments are no deeper than the arguments they are values of. -/
theorem argLevels_values_le {scope : Scope} {n : Nat} {args : List Expr} {b : Nat}
    {values : List Value} {left : Nat} (h : evalArgs scope n args b = (.done values, left)) :
    Expr.argLevels (values.map .const) ≤ Expr.argLevels args := by
  induction args generalizing b values with
  | nil =>
    obtain ⟨rfl, -⟩ : [] = values ∧ b = left := by simpa [evalArgs] using h
    simp
  | cons arg args ih =>
    rw [evalArgs_cons] at h
    obtain ⟨value, b₁, -, h⟩ := done_of_andThen h
    obtain ⟨values', b₂, hargs, h⟩ := done_of_andThen h
    obtain ⟨rfl, rfl⟩ : value :: values' = values ∧ b₂ = left := by simpa using h
    have := ih hargs
    have := arg.levels_pos
    simp only [List.map_cons, Expr.argLevels, Expr.levels]
    omega

/-- A remainder is never nested deeper than the expression it is left of. -/
theorem levels_le_of_suspends {scope : Scope} {n : Nat} {e : Expr} {b : Nat} {rest : Expr}
    {left : Nat} (h : Suspends scope n e b rest left) : rest.levels ≤ e.levels := by
  -- at every place a part is replaced by its own remainder or by a constant, which has one level
  induction h with
  | ref => exact Nat.le_refl _
  | value _ ih => simp only [Expr.levels]; omega
  | @body _ _ _ value _ _ _ _ _ _ _ _ ih =>
    have := value.levels_pos
    simp only [Expr.levels]; omega
  | cond _ ih => simp only [Expr.levels]; omega
  | @choice _ _ cond =>
    have := cond.levels_pos
    simp only [Expr.levels]; omega
  | @branch _ _ _ _ _ _ test _ _ _ _ _ ih =>
    cases test <;> simp only [Bool.false_eq_true, if_false, if_true] at ih <;>
      simp only [Expr.levels] <;> omega
  | arg hbefore _ ih =>
    have := argLevels_values_le hbefore
    simp only [Expr.levels, Expr.argLevels_append, Expr.argLevels]; omega
  | apply hargs _ =>
    have := argLevels_values_le hargs
    simp only [Expr.levels]; omega

/-- Only an expression that is nested deeper than the limit is stopped by it. -/
theorem lt_levels_of_stops {scope : Scope} {n : Nat} {e : Expr} {entered price : Nat}
    (h : Stops scope n e entered price) : n < e.levels := by
  induction h with
  | limit => exact Expr.levels_pos _
  | value _ ih => simp only [Expr.levels]; omega
  | body _ _ ih => simp only [Expr.levels]; omega
  | cond _ ih => simp only [Expr.levels]; omega
  | @branch _ _ _ _ _ test _ _ _ _ _ ih =>
    cases test <;> simp only [Bool.false_eq_true, if_false, if_true] at ih <;>
      simp only [Expr.levels] <;> omega
  | arg _ _ ih => simp only [Expr.levels, Expr.argLevels_append, Expr.argLevels]; omega

/-! ## Section 2: Going on with a remainder -/

/-- **Resumption**: after what it has spent, an expression behaves as the
    remainder it was suspended with, under every budget. -/
theorem eval_goesOn_of_suspends {scope : Scope} {n : Nat} {e : Expr} {b : Nat} {rest : Expr}
    {left : Nat} (h : Suspends scope n e b rest left) (he : e.levels ≤ n) :
    ∃ spent, b = spent + left ∧ GoesOn (eval scope n e) spent (eval scope n rest) := by
  obtain ⟨spent, hspent, hgo⟩ := eval_goesOnOrStops_of_suspends h
  refine ⟨spent, hspent, fun left => ?_⟩
  rcases hgo left with hsame | hstopped
  · exact hsame
  · -- the limit does not stop an expression that it covers
    rcases heval : eval scope n e (spent + left) with ⟨o, left'⟩
    rw [heval] at hstopped
    obtain rfl : o = .failed .nestingExceeded := hstopped
    obtain ⟨entered, price, hstops, -⟩ := exists_stops heval
    have hlevels := lt_levels_of_stops hstops
    omega

/-! ## Section 3: Splitting a budget -/

/-- The outcome that a completed evaluation reports. -/
def Outcome.ofResult : Except ScriptError Value → Outcome Value Expr
  | .ok value => .done value
  | .error error => .failed error

theorem Outcome.ofResult_isFinal (result : Except ScriptError Value) :
    (ofResult result).IsFinal := by
  cases result <;> trivial

theorem Outcome.ofResult_injective {result result' : Except ScriptError Value}
    (h : ofResult result = ofResult result') : result = result' := by
  cases result <;> cases result' <;> simp_all [ofResult]

/-- With enough budget `e` ends with `result` after spending `price`, and what
    is left of the budget is left over. -/
def Expr.Costs (e : Expr) (price : Nat) (result : Except ScriptError Value) : Prop :=
  GoesOn (eval [] maxDepth e) price (.ofResult result, ·)

theorem toNat_ofNat_of_le {budget : UInt64} {n : Nat} (h : n ≤ budget.toNat) :
    (UInt64.ofNat n).toNat = n :=
  UInt64.toNat_ofNat_of_lt' (Nat.lt_of_le_of_lt h budget.toNat_lt)

theorem toNat_sub_ofNat {budget : UInt64} {n : Nat} (h : n ≤ budget.toNat) :
    (budget - .ofNat n).toNat = budget.toNat - n := by
  rw [UInt64.toNat_sub_of_le, toNat_ofNat_of_le h]
  exact UInt64.le_iff_toNat_le.2 (by rwa [toNat_ofNat_of_le h])

/-- What a completed run says about every budget. -/
theorem price_of_run_completed {e : Expr} {budget : UInt64} {result : Except ScriptError Value}
    {spent : UInt64} (h : run e budget = .completed result spent) :
    e.Costs spent.toNat result := by
  have hfinal : ∃ left, eval [] maxDepth e budget.toNat = (.ofResult result, left) ∧
      budget - .ofNat left = spent := by
    rw [run] at h
    split at h
    · rename_i value left heval
      obtain ⟨rfl, hspent⟩ : .ok value = result ∧ budget - .ofNat left = spent := by simpa using h
      exact ⟨left, heval, hspent⟩
    · rename_i error left heval
      obtain ⟨rfl, hspent⟩ : .error error = result ∧ budget - .ofNat left = spent := by
        simpa using h
      exact ⟨left, heval, hspent⟩
    · simp at h
  obtain ⟨left, heval, rfl⟩ := hfinal
  obtain ⟨price, hprice, hgo⟩ := hasPrice_eval _ _ e _ _ _ heval (Outcome.ofResult_isFinal _)
  rw [toNat_sub_ofNat (by omega), show budget.toNat - left = price by omega]
  exact hgo

/-- What is spent until the end, and what the end is, are properties of the
    expression. -/
theorem price_unique {f : Nat → Outcome Value Expr × Nat} {p q : Nat}
    {value value' : Except ScriptError Value} (h : GoesOn f p (.ofResult value, ·))
    (h' : GoesOn f q (.ofResult value', ·)) : value = value' ∧ p = q := by
  obtain ⟨houtcome, hprice⟩ := goesOn_unique h h'
  exact ⟨Outcome.ofResult_injective houtcome, hprice⟩

/-- A run completes under every budget that covers its price. -/
theorem run_of_price {e : Expr} {budget : UInt64} {result : Except ScriptError Value}
    {spent : Nat} (h : e.Costs spent result) (hbudget : spent ≤ budget.toNat) :
    run e budget = .completed result (.ofNat spent) := by
  -- the run has the rest of the budget left, so its bill is the price
  have heval := h (budget.toNat - spent)
  rw [Nat.add_sub_cancel' hbudget] at heval
  have hspent : budget - .ofNat (budget.toNat - spent) = .ofNat spent := by
    apply UInt64.toNat_inj.1
    rw [toNat_sub_ofNat (by omega), toNat_ofNat_of_le hbudget]
    omega
  cases result <;> simp [run, heval, Outcome.ofResult, hspent]

/-- What a suspended run says about every budget. -/
theorem goesOn_of_run_suspended {e rest : Expr} {budget unused : UInt64}
    (he : e.levels ≤ maxDepth) (h : run e budget = .suspended rest unused) :
    ∃ spent, budget.toNat = spent + unused.toNat ∧ rest.levels ≤ e.levels ∧
      GoesOn (eval [] maxDepth e) spent (eval [] maxDepth rest) := by
  have hsuspends := suspends_of_run h
  obtain ⟨spent, hspent, hgo⟩ := eval_goesOn_of_suspends hsuspends he
  exact ⟨spent, hspent, levels_le_of_suspends hsuspends, hgo⟩

/-- `SameExcept paid a b`: the answers `a` and `b` are the same, except that
    `b` has spent `paid` less. -/
inductive Evaluation.SameExcept (paid : Nat) : Evaluation → Evaluation → Prop where
  | completed {result spent spent'} : spent'.toNat + paid = spent.toNat →
      SameExcept paid (.completed result spent) (.completed result spent')
  | suspended {rest unused} : SameExcept paid (.suspended rest unused) (.suspended rest unused)

/-- Runs that agree after `paid` give the same answers. -/
theorem run_sameExcept {e rest : Expr} {paid : Nat} {b b' : UInt64}
    (hgo : GoesOn (eval [] maxDepth e) paid (eval [] maxDepth rest))
    (hb : b.toNat = paid + b'.toNat) : (run e b).SameExcept paid (run rest b') := by
  have heval : eval [] maxDepth e b.toNat = eval [] maxDepth rest b'.toNat := by rw [hb, hgo]
  -- the two runs end alike, with the same left over, so their bills differ by what was paid before
  rcases hrest : eval [] maxDepth rest b'.toNat with ⟨value | r | error, left⟩
  · obtain ⟨price, hprice, -⟩ := hasPrice_eval _ _ rest _ _ _ hrest trivial
    rw [run, run, heval, hrest]
    refine .completed ?_
    rw [toNat_sub_ofNat (by omega), toNat_sub_ofNat (by omega)]
    omega
  · rw [run, run, heval, hrest]
    exact .suspended
  · obtain ⟨price, hprice, -⟩ := hasPrice_eval _ _ rest _ _ _ hrest trivial
    rw [run, run, heval, hrest]
    refine .completed ?_
    rw [toNat_sub_ofNat (by omega), toNat_sub_ofNat (by omega)]
    omega

/-- **Splitting a budget**: an expression that is suspended under one budget,
    and whose remainder is resumed with what was left and a second budget, gives
    the answer that it gives under both budgets at once; what the first
    evaluation has spent is missing from the bill of the second. -/
theorem resume_splits_budget {e rest : Expr} {b₁ b₂ unused : UInt64}
    (he : e.levels ≤ maxDepth) (hsum : b₁.toNat + b₂.toNat < UInt64.size)
    (h : evaluate (.resume e) b₁ = .ok (.suspended rest unused)) :
    rest.levels ≤ e.levels ∧ unused ≤ b₁ ∧
      ∃ whole resumed, evaluate (.resume e) (b₁ + b₂) = .ok whole ∧
        evaluate (.resume rest) (unused + b₂) = .ok resumed ∧
        whole.SameExcept (b₁.toNat - unused.toNat) resumed := by
  obtain ⟨spent, hspent, hlevels, hgo⟩ := goesOn_of_run_suspended he (Except.ok.inj h)
  -- neither sum of budgets wraps around
  have hwhole : (b₁ + b₂).toNat = b₁.toNat + b₂.toNat := by
    rw [UInt64.toNat_add]
    exact Nat.mod_eq_of_lt hsum
  have hresumed : (unused + b₂).toNat = unused.toNat + b₂.toNat := by
    rw [UInt64.toNat_add]
    exact Nat.mod_eq_of_lt (Nat.lt_of_le_of_lt (by omega) hsum)
  refine ⟨hlevels, UInt64.le_iff_toNat_le.2 (by omega), _, _, rfl, rfl, ?_⟩
  rw [show b₁.toNat - unused.toNat = spent by omega]
  exact run_sameExcept hgo (by omega)

/-- A conditional inside a binding is suspended in its branch, which is all that
    is left of it, and resumed with enough to fail there. -/
theorem resume_splits_budget_in_branch :
    let hash := Expr.call .sha256 [.ref "x"]
    let e := Expr.letIn "x" (.call .add [.const (.int 1), .const (.int 2)])
      (.ite (.const (.bool true)) hash (.throw "no"))
    let rest := Expr.letIn "x" (.const (.int 3)) hash
    e.levels ≤ maxDepth ∧ evaluate (.resume e) 2 = .ok (.suspended rest 0) ∧
      ∃ whole resumed, evaluate (.resume e) (2 + 300) = .ok whole ∧
        evaluate (.resume rest) (0 + 300) = .ok resumed ∧ whole.SameExcept 2 resumed :=
  ⟨by decide, by rfl,
    (@resume_splits_budget _ _ 2 300 0 (by decide) (by decide) (by rfl)).2.2⟩

end MeteredLedger.Script

import MeteredLedger.Proofs.Metering

/-! # Suspension

    How an evaluation comes to run out of budget. `Suspends` lists the places
    where this can happen and the remainder that each of them leaves; whatever
    holds of every remainder is proved by induction on it.

    * `Suspends`: the places.
    * `suspends_of_eval`: the evaluator suspends only there.
    * `left_lt_of_suspends`: what is left would not pay for the dearest node.
    * `suspends_of_run`: the same places for a whole run. -/

namespace MeteredLedger.Script

/-! ## Section 1: Where an evaluation stops -/

/-- `Suspends scope n e b rest left`: with budget `b` and at most `n` levels
    deep, the evaluation of `e` stops with the remainder `rest` and the
    complexity `left`. -/
inductive Suspends : Scope → Nat → Expr → Nat → Expr → Nat → Prop where
  /-- A reference does not fit. -/
  | ref {scope n name} : Suspends scope (n + 1) (.ref name) 0 (.ref name) 0
  /-- The value of a binding stops. -/
  | value {scope n name value body b rest left} :
      Suspends scope n value b rest left →
      Suspends scope (n + 1) (.letIn name value body) b (.letIn name rest body) left
  /-- The body of a binding stops: the finished value stays bound. -/
  | body {scope n name value body b bound b' rest left} :
      eval scope n value b = (.done bound, b') →
      Suspends ((name, bound) :: scope) n body b' rest left →
      Suspends scope (n + 1) (.letIn name value body) b (.letIn name (.const bound) rest) left
  /-- The condition stops. -/
  | cond {scope n cond yes no b rest left} :
      Suspends scope n cond b rest left →
      Suspends scope (n + 1) (.ite cond yes no) b (.ite rest yes no) left
  /-- The choice of a branch does not fit. -/
  | choice {scope n cond yes no b test} :
      eval scope n cond b = (.done test, 0) →
      Suspends scope (n + 1) (.ite cond yes no) b (.ite (.const test) yes no) 0
  /-- The branch chosen stops: the conditional itself is gone. -/
  | branch {scope n cond yes no b test b' rest left} :
      eval scope n cond b = (.done (.bool test), b' + 1) →
      Suspends scope n (if test then yes else no) b' rest left →
      Suspends scope (n + 1) (.ite cond yes no) b rest left
  /-- An argument stops: those before it are finished, those after it untouched. -/
  | arg {scope n function before arg after b values b' rest left} :
      evalArgs scope n before b = (.done values, b') →
      Suspends scope n arg b' rest left →
      Suspends scope (n + 1) (.call function (before ++ arg :: after)) b
        (.call function (values.map .const ++ rest :: after)) left
  /-- The application of a function to finished arguments does not fit. -/
  | apply {scope n function args b values left} :
      evalArgs scope n args b = (.done values, left) → left < function.complexity →
      Suspends scope (n + 1) (.call function args) b (.call function (values.map .const)) left

/-! ### The evaluator stops nowhere else -/

/-- Arguments stop at one of them. -/
theorem exists_of_evalArgs_suspended {scope : Scope} {n : Nat} {args : List Expr} {b : Nat}
    {rest : List Expr} {left : Nat} (h : evalArgs scope n args b = (.suspended rest, left)) :
    ∃ before arg after values b' r, args = before ++ arg :: after ∧
      rest = values.map .const ++ r :: after ∧
      evalArgs scope n before b = (.done values, b') ∧
      eval scope n arg b' = (.suspended r, left) := by
  induction args generalizing b rest with
  | nil => simp [evalArgs] at h
  | cons arg args ih =>
    rw [evalArgs_cons] at h
    -- the first argument stops, or it is finished and one after it stops
    rcases suspended_of_andThen h with ⟨r, harg, rfl⟩ | ⟨value, b₁, harg, h⟩
    · exact ⟨[], arg, args, [], b, r, rfl, rfl, by simp [evalArgs], harg⟩
    · rcases suspended_of_andThen h with ⟨r, hargs, rfl⟩ | ⟨values, b₂, -, h⟩
      · obtain ⟨before, a, after, values, b', r', rfl, rfl, hbefore, ha⟩ := ih hargs
        refine ⟨arg :: before, a, after, value :: values, b', r', rfl, rfl, ?_, ha⟩
        simp [evalArgs, harg, hbefore]
      · simp at h

/-- The evaluator stops only where `Suspends` says. -/
theorem suspends_of_eval {scope : Scope} {n : Nat} {e : Expr} {b : Nat} {rest : Expr} {left : Nat}
    (h : eval scope n e b = (.suspended rest, left)) : Suspends scope n e b rest left := by
  -- induction on the levels that are left, as the evaluator recurses on them
  induction n generalizing scope e b rest left with
  | zero => simp [eval] at h
  | succ n ih =>
    cases e with
    | const value => simp [eval] at h
    | ref name =>
      rw [eval_ref] at h
      rcases suspended_of_spend h with ⟨-, h⟩ | ⟨hb, rfl, rfl⟩
      · cases hl : scope.lookup name <;> simp [hl] at h
      · obtain rfl : b = 0 := by omega
        exact .ref
    | letIn name value body =>
      rw [eval_letIn] at h
      rcases suspended_of_andThen h with ⟨r, hv, rfl⟩ | ⟨bound, b₁, hv, h⟩
      · exact .value (ih hv)
      · rcases suspended_of_andThen h with ⟨r, hb, rfl⟩ | ⟨result, b₂, -, h⟩
        · exact .body hv (ih hb)
        · simp at h
    | ite cond yes no =>
      rw [eval_ite] at h
      rcases suspended_of_andThen h with ⟨r, hc, rfl⟩ | ⟨test, b₁, hc, h⟩
      · exact .cond (ih hc)
      · rcases suspended_of_spend h with ⟨hb, h⟩ | ⟨hb, rfl, rfl⟩
        · obtain ⟨b', rfl⟩ := Nat.exists_eq_add_of_le' hb
          split at h
          · exact .branch hc (ih h)
          · exact .branch hc (ih h)
          · simp at h
        · obtain rfl : b₁ = 0 := by omega
          exact .choice hc
    | call function args =>
      rw [eval_call] at h
      rcases suspended_of_andThen h with ⟨r, ha, rfl⟩ | ⟨values, b₁, ha, h⟩
      · obtain ⟨before, arg, after, values, b₁, r', rfl, rfl, hbefore, harg⟩ :=
          exists_of_evalArgs_suspended ha
        exact .arg hbefore (ih harg)
      · rcases suspended_of_spend h with ⟨-, h⟩ | ⟨hb, rfl, rfl⟩
        · cases ha' : function.apply values <;> simp [ha'] at h
        · exact .apply ha (by omega)
    | throw message => simp [eval] at h

/-! ## Section 2: What is left -/

/-- No function costs more than 200. -/
theorem Builtin.complexity_le (f : Builtin) : f.complexity ≤ 200 := by
  cases f <;> decide

/-- An evaluation that stops has less left than the dearest node costs. -/
theorem left_lt_of_suspends {scope : Scope} {n : Nat} {e : Expr} {b : Nat} {rest : Expr}
    {left : Nat} (h : Suspends scope n e b rest left) : left < 200 := by
  -- a reference and a conditional stop with nothing left, a call with less than it costs
  induction h with
  | ref => decide
  | value _ ih => exact ih
  | body _ _ ih => exact ih
  | cond _ ih => exact ih
  | choice _ => decide
  | branch _ _ ih => exact ih
  | arg _ _ ih => exact ih
  | @apply _ _ function _ _ _ _ _ hlt => exact Nat.lt_of_lt_of_le hlt function.complexity_le

/-- A run stops at one of the places, and reports what is left there. -/
theorem suspends_of_run {e rest : Expr} {budget unused : UInt64}
    (h : run e budget = .suspended rest unused) :
    Suspends [] maxDepth e budget.toNat rest unused.toNat := by
  rw [run] at h
  split at h
  · simp at h
  · simp at h
  · rename_i r left heval
    obtain ⟨rfl, rfl⟩ : r = rest ∧ .ofNat left = unused := by simpa using h
    have hsuspends := suspends_of_eval heval
    have hlt := left_lt_of_suspends hsuspends
    rwa [UInt64.toNat_ofNat_of_lt' (by rw [UInt64.size]; omega)]

/-- The evaluator of the ledger runs the expression of its task. -/
theorem evaluate_eq_ok {task : Task} {budget : UInt64} {answer : Evaluation}
    (h : evaluate task budget = .ok answer) : ∃ e, task.expr = .ok e ∧ run e budget = answer := by
  unfold evaluate at h
  cases he : task.expr with
  | error error => simp [he, Except.map] at h
  | ok e => exact ⟨e, rfl, by simpa [he, Except.map] using h⟩

/-- A run that is suspended leaves less than the dearest node costs. -/
theorem unused_lt_of_run_suspended {e rest : Expr} {budget unused : UInt64}
    (h : run e budget = .suspended rest unused) : unused.toNat < 200 :=
  left_lt_of_suspends (suspends_of_run h)

end MeteredLedger.Script

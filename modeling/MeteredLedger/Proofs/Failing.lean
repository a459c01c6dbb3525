import MeteredLedger.Proofs.Suspension

/-! # Failing evaluations

    How an evaluation comes to fail. `Fails` lists the places where this can
    happen and the error of each of them, as `Suspends` lists those where the
    budget runs out; whatever holds of every failure is proved by induction on it.

    * `Fails`: the places.
    * `Builtin.ofArguments_apply`: a function complains about its arguments only.
    * `fails_of_eval`: the evaluator fails only at these places.
    * `fails_of_run`: the same places for a whole run. -/

namespace MeteredLedger.Script

/-! ## Section 1: Where an evaluation fails -/

/-- `Fails scope n e b error left`: with budget `b` and at most `n` levels deep,
    the evaluation of `e` ends with `error` and has `left` left. -/
inductive Fails : Scope → Nat → Expr → Nat → ScriptError → Nat → Prop where
  /-- No level is left. -/
  | limit {scope e b} : Fails scope 0 e b .nestingExceeded b
  /-- A name is not in scope. -/
  | ref {scope n name b} : scope.lookup name = none →
      Fails scope (n + 1) (.ref name) (b + 1) (.unboundReference name) b
  | value {scope n name value body b error left} :
      Fails scope n value b error left →
      Fails scope (n + 1) (.letIn name value body) b error left
  | body {scope n name value body b bound b' error left} :
      eval scope n value b = (.done bound, b') →
      Fails ((name, bound) :: scope) n body b' error left →
      Fails scope (n + 1) (.letIn name value body) b error left
  | cond {scope n cond yes no b error left} :
      Fails scope n cond b error left →
      Fails scope (n + 1) (.ite cond yes no) b error left
  /-- The condition is no truth value. -/
  | test {scope n cond yes no b value left} :
      eval scope n cond b = (.done value, left + 1) → (∀ test, value ≠ .bool test) →
      Fails scope (n + 1) (.ite cond yes no) b (.conditionNotBoolean value.kind) left
  | branch {scope n cond yes no b test b' error left} :
      eval scope n cond b = (.done (.bool test), b' + 1) →
      Fails scope n (if test then yes else no) b' error left →
      Fails scope (n + 1) (.ite cond yes no) b error left
  | arg {scope n function before arg after b values b' error left} :
      evalArgs scope n before b = (.done values, b') →
      Fails scope n arg b' error left →
      Fails scope (n + 1) (.call function (before ++ arg :: after)) b error left
  /-- A function refuses its arguments. -/
  | apply {scope n function args b values left error} :
      evalArgs scope n args b = (.done values, function.complexity + left) →
      function.apply values = .error error →
      Fails scope (n + 1) (.call function args) b error left
  | throw {scope n message b} : Fails scope (n + 1) (.throw message) b (.thrown message) b

/-! ## Section 2: What a function complains about -/

/-- The error is about the arguments of a function. -/
def ScriptError.OfArguments : ScriptError → Prop
  | wrongArgumentCount .. | typeMismatch .. | identifierLength | integerOverflow => True
  | _ => False

section Readers

variable (v : Value)

theorem Value.ofArguments_toInt : FailsOnlyWith ScriptError.OfArguments v.toInt := by
  cases v <;> first | exact failsOnlyWith_ok _ | exact failsOnlyWith_error trivial

theorem Value.ofArguments_toBool : FailsOnlyWith ScriptError.OfArguments v.toBool := by
  cases v <;> first | exact failsOnlyWith_ok _ | exact failsOnlyWith_error trivial

theorem Value.ofArguments_toStr : FailsOnlyWith ScriptError.OfArguments v.toStr := by
  cases v <;> first | exact failsOnlyWith_ok _ | exact failsOnlyWith_error trivial

theorem Value.ofArguments_toBytes : FailsOnlyWith ScriptError.OfArguments v.toBytes := by
  cases v <;> first | exact failsOnlyWith_ok _ | exact failsOnlyWith_error trivial

theorem Value.ofArguments_toIdentifier : FailsOnlyWith ScriptError.OfArguments v.toIdentifier := by
  cases v <;> first | exact failsOnlyWith_demandSome trivial | exact failsOnlyWith_error trivial

theorem Value.ofArguments_toAsset : FailsOnlyWith ScriptError.OfArguments v.toAsset := by
  unfold toAsset
  split
  · exact failsOnlyWith_ok _
  · exact failsOnlyWith_map (ofArguments_toIdentifier _)

theorem Value.ofArguments_toData : FailsOnlyWith ScriptError.OfArguments v.toData := by
  cases v <;> first | exact failsOnlyWith_ok _ | exact failsOnlyWith_error trivial

end Readers

theorem Builtin.ofArguments_arithmetic (op : Int64 → Int64 → Option Int64) (a b : Value) :
    FailsOnlyWith ScriptError.OfArguments (arithmetic op a b) := by
  refine failsOnlyWith_bind a.ofArguments_toInt fun _ => ?_
  refine failsOnlyWith_bind b.ofArguments_toInt fun _ => ?_
  exact failsOnlyWith_bind (failsOnlyWith_demandSome trivial) fun _ => failsOnlyWith_ok _

/-- A function complains about its arguments only. -/
theorem Builtin.ofArguments_apply (f : Builtin) (values : List Value) :
    FailsOnlyWith ScriptError.OfArguments (f.apply values) := by
  unfold apply
  split
  · exact ofArguments_arithmetic _ _ _
  · exact ofArguments_arithmetic _ _ _
  · exact ofArguments_arithmetic _ _ _
  · exact failsOnlyWith_ok _
  · refine failsOnlyWith_bind (Value.ofArguments_toInt _) fun _ => ?_
    exact failsOnlyWith_bind (Value.ofArguments_toInt _) fun _ => failsOnlyWith_ok _
  · exact failsOnlyWith_bind (Value.ofArguments_toBool _) fun _ => failsOnlyWith_ok _
  · exact failsOnlyWith_bind (Value.ofArguments_toBytes _) fun _ => failsOnlyWith_ok _
  · exact failsOnlyWith_ok _
  · refine failsOnlyWith_bind (Value.ofArguments_toStr _) fun _ => ?_
    exact failsOnlyWith_bind (Value.ofArguments_toData _) fun _ => failsOnlyWith_ok _
  · refine failsOnlyWith_bind (Value.ofArguments_toIdentifier _) fun _ => ?_
    refine failsOnlyWith_bind (Value.ofArguments_toAsset _) fun _ => ?_
    exact failsOnlyWith_bind (Value.ofArguments_toInt _) fun _ => failsOnlyWith_ok _
  · refine failsOnlyWith_bind (Value.ofArguments_toIdentifier _) fun _ => ?_
    refine failsOnlyWith_bind (Value.ofArguments_toInt _) fun _ => ?_
    exact failsOnlyWith_bind (Value.ofArguments_toBool _) fun _ => failsOnlyWith_ok _
  · refine failsOnlyWith_bind (Value.ofArguments_toIdentifier _) fun _ => ?_
    exact failsOnlyWith_bind (Value.ofArguments_toInt _) fun _ => failsOnlyWith_ok _
  · exact failsOnlyWith_error trivial

/-! ## Section 3: Nowhere else -/

theorem failed_of_andThen {α β γ δ : Type} {part : Nat → Outcome α β × Nat} {place : β → δ}
    {next : α → Nat → Outcome γ δ × Nat} {b : Nat} {error : ScriptError} {left : Nat}
    (h : andThen part place next b = (.failed error, left)) :
    part b = (.failed error, left) ∨
      ∃ a b', part b = (.done a, b') ∧ next a b' = (.failed error, left) := by
  rw [andThen] at h
  rcases hp : part b with ⟨a | r | error', b'⟩ <;> rw [hp] at h
  · exact .inr ⟨a, b', rfl, h⟩
  · simp at h
  · obtain ⟨he, rfl⟩ := Prod.mk.inj h
    exact .inl (by rw [Outcome.failed.inj he])

theorem failed_of_spend {γ δ : Type} {cost : Nat} {stuck : δ} {next : Nat → Outcome γ δ × Nat}
    {b : Nat} {error : ScriptError} {left : Nat}
    (h : spend cost stuck next b = (.failed error, left)) :
    cost ≤ b ∧ next (b - cost) = (.failed error, left) := by
  rw [spend] at h
  split at h
  · exact ⟨by assumption, h⟩
  · simp at h

/-- Arguments fail at one of them. -/
theorem exists_of_evalArgs_failed {scope : Scope} {n : Nat} {args : List Expr} {b : Nat}
    {error : ScriptError} {left : Nat} (h : evalArgs scope n args b = (.failed error, left)) :
    ∃ before arg after values b', args = before ++ arg :: after ∧
      evalArgs scope n before b = (.done values, b') ∧
      eval scope n arg b' = (.failed error, left) := by
  induction args generalizing b with
  | nil => simp [evalArgs] at h
  | cons arg args ih =>
    rw [evalArgs_cons] at h
    -- the first argument fails, or it is finished and one after it fails
    rcases failed_of_andThen h with harg | ⟨value, b₁, harg, h⟩
    · exact ⟨[], arg, args, [], b, rfl, by simp [evalArgs], harg⟩
    · rcases failed_of_andThen h with hargs | ⟨values, b₂, -, h⟩
      · obtain ⟨before, a, after, values, b', rfl, hbefore, ha⟩ := ih hargs
        exact ⟨arg :: before, a, after, value :: values, b', rfl, by simp [evalArgs, harg, hbefore],
          ha⟩
      · simp at h

/-- **The evaluator fails** only where `Fails` says. -/
theorem fails_of_eval {scope : Scope} {n : Nat} {e : Expr} {b : Nat} {error : ScriptError}
    {left : Nat} (h : eval scope n e b = (.failed error, left)) : Fails scope n e b error left := by
  -- induction on the levels that are left, as the evaluator recurses on them
  induction n generalizing scope e b left with
  | zero =>
    rw [eval_zero] at h
    obtain ⟨hsame, rfl⟩ := Prod.mk.inj h
    exact Outcome.failed.inj hsame ▸ .limit
  | succ n ih =>
    cases e with
    | const value => simp [eval] at h
    | ref name =>
      rw [eval_ref] at h
      obtain ⟨hfits, h⟩ := failed_of_spend h
      obtain ⟨b', rfl⟩ := Nat.exists_eq_add_of_le' hfits
      cases hlookup : scope.lookup name with
      | some value => simp [hlookup] at h
      | none =>
        rw [hlookup] at h
        obtain ⟨hsame, rfl⟩ := Prod.mk.inj h
        exact Outcome.failed.inj hsame ▸ .ref hlookup
    | letIn name value body =>
      rw [eval_letIn] at h
      rcases failed_of_andThen h with hvalue | ⟨bound, b₁, hvalue, h⟩
      · exact .value (ih hvalue)
      · rcases failed_of_andThen h with hbody | ⟨result, b₂, -, h⟩
        · exact .body hvalue (ih hbody)
        · simp at h
    | ite cond yes no =>
      rw [eval_ite] at h
      rcases failed_of_andThen h with hcond | ⟨test, b₁, hcond, hchosen⟩
      · exact .cond (ih hcond)
      · obtain ⟨hfits, hbranch⟩ := failed_of_spend hchosen
        obtain ⟨b', rfl⟩ := Nat.exists_eq_add_of_le' hfits
        split at hbranch
        · exact .branch hcond (ih hbranch)
        · exact .branch hcond (ih hbranch)
        · rename_i htrue hfalse
          obtain ⟨hsame, rfl⟩ := Prod.mk.inj hbranch
          refine Outcome.failed.inj hsame ▸ .test hcond fun test htest => ?_
          cases test with
          | true => exact htrue htest
          | false => exact hfalse htest
    | call function args =>
      rw [eval_call] at h
      rcases failed_of_andThen h with hargs | ⟨values, b₁, hargs, h⟩
      · obtain ⟨before, arg, after, values, b₁, rfl, hbefore, harg⟩ :=
          exists_of_evalArgs_failed hargs
        exact .arg hbefore (ih harg)
      · obtain ⟨hfits, h⟩ := failed_of_spend h
        obtain ⟨b', rfl⟩ := Nat.exists_eq_add_of_le hfits
        cases happly : function.apply values with
        | ok value => simp [happly] at h
        | error error' =>
          rw [happly, Nat.add_sub_cancel_left] at h
          obtain ⟨hsame, rfl⟩ := Prod.mk.inj h
          exact .apply hargs (Outcome.failed.inj hsame ▸ happly)
    | throw message =>
      obtain ⟨hsame, rfl⟩ := Prod.mk.inj h
      exact Outcome.failed.inj hsame ▸ .throw

/-- A run fails at one of the places. -/
theorem fails_of_run {e : Expr} {budget : UInt64} {error : ScriptError} {spent : UInt64}
    (h : run e budget = .completed (.error error) spent) :
    ∃ left, Fails [] maxDepth e budget.toNat error left := by
  rw [run] at h
  split at h
  · simp at h
  · rename_i error' left heval
    obtain ⟨rfl, -⟩ : error' = error ∧ _ := by simpa using h
    exact ⟨left, fails_of_eval heval⟩
  · simp at h

end MeteredLedger.Script

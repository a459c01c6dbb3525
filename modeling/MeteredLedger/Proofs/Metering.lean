import MeteredLedger.Script.Evaluation

/-! # Metering

    Every clause of the evaluator either runs a part and goes on with its
    result, or spends a cost and goes on if it fits. Facts about budgets are
    proved once for each of these two ways to go on.

    * `eval_ref`, `eval_letIn`, `eval_ite`, `eval_call`, `evalArgs_cons`: the
      clauses of the evaluator in these terms.
    * `hasPrice_eval`: what an evaluation spends until it ends does not depend
      on the budget.
    * `settles_eval`: with enough budget every evaluation ends. -/

namespace MeteredLedger.Script

/-! ## Section 1: Two ways to go on -/

/-- Goes on with the result of a part. What is left of an unfinished part is
    put back into its place. -/
def andThen {α β γ δ : Type} (part : Nat → Outcome α β × Nat) (place : β → δ)
    (next : α → Nat → Outcome γ δ × Nat) (b : Nat) : Outcome γ δ × Nat :=
  match part b with
  | (.done result, b) => next result b
  | (.suspended rest, b) => (.suspended (place rest), b)
  | (.failed error, b) => (.failed error, b)

/-- Spends a cost and goes on, or stops if it does not fit. -/
def spend {γ δ : Type} (cost : Nat) (stuck : δ) (next : Nat → Outcome γ δ × Nat) (b : Nat) :
    Outcome γ δ × Nat :=
  if cost ≤ b then next (b - cost) else (.suspended stuck, b)

theorem done_of_andThen {α β γ δ : Type} {part : Nat → Outcome α β × Nat} {place : β → δ}
    {next : α → Nat → Outcome γ δ × Nat} {b : Nat} {result : γ} {left : Nat}
    (h : andThen part place next b = (.done result, left)) :
    ∃ a b', part b = (.done a, b') ∧ next a b' = (.done result, left) := by
  rw [andThen] at h
  rcases hp : part b with ⟨a | r | error, b'⟩ <;> rw [hp] at h
  · exact ⟨a, b', rfl, h⟩
  · simp at h
  · simp at h

theorem suspended_of_andThen {α β γ δ : Type} {part : Nat → Outcome α β × Nat} {place : β → δ}
    {next : α → Nat → Outcome γ δ × Nat} {b : Nat} {rest : δ} {left : Nat}
    (h : andThen part place next b = (.suspended rest, left)) :
    (∃ r, part b = (.suspended r, left) ∧ place r = rest) ∨
      ∃ a b', part b = (.done a, b') ∧ next a b' = (.suspended rest, left) := by
  rw [andThen] at h
  rcases hp : part b with ⟨a | r | error, b'⟩ <;> rw [hp] at h
  · exact .inr ⟨a, b', rfl, h⟩
  · obtain ⟨hr, rfl⟩ := Prod.mk.inj h
    exact .inl ⟨r, rfl, Outcome.suspended.inj hr⟩
  · simp at h

theorem suspended_of_spend {γ δ : Type} {cost : Nat} {stuck : δ}
    {next : Nat → Outcome γ δ × Nat} {b : Nat} {rest : δ} {left : Nat}
    (h : spend cost stuck next b = (.suspended rest, left)) :
    (cost ≤ b ∧ next (b - cost) = (.suspended rest, left)) ∨
      (b < cost ∧ stuck = rest ∧ b = left) := by
  rw [spend] at h
  split at h
  · exact .inl ⟨by assumption, h⟩
  · obtain ⟨hr, rfl⟩ := Prod.mk.inj h
    exact .inr ⟨by omega, Outcome.suspended.inj hr, rfl⟩

/-! ### The clauses of the evaluator -/

theorem eval_zero (scope : Scope) (e : Expr) :
    eval scope 0 e = fun b => (.failed .nestingExceeded, b) := by
  funext b
  rw [eval]

theorem eval_const (scope : Scope) (n : Nat) (value : Value) :
    eval scope (n + 1) (.const value) = fun b => (.done value, b) := by
  funext b
  rw [eval]

theorem eval_throw (scope : Scope) (n : Nat) (message : String) :
    eval scope (n + 1) (.throw message) = fun b => (.failed (.thrown message), b) := by
  funext b
  rw [eval]

theorem eval_ref (scope : Scope) (n : Nat) (name : String) :
    eval scope (n + 1) (.ref name) = spend 1 (.ref name) fun b =>
      ((scope.lookup name).elim (.failed (.unboundReference name)) .done, b) := by
  funext b
  rw [eval, spend]
  cases scope.lookup name <;> rfl

theorem eval_letIn (scope : Scope) (n : Nat) (name : String) (value body : Expr) :
    eval scope (n + 1) (.letIn name value body) =
      andThen (eval scope n value) (.letIn name · body) fun bound =>
        andThen (eval ((name, bound) :: scope) n body) (.letIn name (.const bound) ·)
          fun result b => (.done result, b) := by
  funext b
  rw [eval, andThen]
  rcases eval scope n value b with ⟨bound | r | error, b'⟩ <;> try rfl
  simp only [andThen]
  rcases eval ((name, bound) :: scope) n body b' with ⟨result | r | error, b''⟩ <;> rfl

theorem eval_ite (scope : Scope) (n : Nat) (cond yes no : Expr) :
    eval scope (n + 1) (.ite cond yes no) =
      andThen (eval scope n cond) (.ite · yes no) fun test =>
        spend 1 (.ite (.const test) yes no) (match test with
          | .bool true => eval scope n yes
          | .bool false => eval scope n no
          | other => fun b => (.failed (.conditionNotBoolean other.kind), b)) := by
  funext b
  rw [eval, andThen]
  rcases eval scope n cond b with ⟨test | r | error, b'⟩ <;> try rfl
  simp only [spend]
  split
  · split <;> simp_all
  · rfl

theorem eval_call (scope : Scope) (n : Nat) (function : Builtin) (args : List Expr) :
    eval scope (n + 1) (.call function args) =
      andThen (evalArgs scope n args) (.call function ·) fun values =>
        spend function.complexity (.call function (values.map .const)) fun b =>
          (match function.apply values with
            | .ok value => .done value
            | .error error => .failed error, b) := by
  funext b
  rw [eval, andThen]
  rcases evalArgs scope n args b with ⟨values | r | error, b'⟩ <;> try rfl
  simp only [spend]
  cases function.apply values <;> rfl

theorem evalArgs_nil (scope : Scope) (n : Nat) : evalArgs scope n [] = fun b => (.done [], b) := by
  funext b
  rw [evalArgs]

theorem evalArgs_cons (scope : Scope) (n : Nat) (arg : Expr) (args : List Expr) :
    evalArgs scope n (arg :: args) =
      andThen (eval scope n arg) (· :: args) fun value =>
        andThen (evalArgs scope n args) (.const value :: ·)
          fun values b => (.done (value :: values), b) := by
  funext b
  rw [evalArgs, andThen]
  rcases eval scope n arg b with ⟨value | r | error, b'⟩ <;> try rfl
  simp only [andThen]
  rcases evalArgs scope n args b' with ⟨values | r | error, b''⟩ <;> rfl

/-! ## Section 2: The price of an evaluation -/

/-- After spending `spent`, `f` goes on as `g`, whatever budget is left over. -/
def GoesOn {α : Type} (f : Nat → α) (spent : Nat) (g : Nat → α) : Prop :=
  ∀ left, f (spent + left) = g left

theorem goesOn_self {α : Type} (f : Nat → α) : GoesOn f 0 f := fun c => by rw [Nat.zero_add]

theorem goesOn_trans {α : Type} {f g h : Nat → α} {p q : Nat} (hf : GoesOn f p g)
    (hg : GoesOn g q h) : GoesOn f (p + q) h := by
  intro c
  rw [Nat.add_assoc, hf, hg]

theorem goesOn_spend {α β : Type} {cost : Nat} {stuck : β} {next g : Nat → Outcome α β × Nat}
    {spent : Nat} (h : GoesOn next spent g) : GoesOn (spend cost stuck next) (cost + spent) g := by
  intro c
  rw [spend, if_pos (by omega), show cost + spent + c - cost = spent + c by omega]
  exact h c

/-- What comes after a finished part may be put off. -/
theorem goesOn_andThen_next {α β γ δ : Type} {part : Nat → Outcome α β × Nat} {place : β → δ}
    {next : α → Nat → Outcome γ δ × Nat} {a : α} {g : Nat → Outcome γ δ × Nat} {s₁ s₂ : Nat}
    (hpart : GoesOn part s₁ (.done a, ·)) (hnext : GoesOn (next a) s₂ g) :
    GoesOn (andThen part place next) (s₁ + s₂) g := by
  intro c
  rw [andThen, Nat.add_assoc, hpart]
  exact hnext c

/-- An outcome that is not a remainder. -/
def Outcome.IsFinal {Result Remainder : Type} : Outcome Result Remainder → Prop
  | .suspended _ => False
  | _ => True

/-- Wherever `f` ends, with a result or an error, it ends in the same way after
    the same spending under every budget that covers it. -/
def HasPrice {α β : Type} (f : Nat → Outcome α β × Nat) : Prop :=
  ∀ b o left, f b = (o, left) → o.IsFinal → ∃ spent, b = spent + left ∧ GoesOn f spent (o, ·)

theorem hasPrice_free {α β : Type} (o : Outcome α β) : HasPrice fun b => (o, b) := by
  intro b o' left h _
  obtain ⟨rfl, rfl⟩ := Prod.mk.inj h
  exact ⟨0, by omega, fun c => by simp⟩

theorem hasPrice_spend {α β : Type} {cost : Nat} {stuck : β} {next : Nat → Outcome α β × Nat}
    (hnext : HasPrice next) : HasPrice (spend cost stuck next) := by
  intro b o left h ho
  by_cases hb : cost ≤ b
  · rw [spend, if_pos hb] at h
    obtain ⟨spent, hspent, hgo⟩ := hnext _ _ _ h ho
    exact ⟨cost + spent, by omega, goesOn_spend hgo⟩
  · rw [spend, if_neg hb] at h
    obtain ⟨rfl, -⟩ := Prod.mk.inj h
    exact ho.elim

theorem hasPrice_andThen {α β γ δ : Type} {part : Nat → Outcome α β × Nat} {place : β → δ}
    {next : α → Nat → Outcome γ δ × Nat} (hpart : HasPrice part)
    (hnext : ∀ a, HasPrice (next a)) : HasPrice (andThen part place next) := by
  intro b o left h ho
  -- the part finishes, or is suspended, which is no end, or fails
  rcases hp : part b with ⟨result | rest | error, b'⟩
  · obtain ⟨s₁, rfl, h₁⟩ := hpart _ _ _ hp trivial
    rw [andThen, hp] at h
    obtain ⟨s₂, rfl, h₂⟩ := hnext result _ _ _ h ho
    exact ⟨s₁ + s₂, by omega, goesOn_andThen_next h₁ h₂⟩
  · rw [andThen, hp] at h
    obtain ⟨rfl, -⟩ := Prod.mk.inj h
    exact ho.elim
  · obtain ⟨s₁, rfl, h₁⟩ := hpart _ _ _ hp trivial
    rw [andThen, hp] at h
    obtain ⟨rfl, rfl⟩ := Prod.mk.inj h
    exact ⟨s₁, rfl, fun c => by rw [andThen, h₁]⟩

theorem hasPrice_evalArgs {scope : Scope} {n : Nat} (heval : ∀ e, HasPrice (eval scope n e))
    (args : List Expr) : HasPrice (evalArgs scope n args) := by
  induction args with
  | nil =>
    rw [evalArgs_nil]
    exact hasPrice_free _
  | cons arg args ih =>
    rw [evalArgs_cons]
    exact hasPrice_andThen (heval arg) fun _ => hasPrice_andThen ih fun _ => hasPrice_free _

/-- **Price of an evaluation**: what an evaluation ends with, and what it
    spends until then, do not depend on the budget that is left over. -/
theorem hasPrice_eval (scope : Scope) (n : Nat) (e : Expr) : HasPrice (eval scope n e) := by
  -- every clause is made of parts that have a price, one level further down
  induction n generalizing scope e with
  | zero =>
    rw [eval_zero]
    exact hasPrice_free _
  | succ n ih =>
    cases e with
    | const value =>
      rw [eval_const]
      exact hasPrice_free _
    | ref name =>
      rw [eval_ref]
      exact hasPrice_spend (hasPrice_free _)
    | letIn name value body =>
      rw [eval_letIn]
      exact hasPrice_andThen (ih _ _) fun _ => hasPrice_andThen (ih _ _) fun _ => hasPrice_free _
    | ite cond yes no =>
      rw [eval_ite]
      refine hasPrice_andThen (ih _ _) fun test => hasPrice_spend ?_
      split
      · exact ih _ _
      · exact ih _ _
      · exact hasPrice_free _
    | call function args =>
      rw [eval_call]
      exact hasPrice_andThen (hasPrice_evalArgs (ih _) args) fun _ =>
        hasPrice_spend (hasPrice_free _)
    | throw message =>
      rw [eval_throw]
      exact hasPrice_free _

/-- Where `f` ends, and what it spends until then, are properties of `f`. -/
theorem goesOn_unique {α β : Type} {f : Nat → Outcome α β × Nat} {p q : Nat} {o o' : Outcome α β}
    (h : GoesOn f p (o, ·)) (h' : GoesOn f q (o', ·)) : o = o' ∧ p = q := by
  -- under the sum of both budgets each leaves what the other has spent
  have hp := h q
  have hq := h' p
  rw [Nat.add_comm q p, hp] at hq
  obtain ⟨houtcome, hleft⟩ := Prod.mk.inj hq
  exact ⟨houtcome, hleft.symm⟩

theorem HasPrice.eq_of_goesOn {α β : Type} {f : Nat → Outcome α β × Nat} {price b left : Nat}
    {o o' : Outcome α β} (hf : HasPrice f) (hprice : GoesOn f price (o, ·)) (h : f b = (o', left))
    (ho' : o'.IsFinal) : o = o' ∧ b = price + left := by
  obtain ⟨spent, hspent, hgo⟩ := hf _ _ _ h ho'
  obtain ⟨hsame, rfl⟩ := goesOn_unique hprice hgo
  exact ⟨hsame, hspent⟩

/-! ## Section 3: Every evaluation ends -/

/-- With some budget, and with every greater one, `f` ends with a result or an
    error. -/
def Settles {α β : Type} (f : Nat → Outcome α β × Nat) : Prop :=
  ∃ price o, o.IsFinal ∧ GoesOn f price (o, ·)

theorem settles_free {α β : Type} {o : Outcome α β} (ho : o.IsFinal) : Settles fun b => (o, b) :=
  ⟨0, o, ho, fun b => by rw [Nat.zero_add]⟩

theorem settles_spend {α β : Type} {cost : Nat} {stuck : β} {next : Nat → Outcome α β × Nat}
    (hnext : Settles next) : Settles (spend cost stuck next) := by
  obtain ⟨price, o, ho, hgo⟩ := hnext
  exact ⟨cost + price, o, ho, goesOn_spend hgo⟩

theorem settles_andThen {α β γ δ : Type} {part : Nat → Outcome α β × Nat} {place : β → δ}
    {next : α → Nat → Outcome γ δ × Nat} (hpart : Settles part) (hnext : ∀ a, Settles (next a)) :
    Settles (andThen part place next) := by
  obtain ⟨price, o, ho, hgo⟩ := hpart
  cases o with
  | done a =>
    obtain ⟨price', o', ho', hgo'⟩ := hnext a
    exact ⟨price + price', o', ho', goesOn_andThen_next hgo hgo'⟩
  | suspended rest => exact ho.elim
  | failed error => exact ⟨price, .failed error, trivial, fun left => by rw [andThen, hgo]⟩

theorem settles_evalArgs {scope : Scope} {n : Nat} (heval : ∀ e, Settles (eval scope n e))
    (args : List Expr) : Settles (evalArgs scope n args) := by
  induction args with
  | nil =>
    rw [evalArgs_nil]
    exact settles_free trivial
  | cons arg args ih =>
    rw [evalArgs_cons]
    exact settles_andThen (heval arg) fun _ => settles_andThen ih fun _ => settles_free trivial

/-- **Every evaluation ends** when its budget is large enough. -/
theorem settles_eval (scope : Scope) (n : Nat) (e : Expr) : Settles (eval scope n e) := by
  -- every clause is made of parts that end, one level further down
  induction n generalizing scope e with
  | zero =>
    rw [eval_zero]
    exact settles_free trivial
  | succ n ih =>
    cases e with
    | const value =>
      rw [eval_const]
      exact settles_free trivial
    | ref name =>
      rw [eval_ref]
      refine settles_spend (settles_free ?_)
      cases scope.lookup name <;> exact trivial
    | letIn name value body =>
      rw [eval_letIn]
      exact settles_andThen (ih _ _) fun _ =>
        settles_andThen (ih _ _) fun _ => settles_free trivial
    | ite cond yes no =>
      rw [eval_ite]
      refine settles_andThen (ih _ _) fun test => settles_spend ?_
      split
      · exact ih _ _
      · exact ih _ _
      · exact settles_free trivial
    | call function args =>
      rw [eval_call]
      refine settles_andThen (settles_evalArgs (ih _) args) fun values =>
        settles_spend (settles_free ?_)
      cases function.apply values <;> exact trivial
    | throw message =>
      rw [eval_throw]
      exact settles_free trivial

end MeteredLedger.Script

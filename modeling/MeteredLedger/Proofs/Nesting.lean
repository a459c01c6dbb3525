import MeteredLedger.Proofs.Suspension

/-! # The limit of nesting

    An evaluation is stopped by an error where an expression is nested too deep.
    Apart from that, the limit is not felt: with more levels an evaluation does
    the same, or it does something where it has been stopped before. A remainder
    may be less deep than the place it has been suspended at, because a
    conditional is gone once its branch has been chosen. So a remainder goes on
    as the expression would have gone on, or where the expression would have been
    stopped.

    * `Relaxes`: the same evaluation, but for the limit.
    * `relaxes_eval`: more levels relax an evaluation.
    * `eval_goesOnOrStops_of_suspends`: an expression goes on as its remainder, or
      is stopped.
    * `goesOn_rest_of_suspended`: unless the expression is stopped, its remainder
      ends as it does. -/

namespace MeteredLedger.Script

/-! ## Section 1: The same but for the limit -/

section Relaxing

variable {α β γ δ : Type}

/-- `g` does what `f` does, wherever `f` is not stopped by the limit of nesting. -/
def Relaxes (f g : Nat → Outcome α β × Nat) : Prop :=
  ∀ b, f b = g b ∨ (f b).1 = .failed .nestingExceeded

/-- After spending `spent`, `f` goes on as `g`, or it is stopped. -/
def GoesOnOrStops (f : Nat → Outcome α β × Nat) (spent : Nat) (g : Nat → Outcome α β × Nat) :
    Prop :=
  ∀ left, f (spent + left) = g left ∨ (f (spent + left)).1 = .failed .nestingExceeded

theorem relaxes_self (f : Nat → Outcome α β × Nat) : Relaxes f f := fun _ => .inl rfl

theorem goesOnOrStops_of_goesOn {f g : Nat → Outcome α β × Nat} {spent : Nat}
    (h : GoesOn f spent g) : GoesOnOrStops f spent g := fun left => .inl (h left)

theorem goesOnOrStops_relaxes {f g g' : Nat → Outcome α β × Nat} {spent : Nat}
    (h : GoesOnOrStops f spent g) (hg : Relaxes g g') : GoesOnOrStops f spent g' := by
  intro left
  rcases h left with hsame | hstopped
  · rw [hsame]
    exact hg left
  · exact .inr hstopped

theorem stopped_of_part {part : Nat → Outcome α β × Nat} {place : β → δ}
    {next : α → Nat → Outcome γ δ × Nat} {b : Nat}
    (h : (part b).1 = .failed .nestingExceeded) :
    (andThen part place next b).1 = .failed .nestingExceeded := by
  rcases hp : part b with ⟨o, left⟩
  rw [hp] at h
  obtain rfl : o = .failed .nestingExceeded := h
  rw [andThen, hp]

theorem relaxes_andThen {part part' : Nat → Outcome α β × Nat} {place : β → δ}
    {next next' : α → Nat → Outcome γ δ × Nat} (hpart : Relaxes part part')
    (hnext : ∀ a, Relaxes (next a) (next' a)) :
    Relaxes (andThen part place next) (andThen part' place next') := by
  intro b
  rcases hpart b with hsame | hstopped
  · rw [andThen, andThen, ← hsame]
    rcases part b with ⟨a | rest | error, left⟩
    · exact hnext a left
    · exact .inl rfl
    · exact .inl rfl
  · exact .inr (stopped_of_part hstopped)

theorem relaxes_spend {cost : Nat} {stuck : β} {next next' : Nat → Outcome α β × Nat}
    (h : Relaxes next next') : Relaxes (spend cost stuck next) (spend cost stuck next') := by
  intro b
  unfold spend
  by_cases hb : cost ≤ b
  · rw [if_pos hb, if_pos hb]
    exact h (b - cost)
  · rw [if_neg hb, if_neg hb]
    exact .inl rfl

theorem goesOnOrStops_spend {cost : Nat} {stuck : β} {next g : Nat → Outcome α β × Nat}
    {spent : Nat} (h : GoesOnOrStops next spent g) :
    GoesOnOrStops (spend cost stuck next) (cost + spent) g := by
  intro left
  rw [spend, if_pos (by omega), show cost + spent + left - cost = spent + left by omega]
  exact h left

/-- A part may be put off. -/
theorem goesOnOrStops_andThen_part {part part' : Nat → Outcome α β × Nat} {place : β → δ}
    {next : α → Nat → Outcome γ δ × Nat} {spent : Nat} (h : GoesOnOrStops part spent part') :
    GoesOnOrStops (andThen part place next) spent (andThen part' place next) := by
  intro left
  rcases h left with hsame | hstopped
  · exact .inl (by rw [andThen, andThen, hsame])
  · exact .inr (stopped_of_part hstopped)

/-- What comes after a finished part may be put off. -/
theorem goesOnOrStops_andThen_next {part : Nat → Outcome α β × Nat} {place : β → δ}
    {next : α → Nat → Outcome γ δ × Nat} {a : α} {g : Nat → Outcome γ δ × Nat} {s₁ s₂ : Nat}
    (hpart : GoesOn part s₁ (.done a, ·)) (hnext : GoesOnOrStops (next a) s₂ g) :
    GoesOnOrStops (andThen part place next) (s₁ + s₂) g := by
  intro left
  rw [andThen, Nat.add_assoc, hpart]
  exact hnext left

end Relaxing

/-! ## Section 2: More levels -/

theorem relaxes_evalArgs {scope : Scope} {n m : Nat}
    (heval : ∀ e, Relaxes (eval scope n e) (eval scope m e)) (args : List Expr) :
    Relaxes (evalArgs scope n args) (evalArgs scope m args) := by
  induction args with
  | nil =>
    rw [evalArgs_nil, evalArgs_nil]
    exact relaxes_self _
  | cons arg args ih =>
    rw [evalArgs_cons, evalArgs_cons]
    exact relaxes_andThen (heval arg) fun _ => relaxes_andThen ih fun _ => relaxes_self _

/-- **More levels** change nothing but the place where an evaluation is stopped. -/
theorem relaxes_eval {n m : Nat} (h : n ≤ m) (scope : Scope) (e : Expr) :
    Relaxes (eval scope n e) (eval scope m e) := by
  -- without any level left everything is stopped; otherwise both limits go down by one
  induction n generalizing m scope e with
  | zero =>
    intro b
    rw [eval_zero]
    exact .inr rfl
  | succ n ih =>
    obtain ⟨m, rfl⟩ : ∃ k, m = k + 1 := ⟨m - 1, by omega⟩
    have hlevels : n ≤ m := by omega
    cases e with
    | const value =>
      rw [eval_const, eval_const]
      exact relaxes_self _
    | ref name =>
      rw [eval_ref, eval_ref]
      exact relaxes_self _
    | letIn name value body =>
      rw [eval_letIn, eval_letIn]
      refine relaxes_andThen (ih hlevels _ _) fun bound => ?_
      exact relaxes_andThen (ih hlevels _ _) fun _ => relaxes_self _
    | ite cond yes no =>
      rw [eval_ite, eval_ite]
      refine relaxes_andThen (ih hlevels _ _) fun test => relaxes_spend ?_
      split
      · exact ih hlevels _ _
      · exact ih hlevels _ _
      · exact relaxes_self _
    | call function args =>
      rw [eval_call, eval_call]
      exact relaxes_andThen (relaxes_evalArgs (ih hlevels _) args) fun _ => relaxes_self _
    | throw message =>
      rw [eval_throw, eval_throw]
      exact relaxes_self _

/-! ## Section 3: Remainders -/

/-- A finished part is skipped for nothing. -/
theorem andThen_const {scope : Scope} {n : Nat} {γ δ : Type} (hn : 0 < n) (value : Value)
    (place : Expr → δ) (next : Value → Nat → Outcome γ δ × Nat) :
    andThen (eval scope n (.const value)) place next = next value := by
  obtain ⟨n, rfl⟩ : ∃ k, n = k + 1 := ⟨n - 1, by omega⟩
  funext b
  rw [andThen, eval_const]

theorem goesOn_const {scope : Scope} {n : Nat} (hn : 0 < n) (value : Value) :
    GoesOn (eval scope n (.const value)) 0 (.done value, ·) := by
  obtain ⟨n, rfl⟩ : ∃ k, n = k + 1 := ⟨n - 1, by omega⟩
  rw [eval_const]
  exact goesOn_self _

theorem levels_pos_of_done {scope : Scope} {n : Nat} {e : Expr} {b : Nat} {value : Value}
    {left : Nat} (h : eval scope n e b = (.done value, left)) : 0 < n := by
  cases n with
  | zero => simp [eval] at h
  | succ n => exact Nat.succ_pos n

/-- Finished arguments stay finished, and cost nothing. -/
theorem evalArgs_values {scope : Scope} {n : Nat} {args : List Expr} {b : Nat}
    {values : List Value} {left : Nat} (h : evalArgs scope n args b = (.done values, left)) :
    evalArgs scope n (values.map .const) = fun b => (.done values, b) := by
  induction args generalizing b values left with
  | nil =>
    obtain ⟨rfl, -⟩ : [] = values ∧ b = left := by simpa [evalArgs] using h
    exact evalArgs_nil scope n
  | cons arg args ih =>
    rw [evalArgs_cons] at h
    obtain ⟨value, b₁, harg, h⟩ := done_of_andThen h
    obtain ⟨values', b₂, hargs, h⟩ := done_of_andThen h
    obtain ⟨rfl, -⟩ : value :: values' = values ∧ b₂ = left := by simpa using h
    rw [List.map_cons, evalArgs_cons, andThen_const (levels_pos_of_done harg), ih hargs]
    funext b
    rw [andThen]

/-- Arguments go on where one of them was suspended. -/
theorem evalArgs_goesOnOrStops {scope : Scope} {n : Nat} {before : List Expr} {b : Nat}
    {values : List Value} {left : Nat}
    (hbefore : evalArgs scope n before b = (.done values, left)) {arg rest : Expr} {spent : Nat}
    (h : GoesOnOrStops (eval scope n arg) spent (eval scope n rest)) (after : List Expr) :
    ∃ s, b = s + left ∧ GoesOnOrStops (evalArgs scope n (before ++ arg :: after)) (s + spent)
      (evalArgs scope n (values.map .const ++ rest :: after)) := by
  induction before generalizing b values with
  | nil =>
    obtain ⟨rfl, rfl⟩ : [] = values ∧ b = left := by simpa [evalArgs_nil] using hbefore
    refine ⟨0, by omega, ?_⟩
    rw [Nat.zero_add, List.nil_append, List.map_nil, List.nil_append, evalArgs_cons, evalArgs_cons]
    exact goesOnOrStops_andThen_part h
  | cons first before ih =>
    rw [evalArgs_cons] at hbefore
    obtain ⟨value, b₁, hfirst, hbefore⟩ := done_of_andThen hbefore
    obtain ⟨values', b₂, hrest, hbefore⟩ := done_of_andThen hbefore
    obtain ⟨rfl, rfl⟩ : value :: values' = values ∧ b₂ = left := by simpa using hbefore
    obtain ⟨s₁, rfl, h₁⟩ := hasPrice_eval scope n first _ _ _ hfirst trivial
    obtain ⟨s₂, rfl, h₂⟩ := ih hrest
    refine ⟨s₁ + s₂, by omega, ?_⟩
    -- the first argument has been paid for, and its value is passed for nothing
    rw [List.map_cons, List.cons_append, List.cons_append, evalArgs_cons, evalArgs_cons,
      andThen_const (levels_pos_of_done hfirst), Nat.add_assoc]
    exact goesOnOrStops_andThen_next h₁ (goesOnOrStops_andThen_part h₂)

/-- **Resumption without a bound on the nesting**: after what it has spent, an
    expression behaves as the remainder it was suspended with, or it is stopped. -/
theorem eval_goesOnOrStops_of_suspends {scope : Scope} {n : Nat} {e : Expr} {b : Nat} {rest : Expr}
    {left : Nat} (h : Suspends scope n e b rest left) :
    ∃ spent, b = spent + left ∧ GoesOnOrStops (eval scope n e) spent (eval scope n rest) := by
  -- induction on the place: what was finished before it is paid for once, and what comes after it
  -- is the same for the expression and for the remainder
  induction h with
  | ref => exact ⟨0, rfl, goesOnOrStops_of_goesOn (goesOn_self _)⟩
  | value _ ih =>
    obtain ⟨s, rfl, hs⟩ := ih
    refine ⟨s, rfl, ?_⟩
    rw [eval_letIn, eval_letIn]
    exact goesOnOrStops_andThen_part hs
  | @body scope n name value body b bound b' rest left hv _ ih =>
    obtain ⟨s₁, rfl, h₁⟩ := hasPrice_eval scope n value _ _ _ hv trivial
    obtain ⟨s₂, rfl, h₂⟩ := ih
    refine ⟨s₁ + s₂, by omega, ?_⟩
    rw [eval_letIn, eval_letIn, andThen_const (levels_pos_of_done hv)]
    exact goesOnOrStops_andThen_next h₁ (goesOnOrStops_andThen_part h₂)
  | cond _ ih =>
    obtain ⟨s, rfl, hs⟩ := ih
    refine ⟨s, rfl, ?_⟩
    rw [eval_ite, eval_ite]
    exact goesOnOrStops_andThen_part hs
  | @choice scope n cond yes no b test hc =>
    obtain ⟨s, hb, hs⟩ := hasPrice_eval scope n cond _ _ _ hc trivial
    refine ⟨s, hb, ?_⟩
    rw [eval_ite, eval_ite, andThen_const (levels_pos_of_done hc)]
    exact goesOnOrStops_andThen_next hs (goesOnOrStops_of_goesOn (goesOn_self _))
  | @branch scope n cond yes no b test b' rest left hc hbranch ih =>
    obtain ⟨s₁, rfl, h₁⟩ := hasPrice_eval scope n cond _ _ _ hc trivial
    obtain ⟨s₂, rfl, h₂⟩ := ih
    refine ⟨s₁ + (1 + s₂), by omega, ?_⟩
    -- the conditional is gone from the remainder, which therefore has one more level
    have hmore := goesOnOrStops_relaxes h₂ (relaxes_eval (Nat.le_succ n) scope rest)
    rw [eval_ite]
    refine goesOnOrStops_andThen_next h₁ (goesOnOrStops_spend ?_)
    cases test <;> exact hmore
  | @arg scope n function before arg after b values b' rest left hbefore _ ih =>
    obtain ⟨s₂, rfl, h₂⟩ := ih
    obtain ⟨s₁, rfl, h₁⟩ := evalArgs_goesOnOrStops hbefore h₂ after
    refine ⟨s₁ + s₂, by omega, ?_⟩
    rw [eval_call, eval_call]
    exact goesOnOrStops_andThen_part h₁
  | @apply scope n function args b values left hargs _ =>
    obtain ⟨s, rfl, hs⟩ := hasPrice_evalArgs (hasPrice_eval scope n) args _ _ _ hargs trivial
    refine ⟨s, rfl, ?_⟩
    rw [eval_call, eval_call]
    -- only the application is left, and it is retried with all arguments finished
    refine goesOnOrStops_andThen_part (goesOnOrStops_of_goesOn ?_)
    rw [evalArgs_values hargs]
    exact hs

/-- What an expression ends with, its remainder ends with as well, for the rest of
    the price. -/
theorem goesOn_rest_of_suspended {scope : Scope} {n : Nat} {e : Expr} {b : Nat} {rest : Expr}
    {left price : Nat} {o : Outcome Value Expr} (h : eval scope n e b = (.suspended rest, left))
    (hprice : GoesOn (eval scope n e) price (o, ·)) (ho : o.IsFinal)
    (hgoes : o ≠ .failed .nestingExceeded) :
    ∃ spent remaining, b = spent + left ∧ price = spent + remaining ∧
      GoesOn (eval scope n rest) remaining (o, ·) := by
  obtain ⟨spent, hspent, hrest⟩ := eval_goesOnOrStops_of_suspends (suspends_of_eval h)
  -- a budget that covers the price does not run out
  have hlt : b < price := by
    rcases Nat.lt_or_ge b price with hlt | hcovered
    · exact hlt
    · have hended := hprice (b - price)
      rw [Nat.add_sub_cancel' hcovered, h] at hended
      obtain rfl := (Prod.mk.inj hended).1
      exact ho.elim
  refine ⟨spent, price - spent, hspent, by omega, ?_⟩
  intro c
  have hwhole := hprice c
  rw [show price + c = spent + (price - spent + c) by omega] at hwhole
  rcases hrest (price - spent + c) with hsame | hstopped
  · rw [← hsame, hwhole]
  · rw [hwhole] at hstopped
    exact absurd hstopped hgoes

end MeteredLedger.Script

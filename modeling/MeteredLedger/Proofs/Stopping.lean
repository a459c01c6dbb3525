import MeteredLedger.Proofs.Failing
import MeteredLedger.Proofs.Nesting

/-! # Stopped evaluations

    Where the limit of nesting stops an evaluation, and when it does so also after
    the evaluation has been suspended. As long as no branch on the way to that
    place has been chosen, the remainder is nested as the expression is, and it is
    stopped at the same place.

    * `Stops`: where an evaluation is stopped, what it has spent by then, and what
      it had spent when it chose the first branch on the way there.
    * `exists_stops`: it is stopped nowhere else.
    * `goesOn_of_stops`: it is always stopped there.
    * `stops_of_suspended`: an evaluation that is suspended before it chooses that
      branch is stopped there when it goes on. -/

namespace MeteredLedger.Script

/-! ## Section 1: Where an evaluation is stopped -/

/-- `Stops scope n e entered price`: at most `n` levels deep, the evaluation of `e`
    is stopped after spending `price`. On the way there it has chosen the first
    branch after spending `entered`; if no branch leads there, `entered` is
    `price`. -/
inductive Stops : Scope → Nat → Expr → Nat → Nat → Prop where
  /-- No level is left. -/
  | limit {scope e} : Stops scope 0 e 0 0
  | value {scope n name value body entered price} :
      Stops scope n value entered price →
      Stops scope (n + 1) (.letIn name value body) entered price
  | body {scope n name value body bound cost entered price} :
      GoesOn (eval scope n value) cost (.done bound, ·) →
      Stops ((name, bound) :: scope) n body entered price →
      Stops scope (n + 1) (.letIn name value body) (cost + entered) (cost + price)
  | cond {scope n cond yes no entered price} :
      Stops scope n cond entered price →
      Stops scope (n + 1) (.ite cond yes no) entered price
  /-- Whatever branches there are inside of the branch, it is the first one. -/
  | branch {scope n cond yes no test cost entered price} :
      GoesOn (eval scope n cond) cost (.done (.bool test), ·) →
      Stops scope n (if test then yes else no) entered price →
      Stops scope (n + 1) (.ite cond yes no) (cost + 1) (cost + 1 + price)
  | arg {scope n function before arg after values cost entered price} :
      GoesOn (evalArgs scope n before) cost (.done values, ·) →
      Stops scope n arg entered price →
      Stops scope (n + 1) (.call function (before ++ arg :: after)) (cost + entered) (cost + price)

/-! ## Section 2: Nowhere else -/

/-- The error is not about nesting. -/
def ScriptError.NotNesting (error : ScriptError) : Prop := error ≠ .nestingExceeded

/-- No function complains about nesting. -/
theorem Builtin.notNesting_apply (f : Builtin) (values : List Value) :
    FailsOnlyWith ScriptError.NotNesting (f.apply values) := by
  rintro error h rfl
  exact f.ofArguments_apply values _ h

/-- **An evaluation is stopped** only where `Stops` says. -/
theorem exists_stops {scope : Scope} {n : Nat} {e : Expr} {b left : Nat}
    (h : eval scope n e b = (.failed .nestingExceeded, left)) :
    ∃ entered price, Stops scope n e entered price ∧ b = price + left := by
  have hfails := fails_of_eval h
  clear h
  generalize herror : ScriptError.nestingExceeded = error at hfails
  induction hfails with
  | limit => exact ⟨0, 0, .limit, (Nat.zero_add _).symm⟩
  | ref _ => exact nomatch herror
  | value _ ih =>
    obtain ⟨entered, price, hstops, hb⟩ := ih herror
    exact ⟨entered, price, .value hstops, hb⟩
  | body hvalue _ ih =>
    obtain ⟨cost, rfl, hcost⟩ := hasPrice_eval _ _ _ _ _ _ hvalue trivial
    obtain ⟨entered, price, hstops, rfl⟩ := ih herror
    exact ⟨_, _, .body hcost hstops, by omega⟩
  | cond _ ih =>
    obtain ⟨entered, price, hstops, hb⟩ := ih herror
    exact ⟨entered, price, .cond hstops, hb⟩
  | test _ _ => exact nomatch herror
  | branch hcond _ ih =>
    obtain ⟨cost, rfl, hcost⟩ := hasPrice_eval _ _ _ _ _ _ hcond trivial
    obtain ⟨entered, price, hstops, rfl⟩ := ih herror
    exact ⟨_, _, .branch hcost hstops, by omega⟩
  | arg hbefore _ ih =>
    obtain ⟨cost, rfl, hcost⟩ := hasPrice_evalArgs (hasPrice_eval _ _) _ _ _ _ hbefore trivial
    obtain ⟨entered, price, hstops, rfl⟩ := ih herror
    exact ⟨_, _, .arg hcost hstops, by omega⟩
  | apply _ happly => exact absurd herror.symm (Builtin.notNesting_apply _ _ _ happly)
  | throw => exact nomatch herror

/-! ## Section 3: Always there -/

theorem goesOn_failed_andThen {α β γ δ : Type} {part : Nat → Outcome α β × Nat} {place : β → δ}
    {next : α → Nat → Outcome γ δ × Nat} {price : Nat} {error : ScriptError}
    (h : GoesOn part price (.failed error, ·)) :
    GoesOn (andThen part place next) price (.failed error, ·) := by
  intro left
  rw [andThen, h]

/-- Finished arguments have been finished one after another. -/
theorem goesOn_of_evalArgs_cons {scope : Scope} {n : Nat} {arg : Expr} {args : List Expr}
    {cost : Nat} {values : List Value}
    (h : GoesOn (evalArgs scope n (arg :: args)) cost (.done values, ·)) :
    ∃ value values' cost₁ cost₂, values = value :: values' ∧ cost = cost₁ + cost₂ ∧
      GoesOn (eval scope n arg) cost₁ (.done value, ·) ∧
      GoesOn (evalArgs scope n args) cost₂ (.done values', ·) := by
  have hexact := h 0
  rw [evalArgs_cons] at hexact
  obtain ⟨value, b₁, harg, hexact⟩ := done_of_andThen hexact
  obtain ⟨values', b₂, hargs, hexact⟩ := done_of_andThen hexact
  obtain ⟨rfl, rfl⟩ : value :: values' = values ∧ b₂ = 0 := by simpa using hexact
  obtain ⟨cost₁, hcost, harg⟩ := hasPrice_eval _ _ _ _ _ _ harg trivial
  obtain ⟨cost₂, hcost', hargs⟩ := hasPrice_evalArgs (hasPrice_eval scope n) _ _ _ _ hargs trivial
  exact ⟨value, values', cost₁, cost₂, rfl, by omega, harg, hargs⟩

theorem goesOn_failed_evalArgs {scope : Scope} {n : Nat} {before : List Expr} {values : List Value}
    {cost price : Nat} {arg : Expr} {error : ScriptError}
    (hbefore : GoesOn (evalArgs scope n before) cost (.done values, ·))
    (harg : GoesOn (eval scope n arg) price (.failed error, ·)) (after : List Expr) :
    GoesOn (evalArgs scope n (before ++ arg :: after)) (cost + price) (.failed error, ·) := by
  induction before generalizing values cost with
  | nil =>
    obtain rfl : cost = 0 := by simpa [evalArgs_nil] using congrArg Prod.snd (hbefore 0)
    rw [Nat.zero_add, List.nil_append, evalArgs_cons]
    exact goesOn_failed_andThen harg
  | cons first before ih =>
    obtain ⟨value, values', cost₁, cost₂, -, rfl, hfirst, hrest⟩ := goesOn_of_evalArgs_cons hbefore
    rw [List.cons_append, evalArgs_cons, Nat.add_assoc]
    exact goesOn_andThen_next hfirst (goesOn_failed_andThen (ih hrest))

/-- **An evaluation is stopped** wherever `Stops` says, after spending the price. -/
theorem goesOn_of_stops {scope : Scope} {n : Nat} {e : Expr} {entered price : Nat}
    (h : Stops scope n e entered price) :
    GoesOn (eval scope n e) price (.failed .nestingExceeded, ·) := by
  induction h with
  | limit =>
    rw [eval_zero]
    exact goesOn_self _
  | value _ ih =>
    rw [eval_letIn]
    exact goesOn_failed_andThen ih
  | body hvalue _ ih =>
    rw [eval_letIn]
    exact goesOn_andThen_next hvalue (goesOn_failed_andThen ih)
  | cond _ ih =>
    rw [eval_ite]
    exact goesOn_failed_andThen ih
  | @branch _ _ _ _ _ test _ _ _ hcond _ ih =>
    rw [eval_ite, Nat.add_assoc]
    refine goesOn_andThen_next hcond (goesOn_spend ?_)
    cases test <;> exact ih
  | arg hbefore _ ih =>
    rw [eval_call]
    exact goesOn_failed_andThen (goesOn_failed_evalArgs hbefore ih _)

/-! ## Section 4: Suspended before the first branch -/

/-- Arguments that are suspended before the one that is stopped, or in it, are
    stopped at the same one later. -/
theorem stops_of_evalArgs_suspended {scope : Scope} {n : Nat} {before after : List Expr}
    {arg : Expr} {values : List Value} {cost entered price b : Nat} {rest : List Expr} {left : Nat}
    (hbefore : GoesOn (evalArgs scope n before) cost (.done values, ·))
    (hstops : Stops scope n arg entered price)
    (harg : ∀ b rest left, b < entered → eval scope n arg b = (.suspended rest, left) →
      ∃ spent entered' price', b = spent + left ∧ entered = spent + entered' ∧
        price = spent + price' ∧ Stops scope n rest entered' price')
    (hb : b < cost + entered)
    (h : evalArgs scope n (before ++ arg :: after) b = (.suspended rest, left)) :
    ∃ before' arg' values' spent cost' entered' price', rest = before' ++ arg' :: after ∧
      b = spent + left ∧ cost + entered = spent + (cost' + entered') ∧
      cost + price = spent + (cost' + price') ∧
      GoesOn (evalArgs scope n before') cost' (.done values', ·) ∧
      Stops scope n arg' entered' price' := by
  induction before generalizing cost values b rest with
  | nil =>
    obtain rfl : cost = 0 := by simpa [evalArgs_nil] using congrArg Prod.snd (hbefore 0)
    rw [List.nil_append, evalArgs_cons] at h
    rcases suspended_of_andThen h with ⟨r, hr, rfl⟩ | ⟨value, b', hdone, -⟩
    · obtain ⟨spent, entered', price', hspent, hentered, hprice, hlater⟩ :=
        harg b r left (by omega) hr
      refine ⟨[], r, [], spent, 0, entered', price', rfl, hspent, by omega, by omega, ?_, hlater⟩
      rw [evalArgs_nil]
      exact goesOn_self _
    · exact nomatch (hasPrice_eval _ _ _).eq_of_goesOn (goesOn_of_stops hstops) hdone trivial
  | cons first before ih =>
    obtain ⟨value, values', cost₁, cost₂, -, rfl, hfirst, hrest⟩ := goesOn_of_evalArgs_cons hbefore
    rw [List.cons_append, evalArgs_cons] at h
    rcases suspended_of_andThen h with ⟨r, hr, rfl⟩ | ⟨value', b', hdone, hnext⟩
    · obtain ⟨spent, remaining, hspent, rfl, hgo⟩ :=
        goesOn_rest_of_suspended hr hfirst trivial nofun
      refine ⟨r :: before, arg, value :: values', spent, remaining + cost₂, entered, price, rfl,
        hspent, by omega, by omega, ?_, hstops⟩
      rw [evalArgs_cons]
      exact goesOn_andThen_next hgo (goesOn_andThen_next hrest (goesOn_self _))
    · obtain ⟨hsame, rfl⟩ := (hasPrice_eval _ _ _).eq_of_goesOn hfirst hdone trivial
      obtain rfl : value = value' := Outcome.done.inj hsame
      rcases suspended_of_andThen hnext with ⟨r, hr, rfl⟩ | ⟨values'', b'', -, hended⟩
      · obtain ⟨before', arg', values'', spent, cost', entered', price', rfl, hspent, hentered,
          hprice, hgo, hlater⟩ := ih hrest (by omega) hr
        refine ⟨.const value :: before', arg', value :: values'', cost₁ + spent, cost', entered',
          price', rfl, by omega, by omega, by omega, ?_, hlater⟩
        rw [evalArgs_cons, andThen_const (levels_pos_of_done hdone)]
        exact goesOn_andThen_next hgo (goesOn_self _)
      · simp at hended

/-- **An evaluation that is suspended** before it chooses the first branch on the
    way to the place where it is stopped is stopped there when it goes on. -/
theorem stops_of_suspended {scope : Scope} {n : Nat} {e : Expr} {entered price b : Nat}
    {rest : Expr} {left : Nat} (h : Stops scope n e entered price) (hb : b < entered)
    (hsuspended : eval scope n e b = (.suspended rest, left)) :
    ∃ spent entered' price', b = spent + left ∧ entered = spent + entered' ∧
      price = spent + price' ∧ Stops scope n rest entered' price' := by
  -- what is finished before the place stays finished, and what leads there stays as it is
  induction h generalizing b rest left with
  | limit => exact absurd hb (Nat.not_lt_zero b)
  | value hstops ih =>
    rw [eval_letIn] at hsuspended
    rcases suspended_of_andThen hsuspended with ⟨r, hr, rfl⟩ | ⟨bound, b', hdone, -⟩
    · obtain ⟨spent, entered', price', hspent, hentered, hprice, hlater⟩ := ih hb hr
      exact ⟨spent, entered', price', hspent, hentered, hprice, .value hlater⟩
    · exact nomatch (hasPrice_eval _ _ _).eq_of_goesOn (goesOn_of_stops hstops) hdone trivial
  | @body scope _ _ _ _ bound cost _ _ hvalue hstops ih =>
    rw [eval_letIn] at hsuspended
    rcases suspended_of_andThen hsuspended with ⟨r, hr, rfl⟩ | ⟨bound', b', hdone, hnext⟩
    · obtain ⟨spent, remaining, hspent, rfl, hgo⟩ :=
        goesOn_rest_of_suspended hr hvalue trivial nofun
      exact ⟨spent, _, _, hspent, by omega, by omega, .body hgo hstops⟩
    · obtain ⟨hsame, rfl⟩ := (hasPrice_eval _ _ _).eq_of_goesOn hvalue hdone trivial
      obtain rfl : bound = bound' := Outcome.done.inj hsame
      rcases suspended_of_andThen hnext with ⟨r, hr, rfl⟩ | ⟨value, b'', -, hended⟩
      · obtain ⟨spent, entered', price', hspent, hentered, hprice, hlater⟩ := ih (by omega) hr
        have hbound := @goesOn_const scope _ (levels_pos_of_done hdone) bound
        exact ⟨cost + spent, 0 + entered', 0 + price', by omega, by omega, by omega,
          .body hbound hlater⟩
      · simp at hended
  | cond hstops ih =>
    rw [eval_ite] at hsuspended
    rcases suspended_of_andThen hsuspended with ⟨r, hr, rfl⟩ | ⟨test, b', hdone, -⟩
    · obtain ⟨spent, entered', price', hspent, hentered, hprice, hlater⟩ := ih hb hr
      exact ⟨spent, entered', price', hspent, hentered, hprice, .cond hlater⟩
    · exact nomatch (hasPrice_eval _ _ _).eq_of_goesOn (goesOn_of_stops hstops) hdone trivial
  | @branch scope _ _ _ _ test cost _ price hcond hstops ih =>
    rw [eval_ite] at hsuspended
    rcases suspended_of_andThen hsuspended with ⟨r, hr, rfl⟩ | ⟨test', b', hdone, hnext⟩
    · obtain ⟨spent, remaining, hspent, rfl, hgo⟩ :=
        goesOn_rest_of_suspended hr hcond trivial nofun
      exact ⟨spent, _, _, hspent, by omega, by omega, .branch hgo hstops⟩
    · obtain ⟨hsame, rfl⟩ := (hasPrice_eval _ _ _).eq_of_goesOn hcond hdone trivial
      obtain rfl : Value.bool test = test' := Outcome.done.inj hsame
      rcases suspended_of_spend hnext with ⟨hfits, -⟩ | ⟨-, rfl, rfl⟩
      · omega
      · have htest := @goesOn_const scope _ (levels_pos_of_done hdone) (.bool test)
        exact ⟨cost, 0 + 1, 0 + 1 + price, rfl, by omega, by omega, .branch htest hstops⟩
  | @arg _ _ _ _ _ after _ _ _ _ hbefore hstops ih =>
    rw [eval_call] at hsuspended
    rcases suspended_of_andThen hsuspended with ⟨r, hr, rfl⟩ | ⟨values, b', hdone, -⟩
    · obtain ⟨before', arg', values', spent, cost', entered', price', rfl, hspent, hentered,
        hprice, hgo, hlater⟩ := stops_of_evalArgs_suspended hbefore hstops
          (fun b rest left hb h => ih hb h) hb hr
      exact ⟨spent, _, _, hspent, hentered, hprice, .arg hgo hlater⟩
    · have hfailed := goesOn_failed_evalArgs hbefore (goesOn_of_stops hstops) after
      exact nomatch (hasPrice_evalArgs (hasPrice_eval _ _) _).eq_of_goesOn hfailed hdone trivial

end MeteredLedger.Script

import MeteredLedger.Proofs.ReadBack
import MeteredLedger.Proofs.Resumption
import MeteredLedger.Proofs.Writing
import MeteredLedger.Stepwise

/-! # Stepping

    An expression that is evaluated in steps of equal budget gets to its end, and
    it is known beforehand when: complexity that a step does not spend is there
    in the next one, so the steps together have spent what a single evaluation
    spends. A step may well spend nothing and only save up for a dear node.

    * `Expr.exists_costs`: every expression has a price.
    * `stepCount`: the number of steps in which a price is spent.
    * `Underway`: the invariant of stepping.
    * `underway_step`: a step is the last one or keeps the invariant.
    * `steps_spend_the_price`: how many steps there are, and what they spend. -/

namespace MeteredLedger

open Script (Evaluation Expr GoesOn Outcome ScriptError Value eval maxDepth run)
open Wire (Fits)

/-! ## Section 1: Prices -/

namespace Script

theorem Expr.exists_costs (e : Expr) : ∃ price result, e.Costs price result := by
  obtain ⟨price, o, ho, hgo⟩ := settles_eval [] maxDepth e
  cases o with
  | done value => exact ⟨price, .ok value, hgo⟩
  | suspended rest => exact ho.elim
  | failed error => exact ⟨price, .error error, hgo⟩

variable {e rest : Expr} {price : Nat} {result : Except ScriptError Value} {budget : UInt64}

/-- A budget below the price does not suffice. -/
theorem Expr.Costs.run_suspended (h : e.Costs price result) (hbudget : budget.toNat < price) :
    ∃ rest unused, run e budget = .suspended rest unused := by
  -- any other end would have a price of its own, which is at most the budget
  rcases heval : eval [] maxDepth e budget.toNat with ⟨value | rest | error, left⟩
  · obtain ⟨spent, hspent, hgo⟩ := hasPrice_eval _ _ e _ _ _ heval trivial
    obtain ⟨-, rfl⟩ : result = .ok value ∧ price = spent := price_unique h hgo
    omega
  · exact ⟨rest, .ofNat left, by rw [run, heval]⟩
  · obtain ⟨spent, hspent, hgo⟩ := hasPrice_eval _ _ e _ _ _ heval trivial
    obtain ⟨-, rfl⟩ : result = .error error ∧ price = spent := price_unique h hgo
    omega

/-- What an expression goes on as has the rest of its price to pay. -/
theorem Expr.Costs.of_goesOn {spent : Nat} (h : e.Costs price result)
    (hgo : GoesOn (eval [] maxDepth e) spent (eval [] maxDepth rest)) :
    ∃ remaining, price = spent + remaining ∧ rest.Costs remaining result := by
  obtain ⟨remaining, result', hrest⟩ := rest.exists_costs
  have hwhole := goesOn_trans hgo hrest
  obtain ⟨rfl, hprice⟩ := price_unique h hwhole
  exact ⟨remaining, hprice, hrest⟩

/-- What a run leaves of an expression that can be written can be written. -/
theorem fits_of_run_suspended {unused : UInt64} (he : Fits e)
    (h : run e budget = .suspended rest unused) : Fits rest :=
  fits_of_suspends (suspends_of_run h) Scope.fits_nil he

end Script

/-! ## Section 2: Steps -/

/-- The number of steps in which a price is spent, each with this budget:
    one step at least, and none that begins when everything has been spent. -/
def stepCount (price budget : Nat) : Nat := max 1 ((price + budget - 1) / budget)

theorem stepCount_pos (price budget : Nat) : 0 < stepCount price budget :=
  Nat.lt_of_lt_of_le Nat.one_pos (Nat.le_max_left _ _)

theorem lt_stepCount_iff {price budget n : Nat} (hbudget : 0 < budget) :
    n + 1 < stepCount price budget ↔ (n + 1) * budget < price := by
  have hdiv := Nat.div_le_iff_le_mul_add_pred (a := price + budget - 1) (c := n + 1) hbudget
  have hcomm : budget * (n + 1) = (n + 1) * budget := Nat.mul_comm _ _
  unfold stepCount
  omega

/-- What steps with a budget of `max` have spent according to their answers, if
    `unused` was left over before the first of them. -/
def totalSpent (max unused : Nat) : List Evaluation → Nat
  | [] => 0
  | .completed _ spent :: answers => spent.toNat + totalSpent max 0 answers
  | .suspended _ left :: answers =>
    (max + unused - left.toNat) + totalSpent max left.toNat answers

theorem reload_of_fits {rest : Expr} (h : Fits rest) (step : UInt32) (unused : UInt64) :
    (Progress.suspended step rest unused).reload = some (.suspended step rest unused) := by
  have hfits : Fits (Progress.suspended step rest unused) := h
  rw [Progress.reload, Wire.encode?_eq_some_iff.2 ⟨hfits, rfl⟩]
  exact Wire.decode?_encode hfits

variable {max : UInt64} {price : Nat} {result : Except ScriptError Value}

/-- After `n` steps with a budget of `max` each, all of them suspended, `rest`
    and `unused` are left of an expression with this price. -/
structure Underway (max : UInt64) (price : Nat) (result : Except ScriptError Value) (n : Nat)
    (rest : Expr) (unused : UInt64) (spent : Nat) : Prop where
  levels : rest.levels ≤ maxDepth
  costs : ∃ remaining, price = spent + remaining ∧ rest.Costs remaining result
  /-- What has been granted has been spent or is left. -/
  granted : spent + unused.toNat = n * max.toNat
  unused_lt : unused.toNat < 200
  early : n < stepCount price max.toNat
  /-- What the next step leaves can be written. -/
  written : ∀ rest' unused',
    run rest (saturate64 (max.toNat + unused.toNat)) = .suspended rest' unused' → Fits rest'

theorem underway_start {e : Expr} (he : e.levels ≤ maxDepth) (hcosts : e.Costs price result)
    (hwritten : ∀ rest unused, run e max = .suspended rest unused → Fits rest) :
    Underway max price result 0 e 0 0 where
  levels := he
  costs := ⟨price, by omega, hcosts⟩
  granted := by simp
  unused_lt := by decide
  early := stepCount_pos _ _
  written := by
    rwa [UInt64.toNat_zero, Nat.add_zero, saturate64_toNat]

/-- The rest of the price is what the remainder costs. -/
theorem Underway.costs_rest {n : Nat} {rest : Expr} {unused : UInt64} {spent : Nat}
    (h : Underway max price result n rest unused spent) : rest.Costs (price - spent) result := by
  obtain ⟨remaining, rfl, hcosts⟩ := h.costs
  rwa [Nat.add_sub_cancel_left]

section Step

variable {n : Nat} {rest : Expr} {unused : UInt64} {spent : Nat}

/-- **One step**: either the budget covers the rest of the price, and the step is
    the last one, or the step leaves something and there is another one. -/
theorem underway_step (hmin : 0 < max.toNat) (hmax : max.toNat + 200 < UInt64.size)
    (h : Underway max price result n rest unused spent) :
    (n + 1 = stepCount price max.toNat ∧
      ∃ last, run rest (saturate64 (max.toNat + unused.toNat)) = .completed result last ∧
        spent + last.toNat = price) ∨
    ∃ rest' unused', run rest (saturate64 (max.toNat + unused.toNat)) = .suspended rest' unused' ∧
      Fits rest' ∧ Underway max price result (n + 1) rest' unused'
        (spent + (max.toNat + unused.toNat - unused'.toNat)) := by
  obtain ⟨remaining, hprice, hcosts⟩ := h.costs
  have hgranted := h.granted
  have hunused := h.unused_lt
  have hearly := h.early
  have hcount : n + 1 < stepCount price max.toNat ↔ (n + 1) * max.toNat < price :=
    lt_stepCount_iff hmin
  have hnext : (n + 1) * max.toNat = n * max.toNat + max.toNat := Nat.succ_mul _ _
  -- little enough is left over for the budget to be exact
  have hbudget : (saturate64 (max.toNat + unused.toNat)).toNat = max.toNat + unused.toNat := by
    rw [toNat_saturate64]
    omega
  by_cases hcovered : remaining ≤ max.toNat + unused.toNat
  · left
    rw [← hbudget] at hcovered
    have hrun := Script.run_of_price hcosts hcovered
    have hspent := Script.toNat_ofNat_of_le hcovered
    exact ⟨by omega, _, hrun, by omega⟩
  · right
    rw [← hbudget, Nat.not_le] at hcovered
    obtain ⟨rest', unused', hrun⟩ := hcosts.run_suspended hcovered
    obtain ⟨spent', hspent', hlevels, hgo⟩ := Script.goesOn_of_run_suspended h.levels hrun
    obtain ⟨remaining', hremaining, hcosts'⟩ := hcosts.of_goesOn hgo
    have hfits := h.written rest' unused' hrun
    refine ⟨rest', unused', hrun, hfits, ?_⟩
    exact {
      levels := Nat.le_trans hlevels h.levels
      costs := ⟨remaining', by omega, hcosts'⟩
      granted := by omega
      unused_lt := Script.unused_lt_of_run_suspended hrun
      early := by omega
      written := fun _ _ hrun' => Script.fits_of_run_suspended hfits hrun' }

end Step

/-! ## Section 3: Runs -/

/-- What is known of the answers of at most `limit` steps that begin after `n`
    steps, with `unused` left over and `spent` spent by then. -/
structure Paced (max price : Nat) (result : Except ScriptError Value) (n unused spent limit : Nat)
    (answers : List Evaluation) : Prop where
  length : answers.length = min limit (stepCount price max - n)
  suspended : ∀ i rest left, answers[i]? = some (.suspended rest left) →
    n + i + 1 < stepCount price max ∧ left.toNat < 200 ∧
      spent + totalSpent max unused (answers.take (i + 1)) + left.toNat = (n + i + 1) * max ∧
      rest.Costs (price - (spent + totalSpent max unused (answers.take (i + 1)))) result
  completed : ∀ i value last, answers[i]? = some (.completed value last) →
    n + i + 1 = stepCount price max ∧ value = result ∧
      spent + totalSpent max unused answers = price

section Run

variable {max price n unused spent limit : Nat} {answers : List Evaluation}

/-- The last step. -/
theorem paced_of_completed {last : UInt64} (hn : n + 1 = stepCount price max)
    (hspent : spent + last.toNat = price) :
    Paced max price result n unused spent (limit + 1) [.completed result last] where
  length := by
    rw [List.length_singleton]
    omega
  suspended i rest left hi := by
    cases i with
    | zero => exact nomatch Option.some.inj hi
    | succ i => exact nomatch hi
  completed i value last' hi := by
    cases i with
    | zero =>
      obtain ⟨rfl, rfl⟩ := Evaluation.completed.inj (Option.some.inj hi)
      exact ⟨hn, rfl, hspent⟩
    | succ i => exact nomatch hi

/-- A step that is suspended, and those after it. -/
theorem paced_of_suspended {rest : Expr} {left : UInt64} (hn : n + 1 < stepCount price max)
    (hleft : left.toNat < 200)
    (hspent : spent + (max + unused - left.toNat) + left.toNat = (n + 1) * max)
    (hcosts : rest.Costs (price - (spent + (max + unused - left.toNat))) result)
    (h : Paced max price result (n + 1) left.toNat (spent + (max + unused - left.toNat)) limit
      answers) :
    Paced max price result n unused spent (limit + 1) (.suspended rest left :: answers) where
  length := by
    rw [List.length_cons, h.length]
    omega
  suspended i rest' left' hi := by
    -- the step itself, or the one that is `i` steps later
    cases i with
    | zero =>
      obtain ⟨rfl, rfl⟩ := Evaluation.suspended.inj (Option.some.inj hi)
      exact ⟨hn, hleft, hspent, hcosts⟩
    | succ i =>
      obtain ⟨hlater, hleft', hspent', hcosts'⟩ := h.suspended i rest' left' hi
      have hindex : n + 1 + i + 1 = n + (i + 1) + 1 := by omega
      rw [hindex, Nat.add_assoc spent] at hspent'
      rw [Nat.add_assoc spent] at hcosts'
      rw [List.take_succ_cons, totalSpent]
      exact ⟨by omega, hleft', hspent', hcosts'⟩
  completed i value last hi := by
    cases i with
    | zero => exact nomatch Option.some.inj hi
    | succ i =>
      obtain ⟨hlater, hvalue, hspent'⟩ := h.completed i value last hi
      refine ⟨by omega, hvalue, ?_⟩
      rw [totalSpent, ← hspent']
      omega

end Run

/-- **All steps**: what is known before them decides what they do. -/
theorem paced_of_underway (hmin : 0 < max.toNat) (hmax : max.toNat + 200 < UInt64.size)
    {limit n : Nat} {step : UInt32} {rest : Expr} {unused : UInt64} {spent : Nat}
    (h : Underway max price result n rest unused spent) :
    Paced max.toNat price result n unused.toNat spent limit
      (evaluateSteps max limit (.suspended step rest unused)) := by
  -- induction on the steps that may still be taken
  induction limit generalizing n step rest unused spent with
  | zero =>
    refine ⟨?_, ?_, ?_⟩
    · rw [evaluateSteps, Nat.zero_min, List.length_nil]
    · intro i rest' left hi
      exact nomatch hi
    · intro i value last hi
      exact nomatch hi
  | succ limit ih =>
    rcases underway_step hmin hmax h with
      ⟨hn, last, hrun, hspent⟩ | ⟨rest', left, hrun, hfits, hnext⟩
    · have hanswers : evaluateSteps max (limit + 1) (.suspended step rest unused) =
          [.completed result last] := by
        rw [evaluateSteps]
        simp only [hrun]
      rw [hanswers]
      exact paced_of_completed hn hspent
    · have hanswers : evaluateSteps max (limit + 1) (.suspended step rest unused) =
          .suspended rest' left :: evaluateSteps max limit
            (.suspended (saturate32 (step.toNat + 1)) rest' left) := by
        rw [evaluateSteps]
        simp only [hrun, reload_of_fits hfits, Option.elim_some]
      rw [hanswers]
      exact paced_of_suspended hnext.early hnext.unused_lt hnext.granted hnext.costs_rest (ih hnext)

/-- **Stepping spends the price, in as many steps as it takes.** Every expression
    has a price. Evaluated in steps with a budget of `max` and what the step
    before has left, it is suspended as long as `max` for each step does not add
    up to the price, and then completes; what has been granted until then has
    been spent or is left, what remains of the expression costs the rest of the
    price, and in the end the price has been spent. All that is
    asked of the expression is that what its first step leaves can be written
    down, as it can if the expression can (`fits_of_run_suspended`). -/
theorem steps_spend_the_price {e : Expr} {max : UInt64} (he : e.levels ≤ maxDepth)
    (hmin : 1 ≤ max.toNat) (hmax : max.toNat + 200 < UInt64.size)
    (hwritten : ∀ rest unused, run e max = .suspended rest unused → Fits rest) :
    ∃ price result, e.Costs price result ∧
      (∀ budget : UInt64, price ≤ budget.toNat →
        run e budget = .completed result (.ofNat price)) ∧
      ∀ limit, (e.evaluateSteps max limit).length = min limit (stepCount price max.toNat) ∧
        (∀ n rest unused, (e.evaluateSteps max limit)[n]? = some (.suspended rest unused) →
          n + 1 < stepCount price max.toNat ∧ unused.toNat < 200 ∧
            totalSpent max.toNat 0 ((e.evaluateSteps max limit).take (n + 1)) + unused.toNat =
              (n + 1) * max.toNat ∧
            rest.Costs (price - totalSpent max.toNat 0 ((e.evaluateSteps max limit).take (n + 1)))
              result) ∧
        ∀ n value spent, (e.evaluateSteps max limit)[n]? = some (.completed value spent) →
          n + 1 = stepCount price max.toNat ∧ value = result ∧
            totalSpent max.toNat 0 (e.evaluateSteps max limit) = price := by
  obtain ⟨price, result, hcosts⟩ := e.exists_costs
  refine ⟨price, result, hcosts, fun budget hbudget => Script.run_of_price hcosts hbudget, ?_⟩
  intro limit
  have hstart := underway_start he hcosts hwritten
  have hpaced : Paced max.toNat price result 0 0 0 limit (e.evaluateSteps max limit) :=
    paced_of_underway hmin hmax hstart
  obtain ⟨hlength, hsuspended, hcompleted⟩ := hpaced
  refine ⟨hlength, ?_, ?_⟩
  · intro n rest unused hn
    have hanswer := hsuspended n rest unused hn
    rwa [Nat.zero_add, Nat.zero_add] at hanswer
  · intro n value spent hn
    have hanswer := hcompleted n value spent hn
    rwa [Nat.zero_add, Nat.zero_add] at hanswer

/-- A digest costs 200. With 80 for each step, two steps spend nothing, and the
    third has saved up enough. -/
theorem steps_spend_the_price_of_digest :
    let e := Expr.call .sha256 [.const (.bytes [1, 2, 3])]
    e.levels ≤ maxDepth ∧ Fits e ∧ (e.evaluateSteps 80 9).length = 3 ∧
      totalSpent 80 0 (e.evaluateSteps 80 9) = 200 := by
  intro e
  have hlevels : e.levels ≤ maxDepth := by decide
  have hfits : Fits e := by
    refine ⟨by decide, ⟨by decide, fun _ _ => trivial⟩, trivial⟩
  have hmin : 1 ≤ (80 : UInt64).toNat := by decide
  obtain ⟨price, result, hcosts, -, hsteps⟩ := steps_spend_the_price hlevels hmin (by decide)
    fun _ _ hrun => Script.fits_of_run_suspended hfits hrun
  have hprice : e.Costs 200 (.ok (.bytes (Sha256.hash [1, 2, 3]).bytes)) := by
    intro left
    simp [e, eval, Script.evalArgs, maxDepth, Script.Builtin.complexity, Script.Builtin.apply,
      Script.Value.toBytes, Outcome.ofResult, bind, Except.bind]
  obtain ⟨-, rfl⟩ := Script.price_unique hcosts hprice
  obtain ⟨hlength, hsuspended, hcompleted⟩ := hsteps 9
  have hthree : (e.evaluateSteps 80 9).length = 3 := hlength
  have hlast := List.getElem?_eq_getElem (l := e.evaluateSteps 80 9) (i := 2) (by omega)
  -- the third answer cannot be that of a suspended step
  cases hanswer : (e.evaluateSteps 80 9)[2] with
  | suspended rest unused =>
    rw [hanswer] at hlast
    exact absurd (hsuspended 2 rest unused hlast).1 (by decide)
  | completed value spent =>
    rw [hanswer] at hlast
    exact ⟨hlevels, hfits, hthree, (hcompleted 2 value spent hlast).2.2⟩

end MeteredLedger

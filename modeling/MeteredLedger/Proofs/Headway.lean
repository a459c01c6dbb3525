import MeteredLedger.Proofs.Commuting
import MeteredLedger.Proofs.Endings
import MeteredLedger.Proofs.Suspension

/-! # Headway

    A continuation that leaves its invocation in progress is paid for, and so
    should get somewhere. Either it has finished a part of what remained, or
    nothing of it fits into the budget, and all of the budget is left over for the
    next step. The budget is what the step before has left over and the limit of
    the version; so more is left over after the step, unless there is no limit.

    * `Expr.pending`: the number of nodes that have still to be evaluated.
    * `eq_or_pending_lt`: an evaluation that is suspended has fewer of them, or
      has spent nothing.
    * `Headway`: a node has been finished, or more is left over.
    * `step_makes_headway`: every continuation makes headway as long as the
      version has a limit.
    * `step_stands_still`: without a limit one need not. -/

namespace MeteredLedger

namespace Script

/-! ## Section 1: What is still to be evaluated -/

mutual

/-- The number of nodes of an expression that have not become constants. -/
def Expr.pending : Expr → Nat
  | .const _ => 0
  | .ref _ => 1
  | .letIn _ value body => value.pending + body.pending + 1
  | .ite cond yes no => cond.pending + yes.pending + no.pending + 1
  | .call _ args => Expr.pendingArgs args + 1
  | .throw _ => 1

/-- The number of nodes of arguments that have not become constants. -/
def Expr.pendingArgs : List Expr → Nat
  | [] => 0
  | arg :: args => arg.pending + Expr.pendingArgs args

end

theorem Expr.pendingArgs_append (before after : List Expr) :
    pendingArgs (before ++ after) = pendingArgs before + pendingArgs after := by
  induction before with
  | nil => simp [pendingArgs]
  | cons arg before ih => simp [pendingArgs, ih, Nat.add_assoc]

/-- Finished arguments have nothing pending. -/
theorem Expr.pendingArgs_values (values : List Value) : pendingArgs (values.map .const) = 0 := by
  induction values with
  | nil => simp [pendingArgs]
  | cons value values ih => simp [pendingArgs, pending, ih]

/-- An expression that ends without being one has something pending. -/
theorem eq_or_pending_pos_of_done {scope : Scope} {n : Nat} {e : Expr} {b left : Nat}
    {value : Value} (h : eval scope n e b = (.done value, left)) :
    (e = .const value ∧ left = b) ∨ 0 < e.pending := by
  cases e with
  | const value' =>
    left
    cases n with
    | zero => simp [eval] at h
    | succ n =>
      obtain ⟨rfl, rfl⟩ : value' = value ∧ b = left := by simpa [eval] using h
      exact ⟨rfl, rfl⟩
  | ref name => simp [Expr.pending]
  | letIn name value body => simp [Expr.pending]
  | ite cond yes no => simp [Expr.pending]
  | call function args => simp [Expr.pending]
  | throw message => simp [Expr.pending]

theorem eq_or_pendingArgs_pos_of_done {scope : Scope} {n : Nat} {args : List Expr} {b left : Nat}
    {values : List Value} (h : evalArgs scope n args b = (.done values, left)) :
    (args = values.map .const ∧ left = b) ∨ 0 < Expr.pendingArgs args := by
  induction args generalizing b values with
  | nil =>
    left
    obtain ⟨rfl, rfl⟩ : [] = values ∧ b = left := by simpa [evalArgs] using h
    exact ⟨rfl, rfl⟩
  | cons arg args ih =>
    rw [evalArgs_cons] at h
    obtain ⟨value, b₁, harg, h⟩ := done_of_andThen h
    obtain ⟨values', b₂, hargs, h⟩ := done_of_andThen h
    obtain ⟨rfl, rfl⟩ : value :: values' = values ∧ b₂ = left := by simpa using h
    rw [Expr.pendingArgs]
    rcases eq_or_pending_pos_of_done harg with ⟨rfl, rfl⟩ | hpos
    · rcases ih hargs with ⟨rfl, rfl⟩ | hpos
      · exact .inl ⟨rfl, rfl⟩
      · exact .inr (by omega)
    · exact .inr (by omega)

/-- What has not begun or has finished a node has no more pending than before. -/
theorem pending_le_of_eq_or_lt {e rest : Expr} {same : Prop}
    (h : (rest = e ∧ same) ∨ rest.pending < e.pending) : rest.pending ≤ e.pending := by
  rcases h with ⟨rfl, -⟩ | hlt
  · exact Nat.le_refl _
  · exact Nat.le_of_lt hlt

/-- **An evaluation that is suspended** has finished a node, or it has not begun. -/
theorem eq_or_pending_lt {scope : Scope} {n : Nat} {e rest : Expr} {b left : Nat}
    (h : Suspends scope n e b rest left) : (rest = e ∧ left = b) ∨ rest.pending < e.pending := by
  -- at every place the parts before it are finished, and were so before or had something pending
  induction h with
  | ref => exact .inl ⟨rfl, rfl⟩
  | value _ ih =>
    rcases ih with ⟨rfl, rfl⟩ | hlt
    · exact .inl ⟨rfl, rfl⟩
    · right
      simp only [Expr.pending]
      omega
  | body hvalue _ ih =>
    rcases eq_or_pending_pos_of_done hvalue with ⟨rfl, rfl⟩ | hpos
    · rcases ih with ⟨rfl, rfl⟩ | hlt
      · exact .inl ⟨rfl, rfl⟩
      · right
        simp only [Expr.pending]
        omega
    · right
      have hle := pending_le_of_eq_or_lt ih
      simp only [Expr.pending]
      omega
  | cond _ ih =>
    rcases ih with ⟨rfl, rfl⟩ | hlt
    · exact .inl ⟨rfl, rfl⟩
    · right
      simp only [Expr.pending]
      omega
  | choice hcond =>
    rcases eq_or_pending_pos_of_done hcond with ⟨rfl, rfl⟩ | hpos
    · exact .inl ⟨rfl, rfl⟩
    · right
      simp only [Expr.pending]
      omega
  | @branch _ _ _ _ _ _ test _ _ _ _ _ ih =>
    right
    have hle := pending_le_of_eq_or_lt ih
    -- the conditional itself is gone
    cases test <;> simp only [Expr.pending, Bool.false_eq_true, if_true, if_false] at hle ⊢ <;>
      omega
  | arg hbefore _ ih =>
    rcases eq_or_pendingArgs_pos_of_done hbefore with ⟨rfl, rfl⟩ | hpos
    · rcases ih with ⟨rfl, rfl⟩ | hlt
      · exact .inl ⟨rfl, rfl⟩
      · right
        simp only [Expr.pending, Expr.pendingArgs_append, Expr.pendingArgs]
        omega
    · right
      have hle := pending_le_of_eq_or_lt ih
      simp only [Expr.pending, Expr.pendingArgs_append, Expr.pendingArgs_values,
        Expr.pendingArgs]
      omega
  | apply hargs _ =>
    rcases eq_or_pendingArgs_pos_of_done hargs with ⟨rfl, rfl⟩ | hpos
    · exact .inl ⟨rfl, rfl⟩
    · right
      simp only [Expr.pending, Expr.pendingArgs_values]
      omega

end Script

/-! ## Section 2: Steps -/

/-- A step has finished a node of what remained, or it has left more over for the
    next one. -/
def Headway (rest rest' : Script.Expr) (unused unused' : UInt64) : Prop :=
  rest'.pending < rest.pending ∨ rest' = rest ∧ unused < unused'

/-- A step that makes headway changes what is stored. -/
theorem Headway.ne {rest rest' : Script.Expr} {unused unused' : UInt64}
    (h : Headway rest rest' unused unused') : (rest', unused') ≠ (rest, unused) := by
  intro hsame
  obtain ⟨rfl, rfl⟩ := Prod.mk.inj hsame
  rcases h with hlt | ⟨-, hlt⟩
  · exact absurd hlt (Nat.lt_irrefl _)
  · exact absurd hlt (UInt64.lt_irrefl _)

/-- A run whose budget is a limit and what was left over makes headway, unless the
    limit is nothing. -/
theorem headway_of_run {rest rest' : Script.Expr} {limit unused unused' : UInt64}
    (h : Script.run rest (saturate64 (limit.toNat + unused.toNat)) = .suspended rest' unused') :
    Headway rest rest' unused unused' ∨ limit = 0 ∧ rest' = rest ∧ unused' = unused := by
  have hlt := Script.unused_lt_of_run_suspended h
  rcases Script.eq_or_pending_lt (Script.suspends_of_run h) with ⟨rfl, hleft⟩ | hfinished
  · -- all of the budget is left over, so it has not been cut off
    rw [toNat_saturate64] at hleft
    simp only [UInt64.size] at hleft
    by_cases hlimit : limit = 0
    · subst hlimit
      right
      refine ⟨rfl, rfl, UInt64.toNat_inj.1 ?_⟩
      simp only [UInt64.toNat_zero] at hleft
      omega
    · left
      right
      have hpos : limit.toNat ≠ 0 := fun hzero => hlimit (UInt64.toNat_inj.1 hzero)
      refine ⟨rfl, UInt64.lt_iff_toNat_lt.2 ?_⟩
      omega
  · exact .inl (.inl hfinished)

section

variable {view : View} {tx : Continuation} {r : StepResult}

/-- **No paid step without headway**: a continuation that leaves its invocation in
    progress has finished a node of what remained, or has left more over than the
    step before, so what is stored has changed. The one exception is a version
    without a limit: its budget is what the step before has left over, if that is
    not nothing, and it may leave all of that over again. -/
theorem step_makes_headway
    (h : transition Script.evaluate view (.continuation tx) = .ok r)
    (hstatus : r.status = .inProgress) :
    ∃ owner dapp rest unused rest' unused',
      (Transaction.continuation tx).owner view = some owner ∧
      view.account owner.dapp = some dapp ∧
      view.progress tx.invocation = some (.suspended tx.step rest unused) ∧
      r.delta.progress[owner.id]? =
        some (.suspended (saturate32 (tx.step.toNat + 1)) rest' unused') ∧
      (Headway rest rest' unused unused' ∧ (rest', unused') ≠ (rest, unused) ∨
        view.settings.maxComplexity dapp.version = 0 ∧ unused ≠ 0 ∧
          rest' = rest ∧ unused' = unused) := by
  obtain ⟨a, answer, hadmitted, hanswer, rfl⟩ := Continuation.apply_eq_ok h
  obtain ⟨unused, dapp, hprogress, haccount, hbudget⟩ := hadmitted.pending
  cases answer with
  | completed result spent => exact absurd hstatus (Step.status_complete_ne _ _ _ _)
  | suspended rest' unused' =>
    let s : Step := { invocation := a.invocation, origin := .continuation tx a.record }
    have htakes : s.Takes view (.continuation tx) := .later hadmitted rfl rfl
    have hrun : Script.run a.rest a.budget = .suspended rest' unused' := Except.ok.inj hanswer
    rw [hbudget] at hrun
    refine ⟨a.invocation, dapp, a.rest, unused, rest', unused', owner_of_takes htakes, haccount,
      hprogress, Step.progress_close (s := s.countRun _), ?_⟩
    rcases headway_of_run hrun with hheadway | ⟨hlimit, hrest, hunused⟩
    · exact .inl ⟨hheadway, hheadway.ne⟩
    · right
      have hbudget_ne := hadmitted.budget_ne_zero
      refine ⟨hlimit, ?_, hrest, hunused⟩
      rintro rfl
      rw [hbudget, hlimit] at hbudget_ne
      exact hbudget_ne rfl

/-- A hash that fits neither into 50 nor into 150: the first continuation leaves
    150 over. -/
theorem step_makes_headway_of_saving :
    let owner : Invocation := ⟨.fill 7, .fill 1, .fill 2, ⟨"", []⟩, [], 900000, 0⟩
    let rest : Script.Expr := .call .sha256 [.const (.bytes [])]
    let view := { View.fresh ⟨.v5, ∅, none⟩ 2000000 with
      settings := { complexityLimit := fun _ => some 100 } }
    let pending := view.withPending owner rest 50
    let tx : Continuation := ⟨.fill 8, owner.id, 0, 900000, 0⟩
    ∃ r unused', transition Script.evaluate pending (.continuation tx) = .ok r ∧
      r.status = .inProgress ∧ r.delta.progress[owner.id]? = some (.suspended 1 rest unused') ∧
      Headway rest rest 50 unused' := by
  intro owner rest view pending tx
  have hrun : (transition Script.evaluate pending (.continuation tx)).toOption.map
      (fun r => (r.status, r.delta.progress[owner.id]?)) =
        some (.inProgress, some (.suspended 1 rest 150)) := by decide +kernel
  obtain ⟨r, hr, hrun⟩ := exists_eq_ok_of_map hrun
  obtain ⟨hstatus, hprogress⟩ := Prod.mk.inj hrun
  obtain ⟨owner', dapp, rest₀, unused, rest', unused', howner, haccount, hbefore, hafter,
    hheadway⟩ := step_makes_headway hr hstatus
  obtain rfl : owner = owner' := Option.some.inj howner
  obtain ⟨-, rfl, rfl⟩ := Progress.suspended.inj (Option.some.inj hbefore)
  obtain ⟨-, rfl, rfl⟩ := Progress.suspended.inj (Option.some.inj (hprogress.symm.trans hafter))
  refine ⟨r, 150, hr, hstatus, hprogress, ?_⟩
  rcases hheadway with ⟨hheadway, -⟩ | ⟨hlimit, -, -, -⟩
  · exact hheadway
  · have hsome : pending.settings.maxComplexity dapp.version = 100 := rfl
    rw [hsome] at hlimit
    exact absurd hlimit (by decide)

/-- Without a limit the same continuation is accepted: it is charged its fee, and
    changes nothing but the number of the step. -/
theorem step_stands_still :
    let owner : Invocation := ⟨.fill 7, .fill 1, .fill 2, ⟨"", []⟩, [], 900000, 0⟩
    let rest : Script.Expr := .call .sha256 [.const (.bytes [])]
    let view := { View.fresh ⟨.v5, ∅, none⟩ 2000000 with
      settings := { complexityLimit := fun _ => none } }
    let pending := view.withPending owner rest 50
    let tx : Continuation := ⟨.fill 8, owner.id, 0, 900000, 0⟩
    ∃ r, transition Script.evaluate pending (.continuation tx) = .ok r ∧
      r.status = .inProgress ∧ r.delta.balanceChange owner.sender .native = -900000 ∧
      pending.progress owner.id = some (.suspended 0 rest 50) ∧
      r.delta.progress[owner.id]? = some (.suspended 1 rest 50) := by
  intro owner rest view pending tx
  have hrun : (transition Script.evaluate pending (.continuation tx)).toOption.map
      (fun r => (r.status, r.delta.balanceChange owner.sender .native,
        r.delta.progress[owner.id]?)) =
          some (.inProgress, -900000, some (.suspended 1 rest 50)) := by decide +kernel
  obtain ⟨r, hr, hrun⟩ := exists_eq_ok_of_map hrun
  simp only [Prod.mk.injEq] at hrun
  obtain ⟨hstatus, hcharged, hprogress⟩ := hrun
  exact ⟨r, hr, hstatus, hcharged, rfl, hprogress⟩

end

end MeteredLedger

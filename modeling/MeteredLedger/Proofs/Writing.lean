import MeteredLedger.Proofs.Suspension
import MeteredLedger.Wire.Script

/-! # Writing what remains

    Bytes hold a length in four bytes, so only what is short enough can be
    written. Evaluation makes nothing too long: the strings and byte vectors it
    makes are copied or of fixed size, and a list that it makes has as many items
    as the call that makes it has arguments.

    * `fits_of_eval_done`: the value of an expression that can be written can be
      written.
    * `fits_of_suspends`: and so can every remainder of the expression. -/

namespace MeteredLedger.Script

open Wire (Fits FitsArgs FitsExpr FitsItems FitsValue)

/-! ## Section 1: Lists -/

theorem fitsItems_iff {items : List Value} : FitsItems items ↔ ∀ v ∈ items, FitsValue v := by
  induction items with
  | nil => simp [FitsItems]
  | cons item items ih => rw [FitsItems, ih, List.forall_mem_cons]

theorem fitsArgs_iff {args : List Expr} : FitsArgs args ↔ ∀ e ∈ args, FitsExpr e := by
  induction args with
  | nil => simp [FitsArgs]
  | cons arg args ih => rw [FitsArgs, ih, List.forall_mem_cons]

/-- Finished arguments can be written if their values can. -/
theorem fits_map_const {values : List Value} (h : ∀ v ∈ values, FitsValue v) :
    ∀ e ∈ values.map Expr.const, FitsExpr e := by
  intro e he
  obtain ⟨v, hv, rfl⟩ := List.mem_map.1 he
  exact h v hv

/-- The values of a scope can be written. -/
def Scope.Fits (scope : Scope) : Prop := ∀ binding ∈ scope, FitsValue binding.2

theorem Scope.fits_nil : Scope.Fits [] := fun _ h => nomatch h

theorem Scope.fits_cons {scope : Scope} {name : String} {value : Value} (hvalue : FitsValue value)
    (h : scope.Fits) : Scope.Fits ((name, value) :: scope) :=
  List.forall_mem_cons.2 ⟨hvalue, h⟩

theorem Scope.fits_of_lookup {scope : Scope} {name : String} {value : Value} (h : scope.Fits)
    (hlookup : scope.lookup name = some value) : FitsValue value := by
  obtain ⟨l₁, l₂, rfl, -⟩ := List.lookup_eq_some_iff.1 hlookup
  exact h (name, value) (by simp)

/-! ## Section 2: Values -/

/-- Identifiers and digests are short, whatever they are of. -/
theorem fits_bytes (a : Bytes32) : Fits a.bytes := by
  refine ⟨?_, fun _ _ => trivial⟩
  rw [a.length_bytes]
  decide

theorem Value.eq_str_of_toStr {v : Value} {s : String} (h : v.toStr = .ok s) : v = .str s := by
  cases v with
  | str s' => exact congrArg Value.str (Except.ok.inj h)
  | _ => exact nomatch h

theorem Value.fits_of_toData {v : Value} {d : DataValue} (hv : FitsValue v)
    (h : v.toData = .ok d) : Fits d := by
  cases v with
  | bytes bs => exact Except.ok.inj h ▸ hv
  | str s => exact Except.ok.inj h ▸ hv
  | int n => exact Except.ok.inj h ▸ trivial
  | bool b => exact Except.ok.inj h ▸ trivial
  | _ => exact nomatch h

theorem Builtin.fits_of_arithmetic {op : Int64 → Int64 → Option Int64} {a b v : Value}
    (h : arithmetic op a b = .ok v) : FitsValue v := by
  obtain ⟨m, -, h⟩ := bind_eq_ok_iff.1 h
  obtain ⟨n, -, h⟩ := bind_eq_ok_iff.1 h
  obtain ⟨r, -, h⟩ := demandSome_bind_eq_ok_iff.1 h
  exact Except.ok.inj h ▸ trivial

/-- A function makes nothing too long of few enough arguments that are short
    enough. -/
theorem Builtin.fits_of_apply {f : Builtin} {values : List Value} {v : Value}
    (hlength : values.length < UInt32.size) (hvalues : ∀ v ∈ values, FitsValue v)
    (h : f.apply values = .ok v) : FitsValue v := by
  unfold apply at h
  split at h
  · exact fits_of_arithmetic h
  · exact fits_of_arithmetic h
  · exact fits_of_arithmetic h
  · exact Except.ok.inj h ▸ trivial
  · obtain ⟨m, -, h⟩ := bind_eq_ok_iff.1 h
    obtain ⟨n, -, h⟩ := bind_eq_ok_iff.1 h
    exact Except.ok.inj h ▸ trivial
  · obtain ⟨b, -, h⟩ := bind_eq_ok_iff.1 h
    exact Except.ok.inj h ▸ trivial
  · obtain ⟨bs, -, h⟩ := bind_eq_ok_iff.1 h
    exact Except.ok.inj h ▸ fits_bytes (Sha256.hash bs)
  · exact Except.ok.inj h ▸ ⟨hlength, fitsItems_iff.2 hvalues⟩
  · rename_i k d
    obtain ⟨key, hkey, h⟩ := bind_eq_ok_iff.1 h
    obtain ⟨value, hvalue, h⟩ := bind_eq_ok_iff.1 h
    have hk : FitsValue k := hvalues k (by simp)
    rw [Value.eq_str_of_toStr hkey] at hk
    have hd : Fits value := Value.fits_of_toData (hvalues d (by simp)) hvalue
    exact Except.ok.inj h ▸ ⟨hk, hd⟩
  · obtain ⟨recipient, -, h⟩ := bind_eq_ok_iff.1 h
    obtain ⟨asset, -, h⟩ := bind_eq_ok_iff.1 h
    obtain ⟨amount, -, h⟩ := bind_eq_ok_iff.1 h
    exact Except.ok.inj h ▸ trivial
  · obtain ⟨asset, -, h⟩ := bind_eq_ok_iff.1 h
    obtain ⟨amount, -, h⟩ := bind_eq_ok_iff.1 h
    obtain ⟨reissuable, -, h⟩ := bind_eq_ok_iff.1 h
    exact Except.ok.inj h ▸ trivial
  · obtain ⟨asset, -, h⟩ := bind_eq_ok_iff.1 h
    obtain ⟨amount, -, h⟩ := bind_eq_ok_iff.1 h
    exact Except.ok.inj h ▸ trivial
  · exact nomatch h

/-- Arguments have one value each, and all of these can be written. -/
theorem fits_of_evalArgs_done {scope : Scope} {n : Nat} {args : List Expr} {b : Nat}
    {values : List Value} {left : Nat}
    (heval : ∀ e b v left, FitsExpr e → eval scope n e b = (.done v, left) → FitsValue v)
    (hargs : ∀ e ∈ args, FitsExpr e) (h : evalArgs scope n args b = (.done values, left)) :
    values.length = args.length ∧ ∀ v ∈ values, FitsValue v := by
  induction args generalizing b values with
  | nil =>
    obtain ⟨rfl, -⟩ : [] = values ∧ b = left := by simpa [evalArgs] using h
    exact ⟨rfl, fun v hv => absurd hv List.not_mem_nil⟩
  | cons arg args ih =>
    rw [evalArgs_cons] at h
    obtain ⟨value, b₁, harg, h⟩ := done_of_andThen h
    obtain ⟨values', b₂, hrest, h⟩ := done_of_andThen h
    obtain ⟨rfl, rfl⟩ : value :: values' = values ∧ b₂ = left := by simpa using h
    obtain ⟨hfirst, hothers⟩ := List.forall_mem_cons.1 hargs
    obtain ⟨hlength, hvalues⟩ := ih hothers hrest
    exact ⟨congrArg (· + 1) hlength,
      List.forall_mem_cons.2 ⟨heval arg b value b₁ hfirst harg, hvalues⟩⟩

/-- **The value of an expression can be written** if the expression can, and the
    values in its scope. -/
theorem fits_of_eval_done {scope : Scope} {n : Nat} {e : Expr} {b : Nat} {v : Value} {left : Nat}
    (hscope : scope.Fits) (he : FitsExpr e) (h : eval scope n e b = (.done v, left)) :
    FitsValue v := by
  -- induction on the levels that are left, as the evaluator recurses on them
  induction n generalizing scope e b v left with
  | zero => simp [eval] at h
  | succ n ih =>
    cases e with
    | const value =>
      obtain ⟨rfl, -⟩ : value = v ∧ b = left := by simpa [eval] using h
      exact he
    | ref name =>
      rw [eval_ref, spend] at h
      split at h
      · cases hlookup : scope.lookup name with
        | none => simp [hlookup] at h
        | some value =>
          obtain ⟨rfl, -⟩ : value = v ∧ b - 1 = left := by simpa [hlookup] using h
          exact Scope.fits_of_lookup hscope hlookup
      · simp at h
    | letIn name value body =>
      rw [eval_letIn] at h
      obtain ⟨bound, b₁, hvalue, h⟩ := done_of_andThen h
      obtain ⟨result, b₂, hbody, h⟩ := done_of_andThen h
      obtain ⟨rfl, -⟩ : result = v ∧ b₂ = left := by simpa using h
      have hbound := ih hscope he.2.1 hvalue
      exact ih (Scope.fits_cons hbound hscope) he.2.2 hbody
    | ite cond yes no =>
      rw [eval_ite] at h
      obtain ⟨test, b₁, -, h⟩ := done_of_andThen h
      rw [spend] at h
      split at h
      · split at h
        · exact ih hscope he.2.1 h
        · exact ih hscope he.2.2 h
        · simp at h
      · simp at h
    | call function args =>
      rw [eval_call] at h
      obtain ⟨values, b₁, hargs, h⟩ := done_of_andThen h
      rw [spend] at h
      split at h
      · obtain ⟨hlength, hvalues⟩ := fits_of_evalArgs_done
          (fun e b v left he' h' => ih hscope he' h') (fitsArgs_iff.1 he.2) hargs
        cases happly : function.apply values with
        | error error => simp [happly] at h
        | ok value =>
          obtain ⟨rfl, -⟩ : value = v ∧ b₁ - function.complexity = left := by
            simpa [happly] using h
          exact Builtin.fits_of_apply (by rw [hlength]; exact he.1) hvalues happly
      · simp at h
    | throw message => simp [eval] at h

/-! ## Section 3: Remainders -/

/-- **What remains of an expression can be written** if the expression can, and
    the values in its scope. -/
theorem fits_of_suspends {scope : Scope} {n : Nat} {e : Expr} {b : Nat} {rest : Expr} {left : Nat}
    (h : Suspends scope n e b rest left) (hscope : scope.Fits) (he : FitsExpr e) :
    FitsExpr rest := by
  -- at every place a part is replaced by its own remainder or by its value
  induction h with
  | ref => exact he
  | value _ ih => exact ⟨he.1, ih hscope he.2.1, he.2.2⟩
  | body hvalue _ ih =>
    have hbound := fits_of_eval_done hscope he.2.1 hvalue
    exact ⟨he.1, hbound, ih (Scope.fits_cons hbound hscope) he.2.2⟩
  | cond _ ih => exact ⟨ih hscope he.1, he.2⟩
  | choice hcond => exact ⟨fits_of_eval_done hscope he.1 hcond, he.2⟩
  | @branch _ _ _ _ _ _ test _ _ _ _ _ ih =>
    refine ih hscope ?_
    cases test with
    | false => exact he.2.2
    | true => exact he.2.1
  | @arg _ _ _ before arg after _ values _ rest _ hbefore _ ih =>
    have hargs := fitsArgs_iff.1 he.2
    obtain ⟨hlength, hvalues⟩ := fits_of_evalArgs_done
      (fun e b v left he' h' => fits_of_eval_done hscope he' h')
      (fun e hmem => hargs e (by simp [hmem])) hbefore
    refine ⟨?_, fitsArgs_iff.2 fun e hmem => ?_⟩
    · -- there are as many arguments as before
      have hcount := he.1
      simp only [List.length_append, List.length_cons, List.length_map, hlength] at hcount ⊢
      exact hcount
    · rcases List.mem_append.1 hmem with hvalue | htail
      · exact fits_map_const hvalues e hvalue
      · rcases List.mem_cons.1 htail with rfl | hafter
        · exact ih hscope (hargs arg (by simp))
        · exact hargs e (by simp [hafter])
  | apply hargs _ =>
    obtain ⟨hlength, hvalues⟩ := fits_of_evalArgs_done
      (fun e b v left he' h' => fits_of_eval_done hscope he' h') (fitsArgs_iff.1 he.2) hargs
    refine ⟨?_, fitsArgs_iff.2 (fits_map_const hvalues)⟩
    rw [List.length_map, hlength]
    exact he.1

end MeteredLedger.Script

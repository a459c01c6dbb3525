import MeteredLedger.Proofs.Failing

/-! # Scoping

    A remainder is evaluated without the scope that its expression was suspended
    in. It does not miss it: the bindings that were in force stay around what is
    left of their bodies, so a reference of the remainder is a reference of the
    expression with the same names bound around it.

    * `Leaf`: the references and the throws of an expression.
    * `leaves_subset_of_suspends`: those of a remainder are those of its
      expression, with the same names around them.
    * `exists_leaf_of_fails`: nothing else fails as a reference or a throw does.
    * `Task.ComesTo`: stepwise evaluation.
    * `suspension_keeps_scopes`: no step comes upon a reference that is not bound. -/

namespace MeteredLedger.Script

/-! ## Section 1: References, throws, and the names around them -/

/-- A part of an expression that may fail whatever its values are. -/
inductive Leaf where
  /-- A reference, and the names bound around it, innermost first. -/
  | ref (around : List String) (name : String)
  | throw (message : String)
  deriving DecidableEq

/-- The error that a leaf fails with. A reference fails if its name is not bound
    around it. -/
def Leaf.Fails (error : ScriptError) : Leaf → Prop
  | ref around name => name ∉ around ∧ error = .unboundReference name
  | throw message => error = .thrown message

mutual

/-- The references and throws of an expression with `names` bound around it. A
    binding binds its name in its body only. -/
def Expr.leaves (names : List String) : Expr → List Leaf
  | .const _ => []
  | .ref name => [.ref names name]
  | .letIn name value body => value.leaves names ++ body.leaves (name :: names)
  | .ite cond yes no => cond.leaves names ++ (yes.leaves names ++ no.leaves names)
  | .call _ args => Expr.argLeaves names args
  | .throw message => [.throw message]

/-- The references and throws of arguments. -/
def Expr.argLeaves (names : List String) : List Expr → List Leaf
  | [] => []
  | arg :: args => arg.leaves names ++ Expr.argLeaves names args

end

/-- Every reference is bound by a `Let` in whose body it stands. -/
def Expr.Closed (e : Expr) : Prop :=
  ∀ around name, .ref around name ∈ e.leaves [] → name ∈ around

theorem Expr.argLeaves_append (names : List String) (before after : List Expr) :
    argLeaves names (before ++ after) = argLeaves names before ++ argLeaves names after := by
  induction before with
  | nil => rfl
  | cons arg before ih => simp only [List.cons_append, argLeaves, ih, List.append_assoc]

/-- Finished arguments have no leaves. -/
theorem Expr.argLeaves_values (names : List String) (values : List Value) :
    argLeaves names (values.map .const) = [] := by
  induction values with
  | nil => rfl
  | cons value values ih => simp only [List.map_cons, argLeaves, leaves, ih, List.append_nil]

theorem Expr.leaves_bindAll (names : List String) (bindings : Scope) (body : Expr) :
    (bindAll bindings body).leaves names =
      body.leaves ((bindings.map (·.1)).reverse ++ names) := by
  induction bindings generalizing names with
  | nil => rfl
  | cons binding bindings ih =>
    have hbound : bindAll (binding :: bindings) body =
        .letIn binding.1 (.const binding.2) (bindAll bindings body) := rfl
    rw [hbound, leaves, leaves, ih, List.map_cons, List.reverse_cons, List.append_assoc]
    rfl

/-- The names in scope. -/
def Scope.names (scope : Scope) : List String := scope.map (·.1)

theorem Scope.not_mem_names_of_lookup {scope : Scope} {name : String}
    (h : scope.lookup name = none) : name ∉ scope.names := by
  intro hmem
  obtain ⟨binding, hbinding, rfl⟩ := List.mem_map.1 hmem
  have hne := List.lookup_eq_none_iff.1 h binding hbinding
  simp at hne

/-! ## Section 2: One evaluation -/

/-- **The leaves of a remainder** are leaves of its expression, with the same names
    around them. -/
theorem leaves_subset_of_suspends {scope : Scope} {n : Nat} {e : Expr} {b : Nat} {rest : Expr}
    {left : Nat} (h : Suspends scope n e b rest left) :
    rest.leaves scope.names ⊆ e.leaves scope.names := by
  induction h with
  | ref => exact List.Subset.refl _
  | value _ ih =>
    intro leaf
    simp only [Expr.leaves, List.mem_append]
    exact Or.imp_left (@ih leaf)
  | body _ _ ih =>
    -- the value is finished, and its name is still bound around what is left of the body
    intro leaf hleaf
    simp only [Expr.leaves, List.nil_append] at hleaf
    rw [Expr.leaves, List.mem_append]
    exact .inr (ih hleaf)
  | cond _ ih =>
    intro leaf
    simp only [Expr.leaves, List.mem_append]
    exact Or.imp_left (@ih leaf)
  | choice _ =>
    rw [Expr.leaves, Expr.leaves, Expr.leaves, List.nil_append]
    exact List.subset_append_right _ _
  | @branch _ _ _ _ _ _ test _ _ _ _ _ ih =>
    intro leaf hleaf
    simp only [Expr.leaves, List.mem_append]
    cases test with
    | true => exact .inr (.inl (ih hleaf))
    | false => exact .inr (.inr (ih hleaf))
  | arg _ _ ih =>
    intro leaf hleaf
    simp only [Expr.leaves, Expr.argLeaves_append, Expr.argLeaves_values, Expr.argLeaves,
      List.nil_append, List.mem_append] at hleaf ⊢
    exact .inr (hleaf.imp_left (@ih leaf))
  | apply _ _ =>
    rw [Expr.leaves, Expr.argLeaves_values]
    exact List.nil_subset _

/-- The error may be that of a reference or of a throw. -/
def ScriptError.OfLeaf : ScriptError → Prop
  | unboundReference _ | thrown _ => True
  | _ => False

/-- **A reference or a throw fails** only if the expression has one that does, with
    the same names around it. -/
theorem exists_leaf_of_fails {scope : Scope} {n : Nat} {e : Expr} {b : Nat} {error : ScriptError}
    {left : Nat} (h : Fails scope n e b error left) (herror : error.OfLeaf) :
    ∃ leaf ∈ e.leaves scope.names, leaf.Fails error := by
  induction h with
  | limit => exact herror.elim
  | @ref scope n name b hlookup =>
    -- the names in scope are those around the reference, and it is none of them
    exact ⟨.ref scope.names name, List.mem_singleton_self _,
      Scope.not_mem_names_of_lookup hlookup, rfl⟩
  | value _ ih =>
    obtain ⟨leaf, hleaf, hfails⟩ := ih herror
    exact ⟨leaf, List.mem_append_left _ hleaf, hfails⟩
  | body _ _ ih =>
    obtain ⟨leaf, hleaf, hfails⟩ := ih herror
    exact ⟨leaf, List.mem_append_right _ hleaf, hfails⟩
  | cond _ ih =>
    obtain ⟨leaf, hleaf, hfails⟩ := ih herror
    exact ⟨leaf, List.mem_append_left _ hleaf, hfails⟩
  | test _ _ => exact herror.elim
  | @branch _ _ _ _ _ _ test _ _ _ _ _ ih =>
    obtain ⟨leaf, hleaf, hfails⟩ := ih herror
    refine ⟨leaf, List.mem_append_right _ ?_, hfails⟩
    cases test with
    | true => exact List.mem_append_left _ hleaf
    | false => exact List.mem_append_right _ hleaf
  | arg _ _ ih =>
    obtain ⟨leaf, hleaf, hfails⟩ := ih herror
    refine ⟨leaf, ?_, hfails⟩
    rw [Expr.leaves, Expr.argLeaves_append, Expr.argLeaves]
    exact List.mem_append_right _ (List.mem_append_left _ hleaf)
  | @apply _ _ function _ _ values _ error _ happly =>
    have hargs := function.ofArguments_apply values error happly
    cases error <;> first | exact herror.elim | exact hargs.elim
  | @throw _ _ message _ => exact ⟨.throw message, List.mem_singleton_self _, rfl⟩

theorem head?_toList_append {s : String} {first : Char} (h : s.toList.head? = some first)
    (t : String) : (s ++ t).toList.head? = some first := by
  rw [String.toList_append, List.head?_append, h, Option.some_or]

theorem Builtin.head?_name (f : Builtin) : ∃ c, c ≠ 'u' ∧ f.name.toList.head? = some c := by
  cases f <;> exact ⟨_, by decide, rfl⟩

/-- The wording of an error that is not one of a reference or a throw does not
    begin as that of a reference. -/
theorem ScriptError.head?_message {error : ScriptError} (h : ¬ error.OfLeaf) :
    ∃ c, c ≠ 'u' ∧ error.message.toList.head? = some c := by
  cases error with
  | nestingExceeded => exact ⟨'e', by decide, by decide⟩
  | unboundReference name => exact absurd trivial h
  | conditionNotBoolean found => exact ⟨'c', by decide, head?_toList_append (by decide) _⟩
  | wrongArgumentCount f actual =>
    obtain ⟨c, hne, hc⟩ := f.head?_name
    exact ⟨c, hne, head?_toList_append hc _⟩
  | typeMismatch expected found =>
    have hexpected : "expected ".toList.head? = some 'e' := by decide
    refine ⟨'e', by decide, ?_⟩
    exact head?_toList_append (head?_toList_append (head?_toList_append hexpected _) _) _
  | identifierLength => exact ⟨'a', by decide, by decide⟩
  | integerOverflow => exact ⟨'i', by decide, by decide⟩
  | thrown message => exact absurd trivial h
  | itemNotAction found => exact ⟨'c', by decide, head?_toList_append (by decide) _⟩
  | resultNotList found => exact ⟨'c', by decide, head?_toList_append (by decide) _⟩

theorem ScriptError.message_ne_unbound {error : ScriptError} (h : ¬ error.OfLeaf) (name : String) :
    error.message ≠ (unboundReference name).message := by
  intro hsame
  obtain ⟨c, hne, hc⟩ := head?_message h
  have hunbound : (unboundReference name).message.toList.head? = some 'u' :=
    head?_toList_append (head?_toList_append (by decide) _) _
  rw [hsame, hunbound] at hc
  exact hne (Option.some.inj hc).symm

/-! ## Section 3: Steps -/

/-- The references and throws of what a task evaluates, with the names that the
    task binds around it. The last argument of a callable is bound innermost. -/
def Task.leaves : Task → List Leaf
  | start dapp call bindings =>
    (dapp.callables[call.function]?).elim [] fun callable =>
      callable.body.leaves (bindings.map (·.1) ++ callable.params).reverse
  | resume rest => rest.leaves []
  | verify script bindings => script.leaves (bindings.map (·.1)).reverse

/-- Every reference is bound by a `Let` in whose body it stands, or by the task. -/
def Task.Closed (task : Task) : Prop :=
  ∀ around name, .ref around name ∈ task.leaves → name ∈ around

/-- There is no throw in what a task evaluates. -/
def Task.NeverThrows (task : Task) : Prop := ∀ message, .throw message ∉ task.leaves

/-- `task.ComesTo t`: the task `t` is a step of a stepwise evaluation of `task`,
    whatever the budgets of the steps before it are. -/
inductive Task.ComesTo (task : Task) : Task → Prop where
  | first : task.ComesTo task
  | next {t budget rest unused} : task.ComesTo t →
      evaluate t budget = .ok (.suspended rest unused) → task.ComesTo (.resume rest)

/-- The expression of a task has the leaves of the task. -/
theorem Task.leaves_of_expr {task : Task} {e : Expr} (h : task.expr = .ok e) :
    e.leaves [] = task.leaves := by
  cases task with
  | start dapp call bindings =>
    cases hcallable : dapp.callables[call.function]? with
    | none => simp [expr, hcallable] at h
    | some callable =>
      by_cases hlength : callable.params.length = call.args.length
      · have hbody : bindAll (bindings ++ callable.params.zip call.args) callable.body = e := by
          simpa [expr, hcallable, hlength] using h
        rw [← hbody, Expr.leaves_bindAll, List.append_nil, List.map_append,
          List.map_fst_zip (Nat.le_of_eq hlength), leaves, hcallable]
        rfl
      · simp [expr, hcallable, hlength] at h
  | resume rest => rw [Except.ok.inj h, leaves]
  | verify script bindings =>
    rw [← Except.ok.inj h, Expr.leaves_bindAll, List.append_nil, leaves]

theorem Task.leaves_subset_of_suspended {task : Task} {budget : UInt64} {rest : Expr}
    {unused : UInt64} (h : evaluate task budget = .ok (.suspended rest unused)) :
    rest.leaves [] ⊆ task.leaves := by
  obtain ⟨e, he, hrun⟩ := evaluate_eq_ok h
  rw [← leaves_of_expr he]
  exact leaves_subset_of_suspends (suspends_of_run hrun)

/-- **Every step** has leaves of the task only, with the same names around them. -/
theorem Task.leaves_subset_of_comesTo {task t : Task} (h : task.ComesTo t) :
    t.leaves ⊆ task.leaves := by
  induction h with
  | first => exact List.Subset.refl _
  | next _ hsuspended ih => exact List.Subset.trans (leaves_subset_of_suspended hsuspended) ih

theorem Task.exists_leaf_of_failed {task : Task} {budget : UInt64} {error : ScriptError}
    {spent : UInt64} (h : evaluate task budget = .ok (.completed (.error error) spent))
    (herror : error.OfLeaf) : ∃ leaf ∈ task.leaves, leaf.Fails error := by
  obtain ⟨e, he, hrun⟩ := evaluate_eq_ok h
  obtain ⟨left, hfails⟩ := fails_of_run hrun
  rw [← leaves_of_expr he]
  exact exists_leaf_of_fails hfails herror

/-- **Suspension keeps scopes.** If every reference of a task is bound by a `Let`
    around it, by a parameter of the callable or by a binding of the invocation,
    then whatever a step of its stepwise evaluation leaves, with whatever budget,
    is closed by its own `Let`s, and no step fails at a reference that is not
    bound. Without a throw no step even reports the message of such a failure. -/
theorem suspension_keeps_scopes {task t : Task} (hclosed : task.Closed) (ht : task.ComesTo t)
    (budget : UInt64) :
    (∀ rest unused, evaluate t budget = .ok (.suspended rest unused) → rest.Closed) ∧
    ∀ error spent, evaluate t budget = .ok (.completed (.error error) spent) →
      (∀ name, error ≠ .unboundReference name) ∧
      (task.NeverThrows → ∀ name, error.message ≠ (ScriptError.unboundReference name).message) := by
  have hstep := Task.leaves_subset_of_comesTo ht
  refine ⟨?_, ?_⟩
  · intro rest unused hsuspended around name href
    exact hclosed around name (hstep (Task.leaves_subset_of_suspended hsuspended href))
  · intro error spent hfailed
    have hbound : ∀ name, error ≠ .unboundReference name := by
      rintro name rfl
      obtain ⟨leaf, hleaf, hfails⟩ := Task.exists_leaf_of_failed hfailed trivial
      cases leaf with
      | ref around name' => exact hfails.1 (hclosed around name' (hstep hleaf))
      | throw message => exact nomatch hfails
    refine ⟨hbound, ?_⟩
    intro hthrows name
    refine error.message_ne_unbound ?_ name
    -- only a throw could word its error like that, as every reference is bound
    intro herror
    obtain ⟨leaf, hleaf, hfails⟩ := Task.exists_leaf_of_failed hfailed herror
    cases leaf with
    | ref around name' => exact hbound name' hfails.2
    | throw message => exact hthrows message (hstep hleaf)

/-- A callable that shadows its parameter: it is suspended inside of the inner
    binding, and the remainder goes on to an error of another kind. -/
theorem suspension_keeps_scopes_of_shadowing :
    let body := Expr.letIn "x" (.call .eq [.ref "x", .ref "n"]) (.call .add [.ref "x", .ref "n"])
    let dapp : DApp := ⟨.v5, .ofEntries [("f", ⟨["x"], body⟩)], none⟩
    let task := Task.start dapp ⟨"f", [.int 7]⟩ [("n", .int 7)]
    let rest := Expr.letIn "n" (.const (.int 7)) (.letIn "x" (.const (.int 7))
      (.letIn "x" (.const (.bool true)) (.call .add [.ref "x", .ref "n"])))
    let error := ScriptError.typeMismatch [.int] .boolean
    task.Closed ∧ task.NeverThrows ∧ evaluate task 3 = .ok (.suspended rest 0) ∧ rest.Closed ∧
      evaluate (.resume rest) 9 = .ok (.completed (.error error) 3) ∧
      error.message ≠ (ScriptError.unboundReference "x").message := by
  intro body dapp task rest error
  have hleaves : task.leaves = [.ref ["x", "n"] "x", .ref ["x", "n"] "n", .ref ["x", "x", "n"] "x",
      .ref ["x", "x", "n"] "n"] := by decide +kernel
  have hexpr : task.expr = .ok (bindAll [("n", .int 7), ("x", .int 7)] body) := by
    refine toOption_eq_some_iff.1 ?_
    decide +kernel
  have hclosed : task.Closed := by
    rw [Task.Closed, hleaves]
    grind
  have hthrows : task.NeverThrows := by
    rw [Task.NeverThrows, hleaves]
    simp
  have hsuspended : evaluate task 3 = .ok (.suspended rest 0) := by
    rw [evaluate, hexpr]
    rfl
  have hfailed : evaluate (.resume rest) 9 = .ok (.completed (.error error) 3) := by rfl
  exact ⟨hclosed, hthrows, hsuspended,
    (suspension_keeps_scopes hclosed .first 3).1 rest 0 hsuspended, hfailed,
    ((suspension_keeps_scopes hclosed (.next .first hsuspended) 9).2 error 3 hfailed).2 hthrows "x"⟩

end MeteredLedger.Script

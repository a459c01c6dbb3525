import MeteredLedger.Script.Builtin

/-!
# Evaluation under a budget

An expression is evaluated with a budget of complexity. References and conditionals cost 1, a call
costs the complexity of its function once its arguments are finished, all else is free. What no
longer fits is not begun: the evaluation is then *suspended*, and its outcome is the expression that
remains, in which every finished part has become a constant. Evaluating the remainder later goes on
where the first evaluation stopped.

* `eval` walks an expression, `evalArgs` the arguments of a call.
* `run` evaluates a closed expression with a given budget.
* `evaluate` is the evaluator of the ledger, which also starts callables and verifiers.
-/

namespace MeteredLedger.Script

/-! ## Walking an expression -/

/-- Where an evaluation ends: with a result, with a remainder, or with an error. -/
inductive Outcome (Result Remainder : Type) where
  | done (result : Result)
  | suspended (rest : Remainder)
  | failed (error : ScriptError)

/-- The names in scope with their values, innermost first. -/
abbrev Scope := List (String × Value)

mutual

/-- Evaluates an expression with `budget` complexity left, at most `levels` levels deep. Returns
the outcome and the budget that is left. -/
def eval (scope : Scope) (levels : Nat) (e : Expr) (budget : Nat) : Outcome Value Expr × Nat :=
  match levels with
  | 0 => (.failed .nestingExceeded, budget)
  | levels + 1 =>
    match e with
    | .const value => (.done value, budget)
    | .ref name =>
      if 1 ≤ budget then
        match scope.lookup name with
        | some value => (.done value, budget - 1)
        | none => (.failed (.unboundReference name), budget - 1)
      else (.suspended (.ref name), budget)
    | .letIn name value body =>
      match eval scope levels value budget with
      | (.done bound, budget) =>
        match eval ((name, bound) :: scope) levels body budget with
        -- an unfinished body keeps its binding
        | (.suspended rest, budget) => (.suspended (.letIn name (.const bound) rest), budget)
        | finished => finished
      | (.suspended rest, budget) => (.suspended (.letIn name rest body), budget)
      | (.failed error, budget) => (.failed error, budget)
    | .ite cond yes no =>
      match eval scope levels cond budget with
      | (.done test, budget) =>
        if 1 ≤ budget then
          match test with
          | .bool true => eval scope levels yes (budget - 1)
          | .bool false => eval scope levels no (budget - 1)
          | other => (.failed (.conditionNotBoolean other.kind), budget - 1)
        else (.suspended (.ite (.const test) yes no), budget)
      | (.suspended rest, budget) => (.suspended (.ite rest yes no), budget)
      | (.failed error, budget) => (.failed error, budget)
    | .call function args =>
      match evalArgs scope levels args budget with
      | (.done values, budget) =>
        if function.complexity ≤ budget then
          match function.apply values with
          | .ok value => (.done value, budget - function.complexity)
          | .error error => (.failed error, budget - function.complexity)
        else (.suspended (.call function (values.map .const)), budget)
      | (.suspended rest, budget) => (.suspended (.call function rest), budget)
      | (.failed error, budget) => (.failed error, budget)
    | .throw message => (.failed (.thrown message), budget)

/-- Evaluates arguments from left to right. A remainder has the finished ones as constants. -/
def evalArgs (scope : Scope) (levels : Nat) (args : List Expr) (budget : Nat) :
    Outcome (List Value) (List Expr) × Nat :=
  match args with
  | [] => (.done [], budget)
  | arg :: args =>
    match eval scope levels arg budget with
    | (.done value, budget) =>
      match evalArgs scope levels args budget with
      | (.done values, budget) => (.done (value :: values), budget)
      | (.suspended rest, budget) => (.suspended (.const value :: rest), budget)
      | (.failed error, budget) => (.failed error, budget)
    | (.suspended rest, budget) => (.suspended (rest :: args), budget)
    | (.failed error, budget) => (.failed error, budget)

end

/-! ## Evaluators -/

/-- The answer of an evaluator. -/
inductive Evaluation where
  /-- The script ended, with a value or an error, after spending this complexity. -/
  | completed (result : Except ScriptError Value) (spent : UInt64)
  /-- The budget ran out: what is left to evaluate, and the complexity not spent. -/
  | suspended (rest : Expr) (unused : UInt64)

/-- Evaluates a closed expression with a budget. -/
def run (e : Expr) (budget : UInt64) : Evaluation :=
  match eval [] maxDepth e budget.toNat with
  | (.done value, left) => .completed (.ok value) (budget - .ofNat left)
  | (.failed error, left) => .completed (.error error) (budget - .ofNat left)
  | (.suspended rest, left) => .suspended rest (.ofNat left)

/-- A body with names bound to values, the first binding outermost. -/
def bindAll (bindings : Scope) (body : Expr) : Expr :=
  bindings.foldr (fun binding e => .letIn binding.1 (.const binding.2) e) body

/-- What an evaluator is asked to evaluate. -/
inductive Task where
  /-- Start a callable with its arguments; its body also sees `bindings`. -/
  | start (dapp : DApp) (call : FunctionCall) (bindings : Scope)
  /-- Go on with a remainder. -/
  | resume (rest : Expr)
  /-- Run a script that approves or rejects an operation described by `bindings`. -/
  | verify (script : Expr) (bindings : Scope)

/-- An evaluator answers a task within a budget of complexity. -/
abbrev Evaluator := Task → UInt64 → Except EvaluationError Evaluation

/-- The closed expression a task stands for. -/
def Task.expr : Task → Except EvaluationError Expr
  | start dapp call bindings =>
    match dapp.callables[call.function]? with
    | none => .error (.callableNotFound call.function)
    | some callable =>
      if callable.params.length = call.args.length then
        .ok (bindAll (bindings ++ callable.params.zip call.args) callable.body)
      else
        .error (.argumentCountMismatch call.function callable.params.length call.args.length)
  | resume rest => .ok rest
  | verify script bindings => .ok (bindAll bindings script)

/-- The evaluator of the ledger. -/
def evaluate : Evaluator := fun task budget => task.expr.map (run · budget)

end MeteredLedger.Script

import MeteredLedger.Script.Value
import MeteredLedger.SortedMap.Basic

/-!
# Expressions and programs

A script is an expression tree. An account may carry a DApp: named callables, which invocations
call with arguments, and a verifier, which approves the invocations the account sends.
-/

namespace MeteredLedger.Script

/-! ## Built-in functions -/

/-- The functions a script can call. -/
inductive Builtin where
  | add
  | sub
  | mul
  | eq
  | lt
  | not
  | sha256
  | list
  | dataEntry
  | transfer
  | reissue
  | burn
  deriving DecidableEq

namespace Builtin

/-- The functions in the order of their tags. -/
def all : List Builtin :=
  [add, sub, mul, eq, lt, not, sha256, list, dataEntry, transfer, reissue, burn]

/-- The name of a function. -/
def name : Builtin → String
  | add => "Add"
  | sub => "Sub"
  | mul => "Mul"
  | eq => "Eq"
  | lt => "Lt"
  | not => "Not"
  | sha256 => "Sha256"
  | list => "List"
  | dataEntry => "DataEntry"
  | transfer => "Transfer"
  | reissue => "Reissue"
  | burn => "Burn"

/-- The number of arguments a function takes; `list` takes any number. -/
def arity : Builtin → Option Nat
  | not | sha256 => some 1
  | add | sub | mul | eq | lt | dataEntry | burn => some 2
  | transfer | reissue => some 3
  | list => none

/-- The complexity charged for one application. -/
def complexity : Builtin → Nat
  | sha256 => 200
  | _ => 1

end Builtin

/-! ## Expressions -/

/-- An expression. -/
inductive Expr where
  /-- A finished value. -/
  | const (value : Value)
  /-- The value bound to a name. -/
  | ref (name : String)
  /-- `body` with `name` bound to `value`. -/
  | letIn (name : String) (value body : Expr)
  /-- `yes` or `no`, as `cond` says. -/
  | ite (cond yes no : Expr)
  /-- A built-in function applied to arguments. -/
  | call (function : Builtin) (args : List Expr)
  /-- Failure with a message. -/
  | throw (message : String)

mutual

/-- Whether two expressions are equal. -/
def Expr.same : Expr → Expr → Bool
  | .const a, .const b => a == b
  | .ref a, .ref b => a == b
  | .letIn n v e, .letIn m w f => n == m && Expr.same v w && Expr.same e f
  | .ite c y n, .ite d z o => Expr.same c d && Expr.same y z && Expr.same n o
  | .call f xs, .call g ys => f == g && Expr.sameArgs xs ys
  | .throw a, .throw b => a == b
  | _, _ => false

/-- Whether two argument lists are equal. -/
def Expr.sameArgs : List Expr → List Expr → Bool
  | [], [] => true
  | x :: xs, y :: ys => Expr.same x y && Expr.sameArgs xs ys
  | _, _ => false

end

mutual

theorem Expr.same_iff : ∀ a b : Expr, Expr.same a b = true ↔ a = b
  | .const _, b => by cases b <;> simp [Expr.same]
  | .ref _, b => by cases b <;> simp [Expr.same]
  | .letIn _ v e, b => by
    cases b <;> simp [Expr.same, Expr.same_iff v, Expr.same_iff e, and_assoc]
  | .ite c y n, b => by
    cases b <;> simp [Expr.same, Expr.same_iff c, Expr.same_iff y, Expr.same_iff n, and_assoc]
  | .call _ xs, b => by cases b <;> simp [Expr.same, Expr.sameArgs_iff xs]
  | .throw _, b => by cases b <;> simp [Expr.same]

theorem Expr.sameArgs_iff : ∀ xs ys : List Expr, Expr.sameArgs xs ys = true ↔ xs = ys
  | [], ys => by cases ys <;> simp [Expr.sameArgs]
  | x :: xs, ys => by
    cases ys <;> simp [Expr.sameArgs, Expr.same_iff x, Expr.sameArgs_iff xs]

end

instance : DecidableEq Expr := fun a b => decidable_of_iff _ (Expr.same_iff a b)

/-! ## Programs -/

/-- The name of a callable and its arguments. -/
structure FunctionCall where
  function : String
  args : List Value
  deriving DecidableEq

/-- The version of the language a DApp is written in. -/
inductive Version where
  | v3
  | v4
  | v5
  deriving DecidableEq

/-- A version as it is shown in messages. -/
def Version.text : Version → String
  | .v3 => "V3"
  | .v4 => "V4"
  | .v5 => "V5"

/-- A function of a DApp. -/
structure Callable where
  params : List String
  body : Expr
  deriving DecidableEq

/-- The script of an account. -/
structure DApp where
  version : Version
  callables : SortedMap String Callable
  /-- Approves the invocations that the account sends. -/
  verifier : Option Expr

end MeteredLedger.Script

import MeteredLedger.Script.Expr

/-!
# Script errors

The causes for which a script fails, and those for which it cannot even be started. Each cause has
one wording.
-/

namespace MeteredLedger.Script

/-- The greatest depth of nested expressions that is evaluated. -/
def maxDepth : Nat := 512

/-- Why a script failed. -/
inductive ScriptError where
  /-- Expressions are nested deeper than `maxDepth`. -/
  | nestingExceeded
  | unboundReference (name : String)
  | conditionNotBoolean (found : Kind)
  | wrongArgumentCount (function : Builtin) (actual : Nat)
  /-- An argument is of none of the kinds a function accepts there. -/
  | typeMismatch (expected : List Kind) (found : Kind)
  | identifierLength
  | integerOverflow
  /-- The script threw this message. -/
  | thrown (message : String)
  /-- A callable returned a list that holds something else than actions. -/
  | itemNotAction (found : Kind)
  /-- A callable returned neither a list nor nothing. -/
  | resultNotList (found : Kind)
  deriving DecidableEq

/-- The wording of a script error. -/
def ScriptError.message : ScriptError → String
  | nestingExceeded => s!"expression nesting exceeds {maxDepth} levels"
  | unboundReference name => s!"unbound reference `{name}`"
  | conditionNotBoolean found => "condition must be Boolean, found " ++ found.text
  | wrongArgumentCount f actual =>
    f.name ++ s!" expects {f.arity.getD 0} arguments, got {actual}"
  | typeMismatch expected found =>
    "expected " ++ "|".intercalate (expected.map Kind.text) ++ ", found " ++ found.text
  | identifierLength => "address or asset id must be 32 bytes"
  | integerOverflow => "integer overflow"
  | thrown message => message
  | itemNotAction found => "callable result must contain actions only, found " ++ found.text
  | resultNotList found => "callable must return a list of actions, found " ++ found.text

/-- Why a script could not be started. -/
inductive EvaluationError where
  | callableNotFound (function : String)
  | argumentCountMismatch (function : String) (expected actual : Nat)
  deriving DecidableEq

/-- The wording of an evaluation error. -/
def EvaluationError.message : EvaluationError → String
  | callableNotFound function => s!"callable `{function}` is not defined"
  | argumentCountMismatch function expected actual =>
    s!"callable `{function}` expects {expected} arguments, got {actual}"

end MeteredLedger.Script

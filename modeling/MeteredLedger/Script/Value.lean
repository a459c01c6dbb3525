import MeteredLedger.Amount
import MeteredLedger.Asset

/-!
# Script values

Scripts compute with seven kinds of values. One of them is the *action*: a description of a change
to the ledger, which takes effect only when a callable returns it. Equality of values is decidable
because scripts can test it.
-/

namespace MeteredLedger.Script

/-- A value that an account can store under a key. -/
inductive DataValue where
  | int (n : Int64)
  | bool (b : Bool)
  | bytes (bs : List UInt8)
  | str (s : String)
  deriving DecidableEq

/-- A change that a callable asks for, made by the account of its DApp. -/
inductive Action where
  /-- Store `value` under `key`. -/
  | data (key : String) (value : DataValue)
  /-- Send `amount` of `asset` to `recipient`. -/
  | transfer (recipient : Address) (asset : Asset) (amount : Amount)
  /-- Create `amount` more of `asset`; `reissuable` says whether that may happen again. -/
  | reissue (asset : AssetId) (amount : Amount) (reissuable : Bool)
  /-- Destroy `amount` of `asset`. -/
  | burn (asset : AssetId) (amount : Amount)
  deriving DecidableEq

/-- The result of a script or of one of its parts. -/
inductive Value where
  | unit
  | int (n : Int64)
  | bool (b : Bool)
  | bytes (bs : List UInt8)
  | str (s : String)
  | list (items : List Value)
  | action (a : Action)

/-! ## Kinds -/

/-- The kind of a value, as messages name it. -/
inductive Kind where
  | unit
  | int
  | boolean
  | byteVector
  | string
  | list
  | action
  deriving DecidableEq

/-- The word for a kind in messages. -/
def Kind.text : Kind → String
  | .unit => "Unit"
  | .int => "Int"
  | .boolean => "Boolean"
  | .byteVector => "ByteVector"
  | .string => "String"
  | .list => "List"
  | .action => "Action"

/-- The kind of a value. -/
def Value.kind : Value → Kind
  | .unit => .unit
  | .int _ => .int
  | .bool _ => .boolean
  | .bytes _ => .byteVector
  | .str _ => .string
  | .list _ => .list
  | .action _ => .action

/-! ## Equality -/

mutual

/-- Whether two values are equal. -/
def Value.same : Value → Value → Bool
  | .unit, .unit => true
  | .int m, .int n => m == n
  | .bool a, .bool b => a == b
  | .bytes a, .bytes b => a == b
  | .str a, .str b => a == b
  | .list xs, .list ys => Value.sameItems xs ys
  | .action a, .action b => a == b
  | _, _ => false

/-- Whether two lists of values are equal. -/
def Value.sameItems : List Value → List Value → Bool
  | [], [] => true
  | x :: xs, y :: ys => Value.same x y && Value.sameItems xs ys
  | _, _ => false

end

mutual

theorem Value.same_iff : ∀ a b : Value, Value.same a b = true ↔ a = b
  | .unit, b => by cases b <;> simp [Value.same]
  | .int _, b => by cases b <;> simp [Value.same]
  | .bool _, b => by cases b <;> simp [Value.same]
  | .bytes _, b => by cases b <;> simp [Value.same]
  | .str _, b => by cases b <;> simp [Value.same]
  | .list xs, b => by cases b <;> simp [Value.same, Value.sameItems_iff xs]
  | .action _, b => by cases b <;> simp [Value.same]

theorem Value.sameItems_iff : ∀ xs ys : List Value, Value.sameItems xs ys = true ↔ xs = ys
  | [], ys => by cases ys <;> simp [Value.sameItems]
  | x :: xs, ys => by
    cases ys <;> simp [Value.sameItems, Value.same_iff x, Value.sameItems_iff xs]

end

instance : DecidableEq Value := fun a b => decidable_of_iff _ (Value.same_iff a b)

end MeteredLedger.Script

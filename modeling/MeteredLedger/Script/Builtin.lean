import MeteredLedger.Demand
import MeteredLedger.Script.Error
import MeteredLedger.Sha256

/-!
# Applying built-in functions

A function is applied to finished values. It checks the number of its arguments first, then reads
them from left to right; the first that is not of the kind it needs decides the error.
-/

namespace MeteredLedger.Script

/-- The bytes that encode a string. -/
def utf8Bytes (s : String) : List UInt8 := s.toUTF8.data.toList

namespace Value

/-! ## Reading arguments -/

/-- The integer a value is. -/
def toInt : Value → Except ScriptError Int64
  | int n => .ok n
  | v => .error (.typeMismatch [.int] v.kind)

/-- The truth value a value is. -/
def toBool : Value → Except ScriptError Bool
  | bool b => .ok b
  | v => .error (.typeMismatch [.boolean] v.kind)

/-- The string a value is. -/
def toStr : Value → Except ScriptError String
  | str s => .ok s
  | v => .error (.typeMismatch [.string] v.kind)

/-- The bytes to hash: those of a byte vector or of a string. -/
def toBytes : Value → Except ScriptError (List UInt8)
  | bytes bs => .ok bs
  | str s => .ok (utf8Bytes s)
  | v => .error (.typeMismatch [.byteVector] v.kind)

/-- The account or asset that a byte vector names. -/
def toIdentifier : Value → Except ScriptError Bytes32
  | bytes bs => demandSome (Bytes32.ofBytes? bs) .identifierLength
  | v => .error (.typeMismatch [.byteVector] v.kind)

/-- The asset that a value names; the unit value names the native token. -/
def toAsset : Value → Except ScriptError Asset
  | unit => .ok .native
  | v => v.toIdentifier.map .issued

/-- The value as one that can be stored. -/
def toData : Value → Except ScriptError DataValue
  | int n => .ok (.int n)
  | bool b => .ok (.bool b)
  | bytes bs => .ok (.bytes bs)
  | str s => .ok (.str s)
  | v => .error (.typeMismatch [.int, .boolean, .byteVector, .string] v.kind)

/-! ## Reading results -/

/-- The action a value is. -/
def toAction : Value → Except ScriptError Action
  | action a => .ok a
  | v => .error (.itemNotAction v.kind)

/-- The actions that a callable's result asks for: those it lists, and none for the unit value. -/
def actions : Value → Except ScriptError (List Action)
  | unit => .ok []
  | list items => items.mapM toAction
  | v => .error (.resultNotList v.kind)

end Value

namespace Builtin

/-- Exact integer arithmetic; a result out of range is an error. -/
def arithmetic (op : Int64 → Int64 → Option Int64) (a b : Value) : Except ScriptError Value := do
  let m ← a.toInt
  let n ← b.toInt
  let r ← demandSome (op m n) .integerOverflow
  .ok (.int r)

/-- The value of a function at finished arguments. -/
def apply : Builtin → List Value → Except ScriptError Value
  | add, [a, b] => arithmetic Amount.add? a b
  | sub, [a, b] => arithmetic Amount.sub? a b
  | mul, [a, b] => arithmetic Amount.mul? a b
  | eq, [a, b] => .ok (.bool (a == b))
  | lt, [a, b] => do
    let m ← a.toInt
    let n ← b.toInt
    .ok (.bool (m < n))
  | not, [a] => do
    let b ← a.toBool
    .ok (.bool !b)
  | sha256, [a] => do
    let bs ← a.toBytes
    .ok (.bytes (Sha256.hash bs).bytes)
  | list, items => .ok (.list items)
  | dataEntry, [k, v] => do
    let key ← k.toStr
    let value ← v.toData
    .ok (.action (.data key value))
  | transfer, [r, a, n] => do
    let recipient ← r.toIdentifier
    let asset ← a.toAsset
    let amount ← n.toInt
    .ok (.action (.transfer recipient asset amount))
  | reissue, [a, n, r] => do
    let asset ← a.toIdentifier
    let amount ← n.toInt
    let reissuable ← r.toBool
    .ok (.action (.reissue asset amount reissuable))
  | burn, [a, n] => do
    let asset ← a.toIdentifier
    let amount ← n.toInt
    .ok (.action (.burn asset amount))
  | f, args => .error (.wrongArgumentCount f args.length)

end Builtin

end MeteredLedger.Script

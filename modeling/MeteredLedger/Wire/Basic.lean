import MeteredLedger.Bytes32
import MeteredLedger.Script.Builtin

/-!
# The binary format

Values are written as bytes without names or padding: numbers least significant byte first, truth
values as 0 or 1, strings and lists after their length in four bytes, and a choice between
alternatives after one byte that numbers them. The format says itself where a value ends.

* `Wire` is the class of types that have a binary form.
* `Wire.Fits` says that every length in a value can be written in four bytes.
* `Wire.encode?` writes a value, unless a length in it is too large for that.
* `Wire.decode?` reads a whole byte string and refuses bytes that are left over.
-/

namespace MeteredLedger

/-- A reader takes bytes from the front of its input; it fails on input it does not accept. -/
abbrev Reader (α : Type) := StateT (List UInt8) Option α

/-- A type whose values have a binary form. -/
class Wire (α : Type) where
  /-- The bytes of a value. -/
  encode : α → List UInt8
  /-- Takes the bytes of one value from the input. -/
  read : Reader α
  /-- Every length in the value can be written in four bytes. -/
  Fits : α → Prop

namespace Wire

/-- The bytes of a value, if every length in it can be written. -/
def encode? {α : Type} [Wire α] (a : α) [Decidable (Fits a)] : Option (List UInt8) :=
  if Fits a then some (encode a) else none

theorem encode?_eq_some_iff {α : Type} [Wire α] {a : α} [Decidable (Fits a)] {bytes : List UInt8} :
    encode? a = some bytes ↔ Fits a ∧ encode a = bytes := by
  unfold encode?
  split <;> simp [*]

theorem encode?_eq_none_iff {α : Type} [Wire α] {a : α} [Decidable (Fits a)] :
    encode? a = none ↔ ¬Fits a := by
  unfold encode?
  split <;> simp [*]

/-- The value that these bytes spell from the first to the last. -/
def decode? {α : Type} [Wire α] (bytes : List UInt8) : Option α :=
  match (read : Reader α).run bytes with
  | some (a, []) => some a
  | _ => none

/-! ## Readers -/

/-- Takes one byte. -/
def byte : Reader UInt8 := fun
  | [] => none
  | b :: rest => some (b, rest)

/-- Takes `n` values, one after the other. -/
def times {α : Type} (n : Nat) (reader : Reader α) : Reader (List α) :=
  match n with
  | 0 => pure []
  | n + 1 => do
    let a ← reader
    let as ← times n reader
    pure (a :: as)

/-- Takes a value that `ok?` accepts. -/
def checked {α β : Type} (ok? : α → Option β) (reader : Reader α) : Reader β := do
  let a ← reader
  StateT.lift (ok? a)

/-! ## Numbers -/

/-- The `size` low bytes of a number, least significant first. -/
def littleEndian : Nat → Nat → List UInt8
  | 0, _ => []
  | size + 1, n => UInt8.ofNat n :: littleEndian size (n / 256)

/-- Takes a number of `size` bytes. -/
def number : Nat → Reader Nat
  | 0 => pure 0
  | size + 1 => do
    let low ← byte
    let high ← number size
    pure (low.toNat + 256 * high)

instance : Wire UInt8 where
  encode b := [b]
  read := byte
  Fits _ := True

instance (b : UInt8) : Decidable (Fits b) := .isTrue trivial

instance : Wire UInt32 where
  encode n := littleEndian 4 n.toNat
  read := UInt32.ofNat <$> number 4
  Fits _ := True

instance : Wire UInt64 where
  encode n := littleEndian 8 n.toNat
  read := UInt64.ofNat <$> number 8
  Fits _ := True

instance : Wire Int64 where
  encode n := encode n.toUInt64
  read := UInt64.toInt64 <$> read
  Fits _ := True

instance : Wire Bool where
  encode b := [if b then 1 else 0]
  read := checked (fun b => if b = 0 then some false else if b = 1 then some true else none) byte
  Fits _ := True

/-! ## Identifiers, lists and strings -/

instance : Wire Bytes32 where
  encode a := a.bytes
  read := checked Bytes32.ofBytes? (times 32 byte)
  Fits _ := True

instance {α : Type} [Wire α] : Wire (List α) where
  encode as := littleEndian 4 as.length ++ as.flatMap encode
  read := do
    let n ← number 4
    times n read
  Fits as := as.length < UInt32.size ∧ ∀ a ∈ as, Fits a

instance {α : Type} [Wire α] [∀ a : α, Decidable (Fits a)] (as : List α) : Decidable (Fits as) :=
  inferInstanceAs (Decidable (_ ∧ _))

/-- The string that these bytes encode, if they are well-formed UTF-8. -/
def ofUtf8? (bytes : List UInt8) : Option String := String.fromUTF8? bytes.toByteArray

instance : Wire String where
  encode s := encode (Script.utf8Bytes s)
  read := checked ofUtf8? read
  Fits s := (Script.utf8Bytes s).length < UInt32.size

instance (s : String) : Decidable (Fits s) := inferInstanceAs (Decidable (_ < _))

end Wire

end MeteredLedger

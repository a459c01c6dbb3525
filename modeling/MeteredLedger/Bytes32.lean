/-!
# Fixed-width identifiers

Accounts, issued assets and transactions are all named by 32 bytes. The order of identifiers is the
lexicographic order of their bytes, so every table keyed by them lists its entries in byte order.
-/

namespace MeteredLedger

/-- Exactly 32 bytes. -/
structure Bytes32 where
  /-- The bytes, first one most significant in the order. -/
  bytes : List UInt8
  length_bytes : bytes.length = 32
  deriving DecidableEq

namespace Bytes32

@[ext] theorem ext {a b : Bytes32} (h : a.bytes = b.bytes) : a = b := by
  cases a; cases b; simpa using h

/-- The identifier made of these bytes, if there are 32 of them. -/
def ofBytes? (bs : List UInt8) : Option Bytes32 :=
  if h : bs.length = 32 then some ⟨bs, h⟩ else none

theorem ofBytes?_eq_some_iff {bs : List UInt8} {a : Bytes32} :
    ofBytes? bs = some a ↔ bs = a.bytes := by
  unfold ofBytes?
  split
  · rw [Option.some_inj]
    exact ⟨fun h => h ▸ rfl, fun h => Bytes32.ext h⟩
  · rename_i h
    exact ⟨nofun, fun e => absurd (e ▸ a.length_bytes) h⟩

@[simp] theorem ofBytes?_bytes (a : Bytes32) : ofBytes? a.bytes = some a :=
  ofBytes?_eq_some_iff.2 rfl

/-- One byte repeated 32 times. -/
def fill (b : UInt8) : Bytes32 :=
  ⟨List.replicate 32 b, List.length_replicate⟩

/-- The identifier of an unset field: 32 zero bytes. -/
def zero : Bytes32 := fill 0

/-- Decimal bytes in brackets, as identifiers are shown in messages. -/
def text (a : Bytes32) : String :=
  "[" ++ ", ".intercalate (a.bytes.map fun b => b.toNat.repr) ++ "]"

/-! ## Order -/

instance : Ord Bytes32 := ⟨fun a b => compare a.bytes b.bytes⟩

instance : Std.TransOrd Bytes32 where
  eq_swap := Std.OrientedCmp.eq_swap (α := List UInt8)
  isLE_trans := Std.TransCmp.isLE_trans (α := List UInt8)

instance : Std.LawfulEqOrd Bytes32 where
  eq_of_compare h := Bytes32.ext (Std.LawfulEqOrd.eq_of_compare (α := List UInt8) h)

end Bytes32

end MeteredLedger

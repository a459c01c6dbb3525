import Std.Data.ExtTreeMap
import Std.Data.ExtTreeSet

/-!
# Tables in key order

Every table of the ledger is a finite map that lists its entries in ascending key order; two tables
are equal when they hold the same entries. Besides the library's operations two merges are needed:
one that always succeeds, and one that may refuse to combine two values of a key.
-/

namespace MeteredLedger

/-- A finite map listed in ascending key order. -/
abbrev SortedMap (K V : Type) [Ord K] := Std.ExtTreeMap K V compare

/-- A finite set listed in ascending order. -/
abbrev SortedSet (K : Type) [Ord K] := Std.ExtTreeSet K compare

namespace SortedMap

variable {K V ε : Type} [Ord K] [Std.TransOrd K]

/-- The entries of a list; of two entries with one key the later wins. -/
def ofEntries (entries : List (K × V)) : SortedMap K V :=
  entries.foldl (fun m e => m.insert e.1 e.2) ∅

/-- Adds the entry `(k, new)`, combining it with the value already stored for `k`. -/
def insertWith (f : V → V → V) (m : SortedMap K V) (k : K) (new : V) : SortedMap K V :=
  m.insert k (m[k]?.elim new (f · new))

/-- Adds the entries of `b` to `a`, combining the two values of a shared key. -/
def mergeWith (f : V → V → V) (a b : SortedMap K V) : SortedMap K V :=
  b.foldl (insertWith f) a

/-- Adds the entry `(k, new)`, combining it with the value already stored for `k`, if that can be
done. -/
def tryInsert (f : K → V → V → Except ε V) (m : SortedMap K V) (k : K) (new : V) :
    Except ε (SortedMap K V) :=
  match m[k]? with
  | none => .ok (m.insert k new)
  | some old => (f k old new).map (m.insert k)

/-- Adds the entries of `b` to `a` in key order, combining the two values of a shared key. The first
key whose values do not combine decides the error. -/
def tryMerge (f : K → V → V → Except ε V) (a b : SortedMap K V) : Except ε (SortedMap K V) :=
  b.foldlM (tryInsert f) a

end SortedMap

end MeteredLedger

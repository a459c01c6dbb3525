import MeteredLedger.Demand
import MeteredLedger.SortedMap.Basic
import MeteredLedger.Violation
import MeteredLedger.Wire.Transaction

/-!
# The store of progress

The store maps invocations to their progress, in binary form. Every write is kept with what it
replaced, under the height at which it was made, so that blocks can be taken back. An invocation
that has finished stays finished.

* `get` and `pending` read entries; bytes that are no progress are an error.
* `apply` writes the progress that a block leaves, all of it or nothing.
* `rollback` takes back what was written above a height.
* `snapshot` and `restore` keep and reinstate all entries at once.
-/

namespace MeteredLedger

/-- Why an entry of the store cannot be read, or the store refuses to apply a block. -/
inductive StoreError where
  /-- The bytes of the entry are not those of any progress. -/
  | corrupted (id : InvocationId)
  /-- The progress has a length that is too large to be written. -/
  | encoding (id : InvocationId)
  | heightBelowCurrent (height current : UInt32)
  | violation (violation : Violation)
  deriving DecidableEq

/-- The wording of a store error. -/
def StoreError.message : StoreError → String
  | corrupted id => "continuation state of invocation " ++ id.text ++ " cannot be decoded"
  | encoding id => "continuation state of invocation " ++ id.text ++ " cannot be encoded"
  | heightBelowCurrent height current =>
    s!"height {height.toNat} is below the current height {current.toNat}"
  | violation v => v.message

/-- A write to be taken back: the entry written to, and the bytes that it held before. -/
abbrev Undo := InvocationId × Option (List UInt8)

/-- The progress of invocations. -/
structure ProgressStore where
  /-- The bytes of each entry. -/
  entries : SortedMap InvocationId (List UInt8) := ∅
  /-- The writes made at each height, the last one first. A height without writes is not kept. -/
  undo : SortedMap UInt32 (List Undo) := ∅
  /-- The height of the last block applied. -/
  height : UInt32 := 0
  deriving DecidableEq

namespace ProgressStore

/-- The store before the first block. -/
def empty : ProgressStore := {}

/-! ## Reading -/

/-- The progress that the bytes of an entry stand for. -/
def readEntry (id : InvocationId) (bytes : List UInt8) : Except StoreError Progress :=
  demandSome (Wire.decode? bytes) (.corrupted id)

/-- The progress of an invocation, if it has an entry. -/
def get (s : ProgressStore) (id : InvocationId) : Except StoreError (Option Progress) :=
  match s.entries[id]? with
  | none => .ok none
  | some bytes => (readEntry id bytes).map some

/-- The invocations in progress, each with the step that a continuation has to name. Every entry is
read, in the order of their names. -/
def pending (s : ProgressStore) : Except StoreError (List (InvocationId × UInt32)) :=
  s.entries.toList.filterMapM fun (id, bytes) =>
    (readEntry id bytes).map fun progress => progress.step?.map (id, ·)

/-! ## Applying a block -/

/-- What an update writes, if the store accepts it: finishing a finished invocation is no write. -/
def prepare (s : ProgressStore) (id : InvocationId) (update : Progress) :
    Except StoreError (Option (InvocationId × List UInt8)) := do
  match ← s.get id, update with
  | some .finished, .finished => pure none
  | some .finished, .suspended .. => throw (.violation (.alreadyFinished id))
  | _, _ =>
    let bytes ← demandSome (Wire.encode? update) (.encoding id)
    pure (some (id, bytes))

/-- Writes the bytes of an entry. -/
def put (height : UInt32) (s : ProgressStore) (write : InvocationId × List UInt8) :
    ProgressStore :=
  { s with
    entries := s.entries.insert write.1 write.2
    undo := s.undo.insert height ((write.1, s.entries[write.1]?) :: s.undo.getD height []) }

/-- Applies the progress that a block at `height` leaves. Nothing is written before every update has
been accepted. -/
def apply (s : ProgressStore) (height : UInt32) (updates : SortedMap InvocationId Progress) :
    Except StoreError ProgressStore := do
  demand (s.height ≤ height) (.heightBelowCurrent height s.height)
  let writes ← updates.toList.filterMapM fun (id, update) => s.prepare id update
  pure (writes.foldl (put height) { s with height })

/-! ## Going back -/

/-- The lowest height whose writes are not kept when the store goes back to `height`. -/
def firstDropped (height : UInt32) : UInt32 := saturate32 (height.toNat + 1)

/-- The writes of a log from a height on, the last one first. -/
def writesOf (log : SortedMap UInt32 (List Undo)) (first : UInt32) : List Undo :=
  (log.toList.reverse.filter (first ≤ ·.1)).flatMap (·.2)

/-- A log without the writes from a height on. -/
def cut (log : SortedMap UInt32 (List Undo)) (first : UInt32) : SortedMap UInt32 (List Undo) :=
  log.filter fun height _ => height < first

/-- Takes back one write. -/
def takeBack (entries : SortedMap InvocationId (List UInt8)) (undo : Undo) :
    SortedMap InvocationId (List UInt8) :=
  match undo.2 with
  | some previous => entries.insert undo.1 previous
  | none => entries.erase undo.1

/-- Takes back every write made above a height. -/
def rollback (s : ProgressStore) (height : UInt32) : ProgressStore where
  entries := (writesOf s.undo (firstDropped height)).foldl takeBack s.entries
  undo := cut s.undo (firstDropped height)
  height := min s.height height

/-- The invocations whose progress a rollback writes to, in order. -/
def rollbackIds (s : ProgressStore) (height : UInt32) : List InvocationId :=
  (Std.ExtTreeSet.ofList ((writesOf s.undo (firstDropped height)).map (·.1)) compare).toList

/-- All entries at a height. -/
structure Snapshot where
  height : UInt32
  entries : SortedMap InvocationId (List UInt8)
  deriving DecidableEq

/-- The entries of the store as they are now. -/
def snapshot (s : ProgressStore) : Snapshot := ⟨s.height, s.entries⟩

/-- Reinstates a snapshot. What was written above its height is no longer taken back. -/
def restore (s : ProgressStore) (snapshot : Snapshot) : ProgressStore where
  entries := snapshot.entries
  undo := cut s.undo (firstDropped snapshot.height)
  height := snapshot.height

end ProgressStore

end MeteredLedger

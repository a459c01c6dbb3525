import MeteredLedger.Delta.Portfolio
import MeteredLedger.Delta.Volume
import MeteredLedger.Progress
import MeteredLedger.Record

/-!
# Deltas

A delta is a change of the ledger: the effect of one step, of several, or of a whole block. Deltas
merge in the order in which they happen. Balances add up and volumes add up; of two data entries,
records, progress marks or results under one key the later stands; counters add up.
-/

namespace MeteredLedger

open Script (DataValue)

/-- Why two deltas do not merge: an amount would leave its range. -/
inductive Overflow where
  | balance (address : Address) (asset : Asset)
  | volume (asset : AssetId)
  deriving DecidableEq

/-- The wording of an overflow. -/
def Overflow.message : Overflow → String
  | balance address asset =>
    "balance overflow of " ++ asset.text ++ " for account " ++ address.text
  | volume asset => "volume overflow of asset " ++ asset.text

/-- The data entries of accounts. -/
abbrev AccountData := SortedMap Address (SortedMap String DataValue)

/-- A change of the ledger. -/
structure Delta where
  /-- Changes of balances. -/
  portfolios : SortedMap Address Portfolio := ∅
  /-- Data entries written. -/
  data : AccountData := ∅
  /-- Changes of volumes. -/
  volumes : SortedMap AssetId VolumeChange := ∅
  /-- Records of transactions applied. -/
  records : SortedMap TxId Record := ∅
  /-- New records of transactions applied earlier. -/
  rewritten : SortedMap TxId Record := ∅
  /-- Progress of invocations. -/
  progress : SortedMap InvocationId Progress := ∅
  /-- Results of invocations that ended. -/
  results : SortedMap InvocationId ScriptResult := ∅
  /-- The number of scripts run. -/
  scriptsRun : UInt32 := 0
  /-- The complexity that scripts spent. -/
  complexity : UInt64 := 0
  deriving DecidableEq

namespace Delta

/-! ## Single changes -/

/-- The change that changes nothing. -/
def empty : Delta := {}

instance : EmptyCollection Delta := ⟨empty⟩

/-- A change of one balance. -/
def balance (address : Address) (asset : Asset) (amount : Amount) : Delta :=
  { portfolios := (∅ : SortedMap Address Portfolio).insert address (.single asset amount) }

/-- One data entry written. -/
def entry (address : Address) (key : String) (value : DataValue) : Delta :=
  { data := (∅ : AccountData).insert address
      ((∅ : SortedMap String DataValue).insert key value) }

/-- A change of one volume. -/
def volume (asset : AssetId) (change : VolumeChange) : Delta :=
  { volumes := (∅ : SortedMap AssetId VolumeChange).insert asset change }

/-! ## Reading a delta -/

/-- The change of one balance. -/
def balanceChange (d : Delta) (address : Address) (asset : Asset) : Amount :=
  (d.portfolios[address]?.map (·.get asset)).getD 0

/-- The value written under a key. -/
def dataEntry (d : Delta) (address : Address) (key : String) : Option DataValue :=
  d.data[address]?.bind (·[key]?)

/-- Whether the delta leaves an asset reissuable, if it holds a reissue of it. -/
def reissuable? (d : Delta) (asset : AssetId) : Option Bool :=
  d.volumes[asset]?.bind (·.reissuable?)

/-- The newest record of a transaction. -/
def record (d : Delta) (id : TxId) : Option Record :=
  d.rewritten[id]?.or d.records[id]?

/-! ## Merging -/

/-- The sum of the portfolios of an account. -/
def mergePortfolio (address : Address) (p q : Portfolio) : Except Overflow Portfolio :=
  (p.merge q).mapError (.balance address)

/-- The sum of the volume changes of an asset. -/
def mergeVolume (asset : AssetId) (u v : VolumeChange) : Except Overflow VolumeChange :=
  demandSome (u.merge v) (.volume asset)

/-- The change `a` followed by the change `b`. A balance out of range is reported before a volume
out of range, and each at the first key. -/
def merge (a b : Delta) : Except Overflow Delta := do
  let portfolios ← SortedMap.tryMerge mergePortfolio a.portfolios b.portfolios
  let volumes ← SortedMap.tryMerge mergeVolume a.volumes b.volumes
  pure {
    portfolios
    data := SortedMap.mergeWith (· ∪ ·) a.data b.data
    volumes
    records := a.records ∪ b.records
    rewritten := a.rewritten ∪ b.rewritten
    progress := a.progress ∪ b.progress
    results := a.results ∪ b.results
    scriptsRun := saturate32 (a.scriptsRun.toNat + b.scriptsRun.toNat)
    complexity := saturate64 (a.complexity.toNat + b.complexity.toNat) }

end Delta

end MeteredLedger

import MeteredLedger.ProgressStore
import MeteredLedger.View

/-!
# A ledger in memory

The plainest state that views can be taken of: tables of balances, data entries, scripts, assets and
records, and the store of progress. Committing a delta gives the ledger of the next block.
-/

namespace MeteredLedger

open Script (DApp Expr)

/-- A ledger. -/
structure Ledger where
  /-- The height of the block to be applied next. -/
  height : UInt32 := 1
  header : BlockHeader := {}
  settings : Settings := {}
  features : List Feature := [.continuations]
  balances : SortedMap Address Portfolio := ∅
  data : AccountData := ∅
  accounts : SortedMap Address DApp := ∅
  assets : SortedMap AssetId AssetDescription := ∅
  assetScripts : SortedMap AssetId Expr := ∅
  records : SortedMap TxId Record := ∅
  progress : ProgressStore := .empty

namespace Ledger

/-- The balance of an account; an account without one has nothing. -/
def balance (l : Ledger) (address : Address) (asset : Asset) : Amount :=
  (l.balances[address]?.map (·.get asset)).getD 0

/-- The progress of an invocation; an entry that cannot be read shows none. -/
def progressOf (l : Ledger) (id : InvocationId) : Option Progress :=
  (l.progress.get id).toOption.join

/-- What transactions see of a ledger. -/
def view (l : Ledger) : View where
  height := l.height
  header := l.header
  settings := l.settings
  active := (l.features.contains ·)
  progress := l.progressOf
  record id := l.records[id]?
  account address := l.accounts[address]?
  data address key := l.data[address]?.bind (·[key]?)
  assetScript id := l.assetScripts[id]?
  asset id := l.assets[id]?
  balance := l.balance

/-! ## Changing a ledger -/

/-- The ledger with one balance set. -/
def setBalance (l : Ledger) (address : Address) (asset : Asset) (amount : Amount) : Ledger :=
  { l with balances := l.balances.insert address ((l.balances.getD address {}).set asset amount) }

/-- The ledger with the script of one account set or removed. -/
def setAccount (l : Ledger) (address : Address) (dapp : Option DApp) : Ledger :=
  { l with accounts := l.accounts.alter address fun _ => dapp }

/-- The ledger with an asset and its script set; without a script, the asset has none. -/
def setAsset (l : Ledger) (id : AssetId) (description : AssetDescription)
    (script : Option Expr) : Ledger :=
  { l with
    assets := l.assets.insert id description
    assetScripts := l.assetScripts.alter id fun _ => script }

/-- The ledger of the next block, with the progress that its store then holds. -/
def next (l : Ledger) (d : Delta) (progress : ProgressStore) : Ledger :=
  { l with
    progress
    balances := SortedMap.mergeWith Portfolio.addClamped l.balances d.portfolios
    data := SortedMap.mergeWith (· ∪ ·) l.data d.data
    assets := l.assets.map fun id description =>
      d.volumes[id]?.elim description description.after
    records := l.records ∪ d.records ∪ d.rewritten
    height := saturate32 (l.height.toNat + 1) }

/-- The ledger after a block. The progress of invocations is written at the height of the block;
where that is refused nothing changes. -/
def commit (l : Ledger) (d : Delta) : Except StoreError Ledger :=
  (l.progress.apply l.height d.progress).map (l.next d)

end Ledger

end MeteredLedger

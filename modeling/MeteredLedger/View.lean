import MeteredLedger.Delta.Basic
import MeteredLedger.Settings

/-!
# Views of the ledger

A transaction is applied to a view: the lookups that the ledger answers at that moment. A delta
stacked on a view is again a view, so a transaction sees the effects of those before it in its
block.
-/

namespace MeteredLedger

open Script (DApp DataValue Expr)

/-- A protocol feature that is active or not. -/
inductive Feature where
  /-- Invocations that run out of budget are carried on by continuations. -/
  | continuations
  deriving DecidableEq

/-- The header of the block being applied. -/
structure BlockHeader where
  /-- The account that receives the fees of the block. -/
  generator : Address := .zero
  timestamp : UInt64 := 0
  deriving DecidableEq

/-- What is known of an issued asset. -/
structure AssetDescription where
  issuer : Address
  name : String
  /-- The amount in circulation. -/
  volume : Amount
  reissuable : Bool
  deriving DecidableEq

/-- The asset after a change of its volume. An asset that is not reissuable never becomes so. -/
def AssetDescription.after (d : AssetDescription) (change : VolumeChange) : AssetDescription :=
  { d with
    volume := Amount.clamp (max 0 (d.volume.toInt + change.netChange))
    reissuable := d.reissuable && change.reissuable?.getD true }

/-- The lookups that a transaction is applied to. -/
structure View where
  /-- The height of the block being applied. -/
  height : UInt32
  header : BlockHeader
  settings : Settings
  active : Feature → Bool
  progress : InvocationId → Option Progress
  record : TxId → Option Record
  account : Address → Option DApp
  data : Address → String → Option DataValue
  assetScript : AssetId → Option Expr
  asset : AssetId → Option AssetDescription
  balance : Address → Asset → Amount

namespace View

/-- The view after a change. What the change does not hold is looked up below it. -/
def stack (v : View) (d : Delta) : View :=
  { v with
    progress := fun id => d.progress[id]?.or (v.progress id)
    record := fun id => (d.record id).or (v.record id)
    data := fun address key => (d.dataEntry address key).or (v.data address key)
    asset := fun id => (v.asset id).map fun description =>
      d.volumes[id]?.elim description description.after
    balance := fun address asset =>
      (v.balance address asset).addClamped (d.balanceChange address asset) }

end View

end MeteredLedger

import MeteredLedger.Delta.Basic
import MeteredLedger.Script.Error

/-!
# Failures

A failure ends an invocation: its fee is charged, and none of its actions is applied. Every cause
has one wording, and the causes fall into four numbered classes.
-/

namespace MeteredLedger

open Script (ScriptError)

/-- What is wrong with an action or with a list of actions. -/
inductive ActionFault where
  | tooManyTransfers (count max : Nat)
  | keyTooLong (size max : Nat)
  | tooManyDataEntries (count max : Nat)
  | negativeTransfer (amount : Amount)
  | transferToSelf
  | negativeReissue (amount : Amount)
  | foreignAsset
  | notReissuable
  | negativeBurn (amount : Amount)
  | unknownAsset (asset : AssetId)
  deriving DecidableEq

/-- The wording of a fault. -/
def ActionFault.message : ActionFault → String
  | tooManyTransfers count max => s!"too many transfers: {count}, max {max}"
  | keyTooLong size max => s!"data key of {size} bytes exceeds {max} bytes"
  | tooManyDataEntries count max => s!"too many data entries: {count}, max {max}"
  | negativeTransfer amount => s!"negative transfer amount {amount.toInt}"
  | transferToSelf => "DApp cannot transfer to itself"
  | negativeReissue amount => s!"negative reissue amount {amount.toInt}"
  | foreignAsset => "asset was issued by another address"
  | notReissuable => "asset is not reissuable"
  | negativeBurn amount => s!"negative burn amount {amount.toInt}"
  | unknownAsset asset => "asset " ++ asset.text ++ " does not exist"

/-- Why an invocation failed. -/
inductive FailureReason where
  | script (error : ScriptError)
  | complexityLimitExceeded
  | assetScriptRejected (asset : AssetId) (message : String)
  /-- An action may not be applied, for a reason in words. -/
  | invalidAction (message : String)
  | overflow (overflow : Overflow)
  | negativeBalance (address : Address) (asset : Asset) (balance : Amount)
  | insufficientFee (required provided : UInt64)
  deriving DecidableEq

/-- The failure that a fault leads to. -/
def ActionFault.reason (fault : ActionFault) : FailureReason := .invalidAction fault.message

namespace FailureReason

/-- The number of the class of a failure: 1 for scripts, 2 for fees, 3 for asset scripts, 4 for a
state that would not be valid. -/
def code : FailureReason → UInt32
  | script _ | complexityLimitExceeded => 1
  | insufficientFee .. => 2
  | assetScriptRejected .. => 3
  | invalidAction _ | overflow _ | negativeBalance .. => 4

/-- The wording of a failure. -/
def message : FailureReason → String
  | script error => error.message
  | complexityLimitExceeded => "complexity limit exceeded"
  | assetScriptRejected asset message =>
    "asset script of " ++ asset.text ++ " rejected the action: " ++ message
  | invalidAction message => "invalid action: " ++ message
  | overflow o => o.message
  | negativeBalance address asset balance =>
    "negative " ++ asset.text ++ s!" balance {balance.toInt} for account " ++ address.text
  | insufficientFee required provided =>
    s!"fee {provided.toNat} is insufficient, required {required.toNat}"

/-- The failure as the ledger remembers it. -/
def errorMessage (reason : FailureReason) : ErrorMessage := ⟨reason.code, reason.message⟩

end FailureReason

end MeteredLedger

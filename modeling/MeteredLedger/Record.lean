import MeteredLedger.Transaction

/-!
# Records of applied transactions

The ledger remembers every applied transaction with its status, and for every ended invocation what
its callable asked for or why it failed.
-/

namespace MeteredLedger

open Script (DataValue Action)

/-- The status of an applied transaction. -/
inductive Status where
  | succeeded
  | inProgress
  | failed
  deriving DecidableEq

/-- What the ledger remembers of an applied transaction. -/
structure Record where
  tx : Transaction
  /-- The height of the block that applied the transaction. -/
  height : UInt32
  status : Status
  /-- The fee charged for the transaction. -/
  fee : UInt64
  /-- The accounts the transaction concerns. -/
  affected : SortedSet Address
  /-- The invocation that a continuation carries on. -/
  invocation : Option InvocationId
  /-- The continuations applied to an invocation so far, in the order of their steps. -/
  continuations : List TxId
  deriving DecidableEq

/-! ## Results -/

/-- A data entry that an invocation wrote. -/
structure DataEntry where
  key : String
  value : DataValue
  deriving DecidableEq

/-- A transfer that an invocation made. -/
structure Transfer where
  recipient : Address
  asset : Asset
  amount : Amount
  deriving DecidableEq

/-- A reissue that an invocation made. -/
structure Reissue where
  asset : AssetId
  amount : Amount
  reissuable : Bool
  deriving DecidableEq

/-- A burn that an invocation made. -/
structure Burn where
  asset : AssetId
  amount : Amount
  deriving DecidableEq

/-- Why an invocation failed: the number of the class of causes, and the cause in words. -/
structure ErrorMessage where
  code : UInt32
  text : String
  deriving DecidableEq

/-- The result of an ended invocation: the actions of each kind in the order the callable returned
them, or an error. -/
structure ScriptResult where
  data : List DataEntry := []
  transfers : List Transfer := []
  reissues : List Reissue := []
  burns : List Burn := []
  error : Option ErrorMessage := none
  deriving DecidableEq

namespace ScriptResult

/-- The result of a failed invocation. -/
def failed (error : ErrorMessage) : ScriptResult := { error := some error }

/-- The result with one more action at its end. -/
def push (r : ScriptResult) : Action → ScriptResult
  | .data key value => { r with data := r.data ++ [⟨key, value⟩] }
  | .transfer recipient asset amount =>
    { r with transfers := r.transfers ++ [⟨recipient, asset, amount⟩] }
  | .reissue asset amount reissuable =>
    { r with reissues := r.reissues ++ [⟨asset, amount, reissuable⟩] }
  | .burn asset amount => { r with burns := r.burns ++ [⟨asset, amount⟩] }

end ScriptResult

end MeteredLedger

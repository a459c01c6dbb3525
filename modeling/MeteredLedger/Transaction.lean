import MeteredLedger.Script.Expr

/-!
# Transactions

An *invocation* calls a function of a DApp. When its evaluation runs out of budget it stays in
progress, and *continuations* carry it on, one step each. A continuation holds no script of its own:
it names the invocation and the step to take.
-/

namespace MeteredLedger

open Script (FunctionCall)

/-- The name of a transaction: the hash of its content. -/
abbrev TxId := Bytes32

/-- The name of an invocation: the name of the transaction that started it. -/
abbrev InvocationId := TxId

/-- An amount that an invocation hands to the DApp it calls. -/
structure Payment where
  asset : Asset
  amount : Amount
  deriving DecidableEq

/-- A call of a DApp. -/
structure Invocation where
  id : TxId
  sender : Address
  dapp : Address
  call : FunctionCall
  payments : List Payment
  fee : UInt64
  timestamp : UInt64
  deriving DecidableEq

/-- One more step of an invocation in progress. -/
structure Continuation where
  id : TxId
  invocation : InvocationId
  step : UInt32
  fee : UInt64
  timestamp : UInt64
  deriving DecidableEq

/-- A transaction that the ledger applies. -/
inductive Transaction where
  | invocation (tx : Invocation)
  | continuation (tx : Continuation)
  deriving DecidableEq

/-- The two kinds of transactions. -/
inductive TransactionKind where
  | invocation
  | continuation
  deriving DecidableEq

/-- The number of a kind; the content of a transaction starts with it. -/
def TransactionKind.number : TransactionKind → UInt8
  | invocation => 16
  | continuation => 18

namespace Transaction

/-- The name of a transaction. -/
def id : Transaction → TxId
  | invocation tx => tx.id
  | continuation tx => tx.id

/-- The kind of a transaction. -/
def kind : Transaction → TransactionKind
  | invocation _ => .invocation
  | continuation _ => .continuation

end Transaction

end MeteredLedger

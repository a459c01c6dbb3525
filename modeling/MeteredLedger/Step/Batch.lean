import MeteredLedger.Failure
import MeteredLedger.Script.Evaluation
import MeteredLedger.View

/-!
# Applying payments and actions

When the callable of an invocation has ended, the payments of the invocation go to the DApp, and
then the returned actions are applied in their order, all on behalf of the DApp. Where an asset has
a script, the script runs for each payment and action that involves it and has to return true. The
first payment or action that is not valid ends the batch; what scripts have run is reported also
then.
-/

namespace MeteredLedger

open Script (Action Evaluation EvaluationError Evaluator Scope)

/-! ## Script runs -/

/-- The runs of asset scripts in a batch. They are natural numbers: that a counter of 32 bits would
overflow in a batch with `2 ^ 32` payments or actions is left out. Only the delta of a step keeps
its counters in a machine word, in which all sums are saturated. -/
structure ScriptRuns where
  /-- Runs for payments. -/
  payments : Nat := 0
  /-- Runs for actions. -/
  actions : Nat := 0
  /-- The complexity of all runs. -/
  complexity : Nat := 0
  deriving DecidableEq

/-- The number of runs. -/
def ScriptRuns.total (runs : ScriptRuns) : Nat := runs.payments + runs.actions

/-- What an asset script is asked to approve. -/
inductive OperationKind where
  | payment
  | transfer
  | reissue
  | burn
  deriving DecidableEq

/-- The name of an operation, as scripts see it. -/
def OperationKind.text : OperationKind → String
  | payment => "Payment"
  | transfer => "ScriptTransfer"
  | reissue => "Reissue"
  | burn => "Burn"

/-- An operation on an asset. -/
structure Operation where
  kind : OperationKind
  asset : AssetId
  sender : Address
  /-- The receiver, if the operation moves the asset. -/
  recipient : Option Address
  amount : Amount
  deriving DecidableEq

/-- What the script of an asset sees of an operation. -/
def Operation.bindings (op : Operation) : Scope :=
  [("tx.kind", .str op.kind.text),
   ("tx.sender", .bytes op.sender.bytes),
   ("tx.recipient", op.recipient.elim .unit (.bytes ·.bytes)),
   ("tx.amount", .int op.amount),
   ("tx.assetId", .bytes op.asset.bytes)]

/-- One more run, for an operation of this kind. No count overflows. -/
def ScriptRuns.count (runs : ScriptRuns) (kind : OperationKind) (complexity : Nat) : ScriptRuns :=
  match kind with
  | .payment =>
    { runs with payments := runs.payments + 1, complexity := runs.complexity + complexity }
  | _ => { runs with actions := runs.actions + 1, complexity := runs.complexity + complexity }

/-- What the run of an asset script means: the objection, if it is not approval, and the complexity
spent. A script that does not end within its budget has spent all of it. -/
def verdict (budget : UInt64) : Except EvaluationError Evaluation → Option String × UInt64
  | .ok (.completed (.ok (.bool true)) spent) => (none, spent)
  | .ok (.completed (.ok _) spent) => (some "transaction is not allowed by asset script", spent)
  | .ok (.completed (.error error) spent) => (some error.message, spent)
  | .ok (.suspended ..) => (some "asset script exceeds complexity limit", budget)
  | .error error => (some error.message, 0)

/-! ## Batches -/

/-- What a batch has done so far. -/
structure Batch where
  delta : Delta := .empty
  result : ScriptResult := {}
  runs : ScriptRuns := {}

/-- Why a batch ended early, and what scripts had run by then. -/
structure BatchFailure where
  reason : FailureReason
  runs : ScriptRuns
  deriving DecidableEq

namespace Batch

/-- Ends a batch. -/
def fail {α : Type} (b : Batch) (reason : FailureReason) : Except BatchFailure α :=
  .error ⟨reason, b.runs⟩

/-- Goes on with a batch only if a condition holds. -/
def require (b : Batch) (condition : Bool) (reason : FailureReason) : Except BatchFailure Unit :=
  demand condition ⟨reason, b.runs⟩

/-- Adds a change. -/
def add (b : Batch) (change : Delta) : Except BatchFailure Batch :=
  match b.delta.merge change with
  | .ok delta => .ok { b with delta }
  | .error o => b.fail (.overflow o)

/-- Moves an amount from one account to another. -/
def move (b : Batch) (asset : Asset) (amount : Amount) (payer payee : Address) :
    Except BatchFailure Batch := do
  let b ← b.add (.balance payer asset (-amount))
  b.add (.balance payee asset amount)

/-- Creates or destroys an amount of an asset in the hands of an account. -/
def adjust (b : Batch) (asset : AssetId) (holder : Address) (amount : Amount)
    (change : VolumeChange) : Except BatchFailure Batch := do
  let b ← b.add (.balance holder (.issued asset) amount)
  b.add (.volume asset change)

/-- Notes an action that has been applied. -/
def note (b : Batch) (action : Action) : Batch := { b with result := b.result.push action }

variable (view : View) (evaluator : Evaluator)

/-- What is known of an asset. -/
def describe (b : Batch) (id : AssetId) : Except BatchFailure AssetDescription :=
  demandSome (view.asset id) ⟨(ActionFault.unknownAsset id).reason, b.runs⟩

/-- Requires an asset to be known. The native token always is. -/
def requireKnown (b : Batch) : Asset → Except BatchFailure Unit
  | .native => .ok ()
  | .issued id => b.require (view.asset id).isSome (ActionFault.unknownAsset id).reason

/-- Asks the script of an asset, if it has one, to approve an operation. -/
def approve (b : Batch) (op : Operation) : Except BatchFailure Batch :=
  match view.assetScript op.asset with
  | none => .ok b
  | some script =>
    let budget := view.settings.assetScriptComplexity
    let answer := verdict budget (evaluator (.verify script op.bindings) budget)
    let b := { b with runs := b.runs.count op.kind answer.2.toNat }
    match answer.1 with
    | none => .ok b
    | some objection => b.fail (.assetScriptRejected op.asset objection)

/-- Asks for approval to move an asset. The native token needs none. -/
def approveMove (b : Batch) (kind : OperationKind) (asset : Asset) (amount : Amount)
    (payer payee : Address) : Except BatchFailure Batch :=
  match asset with
  | .native => .ok b
  | .issued id => b.approve view evaluator ⟨kind, id, payer, some payee, amount⟩

/-- Applies a payment. -/
def pay (tx : Invocation) (b : Batch) (payment : Payment) : Except BatchFailure Batch := do
  b.requireKnown view payment.asset
  let b ← b.approveMove view evaluator .payment payment.asset payment.amount tx.sender tx.dapp
  b.move payment.asset payment.amount tx.sender tx.dapp

/-! ## Actions -/

/-- Sends an asset to an account other than the DApp. -/
def transfer (dapp : Address) (b : Batch) (recipient : Address) (asset : Asset) (amount : Amount) :
    Except BatchFailure Batch := do
  b.require (0 ≤ amount) (ActionFault.negativeTransfer amount).reason
  b.require (recipient ≠ dapp) ActionFault.transferToSelf.reason
  b.requireKnown view asset
  let b ← b.approveMove view evaluator .transfer asset amount dapp recipient
  b.move asset amount dapp recipient

/-- Whether the batch so far leaves an asset reissuable. -/
def leavesReissuable (b : Batch) (asset : AssetId) : Bool :=
  (b.delta.volumes[asset]?.bind (·.reissuable?)).getD true

/-- What the batch so far adds to the volume of an asset. -/
def volumeChange (b : Batch) (asset : AssetId) : Int :=
  (b.delta.volumes[asset]?.map (·.netChange)).getD 0

/-- Creates more of an asset that the DApp has issued. The volume, with what the batch has changed
so far, must stay an amount. -/
def reissue (dapp : Address) (b : Batch) (asset : AssetId) (amount : Amount) (reissuable : Bool) :
    Except BatchFailure Batch := do
  b.require (0 ≤ amount) (ActionFault.negativeReissue amount).reason
  let description ← b.describe view asset
  b.require (description.issuer = dapp) ActionFault.foreignAsset.reason
  b.require (description.reissuable && b.leavesReissuable asset) ActionFault.notReissuable.reason
  b.require (description.volume.toInt + b.volumeChange asset + amount.toInt ≤ Amount.greatest)
    (.overflow (.volume asset))
  let b ← b.approve view evaluator ⟨.reissue, asset, dapp, none, amount⟩
  b.adjust asset dapp amount (.reissue amount reissuable)

/-- Destroys some of an asset. -/
def burn (dapp : Address) (b : Batch) (asset : AssetId) (amount : Amount) :
    Except BatchFailure Batch := do
  b.require (0 ≤ amount) (ActionFault.negativeBurn amount).reason
  b.requireKnown view (.issued asset)
  let b ← b.approve view evaluator ⟨.burn, asset, dapp, none, amount⟩
  b.adjust asset dapp (-amount) (.burn amount)

/-- Applies an action. -/
def applyAction (dapp : Address) (b : Batch) : Action → Except BatchFailure Batch
  | .data key value => b.add (.entry dapp key value)
  | .transfer recipient asset amount => b.transfer view evaluator dapp recipient asset amount
  | .reissue asset amount reissuable => b.reissue view evaluator dapp asset amount reissuable
  | .burn asset amount => b.burn view evaluator dapp asset amount

/-- Applies an action and notes it. -/
def act (dapp : Address) (b : Batch) (action : Action) : Except BatchFailure Batch :=
  (b.applyAction view evaluator dapp action).map (·.note action)

end Batch

/-! ## Whole batches -/

/-- The keys of the data entries among actions. -/
def dataKeys (actions : List Action) : List String :=
  actions.filterMap fun
    | .data key _ => some key
    | _ => none

/-- The number of transfers among actions. -/
def transferCount (actions : List Action) : Nat :=
  actions.countP fun
    | .transfer .. => true
    | _ => false

/-- The limit that a list of actions exceeds: transfers are counted first, then the keys of data
entries are measured, and last the data entries are counted. -/
def Limits.exceeded (limits : Limits) (actions : List Action) : Option ActionFault :=
  let transfers := transferCount actions
  let keys := dataKeys actions
  if limits.transfers < transfers then some (.tooManyTransfers transfers limits.transfers)
  else match keys.find? fun key => limits.keySize < key.utf8ByteSize with
    | some key => some (.keyTooLong key.utf8ByteSize limits.keySize)
    | none =>
      if limits.dataEntries < keys.length then
        some (.tooManyDataEntries keys.length limits.dataEntries)
      else none

/-- Applies the payments of an invocation and then its actions. -/
def applyBatch (view : View) (evaluator : Evaluator) (tx : Invocation) (actions : List Action) :
    Except BatchFailure Batch :=
  match view.settings.limits.exceeded actions with
  | some fault => .error ⟨fault.reason, {}⟩
  | none => do
    let b ← tx.payments.foldlM (Batch.pay view evaluator tx) {}
    actions.foldlM (Batch.act view evaluator tx.dapp) b

/-! ## Solvency -/

/-- The balance of an account after a change; it must be neither out of range nor negative. -/
def checkBalance (view : View) (address : Address) (asset : Asset) (change : Amount) :
    Except FailureReason Unit :=
  match Amount.add? (view.balance address asset) change with
  | none => .error (.overflow (.balance address asset))
  | some balance =>
    if balance < 0 then .error (.negativeBalance address asset balance) else .ok ()

/-- Checks every balance that a delta changes, in the order of accounts and assets. -/
def checkBalances (view : View) (delta : Delta) : Except FailureReason Unit :=
  delta.portfolios.toList.forM fun (address, portfolio) =>
    portfolio.entries.forM fun (asset, change) => checkBalance view address asset change

end MeteredLedger

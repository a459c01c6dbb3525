import MeteredLedger.Step.Closing

/-!
# The first step of an invocation

What does not depend on the callable is checked first, and a check that fails rejects the
transaction. Then the verifier of the sender, if there is one, has to approve, and the callable is
evaluated with the budget of one step.
-/

namespace MeteredLedger

open Script (DApp Evaluation Evaluator Expr Scope Value)

namespace Invocation

/-- A fee as scripts see it. -/
def feeValue (fee : UInt64) : Value := .int (Amount.ofFee fee)

/-- What the verifier of the sender sees of an invocation. -/
def verifierBindings (tx : Invocation) : Scope :=
  [("tx.kind", .str "InvokeScript"),
   ("tx.id", .bytes tx.id.bytes),
   ("tx.sender", .bytes tx.sender.bytes),
   ("tx.recipient", .bytes tx.dapp.bytes),
   ("tx.fee", feeValue tx.fee)]

/-- A payment as scripts see it: the asset and the amount. -/
def paymentValue (p : Payment) : Value :=
  .list [p.asset.id?.elim .unit (.bytes ·.bytes), .int p.amount]

/-- What the callable sees of an invocation. -/
def callBindings (tx : Invocation) : Scope :=
  [("i.caller", .bytes tx.sender.bytes),
   ("i.transactionId", .bytes tx.id.bytes),
   ("i.fee", feeValue tx.fee),
   ("i.payments", .list (tx.payments.map paymentValue))]

/-- The number of scripts that run besides the callable before any action: those of the assets paid
with, and the verifier of the sender. It is not cut to 32 bits, which would change it for `2 ^ 32`
payments or more. -/
def prepaidRuns (tx : Invocation) (view : View) (verifier : Option Expr) : Nat :=
  (tx.payments.filterMap (·.asset.id?)).countP (fun id => (view.assetScript id).isSome)
    + if verifier.isSome then 1 else 0

/-! ## Admission -/

/-- Requires every payment to be positive. -/
def requirePositive (payments : List Payment) : Except Rejection Unit :=
  match payments.find? (·.amount ≤ 0) with
  | some payment => .error (.nonPositivePayment payment.amount)
  | none => .ok ()

/-- What an invocation that passes its checks is evaluated with. -/
structure Admission where
  dapp : DApp
  /-- Approves the invocation, if the sender has one. -/
  verifier : Option Expr
  /-- The number of script runs covered by the fee besides the callable. -/
  prepaid : Nat
  /-- The complexity the callable may spend. -/
  budget : UInt64

/-- The checks before any script runs. -/
def admission (tx : Invocation) (view : View) : Except Rejection Admission := do
  let settings := view.settings
  demand (view.record tx.id).isNone .alreadyApplied
  demand (tx.payments.length ≤ settings.limits.payments)
    (.tooManyPayments tx.payments.length settings.limits.payments)
  requirePositive tx.payments
  let dapp ← demandSome (view.account tx.dapp) .noDApp
  let verifier := (view.account tx.sender).bind (·.verifier)
  let prepaid := tx.prepaidRuns view verifier
  let required := settings.fees.minimal .invocation prepaid
  demand (required ≤ tx.fee) (.insufficientFee required tx.fee)
  let budget := settings.maxComplexity dapp.version
  demand (budget ≠ 0) (.noComplexityBudget dapp.version)
  requireFunds view tx.sender tx.fee
  pure { dapp, verifier, prepaid, budget }

/-! ## Evaluation -/

/-- Runs the verifier of the sender and returns the complexity it spent, if it approves. Without a
verifier the invocation is approved for nothing. -/
def authorize (tx : Invocation) (view : View) (evaluator : Evaluator) :
    Option Expr → Except Rejection UInt64
  | none => .ok 0
  | some verifier =>
    match evaluator (.verify verifier tx.verifierBindings) view.settings.assetScriptComplexity with
    | .error error => .error (.evaluation error)
    | .ok (.completed (.ok (.bool true)) spent) => .ok spent
    | .ok (.completed (.ok _) _) => .error (.deniedBySender "verifier returned false")
    | .ok (.completed (.error error) _) => .error (.deniedBySender error.message)
    | .ok (.suspended ..) => .error (.deniedBySender "verifier exceeds complexity limit")

/-- How the first step ends after the answer of the evaluator. Where continuations are not active,
an invocation that does not end within its budget fails. -/
def conclude (step : Step) (view : View) (evaluator : Evaluator) (admission : Admission) :
    Evaluation → StepResult
  | .completed result spent => (step.countRun spent).complete view evaluator result
  | .suspended rest unused =>
    let step := step.countRun (admission.budget - min unused admission.budget)
    if view.active .continuations then
      let fee := view.settings.fees.ofStep .invocation .firstSuspended admission.prepaid
      step.suspend view fee (.suspended 0 rest unused)
    else step.fail view .complexityLimitExceeded

/-- Takes the first step of an invocation. The approval of the sender counts as a run also where
there is no verifier. -/
def apply (tx : Invocation) (view : View) (evaluator : Evaluator) :
    Except Rejection StepResult := do
  let admission ← tx.admission view
  let spent ← tx.authorize view evaluator admission.verifier
  let answer ← (evaluator (.start admission.dapp tx.call tx.callBindings) admission.budget).mapError
    .evaluation
  let step : Step := { invocation := tx, origin := .invocation admission.prepaid }
  pure (conclude (step.countRun spent) view evaluator admission answer)

end Invocation

end MeteredLedger

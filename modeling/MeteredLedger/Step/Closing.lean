import MeteredLedger.Fee
import MeteredLedger.Rejection
import MeteredLedger.Step.Batch

/-!
# How a step ends

A step evaluates the callable of an invocation within one budget. It then ends in one of three ways:
the invocation is *suspended* with what remains to evaluate, or it *succeeds* and its actions are
applied, or it *fails*. In each case the sender pays a fee, the transactions concerned are recorded,
and the progress of the invocation is set.
-/

namespace MeteredLedger

open Script (Evaluator ScriptError Value)

/-- Which step of an invocation a transaction takes. -/
inductive StepOrigin where
  /-- The invocation itself. The runs of `prepaid` other scripts are covered by its fee. -/
  | invocation (prepaid : Nat)
  /-- A continuation, with the record of the invocation that it carries on. -/
  | continuation (tx : Continuation) (record : Record)

/-- A step whose evaluation has ended. Its counters are natural numbers, which are saturated once,
when the step is closed. -/
structure Step where
  invocation : Invocation
  origin : StepOrigin
  /-- The number of scripts run. -/
  scriptsRun : Nat := 0
  /-- The complexity spent by them. -/
  complexity : Nat := 0

/-- The effect of a transaction. -/
structure StepResult where
  delta : Delta
  /-- The status of the invocation after the step. -/
  status : Status
  /-- The fee charged. -/
  fee : UInt64
  deriving DecidableEq

/-! ## Charging -/

/-- A fee taken from an account. -/
def charge (payer : Address) (fee : UInt64) : Delta :=
  .balance payer .native (-Amount.ofFee fee)

/-- Requires that an account can pay a fee. -/
def requireFunds (view : View) (payer : Address) (fee : UInt64) : Except Rejection Unit :=
  demand (fee.toNat ≤ (view.balance payer .native).toInt)
    (.insufficientBalance (view.balance payer .native) fee)

/-! ## Recording -/

namespace Step

/-- Counts one run of a script. -/
def countRun (s : Step) (complexity : UInt64) : Step :=
  { s with scriptsRun := s.scriptsRun + 1, complexity := s.complexity + complexity.toNat }

/-- Counts the runs of asset scripts. -/
def countRuns (s : Step) (runs : ScriptRuns) : Step :=
  { s with scriptsRun := s.scriptsRun + runs.total, complexity := s.complexity + runs.complexity }

/-- The accounts that every step concerns. -/
def parties (s : Step) : SortedSet Address :=
  (∅ : SortedSet Address).insertMany [s.invocation.sender, s.invocation.dapp]

/-- The record of the transaction that takes the step. A continuation that leaves its invocation in
progress has itself succeeded. -/
def newRecord (s : Step) (view : View) (status : Status) (fee : UInt64)
    (affected : SortedSet Address) : Record :=
  match s.origin with
  | .invocation _ =>
    { tx := .invocation s.invocation, height := view.height, status, fee, affected
      invocation := none, continuations := [] }
  | .continuation tx _ =>
    { tx := .continuation tx, height := view.height
      status := if status = .inProgress then .succeeded else status
      fee, affected, invocation := some s.invocation.id, continuations := [] }

/-- The new records of earlier transactions. A continuation joins the list of its invocation; one
that ends the invocation gives its status to the invocation and to all its continuations. -/
def rewrittenRecords (s : Step) (view : View) (status : Status) (affected : SortedSet Address) :
    SortedMap TxId Record :=
  match s.origin with
  | .invocation _ => ∅
  | .continuation tx record =>
    let joined := { record with continuations := record.continuations ++ [tx.id] }
    if status = .inProgress then (∅ : SortedMap TxId Record).insert s.invocation.id joined
    else
      let earlier := record.continuations.filterMap fun id =>
        (view.record id).map fun r => (id, { r with status })
      let ended := { joined with status, affected := record.affected ∪ affected }
      SortedMap.ofEntries (earlier ++ [(s.invocation.id, ended)])

/-- Adds to the changes of a step its records, the progress and the result of the invocation, and
the counters. -/
def close (s : Step) (view : View) (changes : Delta) (status : Status) (fee : UInt64)
    (affected : SortedSet Address) (progress : Progress) (result : Option ScriptResult) :
    StepResult :=
  let record := s.newRecord view status fee affected
  let delta := { changes with
    records := changes.records.insert record.tx.id record
    rewritten := changes.rewritten ∪ s.rewrittenRecords view status affected
    progress := changes.progress.insert s.invocation.id progress
    results := result.elim changes.results (changes.results.insert s.invocation.id)
    scriptsRun := saturate32 s.scriptsRun
    complexity := saturate64 s.complexity }
  { delta, status, fee }

/-! ## The three endings -/

/-- Keeps what remains to evaluate for the next step. -/
def suspend (s : Step) (view : View) (fee : UInt64) (progress : Progress) : StepResult :=
  s.close view (charge s.invocation.sender fee) .inProgress fee s.parties progress none

/-- Ends the invocation without applying any action. The first step is charged the fee that the
invocation declares, a continuation its base fee. -/
def fail (s : Step) (view : View) (reason : FailureReason) : StepResult :=
  let fee := match s.origin with
    | .invocation _ => s.invocation.fee
    | .continuation .. => view.settings.fees.ofStep .continuation .intermediate 0
  s.close view (charge s.invocation.sender fee) .failed fee s.parties .finished
    (some (.failed reason.errorMessage))

/-- The fee of a step whose actions ran `actionRuns` asset scripts. The declared fee of an
invocation has to cover all scripts that ran. The runs are priced as counted, also from `2 ^ 32` on,
where a sum in 32 bits would be saturated. -/
def finalFee (s : Step) (view : View) (actionRuns : Nat) : Except FailureReason UInt64 :=
  let fees := view.settings.fees
  match s.origin with
  | .invocation prepaid =>
    let declared := s.invocation.fee
    let required := fees.minimal .invocation (prepaid + actionRuns)
    if declared < required then .error (.insufficientFee required declared)
    else .ok (fees.ofStep .invocation (.first declared) 0)
  | .continuation .. => .ok (fees.ofStep .continuation .final actionRuns)

/-- Ends the invocation with a batch that has been applied: its fee is due, and no balance may
become negative. -/
def succeed (s : Step) (view : View) (batch : Batch) : Except FailureReason StepResult := do
  let fee ← s.finalFee view batch.runs.actions
  let changes ← ((charge s.invocation.sender fee).merge batch.delta).mapError .overflow
  checkBalances view changes
  let affected := s.parties.insertMany (batch.result.transfers.map (·.recipient))
  pure (s.close view changes .succeeded fee affected .finished (some batch.result))

/-- Ends the invocation with the result of its callable. -/
def complete (s : Step) (view : View) (evaluator : Evaluator)
    (result : Except ScriptError Value) : StepResult :=
  match result.bind Value.actions with
  | .error error => s.fail view (.script error)
  | .ok actions =>
    match applyBatch view evaluator s.invocation actions with
    | .error failure => (s.countRuns failure.runs).fail view failure.reason
    | .ok batch =>
      let s := s.countRuns batch.runs
      match s.succeed view batch with
      | .ok result => result
      | .error reason => s.fail view reason

end Step

end MeteredLedger

import MeteredLedger.Proofs.Blocks

/-! # History

    What the ledger remembers of transactions changes in two ways only: an
    invocation begins, or a continuation carries an invocation on. This module
    says of each what is known afterwards under every name; the changes of
    balances, entries and volumes have no part in it.

    * `Progress.Fits`, `Status.HasResult`: the progress and the result that go
      with a status.
    * `StepResult.Begins`, `StepResult.Continues`: the two ways.
    * `advances_of_transition`: an accepted transaction advances the history in
      one of them. -/

namespace MeteredLedger

open Script (Evaluator)

/-! ## Section 1: What goes with a status -/

/-- The progress of an invocation with this status, which waits for `step` if it
    is still in progress. -/
def Progress.Fits (mark : Progress) (status : Status) (step : UInt32) : Prop :=
  match mark with
  | .suspended step' _ _ => status = .inProgress ∧ step' = step
  | .finished => status = .succeeded ∨ status = .failed

/-- The result of an invocation with this status: none while it is in progress,
    and one that has an error exactly if the invocation has failed. -/
def Status.HasResult (status : Status) (result : Option ScriptResult) : Prop :=
  match status with
  | .inProgress => result = none
  | .succeeded => ∃ r, result = some r ∧ r.error = none
  | .failed => ∃ r, result = some r ∧ r.error ≠ none

/-- The status of the continuations of an invocation: they have succeeded while
    it is in progress, and share its status when it has ended. -/
def Status.ofContinuations (status : Status) : Status :=
  if status = .inProgress then .succeeded else status

namespace Step

variable {s : Step} {status : Status} {mark : Progress} {result : Option ScriptResult}

theorem fits_of_outcome (h : s.Outcome status mark result) : mark.Fits status s.nextStep := by
  cases h with
  | inProgress => exact ⟨rfl, rfl⟩
  | failed => exact .inr rfl
  | succeeded _ => exact .inl rfl

theorem hasResult_of_outcome (h : s.Outcome status mark result) : status.HasResult result := by
  cases h with
  | inProgress => exact rfl
  | @failed error => exact ⟨.failed error, rfl, nofun⟩
  | @succeeded result hnone => exact ⟨result, rfl, hnone⟩

end Step

/-! ## Section 2: The two ways -/

/-- The step begins the invocation `tx`. -/
structure StepResult.Begins (r : StepResult) (v : View) (tx : Invocation) (record : Record)
    (mark : Progress) (result : Option ScriptResult) : Prop where
  fresh : v.record tx.id = none
  record_tx : record.tx = .invocation tx
  record_status : record.status = r.status
  record_continuations : record.continuations = []
  fits : mark.Fits r.status 0
  hasResult : r.status.HasResult result
  records : ∀ id, (v.stack r.delta).record id = if id = tx.id then some record else v.record id
  progress : ∀ id, r.delta.progress[id]? = if id = tx.id then some mark else none
  results : ∀ id, r.delta.results[id]? = if id = tx.id then result else none

/-- The step carries on an invocation with the record `old` by the continuation
    `tx`. If it ends the invocation, the continuations before take over the
    status. -/
structure StepResult.Continues (r : StepResult) (v : View) (tx : Continuation)
    (old record : Record) (affected : SortedSet Address) (mark : Progress)
    (result : Option ScriptResult) : Prop where
  fresh : v.record tx.id = none
  known : v.record tx.invocation = some old
  invocation : ∃ invocation, old.tx = .invocation invocation
  pending : ∃ rest unused, v.progress tx.invocation = some (.suspended tx.step rest unused)
  record_tx : record.tx = .continuation tx
  record_status : record.status = r.status.ofContinuations
  record_invocation : record.invocation = some tx.invocation
  record_continuations : record.continuations = []
  fits : mark.Fits r.status (saturate32 (tx.step.toNat + 1))
  hasResult : r.status.HasResult result
  records : ∀ id, (v.stack r.delta).record id =
    if id = tx.invocation then some (old.join tx.id r.status affected)
    else if id = tx.id then some record
    else if r.status ≠ .inProgress ∧ id ∈ old.continuations then
      (v.record id).map fun earlier => { earlier with status := r.status }
    else v.record id
  progress : ∀ id, r.delta.progress[id]? = if id = tx.invocation then some mark else none
  results : ∀ id, r.delta.results[id]? = if id = tx.invocation then result else none

section Frame

variable {r : StepResult} {v : View}

theorem StepResult.Begins.record_of_recorded {tx : Invocation} {record : Record} {mark : Progress}
    {result : Option ScriptResult} (h : r.Begins v tx record mark result) {id : TxId}
    {earlier : Record} (hid : v.record id = some earlier) :
    (v.stack r.delta).record id = some earlier := by
  have hne : id ≠ tx.id := by
    rintro rfl
    exact nomatch h.fresh.symm.trans hid
  rw [h.records, if_neg hne, hid]

variable {tx : Continuation} {old record : Record} {affected : SortedSet Address} {mark : Progress}
  {result : Option ScriptResult}

theorem StepResult.Continues.ne_of_recorded (h : r.Continues v tx old record affected mark result)
    {id : TxId} {earlier : Record} (hid : v.record id = some earlier) : id ≠ tx.id := by
  rintro rfl
  exact nomatch h.fresh.symm.trans hid

theorem StepResult.Continues.record_invocation_stack
    (h : r.Continues v tx old record affected mark result) :
    (v.stack r.delta).record tx.invocation = some (old.join tx.id r.status affected) := by
  rw [h.records, if_pos rfl]

theorem StepResult.Continues.record_id_stack
    (h : r.Continues v tx old record affected mark result) :
    (v.stack r.delta).record tx.id = some record := by
  rw [h.records, if_neg (h.ne_of_recorded h.known).symm, if_pos rfl]

/-- A continuation of the same invocation keeps everything but its status. -/
theorem StepResult.Continues.record_of_listed
    (h : r.Continues v tx old record affected mark result) {id : TxId} {earlier : Record}
    (hid : v.record id = some earlier) (hne : id ≠ tx.invocation)
    (hlisted : id ∈ old.continuations) :
    (v.stack r.delta).record id = some { earlier with
      status := if r.status = .inProgress then earlier.status else r.status } := by
  rw [h.records, if_neg hne, if_neg (h.ne_of_recorded hid)]
  by_cases hstatus : r.status = .inProgress
  · simp [hstatus, hid]
  · simp [hstatus, hid, hlisted]

/-- What has nothing to do with the invocation keeps its record. -/
theorem StepResult.Continues.record_of_not_listed
    (h : r.Continues v tx old record affected mark result) {id : TxId} {earlier : Record}
    (hid : v.record id = some earlier) (hne : id ≠ tx.invocation)
    (hlisted : id ∉ old.continuations) : (v.stack r.delta).record id = some earlier := by
  rw [h.records, if_neg hne, if_neg (h.ne_of_recorded hid), if_neg fun hmem => hlisted hmem.2, hid]

/-- A record of the new view is that of the invocation, that of the step, or an
    earlier one, of which at most the status has changed. -/
theorem StepResult.Continues.record_cases
    (h : r.Continues v tx old record affected mark result) {id : TxId} {later : Record}
    (hid : (v.stack r.delta).record id = some later) :
    id = tx.invocation ∧ later = old.join tx.id r.status affected ∨
      id = tx.id ∧ later = record ∨
        ∃ earlier, v.record id = some earlier ∧ id ≠ tx.invocation ∧ later = { earlier with
          status := if r.status ≠ .inProgress ∧ id ∈ old.continuations then r.status
            else earlier.status } := by
  rw [h.records] at hid
  by_cases hinv : id = tx.invocation
  · rw [if_pos hinv] at hid
    exact .inl ⟨hinv, (Option.some.inj hid).symm⟩
  · by_cases hnew : id = tx.id
    · rw [if_neg hinv, if_pos hnew] at hid
      exact .inr (.inl ⟨hnew, (Option.some.inj hid).symm⟩)
    · rw [if_neg hinv, if_neg hnew] at hid
      right
      right
      split at hid
      · rename_i hlisted
        obtain ⟨earlier, hearlier, rfl⟩ := Option.map_eq_some_iff.1 hid
        exact ⟨earlier, hearlier, hinv, by rw [if_pos hlisted]⟩
      · rename_i hlisted
        exact ⟨later, hid, hinv, by rw [if_neg hlisted]⟩

end Frame

/-- Every record is kept under the name of its transaction. -/
def View.Named (v : View) : Prop :=
  ∀ id record, v.record id = some record → record.tx.id = id

/-- The two ways in which a transaction advances the history. -/
inductive StepResult.Advances (r : StepResult) (v : View) : Prop where
  | begins {tx record mark result} : r.Begins v tx record mark result → r.Advances v
  | continues {tx old record affected mark result} :
      r.Continues v tx old record affected mark result → r.Advances v

section Transitions

variable {evaluator : Evaluator} {v : View} {r : StepResult} {s : Step}

theorem begins_of_ends {tx : Invocation} {a : Invocation.Admission} (hadmitted : tx.Admitted v a)
    (hinvocation : s.invocation = tx) (horigin : s.origin = .invocation a.prepaid)
    (h : s.Ends v evaluator r) : ∃ record mark result, r.Begins v tx record mark result := by
  obtain ⟨affected, mark, result, hcloses⟩ := Step.closes_of_ends h
  subst hinvocation
  have htx : s.tx = .invocation s.invocation := by rw [Step.tx, horigin]
  refine ⟨s.newRecord v r.status r.fee affected, mark, result, ?_⟩
  exact {
    fresh := hadmitted.fresh
    record_tx := by rw [Step.newRecord_tx, htx]
    record_status := by rw [Step.newRecord, horigin]
    record_continuations := by rw [Step.newRecord, horigin]
    fits := by
      have hfits := Step.fits_of_outcome hcloses.outcome
      rwa [Step.nextStep, horigin] at hfits
    hasResult := Step.hasResult_of_outcome hcloses.outcome
    records := by
      intro id
      simp only [View.stack, Delta.record, hcloses.rewritten,
        Step.getElem?_rewrittenRecords_first horigin, hcloses.records, htx, Option.none_or]
      by_cases hid : id = s.invocation.id
      · simp [hid, Transaction.id]
      · simp [hid, Transaction.id]
    progress := hcloses.progress
    results := hcloses.results }

theorem continues_of_ends {tx : Continuation} {a : Continuation.Admission} (hnamed : v.Named)
    (hadmitted : tx.Admitted v a) (hinvocation : s.invocation = a.invocation)
    (horigin : s.origin = .continuation tx a.record) (h : s.Ends v evaluator r) :
    ∃ record affected mark result, r.Continues v tx a.record record affected mark result := by
  obtain ⟨affected, mark, result, hcloses⟩ := Step.closes_of_ends h
  have htx : s.tx = .continuation tx := by rw [Step.tx, horigin]
  -- the step writes under the name in the transaction that is recorded, the admission has looked
  -- up the name that the continuation gives
  have hid : s.invocation.id = tx.invocation := by
    have hname := hnamed _ _ hadmitted.known
    rwa [hadmitted.invocation, ← hinvocation] at hname
  obtain ⟨unused, -, hprogress, -, -⟩ := hadmitted.pending
  refine ⟨s.newRecord v r.status r.fee affected, affected, mark, result, ?_⟩
  exact {
    fresh := hadmitted.fresh
    known := hadmitted.known
    invocation := ⟨_, hadmitted.invocation⟩
    pending := ⟨_, _, hprogress⟩
    record_tx := by rw [Step.newRecord_tx, htx]
    record_status := by rw [Step.newRecord, horigin]; rfl
    record_invocation := by rw [Step.newRecord, horigin, ← hid]
    record_continuations := by rw [Step.newRecord, horigin]
    fits := by
      have hfits := Step.fits_of_outcome hcloses.outcome
      rwa [Step.nextStep, horigin] at hfits
    hasResult := Step.hasResult_of_outcome hcloses.outcome
    records := by
      intro id
      have hfresh := hadmitted.fresh
      simp only [View.stack, Delta.record, hcloses.rewritten,
        Step.getElem?_rewrittenRecords_later horigin, hcloses.records, htx, hid]
      by_cases hinv : id = tx.invocation
      · simp [hinv]
      · by_cases hnew : id = tx.id
        · -- a record that does not exist yet is not rewritten
          subst hnew
          simp [hinv, hfresh, Transaction.id]
        · simp only [hinv, hnew, Transaction.id, if_false]
          split
          · cases v.record id <;> rfl
          · rfl
    progress := by
      intro id
      rw [hcloses.progress, hid]
    results := by
      intro id
      rw [hcloses.results, hid] }

/-- **What an accepted transaction adds to the history**: an invocation begins,
    or a continuation carries one on. -/
theorem advances_of_transition {tx : Transaction} (hnamed : v.Named)
    (h : transition evaluator v tx = .ok r) : r.Advances v := by
  obtain ⟨s, htakes, hends⟩ := step_of_transition h
  cases htakes with
  | first hadmitted hinvocation horigin =>
    obtain ⟨_, _, _, hbegins⟩ := begins_of_ends hadmitted hinvocation horigin hends
    exact .begins hbegins
  | later hadmitted hinvocation horigin =>
    obtain ⟨_, _, _, _, hcontinues⟩ :=
      continues_of_ends hnamed hadmitted hinvocation horigin hends
    exact .continues hcontinues

end Transitions

end MeteredLedger

import Mathlib.Data.List.Induction
import MeteredLedger.Proofs.Merging
import MeteredLedger.Proofs.Steps

/-! # What a step records

    Besides its changes of balances, data entries and volumes a step writes one
    new record, new records of earlier transactions, the progress of its
    invocation and, if it is the last one, the result. This module says what
    the tables of its delta hold under every key.

    * `Delta.IsPlain`: a delta without records, progress and results; the
      changes of every step are plain.
    * `Step.Applies`, `applies_of_ends`: what an ending has applied, in the form
      that all three endings share.
    * `Step.Closes`: what an ending writes, in one structure.
    * `closes_of_ends`: every ending writes that.
    * `getElem?_rewrittenRecords_later`: the new records of earlier transactions.
    * `tx_of_record_stack`: no other transactions are recorded. -/

namespace MeteredLedger

open Script (Action Evaluator)

/-! ## Section 1: Plain changes -/

/-- A delta that holds no records, no progress and no results. -/
structure Delta.IsPlain (d : Delta) : Prop where
  records : d.records = ∅
  rewritten : d.rewritten = ∅
  progress : d.progress = ∅
  results : d.results = ∅

theorem Delta.isPlain_of_merge {a b d : Delta} (ha : a.IsPlain) (hb : b.IsPlain)
    (h : a.merge b = .ok d) : d.IsPlain := by
  obtain ⟨-, -, -, hrecords, hrewritten, hprogress, hresults, -, -⟩ := merge_eq_ok_iff.1 h
  exact {
    records := by rw [hrecords, ha.records, hb.records]; rfl
    rewritten := by rw [hrewritten, ha.rewritten, hb.rewritten]; rfl
    progress := by rw [hprogress, ha.progress, hb.progress]; rfl
    results := by rw [hresults, ha.results, hb.results]; rfl }

theorem Delta.isPlain_empty : empty.IsPlain := ⟨rfl, rfl, rfl, rfl⟩

theorem Delta.isPlain_balance (address : Address) (asset : Asset) (amount : Amount) :
    (balance address asset amount).IsPlain := ⟨rfl, rfl, rfl, rfl⟩

theorem Delta.isPlain_entry (address : Address) (key : String) (value : Script.DataValue) :
    (entry address key value).IsPlain := ⟨rfl, rfl, rfl, rfl⟩

theorem Delta.isPlain_volume (asset : AssetId) (change : VolumeChange) :
    (volume asset change).IsPlain := ⟨rfl, rfl, rfl, rfl⟩

theorem isPlain_of_moves {d d' : Delta} {asset : Asset} {amount : Amount} {payer payee : Address}
    (hd : d.IsPlain) (h : d.Moves asset amount payer payee d') : d'.IsPlain := by
  obtain ⟨d₁, h₁, h₂⟩ := h
  have hplain := Delta.isPlain_of_merge hd (Delta.isPlain_balance _ _ _) h₁
  exact Delta.isPlain_of_merge hplain (Delta.isPlain_balance _ _ _) h₂

theorem isPlain_of_adjusts {d d' : Delta} {asset : AssetId} {holder : Address} {amount : Amount}
    {change : VolumeChange} (hd : d.IsPlain) (h : d.Adjusts asset holder amount change d') :
    d'.IsPlain := by
  obtain ⟨d₁, h₁, h₂⟩ := h
  have hplain := Delta.isPlain_of_merge hd (Delta.isPlain_balance _ _ _) h₁
  exact Delta.isPlain_of_merge hplain (Delta.isPlain_volume _ _) h₂

theorem isPlain_of_effect {view : View} {tx : Invocation} {d d' : Delta} (h : Effect view tx d d')
    (hd : d.IsPlain) : d'.IsPlain := by
  cases h with
  | payment _ _ hmoves => exact isPlain_of_moves hd hmoves
  | data hmerge => exact Delta.isPlain_of_merge hd (Delta.isPlain_entry _ _ _) hmerge
  | transfer _ _ _ hmoves => exact isPlain_of_moves hd hmoves
  | reissue _ _ hadjusts => exact isPlain_of_adjusts hd hadjusts
  | burn _ _ hadjusts => exact isPlain_of_adjusts hd hadjusts

/-! ## Section 2: What an ending writes -/

namespace Step

/-- The transaction that takes the step. -/
def tx (s : Step) : Transaction :=
  match s.origin with
  | .invocation _ => .invocation s.invocation
  | .continuation tx _ => .continuation tx

theorem tx_of_takes {view : View} {s : Step} {t : Transaction} (h : s.Takes view t) : s.tx = t := by
  cases h with
  | first _ hinvocation horigin => rw [tx, horigin, hinvocation]
  | later _ _ horigin => rw [tx, horigin]

theorem fresh_of_takes {view : View} {s : Step} {t : Transaction} (h : s.Takes view t) :
    view.record t.id = none := by
  cases h with
  | first hadmitted _ _ => exact hadmitted.fresh
  | later hadmitted _ _ => exact hadmitted.fresh

theorem newRecord_tx (s : Step) (view : View) (status : Status) (fee : UInt64)
    (affected : SortedSet Address) : (s.newRecord view status fee affected).tx = s.tx := by
  unfold newRecord tx
  cases s.origin <;> rfl

/-- What a status says about the progress that is set and the result that is
    given: in progress means suspended and no result yet. -/
inductive Outcome (s : Step) : Status → Progress → Option ScriptResult → Prop where
  | inProgress {rest unused} : Outcome s .inProgress (.suspended s.nextStep rest unused) none
  | failed {error} : Outcome s .failed .finished (some (.failed error))
  | succeeded {result} : result.error = none → Outcome s .succeeded .finished (some result)

/-- What an ending of a step writes besides its changes. -/
structure Closes (s : Step) (view : View) (r : StepResult) (affected : SortedSet Address)
    (mark : Progress) (result : Option ScriptResult) : Prop where
  records : ∀ id, r.delta.records[id]? =
    if id = s.tx.id then some (s.newRecord view r.status r.fee affected) else none
  rewritten : r.delta.rewritten = s.rewrittenRecords view r.status affected
  progress : ∀ id, r.delta.progress[id]? = if id = s.invocation.id then some mark else none
  results : ∀ id, r.delta.results[id]? = if id = s.invocation.id then result else none
  outcome : s.Outcome r.status mark result

theorem closes_close {s : Step} {view : View} {changes : Delta} {status : Status} {fee : UInt64}
    {affected : SortedSet Address} {mark : Progress} {result : Option ScriptResult}
    (hchanges : changes.IsPlain) (houtcome : s.Outcome status mark result) :
    s.Closes view (s.close view changes status fee affected mark result) affected mark result where
  records id := by
    simp only [close, hchanges.records, newRecord_tx]
    by_cases hid : s.tx.id = id
    · simp [hid]
    · simp [hid, Ne.symm hid]
  rewritten := by
    simp only [close, hchanges.rewritten]
    ext k
    simp [Std.ExtTreeMap.getElem?_union]
  progress id := by
    simp only [close, hchanges.progress]
    by_cases hid : s.invocation.id = id
    · simp [hid]
    · simp [hid, Ne.symm hid]
  results id := by
    simp only [close, hchanges.results]
    cases result with
    | none => simp
    | some result =>
      by_cases hid : s.invocation.id = id
      · simp [hid]
      · simp [hid, Ne.symm hid]
  outcome := houtcome

end Step

namespace Step

/-- The accounts that a step concerns which has applied a batch. -/
def affected (s : Step) (b : Batch) : SortedSet Address :=
  s.parties.insertMany (b.result.transfers.map (·.recipient))

theorem affected_empty (s : Step) : s.affected {} = s.parties :=
  Std.ExtTreeSet.insertMany_nil

theorem suspend_eq (s : Step) (view : View) (fee : UInt64) (mark : Progress) :
    s.suspend view fee mark = s.close view (charge s.invocation.sender fee) .inProgress fee
      (s.affected {}) mark none := by
  rw [affected_empty]
  rfl

theorem fail_eq (s : Step) (view : View) (reason : FailureReason) :
    s.fail view reason = s.close view (charge s.invocation.sender (s.fail view reason).fee) .failed
      (s.fail view reason).fee (s.affected {}) .finished (some (.failed reason.errorMessage)) := by
  rw [affected_empty]
  rfl

/-- The batch that a step has applied which ends with a status, the progress that
    it sets and the result that it gives. Only a step that succeeds has applied
    anything. -/
inductive Applies (view : View) (evaluator : Evaluator) (s : Step) :
    Status → Batch → Progress → Option ScriptResult → Prop where
  | suspended {rest unused} : Applies view evaluator s .inProgress {}
      (.suspended s.nextStep rest unused) none
  | failed {error} : Applies view evaluator s .failed {} .finished (some (.failed error))
  | succeeded {actions b} : applyBatch view evaluator s.invocation actions = .ok b →
      Applies view evaluator s .succeeded b .finished (some b.result)

variable {s : Step} {view : View} {evaluator : Evaluator}

/-- **All endings have one form**: a step takes a fee, applies a batch, and is
    closed with the sum of the two. -/
theorem applies_of_ends {r : StepResult} (h : s.Ends view evaluator r) :
    ∃ status fee b changes mark result, s.Applies view evaluator status b mark result ∧
      (charge s.invocation.sender fee).merge b.delta = .ok changes ∧
      r = s.close view changes status fee (s.affected b) mark result := by
  cases h with
  | suspended => exact ⟨_, _, {}, _, _, _, .suspended, Delta.merge_empty _, suspend_eq s view _ _⟩
  | failed => exact ⟨_, _, {}, _, _, _, .failed, Delta.merge_empty _, fail_eq s view _⟩
  | succeeded hbatch hsucceed =>
    obtain ⟨fee, changes, -, hchanges, -, rfl⟩ := succeed_eq_ok hsucceed
    exact ⟨_, _, _, _, _, _, .succeeded hbatch, hchanges, rfl⟩

theorem Applies.isPlain {status : Status} {b : Batch} {mark : Progress}
    {result : Option ScriptResult} (h : s.Applies view evaluator status b mark result) :
    b.delta.IsPlain := by
  cases h with
  | suspended => exact Delta.isPlain_empty
  | failed => exact Delta.isPlain_empty
  | succeeded hbatch =>
    exact applyBatch_keeps Delta.isPlain_empty (fun _ _ => isPlain_of_effect) hbatch

theorem Applies.outcome {status : Status} {b : Batch} {mark : Progress}
    {result : Option ScriptResult} (h : s.Applies view evaluator status b mark result) :
    s.Outcome status mark result := by
  cases h with
  | suspended => exact .inProgress
  | failed => exact .failed
  | succeeded hbatch => exact .succeeded (error_of_applyBatch hbatch)

theorem closes_of_applies {status : Status} {fee : UInt64} {b : Batch} {changes : Delta}
    {mark : Progress} {result : Option ScriptResult}
    (h : s.Applies view evaluator status b mark result)
    (hchanges : (charge s.invocation.sender fee).merge b.delta = .ok changes) :
    s.Closes view (s.close view changes status fee (s.affected b) mark result) (s.affected b)
      mark result :=
  closes_close (Delta.isPlain_of_merge (Delta.isPlain_balance _ _ _) h.isPlain hchanges) h.outcome

theorem closes_of_ends {r : StepResult} (h : s.Ends view evaluator r) :
    ∃ affected mark result, s.Closes view r affected mark result := by
  obtain ⟨status, fee, b, changes, mark, result, happlies, hchanges, rfl⟩ := applies_of_ends h
  exact ⟨_, _, _, closes_of_applies happlies hchanges⟩

end Step

/-! ## Section 3: New records of earlier transactions -/

namespace SortedMap

variable {K V : Type} [Ord K] [Std.TransOrd K]

theorem ofEntries_concat (l : List (K × V)) (k : K) (v : V) :
    ofEntries (l ++ [(k, v)]) = (ofEntries l).insert k v := by
  simp [ofEntries, List.foldl_append]

/-- A table of the values that a function has at some keys. -/
theorem getElem?_ofEntries_filterMap [Std.LawfulEqOrd K] [DecidableEq K] (f : K → Option V)
    (keys : List K) (k : K) :
    (ofEntries (keys.filterMap fun key => (f key).map (key, ·)))[k]? =
      if k ∈ keys then f k else none := by
  -- induction from the end of the list, where the last entry of a key stands
  induction keys using List.reverseRecOn with
  | nil => simp [ofEntries]
  | append_singleton keys key ih =>
    rw [List.filterMap_append]
    by_cases hkey : k = key
    · subst hkey
      cases hf : f k with
      | none => simp [hf, ih]
      | some v => simp [hf, ofEntries_concat]
    · cases hf : f key with
      | none => simp [hf, ih, hkey]
      | some v =>
        simp [hf, ofEntries_concat, ih, hkey, Std.ExtTreeMap.getElem?_insert, Ne.symm hkey]

end SortedMap

/-- The record of an invocation after a continuation that leaves it with this
    status. -/
def Record.join (r : Record) (id : TxId) (status : Status) (affected : SortedSet Address) :
    Record :=
  let joined := { r with continuations := r.continuations ++ [id] }
  if status = .inProgress then joined else { joined with status, affected := r.affected ∪ affected }

section Join

variable {r : Record} {id : TxId} {status : Status} {affected : SortedSet Address}

@[simp] theorem Record.tx_join : (r.join id status affected).tx = r.tx := by
  unfold join
  dsimp only
  split <;> rfl

@[simp] theorem Record.continuations_join :
    (r.join id status affected).continuations = r.continuations ++ [id] := by
  unfold join
  dsimp only
  split <;> rfl

theorem Record.status_join (h : r.status = .inProgress) :
    (r.join id status affected).status = status := by
  unfold join
  dsimp only
  split
  · rename_i hstatus
    rw [h, hstatus]
  · rfl

end Join

namespace Step

variable {s : Step} {view : View} {status : Status} {affected : SortedSet Address}

/-- The first step of an invocation leaves all earlier records alone. -/
theorem getElem?_rewrittenRecords_first {prepaid : Nat} (h : s.origin = .invocation prepaid)
    (id : TxId) : (s.rewrittenRecords view status affected)[id]? = none := by
  rw [rewrittenRecords, h]
  simp

/-- A continuation joins the list of its invocation. If it ends the invocation,
    those before it take over the status. -/
theorem getElem?_rewrittenRecords_later {tx : Continuation} {record : Record}
    (h : s.origin = .continuation tx record) (id : TxId) :
    (s.rewrittenRecords view status affected)[id]? =
      if id = s.invocation.id then some (record.join tx.id status affected)
      else if status ≠ .inProgress ∧ id ∈ record.continuations then
        (view.record id).map fun r => { r with status }
      else none := by
  rw [rewrittenRecords, h]
  unfold Record.join
  by_cases hstatus : status = .inProgress
  · by_cases hid : id = s.invocation.id
    · simp [hstatus, hid]
    · simp [hstatus, hid, Ne.symm hid]
  · have hentries : ∀ key : TxId,
        (view.record key).map (fun r => (key, { r with status })) =
          ((view.record key).map fun r => { r with status }).map (key, ·) := fun key => by
      rw [Option.map_map]; rfl
    by_cases hid : id = s.invocation.id
    · simp [hstatus, hid, SortedMap.ofEntries_concat]
    · simp only [hstatus, if_false, SortedMap.ofEntries_concat, hentries,
        Std.ExtTreeMap.getElem?_insert, Std.LawfulEqOrd.compare_eq_iff_eq, Ne.symm hid, hid,
        SortedMap.getElem?_ofEntries_filterMap, ne_eq, not_false_eq_true, true_and]

/-- A continuation has no invocation as its transaction. -/
theorem invocation_of_tx {tx : Invocation} (h : s.tx = .invocation tx) : s.invocation = tx := by
  unfold Step.tx at h
  split at h
  · exact Transaction.invocation.inj h
  · exact nomatch h

/-- A step only records its own transaction and transactions recorded before. -/
theorem tx_of_record_stack {evaluator : Evaluator} {t : Transaction} {r : StepResult}
    (htakes : s.Takes view t) (hends : s.Ends view evaluator r) {id : TxId} {record : Record}
    (h : (view.stack r.delta).record id = some record) :
    record.tx = s.tx ∨ ∃ id' record', view.record id' = some record' ∧ record'.tx = record.tx := by
  obtain ⟨affected, mark, result, hcloses⟩ := closes_of_ends hends
  simp only [View.stack, Delta.record, Option.or_assoc, Option.or_eq_some_iff] at h
  -- the record has been rewritten by the step, or is new, or was there before
  rcases h with hrewritten | ⟨-, hnew | ⟨-, hbefore⟩⟩
  · rw [hcloses.rewritten] at hrewritten
    cases htakes with
    | first _ _ horigin =>
      rw [getElem?_rewrittenRecords_first horigin] at hrewritten
      exact nomatch hrewritten
    | @later tx a hadmitted _ horigin =>
      right
      rw [getElem?_rewrittenRecords_later horigin] at hrewritten
      split at hrewritten
      · obtain rfl := Option.some.inj hrewritten
        exact ⟨_, _, hadmitted.known, Record.tx_join.symm⟩
      · split at hrewritten
        · obtain ⟨earlier, hearlier, rfl⟩ := Option.map_eq_some_iff.1 hrewritten
          exact ⟨_, _, hearlier, rfl⟩
        · exact nomatch hrewritten
  · left
    rw [hcloses.records] at hnew
    split at hnew
    · obtain rfl := Option.some.inj hnew
      exact newRecord_tx s view _ _ _
    · exact nomatch hnew
  · exact .inr ⟨id, record, hbefore, rfl⟩

end Step

end MeteredLedger

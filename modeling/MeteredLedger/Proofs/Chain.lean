import MeteredLedger.Ledger
import MeteredLedger.Proofs.Agreement

/-! # Chains of blocks on a ledger

    A block is evaluated on the view of a ledger and then committed to the ledger.
    The view is a copy of the tables as long as the block lasts, and the committed
    tables show what the block has stacked on the view: nothing is lost between the
    delta of a block and the ledger of the next one. So whatever holds along the
    views that chains of blocks can come to holds of every ledger that grows block
    by block.

    * `view_commit`: the committed ledger shows the stacked view, one block higher.
    * `Ledger.Chain`: the ledgers that grow block by block.
    * `reachable_of_chain`, `course_of_chain`: their views are reachable, and their
      stores serve them.
    * `chain_goes_on`: a ledger takes exactly the blocks on its view whose progress
      can be written. -/

namespace MeteredLedger

open Script (Evaluator)

/-! ## Section 1: The committed tables -/

/-- Portfolios are added asset by asset. -/
theorem Portfolio.get_addClamped (p q : Portfolio) (asset : Asset) :
    (p.addClamped q).get asset = (p.get asset).addClamped (q.get asset) := by
  cases asset with
  | native => rfl
  | issued id =>
    simp only [addClamped, get, Std.ExtTreeMap.getD_eq_getD_getElem?,
      SortedMap.getElem?_mergeWith]
    cases p.assets[id]? <;> cases q.assets[id]? <;> simp [SortedMap.combine]

/-- An entry that cannot be read is left as it is, so what the store shows of it
    stays nothing. -/
theorem ProgressStore.toOption_get_apply {s s' : ProgressStore} {height : UInt32}
    {updates : SortedMap InvocationId Progress} (h : s.apply height updates = .ok s')
    (id : InvocationId) :
    (s'.get id).toOption.join = updates[id]?.or (s.get id).toOption.join := by
  cases hget : s.get id with
  | ok p => rw [get_apply h hget]; rfl
  | error error =>
    cases hmark : updates[id]? with
    | none =>
      have hentry : s'.entries[id]? = s.entries[id]? := by rw [entries_apply h, hmark]; rfl
      rw [get_congr hentry, hget]
      rfl
    | some mark =>
      -- an update of it would have been refused
      obtain ⟨o, hprepare⟩ := exists_prepare_of_apply h hmark
      obtain ⟨p, hread, -⟩ := bind_eq_ok_iff.1 hprepare
      exact nomatch hget.symm.trans hread

namespace Ledger

section

variable {l l' : Ledger} {d : Delta} {progress : ProgressStore}

theorem balance_next : (l.next d progress).balance = (l.view.stack d).balance := by
  funext address asset
  simp only [next, balance, view, View.stack, Delta.balanceChange, SortedMap.getElem?_mergeWith]
  cases l.balances[address]? <;> cases d.portfolios[address]? <;>
    simp [SortedMap.combine, Portfolio.get_addClamped]

theorem data_next : (l.next d progress).view.data = (l.view.stack d).data := by
  funext address key
  simp only [next, view, View.stack, Delta.dataEntry, SortedMap.getElem?_mergeWith]
  cases l.data[address]? <;> cases d.data[address]? <;>
    simp [SortedMap.combine, Std.ExtTreeMap.getElem?_union]

theorem asset_next : (l.next d progress).view.asset = (l.view.stack d).asset := by
  funext id
  simp only [next, view, View.stack, Std.ExtTreeMap.getElem?_map]

theorem record_next : (l.next d progress).view.record = (l.view.stack d).record := by
  funext id
  simp only [next, view, View.stack, Delta.record, Std.ExtTreeMap.getElem?_union, Option.or_assoc]

theorem progressOf_next (h : l.progress.apply l.height d.progress = .ok progress) :
    (l.next d progress).progressOf = (l.view.stack d).progress := by
  funext id
  exact ProgressStore.toOption_get_apply h id

/-- The tables of the next block show what the block has left. -/
theorem view_next (h : l.progress.apply l.height d.progress = .ok progress) :
    (l.next d progress).view =
      { l.view.stack d with height := saturate32 (l.height.toNat + 1) } := by
  -- the other tables are not changed by a block
  have hsplit : (l.next d progress).view = { l.view.stack d with
      height := saturate32 (l.height.toNat + 1)
      progress := (l.next d progress).progressOf
      record := (l.next d progress).view.record
      data := (l.next d progress).view.data
      asset := (l.next d progress).view.asset
      balance := (l.next d progress).balance } := rfl
  rw [hsplit, progressOf_next h, record_next, data_next, asset_next, balance_next]

/-- A commit writes to the store, and fails only where the store does. -/
theorem commit_eq_ok_iff : l.commit d = .ok l' ↔
    ∃ progress, l.progress.apply l.height d.progress = .ok progress ∧ l.next d progress = l' :=
  map_eq_ok_iff

theorem exists_commit_iff : (∃ l', l.commit d = .ok l') ↔
    ∃ progress, l.progress.apply l.height d.progress = .ok progress := by
  simp only [commit_eq_ok_iff]
  exact ⟨fun ⟨_, progress, happly, _⟩ => ⟨progress, happly⟩,
    fun ⟨progress, happly⟩ => ⟨_, progress, happly, rfl⟩⟩

theorem apply_of_commit_eq_error {error : StoreError} (h : l.commit d = .error error) :
    l.progress.apply l.height d.progress = .error error := by
  unfold commit at h
  cases happly : l.progress.apply l.height d.progress with
  | error error' =>
    rw [happly] at h
    obtain rfl := Except.error.inj h
    rfl
  | ok progress =>
    rw [happly] at h
    exact nomatch h

/-- **A commit keeps what the block has left**: the ledger shows the view stacked
    with the delta, one block higher. -/
theorem view_commit (h : l.commit d = .ok l') :
    l'.view = { l.view.stack d with height := saturate32 (l.height.toNat + 1) } := by
  obtain ⟨progress, happly, rfl⟩ := commit_eq_ok_iff.1 h
  exact view_next happly

theorem sameHistory_commit (h : l.commit d = .ok l') : (l.view.stack d).SameHistory l'.view := by
  rw [view_commit h]
  exact ⟨rfl, rfl⟩

/-- The height of a ledger stops at the greatest one. -/
theorem height_le_of_commit (h : l.commit d = .ok l') : l.height ≤ l'.height := by
  obtain ⟨progress, -, rfl⟩ := commit_eq_ok_iff.1 h
  have hlt := l.height.toNat_lt_size
  have hnext : (l.next d progress).height = saturate32 (l.height.toNat + 1) := rfl
  rw [hnext, UInt32.le_iff_toNat_le, toNat_saturate32]
  omega

end

/-! ## Section 2: Growing block by block -/

/-- The ledgers that grow block by block. -/
inductive Chain (evaluator : Evaluator) : Ledger → Prop where
  /-- Nothing has been recorded, and the store is empty. -/
  | start {l} : l.records = ∅ → l.progress = .empty → Chain evaluator l
  /-- Between two blocks everything but records and progress may be set; the height
      never decreases. -/
  | change {l l'} : Chain evaluator l → l'.records = l.records → l'.progress = l.progress →
      l.height ≤ l'.height → Chain evaluator l'
  | block {l l' txs b} : Chain evaluator l → transitionBlock evaluator l.view txs = .ok b →
      l.commit b.delta = .ok l' → Chain evaluator l'

section

variable {evaluator : Evaluator} {l l' : Ledger} {txs : List Transaction} {b : BlockResult}

theorem sameHistory_of_eq (hrecords : l'.records = l.records)
    (hprogress : l'.progress = l.progress) : l.view.SameHistory l'.view where
  record := by simp only [view, hrecords]
  progress := by
    funext id
    simp only [view, progressOf, hprogress]

/-- **The views of a chain are reachable.** -/
theorem reachable_of_chain (h : Chain evaluator l) : Reachable evaluator l.view := by
  induction h with
  | start hrecords hprogress =>
    refine .start (fun id => ?_) fun id => ?_
    · simp only [view, hrecords, Std.ExtTreeMap.getElem?_empty]
    · simp only [view, progressOf, hprogress]
      rfl
  | change _ hrecords hprogress _ ih => exact .change ih (sameHistory_of_eq hrecords hprogress)
  | block _ hblock hcommit ih => exact .change (.block ih hblock) (sameHistory_commit hcommit)

/-- **A chain is a course**: its blocks are written to the store as they come. -/
theorem course_of_chain (h : Chain evaluator l) : Course evaluator l.view l.progress := by
  induction h with
  | @start l hrecords hprogress =>
    have hrecord : ∀ id, l.view.record id = none := fun id => by
      simp only [view, hrecords, Std.ExtTreeMap.getElem?_empty]
    have hempty : ∀ id, ProgressStore.empty.get id = .ok (l.view.progress id) := fun id => by
      simp only [view, progressOf, hprogress]
      rfl
    rw [hprogress]
    exact .start hrecord hempty
  | @change l l' _ hrecords hprogress hheight ih =>
    rw [hprogress]
    exact .change ih (sameHistory_of_eq hrecords hprogress) hheight
  | @block l l' txs b _ hblock hcommit ih =>
    have hhistory := sameHistory_commit hcommit
    have hheight := height_le_of_commit hcommit
    obtain ⟨progress, happly, rfl⟩ := commit_eq_ok_iff.1 hcommit
    have hget : ∀ id, progress.get id = .ok ((l.next b.delta progress).view.progress id) := by
      rw [← hhistory.progress]
      exact get_of_block (served_of_course ih).progress happly
    exact .block ih hblock happly hhistory.record.symm hget hheight

/-- **A chain goes on** with every block on the view of its ledger, unless the
    evaluator leaves something that cannot be written: for nothing else a block is
    refused. -/
theorem chain_goes_on (h : Chain evaluator l)
    (hblock : transitionBlock evaluator l.view txs = .ok b) :
    (l.view.Writes evaluator txs → ∃ l', l.commit b.delta = .ok l' ∧ Chain evaluator l') ∧
      ((∃ l', l.commit b.delta = .ok l') ↔ b.delta.Writable) ∧
      ∀ error, l.commit b.delta = .error error →
        ∃ id mark, b.delta.progress[id]? = some mark ∧ ¬Wire.Fits mark ∧ error = .encoding id := by
  have hserved := served_of_course (course_of_chain h)
  have htakes := hserved.takesOver hblock
  refine ⟨fun hwrites => ?_, exists_commit_iff.trans htakes.applied_iff, fun error hrefused => ?_⟩
  · obtain ⟨l', hcommit⟩ := exists_commit_iff.2 (htakes.applied hwrites)
    exact ⟨l', hcommit, .block h hblock hcommit⟩
  · exact htakes.refused error (apply_of_commit_eq_error hrefused)

end

end Ledger

end MeteredLedger

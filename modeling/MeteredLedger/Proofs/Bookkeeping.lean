import Mathlib.Algebra.Ring.Nat
import Mathlib.Data.List.Nodup
import MeteredLedger.Proofs.History

/-! # The books of a block

    A block keeps four accounts of what it does: the transactions applied, those
    rejected, the fees, and the tables of records in its delta. This module says
    that the four agree, also where an invocation that a block has recorded is
    carried on by later transactions of the same block.

    * `Interleaves`: two lists laid into each other, each in its own order.
    * `SortedMap.toList_perm_cons`: the entries of a table with a new key.
    * `Record.Rewrites`: a later record of the same transaction.
    * `StepResult.Enters`: what an accepted transaction enters into the books.
    * `BlockResult.KeepsBooks`: what the books of a block say.
    * `keepsBooks_of_goes`, `block_keeps_books`: every transaction keeps that, and
      so does a block. -/

namespace MeteredLedger

open Script (Evaluator)

/-! ## Section 1: Lists laid into each other -/

/-- `Interleaves l r w`: the list `w` holds the elements of `l` and of `r`, each
    once, those of either list in their order. -/
inductive Interleaves {α : Type} : List α → List α → List α → Prop where
  | nil : Interleaves [] [] []
  | left {x l r w} : Interleaves l r w → Interleaves (x :: l) r (x :: w)
  | right {x l r w} : Interleaves l r w → Interleaves l (x :: r) (x :: w)

namespace Interleaves

variable {α : Type} {l r w : List α}

theorem concat_left (h : Interleaves l r w) (x : α) : Interleaves (l ++ [x]) r (w ++ [x]) := by
  induction h with
  | nil => exact .left .nil
  | left _ ih => exact .left ih
  | right _ ih => exact .right ih

theorem concat_right (h : Interleaves l r w) (x : α) : Interleaves l (r ++ [x]) (w ++ [x]) := by
  induction h with
  | nil => exact .right .nil
  | left _ ih => exact .left ih
  | right _ ih => exact .right ih

end Interleaves

/-! ## Section 2: Tables with a new key -/

namespace SortedMap

variable {K V : Type} [Ord K] [Std.TransOrd K]

theorem nodup_toList (a : SortedMap K V) : a.toList.Nodup := by
  refine a.distinct_keys_toList.imp ?_
  rintro e _ hne rfl
  exact hne Std.ReflCmp.compare_self

theorem toList_perm_cons [Std.LawfulEqOrd K] [DecidableEq K] {a b : SortedMap K V} {key : K}
    {value : V} (hkey : a[key]? = none)
    (h : ∀ k, b[k]? = if k = key then some value else a[k]?) :
    b.toList.Perm ((key, value) :: a.toList) := by
  have hnew : (key, value) ∉ a.toList := by
    rw [Std.ExtTreeMap.mem_toList_iff_getElem?_eq_some, hkey]
    exact nofun
  refine (List.perm_ext_iff_of_nodup (nodup_toList b)
    (List.nodup_cons.2 ⟨hnew, nodup_toList a⟩)).2 ?_
  rintro ⟨k, v⟩
  rw [List.mem_cons, Std.ExtTreeMap.mem_toList_iff_getElem?_eq_some,
    Std.ExtTreeMap.mem_toList_iff_getElem?_eq_some, h]
  by_cases hk : k = key
  · subst hk
    simp [hkey, eq_comm]
  · simp [hk]

end SortedMap

/-! ## Section 3: What a step enters -/

/-- `later` is another record of the same application of the same transaction:
    only what its invocation has come to since may differ. -/
structure Record.Rewrites (later earlier : Record) : Prop where
  tx : later.tx = earlier.tx
  height : later.height = earlier.height
  fee : later.fee = earlier.fee
  invocation : later.invocation = earlier.invocation

theorem Record.Rewrites.trans {r s t : Record} (h : r.Rewrites s) (h' : s.Rewrites t) :
    r.Rewrites t where
  tx := h.tx.trans h'.tx
  height := h.height.trans h'.height
  fee := h.fee.trans h'.fee
  invocation := h.invocation.trans h'.invocation

theorem Record.rewrites_join (r : Record) (id : TxId) (status : Status)
    (affected : SortedSet Address) : (r.join id status affected).Rewrites r := by
  unfold join
  dsimp only
  split
  · exact ⟨rfl, rfl, rfl, rfl⟩
  · exact ⟨rfl, rfl, rfl, rfl⟩

/-- The effect `r` of the transaction `tx` enters `record` into the books, and
    rewrites only what they hold already. -/
structure StepResult.Enters (r : StepResult) (v : View) (tx : Transaction) (record : Record) :
    Prop where
  fresh : v.record tx.id = none
  records : ∀ id, r.delta.records[id]? = if id = tx.id then some record else none
  fee : record.fee = r.fee
  rewritten : ∀ id later, r.delta.rewritten[id]? = some later →
    ∃ earlier, v.record id = some earlier ∧ later.Rewrites earlier

section Transitions

variable {evaluator : Evaluator} {v : View} {tx : Transaction} {r : StepResult} {s : Step}

theorem Step.newRecord_fee (s : Step) (v : View) (status : Status) (fee : UInt64)
    (affected : SortedSet Address) : (s.newRecord v status fee affected).fee = fee := by
  unfold newRecord
  split <;> rfl

theorem rewrites_of_takes {affected : SortedSet Address} {mark : Progress}
    {result : Option ScriptResult} (hnamed : v.Named) (htakes : s.Takes v tx)
    (hcloses : s.Closes v r affected mark result) {id : TxId} {later : Record}
    (hid : r.delta.rewritten[id]? = some later) :
    ∃ earlier, v.record id = some earlier ∧ later.Rewrites earlier := by
  rw [hcloses.rewritten] at hid
  cases htakes with
  | first _ _ horigin =>
    rw [Step.getElem?_rewrittenRecords_first horigin] at hid
    exact nomatch hid
  | @later c a hadmitted hinvocation horigin =>
    rw [Step.getElem?_rewrittenRecords_later horigin] at hid
    split at hid
    · -- the record of the invocation itself, which is kept under the name of its transaction
      rename_i hinvoked
      obtain rfl := Option.some.inj hid
      have hname := hnamed _ _ hadmitted.known
      rw [hadmitted.invocation, ← hinvocation] at hname
      refine ⟨a.record, ?_, a.record.rewrites_join _ _ _⟩
      rw [hinvoked, show s.invocation.id = c.invocation from hname]
      exact hadmitted.known
    · split at hid
      · obtain ⟨earlier, hearlier, rfl⟩ := Option.map_eq_some_iff.1 hid
        exact ⟨earlier, hearlier, rfl, rfl, rfl, rfl⟩
      · exact nomatch hid

theorem enters_of_transition (hnamed : v.Named) (h : transition evaluator v tx = .ok r) :
    ∃ record, r.Enters v tx record := by
  obtain ⟨s, htakes, hends⟩ := step_of_transition h
  obtain ⟨affected, mark, result, hcloses⟩ := Step.closes_of_ends hends
  refine ⟨s.newRecord v r.status r.fee affected, ?_⟩
  exact {
    fresh := Step.fresh_of_takes htakes
    records := by
      intro id
      rw [hcloses.records, Step.tx_of_takes htakes]
    fee := s.newRecord_fee v _ _ _
    rewritten := fun _ _ hid => rewrites_of_takes hnamed htakes hcloses hid }

theorem named_of_transition (hnamed : v.Named) (h : transition evaluator v tx = .ok r) :
    (v.stack r.delta).Named := by
  intro id later hid
  cases advances_of_transition hnamed h with
  | begins hbegins =>
    rw [hbegins.records] at hid
    split at hid
    · rename_i heq
      obtain rfl := Option.some.inj hid
      rw [hbegins.record_tx, heq]
      rfl
    · exact hnamed id later hid
  | continues hcontinues =>
    rcases hcontinues.record_cases hid with ⟨rfl, rfl⟩ | ⟨rfl, rfl⟩ | ⟨earlier, hearlier, -, rfl⟩
    · rw [Record.tx_join]
      exact hnamed _ _ hcontinues.known
    · rw [hcontinues.record_tx]
      rfl
    · exact hnamed id earlier hearlier

end Transitions

/-! ## Section 4: The books -/

/-- The fees in the records of a delta. -/
def Delta.recordedFees (d : Delta) : Nat := (d.records.toList.map fun e => e.2.fee.toNat).sum

namespace BlockResult

/-- The names of the transactions applied. -/
def appliedIds (b : BlockResult) : List TxId := b.applied.map (·.1)

/-- The names of the transactions rejected. -/
def rejectedIds (b : BlockResult) : List TxId := b.rejected.map (·.1)

/-- What the books of a block say that has been applied to `view` up to the end
    of `txs`. -/
structure KeepsBooks (b : BlockResult) (view : View) (txs : List Transaction) : Prop where
  order : Interleaves b.appliedIds b.rejectedIds (txs.map (·.id))
  distinct : b.appliedIds.Nodup
  unknown : ∀ id ∈ b.appliedIds, view.record id = none
  recorded : ∀ id, id ∈ b.delta.records ↔ id ∈ b.appliedIds
  /-- What is rewritten has been recorded, by the block or before it. -/
  rewritten : ∀ id later, b.delta.rewritten[id]? = some later →
    ∃ earlier, b.delta.records[id]?.or (view.record id) = some earlier ∧ later.Rewrites earlier
  fees : b.totalFee = saturate64 b.delta.recordedFees

variable {evaluator : Evaluator} {view : View} {txs : List Transaction} {tx : Transaction}
  {b b' : BlockResult}

theorem keepsBooks_start (view : View) : KeepsBooks {} view [] where
  order := .nil
  distinct := .nil
  unknown := nofun
  recorded id := by simp [appliedIds, Delta.empty]
  rewritten id later h := by simp [Delta.empty] at h
  fees := rfl

/-- A transaction that is left out is only listed. -/
theorem keepsBooks_reject (hb : b.KeepsBooks view txs) (reason : Rejection) :
    (b.reject tx.id reason).KeepsBooks view (txs ++ [tx]) where
  order := by
    have hconcat := hb.order.concat_right tx.id
    simpa [reject, appliedIds, rejectedIds] using hconcat
  distinct := hb.distinct
  unknown := hb.unknown
  recorded := hb.recorded
  rewritten := hb.rewritten
  fees := hb.fees

section Accept

variable {r : StepResult} {record : Record} {d : Delta}

/-- The records of a block with one more transaction. -/
theorem records_of_enters (henters : r.Enters (view.stack b.delta) tx record)
    (hmerge : b.delta.merge r.delta = .ok d) (id : TxId) :
    d.records[id]? = if id = tx.id then some record else b.delta.records[id]? := by
  obtain ⟨-, -, -, hrecords, -⟩ := Delta.merge_eq_ok_iff.1 hmerge
  rw [hrecords, Std.ExtTreeMap.getElem?_union, henters.records]
  split
  · rfl
  · rfl

/-- A transaction that is applied is new to the view and to the block. -/
theorem none_of_enters (henters : r.Enters (view.stack b.delta) tx record) :
    b.delta.records[tx.id]? = none ∧ view.record tx.id = none := by
  have hfresh := henters.fresh
  simp only [View.stack, Delta.record, Option.or_eq_none_iff] at hfresh
  exact ⟨hfresh.1.2, hfresh.2⟩

theorem recordedFees_of_enters (henters : r.Enters (view.stack b.delta) tx record)
    (hmerge : b.delta.merge r.delta = .ok d) :
    d.recordedFees = b.delta.recordedFees + r.fee.toNat := by
  have hentries := SortedMap.toList_perm_cons (none_of_enters henters).1
    (records_of_enters henters hmerge)
  have hsum := (hentries.map fun e => e.2.fee.toNat).sum_nat
  rw [List.map_cons, List.sum_cons, henters.fee] at hsum
  rw [Delta.recordedFees, hsum, Nat.add_comm, Delta.recordedFees]

/-- A record that a step rewrites may have been rewritten before by the block,
    which has not touched what is looked at here. -/
theorem rewritten_of_enters (hb : b.KeepsBooks view txs)
    (henters : r.Enters (view.stack b.delta) tx record) (hmerge : b.delta.merge r.delta = .ok d)
    {id : TxId} {later : Record} (hid : d.rewritten[id]? = some later) :
    ∃ earlier, d.records[id]?.or (view.record id) = some earlier ∧ later.Rewrites earlier := by
  -- in both cases `known` is what the view holds before the step
  have hbefore : ∃ known, (view.stack b.delta).record id = some known ∧ later.Rewrites known := by
    obtain ⟨-, -, -, -, hrewritten, -⟩ := Delta.merge_eq_ok_iff.1 hmerge
    rw [hrewritten, Std.ExtTreeMap.getElem?_union, Option.or_eq_some_iff] at hid
    rcases hid with hstep | ⟨-, hearlier⟩
    · exact henters.rewritten id later hstep
    · refine ⟨later, ?_, rfl, rfl, rfl, rfl⟩
      simp [View.stack, Delta.record, hearlier]
  obtain ⟨known, hknown, hlater⟩ := hbefore
  have hne : id ≠ tx.id := by
    rintro rfl
    exact Option.some_ne_none _ (hknown.symm.trans henters.fresh)
  rw [records_of_enters henters hmerge, if_neg hne]
  simp only [View.stack, Delta.record, Option.or_assoc] at hknown
  rcases Option.or_eq_some_iff.1 hknown with hrewritten | ⟨-, hrecorded⟩
  · obtain ⟨earlier, hearlier, hrewrites⟩ := hb.rewritten id known hrewritten
    exact ⟨earlier, hearlier, hlater.trans hrewrites⟩
  · exact ⟨known, hrecorded, hlater⟩

/-- A transaction that is applied is listed, recorded and charged once. -/
theorem keepsBooks_accept (hb : b.KeepsBooks view txs)
    (henters : r.Enters (view.stack b.delta) tx record) (hmerge : b.delta.merge r.delta = .ok d) :
    KeepsBooks { b with
      delta := d
      applied := b.applied ++ [(tx.id, r.status)]
      totalFee := saturate64 (b.totalFee.toNat + r.fee.toNat) } view (txs ++ [tx]) := by
  obtain ⟨hblock, hview⟩ := none_of_enters henters
  have hnew : tx.id ∉ b.appliedIds := by
    intro hmem
    have hrecorded := (hb.recorded _).2 hmem
    rw [Std.ExtTreeMap.mem_iff_isSome_getElem?, hblock] at hrecorded
    exact nomatch hrecorded
  have hids : (b.applied ++ [(tx.id, r.status)]).map (·.1) = b.appliedIds ++ [tx.id] := by
    rw [List.map_append]
    rfl
  exact {
    order := by
      have hconcat := hb.order.concat_left tx.id
      rw [appliedIds, hids]
      simpa [rejectedIds] using hconcat
    distinct := by
      rw [appliedIds, hids]
      rw [← List.concat_eq_append]
      exact hb.distinct.concat hnew
    unknown := by
      intro id hid
      rw [appliedIds, hids] at hid
      rcases List.mem_append.1 hid with hearlier | hlast
      · exact hb.unknown id hearlier
      · rwa [List.mem_singleton.1 hlast]
    recorded := by
      intro id
      have hearlier := hb.recorded id
      rw [appliedIds, hids, List.mem_append, List.mem_singleton, ← hearlier,
        Std.ExtTreeMap.mem_iff_isSome_getElem?, Std.ExtTreeMap.mem_iff_isSome_getElem?,
        records_of_enters henters hmerge]
      by_cases hid : id = tx.id
      · simp [hid]
      · simp [hid]
    rewritten := fun _ _ hid => rewritten_of_enters hb henters hmerge hid
    fees := by
      have hsum := saturate64_add b.delta.recordedFees r.fee.toNat
      rw [saturate64_toNat, ← hb.fees, ← recordedFees_of_enters henters hmerge] at hsum
      exact hsum }

end Accept

/-- **Every transaction keeps the books**, whether it is applied or left out. -/
theorem keepsBooks_of_goes (hb : b.KeepsBooks view txs) (hnamed : (view.stack b.delta).Named)
    (h : b.Goes evaluator view tx b') : b'.KeepsBooks view (txs ++ [tx]) := by
  cases h with
  | applied htransition hmerge =>
    obtain ⟨record, henters⟩ := enters_of_transition hnamed htransition
    exact keepsBooks_accept hb henters hmerge
  | refused _ _ => exact keepsBooks_reject hb _
  | rejected _ _ => exact keepsBooks_reject hb _

theorem named_of_goes (hnamed : (view.stack b.delta).Named) (h : b.Goes evaluator view tx b') :
    (view.stack b'.delta).Named := by
  cases h with
  | applied htransition hmerge =>
    have hsame := sameHistory_of_transition htransition hmerge
    intro id record hid
    rw [hsame.record] at hid
    exact named_of_transition hnamed htransition id record hid
  | refused _ _ => exact hnamed
  | rejected _ _ => exact hnamed

theorem keepsBooks_of_after (hnamed : view.Named) (h : after evaluator view txs = .ok b) :
    b.KeepsBooks view txs ∧ (view.stack b.delta).Named := by
  -- induction from the end of the block; that records stand under their names is needed before
  -- every transaction
  induction txs using List.reverseRecOn generalizing b with
  | nil =>
    obtain rfl := Except.ok.inj h
    refine ⟨keepsBooks_start view, ?_⟩
    intro id record hid
    rw [(View.sameHistory_stack_empty view).record] at hid
    exact hnamed id record hid
  | append_singleton txs tx ih =>
    obtain ⟨b₁, hbefore, -⟩ := foldlM_append_eq_ok_iff.1 h
    have hgoes := goes_of_next ((after_concat hbefore tx).symm.trans h)
    obtain ⟨hbooks, hnamed₁⟩ := ih hbefore
    exact ⟨keepsBooks_of_goes hbooks hnamed₁ hgoes, named_of_goes hnamed₁ hgoes⟩

end BlockResult

/-- **A block keeps its books**: every position of the block is listed once, as
    applied or as rejected and in the order of the block; what is applied is new,
    and is what the delta records; what the delta rewrites has been recorded with
    the same transaction, height, fee and invocation; and the total fee is the sum
    of the fees recorded, where that is not out of range. -/
theorem block_keeps_books {evaluator : Evaluator} {view : View} {txs : List Transaction}
    {b : BlockResult} (hnamed : view.Named) (h : transitionBlock evaluator view txs = .ok b) :
    b.KeepsBooks view txs := by
  obtain ⟨b₀, d, hafter, hmerge, rfl⟩ := transitionBlock_eq_ok h
  obtain ⟨hbooks, -⟩ := BlockResult.keepsBooks_of_after hnamed hafter
  -- paying the fees out enters nothing
  obtain ⟨-, -, -, hrecords, hrewritten, -⟩ := Delta.merge_eq_ok_iff.1 hmerge
  have hrecords : d.records = b₀.delta.records := by
    rw [hrecords]
    exact SortedMap.union_empty _
  have hrewritten : d.rewritten = b₀.delta.rewritten := by
    rw [hrewritten]
    exact SortedMap.union_empty _
  exact {
    order := hbooks.order
    distinct := hbooks.distinct
    unknown := hbooks.unknown
    recorded := by
      intro id
      rw [hrecords]
      exact hbooks.recorded id
    rewritten := by
      intro id later
      rw [hrecords, hrewritten]
      exact hbooks.rewritten id later
    fees := by
      rw [Delta.recordedFees, hrecords]
      exact hbooks.fees }

/-- A block with an invocation that runs out of budget, the same invocation
    again, and a continuation that ends it. The block rewrites the record that it
    has entered itself, and the fee in it still counts. -/
theorem block_keeps_books_of_two_steps :
    let view := View.fresh ⟨.v3, ∅, none⟩ 5000000
    let tx : Invocation := ⟨.fill 7, .fill 1, .fill 2, ⟨"", []⟩, [], 900000, 0⟩
    let step : Continuation := ⟨.fill 9, tx.id, 0, 900000, 0⟩
    let evaluator : Evaluator := fun task _ => match task with
      | .start .. => .ok (.suspended (.const (.int 0)) 0)
      | _ => .ok (.completed (.ok (.list [])) 0)
    let txs := [.invocation tx, .invocation tx, .continuation step]
    ∃ b, view.Named ∧ transitionBlock evaluator view txs = .ok b ∧ b.KeepsBooks view txs ∧
      b.applied = [(tx.id, .inProgress), (step.id, .succeeded)] ∧
      b.rejected = [(tx.id, .alreadyApplied)] ∧ b.totalFee = 1800000 ∧
      b.delta.rewritten.keys = [tx.id] := by
  intro view tx step evaluator txs
  have hnamed : view.Named := fun _ _ hrecord => nomatch hrecord
  have hrun : (transitionBlock evaluator view txs).toOption.map
      (fun b => (b.applied, b.rejected, b.totalFee, b.delta.rewritten.keys)) =
        some ([(tx.id, .inProgress), (step.id, .succeeded)], [(tx.id, .alreadyApplied)], 1800000,
          [tx.id]) := by
    decide +kernel
  obtain ⟨b, hblock, hrun⟩ := Option.map_eq_some_iff.1 hrun
  have hb := toOption_eq_some_iff.1 hblock
  obtain ⟨happlied, hrejected, hfee, hrewritten⟩ :
      b.applied = _ ∧ b.rejected = _ ∧ b.totalFee = _ ∧ b.delta.rewritten.keys = _ := by
    simpa using hrun
  exact ⟨b, hnamed, hb, block_keeps_books hnamed hb, happlied, hrejected, hfee, hrewritten⟩

end MeteredLedger

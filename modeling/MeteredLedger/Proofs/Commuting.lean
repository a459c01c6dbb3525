import Mathlib.Data.List.Pairwise
import MeteredLedger.Proofs.Billing
import MeteredLedger.Proofs.Endings
import MeteredLedger.Proofs.History
import MeteredLedger.Proofs.LeftOut

/-! # Steps that commute

    A step that leaves its invocation in progress writes under every name under
    which it reads anything that another transaction of the block may change: the
    names of the transaction and of the invocation, and the account that pays. So
    steps of different invocations, paid by different accounts, do not see each
    other, and a block of them has the same effect in every order.

    * `Delta.Apart`: deltas with no key in common. They merge to their union, in any
      order.
    * `StepResult.Footprint`: what a step in progress writes, and for whom.
    * `transition_stack_of_apart`: a step is the same on a view with changes that
      are apart from its own.
    * `after_of_suspended`: a block of such steps is the union of their deltas.
    * `suspended_steps_commute`: it is the same block in every order. -/

namespace MeteredLedger

open Script (Evaluator ScriptError Value)

/-! ## Section 1: Deltas with no key in common -/

namespace Delta

/-- The deltas write under different keys. A record counts as written whether it
    is new or has been rewritten. -/
structure Apart (a b : Delta) : Prop where
  portfolios : SortedMap.Apart a.portfolios b.portfolios
  data : SortedMap.Apart a.data b.data
  volumes : SortedMap.Apart a.volumes b.volumes
  record : ∀ id, a.record id = none ∨ b.record id = none
  progress : SortedMap.Apart a.progress b.progress
  results : SortedMap.Apart a.results b.results

/-- All entries of two deltas, where those of the second stand. -/
def join (a b : Delta) : Delta where
  portfolios := a.portfolios ∪ b.portfolios
  data := a.data ∪ b.data
  volumes := a.volumes ∪ b.volumes
  records := a.records ∪ b.records
  rewritten := a.rewritten ∪ b.rewritten
  progress := a.progress ∪ b.progress
  results := a.results ∪ b.results
  scriptsRun := saturate32 (a.scriptsRun.toNat + b.scriptsRun.toNat)
  complexity := saturate64 (a.complexity.toNat + b.complexity.toNat)

/-- All entries of several deltas. -/
def joinAll (deltas : List Delta) : Delta := deltas.foldl join empty

variable {a b c : Delta}

theorem record_eq_none_iff {id : TxId} :
    a.record id = none ↔ a.rewritten[id]? = none ∧ a.records[id]? = none :=
  Option.or_eq_none_iff

theorem Apart.symm (h : a.Apart b) : b.Apart a where
  portfolios := h.portfolios.symm
  data := h.data.symm
  volumes := h.volumes.symm
  record id := (h.record id).symm
  progress := h.progress.symm
  results := h.results.symm

instance : Std.Symm Apart := ⟨fun _ _ => Apart.symm⟩

theorem Apart.records (h : a.Apart b) : SortedMap.Apart a.records b.records :=
  fun id => (h.record id).imp (fun ha => (record_eq_none_iff.1 ha).2)
    fun hb => (record_eq_none_iff.1 hb).2

theorem Apart.rewritten (h : a.Apart b) : SortedMap.Apart a.rewritten b.rewritten :=
  fun id => (h.record id).imp (fun ha => (record_eq_none_iff.1 ha).1)
    fun hb => (record_eq_none_iff.1 hb).1

theorem apart_empty (d : Delta) : empty.Apart d where
  portfolios := SortedMap.apart_empty _
  data := SortedMap.apart_empty _
  volumes := SortedMap.apart_empty _
  record _ := .inl rfl
  progress := SortedMap.apart_empty _
  results := SortedMap.apart_empty _

theorem apart_join (hac : a.Apart c) (hbc : b.Apart c) : (a.join b).Apart c where
  portfolios := SortedMap.apart_union hac.portfolios hbc.portfolios
  data := SortedMap.apart_union hac.data hbc.data
  volumes := SortedMap.apart_union hac.volumes hbc.volumes
  record id := by
    rcases hac.record id with ha | hc
    · rcases hbc.record id with hb | hc
      · left
        obtain ⟨harewritten, harecords⟩ := record_eq_none_iff.1 ha
        obtain ⟨hbrewritten, hbrecords⟩ := record_eq_none_iff.1 hb
        rw [record_eq_none_iff, join, Std.ExtTreeMap.getElem?_union,
          Std.ExtTreeMap.getElem?_union, harewritten, harecords, hbrewritten, hbrecords]
        exact ⟨rfl, rfl⟩
      · exact .inr hc
    · exact .inr hc
  progress := SortedMap.apart_union hac.progress hbc.progress
  results := SortedMap.apart_union hac.results hbc.results

/-- Deltas that are apart merge, and nothing is added up. -/
theorem merge_of_apart (h : a.Apart b) : a.merge b = .ok (a.join b) := by
  rw [merge_eq_ok_iff]
  exact ⟨SortedMap.tryMerge_of_apart _ h.portfolios,
    (SortedMap.mergeWith_of_apart _ h.data).symm,
    SortedMap.tryMerge_of_apart _ h.volumes, rfl, rfl, rfl, rfl, rfl, rfl⟩

theorem saturate32_add_right_comm (x y z : UInt32) :
    saturate32 ((saturate32 (x.toNat + y.toNat)).toNat + z.toNat) =
      saturate32 ((saturate32 (x.toNat + z.toNat)).toNat + y.toNat) := by
  rw [saturate32_add_assoc, saturate32_add_assoc, Nat.add_comm y.toNat]

theorem saturate64_add_right_comm (x y z : UInt64) :
    saturate64 ((saturate64 (x.toNat + y.toNat)).toNat + z.toNat) =
      saturate64 ((saturate64 (x.toNat + z.toNat)).toNat + y.toNat) := by
  rw [saturate64_add_assoc, saturate64_add_assoc, Nat.add_comm y.toNat]

theorem join_right_comm (d : Delta) (h : a.Apart b) :
    (d.join a).join b = (d.join b).join a := by
  unfold join
  simp only [mk.injEq]
  exact ⟨SortedMap.union_right_comm _ h.portfolios, SortedMap.union_right_comm _ h.data,
    SortedMap.union_right_comm _ h.volumes, SortedMap.union_right_comm _ h.records,
    SortedMap.union_right_comm _ h.rewritten, SortedMap.union_right_comm _ h.progress,
    SortedMap.union_right_comm _ h.results, saturate32_add_right_comm _ _ _,
    saturate64_add_right_comm _ _ _⟩

theorem joinAll_concat (deltas : List Delta) (d : Delta) :
    joinAll (deltas ++ [d]) = (joinAll deltas).join d := by
  rw [joinAll, List.foldl_append]
  rfl

theorem joinAll_keeps {P : Delta → Prop} {deltas : List Delta} (hempty : P empty)
    (hjoin : ∀ a b, P a → b ∈ deltas → P (a.join b)) : P (joinAll deltas) := by
  induction deltas using List.reverseRecOn with
  | nil => exact hempty
  | append_singleton deltas d ih =>
    rw [joinAll_concat]
    have hearlier := ih fun a b ha hb => hjoin a b ha (List.mem_append_left _ hb)
    exact hjoin _ d hearlier (List.mem_append_right _ (List.mem_singleton_self d))

/-- **Order does not matter** to deltas that are apart from each other. -/
theorem joinAll_of_perm {deltas deltas' : List Delta} (hperm : deltas.Perm deltas')
    (hapart : deltas.Pairwise Apart) : joinAll deltas = joinAll deltas' := by
  apply hperm.foldl_eq'
  intro a ha b hb d
  by_cases hsame : a = b
  · rw [hsame]
  · exact join_right_comm d (hapart.forall ha hb hsame)

/-- A balance changes in a union as it does in one of the deltas. -/
theorem balanceChange_join (a b : Delta) (address : Address) (asset : Asset) :
    (a.join b).balanceChange address asset = a.balanceChange address asset ∨
      (a.join b).balanceChange address asset = b.balanceChange address asset := by
  unfold balanceChange join
  rw [Std.ExtTreeMap.getElem?_union]
  cases b.portfolios[address]? with
  | none => exact .inl rfl
  | some p => exact .inr rfl

end Delta

/-! ## Section 2: Steps in progress -/

/-- The invocation that a transaction begins or carries on. -/
def Transaction.owner (v : View) : Transaction → Option Invocation
  | .invocation tx => some tx
  | .continuation tx => (v.record tx.invocation).bind fun record =>
    match record.tx with
    | .invocation owner => some owner
    | .continuation _ => none

/-- The transaction `tx` takes a step of `owner` that leaves it in progress: the
    step records both, sets the progress, and takes a fee from the sender. -/
structure StepResult.Footprint (r : StepResult) (v : View) (tx : Transaction)
    (owner : Invocation) : Prop where
  carries : tx.carries v = some owner.id
  ownedBy : tx.owner v = some owner
  fresh : v.record tx.id = none
  /-- An invocation that is carried on has been recorded before. -/
  recorded : tx.id ≠ owner.id → v.record owner.id ≠ none
  portfolios : ∀ address, r.delta.portfolios[address]? ≠ none ↔ address = owner.sender
  paid : ∀ address asset, (r.delta.balanceChange address asset).toInt ≤ 0
  data : r.delta.data = ∅
  volumes : r.delta.volumes = ∅
  record : ∀ id, r.delta.record id ≠ none ↔ id = tx.id ∨ id = owner.id
  progress : ∀ id, r.delta.progress[id]? ≠ none ↔ id = owner.id
  results : r.delta.results = ∅

section Footprints

variable {evaluator : Evaluator} {v : View} {tx : Transaction} {r : StepResult} {s : Step}
  {owner : Invocation}

theorem owner_of_takes (h : s.Takes v tx) : tx.owner v = some s.invocation := by
  cases h with
  | first _ hinvocation _ => rw [hinvocation, Transaction.owner]
  | later hadmitted hinvocation _ =>
    rw [hinvocation, Transaction.owner, hadmitted.known, Option.bind_some, hadmitted.invocation]

theorem Continuation.invocation_of_owner {tx : Continuation} (hnamed : v.Named)
    (h : (Transaction.continuation tx).owner v = some owner) : tx.invocation = owner.id := by
  obtain ⟨record, hrecord, howner⟩ := Option.bind_eq_some_iff.1 h
  have hname := hnamed _ _ hrecord
  split at howner
  · rename_i htx
    rw [← hname, htx, ← Option.some.inj howner]
    rfl
  · exact nomatch howner

theorem recorded_of_takes (hnamed : v.Named) (h : s.Takes v tx) (hid : tx.id ≠ s.invocation.id) :
    v.record s.invocation.id ≠ none := by
  cases h with
  | first _ hinvocation _ => exact absurd (congrArg Invocation.id hinvocation.symm) hid
  | later hadmitted hinvocation _ =>
    have hname := hnamed _ _ hadmitted.known
    rw [hadmitted.invocation, ← hinvocation] at hname
    show v.record (Transaction.invocation s.invocation).id ≠ none
    rw [hname, hadmitted.known]
    exact Option.some_ne_none _

theorem record_of_takes {affected : SortedSet Address} {mark : Progress}
    {result : Option ScriptResult} (htakes : s.Takes v tx)
    (hcloses : s.Closes v r affected mark result) (hstatus : r.status = .inProgress) (id : TxId) :
    r.delta.record id ≠ none ↔ id = tx.id ∨ id = s.invocation.id := by
  rw [ne_eq, Delta.record_eq_none_iff, hcloses.rewritten, hcloses.records,
    Step.tx_of_takes htakes]
  cases htakes with
  | first _ hinvocation horigin =>
    rw [Step.getElem?_rewrittenRecords_first horigin, hinvocation, Transaction.id]
    simp
  | later _ _ horigin =>
    rw [Step.getElem?_rewrittenRecords_later horigin]
    simp [hstatus, imp_iff_not_or, or_comm]

/-- A fee is all that a step in progress takes. -/
theorem paid_of_suspend (s : Step) (v : View) (fee : UInt64) (mark : Progress) (address : Address)
    (asset : Asset) :
    ((s.suspend v fee mark).delta.balanceChange address asset).toInt ≤ 0 := by
  have hfee := Int64.le_iff_toInt_le.1 (Amount.ofFee_nonneg fee)
  have hempty : (Delta.empty.balanceChange address asset).toInt = 0 := rfl
  show ((charge s.invocation.sender fee).balanceChange address asset).toInt ≤ 0
  rw [(Delta.adds_charge _ _).balance, hempty]
  rw [Int64.toInt_zero] at hfee
  split
  · omega
  · omega

theorem portfolios_of_suspend (s : Step) (v : View) (fee : UInt64) (mark : Progress)
    (address : Address) :
    (s.suspend v fee mark).delta.portfolios[address]? ≠ none ↔ address = s.invocation.sender := by
  show (charge s.invocation.sender fee).portfolios[address]? ≠ none ↔ _
  simp [charge, Delta.balance, Std.ExtTreeMap.getElem?_insert, @eq_comm Address]

/-- **What a step in progress writes.** -/
theorem footprint_of_transition (hnamed : v.Named) (h : transition evaluator v tx = .ok r)
    (hstatus : r.status = .inProgress) : ∃ owner, r.Footprint v tx owner := by
  obtain ⟨s, htakes, hends⟩ := step_of_transition h
  obtain ⟨affected, mark, result, hcloses⟩ := Step.closes_of_ends hends
  refine ⟨s.invocation, ?_⟩
  have hrecord := record_of_takes htakes hcloses hstatus
  cases hends with
  | suspended =>
    exact {
      carries := carries_of_takes htakes
      ownedBy := owner_of_takes htakes
      fresh := Step.fresh_of_takes htakes
      recorded := recorded_of_takes hnamed htakes
      portfolios := portfolios_of_suspend s v _ _
      paid := paid_of_suspend s v _ _
      data := rfl
      volumes := rfl
      record := hrecord
      progress := by
        intro id
        rw [hcloses.progress]
        simp
      results := rfl }
  | failed => exact Status.noConfusion hstatus
  | succeeded _ hsucceed =>
    obtain ⟨_, _, -, -, -, rfl⟩ := Step.succeed_eq_ok hsucceed
    exact Status.noConfusion hstatus

/-- Different steps of different invocations, paid by different accounts, write
    under different keys. -/
theorem apart_of_footprint {tx' : Transaction} {r' : StepResult} {owner' : Invocation}
    (h : r.Footprint v tx owner) (h' : r'.Footprint v tx' owner') (hid : tx.id ≠ tx'.id)
    (howner : owner.id ≠ owner'.id) (hsender : owner.sender ≠ owner'.sender) :
    r.delta.Apart r'.delta where
  portfolios address := by
    by_contra hboth
    obtain ⟨hp, hp'⟩ := not_or.1 hboth
    exact hsender (((h.portfolios address).1 hp).symm.trans ((h'.portfolios address).1 hp'))
  data := by
    rw [h.data]
    exact SortedMap.apart_empty _
  volumes := by
    rw [h.volumes]
    exact SortedMap.apart_empty _
  record id := by
    by_contra hboth
    obtain ⟨hwritten, hwritten'⟩ := not_or.1 hboth
    -- a new name is not the name of an invocation that has been recorded before
    rcases (h.record id).1 hwritten with rfl | rfl
    · rcases (h'.record _).1 hwritten' with hsame | hsame
      · exact hid hsame
      · exact h'.recorded (by rw [← hsame]; exact hid.symm) (by rw [← hsame]; exact h.fresh)
    · rcases (h'.record _).1 hwritten' with hsame | hsame
      · exact h.recorded (by rw [hsame]; exact hid) (by rw [hsame]; exact h'.fresh)
      · exact howner hsame
  progress id := by
    by_contra hboth
    obtain ⟨hp, hp'⟩ := not_or.1 hboth
    exact howner (((h.progress id).1 hp).symm.trans ((h'.progress id).1 hp'))
  results := by
    rw [h.results]
    exact SortedMap.apart_empty _

end Footprints

/-! ## Section 3: What a step in progress does not see -/

section Stacking

variable {evaluator : Evaluator} {v : View} {d : Delta} {r : StepResult}

theorem Step.status_complete_ne (s : Step) (v : View) (evaluator : Evaluator)
    (result : Except ScriptError Value) : (s.complete v evaluator result).status ≠ .inProgress := by
  rcases s.complete_cases v evaluator result with ⟨s', reason, -, -, hfail⟩ | ⟨_, _, -, hstatus, -⟩
  · rw [hfail]
    exact nofun
  · rw [hstatus]
    exact nofun

/-- The first step reads the record of the transaction and the balance of its
    sender. -/
theorem Invocation.apply_stack {tx : Invocation} (h : tx.apply v evaluator = .ok r)
    (hstatus : r.status = .inProgress) (hrecord : (v.stack d).record tx.id = v.record tx.id)
    (hbalance : (v.stack d).balance tx.sender .native = v.balance tx.sender .native) :
    tx.apply (v.stack d) evaluator = .ok r := by
  obtain ⟨a, hadmission, h⟩ := bind_eq_ok_iff.1 h
  obtain ⟨spent, hauthorize, h⟩ := bind_eq_ok_iff.1 h
  obtain ⟨answer, hanswer, h⟩ := bind_eq_ok_iff.1 h
  obtain rfl := Except.ok.inj h
  have hsame : tx.admission (v.stack d) = tx.admission v := by
    unfold admission requireFunds
    rw [hrecord, hbalance]
    rfl
  refine bind_eq_ok_iff.2 ⟨a, hsame.trans hadmission, ?_⟩
  refine bind_eq_ok_iff.2 ⟨spent, hauthorize, ?_⟩
  refine bind_eq_ok_iff.2 ⟨answer, hanswer, congrArg Except.ok ?_⟩
  cases answer with
  | completed result spent' => exact absurd hstatus (Step.status_complete_ne _ v evaluator result)
  | suspended rest unused =>
    unfold conclude at hstatus ⊢
    dsimp only at hstatus ⊢
    -- nothing else that is read differs between the views
    split at hstatus
    · rename_i hactive
      rw [if_pos hactive]
      exact if_pos hactive
    · exact Status.noConfusion hstatus

/-- The checks of a later step read the records of the transaction and of its
    invocation, the progress of the invocation, and the balance of the sender. -/
theorem Continuation.admission_stack {tx : Continuation} {a : Admission}
    (h : tx.admission v = .ok a) (hfresh : (v.stack d).record tx.id = v.record tx.id)
    (hrecord : (v.stack d).record tx.invocation = v.record tx.invocation)
    (hprogress : (v.stack d).progress tx.invocation = v.progress tx.invocation)
    (hbalance : (v.stack d).balance a.invocation.sender .native =
      v.balance a.invocation.sender .native) :
    tx.admission (v.stack d) = .ok a := by
  obtain ⟨hnew, h⟩ := demand_bind_eq_ok_iff.1 h
  obtain ⟨record, hknown, h⟩ := demandSome_bind_eq_ok_iff.1 h
  obtain ⟨invocation, hinvocation, h⟩ := bind_eq_ok_iff.1 h
  obtain ⟨⟨rest, unused⟩, hstep, h⟩ := bind_eq_ok_iff.1 h
  obtain ⟨dapp, hdapp, h⟩ := demandSome_bind_eq_ok_iff.1 h
  obtain ⟨hbudget, h⟩ := demand_bind_eq_ok_iff.1 h
  obtain ⟨hfee, h⟩ := demand_bind_eq_ok_iff.1 h
  obtain ⟨u, hfunds, h⟩ := bind_eq_ok_iff.1 h
  obtain rfl := Except.ok.inj h
  rw [← hfresh] at hnew
  rw [← hrecord] at hknown
  rw [requireStep, ← hprogress] at hstep
  rw [requireFunds, ← hbalance] at hfunds
  refine demand_bind_eq_ok_iff.2 ⟨hnew, ?_⟩
  refine demandSome_bind_eq_ok_iff.2 ⟨record, hknown, ?_⟩
  refine bind_eq_ok_iff.2 ⟨invocation, hinvocation, ?_⟩
  refine bind_eq_ok_iff.2 ⟨(rest, unused), hstep, ?_⟩
  refine demandSome_bind_eq_ok_iff.2 ⟨dapp, hdapp, ?_⟩
  refine demand_bind_eq_ok_iff.2 ⟨hbudget, ?_⟩
  refine demand_bind_eq_ok_iff.2 ⟨hfee, ?_⟩
  exact bind_eq_ok_iff.2 ⟨u, hfunds, rfl⟩

theorem Continuation.apply_stack {tx : Continuation} {owner : Invocation}
    (h : tx.apply v evaluator = .ok r) (hstatus : r.status = .inProgress)
    (howner : (Transaction.continuation tx).owner v = some owner)
    (hfresh : (v.stack d).record tx.id = v.record tx.id)
    (hrecord : (v.stack d).record tx.invocation = v.record tx.invocation)
    (hprogress : (v.stack d).progress tx.invocation = v.progress tx.invocation)
    (hbalance : (v.stack d).balance owner.sender .native = v.balance owner.sender .native) :
    tx.apply (v.stack d) evaluator = .ok r := by
  obtain ⟨a, hadmission, h⟩ := bind_eq_ok_iff.1 h
  obtain ⟨answer, hanswer, h⟩ := bind_eq_ok_iff.1 h
  obtain rfl := Except.ok.inj h
  have hadmitted := admitted_of_admission hadmission
  obtain rfl : a.invocation = owner := by
    rw [Transaction.owner, hadmitted.known, Option.bind_some, hadmitted.invocation] at howner
    exact Option.some.inj howner
  have hsame := admission_stack hadmission hfresh hrecord hprogress hbalance
  refine bind_eq_ok_iff.2 ⟨a, hsame, ?_⟩
  refine bind_eq_ok_iff.2 ⟨answer, hanswer, congrArg Except.ok ?_⟩
  cases answer with
  | completed result spent => exact absurd hstatus (Step.status_complete_ne _ v evaluator result)
  | suspended rest unused => rfl

theorem View.record_stack_of_none {id : TxId} (h : d.record id = none) :
    (v.stack d).record id = v.record id := by
  show (d.record id).or (v.record id) = v.record id
  rw [h, Option.none_or]

theorem View.balance_stack_of_none {address : Address} {asset : Asset}
    (h : d.portfolios[address]? = none) :
    (v.stack d).balance address asset = v.balance address asset := by
  have hzero : d.balanceChange address asset = 0 := by
    rw [Delta.balanceChange, h]
    rfl
  show (v.balance address asset).addClamped (d.balanceChange address asset) = _
  rw [hzero, Amount.addClamped_zero]

/-- **A step in progress does not see** changes that are apart from its own. -/
theorem transition_stack_of_apart {tx : Transaction} (hnamed : v.Named)
    (h : transition evaluator v tx = .ok r) (hstatus : r.status = .inProgress)
    (hapart : d.Apart r.delta) : transition evaluator (v.stack d) tx = .ok r := by
  obtain ⟨owner, hr⟩ := footprint_of_transition hnamed h hstatus
  have hrecord : ∀ id, id = tx.id ∨ id = owner.id → (v.stack d).record id = v.record id := by
    intro id hid
    exact View.record_stack_of_none ((hapart.record id).resolve_right ((hr.record id).2 hid))
  have hprogress : (v.stack d).progress owner.id = v.progress owner.id := by
    have hnone := (hapart.progress owner.id).resolve_right ((hr.progress _).2 rfl)
    show d.progress[owner.id]?.or (v.progress owner.id) = v.progress owner.id
    rw [hnone, Option.none_or]
  have hbalance : (v.stack d).balance owner.sender .native = v.balance owner.sender .native :=
    View.balance_stack_of_none
      ((hapart.portfolios owner.sender).resolve_right ((hr.portfolios _).2 rfl))
  cases tx with
  | invocation tx =>
    obtain rfl : tx = owner := Option.some.inj hr.ownedBy
    exact Invocation.apply_stack h hstatus (hrecord _ (.inl rfl)) hbalance
  | continuation tx =>
    have hid := Continuation.invocation_of_owner hnamed hr.ownedBy
    rw [← hid] at hprogress
    exact Continuation.apply_stack h hstatus hr.ownedBy (hrecord _ (.inl rfl))
      (hrecord _ (.inr hid)) hprogress hbalance

end Stacking

/-! ## Section 4: Blocks of steps in progress -/

/-- The results of transactions, each of them applied alone. -/
def View.alone (v : View) (evaluator : Evaluator) (txs : List Transaction) : List StepResult :=
  txs.filterMap fun tx => (transition evaluator v tx).toOption

section Blocks

variable {evaluator : Evaluator} {v : View} {txs : List Transaction}

theorem alone_concat {tx : Transaction} {r : StepResult} (h : transition evaluator v tx = .ok r) :
    v.alone evaluator (txs ++ [tx]) = v.alone evaluator txs ++ [r] := by
  unfold View.alone
  simp only [List.filterMap_append, List.filterMap_cons, List.filterMap_nil,
    toOption_eq_some_iff.2 h]

theorem exists_of_mem_alone {r : StepResult} (h : r ∈ v.alone evaluator txs) :
    ∃ tx ∈ txs, transition evaluator v tx = .ok r := by
  obtain ⟨tx, htx, hr⟩ := List.mem_filterMap.1 h
  exact ⟨tx, htx, toOption_eq_some_iff.1 hr⟩

/-- Each transaction, applied alone, leaves its invocation in progress. -/
def View.AllSuspended (v : View) (evaluator : Evaluator) (txs : List Transaction) : Prop :=
  ∀ tx ∈ txs, ∃ r, transition evaluator v tx = .ok r ∧ r.status = .inProgress

/-- The deltas of different steps of different invocations, paid by different
    accounts. -/
theorem pairwise_apart (hnamed : v.Named) (hids : (txs.map (·.id)).Nodup)
    (hinvocations : (txs.map (·.carries v)).Nodup)
    (hsenders : (txs.map fun tx => (tx.owner v).map (·.sender)).Nodup)
    (hsuspended : v.AllSuspended evaluator txs) :
    ((v.alone evaluator txs).map (·.delta)).Pairwise Delta.Apart := by
  rw [List.pairwise_map, View.alone, List.pairwise_filterMap]
  have hdistinct := ((List.pairwise_map.1 hids).and (List.pairwise_map.1 hinvocations)).and
    (List.pairwise_map.1 hsenders)
  refine hdistinct.imp_of_mem ?_
  rintro tx tx' htx htx' ⟨⟨hid, hinvocation⟩, hsender⟩ r hr r' hr'
  rw [toOption_eq_some_iff] at hr hr'
  have hstatus : ∀ t ∈ txs, ∀ q, transition evaluator v t = .ok q → q.status = .inProgress := by
    intro t ht q hq
    obtain ⟨q', hq', hstatus⟩ := hsuspended t ht
    rwa [Except.ok.inj (hq.symm.trans hq')]
  obtain ⟨owner, howner⟩ := footprint_of_transition hnamed hr (hstatus _ htx _ hr)
  obtain ⟨owner', howner'⟩ := footprint_of_transition hnamed hr' (hstatus _ htx' _ hr')
  rw [howner.carries, howner'.carries] at hinvocation
  rw [howner.ownedBy, howner'.ownedBy] at hsender
  exact apart_of_footprint howner howner' hid (fun h => hinvocation (congrArg some h))
    (fun h => hsender (congrArg some h))

/-- **A block of steps in progress**, each apart from the others, is the union of
    what they do alone. -/
theorem after_of_suspended (hnamed : v.Named) (hsuspended : v.AllSuspended evaluator txs)
    (hapart : ((v.alone evaluator txs).map (·.delta)).Pairwise Delta.Apart) :
    BlockResult.after evaluator v txs = .ok {
      delta := Delta.joinAll ((v.alone evaluator txs).map (·.delta))
      applied := txs.map fun tx => (tx.id, .inProgress)
      rejected := []
      totalFee := saturate64 (feesOf (v.alone evaluator txs)) } := by
  induction txs using List.reverseRecOn with
  | nil => rfl
  | append_singleton txs tx ih =>
    obtain ⟨r, hr, hstatus⟩ := hsuspended tx (List.mem_append_right _ (List.mem_singleton_self tx))
    rw [alone_concat hr, List.map_append, List.pairwise_append] at hapart
    obtain ⟨hearlier, -, hlast⟩ := hapart
    have hbefore := ih (fun t ht => hsuspended t (List.mem_append_left _ ht)) hearlier
    have happart : (Delta.joinAll ((v.alone evaluator txs).map (·.delta))).Apart r.delta := by
      refine Delta.joinAll_keeps (P := fun d => d.Apart r.delta) (Delta.apart_empty _) ?_
      intro a b ha hb
      exact Delta.apart_join ha (hlast b hb _ (by simp))
    rw [BlockResult.after_concat hbefore tx]
    rw [BlockResult.next_of_merge (transition_stack_of_apart hnamed hr hstatus happart)
      (Delta.merge_of_apart happart)]
    rw [alone_concat hr, List.map_append, List.map_append, hstatus]
    have hdelta := Delta.joinAll_concat ((v.alone evaluator txs).map (·.delta)) r.delta
    have hfee := saturate64_add (feesOf (v.alone evaluator txs)) r.fee.toNat
    rw [saturate64_toNat] at hfee
    simp only [List.map_cons, List.map_nil, feesOf_append, feesOf_cons, feesOf_nil, Nat.add_zero,
      hdelta, hfee]

/-- Fees can be paid out to an account that has received nothing before. -/
theorem exists_reward {d : Delta}
    (hpaid : ∀ address asset, (d.balanceChange address asset).toInt ≤ 0) (generator : Address)
    (fee : UInt64) : ∃ d', d.merge (.balance generator .native (.ofFee fee)) = .ok d' := by
  cases hmerge : d.merge (.balance generator .native (.ofFee fee)) with
  | ok d' => exact ⟨d', rfl⟩
  | error o =>
    exfalso
    cases o with
    | balance address asset =>
      have hnone := Delta.add?_balanceChange_of_merge_eq_error hmerge
      have hnonpos := hpaid address asset
      have hlo := (d.balanceChange address asset).le_toInt
      have hfee := Int64.le_iff_toInt_le.1 (Amount.ofFee_nonneg fee)
      have hhi := (Amount.ofFee fee).toInt_lt
      rw [Delta.balanceChange_balance, Amount.add?_eq_none_iff] at hnone
      rw [Int64.toInt_zero] at hfee
      unfold Amount.least Amount.greatest at hnone
      split at hnone
      · omega
      · rw [Int64.toInt_zero] at hnone
        omega
    | volume asset =>
      obtain ⟨_, w, -, hw, -⟩ := Delta.volumes_of_merge_eq_error hmerge
      simp [Delta.balance] at hw

/-- The fees are all that a union of steps in progress takes. -/
theorem paid_of_suspended (hnamed : v.Named) (hsuspended : v.AllSuspended evaluator txs)
    (address : Address) (asset : Asset) :
    ((Delta.joinAll ((v.alone evaluator txs).map (·.delta))).balanceChange address asset).toInt
      ≤ 0 := by
  refine Delta.joinAll_keeps (P := fun d => (d.balanceChange address asset).toInt ≤ 0)
    (Int.le_refl 0) ?_
  intro a b ha hb
  obtain ⟨r, hr, rfl⟩ := List.mem_map.1 hb
  obtain ⟨tx, htx, htransition⟩ := exists_of_mem_alone hr
  obtain ⟨r', hr', hstatus⟩ := hsuspended tx htx
  obtain rfl := Except.ok.inj (htransition.symm.trans hr')
  obtain ⟨owner, howner⟩ := footprint_of_transition hnamed htransition hstatus
  rcases Delta.balanceChange_join a r.delta address asset with hsame | hsame
  · rwa [hsame]
  · rw [hsame]
    exact howner.paid address asset

/-- **Steps in progress commute**: transactions that take steps of different
    invocations, paid by different accounts, and that each leave their invocation
    in progress when applied alone, make the same block in every order. -/
theorem suspended_steps_commute (hnamed : v.Named) (hids : (txs.map (·.id)).Nodup)
    (hinvocations : (txs.map (·.carries v)).Nodup)
    (hsenders : (txs.map fun tx => (tx.owner v).map (·.sender)).Nodup)
    (hsuspended : v.AllSuspended evaluator txs) :
    ∃ delta totalFee, ∀ txs', txs'.Perm txs → transitionBlock evaluator v txs' = .ok {
      delta
      applied := txs'.map fun tx => (tx.id, .inProgress)
      rejected := []
      totalFee } := by
  have hapart := pairwise_apart hnamed hids hinvocations hsenders hsuspended
  obtain ⟨delta, hreward⟩ := exists_reward (paid_of_suspended hnamed hsuspended)
    v.header.generator (saturate64 (feesOf (v.alone evaluator txs)))
  refine ⟨delta, saturate64 (feesOf (v.alone evaluator txs)), ?_⟩
  intro txs' hperm
  -- the results are the same ones in another order, and so are their deltas and fees
  have hresults : (v.alone evaluator txs').Perm (v.alone evaluator txs) := hperm.filterMap _
  have hdelta := Delta.joinAll_of_perm (hresults.map (·.delta)).symm hapart
  have hfee : feesOf (v.alone evaluator txs') = feesOf (v.alone evaluator txs) := by
    unfold feesOf
    exact (hresults.map _).sum_nat
  have hafter := after_of_suspended hnamed (fun tx htx => hsuspended tx (hperm.mem_iff.1 htx))
    ((hresults.map (·.delta)).pairwise_iff (fun h => Delta.Apart.symm h) |>.2 hapart)
  rw [← hdelta, hfee] at hafter
  exact transitionBlock_of_after hafter hreward

/-- A block with a continuation and the invocation of another account. -/
theorem suspended_steps_commute_of_two :
    let begun : Invocation := ⟨.fill 5, .fill 1, .fill 2, ⟨"", []⟩, [], 900000, 0⟩
    let v : View := { View.fresh ⟨.v3, ∅, none⟩ 1000000 with
      record := fun id => if id = begun.id then
        some ⟨.invocation begun, 1, .inProgress, 900000, ∅, none, []⟩ else none
      progress := fun id => if id = begun.id then some (.suspended 0 (.const .unit) 0) else none }
    let tx : Transaction := .continuation ⟨.fill 7, begun.id, 0, 900000, 0⟩
    let tx' : Transaction :=
      .invocation ⟨.fill 8, .fill 3, .fill 2, ⟨"", []⟩, [], 900000, 0⟩
    let evaluator : Evaluator := fun _ _ => .ok (.suspended (.const .unit) 0)
    ∃ b b', transitionBlock evaluator v [tx, tx'] = .ok b ∧
      transitionBlock evaluator v [tx', tx] = .ok b' ∧
      b.applied = [(.fill 7, .inProgress), (.fill 8, .inProgress)] ∧
      b'.applied = [(.fill 8, .inProgress), (.fill 7, .inProgress)] ∧
      b.delta = b'.delta ∧ b.totalFee = b'.totalFee := by
  intro begun v tx tx' evaluator
  have hnamed : v.Named := by
    intro id record hrecord
    obtain ⟨hid, hrecord⟩ := Option.ite_some_none_eq_some.1 hrecord
    rw [← hrecord, hid]
    rfl
  have hsuspended : v.AllSuspended evaluator [tx, tx'] := by
    have hruns : ∀ t ∈ [tx, tx'],
        (transition evaluator v t).toOption.map (·.status) = some .inProgress := by
      decide +kernel
    intro t ht
    obtain ⟨r, hr, hstatus⟩ := Option.map_eq_some_iff.1 (hruns t ht)
    exact ⟨r, toOption_eq_some_iff.1 hr, hstatus⟩
  obtain ⟨delta, totalFee, hblock⟩ := suspended_steps_commute hnamed (by decide +kernel)
    (by decide +kernel) (by decide +kernel) hsuspended
  exact ⟨_, _, hblock _ (.refl _), hblock _ (.swap _ _ _), rfl, rfl, rfl, rfl⟩

end Blocks

end MeteredLedger

import MeteredLedger.Proofs.Records

/-! # Blocks

    A block applies its transactions one after another, each to the view that
    those before it have left. A property of blocks is therefore an invariant:
    it holds of the empty delta, and every transaction that is accepted keeps it.

    * `View.SameHistory`: views that remember the same transactions.
    * `sameHistory_of_transition`: stacking the merged delta is as good as
      stacking the two deltas, one on the other.
    * `noOverflow_transition`: no transaction is rejected because of amounts
      that do not add up, unless it is for the sake of those before it.
    * `BlockResult.Goes`: the three ways in which a block goes on.
    * `BlockResult.after`: the block after its first transactions.
    * `transitionBlock_keeps`: what every accepted transaction keeps holds of
      the whole block before its fees are paid out.
    * `sameHistory_of_block`, `view_keeps_of_block`: the same for what only
      depends on the history. -/

namespace MeteredLedger

open Script (Evaluator)

/-! ## Section 1: Stacking merged deltas -/

/-- Two views remember the same transactions and know the same progress. -/
structure View.SameHistory (v w : View) : Prop where
  record : v.record = w.record
  progress : v.progress = w.progress

theorem View.SameHistory.symm {v w : View} (h : v.SameHistory w) : w.SameHistory v :=
  ⟨h.record.symm, h.progress.symm⟩

theorem View.SameHistory.trans {u v w : View} (h : u.SameHistory v) (h' : v.SameHistory w) :
    u.SameHistory w :=
  ⟨h.record.trans h'.record, h.progress.trans h'.progress⟩

theorem View.sameHistory_stack_empty (v : View) : (v.stack .empty).SameHistory v where
  record := by
    funext id
    simp [stack, Delta.record, Delta.empty]
  progress := by
    funext id
    simp [stack, Delta.empty]

theorem View.progress_stack_of_some {v : View} {d : Delta} {id : InvocationId} {mark : Progress}
    (h : d.progress[id]? = some mark) : (v.stack d).progress id = some mark := by
  simp [stack, h]

/-- A delta that sets the progress of one invocation. -/
theorem View.progress_stack_of_single {v : View} {d : Delta} {id : InvocationId} {mark : Progress}
    (h : ∀ id', d.progress[id']? = if id' = id then some mark else none) (id' : InvocationId) :
    (v.stack d).progress id' = if id' = id then some mark else v.progress id' := by
  simp only [stack, h]
  by_cases hid : id' = id
  · simp [hid]
  · simp [hid]

/-- The records of the later delta must be new: a new record below a rewritten
    one would come to light when the two are stacked, but not when they are
    merged. -/
theorem View.sameHistory_of_merge {v : View} {a b d : Delta} (h : a.merge b = .ok d)
    (hfresh : ∀ id, b.records[id]? ≠ none → (v.stack a).record id = none) :
    (v.stack d).SameHistory ((v.stack a).stack b) := by
  obtain ⟨-, -, -, hrecords, hrewritten, hprogress, -, -, -⟩ := Delta.merge_eq_ok_iff.1 h
  refine ⟨?_, ?_⟩
  · funext id
    have hnew := hfresh id
    simp only [stack, Delta.record, hrecords, hrewritten, Std.ExtTreeMap.getElem?_union] at hnew ⊢
    cases hb : b.rewritten[id]? with
    | some record => simp
    | none =>
      cases hb' : b.records[id]? with
      | none => simp [Option.or_assoc]
      | some record =>
        -- here the order of the tables matters
        have hnone := hnew (by simp [hb'])
        have ha : a.rewritten[id]? = none := by simp_all
        simp [ha]
  · funext id
    simp only [stack, hprogress, Std.ExtTreeMap.getElem?_union, Option.or_assoc]

variable {evaluator : Evaluator}

/-- An accepted transaction records nothing that has been recorded before. -/
theorem fresh_of_transition {view : View} {tx : Transaction} {r : StepResult}
    (h : transition evaluator view tx = .ok r) {id : TxId} (hid : r.delta.records[id]? ≠ none) :
    view.record id = none := by
  obtain ⟨s, htakes, hends⟩ := step_of_transition h
  obtain ⟨affected, mark, result, hcloses⟩ := Step.closes_of_ends hends
  have heq : id = tx.id := by
    by_contra hne
    rw [hcloses.records, Step.tx_of_takes htakes, if_neg hne] at hid
    exact hid rfl
  subst heq
  exact Step.fresh_of_takes htakes

theorem sameHistory_of_transition {view : View} {d d' : Delta} {tx : Transaction} {r : StepResult}
    (h : transition evaluator (view.stack d) tx = .ok r) (hmerge : d.merge r.delta = .ok d') :
    (view.stack d').SameHistory ((view.stack d).stack r.delta) :=
  View.sameHistory_of_merge hmerge fun _ hid => fresh_of_transition h hid

/-! ## Section 2: Rejected transactions -/

/-- The rejection is not about amounts that do not add up. -/
def Rejection.NoOverflow (reason : Rejection) : Prop := ∀ o, reason ≠ .overflow o

section

variable {view : View}

theorem noOverflow_requireFunds (payer : Address) (fee : UInt64) :
    FailsOnlyWith Rejection.NoOverflow (requireFunds view payer fee) :=
  failsOnlyWith_demand nofun

theorem Invocation.noOverflow_admission (tx : Invocation) :
    FailsOnlyWith Rejection.NoOverflow (tx.admission view) := by
  refine failsOnlyWith_bind (failsOnlyWith_demand nofun) fun _ => ?_
  refine failsOnlyWith_bind (failsOnlyWith_demand nofun) fun _ => ?_
  refine failsOnlyWith_bind ?_ fun _ => ?_
  · unfold requirePositive
    split
    · exact failsOnlyWith_error nofun
    · exact failsOnlyWith_ok ()
  refine failsOnlyWith_bind (failsOnlyWith_demandSome nofun) fun _ => ?_
  refine failsOnlyWith_bind (failsOnlyWith_demand nofun) fun _ => ?_
  refine failsOnlyWith_bind (failsOnlyWith_demand nofun) fun _ => ?_
  exact failsOnlyWith_bind (noOverflow_requireFunds _ _) fun _ => failsOnlyWith_ok _

theorem Invocation.noOverflow_authorize (tx : Invocation) (verifier : Option Script.Expr) :
    FailsOnlyWith Rejection.NoOverflow (tx.authorize view evaluator verifier) := by
  unfold authorize
  split
  · exact failsOnlyWith_ok 0
  · split
    · exact failsOnlyWith_error nofun
    · exact failsOnlyWith_ok _
    all_goals exact failsOnlyWith_error nofun

theorem Continuation.noOverflow_admission (tx : Continuation) :
    FailsOnlyWith Rejection.NoOverflow (tx.admission view) := by
  refine failsOnlyWith_bind (failsOnlyWith_demand nofun) fun _ => ?_
  refine failsOnlyWith_bind (failsOnlyWith_demandSome nofun) fun record => ?_
  refine failsOnlyWith_bind ?_ fun _ => ?_
  · unfold requireInvocation
    split
    · exact failsOnlyWith_ok _
    · exact failsOnlyWith_error nofun
  refine failsOnlyWith_bind ?_ fun _ => ?_
  · unfold requireStep
    split
    · exact failsOnlyWith_error nofun
    · exact failsOnlyWith_error nofun
    · split
      · exact failsOnlyWith_ok _
      · exact failsOnlyWith_error nofun
  refine failsOnlyWith_bind (failsOnlyWith_demandSome nofun) fun _ => ?_
  refine failsOnlyWith_bind (failsOnlyWith_demand nofun) fun _ => ?_
  refine failsOnlyWith_bind (failsOnlyWith_demand nofun) fun _ => ?_
  exact failsOnlyWith_bind (noOverflow_requireFunds _ _) fun _ => failsOnlyWith_ok _

/-- A transaction alone is never rejected because of amounts that do not add up;
    such a step fails. -/
theorem noOverflow_transition (tx : Transaction) :
    FailsOnlyWith Rejection.NoOverflow (transition evaluator view tx) := by
  cases tx with
  | invocation tx =>
    refine failsOnlyWith_bind tx.noOverflow_admission fun a => ?_
    refine failsOnlyWith_bind (tx.noOverflow_authorize a.verifier) fun _ => ?_
    exact failsOnlyWith_bind (failsOnlyWith_mapError fun _ => nofun) fun _ => failsOnlyWith_ok _
  | continuation tx =>
    refine failsOnlyWith_bind tx.noOverflow_admission fun a => ?_
    exact failsOnlyWith_bind (failsOnlyWith_mapError fun _ => nofun) fun _ => failsOnlyWith_ok _

end

/-! ## Section 3: Invariants of blocks -/

namespace BlockResult

/-- The three ways in which a block goes on with a transaction. -/
inductive Goes (evaluator : Evaluator) (view : View) (b : BlockResult) (tx : Transaction) :
    BlockResult → Prop where
  /-- The transaction is applied. -/
  | applied {r d} : transition evaluator (view.stack b.delta) tx = .ok r →
      b.delta.merge r.delta = .ok d →
      Goes evaluator view b tx { b with
        delta := d
        applied := b.applied ++ [(tx.id, r.status)]
        totalFee := saturate64 (b.totalFee.toNat + r.fee.toNat) }
  /-- The transaction is accepted, but its delta does not fit those before it. -/
  | refused {r o} : transition evaluator (view.stack b.delta) tx = .ok r →
      b.delta.merge r.delta = .error o → Goes evaluator view b tx (b.reject tx.id (.overflow o))
  /-- The transaction is rejected. -/
  | rejected {reason} : transition evaluator (view.stack b.delta) tx = .error reason →
      reason.isFatal = false → Goes evaluator view b tx (b.reject tx.id reason)

theorem goes_of_next {view : View} {b b' : BlockResult} {tx : Transaction}
    (h : b.next evaluator view tx = .ok b') : b.Goes evaluator view tx b' := by
  unfold next at h
  split at h
  · rename_i r htransition
    obtain rfl := Except.ok.inj h
    unfold accept
    split
    · rename_i o hmerge
      exact .refused htransition hmerge
    · rename_i d hmerge
      exact .applied htransition hmerge
  · rename_i reason htransition
    split at h
    · exact nomatch h
    · rename_i hfatal
      obtain rfl := Except.ok.inj h
      exact .rejected htransition (Bool.eq_false_iff.2 hfatal)

/-- A transaction is applied if it is accepted and its delta fits those before it. -/
theorem next_of_merge {view : View} {b : BlockResult} {tx : Transaction} {r : StepResult}
    {d : Delta}
    (htransition : transition evaluator (view.stack b.delta) tx = .ok r)
    (hmerge : b.delta.merge r.delta = .ok d) :
    b.next evaluator view tx = .ok { b with
      delta := d
      applied := b.applied ++ [(tx.id, r.status)]
      totalFee := saturate64 (b.totalFee.toNat + r.fee.toNat) } := by
  rw [next, htransition]
  show Except.ok (b.accept tx.id r) = _
  rw [accept, hmerge]

/-- What holds of every reason noted so far and of the next one. -/
theorem forall_mem_rejected_reject {Q : Rejection → Prop} {b : BlockResult} {reason : Rejection}
    (hb : ∀ e ∈ b.rejected, Q e.2) (hreason : Q reason) (id : TxId) :
    ∀ e ∈ (b.reject id reason).rejected, Q e.2 := by
  intro e he
  rcases List.mem_append.1 he with hearlier | hlast
  · exact hb e hearlier
  · obtain rfl := List.mem_singleton.1 hlast
    exact hreason

/-- The block after its first transactions, before its fees are paid out. -/
def after (evaluator : Evaluator) (view : View) (txs : List Transaction) :
    Except Rejection BlockResult :=
  txs.foldlM (next evaluator view) {}

theorem after_concat {view : View} {txs : List Transaction} {b : BlockResult}
    (h : after evaluator view txs = .ok b) (tx : Transaction) :
    after evaluator view (txs ++ [tx]) = b.next evaluator view tx := by
  unfold after at h ⊢
  rw [List.foldlM_append, h]
  show (b.next evaluator view tx >>= pure) = _
  rw [bind_pure]

/-- A block has been applied up to every one of its transactions. -/
theorem exists_after_of_prefix {view : View} {earlier txs : List Transaction} {b : BlockResult}
    (hearlier : earlier <+: txs) (h : after evaluator view txs = .ok b) :
    ∃ b', after evaluator view earlier = .ok b' := by
  obtain ⟨later, rfl⟩ := hearlier
  obtain ⟨b', hb', -⟩ := foldlM_append_eq_ok_iff.1 h
  exact ⟨b', hb'⟩

theorem after_keeps {P : BlockResult → Prop} {view : View} {txs : List Transaction}
    {b : BlockResult} (hstart : P {})
    (hstep : ∀ b tx b', tx ∈ txs → P b → b.Goes evaluator view tx b' → P b')
    (h : after evaluator view txs = .ok b) : P b :=
  foldlM_keeps (fun b tx b' htx hb hnext => hstep b tx b' htx hb (goes_of_next hnext)) hstart h

/-- What stops a block is not about amounts either, before its fees are paid out. -/
theorem noOverflow_after {view : View} {txs : List Transaction} :
    FailsOnlyWith Rejection.NoOverflow (after evaluator view txs) := by
  refine failsOnlyWith_foldlM (fun b tx => ?_) txs _
  unfold next
  split
  · exact failsOnlyWith_ok _
  · rename_i htransition
    split
    · exact failsOnlyWith_error (noOverflow_transition tx _ htransition)
    · exact failsOnlyWith_ok _

end BlockResult

/-- A block is applied transaction by transaction, and then its fees are paid. -/
theorem transitionBlock_eq_ok {view : View} {txs : List Transaction} {b : BlockResult}
    (h : transitionBlock evaluator view txs = .ok b) :
    ∃ b₀ d, BlockResult.after evaluator view txs = .ok b₀ ∧
      b₀.delta.merge (.balance view.header.generator .native (.ofFee b₀.totalFee)) = .ok d ∧
      b = { b₀ with delta := d } := by
  obtain ⟨b₀, hafter, hreward⟩ := bind_eq_ok_iff.1 h
  obtain ⟨d, hmerge, hd⟩ := bind_eq_ok_iff.1 hreward
  exact ⟨b₀, d, hafter, mapError_eq_ok_iff.1 hmerge, (Except.ok.inj hd).symm⟩

/-- A block fails with one of its transactions, or when its fees are paid out. -/
theorem transitionBlock_eq_error {view : View} {txs : List Transaction} {reason : Rejection}
    (h : transitionBlock evaluator view txs = .error reason) :
    BlockResult.after evaluator view txs = .error reason ∨
      ∃ b o, BlockResult.after evaluator view txs = .ok b ∧
        b.delta.merge (.balance view.header.generator .native (.ofFee b.totalFee)) = .error o ∧
        reason = .overflow o := by
  rcases bind_eq_error_iff.1 h with hafter | ⟨b, hafter, hreward⟩
  · exact .inl hafter
  · right
    rcases bind_eq_error_iff.1 hreward with hrefused | ⟨d, -, hdone⟩
    · obtain ⟨o, hmerge, rfl⟩ := mapError_eq_error_iff.1 hrefused
      exact ⟨b, o, hafter, hmerge, rfl⟩
    · exact nomatch hdone

/-- **Invariants of blocks**: what holds at the start and is kept by every
    accepted transaction holds at the end, when only the fees have still to be
    paid out. -/
theorem transitionBlock_keeps {P : Delta → UInt64 → Prop} {view : View} {txs : List Transaction}
    (hstart : P .empty 0)
    (hstep : ∀ d fee tx r d', tx ∈ txs → P d fee →
      transition evaluator (view.stack d) tx = .ok r →
      d.merge r.delta = .ok d' → P d' (saturate64 (fee.toNat + r.fee.toNat)))
    {b : BlockResult} (h : transitionBlock evaluator view txs = .ok b) :
    ∃ d, P d b.totalFee ∧
      d.merge (.balance view.header.generator .native (.ofFee b.totalFee)) = .ok b.delta := by
  obtain ⟨b₀, d, hafter, hmerge, rfl⟩ := transitionBlock_eq_ok h
  refine ⟨b₀.delta, ?_, hmerge⟩
  refine BlockResult.after_keeps (P := fun b => P b.delta b.totalFee) hstart ?_ hafter
  intro b tx b' htx hb hgoes
  -- transactions that are left out change neither the delta nor the fees
  cases hgoes with
  | applied htransition hmerge => exact hstep _ _ _ _ _ htx hb htransition hmerge
  | refused _ _ => exact hb
  | rejected _ _ => exact hb

theorem View.sameHistory_stack_balance (v : View) (address : Address) (asset : Asset)
    (amount : Amount) : (v.stack (.balance address asset amount)).SameHistory v where
  record := by
    funext id
    simp [stack, Delta.record, Delta.balance]
  progress := by
    funext id
    simp [stack, Delta.balance]

/-- Paying out the fees leaves the history alone. -/
theorem sameHistory_of_reward {view : View} {d d' : Delta} {generator : Address} {amount : Amount}
    (h : d.merge (.balance generator .native amount) = .ok d') :
    (view.stack d').SameHistory (view.stack d) := by
  have hmerged : (view.stack d').SameHistory
      ((view.stack d).stack (.balance generator .native amount)) :=
    View.sameHistory_of_merge h fun id hid => by simp [Delta.balance] at hid
  exact hmerged.trans (View.sameHistory_stack_balance _ generator .native amount)

/-- What depends on the history alone and is kept by every accepted transaction
    is kept by whole blocks. -/
theorem view_keeps_of_block {P : View → Prop}
    (hhistory : ∀ v w, v.SameHistory w → P v → P w)
    (hstep : ∀ v tx r, P v → transition evaluator v tx = .ok r → P (v.stack r.delta))
    {view : View} {txs : List Transaction} {b : BlockResult}
    (h : transitionBlock evaluator view txs = .ok b) (hview : P view) :
    P (view.stack b.delta) := by
  have hstart : P (view.stack .empty) :=
    hhistory _ _ (View.sameHistory_stack_empty view).symm hview
  obtain ⟨d, hd, hmerge⟩ := transitionBlock_keeps (P := fun d _ => P (view.stack d)) hstart
    (fun d _ tx r d' _ hd htransition hmerge =>
      hhistory _ _ (sameHistory_of_transition htransition hmerge).symm
        (hstep _ tx r hd htransition)) h
  exact hhistory _ _ (sameHistory_of_reward hmerge).symm hd

/-! ## Section 4: Ledgers to start from -/

/-- The view of a ledger on which nothing has happened yet: every account
    carries the same script and holds `amount` of everything. -/
def View.fresh (dapp : Script.DApp) (amount : Amount) : View where
  height := 1
  header := {}
  settings := {}
  active _ := true
  progress _ := none
  record _ := none
  account _ := some dapp
  data _ _ := none
  assetScript _ := none
  asset _ := none
  balance _ _ := amount

/-- The view with an invocation that waits for its first continuation. -/
def View.withPending (v : View) (tx : Invocation) (rest : Script.Expr) (unused : UInt64) : View :=
  { v with
    record := fun id =>
      if id = tx.id then some ⟨.invocation tx, 1, .inProgress, 0, ∅, none, []⟩ else v.record id
    progress := fun id =>
      if id = tx.id then some (.suspended 0 rest unused) else v.progress id }

end MeteredLedger

import MeteredLedger.Proofs.Merging
import MeteredLedger.Proofs.Records

/-! # Endings

    What the last step of an invocation does is decided by the value of its
    callable: which error it reports, or which batch it applies. Of the view
    only what batches look at has a part in that; the step itself adds its fee
    and its counters.

    * `View.SameAssets`: views on which batches do the same.
    * `noScriptError_applyBatch`: a batch fails for other reasons than a script.
    * `Delta.Adds`: the effects of a delta and what it takes in fees.
    * `Delta.Concludes`: the ending that belongs to a value.
    * `concludes_of_complete`: every step that completes ends so. -/

namespace MeteredLedger

open Script (Action Evaluator ScriptError Value)

/-! ## Section 1: What batches look at -/

/-- Two views have the same assets, and the same limits for what a batch may do
    and for what the scripts of assets may spend. -/
structure View.SameAssets (v w : View) : Prop where
  limits : v.settings.limits = w.settings.limits
  complexity : v.settings.assetScriptComplexity = w.settings.assetScriptComplexity
  asset : v.asset = w.asset
  assetScript : v.assetScript = w.assetScript

section Batches

variable {v w : View} {evaluator : Evaluator} (h : v.SameAssets w)
include h

theorem approve_congr (b : Batch) (op : Operation) :
    b.approve v evaluator op = b.approve w evaluator op := by
  unfold Batch.approve
  rw [h.assetScript, h.complexity]

theorem approveMove_congr (b : Batch) (kind : OperationKind) (asset : Asset) (amount : Amount)
    (payer payee : Address) :
    b.approveMove v evaluator kind asset amount payer payee =
      b.approveMove w evaluator kind asset amount payer payee := by
  cases asset with
  | native => rfl
  | issued id => exact approve_congr h b _

theorem requireKnown_congr (b : Batch) (asset : Asset) :
    b.requireKnown v asset = b.requireKnown w asset := by
  cases asset with
  | native => rfl
  | issued id =>
    unfold Batch.requireKnown
    rw [h.asset]

theorem pay_congr (tx : Invocation) : Batch.pay v evaluator tx = Batch.pay w evaluator tx := by
  funext b p
  unfold Batch.pay
  simp only [requireKnown_congr h, approveMove_congr h]

theorem act_congr (dapp : Address) : Batch.act v evaluator dapp = Batch.act w evaluator dapp := by
  funext b action
  unfold Batch.act
  congr 1
  cases action with
  | data key value => rfl
  | transfer recipient asset amount =>
    simp only [Batch.applyAction, Batch.transfer, requireKnown_congr h, approveMove_congr h]
  | reissue asset amount reissuable =>
    simp only [Batch.applyAction, Batch.reissue, Batch.describe, h.asset, approve_congr h]
  | burn asset amount =>
    simp only [Batch.applyAction, Batch.burn, requireKnown_congr h, approve_congr h]

theorem applyBatch_congr (tx : Invocation) (actions : List Action) :
    applyBatch v evaluator tx actions = applyBatch w evaluator tx actions := by
  unfold applyBatch
  rw [h.limits, pay_congr h, act_congr h]

end Batches

/-- A delta that changes no volume leaves the assets alone. -/
theorem View.sameAssets_stack {v : View} {d : Delta} (h : d.volumes = ∅) :
    (v.stack d).SameAssets v where
  limits := rfl
  complexity := rfl
  asset := by
    funext id
    simp [stack, h]
  assetScript := rfl

/-! ## Section 2: Reasons for failures -/

/-- The reason is not that the callable itself is in error. -/
def FailureReason.NoScriptError (reason : FailureReason) : Prop := reason.code ≠ 1

/-- The batch does not fail because of the callable. -/
abbrev NoScriptError {α : Type} (x : Except BatchFailure α) : Prop :=
  FailsOnlyWith (fun failure => failure.reason.NoScriptError) x

namespace Batch

variable {v : View} {evaluator : Evaluator}

theorem noScriptError_require {reason : FailureReason} (h : reason.NoScriptError) (b : Batch)
    (condition : Bool) : NoScriptError (b.require condition reason) :=
  failsOnlyWith_demand h

theorem noScriptError_reason (fault : ActionFault) : fault.reason.NoScriptError := by
  show (4 : UInt32) ≠ 1
  decide

theorem noScriptError_overflow (o : Overflow) : (FailureReason.overflow o).NoScriptError := by
  show (4 : UInt32) ≠ 1
  decide

theorem noScriptError_add (b : Batch) (change : Delta) : NoScriptError (b.add change) := by
  unfold add
  split
  · exact failsOnlyWith_ok _
  · exact failsOnlyWith_error (noScriptError_overflow _)

theorem noScriptError_move (b : Batch) (asset : Asset) (amount : Amount) (payer payee : Address) :
    NoScriptError (b.move asset amount payer payee) :=
  failsOnlyWith_bind (noScriptError_add _ _) fun b => noScriptError_add b _

theorem noScriptError_adjust (b : Batch) (asset : AssetId) (holder : Address) (amount : Amount)
    (change : VolumeChange) : NoScriptError (b.adjust asset holder amount change) :=
  failsOnlyWith_bind (noScriptError_add _ _) fun b => noScriptError_add b _

theorem noScriptError_approve (b : Batch) (op : Operation) :
    NoScriptError (b.approve v evaluator op) := by
  unfold approve
  split
  · exact failsOnlyWith_ok _
  · dsimp only
    split
    · exact failsOnlyWith_ok _
    · refine failsOnlyWith_error ?_
      show (3 : UInt32) ≠ 1
      decide

theorem noScriptError_approveMove (b : Batch) (kind : OperationKind) (asset : Asset)
    (amount : Amount) (payer payee : Address) :
    NoScriptError (b.approveMove v evaluator kind asset amount payer payee) := by
  cases asset with
  | native => exact failsOnlyWith_ok _
  | issued id => exact noScriptError_approve b _

theorem noScriptError_requireKnown (b : Batch) (asset : Asset) :
    NoScriptError (b.requireKnown v asset) := by
  cases asset with
  | native => exact failsOnlyWith_ok _
  | issued id => exact noScriptError_require (noScriptError_reason _) b _

theorem noScriptError_pay (tx : Invocation) (b : Batch) (p : Payment) :
    NoScriptError (b.pay v evaluator tx p) := by
  refine failsOnlyWith_bind (noScriptError_requireKnown b _) fun _ => ?_
  refine failsOnlyWith_bind (noScriptError_approveMove b _ _ _ _ _) fun b => ?_
  exact noScriptError_move b _ _ _ _

theorem noScriptError_act (dapp : Address) (b : Batch) (action : Action) :
    NoScriptError (b.act v evaluator dapp action) := by
  refine failsOnlyWith_map ?_
  have hrequire := fun (condition : Bool) fault =>
    noScriptError_require (noScriptError_reason fault) b condition
  cases action with
  | data key value => exact noScriptError_add b (.entry dapp key value)
  | transfer recipient asset amount =>
    refine failsOnlyWith_bind (hrequire _ _) fun _ => ?_
    refine failsOnlyWith_bind (hrequire _ _) fun _ => ?_
    refine failsOnlyWith_bind (noScriptError_requireKnown b asset) fun _ => ?_
    refine failsOnlyWith_bind (noScriptError_approveMove b _ _ _ _ _) fun b => ?_
    exact noScriptError_move b _ _ _ _
  | reissue asset amount reissuable =>
    refine failsOnlyWith_bind (hrequire _ _) fun _ => ?_
    refine failsOnlyWith_bind (failsOnlyWith_demandSome (noScriptError_reason _)) fun _ => ?_
    refine failsOnlyWith_bind (hrequire _ _) fun _ => ?_
    refine failsOnlyWith_bind (hrequire _ _) fun _ => ?_
    refine failsOnlyWith_bind (noScriptError_require (noScriptError_overflow _) b _) fun _ => ?_
    refine failsOnlyWith_bind (noScriptError_approve b _) fun b => ?_
    exact noScriptError_adjust b _ _ _ _
  | burn asset amount =>
    refine failsOnlyWith_bind (hrequire _ _) fun _ => ?_
    refine failsOnlyWith_bind (noScriptError_requireKnown b _) fun _ => ?_
    refine failsOnlyWith_bind (noScriptError_approve b _) fun b => ?_
    exact noScriptError_adjust b _ _ _ _

end Batch

/-- A batch does not fail because of the callable, which has ended before. -/
theorem noScriptError_applyBatch (v : View) (evaluator : Evaluator) (tx : Invocation)
    (actions : List Action) : NoScriptError (applyBatch v evaluator tx actions) := by
  unfold applyBatch
  split
  · exact failsOnlyWith_error (Batch.noScriptError_reason _)
  · refine failsOnlyWith_bind (failsOnlyWith_foldlM (Batch.noScriptError_pay tx) _ _) fun b => ?_
    exact failsOnlyWith_foldlM (Batch.noScriptError_act tx.dapp) _ _

theorem noScriptError_checkBalances (v : View) (d : Delta) :
    FailsOnlyWith FailureReason.NoScriptError (checkBalances v d) := by
  unfold checkBalances
  refine failsOnlyWith_forM (fun ⟨address, portfolio⟩ => ?_) _
  refine failsOnlyWith_forM (fun ⟨asset, change⟩ => ?_) _
  dsimp only [checkBalance]
  split
  · exact failsOnlyWith_error (Batch.noScriptError_overflow _)
  · split
    · refine failsOnlyWith_error ?_
      show (4 : UInt32) ≠ 1
      decide
    · exact failsOnlyWith_ok _

theorem Step.noScriptError_succeed (s : Step) (v : View) (batch : Batch) :
    FailsOnlyWith FailureReason.NoScriptError (s.succeed v batch) := by
  have hfee : FailsOnlyWith FailureReason.NoScriptError (s.finalFee v batch.runs.actions) := by
    unfold finalFee
    dsimp only
    split
    · split
      · refine failsOnlyWith_error ?_
        show (2 : UInt32) ≠ 1
        decide
      · exact failsOnlyWith_ok _
    · exact failsOnlyWith_ok _
  refine failsOnlyWith_bind hfee fun fee => ?_
  refine failsOnlyWith_bind ?_ fun changes => ?_
  · cases (charge s.invocation.sender fee).merge batch.delta with
    | error o => exact failsOnlyWith_error (Batch.noScriptError_overflow o)
    | ok changes => exact failsOnlyWith_ok _
  · exact failsOnlyWith_bind (noScriptError_checkBalances v changes) fun _ => failsOnlyWith_ok _

/-! ## Section 3: Effects and fees -/

/-- The delta does what `effects` does, and takes `paid` of the native token from
    `payer` besides. -/
structure Delta.Adds (d : Delta) (payer : Address) (effects : Delta) (paid : Int) : Prop where
  data : d.data = effects.data
  volumes : d.volumes = effects.volumes
  balance : ∀ address asset, (d.balanceChange address asset).toInt =
    (effects.balanceChange address asset).toInt -
      if address = payer ∧ asset = .native then paid else 0

namespace Delta

variable {payer : Address}

theorem adds_self (d : Delta) (payer : Address) : d.Adds payer d 0 where
  data := rfl
  volumes := rfl
  balance address asset := by simp

theorem adds_charge (payer : Address) (fee : UInt64) :
    (charge payer fee).Adds payer .empty (Amount.ofFee fee).toInt where
  data := rfl
  volumes := rfl
  balance address asset := by
    have hempty : (empty.balanceChange address asset).toInt = 0 := rfl
    rw [charge, balanceChange_balance, hempty]
    split
    · rw [Amount.toInt_neg_of_nonneg (Amount.ofFee_nonneg fee)]
      omega
    · rfl

/-- After a delta that has only taken fees, the effects are those of the next. -/
theorem adds_of_merge {a b d effects : Delta} {p q : Int} (ha : a.Adds payer .empty p)
    (hb : b.Adds payer effects q) (h : a.merge b = .ok d) : d.Adds payer effects (p + q) := by
  obtain ⟨-, hdata, hvolumes, -⟩ := merge_eq_ok_iff.1 h
  -- the first delta has no entries and no volumes, so the merge leaves those of the second
  have hadata : a.data = ∅ := ha.data
  have havolumes : a.volumes = ∅ := ha.volumes
  refine ⟨?_, ?_, ?_⟩
  · rw [hdata, hadata, SortedMap.mergeWith_empty, hb.data]
  · rw [havolumes, SortedMap.tryMerge_empty] at hvolumes
    rw [← Except.ok.inj hvolumes, hb.volumes]
  · intro address asset
    have hempty : (empty.balanceChange address asset).toInt = 0 := rfl
    rw [toInt_balanceChange_of_merge h, ha.balance, hb.balance, hempty]
    split <;> omega

end Delta

/-! ## Section 4: The ending that belongs to a value -/

/-- How an invocation ends whose callable has ended with `value`: `complexity` has
    been spent before its actions, and `paid` is taken in fees. -/
inductive Delta.Concludes (v : View) (evaluator : Evaluator) (tx : Invocation)
    (value : Except ScriptError Value) (complexity : Nat) (paid : Int) (d : Delta) :
    Status → Prop where
  /-- The callable is in error, or does not end with a list of actions. -/
  | scriptError {error} : value.bind Value.actions = .error error → d.Adds tx.sender .empty paid →
      d.complexity = saturate64 complexity →
      d.results[tx.id]? = some (.failed (FailureReason.script error).errorMessage) →
      Concludes v evaluator tx value complexity paid d .failed
  /-- The actions cannot be applied. -/
  | otherError {actions} {reason : FailureReason} : value.bind Value.actions = .ok actions →
      reason.NoScriptError → d.results[tx.id]? = some (.failed reason.errorMessage) →
      Concludes v evaluator tx value complexity paid d .failed
  /-- The actions have been applied. -/
  | succeeded {actions batch} : value.bind Value.actions = .ok actions →
      applyBatch v evaluator tx actions = .ok batch → d.Adds tx.sender batch.delta paid →
      d.complexity = saturate64 (complexity + batch.runs.complexity) →
      d.results[tx.id]? = some batch.result →
      Concludes v evaluator tx value complexity paid d .succeeded

section

variable {v w : View} {evaluator : Evaluator} {tx : Invocation} {value : Except ScriptError Value}

theorem Step.results_close {s : Step} {changes : Delta} {status : Status} {fee : UInt64}
    {affected : SortedSet Address} {mark : Progress} {result : ScriptResult} :
    (s.close v changes status fee affected mark (some result)).delta.results[s.invocation.id]? =
      some result := by
  simp [close]

theorem Step.progress_close {s : Step} {changes : Delta} {status : Status} {fee : UInt64}
    {affected : SortedSet Address} {mark : Progress} {result : Option ScriptResult} :
    (s.close v changes status fee affected mark result).delta.progress[s.invocation.id]? =
      some mark := by
  simp [close]

theorem Step.progress_complete (s : Step) (v : View) (evaluator : Evaluator)
    (value : Except ScriptError Value) :
    (s.complete v evaluator value).delta.progress[s.invocation.id]? = some .finished := by
  unfold complete
  split
  · exact progress_close
  · split
    · exact progress_close (s := s.countRuns _)
    · rename_i batch _
      dsimp only
      split
      · rename_i r hsucceed
        obtain ⟨fee, changes, -, -, -, rfl⟩ := succeed_eq_ok hsucceed
        exact progress_close (s := s.countRuns batch.runs)
      · exact progress_close (s := s.countRuns batch.runs)

/-- **A step that completes** ends as the value of the callable says. -/
theorem concludes_of_complete (s : Step) (v : View) (evaluator : Evaluator)
    (value : Except ScriptError Value) :
    (s.complete v evaluator value).delta.Concludes v evaluator s.invocation value s.complexity
      (Amount.ofFee (s.complete v evaluator value).fee).toInt
      (s.complete v evaluator value).status := by
  -- a step that fails takes its fee, whatever the reason
  have hfail : ∀ (s' : Step) reason,
      (s'.fail v reason).delta.Adds s'.invocation.sender .empty
        (Amount.ofFee (s'.fail v reason).fee).toInt := by
    intro s' reason
    obtain ⟨hdata, hvolumes, hbalance⟩ := Delta.adds_charge s'.invocation.sender
      (s'.fail v reason).fee
    exact ⟨hdata, hvolumes, hbalance⟩
  unfold Step.complete
  split
  · -- the callable is in error
    rename_i error hvalue
    exact .scriptError hvalue (hfail s _) rfl Step.results_close
  · rename_i actions hvalue
    split
    · -- a payment or an action is not valid
      rename_i failure hbatch
      have hreason := noScriptError_applyBatch _ _ _ _ _ hbatch
      exact .otherError hvalue hreason (Step.results_close (s := s.countRuns failure.runs))
    · rename_i batch hbatch
      dsimp only
      split
      · rename_i r hsucceed
        obtain ⟨fee, changes, -, hchanges, -, rfl⟩ := Step.succeed_eq_ok hsucceed
        obtain ⟨hdata, hvolumes, hbalance⟩ := Delta.adds_of_merge (Delta.adds_charge _ fee)
          (Delta.adds_self batch.delta _) hchanges
        rw [Int.add_zero] at hbalance
        exact .succeeded hvalue hbatch ⟨hdata, hvolumes, hbalance⟩ rfl
          (Step.results_close (s := s.countRuns batch.runs))
      · -- the fee is too low, or a balance would not be valid
        rename_i reason hsucceed
        have hreason := Step.noScriptError_succeed _ _ _ _ hsucceed
        exact .otherError hvalue hreason (Step.results_close (s := s.countRuns batch.runs))

/-- After steps that have only taken fees, the ending is that of the last step. -/
theorem concludes_of_merge {a b d : Delta} {c c' : Nat} {p q : Int} {status : Status}
    (ha : a.Adds tx.sender .empty p) (hc : a.complexity = saturate64 c)
    (hb : b.Concludes v evaluator tx value c' q status) (h : a.merge b = .ok d) :
    d.Concludes v evaluator tx value (c + c') (p + q) status := by
  obtain ⟨-, -, -, -, -, -, hresults, -, hcomplexity⟩ := Delta.merge_eq_ok_iff.1 h
  rw [hc] at hcomplexity
  have hresult : ∀ result, b.results[tx.id]? = some result → d.results[tx.id]? = some result := by
    intro result hb
    rw [hresults, Std.ExtTreeMap.getElem?_union, hb]
    rfl
  cases hb with
  | scriptError hvalue hadds hb hbresult =>
    rw [hb, saturate64_add] at hcomplexity
    exact .scriptError hvalue (Delta.adds_of_merge ha hadds h) hcomplexity (hresult _ hbresult)
  | otherError hvalue hreason hbresult => exact .otherError hvalue hreason (hresult _ hbresult)
  | succeeded hvalue hbatch hadds hb hbresult =>
    rw [hb, saturate64_add, ← Nat.add_assoc] at hcomplexity
    exact .succeeded hvalue hbatch (Delta.adds_of_merge ha hadds h) hcomplexity
      (hresult _ hbresult)

theorem concludes_congr {d : Delta} {c : Nat} {p : Int} {status : Status} (h : v.SameAssets w)
    (hd : d.Concludes v evaluator tx value c p status) :
    d.Concludes w evaluator tx value c p status := by
  cases hd with
  | scriptError hvalue hadds hcomplexity hresult =>
    exact .scriptError hvalue hadds hcomplexity hresult
  | otherError hvalue hreason hresult => exact .otherError hvalue hreason hresult
  | succeeded hvalue hbatch hadds hcomplexity hresult =>
    rw [applyBatch_congr h] at hbatch
    exact .succeeded hvalue hbatch hadds hcomplexity hresult

end

end MeteredLedger

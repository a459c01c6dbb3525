import MeteredLedger.Proofs.Approvals
import MeteredLedger.Proofs.Receipts

/-! # Mediation

    Every payment and every action of a batch is checked against the settings and
    the assets of the view, and approved by the script of its asset. No place in
    the list of actions and no step of the invocation gets around a check.

    * `BatchItem.Lawful`: what the rules ask of a payment or an action by itself.
    * `BatchItem.Approved`: the script of its asset allows it.
    * `View.MayReissueAfter`: what they ask of a reissue, after other actions.
    * `View.Permits`: what they ask of a whole batch.
    * `permits_of_applyBatch`: a batch that succeeds obeys all rules.
    * `no_rule_is_bypassed`: so does every transaction that succeeds. -/

namespace MeteredLedger

open Script (Action Evaluation Evaluator)

/-! ## Section 1: Rules -/

/-- What is asked of an item whatever the batch has done before. -/
def BatchItem.Lawful (v : View) (tx : Invocation) : BatchItem → Prop
  | .payment p => v.Knows p.asset
  | .action (.data ..) => True
  | .action (.transfer recipient asset amount) =>
    0 ≤ amount ∧ recipient ≠ tx.dapp ∧ v.Knows asset
  | .action (.reissue asset amount _) => 0 ≤ amount ∧ v.Knows (.issued asset)
  | .action (.burn asset amount) => 0 ≤ amount ∧ v.Knows (.issued asset)

/-- If the item is an operation on an asset with a script, that returns true. -/
def BatchItem.Approved (v : View) (evaluator : Evaluator) (tx : Invocation) (item : BatchItem) :
    Prop :=
  ∀ op script, item.operation? tx = some op → v.assetScript op.asset = some script →
    ∃ spent, evaluator (.verify script op.bindings) v.settings.assetScriptComplexity =
      .ok (.completed (.ok (.bool true)) spent)

/-- After some actions the DApp may still create an amount of the asset. -/
structure View.MayReissueAfter (v : View) (dapp : Address) (before : List Action) (asset : AssetId)
    (amount : Amount) (flag : Bool) : Prop where
  /-- The DApp has issued the asset, and it is reissuable. The volume with what all
      actions up to this one change is an amount. -/
  described : ∃ description, v.asset asset = some description ∧ description.issuer = dapp ∧
    description.reissuable = true ∧
    let done := ScriptResult.ofActions (before ++ [.reissue asset amount flag])
    description.volume.toInt + (done.reissued asset - done.burned asset) ≤ Amount.greatest
  /-- No action before it has made the asset not reissuable. -/
  pending : ∀ amount', .reissue asset amount' false ∉ before

/-- The payments of the invocation and these actions obey all rules. -/
structure View.Permits (v : View) (evaluator : Evaluator) (tx : Invocation)
    (actions : List Action) : Prop where
  transfers : (ScriptResult.ofActions actions).transfers.length ≤ v.settings.limits.transfers
  entries : (ScriptResult.ofActions actions).data.length ≤ v.settings.limits.dataEntries
  keys : ∀ e ∈ (ScriptResult.ofActions actions).data,
    e.key.utf8ByteSize ≤ v.settings.limits.keySize
  lawful : ∀ item ∈ tx.items actions, item.Lawful v tx
  reissues : ∀ before asset amount flag after,
    actions = before ++ .reissue asset amount flag :: after →
      v.MayReissueAfter tx.dapp before asset amount flag
  approved : ∀ item ∈ tx.items actions, item.Approved v evaluator tx

section

variable {view : View} {evaluator : Evaluator} {tx : Invocation} {actions : List Action}
  {b b' : Batch}

/-! ## Section 2: Limits -/

theorem dataKeys_eq (actions : List Action) :
    dataKeys actions = (ScriptResult.ofActions actions).data.map (·.key) := by
  unfold dataKeys ScriptResult.ofActions
  rw [List.map_filterMap]
  congr 1
  funext action
  cases action <;> rfl

theorem transferCount_eq (actions : List Action) :
    transferCount actions = (ScriptResult.ofActions actions).transfers.length := by
  induction actions with
  | nil => rfl
  | cons action actions ih =>
    cases action <;> simp_all [transferCount, ScriptResult.ofActions]

/-- Actions that exceed no limit. -/
theorem limits_of_exceeded {limits : Limits} (h : limits.exceeded actions = none) :
    (ScriptResult.ofActions actions).transfers.length ≤ limits.transfers ∧
      (ScriptResult.ofActions actions).data.length ≤ limits.dataEntries ∧
      ∀ e ∈ (ScriptResult.ofActions actions).data, e.key.utf8ByteSize ≤ limits.keySize := by
  unfold Limits.exceeded at h
  rw [dataKeys_eq, transferCount_eq] at h
  dsimp only at h
  split at h
  · exact nomatch h
  · rename_i htransfers
    split at h
    · exact nomatch h
    · rename_i hkeys
      split at h
      · exact nomatch h
      · rename_i hentries
        rw [List.length_map] at hentries
        refine ⟨Nat.not_lt.1 htransfers, Nat.not_lt.1 hentries, ?_⟩
        intro e he
        have hshort := List.find?_eq_none.1 hkeys e.key (List.mem_map_of_mem he)
        simpa using hshort

/-! ## Section 3: Items -/

theorem lawful_of_perform {item : BatchItem} (h : b.perform view evaluator tx item = .ok b') :
    item.Lawful view tx := by
  cases item with
  | payment p => exact (Batch.pay_eq_ok h).1
  | action a =>
    obtain ⟨b₁, happly, -⟩ := Batch.act_eq_ok h
    cases a with
    | data key value => exact trivial
    | transfer recipient asset amount =>
      obtain ⟨hamount, hrecipient, hknown, -⟩ := Batch.transfer_eq_ok happly
      exact ⟨hamount, hrecipient, hknown⟩
    | reissue asset amount flag =>
      obtain ⟨hamount, hmay, -⟩ := Batch.reissue_eq_ok happly
      obtain ⟨description, hdescribed, -⟩ := hmay.described
      refine ⟨hamount, ?_⟩
      show view.asset asset ≠ none
      simp [hdescribed]
    | burn asset amount =>
      obtain ⟨hamount, hknown, -⟩ := Batch.burn_eq_ok happly
      exact ⟨hamount, hknown⟩

theorem approved_of_perform {item : BatchItem} (h : b.perform view evaluator tx item = .ok b') :
    item.Approved view evaluator tx := by
  intro op script hop hscript
  obtain ⟨approved, carried, -, happrove, -⟩ := Batch.perform_eq_ok h
  rw [hop] at happrove
  exact Batch.answer_of_approve? happrove hscript

/-- A reissue finds in the delta what the actions before it have done. -/
theorem mayReissueAfter_of_act {before : List Action} {asset : AssetId} {amount : Amount}
    {flag : Bool} (hreached : Batch.Reached view evaluator tx before b)
    (h : b.act view evaluator tx.dapp (.reissue asset amount flag) = .ok b') :
    view.MayReissueAfter tx.dapp before asset amount flag := by
  obtain ⟨paid, -, -, hexplained⟩ := explained_of_reached hreached
  obtain ⟨b₁, happly, -⟩ := Batch.act_eq_ok h
  obtain ⟨-, hmay, -⟩ := Batch.reissue_eq_ok happly
  obtain ⟨description, hdescribed, hissuer, hreissuable, hvolume⟩ := hmay.described
  constructor
  · refine ⟨description, hdescribed, hissuer, hreissuable, ?_⟩
    dsimp only
    rw [ScriptResult.ofActions_append, ScriptResult.volume_push_reissue, if_pos rfl,
      ← hexplained.volumes.netChange]
    omega
  · intro amount' hearlier
    have hpending : ((ScriptResult.ofActions before).reissuable? asset).getD true = true := by
      rw [← hexplained.volumes.reissuable]
      exact hmay.pending
    have hlisted : (⟨asset, amount', false⟩ : Reissue) ∈ (ScriptResult.ofActions before).reissues :=
      List.mem_filterMap.2 ⟨_, hearlier, rfl⟩
    exact nomatch ScriptResult.reissuable_of_mem hlisted hpending

/-! ## Section 4: Batches and transactions -/

/-- **A batch that succeeds obeys the rules**, at every place of its list. -/
theorem permits_of_applyBatch (h : applyBatch view evaluator tx actions = .ok b) :
    view.Permits evaluator tx actions := by
  have hreached : Batch.Reached view evaluator tx actions b := applyBatch_eq_ok h
  rw [applyBatch_eq_foldlM] at h
  split at h
  · exact nomatch h
  · rename_i hlimits
    obtain ⟨htransfers, hentries, hkeys⟩ := limits_of_exceeded hlimits
    have hperformed : ∀ item ∈ tx.items actions,
        ∃ c c', Batch.perform view evaluator tx c item = .ok c' := by
      intro item hitem
      obtain ⟨before, after, hsplit⟩ := List.append_of_mem hitem
      rw [hsplit] at h
      obtain ⟨c, c', -, hperform⟩ := exists_step_of_foldlM h
      exact ⟨c, c', hperform⟩
    exact {
      transfers := htransfers
      entries := hentries
      keys := hkeys
      lawful := by
        intro item hitem
        obtain ⟨c, c', hperform⟩ := hperformed item hitem
        exact lawful_of_perform hperform
      reissues := by
        rintro before asset amount flag after rfl
        obtain ⟨c, c', hbefore, hact⟩ := Batch.reached_append hreached
        exact mayReissueAfter_of_act hbefore hact
      approved := by
        intro item hitem
        obtain ⟨c, c', hperform⟩ := hperformed item hitem
        exact approved_of_perform hperform }

/-- **No rule is bypassed.** Whatever the evaluator answers and however many steps
    the invocation has taken, where a transaction succeeds its payments and the
    actions in its result obey every rule of the view. -/
theorem no_rule_is_bypassed {t : Transaction} {r : StepResult}
    (h : transition evaluator view t = .ok r) (hstatus : r.status = .succeeded) :
    ∃ owner actions, t.owner view = some owner ∧ t.Returns evaluator view owner actions ∧
      r.delta.results[owner.id]? = some (.ofActions actions) ∧
      view.Permits evaluator owner actions := by
  obtain ⟨s, actions, batch, htakes, hreturns, hbatch, hsucceed⟩ := returned_of_succeeded h hstatus
  obtain ⟨paid, -, hlisted, -⟩ := explained_of_reached (applyBatch_eq_ok hbatch)
  obtain ⟨fee, changes, -, -, -, rfl⟩ := Step.succeed_eq_ok hsucceed
  refine ⟨s.invocation, actions, owner_of_takes htakes, hreturns, ?_, permits_of_applyBatch hbatch⟩
  rw [Step.results_close, hlisted]

/-- The last step of an invocation whose callable passes on a part of a payment and
    issues more of the same asset, twice. The script of the asset allows it. -/
theorem no_rule_is_bypassed_of_reissues :
    let asset : AssetId := .fill 9
    let owner : Invocation :=
      ⟨.fill 7, .fill 1, .fill 2, ⟨"", []⟩, [⟨.issued asset, 4⟩], 900000, 0⟩
    let actions : List Action := [.transfer (.fill 3) (.issued asset) 3, .reissue asset 5 true,
      .data "key" (.int 1), .reissue asset 2 false]
    let evaluator : Evaluator
      | .verify .., _ => .ok (.completed (.ok (.bool true)) 1)
      | _, _ => .ok (.completed (.ok (.list (actions.map .action))) 0)
    let view := ({ View.fresh ⟨.v3, ∅, none⟩ 5000000 with
      asset := fun _ => some ⟨.fill 2, "", 9223372036854775800, true⟩
      assetScript := fun _ => some (.const (.bool true)) } : View).withPending
        owner (.const .unit) 0
    let tx : Continuation := ⟨.fill 8, owner.id, 0, 900000, 0⟩
    ∃ r, transition evaluator view (.continuation tx) = .ok r ∧ r.status = .succeeded ∧
      view.Permits evaluator owner actions := by
  intro asset owner actions evaluator view tx
  have hrun : (transition evaluator view (.continuation tx)).toOption.map (·.status) =
      some .succeeded := by decide +kernel
  obtain ⟨r, hr, hstatus⟩ := exists_eq_ok_of_map hrun
  have hreturned : ∀ owner' actions', Transaction.Returns evaluator view (.continuation tx) owner'
      actions' → actions = actions' := by
    rintro owner' actions' ⟨task, budget, value, spent, hasks, hanswer, hactions⟩
    cases hasks with
    | later hadmitted =>
      obtain ⟨hvalue, -⟩ := Evaluation.completed.inj (Except.ok.inj hanswer)
      obtain rfl := Except.ok.inj hvalue
      exact Except.ok.inj hactions
  obtain ⟨owner', actions', howner, hreturns, -, hpermits⟩ := no_rule_is_bypassed hr hstatus
  obtain rfl : owner = owner' := Option.some.inj howner
  obtain rfl := hreturned owner actions' hreturns
  exact ⟨r, hr, hstatus, hpermits⟩

end

end MeteredLedger

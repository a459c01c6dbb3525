import MeteredLedger.Proofs.Conservation
import MeteredLedger.Proofs.Debits

/-! # Issuance

    Only the issuer of an asset creates more of it, and only as long as every
    reissue so far has left the asset reissuable. Whether it is so is known from
    three places: the description in the base view, the change that the block has
    made so far, and the change of the batch that is running. A merge of changes
    allows a reissue only if both of them do, so once the answer is no it stays no.

    A view never reports a volume below zero of an asset that the block has
    changed. Volumes are therefore compared as if a negative one were zero.

    * `View.Issues`: the account may create more of the asset.
    * `issues_of_transition`: a transaction that adds to a volume is a step of an
      invocation whose DApp may.
    * `AssetDescription.Reports`: what a stacked view says of an asset.
    * `View.Retains`: a later view keeps what an earlier one has closed.
    * `only_issuers_inflate`: the views that a block passes through. -/

namespace MeteredLedger

open Script (Action Evaluator Expr)

/-! ## Section 1: Who adds to a volume -/

/-- The asset is reissuable, and the account has issued it. -/
def View.Issues (v : View) (holder : Address) (id : AssetId) : Prop :=
  ∃ description, v.asset id = some description ∧ description.issuer = holder ∧
    description.reissuable = true

section

variable {view : View} {evaluator : Evaluator} {id : AssetId}

/-- Of all payments and actions only a reissue adds to a volume. -/
theorem netChange_le_or_issues {tx : Invocation} {d d' : Delta} (h : Effect view tx d d')
    (id : AssetId) : d'.netChange id ≤ d.netChange id ∨ view.Issues tx.dapp id := by
  cases h with
  | payment _ _ hmoves =>
    left
    rw [Delta.netChange_of_moves hmoves]
  | @data key value hmerge =>
    left
    have hentry : (Delta.entry tx.dapp key value).netChange id = 0 :=
      Delta.netChange_of_volumes_empty rfl id
    rw [Delta.netChange_of_merge hmerge, hentry, Int.add_zero]
  | transfer _ _ _ hmoves =>
    left
    rw [Delta.netChange_of_moves hmoves]
  | @reissue asset amount reissuable _ hmay hadjusts =>
    by_cases hid : id = asset
    · right
      obtain ⟨description, hdescribed, hissuer, hreissuable, -⟩ := hmay.described
      exact ⟨description, hid ▸ hdescribed, hissuer, hreissuable⟩
    · left
      rw [Delta.netChange_of_adjusts hadjusts, if_neg hid, Int.add_zero]
  | burn hamount _ hadjusts =>
    left
    have hnonneg := Int64.le_iff_toInt_le.1 hamount
    rw [Int64.toInt_zero] at hnonneg
    rw [Delta.netChange_of_adjusts hadjusts]
    simp only [VolumeChange.netChange]
    split <;> omega

theorem issues_of_applyBatch {tx : Invocation} {actions : List Action} {b : Batch}
    (h : applyBatch view evaluator tx actions = .ok b) (hpos : 0 < b.delta.netChange id) :
    view.Issues tx.dapp id := by
  revert hpos
  refine applyBatch_keeps (P := fun d => 0 < d.netChange id → view.Issues tx.dapp id) ?_ ?_ h
  · intro hpos
    rw [Delta.netChange_of_volumes_empty rfl] at hpos
    exact absurd hpos (by decide)
  · intro d d' heffect hd hpos
    rcases netChange_le_or_issues heffect id with hle | hissues
    · exact hd (by omega)
    · exact hissues

/-- **A transaction that adds to a volume** is a step of an invocation whose DApp
    has issued the asset, and finds it reissuable. -/
theorem issues_of_transition {tx : Transaction} {r : StepResult}
    (h : transition evaluator view tx = .ok r) (hpos : 0 < r.delta.netChange id) :
    ∃ owner, tx.owner view = some owner ∧ view.Issues owner.dapp id := by
  obtain ⟨s, htakes, hends⟩ := step_of_transition h
  obtain ⟨b, hdebits⟩ := debits_of_ends hends
  -- the fee has no part in the volumes, so the batch has added to this one
  have hbatch : 0 < b.delta.netChange id := by
    rwa [Delta.netChange, hdebits.adds.volumes] at hpos
  refine ⟨s.invocation, owner_of_takes htakes, ?_⟩
  by_cases hstatus : r.status = .succeeded
  · obtain ⟨actions, happlied, -⟩ := hdebits.applied hstatus
    exact issues_of_applyBatch happlied hbatch
  · rw [hdebits.nothing hstatus, Delta.netChange_of_volumes_empty rfl] at hbatch
    exact absurd hbatch (by decide)

end

/-! ## Section 2: What a stacked view reports -/

/-- The delta leaves an asset reissuable that has been so. -/
def Delta.allowsReissue (d : Delta) (id : AssetId) : Bool :=
  (d.volumes[id]?.map (·.allowsReissue)).getD true

theorem Delta.allowsReissue_eq (d : Delta) (id : AssetId) :
    d.allowsReissue id = (d.reissuable? id).getD true := by
  unfold allowsReissue reissuable?
  cases d.volumes[id]? <;> rfl

theorem Delta.allowsReissue_of_merge {a b d : Delta} (h : a.merge b = .ok d) (id : AssetId) :
    d.allowsReissue id = (a.allowsReissue id && b.allowsReissue id) := by
  rw [allowsReissue_eq, allowsReissue_eq, allowsReissue_eq, reissuable?_of_merge h, getD_merge_and]

/-- What a view says of an asset after a delta, where `description` is what is
    said below it. A negative volume counts as zero. -/
structure AssetDescription.Reports (after description : AssetDescription) (d : Delta)
    (id : AssetId) : Prop where
  reissuable : after.reissuable = (description.reissuable && d.allowsReissue id)
  volume : max 0 after.volume.toInt =
    min Amount.greatest (max 0 (description.volume.toInt + d.netChange id))

theorem reports_of_asset_stack {v : View} {d : Delta} {id : AssetId} {after : AssetDescription}
    (h : (v.stack d).asset id = some after) :
    ∃ description, v.asset id = some description ∧ after.Reports description d id := by
  obtain ⟨description, hdescription, hafter⟩ := Option.map_eq_some_iff.1 h
  refine ⟨description, hdescription, ?_⟩
  have hle := description.volume.toInt_le_greatest
  cases hchange : d.volumes[id]? with
  | none =>
    rw [hchange, Option.elim_none] at hafter
    subst hafter
    constructor
    · simp [Delta.allowsReissue, hchange]
    · simp only [Delta.netChange, hchange, Option.map_none, Option.getD_none]
      unfold Amount.greatest at *
      omega
  | some change =>
    rw [hchange, Option.elim_some] at hafter
    subst hafter
    constructor
    · simp [AssetDescription.after, Delta.allowsReissue, hchange, VolumeChange.allowsReissue]
    · simp only [AssetDescription.after, Amount.toInt_clamp, Delta.netChange, hchange,
        Option.map_some, Option.getD_some]
      unfold Amount.least Amount.greatest
      omega

/-! ## Section 3: Views that a block passes through -/

/-- Every asset that is not reissuable on the first view is not on the second, and
    there is no more of it. -/
def View.Retains (v w : View) : Prop :=
  ∀ id before, v.asset id = some before → before.reissuable = false →
    ∃ after, w.asset id = some after ∧ after.reissuable = false ∧
      after.volume.toInt ≤ max 0 before.volume.toInt

/-- The second view reports more of the asset than the first. -/
def View.Inflates (v w : View) (id : AssetId) : Prop :=
  ∃ before after, v.asset id = some before ∧ w.asset id = some after ∧
    max 0 before.volume.toInt < after.volume.toInt

theorem View.retains_self (v : View) : v.Retains v := by
  intro id before hbefore hclosed
  exact ⟨before, hbefore, hclosed, Int.le_max_right _ _⟩

theorem View.Retains.trans {u v w : View} (h : u.Retains v) (h' : v.Retains w) : u.Retains w := by
  intro id first hfirst hclosed
  obtain ⟨second, hsecond, hclosed', hle⟩ := h id first hfirst hclosed
  obtain ⟨third, hthird, hclosed'', hle'⟩ := h' id second hsecond hclosed'
  exact ⟨third, hthird, hclosed'', by omega⟩

section

variable {view : View} {evaluator : Evaluator} {d d' : Delta} {tx : Transaction} {r : StepResult}

/-- What a view reports after one more transaction. -/
theorem reports_of_merge {id : AssetId} {before : AssetDescription}
    (hmerge : d.merge r.delta = .ok d') (hbefore : (view.stack d).asset id = some before) :
    ∃ after, (view.stack d').asset id = some after ∧
      after.reissuable = (before.reissuable && r.delta.allowsReissue id) ∧
      (r.delta.netChange id ≤ 0 → after.volume.toInt ≤ max 0 before.volume.toInt) := by
  obtain ⟨description, hdescription, hreports⟩ := reports_of_asset_stack hbefore
  have hafter : (view.stack d').asset id =
      some (d'.volumes[id]?.elim description description.after) := by
    simp [View.stack, hdescription]
  obtain ⟨description', hdescription', hreports'⟩ := reports_of_asset_stack hafter
  obtain rfl : description = description' := Option.some.inj (hdescription.symm.trans hdescription')
  refine ⟨_, hafter, ?_, ?_⟩
  · rw [hreports'.reissuable, Delta.allowsReissue_of_merge hmerge, ← Bool.and_assoc,
      ← hreports.reissuable]
  · intro hnet
    have hvolume := hreports.volume
    have hvolume' := hreports'.volume
    rw [Delta.netChange_of_merge hmerge] at hvolume'
    omega

/-- **One more transaction** keeps what is closed. -/
theorem retains_of_merge (h : transition evaluator (view.stack d) tx = .ok r)
    (hmerge : d.merge r.delta = .ok d') : (view.stack d).Retains (view.stack d') := by
  intro id before hbefore hclosed
  obtain ⟨after, hafter, hreissuable, hvolume⟩ := reports_of_merge hmerge hbefore
  refine ⟨after, hafter, by simp [hreissuable, hclosed], hvolume ?_⟩
  by_contra hpos
  -- who adds to the volume has found the asset reissuable
  obtain ⟨owner, -, description, hdescription, -, hopen⟩ :=
    issues_of_transition h (Int.not_le.1 hpos)
  obtain rfl : before = description := Option.some.inj (hbefore.symm.trans hdescription)
  exact absurd hopen (by simp [hclosed])

theorem retains_of_goes {b b' : BlockResult} (h : b.Goes evaluator view tx b') :
    (view.stack b.delta).Retains (view.stack b'.delta) := by
  cases h with
  | applied htransition hmerge => exact retains_of_merge htransition hmerge
  | refused _ _ => exact View.retains_self _
  | rejected _ _ => exact View.retains_self _

/-- A transaction after which there is more of an asset has been applied, and its
    DApp may create more of it. -/
theorem issues_of_goes {b b' : BlockResult} {id : AssetId} (h : b.Goes evaluator view tx b')
    (hinflates : (view.stack b.delta).Inflates (view.stack b'.delta) id) :
    ∃ r owner, transition evaluator (view.stack b.delta) tx = .ok r ∧
      b.delta.merge r.delta = .ok b'.delta ∧ tx.owner (view.stack b.delta) = some owner ∧
      (view.stack b.delta).Issues owner.dapp id := by
  obtain ⟨before, after, hbefore, hafter, hlt⟩ := hinflates
  have hsame : b'.delta = b.delta → False := by
    intro hdelta
    rw [hdelta] at hafter
    obtain rfl : before = after := Option.some.inj (hbefore.symm.trans hafter)
    omega
  cases h with
  | @applied r d htransition hmerge =>
    obtain ⟨after', hafter', -, hvolume⟩ := reports_of_merge hmerge hbefore
    obtain rfl : after' = after := Option.some.inj (hafter'.symm.trans hafter)
    have hpos : 0 < r.delta.netChange id := by
      by_contra hnet
      have hle := hvolume (Int.not_lt.1 hnet)
      omega
    obtain ⟨owner, howner, hissues⟩ := issues_of_transition htransition hpos
    exact ⟨r, owner, htransition, hmerge, howner, hissues⟩
  | refused _ _ => exact (hsame rfl).elim
  | rejected _ _ => exact (hsame rfl).elim

/-- **Reissuability is lost for good, and only issuers inflate.** Of two views that
    a block passes through the later one retains what the earlier one has closed,
    and paying out the fees changes no asset. Where there is more of an asset
    after one transaction, that has been applied, and is a step of an invocation
    whose DApp has issued the asset, which was still reissuable. -/
theorem only_issuers_inflate {earlier later : List Transaction} {b b' : BlockResult}
    (h : BlockResult.after evaluator view earlier = .ok b)
    (h' : BlockResult.after evaluator view (earlier ++ later) = .ok b') :
    (view.stack b.delta).Retains (view.stack b'.delta) ∧
      (∀ whole, transitionBlock evaluator view (earlier ++ later) = .ok whole →
        (view.stack whole.delta).asset = (view.stack b'.delta).asset) ∧
      ∀ tx id, later = [tx] → (view.stack b.delta).Inflates (view.stack b'.delta) id →
        ∃ r owner, transition evaluator (view.stack b.delta) tx = .ok r ∧
          b.delta.merge r.delta = .ok b'.delta ∧ tx.owner (view.stack b.delta) = some owner ∧
          (view.stack b.delta).Issues owner.dapp id := by
  refine ⟨?_, ?_, ?_⟩
  · obtain ⟨b₁, hb₁, hlater⟩ := foldlM_append_eq_ok_iff.1 h'
    obtain rfl : b = b₁ := Except.ok.inj (h.symm.trans hb₁)
    -- induction over the transactions between the two views
    refine foldlM_keeps (P := fun c => (view.stack b.delta).Retains (view.stack c.delta))
      (fun c tx c' _ hc hnext => ?_) (View.retains_self _) hlater
    exact hc.trans (retains_of_goes (BlockResult.goes_of_next hnext))
  · intro whole hwhole
    obtain ⟨b₁, d, hb₁, hmerge, rfl⟩ := transitionBlock_eq_ok hwhole
    obtain rfl : b' = b₁ := Except.ok.inj (h'.symm.trans hb₁)
    have hunchanged : d.volumes = b'.delta.volumes := Delta.volumes_of_merge hmerge rfl
    funext id
    simp [View.stack, hunchanged]
  · rintro tx id rfl hinflates
    rw [BlockResult.after_concat h] at h'
    exact issues_of_goes (BlockResult.goes_of_next h') hinflates

/-- The issuer creates 5 of an asset and gives up to create more of it. -/
theorem only_issuers_inflate_of_reissue :
    let asset : AssetId := .fill 9
    let view := { View.fresh ⟨.v3, ∅, none⟩ 1000000 with
      asset := fun _ => some ⟨.fill 2, "", 0, true⟩ }
    let tx : Invocation := ⟨.fill 7, .fill 1, .fill 2, ⟨"", []⟩, [], 900000, 0⟩
    let evaluator : Evaluator := fun _ _ => .ok (.completed (.ok (.list
      [.action (.reissue asset 5 false)])) 0)
    ∃ b, BlockResult.after evaluator view [.invocation tx] = .ok b ∧
      (view.stack b.delta).asset asset = some ⟨.fill 2, "", 5, false⟩ ∧
      (view.stack .empty).Inflates (view.stack b.delta) asset ∧
      (view.stack .empty).Issues (.fill 2) asset := by
  intro asset view tx evaluator
  have hrun : (BlockResult.after evaluator view [.invocation tx]).toOption.map
      (fun b => (view.stack b.delta).asset asset) = some (some ⟨.fill 2, "", 5, false⟩) := by
    decide +kernel
  obtain ⟨b, hb, hclosed⟩ := exists_eq_ok_of_map hrun
  have hstart : BlockResult.after evaluator view [] = .ok {} := rfl
  have hinflates : (view.stack .empty).Inflates (view.stack b.delta) asset :=
    ⟨_, _, rfl, hclosed, by decide⟩
  obtain ⟨-, -, hissues⟩ := only_issuers_inflate hstart hb
  obtain ⟨r, owner, -, -, howner, hissues⟩ := hissues (.invocation tx) asset rfl hinflates
  obtain rfl : tx = owner := Option.some.inj howner
  exact ⟨b, hb, hclosed, hinflates, hissues⟩

/-- A negative volume, on the other hand, may rise to zero without its issuer: a
    burn of nothing is enough, also of an asset that is not reissuable. -/
theorem volume_rises_from_below_zero :
    ¬∀ (evaluator : Evaluator) (view : View) (earlier later : List Transaction)
      (b b' : BlockResult) (id : AssetId) (before after : AssetDescription),
      BlockResult.after evaluator view earlier = .ok b →
      BlockResult.after evaluator view (earlier ++ later) = .ok b' →
      (view.stack b.delta).asset id = some before → before.reissuable = false →
      (view.stack b'.delta).asset id = some after →
      after.volume.toInt ≤ before.volume.toInt := by
  intro hnever
  let asset : AssetId := .fill 9
  let view := { View.fresh ⟨.v3, ∅, none⟩ 1000000 with
    asset := fun _ => some ⟨.fill 5, "", -5, false⟩ }
  let tx : Invocation := ⟨.fill 7, .fill 1, .fill 2, ⟨"", []⟩, [], 900000, 0⟩
  let evaluator : Evaluator := fun _ _ => .ok (.completed (.ok (.list
    [.action (.burn asset 0)])) 0)
  have hrun : (BlockResult.after evaluator view [.invocation tx]).toOption.map
      (fun b => (view.stack b.delta).asset asset) = some (some ⟨.fill 5, "", 0, false⟩) := by
    decide +kernel
  obtain ⟨b, hb, hrisen⟩ := exists_eq_ok_of_map hrun
  have hle := hnever evaluator view [] [.invocation tx] {} b asset _ _ rfl hb rfl rfl hrisen
  exact absurd hle (by decide)

end

end MeteredLedger

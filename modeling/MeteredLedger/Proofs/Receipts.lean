import MeteredLedger.Proofs.Callables
import MeteredLedger.Proofs.Confinement

/-! # Receipts

    The result of a transaction that succeeds is a receipt: it lists what the
    callable has asked for, and what it lists, with the payments and the fee, is
    all that the delta does. Every balance, data entry and volume can be worked
    out from it.

    * `ScriptResult.ofActions`: the result that lists some actions.
    * `ScriptResult.sent`, `ScriptResult.received`, `ScriptResult.created`,
      `ScriptResult.written`, `ScriptResult.reissuable?`: what it says.
    * `Delta.Explained`: a delta that does what a result says.
    * `explained_of_act`: one more action, noted in the result, keeps a delta
      explained.
    * `explained_of_reached`: so a batch is explained by its actions.
    * `result_explains_effect`: so is every transaction that succeeds. -/

namespace MeteredLedger

open Script (Action DataValue Evaluator Expr)

/-! ## Section 1: What a result says -/

namespace ScriptResult

/-- The result that lists some actions, those of each kind in their order. -/
def ofActions (actions : List Action) : ScriptResult where
  data := actions.filterMap fun
    | .data key value => some ⟨key, value⟩
    | _ => none
  transfers := actions.filterMap fun
    | .transfer recipient asset amount => some ⟨recipient, asset, amount⟩
    | _ => none
  reissues := actions.filterMap fun
    | .reissue asset amount reissuable => some ⟨asset, amount, reissuable⟩
    | _ => none
  burns := actions.filterMap fun
    | .burn asset amount => some ⟨asset, amount⟩
    | _ => none

/-- How much of an asset the transfers send. -/
def sent (r : ScriptResult) (asset : Asset) : Int :=
  (r.transfers.map fun t => if asset = t.asset then t.amount.toInt else 0).sum

/-- How much of an asset the transfers send to an account. -/
def received (r : ScriptResult) (address : Address) (asset : Asset) : Int :=
  (r.transfers.map fun t =>
    if address = t.recipient ∧ asset = t.asset then t.amount.toInt else 0).sum

/-- How much of an asset is reissued. -/
def reissued (r : ScriptResult) (asset : AssetId) : Int :=
  (r.reissues.map fun x => if asset = x.asset then x.amount.toInt else 0).sum

/-- How much of an asset is burned. -/
def burned (r : ScriptResult) (asset : AssetId) : Int :=
  (r.burns.map fun x => if asset = x.asset then x.amount.toInt else 0).sum

/-- How much of an asset comes into being. -/
def created (r : ScriptResult) : Asset → Int
  | .native => 0
  | .issued asset => r.reissued asset - r.burned asset

/-- What the actions listed, done by a DApp, add to a balance. -/
def adds (r : ScriptResult) (dapp address : Address) (asset : Asset) : Int :=
  r.received address asset + if address = dapp then r.created asset - r.sent asset else 0

/-- The last value that is listed for a key. -/
def written (r : ScriptResult) (key : String) : Option DataValue :=
  ((r.data.filter fun e => e.key = key).getLast?).map (·.value)

/-- Some of the asset is reissued or burned. -/
def Changes (r : ScriptResult) (asset : AssetId) : Prop :=
  (∃ x ∈ r.reissues, x.asset = asset) ∨ ∃ x ∈ r.burns, x.asset = asset

/-- Whether all reissues of the asset leave it reissuable, if there are any. -/
def reissuable? (r : ScriptResult) (asset : AssetId) : Option Bool :=
  let reissues := r.reissues.filter fun x => x.asset = asset
  if reissues = [] then none else some (reissues.all (·.reissuable))

theorem ofActions_append (actions : List Action) (action : Action) :
    ofActions (actions ++ [action]) = (ofActions actions).push action := by
  cases action <;> simp [ofActions, push]

/-- Where an asset stays reissuable, no reissue of it gives that up. -/
theorem reissuable_of_mem {r : ScriptResult} {x : Reissue} (hx : x ∈ r.reissues)
    (h : (r.reissuable? x.asset).getD true = true) : x.reissuable = true := by
  have hlisted : x ∈ r.reissues.filter fun y => y.asset = x.asset :=
    List.mem_filter.2 ⟨hx, decide_eq_true rfl⟩
  unfold reissuable? at h
  dsimp only at h
  rw [if_neg (List.ne_nil_of_mem hlisted), Option.getD_some] at h
  exact List.all_eq_true.1 h x hlisted

/-! ### One more action -/

section

variable (r : ScriptResult) (dapp address recipient : Address) (asset' : Asset) (amount : Amount)
  (asset id : AssetId) (flag : Bool) (key key' : String) (value : DataValue)

theorem adds_push_transfer (asset : Asset) :
    (r.push (.transfer recipient asset amount)).adds dapp address asset' =
      r.adds dapp address asset' - (if address = dapp ∧ asset' = asset then amount.toInt else 0) +
        if address = recipient ∧ asset' = asset then amount.toInt else 0 := by
  have hsent : (r.push (.transfer recipient asset amount)).sent asset' =
      r.sent asset' + if asset' = asset then amount.toInt else 0 := by simp [sent, push]
  have hreceived : (r.push (.transfer recipient asset amount)).received address asset' =
      r.received address asset' +
        if address = recipient ∧ asset' = asset then amount.toInt else 0 := by
    simp [received, push]
  have hcreated : (r.push (.transfer recipient asset amount)).created asset' = r.created asset' :=
    rfl
  unfold adds
  rw [hsent, hreceived, hcreated]
  by_cases hdapp : address = dapp
  · simp only [hdapp, true_and, if_true]
    omega
  · simp only [hdapp, false_and, if_false]
    omega

/-- What changes the volume of an asset is in the hands of the DApp. -/
theorem adds_of_volume {r r' : ScriptResult} {change : Int}
    (htransfers : r'.transfers = r.transfers)
    (hvolume : ∀ id, r'.reissued id - r'.burned id =
      r.reissued id - r.burned id + if id = asset then change else 0) :
    r'.adds dapp address asset' = r.adds dapp address asset' +
      if address = dapp ∧ asset' = .issued asset then change else 0 := by
  have hcreated : r'.created asset' =
      r.created asset' + if asset' = .issued asset then change else 0 := by
    cases asset' with
    | native => simp [created]
    | issued id => simp only [created, hvolume, Asset.issued.injEq]
  unfold adds received sent
  rw [htransfers, hcreated]
  by_cases hdapp : address = dapp
  · simp only [hdapp, true_and, if_true]
    omega
  · simp [hdapp]

theorem volume_push_reissue :
    (r.push (.reissue asset amount flag)).reissued id -
        (r.push (.reissue asset amount flag)).burned id =
      r.reissued id - r.burned id + if id = asset then amount.toInt else 0 := by
  simp only [reissued, burned, push, List.map_append, List.sum_append, List.map_cons, List.map_nil,
    List.sum_cons, List.sum_nil]
  omega

theorem volume_push_burn :
    (r.push (.burn asset amount)).reissued id - (r.push (.burn asset amount)).burned id =
      r.reissued id - r.burned id + if id = asset then -amount.toInt else 0 := by
  simp only [reissued, burned, push, List.map_append, List.sum_append, List.map_cons, List.map_nil,
    List.sum_cons, List.sum_nil]
  split <;> omega

theorem written_push_data :
    (r.push (.data key' value)).written key =
      if key = key' then some value else r.written key := by
  unfold written push
  by_cases hkey : key = key'
  · simp [hkey]
  · simp [hkey, Ne.symm hkey]

theorem changes_push_reissue :
    (r.push (.reissue asset amount flag)).Changes id ↔ r.Changes id ∨ id = asset := by
  simp only [Changes, push, List.mem_append, List.mem_singleton, or_and_right, exists_or,
    exists_eq_left, eq_comm (a := id)]
  exact or_right_comm

theorem changes_push_burn :
    (r.push (.burn asset amount)).Changes id ↔ r.Changes id ∨ id = asset := by
  simp only [Changes, push, List.mem_append, List.mem_singleton, or_and_right, exists_or,
    exists_eq_left, eq_comm (a := id)]
  exact or_assoc.symm

theorem reissuable?_push_reissue :
    (r.push (.reissue asset amount flag)).reissuable? id =
      Option.merge (· && ·) (r.reissuable? id) (if id = asset then some flag else none) := by
  unfold reissuable? push
  simp only [List.filter_append]
  by_cases hid : id = asset
  · subst hid
    generalize r.reissues.filter (fun x => x.asset = id) = earlier
    cases earlier <;> simp [Bool.and_assoc]
  · simp [Ne.symm hid, hid]

end

end ScriptResult

/-! ## Section 2: Deltas that a result explains -/

namespace Delta

variable {a b d d' : Delta} {dapp : Address} {result result' : ScriptResult}
  {base base' : Address → Asset → Int} {asset : AssetId} {amount : Amount} {change : VolumeChange}

theorem reissuable?_of_adjusts {holder : Address} (h : d.Adjusts asset holder amount change d')
    (id : AssetId) : d'.reissuable? id =
      Option.merge (· && ·) (d.reissuable? id)
        (if id = asset then change.reissuable? else none) := by
  obtain ⟨d₁, h₁, h₂⟩ := h
  have hvolume : (volume asset change).reissuable? id =
      if id = asset then change.reissuable? else none := by
    by_cases hid : asset = id
    · simp [reissuable?, volume, hid]
    · simp [reissuable?, volume, hid, Ne.symm hid]
  rw [reissuable?_of_merge h₂, hvolume]
  unfold reissuable?
  rw [volumes_of_merge h₁ rfl]

/-- The delta changes the volumes as a result says. -/
structure ExplainedVolumes (d : Delta) (result : ScriptResult) : Prop where
  changed : ∀ asset, d.volumes[asset]? ≠ none ↔ result.Changes asset
  netChange : ∀ asset, d.netChange asset = result.reissued asset - result.burned asset
  reissuable : ∀ asset, d.reissuable? asset = result.reissuable? asset

/-- Beyond what `base` adds to balances, the delta does what a result says that a
    DApp has done, and nothing else. -/
structure Explained (d : Delta) (dapp : Address) (result : ScriptResult)
    (base : Address → Asset → Int) : Prop where
  balance : ∀ address asset, (d.balanceChange address asset).toInt =
    base address asset + result.adds dapp address asset
  data : ∀ address key,
    d.dataEntry address key = if address = dapp then result.written key else none
  holders : ∀ address, d.data[address]? ≠ none → address = dapp
  volumes : d.ExplainedVolumes result

/-! ### One more action -/

theorem explainedVolumes_of_eq (hd : d.ExplainedVolumes result) (hvolumes : d'.volumes = d.volumes)
    (hreissues : result'.reissues = result.reissues) (hburns : result'.burns = result.burns) :
    d'.ExplainedVolumes result' where
  changed := by
    unfold ScriptResult.Changes
    rw [hvolumes, hreissues, hburns]
    exact hd.changed
  netChange := by
    unfold Delta.netChange ScriptResult.reissued ScriptResult.burned
    rw [hvolumes, hreissues, hburns]
    exact hd.netChange
  reissuable := by
    unfold reissuable? ScriptResult.reissuable?
    rw [hvolumes, hreissues]
    exact hd.reissuable

theorem explained_of_entry {key : String} {value : DataValue} (hd : d.Explained dapp result base)
    (h : d.merge (.entry dapp key value) = .ok d') :
    d'.Explained dapp (result.push (.data key value)) base where
  balance := by
    intro address asset
    have hentry : ((entry dapp key value).balanceChange address asset).toInt = 0 := rfl
    rw [toInt_balanceChange_of_merge h, hentry, Int.add_zero]
    exact hd.balance address asset
  data := by
    intro address key'
    rw [dataEntry_of_merge h, hd.data, ScriptResult.written_push_data]
    by_cases haddress : address = dapp
    · by_cases hkey : key' = key
      · simp [dataEntry, entry, haddress, hkey]
      · simp [dataEntry, entry, haddress, hkey, Ne.symm hkey]
    · simp [dataEntry, entry, haddress, Ne.symm haddress]
  holders := by
    intro address haddress
    obtain ⟨-, hdata, -⟩ := merge_eq_ok_iff.1 h
    rw [hdata] at haddress
    rcases SortedMap.ne_none_of_mergeWith haddress with hbefore | hentry
    · exact hd.holders address hbefore
    · exact eq_of_touches_entry (.inr hentry)
  volumes := explainedVolumes_of_eq hd.volumes (volumes_of_merge h rfl) rfl rfl

/-- Where the deltas differ only in balances, and the results only in transfers, these
    have to be compared. -/
theorem explained_of_balance (hd : d.Explained dapp result base) (hdata : d'.data = d.data)
    (hvolumes : d'.volumes = d.volumes) (hentries : result'.data = result.data)
    (hreissues : result'.reissues = result.reissues) (hburns : result'.burns = result.burns)
    (hbalance : ∀ address asset, (d'.balanceChange address asset).toInt =
      (d.balanceChange address asset).toInt + (base' address asset - base address asset) +
        (result'.adds dapp address asset - result.adds dapp address asset)) :
    d'.Explained dapp result' base' where
  balance := by
    intro address asset
    rw [hbalance, hd.balance]
    omega
  data := by
    unfold dataEntry ScriptResult.written
    rw [hdata, hentries]
    exact hd.data
  holders := by
    rw [hdata]
    exact hd.holders
  volumes := explainedVolumes_of_eq hd.volumes hvolumes hreissues hburns

theorem explained_of_transfer {asset : Asset} {recipient : Address} (hamount : 0 ≤ amount)
    (hd : d.Explained dapp result base) (h : d.Moves asset amount dapp recipient d') :
    d'.Explained dapp (result.push (.transfer recipient asset amount)) base := by
  refine explained_of_balance hd (data_of_moves h) (volumes_of_moves h) rfl rfl rfl ?_
  intro address asset'
  rw [toInt_balanceChange_of_moves hamount h, ScriptResult.adds_push_transfer]
  omega

/-- A change of a volume is explained by a result that lists it as well. -/
theorem explained_of_adjusts (hd : d.Explained dapp result base)
    (h : d.Adjusts asset dapp amount change d') (hamount : amount.toInt = change.netChange)
    (hentries : result'.data = result.data) (htransfers : result'.transfers = result.transfers)
    (hvolume : ∀ id, result'.reissued id - result'.burned id =
      result.reissued id - result.burned id + if id = asset then change.netChange else 0)
    (hchanges : ∀ id, result'.Changes id ↔ result.Changes id ∨ id = asset)
    (hreissuable : ∀ id, result'.reissuable? id = Option.merge (· && ·) (result.reissuable? id)
      (if id = asset then change.reissuable? else none)) :
    d'.Explained dapp result' base where
  balance := by
    intro address asset'
    rw [toInt_balanceChange_of_adjusts h, hd.balance, hamount,
      ScriptResult.adds_of_volume dapp address asset' asset htransfers hvolume]
    omega
  data := by
    unfold dataEntry ScriptResult.written
    rw [data_of_adjusts h, hentries]
    exact hd.data
  holders := by
    rw [data_of_adjusts h]
    exact hd.holders
  volumes := {
    changed := by
      intro id
      rw [volumes_ne_none_iff_of_adjusts h, hchanges, hd.volumes.changed]
    netChange := by
      intro id
      rw [netChange_of_adjusts h, hvolume, hd.volumes.netChange]
    reissuable := by
      intro id
      rw [reissuable?_of_adjusts h, hreissuable, hd.volumes.reissuable] }

theorem explained_of_reissue {flag : Bool} (hd : d.Explained dapp result base)
    (h : d.Adjusts asset dapp amount (.reissue amount flag) d') :
    d'.Explained dapp (result.push (.reissue asset amount flag)) base :=
  explained_of_adjusts hd h rfl rfl rfl
    (fun id => ScriptResult.volume_push_reissue result amount asset id flag)
    (fun id => ScriptResult.changes_push_reissue result amount asset id flag)
    (fun id => ScriptResult.reissuable?_push_reissue result amount asset id flag)

theorem explained_of_burn (hamount : 0 ≤ amount) (hd : d.Explained dapp result base)
    (h : d.Adjusts asset dapp (-amount) (.burn amount) d') :
    d'.Explained dapp (result.push (.burn asset amount)) base := by
  refine explained_of_adjusts hd h (Amount.toInt_neg_of_nonneg hamount) rfl rfl
    (fun id => ScriptResult.volume_push_burn result amount asset id)
    (fun id => ScriptResult.changes_push_burn result amount asset id) (fun id => ?_)
  -- a burn has no flag
  have hnone : (VolumeChange.burn amount).reissuable? = none := rfl
  rw [hnone, ite_self, Option.merge_none_right]
  rfl

/-- What takes a fee besides adds that to what is not listed. -/
theorem explained_of_adds {payer : Address} {fee : Int} (hd : d.Explained dapp result base)
    (h : d'.Adds payer d fee) : d'.Explained dapp result fun address asset =>
      base address asset - if address = payer ∧ asset = .native then fee else 0 := by
  refine explained_of_balance hd h.data h.volumes rfl rfl rfl ?_
  intro address asset
  rw [h.balance]
  omega

end Delta

/-! ## Section 3: Batches -/

section

variable {view : View} {evaluator : Evaluator} {tx : Invocation} {actions : List Action}
  {b b' : Batch}

/-- A batch that has applied the payments of its invocation and some actions. -/
def Batch.Reached (view : View) (evaluator : Evaluator) (tx : Invocation) (actions : List Action)
    (b : Batch) : Prop :=
  ∃ paid, tx.payments.foldlM (Batch.pay view evaluator tx) {} = .ok paid ∧
    actions.foldlM (Batch.act view evaluator tx.dapp) paid = .ok b

/-- Before an action is applied, the actions in front of it have been. -/
theorem Batch.reached_append {before after : List Action} {action : Action}
    (h : Reached view evaluator tx (before ++ action :: after) b') :
    ∃ b next, Reached view evaluator tx before b ∧
      b.act view evaluator tx.dapp action = .ok next := by
  obtain ⟨paid, hpayments, hactions⟩ := h
  obtain ⟨b, next, hbefore, hact⟩ := exists_step_of_foldlM hactions
  exact ⟨b, next, ⟨paid, hpayments, hbefore⟩, hact⟩

/-- What the payments and a fee of an invocation add to a balance. -/
def Invocation.pays (tx : Invocation) (fee : Int) (address : Address) (asset : Asset) : Int :=
  (if address = tx.dapp then paidIn tx.payments asset else 0) -
    (if address = tx.sender then paidIn tx.payments asset else 0) -
    if address = tx.sender ∧ asset = .native then fee else 0

/-- After the payments no action is listed. -/
theorem explained_of_pays (h : tx.payments.foldlM (Batch.pay view evaluator tx) {} = .ok b) :
    b.result = .ofActions [] ∧ b.delta.Explained tx.dapp (.ofActions [])
      fun address asset => (b.delta.balanceChange address asset).toInt := by
  have hrest : b.result = {} ∧ b.delta.data = ∅ ∧ b.delta.volumes = ∅ := by
    refine foldlM_keeps (P := fun b => b.result = {} ∧ b.delta.data = ∅ ∧ b.delta.volumes = ∅)
      (fun b p b' _ hb hpay => ?_) ⟨rfl, rfl, rfl⟩ h
    obtain ⟨-, hmoves, hresult⟩ := Batch.pay_eq_ok hpay
    rw [hresult, Delta.data_of_moves hmoves, Delta.volumes_of_moves hmoves]
    exact hb
  obtain ⟨hresult, hdata, hvolumes⟩ := hrest
  refine ⟨hresult, ?_⟩
  exact {
    balance := by
      intro address asset
      cases asset <;> simp [ScriptResult.adds, ScriptResult.ofActions, ScriptResult.sent,
        ScriptResult.received, ScriptResult.created, ScriptResult.reissued, ScriptResult.burned]
    data := by simp [Delta.dataEntry, hdata, ScriptResult.written, ScriptResult.ofActions]
    holders := by simp [hdata]
    volumes := {
      changed := by simp [hvolumes, ScriptResult.Changes, ScriptResult.ofActions]
      netChange := by
        simp [Delta.netChange, hvolumes, ScriptResult.reissued, ScriptResult.burned,
          ScriptResult.ofActions]
      reissuable := by
        simp [Delta.reissuable?, hvolumes, ScriptResult.reissuable?, ScriptResult.ofActions] } }

/-- **One more action** is noted in the result, which goes on to explain the delta. -/
theorem explained_of_act {dapp : Address} {action : Action} {base : Address → Asset → Int}
    (hb : b.delta.Explained dapp b.result base) (h : b.act view evaluator dapp action = .ok b') :
    b'.delta.Explained dapp b'.result base := by
  rw [result_of_act h]
  obtain ⟨b₁, happly, rfl⟩ := Batch.act_eq_ok h
  show b₁.delta.Explained dapp _ base
  cases action with
  | data key value =>
    have hadd : b.add (.entry dapp key value) = .ok b₁ := happly
    obtain ⟨d, hmerge, rfl⟩ := Batch.add_eq_ok_iff.1 hadd
    exact Delta.explained_of_entry hb hmerge
  | transfer recipient asset amount =>
    obtain ⟨hamount, -, -, hmoves, -⟩ := Batch.transfer_eq_ok happly
    exact Delta.explained_of_transfer hamount hb hmoves
  | reissue asset amount reissuable =>
    obtain ⟨-, -, hadjusts, -⟩ := Batch.reissue_eq_ok happly
    exact Delta.explained_of_reissue hb hadjusts
  | burn asset amount =>
    obtain ⟨hamount, -, hadjusts, -⟩ := Batch.burn_eq_ok happly
    exact Delta.explained_of_burn hamount hb hadjusts

theorem result_of_acts {earlier : List Action}
    (h : actions.foldlM (Batch.act view evaluator tx.dapp) b = .ok b')
    (hb : b.result = .ofActions earlier) : b'.result = .ofActions (earlier ++ actions) := by
  -- induction on the actions that are still to be applied
  induction actions generalizing b earlier with
  | nil =>
    obtain rfl := Except.ok.inj h
    rw [hb, List.append_nil]
  | cons action actions ih =>
    rw [List.foldlM_cons] at h
    obtain ⟨b₁, hact, hrest⟩ := bind_eq_ok_iff.1 h
    have hnoted : b₁.result = .ofActions (earlier ++ [action]) := by
      rw [result_of_act hact, hb, ScriptResult.ofActions_append]
    rw [ih hrest hnoted, List.append_assoc, List.singleton_append]

/-- **A batch is explained by the actions applied**, which its result lists, and by
    the payments before them. -/
theorem explained_of_reached (h : Batch.Reached view evaluator tx actions b) :
    ∃ paid, tx.payments.foldlM (Batch.pay view evaluator tx) {} = .ok paid ∧
      b.result = .ofActions actions ∧ b.delta.Explained tx.dapp (.ofActions actions)
        fun address asset => (paid.delta.balanceChange address asset).toInt := by
  obtain ⟨paid, hpayments, hactions⟩ := h
  obtain ⟨hresult, hpaid⟩ := explained_of_pays hpayments
  have hlisted : b.result = .ofActions actions := result_of_acts hactions hresult
  refine ⟨paid, hpayments, hlisted, ?_⟩
  rw [← hlisted]
  exact foldlM_keeps (P := fun b => b.delta.Explained tx.dapp b.result
      fun address asset => (paid.delta.balanceChange address asset).toInt)
    (fun b action b' _ hb hact => explained_of_act hb hact) (hresult ▸ hpaid) hactions

/-! ## Section 4: Transactions -/

/-- **The result explains the effect.** The result of a transaction that succeeds
    lists the actions that the callable has returned, and with the fee and the
    payments they account for every balance, data entry and volume of its delta,
    as long as the fee is an amount. -/
theorem result_explains_effect {t : Transaction} {r : StepResult} (hview : view.PositivePayments)
    (h : transition evaluator view t = .ok r) (hstatus : r.status = .succeeded)
    (hfee : (r.fee.toNat : Int) ≤ Amount.greatest) :
    ∃ owner actions, t.owner view = some owner ∧ t.Returns evaluator view owner actions ∧
      r.delta.results[owner.id]? = some (.ofActions actions) ∧
      r.delta.Explained owner.dapp (.ofActions actions) (owner.pays r.fee.toNat) := by
  obtain ⟨s, actions, batch, htakes, hreturns, hbatch, hsucceed⟩ := returned_of_succeeded h hstatus
  have hpositive := Step.positive_of_takes hview htakes
  obtain ⟨paid, hpayments, hlisted, hexplained⟩ := explained_of_reached (applyBatch_eq_ok hbatch)
  obtain ⟨fee, changes, -, hchanges, -, rfl⟩ := Step.succeed_eq_ok hsucceed
  refine ⟨s.invocation, actions, owner_of_takes htakes, hreturns, ?_, ?_⟩
  · rw [Step.results_close, hlisted]
  · have hadds := Delta.adds_of_merge (Delta.adds_charge s.invocation.sender fee)
      (Delta.adds_self batch.delta _) hchanges
    have hexact : (Amount.ofFee fee).toInt = fee.toNat := Amount.toInt_ofFee hfee
    rw [hexact, Int.add_zero] at hadds
    -- the payments and the fee are what the result does not list
    have hwhole := Delta.explained_of_adds hexplained hadds
    have hbase : (fun address asset => (paid.delta.balanceChange address asset).toInt -
        if address = s.invocation.sender ∧ asset = .native then (fee.toNat : Int) else 0) =
          s.invocation.pays fee.toNat := by
      funext address asset
      have hzero : (({} : Batch).delta.balanceChange address asset).toInt = 0 := rfl
      rw [balanceChange_of_pays hpositive hpayments, hzero, Invocation.pays]
      omega
    rw [hbase] at hwhole
    have hvolumes := hwhole.volumes
    exact ⟨hwhole.balance, hwhole.data, hwhole.holders, hvolumes.changed, hvolumes.netChange,
      hvolumes.reissuable⟩

/-- The last step of an invocation that hands over 4. Its callable writes a key
    twice, burns 2 of an asset that it then reissues, and sends 3 on. -/
theorem result_explains_effect_of_mixed :
    let owner : Invocation :=
      ⟨.fill 7, .fill 1, .fill 2, ⟨"", []⟩, [⟨.native, 4⟩], 900000, 0⟩
    let actions : List Action := [.data "key" (.int 1), .burn (.fill 9) 2,
      .transfer (.fill 3) .native 3, .reissue (.fill 9) 5 false, .data "key" (.int 2)]
    let rest : Expr := .const (.list (actions.map .action))
    let view := ({ View.fresh ⟨.v3, ∅, none⟩ 2000000 with
      asset := fun _ => some ⟨.fill 2, "", 7, true⟩ } : View).withPending owner rest 0
    let tx : Continuation := ⟨.fill 8, owner.id, 0, 900000, 0⟩
    ∃ r, transition Script.evaluate view (.continuation tx) = .ok r ∧
      r.delta.Explained owner.dapp (.ofActions actions) (owner.pays 900000) ∧
      r.delta.volumes[(.fill 9 : AssetId)]? = some (.net 3 false) := by
  intro owner actions rest view tx
  have hrun : (transition Script.evaluate view (.continuation tx)).toOption.map
      (fun r => (r.status, r.fee, r.delta.results[owner.id]?,
        r.delta.volumes[(.fill 9 : AssetId)]?)) =
          some (.succeeded, 900000, some (.ofActions actions), some (.net 3 false)) := by
    decide +kernel
  obtain ⟨r, hr, hrun⟩ := exists_eq_ok_of_map hrun
  simp only [Prod.mk.injEq] at hrun
  obtain ⟨hstatus, hfee, hresults, hvolume⟩ := hrun
  have hfresh : ({ View.fresh ⟨.v3, ∅, none⟩ 2000000 with
      asset := fun _ => some ⟨.fill 2, "", 7, true⟩ } : View).PositivePayments := by
    intro id record tx hrecord
    exact nomatch hrecord
  have hview := View.positivePayments_withPending hfresh
    (by decide : ∀ p ∈ owner.payments, 0 < p.amount) rest 0
  have hamount : (r.fee.toNat : Int) ≤ Amount.greatest := by
    rw [hfee]
    decide
  obtain ⟨owner', actions', howner, -, hlisted, hexplained⟩ :=
    result_explains_effect hview hr hstatus hamount
  obtain rfl : owner = owner' := Option.some.inj howner
  have hactions : ScriptResult.ofActions actions = .ofActions actions' :=
    Option.some.inj (hresults.symm.trans hlisted)
  rw [← hactions, hfee] at hexplained
  exact ⟨r, hr, hexplained, hvolume⟩

end

end MeteredLedger

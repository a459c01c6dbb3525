import MeteredLedger.Proofs.Blocks
import MeteredLedger.Proofs.Endings
import MeteredLedger.Proofs.Resumption

/-! # Transparency of suspension

    An invocation that is carried through several steps does to the ledger what
    it does in a single step, except for the fees. The limit of complexity
    decides how many steps are taken and what they cost, but not what comes of
    them.

    * `Carried`: the runs of an invocation through its steps.
    * `Stands`: the invariant of these runs.
    * `stands_of_carried`: it holds however many steps have been taken.
    * `suspension_is_transparent`: several steps do what a single one does. -/

namespace MeteredLedger

open Script (Evaluation Expr GoesOn Outcome ScriptError Task Value Version eval evaluate maxDepth
  run)

/-! ## Section 1: Runs through several steps -/

/-- The view with other limits for the complexity of a step. -/
def View.withComplexityLimit (v : View) (limit : Version → Option UInt64) : View :=
  { v with settings := { v.settings with complexityLimit := limit } }

/-- The invocation `tx` has been carried through steps that add up to a delta,
    each applied to the view that those before it have left. The fees of the
    steps and the status after the last one are kept. -/
inductive Carried (v : View) (tx : Invocation) : Delta → List UInt64 → Status → Prop where
  | first {r} : transition evaluate v (.invocation tx) = .ok r →
      Carried v tx r.delta [r.fee] r.status
  | next {d fees continuation r d'} : Carried v tx d fees .inProgress →
      continuation.invocation = tx.id →
      transition evaluate (v.stack d) (.continuation continuation) = .ok r →
      d.merge r.delta = .ok d' → Carried v tx d' (fees ++ [r.fee]) r.status

/-- The sum of a list of fees. -/
def totalFee : List UInt64 → Nat
  | [] => 0
  | fee :: fees => fee.toNat + totalFee fees

/-- What is taken for a list of fees. -/
def paidFor : List UInt64 → Int
  | [] => 0
  | fee :: fees => (Amount.ofFee fee).toInt + paidFor fees

/-- The callable of `tx` is `e`, and `verified` is what the approval by its sender
    has spent. -/
def Invocation.Starts (tx : Invocation) (v : View) (e : Expr) (verified : UInt64) : Prop :=
  ∃ dapp, v.account tx.dapp = some dapp ∧
    (Task.start dapp tx.call tx.callBindings).expr = .ok e ∧
    tx.authorize v evaluate ((v.account tx.sender).bind (·.verifier)) = .ok verified

/-! ## Section 2: The invariant -/

/-- The steps so far have spent `spent` of `e` and taken fees, and nothing else
    has happened. -/
structure Pending (tx : Invocation) (e : Expr) (verified : UInt64) (d : Delta) (paid : Int)
    (rest : Expr) (spent : Nat) : Prop where
  record : ∃ record, d.record tx.id = some record ∧ record.tx = .invocation tx
  progress : ∃ step unused, d.progress[tx.id]? = some (.suspended step rest unused)
  adds : d.Adds tx.sender .empty paid
  complexity : d.complexity = saturate64 (verified.toNat + spent)
  goesOn : GoesOn (eval [] maxDepth e) spent (eval [] maxDepth rest)
  levels : rest.levels ≤ maxDepth

/-- Where the invocation stands after some steps: it is pending, or it has ended
    as the value of its callable says. -/
inductive Stands (v : View) (tx : Invocation) (e : Expr) (verified : UInt64) (d : Delta)
    (paid : Int) : Status → Prop where
  | pending {rest spent} : Pending tx e verified d paid rest spent →
      Stands v tx e verified d paid .inProgress
  | ended {value spent status} : e.Costs spent value →
      d.Concludes v evaluate tx value (verified.toNat + spent) paid status →
      d.progress[tx.id]? = some .finished → Stands v tx e verified d paid status

theorem toNat_sub_min {budget unused : UInt64} {spent : Nat}
    (h : budget.toNat = spent + unused.toNat) : (budget - min unused budget).toNat = spent := by
  have hle : unused ≤ budget := UInt64.le_iff_toNat_le.2 (by omega)
  have hmin : min unused budget = unused := if_pos hle
  rw [hmin, UInt64.toNat_sub_of_le _ _ hle]
  omega

theorem adds_suspend (s : Step) (v : View) (fee : UInt64) (mark : Progress) :
    (s.suspend v fee mark).delta.Adds s.invocation.sender .empty (Amount.ofFee fee).toInt := by
  obtain ⟨hdata, hvolumes, hbalance⟩ := Delta.adds_charge s.invocation.sender fee
  exact ⟨hdata, hvolumes, hbalance⟩

theorem record_suspend_first (s : Step) (v : View) (fee : UInt64) (mark : Progress)
    {prepaid : Nat} (h : s.origin = .invocation prepaid) :
    (s.suspend v fee mark).delta.record s.invocation.id =
      some (s.newRecord v .inProgress fee s.parties) := by
  have hid : (s.newRecord v .inProgress fee s.parties).tx.id = s.invocation.id := by
    rw [Step.newRecord, h, Transaction.id]
  have hrewritten : s.rewrittenRecords v .inProgress s.parties = ∅ := by
    rw [Step.rewrittenRecords, h]
  simp [Step.suspend, Step.close, Delta.record, charge, Delta.balance, hrewritten, hid]

theorem rewritten_suspend_later (s : Step) (v : View) (fee : UInt64) (mark : Progress)
    {continuation : Continuation} {record : Record}
    (h : s.origin = .continuation continuation record) :
    (s.suspend v fee mark).delta.rewritten[s.invocation.id]? =
      some (record.join continuation.id .inProgress s.parties) := by
  simp only [Step.suspend, Step.close, Std.ExtTreeMap.getElem?_union,
    Step.getElem?_rewrittenRecords_later h, if_true, Option.some_or]

section Steps

variable {v : View} {tx : Invocation}

/-- **The first step**: the invocation is pending if it has been suspended, and
    has ended otherwise. -/
theorem stands_of_invocation {r : StepResult} (hactive : v.active .continuations = true)
    (hlevels : ∀ e verified, tx.Starts v e verified → e.levels ≤ maxDepth)
    (h : transition evaluate v (.invocation tx) = .ok r) :
    ∃ e verified, tx.Starts v e verified ∧
      Stands v tx e verified r.delta (Amount.ofFee r.fee).toInt r.status := by
  obtain ⟨a, verified, answer, hadmitted, hauthorize, hanswer, rfl⟩ := Invocation.apply_eq_ok h
  obtain ⟨e, he, hrun⟩ := Script.evaluate_eq_ok hanswer
  have hstarts : tx.Starts v e verified :=
    ⟨a.dapp, hadmitted.account, he, hadmitted.verifier ▸ hauthorize⟩
  refine ⟨e, verified, hstarts, ?_⟩
  let start : Step := { invocation := tx, origin := .invocation a.prepaid }
  cases answer with
  | completed value spent =>
    -- the approval by the sender is counted first, then the callable
    let s := (start.countRun verified).countRun spent
    have hcomplexity : s.complexity = verified.toNat + spent.toNat := by
      simp [s, start, Step.countRun]
    have hconcludes := concludes_of_complete s v evaluate value
    rw [hcomplexity] at hconcludes
    exact .ended (Script.price_of_run_completed hrun) hconcludes (Step.progress_complete s _ _ _)
  | suspended rest unused =>
    obtain ⟨spent, hbudget, hrest, hgo⟩ :=
      Script.goesOn_of_run_suspended (hlevels e verified hstarts) hrun
    let s := (start.countRun verified).countRun (a.budget - min unused a.budget)
    have hcomplexity : s.complexity = verified.toNat + spent := by
      simp [s, start, Step.countRun, toNat_sub_min hbudget]
    have hsuspends : Invocation.conclude (start.countRun verified) v evaluate a
        (.suspended rest unused) = s.suspend v
          (v.settings.fees.ofStep .invocation .firstSuspended a.prepaid)
          (.suspended 0 rest unused) := if_pos hactive
    rw [hsuspends]
    have hlimit := hlevels e verified hstarts
    exact .pending {
      record := ⟨_, record_suspend_first s v _ _ rfl, rfl⟩
      progress := ⟨0, unused, Step.progress_close⟩
      adds := adds_suspend s v _ _
      complexity := by rw [← hcomplexity]; rfl
      goesOn := hgo
      levels := by omega }

section Later

variable {e rest : Expr} {verified : UInt64} {d d' : Delta} {paid : Int} {spent : Nat} {s : Step}

/-- A pending invocation that is suspended again has spent what both have. -/
theorem pending_of_suspend {continuation : Continuation} {record : Record} {w : View} {fee : UInt64}
    {step : UInt32} {unused : UInt64} {rest' : Expr}
    (hpending : Pending tx e verified d paid rest spent) (hinvocation : s.invocation = tx)
    (horigin : s.origin = .continuation continuation record) (hrecord : record.tx = .invocation tx)
    (hgo : GoesOn (eval [] maxDepth rest) s.complexity (eval [] maxDepth rest'))
    (hlevels : rest'.levels ≤ maxDepth)
    (hmerge : d.merge (s.suspend w fee (.suspended step rest' unused)).delta = .ok d') :
    Pending tx e verified d' (paid + (Amount.ofFee fee).toInt) rest' (spent + s.complexity) := by
  subst hinvocation
  obtain ⟨-, -, -, -, hrewritten, hprogress, -, -, hcomplexity⟩ := Delta.merge_eq_ok_iff.1 hmerge
  refine ⟨?_, ?_, ?_, ?_, ?_, hlevels⟩
  · have hlater := rewritten_suspend_later s w fee (.suspended step rest' unused) horigin
    refine ⟨record.join continuation.id .inProgress s.parties, ?_, ?_⟩
    · rw [Delta.record, hrewritten, Std.ExtTreeMap.getElem?_union, hlater]
      rfl
    · rw [Record.tx_join, hrecord]
  · refine ⟨step, unused, ?_⟩
    rw [hprogress, Std.ExtTreeMap.getElem?_union]
    exact Option.or_eq_some_iff.2 (.inl Step.progress_close)
  · exact Delta.adds_of_merge hpending.adds (adds_suspend s w fee _) hmerge
  · rw [hcomplexity, hpending.complexity, ← Nat.add_assoc, ← saturate64_add _ s.complexity]
    rfl
  · exact Script.goesOn_trans hpending.goesOn hgo

/-- A pending invocation that completes has ended as the value says; the assets
    are still those below the steps so far, which have changed no volume. -/
theorem stands_of_complete {value : Except ScriptError Value}
    (hpending : Pending tx e verified d paid rest spent) (hinvocation : s.invocation = tx)
    (hcosts : rest.Costs s.complexity value)
    (hmerge : d.merge (s.complete (v.stack d) evaluate value).delta = .ok d') :
    Stands v tx e verified d'
      (paid + (Amount.ofFee (s.complete (v.stack d) evaluate value).fee).toInt)
      (s.complete (v.stack d) evaluate value).status := by
  subst hinvocation
  obtain ⟨-, -, -, -, -, hprogress, -, -, -⟩ := Delta.merge_eq_ok_iff.1 hmerge
  have hassets : (v.stack d).SameAssets v := View.sameAssets_stack hpending.adds.volumes
  have hconcludes := concludes_congr hassets (concludes_of_complete s _ evaluate value)
  have hmerged := concludes_of_merge hpending.adds hpending.complexity hconcludes hmerge
  rw [Nat.add_assoc] at hmerged
  refine .ended (Script.goesOn_trans hpending.goesOn hcosts) hmerged ?_
  rw [hprogress, Std.ExtTreeMap.getElem?_union]
  exact Option.or_eq_some_iff.2 (.inl (Step.progress_complete s _ _ _))

/-- **A later step**: a continuation that is accepted takes what remains of the
    callable further. -/
theorem stands_of_continuation {continuation : Continuation} {r : StepResult}
    (hpending : Pending tx e verified d paid rest spent)
    (hnames : continuation.invocation = tx.id)
    (h : transition evaluate (v.stack d) (.continuation continuation) = .ok r)
    (hmerge : d.merge r.delta = .ok d') :
    Stands v tx e verified d' (paid + (Amount.ofFee r.fee).toInt) r.status := by
  obtain ⟨a, answer, hadmitted, hanswer, rfl⟩ := Continuation.apply_eq_ok h
  obtain ⟨rest', he, hrun⟩ := Script.evaluate_eq_ok hanswer
  obtain rfl : a.rest = rest' := Except.ok.inj he
  -- what the continuation finds under the name that it gives is what the steps so far have left
  have hinvocation : a.invocation = tx := by
    obtain ⟨record, hrecord, htx⟩ := hpending.record
    have hknown := hadmitted.known
    rw [hnames] at hknown
    simp only [View.stack, hrecord, Option.some_or] at hknown
    obtain rfl := Option.some.inj hknown
    exact Transaction.invocation.inj (hadmitted.invocation.symm.trans htx)
  obtain rfl : a.rest = rest := by
    obtain ⟨step, unused, hprogress⟩ := hpending.progress
    obtain ⟨unused', -, hprogress', -⟩ := hadmitted.pending
    rw [hnames] at hprogress'
    simp only [View.stack, hprogress, Option.some_or] at hprogress'
    exact (Progress.suspended.inj (Option.some.inj hprogress')).2.1.symm
  let start : Step := { invocation := a.invocation, origin := .continuation continuation a.record }
  cases answer with
  | completed value spent' =>
    have hcosts : a.rest.Costs (start.countRun spent').complexity value := by
      simpa [start, Step.countRun] using Script.price_of_run_completed hrun
    exact stands_of_complete hpending hinvocation hcosts hmerge
  | suspended rest' unused =>
    obtain ⟨spent', hbudget, hrest, hgo⟩ := Script.goesOn_of_run_suspended hpending.levels hrun
    let s := start.countRun (a.budget - min unused a.budget)
    have hcomplexity : s.complexity = spent' := by
      simp [s, start, Step.countRun, toNat_sub_min hbudget]
    rw [← hcomplexity] at hgo
    have hlevels := Nat.le_trans hrest hpending.levels
    exact .pending (pending_of_suspend hpending hinvocation rfl
      (hinvocation ▸ hadmitted.invocation) hgo hlevels hmerge)

end Later

end Steps

theorem paidFor_concat (fees : List UInt64) (fee : UInt64) :
    paidFor (fees ++ [fee]) = paidFor fees + (Amount.ofFee fee).toInt := by
  induction fees with
  | nil => simp [paidFor]
  | cons first fees ih =>
    rw [List.cons_append, paidFor, paidFor, ih]
    omega

/-- An invocation that has concluded is no longer in progress. -/
theorem Delta.Concludes.ne_inProgress {v : View} {evaluator : Script.Evaluator} {tx : Invocation}
    {value : Except ScriptError Value} {complexity : Nat} {paid : Int} {d : Delta} {status : Status}
    (h : d.Concludes v evaluator tx value complexity paid status) : status ≠ .inProgress := by
  cases h <;> exact nofun

/-- **However many steps have been taken**, the invocation is pending or has
    ended as the value of its callable says. -/
theorem stands_of_carried {v : View} {tx : Invocation} {d : Delta} {fees : List UInt64}
    {status : Status} (hactive : v.active .continuations = true)
    (hlevels : ∀ e verified, tx.Starts v e verified → e.levels ≤ maxDepth)
    (h : Carried v tx d fees status) :
    ∃ e verified, tx.Starts v e verified ∧ Stands v tx e verified d (paidFor fees) status := by
  -- induction on the steps taken
  induction h with
  | @first r htransition =>
    have hpaid : paidFor [r.fee] = (Amount.ofFee r.fee).toInt := by simp [paidFor]
    rw [hpaid]
    exact stands_of_invocation hactive hlevels htransition
  | next hcarried hnames htransition hmerge ih =>
    obtain ⟨e, verified, hstarts, hstands⟩ := ih
    refine ⟨e, verified, hstarts, ?_⟩
    rw [paidFor_concat]
    cases hstands with
    | pending hpending => exact stands_of_continuation hpending hnames htransition hmerge
    -- there is no step after the last one
    | ended _ hconcludes _ => exact absurd rfl hconcludes.ne_inProgress

/-! ## Section 3: Comparing runs -/

/-- Two deltas of the invocation `tx` are the same, except that the fees taken
    for them may differ. -/
structure Delta.SameUpToFees (a b : Delta) (tx : Invocation) (paid paid' : Int) : Prop where
  data : a.data = b.data
  volumes : a.volumes = b.volumes
  result : a.results[tx.id]? = b.results[tx.id]?
  progress : a.progress[tx.id]? = b.progress[tx.id]?
  complexity : a.complexity = b.complexity
  balance : ∀ address asset, ¬(address = tx.sender ∧ asset = .native) →
    a.balanceChange address asset = b.balanceChange address asset
  sender : (a.balanceChange tx.sender .native).toInt + paid =
    (b.balanceChange tx.sender .native).toInt + paid'

/-- What has the same effects differs in nothing but the fees. -/
theorem sameUpToFees_of_adds {a b effects : Delta} {tx : Invocation} {paid paid' : Int}
    (ha : a.Adds tx.sender effects paid) (hb : b.Adds tx.sender effects paid')
    (hresult : a.results[tx.id]? = b.results[tx.id]?)
    (hprogress : a.progress[tx.id]? = b.progress[tx.id]?)
    (hcomplexity : a.complexity = b.complexity) : a.SameUpToFees b tx paid paid' where
  data := by rw [ha.data, hb.data]
  volumes := by rw [ha.volumes, hb.volumes]
  result := hresult
  progress := hprogress
  complexity := hcomplexity
  balance address asset hne := by
    apply Int64.toInt_inj.1
    rw [ha.balance, hb.balance, if_neg hne, if_neg hne]
  sender := by
    rw [ha.balance, hb.balance, if_pos ⟨rfl, rfl⟩, if_pos ⟨rfl, rfl⟩]
    omega

section Compare

variable {v : View} {evaluator : Script.Evaluator} {tx : Invocation}
  {value : Except ScriptError Value} {complexity : Nat} {a b : Delta} {paid paid' : Int}
  {status status' : Status}

/-- Two runs that apply the actions of the same value do the same. -/
theorem sameUpToFees_of_succeeded
    (ha : a.Concludes v evaluator tx value complexity paid .succeeded)
    (hb : b.Concludes v evaluator tx value complexity paid' .succeeded)
    (hprogress : a.progress[tx.id]? = b.progress[tx.id]?) : a.SameUpToFees b tx paid paid' := by
  cases ha with
  | succeeded hvalue hbatch hadds hcomplexity hresult =>
    cases hb with
    | succeeded hvalue' hbatch' hadds' hcomplexity' hresult' =>
      obtain rfl := Except.ok.inj (hvalue.symm.trans hvalue')
      obtain rfl := Except.ok.inj (hbatch.symm.trans hbatch')
      exact sameUpToFees_of_adds hadds hadds' (hresult.trans hresult'.symm) hprogress
        (hcomplexity.trans hcomplexity'.symm)

/-- If one run reports an error of the callable, the other reports the same. -/
theorem sameUpToFees_of_scriptError {result : ScriptResult} {message : ErrorMessage}
    (ha : a.Concludes v evaluator tx value complexity paid status)
    (hb : b.Concludes v evaluator tx value complexity paid' status')
    (hresult : b.results[tx.id]? = some result) (herror : result.error = some message)
    (hcode : message.code = 1) (hprogress : a.progress[tx.id]? = b.progress[tx.id]?) :
    status = .failed ∧ status' = .failed ∧ a.SameUpToFees b tx paid paid' := by
  cases hb with
  | scriptError hvalue' hadds' hcomplexity' hresult' =>
    cases ha with
    | scriptError hvalue hadds hcomplexity hresult'' =>
      obtain rfl := Except.error.inj (hvalue.symm.trans hvalue')
      exact ⟨rfl, rfl, sameUpToFees_of_adds hadds hadds' (hresult''.trans hresult'.symm) hprogress
        (hcomplexity.trans hcomplexity'.symm)⟩
    | otherError hvalue _ _ => exact nomatch hvalue.symm.trans hvalue'
    | succeeded hvalue _ _ _ _ => exact nomatch hvalue.symm.trans hvalue'
  | otherError hvalue' hreason hresult' =>
    -- other errors have other codes
    obtain rfl := Option.some.inj (hresult'.symm.trans hresult)
    obtain rfl := Option.some.inj herror
    exact absurd hcode hreason
  | succeeded hvalue' hbatch hadds' hcomplexity' hresult' =>
    obtain rfl := Option.some.inj (hresult'.symm.trans hresult)
    rw [error_of_applyBatch hbatch] at herror
    exact nomatch herror

end Compare

theorem paidFor_eq_totalFee {fees : List UInt64}
    (h : ∀ fee ∈ fees, (fee.toNat : Int) ≤ Amount.greatest) : paidFor fees = totalFee fees := by
  induction fees with
  | nil => rfl
  | cons fee fees ih =>
    have hfee := Amount.toInt_ofFee (h fee List.mem_cons_self)
    have hfees := ih fun fee' hmem => h fee' (List.mem_cons_of_mem fee hmem)
    rw [paidFor, totalFee, hfee, hfees, Int.natCast_add]

/-- What the callable is and what the approval spends does not depend on the
    limit of a step. -/
theorem Invocation.Starts.unique {tx : Invocation} {v : View} {limit : Version → Option UInt64}
    {e e' : Expr} {verified verified' : UInt64} (h : tx.Starts v e verified)
    (h' : tx.Starts (v.withComplexityLimit limit) e' verified') :
    e = e' ∧ verified = verified' := by
  obtain ⟨dapp, hdapp, he, hverified⟩ := h
  obtain ⟨dapp', hdapp', he', hverified'⟩ := h'
  obtain rfl := Option.some.inj (hdapp.symm.trans hdapp')
  exact ⟨Except.ok.inj (he.symm.trans he'), Except.ok.inj (hverified.symm.trans hverified')⟩

theorem View.sameAssets_withComplexityLimit (v : View) (limit : Version → Option UInt64) :
    (v.withComplexityLimit limit).SameAssets v := ⟨rfl, rfl, rfl, rfl⟩

/-- **Suspension is transparent**: an invocation carried through several steps
    and the same invocation under a limit that lets it end in a single step do
    the same, except for the fees, whenever both succeed; and if the single step
    reports an error of the callable, the several steps report it too. -/
theorem suspension_is_transparent {v : View} {limit : Version → Option UInt64} {tx : Invocation}
    {d : Delta} {fees : List UInt64} {status : Status} {whole : StepResult}
    (hactive : v.active .continuations = true)
    (hlevels : ∀ dapp e, v.account tx.dapp = some dapp →
      (Task.start dapp tx.call tx.callBindings).expr = .ok e → e.levels ≤ maxDepth)
    (hsteps : Carried v tx d fees status) (hended : status ≠ .inProgress)
    (hwhole : transition evaluate (v.withComplexityLimit limit) (.invocation tx) = .ok whole)
    (hcompletes : whole.status ≠ .inProgress)
    (hfees : ∀ fee ∈ whole.fee :: fees, (fee.toNat : Int) ≤ Amount.greatest) :
    (status = .succeeded → whole.status = .succeeded →
      d.SameUpToFees whole.delta tx (totalFee fees) whole.fee.toNat) ∧
    ∀ result message, whole.delta.results[tx.id]? = some result → result.error = some message →
      message.code = 1 → status = .failed ∧ whole.status = .failed ∧
        d.SameUpToFees whole.delta tx (totalFee fees) whole.fee.toNat := by
  have hstarts : ∀ e verified, tx.Starts v e verified → e.levels ≤ maxDepth := by
    rintro e verified ⟨dapp, hdapp, he, -⟩
    exact hlevels dapp e hdapp he
  obtain ⟨e, verified, he, hstands⟩ := stands_of_carried hactive hstarts hsteps
  -- the single step is a run as well, of the same callable under another limit
  obtain ⟨e', verified', he', hstands'⟩ := stands_of_carried (v := v.withComplexityLimit limit)
    hactive hstarts (.first hwhole)
  obtain ⟨rfl, rfl⟩ := he.unique he'
  have hpaid : paidFor fees = totalFee fees :=
    paidFor_eq_totalFee fun fee hmem => hfees fee (List.mem_cons_of_mem _ hmem)
  have hpaid' : paidFor [whole.fee] = whole.fee.toNat := by
    rw [paidFor, paidFor, Amount.toInt_ofFee (hfees _ List.mem_cons_self), Int.add_zero]
  rw [hpaid] at hstands
  rw [hpaid'] at hstands'
  cases hstands with
  | pending _ => exact absurd rfl hended
  | ended hgo hconcludes hfinished =>
    generalize hstatus : whole.status = status' at *
    cases hstands' with
    | pending _ => exact absurd rfl hcompletes
    | ended hgo' hconcludes' hfinished' =>
      -- both runs have found the same value at the same price
      obtain ⟨rfl, rfl⟩ := Script.price_unique hgo hgo'
      have hwhole' := concludes_congr (v.sameAssets_withComplexityLimit limit) hconcludes'
      have hprogress := hfinished.trans hfinished'.symm
      refine ⟨?_, ?_⟩
      · rintro rfl rfl
        exact sameUpToFees_of_succeeded hconcludes hwhole' hprogress
      · intro result message hresult herror hcode
        exact sameUpToFees_of_scriptError hconcludes hwhole' hresult herror hcode hprogress

/-- A callable that writes a data entry, once in two steps and once in a single
    one. -/
theorem suspension_is_transparent_of_entry :
    let write := Expr.call .dataEntry [.const (.str "key"), .const (.int 1)]
    let dapp : Script.DApp := ⟨.v3, (∅ : SortedMap String Script.Callable).insert "f"
      ⟨[], .call .list [write]⟩, none⟩
    let v := (View.fresh dapp 2000000).withComplexityLimit fun _ => some 1
    let tx : Invocation := ⟨.fill 7, .fill 1, .fill 2, ⟨"f", []⟩, [], 1000000, 0⟩
    ∃ d whole, Carried v tx d [900000, 900000] .succeeded ∧
      transition evaluate (v.withComplexityLimit fun _ => some 10) (.invocation tx) = .ok whole ∧
      whole.status = .succeeded ∧ whole.fee = 1000000 ∧
      d.SameUpToFees whole.delta tx 1800000 1000000 := by
  intro write dapp v tx
  let continuation : Continuation := ⟨.fill 8, tx.id, 0, 900000, 0⟩
  have hrun : (do
      let first ← transition evaluate v (.invocation tx)
      let second ← transition evaluate (v.stack first.delta) (.continuation continuation)
      let d ← (first.delta.merge second.delta).mapError Rejection.overflow
      let whole ← transition evaluate (v.withComplexityLimit fun _ => some 10) (.invocation tx)
      pure (first.status, first.fee, second.status, second.fee, whole.status, whole.fee)).toOption =
        some (.inProgress, 900000, .succeeded, 900000, .succeeded, 1000000) := by decide +kernel
  obtain ⟨first, hfirst, hrun⟩ := bind_eq_ok_iff.1 (toOption_eq_some_iff.1 hrun)
  obtain ⟨second, hsecond, hrun⟩ := bind_eq_ok_iff.1 hrun
  obtain ⟨d, hmerge, hrun⟩ := bind_eq_ok_iff.1 hrun
  obtain ⟨whole, hwhole, hrun⟩ := bind_eq_ok_iff.1 hrun
  have hvalues := Except.ok.inj hrun
  simp only [Prod.mk.injEq] at hvalues
  obtain ⟨hpending, hfee, hended, hfee', hstatus, hwholefee⟩ := hvalues
  have hcarried : Carried v tx d [900000, 900000] .succeeded := by
    have hbegun := Carried.first hfirst
    rw [hpending, hfee] at hbegun
    have hcontinued := Carried.next hbegun rfl hsecond (mapError_eq_ok_iff.1 hmerge)
    rwa [hended, hfee'] at hcontinued
  have hlevels : ∀ dapp' e, v.account tx.dapp = some dapp' →
      (Task.start dapp' tx.call tx.callBindings).expr = .ok e → e.levels ≤ maxDepth := by
    intro dapp' e hdapp he
    obtain rfl := Option.some.inj hdapp
    have hbound : ((Task.start dapp tx.call tx.callBindings).expr.toOption.all fun e =>
        decide (e.levels ≤ maxDepth)) = true := by decide +kernel
    rw [toOption_eq_some_iff.2 he] at hbound
    exact of_decide_eq_true hbound
  have hfees : ∀ fee ∈ whole.fee :: [900000, 900000], (fee.toNat : Int) ≤ Amount.greatest := by
    rw [hwholefee]
    simp [Amount.greatest]
  have htransparent := suspension_is_transparent rfl hlevels hcarried nofun hwhole
    (by rw [hstatus]; exact nofun) hfees
  have hsame := htransparent.1 rfl hstatus
  rw [hwholefee] at hsame
  exact ⟨d, whole, hcarried, hwhole, hstatus, hwholefee, hsame⟩

end MeteredLedger

import MeteredLedger.Proofs.Blocks

/-! # Transactions left out

    A block leaves out the transactions that it rejects, whether they are
    rejected for themselves or because their effects do not merge with those
    before them. What is left out leaves no trace: the block of the transactions
    that are applied has the same effects, in the same order and for the same
    fees, and rejects nothing.

    * `BlockResult.appliesAt`: the positions at which a block applies its
      transaction. One transaction may be applied at one position and rejected
      at another.
    * `BlockResult.appliedOf`: the transactions at these positions.
    * `after_appliedOf`: applying them alone comes to the same, by induction on
      the block from its end.
    * `block_of_applied`: the same for whole blocks, with their fees paid out. -/

namespace MeteredLedger

open Script (Evaluator)

namespace BlockResult

/-! ## Section 1: Positions -/

/-- Whether a block applies the transaction at a position: with it, more
    transactions have been applied than without it. -/
def appliesAt (evaluator : Evaluator) (view : View) (txs : List Transaction) (i : Nat) : Bool :=
  match after evaluator view (txs.take i), after evaluator view (txs.take (i + 1)) with
  | .ok b, .ok b' => b.applied.length < b'.applied.length
  | _, _ => false

/-- The transactions at the positions where a block applies them. -/
def appliedOf (evaluator : Evaluator) (view : View) (txs : List Transaction) : List Transaction :=
  (txs.zipIdx.filter fun p => appliesAt evaluator view txs p.2).map (·.1)

variable {evaluator : Evaluator} {view : View} {txs : List Transaction} {tx : Transaction}
  {b b' : BlockResult}

/-- Whether a transaction is applied does not depend on those after it. -/
theorem appliesAt_append {i : Nat} (hi : i < txs.length) (later : List Transaction) :
    appliesAt evaluator view (txs ++ later) i = appliesAt evaluator view txs i := by
  unfold appliesAt
  rw [List.take_append_of_le_length (Nat.le_of_lt hi), List.take_append_of_le_length hi]

theorem appliedOf_concat :
    appliedOf evaluator view (txs ++ [tx]) =
      appliedOf evaluator view txs ++
        if appliesAt evaluator view (txs ++ [tx]) txs.length then [tx] else [] := by
  have hearlier : ∀ p ∈ txs.zipIdx, appliesAt evaluator view (txs ++ [tx]) p.2 =
      appliesAt evaluator view txs p.2 := by
    intro p hp
    have hlt := List.snd_lt_of_mem_zipIdx hp
    exact appliesAt_append hlt [tx]
  unfold appliedOf
  rw [List.zipIdx_append, List.filter_append, List.map_append, List.filter_congr hearlier]
  congr 1
  simp only [Nat.zero_add, List.zipIdx_cons, List.zipIdx_nil, List.filter_cons, List.filter_nil]
  split
  · rfl
  · rfl

theorem appliesAt_length (h : after evaluator view txs = .ok b)
    (h' : b.next evaluator view tx = .ok b') :
    appliesAt evaluator view (txs ++ [tx]) txs.length =
      decide (b.applied.length < b'.applied.length) := by
  unfold appliesAt
  rw [List.take_left, List.take_of_length_le (by simp), h, after_concat h tx, h']

/-! ## Section 2: What is applied by itself -/

/-- The block without what it has rejected. -/
def clean (b : BlockResult) : BlockResult := { b with rejected := [] }

/-- **What is left out leaves no trace**: the transactions that are applied come
    to the same by themselves, and they are the ones that the block names. -/
theorem after_appliedOf (h : after evaluator view txs = .ok b) :
    after evaluator view (appliedOf evaluator view txs) = .ok b.clean ∧
      (appliedOf evaluator view txs).map (·.id) = b.applied.map (·.1) := by
  -- induction from the end of the block, whose last transaction does not change what the block has
  -- done before it
  induction txs using List.reverseRecOn generalizing b with
  | nil =>
    obtain rfl := Except.ok.inj h
    exact ⟨rfl, rfl⟩
  | append_singleton txs tx ih =>
    obtain ⟨b₁, hbefore, -⟩ := foldlM_append_eq_ok_iff.1 h
    have hnext : b₁.next evaluator view tx = .ok b := (after_concat hbefore tx).symm.trans h
    obtain ⟨hsame, hnames⟩ := ih hbefore
    have hposition := appliesAt_length hbefore hnext
    cases goes_of_next hnext with
    | @applied r d htransition hmerge =>
      rw [appliedOf_concat, hposition, if_pos (by simp)]
      constructor
      · rw [after_concat hsame tx]
        exact next_of_merge (b := b₁.clean) htransition hmerge
      · rw [List.map_append, List.map_append, hnames]
        rfl
    | refused _ _ =>
      rw [appliedOf_concat, hposition, if_neg (by simp [reject]), List.append_nil]
      exact ⟨hsame, hnames⟩
    | rejected _ _ =>
      rw [appliedOf_concat, hposition, if_neg (by simp [reject]), List.append_nil]
      exact ⟨hsame, hnames⟩

/-- The transactions that are applied stand in the order of the block. -/
theorem appliedOf_sublist : (appliedOf evaluator view txs).Sublist txs := by
  have hpositions := (List.filter_sublist (p := fun p => appliesAt evaluator view txs p.2)
    (l := txs.zipIdx)).map (·.1)
  rwa [List.zipIdx_map_fst] at hpositions

end BlockResult

/-! ## Section 3: Whole blocks -/

section

variable {evaluator : Evaluator} {view : View} {txs : List Transaction} {b : BlockResult}

/-- Once its transactions are applied, a block only has to pay out their fees. -/
theorem transitionBlock_of_after {d : Delta} (hafter : BlockResult.after evaluator view txs = .ok b)
    (hmerge : b.delta.merge (.balance view.header.generator .native (.ofFee b.totalFee)) = .ok d) :
    transitionBlock evaluator view txs = .ok { b with delta := d } := by
  refine bind_eq_ok_iff.2 ⟨b, hafter, ?_⟩
  exact bind_eq_ok_iff.2 ⟨d, mapError_eq_ok_iff.2 hmerge, rfl⟩

/-- **A block is the block of what it applies**: the transactions at the positions
    where it applies them, in their order, make a block with the same effects, the
    same statuses and the same fees, which leaves nothing out. -/
theorem block_of_applied (h : transitionBlock evaluator view txs = .ok b) :
    (BlockResult.appliedOf evaluator view txs).Sublist txs ∧
      (BlockResult.appliedOf evaluator view txs).map (·.id) = b.applied.map (·.1) ∧
      transitionBlock evaluator view (BlockResult.appliedOf evaluator view txs) =
        .ok { b with rejected := [] } := by
  obtain ⟨b₀, d, hafter, hmerge, rfl⟩ := transitionBlock_eq_ok h
  obtain ⟨hsame, hnames⟩ := BlockResult.after_appliedOf hafter
  exact ⟨BlockResult.appliedOf_sublist, hnames, transitionBlock_of_after hsame hmerge⟩

/-- A block with an invocation that is applied, the same invocation again, and a
    third one whose effects do not merge with those of the first. -/
theorem block_of_applied_of_burns :
    let i64Max : Amount := 9223372036854775807
    let view := { View.fresh ⟨.v3, ∅, none⟩ i64Max with
      asset := fun _ => some ⟨.fill 2, "", i64Max, true⟩ }
    let tx : Invocation := ⟨.fill 7, .fill 1, .fill 2, ⟨"", []⟩, [], 900000, 0⟩
    let tx' : Invocation := ⟨.fill 8, .fill 1, .fill 3, ⟨"", []⟩, [], 900000, 0⟩
    let evaluator : Evaluator := fun _ _ => .ok (.completed (.ok (.list
      [.action (.burn (.fill 9) i64Max)])) 0)
    let txs := [.invocation tx, .invocation tx, .invocation tx']
    ∃ b, transitionBlock evaluator view txs = .ok b ∧
      b.applied = [(tx.id, .succeeded)] ∧
      b.rejected = [(tx.id, .alreadyApplied), (tx'.id, .overflow (.volume (.fill 9)))] ∧
      BlockResult.appliedOf evaluator view txs = [.invocation tx] ∧
      transitionBlock evaluator view [.invocation tx] = .ok { b with rejected := [] } := by
  intro i64Max view tx tx' evaluator txs
  have hrun : (transitionBlock evaluator view txs).toOption.map
      (fun b => (b.applied, b.rejected)) = some ([(tx.id, .succeeded)],
        [(tx.id, .alreadyApplied), (tx'.id, .overflow (.volume (.fill 9)))]) := by
    decide +kernel
  have hpositions : BlockResult.appliedOf evaluator view txs = [.invocation tx] := by
    decide +kernel
  obtain ⟨b, hblock, hrun⟩ := Option.map_eq_some_iff.1 hrun
  have hb := toOption_eq_some_iff.1 hblock
  obtain ⟨happlied, hrejected⟩ : b.applied = _ ∧ b.rejected = _ := by simpa using hrun
  have hsame := (block_of_applied hb).2.2
  rw [hpositions] at hsame
  exact ⟨b, hb, happlied, hrejected, hpositions, hsame⟩

end

end MeteredLedger

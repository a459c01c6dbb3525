/-!
# Conditions

A computation that may end with an error goes on only while its conditions hold. The lemmas say when
it gets past a condition, and with what error it ends otherwise.
-/

namespace MeteredLedger

variable {ε α β : Type}

/-- Goes on only if a condition holds. -/
def demand (condition : Bool) (error : ε) : Except ε Unit :=
  if condition then .ok () else .error error

/-- Goes on with a value only if there is one. -/
def demandSome (value : Option α) (error : ε) : Except ε α :=
  value.elim (.error error) .ok

@[simp] theorem demand_eq_ok_iff {condition : Bool} {error : ε} {u : Unit} :
    demand condition error = .ok u ↔ condition = true := by
  cases condition <;> simp [demand]

@[simp] theorem demandSome_eq_ok_iff {value : Option α} {error : ε} {a : α} :
    demandSome value error = .ok a ↔ value = some a := by
  cases value <;> simp [demandSome]

theorem demandSome_eq_error_iff {value : Option α} {error error' : ε} :
    demandSome value error = .error error' ↔ value = none ∧ error = error' := by
  cases value <;> simp [demandSome]

theorem demand_bind_eq_ok_iff {condition : Bool} {error : ε} {next : Unit → Except ε β} {b : β} :
    demand condition error >>= next = .ok b ↔ condition = true ∧ next () = .ok b := by
  cases condition <;> simp [demand, bind, Except.bind]

theorem demandSome_bind_eq_ok_iff {value : Option α} {error : ε} {next : α → Except ε β} {b : β} :
    demandSome value error >>= next = .ok b ↔ ∃ a, value = some a ∧ next a = .ok b := by
  cases value <;> simp [demandSome, bind, Except.bind]

theorem bind_eq_ok_iff {x : Except ε α} {next : α → Except ε β} {b : β} :
    x >>= next = .ok b ↔ ∃ a, x = .ok a ∧ next a = .ok b := by
  cases x <;> simp [bind, Except.bind]

theorem bind_eq_error_iff {x : Except ε α} {next : α → Except ε β} {error : ε} :
    x >>= next = .error error ↔ x = .error error ∨ ∃ a, x = .ok a ∧ next a = .error error := by
  cases x <;> simp [bind, Except.bind]

theorem map_eq_ok_iff {x : Except ε α} {f : α → β} {b : β} :
    x.map f = .ok b ↔ ∃ a, x = .ok a ∧ f a = b := by
  cases x <;> simp [Except.map]

theorem mapError_eq_ok_iff {ε' : Type} {x : Except ε α} {f : ε → ε'} {a : α} :
    x.mapError f = .ok a ↔ x = .ok a := by
  cases x with
  | error e => exact ⟨nofun, nofun⟩
  | ok b => exact ⟨fun h => congrArg _ (Except.ok.inj h), fun h => congrArg _ (Except.ok.inj h)⟩

theorem mapError_eq_error_iff {ε' : Type} {x : Except ε α} {f : ε → ε'} {error : ε'} :
    x.mapError f = .error error ↔ ∃ e, x = .error e ∧ f e = error := by
  cases x with
  | error e =>
    constructor
    · intro h
      exact ⟨e, rfl, Except.error.inj h⟩
    · rintro ⟨e', he, rfl⟩
      exact congrArg (Except.error ∘ f) (Except.error.inj he)
  | ok a => exact ⟨nofun, nofun⟩

theorem toOption_eq_some_iff {x : Except ε α} {a : α} : x.toOption = some a ↔ x = .ok a := by
  cases x <;> simp [Except.toOption]

/-- What has been computed from a result has been computed from one. -/
theorem exists_eq_ok_of_map {x : Except ε α} {f : α → β} {b : β}
    (h : x.toOption.map f = some b) : ∃ a, x = .ok a ∧ f a = b := by
  obtain ⟨a, ha, hb⟩ := Option.map_eq_some_iff.1 h
  exact ⟨a, toOption_eq_some_iff.1 ha, hb⟩

/-- What every step keeps is kept by a whole run of steps. -/
theorem foldlM_keeps {step : β → α → Except ε β} {P : β → Prop} {l : List α}
    (hstep : ∀ x a y, a ∈ l → P x → step x a = .ok y → P y) {x y : β} (hx : P x)
    (h : l.foldlM step x = .ok y) : P y := by
  induction l generalizing x with
  | nil => exact Except.ok.inj h ▸ hx
  | cons a l ih =>
    rw [List.foldlM_cons, bind_eq_ok_iff] at h
    obtain ⟨x', hx', h⟩ := h
    exact ih (fun x b y hb => hstep x b y (List.mem_cons_of_mem a hb))
      (hstep x a x' List.mem_cons_self hx hx') h

/-- A run of steps that gets to the end gets past its first steps. -/
theorem foldlM_append_eq_ok_iff {step : β → α → Except ε β} {l l' : List α} {x z : β} :
    (l ++ l').foldlM step x = .ok z ↔
      ∃ y, l.foldlM step x = .ok y ∧ l'.foldlM step y = .ok z := by
  rw [List.foldlM_append, bind_eq_ok_iff]

/-- A run that gets to the end has taken every step, from where the steps before it lead. -/
theorem exists_step_of_foldlM {step : β → α → Except ε β} {l l' : List α} {a : α} {x z : β}
    (h : (l ++ a :: l').foldlM step x = .ok z) :
    ∃ y y', l.foldlM step x = .ok y ∧ step y a = .ok y' := by
  obtain ⟨y, hbefore, hrest⟩ := foldlM_append_eq_ok_iff.1 h
  rw [List.foldlM_cons] at hrest
  obtain ⟨y', hstep, -⟩ := bind_eq_ok_iff.1 hrest
  exact ⟨y, y', hbefore, hstep⟩

/-- A list of conditions holds if each of them does. -/
theorem forM_eq_ok_iff {f : α → Except ε Unit} {l : List α} {u : Unit} :
    l.forM f = .ok u ↔ ∀ a ∈ l, f a = .ok () := by
  induction l with
  | nil => exact iff_of_true rfl fun _ h => nomatch h
  | cons a l ih =>
    show f a >>= (fun _ => l.forM f) = .ok u ↔ _
    rw [bind_eq_ok_iff, List.forall_mem_cons]
    exact ⟨fun ⟨_, ha, hl⟩ => ⟨ha, ih.1 hl⟩, fun ⟨ha, hl⟩ => ⟨_, ha, ih.2 hl⟩⟩

/-- A list is filtered if the condition of each of its items can be computed. -/
theorem filterMapM_eq_ok_iff {f : α → Except ε (Option β)} {l : List α} {out : List β} :
    l.filterMapM f = .ok out ↔
      (∀ a ∈ l, ∃ b, f a = .ok b) ∧ out = l.filterMap fun a => (f a).toOption.join := by
  induction l generalizing out with
  | nil => simp [pure, Except.pure, eq_comm]
  | cons a l ih =>
    rw [List.filterMapM_cons, bind_eq_ok_iff, List.forall_mem_cons]
    cases hfirst : f a with
    | error error => simp
    | ok b =>
      cases b with
      | none => simp [hfirst, Except.toOption, ih]
      | some b =>
        simp only [Except.ok.injEq, exists_eq_left', bind_eq_ok_iff, ih, List.filterMap_cons,
          hfirst, Except.toOption, Option.join_some, exists_eq', true_and]
        constructor
        · rintro ⟨out', ⟨hrest, rfl⟩, hout⟩
          exact ⟨hrest, (Except.ok.inj hout).symm⟩
        · rintro ⟨hrest, rfl⟩
          exact ⟨_, ⟨hrest, rfl⟩, rfl⟩

/-- Otherwise one of its items is in error. -/
theorem exists_of_filterMapM_eq_error {f : α → Except ε (Option β)} {l : List α} {error : ε}
    (h : l.filterMapM f = .error error) : ∃ a ∈ l, f a = .error error := by
  induction l with
  | nil => exact nomatch h
  | cons a l ih =>
    rw [List.filterMapM_cons, bind_eq_error_iff] at h
    rcases h with hfirst | ⟨b, -, h⟩
    · exact ⟨a, List.mem_cons_self, hfirst⟩
    · have hrest : l.filterMapM f = .error error := by
        cases b with
        | none => exact h
        | some b => exact (bind_eq_error_iff.1 h).resolve_right fun ⟨_, _, hout⟩ => nomatch hout
      obtain ⟨a', ha', hlater⟩ := ih hrest
      exact ⟨a', List.mem_cons_of_mem a ha', hlater⟩

/-! ## Which errors are possible -/

/-- Every error that the computation can end with satisfies `P`. -/
def FailsOnlyWith (P : ε → Prop) (x : Except ε α) : Prop :=
  ∀ error, x = .error error → P error

section

variable {P : ε → Prop}

theorem failsOnlyWith_ok (a : α) : FailsOnlyWith P (.ok a) := nofun

theorem failsOnlyWith_error {error : ε} (h : P error) :
    FailsOnlyWith P (.error error : Except ε α) := by
  intro error' heq
  exact Except.error.inj heq ▸ h

theorem failsOnlyWith_bind {x : Except ε α} {next : α → Except ε β} (hx : FailsOnlyWith P x)
    (hnext : ∀ a, FailsOnlyWith P (next a)) : FailsOnlyWith P (x >>= next) := by
  cases x with
  | error error => exact failsOnlyWith_error (hx error rfl)
  | ok a => exact hnext a

theorem failsOnlyWith_map {x : Except ε α} {f : α → β} (hx : FailsOnlyWith P x) :
    FailsOnlyWith P (x.map f) := by
  cases x with
  | error error => exact failsOnlyWith_error (hx error rfl)
  | ok a => exact failsOnlyWith_ok (f a)

theorem failsOnlyWith_mapError {ε' : Type} {x : Except ε' α} {f : ε' → ε}
    (h : ∀ error, P (f error)) : FailsOnlyWith P (x.mapError f) := by
  cases x with
  | error error => exact failsOnlyWith_error (h error)
  | ok a => exact failsOnlyWith_ok a

theorem failsOnlyWith_demand {condition : Bool} {error : ε} (h : P error) :
    FailsOnlyWith P (demand condition error) := by
  cases condition with
  | false => exact failsOnlyWith_error h
  | true => exact failsOnlyWith_ok ()

theorem failsOnlyWith_demandSome {value : Option α} {error : ε} (h : P error) :
    FailsOnlyWith P (demandSome value error) := by
  cases value with
  | none => exact failsOnlyWith_error h
  | some a => exact failsOnlyWith_ok a

theorem failsOnlyWith_foldlM {step : β → α → Except ε β} (h : ∀ x a, FailsOnlyWith P (step x a))
    (l : List α) (x : β) : FailsOnlyWith P (l.foldlM step x) := by
  induction l generalizing x with
  | nil => exact failsOnlyWith_ok x
  | cons a l ih =>
    rw [List.foldlM_cons]
    exact failsOnlyWith_bind (h x a) ih

theorem failsOnlyWith_forM {f : α → Except ε PUnit} (h : ∀ a, FailsOnlyWith P (f a))
    (l : List α) : FailsOnlyWith P (l.forM f) := by
  induction l with
  | nil => exact failsOnlyWith_ok _
  | cons a l ih => exact failsOnlyWith_bind (h a) fun _ => ih

end

end MeteredLedger

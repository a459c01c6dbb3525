import Mathlib.Data.List.Induction
import MeteredLedger.Proofs.Entries

/-! # Surviving applications

    A store that goes back and forth shows what the applications of blocks have
    left that have survived so far, as if the others had never been made.

    * `Application`, `lastWrite`: a history of applications, and the last write
      in it to an invocation.
    * `Session`: a store with the applications that survive and the snapshots
      that can still be restored.
    * `Session.Reachable`: what can be done with a store, and what each operation
      makes of the surviving applications.
    * `Session.Sound`: the invariant. It relates every part of the log to what
      the store held at the height where that part begins.
    * `refines_of_reachable`: what a store shows at every point.
    * `not_refines_of_dropLater`: where a snapshot has been overtaken by an older
      one, restoring it is more than dropping what is younger. -/

namespace MeteredLedger

open ProgressStore

/-! ## Section 1: Histories -/

/-- A successful application of a block. -/
structure Application where
  /-- How many applications had been made before it. -/
  serial : Nat
  height : UInt32
  updates : SortedMap InvocationId Progress

/-- All progress in the application can be written. -/
def Application.Fits (a : Application) : Prop :=
  ∀ (id : InvocationId) mark, a.updates[id]? = some mark → Wire.Fits mark

/-- What an invocation has come to after an application; to finish it once more
    is no write. -/
def Application.after (a : Application) (id : InvocationId) (before : Option Progress) :
    Option Progress :=
  match before, a.updates[id]? with
  | some .finished, some .finished => before
  | _, some mark => some mark
  | _, none => before

/-- What the last write to an invocation has left. -/
def lastWrite (history : List Application) (id : InvocationId) : Option Progress :=
  history.foldl (fun before a => a.after id before) none

/-- The bytes of what the last write to an invocation has left. -/
def lastBytes (history : List Application) (id : InvocationId) : Option (List UInt8) :=
  (lastWrite history id).map Wire.encode

theorem Application.after_eq (a : Application) (id : InvocationId) (before : Option Progress) :
    a.after id before = a.updates[id]?.or before := by
  unfold after
  split
  · rename_i hnew
    rw [hnew]
    rfl
  · rename_i hnew
    rw [hnew]
    rfl
  · rename_i hnew
    rw [hnew]
    rfl

theorem lastWrite_append (history : List Application) (a : Application) (id : InvocationId) :
    lastWrite (history ++ [a]) id = a.updates[id]?.or (lastWrite history id) := by
  unfold lastWrite
  rw [List.foldl_append, List.foldl_cons, List.foldl_nil, Application.after_eq]

theorem lastBytes_append (history : List Application) (a : Application) (id : InvocationId) :
    lastBytes (history ++ [a]) id =
      (a.updates[id]?.map Wire.encode).or (lastBytes history id) := by
  unfold lastBytes
  rw [lastWrite_append]
  cases a.updates[id]? <;> rfl

theorem fits_lastWrite {history : List Application} (hall : ∀ a ∈ history, a.Fits)
    {id : InvocationId} {mark : Progress} (h : lastWrite history id = some mark) :
    Wire.Fits mark := by
  induction history using List.reverseRecOn with
  | nil => exact nomatch h
  | append_singleton history a ih =>
    rw [lastWrite_append] at h
    rcases Option.or_eq_some_iff.1 h with hnew | ⟨-, hbefore⟩
    · exact hall a (by simp) id mark hnew
    · exact ih (fun a' ha' => hall a' (List.mem_append_left _ ha')) hbefore

/-! ## Section 2: Sessions -/

/-- A snapshot that can still be restored. -/
structure Kept where
  snapshot : Snapshot
  /-- How many applications had been made before it. -/
  made : Nat
  /-- Those of them that survived when it was taken. -/
  survivors : List Application
  /-- Since then no older snapshot has been restored. -/
  undisturbed : Bool

namespace Kept

/-- The applications that survive when the snapshot is restored: those that
    survived when it was taken. -/
def reinstate (k : Kept) (_now : List Application) : List Application := k.survivors

/-- The applications that would survive if those made after the snapshot were
    dropped. -/
def dropLater (k : Kept) (now : List Application) : List Application :=
  now.filter (·.serial < k.made)

/-- The snapshot after an older one has been restored. -/
def disturb (k : Kept) : Kept := { k with undisturbed := false }

end Kept

/-- A store, the number of applications made so far, those that survive in the
    order in which they were made, and the snapshots that can still be restored,
    the latest first. -/
structure Session where
  store : ProgressStore := .empty
  made : Nat := 0
  survivors : List Application := []
  kept : List Kept := []

namespace Session

/-- An application has been made. -/
def applied (σ : Session) (store : ProgressStore) (a : Application) : Session :=
  { σ with store, made := σ.made + 1, survivors := σ.survivors ++ [a] }

/-- The applications above a height are gone, and so are the snapshots from
    there. -/
def rolledBack (σ : Session) (height : UInt32) : Session :=
  { σ with
    store := σ.store.rollback height
    survivors := σ.survivors.filter (·.height ≤ height)
    kept := σ.kept.filter (·.snapshot.height ≤ height) }

/-- A snapshot has been taken. -/
def withSnapshot (σ : Session) : Session :=
  { σ with kept := ⟨σ.store.snapshot, σ.made, σ.survivors, true⟩ :: σ.kept }

/-- The snapshot between `newer` and `older` ones has been restored, and `rule`
    says which applications survive. -/
def restored (σ : Session) (rule : Kept → List Application → List Application)
    (newer : List Kept) (k : Kept) (older : List Kept) : Session :=
  { σ with
    store := σ.store.restore k.snapshot
    survivors := rule k σ.survivors
    kept := (newer.map Kept.disturb ++ k :: older).filter
      (·.snapshot.height ≤ k.snapshot.height) }

/-- The sessions that begin with an empty store, if `rule` says which applications
    survive when a snapshot is restored. A snapshot can be restored as long as the
    store has not gone back to a lower height than that of the snapshot. -/
inductive Reachable (rule : Kept → List Application → List Application) : Session → Prop where
  | start : Reachable rule {}
  /-- A block is applied. -/
  | applied {σ store} {a : Application} : Reachable rule σ → a.serial = σ.made →
      a.height < greatestHeight → σ.store.apply a.height a.updates = .ok store →
      Reachable rule (σ.applied store a)
  /-- A block is refused. -/
  | refused {σ height updates error} : Reachable rule σ → height < greatestHeight →
      σ.store.apply height updates = .error error → Reachable rule σ
  | rolledBack {σ height} : Reachable rule σ → height < greatestHeight →
      Reachable rule (σ.rolledBack height)
  | withSnapshot {σ} : Reachable rule σ → Reachable rule σ.withSnapshot
  | restored {σ newer k older} : Reachable rule σ → σ.kept = newer ++ k :: older →
      Reachable rule (σ.restored rule newer k older)

end Session

/-! ## Section 3: The invariant -/

/-- The applications of a history below a height. -/
def below (height : UInt32) (history : List Application) : List Application :=
  history.filter (·.height < height)

section

variable {history : List Application} {first height : UInt32}

theorem below_below (h : first ≤ height) (history : List Application) :
    below first (below height history) = below first history := by
  unfold below
  rw [List.filter_filter]
  refine List.filter_congr fun a _ => ?_
  by_cases hlt : a.height < first
  · have hlt' : a.height < height := UInt32.lt_of_lt_of_le hlt h
    simp [hlt, hlt']
  · simp [hlt]

theorem below_eq_self (h : ∀ a ∈ history, a.height < height) : below height history = history := by
  refine List.filter_eq_self.2 fun a ha => ?_
  exact decide_eq_true (h a ha)

theorem below_append_of_le {a : Application} (h : height ≤ a.height) :
    below height (history ++ [a]) = below height history := by
  have hnot : ¬a.height < height := UInt32.not_lt.2 h
  simp [below, List.filter_append, hnot]

/-- What survives when the store goes back to a height. -/
theorem filter_le_eq_below (h : height < greatestHeight) (history : List Application) :
    history.filter (·.height ≤ height) = below (firstDropped height) history := by
  refine List.filter_congr fun a _ => ?_
  rw [decide_eq_decide, lt_firstDropped_iff h]

end

/-- What is known of a snapshot that can be restored. Below its height nothing has
    happened since it was taken, and an entry that it would change at a height is
    recorded in the log. -/
structure Kept.Restorable (k : Kept) (σ : Session) : Prop where
  height_le : k.snapshot.height ≤ σ.store.height
  entries : ∀ id : InvocationId, k.snapshot.entries[id]? = lastBytes k.survivors id
  fits : ∀ a ∈ k.survivors, a.Fits
  heights : ∀ a ∈ k.survivors, a.height ≤ k.snapshot.height
  agrees : below k.snapshot.height k.survivors = below k.snapshot.height σ.survivors
  recorded : ∀ first id, lastBytes k.survivors id ≠ lastBytes (below first k.survivors) id →
    ∃ t, first ≤ t ∧ t ≤ k.snapshot.height ∧ Records σ.store.undo id t

/-- What is kept of a session: taking back the writes from any height on gives
    what the applications below that height have left. -/
structure Session.Sound (σ : Session) : Prop where
  height_lt : σ.store.height < greatestHeight
  log : ∀ e ∈ σ.store.undo.toList, e.1 ≤ σ.store.height
  fits : ∀ a ∈ σ.survivors, a.Fits
  heights : ∀ a ∈ σ.survivors, a.height ≤ σ.store.height
  takenBack : ∀ first id, heldBefore id (writesOf σ.store.undo first) σ.store.entries[id]? =
    lastBytes (below first σ.survivors) id
  kept : ∀ k ∈ σ.kept, k.Restorable σ

section

variable {σ : Session} {k : Kept}

/-- Where nothing has to be taken back, an entry holds what has been left last. -/
theorem Session.Sound.entries_eq (hσ : σ.Sound) (id : InvocationId) :
    σ.store.entries[id]? = lastBytes σ.survivors id := by
  have habove : ∀ {t}, t ≤ σ.store.height → t < firstDropped σ.store.height :=
    fun hle => (lt_firstDropped_iff hσ.height_lt).2 hle
  have hback := hσ.takenBack (firstDropped σ.store.height) id
  rw [writesOf_eq_nil fun e he => habove (hσ.log e he),
    below_eq_self fun a ha => habove (hσ.heights a ha)] at hback
  exact hback

/-- It is read back from there. -/
theorem Session.Sound.get_eq (hσ : σ.Sound) (id : InvocationId) :
    σ.store.get id = .ok (lastWrite σ.survivors id) :=
  get_eq_ok_iff.2 ⟨fun _ hmark => fits_lastWrite hσ.fits hmark, hσ.entries_eq id⟩

/-- A snapshot stays restorable while nothing below its height changes and the
    records up to its height stay in the log. -/
theorem Kept.restorable_of {σ' : Session} (hk : k.Restorable σ)
    (hheight : k.snapshot.height ≤ σ'.store.height)
    (hbelow : below k.snapshot.height σ'.survivors = below k.snapshot.height σ.survivors)
    (hrecords : ∀ id t, t ≤ k.snapshot.height → Records σ.store.undo id t →
      Records σ'.store.undo id t) : k.Restorable σ' where
  height_le := hheight
  entries := hk.entries
  fits := hk.fits
  heights := hk.heights
  agrees := hk.agrees.trans hbelow.symm
  recorded := by
    intro first id hchanges
    obtain ⟨t, hfirst, hle, hrecord⟩ := hk.recorded first id hchanges
    exact ⟨t, hfirst, hle, hrecords id t hle hrecord⟩

namespace Session

theorem sound_start : Sound {} where
  height_lt := by decide
  log := nofun
  fits := nofun
  heights := nofun
  takenBack _ _ := rfl
  kept := nofun

/-- No application lies above the latest one. -/
theorem Sound.heights_append {a : Application} (hσ : σ.Sound) (h : σ.store.height ≤ a.height) :
    ∀ a' ∈ σ.survivors ++ [a], a'.height ≤ a.height := by
  intro a' ha'
  rcases List.mem_append.1 ha' with hearlier | hlast
  · exact UInt32.le_trans (hσ.heights a' hearlier) h
  · obtain rfl := List.mem_singleton.1 hlast
    exact UInt32.le_refl _

/-- The writes of a new application come on top of all others. -/
theorem Sound.takenBack_append {store : ProgressStore} {a : Application} (hσ : σ.Sound)
    (h : σ.store.apply a.height a.updates = .ok store) (first : UInt32) (id : InvocationId) :
    heldBefore id (writesOf store.undo first) store.entries[id]? =
      lastBytes (below first (σ.survivors ++ [a])) id := by
  obtain ⟨hle, hbuilt⟩ := builtOn_of_apply hσ.log h
  by_cases hfirst : first ≤ a.height
  · rw [hbuilt.takenBack first hfirst id, hσ.takenBack, below_append_of_le hfirst]
  · -- nothing is taken back, and nothing has happened from there on
    have hlt : a.height < first := UInt32.not_le.1 hfirst
    have hnone : writesOf store.undo first = [] :=
      writesOf_eq_nil fun e he => UInt32.lt_of_le_of_lt (hbuilt.below e he) hlt
    have hall : below first (σ.survivors ++ [a]) = σ.survivors ++ [a] :=
      below_eq_self fun a' ha' => UInt32.lt_of_le_of_lt (hσ.heights_append hle a' ha') hlt
    rw [hnone, hall, lastBytes_append, ← hσ.entries_eq]
    exact entries_apply h id

theorem sound_applied {store : ProgressStore} {a : Application} (hσ : σ.Sound)
    (hheight : a.height < greatestHeight) (h : σ.store.apply a.height a.updates = .ok store) :
    (σ.applied store a).Sound := by
  obtain ⟨hle, hbuilt⟩ := builtOn_of_apply hσ.log h
  have hstore : store.height = a.height := hbuilt.height_eq
  refine ⟨?_, ?_, ?_, ?_, hσ.takenBack_append h, ?_⟩
  · show store.height < greatestHeight
    rw [hstore]
    exact hheight
  · show ∀ e ∈ store.undo.toList, e.1 ≤ store.height
    rw [hstore]
    exact hbuilt.below
  · intro a' ha'
    rcases List.mem_append.1 ha' with hearlier | hlast
    · exact hσ.fits a' hearlier
    · obtain rfl := List.mem_singleton.1 hlast
      exact fun _ _ hmark => fits_of_apply h hmark
  · show ∀ a' ∈ σ.survivors ++ [a], a'.height ≤ store.height
    rw [hstore]
    exact hσ.heights_append hle
  · intro k hk
    have hrestorable := hσ.kept k hk
    have hheight' : k.snapshot.height ≤ a.height := UInt32.le_trans hrestorable.height_le hle
    refine Kept.restorable_of hrestorable ?_ ?_ ?_
    · show k.snapshot.height ≤ store.height
      rw [hstore]
      exact hheight'
    · exact below_append_of_le hheight'
    · exact fun id t _ hrecord => hbuilt.records id t hrecord

/-- A log that is cut at a height has to be right up to there only. -/
theorem takenBack_cut {log : SortedMap UInt32 (List Undo)} {history : List Application}
    {height : UInt32} {id : InvocationId} {now : Option (List UInt8)}
    (hnow : now = lastBytes (below height history) id)
    (hbefore : ∀ first ≤ height,
      heldBefore id (writesOf (cut log height) first) now =
        lastBytes (below first history) id) (first : UInt32) :
    heldBefore id (writesOf (cut log height) first) now =
      lastBytes (below first (below height history)) id := by
  by_cases hfirst : first ≤ height
  · rw [below_below hfirst]
    exact hbefore first hfirst
  · have hlt : height < first := UInt32.not_le.1 hfirst
    have hnone : writesOf (cut log height) first = [] := by
      refine writesOf_eq_nil fun e he => ?_
      exact UInt32.lt_trans (mem_cut.1 he).2 hlt
    have hall : below first (below height history) = below height history := by
      refine below_eq_self fun a ha => ?_
      exact UInt32.lt_trans (of_decide_eq_true (List.mem_filter.1 ha).2) hlt
    rw [hnone, hall]
    exact hnow

/-- The writes from below a cut are taken back after those above it. -/
theorem Sound.heldBefore_cut (hσ : σ.Sound) {first height : UInt32} (h : first ≤ height)
    (id : InvocationId) :
    heldBefore id (writesOf (cut σ.store.undo height) first)
      (lastBytes (below height σ.survivors) id) = lastBytes (below first σ.survivors) id := by
  rw [← hσ.takenBack height id, ← heldBefore_append, ← writesOf_split _ h]
  exact hσ.takenBack first id

theorem sound_rolledBack {height : UInt32} (hσ : σ.Sound) (h : height < greatestHeight) :
    (σ.rolledBack height).Sound := by
  have hlt : ∀ {t}, t < firstDropped height ↔ t ≤ height := lt_firstDropped_iff h
  have hcut : (σ.rolledBack height).survivors = below (firstDropped height) σ.survivors :=
    filter_le_eq_below h σ.survivors
  have hnow : ∀ id : InvocationId, (σ.store.rollback height).entries[id]? =
      lastBytes (below (firstDropped height) σ.survivors) id := by
    intro id
    rw [entries_rollback]
    exact hσ.takenBack (firstDropped height) id
  refine ⟨?_, ?_, fun a ha => hσ.fits a (List.mem_filter.1 ha).1, ?_, ?_, ?_⟩
  · exact UInt32.lt_of_le_of_lt Std.min_le_left hσ.height_lt
  · intro e he
    obtain ⟨he, hbelow⟩ := mem_cut.1 he
    exact Std.le_min_iff.2 ⟨hσ.log e he, hlt.1 hbelow⟩
  · intro a ha
    rw [hcut] at ha
    obtain ⟨ha, hbelow⟩ := List.mem_filter.1 ha
    have hheight := hσ.heights a ha
    have hle := hlt.1 (of_decide_eq_true hbelow)
    exact Std.le_min_iff.2 ⟨hheight, hle⟩
  · intro first id
    rw [hcut]
    refine takenBack_cut (hnow id) (fun first hfirst => ?_) first
    show heldBefore id _ (σ.store.rollback height).entries[id]? = _
    rw [hnow]
    exact hσ.heldBefore_cut hfirst id
  · intro k hk
    obtain ⟨hk, hheight⟩ := List.mem_filter.1 hk
    have hle : k.snapshot.height ≤ height := of_decide_eq_true hheight
    have hrestorable := hσ.kept k hk
    refine Kept.restorable_of hrestorable ?_ ?_ ?_
    · exact Std.le_min_iff.2 ⟨hrestorable.height_le, hle⟩
    · rw [hcut]
      exact below_below (UInt32.le_of_lt (hlt.2 hle)) σ.survivors
    · intro id t ht hrecord
      exact records_cut hrecord (hlt.2 (UInt32.le_trans ht hle))

/-- A snapshot of the store as it is changes nothing when it is restored. -/
theorem sound_withSnapshot (hσ : σ.Sound) : σ.withSnapshot.Sound := by
  refine ⟨hσ.height_lt, hσ.log, hσ.fits, hσ.heights, hσ.takenBack, ?_⟩
  intro k hk
  rcases List.mem_cons.1 hk with rfl | hk
  · refine ⟨UInt32.le_refl _, hσ.entries_eq, hσ.fits, hσ.heights, rfl, ?_⟩
    intro first id hchanges
    by_contra hnone
    -- without a record there is nothing to take back
    have hunrecorded : ¬∃ u ∈ writesOf σ.store.undo first, u.1 = id := by
      intro hexists
      obtain ⟨t, hfirst, hrecord⟩ := exists_records_iff.1 hexists
      have hle : t ≤ σ.store.height := by
        obtain ⟨e, he, rfl, -⟩ := hrecord
        exact hσ.log e he
      exact hnone ⟨t, hfirst, hle, hrecord⟩
    have hback := hσ.takenBack first id
    rw [heldBefore_of_not_exists hunrecorded, hσ.entries_eq] at hback
    exact hchanges hback
  · exact Kept.restorable_of (hσ.kept k hk) (hσ.kept k hk).height_le rfl fun _ _ _ h => h

/-- Taking back the writes that the log still has from before a snapshot gives
    what its history says. -/
theorem Sound.heldBefore_restored (hσ : σ.Sound) (hk : k.Restorable σ)
    (hmax : k.snapshot.height < greatestHeight) (first : UInt32) (id : InvocationId) :
    heldBefore id
      (writesOf (cut σ.store.undo (firstDropped k.snapshot.height)) first)
      (lastBytes k.survivors id) = lastBytes (below first k.survivors) id := by
  by_cases hrecorded : ∃ u ∈
      writesOf (cut σ.store.undo (firstDropped k.snapshot.height)) first, u.1 = id
  · -- the oldest record decides, whatever the entry holds now
    obtain ⟨t, hfirst, e, he, rfl, -⟩ := exists_records_iff.1 hrecorded
    have hle : first ≤ k.snapshot.height :=
      UInt32.le_trans hfirst ((lt_firstDropped_iff hmax).1 (mem_cut.1 he).2)
    have habove : k.snapshot.height < firstDropped k.snapshot.height :=
      (lt_firstDropped_iff hmax).2 (UInt32.le_refl _)
    have hcut := hσ.heldBefore_cut (UInt32.le_trans hle (UInt32.le_of_lt habove)) id
    rw [heldBefore_congr hrecorded _ (lastBytes (below _ σ.survivors) id), hcut,
      ← below_below hle σ.survivors, ← hk.agrees, below_below hle]
  · rw [heldBefore_of_not_exists hrecorded]
    by_contra hchanges
    obtain ⟨t, hfirst, hle, hrecord⟩ := hk.recorded first id hchanges
    have hkept := records_cut hrecord ((lt_firstDropped_iff hmax).2 hle)
    exact hrecorded (exists_records_iff.2 ⟨t, hfirst, hkept⟩)

theorem sound_restored {newer older : List Kept} (hσ : σ.Sound)
    (hkept : σ.kept = newer ++ k :: older) : (σ.restored Kept.reinstate newer k older).Sound := by
  have hk : k.Restorable σ := hσ.kept k (by simp [hkept])
  have hmax : k.snapshot.height < greatestHeight := UInt32.lt_of_le_of_lt hk.height_le hσ.height_lt
  have hlt : ∀ {t}, t < firstDropped k.snapshot.height ↔ t ≤ k.snapshot.height :=
    lt_firstDropped_iff hmax
  refine ⟨hmax, ?_, hk.fits, hk.heights, ?_, ?_⟩
  · intro e he
    exact hlt.1 (mem_cut.1 he).2
  · intro first id
    show heldBefore id _ k.snapshot.entries[id]? = lastBytes (below first k.survivors) id
    rw [hk.entries]
    exact hσ.heldBefore_restored hk hmax first id
  · intro j hj
    obtain ⟨hj, hheight⟩ := List.mem_filter.1 hj
    have hle : j.snapshot.height ≤ k.snapshot.height := of_decide_eq_true hheight
    -- whether an older snapshot has been restored since is not what counts here
    have hrestorable : j.Restorable σ := by
      rcases List.mem_append.1 hj with hnewer | holder
      · obtain ⟨i, hi, rfl⟩ := List.mem_map.1 hnewer
        have hrestorable := hσ.kept i (by simp [hkept, hi])
        exact ⟨hrestorable.height_le, hrestorable.entries, hrestorable.fits,
          hrestorable.heights, hrestorable.agrees, hrestorable.recorded⟩
      · exact hσ.kept j (by simp [hkept, List.mem_cons.1 holder])
    refine Kept.restorable_of hrestorable hle ?_ ?_
    · show below j.snapshot.height k.survivors = below j.snapshot.height σ.survivors
      rw [← below_below hle k.survivors, hk.agrees, below_below hle]
    · intro id t ht hrecord
      exact records_cut hrecord (hlt.2 (UInt32.le_trans ht hle))

theorem sound_of_reachable (h : Reachable Kept.reinstate σ) : σ.Sound := by
  induction h with
  | start => exact sound_start
  | applied _ _ hheight happly ih => exact sound_applied ih hheight happly
  | refused _ _ _ ih => exact ih
  | rolledBack _ hheight ih => exact sound_rolledBack ih hheight
  | withSnapshot _ ih => exact sound_withSnapshot ih
  | restored _ hkept ih => exact sound_restored ih hkept

end Session

end

/-! ## Section 4: Which applications a snapshot drops -/

/-- The history goes on from what survived when the snapshot was taken, with
    applications made later. -/
def Kept.Precedes (k : Kept) (now : List Application) : Prop :=
  ∃ later, now = k.survivors ++ later ∧ ∀ a ∈ later, k.made ≤ a.serial

/-- The order in which applications and snapshots of a session were made. -/
structure Session.Counted (σ : Session) : Prop where
  serials : ∀ a ∈ σ.survivors, a.serial < σ.made
  made_le : ∀ k ∈ σ.kept, k.made ≤ σ.made
  taken : ∀ k ∈ σ.kept, ∀ a ∈ k.survivors, a.serial < k.made
  precedes : ∀ k ∈ σ.kept, k.undisturbed = true → k.Precedes σ.survivors
  ordered : σ.kept.Pairwise fun newer older =>
    older.undisturbed = true → older.Precedes newer.survivors

section

variable {σ : Session} {k : Kept}

theorem Kept.precedes_self (k : Kept) : k.Precedes k.survivors :=
  ⟨[], (List.append_nil _).symm, nofun⟩

/-- To restore such a snapshot is to drop what is younger. -/
theorem Kept.dropLater_eq {now : List Application} (h : k.Precedes now)
    (htaken : ∀ a ∈ k.survivors, a.serial < k.made) : k.dropLater now = k.survivors := by
  obtain ⟨later, rfl, hlater⟩ := h
  have hold : k.survivors.filter (·.serial < k.made) = k.survivors :=
    List.filter_eq_self.2 fun a ha => decide_eq_true (htaken a ha)
  have hnew : later.filter (·.serial < k.made) = [] := by
    refine List.filter_eq_nil_iff.2 fun a ha => ?_
    have hle := hlater a ha
    simp only [decide_eq_true_iff]
    omega
  rw [dropLater, List.filter_append, hold, hnew, List.append_nil]

namespace Session

theorem counted_start : Counted {} where
  serials := nofun
  made_le := nofun
  taken := nofun
  precedes := nofun
  ordered := .nil

theorem counted_applied {store : ProgressStore} {a : Application} (hσ : σ.Counted)
    (hserial : a.serial = σ.made) : (σ.applied store a).Counted where
  serials := by
    intro a' ha'
    show a'.serial < σ.made + 1
    rcases List.mem_append.1 ha' with hearlier | hlast
    · have hlt := hσ.serials a' hearlier
      omega
    · obtain rfl := List.mem_singleton.1 hlast
      omega
  made_le := by
    intro k hk
    have hle := hσ.made_le k hk
    show k.made ≤ σ.made + 1
    omega
  taken := hσ.taken
  precedes := by
    intro k hk hundisturbed
    obtain ⟨later, hnow, hlater⟩ := hσ.precedes k hk hundisturbed
    have hle := hσ.made_le k hk
    refine ⟨later ++ [a], ?_, ?_⟩
    · show σ.survivors ++ [a] = _
      rw [hnow, List.append_assoc]
    · intro a' ha'
      rcases List.mem_append.1 ha' with hearlier | hlast
      · exact hlater a' hearlier
      · obtain rfl := List.mem_singleton.1 hlast
        omega
  ordered := hσ.ordered

/-- The applications that a snapshot holds lie below every height from which it
    can still be restored. -/
theorem counted_rolledBack {height : UInt32} (hσ : σ.Counted) (hsound : σ.Sound) :
    (σ.rolledBack height).Counted where
  serials := fun a ha => hσ.serials a (List.mem_filter.1 ha).1
  made_le := fun k hk => hσ.made_le k (List.mem_filter.1 hk).1
  taken := fun k hk => hσ.taken k (List.mem_filter.1 hk).1
  precedes := by
    intro k hk hundisturbed
    obtain ⟨hk, hheight⟩ := List.mem_filter.1 hk
    obtain ⟨later, hnow, hlater⟩ := hσ.precedes k hk hundisturbed
    have hstay : k.survivors.filter (·.height ≤ height) = k.survivors := by
      refine List.filter_eq_self.2 fun a ha => decide_eq_true ?_
      exact UInt32.le_trans ((hsound.kept k hk).heights a ha) (of_decide_eq_true hheight)
    refine ⟨later.filter (·.height ≤ height), ?_, ?_⟩
    · show σ.survivors.filter (·.height ≤ height) = _
      rw [hnow, List.filter_append, hstay]
    · exact fun a ha => hlater a (List.mem_filter.1 ha).1
  ordered := hσ.ordered.filter _

theorem counted_withSnapshot (hσ : σ.Counted) : σ.withSnapshot.Counted where
  serials := hσ.serials
  made_le := by
    intro k hk
    rcases List.mem_cons.1 hk with rfl | hk
    · exact Nat.le_refl _
    · exact hσ.made_le k hk
  taken := by
    intro k hk
    rcases List.mem_cons.1 hk with rfl | hk
    · exact hσ.serials
    · exact hσ.taken k hk
  precedes := by
    intro k hk hundisturbed
    rcases List.mem_cons.1 hk with rfl | hk
    · exact Kept.precedes_self _
    · exact hσ.precedes k hk hundisturbed
  ordered := List.pairwise_cons.2 ⟨hσ.precedes, hσ.ordered⟩

theorem counted_restored {newer older : List Kept} (hσ : σ.Counted)
    (hkept : σ.kept = newer ++ k :: older) :
    (σ.restored Kept.reinstate newer k older).Counted := by
  obtain ⟨hserials, hmade, htaken, hprecedes, hordered⟩ := hσ
  rw [hkept] at hmade htaken hprecedes hordered
  obtain ⟨-, hfrom, hacross⟩ := List.pairwise_append.1 hordered
  have hk : k ∈ newer ++ k :: older := by simp
  -- a disturbed snapshot differs from what it was in nothing else
  have hmem : ∀ j ∈ newer.map Kept.disturb ++ k :: older,
      ∃ i ∈ newer ++ k :: older, j.made = i.made ∧ j.survivors = i.survivors := by
    intro j hj
    rcases List.mem_append.1 hj with hnewer | holder
    · obtain ⟨i, hi, rfl⟩ := List.mem_map.1 hnewer
      exact ⟨i, List.mem_append_left _ hi, rfl, rfl⟩
    · exact ⟨j, List.mem_append_right _ holder, rfl, rfl⟩
  refine ⟨?_, ?_, ?_, ?_, ?_⟩
  · intro a ha
    exact Nat.lt_of_lt_of_le (htaken k hk a ha) (hmade k hk)
  · intro j hj
    obtain ⟨i, hi, hsame, -⟩ := hmem j (List.mem_filter.1 hj).1
    rw [hsame]
    exact hmade i hi
  · intro j hj
    obtain ⟨i, hi, hsame, hsurvivors⟩ := hmem j (List.mem_filter.1 hj).1
    rw [hsame, hsurvivors]
    exact htaken i hi
  · intro j hj hundisturbed
    rcases List.mem_append.1 (List.mem_filter.1 hj).1 with hnewer | holder
    · obtain ⟨i, -, rfl⟩ := List.mem_map.1 hnewer
      exact nomatch hundisturbed
    · rcases List.mem_cons.1 holder with rfl | holder
      · exact Kept.precedes_self _
      · exact (List.pairwise_cons.1 hfrom).1 j holder hundisturbed
  · refine List.Pairwise.filter _ (List.pairwise_append.2 ⟨?_, hfrom, ?_⟩)
    · exact List.pairwise_map.2 (List.pairwise_of_forall fun _ _ => nofun)
    · intro _ hdisturbed i hi
      obtain ⟨j, hj, rfl⟩ := List.mem_map.1 hdisturbed
      exact hacross j hj i hi

theorem counted_of_reachable (h : Reachable Kept.reinstate σ) : σ.Counted := by
  induction h with
  | start => exact counted_start
  | applied _ hserial _ _ ih => exact counted_applied ih hserial
  | refused _ _ _ ih => exact ih
  | rolledBack hreachable _ ih => exact counted_rolledBack ih (sound_of_reachable hreachable)
  | withSnapshot _ ih => exact counted_withSnapshot ih
  | restored _ hkept ih => exact counted_restored ih hkept

end Session

end

/-! ## Section 5: What a store shows -/

/-- The store shows what the surviving applications have left. -/
structure Session.Refines (σ : Session) : Prop where
  /-- What is read is what the last write has left that survives. -/
  get : ∀ id, σ.store.get id = .ok (lastWrite σ.survivors id)
  /-- Exactly the invocations in progress are listed, with their steps. -/
  pending : ∃ listed, σ.store.pending = .ok listed ∧
    (∀ id step, (id, step) ∈ listed ↔
      ∃ rest unused, lastWrite σ.survivors id = some (.suspended step rest unused)) ∧
    (listed.map (·.1)).Pairwise fun a b => compare a b = .lt
  /-- A rollback lists in order what it changes. -/
  rollbackIds : ∀ height, ((σ.store.rollbackIds height).Pairwise fun a b => compare a b = .lt) ∧
    ∀ id : InvocationId, (σ.store.rollback height).entries[id]? ≠ σ.store.entries[id]? →
      id ∈ σ.store.rollbackIds height
  /-- To restore a snapshot is to drop what was applied after it, unless an older
      one has been restored since. -/
  later : ∀ k ∈ σ.kept, k.undisturbed = true → k.reinstate σ.survivors = k.dropLater σ.survivors

/-- Two snapshots of one height are taken, before an application and after it; then
    the older one is restored, and then the younger one. -/
theorem exists_overtaken (rule : Kept → List Application → List Application) :
    ∃ (σ : Session) (older younger : Kept) (a : Application), σ.Reachable rule ∧
      older.made = 0 ∧ σ.survivors = rule younger (rule older [a]) ∧
      σ.store.get (.fill 170) = .ok (some (.suspended 0 (.const (.int 0)) 0)) := by
  let id : InvocationId := .fill 170
  let mark : Progress := .suspended 0 (.const (.int 0)) 0
  let a : Application := ⟨0, 0, SortedMap.ofEntries [(id, mark)]⟩
  let store : ProgressStore := {
    entries := SortedMap.ofEntries [(id, Wire.encode mark)]
    undo := SortedMap.ofEntries [(0, [(id, none)])] }
  let older : Kept := ⟨⟨0, ∅⟩, 0, [], true⟩
  let younger : Kept := ⟨store.snapshot, 1, [a], true⟩
  have hsnapshot : Session.Reachable rule { kept := [older] } := .withSnapshot .start
  have happly : ProgressStore.empty.apply 0 a.updates = .ok store := rfl
  have hboth : Session.Reachable rule ⟨store, 1, [a], [younger, older]⟩ :=
    .withSnapshot (.applied hsnapshot rfl (by decide) happly)
  have hgone : Session.Reachable rule
      ⟨store.restore older.snapshot, 1, rule older [a], [younger.disturb, older]⟩ := by
    have hkept : [younger, older] = [younger] ++ older :: [] := rfl
    exact .restored hboth hkept
  have hback : Session.Reachable rule
      ⟨(store.restore older.snapshot).restore younger.snapshot, 1,
        rule younger.disturb (rule older [a]), [younger.disturb, older]⟩ := by
    have hkept : [younger.disturb, older] = [] ++ younger.disturb :: [older] := rfl
    exact .restored hgone hkept
  exact ⟨_, older, younger.disturb, a, hback, rfl, rfl, rfl⟩

/-- **A store refines the list of its surviving applications**, whatever has been
    done with it: a snapshot that is restored brings back those that survived when
    it was taken. -/
theorem refines_of_reachable {σ : Session} (h : σ.Reachable Kept.reinstate) : σ.Refines := by
  have hsound := Session.sound_of_reachable h
  have hcounted := Session.counted_of_reachable h
  refine ⟨hsound.get_eq, exists_pending hsound.get_eq, ?_, ?_⟩
  · exact fun height => ⟨pairwise_rollbackIds σ.store height, fun id => mem_rollbackIds_of_ne⟩
  · intro k hk hundisturbed
    exact (Kept.dropLater_eq (hcounted.precedes k hk hundisturbed) (hcounted.taken k hk)).symm

/-- The application is back when the younger snapshot has been restored. -/
theorem refines_of_reachable_overtaken : ∃ σ : Session, σ.Reachable Kept.reinstate ∧
    σ.store.get (.fill 170) = .ok (some (.suspended 0 (.const (.int 0)) 0)) ∧ σ.Refines := by
  obtain ⟨σ, -, -, -, hreachable, -, -, hshown⟩ := exists_overtaken Kept.reinstate
  exact ⟨σ, hreachable, hshown, refines_of_reachable hreachable⟩

/-- To drop what is younger than the snapshot would not bring it back. -/
theorem not_refines_of_dropLater : ¬∀ σ : Session, σ.Reachable Kept.dropLater →
    ∀ id, σ.store.get id = .ok (lastWrite σ.survivors id) := by
  intro hall
  obtain ⟨σ, older, younger, a, hreachable, hmade, hsurvivors, hshown⟩ :=
    exists_overtaken Kept.dropLater
  -- no application had been made when the older snapshot was taken
  have hnone : older.dropLater [a] = [] := by simp [Kept.dropLater, hmade]
  rw [hnone] at hsurvivors
  have hlast := hall σ hreachable (.fill 170)
  rw [hshown, hsurvivors] at hlast
  exact nomatch hlast

end MeteredLedger

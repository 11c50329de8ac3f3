import Mathlib.Algebra.Order.Ring.Int
import Mathlib.Data.List.Induction
import Mathlib.Data.List.Nodup

/-!
# The runtime of async slots

The lifecycle of a slot as a pure function of its state and an event, and a slot with the tasks that compute its
value. A task belongs to the revision for which it has been spawned, and looks the revision up again when it begins.
-/

namespace LazilyPy.Async

/-! ### The transition kernel -/

inductive SlotState where
  | empty | computing | resolved | error
  deriving DecidableEq, Repr

/-- The pure state of a slot. A value that is `none` is absent, or is what the computation returned. -/
structure StepSlot (V : Type) where
  state : SlotState
  revision : ℤ
  computeRev : Option ℤ
  value : Option V := none
  deriving DecidableEq, Repr

inductive SlotEvent (V : Type) where
  | start
  | completeOk (rev : ℤ) (value : Option V)
  | completeErr (rev : ℤ)
  | invalidate
  | retry
  | hardClear

variable {V : Type}

/-- One transition. A completion counts only if its revision is the one that is being computed. -/
def step (s : StepSlot V) : SlotEvent V → StepSlot V
  | .start =>
    match s.state with
    | .empty => ⟨.computing, s.revision, some s.revision, none⟩
    | _ => s
  | .completeOk rev value =>
    if s.state = .computing ∧ s.computeRev = some rev then ⟨.resolved, s.revision, none, value⟩
    else s
  | .completeErr rev =>
    if s.state = .computing ∧ s.computeRev = some rev then ⟨.error, s.revision, none, none⟩
    else s
  | .invalidate =>
    match s.state with
    | .empty | .computing | .resolved =>
      ⟨.computing, s.revision + 1, some (s.revision + 1), none⟩
    | .error => s
  | .retry =>
    match s.state with
    | .error => ⟨.computing, s.revision, some s.revision, none⟩
    | _ => s
  | .hardClear => ⟨.empty, s.revision + 1, none, none⟩

open List Option Function

/-! ### The runtime -/

variable {V E : Type}

structure AsyncSlot (V E : Type) where
  state : SlotState := .empty
  revision : ℤ := 0
  computeRev : Option ℤ := none
  value : Option V := none
  error : Option E := none
  future : Option ℕ := none

inductive Future (V E : Type) where
  | pending
  | result (value : Option V)
  | exception (error : E)
  | cancelled

/-- A task that computes a value. It notes the revision `rev` when it begins; that it has been spawned
for the revision `spawned` is noted nowhere in the code. -/
structure Drive where
  future : ℕ
  spawned : ℤ
  rev : Option ℤ := none

/-- The slot, the tasks that have not completed, and the futures by number. -/
structure Runtime (V E : Type) where
  slot : AsyncSlot V E := {}
  drives : List Drive := []
  futures : ℕ → Future V E := fun _ => .pending
  nextFuture : ℕ := 0

/-- What happens to a slot: a turn of the loop of `get_async` (for a call, or for a caller whose future
has been resolved), a task that begins or completes, a waiter that is cancelled and its future with it,
an invalidation, or a reset. -/
inductive Event (V E : Type) where
  | get
  | begins (future : ℕ)
  | completeOk (future : ℕ) (value : Option V)
  | completeErr (future : ℕ) (error : E)
  | cancelWaiter (future : ℕ)
  | invalidate
  | hardClear

namespace AsyncSlot

def invalidate (s : AsyncSlot V E) : AsyncSlot V E :=
  -- the revision goes up before the slot is found to have failed
  let s := { s with revision := s.revision + 1 }
  if s.state = .error then s
  else { s with state := .computing, computeRev := some s.revision, value := none, future := none }

def hardClear (s : AsyncSlot V E) : AsyncSlot V E where
  state := .empty
  revision := s.revision + 1

/-- A completion is current if the revision and the future of its task are. -/
def isCurrent (s : AsyncSlot V E) (fut : ℕ) (rev : ℤ) : Prop :=
  s.computeRev = some rev ∧ s.future = some fut

instance (s : AsyncSlot V E) (fut : ℕ) (rev : ℤ) : Decidable (s.isCurrent fut rev) :=
  inferInstanceAs (Decidable (s.computeRev = some rev ∧ s.future = some fut))

end AsyncSlot

namespace Runtime

def resolve (fut : ℕ) (outcome : Future V E) (r : Runtime V E) : Runtime V E :=
  match r.futures fut with
  | .pending => { r with futures := update r.futures fut outcome }
  | _ => r

def spawn (r : Runtime V E) : Runtime V E where
  slot := { r.slot with
    state := .computing
    computeRev := some r.slot.revision
    value := none
    future := some r.nextFuture }
  drives := r.drives ++ [{ future := r.nextFuture, spawned := r.slot.revision }]
  futures := update r.futures r.nextFuture .pending
  nextFuture := r.nextFuture + 1

/-- A turn of the loop of `get_async`, up to where it waits. -/
def get (r : Runtime V E) : Runtime V E :=
  if r.slot.state = .resolved then r
  else if r.slot.state = .error then r.spawn
  else if r.slot.state = .empty ∨ r.slot.future = none then r.spawn
  else r

def drive? (r : Runtime V E) (fut : ℕ) : Option Drive :=
  r.drives.find? fun d => d.future = fut

def begins (fut : ℕ) (r : Runtime V E) : Runtime V E :=
  { r with drives := r.drives.map fun d =>
      if d.future = fut ∧ d.rev = none then { d with rev := some r.slot.revision } else d }

def running? (r : Runtime V E) (fut : ℕ) : Option (Drive × ℤ) :=
  (r.drive? fut).bind fun d => d.rev.map fun rev => (d, rev)

def finish (fut : ℕ) (r : Runtime V E) : Runtime V E :=
  { r with drives := r.drives.filter fun d => d.future ≠ fut }

def completeOk (fut : ℕ) (value : Option V) (r : Runtime V E) : Runtime V E :=
  match r.running? fut with
  | none => r
  | some (_, rev) =>
    if r.slot.isCurrent fut rev then
      ({ r with slot := { r.slot with state := .resolved, computeRev := none, value } }.resolve fut
        (.result value)).finish fut
    else (r.resolve fut (.result none)).finish fut

def completeErr (fut : ℕ) (error : E) (r : Runtime V E) : Runtime V E :=
  match r.running? fut with
  | none => r
  | some (_, rev) =>
    if r.slot.isCurrent fut rev then
      ({ r with slot := { r.slot with state := .error, computeRev := none, error := some error } }.resolve
        fut (.exception error)).finish fut
    else (r.resolve fut (.result none)).finish fut

def step (r : Runtime V E) : Event V E → Runtime V E
  | .get => r.get
  | .begins fut => r.begins fut
  | .completeOk fut value => r.completeOk fut value
  | .completeErr fut error => r.completeErr fut error
  | .cancelWaiter fut => r.resolve fut .cancelled
  | .invalidate => { r with slot := r.slot.invalidate }
  | .hardClear => { r with slot := r.slot.hardClear }

def run (events : List (Event V E)) : Runtime V E :=
  events.foldl step {}

theorem run_concat (events : List (Event V E)) (event : Event V E) :
    run (events ++ [event]) = (run events).step event := by
  simp [run, foldl_append]

/-! ## Which task is the current one -/

/-- The task whose future the slot has is the one of the current revision; the others are of earlier
ones. -/
structure Valid (r : Runtime V E) : Prop where
  current : ∀ d ∈ r.drives, r.slot.future = some d.future → r.slot.state = .computing ∧ d.spawned = r.slot.revision ∧
      ∀ rev, d.rev = some rev → rev = r.slot.revision
  superseded : ∀ d ∈ r.drives, r.slot.future ≠ some d.future → d.spawned < r.slot.revision
  computing : r.slot.state = .computing → r.slot.computeRev = some r.slot.revision
  value : r.slot.state ≠ .resolved → r.slot.value = none
  future : ∀ fut, r.slot.future = some fut → fut < r.nextFuture
  drives : ∀ d ∈ r.drives, d.future < r.nextFuture
  distinct : (r.drives.map Drive.future).Nodup

theorem valid_init : ({} : Runtime V E).Valid where
  current _ hd := absurd hd not_mem_nil
  superseded _ hd := absurd hd not_mem_nil
  computing h := nomatch h
  value _ := rfl
  future _ h := nomatch h
  drives _ hd := absurd hd not_mem_nil
  distinct := nodup_nil

section Valid

variable {r : Runtime V E}

@[simp] theorem slot_resolve (fut : ℕ) (outcome : Future V E) : (r.resolve fut outcome).slot = r.slot := by
  unfold resolve
  split
  · rfl
  · rfl

@[simp] theorem drives_resolve (fut : ℕ) (outcome : Future V E) : (r.resolve fut outcome).drives = r.drives := by
  unfold resolve
  split
  · rfl
  · rfl

@[simp] theorem nextFuture_resolve (fut : ℕ) (outcome : Future V E) :
    (r.resolve fut outcome).nextFuture = r.nextFuture := by
  unfold resolve
  split
  · rfl
  · rfl

theorem Valid.resolve (h : r.Valid) (fut : ℕ) (outcome : Future V E) : (r.resolve fut outcome).Valid := by
  constructor
  · simpa using h.current
  · simpa using h.superseded
  · simpa using h.computing
  · simpa using h.value
  · simpa using h.future
  · simpa using h.drives
  · simpa using h.distinct

theorem Valid.spawn (h : r.Valid) (hold : ∀ d ∈ r.drives, r.slot.future ≠ some d.future) : r.spawn.Valid := by
  have hmem : ∀ d ∈ r.spawn.drives, d ∈ r.drives ∨ d = { future := r.nextFuture, spawned := r.slot.revision } := by
    intro d hd
    simpa [Runtime.spawn] using hd
  refine ⟨fun d hd hfut => ?_, fun d hd hfut => ?_, fun _ => rfl, fun _ => rfl, ?_, fun d hd => ?_, ?_⟩
  · obtain hd | rfl := hmem d hd
    · have hlt := h.drives d hd
      have heq : r.nextFuture = d.future := some.inj hfut
      omega
    · exact ⟨rfl, rfl, fun rev hrev => nomatch hrev⟩
  · obtain hd | rfl := hmem d hd
    · exact h.superseded d hd (hold d hd)
    · exact absurd rfl hfut
  · rintro fut hfut
    obtain rfl : r.nextFuture = fut := some.inj hfut
    exact Nat.lt_succ_self _
  · obtain hd | rfl := hmem d hd
    · exact (h.drives d hd).trans (Nat.lt_succ_self _)
    · exact Nat.lt_succ_self _
  · simp only [Runtime.spawn, map_append, map_cons, map_nil]
    refine Nodup.append h.distinct (nodup_singleton _) ?_
    rw [disjoint_singleton]
    intro hin
    obtain ⟨d, hd, heq⟩ := List.mem_map.mp hin
    have hlt := h.drives d hd
    omega

/-- Where the slot is not computing, no task is the current one. -/
theorem Valid.ne_of_not_computing (h : r.Valid) (hstate : r.slot.state ≠ .computing) :
    ∀ d ∈ r.drives, r.slot.future ≠ some d.future :=
  fun d hd hfut => hstate (h.current d hd hfut).1

theorem Valid.get (h : r.Valid) : r.get.Valid := by
  unfold Runtime.get
  split
  · exact h
  · split
    · next herror =>
      exact h.spawn (h.ne_of_not_computing (by simp [herror]))
    · split
      · next hidle =>
        refine h.spawn ?_
        obtain hempty | hnone := hidle
        · exact h.ne_of_not_computing (by simp [hempty])
        · exact fun d _ hfut => by simp [hnone] at hfut
      · exact h

theorem Valid.begins (h : r.Valid) (fut : ℕ) : (r.begins fut).Valid := by
  have hmem : ∀ d ∈ (r.begins fut).drives, ∃ d' ∈ r.drives, d.future = d'.future ∧
      d.spawned = d'.spawned ∧ (d.rev = d'.rev ∨ d.rev = some r.slot.revision) := by
    intro d hd
    obtain ⟨d', hd', rfl⟩ := List.mem_map.mp hd
    refine ⟨d', hd', ?_⟩
    split
    · exact ⟨rfl, rfl, .inr rfl⟩
    · exact ⟨rfl, rfl, .inl rfl⟩
  refine ⟨fun d hd hfut => ?_, fun d hd hfut => ?_, h.computing, h.value, h.future, fun d hd => ?_, ?_⟩
  · obtain ⟨d', hd', heq, hspawned, hrev⟩ := hmem d hd
    obtain ⟨hstate, hcurrent, hbegun⟩ := h.current d' hd' (heq ▸ hfut)
    refine ⟨hstate, hspawned.trans hcurrent, fun rev hr => ?_⟩
    obtain hsame | hnow := hrev
    · exact hbegun rev (hsame ▸ hr)
    · exact some.inj (hr.symm.trans hnow)
  · obtain ⟨d', hd', heq, hspawned, _⟩ := hmem d hd
    exact hspawned ▸ h.superseded d' hd' (heq ▸ hfut)
  · obtain ⟨d', hd', heq, _, _⟩ := hmem d hd
    exact heq ▸ h.drives d' hd'
  · have hmap : (r.begins fut).drives.map Drive.future = r.drives.map Drive.future := by
      simp only [Runtime.begins, List.map_map]
      refine map_congr_left fun d _ => ?_
      simp only [comp_apply]
      split
      · rfl
      · rfl
    rw [hmap]
    exact h.distinct

/-- After a reset or an invalidation no task is the current one. -/
theorem Valid.advance (h : r.Valid) {s : AsyncSlot V E} (hrevision : s.revision = r.slot.revision + 1)
    (hfuture : s.future = none ∨ s.future = r.slot.future ∧ r.slot.state = .error)
    (hcomputing : s.state = .computing → s.computeRev = some s.revision)
    (hvalue : s.state ≠ .resolved → s.value = none) : Valid { r with slot := s } := by
  have hnone : ∀ d ∈ r.drives, s.future ≠ some d.future := by
    intro d hd hfut
    obtain hnone | ⟨heq, herror⟩ := hfuture
    · simp [hnone] at hfut
    · exact h.ne_of_not_computing (by simp [herror]) d hd (heq ▸ hfut)
  refine ⟨fun d hd hfut => absurd hfut (hnone d hd), fun d hd _ => ?_, hcomputing, hvalue,
    fun fut hfut => ?_, h.drives, h.distinct⟩
  · have hle : d.spawned ≤ r.slot.revision := by
      by_cases hfut : r.slot.future = some d.future
      · exact (h.current d hd hfut).2.1.le
      · exact (h.superseded d hd hfut).le
    show d.spawned < s.revision
    omega
  · obtain hnone | ⟨heq, _⟩ := hfuture
    · simp [hnone] at hfut
    · exact h.future fut (heq ▸ hfut)

theorem Valid.invalidate (h : r.Valid) : Valid { r with slot := r.slot.invalidate } := by
  by_cases herror : r.slot.state = .error
  · have hslot : r.slot.invalidate = { r.slot with revision := r.slot.revision + 1 } := by
      simp [AsyncSlot.invalidate, herror]
    rw [hslot]
    refine h.advance rfl (.inr ⟨rfl, herror⟩) (fun hc => ?_) h.value
    simp [herror] at hc
  · have hslot : r.slot.invalidate = { r.slot with
        revision := r.slot.revision + 1, state := .computing,
        computeRev := some (r.slot.revision + 1), value := none, future := none } := by
      simp [AsyncSlot.invalidate, herror]
    rw [hslot]
    exact h.advance rfl (.inl rfl) (fun _ => rfl) fun _ => rfl

/-- A task that has begun, by its future. -/
theorem Valid.running?_eq_some (h : r.Valid) {fut : ℕ} {d : Drive} {rev : ℤ} :
    r.running? fut = some (d, rev) ↔ d ∈ r.drives ∧ d.future = fut ∧ d.rev = some rev := by
  unfold running? drive?
  constructor
  · intro heq
    obtain ⟨d', hd', hrev⟩ := bind_eq_some_iff.mp heq
    obtain ⟨rev', hrev', hpair⟩ := map_eq_some_iff.mp hrev
    cases hpair
    exact ⟨mem_of_find?_eq_some hd', by simpa using find?_some hd', hrev'⟩
  · rintro ⟨hd, rfl, hrev⟩
    obtain ⟨d', hd'⟩ : ∃ d', r.drives.find? (fun d' => d'.future = d.future) = some d' := by
      refine isSome_iff_exists.mp (find?_isSome.mpr ⟨d, hd, ?_⟩)
      simp
    have heq : d' = d := inj_on_of_nodup_map h.distinct (mem_of_find?_eq_some hd') hd (by simpa using find?_some hd')
    rw [hd', heq, bind_some, hrev, map_some]

/-- A task that has begun is current exactly if it belongs to the current revision. -/
theorem Valid.isCurrent_iff (h : r.Valid) {d : Drive} {rev : ℤ} (hd : d ∈ r.drives) (hrev : d.rev = some rev) :
    r.slot.isCurrent d.future rev ↔ r.slot.state = .computing ∧ r.slot.computeRev = some d.spawned := by
  unfold AsyncSlot.isCurrent
  by_cases hfut : r.slot.future = some d.future
  · obtain ⟨hstate, hspawned, hbegun⟩ := h.current d hd hfut
    simp [hfut, hstate, hspawned, hbegun rev hrev]
  · refine iff_of_false (fun hc => hfut hc.2) ?_
    rintro ⟨hstate, hcompute⟩
    have hsame : r.slot.revision = d.spawned := some.inj ((h.computing hstate).symm.trans hcompute)
    have hlt := h.superseded d hd hfut
    omega

theorem Valid.finish (h : r.Valid) (fut : ℕ) : (r.finish fut).Valid := by
  have hsub : ∀ d ∈ (r.finish fut).drives, d ∈ r.drives := fun d hd => mem_of_mem_filter hd
  exact ⟨fun d hd => h.current d (hsub d hd), fun d hd => h.superseded d (hsub d hd), h.computing,
    h.value, h.future, fun d hd => h.drives d (hsub d hd),
    h.distinct.sublist (filter_sublist.map _)⟩

/-- The current task is done, and the slot is not computing any more. -/
theorem Valid.publish (h : r.Valid) {d : Drive} (hfut : r.slot.future = some d.future)
    {s : AsyncSlot V E} (hrevision : s.revision = r.slot.revision)
    (hfuture : s.future = r.slot.future) (hstate : s.state ≠ .computing)
    (hvalue : s.state ≠ .resolved → s.value = none) :
    (Runtime.finish d.future { r with slot := s }).Valid := by
  have hother : ∀ d' ∈ (Runtime.finish d.future { r with slot := s }).drives,
      d' ∈ r.drives ∧ r.slot.future ≠ some d'.future := by
    intro d' hd'
    obtain ⟨hmem, hne⟩ := mem_filter.mp hd'
    refine ⟨hmem, fun heq => ?_⟩
    have hsame : d.future = d'.future := some.inj (hfut.symm.trans heq)
    simp [hsame] at hne
  refine ⟨fun d' hd' heq => ?_, fun d' hd' _ => ?_, fun hc => absurd hc hstate, hvalue, fun fut heq => ?_,
    fun d' hd' => h.drives d' (hother d' hd').1, h.distinct.sublist (filter_sublist.map _)⟩
  · exact absurd (hfuture ▸ heq) (hother d' hd').2
  · have hlt := h.superseded d' (hother d' hd').1 (hother d' hd').2
    show d'.spawned < s.revision
    omega
  · exact h.future fut (hfuture ▸ heq)

/-- What a completion does to the slot, where the task has begun and is current. -/
theorem slot_completeOk (fut : ℕ) (value : Option V) : (r.completeOk fut value).slot = match r.running? fut with
    | none => r.slot
    | some (_, rev) =>
      if r.slot.isCurrent fut rev then { r.slot with state := .resolved, computeRev := none, value }
      else r.slot := by
  unfold completeOk
  split
  · rfl
  · split
    · simp [Runtime.finish]
    · simp [Runtime.finish]

theorem slot_completeErr (fut : ℕ) (error : E) : (r.completeErr fut error).slot = match r.running? fut with
    | none => r.slot
    | some (_, rev) =>
      if r.slot.isCurrent fut rev then
        { r.slot with state := .error, computeRev := none, error := some error }
      else r.slot := by
  unfold completeErr
  split
  · rfl
  · split
    · simp [Runtime.finish]
    · simp [Runtime.finish]

theorem finish_resolve (fut : ℕ) (outcome : Future V E) :
    (r.resolve fut outcome).finish fut = (r.finish fut).resolve fut outcome := by
  unfold resolve Runtime.finish
  dsimp only
  split
  · rfl
  · rfl

theorem Valid.completeOk (h : r.Valid) (fut : ℕ) (value : Option V) : (r.completeOk fut value).Valid := by
  unfold Runtime.completeOk
  split
  · exact h
  · next d rev hrunning =>
    obtain ⟨hd, rfl, hrev⟩ := h.running?_eq_some.mp hrunning
    split
    · next hcurrent =>
      have hpublished := h.publish
        (s := { r.slot with state := .resolved, computeRev := none, value }) hcurrent.2 rfl rfl
        (by simp) fun hne => absurd rfl hne
      rw [finish_resolve]
      exact hpublished.resolve _ _
    · exact (h.resolve _ _).finish _

theorem Valid.completeErr (h : r.Valid) (fut : ℕ) (error : E) : (r.completeErr fut error).Valid := by
  unfold Runtime.completeErr
  split
  · exact h
  · next d rev hrunning =>
    obtain ⟨hd, rfl, hrev⟩ := h.running?_eq_some.mp hrunning
    split
    · next hcurrent =>
      have hstate := (h.current d hd hcurrent.2).1
      have hpublished := h.publish
        (s := { r.slot with state := .error, computeRev := none, error := some error }) hcurrent.2 rfl
        rfl (by simp) fun _ => h.value (by simp [hstate])
      rw [finish_resolve]
      exact hpublished.resolve _ _
    · exact (h.resolve _ _).finish _

theorem Valid.step (h : r.Valid) (event : Event V E) : (r.step event).Valid := by
  cases event with
  | get => exact h.get
  | begins fut => exact h.begins fut
  | completeOk fut value => exact h.completeOk fut value
  | completeErr fut error => exact h.completeErr fut error
  | cancelWaiter fut => exact h.resolve fut _
  | invalidate => exact h.invalidate
  | hardClear => exact h.advance rfl (.inl rfl) (nomatch ·) fun _ => rfl

end Valid

theorem valid_run (events : List (Event V E)) : (run events).Valid := by
  induction events using reverseRecOn with
  | nil => exact valid_init
  | append_singleton events event ih => exact run_concat events event ▸ ih.step event

end Runtime

end LazilyPy.Async

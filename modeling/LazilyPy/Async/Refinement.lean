import LazilyPy.Async.Slot
import LazilyPy.Lib.Throughout

/-!
# The runtime of async slots and its kernel

Whether a slot is where the transition kernel would be after the same events.
-/

namespace LazilyPy.Async

open List

variable {V E : Type}

/-- What there is to see of a slot. The error is that of a slot that has failed. -/
structure Observed (V E : Type) where
  status : SlotState
  value : Option V
  error : Option E
  revision : ℤ
  deriving DecidableEq

def AsyncSlot.observed (s : AsyncSlot V E) : Observed V E where
  status := s.state
  value := s.value
  error := if s.state = .error then s.error else none
  revision := s.revision

structure Kernel (V E : Type) where
  slot : StepSlot V := ⟨.empty, 0, none, none⟩
  error : Option E := none

namespace Kernel

def apply (k : Kernel V E) (event : SlotEvent V × Option E) : Kernel V E where
  slot := Async.step k.slot event.1
  error :=
    if k.slot.state ≠ .error ∧ (Async.step k.slot event.1).state = .error then event.2 else k.error

def observed (k : Kernel V E) : Observed V E where
  status := k.slot.state
  value := k.slot.value
  error := if k.slot.state = .error then k.error else none
  revision := k.slot.revision

end Kernel

namespace Runtime

/-- An event as the kernel has it: a `get` starts a slot that is empty and retries one that has failed,
and a completion is of the revision to which its task belongs. -/
def kernelEvents (r : Runtime V E) : Event V E → List (SlotEvent V × Option E)
  | .get => [(.start, none), (.retry, none)]
  | .completeOk fut value =>
    match r.running? fut with
    | some (d, _) => [(.completeOk d.spawned value, none)]
    | none => []
  | .completeErr fut error =>
    match r.running? fut with
    | some (d, _) => [(.completeErr d.spawned, some error)]
    | none => []
  | .begins _ | .cancelWaiter _ => []
  | .invalidate => [(.invalidate, none)]
  | .hardClear => [(.hardClear, none)]

def InvalidatesFailed (r : Runtime V E) : Event V E → Prop
  | .invalidate => r.slot.state = .error
  | _ => False

/-- The completion of a task that belongs to an earlier revision leaves the slot as it is. -/
def Discards (r : Runtime V E) : Prop :=
  ∀ d ∈ r.drives, d.spawned < r.slot.revision → ∀ value error,
    (r.completeOk d.future value).slot = r.slot ∧ (r.completeErr d.future error).slot = r.slot

end Runtime

def trace (events : List (Event V E)) : List (SlotEvent V × Option E) :=
  (events.foldl (fun acc event => (acc.1.step event, acc.2 ++ acc.1.kernelEvents event))
    (({} : Runtime V E), [])).2

def kernel (events : List (Event V E)) : Kernel V E :=
  (trace events).foldl Kernel.apply {}

theorem trace_concat (events : List (Event V E)) (event : Event V E) :
    trace (events ++ [event]) = trace events ++ (Runtime.run events).kernelEvents event := by
  have hrun : ∀ (events : List (Event V E)) acc, (events.foldl
      (fun acc event => (acc.1.step event, acc.2 ++ acc.1.kernelEvents event)) acc).1 =
        events.foldl Runtime.step acc.1 := by
    intro events
    induction events with
    | nil => exact fun _ => rfl
    | cons e events ih => exact fun acc => ih _
  unfold trace
  rw [foldl_append, foldl_cons, foldl_nil, hrun]
  rfl

theorem kernel_concat (events : List (Event V E)) (event : Event V E) : kernel (events ++ [event]) =
      ((Runtime.run events).kernelEvents event).foldl Kernel.apply (kernel events) := by
  rw [kernel, trace_concat, foldl_append]
  rfl

/-! ## One event -/

structure Matches (s : AsyncSlot V E) (k : Kernel V E) : Prop where
  state : s.state = k.slot.state
  revision : s.revision = k.slot.revision
  computeRev : s.computeRev = k.slot.computeRev
  value : s.value = k.slot.value
  error : s.state = .error → s.error = k.error

namespace Matches

variable {s : AsyncSlot V E} {k : Kernel V E} {r : Runtime V E}

theorem observed (h : Matches s k) : s.observed = k.observed := by
  have herror : (if s.state = .error then s.error else none) = if k.slot.state = .error then k.error else none := by
    rw [← h.state]
    split
    · next hs => exact h.error hs
    · rfl
  unfold AsyncSlot.observed Kernel.observed
  rw [herror, h.state, h.revision, h.value]

/-- A task that completes is current for the slot exactly if it is for the kernel. -/
theorem isCurrent_iff (h : Matches r.slot k) (hv : r.Valid) {d : Drive} {rev : ℤ} (hd : d ∈ r.drives)
    (hrev : d.rev = some rev) : r.slot.isCurrent d.future rev ↔
      k.slot.state = .computing ∧ k.slot.computeRev = some d.spawned := by
  rw [hv.isCurrent_iff hd hrev, h.state, h.computeRev]

theorem get (h : Matches r.slot k) (hv : r.Valid) :
    Matches r.get.slot ([(.start, none), (.retry, none)].foldl Kernel.apply k) := by
  obtain ⟨⟨state, revision, computeRev, value⟩, error⟩ := k
  have hstate : r.slot.state = state := h.state
  have hrevision : r.slot.revision = revision := h.revision
  simp only [foldl_cons, foldl_nil]
  cases state with
  | empty =>
    have hget : r.get = r.spawn := by simp [Runtime.get, hstate]
    rw [hget]
    exact ⟨rfl, hrevision, congrArg some hrevision, rfl, fun herror => by cases herror⟩
  | computing =>
    have hcompute : computeRev = some revision := by
      rw [← hrevision, ← hv.computing hstate]
      exact h.computeRev.symm
    have hvalue : value = none := by
      rw [← hv.value (by simp [hstate])]
      exact h.value.symm
    subst hcompute hvalue
    unfold Runtime.get
    rw [if_neg (by simp [hstate]), if_neg (by simp [hstate])]
    split
    · exact ⟨rfl, hrevision, congrArg some hrevision, rfl, fun herror => by cases herror⟩
    · exact h
  | resolved =>
    have hget : r.get = r := by simp [Runtime.get, hstate]
    rw [hget]
    exact h
  | error =>
    have hget : r.get = r.spawn := by simp [Runtime.get, hstate]
    rw [hget]
    exact ⟨rfl, hrevision, congrArg some hrevision, rfl, fun herror => by cases herror⟩

theorem completeOk (h : Matches r.slot k) (hv : r.Valid) (fut : ℕ) (value : Option V) :
    Matches (r.completeOk fut value).slot
      ((r.kernelEvents (.completeOk fut value)).foldl Kernel.apply k) := by
  rw [Runtime.slot_completeOk, Runtime.kernelEvents]
  cases hrunning : r.running? fut with
  | none => exact h
  | some found =>
    obtain ⟨d, rev⟩ := found
    obtain ⟨hd, rfl, hrev⟩ := hv.running?_eq_some.mp hrunning
    simp only [foldl_cons, foldl_nil, Kernel.apply, Async.step, ← h.isCurrent_iff hv hd hrev]
    split
    · exact ⟨rfl, h.revision, rfl, rfl, fun herror => by cases herror⟩
    · simpa using h

theorem completeErr (h : Matches r.slot k) (hv : r.Valid) (fut : ℕ) (error : E) : Matches (r.completeErr fut error).slot
      ((r.kernelEvents (.completeErr fut error)).foldl Kernel.apply k) := by
  rw [Runtime.slot_completeErr, Runtime.kernelEvents]
  cases hrunning : r.running? fut with
  | none => exact h
  | some found =>
    obtain ⟨d, rev⟩ := found
    obtain ⟨hd, rfl, hrev⟩ := hv.running?_eq_some.mp hrunning
    simp only [foldl_cons, foldl_nil, Kernel.apply, Async.step, ← h.isCurrent_iff hv hd hrev]
    split
    · next hcurrent =>
      have hstate := (hv.isCurrent_iff hd hrev).mp hcurrent |>.1
      refine ⟨rfl, h.revision, rfl, hv.value (by simp [hstate]), fun _ => ?_⟩
      simp [← h.state, hstate]
    · simpa using h

theorem invalidate (h : Matches s k) (hs : s.state ≠ .error) :
    Matches s.invalidate (k.apply (.invalidate, none)) := by
  obtain ⟨⟨state, revision, computeRev, value⟩, error⟩ := k
  have hstate : s.state = state := h.state
  have hrevision : s.revision + 1 = revision + 1 := congrArg (· + 1) h.revision
  have hslot : s.invalidate = { s with
      revision := s.revision + 1, state := .computing,
      computeRev := some (s.revision + 1), value := none, future := none } := by
    simp [AsyncSlot.invalidate, hs]
  rw [hslot]
  cases state with
  | empty => exact ⟨rfl, hrevision, congrArg some hrevision, rfl, fun herror => by cases herror⟩
  | computing => exact ⟨rfl, hrevision, congrArg some hrevision, rfl, fun herror => by cases herror⟩
  | resolved => exact ⟨rfl, hrevision, congrArg some hrevision, rfl, fun herror => by cases herror⟩
  | error => exact absurd hstate hs

/-- An event leaves the slot where the kernel is, unless it invalidates a slot that has failed. -/
theorem step (h : Matches r.slot k) (hv : r.Valid) {event : Event V E} (hevent : ¬ r.InvalidatesFailed event) :
    Matches (r.step event).slot ((r.kernelEvents event).foldl Kernel.apply k) := by
  cases event with
  | get => exact h.get hv
  | begins fut => exact h
  | completeOk fut value => exact h.completeOk hv fut value
  | completeErr fut error => exact h.completeErr hv fut error
  | cancelWaiter fut =>
    simp only [Runtime.step, Runtime.slot_resolve]
    exact h
  | invalidate => exact h.invalidate hevent
  | hardClear =>
    exact ⟨rfl, congrArg (· + 1) h.revision, rfl, rfl, fun herror => by cases herror⟩

end Matches

/-! ## Runs -/

/-- A task of an earlier revision is not the current one, so its completion is discarded. -/
theorem Runtime.Valid.discards {r : Runtime V E} (hv : r.Valid) : r.Discards := by
  intro d hd hlt value error
  have hnot : ∀ d' rev, r.running? d.future = some (d', rev) → ¬ r.slot.isCurrent d.future rev := by
    intro d' rev hrunning hcurrent
    have hspawned := (hv.current d hd hcurrent.2).2.1
    omega
  rw [Runtime.slot_completeOk, Runtime.slot_completeErr]
  cases hrunning : r.running? d.future with
  | none => exact ⟨rfl, rfl⟩
  | some found => exact ⟨if_neg (hnot _ _ hrunning), if_neg (hnot _ _ hrunning)⟩

/-- In every run in which no slot that has failed is invalidated the slot is where the kernel is. -/
theorem matches_run {events : List (Event V E)}
    (h : Throughout (fun before e => ¬ (Runtime.run before).InvalidatesFailed e) events) :
    Matches (Runtime.run events).slot (kernel events) := by
  induction events using reverseRecOn with
  | nil => exact ⟨rfl, rfl, rfl, rfl, fun herror => by cases herror⟩
  | append_singleton events event ih =>
    obtain ⟨hbefore, hevent⟩ := throughout_concat.mp h
    rw [Runtime.run_concat, kernel_concat]
    exact (ih hbefore).step (Runtime.valid_run events) hevent

/-- At every moment of a run the slot is where the kernel is after the same events, and no completion
of an earlier revision is published, if and only if no slot that has failed is invalidated. -/
theorem refines_iff (events : List (Event V E)) :
    (∀ before, before <+: events → (Runtime.run before).slot.observed = (kernel before).observed ∧
      (Runtime.run before).Discards) ↔
    Throughout (fun before e => ¬ (Runtime.run before).InvalidatesFailed e) events := by
  constructor
  · rintro h before event after rfl hfailed
    have hbefore := (h before (prefix_append _ _)).1
    have hafter := (h (before ++ [event]) (by simp)).1
    rw [Runtime.run_concat, kernel_concat] at hafter
    cases event with
    | invalidate =>
      -- the revision of the slot goes up, the one of the kernel does not
      have hstate : (Runtime.run before).slot.state = .error := hfailed
      have hkernel : (kernel before).slot.state = .error :=
        (congrArg Observed.status hbefore).symm.trans hstate
      have hrevision := congrArg Observed.revision hbefore
      have hnext := congrArg Observed.revision hafter
      simp [AsyncSlot.observed, Kernel.observed, Runtime.step, Runtime.kernelEvents,
        AsyncSlot.invalidate, Kernel.apply, Async.step, hstate, hkernel] at hrevision hnext
      omega
    | get | begins fut | completeOk fut value | completeErr fut error | cancelWaiter fut
    | hardClear => exact hfailed
  · rintro h before ⟨after, rfl⟩
    exact ⟨(matches_run h.of_append).observed, (Runtime.valid_run before).discards⟩

def failing : List (Event ℕ String) :=
  [.get, .begins 0, .completeErr 0 "boom", .invalidate]

theorem not_every_run_refines : ¬ ∀ events : List (Event ℕ String),
    (Runtime.run events).slot.observed = (kernel events).observed := by
  intro h
  have hrevision := congrArg Observed.revision (h failing)
  revert hrevision
  decide

end LazilyPy.Async

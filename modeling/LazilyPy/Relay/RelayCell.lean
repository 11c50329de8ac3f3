import LazilyPy.Ingress.Basic
import LazilyPy.Lib.Merging
import Mathlib.Data.List.Induction

/-!
# The relay cell

A fast producer merges its values into a hot head, which a slow consumer drains.
-/

namespace LazilyPy.Relay

open Ingress (MergePolicy Overflow)

variable {T : Type}

inductive IngressOutcome where
  | accepted | conflated | dropped | blocked
  deriving DecidableEq, Repr

inductive RelayConfigError where
  | conflateNotBounding
  deriving DecidableEq

structure BackpressurePolicy where
  highWater : ℤ
  overflow : Overflow

/-- The relay. A head that is `none` is an empty window. -/
structure RelayCell (T : Type) where
  policy : BackpressurePolicy
  mergePolicy : MergePolicy T
  head : Option T := none
  pending : ℕ := 0

namespace RelayCell

def new (policy : BackpressurePolicy) (mergePolicy : MergePolicy T) : Except RelayConfigError (RelayCell T) :=
  if policy.overflow = .conflate ∧ mergePolicy.conflates = false then .error .conflateNotBounding
  else .ok { policy, mergePolicy }

def readFull (relay : RelayCell T) : Prop :=
  relay.policy.highWater ≤ relay.pending

instance (relay : RelayCell T) : Decidable relay.readFull :=
  inferInstanceAs (Decidable (relay.policy.highWater ≤ relay.pending))

def mergeIntoHead (relay : RelayCell T) (op : T) : RelayCell T :=
  { relay with head := some (mergeOnto relay.mergePolicy.merge relay.head op) }

def take (relay : RelayCell T) (op : T) : RelayCell T × IngressOutcome :=
  ({ relay.mergeIntoHead op with pending := relay.pending + 1 }, if relay.pending = 0 then .accepted else .conflated)

/-- One value. Where the overflow policy conflates or spills, a full window takes it as well. -/
def ingress (relay : RelayCell T) (op : T) : RelayCell T × IngressOutcome :=
  if relay.readFull then
    match relay.policy.overflow with
    | .block => (relay, .blocked)
    | .dropNewest => (relay, .dropped)
    | .dropOldest => ({ relay with head := some op, pending := 1 }, .dropped)
    | .conflate | .spill => relay.take op
  else relay.take op

def drain (relay : RelayCell T) : RelayCell T × Option T :=
  match relay.head with
  | none => (relay, none)
  | some cur => ({ relay with head := none, pending := 0 }, some cur)

def setHighWater (relay : RelayCell T) (highWater : ℤ) : RelayCell T :=
  { relay with policy := { relay.policy with highWater } }

end RelayCell

inductive RelayOp (T : Type) where
  | ingress (op : T)
  | drain
  | setHighWater (highWater : ℤ)

/-- A relay, all values that have been offered to it, those of them that it has not blocked, and the
windows that have been drained. -/
structure Schedule (T : Type) where
  relay : RelayCell T
  offered : List T := []
  taken : List T := []
  drained : List T := []

namespace Schedule

def step (s : Schedule T) : RelayOp T → Schedule T
  | .ingress op => {
      relay := (s.relay.ingress op).1
      offered := s.offered ++ [op]
      taken := if (s.relay.ingress op).2 = .blocked then s.taken else s.taken ++ [op]
      drained := s.drained }
  | .drain => { s with relay := s.relay.drain.1, drained := s.drained ++ s.relay.drain.2.toList }
  | .setHighWater highWater => { s with relay := s.relay.setHighWater highWater }

def run (relay : RelayCell T) (ops : List (RelayOp T)) : Schedule T :=
  ops.foldl step { relay }

theorem run_concat (relay : RelayCell T) (ops : List (RelayOp T)) (op : RelayOp T) :
    run relay (ops ++ [op]) = (run relay ops).step op := by
  simp [run, List.foldl_append]

/-- What has been drained and what is held merge to what has been taken, and where the relay conflates
everything has been taken. -/
structure Converges (merge : T → T → T) (overflow : Overflow) (s : Schedule T) : Prop where
  merge_eq : s.relay.mergePolicy.merge = merge
  overflow_eq : s.relay.policy.overflow = overflow
  window : mergeAll merge (s.drained ++ s.relay.head.toList) = mergeAll merge s.taken
  taken : overflow = .conflate → s.taken = s.offered

variable {merge : T → T → T} {overflow : Overflow} {s : Schedule T}

/-- A value is merged into the head after all that has been taken. -/
theorem Converges.mergeIntoHead [Std.Associative merge] (h : Converges merge overflow s) (op : T) :
    mergeAll merge (s.drained ++ (s.relay.mergeIntoHead op).head.toList) = mergeAll merge (s.taken ++ [op]) := by
  have hassoc : s.drained = [] ∨ Std.Associative merge := .inr inferInstance
  rw [RelayCell.mergeIntoHead, h.merge_eq, Option.toList_some, mergeAll_mergeOnto hassoc, h.window, mergeAll_concat]

theorem Converges.ingress [Std.Associative merge] (h : Converges merge overflow s)
    (hoverflow : overflow = .conflate ∨ overflow = .block) (op : T) :
    Converges merge overflow (s.step (.ingress op)) := by
  have hmerged := h.mergeIntoHead op
  by_cases hblocked : s.relay.readFull ∧ overflow = .block
  · obtain ⟨hfull, rfl⟩ := hblocked
    have hingress : s.relay.ingress op = (s.relay, .blocked) := by
      rw [RelayCell.ingress, if_pos hfull, h.overflow_eq]
    simp only [step, hingress, if_true]
    exact ⟨h.merge_eq, h.overflow_eq, h.window, fun hconflate => nomatch hconflate⟩
  · have hingress : s.relay.ingress op = s.relay.take op := by
      unfold RelayCell.ingress
      split
      · next hfull =>
        obtain rfl | rfl := hoverflow
        · rw [h.overflow_eq]
        · exact absurd ⟨hfull, rfl⟩ hblocked
      · rfl
    have htaken : (s.relay.ingress op).2 ≠ .blocked := by
      rw [hingress, RelayCell.take]
      dsimp only
      split
      · simp
      · simp
    simp only [step, if_neg htaken]
    refine ⟨?_, ?_, ?_, fun hconflate => by rw [h.taken hconflate]⟩
    · rw [hingress]
      exact h.merge_eq
    · rw [hingress]
      exact h.overflow_eq
    · rw [hingress]
      exact hmerged

theorem Converges.drain (h : Converges merge overflow s) : Converges merge overflow (s.step .drain) := by
  simp only [step, RelayCell.drain]
  cases hhead : s.relay.head with
  | none =>
    refine ⟨h.merge_eq, h.overflow_eq, ?_, h.taken⟩
    simpa [hhead] using h.window
  | some cur =>
    refine ⟨h.merge_eq, h.overflow_eq, ?_, h.taken⟩
    simpa [hhead] using h.window

theorem taken_run [Std.Associative merge] (relay : RelayCell T) (hmerge : relay.mergePolicy.merge = merge)
    (hoverflow : relay.policy.overflow = .conflate ∨ relay.policy.overflow = .block)
    (hhead : relay.head = none) (ops : List (RelayOp T)) :
    Converges merge relay.policy.overflow (run relay ops) := by
  induction ops using List.reverseRecOn with
  | nil =>
    refine ⟨hmerge, rfl, ?_, fun _ => rfl⟩
    show mergeAll merge ([] ++ relay.head.toList) = none
    rw [hhead]
    rfl
  | append_singleton ops op ih =>
    rw [run_concat]
    cases op with
    | ingress op => exact ih.ingress hoverflow op
    | drain => exact ih.drain
    | setHighWater highWater => exact ⟨ih.merge_eq, ih.overflow_eq, ih.window, ih.taken⟩

end Schedule

/-- Whatever the schedule, the drained windows and the head merge to the values that have been taken, in
their order, from nothing and from any value of the consumer. A relay that conflates takes them all. -/
theorem relay_converges {policy : BackpressurePolicy} {mergePolicy : MergePolicy T}
    [Std.Associative mergePolicy.merge] {relay : RelayCell T}
    (hnew : RelayCell.new policy mergePolicy = .ok relay)
    (hoverflow : policy.overflow = .conflate ∨ policy.overflow = .block) (ops : List (RelayOp T)) :
    mergeAll mergePolicy.merge
        ((Schedule.run relay ops).drained ++ (Schedule.run relay ops).relay.head.toList) =
      mergeAll mergePolicy.merge (Schedule.run relay ops).taken ∧
    (∀ consumer, ((Schedule.run relay ops).drained ++ (Schedule.run relay ops).relay.head.toList).foldl
        mergePolicy.merge consumer = (Schedule.run relay ops).taken.foldl mergePolicy.merge consumer) ∧
    (policy.overflow = .conflate → (Schedule.run relay ops).taken = (Schedule.run relay ops).offered) := by
  unfold RelayCell.new at hnew
  split at hnew
  · exact nomatch hnew
  · obtain rfl := Except.ok.inj hnew
    have h := Schedule.taken_run { policy, mergePolicy } rfl hoverflow rfl ops
    refine ⟨h.window, fun consumer => ?_, h.taken⟩
    rw [foldl_eq_mergeAll, h.window, ← foldl_eq_mergeAll]

def conflating : RelayCell (List ℕ) where
  policy := { highWater := 2, overflow := .conflate }
  mergePolicy := { merge := (· ++ ·) }

/-- Three values, of which two are drained before the third one comes. -/
theorem relay_converges_conflating : mergeAll (· ++ ·) ((Schedule.run conflating [.ingress [1], .ingress [2], .drain,
      .setHighWater 0, .ingress [3]]).drained ++ [[3]]) = some [1, 2, 3] := by
  have hassoc : Std.Associative conflating.mergePolicy.merge := ⟨List.append_assoc⟩
  have h := @relay_converges (List ℕ) conflating.policy conflating.mergePolicy hassoc conflating rfl
    (.inl rfl) [.ingress [1], .ingress [2], .drain, .setHighWater 0, .ingress [3]]
  exact h.1

end LazilyPy.Relay

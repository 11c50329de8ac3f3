import LazilyPy.Lib.Table
import Mathlib.Algebra.Order.Ring.Int

/-!
# The latest-durable projection

For each key the newest desired revision waits while one attempt to write an earlier one is in flight.
An attempt counts only under the exact token, generation and epoch, with which it has been claimed.
-/

namespace LazilyPy.Durable

variable {K V : Type}

structure LatestDurableRevision (V : Type) where
  epoch : ℤ
  value : V
  deriving DecidableEq, Repr

structure LatestDurableEnvelope (K V : Type) where
  generation : ℤ
  key : K
  epoch : ℤ
  value : V
  deriving DecidableEq, Repr

def LatestDurableEnvelope.revision (envelope : LatestDurableEnvelope K V) : LatestDurableRevision V :=
  ⟨envelope.epoch, envelope.value⟩

structure LatestDurableKeyState (K V : Type) where
  key : K
  desired : Option (LatestDurableRevision V) := none
  inflight : Option (LatestDurableEnvelope K V) := none
  durableThrough : Option ℤ := none
  deriving DecidableEq, Repr

structure LatestDurableSnapshot (K V : Type) where
  generation : ℤ
  entries : List (LatestDurableKeyState K V)
  deriving DecidableEq, Repr

structure LatestDurableChange where
  state : Bool := false
  deriving DecidableEq, Repr

inductive LatestDurableUpsert where
  | accepted
  | unchanged
  | alreadyDurable (durableThrough : ℤ)
  | staleEpoch (current : ℤ)
  | epochConflict
  deriving DecidableEq, Repr

inductive LatestDurableClaim (K V : Type) where
  | claimed (envelope : LatestDurableEnvelope K V)
  | empty
  | busy
  | staleGeneration (current : ℤ)
  deriving DecidableEq, Repr

inductive LatestDurableAck where
  | advanced (durableThrough : ℤ)
  | unchanged (durableThrough : ℤ)
  | unknownEpoch
  | staleGeneration (current : ℤ)
  deriving DecidableEq, Repr

inductive LatestDurableFailure where
  | pending
  | superseded
  | unknownEpoch
  | staleGeneration (current : ℤ)
  deriving DecidableEq, Repr

inductive LatestDurableReconnect where
  | advanced (generation : ℤ) (requeued superseded : ℕ)
  | unchanged (generation : ℤ)
  | staleGeneration (current : ℤ)
  deriving DecidableEq, Repr

namespace LatestDurableKeyState

def retained (entry : LatestDurableKeyState K V) : List (LatestDurableRevision V) :=
  entry.desired.toList ++ (entry.inflight.map LatestDurableEnvelope.revision).toList

def supersedes (entry : LatestDurableKeyState K V) (inflight : LatestDurableEnvelope K V) : Bool :=
  entry.desired.any fun desired => inflight.epoch < desired.epoch

/-- The attempt is given up. What it was to write is desired again, unless it is superseded. -/
def release (entry : LatestDurableKeyState K V) (inflight : LatestDurableEnvelope K V) : LatestDurableKeyState K V :=
  if entry.supersedes inflight then { entry with inflight := none }
  else { entry with inflight := none, desired := some inflight.revision }

def recover (entry : LatestDurableKeyState K V) : LatestDurableKeyState K V :=
  entry.inflight.elim entry entry.release

@[simp] theorem key_release {entry : LatestDurableKeyState K V}
    {inflight : LatestDurableEnvelope K V} : (entry.release inflight).key = entry.key := by
  unfold release
  split
  · rfl
  · rfl

@[simp] theorem inflight_release {entry : LatestDurableKeyState K V}
    {inflight : LatestDurableEnvelope K V} : (entry.release inflight).inflight = none := by
  unfold release
  split
  · rfl
  · rfl

@[simp] theorem key_recover (entry : LatestDurableKeyState K V) : entry.recover.key = entry.key := by
  unfold recover
  cases entry.inflight with
  | none => rfl
  | some inflight => exact key_release

end LatestDurableKeyState

structure LatestDurableProjectionCore (K V : Type) where
  generation : ℤ
  entries : Table (LatestDurableKeyState.key (K := K) (V := V)) := .empty _

def requireEpoch (value : ℤ) (name : String) : Except String Unit :=
  if value < 0 then .error (name ++ " must be non-negative") else .ok ()

theorem requireEpoch_bind {α : Type} {value : ℤ} {name : String} {x : Except String α} {a : α} :
    (requireEpoch value name >>= fun _ => x) = .ok a ↔ 0 ≤ value ∧ x = .ok a := by
  unfold requireEpoch
  split
  · next h => exact iff_of_false (fun heq => nomatch heq) fun hand => absurd hand.1 (not_le.mpr h)
  · next h => exact (and_iff_right (not_lt.mp h)).symm

namespace LatestDurableProjectionCore

def new (generation : ℤ) : Except String (LatestDurableProjectionCore K V) := do
  requireEpoch generation "generation"
  return { generation }

def snapshot (core : LatestDurableProjectionCore K V) : LatestDurableSnapshot K V where
  generation := core.generation
  entries := core.entries.rows

variable [DecidableEq K]

def state (core : LatestDurableProjectionCore K V) (key : K) : Option (LatestDurableKeyState K V) :=
  core.entries.get? key

def upsertDesired [BEq V] (core : LatestDurableProjectionCore K V) (key : K) (epoch : ℤ) (value : V) :
    Except String (LatestDurableProjectionCore K V × LatestDurableChange × LatestDurableUpsert) := do
  requireEpoch epoch "epoch"
  let entry := (core.state key).getD { key }
  let accept := ({ core with entries := core.entries.put { entry with desired := some ⟨epoch, value⟩ } },
    ⟨true⟩, .accepted)
  -- the row of a new key is there before anything is decided
  let core := if (core.state key).isNone then { core with entries := core.entries.put entry } else core
  return match entry.durableThrough.filter (epoch ≤ ·) with
  | some durable => (core, {}, .alreadyDurable durable)
  | none =>
    match entry.retained.maxOn? LatestDurableRevision.epoch with
    | none => accept
    | some newest =>
      if epoch < newest.epoch then (core, {}, .staleEpoch newest.epoch)
      else if epoch = newest.epoch then
        (core, {}, if value == newest.value then .unchanged else .epochConflict)
      else accept

def claim (core : LatestDurableProjectionCore K V) (key : K) (generation : ℤ) :
    Except String (LatestDurableProjectionCore K V × LatestDurableChange × LatestDurableClaim K V) := do
  requireEpoch generation "generation"
  return if generation ≠ core.generation then (core, {}, .staleGeneration core.generation)
  else match core.state key with
  | none => (core, {}, .empty)
  | some entry =>
    if entry.inflight.isSome then (core, {}, .busy)
    else match entry.desired with
    | none => (core, {}, .empty)
    | some desired =>
      let envelope := { generation, key, epoch := desired.epoch, value := desired.value }
      ({ core with entries := core.entries.put { entry with desired := none, inflight := some envelope } },
        ⟨true⟩, .claimed envelope)

def ackApplied (core : LatestDurableProjectionCore K V) (key : K) (generation epoch : ℤ) :
    Except String (LatestDurableProjectionCore K V × LatestDurableChange × LatestDurableAck) := do
  requireEpoch generation "generation"
  requireEpoch epoch "epoch"
  return if generation ≠ core.generation then (core, {}, .staleGeneration core.generation)
  else match core.state key with
  | none => (core, {}, .unknownEpoch)
  | some entry =>
    if entry.inflight.all (·.epoch ≠ epoch) then
      match entry.durableThrough.filter (epoch ≤ ·) with
      | some durable => (core, {}, .unchanged durable)
      | none => (core, {}, .unknownEpoch)
    else
      let durable := entry.durableThrough.elim epoch (max · epoch)
      ({ core with entries := core.entries.put { entry with
          inflight := none, durableThrough := some durable } }, ⟨true⟩,
        if entry.durableThrough.any (epoch ≤ ·) then .unchanged durable else .advanced durable)

def failRetryable (core : LatestDurableProjectionCore K V) (key : K) (generation epoch : ℤ) :
    Except String (LatestDurableProjectionCore K V × LatestDurableChange × LatestDurableFailure) := do
  requireEpoch generation "generation"
  requireEpoch epoch "epoch"
  return if generation ≠ core.generation then (core, {}, .staleGeneration core.generation)
  else match core.state key with
  | none => (core, {}, .unknownEpoch)
  | some entry =>
    match entry.inflight.filter (·.epoch = epoch) with
    | none => (core, {}, .unknownEpoch)
    | some inflight =>
      ({ core with entries := core.entries.put (entry.release inflight) }, ⟨true⟩,
        if entry.supersedes inflight then .superseded else .pending)

/-- Begin a new generation and give all attempts of the one before up. -/
def reconnect (core : LatestDurableProjectionCore K V) (newGeneration : ℤ) :
    Except String (LatestDurableProjectionCore K V × LatestDurableChange × LatestDurableReconnect) := do
  requireEpoch newGeneration "generation"
  return if newGeneration < core.generation then (core, {}, .staleGeneration core.generation)
  else if newGeneration = core.generation then (core, {}, .unchanged core.generation)
  else
    let attempts := core.entries.rows.filterMap fun entry => entry.inflight.map entry.supersedes
    ({ generation := newGeneration
       entries := core.entries.map LatestDurableKeyState.recover LatestDurableKeyState.key_recover },
      ⟨true⟩, .advanced newGeneration (attempts.count false) (attempts.count true))

end LatestDurableProjectionCore

inductive Op (K V : Type) where
  | upsertDesired (key : K) (epoch : ℤ) (value : V)
  | claim (key : K) (generation : ℤ)
  | ackApplied (key : K) (generation epoch : ℤ)
  | failRetryable (key : K) (generation epoch : ℤ)
  | reconnect (newGeneration : ℤ)

inductive Answer (K V : Type) where
  | upsert (answer : LatestDurableUpsert)
  | claim (answer : LatestDurableClaim K V)
  | ack (answer : LatestDurableAck)
  | failure (answer : LatestDurableFailure)
  | reconnect (answer : LatestDurableReconnect)

def step [DecidableEq K] [BEq V] (core : LatestDurableProjectionCore K V) :
    Op K V → Except String (LatestDurableProjectionCore K V × LatestDurableChange × Answer K V)
  | .upsertDesired key epoch value =>
    (core.upsertDesired key epoch value).map fun (core, change, answer) => (core, change, .upsert answer)
  | .claim key generation =>
    (core.claim key generation).map fun (core, change, answer) => (core, change, .claim answer)
  | .ackApplied key generation epoch =>
    (core.ackApplied key generation epoch).map fun (core, change, answer) => (core, change, .ack answer)
  | .failRetryable key generation epoch =>
    (core.failRetryable key generation epoch).map fun (core, change, answer) =>
      (core, change, .failure answer)
  | .reconnect newGeneration =>
    (core.reconnect newGeneration).map fun (core, change, answer) => (core, change, .reconnect answer)

end LazilyPy.Durable

import LazilyPy.Lib.Reader
import LazilyPy.Lib.Table
import Mathlib.Algebra.Order.Ring.Int
import Mathlib.Data.List.Sort

/-!
# The work queue

Workers claim items under a lease. A delivery that fails puts its item at the end of the queue again,
until the item has been delivered as often as is allowed.
-/

namespace LazilyPy.WorkQueue

variable {T : Type}

structure WorkQueueItem (T : Type) where
  itemId : ℤ
  value : T
  attempts : ℤ := 0
  deriving DecidableEq, Repr

structure WorkQueueDelivery (T : Type) where
  deliveryId : ℤ
  itemId : ℤ
  value : T
  worker : String
  attempt : ℤ
  deadline : ℤ
  deriving DecidableEq, Repr

inductive WorkQueueDeadLetterReason where
  | nack | expired
  deriving DecidableEq, Repr

structure WorkQueueDeadLetter (T : Type) where
  itemId : ℤ
  value : T
  attempts : ℤ
  reason : WorkQueueDeadLetterReason
  deriving DecidableEq, Repr

structure WorkQueueReaderHandles where
  pendingLen : Reader ℕ := {}
  isEmpty : Reader Bool := {}
  inFlightLen : Reader ℕ := {}
  deadLetterLen : Reader ℕ := {}
  deriving DecidableEq

structure Settings where
  visibilityTimeout : ℤ
  maxDeliveries : ℤ
  timeout_pos : 0 < visibilityTimeout
  max_pos : 1 ≤ maxDeliveries

structure WorkQueueCell (T : Type) where
  settings : Settings
  pending : List (WorkQueueItem T) := []
  inFlight : Table (WorkQueueDelivery.deliveryId (T := T)) := .empty _
  deadLetters : List (WorkQueueDeadLetter T) := []
  nextItemId : ℤ := 0
  nextDeliveryId : ℤ := 0
  readers : WorkQueueReaderHandles := {}

inductive WorkQueueOp (T : Type) where
  | push (value : T)
  | claim (worker : String) (now : ℤ)
  | ack (worker : String) (deliveryId : ℤ)
  | nack (worker : String) (deliveryId : ℤ)
  | reapExpired (now : ℤ)
  | pendingLen
  | isEmpty
  | inFlightLen
  | deadLetterLen
  deriving DecidableEq

inductive Outcome (T : Type) where
  | itemId (itemId : ℤ)
  | delivery (delivery : Option (WorkQueueDelivery T))
  | resolved (resolved : Bool)
  | count (count : ℕ)
  | empty (empty : Bool)
  | raised (message : String)
  deriving DecidableEq

namespace WorkQueueCell

def new (visibilityTimeout maxDeliveries : ℤ) : Except String (WorkQueueCell T) :=
  if htimeout : visibilityTimeout ≤ 0 then .error "visibility_timeout must be positive"
  else if hmax : maxDeliveries < 1 then .error "max_deliveries must be at least one"
  else .ok {
    settings := ⟨visibilityTimeout, maxDeliveries, not_le.mp htimeout, not_lt.mp hmax⟩ }

/-- The numbers of pending items, of deliveries in flight and of dead letters. -/
def counts (q : WorkQueueCell T) : ℕ × ℕ × ℕ :=
  (q.pending.length, q.inFlight.rows.length, q.deadLetters.length)

def invalidate (before : ℕ × ℕ × ℕ) (q : WorkQueueCell T) : WorkQueueCell T where
  __ := q
  readers := {
    pendingLen := q.readers.pendingLen.resetIf (before.1 ≠ q.pending.length)
    isEmpty := q.readers.isEmpty.resetIf (¬ (before.1 = 0 ↔ q.pending.length = 0))
    inFlightLen := q.readers.inFlightLen.resetIf (before.2.1 ≠ q.inFlight.rows.length)
    deadLetterLen := q.readers.deadLetterLen.resetIf (before.2.2 ≠ q.deadLetters.length) }

def push (q : WorkQueueCell T) (value : T) : ℤ × WorkQueueCell T :=
  (q.nextItemId, invalidate q.counts { q with
    nextItemId := q.nextItemId + 1
    pending := q.pending ++ [{ itemId := q.nextItemId, value }] })

def claim (q : WorkQueueCell T) (worker : String) (now : ℤ) :
    Except String (Option (WorkQueueDelivery T) × WorkQueueCell T) :=
  if now < 0 then .error "now must be non-negative"
  else match q.pending with
  | [] => .ok (none, q)
  | item :: rest =>
    let delivery : WorkQueueDelivery T := {
      deliveryId := q.nextDeliveryId
      itemId := item.itemId
      value := item.value
      worker
      attempt := item.attempts + 1
      deadline := now + q.settings.visibilityTimeout }
    .ok (some delivery, invalidate q.counts { q with
      pending := rest
      nextDeliveryId := q.nextDeliveryId + 1
      inFlight := q.inFlight.put delivery })

def remove (q : WorkQueueCell T) (deliveryId : ℤ) : WorkQueueCell T :=
  { q with inFlight := q.inFlight.filter (·.deliveryId ≠ deliveryId) }

def ack (q : WorkQueueCell T) (worker : String) (deliveryId : ℤ) : Bool × WorkQueueCell T :=
  match q.inFlight.get? deliveryId with
  | none => (false, q)
  | some delivery =>
    if delivery.worker ≠ worker then (false, q)
    else (true, invalidate q.counts (q.remove deliveryId))

/-- The item is queued again, or given up after its last delivery. -/
def fail (q : WorkQueueCell T) (delivery : WorkQueueDelivery T) (reason : WorkQueueDeadLetterReason) :
    WorkQueueCell T :=
  if q.settings.maxDeliveries ≤ delivery.attempt then
    { q with deadLetters :=
        q.deadLetters ++ [⟨delivery.itemId, delivery.value, delivery.attempt, reason⟩] }
  else { q with pending := q.pending ++ [⟨delivery.itemId, delivery.value, delivery.attempt⟩] }

def nack (q : WorkQueueCell T) (worker : String) (deliveryId : ℤ) : Bool × WorkQueueCell T :=
  match q.inFlight.get? deliveryId with
  | none => (false, q)
  | some delivery =>
    if delivery.worker ≠ worker then (false, q)
    else (true, invalidate q.counts ((q.remove deliveryId).fail delivery .nack))

def expired (q : WorkQueueCell T) (now : ℤ) : List ℤ :=
  ((q.inFlight.rows.filter (·.deadline < now)).map (·.deliveryId)).insertionSort (· ≤ ·)

/-- Take these deliveries from what is in flight, one by one, and fail them. A missing one raises. -/
def failAll (q : WorkQueueCell T) : List ℤ → Option (WorkQueueCell T)
  | [] => some q
  | deliveryId :: rest =>
    match q.inFlight.get? deliveryId with
    | none => none
    | some delivery => failAll ((q.remove deliveryId).fail delivery .expired) rest

def reapExpired (q : WorkQueueCell T) (now : ℤ) : Except String (ℕ × WorkQueueCell T) :=
  if now < 0 then .error "now must be non-negative"
  else if q.expired now = [] then .ok (0, q)
  else match q.failAll (q.expired now) with
  | none => .error "KeyError"
  | some reaped => .ok ((q.expired now).length, invalidate q.counts reaped)

def pendingLen (q : WorkQueueCell T) : ℕ × WorkQueueCell T :=
  let read := q.readers.pendingLen.read q.pending.length
  (read.1, { q with readers := { q.readers with pendingLen := read.2 } })

def isEmpty (q : WorkQueueCell T) : Bool × WorkQueueCell T :=
  let read := q.readers.isEmpty.read q.pending.isEmpty
  (read.1, { q with readers := { q.readers with isEmpty := read.2 } })

def inFlightLen (q : WorkQueueCell T) : ℕ × WorkQueueCell T :=
  let read := q.readers.inFlightLen.read q.inFlight.rows.length
  (read.1, { q with readers := { q.readers with inFlightLen := read.2 } })

def deadLetterLen (q : WorkQueueCell T) : ℕ × WorkQueueCell T :=
  let read := q.readers.deadLetterLen.read q.deadLetters.length
  (read.1, { q with readers := { q.readers with deadLetterLen := read.2 } })

/-- An operation, with what it returns or raises. One that raises changes nothing. -/
def apply (q : WorkQueueCell T) : WorkQueueOp T → Outcome T × WorkQueueCell T
  | .push value => (.itemId (q.push value).1, (q.push value).2)
  | .claim worker now =>
    match q.claim worker now with
    | .error message => (.raised message, q)
    | .ok (delivery, q') => (.delivery delivery, q')
  | .ack worker deliveryId => (.resolved (q.ack worker deliveryId).1, (q.ack worker deliveryId).2)
  | .nack worker deliveryId => (.resolved (q.nack worker deliveryId).1, (q.nack worker deliveryId).2)
  | .reapExpired now =>
    match q.reapExpired now with
    | .error message => (.raised message, q)
    | .ok (count, q') => (.count count, q')
  | .pendingLen => (.count q.pendingLen.1, q.pendingLen.2)
  | .isEmpty => (.empty q.isEmpty.1, q.isEmpty.2)
  | .inFlightLen => (.count q.inFlightLen.1, q.inFlightLen.2)
  | .deadLetterLen => (.count q.deadLetterLen.1, q.deadLetterLen.2)

/-! ## Readers -/

structure ReadersFresh (q : WorkQueueCell T) : Prop where
  pendingLen : q.readers.pendingLen.Fresh q.pending.length
  isEmpty : q.readers.isEmpty.Fresh q.pending.isEmpty
  inFlightLen : q.readers.inFlightLen.Fresh q.inFlight.rows.length
  deadLetterLen : q.readers.deadLetterLen.Fresh q.deadLetters.length

/-- Readers are reset wherever their values have changed. -/
theorem ReadersFresh.invalidate {q q' : WorkQueueCell T} (hq : q.ReadersFresh)
    (hreaders : q'.readers = q.readers) : (invalidate q.counts q').ReadersFresh := by
  have hempty : ¬ ¬ (q.pending.length = 0 ↔ q'.pending.length = 0) → q'.pending.isEmpty = q.pending.isEmpty := by
    intro hsame
    rw [Bool.eq_iff_iff, List.isEmpty_iff_length_eq_zero, List.isEmpty_iff_length_eq_zero]
    exact (not_not.mp hsame).symm
  obtain ⟨hpendingLen, hisEmpty, hinFlightLen, hdeadLetterLen⟩ := hq
  rw [← hreaders] at hpendingLen hisEmpty hinFlightLen hdeadLetterLen
  exact ⟨hpendingLen.resetIf fun hsame => (not_not.mp hsame).symm, hisEmpty.resetIf hempty,
    hinFlightLen.resetIf fun hsame => (not_not.mp hsame).symm,
    hdeadLetterLen.resetIf fun hsame => (not_not.mp hsame).symm⟩

section

variable (q : WorkQueueCell T) (delivery : WorkQueueDelivery T) (reason : WorkQueueDeadLetterReason)

theorem readers_fail : (q.fail delivery reason).readers = q.readers := by
  unfold fail
  split
  · rfl
  · rfl

@[simp] theorem inFlight_fail : (q.fail delivery reason).inFlight = q.inFlight := by
  unfold fail
  split
  · rfl
  · rfl

end

/-- The other deliveries stay in flight. -/
theorem get?_remove {q : WorkQueueCell T} {deliveryId other : ℤ} (hne : other ≠ deliveryId) :
    (q.remove deliveryId).inFlight.get? other = q.inFlight.get? other := by
  show (q.inFlight.filter _).get? other = _
  rw [Table.get?_filter]
  cases hget : q.inFlight.get? other with
  | none => rfl
  | some d =>
    have hid : d.deliveryId = other := Table.key_of_get? hget
    simp [Option.filter, hid, hne]

theorem readers_failAll {q q' : WorkQueueCell T} {ids : List ℤ} (h : q.failAll ids = some q') :
    q'.readers = q.readers := by
  induction ids generalizing q with
  | nil => exact Option.some.inj h ▸ rfl
  | cons deliveryId ids ih =>
    rw [failAll] at h
    cases hlive : q.inFlight.get? deliveryId with
    | none =>
      rw [hlive] at h
      exact nomatch h
    | some delivery =>
      rw [hlive] at h
      exact (ih h).trans (readers_fail _ _ _)

/-- An operation keeps the readers fresh. -/
theorem ReadersFresh.apply {q : WorkQueueCell T} (hq : q.ReadersFresh) (op : WorkQueueOp T) :
    (q.apply op).2.ReadersFresh := by
  cases op with
  | push value => exact hq.invalidate rfl
  | claim worker now =>
    simp only [WorkQueueCell.apply, claim]
    by_cases hnow : now < 0
    · rwa [if_pos hnow]
    · rw [if_neg hnow]
      cases q.pending with
      | nil => exact hq
      | cons item rest => exact hq.invalidate rfl
  | ack worker deliveryId =>
    simp only [WorkQueueCell.apply, ack]
    cases q.inFlight.get? deliveryId with
    | none => exact hq
    | some delivery =>
      dsimp only
      split
      · exact hq
      · exact hq.invalidate rfl
  | nack worker deliveryId =>
    simp only [WorkQueueCell.apply, nack]
    cases q.inFlight.get? deliveryId with
    | none => exact hq
    | some delivery =>
      dsimp only
      split
      · exact hq
      · exact hq.invalidate (readers_fail _ _ _)
  | reapExpired now =>
    simp only [WorkQueueCell.apply, reapExpired]
    by_cases hnow : now < 0
    · rwa [if_pos hnow]
    · rw [if_neg hnow]
      split_ifs
      · exact hq
      · cases hreaped : q.failAll (q.expired now) with
        | none => exact hq
        | some reaped => exact hq.invalidate (readers_failAll hreaped)
  | pendingLen => exact ⟨hq.pendingLen.read, hq.isEmpty, hq.inFlightLen, hq.deadLetterLen⟩
  | isEmpty => exact ⟨hq.pendingLen, hq.isEmpty.read, hq.inFlightLen, hq.deadLetterLen⟩
  | inFlightLen => exact ⟨hq.pendingLen, hq.isEmpty, hq.inFlightLen.read, hq.deadLetterLen⟩
  | deadLetterLen => exact ⟨hq.pendingLen, hq.isEmpty, hq.inFlightLen, hq.deadLetterLen.read⟩

end WorkQueueCell

end LazilyPy.WorkQueue

import LazilyPy.Lib.Reader
import LazilyPy.Lib.Table
import Mathlib.Algebra.Order.Ring.Int
import Mathlib.Data.List.Sort

/-!
# Topics

A log that is trimmed at its front, with a cursor for each subscriber. Cursors are absolute offsets.
-/

namespace LazilyPy.Topic

variable {T : Type}

inductive TopicDurability where
  | durable | ephemeral
  deriving DecidableEq, Repr

inductive TopicSubscribeOutcome where
  | subscribed | reconnected | alreadySubscribed
  deriving DecidableEq, Repr

structure TopicSubscriptionSnapshot where
  subscriberId : String
  cursor : ℤ
  durability : TopicDurability
  connected : Bool
  deriving DecidableEq

structure TopicSnapshot (T : Type) where
  baseOffset : ℤ
  elements : List T
  subscriptions : List TopicSubscriptionSnapshot
  deriving DecidableEq

inductive TopicError where
  | valueError (message : String)
  | keyError
  | indexError
  deriving DecidableEq, Repr

/-- The topic. A reader that has not been minted is as one that keeps nothing. -/
structure TopicCell (T : Type) where
  baseOffset : ℤ := 0
  elements : List T := []
  subscriptions : Table TopicSubscriptionSnapshot.subscriberId := .empty _
  readers : String → Reader (List T) := fun _ => {}

inductive TopicOp (T : Type) where
  | publish (value : T)
  | subscribe (subscriberId : String) (durability : TopicDurability)
  | readStream (subscriberId : String)
  | read (subscriberId : String)
  | advance (subscriberId : String) (count : ℤ)
  | disconnect (subscriberId : String)
  | reconnect (subscriberId : String)
  | gc

inductive Outcome (T : Type) where
  | offset (offset : ℤ)
  | subscribed (outcome : TopicSubscribeOutcome)
  | stream (values : List T)
  | value (value : Option T)
  | done
  | removed (removed : ℤ)
  | raised (error : TopicError)
  deriving DecidableEq

/-- `l[start:]`. An index below zero counts from the end. -/
def pySlice (l : List T) (start : ℤ) : List T :=
  if 0 ≤ start then l.drop start.toNat else l.drop (l.length - (-start).toNat)

/-- `l[i]`. -/
def pyIndex (l : List T) (i : ℤ) : Option T :=
  if 0 ≤ i then l[i.toNat]?
  else if -i ≤ l.length then l[l.length - (-i).toNat]? else none

namespace TopicCell

def tailOffset (t : TopicCell T) : ℤ :=
  t.baseOffset + t.elements.length

def resetReaders (ids : List String) (t : TopicCell T) : TopicCell T :=
  { t with readers := fun sid => (t.readers sid).resetIf (sid ∈ ids) }

def subscription (t : TopicCell T) (subscriberId : String) : Option TopicSubscriptionSnapshot :=
  t.subscriptions.get? subscriberId

def readUntracked (t : TopicCell T) (subscriberId : String) : List T :=
  match t.subscription subscriberId with
  | none => []
  | some sub =>
    if sub.connected then pySlice t.elements (sub.cursor - t.baseOffset) else []

def subscribe (t : TopicCell T) (subscriberId : String) (durability : TopicDurability) : Outcome T × TopicCell T :=
  match t.subscription subscriberId with
  | some existing =>
    if existing.connected then (.subscribed .alreadySubscribed, t)
    else if existing.durability ≠ .durable then
      (.raised (.valueError "only durable subscriptions can reconnect"), t)
    else (.subscribed .reconnected, resetReaders [subscriberId]
      { t with subscriptions := t.subscriptions.put { existing with connected := true } })
  | none => (.subscribed .subscribed, resetReaders [subscriberId]
      { t with subscriptions := t.subscriptions.put ⟨subscriberId, t.tailOffset, durability, true⟩ })

def reconnect (t : TopicCell T) (subscriberId : String) : Outcome T × TopicCell T :=
  match t.subscription subscriberId with
  | none => (.raised .keyError, t)
  | some sub =>
    if sub.durability ≠ .durable then
      (.raised (.valueError "only durable subscriptions can reconnect"), t)
    else if sub.connected then (.done, t)
    else (.done, resetReaders [subscriberId]
      { t with subscriptions := t.subscriptions.put { sub with connected := true } })

def disconnect (t : TopicCell T) (subscriberId : String) : Outcome T × TopicCell T :=
  match t.subscription subscriberId with
  | none => (.raised .keyError, t)
  | some sub =>
    if sub.connected then
      let subscriptions := if sub.durability = .ephemeral then t.subscriptions.filter (·.subscriberId ≠ subscriberId)
        else t.subscriptions.put { sub with connected := false }
      (.done, resetReaders [subscriberId] { t with subscriptions })
    else (.done, t)

def publish (t : TopicCell T) (value : T) : Outcome T × TopicCell T :=
  (.offset t.tailOffset, resetReaders ((t.subscriptions.rows.filter (·.connected)).map (·.subscriberId))
      { t with elements := t.elements ++ [value] })

def readStream (t : TopicCell T) (subscriberId : String) : List T × TopicCell T :=
  let read := (t.readers subscriberId).read (t.readUntracked subscriberId)
  (read.1, { t with readers := fun sid => if sid = subscriberId then read.2 else t.readers sid })

def advance (t : TopicCell T) (subscriberId : String) (count : ℤ) : Outcome T × TopicCell T :=
  if count < 0 then (.raised (.valueError "advance count must be non-negative"), t)
  else if count = 0 then (.value none, t)
  else match t.subscription subscriberId with
  | none => (.raised .keyError, t)
  | some sub =>
    if sub.connected = false ∨ sub.cursor = t.tailOffset then (.value none, t)
    else match pyIndex t.elements (sub.cursor - t.baseOffset) with
    | none => (.raised .indexError, t)
    | some value =>
      if t.tailOffset < sub.cursor + count then
        (.raised (.valueError "cannot advance beyond the topic tail"), t)
      else (.value (some value), resetReaders [subscriberId]
        { t with subscriptions := t.subscriptions.put { sub with cursor := sub.cursor + count } })

/-- The offset up to which the log is trimmed: the least cursor of a durable subscription. -/
def frontier (t : TopicCell T) : ℤ :=
  ((t.subscriptions.rows.filter (·.durability = .durable)).map (·.cursor)).min?.getD t.tailOffset

def gc (t : TopicCell T) : Outcome T × TopicCell T :=
  let removed := t.frontier - t.baseOffset
  if removed ≤ t.elements.length then
    (.removed removed, { t with elements := t.elements.drop removed.toNat, baseOffset := t.frontier })
  -- the log is empty before as many elements have been removed
  else (.raised .indexError, { t with elements := [] })

def apply (t : TopicCell T) : TopicOp T → Outcome T × TopicCell T
  | .publish value => t.publish value
  | .subscribe subscriberId durability => t.subscribe subscriberId durability
  | .readStream subscriberId =>
    (.stream (t.readStream subscriberId).1, (t.readStream subscriberId).2)
  | .read subscriberId =>
    (.value (t.readStream subscriberId).1.head?, (t.readStream subscriberId).2)
  | .advance subscriberId count => t.advance subscriberId count
  | .disconnect subscriberId => t.disconnect subscriberId
  | .reconnect subscriberId => t.reconnect subscriberId
  | .gc => t.gc

/-! ## Snapshots -/

def snapshot (t : TopicCell T) : TopicSnapshot T where
  baseOffset := t.baseOffset
  elements := t.elements
  subscriptions := t.subscriptions.rows.insertionSort fun a b => a.subscriberId ≤ b.subscriberId

def checkSaved (t : TopicCell T) (saved : TopicSubscriptionSnapshot) : Except TopicError Unit :=
  if ¬ (t.baseOffset ≤ saved.cursor ∧ saved.cursor ≤ t.tailOffset) then
    .error (.valueError "topic subscription cursor is outside the retained log")
  else if saved.durability = .ephemeral ∧ saved.connected = false then
    .error (.valueError "disconnected ephemeral topic subscription must be removed")
  else .ok ()

def addSaved (t : TopicCell T) : List TopicSubscriptionSnapshot → Except TopicError (TopicCell T)
  | [] => .ok t
  | saved :: rest =>
    match t.checkSaved saved with
    | .error e => .error e
    | .ok () => addSaved { t with subscriptions := t.subscriptions.put saved } rest

def new (snapshot : Option (TopicSnapshot T)) : Except TopicError (TopicCell T) :=
  match snapshot with
  | none => .ok {}
  | some saved =>
    if saved.baseOffset < 0 then .error (.valueError "topic base offset must be non-negative")
    else addSaved { baseOffset := saved.baseOffset, elements := saved.elements } saved.subscriptions

end TopicCell

end LazilyPy.Topic

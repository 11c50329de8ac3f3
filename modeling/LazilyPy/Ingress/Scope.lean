import LazilyPy.Ingress.Basic
import LazilyPy.Lib.Loop
import LazilyPy.Lib.Table
import Mathlib.Data.Int.Order.Lemmas

/-!
# One scope, and the admission of an envelope to it

A scope delivers the payloads of its generation in the order of their sequences. Envelopes that are
ahead of the cursor wait in `pending`; delivered payloads are merged into the window, from which a
drain takes them.
-/

namespace LazilyPy.Ingress

structure Pending (T : Type) where
  sequence : ℤ
  payload : T
  stampedAt : ℤ

/-- The admission state of a key. The window is occupied when it is `some`. -/
structure Scope (T : Type) where
  lifecycle : IngressLifecycle
  generation : ℤ
  deliveredThrough : Option ℤ
  stampedAt : ℤ
  pending : Table (Pending.sequence (T := T))
  window : Option T
  windowDepth : ℕ
  consecutiveErrors : ℕ

structure ScopeView where
  lifecycle : IngressLifecycle
  generation : ℤ
  deliveredThrough : Option ℤ
  stampedAt : ℤ
  buffered : ℕ
  windowDepth : ℕ
  consecutiveErrors : ℕ
  observedNow : ℤ
  policy : IngressPolicy

namespace ScopeView

variable (v : ScopeView)

def isFresh : Bool :=
  max 0 (v.observedNow - v.stampedAt) ≤ v.policy.freshnessHorizon

def readiness : IngressReadiness :=
  match v.lifecycle with
  | .closed => .closed
  | .suspended => .suspended
  | .opening => .warming
  | .live =>
    match v.deliveredThrough with
    | none => .warming
    | some _ => if v.isFresh then .ready else .stale

def authority : Option IngressAuthority :=
  if v.lifecycle = .closed then none
  else some ⟨v.generation, v.deliveredThrough, v.stampedAt⟩

def resumeFrom : ℤ :=
  match v.deliveredThrough with
  | none => 0
  | some d => d + 1

def hasGap : Bool :=
  0 < v.buffered

def retry : Option IngressRetry :=
  if v.consecutiveErrors = 0 then none
  else
    let shift := min 31 (v.consecutiveErrors - 1)
    let backoff := min (v.policy.retryBase * 2 ^ shift) v.policy.retryCeiling
    some ⟨v.consecutiveErrors, backoff, v.resumeFrom⟩

end ScopeView

inductive Decision where
  | refuse (reason : IngressDropReason)
  | block
  | buffered (gapFrom : ℤ)
  | delivered (deliveredThrough : ℤ) (conflated : Bool) (handoff : Option (ℤ × ℤ))
deriving DecidableEq

def Decision.admitted : Decision → Bool
  | .buffered _ => true
  | .delivered _ _ _ => true
  | _ => false

/-- Where a flush is: the scope, the cursor that it reports, and whether anything was merged into an
occupied window. -/
structure Flush (T : Type) where
  scope : Scope T
  deliveredThrough : ℤ
  conflated : Bool

namespace Scope

variable {K T : Type}

def new (T : Type) (generation : ℤ) : Scope T where
  lifecycle := .opening
  generation := generation
  deliveredThrough := none
  stampedAt := 0
  pending := .empty _
  window := none
  windowDepth := 0
  consecutiveErrors := 0

def view (s : Scope T) (observedNow : ℤ) (policy : IngressPolicy) : ScopeView where
  lifecycle := s.lifecycle
  generation := s.generation
  deliveredThrough := s.deliveredThrough
  stampedAt := s.stampedAt
  buffered := s.pending.rows.length
  windowDepth := s.windowDepth
  consecutiveErrors := s.consecutiveErrors
  observedNow := observedNow
  policy := policy

def nextExpected (s : Scope T) : ℤ :=
  match s.deliveredThrough with
  | none => 0
  | some d => d + 1

/-- What a buffered envelope is compared by: the shape that the readers see. -/
def stamp (s : Scope T) : IngressLifecycle × ℤ × Option ℤ × Bool :=
  (s.lifecycle, s.generation, s.deliveredThrough, s.window.isSome)

def liveOrOpening (s : Scope T) : IngressLifecycle :=
  if s.deliveredThrough.isSome then .live else .opening

def clearWindow (s : Scope T) : Scope T :=
  { s with window := none, windowDepth := 0 }

/-- The reset of a handoff to another incarnation of the producer. -/
def handOff (s : Scope T) (generation : ℤ) : Scope T :=
  { s.clearWindow with generation := generation, deliveredThrough := none, pending := .empty _ }

/-- Merge one payload into the window, and whether the window was occupied. -/
def mergeInto (merge : T → T → T) (s : Scope T) (payload : T) (stampedAt : ℤ) : Scope T × Bool :=
  match s.window with
  | some w =>
    ({ s with
        window := some (merge w payload)
        windowDepth := s.windowDepth + 1
        stampedAt := max s.stampedAt stampedAt }, true)
  | none =>
    ({ s with
        window := some payload
        windowDepth := s.windowDepth + 1
        stampedAt := max s.stampedAt stampedAt }, false)

/-- One round of the flush: the pending envelope that is next, if it is there, is popped and
merged. -/
def flushNext (merge : T → T → T) (f : Flush T) : Option (Flush T) :=
  let nxt := f.scope.nextExpected
  match f.scope.pending.get? nxt with
  | none => none
  | some buffered =>
    let popped := { f.scope with pending := f.scope.pending.filter (·.sequence ≠ nxt) }
    let merged := popped.mergeInto merge buffered.payload buffered.stampedAt
    some {
      scope := { merged.1 with deliveredThrough := some nxt }
      deliveredThrough := nxt
      conflated := merged.2 || f.conflated }

/-- Deliver the pending successors of the cursor. Each of them leaves `pending`, so the loop ends
within as many rounds as there are rows. -/
def flush (merge : T → T → T) (f : Flush T) : Flush T :=
  loop (flushNext merge) f.scope.pending.rows.length f

/-- The scope once an envelope that was in order has been merged, before the flush. -/
def absorb (merge : T → T → T) (s : Scope T) (e : IngressEnvelope K T) : Flush T :=
  let merged := s.mergeInto merge e.payload e.stampedAt
  { scope :=
      { merged.1 with
        deliveredThrough := some e.sequence
        lifecycle := .live
        consecutiveErrors := 0 }
    deliveredThrough := e.sequence
    conflated := merged.2 }

/-- Deliver an envelope that is in order, and those that waited for it. -/
def deliver (merge : T → T → T) (s : Scope T) (e : IngressEnvelope K T)
    (handoff : Option (ℤ × ℤ)) : Scope T × Decision :=
  let f := flush merge (s.absorb merge e)
  (f.scope, .delivered f.deliveredThrough f.conflated handoff)

/-- Dedupe, ordering, backpressure and merge: the admission of an envelope of the scope's own
generation. -/
def order (policy : IngressPolicy) (merge : T → T → T) (s : Scope T) (e : IngressEnvelope K T)
    (handoff : Option (ℤ × ℤ)) : Scope T × Decision :=
  let expected := s.nextExpected
  if e.sequence < expected then (s, .refuse .duplicateSequence)
  else if expected < e.sequence then
    if (s.pending.get? e.sequence).isSome then (s, .refuse .duplicateBuffered)
    else if policy.reorderWindow ≤ s.pending.rows.length then (s, .refuse .reorderWindowOverflow)
    else
      ({ s with pending := s.pending.put ⟨e.sequence, e.payload, e.stampedAt⟩ }, .buffered expected)
  else if policy.highWater ≤ s.windowDepth then
    match policy.overflow with
    | .block => (s, .block)
    | .dropNewest => (s, .refuse .backpressure)
    | .dropOldest => s.clearWindow.deliver merge e handoff
    | .conflate => s.deliver merge e handoff
    | .spill => s.deliver merge e handoff
  else s.deliver merge e handoff

/-- The admission of an envelope: lifecycle, fence, freshness and handoff, then `order`. -/
def decide (policy : IngressPolicy) (merge : T → T → T) (observedNow : ℤ) (s : Scope T)
    (e : IngressEnvelope K T) : Scope T × Decision :=
  if s.lifecycle = .closed then (s, .refuse .scopeClosed)
  else if e.generation < s.generation then (s, .refuse .staleGeneration)
  else if policy.freshnessHorizon < max 0 (observedNow - e.stampedAt) then (s, .refuse .expired)
  else if s.generation < e.generation then
    (s.handOff e.generation).order policy merge e (some (s.generation, e.generation))
  else s.order policy merge e none

end Scope

end LazilyPy.Ingress

import LazilyPy.Ingress.Delivery
import LazilyPy.Ingress.Core

/-!
# Projections of the durable client

A client observes projection events of durable owners in whatever order they come. An ingress core puts
them in order for each owner, and the client lists the source positions that it has delivered, from the
cursors before and after each admission. When a new generation of an owner delivers, its cursor starts
from the beginning, below the one before it, and the client lists nothing.
-/

namespace LazilyPy.Durable

open Ingress (IngressCore IngressEnvelope IngressAdmission IngressAuthority Scope Delivery Pending)

/-! ### Events -/

inductive DurableProjectionCompleteness
  | completeHistory
  deriving DecidableEq, Repr

inductive DurableProjectionHealth
  | healthy | lagging | drifted
  deriving DecidableEq, Repr

structure DurableProjectionEvent (P : Type) where
  protocolVersion : ℤ
  ownerId : String
  generation : ℤ
  sourcePosition : ℤ
  projectionVersion : ℤ
  schemaVersion : ℤ
  codecVersion : ℤ
  completeness : DurableProjectionCompleteness
  entries : P
  sourceFingerprint : String
  projectionFingerprint : String
  health : DurableProjectionHealth
  mayAuthorizeTransition : Bool := false
  deriving DecidableEq, Repr

def durableProtocolVersion : ℤ := 1

def nonEmpty (value name : String) : Except String Unit :=
  if value = "" then .error s!"invalid_{name}" else .ok ()

def positiveU32 (value : ℤ) (name : String) : Except String Unit :=
  if 1 ≤ value ∧ value ≤ 0xFFFFFFFF then .ok () else .error s!"invalid_{name}"

namespace DurableProjectionEvent

variable {P : Type}

def validate (event : DurableProjectionEvent P) : Except String Unit := do
  if event.protocolVersion ≠ durableProtocolVersion then throw "unsupported_protocol_version"
  nonEmpty event.ownerId "owner_id"
  positiveU32 event.generation "generation"
  positiveU32 event.sourcePosition "source_position"
  positiveU32 event.projectionVersion "projection_version"
  positiveU32 event.schemaVersion "schema_version"
  positiveU32 event.codecVersion "codec_version"
  if event.completeness ≠ .completeHistory then throw "projection_requires_complete_history"
  if event.mayAuthorizeTransition then throw "projection_is_advisory"
  nonEmpty event.sourceFingerprint "source_fingerprint"
  nonEmpty event.projectionFingerprint "projection_fingerprint"

def identity (event : DurableProjectionEvent P) : String × ℤ × ℤ :=
  (event.ownerId, event.generation, event.sourcePosition)

def fingerprint (event : DurableProjectionEvent P) : String × String × ℤ × ℤ :=
  (event.sourceFingerprint, event.projectionFingerprint, event.schemaVersion, event.codecVersion)

/-- Positions start from 1, and the sequences of the core from 0. -/
def envelope (event : DurableProjectionEvent P) : IngressEnvelope String (DurableProjectionEvent P) where
  key := event.ownerId
  generation := event.generation
  sequence := event.sourcePosition - 1
  stampedAt := event.sourcePosition
  payload := event

end DurableProjectionEvent

/-! ### The client -/

def keepLatest (T : Type) : Ingress.MergePolicy T where
  merge := fun _ op => op

structure DurableClient (P : Type) where
  projections : IngressCore String (DurableProjectionEvent P)
  latest : Table (Prod.fst : String × DurableProjectionEvent P → String)
  projectionIdentities : Table (Prod.fst : (String × ℤ × ℤ) × (String × String × ℤ × ℤ) → String × ℤ × ℤ)
  appliedProjectionPositions : Table (Prod.fst : String × List ℤ → String)

def cursor {P : Type} (core : IngressCore String (DurableProjectionEvent P)) (owner : String) (unknown : ℤ) : ℤ :=
  match core.authority owner with
  | none => unknown
  | some authority => authority.deliveredThrough.getD unknown

namespace DurableClient

variable {P : Type}

def init : DurableClient P where
  projections := {
    policy := {}
    merge := keepLatest _
    scopes := .empty _
    receipts := []
    nextReceiptOffset := 0
    observedNow := 0
    bounding := fun _ => rfl
    retaining := nofun }
  latest := .empty _
  projectionIdentities := .empty _
  appliedProjectionPositions := .empty _

def projection (s : DurableClient P) (owner : String) : Option (DurableProjectionEvent P) :=
  (s.latest.get? owner).map Prod.snd

def appliedSourcePositions (s : DurableClient P) (owner : String) : List ℤ :=
  ((s.appliedProjectionPositions.get? owner).map Prod.snd).getD []

/-- The event is admitted to the core, and what this has delivered is noted. -/
def record (s : DurableClient P) (event : DurableProjectionEvent P) : IngressAdmission × DurableClient P :=
  let before := cursor s.projections event.ownerId (-1)
  let admitted := s.projections.admitEnvelope event.envelope
  let after := cursor admitted.1 event.ownerId before
  let drained := admitted.1.drain event.ownerId
  (admitted.2.2,
    { projections := drained.1
      latest := drained.2.2.elim s.latest fun projected => s.latest.put (event.ownerId, projected)
      projectionIdentities := s.projectionIdentities.put (event.identity, event.fingerprint)
      appliedProjectionPositions :=
        if before < after then
          s.appliedProjectionPositions.put (event.ownerId, s.appliedSourcePositions event.ownerId ++
            (Ingress.sequences (before + 1) (after - before).toNat).map (· + 1))
        else s.appliedProjectionPositions })

/-- Another event with the same identity has been observed before. -/
def Conflicts (s : DurableClient P) (event : DurableProjectionEvent P) : Prop :=
  ∃ prior ∈ s.projectionIdentities.get? event.identity, prior.2 ≠ event.fingerprint

instance (s : DurableClient P) (event : DurableProjectionEvent P) : Decidable (s.Conflicts event) :=
  inferInstanceAs (Decidable (∃ prior ∈ _, _))

def observeProjection (s : DurableClient P) (event : DurableProjectionEvent P) :
    Except String IngressAdmission × DurableClient P :=
  match event.validate with
  | .error error => (.error error, s)
  | .ok () =>
    if s.Conflicts event then
      (.error s!"conflicting durable projection at {event.ownerId}/{event.sourcePosition}", s)
    else (.ok (s.record event).1, (s.record event).2)

def Observes (s : DurableClient P) (event : DurableProjectionEvent P) : Prop :=
  event.validate = .ok () ∧ ¬ s.Conflicts event

instance (s : DurableClient P) (event : DurableProjectionEvent P) : Decidable (s.Observes event) :=
  inferInstanceAs (Decidable (_ ∧ _))

def delivers (s : DurableClient P) (event : DurableProjectionEvent P) : List (DurableProjectionEvent P) :=
  if s.Observes event then
    (((s.projections.scope? event.ownerId).getD (.new _ event.generation)).delivers
      s.projections.policy s.projections.merge.merge s.projections.observedNow event.envelope).map Pending.payload
  else []

/-- A client after some events, and all that its core has delivered. -/
def session (events : List (DurableProjectionEvent P)) : DurableClient P × List (DurableProjectionEvent P) :=
  events.foldl (fun s event => ((s.1.observeProjection event).2, s.2 ++ s.1.delivers event)) (init, [])

def run (events : List (DurableProjectionEvent P)) : DurableClient P :=
  (session events).1

def delivered (events : List (DurableProjectionEvent P)) (owner : String) : List (DurableProjectionEvent P) :=
  (session events).2.filter fun event => event.ownerId = owner

/-- An event with which a new generation of its owner starts over, while the one before has delivered. -/
def Resets (s : DurableClient P) (event : DurableProjectionEvent P) : Prop :=
  s.Observes event ∧ event.sourcePosition = 1 ∧ ∃ authority ∈ s.projections.authority event.ownerId,
    authority.generation < event.generation ∧ authority.deliveredThrough ≠ none

instance (s : DurableClient P) (event : DurableProjectionEvent P) : Decidable (s.Resets event) :=
  inferInstanceAs (Decidable (_ ∧ _ ∧ ∃ authority ∈ s.projections.authority event.ownerId, _))

end DurableClient

end LazilyPy.Durable

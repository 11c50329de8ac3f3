import Mathlib.Data.Int.Order.Basic

/-!
# Envelopes, decisions and the invalidation set of the ingress

A decoded message comes as an envelope with its own provenance: the incarnation of the producer, the
position within that incarnation, and the producer's time. The ingress answers it with an admission,
records receipts, and reports in a change which readers a transition has dirtied.
-/

namespace LazilyPy.Ingress

structure IngressEnvelope (K T : Type) where
  key : K
  generation : ℤ
  sequence : ℤ
  stampedAt : ℤ
  payload : T
deriving DecidableEq

structure ReplayRequest where
  generation : ℤ
  fromSequence : ℤ
deriving DecidableEq

/-! ## Decisions -/

inductive IngressDropReason where
  | staleGeneration
  | duplicateSequence
  | duplicateBuffered
  | reorderWindowOverflow
  | expired
  | backpressure
  | scopeClosed
deriving DecidableEq

inductive IngressError where
  | transportClosed
  | decodeFailed
  | authorityLost
deriving DecidableEq

inductive IngressAdmission where
  | accepted (deliveredThrough : ℤ)
  | conflated (deliveredThrough : ℤ)
  | buffered (gapFrom : ℤ)
  | generationHandoff (fromGeneration toGeneration deliveredThrough : ℤ)
  | dropped (reason : IngressDropReason)
  | blocked
deriving DecidableEq

inductive IngressLifecycle where
  | opening
  | live
  | suspended
  | closed
deriving DecidableEq

/-! ## What the readers show -/

inductive IngressReadiness where
  | unknown
  | warming
  | ready
  | stale
  | suspended
  | closed
deriving DecidableEq

structure IngressAuthority where
  generation : ℤ
  deliveredThrough : Option ℤ
  stampedAt : ℤ
deriving DecidableEq

structure IngressRetry where
  attempt : ℕ
  backoff : ℤ
  resumeFrom : ℤ
deriving DecidableEq

/-! ## Receipts -/

inductive IngressReceiptChannel where
  | accepted
  | dropped
  | error
deriving DecidableEq

inductive IngressReceiptOutcome where
  | accepted (deliveredThrough : ℤ) (conflated : Bool)
  | dropped (reason : IngressDropReason)
  | error (error : IngressError)
deriving DecidableEq

def IngressReceiptOutcome.channel : IngressReceiptOutcome → IngressReceiptChannel
  | .accepted _ _ => .accepted
  | .dropped _ => .dropped
  | .error _ => .error

structure IngressReceipt (K : Type) where
  offset : ℕ
  key : K
  generation : ℤ
  sequence : Option ℤ
  outcome : IngressReceiptOutcome
deriving DecidableEq

def IngressReceipt.channel {K : Type} (r : IngressReceipt K) : IngressReceiptChannel :=
  r.outcome.channel

/-! ## Policy -/

inductive Overflow where
  | block
  | dropNewest
  | dropOldest
  | conflate
  | spill
deriving DecidableEq

structure MergePolicy (T : Type) where
  merge : T → T → T
  conflates : Bool := true

structure IngressPolicy where
  reorderWindow : ℕ := 8
  freshnessHorizon : ℤ := 1000
  highWater : ℕ := 64
  overflow : Overflow := .conflate
  receiptCapacity : ℕ := 256
  retryBase : ℤ := 10
  retryCeiling : ℤ := 10000
deriving DecidableEq

inductive IngressConfigError where
  | conflateNotBounding
  | zeroReceiptCapacity
deriving DecidableEq

/-! ## The invalidation set -/

structure IngressScopeChange where
  value : Bool := false
  readiness : Bool := false
  authority : Bool := false
  retry : Bool := false
deriving DecidableEq

namespace IngressScopeChange

def isEmpty (m : IngressScopeChange) : Bool :=
  !(m.value || m.readiness || m.authority || m.retry)

def union (m m' : IngressScopeChange) : IngressScopeChange where
  value := m.value || m'.value
  readiness := m.readiness || m'.readiness
  authority := m.authority || m'.authority
  retry := m.retry || m'.retry

def all : IngressScopeChange :=
  ⟨true, true, true, true⟩

def readinessOnly : IngressScopeChange :=
  { readiness := true }

def valueOnly : IngressScopeChange :=
  { value := true }

def retryOnly : IngressScopeChange :=
  { retry := true }

def creation : IngressScopeChange :=
  { readiness := true, authority := true }

end IngressScopeChange

structure IngressChange (K : Type) where
  scopes : List (K × IngressScopeChange) := []
  acceptedReceipts : Bool := false
  droppedReceipts : Bool := false
  errorReceipts : Bool := false
deriving DecidableEq

namespace IngressChange

variable {K : Type}

def mark (change : IngressChange K) (key : K) (m : IngressScopeChange) : IngressChange K :=
  if m.isEmpty then change else { change with scopes := change.scopes ++ [(key, m)] }

def markChannel (change : IngressChange K) : IngressReceiptChannel → IngressChange K
  | .accepted => { change with acceptedReceipts := true }
  | .dropped => { change with droppedReceipts := true }
  | .error => { change with errorReceipts := true }

def flagsChannel (change : IngressChange K) : IngressReceiptChannel → Bool
  | .accepted => change.acceptedReceipts
  | .dropped => change.droppedReceipts
  | .error => change.errorReceipts

/-- The change flags a reader of the scope `key`, the one that `reader` selects. -/
def Flags (change : IngressChange K) (key : K) (reader : IngressScopeChange → Bool) : Prop :=
  ∃ entry ∈ change.scopes, entry.1 = key ∧ reader entry.2 = true

instance [DecidableEq K] (change : IngressChange K) (key : K)
    (reader : IngressScopeChange → Bool) : Decidable (change.Flags key reader) :=
  inferInstanceAs (Decidable (∃ entry ∈ change.scopes, _))

end IngressChange

end LazilyPy.Ingress

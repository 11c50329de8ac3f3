import LazilyPy.Ingress.Scope

/-!
# The ingress core

Keyed scopes, their admission, and one bounded receipt log. Every operation returns the change that
tells a shell which readers it has to read again.
-/

namespace LazilyPy.Ingress

variable {K T : Type}

structure IngressCore (K T : Type) where
  policy : IngressPolicy
  merge : MergePolicy T
  scopes : Table (Prod.fst (α := K) (β := Scope T))
  receipts : List (IngressReceipt K)
  nextReceiptOffset : ℕ
  observedNow : ℤ
  bounding : policy.overflow = .conflate → merge.conflates = true
  retaining : policy.receiptCapacity ≠ 0

/-! ## Lifecycle of one scope -/

namespace Scope

/-- `open` of a known scope, and what it dirties. -/
def reopen (s : Scope T) (generation : ℤ) : Scope T × IngressScopeChange :=
  let s' : Scope T := if s.lifecycle = .closed then new T generation
    else if s.generation < generation then
      { s with
        lifecycle := s.liveOrOpening
        generation := generation
        deliveredThrough := none
        pending := .empty _ }
    else { s with lifecycle := s.liveOrOpening }
  let before := (s.lifecycle, s.generation, s.deliveredThrough)
  let after := (s'.lifecycle, s'.generation, s'.deliveredThrough)
  (s', if before ≠ after then { readiness := before.1 ≠ after.1, authority := true } else {})

def reconnect (s : Scope T) (generation : ℤ) : Scope T × IngressScopeChange :=
  let s' := if s.generation < generation then s.handOff generation else s
  let s'' := { s' with lifecycle := s'.liveOrOpening, consecutiveErrors := 0 }
  (s'', {
    value := s.generation < generation ∧ s.window.isSome
    readiness := s'.lifecycle ≠ s''.lifecycle
    authority := s.generation < generation
    retry := 0 < s.consecutiveErrors })

def close (s : Scope T) : Scope T × IngressScopeChange :=
  ({ s.clearWindow with lifecycle := .closed, pending := .empty _, consecutiveErrors := 0 }, {
    value := s.window.isSome
    readiness := true
    authority := true
    retry := 0 < s.consecutiveErrors })

def fail (s : Scope T) : Scope T :=
  { s with consecutiveErrors := s.consecutiveErrors + 1 }

/-- What a buffered envelope dirties in a scope that was known before. -/
def bufferedChange (before after : Scope T) : IngressScopeChange where
  value := before.stamp.2.2.2 ≠ after.stamp.2.2.2
  readiness := before.stamp.1 ≠ after.stamp.1 ∨ before.stamp.2.2.1.isNone ≠ after.stamp.2.2.1.isNone
  authority := before.stamp.2.1 ≠ after.stamp.2.1 ∨ before.stamp.2.2.1 ≠ after.stamp.2.2.1
  retry := false

end Scope

def evict {α : Type} (capacity : ℕ) : List α → List α
  | [] => []
  | r :: log => if capacity < (r :: log).length then evict capacity log else r :: log

variable [DecidableEq K]

namespace IngressCore

def new (K : Type) (policy : IngressPolicy) (merge : MergePolicy T) : Except IngressConfigError (IngressCore K T) :=
  if hb : policy.overflow = .conflate → merge.conflates = true then
    if hr : policy.receiptCapacity ≠ 0 then
      .ok {
        policy := policy
        merge := merge
        scopes := .empty _
        receipts := []
        nextReceiptOffset := 0
        observedNow := 0
        bounding := hb
        retaining := hr }
    else .error .zeroReceiptCapacity
  else .error .conflateNotBounding

/-! ## Readers -/

def scope? (c : IngressCore K T) (key : K) : Option (Scope T) :=
  (c.scopes.get? key).map Prod.snd

def view (c : IngressCore K T) (key : K) : Option ScopeView :=
  (c.scope? key).map (·.view c.observedNow c.policy)

def readiness (c : IngressCore K T) (key : K) : IngressReadiness :=
  match c.view key with
  | none => .unknown
  | some v => v.readiness

def authority (c : IngressCore K T) (key : K) : Option IngressAuthority :=
  (c.view key).bind ScopeView.authority

def retry (c : IngressCore K T) (key : K) : Option IngressRetry :=
  (c.view key).bind ScopeView.retry

def peek (c : IngressCore K T) (key : K) : Option T :=
  (c.scope? key).bind Scope.window

def receiptsOn (c : IngressCore K T) (channel : IngressReceiptChannel) : List (IngressReceipt K) :=
  c.receipts.filter (·.channel = channel)

/-! ## Operations -/

def setScope (c : IngressCore K T) (key : K) (s : Scope T) : IngressCore K T :=
  { c with scopes := c.scopes.put (key, s) }

def pushReceipt (c : IngressCore K T) (receipt : IngressReceipt K) : IngressCore K T × IngressReceiptChannel :=
  let stamped := { receipt with offset := c.nextReceiptOffset }
  ({ c with
      receipts := evict c.policy.receiptCapacity (c.receipts ++ [stamped])
      nextReceiptOffset := c.nextReceiptOffset + 1 }, stamped.channel)

def «open» (c : IngressCore K T) (key : K) (generation : ℤ) : IngressCore K T × IngressChange K :=
  match c.scope? key with
  | none => (c.setScope key (.new T generation), ({} : IngressChange K).mark key .creation)
  | some s =>
    let r := s.reopen generation
    (c.setScope key r.1, ({} : IngressChange K).mark key r.2)

def suspend (c : IngressCore K T) (key : K) : IngressCore K T × IngressChange K × Option ReplayRequest :=
  match c.scope? key with
  | none => (c, {}, none)
  | some s =>
    if s.lifecycle = .suspended ∨ s.lifecycle = .closed then (c, {}, none)
    else
      (c.setScope key { s with lifecycle := .suspended }, ({} : IngressChange K).mark key .readinessOnly,
        some ⟨s.generation, s.nextExpected⟩)

def reconnect (c : IngressCore K T) (key : K) (generation : ℤ) : IngressCore K T × IngressChange K × ReplayRequest :=
  let created := (c.scope? key).isNone
  let r := ((c.scope? key).getD (.new T generation)).reconnect generation
  (c.setScope key r.1, ({} : IngressChange K).mark key (if created then r.2.union .creation else r.2),
    ⟨r.1.generation, r.1.nextExpected⟩)

def close (c : IngressCore K T) (key : K) : IngressCore K T × IngressChange K :=
  match c.scope? key with
  | none => (c, {})
  | some s =>
    if s.lifecycle = .closed then (c, {})
    else (c.setScope key s.close.1, ({} : IngressChange K).mark key s.close.2)

/-- Only the scopes that have crossed the freshness horizon are dirtied. -/
def tick (c : IngressCore K T) (now : ℤ) : IngressCore K T × IngressChange K :=
  if now = c.observedNow then (c, {})
  else
    ({ c with observedNow := now }, c.scopes.rows.foldl (fun change row =>
        if (row.2.view c.observedNow c.policy).readiness ≠ (row.2.view now c.policy).readiness
        then change.mark row.1 .readinessOnly
        else change) {})

def fail (c : IngressCore K T) (key : K) (error : IngressError) : IngressCore K T × IngressChange K :=
  let created := (c.scope? key).isNone
  let s := ((c.scope? key).getD (.new T 0)).fail
  let change := ({} : IngressChange K).mark key
    (if created then IngressScopeChange.retryOnly.union .creation else .retryOnly)
  let pushed := (c.setScope key s).pushReceipt ⟨0, key, s.generation, none, .error error⟩
  (pushed.1, change.markChannel pushed.2)

def drain (c : IngressCore K T) (key : K) : IngressCore K T × IngressChange K × Option T :=
  match c.scope? key with
  | none => (c, {}, none)
  | some s =>
    match s.window with
    | none => (c, {}, none)
    | some value =>
      (c.setScope key s.clearWindow, ({} : IngressChange K).mark key .valueOnly, some value)

/-- Admit one envelope. A refused envelope leaves no scope behind that was not there before. -/
def admitEnvelope (c : IngressCore K T) (e : IngressEnvelope K T) :
    IngressCore K T × IngressChange K × IngressAdmission :=
  let created := (c.scope? e.key).isNone
  let before := (c.scope? e.key).getD (.new T e.generation)
  let decided := before.decide c.policy c.merge.merge c.observedNow e
  let c' := if created ∧ ¬ decided.2.admitted then c else c.setScope e.key decided.1
  let fence := ((c'.scope? e.key).map Scope.generation).getD e.generation
  match decided.2 with
  | .refuse reason =>
    let pushed := c'.pushReceipt ⟨0, e.key, fence, some e.sequence, .dropped reason⟩
    (pushed.1, ({} : IngressChange K).markChannel pushed.2, .dropped reason)
  | .block =>
    let pushed := c'.pushReceipt ⟨0, e.key, fence, some e.sequence, .dropped .backpressure⟩
    (pushed.1, ({} : IngressChange K).markChannel pushed.2, .blocked)
  | .buffered gapFrom =>
    -- Nothing that a reader sees has moved, unless the scope is new or was handed over.
    let change := if created then .creation else before.bufferedChange decided.1
    (c', ({} : IngressChange K).mark e.key change, .buffered gapFrom)
  | .delivered deliveredThrough conflated handoff =>
    let pushed := c'.pushReceipt ⟨0, e.key, fence, some e.sequence, .accepted deliveredThrough conflated⟩
    let change := (({} : IngressChange K).mark e.key .all).markChannel pushed.2
    match handoff with
    | some (fromGeneration, toGeneration) =>
      (pushed.1, change, .generationHandoff fromGeneration toGeneration deliveredThrough)
    | none =>
      (pushed.1, change, if conflated then .conflated deliveredThrough else .accepted deliveredThrough)

end IngressCore

/-! ## Runs -/

inductive Op (K T : Type) where
  | open (key : K) (generation : ℤ)
  | suspend (key : K)
  | reconnect (key : K) (generation : ℤ)
  | close (key : K)
  | tick (now : ℤ)
  | fail (key : K) (error : IngressError)
  | drain (key : K)
  | admitEnvelope (envelope : IngressEnvelope K T)

inductive Reply (T : Type) where
  | done
  | replay (request : Option ReplayRequest)
  | drained (value : Option T)
  | admission (admission : IngressAdmission)

/-- The outcome of an operation: the core after it, the change, and the answer. -/
structure Outcome (K T : Type) where
  core : IngressCore K T
  change : IngressChange K
  reply : Reply T

def IngressCore.step (c : IngressCore K T) : Op K T → Outcome K T
  | .open key generation => ⟨(c.open key generation).1, (c.open key generation).2, .done⟩
  | .suspend key => ⟨(c.suspend key).1, (c.suspend key).2.1, .replay (c.suspend key).2.2⟩
  | .reconnect key generation =>
    ⟨(c.reconnect key generation).1, (c.reconnect key generation).2.1, .replay (some (c.reconnect key generation).2.2)⟩
  | .close key => ⟨(c.close key).1, (c.close key).2, .done⟩
  | .tick now => ⟨(c.tick now).1, (c.tick now).2, .done⟩
  | .fail key error => ⟨(c.fail key error).1, (c.fail key error).2, .done⟩
  | .drain key => ⟨(c.drain key).1, (c.drain key).2.1, .drained (c.drain key).2.2⟩
  | .admitEnvelope e => ⟨(c.admitEnvelope e).1, (c.admitEnvelope e).2.1, .admission (c.admitEnvelope e).2.2⟩

def IngressCore.after (c : IngressCore K T) : List (Op K T) → IngressCore K T
  | [] => c
  | op :: ops => (c.step op).core.after ops

theorem IngressCore.after_concat (c : IngressCore K T) (ops : List (Op K T)) (op : Op K T) :
    c.after (ops ++ [op]) = ((c.after ops).step op).core := by
  induction ops generalizing c with
  | nil => rfl
  | cons op' ops ih => exact ih (c.step op').core

/-- From `c₀` the operations of the history, with these answers, lead to `c`. -/
inductive Run (c₀ : IngressCore K T) : List (Op K T × Reply T) → IngressCore K T → Prop
  | nil : Run c₀ [] c₀
  | concat {history : List (Op K T × Reply T)} {c : IngressCore K T} (op : Op K T)
      (h : Run c₀ history c) : Run c₀ (history ++ [(op, (c.step op).reply)]) (c.step op).core

/-- A run whose operations all meet a condition on the core that they are applied to. -/
inductive RunWhere (P : IngressCore K T → Op K T → Prop) (c₀ : IngressCore K T) :
    List (Op K T × Reply T) → IngressCore K T → Prop
  | nil : RunWhere P c₀ [] c₀
  | concat {history : List (Op K T × Reply T)} {c : IngressCore K T} (op : Op K T)
      (h : RunWhere P c₀ history c) (hop : P c op) :
      RunWhere P c₀ (history ++ [(op, (c.step op).reply)]) (c.step op).core

/-- Some run of a core that has just been built leads to `c`. -/
def Reachable (c : IngressCore K T) : Prop :=
  ∃ policy merge c₀ history, IngressCore.new K policy merge = .ok c₀ ∧ Run c₀ history c

variable {c : IngressCore K T}

theorem Reachable.step (h : Reachable c) (op : Op K T) : Reachable (c.step op).core := by
  obtain ⟨policy, merge, c₀, history, hnew, hrun⟩ := h
  exact ⟨policy, merge, c₀, _, hnew, hrun.concat op⟩

theorem Reachable.after (h : Reachable c) (ops : List (Op K T)) : Reachable (c.after ops) := by
  induction ops generalizing c with
  | nil => exact h
  | cons op ops ih => exact ih (h.step op)

theorem IngressCore.reachable_after {policy : IngressPolicy} {merge : MergePolicy T}
    (h : IngressCore.new K policy merge = .ok c) (ops : List (Op K T)) :
    Reachable (c.after ops) := by
  have hc : Reachable c := ⟨policy, merge, c, [], h, .nil⟩
  exact hc.after ops

end LazilyPy.Ingress

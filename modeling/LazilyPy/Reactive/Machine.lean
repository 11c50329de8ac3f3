import Mathlib.Logic.Relation
import LazilyPy.Reactive.Heap

/-!
# The reactive runtime as an abstract machine

The Python call stack of `slot.py`, `cell.py`, `signal.py`, `effect.py`, `batch.py` and
`teardown.py` made explicit: a control, a stack of frames and the heap. One machine step is
one statement of the source, so that callbacks run in the middle of a wave, nested drains
and exceptions leaving a `finally` block all appear as they do in the source.
-/

namespace LazilyPy.Reactive

open Function

variable {V : Type} [DecidableEq V]

inductive Ctl (V : Type) where
  /-- Client code (`none`), or the body whose compute view carries node `r`. -/
  | exec (r : Option Node) (c : Code V)
  /-- The value of a reference is wanted, with no reader in scope. -/
  | get (d : Ref)
  /-- The callable of a `Slot` object. -/
  | eval (n : Node) (t : Comp V)
  /-- A value is handed to the frame that asked for it. -/
  | value (v : V)
  /-- `Effect.__call__`. -/
  | call (e : Node)
  /-- The head of `while work` in `_drain_resets`. -/
  | loop
  /-- The head of `while stack` in `_dirty_disposed_dependents`. -/
  | dirty (stack : List Node)
  /-- A statement or a call has returned, with the closure it returned. -/
  | returned (cleanup : Option (Code V))
  /-- An exception is propagating. -/
  | raised

inductive Frame (V : Type) where
  /-- The callable of `n` waits for the value of `d`. -/
  | inSlot (n : Node) (d : Ref) (k : V → Comp V)
  /-- Code with reader `r` waits for the value of `d`. -/
  | inCode (r : Option Node) (d : Ref) (k : V → Code V)
  /-- `Computed._pull` of `computed i` waits for the backing memo. -/
  | pull (p : Node) (i : ℕ)
  /-- The `value` getter waits for `_rearm` to run the puller. -/
  | rearmed (i : ℕ)
  /-- `_rearm` waits for the backing memo of a computed whose puller is gone. -/
  | rearmSlot (i : ℕ)
  /-- Code waits for a statement. -/
  | andThen (r : Option Node) (c : Code V)
  /-- `_drain_resets` waits for an `_invalidate`. -/
  | drain
  /-- `Effect.__call__` waits for the body. -/
  | effect (e : Node)
  /-- `Effect.__call__` waits for the cleanup of the previous run. -/
  | cleanup (e : Node)
  /-- `Effect.dispose` waits for the walk over its dependents. -/
  | disposing (e : Node)
  /-- `batch` waits for its body. -/
  | batch
  /-- `_flush` waits for the wave of phase 1. The flag tells whether the body raised. -/
  | flushed (bodyRaised : Bool)
  /-- `_flush` waits for an effect of phase 2, with the others still to rerun. -/
  | rerun (bodyRaised : Bool) (rest : List Node)
  /-- `try` waits for its block. -/
  | attempt (r : Option Node) (k : Code V)

structure Config (V : Type) where
  heap : Heap V
  ctl : Ctl V
  stack : List (Frame V)

def Config.init (σ : ℕ → V) : Config V :=
  ⟨Heap.init σ, .returned none, []⟩

def Config.Idle (c : Config V) : Prop :=
  c.stack = [] ∧ (c.ctl = .raised ∨ ∃ cl, c.ctl = .returned cl)

/-- `Slot.__call__` with no reader in scope. -/
def callSlot (G : Graph V) (h : Heap V) (st : List (Frame V)) (n : Node) : Config V :=
  if h.disposed n then ⟨h, .raised, st⟩
  else
    match h.cache n with
    | some v => ⟨h, .value v, st⟩
    | none => ⟨h.startCompute n, .eval n (G.callable n), st⟩

def drainResets (h : Heap V) (st : List (Frame V)) : Config V :=
  if h.active then ⟨h, .returned none, st⟩
  else ⟨{ h with active := true }, .loop, .drain :: st⟩

/-- `touch()` of a live `Source` or of a `Computed`. -/
def touch (ord : Enum) (h : Heap V) (st : List (Frame V)) (n : Node) : Config V :=
  match h.parents n with
  | [] => ⟨h, .returned none, st⟩
  | _ :: _ => drainResets (h.pushParents ord n) st

/-- The `value` setter of a `Source`, with `notify_change`. -/
def setSource (ord : Enum) (h : Heap V) (st : List (Frame V)) (i : ℕ) (v : V) : Config V :=
  if h.disposed (.source i) then ⟨h, .returned none, st⟩
  else if v = h.value i then ⟨h.setValue i v, .returned none, st⟩
  else if 0 < h.depth then ⟨(h.setValue i v).addPendingCell (.source i), .returned none, st⟩
  else touch ord (h.setValue i v) st (.source i)

/-- `Computed.value` with no reader in scope. -/
def getComputed (G : Graph V) (h : Heap V) (st : List (Frame V)) (i : ℕ) : Config V :=
  if h.eager i then
    if h.stale i then
      let h' : Heap V := { h with stale := update h.stale i false }
      match h.puller i with
      | some k =>
        if h.disposed (.puller i k) then callSlot G h' (.rearmSlot i :: st) (.memo i)
        else ⟨h', .call (.puller i k), .rearmed i :: st⟩
      | none => callSlot G h' (.rearmSlot i :: st) (.memo i)
    else ⟨h, .value ((h.handle i).getD G.unset), st⟩
  else callSlot G h st (.memo i)

/-- `ctx.read(d)` once the reader is subscribed. -/
def getRef (G : Graph V) (h : Heap V) (st : List (Frame V)) : Ref → Config V
  | .source i =>
    if h.disposed (.source i) then ⟨h, .raised, st⟩ else ⟨h, .value (h.value i), st⟩
  | .slot i => callSlot G h st (.slot i)
  | .computed i => getComputed G h st i

/-- `Effect.__call__` from the body on. A puller's body is `Computed._pull`. -/
def runBody (G : Graph V) (h : Heap V) (st : List (Frame V)) (e : Node) : Config V :=
  match e with
  | .effect i =>
    ⟨h.startEffect e, .exec (some e) (G.effectBody i (h.runs e)), .effect e :: st⟩
  | .puller i _ =>
    callSlot G ((h.startEffect e).registerEdge (.memo i) e) (.pull e i :: .effect e :: st) (.memo i)
  | _ => ⟨h, .returned none, st⟩

/-- `Effect.__call__`. -/
def callEffect (G : Graph V) (h : Heap V) (st : List (Frame V)) (e : Node) : Config V :=
  if h.disposed e then ⟨h, .returned none, st⟩
  else
    let h' : Heap V := { h with started := update h.started e true }
    match h.cleanup e with
    | some c =>
      ⟨{ h' with cleanup := update h'.cleanup e none }, .exec none c, .cleanup e :: st⟩
    | none => runBody G h' st e

/-- `Effect.dispose` after both edge directions are detached: the final cleanup. -/
def finalCleanup (h : Heap V) (st : List (Frame V)) (e : Node) : Config V :=
  match h.cleanup e with
  | some c => ⟨{ h with cleanup := update h.cleanup e none }, .exec none c, st⟩
  | none => ⟨h, .returned none, st⟩

/-- `Effect.dispose`. -/
def disposeEffect (ord : Enum) (h : Heap V) (st : List (Frame V)) (e : Node) : Config V :=
  if h.disposed e then ⟨h, .returned none, st⟩
  else
    let h' := h.retire e
    match h'.parents e with
    | [] => finalCleanup (h'.clearParents e) st e
    | p :: ps =>
      if h'.started e then
        ⟨h'.clearParents e, .dirty (ord (some e) (p :: ps)), .disposing e :: st⟩
      else finalCleanup (h'.clearParents e) st e

/-- `Computed.lazy()`. -/
def lazyComputed (ord : Enum) (h : Heap V) (st : List (Frame V)) (i : ℕ) : Config V :=
  if h.eager i then
    match h.puller i with
    | some k => disposeEffect ord (h.dropPuller i) st (.puller i k)
    | none => ⟨h.dropPuller i, .returned none, st⟩
  else ⟨h, .returned none, st⟩

def dispose (ord : Enum) (h : Heap V) (st : List (Frame V)) : Ref → Config V
  | .source i =>
    if h.disposed (.source i) then ⟨h, .returned none, st⟩
    else
      let h' : Heap V := { h with disposed := update h.disposed (.source i) true }
      ⟨h'.clearParents (.source i), .dirty (ord (some (.source i)) (h'.parents (.source i))), st⟩
  | .slot i =>
    if h.disposed (.slot i) then ⟨h, .returned none, st⟩
    else
      let h' := (h.dropCache (.slot i)).retire (.slot i)
      ⟨h'.clearParents (.slot i), .dirty (ord (some (.slot i)) (h'.parents (.slot i))), st⟩
  | .computed i => lazyComputed ord h st i

def stepExec (ord : Enum) (h : Heap V) (st : List (Frame V)) (r : Option Node) : Code V → Config V
  | .done => ⟨h, .returned none, st⟩
  | .doneWith c => ⟨h, .returned (some c), st⟩
  | .raise => ⟨h, .raised, st⟩
  | .read d k =>
    ⟨match r with
      | some e => h.subscribe d e
      | none => h, .get d, .inCode r d k :: st⟩
  | .write i v k => setSource ord h (.andThen r k :: st) i v
  | .batch b k => ⟨{ h with depth := h.depth + 1 }, .exec r b, .batch :: .andThen r k :: st⟩
  | .call e k => ⟨h, .call (.effect e), .andThen r k :: st⟩
  | .eager i k =>
    if h.eager i then ⟨h, .exec r k, st⟩
    else ⟨h.mintPuller i, .call (.puller i (h.minted i)), .andThen r k :: st⟩
  | .lazy i k => lazyComputed ord h (.andThen r k :: st) i
  | .dispose d k => dispose ord h (.andThen r k :: st) d
  | .disposeEffect e k => disposeEffect ord h (.andThen r k :: st) (.effect e)
  | .attempt b k => ⟨h, .exec r b, .attempt r k :: st⟩

def stepEval (h : Heap V) (st : List (Frame V)) (n : Node) : Comp V → Config V
  | .ret v => ⟨h.setCache n v, .value v, st⟩
  | .raise => ⟨h, .raised, st⟩
  | .read d k => ⟨h.subscribe d n, .get d, .inSlot n d k :: st⟩

/-- Whether `Computed._pull` propagates a recompute, by `_changed`. -/
def Graph.propagates (G : Graph V) (i : ℕ) (old new : V) : Bool :=
  match G.changed i with
  | none => decide (new ≠ old)
  | some changed => changed old new

/-- With exact guards, what is suppressed is no change. -/
theorem Graph.ExactGuards.eq_of_suppressed {G : Graph V} (hx : G.ExactGuards) {i : ℕ}
    {old new : V} (h : G.propagates i old new = false) : old = new := by
  by_contra hne
  cases hg : G.changed i with
  | none => simp [Graph.propagates, hg, Ne.symm hne] at h
  | some f => simp [Graph.propagates, hg, hx i f hg old new hne] at h

/-- `Computed._pull` once the backing memo has returned `v`. -/
def pulled (G : Graph V) (ord : Enum) (h : Heap V) (st : List (Frame V)) (p : Node) (i : ℕ) (v : V) : Config V :=
  let h' := h.record p (.memo i) v
  match h.handle i with
  | none => ⟨h'.setHandle i v, .returned none, st⟩
  | some old =>
    if G.propagates i old v then touch ord (h'.setHandle i v) st (.computed i)
    else ⟨h', .returned none, st⟩

def stepValue (G : Graph V) (ord : Enum) (h : Heap V) (v : V) : List (Frame V) → Option (Config V)
  | .inSlot n d k :: st => some ⟨h.record n d.node v, .eval n (k v), st⟩
  | .inCode r d k :: st =>
    some ⟨match r with
      | some e => h.record e d.node v
      | none => h, .exec r (k v), st⟩
  | .pull p i :: st => some (pulled G ord h st p i v)
  | .rearmSlot i :: st => some ⟨h.setHandle i v, .value v, st⟩
  | _ => none

def invalidate (ord : Enum) (h : Heap V) (st : List (Frame V)) (n : Node) : Config V :=
  match n with
  | .slot _ | .memo _ =>
    if h.disposed n then ⟨h, .loop, st⟩ else ⟨h.invalidateSlot ord n, .loop, st⟩
  | .effect _ | .puller _ _ =>
    if h.disposed n || h.running n then ⟨h, .loop, st⟩
    else if 0 < h.depth then ⟨(h.clearParents n).enqueueEffect n, .loop, st⟩
    else if h.started n then ⟨h.clearParents n, .call n, st⟩
    else ⟨h.clearParents n, .loop, st⟩
  | .source _ | .computed _ => ⟨h, .loop, st⟩

def stepLoop (ord : Enum) (h : Heap V) : List (Frame V) → Option (Config V)
  | .drain :: st =>
    match h.work with
    | [] => some ⟨{ h with active := false }, .returned none, st⟩
    | n :: rest => some (invalidate ord { h with work := rest } (.drain :: st) n)
  | _ => none

def stepDirty (ord : Enum) (h : Heap V) (st : List (Frame V)) : List Node → Config V
  | [] => ⟨h, .returned none, st⟩
  | n :: rest =>
    if h.disposed n then ⟨h, .dirty rest, st⟩
    else ⟨(h.clearParents n).dropCached n, .dirty (ord (some n) (h.parents n) ++ rest), st⟩

/-- `batch` when its body is over: the outermost boundary flushes. -/
def endBatch (ord : Enum) (h : Heap V) (st : List (Frame V)) (bodyRaised : Bool) : Config V :=
  if h.depth = 1 then ⟨h.flushTouch ord, .loop, .drain :: .flushed bodyRaised :: st⟩
  else
    ⟨{ h with depth := h.depth - 1 }, if bodyRaised then .raised else .returned none, st⟩

/-- The loop of phase 2: rerun the next queued effect, or leave the batch. -/
def nextRerun (h : Heap V) (st : List (Frame V)) (bodyRaised : Bool) : List Node → Config V
  | [] => ⟨{ h with depth := h.depth - 1 }, if bodyRaised then .raised else .returned none, st⟩
  | e :: rest =>
    if h.disposed e then ⟨h, .returned none, .rerun bodyRaised rest :: st⟩
    else if h.started e then ⟨h, .call e, .rerun bodyRaised rest :: st⟩
    else ⟨h, .returned none, .rerun bodyRaised rest :: st⟩

def stepReturned (G : Graph V) (ord : Enum) (h : Heap V) (cl : Option (Code V)) : List (Frame V) → Option (Config V)
  | .andThen r c :: st => some ⟨h, .exec r c, st⟩
  | .rearmed i :: st => some ⟨h, .value ((h.handle i).getD G.unset), st⟩
  | .drain :: st => some ⟨h, .loop, .drain :: st⟩
  | .effect e :: st =>
    some ⟨{ h with
      cleanup := update h.cleanup e (if e.isPuller then none else cl)
      running := update h.running e false }, .returned none, st⟩
  | .cleanup e :: st => some (runBody G h st e)
  | .disposing e :: st => some (finalCleanup h st e)
  | .batch :: st => some (endBatch ord h st false)
  | .flushed b :: st =>
    some (nextRerun { h with pendingEffects := [] } st b (ord none h.pendingEffects))
  | .rerun b rest :: st => some (nextRerun h st b rest)
  | .attempt r k :: st => some ⟨h, .exec r k, st⟩
  | _ => none

/-- An exception reaches the frame below it. `_flush` runs in a `finally` block, so an
exception leaving it skips `_depth -= 1`. -/
def stepRaised (ord : Enum) (h : Heap V) : List (Frame V) → Option (Config V)
  | [] => none
  | .drain :: st => some ⟨{ h with active := false }, .raised, st⟩
  | .effect e :: st =>
    some ⟨{ h with running := update h.running e false }, .raised, st⟩
  | .batch :: st => some (endBatch ord h st true)
  | .attempt r k :: st => some ⟨h, .exec r k, st⟩
  | _ :: st => some ⟨h, .raised, st⟩

/-- One statement of the runtime. A configuration without a step is `Idle`, or no Python
call stack has its shape. -/
def step (G : Graph V) (ord : Enum) (c : Config V) : Option (Config V) :=
  match c.ctl with
  | .exec r code => some (stepExec ord c.heap c.stack r code)
  | .get d => some (getRef G c.heap c.stack d)
  | .eval n t => some (stepEval c.heap c.stack n t)
  | .value v => stepValue G ord c.heap v c.stack
  | .call e => some (callEffect G c.heap c.stack e)
  | .loop => stepLoop ord c.heap c.stack
  | .dirty ns => some (stepDirty ord c.heap c.stack ns)
  | .returned cl => stepReturned G ord c.heap cl c.stack
  | .raised => stepRaised ord c.heap c.stack

/-- The client issues `code` between two calls. -/
def Config.issue (c : Config V) (code : Code V) : Config V :=
  { c with ctl := .exec none code }

/-- A step of the runtime under some enumeration of the sets it meets, or the next call of
a client whose code stays within the instructions `S`. -/
inductive Step (G : Graph V) (S : Instr → Prop) : Config V → Config V → Prop
  | tick {c c' : Config V} (ord : Enum) : ord.Lawful → step G ord c = some c' → Step G S c c'
  | issue {c : Config V} (code : Code V) : c.Idle → code.Within S → Step G S c (c.issue code)

/-- A run all of whose steps start in a configuration that satisfies `ok`. -/
def Run (G : Graph V) (S : Instr → Prop) (ok : Config V → Prop) : Config V → Config V → Prop :=
  Relation.ReflTransGen fun c c' => ok c ∧ Step G S c c'

end LazilyPy.Reactive

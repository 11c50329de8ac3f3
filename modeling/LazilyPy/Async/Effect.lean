import LazilyPy.Lib.Throughout

/-!
# The runtime of async effects

An effect reruns its body when it is flushed after an invalidation. The cleanup that a body returns is
kept until the next rerun or until the effect is disposed of. Calls of `flush` and `dispose` are
coroutines, which stop where they await something.
-/

namespace LazilyPy.Async.Effect

/-! ### The kernel -/

inductive EffectState
  | idle | scheduled | cleanupRunning | cleanupRunningScheduled | disposed
  deriving DecidableEq, Repr

inductive EffectEvent
  | invalidate
  | fire (hasCleanup : Bool)
  | cleanupDone
  | dispose
  deriving DecidableEq, Repr

def step (s : EffectState) : EffectEvent → EffectState
  | .invalidate =>
    match s with
    | .idle => .scheduled
    | .scheduled => .scheduled
    | .cleanupRunning => .cleanupRunningScheduled
    | .cleanupRunningScheduled => .cleanupRunningScheduled
    | .disposed => .disposed
  | .fire hasCleanup =>
    match s with
    | .scheduled => if hasCleanup then .cleanupRunning else .idle
    | s => s
  | .cleanupDone =>
    match s with
    | .cleanupRunning => .idle
    | .cleanupRunningScheduled => .scheduled
    | s => s
  | .dispose => .disposed

/-! ### The runtime -/

/-- Where a flush has stopped: at the task of the retained cleanup, in the body, or in the cleanup that
a body has returned after the effect was disposed of. -/
inductive FlushPoint
  | cleaning (task : ℕ)
  | body
  | releasing (cleanup : ℕ)
  deriving DecidableEq, Repr

/-- Where a dispose has stopped: at the task of a flush, or in the retained cleanup. -/
inductive DisposePoint
  | waiting (task : ℕ)
  | cleaning (cleanup : ℕ)
  deriving DecidableEq, Repr

inductive TaskState
  | created (cleanup : ℕ)
  | running (cleanup : ℕ)
  | done
  deriving DecidableEq, Repr

/-- What is seen of an effect. Cleanups are known by the order in which they are returned. -/
inductive Event
  | invalidated
  | bodyStart
  | bodyEnd (cleanup : Option ℕ)
  | cleanupStart (cleanup : ℕ)
  | cleanupEnd (cleanup : ℕ)
  deriving DecidableEq, Repr

/-- An effect, with the calls of `flush` and `dispose` that have not returned, by number, the tasks
that it has created, and what has been seen of it. -/
structure AsyncEffect where
  state : EffectState := .idle
  pending : Bool := false
  cleanup : Option ℕ := none
  cleanupTask : Option ℕ := none
  flushes : ℕ → Option FlushPoint := fun _ => none
  disposes : ℕ → Option DisposePoint := fun _ => none
  tasks : ℕ → Option TaskState := fun _ => none
  nextFlush : ℕ := 0
  nextDispose : ℕ := 0
  nextTask : ℕ := 0
  nextCleanup : ℕ := 0
  log : List Event := []

/-- A turn of the event loop: a call, a task that begins or ends, a coroutine that goes on after a task
has ended, or the end of what a coroutine awaits itself. A body that ends may return a cleanup. -/
inductive Turn
  | invalidate
  | flush
  | dispose
  | beginTask (task : ℕ)
  | endTask (task : ℕ)
  | resumeFlush (flush : ℕ)
  | endBody (flush : ℕ) (returns : Bool)
  | endRelease (flush : ℕ)
  | resumeDispose (dispose : ℕ)
  | endCleaning (dispose : ℕ)
  deriving DecidableEq, Repr

namespace AsyncEffect

def see (event : Event) (s : AsyncEffect) : AsyncEffect :=
  { s with log := s.log ++ [event] }

/-- The flush `k` stops at a point, or returns. -/
def flushAt (k : ℕ) (point : Option FlushPoint) (s : AsyncEffect) : AsyncEffect :=
  { s with flushes := Function.update s.flushes k point }

/-- The dispose `k` stops at a point, or returns. -/
def disposeAt (k : ℕ) (point : Option DisposePoint) (s : AsyncEffect) : AsyncEffect :=
  { s with disposes := Function.update s.disposes k point }

def setTask (t : ℕ) (task : TaskState) (s : AsyncEffect) : AsyncEffect :=
  { s with tasks := Function.update s.tasks t (some task) }

def invalidate (s : AsyncEffect) : AsyncEffect :=
  if s.state = .disposed then s
  else
    let state : EffectState := if s.state = .cleanupRunning then .cleanupRunningScheduled else .scheduled
    { s with state := state, pending := true }.see .invalidated

def startBody (k : ℕ) (s : AsyncEffect) : AsyncEffect :=
  (s.flushAt k (some .body)).see .bodyStart

/-- A task for the retained cleanup, which the flush `k` awaits. -/
def startCleanup (k cleanup : ℕ) (s : AsyncEffect) : AsyncEffect :=
  { (s.setTask s.nextTask (.created cleanup)).flushAt k (some (.cleaning s.nextTask)) with
    state := .cleanupRunning
    cleanup := none
    cleanupTask := some s.nextTask
    nextTask := s.nextTask + 1 }

/-- The head of the loop of the flush `k`, up to where it stops. -/
def fire (k : ℕ) (s : AsyncEffect) : AsyncEffect :=
  if s.pending ∧ s.state ≠ .disposed then
    let s := { s with pending := false }
    match s.cleanup with
    | some cleanup => s.startCleanup k cleanup
    | none => s.startBody k
  else s.flushAt k none

def flush (s : AsyncEffect) : AsyncEffect :=
  { s with nextFlush := s.nextFlush + 1 }.fire s.nextFlush

/-- The flush `k` goes on after the task that it awaits. -/
def resumeFlush (k : ℕ) (s : AsyncEffect) : AsyncEffect :=
  match s.flushes k with
  | some (.cleaning t) =>
    if s.tasks t = some .done then
      let s := { s with cleanupTask := none }
      if s.state = .disposed then s.flushAt k none else s.startBody k
    else s
  | _ => s

/-- The flush `k` goes on with what its body has returned, which is kept unless the effect has been
disposed of. -/
def keepCleanup (k : ℕ) (cleanup : Option ℕ) (s : AsyncEffect) : AsyncEffect :=
  if s.state = .disposed then
    match cleanup with
    | some c => ({ s with cleanup := none }.flushAt k (some (.releasing c))).see (.cleanupStart c)
    | none => { s with cleanup := none }.flushAt k none
  else
    let state : EffectState := if s.pending then .scheduled else .idle
    { s with cleanup := cleanup, state := state }.fire k

/-- The body of the flush `k` returns a cleanup, or none. -/
def endBody (k : ℕ) (returns : Bool) (s : AsyncEffect) : AsyncEffect :=
  match s.flushes k with
  | some .body =>
    if returns then
      ({ s with nextCleanup := s.nextCleanup + 1 }.see (.bodyEnd (some s.nextCleanup))).keepCleanup k
        (some s.nextCleanup)
    else (s.see (.bodyEnd none)).keepCleanup k none
  | _ => s

def endRelease (k : ℕ) (s : AsyncEffect) : AsyncEffect :=
  match s.flushes k with
  | some (.releasing c) => (s.flushAt k none).see (.cleanupEnd c)
  | _ => s

/-- The dispose `k` runs the retained cleanup. -/
def finishDispose (k : ℕ) (s : AsyncEffect) : AsyncEffect :=
  match s.cleanup with
  | some c => ({ s with cleanup := none }.disposeAt k (some (.cleaning c))).see (.cleanupStart c)
  | none => s.disposeAt k none

def dispose (s : AsyncEffect) : AsyncEffect :=
  let k := s.nextDispose
  let s := { s with state := .disposed, pending := false, nextDispose := k + 1 }
  match s.cleanupTask with
  | some t =>
    -- a task that is done is not waited for
    if s.tasks t = some .done then { s with cleanupTask := none }.finishDispose k
    else s.disposeAt k (some (.waiting t))
  | none => s.finishDispose k

def resumeDispose (k : ℕ) (s : AsyncEffect) : AsyncEffect :=
  match s.disposes k with
  | some (.waiting t) =>
    if s.tasks t = some .done then { s with cleanupTask := none }.finishDispose k else s
  | _ => s

def endCleaning (k : ℕ) (s : AsyncEffect) : AsyncEffect :=
  match s.disposes k with
  | some (.cleaning c) => (s.disposeAt k none).see (.cleanupEnd c)
  | _ => s

def beginTask (t : ℕ) (s : AsyncEffect) : AsyncEffect :=
  match s.tasks t with
  | some (.created c) => (s.setTask t (.running c)).see (.cleanupStart c)
  | _ => s

def endTask (t : ℕ) (s : AsyncEffect) : AsyncEffect :=
  match s.tasks t with
  | some (.running c) => (s.setTask t .done).see (.cleanupEnd c)
  | _ => s

def turn (s : AsyncEffect) : Turn → AsyncEffect
  | .invalidate => s.invalidate
  | .flush => s.flush
  | .dispose => s.dispose
  | .beginTask t => s.beginTask t
  | .endTask t => s.endTask t
  | .resumeFlush k => s.resumeFlush k
  | .endBody k returns => s.endBody k returns
  | .endRelease k => s.endRelease k
  | .resumeDispose k => s.resumeDispose k
  | .endCleaning k => s.endCleaning k

def run (turns : List Turn) : AsyncEffect :=
  turns.foldl turn {}

theorem run_concat (turns : List Turn) (next : Turn) : run (turns ++ [next]) = (run turns).turn next :=
  List.foldl_concat ..

/-- No flush is called for something pending while another one has not returned. -/
def Alone (before : List Turn) (next : Turn) : Prop :=
  next = .flush → (run before).pending → (run before).state ≠ .disposed → ∀ k, (run before).flushes k = none

end AsyncEffect

end LazilyPy.Async.Effect

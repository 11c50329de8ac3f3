import LazilyPy.Async.Effect
import LazilyPy.Async.Slot
import LazilyPy.Lib.Worklist

/-!
# The async context

Sources, computeds and effects, with the edges from what is read to what reads it. An operation on the
context is synchronous; between operations the event loop takes turns: a task begins, or a coroutine goes
on until it awaits something. The slot of a computed and the lifecycle of an effect are those of
`Slot` and `Effect`. The disposal of the whole context is left out.
-/

namespace LazilyPy.Async.Context

open Function

open Effect (AsyncEffect)

inductive Handle (I : Type)
  | source (id : I)
  | computed (id : I)
  | effect (id : I)
  deriving DecidableEq, Repr

inductive Reply (V : Type)
  | value (v : V)
  | nothing
  | raised

/-- A body: what it reads and awaits, and what it returns. Whatever else it does to the context is an
operation of its own, which comes while the body awaits something. -/
inductive Body (I V R : Type)
  | ret (r : R)
  | raise
  | get (id : I) (k : Reply V → Body I V R)
  | peek (id : I) (k : Reply V → Body I V R)
  | getAsync (id : I) (k : Reply V → Body I V R)
  | suspend (rest : Body I V R)

/-- Where a body has stopped: at something that it awaits, or in `get_async`, which waits for a future
or has not begun. -/
inductive Phase (I V R : Type)
  | suspended (rest : Body I V R)
  | waiting (id : I) (future : Option ℕ) (k : Reply V → Body I V R)

inductive Stop (I V R : Type)
  | returned (r : R)
  | raised
  | stopped (phase : Phase I V R)

/-- What comes of a turn of the loop of `get_async`. -/
inductive Wait (V : Type)
  | blocked (future : Option ℕ)
  | over (reply : Reply V)

/-- A run of the body of a computed, with the value that has been memoized when it began. -/
structure Run (I V : Type) where
  prior : Option V
  phase : Phase I V V

/-- What a call of `dispose_async` waits for: the task of a flush, or a dispose of the effect. -/
inductive Disposing
  | flush (task : ℕ)
  | effect (call : ℕ)
  | returned
  deriving DecidableEq, Repr

/-- The bodies of computeds and effects, and the guards of computeds. The body of an effect returns
whether there is a cleanup. -/
structure Program (I V : Type) where
  compute : I → Body I V V
  eq : I → Option (V → V → Bool)
  effect : I → Body I V Bool

/-- The context. `flushTask` is the task that the handle of an effect has, of the `flushTasks` that have
been created for it, which begin one after another. The last three fields are observations: how often
a body has been started, how often the body of an effect has ended, and what its last run has read. -/
structure AsyncContext (I V : Type) where
  value : I → V
  disposed : Handle I → Bool := fun _ => false
  dependents : List (Handle I × Handle I) := []
  dependencies : Handle I → List (Handle I) := fun _ => []
  effects : List I := []
  depth : ℕ := 0
  batchQueue : List (Handle I) := []
  running : Bool := false
  slot : I → Runtime V Unit := fun _ => {}
  memo : I → Option V := fun _ => none
  runs : I → ℕ → Option (Run I V) := fun _ _ => none
  callers : ℕ → Option (I × Option ℕ) := fun _ => none
  nextCaller : ℕ := 0
  effect : I → AsyncEffect := fun _ => {}
  flushTask : I → Option ℕ := fun _ => none
  flushTasks : I → ℕ := fun _ => 0
  effectRuns : I → ℕ → Option (Phase I V Bool) := fun _ _ => none
  disposers : ℕ → Option (I × Disposing) := fun _ => none
  nextDisposer : ℕ := 0
  starts : Handle I → ℕ := fun _ => 0
  executions : I → ℕ := fun _ => 0
  reads : I → List (I × V) := fun _ => []

/-- The value that the guard of a computed keeps, if it finds that the new one is equal. -/
def Program.guarded {I V : Type} (P : Program I V) (id : I) (prior : Option V) (value : V) : Option V :=
  match P.eq id, prior with
  | some eq, some old => if eq old value then some old else none
  | _, _ => none

namespace AsyncContext

variable {I V R : Type} [DecidableEq I]

def onSlot (id : I) (f : Runtime V Unit → Runtime V Unit) (s : AsyncContext I V) : AsyncContext I V :=
  { s with slot := update s.slot id (f (s.slot id)) }

def onEffect (id : I) (f : AsyncEffect → AsyncEffect) (s : AsyncContext I V) : AsyncContext I V :=
  { s with effect := update s.effect id (f (s.effect id)) }

def setRun (id : I) (fut : ℕ) (r : Option (Run I V)) (s : AsyncContext I V) : AsyncContext I V :=
  { s with runs := update s.runs id (update (s.runs id) fut r) }

def setEffectRun (id : I) (j : ℕ) (phase : Option (Phase I V Bool)) (s : AsyncContext I V) : AsyncContext I V :=
  { s with effectRuns := update s.effectRuns id (update (s.effectRuns id) j phase) }

def setDisposer (k : ℕ) (disposer : I × Disposing) (s : AsyncContext I V) : AsyncContext I V :=
  { s with disposers := update s.disposers k (some disposer) }

/-! ### Edges -/

def dependentsOf (h : Handle I) (s : AsyncContext I V) : List (Handle I) :=
  (s.dependents.filter fun edge => edge.1 = h).map Prod.snd

def track (h dependency : Handle I) (s : AsyncContext I V) : AsyncContext I V :=
  if dependency ∈ s.dependencies h then s
  else
    { s with
      dependencies := update s.dependencies h (s.dependencies h ++ [dependency])
      dependents := s.dependents.insert (dependency, h) }

def detach (h : Handle I) (s : AsyncContext I V) : AsyncContext I V :=
  { s with
    dependents := s.dependents.filter fun edge => ¬ (edge.1 ∈ s.dependencies h ∧ edge.2 = h)
    dependencies := update s.dependencies h [] }

/-! ### Invalidation -/

def invalidateSlot (id : I) (s : AsyncContext I V) : AsyncContext I V :=
  s.onSlot id fun r => { r with slot := r.slot.invalidate }

def FlushDone (id : I) (task : ℕ) (s : AsyncContext I V) : Prop :=
  task < (s.effect id).nextFlush ∧ (s.effect id).flushes task = none

instance (id : I) (task : ℕ) (s : AsyncContext I V) : Decidable (s.FlushDone id task) :=
  inferInstanceAs (Decidable (_ ∧ _))

def Settled (id : I) (s : AsyncContext I V) : Prop :=
  ∀ task ∈ s.flushTask id, s.FlushDone id task

instance (id : I) (s : AsyncContext I V) : Decidable (s.Settled id) :=
  inferInstanceAs (Decidable (∀ task ∈ s.flushTask id, s.FlushDone id task))

def createFlush (id : I) (s : AsyncContext I V) : AsyncContext I V :=
  if s.running then
    { s with
      flushTask := update s.flushTask id (some (s.flushTasks id))
      flushTasks := update s.flushTasks id (s.flushTasks id + 1) }
  else { s with flushTask := update s.flushTask id none }

def schedule (id : I) (s : AsyncContext I V) : AsyncContext I V :=
  if s.disposed (.effect id) then s
  else
    let s := s.onEffect id AsyncEffect.invalidate
    if s.Settled id then s.createFlush id else s

def successors (s : AsyncContext I V) : Handle I → List (Handle I)
  | .effect _ => []
  | h => s.dependentsOf h

def walk (roots : List (Handle I)) (s : AsyncContext I V) : List (Handle I) :=
  explore s.successors (s.dependents.length + roots.length + 1) roots roots

def notify (s : AsyncContext I V) : Handle I → AsyncContext I V
  | .effect id => s.schedule id
  | .computed id => s.invalidateSlot id
  | .source _ => s

def invalidateDependents (h : Handle I) (s : AsyncContext I V) : AsyncContext I V :=
  if 0 < s.depth then { s with batchQueue := s.batchQueue ++ [h] }
  else (s.walk [h]).tail.foldl notify s

/-- What is done to what has read something that has been disposed of: effects are not scheduled. -/
def markStale (s : AsyncContext I V) : Handle I → AsyncContext I V
  | .computed id => s.invalidateSlot id
  | _ => s

def dirtyDisposedDependents (roots : List (Handle I)) (s : AsyncContext I V) : AsyncContext I V :=
  (s.walk roots).foldl markStale s

/-! ### Operations -/

def set [BEq V] (id : I) (value : V) (s : AsyncContext I V) : AsyncContext I V :=
  if s.disposed (.source id) then s
  else if value == s.value id then s
  else { s with value := update s.value id value }.invalidateDependents (.source id)

def invalidate (id : I) (s : AsyncContext I V) : AsyncContext I V :=
  (s.invalidateSlot id).invalidateDependents (.computed id)

def hardClear (id : I) (s : AsyncContext I V) : AsyncContext I V :=
  s.onSlot id fun r => { r with slot := r.slot.hardClear }

def enterBatch (s : AsyncContext I V) : AsyncContext I V :=
  { s with depth := s.depth + 1 }

/-- The end of a batch: what has been queued is invalidated at the outermost one. -/
def exitBatch (s : AsyncContext I V) : AsyncContext I V :=
  match s.depth with
  | 0 => s
  | 1 =>
    s.batchQueue.eraseDups.foldl (fun s h => s.invalidateDependents h)
      { s with depth := 0, batchQueue := [] }
  | d + 2 => { s with depth := d + 1 }

def effectAsync (id : I) (s : AsyncContext I V) : AsyncContext I V :=
  if id ∈ s.effects ∨ s.disposed (.effect id) then s
  else { s with effects := s.effects ++ [id] }.schedule id

def popDependents (h : Handle I) (s : AsyncContext I V) : AsyncContext I V :=
  { s with
    dependents := s.dependents.filter fun edge => edge.1 ≠ h
    dependencies := fun d =>
      if d ∈ s.dependentsOf h then (s.dependencies d).filter (· ≠ h) else s.dependencies d }

def disposeComputed (id : I) (s : AsyncContext I V) : AsyncContext I V :=
  if s.disposed (.computed id) then s
  else
    let s := { s with disposed := update s.disposed (.computed id) true }.detach (.computed id)
    ((s.popDependents (.computed id)).hardClear id).dirtyDisposedDependents (s.dependentsOf (.computed id))

def disposeSource (id : I) (s : AsyncContext I V) : AsyncContext I V :=
  if s.disposed (.source id) then s
  else
    let s := { s with disposed := update s.disposed (.source id) true }
    (s.popDependents (.source id)).dirtyDisposedDependents (s.dependentsOf (.source id))

/-! ### Bodies -/

def readSource (id : I) (s : AsyncContext I V) : Reply V :=
  if s.disposed (.source id) then .raised else .value (s.value id)

def cached (id : I) (s : AsyncContext I V) : Reply V :=
  (s.slot id).slot.value.elim .nothing .value

def readComputed (id : I) (s : AsyncContext I V) : Reply V :=
  if s.disposed (.computed id) then .raised else s.cached id

def note (h : Handle I) (id : I) (s : AsyncContext I V) : AsyncContext I V :=
  match h with
  | .effect e =>
    if s.disposed (.source id) then s
    else { s with reads := update s.reads e (s.reads e ++ [(id, s.value id)]) }
  | _ => s

/-- A body goes on up to what it awaits. A read registers its edge first. -/
def advance (h : Handle I) : Body I V R → AsyncContext I V → Stop I V R × AsyncContext I V
  | .ret r, s => (.returned r, s)
  | .raise, s => (.raised, s)
  | .get id k, s => advance h (k (s.readSource id)) ((s.track h (.source id)).note h id)
  | .peek id k, s => advance h (k (s.readComputed id)) (s.track h (.computed id))
  | .getAsync id k, s =>
    if s.disposed (.computed id) then advance h (k .raised) (s.track h (.computed id))
    else (.stopped (.waiting id none k), s.track h (.computed id))
  | .suspend rest, s => (.stopped (.suspended rest), s)

/-- A turn of the loop of `get_async`. -/
def await (id : I) (future : Option ℕ) (s : AsyncContext I V) : Wait V × AsyncContext I V :=
  match future.map (s.slot id).futures with
  | some .pending => (.blocked future, s)
  | some (.exception _) => (.over .raised, s)
  | some .cancelled => (.over .raised, s)
  | _ =>
    if (s.slot id).slot.state = .resolved then (.over (s.cached id), s)
    else (.blocked (s.slot id).get.slot.future, s.onSlot id Runtime.get)

/-- Where a body is after a turn of the `get_async` that it waits in. -/
def afterWait (id : I) (k : Reply V → Body I V R) : Wait V → Phase I V R
  | .blocked future => .waiting id future k
  | .over reply => .suspended (k reply)

variable (P : Program I V)

/-- The run of a computed stops. What it returns is completed with, unless the guard keeps what has been
memoized. -/
def finishRun (id : I) (fut : ℕ) (prior : Option V) (r : Stop I V V × AsyncContext I V) : AsyncContext I V :=
  match r with
  | (.stopped phase, s) => s.setRun id fut (some ⟨prior, phase⟩)
  | (.raised, s) => (s.setRun id fut none).onSlot id (Runtime.completeErr fut ())
  | (.returned value, s) =>
    match P.guarded id prior value with
    | some old => (s.setRun id fut none).onSlot id (Runtime.completeOk fut (some old))
    | none =>
      ({ s with memo := update s.memo id (some value) }.setRun id fut none).onSlot id
        (Runtime.completeOk fut (some value))

def countStart (h : Handle I) (s : AsyncContext I V) : AsyncContext I V :=
  { s with starts := update s.starts h (s.starts h + 1) }

def unstarted (id : I) (s : AsyncContext I V) : Option Drive :=
  (s.slot id).drives.find? fun d => d.rev = none

def begin (id : I) (s : AsyncContext I V) : AsyncContext I V :=
  match s.unstarted id with
  | none => s
  | some d =>
    let s := (s.onSlot id (Runtime.begins d.future)).countStart (.computed id)
    finishRun P id d.future (s.memo id) (advance (.computed id) (P.compute id) (s.detach (.computed id)))

def resume (id : I) (fut : ℕ) (s : AsyncContext I V) : AsyncContext I V :=
  match s.runs id fut with
  | some ⟨prior, .suspended rest⟩ => finishRun P id fut prior (advance (.computed id) rest s)
  | _ => s

def wake (id : I) (fut : ℕ) (s : AsyncContext I V) : AsyncContext I V :=
  match s.runs id fut with
  | some ⟨prior, .waiting dep future k⟩ =>
    let r := s.await dep future
    r.2.setRun id fut (some ⟨prior, afterWait dep k r.1⟩)
  | _ => s

def getAsync (id : I) (s : AsyncContext I V) : AsyncContext I V :=
  if s.disposed (.computed id) then s
  else
    { s with
      callers := update s.callers s.nextCaller (some (id, none))
      nextCaller := s.nextCaller + 1 }

/-- What a call of `get_async` from outside waits for, if it has not returned. -/
def callerAfter (id : I) : Wait V → Option (I × Option ℕ)
  | .blocked future => some (id, future)
  | .over _ => none

def wakeCaller (k : ℕ) (s : AsyncContext I V) : AsyncContext I V :=
  match s.callers k with
  | some (id, future) =>
    let r := s.await id future
    { r.2 with callers := update r.2.callers k (callerAfter id r.1) }
  | none => s

/-! ### Effects -/

def finishEffect (id : I) (j : ℕ) (r : Stop I V Bool × AsyncContext I V) : AsyncContext I V :=
  match r with
  | (.stopped phase, s) => s.setEffectRun id j (some phase)
  | (.raised, s) =>
    ({ s with executions := update s.executions id (s.executions id + 1) }.setEffectRun id j
      none).onEffect id (AsyncEffect.endBody j false)
  | (.returned returns, s) =>
    ({ s with executions := update s.executions id (s.executions id + 1) }.setEffectRun id j
      none).onEffect id (AsyncEffect.endBody j returns)

def startFlush (id : I) (s : AsyncContext I V) : AsyncContext I V :=
  if (s.effect id).nextFlush < s.flushTasks id then s.onEffect id AsyncEffect.flush else s

/-- A flush that has come to its body runs it, unless the effect has been disposed of. -/
def startBody (id : I) (j : ℕ) (s : AsyncContext I V) : AsyncContext I V :=
  if (s.effect id).flushes j = some .body ∧ (s.effectRuns id j).isNone then
    if s.disposed (.effect id) then s.onEffect id (AsyncEffect.endBody j false)
    else
      let s := { s with reads := update s.reads id [] }.countStart (.effect id)
      finishEffect id j (advance (.effect id) (P.effect id) (s.detach (.effect id)))
  else s

def resumeEffect (id : I) (j : ℕ) (s : AsyncContext I V) : AsyncContext I V :=
  match s.effectRuns id j with
  | some (.suspended rest) => finishEffect id j (advance (.effect id) rest s)
  | _ => s

def wakeEffect (id : I) (j : ℕ) (s : AsyncContext I V) : AsyncContext I V :=
  match s.effectRuns id j with
  | some (.waiting dep future k) =>
    let r := s.await dep future
    r.2.setEffectRun id j (some (afterWait dep k r.1))
  | _ => s

/-- A dispose of the effect of a handle has stopped, or it has returned and the handle is detached. -/
def afterDispose (k : ℕ) (id : I) (call : ℕ) (s : AsyncContext I V) : AsyncContext I V :=
  if (s.effect id).disposes call = none then
    (s.detach (.effect id)).setDisposer k (id, .returned)
  else s.setDisposer k (id, .effect call)

def disposeEffect (k : ℕ) (id : I) (s : AsyncContext I V) : AsyncContext I V :=
  (s.onEffect id AsyncEffect.dispose).afterDispose k id (s.effect id).nextDispose

def disposeAsync (id : I) (s : AsyncContext I V) : AsyncContext I V :=
  let k := s.nextDisposer
  let task := s.flushTask id
  let s := { s with
    disposed := update s.disposed (.effect id) true
    effects := s.effects.filter (· ≠ id)
    flushTask := update s.flushTask id none
    nextDisposer := k + 1 }
  match task with
  | some task =>
    if s.FlushDone id task then s.disposeEffect k id else s.setDisposer k (id, .flush task)
  | none => s.disposeEffect k id

def resumeDispose (k : ℕ) (s : AsyncContext I V) : AsyncContext I V :=
  match s.disposers k with
  | some (id, .flush task) => if s.FlushDone id task then s.disposeEffect k id else s
  | some (id, .effect call) =>
    (s.onEffect id (AsyncEffect.resumeDispose call)).afterDispose k id call
  | _ => s

def endCleaning (k : ℕ) (s : AsyncContext I V) : AsyncContext I V :=
  match s.disposers k with
  | some (id, .effect call) =>
    (s.onEffect id (AsyncEffect.endCleaning call)).afterDispose k id call
  | _ => s

end AsyncContext

/-! ### Runs -/

inductive Op (I V : Type)
  | set (id : I) (value : V)
  | invalidate (id : I)
  | hardClear (id : I)
  | enterBatch
  | exitBatch
  | effectAsync (id : I)
  | disposeComputed (id : I)
  | disposeSource (id : I)
  | startLoop
  | stopLoop

/-- A turn of the event loop, which runs outside of batches only. -/
inductive Turn (I : Type)
  | getAsync (id : I)
  | disposeAsync (id : I)
  | begin (id : I)
  | resume (id : I) (fut : ℕ)
  | wake (id : I) (fut : ℕ)
  | wakeCaller (k : ℕ)
  | startFlush (id : I)
  | startBody (id : I) (j : ℕ)
  | resumeEffect (id : I) (j : ℕ)
  | wakeEffect (id : I) (j : ℕ)
  | beginCleanup (id : I) (task : ℕ)
  | endCleanup (id : I) (task : ℕ)
  | resumeFlush (id : I) (j : ℕ)
  | endRelease (id : I) (j : ℕ)
  | resumeDispose (k : ℕ)
  | endCleaning (k : ℕ)

inductive Event (I V : Type)
  | op (op : Op I V)
  | turn (turn : Turn I)

variable {I V : Type} [DecidableEq I] [BEq V] (P : Program I V)

namespace AsyncContext

def apply (s : AsyncContext I V) : Op I V → AsyncContext I V
  | .set id value => s.set id value
  | .invalidate id => s.invalidate id
  | .hardClear id => s.hardClear id
  | .enterBatch => s.enterBatch
  | .exitBatch => s.exitBatch
  | .effectAsync id => s.effectAsync id
  | .disposeComputed id => s.disposeComputed id
  | .disposeSource id => s.disposeSource id
  | .startLoop => { s with running := true }
  | .stopLoop => { s with running := false }

omit [BEq V] in
def turn (s : AsyncContext I V) : Turn I → AsyncContext I V
  | .getAsync id => s.getAsync id
  | .disposeAsync id => s.disposeAsync id
  | .begin id => s.begin P id
  | .resume id fut => s.resume P id fut
  | .wake id fut => s.wake id fut
  | .wakeCaller k => s.wakeCaller k
  | .startFlush id => s.startFlush id
  | .startBody id j => s.startBody P id j
  | .resumeEffect id j => s.resumeEffect id j
  | .wakeEffect id j => s.wakeEffect id j
  | .beginCleanup id task => s.onEffect id (AsyncEffect.beginTask task)
  | .endCleanup id task => s.onEffect id (AsyncEffect.endTask task)
  | .resumeFlush id j => s.onEffect id (AsyncEffect.resumeFlush j)
  | .endRelease id j => s.onEffect id (AsyncEffect.endRelease j)
  | .resumeDispose k => s.resumeDispose k
  | .endCleaning k => s.endCleaning k

def step (s : AsyncContext I V) : Event I V → AsyncContext I V
  | .op op => s.apply op
  | .turn turn => if s.running ∧ s.depth = 0 then s.turn P turn else s

end AsyncContext

def run (value : I → V) (events : List (Event I V)) : AsyncContext I V :=
  events.foldl (AsyncContext.step P) { value := value }

theorem run_concat (value : I → V) (events : List (Event I V)) (event : Event I V) :
    run P value (events ++ [event]) = (run P value events).step P event :=
  List.foldl_concat ..

end LazilyPy.Async.Context

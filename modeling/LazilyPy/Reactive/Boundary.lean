import LazilyPy.Reactive.Session

/-!
# Batch boundaries

How a step moves the depth counter, the two pending sets and the scopes that are open on
the stack. As long as nothing raises through a flush and phase 2 of a flush defers nothing,
the depth counts the open scopes and nothing is pending once the last one is closed.
-/

namespace LazilyPy.Reactive

open List Option

variable {V : Type}

/-- The frames of a `batch` that has not been left. -/
def Frame.isScope : Frame V → Bool
  | .batch | .flushed _ | .rerun _ _ => true
  | _ => false

def Frame.isDisposing : Frame V → Bool
  | .disposing _ => true
  | _ => false

def scopes (st : List (Frame V)) : List (Frame V) :=
  st.filter Frame.isScope

@[simp] theorem scopes_nil : scopes ([] : List (Frame V)) = [] :=
  rfl

@[simp] theorem scopes_cons (f : Frame V) (st : List (Frame V)) :
    scopes (f :: st) = if f.isScope then f :: scopes st else scopes st := by
  simp only [scopes, filter_cons]

structure SameBoundary (h : Heap V) (st : List (Frame V)) (c' : Config V) : Prop where
  depth : c'.heap.depth = h.depth
  cells : c'.heap.pendingCells = h.pendingCells
  effects : c'.heap.pendingEffects = h.pendingEffects
  scopes : scopes c'.stack = scopes st

/-- What one step does to the batch state and to the open scopes. -/
inductive BoundaryStep [DecidableEq V] (c c' : Config V) : Prop
  | quiet : SameBoundary c.heap c.stack c' → BoundaryStep c c'
  /-- A source changes inside a batch. -/
  | defer (r : Option Node) (i : ℕ) (v : V) (k : Code V) :
    c.ctl = .exec r (.write i v k) → c.heap.disposed (.source i) = false → v ≠ c.heap.value i →
    0 < c.heap.depth → c'.heap.depth = c.heap.depth →
    c'.heap.pendingCells = insertNode (.source i) c.heap.pendingCells →
    c'.heap.pendingEffects = c.heap.pendingEffects → scopes c'.stack = scopes c.stack →
    BoundaryStep c c'
  /-- A wave reaches an effect inside a batch. -/
  | enqueue (e : Node) (rest : List Node) :
    c.ctl = .loop → c.heap.work = e :: rest → e.isEffect = true → c.heap.disposed e = false →
    c.heap.running e = false → 0 < c.heap.depth → c'.heap.depth = c.heap.depth →
    c'.heap.pendingCells = c.heap.pendingCells →
    c'.heap.pendingEffects = insertNode e c.heap.pendingEffects →
    c'.ctl = .loop → c'.stack = c.stack → BoundaryStep c c'
  /-- A scope is entered. -/
  | open (r : Option Node) (b k : Code V) : c.ctl = .exec r (.batch b k) → c'.heap.depth = c.heap.depth + 1 →
    c'.heap.pendingCells = c.heap.pendingCells →
    c'.heap.pendingEffects = c.heap.pendingEffects →
    c'.stack = .batch :: .andThen r k :: c.stack → BoundaryStep c c'
  /-- An inner scope is left. -/
  | close (st : List (Frame V)) : c.stack = .batch :: st → c.heap.depth ≠ 1 → c'.heap.depth = c.heap.depth - 1 →
    c'.heap.pendingCells = c.heap.pendingCells →
    c'.heap.pendingEffects = c.heap.pendingEffects → c'.stack = st → BoundaryStep c c'
  /-- The outermost scope starts its flush. -/
  | flush (b : Bool) (st : List (Frame V)) : c.stack = .batch :: st → c.heap.depth = 1 → c'.heap.depth = 1 →
    c'.heap.pendingCells = [] → c'.heap.pendingEffects = c.heap.pendingEffects →
    c'.ctl = .loop → c'.stack = .drain :: .flushed b :: st → BoundaryStep c c'
  /-- Phase 2 turns to its next effect. -/
  | next (f : Frame V) (b : Bool) (rest : List Node) (st : List (Frame V)) :
    c.stack = f :: st → ((∃ b, f = .flushed b) ∧ c'.heap.pendingEffects = [] ∨
      (∃ b rest, f = .rerun b rest) ∧ c'.heap.pendingEffects = c.heap.pendingEffects) →
    c'.heap.depth = c.heap.depth → c'.heap.pendingCells = c.heap.pendingCells →
    c'.stack = .rerun b rest :: st → BoundaryStep c c'
  /-- Phase 2 is over. -/
  | leave (f : Frame V) (st : List (Frame V)) :
    c.stack = f :: st → ((∃ b, f = .flushed b) ∧ c'.heap.pendingEffects = [] ∨
      (∃ b rest, f = .rerun b rest) ∧ c'.heap.pendingEffects = c.heap.pendingEffects) →
    c'.heap.depth = c.heap.depth - 1 → c'.heap.pendingCells = c.heap.pendingCells →
    c'.stack = st → BoundaryStep c c'
  /-- An exception leaves a flush. -/
  | unwind (f : Frame V) (st : List (Frame V)) :
    c.ctl = .raised → c.stack = f :: st → ((∃ b, f = .flushed b) ∨ ∃ b rest, f = .rerun b rest) →
    BoundaryStep c c'

section Quiet

/-- The step keeps what `kept` reads off the heap, and no frame that it pushes is `marked`. -/
structure Stays {β : Type} (kept : Heap V → β) (marked : Frame V → Bool) (h : Heap V) (st : List (Frame V))
    (c' : Config V) : Prop where
  heap : kept c'.heap = kept h
  frames : ∃ top, c'.stack = top ++ st ∧ ∀ f ∈ top, marked f = false

section Stays

variable {β : Type} {kept : Heap V → β} {marked : Frame V → Bool} {h h₁ : Heap V} {st : List (Frame V)}
  {c' : Config V} {f : Frame V}

namespace Stays

theorem same (heap : kept c'.heap = kept h) (hstack : c'.stack = st) : Stays kept marked h st c' :=
  ⟨heap, [], hstack, nofun⟩

theorem push (heap : kept c'.heap = kept h) (hstack : c'.stack = f :: st) (hf : marked f = false) :
    Stays kept marked h st c' :=
  ⟨heap, [f], hstack, forall_mem_singleton.mpr hf⟩

/-- The step goes on from a heap that reads the same, with one more frame. -/
theorem of_push (hs : Stays kept marked h₁ (f :: st) c') (heap : kept h₁ = kept h) (hf : marked f = false) :
    Stays kept marked h st c' := by
  obtain ⟨top, hstack, htop⟩ := hs.frames
  refine ⟨hs.heap.trans heap, top ++ [f], ?_, forall_mem_append.mpr ⟨htop, forall_mem_singleton.mpr hf⟩⟩
  rw [hstack, append_assoc]
  rfl

theorem of_heap (hs : Stays kept marked h₁ st c') (heap : kept h₁ = kept h) : Stays kept marked h st c' :=
  ⟨hs.heap.trans heap, hs.frames⟩

end Stays

/-- What a batch has to do with. -/
def Heap.batchState (h : Heap V) : (ℕ → V) × ℕ × List Node × List Node :=
  (h.value, h.depth, h.pendingCells, h.pendingEffects)

/-- The step leaves the sources and the batch state alone, and no frame that it pushes is a scope. -/
abbrev Steady : Heap V → List (Frame V) → Config V → Prop :=
  Stays Heap.batchState Frame.isScope

/-- A steady step that leaves the cleanups alone too. -/
abbrev Inert : Heap V → List (Frame V) → Config V → Prop :=
  Stays (fun h => (h.batchState, h.cleanup)) fun f => f.isScope || f.isDisposing

theorem Inert.steady (hs : Inert h st c') : Steady h st c' := by
  obtain ⟨heap, top, hstack, htop⟩ := hs
  exact ⟨congrArg Prod.fst heap, top, hstack, fun f hf => (Bool.or_eq_false_iff.mp (htop f hf)).1⟩

theorem Steady.sameBoundary (hs : Steady h st c') : SameBoundary h st c' := by
  obtain ⟨heap, top, hstack, htop⟩ := hs
  simp only [Heap.batchState, Prod.mk.injEq] at heap
  obtain ⟨-, hdepth, hcells, heffects⟩ := heap
  refine ⟨hdepth, hcells, heffects, ?_⟩
  rw [hstack, scopes, filter_append, filter_eq_nil_iff.mpr fun f hf => by simp [htop f hf]]
  rfl

end Stays

variable (G : Graph V) (ord : Enum) (h : Heap V) (st : List (Frame V))

theorem inert_callSlot (n : Node) : Inert h st (callSlot G h st n) := by
  unfold callSlot
  split
  · exact .same rfl rfl
  · split
    · exact .same rfl rfl
    · exact .same rfl rfl

theorem inert_touch (n : Node) : Inert h st (touch ord h st n) := by
  unfold touch
  split
  · exact .same rfl rfl
  · unfold drainResets
    split
    · exact .same rfl rfl
    · exact .push rfl rfl rfl

theorem inert_getRef (d : Ref) : Inert h st (getRef G h st d) := by
  cases d with
  | source i =>
    simp only [getRef]
    split
    · exact .same rfl rfl
    · exact .same rfl rfl
  | slot i => exact inert_callSlot G h st _
  | computed i =>
    simp only [getRef, getComputed]
    split
    · split
      · split
        · split
          · exact (inert_callSlot G _ _ _).of_push rfl rfl
          · exact .push rfl rfl rfl
        · exact (inert_callSlot G _ _ _).of_push rfl rfl
      · exact .same rfl rfl
    · exact inert_callSlot G h st _

theorem inert_runBody (e : Node) : Inert h st (runBody G h st e) := by
  cases e with
  | effect i => exact .push rfl rfl rfl
  | puller i k => exact ((inert_callSlot G _ _ _).of_push rfl rfl).of_push rfl rfl
  | _ => exact .same rfl rfl

theorem steady_callEffect (e : Node) : Steady h st (callEffect G h st e) := by
  simp only [callEffect]
  split
  · exact .same rfl rfl
  · split
    · exact .push rfl rfl rfl
    · exact (inert_runBody G _ st e).steady.of_heap rfl

theorem steady_finalCleanup (e : Node) : Steady h st (finalCleanup h st e) := by
  unfold finalCleanup
  split
  · exact .same rfl rfl
  · exact .same rfl rfl

theorem steady_disposeEffect (e : Node) : Steady h st (disposeEffect ord h st e) := by
  simp only [disposeEffect]
  split
  · exact .same rfl rfl
  · split
    · exact (steady_finalCleanup _ st e).of_heap rfl
    · split
      · exact .push rfl rfl rfl
      · exact (steady_finalCleanup _ st e).of_heap rfl

theorem steady_lazyComputed (i : ℕ) : Steady h st (lazyComputed ord h st i) := by
  unfold lazyComputed
  split
  · split
    · exact (steady_disposeEffect ord _ st _).of_heap rfl
    · exact .same rfl rfl
  · exact .same rfl rfl

theorem steady_dispose (d : Ref) : Steady h st (dispose ord h st d) := by
  cases d with
  | source i =>
    simp only [dispose]
    split
    · exact .same rfl rfl
    · exact .same rfl rfl
  | slot i =>
    simp only [dispose]
    split
    · exact .same rfl rfl
    · exact .same rfl rfl
  | computed i => exact steady_lazyComputed ord h st i

theorem inert_stepDirty (ns : List Node) : Inert h st (stepDirty ord h st ns) := by
  unfold stepDirty
  split
  · exact .same rfl rfl
  · next n rest =>
    split
    · exact .same rfl rfl
    · cases n <;> exact .same rfl rfl

theorem inert_subscribe (d : Ref) (r : Node) (t : Ctl V) {f : Frame V} (hf : (f.isScope || f.isDisposing) = false) :
    Inert h st ⟨h.subscribe d r, t, f :: st⟩ := by
  rw [Heap.subscribe_eq]
  exact .push rfl rfl hf

theorem inert_eval (n : Node) (t : Comp V) : Inert h st (stepEval h st n t) := by
  cases t with
  | ret v => exact .same rfl rfl
  | raise => exact .same rfl rfl
  | read d k => exact inert_subscribe h st d n _ rfl

end Quiet

section Cases

variable {G : Graph V} {ord : Enum} {h : Heap V} {st : List (Frame V)}

theorem scopes_andThen (r : Option Node) (k : Code V) : scopes (.andThen r k :: st) = scopes st := by
  simp [Frame.isScope]

variable [DecidableEq V]

theorem boundary_exec (r : Option Node) (code : Code V) :
    BoundaryStep ⟨h, .exec r code, st⟩ (stepExec ord h st r code) := by
  cases code with
  | done => exact .quiet ⟨rfl, rfl, rfl, rfl⟩
  | doneWith c => exact .quiet ⟨rfl, rfl, rfl, rfl⟩
  | raise => exact .quiet ⟨rfl, rfl, rfl, rfl⟩
  | read d k =>
    cases r with
    | none => exact .quiet ⟨rfl, rfl, rfl, by simp [stepExec, Frame.isScope]⟩
    | some e => exact .quiet (inert_subscribe h st d e _ rfl).steady.sameBoundary
  | write i v k =>
    by_cases hd : h.disposed (.source i) = true
    · simp only [stepExec, setSource, hd, if_true]
      exact .quiet ⟨rfl, rfl, rfl, by simp [Frame.isScope]⟩
    · by_cases hv : v = h.value i
      · simp only [stepExec, setSource, hd, hv, if_true]
        exact .quiet ⟨rfl, rfl, rfl, by simp [Frame.isScope]⟩
      · by_cases hdepth : 0 < h.depth
        · simp only [stepExec, setSource, hd, hv, hdepth, if_true, if_false]
          exact .defer r i v k rfl (by simpa using hd) hv hdepth rfl rfl rfl (by simp [Frame.isScope])
        · simp only [stepExec, setSource, hd, hv, hdepth, if_false]
          have hs := (inert_touch ord (h.setValue i v) (.andThen r k :: st) (.source i)).steady.sameBoundary
          exact .quiet ⟨hs.depth, hs.cells, hs.effects, hs.scopes.trans (scopes_andThen r k)⟩
  | batch b k => exact .open r b k rfl rfl rfl rfl rfl
  | call e k => exact .quiet ⟨rfl, rfl, rfl, by simp [stepExec, Frame.isScope]⟩
  | eager i k =>
    simp only [stepExec]
    split
    · exact .quiet ⟨rfl, rfl, rfl, rfl⟩
    · exact .quiet ⟨rfl, rfl, rfl, by simp [Frame.isScope]⟩
  | lazy i k => exact .quiet (Steady.sameBoundary ((steady_lazyComputed ord h _ i).of_push rfl rfl))
  | dispose d k => exact .quiet (Steady.sameBoundary ((steady_dispose ord h _ d).of_push rfl rfl))
  | disposeEffect e k => exact .quiet (Steady.sameBoundary ((steady_disposeEffect ord h _ _).of_push rfl rfl))
  | attempt b k => exact .quiet ⟨rfl, rfl, rfl, by simp [stepExec, Frame.isScope]⟩

theorem boundary_value {v : V} (hs : stepValue G ord h v st = some c') :
    BoundaryStep ⟨h, .value v, st⟩ c' := by
  cases st with
  | nil => cases hs
  | cons f st =>
    cases f with
    | inSlot n d k =>
      cases hs
      exact .quiet ⟨rfl, rfl, rfl, by simp [Frame.isScope]⟩
    | inCode r d k =>
      cases hs
      cases r <;> exact .quiet ⟨rfl, rfl, rfl, by simp [Frame.isScope]⟩
    | pull p i =>
      cases hs
      simp only [pulled]
      split
      · exact .quiet ⟨rfl, rfl, rfl, by simp [Frame.isScope]⟩
      · split
        · have hs := (inert_touch ord ((h.record p (.memo i) v).setHandle i v) st (.computed i)).steady.sameBoundary
          exact .quiet ⟨hs.depth, hs.cells, hs.effects, hs.scopes.trans (by simp [Frame.isScope])⟩
        · exact .quiet ⟨rfl, rfl, rfl, by simp [Frame.isScope]⟩
    | rearmSlot i =>
      cases hs
      exact .quiet ⟨rfl, rfl, rfl, by simp [Frame.isScope]⟩
    | _ => cases hs

theorem boundary_loop (hs : stepLoop ord h st = some c') : BoundaryStep ⟨h, .loop, st⟩ c' := by
  cases st with
  | nil => cases hs
  | cons f st =>
    cases f with
    | drain =>
      simp only [stepLoop] at hs
      split at hs
      · cases hs
        exact .quiet ⟨rfl, rfl, rfl, by simp [Frame.isScope]⟩
      · next n rest hwork =>
        cases hs
        have heffect : n.isEffect = true → BoundaryStep ⟨h, .loop, .drain :: st⟩
            (if h.disposed n || h.running n then ⟨{ h with work := rest }, .loop, .drain :: st⟩
            else if 0 < h.depth then
              ⟨(({ h with work := rest } : Heap V).clearParents n).enqueueEffect n, .loop, .drain :: st⟩
            else if h.started n then
              ⟨({ h with work := rest } : Heap V).clearParents n, .call n, .drain :: st⟩
            else ⟨({ h with work := rest } : Heap V).clearParents n, .loop, .drain :: st⟩) := by
          intro hn
          split
          · exact .quiet ⟨rfl, rfl, rfl, rfl⟩
          · next hlive =>
            simp only [Bool.or_eq_true, not_or, Bool.not_eq_true] at hlive
            split
            · next hdepth =>
              exact .enqueue n rest rfl hwork hn hlive.1 hlive.2 hdepth rfl rfl rfl rfl rfl
            · split <;> exact .quiet ⟨rfl, rfl, rfl, rfl⟩
        cases n with
        | slot i =>
          simp only [invalidate]
          split <;> exact .quiet ⟨rfl, rfl, rfl, rfl⟩
        | memo i =>
          simp only [invalidate]
          split <;> exact .quiet ⟨rfl, rfl, rfl, rfl⟩
        | effect i => exact heffect rfl
        | puller i k => exact heffect rfl
        | source i => exact .quiet ⟨rfl, rfl, rfl, rfl⟩
        | computed i => exact .quiet ⟨rfl, rfl, rfl, rfl⟩
    | _ => cases hs

theorem boundary_endBatch (t : Ctl V) (b : Bool) : BoundaryStep ⟨h, t, .batch :: st⟩ (endBatch ord h st b) := by
  unfold endBatch
  split
  · next hd =>
    have hflush := Heap.touchAll_eq ord (ord none h.pendingCells) ({ h with pendingCells := [] })
    refine .flush b st rfl hd ?_ ?_ ?_ rfl rfl
    · simp only [Heap.flushTouch]
      rw [hflush]
      exact hd
    · simp only [Heap.flushTouch]
      rw [hflush]
    · simp only [Heap.flushTouch]
      rw [hflush]
  · next hd => exact .close st rfl hd rfl rfl rfl rfl

/-- Phase 2 moves on. -/
theorem boundary_nextRerun {h' : Heap V} (t : Ctl V) (f : Frame V) (b : Bool) (es : List Node)
    (hf : (∃ b, f = .flushed b) ∧ h'.pendingEffects = [] ∨
      (∃ b rest, f = .rerun b rest) ∧ h'.pendingEffects = h.pendingEffects)
    (hd : h'.depth = h.depth) (hc : h'.pendingCells = h.pendingCells) :
    BoundaryStep ⟨h, t, f :: st⟩ (nextRerun h' st b es) := by
  cases es with
  | nil => exact .leave f st rfl hf (by simp [nextRerun, hd]) hc rfl
  | cons e rest =>
    simp only [nextRerun]
    split
    · exact .next f b rest st rfl hf hd hc rfl
    · split <;> exact .next f b rest st rfl hf hd hc rfl

theorem boundary_returned {cl : Option (Code V)} (hs : stepReturned G ord h cl st = some c') :
    BoundaryStep ⟨h, .returned cl, st⟩ c' := by
  cases st with
  | nil => cases hs
  | cons f st =>
    cases f with
    | cleanup e =>
      cases hs
      have hs := (inert_runBody G h st e).steady.sameBoundary
      exact .quiet ⟨hs.depth, hs.cells, hs.effects, hs.scopes.trans (by simp [Frame.isScope])⟩
    | disposing e =>
      cases hs
      have hs := (steady_finalCleanup h st e).sameBoundary
      exact .quiet ⟨hs.depth, hs.cells, hs.effects, hs.scopes.trans (by simp [Frame.isScope])⟩
    | batch =>
      cases hs
      exact boundary_endBatch _ false
    | flushed b =>
      cases hs
      exact boundary_nextRerun _ _ b _ (.inl ⟨⟨b, rfl⟩, rfl⟩) rfl rfl
    | rerun b rest =>
      cases hs
      exact boundary_nextRerun _ _ b _ (.inr ⟨⟨b, rest, rfl⟩, rfl⟩) rfl rfl
    | inSlot n d k => cases hs
    | inCode r d k => cases hs
    | pull p i => cases hs
    | rearmSlot i => cases hs
    | _ =>
      cases hs
      exact .quiet ⟨rfl, rfl, rfl, by simp [Frame.isScope]⟩

theorem boundary_raised (hs : stepRaised ord h st = some c') : BoundaryStep ⟨h, .raised, st⟩ c' := by
  cases st with
  | nil => cases hs
  | cons f st =>
    cases f with
    | batch =>
      cases hs
      exact boundary_endBatch _ true
    | flushed b => exact .unwind _ st rfl rfl (.inl ⟨b, rfl⟩)
    | rerun b rest => exact .unwind _ st rfl rfl (.inr ⟨b, rest, rfl⟩)
    | _ =>
      cases hs
      exact .quiet ⟨rfl, rfl, rfl, by simp [Frame.isScope]⟩

/-- What a step does to the batch state. -/
theorem boundary_step {c : Config V} (hs : step G ord c = some c') : BoundaryStep c c' := by
  obtain ⟨h, t, st⟩ := c
  cases t with
  | exec r code =>
    cases hs
    exact boundary_exec r code
  | get d =>
    cases hs
    exact .quiet (inert_getRef G h st d).steady.sameBoundary
  | eval n t =>
    cases hs
    exact .quiet (inert_eval h st n t).steady.sameBoundary
  | value v => exact boundary_value hs
  | call e =>
    cases hs
    exact .quiet (steady_callEffect G h st e).sameBoundary
  | loop => exact boundary_loop hs
  | dirty ns =>
    cases hs
    exact .quiet (inert_stepDirty ord h st ns).steady.sameBoundary
  | returned cl => exact boundary_returned hs
  | raised => exact boundary_raised hs

end Cases

/-- Where the open scopes stand in the life of the outermost one. -/
inductive Phase (c : Config V) : Prop
  /-- Only bodies are running. -/
  | body : (∀ f ∈ scopes c.stack, f = .batch) →
    (scopes c.stack = [] → c.heap.pendingCells = [] ∧ c.heap.pendingEffects = []) → Phase c
  /-- The wave of phase 1 is running. -/
  | first (b : Bool) (st : List (Frame V)) : scopes st = [] → c.heap.pendingCells = [] →
    (c.ctl = .loop ∧ c.stack = .drain :: .flushed b :: st ∨
      (∃ cl, c.ctl = .returned cl) ∧ c.stack = .flushed b :: st) → Phase c
  /-- Phase 2 is running, with scopes opened by the effects it runs. -/
  | second (b : Bool) (rest : List Node) (inner : List (Frame V)) :
    scopes c.stack = inner ++ [.rerun b rest] → (∀ f ∈ inner, f = .batch) →
    c.heap.pendingCells = [] → c.heap.pendingEffects = [] → Phase c

/-- The depth counts the open scopes, and what is pending belongs to one of them. -/
structure Scoped (c : Config V) : Prop where
  depth : c.heap.depth = (scopes c.stack).length
  phase : Phase c

/-- What a step from `c` must not do: raise through `_flush`, or defer a change or a rerun
while phase 2 of a flush is running. -/
structure Contained (c : Config V) : Prop where
  raises : c.ctl = .raised → ∀ b rest st, c.stack ≠ .flushed b :: st ∧ c.stack ≠ .rerun b rest :: st
  defers : ∀ r i v k, c.ctl = .exec r (.write i v k) → c.heap.disposed (.source i) = false →
    v ≠ c.heap.value i → ∀ b rest, .rerun b rest ∉ c.stack
  enqueues : ∀ e rest, c.ctl = .loop → c.heap.work = e :: rest → e.isEffect = true →
    c.heap.disposed e = false → c.heap.running e = false → ∀ b es, .rerun b es ∉ c.stack

section Restore

/-- A frame of the open scopes is on the stack. -/
theorem mem_of_mem_scopes {f : Frame V} {st : List (Frame V)} (hf : f ∈ scopes st) : f ∈ st :=
  mem_of_mem_filter hf

theorem scoped_init (σ : ℕ → V) : Scoped (Config.init σ) :=
  ⟨rfl, .body (by simp [Config.init]) fun _ => ⟨rfl, rfl⟩⟩

variable {c c' : Config V}

/-- The client's next call opens no scope yet. -/
theorem Scoped.issue (hc : Scoped c) (hidle : c.Idle) (code : Code V) : Scoped (c.issue code) := by
  refine ⟨hc.depth, ?_⟩
  cases hc.phase with
  | body hbody hnil => exact .body hbody hnil
  | first b st _ _ hshape => rcases hshape with ⟨_, hst⟩ | ⟨_, hst⟩ <;> simp [hidle.1] at hst
  | second b rest inner hsc => simp [hidle.1] at hsc

/-- Once no scope is open, nothing is deferred. -/
theorem Scoped.outside (hc : Scoped c) (hst : scopes c.stack = []) :
    c.heap.depth = 0 ∧ c.heap.pendingCells = [] ∧ c.heap.pendingEffects = [] := by
  refine ⟨by rw [hc.depth, hst]; rfl, ?_⟩
  cases hc.phase with
  | body _ hnil => exact hnil hst
  | first b st' hst' _ hshape =>
    rcases hshape with ⟨_, heq⟩ | ⟨_, heq⟩ <;> simp [heq, Frame.isScope] at hst
  | second b rest inner hsc => simp [hsc] at hst

variable [DecidableEq V] {G : Graph V} {S : Instr → Prop} {ord : Enum}

/-- Inside a batch, the drain loop only invalidates and enqueues. -/
theorem loop_in_batch {h : Heap V} {st : List (Frame V)} (hd : 0 < h.depth)
    (hs : step G ord ⟨h, .loop, .drain :: st⟩ = some c') :
    c'.heap.depth = h.depth ∧ c'.heap.pendingCells = h.pendingCells ∧
      (c'.ctl = .loop ∧ c'.stack = .drain :: st ∨ c'.ctl = .returned none ∧ c'.stack = st) := by
  simp only [step, stepLoop] at hs
  split at hs
  · cases hs
    exact ⟨rfl, rfl, .inr ⟨rfl, rfl⟩⟩
  · next n rest _ =>
    cases hs
    cases n with
    | source i => exact ⟨rfl, rfl, .inl ⟨rfl, rfl⟩⟩
    | computed i => exact ⟨rfl, rfl, .inl ⟨rfl, rfl⟩⟩
    | slot i =>
      simp only [invalidate]
      split <;> exact ⟨rfl, rfl, .inl ⟨rfl, rfl⟩⟩
    | memo i =>
      simp only [invalidate]
      split <;> exact ⟨rfl, rfl, .inl ⟨rfl, rfl⟩⟩
    | effect i =>
      simp only [invalidate, hd, if_true]
      split <;> exact ⟨rfl, rfl, .inl ⟨rfl, rfl⟩⟩
    | puller i k =>
      simp only [invalidate, hd, if_true]
      split <;> exact ⟨rfl, rfl, .inl ⟨rfl, rfl⟩⟩

theorem scoped_first {b : Bool} {st : List (Frame V)} (hc : Scoped c) (hst : scopes st = [])
    (hcells : c.heap.pendingCells = [])
    (hshape : c.ctl = .loop ∧ c.stack = .drain :: .flushed b :: st ∨
      (∃ cl, c.ctl = .returned cl) ∧ c.stack = .flushed b :: st) (hs : step G ord c = some c') : Scoped c' := by
  obtain ⟨h, t, st'⟩ := c
  rcases hshape with ⟨rfl, rfl⟩ | ⟨⟨cl, rfl⟩, rfl⟩
  · have hone : h.depth = 1 := by simpa [Frame.isScope, hst] using hc.depth
    obtain ⟨hd, hcells', ⟨hctl, hstack⟩ | ⟨hctl, hstack⟩⟩ := loop_in_batch (by simp [hone]) hs
    · refine ⟨?_, .first b st hst (hcells'.trans hcells) (.inl ⟨hctl, hstack⟩)⟩
      rw [hd, hstack]
      exact hc.depth
    · refine ⟨?_, .first b st hst (hcells'.trans hcells) (.inr ⟨⟨none, hctl⟩, hstack⟩)⟩
      rw [hd, hstack, hone]
      simp [Frame.isScope, hst]
  · have hone : h.depth = 1 := by simpa [Frame.isScope, hst] using hc.depth
    cases hs
    cases ord none h.pendingEffects with
    | nil =>
      refine ⟨by simp [nextRerun, hone, hst], .body ?_ fun _ => ⟨hcells, rfl⟩⟩
      simp [nextRerun, hst]
    | cons e rest =>
      simp only [nextRerun]
      have hscopes : scopes (.rerun b rest :: st) = [] ++ [.rerun b rest] := by
        simp [Frame.isScope, hst]
      split
      · exact ⟨by simp [hone, hscopes], .second b rest [] hscopes (by simp) hcells rfl⟩
      · split <;>
          exact ⟨by simp [hone, hscopes], .second b rest [] hscopes (by simp) hcells rfl⟩

theorem scoped_body (hc : Scoped c) (hbody : ∀ f ∈ scopes c.stack, f = .batch)
    (hnil : scopes c.stack = [] → c.heap.pendingCells = [] ∧ c.heap.pendingEffects = []) (hs : BoundaryStep c c') :
    Scoped c' := by
  have hdepth := hc.depth
  have hno : ∀ f st, c.stack = f :: st → f.isScope = true → f = .batch := by
    intro f st hst hf
    exact hbody f (by simp [hst, hf])
  cases hs with
  | quiet hq =>
    refine ⟨by rw [hq.depth, hq.scopes, hdepth], .body (hq.scopes ▸ hbody) ?_⟩
    rw [hq.cells, hq.effects, hq.scopes]
    exact hnil
  | defer r i v k _ _ _ hpos hd _ _ hsc =>
    refine ⟨by rw [hd, hsc, hdepth], .body (hsc ▸ hbody) fun h' => ?_⟩
    rw [hsc] at h'
    simp [hdepth, h'] at hpos
  | enqueue e rest _ _ _ _ _ hpos hd _ _ _ hst =>
    refine ⟨by rw [hd, hst, hdepth], .body (hst ▸ hbody) fun h' => ?_⟩
    rw [hst] at h'
    simp [hdepth, h'] at hpos
  | «open» r b k _ hd _ _ hst =>
    refine ⟨by simp [hd, hst, Frame.isScope, hdepth], .body ?_ ?_⟩
    · simpa [hst, Frame.isScope] using hbody
    · simp [hst, Frame.isScope]
  | close st hst hone hd _ _ hst' =>
    have hlen : c.heap.depth = (scopes st).length + 1 := by
      simpa [hst, Frame.isScope] using hdepth
    refine ⟨by rw [hd, hst', hlen, Nat.add_sub_cancel], .body ?_ fun h' => ?_⟩
    · intro f hf
      refine hbody f ?_
      simp only [hst, scopes_cons, Frame.isScope, if_true, mem_cons]
      exact .inr (hst' ▸ hf)
    · rw [hst'] at h'
      exact absurd (by simp [hlen, h']) hone
  | flush b st hst hone hd hcells _ hctl hst' =>
    have hempty : scopes st = [] := by
      have hlen : c.heap.depth = (scopes st).length + 1 := by
        simpa [hst, Frame.isScope] using hdepth
      exact length_eq_zero_iff.mp (by omega)
    refine ⟨?_, .first b st hempty hcells (.inl ⟨hctl, hst'⟩)⟩
    simp [hd, hst', Frame.isScope, hempty]
  | next f b rest st hst hf =>
    rcases hf with ⟨⟨b, rfl⟩, _⟩ | ⟨⟨b, rest, rfl⟩, _⟩ <;> cases hno _ st hst rfl
  | leave f st hst hf =>
    rcases hf with ⟨⟨b, rfl⟩, _⟩ | ⟨⟨b, rest, rfl⟩, _⟩ <;> cases hno _ st hst rfl
  | unwind f st _ hst hf =>
    rcases hf with ⟨b, rfl⟩ | ⟨b, rest, rfl⟩ <;> cases hno _ st hst rfl

theorem scoped_second {b : Bool} {rest : List Node} {inner : List (Frame V)} (hc : Scoped c) (hok : Contained c)
    (hsc : scopes c.stack = inner ++ [.rerun b rest]) (hinner : ∀ f ∈ inner, f = .batch)
    (hcells : c.heap.pendingCells = []) (heffects : c.heap.pendingEffects = []) (hs : BoundaryStep c c') :
    Scoped c' := by
  have hdepth : c.heap.depth = inner.length + 1 := by
    have hlen := hc.depth
    rw [hsc] at hlen
    simpa using hlen
  have hmem : .rerun b rest ∈ c.stack := mem_of_mem_scopes (by simp [hsc])
  -- the innermost scope is a nested body, or phase 2 itself
  have htop : ∀ f st, c.stack = f :: st → f.isScope = true → (∃ inner', inner = .batch :: inner' ∧ f = .batch ∧
        scopes st = inner' ++ [.rerun b rest]) ∨
      (inner = [] ∧ f = .rerun b rest ∧ scopes st = []) := by
    intro f st hst hf
    rw [hst] at hsc
    simp only [scopes_cons, hf, if_true] at hsc
    cases inner with
    | nil =>
      simp only [nil_append, cons.injEq] at hsc
      exact .inr ⟨rfl, hsc.1, hsc.2⟩
    | cons g inner' =>
      simp only [cons_append, cons.injEq] at hsc
      have hg : g = .batch := hinner g mem_cons_self
      exact .inl ⟨inner', by rw [hg], hsc.1.trans hg, hsc.2⟩
  cases hs with
  | quiet hq =>
    refine ⟨by rw [hq.depth, hq.scopes, hsc, hdepth]; simp, .second b rest inner ?_ hinner ?_ ?_⟩
    · rw [hq.scopes, hsc]
    · rw [hq.cells, hcells]
    · rw [hq.effects, heffects]
  | defer r i v k hctl hd hv => exact absurd hmem (hok.defers r i v k hctl hd hv b rest)
  | enqueue e es hctl hwork he hd hr =>
    exact absurd hmem (hok.enqueues e es hctl hwork he hd hr b rest)
  | «open» r bd k _ hd hc' he' hst =>
    have hsc' : scopes c'.stack = (.batch :: inner) ++ [.rerun b rest] := by
      simp [hst, Frame.isScope, hsc]
    refine ⟨by simp [hd, hsc', hdepth], .second b rest (.batch :: inner) hsc' ?_ ?_ ?_⟩
    · simpa using hinner
    · rw [hc', hcells]
    · rw [he', heffects]
  | close st hst _ hd hc' he' hst' =>
    obtain ⟨inner', rfl, _, hsc'⟩ | ⟨_, hf, _⟩ := htop _ st hst rfl
    · refine ⟨by rw [hd, hst', hsc', hdepth]; simp, .second b rest inner' (hst' ▸ hsc') ?_ ?_ ?_⟩
      · exact fun f hf => hinner f (mem_cons_of_mem _ hf)
      · rw [hc', hcells]
      · rw [he', heffects]
    · cases hf
  | flush _ st hst hone =>
    obtain ⟨inner', rfl, _, _⟩ | ⟨_, hf, _⟩ := htop _ st hst rfl
    · simp [hdepth] at hone
    · cases hf
  | next f b' rest' st hst hf hd hc' hst' =>
    rcases hf with ⟨⟨_, rfl⟩, _⟩ | ⟨⟨_, _, rfl⟩, he'⟩
    · obtain ⟨_, _, hf, _⟩ | ⟨_, hf, _⟩ := htop _ st hst rfl <;> cases hf
    · obtain ⟨_, _, hf, _⟩ | ⟨rfl, _, hempty⟩ := htop _ st hst rfl
      · cases hf
      · have hsc' : scopes c'.stack = [] ++ [.rerun b' rest'] := by
          simp [hst', Frame.isScope, hempty]
        refine ⟨by simp [hd, hsc', hdepth], .second b' rest' [] hsc' (by simp) ?_ ?_⟩
        · rw [hc', hcells]
        · rw [he', heffects]
  | leave f st hst hf hd hc' hst' =>
    rcases hf with ⟨⟨_, rfl⟩, _⟩ | ⟨⟨_, _, rfl⟩, he'⟩
    · obtain ⟨_, _, hf, _⟩ | ⟨_, hf, _⟩ := htop _ st hst rfl <;> cases hf
    · obtain ⟨_, _, hf, _⟩ | ⟨rfl, _, hempty⟩ := htop _ st hst rfl
      · cases hf
      · refine ⟨by simp [hd, hst', hempty, hdepth], .body (by simp [hst', hempty]) fun _ => ?_⟩
        exact ⟨hc'.trans hcells, he'.trans heffects⟩
  | unwind f st hctl hst hf =>
    rcases hf with ⟨b', rfl⟩ | ⟨b', rest', rfl⟩
    · exact absurd hst (hok.raises hctl b' [] st).1
    · exact absurd hst (hok.raises hctl b' rest' st).2

/-- A contained step keeps the scopes in order. -/
theorem scoped_step (hc : Scoped c) (hok : Contained c) (hs : step G ord c = some c') : Scoped c' := by
  cases hc.phase with
  | body hbody hnil => exact scoped_body hc hbody hnil (boundary_step hs)
  | first b st hst hcells hshape => exact scoped_first hc hst hcells hshape hs
  | second b rest inner hsc hinner hcells heffects =>
    exact scoped_second hc hok hsc hinner hcells heffects (boundary_step hs)

/-- The scopes are in order wherever a run of contained steps leads. -/
theorem scoped_run {ok : Config V → Prop} (hok : ∀ c, ok c → Contained c) (hc : Scoped c) (hrun : Run G S ok c c') :
    Scoped c' := by
  induction hrun with
  | refl => exact hc
  | tail _ hstep ih =>
    cases hstep.2 with
    | tick ord _ hs => exact scoped_step ih (hok _ hstep.1) hs
    | issue code hidle _ => exact ih.issue hidle code

/-- A batch restores its boundary: when the scope opened at `c₁` has been left, by a return
or by an exception, the depth is what it was, and if the scope was the outermost one then
nothing is pending and a later write propagates at once. -/
theorem batch_restores {σ : ℕ → V} {c₁ c₂ : Config V} {r : Option Node} {b k : Code V}
    (hreach : Run G S Contained (Config.init σ) c₁) (hrun : Run G S Contained c₁ c₂)
    (_hopen : c₁.ctl = .exec r (.batch b k)) (hexit : c₂.stack = .andThen r k :: c₁.stack) :
    c₂.heap.depth = c₁.heap.depth ∧ (c₁.heap.depth = 0 → c₂.heap.pendingCells = [] ∧ c₂.heap.pendingEffects = [] ∧
        ∀ ord st i v, c₂.heap.disposed (.source i) = false → v ≠ c₂.heap.value i →
          setSource ord c₂.heap st i v = touch ord (c₂.heap.setValue i v) st (.source i)) := by
  have h₁ := scoped_run (fun _ => id) (scoped_init σ) hreach
  have h₂ := scoped_run (fun _ => id) h₁ hrun
  have hscopes : scopes c₂.stack = scopes c₁.stack := by rw [hexit, scopes_andThen]
  refine ⟨by rw [h₂.depth, h₁.depth, hscopes], fun hzero => ?_⟩
  have hempty : scopes c₂.stack = [] := by
    rw [hscopes]
    exact length_eq_zero_iff.mp (h₁.depth ▸ hzero)
  obtain ⟨hdepth, hcells, heffects⟩ := h₂.outside hempty
  refine ⟨hcells, heffects, fun ord st i v hd hv => ?_⟩
  simp [setSource, hd, hv, hdepth]

end Restore

/-! ## Two sessions -/

def outsidePhase2 (st : List (Frame V)) : Bool :=
  st.all fun f => match f with
    | .rerun _ _ => false
    | _ => true

/-- A check that is enough for `Contained`. -/
def containedCheck (c : Config V) : Bool :=
  match c.ctl with
  | .raised => false
  | .exec _ (.write _ _ _) | .loop => outsidePhase2 c.stack
  | _ => true

theorem rerun_notMem_of_outsidePhase2 {st : List (Frame V)} (h : outsidePhase2 st = true)
    (b : Bool) (rest : List Node) : .rerun b rest ∉ st := by
  intro hmem
  simpa using List.all_eq_true.mp h _ hmem

theorem contained_of_check {c : Config V} (h : containedCheck c = true) : Contained c where
  raises := by
    intro hctl
    simp [containedCheck, hctl] at h
  defers := by
    intro r i v k hctl _ _
    simp only [containedCheck, hctl] at h
    exact rerun_notMem_of_outsidePhase2 h
  enqueues := by
    intro e rest hctl _ _ _ _
    simp only [containedCheck, hctl] at h
    exact rerun_notMem_of_outsidePhase2 h

/-- One effect that reads source 0 and hands it to `body`. -/
def watching (body : ℕ → Code ℕ) : Graph ℕ where
  slotBody := fun _ => .raise
  computedBody := fun _ => .raise
  changed := fun _ => none
  effectBody := fun _ _ => .read (.source 0) body
  unset := 0

/-- The client has run effect 0 and is about to write source 0 in a batch. -/
def beforeBatch (check : Config ℕ → Bool) (body : ℕ → Code ℕ) : Option (Config ℕ) :=
  (session (watching body) .stored check 20 [.call 0 .done] (Config.init fun _ => 0)).bind
    (playCall (watching body) .stored check (fun _ => true) 1 (.batch (.write 0 5 .done) .done))

def batchLeft (c : Config ℕ) : Bool :=
  match c.stack with
  | [.andThen none .done] => true
  | _ => false

/-- The batch of `beforeBatch` has been left. -/
def afterBatch (check : Config ℕ → Bool) (body : ℕ → Code ℕ) : Option (Config ℕ) :=
  (beforeBatch check body).bind (playUntil (watching body) .stored check batchLeft 40)

theorem run_beforeBatch {ok : Config ℕ → Prop} {check : Config ℕ → Bool}
    (hok : ∀ c, check c = true → ok c) {body : ℕ → Code ℕ} {c : Config ℕ}
    (h : beforeBatch check body = some c) :
    Run (watching body) (fun _ => True) ok (Config.init fun _ => 0) c := by
  obtain ⟨c₀, hsession, hcall⟩ := bind_eq_some_iff.mp h
  exact (run_of_session Enum.stored_lawful hok (by simp [Code.Within]) hsession).trans
    (run_of_playCall Enum.stored_lawful hok (by simp [Code.Within]) hcall)

/-- An effect that only reads is rerun by the flush and leaves nothing pending. -/
theorem batch_restores_watching : ∃ c₁ c₂, beforeBatch containedCheck (fun _ => .done) = some c₁ ∧
      afterBatch containedCheck (fun _ => .done) = some c₂ ∧
      c₂.heap.runs (.effect 0) = 2 ∧ c₂.heap.depth = c₁.heap.depth ∧
      c₂.heap.pendingCells = [] ∧ c₂.heap.pendingEffects = [] := by
  refine ⟨(beforeBatch containedCheck fun _ => .done).get rfl,
    (afterBatch containedCheck fun _ => .done).get rfl, (some_get _).symm,
    (some_get _).symm, rfl, ?_⟩
  have hplay : playUntil (watching fun _ => .done) .stored containedCheck batchLeft 40
      ((beforeBatch containedCheck fun _ => .done).get rfl) =
      some ((afterBatch containedCheck fun _ => .done).get rfl) := rfl
  have h := batch_restores
    (run_beforeBatch (fun _ => contained_of_check) (some_get _).symm)
    (run_of_playUntil Enum.stored_lawful (fun _ => contained_of_check) hplay) rfl rfl
  exact ⟨h.1, (h.2 rfl).1, (h.2 rfl).2.1⟩

/-- An effect that writes source 1 does so in phase 2, where the change is deferred to a flush
that is already over. -/
theorem batch_leaves_pending : ¬ ∀ (G : Graph ℕ) (σ : ℕ → ℕ) (c₁ c₂ : Config ℕ) (r : Option Node) (b k : Code ℕ),
    Run G (fun _ => True) (fun _ => True) (Config.init σ) c₁ →
    Run G (fun _ => True) (fun _ => True) c₁ c₂ → c₁.ctl = .exec r (.batch b k) →
    c₂.stack = .andThen r k :: c₁.stack →
    c₂.heap.depth = c₁.heap.depth ∧
      (c₁.heap.depth = 0 → c₂.heap.pendingCells = [] ∧ c₂.heap.pendingEffects = []) := by
  intro h
  have hplay : playUntil (watching fun v => .write 1 v .done) .stored (fun _ => true) batchLeft 40
      ((beforeBatch (fun _ => true) fun v => .write 1 v .done).get rfl) =
      some ((afterBatch (fun _ => true) fun v => .write 1 v .done).get rfl) := rfl
  have hleft := h _ _ _ _ none (.write 0 5 .done) .done
    (run_beforeBatch (fun _ _ => trivial) (some_get _).symm)
    (run_of_playUntil Enum.stored_lawful (fun _ _ => trivial) hplay) rfl rfl
  exact absurd (hleft.2 rfl).1 (by decide)

end LazilyPy.Reactive

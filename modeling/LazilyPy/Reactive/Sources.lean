import LazilyPy.Reactive.Boundary

/-!
# What the sources hold after a batch

A source gets a value from a write and from nothing else, and a step takes at most one frame off
the stack. So what a batch of writes leaves in the sources is still there when its flush is over,
as long as phase 2 changes no source.
-/

namespace LazilyPy.Reactive

open List Option Function

variable {V : Type}

/-- The step leaves the sources alone, and its frames go on top of the stack. -/
structure Flows (h : Heap V) (st : List (Frame V)) (c' : Config V) : Prop where
  value : c'.heap.value = h.value
  stack : st <:+ c'.stack

namespace Flows

variable {h h₁ : Heap V} {st : List (Frame V)} {c' : Config V}

theorem same (hvalue : c'.heap.value = h.value) (hstack : c'.stack = st) : Flows h st c' :=
  ⟨hvalue, hstack ▸ suffix_refl _⟩

theorem push {f : Frame V} (hvalue : c'.heap.value = h.value) (hstack : c'.stack = f :: st) : Flows h st c' :=
  ⟨hvalue, hstack ▸ suffix_cons f st⟩

/-- The step goes on from a heap with the same sources, with one more frame. -/
theorem of_push {f : Frame V} (hf : Flows h₁ (f :: st) c') (hvalue : h₁.value = h.value) : Flows h st c' :=
  ⟨hf.value.trans hvalue, (suffix_cons f st).trans hf.stack⟩

theorem of_value (hf : Flows h₁ st c') (hvalue : h₁.value = h.value) : Flows h st c' :=
  ⟨hf.value.trans hvalue, hf.stack⟩

end Flows

theorem Steady.flows {h : Heap V} {st : List (Frame V)} {c' : Config V} (hs : Steady h st c') : Flows h st c' := by
  obtain ⟨top, hstack, -⟩ := hs.frames
  exact ⟨congrArg Prod.fst hs.heap, top, hstack.symm⟩

/-- The step leaves the sources and the cleanups alone, and starts no disposal that waits. -/
abbrev Drifts : Heap V → List (Frame V) → Config V → Prop :=
  Stays (fun h => (h.value, h.cleanup)) Frame.isDisposing

theorem Drifts.flows {h : Heap V} {st : List (Frame V)} {c' : Config V} (hd : Drifts h st c') : Flows h st c' := by
  obtain ⟨top, hstack, -⟩ := hd.frames
  exact ⟨congrArg Prod.fst hd.heap, top, hstack.symm⟩

section Cases

variable (G : Graph V) (ord : Enum) (h : Heap V) (st : List (Frame V))

theorem drifts_endBatch (b : Bool) : Drifts h st (endBatch ord h st b) := by
  unfold endBatch
  split
  · have heq := Heap.touchAll_eq ord (ord none h.pendingCells) { h with pendingCells := [] }
    have hheap := congrArg (fun h => (h.value, h.cleanup)) heq
    exact ⟨hheap, [.drain, .flushed b], rfl, by simp [Frame.isDisposing]⟩
  · exact .same rfl rfl

theorem drifts_nextRerun (b : Bool) (es : List Node) : Drifts h st (nextRerun h st b es) := by
  unfold nextRerun
  split
  · exact .same rfl rfl
  · split
    · exact .push rfl rfl rfl
    · split
      · exact .push rfl rfl rfl
      · exact .push rfl rfl rfl

theorem drifts_invalidate (n : Node) : Drifts h st (invalidate ord h st n) := by
  cases n with
  | slot i | memo i =>
    simp only [invalidate]
    split
    · exact .same rfl rfl
    · exact .same rfl rfl
  | effect i | puller i k =>
    simp only [invalidate]
    split
    · exact .same rfl rfl
    · split
      · exact .same rfl rfl
      · split
        · exact .same rfl rfl
        · exact .same rfl rfl
  | source i | computed i => exact .same rfl rfl

variable [DecidableEq V]

/-- The statement from `c` changes a live source. -/
def Config.Changes (c : Config V) : Prop :=
  ∃ r i v k, c.ctl = .exec r (.write i v k) ∧ c.heap.disposed (.source i) = false ∧ v ≠ c.heap.value i

theorem flows_exec (r : Option Node) (code : Code V) (hquiet : ¬ (⟨h, .exec r code, st⟩ : Config V).Changes) :
    Flows h st (stepExec ord h st r code) := by
  cases code with
  | done => exact .same rfl rfl
  | doneWith c => exact .same rfl rfl
  | raise => exact .same rfl rfl
  | read d k =>
    cases r with
    | none => exact .push rfl rfl
    | some e =>
      have hvalue := congrArg Heap.value (Heap.subscribe_eq d e h)
      exact .push hvalue rfl
  | write i v k =>
    by_cases hd : h.disposed (.source i) = true
    · simp only [stepExec, setSource, hd, if_true]
      exact .push rfl rfl
    · by_cases hv : v = h.value i
      · simp only [stepExec, setSource, hd, hv, if_true]
        exact .push (update_eq_self i h.value) rfl
      · exact absurd ⟨r, i, v, k, rfl, by simpa using hd, hv⟩ hquiet
  | batch b k => exact ⟨rfl, (suffix_cons _ _).trans (suffix_cons _ _)⟩
  | call e k => exact .push rfl rfl
  | eager i k =>
    simp only [stepExec]
    split
    · exact .same rfl rfl
    · exact .push rfl rfl
  | lazy i k => exact (steady_lazyComputed ord h _ i).flows.of_push rfl
  | dispose d k => exact (steady_dispose ord h _ d).flows.of_push rfl
  | disposeEffect e k => exact (steady_disposeEffect ord h _ _).flows.of_push rfl
  | attempt b k => exact .push rfl rfl

end Cases

section Steps

variable [DecidableEq V] {G : Graph V} {ord : Enum}

variable {c : Config V} {ok : Config V → Prop}

/-- A step that changes no source either leaves the stack as it is, with frames pushed on top, or
takes the top frame off first, which is no open scope unless a call has returned. -/
theorem flows_step {c' : Config V} (hquiet : ¬ c.Changes) (hs : step G ord c = some c') :
    Flows c.heap c.stack c' ∨ ∃ f st, c.stack = f :: st ∧ Flows c.heap st c' ∧
      (f.isScope = false ∨ c.ctl = .raised ∨ ∃ cl, c.ctl = .returned cl) := by
  obtain ⟨h, t, st⟩ := c
  cases t with
  | exec r code =>
    cases hs
    exact .inl (flows_exec ord h st r code hquiet)
  | get d =>
    cases hs
    exact .inl (inert_getRef G h st d).steady.flows
  | eval n t =>
    cases hs
    exact .inl (inert_eval h st n t).steady.flows
  | call e =>
    cases hs
    exact .inl (steady_callEffect G h st e).flows
  | dirty ns =>
    cases hs
    exact .inl (inert_stepDirty ord h st ns).steady.flows
  | value v =>
    cases st with
    | nil => cases hs
    | cons f st =>
      cases f with
      | inSlot n d k =>
        cases hs
        exact .inr ⟨_, st, rfl, .same rfl rfl, .inl rfl⟩
      | inCode r d k =>
        cases hs
        exact .inr ⟨_, st, rfl, .same (by cases r <;> rfl) rfl, .inl rfl⟩
      | pull p i =>
        cases hs
        refine .inr ⟨_, st, rfl, ?_, .inl rfl⟩
        simp only [pulled]
        split
        · exact .same rfl rfl
        · split
          · exact (inert_touch ord _ st _).steady.flows.of_value rfl
          · exact .same rfl rfl
      | rearmSlot i =>
        cases hs
        exact .inr ⟨_, st, rfl, .same rfl rfl, .inl rfl⟩
      | _ => cases hs
  | loop =>
    cases st with
    | nil => cases hs
    | cons f st =>
      cases f with
      | drain =>
        simp only [step, stepLoop] at hs
        split at hs
        · cases hs
          exact .inr ⟨_, st, rfl, .same rfl rfl, .inl rfl⟩
        · cases hs
          exact .inl ((drifts_invalidate ord _ _ _).flows.of_value rfl)
      | _ => cases hs
  | returned cl =>
    cases st with
    | nil => cases hs
    | cons f st =>
      refine .inr ⟨f, st, rfl, ?_, .inr (.inr ⟨cl, rfl⟩)⟩
      cases f with
      | cleanup e =>
        cases hs
        exact (inert_runBody G h st e).steady.flows
      | disposing e =>
        cases hs
        exact (steady_finalCleanup h st e).flows
      | batch =>
        cases hs
        exact (drifts_endBatch ord h st false).flows
      | flushed b =>
        cases hs
        exact (drifts_nextRerun _ st b _).flows.of_value rfl
      | rerun b rest =>
        cases hs
        exact (drifts_nextRerun h st b rest).flows
      | drain =>
        cases hs
        exact .push rfl rfl
      | inSlot n d k => cases hs
      | inCode r d k => cases hs
      | pull p i => cases hs
      | rearmSlot i => cases hs
      | _ =>
        cases hs
        exact .same rfl rfl
  | raised =>
    cases st with
    | nil => cases hs
    | cons f st =>
      refine .inr ⟨f, st, rfl, ?_, .inr (.inl rfl)⟩
      cases f with
      | batch =>
        cases hs
        exact (drifts_endBatch ord h st true).flows
      | _ =>
        cases hs
        exact .same rfl rfl

theorem suffix_exec (h : Heap V) (st : List (Frame V)) (r : Option Node) (code : Code V) :
    st <:+ (stepExec ord h st r code).stack := by
  by_cases hquiet : (⟨h, .exec r code, st⟩ : Config V).Changes
  · obtain ⟨r', i, v, k, hctl, -⟩ := hquiet
    cases hctl
    simp only [stepExec, setSource]
    split
    · exact suffix_cons _ _
    · split
      · exact suffix_cons _ _
      · split
        · exact suffix_cons _ _
        · exact (suffix_cons _ _).trans (inert_touch ord _ _ _).steady.flows.stack
  · exact (flows_exec ord h st r code hquiet).stack

/-- A step takes at most one frame off the stack. -/
theorem suffix_step {c' : Config V} (hs : step G ord c = some c') :
    c.stack <:+ c'.stack ∨ ∃ f st, c.stack = f :: st ∧ st <:+ c'.stack := by
  by_cases hquiet : c.Changes
  · obtain ⟨h, t, st⟩ := c
    obtain ⟨r, i, v, k, hctl, -⟩ := hquiet
    cases hctl
    cases hs
    exact .inl (suffix_exec h st r _)
  · obtain hf | ⟨f, st, hstack, hf, -⟩ := flows_step hquiet hs
    · exact .inl hf.stack
    · exact .inr ⟨f, st, hstack, hf.stack⟩

/-- Statements of the runtime, each of which starts in a configuration that satisfies `ok`. -/
def Ticks (G : Graph V) (ok : Config V → Prop) : Config V → Config V → Prop :=
  Relation.ReflTransGen fun c c' => ok c ∧ ∃ ord, Enum.Lawful ord ∧ step G ord c = some c'

theorem Ticks.run {S : Instr → Prop} {c' : Config V} (h : Ticks G ok c c') : Run G S ok c c' :=
  Relation.ReflTransGen.mono (fun _ _ hs => ⟨hs.1, hs.2.elim fun ord hs => .tick ord hs.1 hs.2⟩) _ _ h

/-- A run that ends in an idle configuration goes on as long as there is a step. -/
theorem Ticks.head_step {c₁ : Config V} (h : Ticks G ok c c₁) (hc : ¬ c.Idle) (hidle : c₁.Idle) :
    ok c ∧ ∃ ord c', ord.Lawful ∧ step G ord c = some c' ∧ Ticks G ok c' c₁ := by
  rcases h.cases_head with rfl | ⟨c', ⟨hok, ord, hord, hs⟩, hrest⟩
  · exact absurd hidle hc
  · exact ⟨hok, ord, c', hord, hs, hrest⟩

theorem ticks_of_playUntil {check stop : Config V → Bool} (hord : ord.Lawful) (hok : ∀ c, check c = true → ok c)
    {n : ℕ} {c' : Config V} (h : playUntil G ord check stop n c = some c') : Ticks G ok c c' := by
  induction n generalizing c with
  | zero => cases h
  | succ n ih =>
    unfold playUntil at h
    split at h
    · cases h
      exact .refl
    · split at h
      · next hc =>
        obtain ⟨c₁, hs, hrest⟩ := bind_eq_some_iff.mp h
        exact .head ⟨hok c hc, ord, hord, hs⟩ (ih hrest)
      · cases h

end Steps

/-! ## A batch of writes -/

def writing : List (ℕ × V) → Code V
  | [] => .done
  | (i, v) :: writes => .write i v (writing writes)

def written (σ : ℕ → V) (writes : List (ℕ × V)) : ℕ → V :=
  writes.foldl (fun σ w => update σ w.1 w.2) σ

def belowBatch : List (Frame V) :=
  [.andThen none .done]

inductive Flushing (c : Config V) : Prop
  | first : 0 < c.heap.depth → c.ctl = .loop → c.stack = .drain :: .flushed false :: belowBatch → Flushing c
  | between (cl : Option (Code V)) : c.ctl = .returned cl → c.stack = .flushed false :: belowBatch → Flushing c
  | second (top : List (Frame V)) (rest : List Node) : c.stack = top ++ .rerun false rest :: belowBatch → Flushing c
  | left (cl : Option (Code V)) : c.ctl = .returned cl → c.stack = belowBatch → Flushing c
  | last : c.ctl = .exec none .done → c.stack = [] → Flushing c
  | ended (cl : Option (Code V)) : c.ctl = .returned cl → c.stack = [] → Flushing c

section Batch

theorem Flushing.nextRerun (h : Heap V) (es : List Node) : Flushing (nextRerun h belowBatch false es) := by
  cases es with
  | nil => exact .left none rfl rfl
  | cons e rest =>
    simp only [Reactive.nextRerun]
    split
    · exact .second [] rest rfl
    · split
      · exact .second [] rest rfl
      · exact .second [] rest rfl

variable {c : Config V} {ok : Config V → Prop}

/-- A contained step of a flush changes no source. -/
theorem Flushing.quiet (hf : Flushing c) (hok : Contained c) : ¬ c.Changes := by
  rintro ⟨r, i, v, k, hctl, hlive, hne⟩
  cases hf with
  | second top rest hst =>
    refine hok.defers r i v k hctl hlive hne false rest ?_
    simp [hst]
  | first _ hctl' => simp [hctl] at hctl'
  | between _ hctl' => simp [hctl] at hctl'
  | left _ hctl' => simp [hctl] at hctl'
  | last hctl' => simp [hctl] at hctl'
  | ended _ hctl' => simp [hctl] at hctl'

variable [DecidableEq V] {G : Graph V} {ord : Enum}

theorem Flushing.step {c' : Config V} (hf : Flushing c) (hok : Contained c) (hquiet : c.ctl ≠ .raised)
    (hs : step G ord c = some c') :
    Flushing c' ∧ c'.heap.value = c.heap.value := by
  have hflows := flows_step (hf.quiet hok) hs
  have hvalue : c'.heap.value = c.heap.value := by
    obtain hflows | ⟨f, st, _, hflows, _⟩ := hflows
    · exact hflows.value
    · exact hflows.value
  refine ⟨?_, hvalue⟩
  obtain ⟨h, t, st⟩ := c
  cases hf with
  | first hdepth hctl hst =>
    obtain rfl : t = .loop := hctl
    obtain rfl : st = _ := hst
    obtain ⟨hd, _, ⟨hctl', hst'⟩ | ⟨hctl', hst'⟩⟩ := loop_in_batch hdepth hs
    · exact .first (hd.symm ▸ hdepth) hctl' hst'
    · exact .between none hctl' hst'
  | between cl hctl hst =>
    obtain rfl : t = .returned cl := hctl
    obtain rfl : st = _ := hst
    cases hs
    exact .nextRerun _ _
  | second top rest hst =>
    obtain rfl : st = _ := hst
    obtain hflows | ⟨f, st, hst, hflows, hpop⟩ := hflows
    · obtain ⟨l, hl⟩ := hflows.stack
      exact .second (l ++ top) rest (by rw [← hl, append_assoc])
    · cases top with
      | cons g top =>
        obtain ⟨rfl, rfl⟩ := cons.inj hst
        obtain ⟨l, hl⟩ := hflows.stack
        exact .second (l ++ top) rest (hl.symm.trans (append_assoc _ _ _).symm)
      | nil =>
        obtain ⟨rfl, rfl⟩ := cons.inj hst
        obtain hscope | hraised | ⟨cl, rfl⟩ := hpop
        · cases hscope
        · exact absurd hraised hquiet
        · cases hs
          exact .nextRerun _ _
  | left cl hctl hst =>
    obtain rfl : t = .returned cl := hctl
    obtain rfl : st = _ := hst
    cases hs
    exact .last rfl rfl
  | last hctl hst =>
    obtain rfl : t = .exec none .done := hctl
    obtain rfl : st = _ := hst
    cases hs
    exact .ended none rfl rfl
  | ended cl hctl hst =>
    obtain rfl : t = .returned cl := hctl
    obtain rfl : st = _ := hst
    cases hs

section

variable (hok : ∀ c, ok c → Contained c ∧ c.ctl ≠ .raised)

include hok

theorem Flushing.run {c' : Config V} (hf : Flushing c) (hrun : Ticks G ok c c') :
    c'.heap.value = c.heap.value := by
  have hboth : Flushing c' ∧ c'.heap.value = c.heap.value := by
    induction hrun with
    | refl => exact ⟨hf, rfl⟩
    | tail _ hstep ih =>
      obtain ⟨hokc, ord, _, hs⟩ := hstep
      obtain ⟨hf', hvalue⟩ := ih.1.step (hok _ hokc).1 (hok _ hokc).2 hs
      exact ⟨hf', hvalue.trans ih.2⟩
  exact hboth.2

/-- The writes of the batch, and then its flush. -/
theorem value_of_writing {c₁ : Config V} (hidle : c₁.Idle) (writes : List (ℕ × V)) {h : Heap V}
    (hdepth : h.depth = 1) (hlive : ∀ i, h.disposed (.source i) = false)
    (hrun : Ticks G ok ⟨h, .exec none (writing writes), .batch :: belowBatch⟩ c₁) :
    c₁.heap.value = written h.value writes := by
  have hbusy : ∀ (h : Heap V) t f, ¬ (⟨h, t, f :: belowBatch⟩ : Config V).Idle := fun _ _ _ hc => by cases hc.1
  induction writes generalizing h with
  | nil =>
    obtain ⟨_, ord, c, _, hs, hrun⟩ := hrun.head_step (hbusy _ _ _) hidle
    obtain rfl : (⟨h, .returned none, .batch :: belowBatch⟩ : Config V) = c := some.inj hs
    obtain ⟨_, ord', c', hord', hs', hrun'⟩ := hrun.head_step (hbusy _ _ _) hidle
    have hvalue : c'.heap.value = h.value := by
      cases hs'
      exact (drifts_endBatch ord' h _ false).flows.value
    have hflush : Flushing c' := by
      cases hs'
      simp only [endBatch, hdepth, if_true]
      refine .first ?_ rfl rfl
      have hd := congrArg Heap.depth
        (Heap.touchAll_eq ord' (ord' none h.pendingCells) { h with pendingCells := [] })
      have hd' : (h.flushTouch ord').depth = h.depth := hd
      dsimp only
      omega
    rw [hflush.run hok hrun', hvalue]
    rfl
  | cons w writes ih =>
    obtain ⟨i, v⟩ := w
    obtain ⟨_, ord, c, _, hs, hrun⟩ := hrun.head_step (hbusy _ _ _) hidle
    have hset : ∃ h', c = ⟨h', .returned none, .andThen none (writing writes) :: .batch :: belowBatch⟩ ∧
        h'.value = update h.value i v ∧ h'.depth = 1 ∧ h'.disposed = h.disposed := by
      have hone : 0 < h.depth := by omega
      have hc := some.inj hs
      simp only [writing, stepExec, setSource, hlive i, Bool.false_eq_true, if_false, hone, if_true] at hc
      split at hc
      · exact ⟨_, hc.symm, rfl, hdepth, rfl⟩
      · exact ⟨_, hc.symm, rfl, hdepth, rfl⟩
    obtain ⟨h', rfl, hvalue, hdepth', hdisposed⟩ := hset
    obtain ⟨_, ord', c', _, hs', hrun'⟩ := hrun.head_step (fun hc => by cases hc.1) hidle
    cases hs'
    rw [ih hdepth' (hdisposed ▸ hlive) hrun', hvalue]
    rfl

/-- After the outermost batch the sources hold what its writes left in them. -/
theorem value_of_batch {c₀ c₁ : Config V} (hidle₀ : c₀.Idle) (hdepth : c₀.heap.depth = 0)
    (hlive : ∀ i, c₀.heap.disposed (.source i) = false) (hidle : c₁.Idle) {writes : List (ℕ × V)}
    (hrun : Ticks G ok (c₀.issue (.batch (writing writes) .done)) c₁) :
    c₁.heap.value = written c₀.heap.value writes := by
  have hbusy : ¬ (c₀.issue (.batch (writing writes) .done)).Idle := by
    rintro ⟨_, hctl | ⟨cl, hctl⟩⟩
    · cases hctl
    · cases hctl
  obtain ⟨_, ord, c, _, hs, hrest⟩ := hrun.head_step hbusy hidle
  obtain rfl := some.inj hs
  simp only [Config.issue, hidle₀.1] at hrest
  exact value_of_writing (h := { c₀.heap with depth := c₀.heap.depth + 1 }) hok hidle writes
    (congrArg (· + 1) hdepth) hlive hrest

end

end Batch

end LazilyPy.Reactive

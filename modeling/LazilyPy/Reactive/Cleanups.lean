import LazilyPy.Reactive.Moves
import LazilyPy.Reactive.Sources

/-!
# Cleanups

What becomes of the cleanups that the bodies of effects hand back. An effect starts its cleanup before the next run
of its body, and when it is disposed of.
-/

namespace LazilyPy.Reactive

open List Function

variable {V : Type}

/-! ## The disposal that waits for its walk -/

structure Still (h : Heap V) (st : List (Frame V)) (c' : Config V) : Prop where
  cleanup : c'.heap.cleanup = h.cleanup
  frames : ∀ e, .disposing e ∈ c'.stack → .disposing e ∈ st

namespace Still

variable {h h₁ : Heap V} {st : List (Frame V)} {c' : Config V}

theorem same (hcleanup : c'.heap.cleanup = h.cleanup) (hstack : c'.stack = st) : Still h st c' :=
  ⟨hcleanup, fun _ he => hstack ▸ he⟩

theorem push {f : Frame V} (hcleanup : c'.heap.cleanup = h.cleanup) (hstack : c'.stack = f :: st)
    (hf : f.isDisposing = false) : Still h st c' := by
  refine ⟨hcleanup, fun e he => ?_⟩
  rw [hstack] at he
  obtain rfl | he := mem_cons.mp he
  · cases hf
  · exact he

/-- The step goes on with one more frame. -/
theorem of_push {f : Frame V} (hs : Still h₁ (f :: st) c') (hcleanup : h₁.cleanup = h.cleanup)
    (hf : f.isDisposing = false) : Still h st c' := by
  refine ⟨hs.cleanup.trans hcleanup, fun e he => ?_⟩
  obtain rfl | he := mem_cons.mp (hs.frames e he)
  · cases hf
  · exact he

theorem of_cleanup (hs : Still h₁ st c') (hcleanup : h₁.cleanup = h.cleanup) : Still h st c' :=
  ⟨hs.cleanup.trans hcleanup, hs.frames⟩

end Still

theorem Drifts.still {h : Heap V} {st : List (Frame V)} {c' : Config V} (hd : Drifts h st c') : Still h st c' := by
  obtain ⟨heap, top, hstack, htop⟩ := hd
  refine ⟨congrArg Prod.snd heap, fun e he => ?_⟩
  obtain hmem | hmem := mem_append.mp (hstack ▸ he)
  · cases htop _ hmem
  · exact hmem

theorem Inert.still {h : Heap V} {st : List (Frame V)} {c' : Config V} (hs : Inert h st c') : Still h st c' := by
  obtain ⟨heap, top, hstack, htop⟩ := hs
  have hkept := congrArg (fun p : ((ℕ → V) × ℕ × List Node × List Node) × (Node → Option (Code V)) => (p.1.1, p.2)) heap
  exact Drifts.still ⟨hkept, top, hstack, fun f hf => (Bool.or_eq_false_iff.mp (htop f hf)).2⟩

section Cases

variable (G : Graph V) (ord : Enum) (h : Heap V) (st : List (Frame V))

/-- What the last part of a disposal does: it starts the cleanup that waits, or returns. -/
structure Finished (e : Node) (c' : Config V) : Prop where
  stack : c'.stack = st
  cleanup : c'.heap.cleanup = update h.cleanup e none
  started : (h.cleanup e).isSome → ∃ k, c'.ctl = .exec none k

theorem finished_finalCleanup (e : Node) : Finished h st e (finalCleanup h st e) := by
  unfold finalCleanup
  split
  · next k hk => exact ⟨rfl, rfl, fun _ => ⟨k, rfl⟩⟩
  · next hnone =>
    refine ⟨rfl, (update_eq_self_iff.mpr hnone.symm).symm, fun hsome => ?_⟩
    rw [hnone] at hsome
    cases hsome

/-- What a disposal does: nothing if it has been done before, or it waits for its walk, or it is finished. -/
inductive Disposing (e : Node) (c' : Config V) : Prop
  | done (hdead : h.disposed e = true) (hsame : c' = ⟨h, .returned none, st⟩) : Disposing e c'
  | walks (hlive : h.disposed e = false) (hcleanup : c'.heap.cleanup = h.cleanup)
    (hstack : c'.stack = .disposing e :: st) (hctl : ∃ ns, c'.ctl = .dirty ns) : Disposing e c'
  | finished (hlive : h.disposed e = false) (hfinished : Finished h st e c') : Disposing e c'

theorem disposing_disposeEffect (e : Node) : Disposing h st e (disposeEffect ord h st e) := by
  have hfinished : Finished h st e (finalCleanup ((h.retire e).clearParents e) st e) := by
    obtain ⟨hstack, hcleanup, hstarted⟩ := finished_finalCleanup ((h.retire e).clearParents e) st e
    exact ⟨hstack, hcleanup, hstarted⟩
  simp only [disposeEffect]
  split
  · next hdead => exact .done hdead rfl
  · next hlive =>
    have hlive : h.disposed e = false := by simpa using hlive
    split
    · exact .finished hlive hfinished
    · split
      · exact .walks hlive rfl rfl ⟨_, rfl⟩
      · exact .finished hlive hfinished

end Cases

/-! ## What a step does to the cleanups -/

/-- What a step does to the cleanups: nothing, or it starts one, keeps one that is handed back, or disposes of an
effect. -/
inductive Cleans (c c' : Config V) : Prop
  | still (hs : Still c.heap c.stack c') : Cleans c c'
  | called (e : Node) (k : Code V) (hlive : c.heap.disposed e = false) (hcleanup : c.heap.cleanup e = some k)
      (hcleanup' : c'.heap.cleanup = update c.heap.cleanup e none) (hctl : c'.ctl = .exec none k)
      (hstack : c'.stack = .cleanup e :: c.stack) : Cleans c c'
  | returned (e : Node) (cl : Option (Code V)) (st : List (Frame V)) (hctl : c.ctl = .returned cl)
      (hstack : c.stack = .effect e :: st)
      (hcleanup : c'.heap.cleanup = update c.heap.cleanup e (if e.isPuller then none else cl))
      (hctl' : c'.ctl = .returned none) (hstack' : c'.stack = st) : Cleans c c'
  | disposed (e : Node) (h : Heap V) (st : List (Frame V)) (hcleanup : h.cleanup = c.heap.cleanup)
      (hdisposed : h.disposed = c.heap.disposed) (hframes : ∀ e, .disposing e ∈ st → .disposing e ∈ c.stack)
      (hd : Disposing h st e c') : Cleans c c'
  | finished (e : Node) (cl : Option (Code V)) (st : List (Frame V)) (hctl : c.ctl = .returned cl)
      (hstack : c.stack = .disposing e :: st) (hf : Finished c.heap st e c') : Cleans c c'

section Steps

variable {G : Graph V} {ord : Enum} {h : Heap V} {st : List (Frame V)}

theorem cleans_lazyComputed {f : Frame V} (hf : f.isDisposing = false) {t : Ctl V} (i : ℕ) :
    Cleans ⟨h, t, st⟩ (lazyComputed ord h (f :: st) i) := by
  unfold lazyComputed
  split
  · split
    · next k _ =>
      refine .disposed (.puller i k) (h.dropPuller i) (f :: st) rfl rfl (fun e he => ?_)
        (disposing_disposeEffect ord _ _ _)
      obtain rfl | he := mem_cons.mp he
      · cases hf
      · exact he
    · exact .still (.push rfl rfl hf)
  · exact .still (.push rfl rfl hf)

theorem cleans_dispose {f : Frame V} (hf : f.isDisposing = false) {t : Ctl V} (d : Ref) :
    Cleans ⟨h, t, st⟩ (dispose ord h (f :: st) d) := by
  cases d with
  | source i | slot i =>
    simp only [dispose]
    split
    · exact .still (.push rfl rfl hf)
    · exact .still (.push rfl rfl hf)
  | computed i => exact cleans_lazyComputed hf i

theorem cleans_exec [DecidableEq V] (r : Option Node) (code : Code V) :
    Cleans ⟨h, .exec r code, st⟩ (stepExec ord h st r code) := by
  cases code with
  | done => exact .still (.same rfl rfl)
  | doneWith c => exact .still (.same rfl rfl)
  | raise => exact .still (.same rfl rfl)
  | read d k =>
    cases r with
    | none => exact .still (.push rfl rfl rfl)
    | some e =>
      have hcleanup := congrArg Heap.cleanup (Heap.subscribe_eq d e h)
      exact .still (.push hcleanup rfl rfl)
  | write i v k =>
    simp only [stepExec, setSource]
    split
    · exact .still (.push rfl rfl rfl)
    · split
      · exact .still (.push rfl rfl rfl)
      · split
        · exact .still (.push rfl rfl rfl)
        · exact .still ((inert_touch ord _ _ _).still.of_push rfl rfl)
  | batch b k =>
    refine .still ⟨rfl, fun e he => ?_⟩
    simpa [stepExec] using he
  | call e k => exact .still (.push rfl rfl rfl)
  | eager i k =>
    simp only [stepExec]
    split
    · exact .still (.same rfl rfl)
    · exact .still (.push rfl rfl rfl)
  | lazy i k => exact cleans_lazyComputed rfl i
  | dispose d k => exact cleans_dispose rfl d
  | disposeEffect e k =>
    refine .disposed (.effect e) h (.andThen r k :: st) rfl rfl (fun e he => ?_) (disposing_disposeEffect ord _ _ _)
    simpa using he
  | attempt b k => exact .still (.push rfl rfl rfl)

theorem cleans_call (e : Node) : Cleans ⟨h, .call e, st⟩ (callEffect G h st e) := by
  unfold callEffect
  split
  · exact .still (.same rfl rfl)
  · next hlive =>
    dsimp only
    split
    · next k hk => exact .called e k (by simpa using hlive) hk rfl rfl rfl
    · exact .still ((inert_runBody G _ _ e).still.of_cleanup rfl)

theorem cleans_value {v : V} {c' : Config V} [DecidableEq V] (hs : stepValue G ord h v st = some c') :
    Cleans ⟨h, .value v, st⟩ c' := by
  cases st with
  | nil => cases hs
  | cons f st =>
    have hpop : ∀ c' : Config V, Still h st c' → Cleans ⟨h, .value v, f :: st⟩ c' := fun c' hs =>
      .still ⟨hs.cleanup, fun e he => mem_cons_of_mem f (hs.frames e he)⟩
    cases f with
    | inSlot n d k =>
      cases hs
      exact hpop _ (.same rfl rfl)
    | inCode r d k =>
      cases hs
      refine hpop _ (.same ?_ rfl)
      cases r with
      | none => rfl
      | some e => rfl
    | pull p i =>
      cases hs
      refine hpop _ ?_
      simp only [pulled]
      split
      · exact .same rfl rfl
      · split
        · exact (inert_touch ord _ _ _).still.of_cleanup rfl
        · exact .same rfl rfl
    | rearmSlot i =>
      cases hs
      exact hpop _ (.same rfl rfl)
    | _ => cases hs

theorem cleans_loop {c' : Config V} (hs : stepLoop ord h st = some c') : Cleans ⟨h, .loop, st⟩ c' := by
  cases st with
  | nil => cases hs
  | cons f st =>
    cases f with
    | drain =>
      simp only [stepLoop] at hs
      split at hs
      · cases hs
        exact .still ⟨rfl, fun e he => mem_cons_of_mem _ he⟩
      · cases hs
        exact .still ((drifts_invalidate ord _ _ _).still.of_cleanup rfl)
    | _ => cases hs

theorem cleans_returned {cl : Option (Code V)} {c' : Config V} (hs : stepReturned G ord h cl st = some c') :
    Cleans ⟨h, .returned cl, st⟩ c' := by
  cases st with
  | nil => cases hs
  | cons f st =>
    have hpop : ∀ c' : Config V, Still h st c' → Cleans ⟨h, .returned cl, f :: st⟩ c' := fun c' hs =>
      .still ⟨hs.cleanup, fun e he => mem_cons_of_mem f (hs.frames e he)⟩
    cases f with
    | andThen r c | rearmed i | attempt r k =>
      cases hs
      exact hpop _ (.same rfl rfl)
    | drain =>
      cases hs
      exact .still (.same rfl rfl)
    | effect e =>
      cases hs
      exact .returned e cl st rfl rfl rfl rfl rfl
    | cleanup e =>
      cases hs
      exact hpop _ (inert_runBody G h st e).still
    | disposing e =>
      cases hs
      exact .finished e cl st rfl rfl (finished_finalCleanup h st e)
    | batch =>
      cases hs
      exact hpop _ (drifts_endBatch ord h st false).still
    | flushed b =>
      cases hs
      exact hpop _ ((drifts_nextRerun _ st b _).still.of_cleanup rfl)
    | rerun b rest =>
      cases hs
      exact hpop _ (drifts_nextRerun h st b rest).still
    | _ => cases hs

theorem cleans_raised {c' : Config V} (hs : stepRaised ord h st = some c') : Cleans ⟨h, .raised, st⟩ c' := by
  cases st with
  | nil => cases hs
  | cons f st =>
    have hpop : ∀ c' : Config V, Still h st c' → Cleans ⟨h, .raised, f :: st⟩ c' := fun c' hs =>
      .still ⟨hs.cleanup, fun e he => mem_cons_of_mem f (hs.frames e he)⟩
    cases f with
    | batch =>
      cases hs
      exact hpop _ (drifts_endBatch ord h st true).still
    | _ =>
      cases hs
      exact hpop _ (.same rfl rfl)

theorem cleans_step [DecidableEq V] {c c' : Config V} (hs : step G ord c = some c') : Cleans c c' := by
  obtain ⟨h, t, st⟩ := c
  cases t with
  | exec r code =>
    cases hs
    exact cleans_exec r code
  | get d =>
    cases hs
    exact .still (inert_getRef G h st d).still
  | eval n t =>
    cases hs
    exact .still (inert_eval h st n t).still
  | value v => exact cleans_value hs
  | call e =>
    cases hs
    exact cleans_call e
  | loop => exact cleans_loop hs
  | dirty ns =>
    cases hs
    exact .still (inert_stepDirty ord h st ns).still
  | returned cl => exact cleans_returned hs
  | raised => exact cleans_raised hs

end Steps

/-! ## Counting -/

def Config.Ends (c : Config V) (e : Node) (cl : Option (Code V)) : Prop :=
  c.ctl = .returned cl ∧ ∃ st, c.stack = .effect e :: st

def Config.handsBack (c : Config V) (e : Node) : Bool :=
  match c.ctl, c.stack with
  | .returned (some _), .effect e' :: _ => e' = e
  | _, _ => false

/-- A step to `c'` takes the cleanup of the effect and runs it. -/
def Config.startsCleanup (c c' : Config V) (e : Node) : Bool :=
  (c.heap.cleanup e).isSome && (c'.heap.cleanup e).isNone &&
    match c'.ctl with
    | .exec none _ => true
    | _ => false

/-- A configuration with, for every effect, how often each cleanup that it has handed back has been started. The
latest one comes first, which is the one that `_cleanup` holds. -/
structure Logged (V : Type) where
  config : Config V
  starts : ℕ → List ℕ

namespace Logged

def init (σ : ℕ → V) : Logged V :=
  ⟨Config.init σ, fun _ => []⟩

/-- The log after a step to `c'`. -/
def note (x : Logged V) (c' : Config V) (e : ℕ) : List ℕ :=
  if x.config.handsBack (.effect e) then 0 :: x.starts e
  else if x.config.startsCleanup c' (.effect e) then (x.starts e).modifyHead (· + 1)
  else x.starts e

def Step [DecidableEq V] (G : Graph V) (x y : Logged V) : Prop :=
  Reactive.Step G (fun _ => True) x.config y.config ∧ y.starts = x.note y.config

/-- A run all of whose steps start in a configuration that satisfies `ok`. -/
def Run [DecidableEq V] (G : Graph V) (ok : Config V → Prop) : Logged V → Logged V → Prop :=
  Relation.ReflTransGen fun x y => ok x.config ∧ x.Step G y

end Logged

/-- A disposal that waits for its walk is on top of the stack, below the walk. -/
def WalkOnTop (c : Config V) : Prop :=
  (∀ e, .disposing e ∉ c.stack) ∨ ∃ e st, c.stack = .disposing e :: st ∧ (∀ e', .disposing e' ∉ st) ∧
    ((∃ ns, c.ctl = .dirty ns) ∨ c.ctl = .returned none)

/-- When the body of the effect returns, no cleanup of an earlier execution waits, and if it hands back one the effect
is not disposed of. -/
def HandsBackOnce (e : ℕ) (c : Config V) : Prop :=
  ∀ cl, c.Ends (.effect e) cl → c.heap.cleanup (.effect e) = none ∧ (cl.isSome → c.heap.disposed (.effect e) = false)

/-- A cleanup of the effect that waits has not been started, and all others have been started once. None waits once
the effect has been disposed of. -/
structure Tallied (e : ℕ) (x : Logged V) : Prop where
  waiting : x.config.heap.cleanup (.effect e) ≠ none → ∃ l, x.starts e = 0 :: l ∧ ∀ n ∈ l, n = 1
  started : x.config.heap.cleanup (.effect e) = none → ∀ n ∈ x.starts e, n = 1
  dead : x.config.heap.disposed (.effect e) = true → x.config.heap.cleanup (.effect e) = none ∨
    ∃ st, x.config.stack = .disposing (.effect e) :: st

section Counts

variable [DecidableEq V] {G : Graph V} {ord : Enum} {c c' : Config V} {e : ℕ}

omit [DecidableEq V] in
theorem handsBack_iff {n : Node} : c.handsBack n = true ↔ ∃ cl, c.Ends n (some cl) := by
  obtain ⟨h, t, st⟩ := c
  constructor
  · intro hb
    cases t with
    | returned cl =>
      cases cl with
      | none => cases hb
      | some cl =>
        cases st with
        | nil => cases hb
        | cons f st =>
          cases f with
          | effect e' =>
            obtain rfl : e' = n := by simpa [Config.handsBack] using hb
            exact ⟨cl, rfl, st, rfl⟩
          | _ => cases hb
    | _ => cases hb
  · rintro ⟨cl, hctl, st', hst⟩
    cases hctl
    cases hst
    simp [Config.handsBack]

/-- What a step does to the cleanup of one effect. -/
theorem cleanup_cases (hs : step G ord c = some c') (e : ℕ) :
    (∃ cl, c.Ends (.effect e) cl ∧ c'.heap.cleanup (.effect e) = cl ∧ c'.ctl = .returned none) ∨
    (∀ cl, ¬ c.Ends (.effect e) cl) ∧ (c'.heap.cleanup (.effect e) = c.heap.cleanup (.effect e) ∨
        (c.heap.cleanup (.effect e)).isSome ∧ c'.heap.cleanup (.effect e) = none ∧ ∃ k, c'.ctl = .exec none k) := by
  by_cases hends : ∃ cl, c.Ends (.effect e) cl
  · obtain ⟨cl, hctl, st, hst⟩ := hends
    obtain ⟨h, t, st⟩ := c
    cases hctl
    cases hst
    cases hs
    exact .inl ⟨cl, ⟨rfl, _, rfl⟩, update_self _ _ _, rfl⟩
  · refine .inr ⟨fun cl hcl => hends ⟨cl, hcl⟩, ?_⟩
    have hfinished : ∀ (n : Node) (h : Heap V) (st : List (Frame V)), h.cleanup = c.heap.cleanup →
        Finished h st n c' → c'.heap.cleanup (.effect e) = c.heap.cleanup (.effect e) ∨
          (c.heap.cleanup (.effect e)).isSome ∧ c'.heap.cleanup (.effect e) = none ∧ ∃ k, c'.ctl = .exec none k := by
      intro n h st hcleanup hf
      rw [hf.cleanup, ← hcleanup]
      by_cases hn : .effect e = n
      · subst hn
        cases hsome : h.cleanup (.effect e) with
        | none => exact .inl (update_self _ _ _)
        | some k =>
          have hstarted := hf.started (Option.isSome_iff_exists.mpr ⟨k, hsome⟩)
          exact .inr ⟨rfl, update_self _ _ _, hstarted⟩
      · exact .inl (update_of_ne hn _ _)
    cases cleans_step hs with
    | still hs => exact .inl (congrFun hs.cleanup _)
    | called n k hlive hcleanup hcleanup' hctl hstack =>
      rw [hcleanup']
      by_cases hn : .effect e = n
      · subst hn
        exact .inr ⟨Option.isSome_iff_exists.mpr ⟨k, hcleanup⟩, update_self _ _ _, k, hctl⟩
      · exact .inl (update_of_ne hn _ _)
    | returned n cl st hctl hstack hcleanup hctl' hstack' =>
      have hn : .effect e ≠ n := by
        rintro rfl
        exact hends ⟨cl, hctl, st, hstack⟩
      rw [hcleanup]
      exact .inl (update_of_ne hn _ _)
    | disposed n h st hcleanup hdisposed hframes hd =>
      cases hd with
      | done hdead hsame =>
        subst hsame
        exact .inl (congrFun hcleanup _)
      | walks hlive hcleanup' hstack hctl => exact .inl (congrFun (hcleanup'.trans hcleanup) _)
      | finished hlive hf => exact hfinished n h st hcleanup hf
    | finished n cl st hctl hstack hf => exact hfinished n c.heap st rfl hf

/-- A step from below a disposal that waits: its walk goes on, or the disposal is finished. -/
theorem step_disposing {n : Node} {st : List (Frame V)} (hstack : c.stack = .disposing n :: st)
    (hctl : (∃ ns, c.ctl = .dirty ns) ∨ c.ctl = .returned none) (hs : step G ord c = some c') :
    (c'.stack = c.stack ∧ ((∃ ns, c'.ctl = .dirty ns) ∨ c'.ctl = .returned none)) ∨ Finished c.heap st n c' := by
  obtain ⟨h, t, st'⟩ := c
  cases hstack
  obtain ⟨ns, rfl⟩ | rfl := hctl
  · cases hs
    refine .inl ?_
    cases ns with
    | nil => exact ⟨rfl, .inr rfl⟩
    | cons n ns =>
      simp only [stepDirty]
      split
      · exact ⟨rfl, .inl ⟨_, rfl⟩⟩
      · exact ⟨rfl, .inl ⟨_, rfl⟩⟩
  · cases hs
    exact .inr (finished_finalCleanup h st n)

theorem walkOnTop_step (hw : WalkOnTop c) (hs : step G ord c = some c') : WalkOnTop c' := by
  obtain hnone | ⟨n, st, hstack, hnone, hctl⟩ := hw
  · cases cleans_step hs with
    | still hs => exact .inl fun e he => hnone e (hs.frames e he)
    | called n k hlive hcleanup hcleanup' hctl hstack =>
      refine .inl fun e he => ?_
      rw [hstack] at he
      exact hnone e (by simpa using he)
    | returned n cl st hctl hstack hcleanup hctl' hstack' =>
      refine .inl fun e he => hnone e ?_
      rw [hstack]
      exact mem_cons_of_mem _ (hstack' ▸ he)
    | disposed n h st hcleanup hdisposed hframes hd =>
      have hst : ∀ e, .disposing e ∉ st := fun e he => hnone e (hframes e he)
      cases hd with
      | done hdead hsame =>
        subst hsame
        exact .inl hst
      | walks hlive hcleanup' hstack hctl => exact .inr ⟨n, st, hstack, hst, .inl hctl⟩
      | finished hlive hf => exact .inl fun e he => hst e (hf.stack ▸ he)
    | finished n cl st hctl hstack hf =>
      refine absurd ?_ (hnone n)
      rw [hstack]
      exact mem_cons_self
  · obtain ⟨hstack', hctl'⟩ | hf := step_disposing hstack hctl hs
    · exact .inr ⟨n, st, hstack'.trans hstack, hnone, hctl'⟩
    · exact .inl fun e he => hnone e (hf.stack ▸ he)

/-- The step that disposes of the effect. -/
theorem disposing_of_disposes (hd : c.Disposes (.effect e)) (hs : step G ord c = some c') :
    ∃ st, Disposing c.heap st (.effect e) c' := by
  obtain ⟨h, t, st⟩ := c
  cases t with
  | exec r code =>
    cases code with
    | disposeEffect e' k =>
      cases hd
      cases hs
      exact ⟨_, disposing_disposeEffect ord h (.andThen r k :: st) (.effect e)⟩
    | dispose d k =>
      cases d with
      | computed i =>
        obtain ⟨k', heq, -⟩ := hd
        cases heq
      | _ => cases hd
    | lazy i k =>
      obtain ⟨k', heq, -⟩ := hd
      cases heq
    | _ => cases hd
  | _ => cases hd

/-- Once the effect has been disposed of, its cleanup waits for no more than the walk of the disposal. -/
theorem dead_step (hord : ord.Lawful) (hw : WalkOnTop c)
    (hdead : c.heap.disposed (.effect e) = true → c.heap.cleanup (.effect e) = none ∨
      ∃ st, c.stack = .disposing (.effect e) :: st)
    (hkept : c'.heap.cleanup (.effect e) = c.heap.cleanup (.effect e)) (hs : step G ord c = some c')
    (hdead' : c'.heap.disposed (.effect e) = true) :
    c'.heap.cleanup (.effect e) = none ∨ ∃ st, c'.stack = .disposing (.effect e) :: st := by
  by_cases hbefore : c.heap.disposed (.effect e) = true
  · obtain hnone | ⟨st, hstack⟩ := hdead hbefore
    · exact .inl (hkept.trans hnone)
    · obtain hfree | ⟨n, st', hstack', -, hctl⟩ := hw
      · exact absurd (hstack ▸ mem_cons_self) (hfree (.effect e))
      · obtain ⟨hsame, -⟩ | hf := step_disposing hstack' hctl hs
        · exact .inr ⟨st, hsame.trans hstack⟩
        · cases hstack.symm.trans hstack'
          exact .inl (hf.cleanup ▸ update_self _ _ _)
  · have hdisposes : c.Disposes (.effect e) :=
      (((moves_step hord hs).moves.retire (.effect e) rfl hdead').resolve_left hbefore).1
    obtain ⟨st, hd⟩ := disposing_of_disposes hdisposes hs
    cases hd with
    | done hdone hsame => exact absurd hdone hbefore
    | walks hlive hcleanup hstack hctl => exact .inr ⟨st, hstack⟩
    | finished hlive hf => exact .inl (hf.cleanup ▸ update_self _ _ _)

end Counts

/-! ## The count along a run -/

section Tally

variable [DecidableEq V] {G : Graph V} {ord : Enum} {x y : Logged V} {c' : Config V} {e : ℕ}

omit [DecidableEq V] in
theorem handsBack_of_not_ends {c : Config V} {n : Node} (h : ∀ cl, ¬ c.Ends n cl) : c.handsBack n = false := by
  rw [← Bool.not_eq_true, handsBack_iff]
  rintro ⟨cl, hends⟩
  exact h _ hends

omit [DecidableEq V] in
/-- Nothing is noted where no body ends and no cleanup is taken. -/
theorem note_of_kept (hnot : ∀ cl, ¬ x.config.Ends (.effect e) cl)
    (hkept : c'.heap.cleanup (.effect e) = x.config.heap.cleanup (.effect e)) : x.note c' e = x.starts e := by
  have hnone : x.config.startsCleanup c' (.effect e) = false := by
    rw [Config.startsCleanup, hkept]
    cases x.config.heap.cleanup (.effect e) with
    | none => rfl
    | some k => rfl
  rw [Logged.note, handsBack_of_not_ends hnot, hnone, if_neg Bool.false_ne_true, if_neg Bool.false_ne_true]

theorem tallied_step (hord : ord.Lawful) (ht : Tallied e x) (hw : WalkOnTop x.config)
    (honce : HandsBackOnce e x.config) (hs : step G ord x.config = some y.config)
    (hnoted : y.starts = x.note y.config) :
    Tallied e y := by
  have hnoted : y.starts e = x.note y.config e := congrFun hnoted e
  obtain ⟨cl, hends, hcl, hctl'⟩ | ⟨hnot, hkept | ⟨hsome, hnone, k, hctl⟩⟩ := cleanup_cases hs e
  · -- a body ends: what it hands back waits
    obtain ⟨hfree, hlive⟩ := honce cl hends
    have hstarted : ∀ n ∈ x.starts e, n = 1 := ht.started hfree
    have hdead : y.config.heap.disposed (.effect e) = true → x.config.heap.disposed (.effect e) = true := by
      intro hdead
      refine ((moves_step hord hs).moves.retire (.effect e) rfl hdead).resolve_right fun hd => ?_
      rw [Config.Disposes, hends.1] at hd
      exact hd.1
    cases cl with
    | none =>
      have hnote : y.starts e = x.starts e := by
        have hback : x.config.handsBack (.effect e) = false := by
          rw [← Bool.not_eq_true, handsBack_iff]
          rintro ⟨cl, hcl', -⟩
          cases hends.1.symm.trans hcl'
        rw [hnoted, Logged.note, hback, Config.startsCleanup, hfree]
        rfl
      refine ⟨fun hwaits => absurd hcl hwaits, fun _ => ?_, fun _ => .inl hcl⟩
      rw [hnote]
      exact hstarted
    | some k =>
      have hnote : y.starts e = 0 :: x.starts e := hnoted.trans (if_pos (handsBack_iff.mpr ⟨k, hends⟩))
      refine ⟨fun _ => ⟨x.starts e, hnote, hstarted⟩, fun hnone => ?_, fun hdead' => ?_⟩
      · cases hcl.symm.trans hnone
      · exact absurd (hlive rfl) (by simp [hdead hdead'])
  · have hnote : y.starts e = x.starts e := hnoted.trans (note_of_kept hnot hkept)
    refine ⟨fun hwaits => ?_, fun hnone => ?_, fun hdead => dead_step hord hw ht.dead hkept hs hdead⟩
    · rw [hnote]
      exact ht.waiting (hkept ▸ hwaits)
    · rw [hnote]
      exact ht.started (hkept ▸ hnone)
  · -- the cleanup that waits is started
    obtain ⟨l, hstarts, hl⟩ := ht.waiting (Option.isSome_iff_ne_none.mp hsome)
    have hnote : y.starts e = 1 :: l := by
      have hstarts' : x.config.startsCleanup y.config (.effect e) = true := by
        rw [Config.startsCleanup, hsome, hnone, hctl]
        rfl
      rw [hnoted, Logged.note, handsBack_of_not_ends hnot, if_neg Bool.false_ne_true, if_pos hstarts', hstarts]
      rfl
    refine ⟨fun hwaits => absurd hnone hwaits, fun _ => ?_, fun _ => .inl hnone⟩
    rw [hnote]
    exact forall_mem_cons.mpr ⟨rfl, hl⟩

omit [DecidableEq V] in
/-- The client's next call leaves the cleanups as they are. -/
theorem tallied_issue (ht : Tallied e x) (hidle : x.config.Idle) {code : Code V}
    (hissue : y.config = x.config.issue code)
    (hnoted : y.starts = x.note y.config) : Tallied e y := by
  have hnot : ∀ cl, ¬ x.config.Ends (.effect e) cl := by
    rintro cl ⟨-, st, hstack⟩
    cases hidle.1.symm.trans hstack
  have hheap : y.config.heap = x.config.heap := by rw [hissue, Config.issue]
  have hnote : y.starts e = x.starts e := by
    rw [hnoted]
    exact note_of_kept hnot (by rw [hheap])
  refine ⟨fun hwaits => ?_, fun hnone => ?_, fun hdead => ?_⟩
  · rw [hnote]
    exact ht.waiting (hheap ▸ hwaits)
  · rw [hnote]
    exact ht.started (hheap ▸ hnone)
  · refine .inl ((ht.dead (hheap ▸ hdead)).elim (fun hnone => hheap ▸ hnone) ?_)
    rintro ⟨st, hstack⟩
    cases hidle.1.symm.trans hstack

/-- As long as the effect hands back its cleanups one at a time and before its disposal, those that do not wait have
been started once. -/
theorem tallied_run {ok : Config V → Prop} (honce : ∀ c, ok c → HandsBackOnce e c) (hrun : x.Run G ok y)
    (ht : Tallied e x) (hw : WalkOnTop x.config) : Tallied e y ∧ WalkOnTop y.config := by
  induction hrun with
  | refl => exact ⟨ht, hw⟩
  | @tail y z _ hstep ih =>
    obtain ⟨ht, hw⟩ := ih
    obtain ⟨hok, hs, hnoted⟩ := hstep
    generalize hz : z.config = c' at hs
    cases hs with
    | tick ord hord hs =>
      exact ⟨tallied_step hord ht hw (honce _ hok) (hz ▸ hs) hnoted, walkOnTop_step hw hs⟩
    | issue code hidle _ =>
      have hempty : (y.config.issue code).stack = [] := hidle.1
      refine ⟨tallied_issue ht hidle hz hnoted, .inl fun n hn => ?_⟩
      rw [hempty] at hn
      cases hn

omit [DecidableEq V] in
theorem tallied_init (e : ℕ) (σ : ℕ → V) : Tallied e (Logged.init σ) where
  waiting hwaits := absurd rfl hwaits
  started _ n hn := by cases hn
  dead hdead := by cases hdead

end Tally

end LazilyPy.Reactive

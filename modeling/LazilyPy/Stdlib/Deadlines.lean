import Mathlib.Algebra.Order.Ring.Int
import LazilyPy.Lib.Mealy

/-!
# Timeouts and revision barriers

A timeout is an operation with a deadline. A poll looks at the clock first, and then asks for the operation and its
cancellation. A barrier waits for a revision, and its generation counts how often the revision has grown. The first
outcome that is not pending is latched. Asynchronous observers let other calls in between.
-/

namespace LazilyPy.Stdlib

open Option

/-! ### Timeouts -/

def maxU64 : ℤ := 2 ^ 64 - 1

def asU64 (value : ℤ) (name : String) : Except String ℤ :=
  if value < 0 ∨ maxU64 < value then .error (name ++ " must be in the uint64 range") else .ok value

def checkedDeadline (now duration : ℤ) : Except String ℤ := do
  let start ← asU64 now "now"
  let span ← asU64 duration "duration"
  if maxU64 - start < span then .error "deadline_overflow" else .ok (start + span)

theorem asU64_eq_ok {value v : ℤ} {name : String} :
    asU64 value name = .ok v ↔ v = value ∧ 0 ≤ value ∧ value ≤ maxU64 := by
  rw [asU64]
  split
  · next h =>
    refine iff_of_false nofun ?_
    rintro ⟨-, hlo, hhi⟩
    omega
  · next h =>
    rw [Except.ok.injEq, eq_comm]
    exact ⟨fun heq => ⟨heq, by omega⟩, And.left⟩

inductive OperationState where
  | pending | completed | unavailable
  deriving DecidableEq, Repr

/-- Another text is refused. -/
inductive CancellationState where
  | pending | cancelled | unavailable
  | unknown (state : String)
  deriving DecidableEq, Repr

inductive TimeoutOutcome where
  | pending | completed | timedOut | cancelled | unavailable
  deriving DecidableEq, Repr

structure TimeoutOperation (T : Type) where
  state : OperationState
  value : Option T := none

structure TimeoutObservation (T : Type) where
  outcome : TimeoutOutcome
  deadline : Option ℤ := none
  value : Option T := none
  reason : Option String := none

/-- The timeout, with the asynchronous polls that wait for their adapters. -/
structure Timeout (T : Type) where
  deadline : ℤ
  lastNow : ℤ
  terminal : Option (TimeoutObservation T) := none
  waiting : List ℕ := []

variable {T : Type}

/-- What the two adapters have given, if neither has raised. -/
abbrev Answers (T : Type) := Option (TimeoutOperation T × CancellationState)

namespace Timeout

def new (now duration : ℤ) : Except String (Timeout T) := do
  let deadline ← checkedDeadline now duration
  return { deadline, lastNow := now }

def latch (t : Timeout T) (value : TimeoutObservation T) : TimeoutObservation T × Timeout T :=
  (value, { t with terminal := some value })

def prePoll (t : Timeout T) (now : ℤ) : Except String (Option (TimeoutObservation T) × Timeout T) := do
  let now ← asU64 now "now"
  match t.terminal with
  | some value => return (some value, t)
  | none =>
    if now < t.lastNow then
      let (value, t) := t.latch { outcome := .unavailable, reason := some "clock_regression" }
      return (some value, t)
    else
      let t := { t with lastNow := now }
      if t.deadline ≤ now then
        let (value, t) := t.latch { outcome := .timedOut }
        return (some value, t)
      else return (none, t)

def resolve (t : Timeout T) (operation : TimeoutOperation T) (cancellation : CancellationState) :
    Except String (TimeoutObservation T × Timeout T) :=
  match t.terminal with
  | some value => .ok (value, t)
  | none =>
    match operation.state, cancellation with
    | .completed, _ => .ok (t.latch { outcome := .completed, value := operation.value })
    | .unavailable, _ => .ok (t.latch { outcome := .unavailable, reason := some "operation_unavailable" })
    | .pending, .cancelled => .ok (t.latch { outcome := .cancelled })
    | .pending, .unavailable => .ok (t.latch { outcome := .unavailable, reason := some "cancellation_unavailable" })
    | .pending, .unknown state => .error ("unknown cancellation state: " ++ state)
    | .pending, .pending => .ok ({ outcome := .pending, deadline := some t.deadline }, t)

/-- The end of a poll. Without an answer it raises. -/
def finish (t : Timeout T) : Answers T → Option (TimeoutObservation T) × Timeout T
  | none => (none, t)
  | some (operation, cancellation) =>
    match t.resolve operation cancellation with
    | .error _ => (none, t)
    | .ok (value, t) => (some value, t)

/-- The start of a poll, which goes on with `go` if it is not over. -/
def enter (t : Timeout T) (now : ℤ) (go : Timeout T → Option (TimeoutObservation T) × Timeout T) :
    Option (TimeoutObservation T) × Timeout T :=
  match t.prePoll now with
  | .error _ => (none, t)
  | .ok (some value, t) => (some value, t)
  | .ok (none, t) => go t

def poll (t : Timeout T) (now : ℤ) (answers : Answers T) : Option (TimeoutObservation T) × Timeout T :=
  t.enter now fun t => t.finish answers

/-- `poll_async` up to where it waits for the adapters. -/
def pollAsync (t : Timeout T) (call : ℕ) (now : ℤ) : Option (TimeoutObservation T) × Timeout T :=
  t.enter now fun t => (none, { t with waiting := call :: t.waiting })

/-- The rest of it. -/
def resume (t : Timeout T) (call : ℕ) (answers : Answers T) : Option (TimeoutObservation T) × Timeout T :=
  if call ∈ t.waiting then finish { t with waiting := t.waiting.erase call } answers else (none, t)

end Timeout

/-- The steps of the calls. A poll whose adapters call the timeout back takes two steps, as an asynchronous one does. -/
inductive TimeoutStep (T : Type) where
  | poll (now : ℤ) (answers : Answers T)
  | pollAsync (call : ℕ) (now : ℤ)
  | resume (call : ℕ) (answers : Answers T)

def TimeoutStep.reading : TimeoutStep T → Option ℤ
  | poll now _ => some now
  | pollAsync _ now => some now
  | resume _ _ => none

namespace Timeout

def step (t : Timeout T) : TimeoutStep T → Option (TimeoutObservation T) × Timeout T
  | .poll now answers => t.poll now answers
  | .pollAsync call now => t.pollAsync call now
  | .resume call answers => t.resume call answers

variable {t : Timeout T} {now : ℤ} {value : TimeoutObservation T}

/-- A clock that is no 64-bit number is refused. What is latched is given again. Otherwise the poll ends before the
adapters are asked, late or with a clock that goes back, or it goes on before the deadline. -/
theorem enter_cases (t : Timeout T) (now : ℤ) (go : Timeout T → Option (TimeoutObservation T) × Timeout T) :
    ¬ (0 ≤ now ∧ now ≤ maxU64) ∧ t.enter now go = (none, t) ∨
    (∃ o, t.terminal = some o ∧ t.enter now go = (some o, t)) ∨
    (t.terminal = none ∧ ∃ o last, (o.outcome = .timedOut ∨ o.outcome = .unavailable) ∧
      t.enter now go = (some o, { t with lastNow := last, terminal := some o })) ∨
    t.terminal = none ∧ now < t.deadline ∧ t.enter now go = go { t with lastNow := now } := by
  rw [enter, prePoll]
  cases hnow : asU64 now "now" with
  | error e =>
    refine .inl ⟨fun hrange => ?_, rfl⟩
    rw [asU64_eq_ok.mpr ⟨rfl, hrange⟩] at hnow
    cases hnow
  | ok now' =>
    obtain ⟨rfl, -⟩ := asU64_eq_ok.mp hnow
    simp only [bind, Except.bind]
    cases hterminal : t.terminal with
    | some o => exact .inr (.inl ⟨o, rfl, rfl⟩)
    | none =>
      dsimp only
      by_cases hback : now' < t.lastNow
      · rw [if_pos hback]
        exact .inr (.inr (.inl ⟨rfl, _, _, .inr rfl, rfl⟩))
      · rw [if_neg hback]
        by_cases hlate : t.deadline ≤ now'
        · rw [if_pos hlate]
          exact .inr (.inr (.inl ⟨rfl, _, _, .inl rfl, rfl⟩))
        · rw [if_neg hlate]
          exact .inr (.inr (.inr ⟨rfl, not_le.mp hlate, rfl⟩))

theorem finish_of_terminal (h : t.terminal = some value) (answers : Answers T) :
    (t.finish answers).2 = t ∧ ∀ o, (t.finish answers).1 = some o → o = value := by
  cases answers with
  | none => exact ⟨rfl, fun _ => nofun⟩
  | some answers =>
    have hresolve : t.resolve answers.1 answers.2 = .ok (value, t) := by simp only [resolve, h]
    rw [finish, hresolve]
    exact ⟨rfl, fun o ho => (some.inj ho).symm⟩

theorem finish_latches {answers : Answers T} (h : (t.finish answers).1 = some value) (hne : value.outcome ≠ .pending) :
    (t.finish answers).2.terminal = some value := by
  cases hterminal : t.terminal with
  | some o =>
    obtain ⟨hsame, honly⟩ := finish_of_terminal hterminal answers
    rw [hsame, hterminal, honly value h]
  | none =>
    obtain _ | ⟨⟨state, result⟩, cancellation⟩ := answers
    · cases h
    · simp only [finish, resolve, hterminal] at h ⊢
      cases state <;> cases cancellation <;> cases h <;> first | rfl | exact absurd rfl hne

theorem deadline_finish (t : Timeout T) (answers : Answers T) : (t.finish answers).2.deadline = t.deadline := by
  obtain _ | ⟨⟨state, result⟩, cancellation⟩ := answers
  · rfl
  · simp only [finish, resolve]
    cases t.terminal with
    | some o => rfl
    | none => cases state <;> cases cancellation <;> rfl

/-- A step starts a poll or ends one. -/
theorem step_cases (t : Timeout T) (c : TimeoutStep T) : (∃ now go, c.reading = some now ∧ t.step c = t.enter now go ∧
      ((∃ answers, go = fun t => t.finish answers) ∨ ∃ call, go = fun t =>
        (none, { t with waiting := call :: t.waiting }))) ∨
    c.reading = none ∧ (t.step c = (none, t) ∨ ∃ waiting answers, t.step c = finish { t with waiting } answers) := by
  cases c with
  | poll now answers => exact .inl ⟨now, _, rfl, rfl, .inl ⟨answers, rfl⟩⟩
  | pollAsync call now => exact .inl ⟨now, _, rfl, rfl, .inr ⟨call, rfl⟩⟩
  | resume call answers =>
    refine .inr ⟨rfl, ?_⟩
    rw [step, resume]
    split
    · exact .inr ⟨_, answers, rfl⟩
    · exact .inl rfl

theorem step_of_terminal (h : t.terminal = some value) (c : TimeoutStep T) :
    (t.step c).2.terminal = some value ∧ ∀ o, (t.step c).1 = some o → o = value := by
  obtain ⟨now, go, -, hstep, -⟩ | ⟨-, hstep | ⟨waiting, answers, hstep⟩⟩ := step_cases t c
  · rw [hstep]
    obtain ⟨-, henter⟩ | ⟨o, ho, henter⟩ | ⟨hnone, -⟩ | ⟨hnone, -⟩ := enter_cases t now go
    · rw [henter]
      exact ⟨h, fun _ => nofun⟩
    · rw [henter]
      refine ⟨h, fun o' ho' => ?_⟩
      rw [← some.inj ho']
      exact some.inj (ho.symm.trans h)
    · cases hnone.symm.trans h
    · cases hnone.symm.trans h
  · rw [hstep]
    exact ⟨h, fun _ => nofun⟩
  · obtain ⟨hsame, honly⟩ := @finish_of_terminal T { t with waiting } value h answers
    rw [hstep, hsame]
    exact ⟨h, honly⟩

theorem step_latches {c : TimeoutStep T} (h : (t.step c).1 = some value) (hne : value.outcome ≠ .pending) :
    (t.step c).2.terminal = some value := by
  obtain ⟨now, go, -, hstep, hgo⟩ | ⟨-, hstep | ⟨waiting, answers, hstep⟩⟩ := step_cases t c
  · rw [hstep] at h ⊢
    obtain ⟨-, henter⟩ | ⟨o, ho, henter⟩ | ⟨-, o, last, -, henter⟩ | ⟨-, -, henter⟩ := enter_cases t now go
    · rw [henter] at h
      cases h
    · rw [henter] at h ⊢
      exact ho.trans h
    · rw [henter] at h ⊢
      exact h
    · rw [henter] at h ⊢
      obtain ⟨answers, rfl⟩ | ⟨call, rfl⟩ := hgo
      · exact finish_latches h hne
      · cases h
  · rw [hstep] at h
    cases h
  · rw [hstep] at h ⊢
    exact finish_latches h hne

theorem latching : Latching (step (T := T)) terminal (·.outcome ≠ .pending) where
  keeps _ c _ h := (step_of_terminal h c).1
  only _ c _ h := (step_of_terminal h c).2
  latches _ _ _ := step_latches

theorem deadline_step (t : Timeout T) (c : TimeoutStep T) : (t.step c).2.deadline = t.deadline := by
  obtain ⟨now, go, -, hstep, hgo⟩ | ⟨-, hstep | ⟨waiting, answers, hstep⟩⟩ := step_cases t c
  · rw [hstep]
    obtain ⟨-, henter⟩ | ⟨o, -, henter⟩ | ⟨-, o, last, -, henter⟩ | ⟨-, -, henter⟩ := enter_cases t now go
    · rw [henter]
    · rw [henter]
    · rw [henter]
    · rw [henter]
      obtain ⟨answers, rfl⟩ | ⟨call, rfl⟩ := hgo
      · exact deadline_finish _ answers
      · rfl
  · rw [hstep]
  · rw [hstep]
    exact deadline_finish _ answers

theorem deadline_after (t : Timeout T) (calls : List (TimeoutStep T)) :
    (Mealy.after step t calls).deadline = t.deadline := by
  induction calls generalizing t with
  | nil => rfl
  | cons c calls ih => exact (ih (t.step c).2).trans (deadline_step t c)

/-- In every run of a timeout: behind an observation that is not pending there is only this one, and if a pending
timeout has been read at its deadline, it has never been completed or cancelled. -/
structure Latched (t : Timeout T) : Prop where
  absorbing : ∀ before c after o, (step (Mealy.after step t before) c).1 = some o → o.outcome ≠ .pending →
    ∀ o', some o' ∈ Mealy.outputs step (step (Mealy.after step t before) c).2 after → o' = o
  late : ∀ before c after now, (Mealy.after step t before).terminal = none → c.reading = some now →
    0 ≤ now ∧ now ≤ maxU64 → t.deadline ≤ now → ∀ o, some o ∈ Mealy.outputs step t (before ++ c :: after) →
      o.outcome ≠ .completed ∧ o.outcome ≠ .cancelled

theorem latched (t : Timeout T) : t.Latched where
  absorbing _ _ _ _ ho hne _ := latching.absorbing ho hne
  late := by
    intro before c after now hpending hreading hrange hlate o ho
    rw [Mealy.outputs_append, List.mem_append] at ho
    obtain ho | ho := ho
    · have hout := latching.not_final_of_after hpending ho
      rw [not_not] at hout
      rw [hout]
      exact ⟨(by simp), (by simp)⟩
    · -- the poll is late, and what it gives is all that there is from then on
      obtain ⟨now', go, hreading', hstep, -⟩ | ⟨hnone, -⟩ := step_cases (Mealy.after step t before) c
      · obtain rfl := some.inj (hreading.symm.trans hreading')
        rw [← deadline_after t before] at hlate
        obtain ⟨hbad, -⟩ | ⟨o', ho', -⟩ | ⟨-, o', last, hout, henter⟩ | ⟨-, hbefore, -⟩ :=
          enter_cases (Mealy.after step t before) now go
        · exact absurd hrange hbad
        · cases hpending.symm.trans ho'
        · have hsame : o = o' := by
            rw [henter] at hstep
            rw [Mealy.outputs, hstep] at ho
            obtain ho | ho := List.mem_cons.mp ho
            · exact some.inj ho
            · exact latching.eq_of_latched rfl ho
          rw [hsame]
          obtain hout | hout := hout
          · rw [hout]
            exact ⟨(by simp), (by simp)⟩
          · rw [hout]
            exact ⟨(by simp), (by simp)⟩
        · exact absurd hbefore (not_lt.mpr hlate)
      · cases hnone.symm.trans hreading

end Timeout

/-! ### Revision barriers -/

inductive BarrierOutcome where
  | pending | satisfied | timedOut | cancelled | unavailable | disposed
  deriving DecidableEq, Repr

structure RevisionBarrierObservation where
  outcome : BarrierOutcome
  revision : ℤ
  generation : ℕ
  reason : Option String := none
  deriving DecidableEq, Repr

/-- The barrier, with the asynchronous observers that wait for their cancellation. -/
structure RevisionBarrier where
  revision : ℤ
  requiredRevision : ℤ
  deadline : Option ℤ
  generation : ℕ := 0
  lastNow : Option ℤ := none
  terminal : Option (BarrierOutcome × Option String) := none
  waiting : List ℕ := []
  deriving DecidableEq

namespace RevisionBarrier

def new (revision requiredRevision : ℤ) (deadline : Option ℤ) : Except String RevisionBarrier := do
  let revision ← asU64 revision "revision"
  let requiredRevision ← asU64 requiredRevision "required_revision"
  let deadline ← deadline.mapM (asU64 · "deadline")
  return { revision, requiredRevision, deadline }

def snapshot (b : RevisionBarrier) : RevisionBarrierObservation :=
  let (outcome, reason) := b.terminal.getD (.pending, none)
  ⟨outcome, b.revision, b.generation, reason⟩

def latch (b : RevisionBarrier) (outcome : BarrierOutcome) (reason : Option String) :
    Option RevisionBarrierObservation × RevisionBarrier :=
  let b := { b with terminal := some (outcome, reason) }
  (some b.snapshot, b)

def acceptRevision (b : RevisionBarrier) (revision : ℤ) : RevisionBarrier :=
  if b.revision < revision then { b with revision, generation := b.generation + 1 } else b

/-- The start of an observation, which goes on with `go` if it is not over. -/
def beginObserve (b : RevisionBarrier) (now : ℤ)
    (go : RevisionBarrier → Option RevisionBarrierObservation × RevisionBarrier) :
    Option RevisionBarrierObservation × RevisionBarrier :=
  match asU64 now "now" with
  | .error _ => (none, b)
  | .ok now =>
    if b.terminal.isSome then (some b.snapshot, b)
    else if b.lastNow.any (now < ·) then b.latch .unavailable (some "clock_regression")
    else
      let b := { b with lastNow := some now }
      if b.deadline.any (· ≤ now) then b.latch .timedOut none else go b

/-- What comes of a cancellation. An adapter that has raised gives none, and another text is refused. -/
def finishCancellation (b : RevisionBarrier) :
    Option CancellationState → Option RevisionBarrierObservation × RevisionBarrier
  | none => (none, b)
  | some state =>
    if b.terminal.isSome then (some b.snapshot, b)
    else match state with
      | .cancelled => b.latch .cancelled none
      | .unavailable => b.latch .unavailable (some "cancellation_unavailable")
      | .unknown _ => (none, b)
      | .pending => (some b.snapshot, b)

/-- The barrier is satisfied, or it goes on. -/
def check (b : RevisionBarrier) (predicate : Bool)
    (go : RevisionBarrier → Option RevisionBarrierObservation × RevisionBarrier) :
    Option RevisionBarrierObservation × RevisionBarrier :=
  if predicate ∧ b.requiredRevision ≤ b.revision then b.latch .satisfied none else go b

def observe (b : RevisionBarrier) (now : ℤ) (predicate : Bool) (cancellation : Option CancellationState) :
    Option RevisionBarrierObservation × RevisionBarrier :=
  b.beginObserve now fun b => b.check predicate fun b => b.finishCancellation cancellation

/-- `observe_async` up to where it waits for the cancellation. -/
def observeAsync (b : RevisionBarrier) (call : ℕ) (now : ℤ) (predicate : Bool) :
    Option RevisionBarrierObservation × RevisionBarrier :=
  b.beginObserve now fun b => b.check predicate fun b => (none, { b with waiting := call :: b.waiting })

/-- The rest of it. -/
def resume (b : RevisionBarrier) (call : ℕ) (cancellation : Option CancellationState) :
    Option RevisionBarrierObservation × RevisionBarrier :=
  if call ∈ b.waiting then finishCancellation { b with waiting := b.waiting.erase call } cancellation else (none, b)

def registerRecheck (b : RevisionBarrier) (now observedRevision : ℤ) (predicate : Bool) :
    Option RevisionBarrierObservation × RevisionBarrier :=
  match asU64 observedRevision "observed_revision" with
  | .error _ => (none, b)
  | .ok observedRevision =>
    b.beginObserve now fun b => (b.acceptRevision observedRevision).check predicate fun b => (some b.snapshot, b)

def advance (b : RevisionBarrier) (revision : ℤ) (predicate : Bool) :
    Option RevisionBarrierObservation × RevisionBarrier :=
  match asU64 revision "revision" with
  | .error _ => (none, b)
  | .ok revision =>
    if b.terminal.isSome then (some b.snapshot, b)
    else (b.acceptRevision revision).check predicate fun b => (some b.snapshot, b)

def dispose (b : RevisionBarrier) : Option RevisionBarrierObservation × RevisionBarrier :=
  if b.terminal.isNone then b.latch .disposed none else (some b.snapshot, b)

def receipt (b : RevisionBarrier) (_key : String) : Option RevisionBarrierObservation × RevisionBarrier :=
  (some b.snapshot, b)

end RevisionBarrier

/-- The steps of the calls. An observer whose adapter calls the barrier back takes two steps. -/
inductive BarrierStep where
  | observe (now : ℤ) (predicate : Bool) (cancellation : Option CancellationState)
  | observeAsync (call : ℕ) (now : ℤ) (predicate : Bool)
  | resume (call : ℕ) (cancellation : Option CancellationState)
  | registerRecheck (now observedRevision : ℤ) (predicate : Bool)
  | advance (revision : ℤ) (predicate : Bool)
  | dispose
  | receipt (key : String)
  deriving DecidableEq

namespace RevisionBarrier

def step (b : RevisionBarrier) : BarrierStep → Option RevisionBarrierObservation × RevisionBarrier
  | .observe now predicate cancellation => b.observe now predicate cancellation
  | .observeAsync call now predicate => b.observeAsync call now predicate
  | .resume call cancellation => b.resume call cancellation
  | .registerRecheck now observedRevision predicate => b.registerRecheck now observedRevision predicate
  | .advance revision predicate => b.advance revision predicate
  | .dispose => b.dispose
  | .receipt key => b.receipt key

/-- The observation of a barrier that is over. -/
def final? (b : RevisionBarrier) : Option RevisionBarrierObservation :=
  if b.terminal.isSome then some b.snapshot else none

variable {b b' : RevisionBarrier} {o : Option RevisionBarrierObservation}

/-- What a step can do to a barrier: nothing more if it is over, or else the revision grows by one generation or not at
all, and the outcome that it may come to is what the step gives. -/
structure Moves (b : RevisionBarrier) (o : Option RevisionBarrierObservation) (b' : RevisionBarrier) : Prop where
  ended : b.terminal.isSome = true → b'.final? = b.final?
  given : ∀ value, o = some value → value = b'.snapshot
  required : b'.requiredRevision = b.requiredRevision
  revision : b'.revision = b.revision ∧ b'.generation = b.generation ∨
    b.revision < b'.revision ∧ b'.generation = b.generation + 1
  satisfied : b.terminal.isSome = false → ∀ reason, b'.terminal = some (.satisfied, reason) →
    b'.requiredRevision ≤ b'.revision

theorem Moves.refl (ho : o = none ∨ o = some b.snapshot) : Moves b o b where
  ended _ := rfl
  given value h := by
    obtain rfl | rfl := ho
    · cases h
    · exact (some.inj h).symm
  required := rfl
  revision := .inl ⟨rfl, rfl⟩
  satisfied hnone reason h := by
    rw [h] at hnone
    cases hnone

/-- Steps that change only the clock and the waiting observers come before. -/
theorem Moves.of_same {c : RevisionBarrier} (h : Moves c o b') (hterminal : c.terminal = b.terminal)
    (hrevision : c.revision = b.revision) (hrequired : c.requiredRevision = b.requiredRevision)
    (hgeneration : c.generation = b.generation) : Moves b o b' where
  ended hsome := by
    rw [h.ended (hterminal ▸ hsome), final?, final?, snapshot, snapshot, hterminal, hrevision, hgeneration]
  given := h.given
  required := h.required.trans hrequired
  revision := hrevision ▸ hgeneration ▸ h.revision
  satisfied hnone := h.satisfied (hterminal ▸ hnone)

theorem moves_latch {outcome : BarrierOutcome} {reason : Option String} (hnone : b.terminal.isSome = false)
    (hsatisfied : outcome = .satisfied → b.requiredRevision ≤ b.revision) :
    Moves b (b.latch outcome reason).1 (b.latch outcome reason).2 where
  ended hsome := by
    rw [hnone] at hsome
    cases hsome
  given _ h := (some.inj h).symm
  required := rfl
  revision := .inl ⟨rfl, rfl⟩
  satisfied _ reason' h := by
    cases h
    exact hsatisfied rfl

theorem moves_check {predicate : Bool} {go : RevisionBarrier → Option RevisionBarrierObservation × RevisionBarrier}
    (hnone : b.terminal.isSome = false) (hgo : Moves b (go b).1 (go b).2) :
    Moves b (b.check predicate go).1 (b.check predicate go).2 := by
  rw [check]
  split
  · next h => exact moves_latch hnone fun _ => h.2
  · exact hgo

theorem moves_acceptRevision (hnone : b.terminal.isSome = false) (revision : ℤ)
    (h : Moves (b.acceptRevision revision) o b') (hsame : b'.revision = (b.acceptRevision revision).revision)
    (hgeneration : b'.generation = (b.acceptRevision revision).generation) : Moves b o b' := by
  rw [acceptRevision] at h hsame hgeneration
  split at h
  · next hlt =>
    rw [if_pos hlt] at hsame hgeneration
    refine ⟨fun hsome => ?_, h.given, h.required, .inr ⟨?_, hgeneration⟩, fun _ => h.satisfied hnone⟩
    · rw [hnone] at hsome
      cases hsome
    · rw [hsame]
      exact hlt
  · exact h

theorem moves_finishCancellation (b : RevisionBarrier) (cancellation : Option CancellationState) :
    Moves b (b.finishCancellation cancellation).1 (b.finishCancellation cancellation).2 := by
  cases cancellation with
  | none => exact .refl (.inl rfl)
  | some state =>
    dsimp only [finishCancellation]
    split
    · exact .refl (.inr rfl)
    · next hnone =>
      rw [Bool.not_eq_true] at hnone
      cases state with
      | pending => exact .refl (.inr rfl)
      | cancelled => exact moves_latch hnone nofun
      | unavailable => exact moves_latch hnone nofun
      | unknown state => exact .refl (.inl rfl)

theorem moves_beginObserve {now : ℤ} {go : RevisionBarrier → Option RevisionBarrierObservation × RevisionBarrier}
    (hgo : ∀ b : RevisionBarrier, b.terminal.isSome = false → Moves b (go b).1 (go b).2) :
    Moves b (b.beginObserve now go).1 (b.beginObserve now go).2 := by
  rw [beginObserve]
  cases asU64 now "now" with
  | error e => exact .refl (.inl rfl)
  | ok now =>
    dsimp only
    split
    · exact .refl (.inr rfl)
    · next hnone =>
      rw [Bool.not_eq_true] at hnone
      split
      · exact moves_latch hnone nofun
      · split
        · exact (@moves_latch { b with lastNow := some now } .timedOut _ hnone nofun).of_same rfl rfl rfl rfl
        · exact (hgo { b with lastNow := some now } hnone).of_same rfl rfl rfl rfl

/-- The revision is accepted, and then the barrier is satisfied or tells how it is. -/
theorem moves_accepted (hnone : b.terminal.isSome = false) (revision : ℤ) (predicate : Bool) :
    Moves b ((b.acceptRevision revision).check predicate fun b => (some b.snapshot, b)).1
      ((b.acceptRevision revision).check predicate fun b => (some b.snapshot, b)).2 := by
  have hnone' : (b.acceptRevision revision).terminal.isSome = false := by
    rw [acceptRevision]
    split
    · exact hnone
    · exact hnone
  refine moves_acceptRevision hnone revision (moves_check hnone' (.refl (.inr rfl))) ?_ ?_
  · rw [check]
    split
    · rfl
    · rfl
  · rw [check]
    split
    · rfl
    · rfl

theorem moves_step (b : RevisionBarrier) (s : BarrierStep) : Moves b (b.step s).1 (b.step s).2 := by
  cases s with
  | observe now predicate cancellation =>
    exact moves_beginObserve fun b hnone => moves_check hnone (moves_finishCancellation b cancellation)
  | observeAsync call now predicate =>
    exact moves_beginObserve fun b hnone =>
      moves_check hnone ((Moves.refl (.inl rfl)).of_same rfl rfl rfl rfl)
  | resume call cancellation =>
    rw [step, resume]
    split
    · exact (moves_finishCancellation _ cancellation).of_same rfl rfl rfl rfl
    · exact .refl (.inl rfl)
  | registerRecheck now observedRevision predicate =>
    rw [step, registerRecheck]
    split
    · exact .refl (.inl rfl)
    · exact moves_beginObserve fun b hnone => moves_accepted hnone _ predicate
  | advance revision predicate =>
    rw [step, advance]
    split
    · exact .refl (.inl rfl)
    · split
      · exact .refl (.inr rfl)
      · next hnone => exact moves_accepted (by simpa using hnone) _ predicate
  | dispose =>
    rw [step, dispose]
    split
    · next hnone => exact moves_latch (by simpa using hnone) nofun
    · exact .refl (.inr rfl)
  | receipt key => exact .refl (.inr rfl)

theorem latching : Latching step final? (·.outcome ≠ .pending) where
  keeps b s o h := by
    have hover : b.terminal.isSome = true := by
      by_contra hnone
      rw [final?, if_neg hnone] at h
      cases h
    exact ((moves_step b s).ended hover).trans h
  only b s o h o' ho' := by
    have hover : b.terminal.isSome = true := by
      by_contra hnone
      rw [final?, if_neg hnone] at h
      cases h
    have hfinal := ((moves_step b s).ended hover).trans h
    rw [(moves_step b s).given o' ho']
    rw [final?] at hfinal
    split at hfinal
    · exact some.inj hfinal
    · cases hfinal
  latches b s o ho hne := by
    have hgiven := (moves_step b s).given o ho
    rw [final?, hgiven]
    split
    · rfl
    · next hnone =>
      rw [Bool.not_eq_true, isSome_eq_false_iff, isNone_iff_eq_none] at hnone
      rw [hgiven, snapshot, hnone] at hne
      exact absurd rfl hne

/-- How often the revision grows in some steps. -/
def increases (b : RevisionBarrier) : List BarrierStep → ℕ
  | [] => 0
  | s :: steps => (if b.revision < (b.step s).2.revision then 1 else 0) + increases (b.step s).2 steps

/-- What a barrier keeps: if it is satisfied, its revision is the required one at least. -/
def Sound (b : RevisionBarrier) : Prop :=
  ∀ reason, b.terminal = some (.satisfied, reason) → b.requiredRevision ≤ b.revision

theorem Sound.step (h : b.Sound) (s : BarrierStep) : (b.step s).2.Sound := by
  intro reason hreason
  have hm := moves_step b s
  cases hover : b.terminal.isSome with
  | false => exact hm.satisfied hover reason hreason
  | true =>
    have hfinal := hm.ended hover
    rw [final?, final?, if_pos hover, hreason] at hfinal
    have hsnapshot : (b.step s).2.snapshot = b.snapshot := some.inj hfinal
    obtain ⟨⟨outcome, reason'⟩, hterminal⟩ := isSome_iff_exists.mp hover
    rw [snapshot, snapshot, hreason, hterminal] at hsnapshot
    injection hsnapshot with houtcome hrevision
    rw [hm.required, hrevision]
    exact h reason' (hterminal.trans (by rw [← houtcome]))

/-- In every run of a barrier: behind an observation that is not pending there is only this one, satisfied is given only
at the required revision, the revision never falls, and the generation counts how often it has grown. -/
structure Latched (b : RevisionBarrier) : Prop where
  absorbing : ∀ before s after o, (step (Mealy.after step b before) s).1 = some o → o.outcome ≠ .pending →
    ∀ o', some o' ∈ Mealy.outputs step (step (Mealy.after step b before) s).2 after → o' = o
  satisfied : ∀ steps o, some o ∈ Mealy.outputs step b steps → o.outcome = .satisfied → b.requiredRevision ≤ o.revision
  revision : ∀ before after, (Mealy.after step b before).revision ≤ (Mealy.after step b (before ++ after)).revision
  generation : ∀ steps, (Mealy.after step b steps).generation = b.increases steps

theorem revision_le_after (b : RevisionBarrier) (steps : List BarrierStep) :
    b.revision ≤ (Mealy.after step b steps).revision := by
  induction steps generalizing b with
  | nil => exact le_rfl
  | cons s steps ih =>
    have hstep : b.revision ≤ (b.step s).2.revision := by
      have hm := (moves_step b s).revision
      omega
    exact le_trans hstep (ih (b.step s).2)

theorem generation_after (b : RevisionBarrier) (steps : List BarrierStep) :
    (Mealy.after step b steps).generation = b.generation + b.increases steps := by
  induction steps generalizing b with
  | nil => rfl
  | cons s steps ih =>
    refine (ih (b.step s).2).trans ?_
    rw [increases]
    obtain ⟨heq, hgeneration⟩ | ⟨hlt, hgeneration⟩ := (moves_step b s).revision
    · rw [hgeneration, if_neg (by rw [heq]; exact lt_irrefl _), Nat.zero_add]
    · rw [hgeneration, if_pos hlt, Nat.add_assoc]

theorem required_le_of_satisfied (h : b.Sound) {steps : List BarrierStep} {o : RevisionBarrierObservation}
    (ho : some o ∈ Mealy.outputs step b steps) (houtcome : o.outcome = .satisfied) :
    b.requiredRevision ≤ o.revision := by
  induction steps generalizing b with
  | nil => cases ho
  | cons s steps ih =>
    have hm := moves_step b s
    obtain heq | ho := List.mem_cons.mp ho
    · have hgiven := hm.given o heq.symm
      rw [hgiven, snapshot] at houtcome ⊢
      cases hterminal : (b.step s).2.terminal with
      | none =>
        rw [hterminal] at houtcome
        cases houtcome
      | some terminal =>
        obtain ⟨outcome, reason⟩ := terminal
        rw [hterminal] at houtcome
        obtain rfl : outcome = .satisfied := houtcome
        exact hm.required ▸ h.step s reason hterminal
    · exact hm.required ▸ ih (h.step s) ho

theorem latched_of_new {revision requiredRevision : ℤ} {deadline : Option ℤ}
    (h : new revision requiredRevision deadline = .ok b) : b.Latched := by
  have hfresh : b.terminal = none ∧ b.generation = 0 := by
    rw [new] at h
    cases hrevision : asU64 revision "revision" with
    | error e => rw [hrevision] at h; cases h
    | ok r =>
      cases hrequired : asU64 requiredRevision "required_revision" with
      | error e => rw [hrevision, hrequired] at h; cases h
      | ok q =>
        cases hdeadline : deadline.mapM (asU64 · "deadline") with
        | error e => rw [hrevision, hrequired, hdeadline] at h; cases h
        | ok d =>
          rw [hrevision, hrequired, hdeadline] at h
          cases h
          exact ⟨rfl, rfl⟩
  have hsound : b.Sound := by
    intro reason hreason
    rw [hfresh.1] at hreason
    cases hreason
  refine ⟨fun _ _ _ _ ho hne _ => latching.absorbing ho hne, fun _ _ => required_le_of_satisfied hsound,
    fun before after => ?_, fun steps => ?_⟩
  · rw [Mealy.after, Mealy.after, List.foldl_append]
    exact revision_le_after _ after
  · rw [generation_after, hfresh.2, Nat.zero_add]

end RevisionBarrier

/-- Latched observations are the only ones from then on, for timeouts and for barriers. -/
theorem latched_observations_absorbing {T : Type} (t : Timeout T) {revision requiredRevision : ℤ}
    {deadline : Option ℤ} {b : RevisionBarrier}
    (hb : RevisionBarrier.new revision requiredRevision deadline = .ok b) : t.Latched ∧ b.Latched :=
  ⟨t.latched, RevisionBarrier.latched_of_new hb⟩

theorem latched_observations_absorbing_started :
    (⟨10, 0, none, []⟩ : Timeout ℕ).Latched ∧ (⟨3, 5, some 100, 0, none, none, []⟩ : RevisionBarrier).Latched :=
  @latched_observations_absorbing ℕ _ 3 5 (some 100) _ rfl

end LazilyPy.Stdlib

import Mathlib.Algebra.Order.Ring.Int
import Mathlib.Data.List.Basic

/-!
# Projected charts

A chart follows the states of an authority as they are observed. A state that has a deadline is wedged
once the observer's clock is past it. The instant that a chart gives as its next fire is the deadline
itself, at which it is not wedged yet.
-/

namespace LazilyPy.Temporal

open Option

inductive ProjectionOutcomeKind
  | entered | reaffirmed | illegal | unknownState | stale
  deriving DecidableEq, Repr

structure ProjectionOutcome where
  kind : ProjectionOutcomeKind
  fromState : String
  toState : String
  at_ : ℤ
  deriving DecidableEq, Repr

def ProjectionOutcome.legal (outcome : ProjectionOutcome) : Bool :=
  outcome.kind ∉ [.illegal, .unknownState]

structure IllegalTransition where
  fromState : String
  toState : String
  at_ : ℤ
  reason : ProjectionOutcomeKind
  deriving DecidableEq, Repr

structure ProjectedChartDef where
  initial : String
  transitions : List (String × List String)
  deadlines : List (String × ℤ)
  terminal : List String
  deriving DecidableEq, Repr

namespace ProjectedChartDef

def knows (defn : ProjectedChartDef) (state : String) : Bool :=
  (defn.transitions.lookup state).isSome

def allows (defn : ProjectedChartDef) (fromState toState : String) : Bool :=
  toState ∈ (defn.transitions.lookup fromState).getD []

def deadline (defn : ProjectedChartDef) (state : String) : Option ℤ :=
  if state ∈ defn.terminal then none else defn.deadlines.lookup state

end ProjectedChartDef

structure ProjectedChartCore where
  defn : ProjectedChartDef
  state : String
  enteredAt : ℤ
  observedAt : ℤ
  now : ℤ
  observations : ℕ
  violations : List IllegalTransition
  deriving DecidableEq, Repr

namespace ProjectedChartCore

def new (defn : ProjectedChartDef) (at_ : ℤ) : ProjectedChartCore where
  defn := defn
  state := defn.initial
  enteredAt := at_
  observedAt := at_
  now := at_
  observations := 0
  violations := []

def classify (s : ProjectedChartCore) (state : String) : ProjectionOutcomeKind :=
  if ¬ s.defn.knows state then .unknownState
  else if state = s.state then .reaffirmed
  else if s.defn.allows s.state state then .entered
  else .illegal

/-- Adopt an observed state, unless it is older than the last one. -/
def observe (s : ProjectedChartCore) (state : String) (at_ : ℤ) : ProjectionOutcome × ProjectedChartCore :=
  if at_ < s.observedAt then (⟨.stale, s.state, state, at_⟩, s)
  else
    let kind := s.classify state
    let outcome : ProjectionOutcome := ⟨kind, s.state, state, at_⟩
    (outcome,
      { s with
        state := if kind = .reaffirmed then s.state else state
        enteredAt := if kind = .reaffirmed then s.enteredAt else at_
        observedAt := at_
        now := if s.now < at_ then at_ else s.now
        observations := s.observations + 1
        violations :=
          if outcome.legal then s.violations else s.violations ++ [⟨s.state, state, at_, kind⟩] })

/-- How far the observer's clock is past the deadline of the state. -/
def overdueBy (s : ProjectedChartCore) : ℤ :=
  match s.defn.deadline s.state with
  | none => 0
  | some deadline => max 0 (s.now - s.enteredAt - deadline)

def wedged (s : ProjectedChartCore) : Bool :=
  0 < s.overdueBy

def tick (s : ProjectedChartCore) (now : ℤ) : Except String (Bool × ProjectedChartCore) :=
  if now < s.now then .error s!"observer clock moved backwards: {now} < {s.now}"
  else
    let s' := { s with now := now }
    .ok (s'.wedged && !s.wedged, s')

def wedgesAt (s : ProjectedChartCore) : Option ℤ :=
  (s.defn.deadline s.state).map fun deadline => s.enteredAt + deadline

def nextFire (s : ProjectedChartCore) : Option ℤ :=
  match s.wedgesAt with
  | none => none
  | some fire => if s.wedged then none else some fire

theorem now_observe (s : ProjectedChartCore) (state : String) (at_ : ℤ) {bound : ℤ}
    (hnow : s.now ≤ bound) (hat : at_ ≤ bound) : (s.observe state at_).2.now ≤ bound := by
  unfold observe
  split
  · exact hnow
  · dsimp only
    split
    · exact hat
    · exact hnow

theorem tick_of_le {s : ProjectedChartCore} {now : ℤ} (h : s.now ≤ now) :
    s.tick now = .ok ({ s with now := now }.wedged && !s.wedged, { s with now := now }) :=
  if_neg (not_lt.mpr h)

theorem wedged_iff (s : ProjectedChartCore) : s.wedged = true ↔ ∃ fire, s.wedgesAt = some fire ∧ fire < s.now := by
  unfold wedged overdueBy wedgesAt
  rw [decide_eq_true_iff]
  cases s.defn.deadline s.state with
  | none => simp
  | some deadline =>
    simp only [map_some, some.injEq, exists_eq_left']
    omega

theorem nextFire_eq_some_iff (s : ProjectedChartCore) (fire : ℤ) :
    s.nextFire = some fire ↔ s.wedgesAt = some fire ∧ s.now ≤ fire := by
  have hwedged := s.wedged_iff
  unfold nextFire
  cases hat : s.wedgesAt with
  | none => simp
  | some instant =>
    rw [hat] at hwedged
    simp only [some.injEq, exists_eq_left'] at hwedged
    dsimp only
    by_cases hlt : instant < s.now
    · rw [if_pos (hwedged.mpr hlt)]
      refine iff_of_false nofun ?_
      rintro ⟨heq, hle⟩
      have hsame := some.inj heq
      omega
    · rw [if_neg (mt hwedged.mp hlt)]
      refine ⟨fun heq => ⟨heq, ?_⟩, And.left⟩
      have hsame := some.inj heq
      omega

/-- A tick fires only once the next fire has passed. -/
theorem tick_iff (s : ProjectedChartCore) (now : ℤ) : ({ s with now := now }.wedged && !s.wedged) = true ↔
      ∃ fire, s.nextFire = some fire ∧ fire < now := by
  have hbefore := s.wedged_iff
  have hafter := { s with now := now }.wedged_iff
  have hsame : { s with now := now }.wedgesAt = s.wedgesAt := rfl
  rw [hsame] at hafter
  rw [Bool.and_eq_true, Bool.not_eq_true', ← Bool.not_eq_true, hafter, hbefore]
  constructor
  · rintro ⟨⟨fire, hat, hlt⟩, hnot⟩
    refine ⟨fire, (s.nextFire_eq_some_iff fire).mpr ⟨hat, ?_⟩, hlt⟩
    by_contra hpast
    exact hnot ⟨fire, hat, not_le.mp hpast⟩
  · rintro ⟨fire, hfire, hlt⟩
    obtain ⟨hat, hle⟩ := (s.nextFire_eq_some_iff fire).mp hfire
    refine ⟨⟨fire, hat, hlt⟩, ?_⟩
    rintro ⟨fire', hat', hpast⟩
    have hsame := some.inj (hat.symm.trans hat')
    omega

/-- A chart that is wedged or cannot wedge stays so. -/
theorem nextFire_tick_of_none {s : ProjectedChartCore} {now : ℤ} (h : s.now ≤ now)
    (hnone : s.nextFire = none) : { s with now := now }.nextFire = none := by
  by_contra hsome
  obtain ⟨fire, hfire⟩ := ne_none_iff_exists'.mp hsome
  obtain ⟨hat, hle⟩ := (nextFire_eq_some_iff _ fire).mp hfire
  have hbefore := (s.nextFire_eq_some_iff fire).mpr ⟨hat, h.trans hle⟩
  rw [hnone] at hbefore
  cases hbefore

end ProjectedChartCore

end LazilyPy.Temporal

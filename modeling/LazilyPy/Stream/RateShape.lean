import LazilyPy.Lib.Chronological
import LazilyPy.Lib.Mealy

/-!
# Rate shaping

An operator decides for every input and every tick whether it emits a value. What it decides depends on the inputs since
its last emission, and on when it emitted before.
-/

namespace LazilyPy.Stream

open List

variable {T : Type}

def pushes (inputs : List (Timed T)) : List (ℤ × T) :=
  inputs.filterMap Timed.push?

theorem pushes_push (inputs : List (Timed T)) (now : ℤ) (v : T) :
    pushes (inputs ++ [.push now v]) = pushes inputs ++ [(now, v)] := by
  unfold pushes
  rw [filterMap_append]
  rfl

theorem pushes_tick (inputs : List (Timed T)) (now : ℤ) : pushes (inputs ++ [.tick now]) = pushes inputs := by
  unfold pushes
  rw [filterMap_append]
  exact append_nil _

/-! ### Debounce -/

structure DebounceCore (T : Type) where
  quiet : ℤ
  pending : Option T := none
  fireAt : ℤ := 0
  armed : Bool := false

namespace DebounceCore

def input (s : DebounceCore T) (now : ℤ) (value : T) : DebounceCore T :=
  { s with pending := some value, fireAt := now + s.quiet, armed := true }

def tick (s : DebounceCore T) (now : ℤ) : Option T × DebounceCore T :=
  if s.armed ∧ s.pending.isSome ∧ s.fireAt ≤ now then (s.pending, { s with armed := false, pending := none })
  else (none, s)

def step (s : DebounceCore T) : Timed T → Option T × DebounceCore T
  | .push now value => (none, s.input now value)
  | .tick now => s.tick now

def run (quiet : ℤ) (inputs : List (Timed T)) : DebounceCore T :=
  Mealy.after step { quiet := quiet } inputs

def unemitted (quiet : ℤ) (inputs : List (Timed T)) : List (ℤ × T) :=
  pushes (Mealy.since step { quiet := quiet } inputs)

/-- The operator waits with the latest of the inputs since the last emission. -/
structure Holds (quiet : ℤ) (latest : Option (ℤ × T)) (s : DebounceCore T) : Prop where
  quiet_eq : s.quiet = quiet
  armed : s.armed = latest.isSome
  pending : s.pending = latest.map Prod.snd
  fireAt : ∀ t v, latest = some (t, v) → s.fireAt = t + quiet

variable {quiet now : ℤ} {latest : Option (ℤ × T)} {s : DebounceCore T} {v : T}

theorem Holds.input (h : Holds quiet latest s) (now : ℤ) (v : T) : Holds quiet (some (now, v)) (s.input now v) := by
  refine ⟨h.quiet_eq, rfl, rfl, ?_⟩
  rintro _ _ ⟨⟩
  exact congrArg (now + ·) h.quiet_eq

theorem Holds.tick_eq_some_iff (h : Holds quiet latest s) :
    (s.tick now).1 = some v ↔ ∃ t, latest = some (t, v) ∧ quiet ≤ now - t := by
  have hpending := h.pending
  unfold tick
  cases hlatest : latest with
  | none =>
    rw [hlatest] at hpending
    rw [if_neg fun hc => by simp [hpending] at hc]
    exact iff_of_false nofun nofun
  | some p =>
    obtain ⟨t, w⟩ := p
    have harmed := h.armed
    have hfire := h.fireAt t w hlatest
    rw [hlatest] at hpending harmed
    rw [harmed, hpending]
    by_cases hle : s.fireAt ≤ now
    · rw [if_pos ⟨rfl, rfl, hle⟩]
      constructor
      · rintro ⟨⟩
        exact ⟨t, rfl, by omega⟩
      · rintro ⟨_, ⟨⟩, -⟩
        rfl
    · rw [if_neg fun hc => hle hc.2.2]
      refine iff_of_false nofun ?_
      rintro ⟨_, ⟨⟩, hquiet⟩
      omega

/-- A tick that emits leaves nothing to wait with, and another one changes nothing. -/
theorem Holds.tick (h : Holds quiet latest s) (now : ℤ) :
    Holds quiet (if (s.tick now).1.isSome then none else latest) (s.tick now).2 := by
  unfold DebounceCore.tick
  by_cases hc : s.armed = true ∧ s.pending.isSome = true ∧ s.fireAt ≤ now
  · rw [if_pos hc, if_pos hc.2.1]
    exact ⟨h.quiet_eq, rfl, rfl, nofun⟩
  · rw [if_neg hc]
    exact h

theorem holds_run (quiet : ℤ) (inputs : List (Timed T)) :
    Holds quiet (unemitted quiet inputs).getLast? (run quiet inputs) := by
  unfold unemitted run
  induction inputs using reverseRecOn with
  | nil => exact ⟨rfl, rfl, rfl, nofun⟩
  | append_singleton inputs input ih =>
    rw [Mealy.since_concat, Mealy.after_concat]
    cases input with
    | push now v =>
      show Holds quiet (pushes (Mealy.since step _ inputs ++ [_])).getLast? _
      rw [pushes_push, getLast?_concat]
      exact ih.input now v
    | tick now =>
      have htick := ih.tick now
      show Holds quiet (pushes (if (DebounceCore.tick _ now).1.isSome = true then [] else _)).getLast? _
      split
      next hsome => rwa [if_pos hsome] at htick
      next hnone =>
        rw [if_neg hnone] at htick
        rwa [pushes_tick]

end DebounceCore

/-! ### Throttle -/

inductive ThrottleEdge
  | leading | trailing
  deriving DecidableEq

structure ThrottleCore (T : Type) where
  edge : ThrottleEdge
  window : ℤ
  windowEnd : Option ℤ := none
  windowStart : Option ℤ := none
  pending : Option T := none

namespace ThrottleCore

def input (s : ThrottleCore T) (now : ℤ) (value : T) : Option T × ThrottleCore T :=
  if s.edge = .leading then
    if ∃ windowEnd ∈ s.windowEnd, now < windowEnd then (none, s)
    else (some value, { s with windowEnd := some (now + s.window) })
  else
    (none, { s with windowStart := some (s.windowStart.getD now), pending := some value })

def tick (s : ThrottleCore T) (now : ℤ) : Option T × ThrottleCore T :=
  if s.edge = .leading then (none, s)
  else
    match s.windowStart with
    | none => (none, s)
    | some windowStart =>
      if windowStart + s.window ≤ now ∧ s.pending.isSome then
        (s.pending, { s with windowStart := none, pending := none })
      else (none, s)

def step (s : ThrottleCore T) : Timed T → Option T × ThrottleCore T
  | .push now value => s.input now value
  | .tick now => s.tick now

def run (edge : ThrottleEdge) (window : ℤ) (inputs : List (Timed T)) : ThrottleCore T :=
  Mealy.after step { edge := edge, window := window } inputs

/-- What has been emitted, each value with the input or the tick that it was emitted at. -/
def emitted (edge : ThrottleEdge) (window : ℤ) (inputs : List (Timed T)) : List (Timed T × T) :=
  Mealy.emissions step { edge := edge, window := window } inputs

def unemitted (edge : ThrottleEdge) (window : ℤ) (inputs : List (Timed T)) : List (ℤ × T) :=
  pushes (Mealy.since step { edge := edge, window := window } inputs)

def Spaced (window : ℤ) (emissions : List (Timed T × T)) : Prop :=
  emissions.Pairwise fun e e' => e.1.time + window ≤ e'.1.time

/-- What is so of a leading throttle that has emitted `emissions`: the window that the last one has opened is the one
that ends last. -/
structure Leading (window : ℤ) (emissions : List (Timed T × T)) (s : ThrottleCore T) : Prop where
  edge : s.edge = .leading
  window_eq : s.window = window
  opened : s.windowEnd = none → emissions = []
  last : ∀ windowEnd, s.windowEnd = some windowEnd → ∃ e ∈ emissions, e.1.time + window = windowEnd
  within : ∀ windowEnd, s.windowEnd = some windowEnd → ∀ e ∈ emissions, e.1.time + window ≤ windowEnd
  spaced : Spaced window emissions

section Leading

variable {window now : ℤ} {emissions : List (Timed T × T)} {s : ThrottleCore T}

theorem Leading.open_iff (h : Leading window emissions s) :
    (∃ windowEnd ∈ s.windowEnd, now < windowEnd) ↔ ∃ e ∈ emissions, now < e.1.time + window := by
  constructor
  · rintro ⟨windowEnd, hend, hlt⟩
    obtain ⟨e, he, rfl⟩ := h.last windowEnd hend
    exact ⟨e, he, hlt⟩
  · rintro ⟨e, he, hlt⟩
    cases hend : s.windowEnd with
    | none =>
      rw [h.opened hend] at he
      cases he
    | some windowEnd => exact ⟨windowEnd, rfl, hlt.trans_le (h.within windowEnd hend e he)⟩

/-- An input passes exactly if it is in no window that an emission has opened. -/
theorem Leading.input_eq (h : Leading window emissions s) (v : T) :
    ((∃ e ∈ emissions, now < e.1.time + window) → (s.input now v).1 = none) ∧
      ((∀ e ∈ emissions, e.1.time + window ≤ now) → (s.input now v).1 = some v) := by
  unfold input
  rw [if_pos h.edge]
  refine ⟨fun hopen => ?_, fun hpassed => ?_⟩
  · rw [if_pos (h.open_iff.mpr hopen)]
  · rw [if_neg fun hopen => ?_]
    obtain ⟨e, he, hlt⟩ := h.open_iff.mp hopen
    exact absurd (hpassed e he) (not_le.mpr hlt)

theorem Leading.input (h : Leading window emissions s) (hwindow : 0 ≤ window) (v : T) :
    Leading window (emissions ++ ((s.input now v).1.map (Timed.push now v, ·)).toList) (s.input now v).2 := by
  unfold ThrottleCore.input
  rw [if_pos h.edge]
  split
  · show Leading window (emissions ++ []) s
    rwa [append_nil]
  next hclosed =>
    have hpassed : ∀ e ∈ emissions, e.1.time + window ≤ now := by
      intro e he
      by_contra hlt
      exact hclosed (h.open_iff.mpr ⟨e, he, not_le.mp hlt⟩)
    have hmem : (Timed.push now v, v) ∈ emissions ++ [(Timed.push now v, v)] :=
      mem_append_right _ (mem_singleton_self _)
    refine ⟨h.edge, h.window_eq, nofun, ?_, ?_, ?_⟩
    · rintro _ ⟨⟩
      exact ⟨_, hmem, congrArg (now + ·) h.window_eq.symm⟩
    · rintro _ ⟨⟩ e he
      have hsame := h.window_eq
      obtain he | he := mem_append.mp he
      · have hle := hpassed e he
        omega
      · obtain rfl := mem_singleton.mp he
        show now + window ≤ now + s.window
        omega
    · refine pairwise_append.mpr ⟨h.spaced, pairwise_singleton _ _, fun e he e' he' => ?_⟩
      obtain rfl := mem_singleton.mp he'
      exact hpassed e he

theorem tick_leading (h : Leading window emissions s) (now : ℤ) : s.tick now = (none, s) :=
  if_pos h.edge

theorem leading_run {window : ℤ} (hwindow : 0 ≤ window) (inputs : List (Timed T)) :
    Leading window (emitted .leading window inputs) (run .leading window inputs) := by
  unfold emitted run
  induction inputs using reverseRecOn with
  | nil => exact ⟨rfl, rfl, fun _ => rfl, nofun, nofun, Pairwise.nil⟩
  | append_singleton inputs input ih =>
    rw [Mealy.emissions_concat, Mealy.after_concat]
    cases input with
    | push now v => exact ih.input hwindow v
    | tick now =>
      show Leading window (_ ++ ((ThrottleCore.tick _ now).1.map _).toList) (ThrottleCore.tick _ now).2
      rw [tick_leading ih now]
      show Leading window (_ ++ []) _
      rwa [append_nil]

end Leading

/-- What is so of a trailing throttle at the time `t`, where `waiting` are the inputs since its last emission: the first
of them has opened the window, and the latest one is held. -/
structure Trailing (window : ℤ) (emissions : List (Timed T × T)) (waiting : List (ℤ × T)) (s : ThrottleCore T)
    (t : ℤ) : Prop where
  edge : s.edge = .trailing
  window_eq : s.window = window
  start : s.windowStart = waiting.head?.map Prod.fst
  pending : s.pending = waiting.getLast?.map Prod.snd
  before : ∀ e ∈ emissions, e.1.time ≤ t
  after : ∀ e ∈ emissions, ∀ p ∈ waiting, e.1.time ≤ p.1
  ordered : ∀ p ∈ waiting, p.1 ≤ t ∧ ∀ first ∈ waiting.head?, first.1 ≤ p.1
  spaced : Spaced window emissions

section Trailing

variable {window t now : ℤ} {emissions : List (Timed T × T)} {waiting : List (ℤ × T)} {s : ThrottleCore T} {v : T}

theorem not_leading (h : s.edge = .trailing) : ¬ s.edge = .leading := by
  rw [h]
  decide

theorem input_trailing (h : s.edge = .trailing) (now : ℤ) (v : T) :
    s.input now v = (none, { s with windowStart := some (s.windowStart.getD now), pending := some v }) :=
  if_neg (not_leading h)

theorem Trailing.tick_eq (h : Trailing window emissions waiting s t) (now : ℤ) : s.tick now =
      if ∃ first ∈ waiting.head?, first.1 + window ≤ now then
        (waiting.getLast?.map Prod.snd, { s with windowStart := none, pending := none })
      else (none, s) := by
  have hstart := h.start
  have hpending := h.pending
  unfold tick
  rw [if_neg (not_leading h.edge)]
  cases hwaiting : waiting with
  | nil =>
    rw [hwaiting] at hstart
    rw [hstart, if_neg]
    · rfl
    · rintro ⟨_, ⟨⟩, -⟩
  | cons first rest =>
    have hlast : ∃ latest, (first :: rest).getLast? = some latest :=
      ⟨_, getLast?_eq_some_getLast (cons_ne_nil first rest)⟩
    obtain ⟨latest, hlast⟩ := hlast
    rw [hwaiting] at hstart hpending
    rw [hlast] at hpending ⊢
    rw [hstart, hpending, h.window_eq]
    have hdue : (∃ p ∈ (first :: rest).head?, p.1 + window ≤ now) ↔ first.1 + window ≤ now := by
      refine ⟨?_, fun hle => ⟨first, rfl, hle⟩⟩
      rintro ⟨_, ⟨⟩, hle⟩
      exact hle
    by_cases hle : first.1 + window ≤ now
    · rw [if_pos (hdue.mpr hle)]
      exact if_pos ⟨hle, rfl⟩
    · rw [if_neg (mt hdue.mp hle)]
      exact if_neg fun hc => hle hc.1

theorem Trailing.tick_eq_some_iff (h : Trailing window emissions waiting s t) : (s.tick now).1 = some v ↔
      (∃ first ∈ waiting.head?, first.1 + window ≤ now) ∧ ∃ latest ∈ waiting.getLast?, latest.2 = v := by
  rw [h.tick_eq now]
  split
  next hdue =>
    rw [Option.map_eq_some_iff, and_iff_right hdue]
    rfl
  next hearly => exact iff_of_false nofun fun hc => hearly hc.1

theorem Trailing.input (h : Trailing window emissions waiting s t) (hle : t ≤ now) (v : T) :
    Trailing window emissions (waiting ++ [(now, v)]) (s.input now v).2 now := by
  rw [input_trailing h.edge]
  have hstart := h.start
  refine ⟨h.edge, h.window_eq, ?_, ?_, fun e he => (h.before e he).trans hle, fun e he p hp => ?_,
    fun p hp => ?_, h.spaced⟩
  · show some (s.windowStart.getD now) = _
    cases waiting with
    | nil => rw [hstart]; rfl
    | cons first rest => rw [hstart]; rfl
  · rw [getLast?_concat]
    rfl
  · obtain hp | hp := mem_append.mp hp
    · exact h.after e he p hp
    · obtain rfl := mem_singleton.mp hp
      exact (h.before e he).trans hle
  · obtain hp | hp := mem_append.mp hp
    · refine ⟨(h.ordered p hp).1.trans hle, fun first hfirst => (h.ordered p hp).2 first ?_⟩
      cases waiting with
      | nil => cases hp
      | cons first rest => exact hfirst
    · obtain rfl := mem_singleton.mp hp
      refine ⟨le_rfl, fun first hfirst => ?_⟩
      cases waiting with
      | nil => exact (congrArg Prod.fst (Option.some.inj hfirst)).ge
      | cons first' rest =>
        obtain rfl := Option.some.inj hfirst
        exact (h.ordered first' mem_cons_self).1.trans hle

theorem Trailing.tick (h : Trailing window emissions waiting s t) (hle : t ≤ now) :
    Trailing window (emissions ++ ((s.tick now).1.map (Timed.tick now, ·)).toList)
      (if (s.tick now).1.isSome then [] else waiting) (s.tick now).2 now := by
  have hbefore : ∀ e ∈ emissions, e.1.time ≤ now := fun e he => (h.before e he).trans hle
  rw [h.tick_eq now]
  split
  next hdue =>
    obtain ⟨first, hfirst, hdue⟩ := hdue
    have hmem : first ∈ waiting := mem_of_head? hfirst
    obtain ⟨latest, hlatest⟩ : ∃ latest, waiting.getLast? = some latest :=
      ⟨_, getLast?_eq_some_getLast (ne_nil_of_mem hmem)⟩
    rw [hlatest]
    show Trailing window (emissions ++ [(Timed.tick now, latest.2)]) [] _ now
    refine ⟨h.edge, h.window_eq, rfl, rfl, ?_, fun _ _ => nofun, nofun, ?_⟩
    · exact forall_mem_append.mpr ⟨hbefore, forall_mem_singleton.mpr le_rfl⟩
    · refine pairwise_append.mpr ⟨h.spaced, pairwise_singleton _ _, fun e he e' he' => ?_⟩
      obtain rfl := mem_singleton.mp he'
      -- the window has been opened after the earlier emission
      have hafter := h.after e he first hmem
      show e.1.time + window ≤ now
      omega
  · show Trailing window (emissions ++ []) waiting s now
    rw [append_nil]
    exact ⟨h.edge, h.window_eq, h.start, h.pending, hbefore, h.after,
      fun p hp => ⟨(h.ordered p hp).1.trans hle, (h.ordered p hp).2⟩, h.spaced⟩

theorem trailing_nil (window t : ℤ) :
    Trailing window (emitted .trailing window ([] : List (Timed T))) (unemitted .trailing window [])
      (run .trailing window []) t :=
  ⟨rfl, rfl, rfl, rfl, nofun, nofun, nofun, Pairwise.nil⟩

theorem trailing_run (window : ℤ) {inputs : List (Timed T)} {input : Timed T}
    (h : Chronological Timed.time (inputs ++ [input])) :
    Trailing window (emitted .trailing window (inputs ++ [input])) (unemitted .trailing window (inputs ++ [input]))
      (run .trailing window (inputs ++ [input])) input.time := by
  refine h.induction (motive := fun inputs t => Trailing window (emitted .trailing window inputs)
    (unemitted .trailing window inputs) (run .trailing window inputs) t) 0 ?_ ?_
  · exact fun t _ => trailing_nil window t
  · intro inputs t input ih hle
    unfold emitted unemitted run at ih ⊢
    rw [Mealy.emissions_concat, Mealy.since_concat, Mealy.after_concat]
    cases input with
    | push now v =>
      have hle : t ≤ now := hle
      have hinput := ih.input hle v
      have hnone := input_trailing ih.edge now v
      show Trailing window (_ ++ ((ThrottleCore.input _ now v).1.map _).toList)
        (pushes (if (ThrottleCore.input _ now v).1.isSome = true then [] else _)) (ThrottleCore.input _ now v).2 now
      rw [hnone] at hinput ⊢
      show Trailing window (_ ++ []) (pushes (_ ++ [_])) _ now
      rw [append_nil, pushes_push]
      exact hinput
    | tick now =>
      have hle : t ≤ now := hle
      have htick := ih.tick hle
      show Trailing window (_ ++ ((ThrottleCore.tick _ now).1.map _).toList)
        (pushes (if (ThrottleCore.tick _ now).1.isSome = true then [] else _)) (ThrottleCore.tick _ now).2 now
      split
      next hsome => rwa [if_pos hsome] at htick
      next hnone =>
        rw [if_neg hnone] at htick
        rwa [pushes_tick]

theorem exists_trailing (window : ℤ) {inputs : List (Timed T)} (h : Chronological Timed.time inputs) :
    ∃ t, Trailing window (emitted .trailing window inputs) (unemitted .trailing window inputs)
      (run .trailing window inputs) t := by
  cases inputs using reverseRecOn with
  | nil => exact ⟨0, trailing_nil window 0⟩
  | append_singleton inputs input => exact ⟨_, trailing_run window h⟩

/-- The latest input is emitted by a tick that is a window later. -/
theorem Trailing.emits (h : Trailing window emissions waiting s t) {at_ : ℤ}
    (hlast : waiting.getLast? = some (at_, v)) (hle : at_ + window ≤ now) : (s.tick now).1 = some v := by
  have hmem : (at_, v) ∈ waiting := mem_of_getLast? hlast
  obtain ⟨first, hfirst⟩ : ∃ first, waiting.head? = some first := ⟨_, head?_eq_some_head (ne_nil_of_mem hmem)⟩
  refine h.tick_eq_some_iff.mpr ⟨⟨first, hfirst, ?_⟩, (at_, v), hlast, rfl⟩
  have hordered := (h.ordered _ hmem).2 first hfirst
  have hstart : first.1 ≤ at_ := hordered
  omega

end Trailing

end ThrottleCore

/-! ### Sampling -/

inductive SampleKind
  | count | time
  deriving DecidableEq

structure SampleMode where
  kind : SampleKind
  param : ℤ

structure SampleCore (T : Type) where
  mode : SampleMode
  counter : ℤ
  next : ℤ
  held : Option T

namespace SampleCore

def new (mode : SampleMode) : SampleCore T where
  mode := mode
  counter := 0
  next := if mode.kind = .time then max mode.param 1 else 0
  held := none

def input (s : SampleCore T) (value : T) : Option T × SampleCore T :=
  if s.mode.kind = .count then
    let n := max s.mode.param 1
    (if (s.counter + 1) % n = 0 then some value else none, { s with counter := s.counter + 1 })
  else (none, { s with held := some value })

def tick (s : SampleCore T) (now : ℤ) : Option T × SampleCore T :=
  if s.mode.kind = .count then (none, s)
  else
    let period := max s.mode.param 1
    if now < s.next then (none, s)
    else
      let fires := (now - s.next) / period + 1
      -- what is held persists
      (s.held, { s with next := s.next + fires * period })

def step (s : SampleCore T) : Timed T → Option T × SampleCore T
  | .push _ value => s.input value
  | .tick now => s.tick now

def run (mode : SampleMode) (inputs : List (Timed T)) : SampleCore T :=
  Mealy.after step (new mode) inputs

structure ByCount (n : ℤ) (inputs : List (Timed T)) (s : SampleCore T) : Prop where
  mode : s.mode = ⟨.count, n⟩
  counter : s.counter = (pushes inputs).length

theorem byCount_run (n : ℤ) (inputs : List (Timed T)) : ByCount n inputs (run ⟨.count, n⟩ inputs) := by
  unfold run
  induction inputs using reverseRecOn with
  | nil => exact ⟨rfl, rfl⟩
  | append_singleton inputs input ih =>
    rw [Mealy.after_concat]
    generalize Mealy.after step (new ⟨.count, n⟩) inputs = s at ih
    have hkind : s.mode.kind = .count := by rw [ih.mode]
    cases input with
    | push now v =>
      show ByCount n _ (s.input v).2
      rw [input, if_pos hkind]
      refine ⟨ih.mode, ?_⟩
      show s.counter + 1 = _
      rw [pushes_push, length_append, length_singleton, ih.counter]
      rfl
    | tick now =>
      show ByCount n _ (s.tick now).2
      rw [tick, if_pos hkind]
      exact ⟨ih.mode, by rw [pushes_tick, ih.counter]⟩

variable {inputs : List (Timed T)}

/-- Every `n`-th input is emitted. -/
theorem ByCount.input_eq {n : ℤ} {s : SampleCore T} (h : ByCount n inputs s) (v : T) :
    (s.input v).1 = if max n 1 ∣ ((pushes inputs).length : ℤ) + 1 then some v else none := by
  have hkind : s.mode.kind = .count := by rw [h.mode]
  have hparam : s.mode.param = n := by rw [h.mode]
  rw [input, if_pos hkind]
  simp only [hparam, h.counter, Int.dvd_iff_emod_eq_zero]

theorem ByCount.tick_eq {n : ℤ} {s : SampleCore T} (h : ByCount n inputs s) (now : ℤ) :
    (s.tick now).1 = none := by
  have hkind : s.mode.kind = .count := by rw [h.mode]
  rw [tick, if_pos hkind]

structure ByTime (period : ℤ) (inputs : List (Timed T)) (s : SampleCore T) : Prop where
  mode : s.mode = ⟨.time, period⟩
  next : NextBoundary (max period 1) inputs s.next
  held : s.held = (inputs.filterMap Timed.elem).getLast?

theorem byTime_run (period : ℤ) (inputs : List (Timed T)) : ByTime period inputs (run ⟨.time, period⟩ inputs) := by
  unfold run
  induction inputs using reverseRecOn with
  | nil => exact ⟨rfl, nextBoundary_nil _, rfl⟩
  | append_singleton inputs input ih =>
    rw [Mealy.after_concat]
    generalize Mealy.after step (new ⟨.time, period⟩) inputs = s at ih
    have hkind : s.mode.kind ≠ .count := by rw [ih.mode]; exact nofun
    have hparam : s.mode.param = period := by rw [ih.mode]
    cases input with
    | push now v =>
      show ByTime period _ (s.input v).2
      rw [input, if_neg hkind]
      refine ⟨ih.mode, ih.next.push now v, ?_⟩
      rw [filterMap_append]
      exact getLast?_concat.symm
    | tick now =>
      have helem : (inputs ++ [Timed.tick now]).filterMap Timed.elem = inputs.filterMap Timed.elem := by
        rw [filterMap_append]
        exact append_nil _
      show ByTime period _ (s.tick now).2
      rw [tick, if_neg hkind]
      dsimp only
      split
      next hlt => exact ⟨ih.mode, ih.next.wait hlt, helem ▸ ih.held⟩
      next hlate =>
        have hle := not_lt.mp hlate
        refine ⟨ih.mode, ?_, helem ▸ ih.held⟩
        have hpos : 0 < max period 1 := by omega
        have hquot : 0 ≤ (now - s.next) / max period 1 := Int.ediv_nonneg (by omega) (by omega)
        have hdiv := Int.ediv_mul_le (now - s.next) (b := max period 1) (by omega)
        have hlt := Int.lt_ediv_add_one_mul_self (now - s.next) hpos
        have hmul : ((now - s.next) / max period 1 + 1) * max period 1 =
            (now - s.next) / max period 1 * max period 1 + max period 1 := by rw [add_mul, one_mul]
        show NextBoundary (max period 1) _ (s.next + ((now - s.next) / max s.mode.param 1 + 1) * max s.mode.param 1)
        rw [hparam]
        exact ih.next.pass hle (by omega) (by omega) (by omega)

/-- The latest input is emitted by the ticks that are the first ones not before some boundary. -/
theorem ByTime.tick_eq {period : ℤ} {s : SampleCore T} (h : ByTime period inputs s) (now : ℤ) :
    (ReachesBoundary (max period 1) inputs (.tick now) → (s.tick now).1 = (inputs.filterMap Timed.elem).getLast?) ∧
      (¬ ReachesBoundary (max period 1) inputs (.tick now) → (s.tick now).1 = none) := by
  have hkind : s.mode.kind ≠ .count := by rw [h.mode]; exact nofun
  rw [h.next.reachesBoundary_iff (le_max_right _ _), tick, if_neg hkind]
  dsimp only
  refine ⟨fun hle => ?_, fun hlt => ?_⟩
  · rw [if_neg (not_lt.mpr hle)]
    exact h.held
  · rw [if_pos (not_le.mp hlt)]

theorem ByTime.input_eq {period : ℤ} {s : SampleCore T} (h : ByTime period inputs s) (v : T) :
    (s.input v).1 = none := by
  have hkind : s.mode.kind ≠ .count := by rw [h.mode]; exact nofun
  rw [input, if_neg hkind]

end SampleCore

/-- On a clock that does not go back:
a debounce emits, at a tick, the latest of the inputs since its last emission, if it is at least `quiet` old;
the emissions of a throttle are at least a window apart, a leading one emits the inputs that are in no window of an
earlier emission, and a trailing one emits, at a tick, the latest of the inputs since its last emission, if the first of
them is at least a window old, and so if the latest one is;
sampling by count emits every `n`-th input, and by time the latest input at the ticks that are the first ones not before
some boundary. -/
theorem rates_shaped : (∀ (quiet now : ℤ) (inputs : List (Timed T)) (v : T),
      ((DebounceCore.run quiet inputs).tick now).1 = some v ↔
        ∃ t, (DebounceCore.unemitted quiet inputs).getLast? = some (t, v) ∧ quiet ≤ now - t) ∧
    (∀ (edge : ThrottleEdge) (window : ℤ) (inputs : List (Timed T)), 0 ≤ window →
      Chronological Timed.time inputs → ThrottleCore.Spaced window (ThrottleCore.emitted edge window inputs)) ∧
    (∀ (window now : ℤ) (inputs : List (Timed T)), 0 ≤ window →
      ((ThrottleCore.run .leading window inputs).tick now).1 = none ∧ ∀ v,
        ((∃ e ∈ ThrottleCore.emitted .leading window inputs, now < e.1.time + window) →
          ((ThrottleCore.run .leading window inputs).input now v).1 = none) ∧
        ((∀ e ∈ ThrottleCore.emitted .leading window inputs, e.1.time + window ≤ now) →
          ((ThrottleCore.run .leading window inputs).input now v).1 = some v)) ∧
    (∀ (window now : ℤ) (inputs : List (Timed T)), Chronological Timed.time inputs → ∀ v,
      ((ThrottleCore.run .trailing window inputs).input now v).1 = none ∧
      (((ThrottleCore.run .trailing window inputs).tick now).1 = some v ↔
        (∃ first ∈ (ThrottleCore.unemitted .trailing window inputs).head?, first.1 + window ≤ now) ∧
          ∃ latest ∈ (ThrottleCore.unemitted .trailing window inputs).getLast?, latest.2 = v) ∧
      ∀ t, (ThrottleCore.unemitted .trailing window inputs).getLast? = some (t, v) → t + window ≤ now →
        ((ThrottleCore.run .trailing window inputs).tick now).1 = some v) ∧
    (∀ (n now : ℤ) (inputs : List (Timed T)) (v : T), ((SampleCore.run ⟨.count, n⟩ inputs).input v).1 =
          (if max n 1 ∣ ((pushes inputs).length : ℤ) + 1 then some v else none) ∧
        ((SampleCore.run ⟨.count, n⟩ inputs).tick now).1 = none) ∧
    ∀ (period now : ℤ) (inputs : List (Timed T)), (∀ v, ((SampleCore.run ⟨.time, period⟩ inputs).input v).1 = none) ∧
      (ReachesBoundary (max period 1) inputs (.tick now) →
        ((SampleCore.run ⟨.time, period⟩ inputs).tick now).1 = (inputs.filterMap Timed.elem).getLast?) ∧
      (¬ ReachesBoundary (max period 1) inputs (.tick now) →
        ((SampleCore.run ⟨.time, period⟩ inputs).tick now).1 = none) := by
  refine ⟨fun quiet now inputs v => ?_, fun edge window inputs hwindow h => ?_, fun window now inputs hwindow => ?_,
    fun window now inputs h v => ?_, fun n now inputs v => ?_, fun period now inputs => ?_⟩
  · exact (DebounceCore.holds_run quiet inputs).tick_eq_some_iff
  · cases edge with
    | leading => exact (ThrottleCore.leading_run hwindow inputs).spaced
    | trailing =>
      obtain ⟨t, ht⟩ := ThrottleCore.exists_trailing window h
      exact ht.spaced
  · have hleading := ThrottleCore.leading_run hwindow inputs
    rw [ThrottleCore.tick_leading hleading]
    exact ⟨rfl, fun v => hleading.input_eq v⟩
  · obtain ⟨t, ht⟩ := ThrottleCore.exists_trailing window h
    rw [ThrottleCore.input_trailing ht.edge]
    exact ⟨rfl, ht.tick_eq_some_iff, fun _ hlast hle => ht.emits hlast hle⟩
  · exact ⟨(SampleCore.byCount_run n inputs).input_eq v, (SampleCore.byCount_run n inputs).tick_eq now⟩
  · exact ⟨(SampleCore.byTime_run period inputs).input_eq, (SampleCore.byTime_run period inputs).tick_eq now⟩

/-- A burst, and a tick at the end of the window that its first input has opened. -/
theorem rates_shaped_burst :
    ((ThrottleCore.run .trailing 10 [.push 0 'a', .tick 4, .push 7 'b']).tick 17).1 = some 'b' :=
  (rates_shaped.2.2.2.1 10 17 _ (by decide) 'b').2.2 7 (by decide) (by decide)

end LazilyPy.Stream

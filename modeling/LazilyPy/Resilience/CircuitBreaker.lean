import LazilyPy.Lib.Chronological
import LazilyPy.Lib.Loop
import LazilyPy.Lib.Throughout

/-!
# The circuit breaker

Calls ask the breaker for permission, and their outcomes are recorded in any order. What the breaker is told is only
whether a call has succeeded, not which one it was, and half-open it lets every call pass.
-/

namespace LazilyPy.Resilience

open List

inductive BreakerState
  | closed | open_ | halfOpen
  deriving DecidableEq, Repr

structure CircuitBreakerCore where
  window : ℤ
  failureThreshold : ℤ
  resetTimeout : ℤ
  state : BreakerState
  /-- True is success. -/
  outcomes : List Bool
  openUntil : ℤ
  window_pos : 1 ≤ window
  failureThreshold_pos : 1 ≤ failureThreshold
  deriving DecidableEq, Repr

namespace CircuitBreakerCore

def new (window failureThreshold resetTimeout : ℤ) : CircuitBreakerCore where
  window := max window 1
  failureThreshold := max failureThreshold 1
  resetTimeout := resetTimeout
  state := .closed
  outcomes := []
  openUntil := 0
  window_pos := le_max_right _ _
  failureThreshold_pos := le_max_right _ _

def failuresOf (outcomes : List Bool) : ℤ :=
  (outcomes.countP fun success => !success : ℕ)

def failures (s : CircuitBreakerCore) : ℤ :=
  failuresOf s.outcomes

/-- Whether a call is permitted. At the deadline the breaker becomes half-open. -/
def allow (s : CircuitBreakerCore) (now : ℤ) : Bool × CircuitBreakerCore :=
  match s.state with
  | .closed => (true, s)
  | .open_ => if s.openUntil ≤ now then (true, { s with state := .halfOpen }) else (false, s)
  | .halfOpen => (true, s)

/-- The outcome of a call. An outcome that comes while the breaker is open changes nothing. -/
def record (s : CircuitBreakerCore) (success : Bool) (now : ℤ) : CircuitBreakerCore :=
  match s.state with
  | .halfOpen =>
    if success then { s with state := .closed, outcomes := [] }
    else { s with state := .open_, openUntil := now + s.resetTimeout }
  | .closed =>
    let appended := s.outcomes ++ [success]
    let s := { s with outcomes := loop (trim s.window) appended.length appended }
    if s.failureThreshold ≤ s.failures then { s with state := .open_, openUntil := now + s.resetTimeout } else s
  | .open_ => s

theorem record_window (s : CircuitBreakerCore) (success : Bool) (now : ℤ) :
    (s.record success now).window = s.window := by
  unfold record
  split
  · split <;> rfl
  · dsimp only
    split <;> rfl
  · rfl

theorem record_failureThreshold (s : CircuitBreakerCore) (success : Bool) (now : ℤ) :
    (s.record success now).failureThreshold = s.failureThreshold := by
  unfold record
  split
  · split <;> rfl
  · dsimp only
    split <;> rfl
  · rfl

/-- A request does not end a half-open period, and begins none but at the deadline. -/
theorem allow_cases (s : CircuitBreakerCore) (now : ℤ) :
    (s.allow now).2 = s ∧ ((s.allow now).1 = true ↔ s.state ≠ .open_) ∨
      s.state = .open_ ∧ s.openUntil ≤ now ∧ s.allow now = (true, { s with state := .halfOpen }) := by
  unfold allow
  cases hstate : s.state with
  | closed => exact .inl ⟨rfl, by simp⟩
  | halfOpen => exact .inl ⟨rfl, by simp⟩
  | open_ =>
    dsimp only
    split
    next hle => exact .inr ⟨rfl, hle, rfl⟩
    next hlt => exact .inl ⟨rfl, by simp⟩

variable {s : CircuitBreakerCore}

/-- The outcomes that are left of those in the window and one more. -/
theorem record_closed (hclosed : s.state = .closed) (success : Bool) (now : ℤ) :
    (s.record success now).outcomes = (s.outcomes ++ [success]).rtake s.window.toNat ∧
      ((s.record success now).state = .open_ ↔
        s.failureThreshold ≤ failuresOf ((s.outcomes ++ [success]).rtake s.window.toNat)) ∧
      (s.record success now).state ≠ .halfOpen := by
  have hpos := s.window_pos
  unfold record failures
  rw [hclosed]
  dsimp only
  rw [loop_trim (by omega) le_rfl]
  split
  next hle => exact ⟨rfl, iff_of_true rfl hle, nofun⟩
  next hlt => exact ⟨rfl, iff_of_false nofun hlt, nofun⟩

theorem record_open (hopen : s.state = .open_) (success : Bool) (now : ℤ) :
    s.record success now = s := by
  unfold record
  rw [hopen]

theorem record_halfOpen (hhalf : s.state = .halfOpen) (success : Bool) (now : ℤ) :
    s.record success now = if success then { s with state := .closed, outcomes := [] }
      else { s with state := .open_, openUntil := now + s.resetTimeout } := by
  unfold record
  rw [hhalf]

theorem record_ne_halfOpen (s : CircuitBreakerCore) (success : Bool) (now : ℤ) :
    (s.record success now).state ≠ .halfOpen := by
  cases hstate : s.state with
  | closed => exact (record_closed hstate success now).2.2
  | open_ =>
    rw [record_open hstate, hstate]
    nofun
  | halfOpen =>
    rw [record_halfOpen hstate]
    split <;> nofun

/-- A success leaves the breaker closed with an empty window exactly if it was half-open. -/
theorem record_true_iff (s : CircuitBreakerCore) (now : ℤ) :
    (s.record true now).state = .closed ∧ (s.record true now).outcomes = [] ↔ s.state = .halfOpen := by
  cases hstate : s.state with
  | closed =>
    refine iff_of_false ?_ nofun
    rintro ⟨-, hnil⟩
    have hpos := s.window_pos
    rw [(record_closed hstate true now).1] at hnil
    have hlength := congrArg length hnil
    unfold rtake at hlength
    rw [length_drop, length_append, length_singleton, length_nil] at hlength
    omega
  | open_ =>
    rw [record_open hstate, hstate]
    exact iff_of_false nofun nofun
  | halfOpen =>
    rw [record_halfOpen hstate, if_pos rfl]
    exact iff_of_true ⟨rfl, rfl⟩ rfl

end CircuitBreakerCore

/-! ### Calls -/

/-- A caller asks for permission, or the outcome of a call is recorded. Calls have the numbers of the requests. -/
inductive Event
  | allow (now : ℤ)
  | record (call : ℕ) (success : Bool) (now : ℤ)
  deriving DecidableEq

def Event.time : Event → ℤ
  | .allow now => now
  | .record _ _ now => now

def Event.outcomeOf : Event → Option ℕ
  | .allow _ => none
  | .record call _ _ => some call

structure Calls where
  core : CircuitBreakerCore
  requests : ℕ := 0
  /-- The calls that are allowed and have no outcome yet. -/
  running : List ℕ := []
  /-- The calls whose request has made the breaker half-open. -/
  probes : List ℕ := []
  /-- The outcomes that have been recorded since the breaker closed, or since it was made. -/
  since : List Bool := []

namespace Calls

open CircuitBreakerCore

def new (window failureThreshold resetTimeout : ℤ) : Calls where
  core := .new window failureThreshold resetTimeout

def step (w : Calls) : Event → Calls
  | .allow now =>
    let r := w.core.allow now
    { w with
      core := r.2
      requests := w.requests + 1
      running := if r.1 then w.running ++ [w.requests] else w.running
      probes := if w.core.state = .open_ ∧ r.2.state = .halfOpen then w.probes ++ [w.requests] else w.probes }
  | .record call success now =>
    let core := w.core.record success now
    { w with
      core := core
      running := w.running.filter (· ≠ call)
      since :=
        if w.core.state = .closed then w.since ++ [success] else if core.state = .closed then [] else w.since }

def run (w : Calls) (events : List Event) : Calls :=
  events.foldl step w

theorem run_concat (w : Calls) (events : List Event) (e : Event) : w.run (events ++ [e]) = (w.run events).step e :=
  foldl_concat ..

def grants (w : Calls) : Event → Bool
  | .allow now => (w.core.allow now).1
  | .record _ _ _ => false

def granted (w : Calls) : List Event → ℕ
  | [] => 0
  | e :: events => (if w.grants e then 1 else 0) + granted (w.step e) events

def Sound (w : Calls) (events : List Event) : Prop :=
  Throughout (fun before e => ∀ call ∈ e.outcomeOf, call ∈ (w.run before).running) events

/-- While the breaker is open, no request before the deadline is granted. -/
def FailsFast (w : Calls) (events : List Event) : Prop :=
  Throughout (fun before e => ∀ now, e = .allow now → (w.run before).core.state = .open_ →
    now < (w.run before).core.openUntil → (w.run before).grants e = false) events

/-- From a request that makes the breaker half-open to the next outcome, at most one request is granted, that one
included. -/
def ProbesOnce (w : Calls) (events : List Event) : Prop :=
  ∀ before now during after, events = before ++ .allow now :: (during ++ after) →
    (w.run before).core.state = .open_ → ((w.run before).step (.allow now)).core.state = .halfOpen →
    (∀ call success now', .record call success now' ∉ during) →
    (w.run before).granted (.allow now :: during) ≤ 1

/-- An outcome that is recorded while the breaker is closed opens it exactly if the last `window` outcomes since it
closed have at least `failureThreshold` failures, and requests do not open it. -/
def TripsExactly (w : Calls) (events : List Event) : Prop :=
  Throughout (fun before e => (w.run before).core.state = .closed →
    (((w.run before).step e).core.state = .open_ ↔ ∃ call success now, e = .record call success now ∧
      w.core.failureThreshold ≤ failuresOf (((w.run before).since ++ [success]).rtake w.core.window.toNat))) events

/-- Once a success of a probe has been recorded, the breaker is closed and its window is empty. -/
def ProbeCloses (w : Calls) (events : List Event) : Prop :=
  Throughout (fun before e => ∀ call now, e = .record call true now → call ∈ (w.run before).probes →
    ((w.run before).step e).core.state = .closed ∧ ((w.run before).step e).core.outcomes = []) events

def Unasked (w : Calls) (events : List Event) : Prop :=
  Throughout (fun before e => ∀ now, e = .allow now → (w.run before).core.state ≠ .halfOpen) events

/-- Successes of probes are recorded while the breaker is half-open. -/
def Prompt (w : Calls) (events : List Event) : Prop :=
  Throughout (fun before e => ∀ call now, e = .record call true now → call ∈ (w.run before).probes →
    (w.run before).core.state = .halfOpen) events

variable {w : Calls} {e : Event} {events before after : List Event} {success : Bool} {now : ℤ}

/-! ### Runs -/

/-- While the breaker is closed, it has the latest of the outcomes since it closed. -/
structure Tracks (core : CircuitBreakerCore) (w : Calls) : Prop where
  window : w.core.window = core.window
  failureThreshold : w.core.failureThreshold = core.failureThreshold
  outcomes : w.core.state = .closed → w.core.outcomes = w.since.rtake core.window.toNat

theorem Tracks.step {core : CircuitBreakerCore} (h : Tracks core w) (e : Event) : Tracks core (w.step e) := by
  cases e with
  | allow now =>
    show Tracks core { w with core := (w.core.allow now).2, requests := _, running := _, probes := _ }
    obtain ⟨hsame, -⟩ | ⟨-, -, hallow⟩ := allow_cases w.core now
    · rw [hsame]
      exact ⟨h.window, h.failureThreshold, h.outcomes⟩
    · rw [hallow]
      exact ⟨h.window, h.failureThreshold, nofun⟩
  | record call success now =>
    refine ⟨(record_window ..).trans h.window, (record_failureThreshold ..).trans h.failureThreshold, ?_⟩
    intro hstate
    replace hstate : (w.core.record success now).state = .closed := hstate
    show (w.core.record success now).outcomes = rtake (if w.core.state = .closed then w.since ++ [success]
        else if (w.core.record success now).state = .closed then [] else w.since) _
    cases hbefore : w.core.state with
    | closed =>
      rw [(record_closed hbefore success now).1, h.outcomes hbefore, h.window, rtake_concat, if_pos rfl]
    | open_ =>
      rw [record_open hbefore, hbefore] at hstate
      cases hstate
    | halfOpen =>
      rw [if_neg nofun, if_pos hstate]
      rw [record_halfOpen hbefore] at hstate ⊢
      split at hstate
      next hsuccess =>
        rw [if_pos hsuccess]
        exact drop_nil.symm
      · cases hstate

theorem tracks_run {w : Calls} (hclosed : w.core.outcomes = w.since.rtake w.core.window.toNat) (events : List Event) :
    Tracks w.core (w.run events) := by
  induction events using reverseRecOn with
  | nil => exact ⟨rfl, rfl, fun _ => hclosed⟩
  | append_singleton events e ih =>
    rw [run_concat]
    exact ih.step e

theorem failsFast (w : Calls) (events : List Event) : w.FailsFast events := by
  rintro before _ after - now rfl hopen hlt
  show ((w.run before).core.allow now).1 = false
  unfold CircuitBreakerCore.allow
  rw [hopen]
  dsimp only
  rw [if_neg (not_le.mpr hlt)]

theorem tripsExactly {w : Calls} (hclosed : w.core.outcomes = w.since.rtake w.core.window.toNat) (events : List Event) :
    w.TripsExactly events := by
  rintro before e after - hstate
  have htracks := tracks_run hclosed before
  cases e with
  | allow now =>
    refine iff_of_false ?_ (by rintro ⟨_, _, _, ⟨⟩, _⟩)
    show (CircuitBreakerCore.allow _ now).2.state ≠ .open_
    obtain ⟨hsame, -⟩ | ⟨hopen, -, -⟩ := allow_cases (w.run before).core now
    · rw [hsame, hstate]
      nofun
    · rw [hstate] at hopen
      cases hopen
  | record call success now =>
    show (CircuitBreakerCore.record _ success now).state = .open_ ↔ _
    rw [(record_closed hstate success now).2.1, htracks.failureThreshold, htracks.outcomes hstate, htracks.window,
      rtake_concat]
    constructor
    · intro hle
      exact ⟨call, success, now, rfl, hle⟩
    · rintro ⟨_, _, _, ⟨⟩, hle⟩
      exact hle

theorem probeCloses_iff (w : Calls) (events : List Event) : w.ProbeCloses events ↔ w.Prompt events := by
  refine throughout_congr fun before e => ?_
  constructor
  · rintro h call now rfl hprobe
    exact ((w.run before).core.record_true_iff now).mp (h call now rfl hprobe)
  · rintro h call now rfl hprobe
    exact ((w.run before).core.record_true_iff now).mpr (h call now rfl hprobe)

/-- A half-open period has begun with a request, and there has been no outcome since. -/
theorem exists_entry {w : Calls} (hstart : w.core.state ≠ .halfOpen) (hhalf : (w.run events).core.state = .halfOpen) :
    ∃ before now during, events = before ++ .allow now :: during ∧ (w.run before).core.state = .open_ ∧
      ((w.run before).step (.allow now)).core.state = .halfOpen ∧
      ∀ call success now', .record call success now' ∉ during := by
  induction events using reverseRecOn with
  | nil => exact absurd hhalf hstart
  | append_singleton events e ih =>
    rw [run_concat] at hhalf
    cases e with
    | record call success now => exact absurd hhalf (record_ne_halfOpen _ success now)
    | allow now =>
      obtain ⟨hsame, -⟩ | ⟨hopen, -, -⟩ := allow_cases (w.run events).core now
      · have hbefore : (w.run events).core.state = .halfOpen := by rwa [← hsame]
        obtain ⟨before, now', during, rfl, hopen, hentry, hnone⟩ := ih hbefore
        refine ⟨before, now', during ++ [.allow now], by simp, hopen, hentry, ?_⟩
        intro call success t hmem
        obtain hmem | hmem := mem_append.mp hmem
        · exact hnone call success t hmem
        · cases mem_singleton.mp hmem
      · exact ⟨events, now, [], rfl, hopen, hhalf, nofun⟩

/-- While the breaker is half-open every request is granted. -/
theorem granted_halfOpen (hhalf : w.core.state = .halfOpen)
    (hnone : ∀ call success now, .record call success now ∉ events) : w.granted events = events.length := by
  induction events generalizing w with
  | nil => rfl
  | cons e events ih =>
    cases e with
    | record call success now => exact absurd (mem_cons_self ..) (hnone call success now)
    | allow now =>
      have hallow : w.core.allow now = (true, w.core) := by
        unfold CircuitBreakerCore.allow
        rw [hhalf]
      have hgrants : w.grants (.allow now) = true := congrArg Prod.fst hallow
      have hnext : (w.step (.allow now)).core.state = .halfOpen := by
        rw [← hhalf]
        exact congrArg (·.2.state) hallow
      rw [granted, hgrants, if_pos rfl, length_cons, Nat.add_comm]
      congr 1
      exact ih hnext fun call success t hmem => hnone call success t (mem_cons_of_mem _ hmem)

theorem grants_of_opens (hopen : w.core.state = .open_) (hentry : (w.step (.allow now)).core.state = .halfOpen) :
    w.grants (.allow now) = true := by
  obtain ⟨hsame, -⟩ | ⟨-, -, hallow⟩ := allow_cases w.core now
  · replace hentry : (w.core.allow now).2.state = .halfOpen := hentry
    rw [hsame, hopen] at hentry
    cases hentry
  · exact congrArg Prod.fst hallow

/-- One probe and the requests after it. -/
theorem granted_period (hopen : w.core.state = .open_) (hentry : (w.step (.allow now)).core.state = .halfOpen)
    (hnone : ∀ call success now, .record call success now ∉ events) :
    w.granted (.allow now :: events) = 1 + events.length := by
  rw [granted, grants_of_opens hopen hentry, if_pos rfl, granted_halfOpen hentry hnone]

theorem probesOnce_iff {w : Calls} (hstart : w.core.state ≠ .halfOpen) (events : List Event) :
    w.ProbesOnce events ↔ w.Unasked events := by
  constructor
  · rintro honce before _ after rfl now rfl hhalf
    obtain ⟨before, now', during, rfl, hopen, hentry, hnone⟩ := exists_entry hstart hhalf
    have hnone' : ∀ call success t, .record call success t ∉ during ++ [.allow now] := by
      intro call success t hmem
      obtain hmem | hmem := mem_append.mp hmem
      · exact hnone call success t hmem
      · cases mem_singleton.mp hmem
    have hle := honce before now' (during ++ [.allow now]) after (by simp) hopen hentry hnone'
    rw [granted_period hopen hentry hnone', length_append, length_singleton] at hle
    omega
  · rintro hunasked before now during after rfl hopen hentry hnone
    rw [granted_period hopen hentry hnone]
    cases during with
    | nil => exact le_rfl
    | cons e during =>
      cases e with
      | record call success t => exact absurd (mem_cons_self ..) (hnone call success t)
      | allow t =>
        refine absurd ?_ (hunasked (before ++ [.allow now]) (.allow t) (during ++ after) (by simp) t rfl)
        rwa [run_concat]

end Calls

open Calls

/-- The breaker does what it should in exactly those runs in which nothing is asked of it while it is half-open, and the
success of a probe comes while it still is. -/
theorem breaker_iff (window failureThreshold resetTimeout : ℤ) (events : List Event) :
    (FailsFast (.new window failureThreshold resetTimeout) events ∧
        ProbesOnce (.new window failureThreshold resetTimeout) events ∧
        TripsExactly (.new window failureThreshold resetTimeout) events ∧
        ProbeCloses (.new window failureThreshold resetTimeout) events) ↔
      Unasked (.new window failureThreshold resetTimeout) events ∧
        Prompt (.new window failureThreshold resetTimeout) events := by
  have honce := probesOnce_iff (w := .new window failureThreshold resetTimeout) nofun events
  have hcloses := probeCloses_iff (.new window failureThreshold resetTimeout) events
  constructor
  · rintro ⟨-, h, -, h'⟩
    exact ⟨honce.mp h, hcloses.mp h'⟩
  · rintro ⟨h, h'⟩
    exact ⟨failsFast _ events, honce.mpr h, tripsExactly drop_nil.symm events, hcloses.mpr h'⟩

/-- The breaker opens at the first failure. At the deadline two calls are allowed. -/
theorem breaker_probes : ¬ ∀ (window failureThreshold resetTimeout : ℤ) (events : List Event),
    Chronological Event.time events → Sound (.new window failureThreshold resetTimeout) events →
      FailsFast (.new window failureThreshold resetTimeout) events ∧
        ProbesOnce (.new window failureThreshold resetTimeout) events ∧
        TripsExactly (.new window failureThreshold resetTimeout) events ∧
        ProbeCloses (.new window failureThreshold resetTimeout) events := by
  intro h
  have hsound : Sound (.new 1 1 10) [.allow 0, .record 0 false 0, .allow 10, .allow 10] := by
    unfold Sound
    decide
  obtain ⟨-, honce, -⟩ := h 1 1 10 _ (by decide) hsound
  have hle := honce [.allow 0, .record 0 false 0] 10 [.allow 10] [] rfl (by decide) (by decide) (by simp)
  revert hle
  decide

end LazilyPy.Resilience

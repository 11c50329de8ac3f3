import LazilyPy.Async.Frame

/-!
# The flush tasks of an effect

As long as an effect has not been disposed of, at most one of its tasks has not ended, and the handle has it. A
task that has begun runs one flush, which comes to the head of its loop whenever the body ends.
-/

namespace LazilyPy.Async

open Option Function

namespace Effect.AsyncEffect

variable {s s' : AsyncEffect} {k : ℕ}

/-- The flush `k` comes to the head of its loop: it goes on if something is pending, and returns otherwise. -/
structure Fires (k : ℕ) (s s' : AsyncEffect) : Prop where
  nextFlush : s'.nextFlush = s.nextFlush
  state : s'.state ≠ .disposed
  pending : s'.pending = false
  flushes : ∃ point, s'.flushes = update s.flushes k point ∧ (s.pending = false → point = none) ∧
    (s.pending = true → point = some .body ∨ ∃ task, point = some (.cleaning task))

section

variable (hstate : s.state ≠ .disposed)

include hstate

theorem fires_fire (k : ℕ) : Fires k s (s.fire k) := by
  rw [fire]
  by_cases hpending : s.pending = true
  · rw [if_pos ⟨hpending, hstate⟩]
    dsimp only
    cases s.cleanup with
    | some cleanup =>
      refine ⟨rfl, ?_, rfl, some (.cleaning s.nextTask), rfl, fun hp => ?_, fun _ => .inr ⟨_, rfl⟩⟩
      · show EffectState.cleanupRunning ≠ .disposed
        decide
      · rw [hpending] at hp
        cases hp
    | none =>
      refine ⟨rfl, hstate, rfl, some .body, rfl, fun hp => ?_, fun _ => .inl rfl⟩
      rw [hpending] at hp
      cases hp
  · rw [if_neg fun hand => hpending hand.1]
    exact ⟨rfl, hstate, Bool.not_eq_true _ ▸ hpending, none, rfl, fun _ => rfl, fun hp => absurd hp hpending⟩

theorem fires_keepCleanup (k : ℕ) (cleanup : Option ℕ) :
    Fires k s (s.keepCleanup k cleanup) := by
  have hnew : (if s.pending then EffectState.scheduled else .idle) ≠ .disposed := by
    split
    · decide
    · decide
  have heq : s.keepCleanup k cleanup = { s with
      cleanup := cleanup
      state := if s.pending then .scheduled else .idle }.fire k := if_neg hstate
  rw [heq]
  obtain ⟨hnext, hstate', hpending, hflushes⟩ := fires_fire (s := { s with
    cleanup := cleanup
    state := if s.pending then .scheduled else .idle }) hnew k
  exact ⟨hnext, hstate', hpending, hflushes⟩

/-- A body ends. -/
theorem fires_endBody (hk : s.flushes k = some .body) (returns : Bool) :
    Fires k s (s.endBody k returns) := by
  rw [endBody, hk]
  dsimp only
  split
  · obtain ⟨hnext, hstate', hpending, hflushes⟩ := fires_keepCleanup
      (s := { s with nextCleanup := s.nextCleanup + 1 }.see (.bodyEnd (some s.nextCleanup))) hstate k
      (some s.nextCleanup)
    exact ⟨hnext, hstate', hpending, hflushes⟩
  · obtain ⟨hnext, hstate', hpending, hflushes⟩ := fires_keepCleanup (s := s.see (.bodyEnd none)) hstate k none
    exact ⟨hnext, hstate', hpending, hflushes⟩

/-- A flush begins. -/
theorem fires_flush :
    Fires s.nextFlush { s with nextFlush := s.nextFlush + 1 } s.flush :=
  fires_fire (s := { s with nextFlush := s.nextFlush + 1 }) hstate s.nextFlush

/-- After the cleanup comes the body. -/
theorem resumeFlush_cases (k : ℕ) : s.resumeFlush k = s ∨
    ∃ t, s.flushes k = some (.cleaning t) ∧ (s.resumeFlush k).flushes k = some .body := by
  rw [resumeFlush]
  split
  next t hk =>
    split
    · dsimp only
      rw [if_neg hstate]
      exact .inr ⟨t, hk, update_self ..⟩
    · exact .inl rfl
  next => exact .inl rfl

end

/-- The task of a cleanup changes nothing of the flushes. -/
theorem beginTask_eq (t : ℕ) (s : AsyncEffect) :
    s.beginTask t = { s with tasks := (s.beginTask t).tasks, log := (s.beginTask t).log } := by
  rw [beginTask]
  split
  · rfl
  · rfl

theorem endTask_eq (t : ℕ) (s : AsyncEffect) :
    s.endTask t = { s with tasks := (s.endTask t).tasks, log := (s.endTask t).log } := by
  rw [endTask]
  split
  · rfl
  · rfl

end Effect.AsyncEffect

namespace Context

open Effect (AsyncEffect)
open Effect.AsyncEffect

variable {I V : Type}

/-- A task of an effect has not begun, or a flush has not returned. -/
def Busy (E : AsyncEffect) (tasks : ℕ) : Prop :=
  E.nextFlush < tasks ∨ ∃ j, E.flushes j ≠ none

/-- The tasks of an effect that has not been disposed of. The handle has the one that has not ended, and no body
runs but that of a flush. -/
structure Tended (E : AsyncEffect) (task : Option ℕ) (tasks : ℕ) (runs : ℕ → Option (Phase I V Bool)) : Prop where
  state : E.state ≠ .disposed
  created : ∀ t, task = some t → t < tasks
  begun : E.nextFlush ≤ tasks
  waiting : E.nextFlush < tasks → tasks = E.nextFlush + 1 ∧ task = some E.nextFlush
  alone : ∀ j p, E.flushes j = some p → j < E.nextFlush ∧ task = some j ∧ ∀ c, p ≠ .releasing c
  runs : ∀ j, runs j ≠ none → E.flushes j = some .body

namespace Tended

variable {E E' : AsyncEffect} {task : Option ℕ} {tasks j k : ℕ} {runs runs' : ℕ → Option (Phase I V Bool)}

theorem init : Tended {} none 0 (fun _ => (none : Option (Phase I V Bool))) where
  state := nofun
  created := nofun
  begun := le_rfl
  waiting h := absurd h (Nat.lt_irrefl 0)
  alone := nofun
  runs _ h := absurd rfl h

section

variable (h : Tended E task tasks runs)

include h

/-- The handle has no task that is not done when no task is. -/
theorem settled_iff :
    (∀ t ∈ task, t < E.nextFlush ∧ E.flushes t = none) ↔ ¬ Busy E tasks := by
  constructor
  · rintro hdone (hlt | ⟨j, hj⟩)
    · have hself := (hdone _ (h.waiting hlt).2).1
      omega
    · obtain ⟨p, hp⟩ := ne_none_iff_exists'.mp hj
      exact hj (hdone j (h.alone j p hp).2.1).2
  · intro hbusy t ht
    have hlt := h.created t ht
    refine ⟨?_, ?_⟩
    · by_contra hle
      exact hbusy (.inl (by omega))
    · by_contra hne
      exact hbusy (.inr ⟨t, hne⟩)

/-- One flush at a time. -/
theorem eq_of_flushes (hj : E.flushes j ≠ none) (hk : E.flushes k ≠ none) : j = k := by
  obtain ⟨p, hp⟩ := ne_none_iff_exists'.mp hj
  obtain ⟨q, hq⟩ := ne_none_iff_exists'.mp hk
  exact some.inj ((h.alone j p hp).2.1.symm.trans (h.alone k q hq).2.1)

/-- What changes neither the state nor the flushes. -/
theorem congr (hstate : E'.state ≠ .disposed) (hnext : E'.nextFlush = E.nextFlush)
    (hflushes : E'.flushes = E.flushes) : Tended E' task tasks runs where
  state := hstate
  created := h.created
  begun := hnext ▸ h.begun
  waiting := hnext ▸ h.waiting
  alone j p hp := hnext ▸ h.alone j p (hflushes ▸ hp)
  runs j hj := hflushes ▸ h.runs j hj

/-- The flush `k` goes on to another point, or returns. -/
theorem move (hk : E.flushes k ≠ none) (hstate : E'.state ≠ .disposed) (hnext : E'.nextFlush = E.nextFlush)
    {point : Option Effect.FlushPoint} (hflushes : E'.flushes = update E.flushes k point)
    (hpoint : ∀ c, point ≠ some (.releasing c))
    (hruns : ∀ j, runs' j ≠ none → j ≠ k ∧ runs j ≠ none ∨ j = k ∧ point = some .body) :
    Tended E' task tasks runs' where
  state := hstate
  created := h.created
  begun := hnext ▸ h.begun
  waiting := hnext ▸ h.waiting
  alone j p hp := by
    rw [hflushes] at hp
    rw [hnext]
    by_cases hj : j = k
    · subst hj
      rw [update_self] at hp
      obtain ⟨q, hq⟩ := ne_none_iff_exists'.mp hk
      obtain ⟨hlt, htask, -⟩ := h.alone j q hq
      exact ⟨hlt, htask, fun c hc => hpoint c (hp.trans (congrArg some hc))⟩
    · rw [update_of_ne hj] at hp
      exact h.alone j p hp
  runs j hj := by
    rw [hflushes]
    obtain ⟨hne, hrun⟩ | ⟨rfl, rfl⟩ := hruns j hj
    · rw [update_of_ne hne]
      exact h.runs j hrun
    · exact update_self ..

/-- The flush `k` comes to the head of its loop. -/
theorem fires (hk : E.flushes k ≠ none) (hf : Fires k E E') (hruns : ∀ j, runs' j ≠ none → j ≠ k ∧ runs j ≠ none) :
    Tended E' task tasks runs' := by
  obtain ⟨point, hflushes, hquiet, hgoes⟩ := hf.flushes
  refine h.move hk hf.state hf.nextFlush hflushes (fun c hc => ?_) fun j hj => .inl (hruns j hj)
  cases hp : E.pending with
  | false => cases (hquiet hp).symm.trans hc
  | true =>
    obtain rfl | ⟨t, rfl⟩ := hgoes hp
    · cases hc
    · cases hc

/-- A task that has not begun is alone. -/
theorem idle_of_lt (hlt : E.nextFlush < tasks) (j : ℕ) : E.flushes j = none := by
  by_contra hj
  obtain ⟨p, hp⟩ := ne_none_iff_exists'.mp hj
  obtain ⟨hj, htask, -⟩ := h.alone j p hp
  have heq : E.nextFlush = j := some.inj ((h.waiting hlt).2.symm.trans htask)
  omega

end

/-- A task begins. -/
theorem flush (h : Tended E task tasks runs) (hlt : E.nextFlush < tasks) : Tended E.flush task tasks runs := by
  obtain ⟨hnext, hstate, -, point, hflushes, hquiet, hgoes⟩ := fires_flush h.state
  obtain ⟨htasks, htask⟩ := h.waiting hlt
  have hnext' : E.flush.nextFlush = E.nextFlush + 1 := hnext
  have hflushes' : E.flush.flushes = update E.flushes E.nextFlush point := hflushes
  have hnone := h.idle_of_lt hlt
  refine ⟨hstate, h.created, by omega, fun hlt' => by omega, fun j p hp => ?_, fun j hj => ?_⟩
  · rw [hflushes'] at hp
    rw [hnext']
    by_cases hj : j = E.nextFlush
    · subst hj
      rw [update_self] at hp
      refine ⟨Nat.lt_succ_self _, htask, ?_⟩
      rintro c rfl
      cases hpending : E.pending with
      | false => cases (hquiet hpending).symm.trans hp
      | true =>
        obtain rfl | ⟨t, rfl⟩ := hgoes hpending
        · cases hp
        · cases hp
    · rw [update_of_ne hj, hnone] at hp
      cases hp
  · cases (hnone j).symm.trans (h.runs j hj)

theorem resumeFlush (h : Tended E task tasks runs) (k : ℕ) : Tended (E.resumeFlush k) task tasks runs := by
  rw [AsyncEffect.resumeFlush]
  split
  next t hk =>
    split
    · dsimp only
      rw [if_neg h.state]
      refine h.move (by rw [hk]; nofun) h.state rfl rfl nofun fun j hj => ?_
      refine .inl ⟨?_, hj⟩
      rintro rfl
      cases hk.symm.trans (h.runs j hj)
    · exact h
  next => exact h

/-- No cleanup is released before the effect is disposed of. -/
theorem endRelease_eq (h : Tended E task tasks runs) (k : ℕ) : E.endRelease k = E := by
  rw [AsyncEffect.endRelease]
  split
  next c hk => exact absurd rfl ((h.alone k _ hk).2.2 c)
  next => rfl

theorem invalidate (h : Tended E task tasks runs) : Tended E.invalidate task tasks runs := by
  rw [AsyncEffect.invalidate, if_neg h.state]
  refine h.congr ?_ rfl rfl
  show (if E.state = .cleanupRunning then Effect.EffectState.cleanupRunningScheduled else .scheduled) ≠ _
  split
  · decide
  · decide

theorem beginTask (h : Tended E task tasks runs) (t : ℕ) : Tended (E.beginTask t) task tasks runs := by
  rw [beginTask_eq]
  exact h.congr h.state rfl rfl

theorem endTask (h : Tended E task tasks runs) (t : ℕ) : Tended (E.endTask t) task tasks runs := by
  rw [endTask_eq]
  exact h.congr h.state rfl rfl

/-- A task is created when none is left. -/
theorem create (h : Tended E task tasks runs) (hidle : ¬ Busy E tasks) : Tended E (some tasks) (tasks + 1) runs := by
  have hnext : E.nextFlush = tasks := by
    have hle := h.begun
    have hnot : ¬ E.nextFlush < tasks := fun hlt => hidle (.inl hlt)
    omega
  refine ⟨h.state, fun t ht => ?_, by omega, fun _ => ⟨by omega, by rw [hnext]⟩, fun j p hp => ?_, h.runs⟩
  · rw [← some.inj ht]
    exact Nat.lt_succ_self tasks
  · exact absurd (.inr ⟨j, by rw [hp]; nofun⟩) hidle

/-- Outside of an event loop the handle has no task. -/
theorem forget (h : Tended E task tasks runs) (hidle : ¬ Busy E tasks) : Tended E none tasks runs :=
  ⟨h.state, nofun, h.begun, fun hlt => absurd (.inl hlt) hidle,
    fun j p hp => absurd (.inr ⟨j, by rw [hp]; nofun⟩) hidle, h.runs⟩

end Tended

namespace AsyncContext

variable {s s' : AsyncContext I V} {e : I} {d : Handle I} {task : Option ℕ} {j : ℕ} {P : Program I V}

/-- The tasks of an effect fit together, and `task` is the one that has not ended. -/
def TendedBy (task : Option ℕ) (e : I) (s : AsyncContext I V) : Prop :=
  Tended (s.effect e) task (s.flushTasks e) (s.effectRuns e)

/-- The tasks of an effect fit together, and the handle has the one that has not ended. -/
def Attended (e : I) (s : AsyncContext I V) : Prop :=
  s.TendedBy (s.flushTask e) e

theorem Attended.settled_iff (h : s.Attended e) : s.Settled e ↔ ¬ Busy (s.effect e) (s.flushTasks e) :=
  Tended.settled_iff h

theorem TendedBy.spares (h : s.TendedBy task e) (hs : Spares e s s') : s'.TendedBy task e := by
  unfold TendedBy
  rw [hs.effect, hs.flushTasks, hs.effectRuns]
  exact h

theorem Attended.spares (h : s.Attended e) (hs : Spares e s s') : s'.Attended e := by
  unfold Attended
  rw [hs.flushTask]
  exact TendedBy.spares h hs

theorem Attended.of_advances (h : s.Attended e) (ha : Advances d s s') : s'.Attended e := by
  unfold Attended
  rw [ha.rest]
  exact h

variable [DecidableEq I]

/-! ### Turns -/

theorem TendedBy.onEffect (h : s.TendedBy task e) {f : AsyncEffect → AsyncEffect}
    (hf : ∀ {runs : ℕ → Option (Phase I V Bool)} {tasks : ℕ}, Tended (s.effect e) task tasks runs →
      Tended (f (s.effect e)) task tasks runs) : (s.onEffect e f).TendedBy task e := by
  have heffect : (s.onEffect e f).effect e = f (s.effect e) := update_self ..
  unfold TendedBy
  rw [heffect]
  exact hf h

/-- A run of the body is kept, or it goes on. -/
theorem TendedBy.setEffectRun (h : s.TendedBy task e) (hj : (s.effect e).flushes j = some .body)
    (phase : Phase I V Bool) : (s.setEffectRun e j (some phase)).TendedBy task e := by
  have hruns : (s.setEffectRun e j (some phase)).effectRuns e = update (s.effectRuns e) j (some phase) := update_self ..
  unfold TendedBy
  rw [hruns]
  refine ⟨Tended.state h, Tended.created h, Tended.begun h, Tended.waiting h, Tended.alone h, fun i hi => ?_⟩
  by_cases hij : i = j
  · rw [hij]
    exact hj
  · rw [update_of_ne hij] at hi
    exact Tended.runs h i hi

/-- The body of a flush stops. -/
theorem TendedBy.finishEffect (h : s.TendedBy task e) (hj : (s.effect e).flushes j = some .body)
    (stop : Stop I V Bool) : (Context.AsyncContext.finishEffect e j (stop, s)).TendedBy task e := by
  have hend (returns : Bool) : TendedBy task e (({ s with
      executions := update s.executions e (s.executions e + 1) }.setEffectRun e j none).onEffect e
        (AsyncEffect.endBody j returns)) := by
    have hfires := fires_endBody (Tended.state h) hj returns
    have hclear : Tended ((s.effect e).endBody j returns) task (s.flushTasks e)
        (update (s.effectRuns e) j none) := by
      refine Tended.fires h (by rw [hj]; nofun) hfires fun i hi => ?_
      by_cases hij : i = j
      · rw [hij, update_self] at hi
        exact absurd rfl hi
      · rw [update_of_ne hij] at hi
        exact ⟨hij, hi⟩
    unfold TendedBy AsyncContext.onEffect AsyncContext.setEffectRun
    simpa only [update_self] using hclear
  cases stop with
  | returned returns => exact hend returns
  | raised => exact hend false
  | stopped phase => exact h.setEffectRun hj phase

/-! ### Reruns -/

/-- A rerun is queued, and a task is created for it if the handle has none. -/
theorem schedule_cases (hlive : s.disposed (.effect e) = false) : (s.onEffect e AsyncEffect.invalidate).Settled e ∧
        s.schedule e = (s.onEffect e AsyncEffect.invalidate).createFlush e ∨
      ¬ (s.onEffect e AsyncEffect.invalidate).Settled e ∧ s.schedule e = s.onEffect e AsyncEffect.invalidate := by
  rw [schedule, if_neg (by rw [hlive]; simp)]
  by_cases hsettled : (s.onEffect e AsyncEffect.invalidate).Settled e
  · exact .inl ⟨hsettled, if_pos hsettled⟩
  · exact .inr ⟨hsettled, if_neg hsettled⟩

theorem Attended.createFlush (h : s.Attended e) (hsettled : s.Settled e) : (s.createFlush e).Attended e := by
  have hidle := h.settled_iff.mp hsettled
  unfold AsyncContext.createFlush Attended TendedBy
  split
  · have hcreate := Tended.create h hidle
    simpa only [update_self] using hcreate
  · have hforget := Tended.forget h hidle
    simpa only [update_self] using hforget

theorem Attended.invalidate (h : s.Attended e) : (s.onEffect e AsyncEffect.invalidate).Attended e :=
  TendedBy.onEffect (f := AsyncEffect.invalidate) h fun ht => ht.invalidate

theorem Attended.schedule (h : s.Attended e) : (s.schedule e).Attended e := by
  by_cases hlive : s.disposed (.effect e) = true
  · rwa [AsyncContext.schedule, if_pos hlive]
  · obtain ⟨hsettled, heq⟩ | ⟨-, heq⟩ := schedule_cases (Bool.not_eq_true _ ▸ hlive)
    · rw [heq]
      exact h.invalidate.createFlush hsettled
    · rw [heq]
      exact h.invalidate

end AsyncContext

end Context

end LazilyPy.Async

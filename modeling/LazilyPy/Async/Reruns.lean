import LazilyPy.Async.Tasks

/-!
# Reruns that are queued

A rerun that is queued while a loop runs has a task, and a task that has not ended takes up whatever is queued.
Between a change of a source that an effect has read and its next run, a rerun is pending.
-/

namespace LazilyPy.Async.Context

open List Function

open Effect (AsyncEffect)
open Effect.AsyncEffect

variable {I V : Type}

def Due (E : AsyncEffect) (runs : ℕ → Option (Phase I V Bool)) : Prop :=
  E.pending = true ∨ ∃ j, (∃ t, E.flushes j = some (.cleaning t)) ∨ E.flushes j = some .body ∧ runs j = none

namespace AsyncContext

variable {s s' : AsyncContext I V} {e id : I} {x : Handle I} {k j : ℕ} {P : Program I V}
  {Q Q' : List (Handle I)} {p : I × V}

/-- What an effect has read from a source is current, or the change is in the queue `Q`. -/
def Minds (e : I) (Q : List (Handle I)) (s : AsyncContext I V) (p : I × V) : Prop :=
  (s.value p.1 = p.2 ∧ ((.source p.1, .effect e) ∈ s.dependents ∨ s.disposed (.source p.1) = true)) ∨
    .source p.1 ∈ Q ∧ (.source p.1, .effect e) ∈ s.dependents

/-- No rerun of an effect is lost: a pending one has a task, and what the last run has read is current unless the
body is about to run again. -/
structure Heeded (e : I) (Q : List (Handle I)) (s : AsyncContext I V) : Prop where
  attended : s.Attended e
  pending : (s.effect e).pending = true → Busy (s.effect e) (s.flushTasks e)
  begun : e ∈ s.effects → 0 < s.executions e ∨ Due (s.effect e) (s.effectRuns e) ∨
    ∃ j, (s.effect e).flushes j = some .body
  reads : ∀ p ∈ s.reads e, Due (s.effect e) (s.effectRuns e) ∨ s.Minds e Q p

def Manned (e : I) (s : AsyncContext I V) : Prop :=
  s.running = true ∨ ¬ s.Settled e

theorem Minds.spares (h : s.Minds e Q p) (hs : Spares e s s') : s'.Minds e Q p := by
  unfold Minds
  rw [hs.value, hs.sources, hs.edges]
  exact h

/-- What the reruns of an effect rest on. -/
theorem Heeded.congr (h : Heeded e Q s) (hattended : s'.Attended e) (heffect : s'.effect e = s.effect e)
    (htasks : s'.flushTasks e = s.flushTasks e) (hruns : s'.effectRuns e = s.effectRuns e)
    (heffects : e ∈ s'.effects → e ∈ s.effects) (hexecutions : s'.executions e = s.executions e)
    (hreads : s'.reads e = s.reads e) (hminds : ∀ p, s.Minds e Q p → s'.Minds e Q' p) : Heeded e Q' s' := by
  refine ⟨hattended, ?_, fun he => ?_, fun p hp => ?_⟩
  · rw [heffect, htasks]
    exact h.pending
  · rw [heffect, hexecutions, hruns]
    exact h.begun (heffects he)
  · rw [heffect, hruns]
    rw [hreads] at hp
    exact (h.reads p hp).imp_right (hminds p)

theorem Minds.mono (h : s.Minds e Q p) (hQ : ∀ x ∈ Q, x ∈ Q') : s.Minds e Q' p :=
  h.imp_right fun h => ⟨hQ _ h.1, h.2⟩

theorem Heeded.mono (h : Heeded e Q s) (hQ : ∀ x ∈ Q, x ∈ Q') : Heeded e Q' s :=
  ⟨h.attended, h.pending, h.begun, fun p hp => (h.reads p hp).imp_right fun hm => hm.mono hQ⟩

theorem Heeded.spares (h : Heeded e Q s) (hs : Spares e s s') : Heeded e Q s' :=
  h.congr (h.attended.spares hs) hs.effect hs.flushTasks hs.effectRuns hs.effects.mp hs.executions hs.reads
    fun _ hm => hm.spares hs

/-- A pending rerun that has a task is enough. -/
theorem heeded_of_pending (h : s.Attended e) (hpending : (s.effect e).pending = true)
    (hbusy : Busy (s.effect e) (s.flushTasks e)) : Heeded e Q s :=
  ⟨h, fun _ => hbusy, fun _ => .inr (.inl (.inl hpending)), fun _ _ => .inl (.inl hpending)⟩

theorem Heeded.not_settled (h : Heeded e Q s) (hpending : (s.effect e).pending = true) : ¬ s.Settled e :=
  fun hsettled => h.attended.settled_iff.mp hsettled (h.pending hpending)

theorem Manned.spares (h : s.Manned e) (hs : Spares e s s') : s'.Manned e := by
  unfold Manned Settled FlushDone
  rw [hs.running, hs.flushTask, hs.effect]
  exact h

/-! ### Walks -/

section Walks

variable [DecidableEq I]

/-- What is queued where a task takes it up is heeded. -/
theorem heeded_schedule (h : s.Attended e) (hlive : s.disposed (.effect e) = false) (hman : s.Manned e) :
    Heeded e Q (s.schedule e) ∧ ((s.schedule e).effect e).pending = true := by
  have heffect : (s.onEffect e AsyncEffect.invalidate).effect e = (s.effect e).invalidate := update_self ..
  have hinvalidate : (s.effect e).invalidate.pending = true ∧
      (s.effect e).invalidate.nextFlush = (s.effect e).nextFlush ∧
        (s.effect e).invalidate.flushes = (s.effect e).flushes := by
    rw [AsyncEffect.invalidate, if_neg (Tended.state h)]
    exact ⟨rfl, rfl, rfl⟩
  obtain ⟨hsettled, heq⟩ | ⟨hsettled, heq⟩ := schedule_cases hlive
  · -- the handle had no task, so that the loop is running
    have hrunning : (s.onEffect e AsyncEffect.invalidate).running = true := by
      refine hman.resolve_right fun hnot => hnot ?_
      unfold Settled FlushDone at hsettled ⊢
      rwa [heffect, hinvalidate.2.1, hinvalidate.2.2] at hsettled
    have hidle := h.invalidate.settled_iff.mp hsettled
    have hcreate : (s.schedule e).effect e = (s.effect e).invalidate ∧
        (s.schedule e).flushTasks e = s.flushTasks e + 1 := by
      rw [heq, createFlush, if_pos hrunning]
      exact ⟨heffect, update_self ..⟩
    have hpending : ((s.schedule e).effect e).pending = true := by
      rw [hcreate.1]
      exact hinvalidate.1
    refine ⟨heeded_of_pending h.schedule hpending (.inl ?_), hpending⟩
    have hle := Tended.begun h
    rw [hcreate.1, hcreate.2, hinvalidate.2.1]
    omega
  · have hpending : ((s.schedule e).effect e).pending = true := by
      rw [heq, heffect]
      exact hinvalidate.1
    refine ⟨heeded_of_pending h.schedule hpending ?_, hpending⟩
    rw [heq]
    by_contra hidle
    exact hsettled (h.invalidate.settled_iff.mpr hidle)

/-- A walk comes to a handle: if it is the effect, a rerun is pending. -/
theorem heeded_notify (h : Heeded e Q s) (hlive : s.disposed (.effect e) = false)
    (hman : x = .effect e → s.Manned e) : Heeded e Q (s.notify x) ∧ (s.Manned e → (s.notify x).Manned e) ∧
        (x = .effect e ∨ (s.effect e).pending = true → ((s.notify x).effect e).pending = true) := by
  by_cases hx : x = .effect e
  · subst hx
    obtain ⟨hheeded, hpending⟩ := heeded_schedule (Q := Q) h.attended hlive (hman rfl)
    exact ⟨hheeded, fun _ => .inr (hheeded.not_settled hpending), fun _ => hpending⟩
  · have hspares := spares_notify hx s
    refine ⟨h.spares hspares, fun hman => hman.spares hspares, fun hor => ?_⟩
    rw [hspares.effect]
    exact hor.resolve_left hx

theorem heeded_foldl_notify {l : List (Handle I)} (h : Heeded e Q s) (hlive : s.disposed (.effect e) = false)
    (hman : .effect e ∈ l → s.Manned e) : Heeded e Q (l.foldl notify s) ∧ (s.Manned e → (l.foldl notify s).Manned e) ∧
        (.effect e ∈ l ∨ (s.effect e).pending = true → ((l.foldl notify s).effect e).pending = true) := by
  induction l generalizing s with
  | nil => exact ⟨h, id, fun hor => hor.resolve_left not_mem_nil⟩
  | cons x l ih =>
    obtain ⟨hheeded, hkeeps, hpending⟩ := heeded_notify h hlive (x := x) fun hx => hman (hx ▸ mem_cons_self)
    have hlive' : (s.notify x).disposed (.effect e) = false := by
      rw [notified_notify x s]
      exact hlive
    obtain ⟨hheeded', hkeeps', hpending'⟩ := ih hheeded hlive' fun hmem =>
      hkeeps (hman (mem_cons_of_mem _ hmem))
    refine ⟨hheeded', fun hman => hkeeps' (hkeeps hman), fun hor => hpending' ?_⟩
    obtain hmem | hp := hor
    · obtain hx | hmem := mem_cons.mp hmem
      · exact .inr (hpending (.inl hx.symm))
      · exact .inl hmem
    · exact .inr (hpending (.inr hp))

/-- A walk takes a handle from the queue: if the effect has read it, a rerun is pending. -/
theorem heeded_walk (h : Heeded e (x :: Q) s) (hlive : s.disposed (.effect e) = false)
    (hx : ∀ id, x ≠ .effect id) (hman : s.Reaches x (.effect e) → s.Manned e) :
    Heeded e Q ((s.walk [x]).tail.foldl notify s) ∧ (s.Manned e → ((s.walk [x]).tail.foldl notify s).Manned e) := by
  have hmem : .effect e ∈ (s.walk [x]).tail ↔ s.Reaches x (.effect e) :=
    mem_tail_walk_iff.trans (and_iff_right fun heq => hx e heq.symm)
  obtain ⟨hheeded, hkeeps, hpending⟩ := heeded_foldl_notify h hlive fun hin => hman (hmem.mp hin)
  have hedges : ((s.walk [x]).tail.foldl notify s).dependents = s.dependents := by
    rw [notified_foldl (fun s h => notified_notify h s) (s.walk [x]).tail s]
  refine ⟨⟨hheeded.attended, hheeded.pending, hheeded.begun, fun p hp => ?_⟩, hkeeps⟩
  obtain hdue | hcurrent | ⟨hqueue, hedge⟩ := hheeded.reads p hp
  · exact .inl hdue
  · exact .inr (.inl hcurrent)
  · obtain heq | hqueue := mem_cons.mp hqueue
    · refine .inl (.inl (hpending (.inl (hmem.mpr (.single ?_)))))
      rw [hedges, heq] at hedge
      exact (mem_successors hx).mpr hedge
    · exact .inr (.inr ⟨hqueue, hedge⟩)

/-- Walks take the queue of a batch. -/
theorem heeded_foldl_invalidateDependents (h : Heeded e Q s) (hlive : s.disposed (.effect e) = false)
    (hdepth : s.depth = 0) (hQ : ∀ x ∈ Q, ∀ id, x ≠ .effect id)
    (hman : ∀ x ∈ Q, s.Reaches x (.effect e) → s.Manned e) :
    Heeded e [] (Q.foldl (fun s x => s.invalidateDependents x) s) := by
  induction Q generalizing s with
  | nil => exact h
  | cons x Q ih =>
    rw [forall_mem_cons] at hQ hman
    rw [foldl_cons, invalidateDependents_of_depth hdepth]
    obtain ⟨hheeded, hkeeps⟩ := heeded_walk h hlive hQ.1 hman.1
    have hstep := notified_foldl (fun s h => notified_notify h s) (s.walk [x]).tail s
    generalize (s.walk [x]).tail.foldl notify s = s' at hheeded hkeeps hstep
    have hreaches (y : Handle I) : s'.Reaches y (.effect e) ↔ s.Reaches y (.effect e) := by
      rw [hstep]
      rfl
    refine ih hheeded ?_ ?_ hQ.2 fun y hy hr => hkeeps (hman.2 y hy ((hreaches y).mp hr))
    · rw [hstep]
      exact hlive
    · rw [hstep]
      exact hdepth

end Walks

/-! ### Operations -/

/-- No rerun of an effect is lost, whatever is in the queue `Q`, as long as it has not been disposed of. -/
structure Watched (e : I) (Q : List (Handle I)) (s : AsyncContext I V) : Prop where
  heeded : s.disposed (.effect e) = false → Heeded e Q s
  effects : e ∈ s.effects → s.disposed (.effect e) = false
  disposers : ∀ k t, s.disposers k = some (e, t) → s.disposed (.effect e) = true
  idle : s.depth = 0 → s.batchQueue = []
  queue : ∀ x ∈ s.batchQueue, ∀ id, x ≠ .effect id

theorem watched_init (value : I → V) : Watched e [] ({ value := value } : AsyncContext I V) where
  heeded _ := ⟨.init, nofun, nofun, nofun⟩
  effects := nofun
  disposers := nofun
  idle _ := rfl
  queue := nofun

theorem Watched.spares (h : Watched e Q s) (hs : Spares e s s') : Watched e Q s' where
  heeded hlive := (h.heeded (hs.disposed.symm.trans hlive)).spares hs
  effects he := hs.disposed.trans (h.effects (hs.effects.mp he))
  disposers k t hk := hs.disposed.trans (h.disposers k t ((hs.disposers k t).mp hk))
  idle hdepth := hs.batchQueue.trans (h.idle (hs.depth.symm.trans hdepth))
  queue := hs.batchQueue ▸ h.queue

/-- A step that disposes of nothing and queues nothing in a batch. -/
theorem Watched.steady (h : Watched e Q s) (hheeded : s.disposed (.effect e) = false → Heeded e Q' s')
    (hdisposed : s'.disposed (.effect e) = s.disposed (.effect e)) (heffects : s'.effects = s.effects)
    (hdisposers : s'.disposers = s.disposers) (hdepth : s'.depth = s.depth)
    (hqueue : s'.batchQueue = s.batchQueue) : Watched e Q' s' where
  heeded hlive := hheeded (hdisposed.symm.trans hlive)
  effects he := hdisposed.trans (h.effects (heffects ▸ he))
  disposers k t hk := hdisposed.trans (h.disposers k t (hdisposers ▸ hk))
  idle hzero := hqueue.trans (h.idle (hdepth.symm.trans hzero))
  queue := hqueue ▸ h.queue

section Operations

variable [DecidableEq I]

/-- A change is announced, or queued in a batch. -/
theorem watched_invalidateDependents (h : Watched e (x :: s.batchQueue) s) (hx : ∀ id, x ≠ .effect id)
    (hman : s.depth = 0 → s.Reaches x (.effect e) → s.Manned e) :
    Watched e (s.invalidateDependents x).batchQueue (s.invalidateDependents x) := by
  by_cases hdepth : s.depth = 0
  · have hstep := notified_invalidateDependents x s
    have hqueue : (s.invalidateDependents x).batchQueue = [] := by
      rw [invalidateDependents_of_depth hdepth, batchQueue_foldl_notify]
      exact h.idle hdepth
    have hheeded : s.disposed (.effect e) = false → Heeded e [] (s.invalidateDependents x) := by
      intro hlive
      have hold := h.heeded hlive
      rw [h.idle hdepth] at hold
      rw [invalidateDependents_of_depth hdepth]
      exact (heeded_walk hold hlive hx (hman hdepth)).1
    rw [hqueue]
    generalize s.invalidateDependents x = s' at hstep hqueue hheeded
    refine h.steady hheeded ?_ ?_ ?_ ?_ (hqueue.trans (h.idle hdepth).symm)
    all_goals rw [hstep]
  · rw [invalidateDependents, if_pos (by omega)]
    refine ⟨fun hlive => ?_, h.effects, h.disposers, fun hzero => absurd hzero hdepth, fun y hy => ?_⟩
    · have hold : Heeded e (s.batchQueue ++ [x]) s := (h.heeded hlive).mono fun y hy => ?_
      · exact ⟨hold.attended, hold.pending, hold.begun, hold.reads⟩
      · rw [mem_append, mem_singleton]
        exact (mem_cons.mp hy).symm
    · obtain hy | hy := mem_append.mp hy
      · exact h.queue y hy
      · rw [mem_singleton.mp hy]
        exact hx

/-- A source is written. What has been read from it has an edge. -/
theorem watched_value (h : Watched e Q s) (hdisposed : ¬ s.disposed (.source id) = true) (value : V) :
    Watched e (.source id :: Q) { s with value := update s.value id value } := by
  refine h.steady (fun hlive => ?_) rfl rfl rfl rfl rfl
  have hheeded := h.heeded hlive
  refine hheeded.congr hheeded.attended rfl rfl rfl (fun he => he) rfl rfl fun p hp => ?_
  obtain ⟨hvalue, hedge⟩ | ⟨hqueue, hedge⟩ := hp
  · by_cases hp : p.1 = id
    · have hedge := hedge.resolve_right fun hd => hdisposed (hp ▸ hd)
      exact .inr ⟨hp ▸ mem_cons_self, hedge⟩
    · exact .inl ⟨(update_of_ne hp ..).trans hvalue, hedge⟩
  · exact .inr ⟨mem_cons_of_mem _ hqueue, hedge⟩

section

variable (h : Watched e s.batchQueue s)

include h

theorem watched_exitBatch (hman : s.depth = 1 → (∃ x ∈ s.batchQueue, s.Reaches x (.effect e)) → s.Manned e) :
    Watched e s.exitBatch.batchQueue s.exitBatch := by
  rw [exitBatch]
  split
  · exact h
  next hdepth =>
    have hstep := notified_foldl (fun s x => notified_invalidateDependents x s) s.batchQueue.eraseDups
      { s with depth := 0, batchQueue := [] }
    obtain ⟨hqueue, hzero⟩ := queue_foldl_invalidateDependents s.batchQueue.eraseDups
      (s := { s with depth := 0, batchQueue := [] }) rfl
    have hheeded : s.disposed (.effect e) = false → Heeded e [] (s.batchQueue.eraseDups.foldl
        (fun s x => s.invalidateDependents x) { s with depth := 0, batchQueue := [] }) := by
      intro hlive
      have hold : Heeded e s.batchQueue.eraseDups s := (h.heeded hlive).mono fun x hx => mem_eraseDups.mpr hx
      have hstart : Heeded e s.batchQueue.eraseDups { s with depth := 0, batchQueue := [] } :=
        ⟨hold.attended, hold.pending, hold.begun, hold.reads⟩
      refine heeded_foldl_invalidateDependents hstart hlive rfl ?_ fun x hx hr => ?_
      · exact fun x hx => h.queue x (mem_eraseDups.mp hx)
      · exact hman hdepth ⟨x, mem_eraseDups.mp hx, hr⟩
    rw [hqueue]
    generalize s.batchQueue.eraseDups.foldl (fun s x => s.invalidateDependents x)
      { s with depth := 0, batchQueue := [] } = s' at hstep hqueue hzero hheeded
    refine ⟨fun hlive => hheeded ?_, fun he => ?_, fun k t hk => ?_, fun _ => hqueue, ?_⟩
    · rwa [hstep] at hlive
    · rw [hstep] at he ⊢
      exact h.effects he
    · rw [hstep] at hk ⊢
      exact h.disposers k t hk
    · rw [hqueue]
      simp
  next d hdepth =>
    refine ⟨fun hlive => ?_, h.effects, h.disposers, (by simp), h.queue⟩
    have hold := h.heeded hlive
    exact ⟨hold.attended, hold.pending, hold.begun, hold.reads⟩

theorem watched_effectAsync (hman : id = e ∧ e ∉ s.effects → s.Manned e) :
    Watched e (s.effectAsync id).batchQueue (s.effectAsync id) := by
  rw [effectAsync]
  split
  · exact h
  next hnew =>
    obtain ⟨hnot, hlive⟩ := not_or.mp hnew
    rw [batchQueue_schedule]
    show Watched e s.batchQueue _
    by_cases hid : id = e
    · subst hid
      have hlive : s.disposed (.effect id) = false := by simpa using hlive
      have hattended : Attended id { s with effects := s.effects ++ [id] } := (h.heeded hlive).attended
      have hheeded := (heeded_schedule (Q := s.batchQueue) hattended hlive (hman ⟨rfl, hnot⟩)).1
      have hstep := notified_schedule id { s with effects := s.effects ++ [id] }
      have hqueue := batchQueue_schedule id { s with effects := s.effects ++ [id] }
      generalize ({ s with effects := s.effects ++ [id] } : AsyncContext I V).schedule id = s' at *
      have hdisposed : s'.disposed = s.disposed := by rw [hstep]
      refine ⟨fun _ => hheeded, fun _ => ?_, fun k t hk => ?_, fun hzero => hqueue.trans (h.idle ?_), ?_⟩
      · rw [hdisposed, hlive]
      · rw [hdisposed]
        rw [hstep] at hk
        exact h.disposers k t hk
      · rw [hstep] at hzero
        exact hzero
      · rw [hqueue]
        exact h.queue
    · have hadd : Spares e s { s with effects := s.effects ++ [id] } := by
        refine ⟨rfl, fun _ => rfl, rfl, rfl, rfl, rfl, ?_, rfl, rfl, rfl, rfl, rfl, rfl, rfl, fun _ => .rfl,
          fun _ _ => .rfl⟩
        simp [Ne.symm hid]
      exact h.spares (hadd.trans (spares_schedule (Ne.symm hid) _))

theorem watched_disposeComputed :
    Watched e (s.disposeComputed id).batchQueue (s.disposeComputed id) := by
  rw [disposeComputed]
  split
  · exact h
  · dsimp only
    have hmark (y : Handle I) (hy : y ≠ .computed id) :
        update s.disposed (.computed id) true y = s.disposed y := update_of_ne hy ..
    have hcut : Watched e s.batchQueue ((({ s with
        disposed := update s.disposed (.computed id) true }.detach (.computed id)).popDependents
          (.computed id)).hardClear id) := by
      refine h.steady (fun hlive => ?_) (hmark (.effect e) (by simp)) rfl rfl rfl rfl
      have hheeded := h.heeded hlive
      refine hheeded.congr hheeded.attended rfl rfl rfl (fun he => he) rfl rfl fun p hp => ?_
      have hedge : (.source p.1, .effect e) ∈ s.dependents → (.source p.1, .effect e) ∈
          (({ s with disposed := update s.disposed (.computed id) true }.detach
            (.computed id)).popDependents (.computed id)).dependents := by
        intro hmem
        have hsource : Handle.source p.1 ≠ .computed id := (by simp)
        have hcomputed : Handle.computed id ≠ .effect e := (by simp)
        exact mem_dependents_popDependents.mpr ⟨((spares_detach hcomputed _).edges _).mpr hmem, hsource⟩
      refine hp.imp (fun hcurrent => ⟨hcurrent.1, ?_⟩) fun hqueue => ⟨hqueue.1, hedge hqueue.2⟩
      exact hcurrent.2.imp hedge fun hd => (hmark (.source p.1) (by simp)).trans hd
    have hspares := spares_dirtyDisposedDependents e (({ s with
        disposed := update s.disposed (.computed id) true }.detach (.computed id)).dependentsOf
          (.computed id)) ((({ s with
        disposed := update s.disposed (.computed id) true }.detach (.computed id)).popDependents
          (.computed id)).hardClear id)
    rw [hspares.batchQueue]
    exact hcut.spares hspares

/-- A source that is disposed of is written no more. -/
theorem watched_disposeSource (hqueue : .source id ∉ s.batchQueue) :
    Watched e (s.disposeSource id).batchQueue (s.disposeSource id) := by
  rw [disposeSource]
  split
  · exact h
  · dsimp only
    have hmark (y : Handle I) (hy : y ≠ .source id) :
        update s.disposed (.source id) true y = s.disposed y := update_of_ne hy ..
    have hcut : Watched e s.batchQueue ({ s with
        disposed := update s.disposed (.source id) true }.popDependents (.source id)) := by
      refine h.steady (fun hlive => ?_) (hmark (.effect e) (by simp)) rfl rfl rfl rfl
      have hheeded := h.heeded hlive
      refine hheeded.congr hheeded.attended rfl rfl rfl (fun he => he) rfl rfl fun p hp => ?_
      have hedge : p.1 ≠ id → (.source p.1, .effect e) ∈ s.dependents → (.source p.1, .effect e) ∈
          ({ s with disposed := update s.disposed (.source id) true }.popDependents
            (.source id)).dependents :=
        fun hne hmem => mem_dependents_popDependents.mpr ⟨hmem, fun heq => hne (Handle.source.inj heq)⟩
      obtain ⟨hvalue, hor⟩ | ⟨hin, hmem⟩ := hp
      · refine .inl ⟨hvalue, ?_⟩
        by_cases hp : p.1 = id
        · refine .inr ?_
          rw [hp]
          exact update_self ..
        · refine hor.imp (hedge hp) fun hd => (hmark (.source p.1) ?_).trans hd
          exact fun heq => hp (Handle.source.inj heq)
      · refine .inr ⟨hin, hedge (fun hp => hqueue ?_) hmem⟩
        rwa [← hp]
    have hspares := spares_dirtyDisposedDependents e ({ s with
        disposed := update s.disposed (.source id) true }.dependentsOf (.source id)) ({ s with
        disposed := update s.disposed (.source id) true }.popDependents (.source id))
    rw [hspares.batchQueue]
    exact hcut.spares hspares

/-- Whether an operation queues a rerun of the effect `e`. -/
def Schedules [BEq V] (e : I) (s : AsyncContext I V) : Op I V → Prop
  | .set id value => s.disposed (.source id) = false ∧ (value == s.value id) = false ∧ s.depth = 0 ∧
      s.Reaches (.source id) (.effect e)
  | .invalidate id => s.depth = 0 ∧ s.Reaches (.computed id) (.effect e)
  | .exitBatch => s.depth = 1 ∧ ∃ x ∈ s.batchQueue, s.Reaches x (.effect e)
  | .effectAsync id => id = e ∧ e ∉ s.effects
  | _ => False

/-- A rerun of `e` is queued only where a task takes it up, and no source is disposed of whose change is queued in
a batch. -/
def Allows [BEq V] (e : I) (s : AsyncContext I V) : Event I V → Prop
  | .op (.disposeSource id) => .source id ∉ s.batchQueue
  | .op op => s.Schedules e op → s.Manned e
  | .turn _ => True

theorem watched_apply [BEq V] (op : Op I V) (hallows : s.Allows e (.op op)) :
    Watched e (s.apply op).batchQueue (s.apply op) := by
  cases op with
  | set id value =>
    show Watched e (s.set id value).batchQueue (s.set id value)
    rw [set]
    split
    · exact h
    next hdisposed =>
      split
      · exact h
      next hne =>
        refine watched_invalidateDependents (watched_value h hdisposed value) (by simp) fun hdepth hr => ?_
        exact hallows ⟨Bool.not_eq_true _ ▸ hdisposed, Bool.not_eq_true _ ▸ hne, hdepth, hr⟩
  | invalidate id =>
    have hspares := spares_onSlot e id (fun r => { r with slot := r.slot.invalidate }) s
    have hslot : Watched e (.computed id :: s.batchQueue) (s.invalidateSlot id) := by
      have hold := h.spares hspares
      exact ⟨fun hlive => (hold.heeded hlive).mono fun _ hx => mem_cons_of_mem _ hx, hold.effects,
        hold.disposers, hold.idle, hold.queue⟩
    exact watched_invalidateDependents hslot (by simp) fun hdepth hr => hallows ⟨hdepth, hr⟩
  | hardClear id => exact h.spares (spares_onSlot e id (fun r => { r with slot := r.slot.hardClear }) s)
  | enterBatch =>
    refine ⟨fun hlive => ?_, h.effects, h.disposers, (by rintro ⟨⟩), h.queue⟩
    have hold := h.heeded hlive
    exact ⟨hold.attended, hold.pending, hold.begun, hold.reads⟩
  | exitBatch => exact watched_exitBatch h fun hdepth hr => hallows ⟨hdepth, hr⟩
  | effectAsync id => exact watched_effectAsync h fun hnew => hallows hnew
  | disposeComputed id => exact watched_disposeComputed h
  | disposeSource id => exact watched_disposeSource h hallows
  | startLoop | stopLoop =>
    refine h.steady (fun hlive => ?_) rfl rfl rfl rfl rfl
    have hold := h.heeded hlive
    exact ⟨hold.attended, hold.pending, hold.begun, hold.reads⟩

end

end Operations

/-! ### Turns -/

section Turns

variable [DecidableEq I]

/-- A turn of an effect that concerns its lifecycle only. -/
theorem Heeded.onEffect (h : Heeded e Q s) {f : AsyncEffect → AsyncEffect}
    (hattended : Tended (f (s.effect e)) (s.flushTask e) (s.flushTasks e) (s.effectRuns e))
    (hpending : (f (s.effect e)).pending = true → Busy (f (s.effect e)) (s.flushTasks e))
    (hdue : Due (s.effect e) (s.effectRuns e) → Due (f (s.effect e)) (s.effectRuns e))
    (hbody : (∃ j, (s.effect e).flushes j = some .body) → Due (f (s.effect e)) (s.effectRuns e) ∨
      ∃ j, (f (s.effect e)).flushes j = some .body) : Heeded e Q (s.onEffect e f) := by
  have heffect : (s.onEffect e f).effect e = f (s.effect e) := update_self ..
  refine ⟨?_, ?_, fun he => ?_, fun p hp => ?_⟩
  · unfold Attended TendedBy
    rw [heffect]
    exact hattended
  · rw [heffect]
    exact hpending
  · rw [heffect]
    obtain hrun | hrun | hrun := h.begun he
    · exact .inl hrun
    · exact .inr (.inl (hdue hrun))
    · exact .inr (hbody hrun)
  · rw [heffect]
    exact (h.reads p hp).imp_left hdue

theorem heeded_startFlush (h : Heeded e Q s) : Heeded e Q (s.startFlush e) := by
  rw [startFlush]
  split
  next hlt =>
    have hidle := Tended.idle_of_lt h.attended hlt
    obtain ⟨-, -, hpending, point, hflushes, -, hgoes⟩ := fires_flush (Tended.state h.attended)
    have hself : (s.effect e).flush.flushes (s.effect e).nextFlush = point := by
      rw [hflushes]
      exact update_self ..
    refine h.onEffect (Tended.flush h.attended hlt) (fun hp => ?_) (fun hdue => ?_) fun hrest => ?_
    · rw [hpending] at hp
      cases hp
    · obtain hp | ⟨j, ⟨t, hj⟩ | ⟨hj, -⟩⟩ := hdue
      · obtain hbody | ⟨t, hcleaning⟩ := hgoes hp
        · refine .inr ⟨_, .inr ⟨hself.trans hbody, ?_⟩⟩
          by_contra hrun
          cases (hidle _).symm.trans (Tended.runs h.attended _ hrun)
        · exact .inr ⟨_, .inl ⟨t, hself.trans hcleaning⟩⟩
      · cases (hidle j).symm.trans hj
      · cases (hidle j).symm.trans hj
    · obtain ⟨j, hj⟩ := hrest
      cases (hidle j).symm.trans hj
  · exact h

theorem heeded_resumeFlush (h : Heeded e Q s) (k : ℕ) : Heeded e Q (s.onEffect e (AsyncEffect.resumeFlush k)) := by
  have hattended := Tended.resumeFlush h.attended k
  obtain heq | ⟨t, hk, hbody⟩ := resumeFlush_cases (Tended.state h.attended) k
  · refine h.onEffect hattended ?_ ?_ ?_
    all_goals rw [heq]
    · exact h.pending
    · exact id
    · exact .inr
  · have hdue : Due ((s.effect e).resumeFlush k) (s.effectRuns e) := by
      refine .inr ⟨k, .inr ⟨hbody, ?_⟩⟩
      by_contra hrun
      cases hk.symm.trans (Tended.runs h.attended k hrun)
    exact h.onEffect hattended (fun _ => .inr ⟨k, by rw [hbody]; nofun⟩) (fun _ => hdue) fun _ => .inl hdue

theorem heeded_beginTask (h : Heeded e Q s) (t : ℕ) : Heeded e Q (s.onEffect e (AsyncEffect.beginTask t)) := by
  refine h.onEffect (Tended.beginTask h.attended t) ?_ ?_ ?_
  all_goals rw [beginTask_eq]
  · exact h.pending
  · exact id
  · exact .inr

theorem heeded_endTask (h : Heeded e Q s) (t : ℕ) : Heeded e Q (s.onEffect e (AsyncEffect.endTask t)) := by
  refine h.onEffect (Tended.endTask h.attended t) ?_ ?_ ?_
  all_goals rw [endTask_eq]
  · exact h.pending
  · exact id
  · exact .inr

theorem heeded_endRelease (h : Heeded e Q s) (k : ℕ) : Heeded e Q (s.onEffect e (AsyncEffect.endRelease k)) := by
  have heq := Tended.endRelease_eq h.attended k
  refine h.onEffect ?_ ?_ ?_ ?_
  all_goals rw [heq]
  · exact h.attended
  · exact h.pending
  · exact id
  · exact .inr

/-- The body of an effect stops: what it has read is current unless a rerun is pending. -/
theorem heeded_finishEffect (hattended : s.Attended e) (hj : (s.effect e).flushes j = some .body)
    (hreads : ∀ p ∈ s.reads e, (s.effect e).pending = true ∨ s.Minds e Q p) (stop : Stop I V Bool) :
    Heeded e Q (finishEffect e j (stop, s)) := by
  have hfinish (returns : Bool) : Heeded e Q (({ s with
      executions := update s.executions e (s.executions e + 1) }.setEffectRun e j none).onEffect e
        (AsyncEffect.endBody j returns)) := by
    have hfires := fires_endBody (Tended.state hattended) hj returns
    generalize hs' : ({ s with
      executions := update s.executions e (s.executions e + 1) }.setEffectRun e j none).onEffect e
        (AsyncEffect.endBody j returns) = s'
    have heffect : s'.effect e = (s.effect e).endBody j returns := by
      rw [← hs']
      exact update_self ..
    have hruns : s'.effectRuns e = update (s.effectRuns e) j none := by
      rw [← hs']
      exact update_self ..
    have hexecutions : s'.executions e = s.executions e + 1 := by
      rw [← hs']
      exact update_self ..
    obtain ⟨point, hflushes, -, hgoes⟩ := hfires.flushes
    have hself : ((s.effect e).endBody j returns).flushes j = point := by
      rw [hflushes]
      exact update_self ..
    refine ⟨?_, ?_, fun _ => .inl (by omega), fun p hp => ?_⟩
    · have htended := TendedBy.finishEffect hattended hj (.returned returns)
      rw [← hs']
      exact htended
    · rw [heffect, hfires.pending]
      nofun
    · rw [heffect, hruns]
      have hp' : p ∈ s.reads e := by
        rw [← hs'] at hp
        exact hp
      refine (hreads p hp').imp (fun hpending => ?_) fun hm => ?_
      · obtain hbody | ⟨t, hcleaning⟩ := hgoes hpending
        · exact .inr ⟨j, .inr ⟨hself.trans hbody, update_self ..⟩⟩
        · exact .inr ⟨j, .inl ⟨t, hself.trans hcleaning⟩⟩
      · rw [← hs']
        exact hm
  cases stop with
  | returned returns => exact hfinish returns
  | raised => exact hfinish false
  | stopped phase =>
    refine ⟨TendedBy.setEffectRun hattended hj phase, fun _ => .inr ⟨j, ?_⟩,
      fun _ => .inr (.inr ⟨j, hj⟩), fun p hp => ?_⟩
    · show (s.effect e).flushes j ≠ none
      rw [hj]
      nofun
    · exact (hreads p hp).imp_left .inl

/-- The body of an effect goes on: what it reads is current, and has an edge. -/
theorem heeded_advance (hl : s.Linked) (hattended : s.Attended e) (hj : (s.effect e).flushes j = some .body)
    (hreads : ∀ p ∈ s.reads e, (s.effect e).pending = true ∨ s.Minds e Q p) (body : Body I V Bool) :
    Heeded e Q (finishEffect e j (advance (.effect e) body s)) := by
  have hregisters := registers_advance hl e body
  generalize advance (.effect e) body s = r at hregisters ⊢
  obtain ⟨stop, s'⟩ := r
  have ha : Advances (.effect e) s s' := hregisters.advances
  have heffect : s'.effect e = s.effect e := by rw [ha.rest]
  refine heeded_finishEffect (hattended.of_advances ha) (by rw [heffect, hj]) (fun p hp => ?_) stop
  obtain hold | ⟨hvalue, hedge⟩ := hregisters.reads p hp
  · rw [heffect]
    refine (hreads p hold).imp_right fun hm => ?_
    unfold Minds
    rw [ha.value, ha.disposed]
    exact hm.imp (fun hc => ⟨hc.1, hc.2.imp_left fun hedge => ha.subset hedge⟩) fun hq =>
      ⟨hq.1, ha.subset hq.2⟩
  · exact .inr (.inl ⟨by rwa [ha.value], .inl hedge⟩)

theorem heeded_startBody (hl : s.Linked) (h : Heeded e Q s) (hlive : s.disposed (.effect e) = false) (j : ℕ) :
    Heeded e Q (s.startBody P e j) := by
  rw [startBody]
  split
  next hstart =>
    rw [if_neg (by rw [hlive]; simp)]
    have hnone : update s.reads e [] e = [] := update_self ..
    have hl' : Linked ({ s with reads := update s.reads e [] }.countStart (.effect e)) := hl
    refine heeded_advance (hl'.detach _) h.attended hstart.1 (fun p hp => ?_) _
    have hp' : p ∈ update s.reads e [] e := hp
    rw [hnone] at hp'
    cases hp'
  · exact h

theorem heeded_resumeEffect (hl : s.Linked) (h : Heeded e Q s) (j : ℕ) : Heeded e Q (s.resumeEffect e j) := by
  rw [resumeEffect]
  split
  next rest hrun =>
    have hne : s.effectRuns e j ≠ none := by
      rw [hrun]
      simp
    have hj := Tended.runs h.attended j hne
    refine heeded_advance hl h.attended hj (fun p hp => (h.reads p hp).imp_left fun hdue => ?_) rest
    -- the run is that of the only flush
    obtain hpending | ⟨i, hi⟩ := hdue
    · exact hpending
    · have hi' : (s.effect e).flushes i ≠ none := by
        obtain ⟨t, hi⟩ | ⟨hi, -⟩ := hi
        · rw [hi]
          simp
        · rw [hi]
          simp
      obtain rfl := Tended.eq_of_flushes h.attended hi' (by rw [hj]; simp)
      obtain ⟨t, hi⟩ | ⟨-, hi⟩ := hi
      · cases hi.symm.trans hj
      · exact absurd hi hne
  · exact h

theorem heeded_wakeEffect (h : Heeded e Q s) (j : ℕ) : Heeded e Q (s.wakeEffect e j) := by
  rw [wakeEffect]
  split
  next dep future k hrun =>
    have hspares := spares_await e dep future s
    have hheeded := h.spares hspares
    have hne : (s.await dep future).2.effectRuns e j ≠ none := by
      rw [hspares.effectRuns, hrun]
      simp
    dsimp only
    generalize (s.await dep future).2 = s' at hheeded hne ⊢
    generalize afterWait dep k (s.await dep future).1 = phase
    have hruns : (s'.setEffectRun e j (some phase)).effectRuns e =
        update (s'.effectRuns e) j (some phase) := update_self ..
    have hdue : Due (s'.effect e) (s'.effectRuns e) →
        Due (s'.effect e) ((s'.setEffectRun e j (some phase)).effectRuns e) := by
      rintro (hpending | ⟨i, hi⟩)
      · exact .inl hpending
      · refine .inr ⟨i, hi.imp_right fun hi => ⟨hi.1, ?_⟩⟩
        rw [hruns, update_of_ne, hi.2]
        rintro rfl
        exact hne hi.2
    have hattended := TendedBy.setEffectRun hheeded.attended (Tended.runs hheeded.attended j hne) phase
    refine ⟨hattended, hheeded.pending, fun he => ?_, fun p hp => (hheeded.reads p hp).imp_left hdue⟩
    exact (hheeded.begun he).imp_right fun hor => hor.imp_left hdue
  · exact h

structure Proceeds (s s' : AsyncContext I V) : Prop where
  disposed : s'.disposed = s.disposed
  effects : s'.effects = s.effects
  disposers : s'.disposers = s.disposers
  depth : s'.depth = s.depth
  batchQueue : s'.batchQueue = s.batchQueue

omit [DecidableEq I] in
theorem Watched.proceeds (h : Watched e s.batchQueue s) (hs : Proceeds s s')
    (hheeded : s.disposed (.effect e) = false → Heeded e s.batchQueue s') : Watched e s'.batchQueue s' := by
  rw [hs.batchQueue]
  exact h.steady hheeded (by rw [hs.disposed]) hs.effects hs.disposers hs.depth hs.batchQueue

theorem proceeds_finishEffect (e : I) (j : ℕ) (h : Handle I) (body : Body I V Bool) (s : AsyncContext I V) :
    Proceeds s (finishEffect e j (advance h body s)) := by
  have ha := advances h body s
  have hf := finishes_effect e j (advance h body s)
  generalize finishEffect e j (advance h body s) = s' at hf
  refine ⟨?_, ?_, ?_, ?_, ?_⟩
  all_goals rw [hf, ha.rest]

omit [DecidableEq I] in
/-- Nothing is asked of an effect that has been disposed of. -/
theorem Watched.of_disposed (h : Watched e Q s) (hdisposed : s'.disposed (.effect e) = true)
    (heffects : e ∉ s'.effects) (hdepth : s'.depth = s.depth) (hqueue : s'.batchQueue = s.batchQueue) :
    Watched e Q' s' where
  heeded hlive := by
    rw [hdisposed] at hlive
    cases hlive
  effects he := absurd he heffects
  disposers _ _ _ := hdisposed
  idle hzero := hqueue.trans (h.idle (hdepth.symm.trans hzero))
  queue := hqueue ▸ h.queue

/-- The effect is disposed of with the call of `dispose_async`. -/
theorem disposeAsync_spec (id : I) (s : AsyncContext I V) :
    (s.disposeAsync id).disposed = update s.disposed (.effect id) true ∧
      (s.disposeAsync id).effects = s.effects.filter (· ≠ id) ∧ (s.disposeAsync id).depth = s.depth ∧
        (s.disposeAsync id).batchQueue = s.batchQueue := by
  rw [disposeAsync]
  split
  · split
    · rw [disposeEffect, afterDispose_eq]
      exact ⟨rfl, rfl, rfl, rfl⟩
    · exact ⟨rfl, rfl, rfl, rfl⟩
  · rw [disposeEffect, afterDispose_eq]
    exact ⟨rfl, rfl, rfl, rfl⟩

theorem resumeDispose_spec (k : ℕ) (s : AsyncContext I V) : (s.resumeDispose k).disposed = s.disposed ∧
    (s.resumeDispose k).effects = s.effects ∧ (s.resumeDispose k).depth = s.depth ∧
      (s.resumeDispose k).batchQueue = s.batchQueue := by
  rw [resumeDispose]
  split
  · split
    · rw [disposeEffect, afterDispose_eq]
      exact ⟨rfl, rfl, rfl, rfl⟩
    · exact ⟨rfl, rfl, rfl, rfl⟩
  · rw [afterDispose_eq]
    exact ⟨rfl, rfl, rfl, rfl⟩
  · exact ⟨rfl, rfl, rfl, rfl⟩

theorem endCleaning_spec (k : ℕ) (s : AsyncContext I V) : (s.endCleaning k).disposed = s.disposed ∧
    (s.endCleaning k).effects = s.effects ∧ (s.endCleaning k).depth = s.depth ∧
      (s.endCleaning k).batchQueue = s.batchQueue := by
  rw [endCleaning]
  split
  · rw [afterDispose_eq]
    exact ⟨rfl, rfl, rfl, rfl⟩
  · exact ⟨rfl, rfl, rfl, rfl⟩

omit [DecidableEq I] in
/-- A dispose of the effect goes on. -/
theorem Watched.disposing (h : Watched e Q s) {t : Disposing} (hk : s.disposers k = some (e, t))
    (hs : s'.disposed = s.disposed ∧ s'.effects = s.effects ∧ s'.depth = s.depth ∧
      s'.batchQueue = s.batchQueue) : Watched e Q' s' := by
  obtain ⟨hdisposed, heffects, hdepth, hqueue⟩ := hs
  have hdead := h.disposers k t hk
  refine h.of_disposed (by rw [hdisposed, hdead]) (fun he => ?_) hdepth hqueue
  rw [heffects] at he
  cases hdead.symm.trans (h.effects he)

theorem proceeds_onEffect (f : AsyncEffect → AsyncEffect) (s : AsyncContext I V) : Proceeds s (s.onEffect id f) :=
  ⟨rfl, rfl, rfl, rfl, rfl⟩

theorem watched_turn (hl : s.Linked) (hn : s.Numbered) (h : Watched e s.batchQueue s) (turn : Turn I) :
    Watched e (s.turn P turn).batchQueue (s.turn P turn) := by
  by_cases hconcerns : s.Concerns e turn
  · cases turn with
    | disposeAsync id =>
      obtain rfl : id = e := hconcerns
      obtain ⟨hdisposed, heffects, hdepth, hqueue⟩ := disposeAsync_spec id s
      show Watched id (s.disposeAsync id).batchQueue (s.disposeAsync id)
      refine h.of_disposed ?_ ?_ hdepth hqueue
      · rw [hdisposed]
        exact update_self ..
      · rw [heffects]
        simp
    | startFlush id =>
      obtain rfl : id = e := hconcerns
      show Watched id (s.startFlush id).batchQueue (s.startFlush id)
      refine h.proceeds ?_ fun hlive => heeded_startFlush (h.heeded hlive)
      rw [startFlush]
      split
      · exact proceeds_onEffect _ s
      · exact ⟨rfl, rfl, rfl, rfl, rfl⟩
    | startBody id j =>
      obtain rfl : id = e := hconcerns
      show Watched id (s.startBody P id j).batchQueue (s.startBody P id j)
      refine h.proceeds ?_ fun hlive => heeded_startBody hl (h.heeded hlive) hlive j
      rw [startBody]
      split
      · split
        · exact proceeds_onEffect _ s
        · obtain ⟨hdisposed, heffects, hdisposers, hdepth, hqueue⟩ := proceeds_finishEffect id j (.effect id)
            (P.effect id) (({ s with reads := update s.reads id [] }.countStart (.effect id)).detach
              (.effect id))
          exact ⟨hdisposed, heffects, hdisposers, hdepth, hqueue⟩
      · exact ⟨rfl, rfl, rfl, rfl, rfl⟩
    | resumeEffect id j =>
      obtain rfl : id = e := hconcerns
      show Watched id (s.resumeEffect id j).batchQueue (s.resumeEffect id j)
      refine h.proceeds ?_ fun hlive => heeded_resumeEffect hl (h.heeded hlive) j
      rw [resumeEffect]
      split
      · exact proceeds_finishEffect id j _ _ s
      · exact ⟨rfl, rfl, rfl, rfl, rfl⟩
    | wakeEffect id j =>
      obtain rfl : id = e := hconcerns
      show Watched id (s.wakeEffect id j).batchQueue (s.wakeEffect id j)
      refine h.proceeds ?_ fun hlive => heeded_wakeEffect (h.heeded hlive) j
      rw [wakeEffect]
      split
      next dep future k _ =>
        obtain heq | ⟨-, heq⟩ := await_cases dep future s
        · dsimp only
          rw [heq]
          exact ⟨rfl, rfl, rfl, rfl, rfl⟩
        · rw [heq]
          exact ⟨rfl, rfl, rfl, rfl, rfl⟩
      · exact ⟨rfl, rfl, rfl, rfl, rfl⟩
    | beginCleanup id task =>
      obtain rfl : id = e := hconcerns
      exact h.proceeds (proceeds_onEffect _ s) fun hlive => heeded_beginTask (h.heeded hlive) task
    | endCleanup id task =>
      obtain rfl : id = e := hconcerns
      exact h.proceeds (proceeds_onEffect _ s) fun hlive => heeded_endTask (h.heeded hlive) task
    | resumeFlush id j =>
      obtain rfl : id = e := hconcerns
      exact h.proceeds (proceeds_onEffect _ s) fun hlive => heeded_resumeFlush (h.heeded hlive) j
    | endRelease id j =>
      obtain rfl : id = e := hconcerns
      exact h.proceeds (proceeds_onEffect _ s) fun hlive => heeded_endRelease (h.heeded hlive) j
    | resumeDispose k =>
      obtain ⟨t, hk⟩ := hconcerns
      exact h.disposing hk (resumeDispose_spec k s)
    | endCleaning k =>
      obtain ⟨t, hk⟩ := hconcerns
      exact h.disposing hk (endCleaning_spec k s)
    | _ => exact hconcerns.elim
  · have hspares := spares_turn (P := P) hn turn hconcerns
    rw [hspares.batchQueue]
    exact h.spares hspares

theorem watched_step [BEq V] (hl : s.Linked) (hn : s.Numbered) (h : Watched e s.batchQueue s)
    (event : Event I V) (hallows : s.Allows e event) :
    Watched e (s.step P event).batchQueue (s.step P event) := by
  cases event with
  | op op => exact watched_apply h op hallows
  | turn turn =>
    rw [step]
    split
    · exact watched_turn hl hn h turn
    · exact h

end Turns

end AsyncContext

end LazilyPy.Async.Context

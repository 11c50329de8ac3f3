import LazilyPy.Async.Serial

/-!
# The runtime of an effect against its kernel

The kernel says where the lifecycle goes from each state. The runtime follows it but for two turns: an
invalidation while a rerun is already waiting for a cleanup, and a flush that goes on after a cleanup.
-/

namespace LazilyPy.Async.Effect

namespace AsyncEffect

variable {s s' : AsyncEffect} {k t : ℕ} {turns : List Turn} {next : Turn}

def Starts (s s' : AsyncEffect) : Prop :=
  ∃ seen, s'.log = s.log ++ seen ∧ .bodyStart ∈ seen

/-- The flush `k` goes on after the cleanup that it has awaited. -/
def Resumes (s : AsyncEffect) (k : ℕ) : Prop :=
  ∃ t, s.flushes k = some (.cleaning t) ∧ s.tasks t = some .done

/-- The state goes where the kernel says: when the effect is invalidated or disposed of, and when the
cleanup that a flush awaits is complete. No body starts in a state of a cleanup. -/
structure Refines (before : List Turn) (next : Turn) : Prop where
  invalidate : next = .invalidate → ((run before).turn next).state = step (run before).state .invalidate
  dispose : next = .dispose → ((run before).turn next).state = step (run before).state .dispose
  cleanupDone : ∀ k, next = .resumeFlush k → (run before).Resumes k →
    ((run before).turn next).state = step (run before).state .cleanupDone
  body : Starts (run before) ((run before).turn next) → ((run before).turn next).state ≠ .cleanupRunning ∧
      ((run before).turn next).state ≠ .cleanupRunningScheduled

/-- No invalidation is made while a rerun waits for a cleanup, and no flush goes on after a cleanup
unless the effect has been disposed of. -/
structure Meets (before : List Turn) (next : Turn) : Prop where
  invalidate : next = .invalidate → (run before).state ≠ .cleanupRunningScheduled
  cleanupDone : ∀ k, next = .resumeFlush k → (run before).Resumes k → (run before).state = .disposed

/-- While a flush awaits a cleanup the state says so, and it does not say so while no flush is in
progress. -/
structure InCleanup (s : AsyncEffect) : Prop where
  cleaning : ∀ k t, s.flushes k = some (.cleaning t) →
    s.state = .cleanupRunning ∨ s.state = .cleanupRunningScheduled ∨ s.state = .disposed
  idle : (∀ k, s.flushes k = none) → s.state ≠ .cleanupRunning ∧ s.state ≠ .cleanupRunningScheduled

theorem inCleanup_of_disposed (h : s.state = .disposed) : s.InCleanup :=
  ⟨fun _ _ _ => .inr (.inr h), fun _ => by rw [h]; exact ⟨nofun, nofun⟩⟩

theorem InCleanup.invalidate (h : s.InCleanup) (hstate : s.state ≠ .cleanupRunningScheduled) :
    s.invalidate.InCleanup := by
  unfold AsyncEffect.invalidate
  split
  · exact h
  next hdisposed =>
    refine ⟨fun k t hk => .inr (.inl ?_), fun hidle => ?_⟩
    · exact if_pos ((h.cleaning k t hk).resolve_right (not_or.mpr ⟨hstate, hdisposed⟩))
    · show (if s.state = EffectState.cleanupRunning then _ else _) ≠ _ ∧
        (if s.state = EffectState.cleanupRunning then _ else _) ≠ _
      rw [if_neg (h.idle hidle).1]
      exact ⟨nofun, nofun⟩

theorem inCleanup_fire (halone : ∀ k, s.flushes k = none)
    (hstate : s.state ≠ .cleanupRunning ∧ s.state ≠ .cleanupRunningScheduled) :
    (s.fire k).InCleanup := by
  unfold AsyncEffect.fire
  split
  · dsimp only
    split
    · refine ⟨fun _ _ _ => .inl rfl, fun hidle => ?_⟩
      exact absurd ((hidle k).symm.trans (Function.update_self ..)) nofun
    · exact ⟨fun k' t hk' => absurd ((flushes_flushAt_iff halone).mp hk').2 nofun, fun _ => hstate⟩
  · exact ⟨fun k' t hk' => absurd ((flushes_flushAt_iff halone).mp hk').2 nofun, fun _ => hstate⟩

theorem InCleanup.flush (h : s.InCleanup) (hp : s.Placed)
    (halone : s.pending → s.state ≠ .disposed → ∀ k, s.flushes k = none) : s.flush.InCleanup := by
  by_cases hfire : s.pending ∧ s.state ≠ .disposed
  · have hidle := halone hfire.1 hfire.2
    exact inCleanup_fire hidle (h.idle hidle)
  · rw [hp.flush_eq hfire]
    exact ⟨h.cleaning, h.idle⟩

theorem inCleanup_keepCleanup {cleanup : Option ℕ} (hp : s.Placed) (hk : s.flushes k = some .body) :
    (s.keepCleanup k cleanup).InCleanup := by
  unfold AsyncEffect.keepCleanup
  split
  · next hstate =>
    split
    · exact inCleanup_of_disposed hstate
    · exact inCleanup_of_disposed hstate
  · rw [← fire_flushAt none]
    refine inCleanup_fire (hp.alone hk) ?_
    show (if s.pending then EffectState.scheduled else .idle) ≠ _ ∧
      (if s.pending then EffectState.scheduled else .idle) ≠ _
    split
    · exact ⟨nofun, nofun⟩
    · exact ⟨nofun, nofun⟩

theorem InCleanup.endBody (h : s.InCleanup) (hp : s.Placed) (k : ℕ) (returns : Bool) :
    (s.endBody k returns).InCleanup := by
  unfold AsyncEffect.endBody
  split
  · next hk =>
    split
    · exact inCleanup_keepCleanup { hp with } hk
    · exact inCleanup_keepCleanup { hp with } hk
  · exact h

theorem state_resumeFlush (k : ℕ) : (s.resumeFlush k).state = s.state := by
  unfold AsyncEffect.resumeFlush
  split
  · split
    · dsimp only
      split
      · rfl
      · rfl
    · rfl
  · rfl

theorem state_resumeDispose (k : ℕ) : (s.resumeDispose k).state = s.state := by
  unfold AsyncEffect.resumeDispose
  split
  · split
    · exact state_finishDispose k
    · rfl
  · rfl

/-- A flush that does not go on stays. -/
theorem resumeFlush_of_not_resumes (h : ¬ s.Resumes k) : s.resumeFlush k = s := by
  unfold AsyncEffect.resumeFlush
  split
  · next t hk => exact if_neg fun hdone => h ⟨t, hk, hdone⟩
  · rfl

theorem inCleanup_turn (h : s.InCleanup) (hs : s.Sound) (next : Turn)
    (halone : next = .flush → s.pending → s.state ≠ .disposed → ∀ k, s.flushes k = none)
    (hinvalidate : next = .invalidate → s.state ≠ .cleanupRunningScheduled)
    (hresume : ∀ k, next = .resumeFlush k → s.Resumes k → s.state = .disposed) :
    (s.turn next).InCleanup := by
  have hp := hs.placed
  cases next with
  | invalidate => exact h.invalidate (hinvalidate rfl)
  | flush => exact h.flush hp (halone rfl)
  | dispose => exact inCleanup_of_disposed state_dispose
  | beginTask t =>
    show (s.beginTask t).InCleanup
    unfold AsyncEffect.beginTask
    split
    · exact ⟨h.cleaning, h.idle⟩
    · exact h
  | endTask t =>
    show (s.endTask t).InCleanup
    unfold AsyncEffect.endTask
    split
    · exact ⟨h.cleaning, h.idle⟩
    · exact h
  | resumeFlush k =>
    show (s.resumeFlush k).InCleanup
    by_cases hk : s.Resumes k
    · exact inCleanup_of_disposed ((state_resumeFlush k).trans (hresume k rfl hk))
    · rw [resumeFlush_of_not_resumes hk]
      exact h
  | endBody k returns => exact h.endBody hp k returns
  | endRelease k =>
    show (s.endRelease k).InCleanup
    unfold AsyncEffect.endRelease
    split
    · next c hk => exact inCleanup_of_disposed (hp.releasing k c hk)
    · exact h
  | resumeDispose k =>
    show (s.resumeDispose k).InCleanup
    unfold AsyncEffect.resumeDispose
    split
    · next t hk =>
      split
      · exact inCleanup_of_disposed ((state_finishDispose k).trans (hp.waiting k t hk))
      · exact h
    · exact h
  | endCleaning k =>
    show (s.endCleaning k).InCleanup
    unfold AsyncEffect.endCleaning
    split
    · exact ⟨h.cleaning, h.idle⟩
    · exact h

/-- The invariant of the runs that meet the condition. -/
theorem inCleanup_run (halone : Throughout Alone turns) (hmeets : Throughout Meets turns) :
    (run turns).InCleanup := by
  induction turns using List.reverseRecOn with
  | nil => exact ⟨nofun, fun _ => ⟨nofun, nofun⟩⟩
  | append_singleton turns next ih =>
    obtain ⟨hbefore, hnext⟩ := throughout_concat.mp halone
    obtain ⟨hmet, hmeet⟩ := throughout_concat.mp hmeets
    rw [run_concat]
    exact inCleanup_turn (ih hbefore hmet) (sound_run hbefore).1 next hnext hmeet.invalidate hmeet.cleanupDone

/-! ### Where bodies start -/

theorem not_starts {seen : List Event} (hlog : s'.log = s.log ++ seen) (hseen : .bodyStart ∉ seen) :
    ¬ Starts s s' := by
  rintro ⟨other, hother, hmem⟩
  rw [hlog] at hother
  rw [List.append_cancel_left hother] at hseen
  exact hseen hmem

theorem not_starts_of_log_eq (hlog : s'.log = s.log) : ¬ Starts s s' :=
  not_starts (hlog.trans (List.append_nil _).symm) List.not_mem_nil

/-- A flush that starts a body leaves the state as it is. -/
theorem fire_cases (k : ℕ) : (s.fire k).log = s.log ∨ (s.fire k).state = s.state := by
  unfold AsyncEffect.fire
  split
  · dsimp only
    split
    · exact .inl rfl
    · exact .inr rfl
  · exact .inr rfl

def OutOfCleanup (s : AsyncEffect) : Prop :=
  s.state ≠ .cleanupRunning ∧ s.state ≠ .cleanupRunningScheduled

theorem outOfCleanup_of_disposed (h : s.state = .disposed) : s.OutOfCleanup := by
  rw [OutOfCleanup, h]
  exact ⟨nofun, nofun⟩

theorem outOfCleanup_keepCleanup {cleanup returned : Option ℕ}
    (hlog : s'.log = s.log ++ [.bodyEnd returned]) (hstarts : Starts s (s'.keepCleanup k cleanup)) :
    (s'.keepCleanup k cleanup).OutOfCleanup := by
  unfold AsyncEffect.keepCleanup at hstarts ⊢
  split
  · next hstate =>
    split
    · exact outOfCleanup_of_disposed hstate
    · exact outOfCleanup_of_disposed hstate
  · next hstate =>
    rw [if_neg hstate] at hstarts
    obtain hsame | hsame := fire_cases (s := { s' with
      cleanup := cleanup
      state := if s'.pending then .scheduled else .idle }) k
    · exact absurd hstarts (not_starts (hsame.trans hlog) (by simp))
    · rw [OutOfCleanup, hsame]
      show (if s'.pending then EffectState.scheduled else .idle) ≠ _ ∧
        (if s'.pending then EffectState.scheduled else .idle) ≠ _
      split
      · exact ⟨nofun, nofun⟩
      · exact ⟨nofun, nofun⟩

theorem outOfCleanup_turn (h : s.InCleanup) (hs : s.Sound) (next : Turn)
    (halone : next = .flush → s.pending → s.state ≠ .disposed → ∀ k, s.flushes k = none)
    (hresume : ∀ k, next = .resumeFlush k → s.Resumes k → s.state = .disposed)
    (hstarts : Starts s (s.turn next)) : (s.turn next).OutOfCleanup := by
  have hp := hs.placed
  cases next with
  | invalidate =>
    refine absurd hstarts ?_
    show ¬ Starts s s.invalidate
    unfold AsyncEffect.invalidate
    split
    · exact not_starts_of_log_eq rfl
    · exact not_starts rfl (by simp)
  | flush =>
    by_cases hfire : s.pending ∧ s.state ≠ .disposed
    · have hidle := h.idle (halone rfl hfire.1 hfire.2)
      obtain hsame | hsame :=
        fire_cases (s := { s with nextFlush := s.nextFlush + 1 }) s.nextFlush
      · exact absurd hstarts (not_starts_of_log_eq hsame)
      · exact ⟨fun heq => hidle.1 (hsame.symm.trans heq), fun heq => hidle.2 (hsame.symm.trans heq)⟩
    · have hlog : s.flush.log = s.log := by rw [hp.flush_eq hfire]
      exact absurd hstarts (not_starts_of_log_eq hlog)
  | dispose => exact outOfCleanup_of_disposed state_dispose
  | beginTask t =>
    refine absurd hstarts ?_
    show ¬ Starts s (s.beginTask t)
    unfold AsyncEffect.beginTask
    split
    · exact not_starts rfl (by simp)
    · exact not_starts_of_log_eq rfl
  | endTask t =>
    refine absurd hstarts ?_
    show ¬ Starts s (s.endTask t)
    unfold AsyncEffect.endTask
    split
    · exact not_starts rfl (by simp)
    · exact not_starts_of_log_eq rfl
  | resumeFlush k =>
    by_cases hk : s.Resumes k
    · exact outOfCleanup_of_disposed ((state_resumeFlush k).trans (hresume k rfl hk))
    · exact absurd hstarts (not_starts_of_log_eq (congrArg log (resumeFlush_of_not_resumes hk)))
  | endBody k returns =>
    by_cases hk : s.flushes k = some .body
    · have hkeep : ∃ (s' : AsyncEffect) (cleanup returned : Option ℕ), s'.log = s.log ++ [.bodyEnd returned] ∧
          s.endBody k returns = s'.keepCleanup k cleanup := by
        unfold AsyncEffect.endBody
        rw [hk]
        dsimp only
        split
        · exact ⟨_, _, _, rfl, rfl⟩
        · exact ⟨_, _, _, rfl, rfl⟩
      obtain ⟨s', cleanup, returned, hlog, heq⟩ := hkeep
      rw [show s.turn (.endBody k returns) = s'.keepCleanup k cleanup from heq] at hstarts ⊢
      exact outOfCleanup_keepCleanup hlog hstarts
    · refine absurd hstarts (not_starts_of_log_eq (congrArg log ?_))
      show s.endBody k returns = s
      unfold AsyncEffect.endBody
      split
      · next hbody => exact absurd hbody hk
      · rfl
  | endRelease k =>
    refine absurd hstarts ?_
    show ¬ Starts s (s.endRelease k)
    unfold AsyncEffect.endRelease
    split
    · exact not_starts rfl (by simp)
    · exact not_starts_of_log_eq rfl
  | resumeDispose k =>
    by_cases hk : ∃ t, s.disposes k = some (.waiting t)
    · obtain ⟨t, hk⟩ := hk
      exact outOfCleanup_of_disposed ((state_resumeDispose k).trans (hp.waiting k t hk))
    · refine absurd hstarts ?_
      show ¬ Starts s (s.resumeDispose k)
      unfold AsyncEffect.resumeDispose
      split
      · next t ht => exact absurd ⟨t, ht⟩ hk
      · exact not_starts_of_log_eq rfl
  | endCleaning k =>
    refine absurd hstarts ?_
    show ¬ Starts s (s.endCleaning k)
    unfold AsyncEffect.endCleaning
    split
    · exact not_starts rfl (by simp)
    · exact not_starts_of_log_eq rfl

/-! ### The refinement -/

theorem state_invalidate (h : s.state ≠ .cleanupRunningScheduled) :
    s.invalidate.state = step s.state .invalidate := by
  unfold AsyncEffect.invalidate
  cases hstate : s.state with
  | idle => rfl
  | scheduled => rfl
  | cleanupRunning => rfl
  | cleanupRunningScheduled => exact absurd hstate h
  | disposed => exact hstate

/-- A turn that meets the condition refines the kernel. -/
theorem refines_of_meets (h : (run turns).InCleanup) (hs : (run turns).Sound) (halone : Alone turns next)
    (hmeets : Meets turns next) : Refines turns next where
  invalidate := by
    rintro rfl
    exact state_invalidate (hmeets.invalidate rfl)
  dispose := by
    rintro rfl
    exact state_dispose
  cleanupDone := by
    rintro k rfl hk
    have hstate := hmeets.cleanupDone k rfl hk
    rw [hstate]
    exact (state_resumeFlush k).trans hstate
  body := outOfCleanup_turn h hs next halone hmeets.cleanupDone

/-- A turn that refines the kernel meets the condition. -/
theorem meets_of_refines (h : (run turns).InCleanup) (hrefines : Refines turns next) : Meets turns next where
  invalidate := by
    rintro rfl hstate
    have hstep := hrefines.invalidate rfl
    have hscheduled : (run turns).invalidate.state = .scheduled := by
      unfold AsyncEffect.invalidate
      rw [hstate]
      rfl
    rw [hstate] at hstep
    exact nomatch hscheduled.symm.trans hstep
  cleanupDone := by
    rintro k rfl ⟨t, hk, hdone⟩
    have hstep := hrefines.cleanupDone k rfl ⟨t, hk, hdone⟩
    rw [show (run turns).turn (.resumeFlush k) = (run turns).resumeFlush k from rfl, state_resumeFlush] at hstep
    obtain hstate | hstate | hstate := h.cleaning k t hk
    · rw [hstate] at hstep
      cases hstep
    · rw [hstate] at hstep
      cases hstep
    · exact hstate

/-- The runtime refines the kernel in just the runs that meet the condition. -/
theorem effect_refines (halone : Throughout Alone turns) : Throughout Refines turns ↔ Throughout Meets turns := by
  induction turns using List.reverseRecOn with
  | nil => exact iff_of_true throughout_nil throughout_nil
  | append_singleton turns next ih =>
    obtain ⟨hbefore, hnext⟩ := throughout_concat.mp halone
    rw [throughout_concat, throughout_concat, ih hbefore]
    refine and_congr_right fun hmeets => ?_
    have h := inCleanup_run hbefore hmeets
    exact ⟨meets_of_refines h, refines_of_meets h (sound_run hbefore).1 hnext⟩

theorem effect_refines_once : Throughout Refines [.invalidate, .flush] ↔ Throughout Meets [.invalidate, .flush] :=
  effect_refines (show Throughout Alone (([] ++ [.invalidate]) ++ [.flush]) from
    throughout_concat.mpr ⟨throughout_concat.mpr ⟨throughout_nil, nofun⟩, fun _ _ _ _ => rfl⟩)

def rerun : List Turn :=
  [.invalidate, .flush, .endBody 0 true, .invalidate, .flush, .beginTask 0, .endTask 0, .resumeFlush 1]

theorem alone_rerun : Throughout Alone rerun := by
  have hother (turns : List Turn) (next : Turn) (h : Throughout Alone turns) (hnext : next ≠ .flush) :
      Throughout Alone (turns ++ [next]) := throughout_concat.mpr ⟨h, fun heq => absurd heq hnext⟩
  have hfirst : Throughout Alone ([.invalidate] ++ [.flush]) :=
    throughout_concat.mpr ⟨hother [] .invalidate throughout_nil nofun, fun _ _ _ _ => rfl⟩
  have hended : Throughout Alone [.invalidate, .flush, .endBody 0 true, .invalidate] :=
    hother [.invalidate, .flush, .endBody 0 true] _ (hother _ (.endBody 0 true) hfirst nofun) nofun
  have hagain : Throughout Alone
      ([.invalidate, .flush, .endBody 0 true, .invalidate] ++ [.flush]) := by
    refine throughout_concat.mpr ⟨hended, fun _ _ _ k => ?_⟩
    cases k with
    | zero => rfl
    | succ k => rfl
  exact hother _ (.resumeFlush 1) (hother _ (.endTask 0) (hother _ (.beginTask 0) hagain nofun) nofun) nofun

/-- After the cleanup the body starts in the state of the cleanup. -/
theorem effect_strays : Throughout Alone rerun ∧ ¬ Throughout Refines rerun := by
  refine ⟨alone_rerun, fun h => ?_⟩
  have hstep := (h [.invalidate, .flush, .endBody 0 true, .invalidate, .flush, .beginTask 0, .endTask 0]
    (.resumeFlush 1) [] rfl).cleanupDone 1 rfl ⟨0, rfl, rfl⟩
  cases hstep

end AsyncEffect

end LazilyPy.Async.Effect

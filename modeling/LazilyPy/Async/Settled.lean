import LazilyPy.Async.Reruns

/-!
# Effects that have settled

Once `settle` has returned, the handle of an effect has no task that is not done, so that no rerun is pending and
what the last run of its body has read is current.
-/

namespace LazilyPy.Async.Context

open List Function

open Effect (AsyncEffect)
open Effect.AsyncEffect

variable {I V : Type} [DecidableEq I]

namespace AsyncContext

variable {s s' : AsyncContext I V} {e : I} {P : Program I V}

/-- The body of the effect has been executed, and what its last run has read is current. -/
def Fulfilled (e : I) (s : AsyncContext I V) : Prop :=
  0 < s.executions e ∧ ∀ p ∈ s.reads e, s.value p.1 = p.2

omit [DecidableEq I] in
theorem Fulfilled.notified (h : s.Fulfilled e) (hn : Notified s s') : s'.Fulfilled e := by
  rw [hn]
  exact h

omit [DecidableEq I] in
theorem Fulfilled.spares (h : s.Fulfilled e) (hs : Spares e s s') : s'.Fulfilled e := by
  unfold Fulfilled
  rw [hs.executions, hs.reads, hs.value]
  exact h

omit [DecidableEq I] in
/-- A settled effect outside of a batch has nothing left to do. -/
theorem Watched.fulfilled (h : Watched e s.batchQueue s) (he : e ∈ s.effects) (hsettled : s.Settled e)
    (hdepth : s.depth = 0) : s.Fulfilled e := by
  have hheeded := h.heeded (h.effects he)
  rw [h.idle hdepth] at hheeded
  have hidle := hheeded.attended.settled_iff.mp hsettled
  have hnone (j : ℕ) : (s.effect e).flushes j = none := by
    by_contra hj
    exact hidle (.inr ⟨j, hj⟩)
  have hdue : ¬ Due (s.effect e) (s.effectRuns e) := by
    rintro (hpending | ⟨j, ⟨t, hj⟩ | ⟨hj, -⟩⟩)
    · exact hidle (hheeded.pending hpending)
    · cases (hnone j).symm.trans hj
    · cases (hnone j).symm.trans hj
  refine ⟨?_, fun p hp => ?_⟩
  · obtain hrun | hrun | ⟨j, hj⟩ := hheeded.begun he
    · exact hrun
    · exact absurd hrun hdue
    · cases (hnone j).symm.trans hj
  · obtain hcurrent | ⟨hin, -⟩ := (hheeded.reads p hp).resolve_left hdue
    · exact hcurrent.1
    · cases hin

/-- A body that runs while nothing is written reads what is current. -/
theorem fulfilled_advance (hl : s.Linked) (h : s.Fulfilled e) (j : ℕ) (body : Body I V Bool) :
    Fulfilled e (finishEffect e j (advance (.effect e) body s)) := by
  have hregisters := registers_advance hl e body
  generalize advance (.effect e) body s = r at hregisters ⊢
  obtain ⟨stop, s'⟩ := r
  have ha : Advances (.effect e) s s' := hregisters.advances
  have hafter : s'.Fulfilled e := by
    refine ⟨?_, fun p hp => ?_⟩
    · rw [ha.rest]
      exact h.1
    · rw [ha.value]
      exact (hregisters.reads p hp).elim (h.2 p) And.left
  have hcount : 0 < update s'.executions e (s'.executions e + 1) e := by
    rw [update_self]
    omega
  cases stop with
  | returned returns => exact ⟨hcount, hafter.2⟩
  | raised => exact ⟨hcount, hafter.2⟩
  | stopped phase => exact hafter

theorem fulfilled_turn (hl : s.Linked) (hn : s.Numbered) (h : s.Fulfilled e) (turn : Turn I) :
    (s.turn P turn).Fulfilled e := by
  by_cases hconcerns : s.Concerns e turn
  · cases turn with
    | disposeAsync id =>
      show (s.disposeAsync id).Fulfilled e
      rw [disposeAsync]
      split
      · split
        · rw [disposeEffect, afterDispose_eq]
          exact h
        · exact h
      · rw [disposeEffect, afterDispose_eq]
        exact h
    | startFlush id =>
      show (s.startFlush id).Fulfilled e
      rw [startFlush]
      split
      · exact h
      · exact h
    | startBody id j =>
      obtain rfl : id = e := hconcerns
      show (s.startBody P id j).Fulfilled id
      rw [startBody]
      split
      · split
        · exact h
        · have hl' : Linked ({ s with reads := update s.reads id [] }.countStart (.effect id)) := hl
          refine fulfilled_advance (hl'.detach _) ⟨h.1, fun p hp => ?_⟩ j _
          have hp' : p ∈ update s.reads id [] id := hp
          rw [update_self] at hp'
          cases hp'
      · exact h
    | resumeEffect id j =>
      obtain rfl : id = e := hconcerns
      show (s.resumeEffect id j).Fulfilled id
      rw [resumeEffect]
      split
      · exact fulfilled_advance hl h j _
      · exact h
    | wakeEffect id j =>
      show (s.wakeEffect id j).Fulfilled e
      rw [wakeEffect]
      split
      next dep future k _ =>
        have hawait := h.spares (spares_await e dep future s)
        exact hawait
      · exact h
    | resumeDispose k =>
      show (s.resumeDispose k).Fulfilled e
      rw [resumeDispose]
      split
      · split
        · rw [disposeEffect, afterDispose_eq]
          exact h
        · exact h
      · rw [afterDispose_eq]
        exact h
      · exact h
    | endCleaning k =>
      show (s.endCleaning k).Fulfilled e
      rw [endCleaning]
      split
      · rw [afterDispose_eq]
        exact h
      · exact h
    | beginCleanup | endCleanup | resumeFlush | endRelease => exact h
    | _ => exact hconcerns.elim
  · exact h.spares (spares_turn hn turn hconcerns)

theorem fulfilled_step [BEq V] (hl : s.Linked) (hn : s.Numbered) (h : s.Fulfilled e) (event : Event I V)
    (hset : ∀ id value, event ≠ .op (.set id value)) : (s.step P event).Fulfilled e := by
  cases event with
  | turn turn =>
    rw [step]
    split
    · exact fulfilled_turn hl hn h turn
    · exact h
  | op op =>
    cases op with
    | set id value => exact absurd rfl (hset id value)
    | invalidate id =>
      have h' : (s.invalidateSlot id).Fulfilled e := h
      exact h'.notified (notified_invalidateDependents _ _)
    | exitBatch =>
      show s.exitBatch.Fulfilled e
      rw [exitBatch]
      split
      · exact h
      · have h' : Fulfilled e { s with depth := 0, batchQueue := [] } := h
        exact h'.notified (notified_foldl (fun s h => notified_invalidateDependents h s) _ _)
      · exact h
    | effectAsync id =>
      show (s.effectAsync id).Fulfilled e
      rw [effectAsync]
      split
      · exact h
      · have h' : Fulfilled e { s with effects := s.effects ++ [id] } := h
        exact h'.notified (notified_schedule id _)
    | disposeComputed id =>
      show (s.disposeComputed id).Fulfilled e
      rw [disposeComputed]
      split
      · exact h
      · refine Fulfilled.notified ?_ (notified_dirtyDisposedDependents _ _)
        exact h
    | disposeSource id =>
      show (s.disposeSource id).Fulfilled e
      rw [disposeSource]
      split
      · exact h
      · refine Fulfilled.notified ?_ (notified_dirtyDisposedDependents _ _)
        exact h
    | _ => exact h

end AsyncContext

/-! ### Runs -/

open AsyncContext

variable [BEq V] {P : Program I V} {value : I → V} {before after : List (Event I V)}

theorem watched_run (e : I) (hallows : Throughout (fun before event => (run P value before).Allows e event) before) :
    Watched e (run P value before).batchQueue (run P value before) := by
  induction before using reverseRecOn with
  | nil => exact watched_init value
  | append_singleton before event ih =>
    obtain ⟨hbefore, hevent⟩ := throughout_concat.mp hallows
    rw [run_concat]
    have hwired := wired_run P value before
    exact watched_step hwired.linked hwired.numbered (ih hbefore) event hevent

/-- When `settle` of a live effect has returned outside of a batch, the body of the effect has been executed and
what its last execution has read is current, and so it stays until something is written. -/
theorem settled_current (e : I)
    (hallows : Throughout (fun before event => (run P value before).Allows e event) before)
    (hlive : e ∈ (run P value before).effects) (hsettled : (run P value before).Settled e)
    (hdepth : (run P value before).depth = 0)
    (hafter : ∀ event ∈ after, ∀ id v, event ≠ .op (.set id v)) :
    0 < (run P value (before ++ after)).executions e ∧
      ∀ p ∈ (run P value (before ++ after)).reads e, (run P value (before ++ after)).value p.1 = p.2 := by
  have hstart := (watched_run e hallows).fulfilled hlive hsettled hdepth
  suffices hend : (run P value (before ++ after)).Fulfilled e from hend
  induction after using reverseRecOn with
  | nil => rwa [append_nil]
  | append_singleton after event ih =>
    have hrest := ih fun event hevent => hafter event (mem_append_left _ hevent)
    rw [← append_assoc, run_concat]
    have hwired := wired_run P value (before ++ after)
    refine fulfilled_step hwired.linked hwired.numbered hrest
      event (hafter event ?_)
    exact mem_append_right _ (mem_singleton_self event)

/-! ### An effect that is created while no loop runs -/

def reader : Program ℕ ℕ where
  compute _ := .raise
  eq _ := none
  effect _ := .get 0 fun _ => .ret false

/-- The effect runs, its source is written in a batch, and it runs again. -/
def rerunOnce : List (Event ℕ ℕ) :=
  [.op .startLoop, .op (.effectAsync 0), .turn (.startFlush 0), .turn (.startBody 0 0), .op .enterBatch,
    .op (.set 0 2), .op .exitBatch, .turn (.startFlush 0), .turn (.startBody 0 1)]

theorem allows_rerunOnce :
    Throughout (fun before event => (run reader (fun _ => 1) before).Allows 0 event) rerunOnce := by
  have hrunning : Throughout (fun before _ =>
      before.length = 0 ∨ (run reader (fun _ => 1) before).running = true) rerunOnce := by
    decide
  intro before event after hsplit
  obtain hnil | hman := hrunning before event after hsplit
  · obtain rfl := length_eq_zero_iff.mp hnil
    obtain rfl : .op .startLoop = event := (cons.inj hsplit).1
    exact False.elim
  · have hmem : event ∈ rerunOnce := by
      rw [hsplit]
      exact mem_append_right _ mem_cons_self
    simp only [rerunOnce, mem_cons, not_mem_nil, or_false] at hmem
    obtain rfl | rfl | rfl | rfl | rfl | rfl | rfl | rfl | rfl := hmem
    all_goals first | exact trivial | exact fun _ => .inl hman

theorem settled_current_reader : 0 < (run reader (fun _ => 1) (rerunOnce ++ [.op .stopLoop])).executions 0 ∧
      ∀ p ∈ (run reader (fun _ => 1) (rerunOnce ++ [.op .stopLoop])).reads 0,
        (run reader (fun _ => 1) (rerunOnce ++ [.op .stopLoop])).value p.1 = p.2 :=
  settled_current 0 allows_rerunOnce (by decide) (by decide) (by decide) (by simp)

/-- The rerun is queued, and there is no task for it when the loop starts. -/
theorem settle_misses : ¬ ∀ (P : Program ℕ ℕ) (value : ℕ → ℕ) (events : List (Event ℕ ℕ)) (e : ℕ),
    e ∈ (run P value events).effects → (run P value events).running = true →
      (run P value events).Settled e → (run P value events).depth = 0 → 0 < (run P value events).executions e ∧
          ∀ p ∈ (run P value events).reads e, (run P value events).value p.1 = p.2 := by
  intro h
  have hrun := (h reader (fun _ => 1) [.op (.effectAsync 0), .op .startLoop] 0 (by decide) (by decide)
    (by decide) (by decide)).1
  revert hrun
  decide

end LazilyPy.Async.Context

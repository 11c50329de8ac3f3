import LazilyPy.Async.Context

/-!
# The edges of an async context

What reads a handle is entered twice, with the handle and with what reads it, and a walk over the
dependents comes through all that read a handle, directly or not. The calls of `dispose_async` are numbered.
-/

namespace LazilyPy.Async.Context

open Relation List Function
open Effect (AsyncEffect)

variable {I V R : Type}

namespace AsyncContext

variable {s s' s₁ : AsyncContext I V} {h d x : Handle I} {id : I} {e : Handle I × Handle I} {k : ℕ}

/-- The dependencies of a handle are those that have it as a dependent. -/
def Linked (s : AsyncContext I V) : Prop :=
  ∀ d x, d ∈ s.dependencies x ↔ (d, x) ∈ s.dependents

/-- What a walk may change: the slots and the effects that it comes through. -/
def Notified (s s' : AsyncContext I V) : Prop :=
  s' = { s with
    slot := s'.slot
    effect := s'.effect
    flushTask := s'.flushTask
    flushTasks := s'.flushTasks
    batchQueue := s'.batchQueue }

theorem Notified.refl (s : AsyncContext I V) : Notified s s := rfl

theorem Notified.trans (h : Notified s s₁) (h' : Notified s₁ s') : Notified s s' := by
  have heq : s' = { s₁ with
      slot := s'.slot
      effect := s'.effect
      flushTask := s'.flushTask
      flushTasks := s'.flushTasks
      batchQueue := s'.batchQueue } := h'
  rw [h] at heq
  exact heq

theorem notified_foldl {f : AsyncContext I V → Handle I → AsyncContext I V}
    (hf : ∀ s h, Notified s (f s h)) (l : List (Handle I)) (s : AsyncContext I V) :
    Notified s (l.foldl f s) := by
  induction l generalizing s with
  | nil => exact .refl s
  | cons h l ih => exact (hf s h).trans (ih (f s h))

/-- What a body changes that goes on: it registers edges, and what it reads is noted. -/
structure Advances (h : Handle I) (s s' : AsyncContext I V) : Prop where
  rest : s' = { s with
    dependents := s'.dependents
    dependencies := s'.dependencies
    reads := s'.reads }
  subset : s.dependents ⊆ s'.dependents
  only : ∀ e ∈ s'.dependents, e ∈ s.dependents ∨ e.2 = h
  linked : s.Linked → s'.Linked

theorem Advances.value (ha : Advances h s s') : s'.value = s.value := by rw [ha.rest]

theorem Advances.disposed (ha : Advances h s s') : s'.disposed = s.disposed := by rw [ha.rest]

theorem Advances.slot (ha : Advances h s s') : s'.slot = s.slot := by rw [ha.rest]

theorem Advances.memo (ha : Advances h s s') : s'.memo = s.memo := by rw [ha.rest]

theorem Advances.runs (ha : Advances h s s') : s'.runs = s.runs := by rw [ha.rest]

theorem Advances.refl (h : Handle I) (s : AsyncContext I V) : Advances h s s :=
  ⟨rfl, Subset.refl _, fun _ he => .inl he, fun hs => hs⟩

theorem Advances.trans (ha : Advances h s s₁) (hb : Advances h s₁ s') : Advances h s s' where
  rest := by
    have heq : s' = { s₁ with
        dependents := s'.dependents
        dependencies := s'.dependencies
        reads := s'.reads } := hb.rest
    rw [ha.rest] at heq
    exact heq
  subset := Subset.trans ha.subset hb.subset
  only e he := (hb.only e he).elim (ha.only e) .inr
  linked hs := hb.linked (ha.linked hs)

theorem Linked.notified (hs : s.Linked) (h : Notified s s') : s'.Linked := by
  rw [h]
  exact hs

/-- Calls of `dispose_async` are numbered in turn. -/
def Numbered (s : AsyncContext I V) : Prop :=
  ∀ k, s.nextDisposer ≤ k → s.disposers k = none

theorem Numbered.lt (hs : s.Numbered) {disposer : I × Disposing} (hk : s.disposers k = some disposer) :
    k < s.nextDisposer := by
  by_contra hle
  cases (hs k (by omega)).symm.trans hk

structure Wired (s : AsyncContext I V) : Prop where
  linked : s.Linked
  numbered : s.Numbered

theorem Wired.notified (hs : s.Wired) (h : Notified s s') : s'.Wired := by
  rw [h]
  exact ⟨hs.linked, hs.numbered⟩

theorem Wired.of_advances (hs : s.Wired) (ha : Advances h s s') : s'.Wired := by
  refine ⟨ha.linked hs.linked, ?_⟩
  rw [ha.rest]
  exact hs.numbered

def Finishes (s s' : AsyncContext I V) : Prop :=
  s' = { s with
    slot := s'.slot
    memo := s'.memo
    runs := s'.runs
    effect := s'.effect
    effectRuns := s'.effectRuns
    executions := s'.executions }

theorem Wired.finishes (hs : s.Wired) (h : Finishes s s') : s'.Wired := by
  rw [h]
  exact ⟨hs.linked, hs.numbered⟩

theorem Wired.setDisposer (hs : s.Wired) (hk : k < s.nextDisposer) (disposer : I × Disposing) :
    (s.setDisposer k disposer).Wired := by
  refine ⟨hs.linked, fun k' hk' => ?_⟩
  have hle : s.nextDisposer ≤ k' := hk'
  have hne : k' ≠ k := by omega
  exact (update_of_ne hne ..).trans (hs.numbered k' hle)

variable [DecidableEq I]

/-! ### Walks -/

def Reaches (s : AsyncContext I V) (h x : Handle I) : Prop :=
  ReflTransGen (fun a b => b ∈ s.successors a) h x

theorem mem_dependentsOf : x ∈ s.dependentsOf h ↔ (h, x) ∈ s.dependents := by
  rw [dependentsOf, mem_map]
  constructor
  · rintro ⟨⟨d, x⟩, hmem, rfl⟩
    obtain ⟨hedge, heq⟩ := mem_filter.mp hmem
    obtain rfl : d = h := by simpa using heq
    exact hedge
  · intro hmem
    exact ⟨(h, x), mem_filter.mpr ⟨hmem, by simp⟩, rfl⟩

theorem mem_successors (hh : ∀ id, h ≠ .effect id) : x ∈ s.successors h ↔ (h, x) ∈ s.dependents := by
  cases h with
  | effect id => exact absurd rfl (hh id)
  | _ => exact mem_dependentsOf

theorem mem_dependents_of_successors (hx : x ∈ s.successors h) : (h, x) ∈ s.dependents := by
  cases h with
  | effect id => cases hx
  | _ => exact mem_dependentsOf.mp hx

theorem mem_snd_of_successors (s : AsyncContext I V) (h : Handle I) :
    ∀ x ∈ s.successors h, x ∈ (s.dependents.map Prod.snd).toFinset := by
  intro x hx
  exact mem_toFinset.mpr (mem_map_of_mem (mem_dependents_of_successors hx))

theorem card_snd_le (s : AsyncContext I V) : (s.dependents.map Prod.snd).toFinset.card ≤ s.dependents.length := by
  have hle := toFinset_card_le (s.dependents.map Prod.snd)
  rwa [length_map] at hle

/-- A walk from a handle, without the handle itself. -/
theorem mem_tail_walk_iff : x ∈ (s.walk [h]).tail ↔ x ≠ h ∧ s.Reaches h x := by
  have hcard := card_snd_le s
  exact mem_tail_explore_iff (mem_snd_of_successors s) (by rw [length_singleton]; omega)

theorem nodup_tail_walk (h : Handle I) (s : AsyncContext I V) : (s.walk [h]).tail.Nodup :=
  (nodup_explore (nodup_singleton h)).tail

/-- A rerun that is queued is a matter of the effect alone. -/
theorem schedule_eq (id : I) (s : AsyncContext I V) : s.schedule id = { s with
    effect := (s.schedule id).effect
    flushTask := (s.schedule id).flushTask
    flushTasks := (s.schedule id).flushTasks } := by
  rw [schedule]
  split
  · rfl
  · dsimp only
    split
    · rw [createFlush]
      split
      · rfl
      · rfl
    · rfl

theorem notified_schedule (id : I) (s : AsyncContext I V) : Notified s (s.schedule id) := by
  rw [schedule_eq]
  rfl

theorem batchQueue_schedule (id : I) (s : AsyncContext I V) : (s.schedule id).batchQueue = s.batchQueue := by
  rw [schedule_eq]

theorem notified_notify (h : Handle I) (s : AsyncContext I V) : Notified s (s.notify h) := by
  cases h with
  | source id => exact .refl s
  | computed id => rfl
  | effect id => exact notified_schedule id s

theorem notified_invalidateDependents (h : Handle I) (s : AsyncContext I V) :
    Notified s (s.invalidateDependents h) := by
  rw [invalidateDependents]
  split
  · rfl
  · exact notified_foldl (fun s h => notified_notify h s) _ s

theorem invalidateDependents_of_depth (hdepth : s.depth = 0) :
    s.invalidateDependents h = (s.walk [h]).tail.foldl notify s := by
  rw [invalidateDependents, if_neg (by omega)]

theorem batchQueue_foldl_notify (l : List (Handle I)) (s : AsyncContext I V) :
    (l.foldl notify s).batchQueue = s.batchQueue := by
  induction l generalizing s with
  | nil => rfl
  | cons h l ih =>
    rw [foldl_cons, ih]
    cases h with
    | source id => rfl
    | computed id => rfl
    | effect id => exact batchQueue_schedule id s

theorem depth_invalidateDependents (h : Handle I) (s : AsyncContext I V) :
    (s.invalidateDependents h).depth = s.depth := by
  rw [notified_invalidateDependents h s]

theorem queue_foldl_invalidateDependents (l : List (Handle I)) (hdepth : s.depth = 0) :
    (l.foldl (fun s h => s.invalidateDependents h) s).batchQueue = s.batchQueue ∧
      (l.foldl (fun s h => s.invalidateDependents h) s).depth = 0 := by
  induction l generalizing s with
  | nil => exact ⟨rfl, hdepth⟩
  | cons h l ih =>
    obtain ⟨hqueue, hdepth'⟩ := ih ((depth_invalidateDependents h s).trans hdepth)
    refine ⟨hqueue.trans ?_, hdepth'⟩
    rw [invalidateDependents_of_depth hdepth]
    exact batchQueue_foldl_notify _ s

theorem notified_dirtyDisposedDependents (roots : List (Handle I)) (s : AsyncContext I V) :
    Notified s (s.dirtyDisposedDependents roots) := by
  refine notified_foldl (fun s h => ?_) _ s
  cases h with
  | computed id => rfl
  | _ => exact .refl s

/-! ### Bodies -/

theorem Linked.track (hs : s.Linked) (h d : Handle I) : (s.track h d).Linked := by
  rw [AsyncContext.track]
  split
  · exact hs
  next hnew =>
    intro d' x
    show d' ∈ update s.dependencies h (s.dependencies h ++ [d]) x ↔ (d', x) ∈ s.dependents.insert (d, h)
    rw [mem_insert_iff, Prod.mk.injEq]
    by_cases hx : x = h
    · subst hx
      rw [update_self, mem_append, mem_singleton, hs]
      tauto
    · rw [update_of_ne hx, hs]
      simp [hx]

theorem mem_dependents_track (hs : s.Linked) (h d : Handle I) : (d, h) ∈ (s.track h d).dependents := by
  rw [AsyncContext.track]
  split
  next hold => exact (hs d h).mp hold
  next => exact mem_insert_self

theorem Linked.detach (hs : s.Linked) (h : Handle I) : (s.detach h).Linked := by
  intro d x
  show d ∈ update s.dependencies h [] x ↔ (d, x) ∈ s.dependents.filter _
  rw [mem_filter]
  by_cases hx : x = h
  · subst hx
    rw [update_self, ← hs]
    simp
  · rw [update_of_ne hx, hs]
    simp [hx]

theorem advances_track (h d : Handle I) (s : AsyncContext I V) : Advances h s (s.track h d) := by
  refine ⟨?_, ?_, ?_, fun hs => hs.track h d⟩
  · rw [track]
    split
    · rfl
    · rfl
  · rw [track]
    split
    · exact Subset.refl _
    · exact fun e he => mem_insert_of_mem he
  · rw [track]
    split
    · exact fun e he => .inl he
    · intro e he
      obtain rfl | he := mem_insert_iff.mp he
      · exact .inr rfl
      · exact .inl he

theorem advances_note (h : Handle I) (id : I) (s : AsyncContext I V) : Advances h s (s.note h id) := by
  cases h with
  | effect e =>
    rw [note]
    split
    · exact .refl _ s
    · exact ⟨rfl, Subset.refl _, fun _ he => .inl he, fun hs => hs⟩
  | _ => exact .refl _ s

/-- What a body changes up to what it awaits. -/
theorem advances (h : Handle I) (body : Body I V R) (s : AsyncContext I V) : Advances h s (advance h body s).2 := by
  induction body generalizing s with
  | ret r => exact .refl h s
  | raise => exact .refl h s
  | suspend rest ih => exact .refl h s
  | get id k ih =>
    refine Advances.trans ?_ (ih _ _)
    exact (advances_track h _ s).trans (advances_note h id _)
  | peek id k ih => exact (advances_track h _ s).trans (ih _ _)
  | getAsync id k ih =>
    rw [advance]
    split
    · exact (advances_track h _ s).trans (ih _ _)
    · exact advances_track h _ s

/-! ### Steps -/

theorem Linked.popDependents (hs : s.Linked) (h : Handle I) : (s.popDependents h).Linked := by
  intro d x
  show (d ∈ if x ∈ s.dependentsOf h then _ else _) ↔ (d, x) ∈ s.dependents.filter _
  rw [mem_filter, ← hs]
  split
  · simp [mem_filter]
  next hnot =>
    have hne (hd : d ∈ s.dependencies x) : d ≠ h := fun heq =>
      hnot (mem_dependentsOf.mpr ((hs h x).mp (heq ▸ hd)))
    simpa using hne

theorem mem_dependents_popDependents : e ∈ (s.popDependents h).dependents ↔ e ∈ s.dependents ∧ e.1 ≠ h := by
  show e ∈ s.dependents.filter _ ↔ _
  rw [mem_filter, decide_eq_true_eq]

/-- A turn of `get_async` changes nothing, or the slot was not resolved and takes the turn. -/
theorem await_cases (id : I) (future : Option ℕ) (s : AsyncContext I V) : (s.await id future).2 = s ∨
      ((s.slot id).slot.state ≠ .resolved ∧
        s.await id future = (.blocked (s.slot id).get.slot.future, s.onSlot id Runtime.get)) := by
  rw [await]
  split
  · exact .inl rfl
  · exact .inl rfl
  · exact .inl rfl
  · split
    · exact .inl rfl
    next hstate => exact .inr ⟨hstate, rfl⟩

theorem Wired.await (hs : s.Wired) (id : I) (future : Option ℕ) : (s.await id future).2.Wired := by
  obtain heq | ⟨-, heq⟩ := await_cases id future s
  · rwa [heq]
  · rw [heq]
    exact ⟨hs.linked, hs.numbered⟩

theorem finishes_run (P : Program I V) (id : I) (fut : ℕ) (prior : Option V)
    (r : Stop I V V × AsyncContext I V) : Finishes r.2 (finishRun P id fut prior r) := by
  obtain ⟨stop, s⟩ := r
  cases stop with
  | returned value =>
    rw [finishRun]
    split
    · rfl
    · rfl
  | raised => rfl
  | stopped phase => rfl

theorem finishes_effect (id : I) (j : ℕ) (r : Stop I V Bool × AsyncContext I V) :
    Finishes r.2 (finishEffect id j r) := by
  obtain ⟨stop, s⟩ := r
  cases stop with
  | _ => rfl

theorem Wired.afterDispose (hs : s.Wired) (hk : k < s.nextDisposer) (id : I) (call : ℕ) :
    (s.afterDispose k id call).Wired := by
  rw [AsyncContext.afterDispose]
  split
  · have hs' : (s.detach (.effect id)).Wired := ⟨hs.linked.detach _, hs.numbered⟩
    exact hs'.setDisposer hk _
  · exact hs.setDisposer hk _

theorem Wired.disposeEffect (hs : s.Wired) (hk : k < s.nextDisposer) (id : I) : (s.disposeEffect k id).Wired := by
  have hs' : (s.onEffect id AsyncEffect.dispose).Wired := ⟨hs.linked, hs.numbered⟩
  exact hs'.afterDispose hk id _

theorem Wired.exitBatch (hs : s.Wired) : s.exitBatch.Wired := by
  rw [AsyncContext.exitBatch]
  split
  · exact hs
  · have hs' : Wired { s with depth := 0, batchQueue := [] } := ⟨hs.linked, hs.numbered⟩
    exact hs'.notified (notified_foldl (fun s h => notified_invalidateDependents h s) _ _)
  · exact ⟨hs.linked, hs.numbered⟩

theorem Wired.apply [BEq V] (hs : s.Wired) (op : Op I V) : (s.apply op).Wired := by
  cases op with
  | set id value =>
    show (s.set id value).Wired
    rw [AsyncContext.set]
    split
    · exact hs
    · split
      · exact hs
      · have hs' : Wired { s with value := update s.value id value } := ⟨hs.linked, hs.numbered⟩
        exact hs'.notified (notified_invalidateDependents _ _)
  | invalidate id =>
    have hs' : (s.invalidateSlot id).Wired := ⟨hs.linked, hs.numbered⟩
    exact hs'.notified (notified_invalidateDependents _ _)
  | exitBatch => exact hs.exitBatch
  | effectAsync id =>
    show (s.effectAsync id).Wired
    rw [AsyncContext.effectAsync]
    split
    · exact hs
    · have hs' : Wired { s with effects := s.effects ++ [id] } := ⟨hs.linked, hs.numbered⟩
      exact hs'.notified (notified_schedule id _)
  | disposeComputed id =>
    show (s.disposeComputed id).Wired
    rw [AsyncContext.disposeComputed]
    split
    · exact hs
    · have hlinked : Linked { s with disposed := update s.disposed (.computed id) true } := hs.linked
      refine Wired.notified ?_ (notified_dirtyDisposedDependents _ _)
      exact ⟨(hlinked.detach (.computed id)).popDependents (.computed id), hs.numbered⟩
  | disposeSource id =>
    show (s.disposeSource id).Wired
    rw [AsyncContext.disposeSource]
    split
    · exact hs
    · have hlinked : Linked { s with disposed := update s.disposed (.source id) true } := hs.linked
      refine Wired.notified ?_ (notified_dirtyDisposedDependents _ _)
      exact ⟨hlinked.popDependents (.source id), hs.numbered⟩
  | _ => exact ⟨hs.linked, hs.numbered⟩

theorem Wired.disposeAsync (hs : s.Wired) (id : I) : (s.disposeAsync id).Wired := by
  have hs' : Wired { s with
      disposed := update s.disposed (.effect id) true
      effects := s.effects.filter (· ≠ id)
      flushTask := update s.flushTask id none
      nextDisposer := s.nextDisposer + 1 } := ⟨hs.linked, fun k hk => hs.numbered k (Nat.le_of_succ_le hk)⟩
  have hlt := Nat.lt_succ_self s.nextDisposer
  rw [AsyncContext.disposeAsync]
  split
  · split
    · exact hs'.disposeEffect hlt id
    · exact hs'.setDisposer hlt _
  · exact hs'.disposeEffect hlt id

theorem Wired.turn (hs : s.Wired) (P : Program I V) (turn : Turn I) : (s.turn P turn).Wired := by
  have hsame : ∀ f id, (s.onEffect id f).Wired := fun _ _ => ⟨hs.linked, hs.numbered⟩
  cases turn with
  | getAsync id =>
    show (s.getAsync id).Wired
    rw [AsyncContext.getAsync]
    split
    · exact hs
    · exact ⟨hs.linked, hs.numbered⟩
  | disposeAsync id => exact hs.disposeAsync id
  | begin id =>
    show (s.begin P id).Wired
    rw [AsyncContext.begin]
    split
    · exact hs
    · refine Wired.finishes (Wired.of_advances ?_ (advances ..)) (finishes_run ..)
      exact ⟨Linked.detach hs.linked _, hs.numbered⟩
  | resume id fut =>
    show (s.resume P id fut).Wired
    rw [AsyncContext.resume]
    split
    · exact (hs.of_advances (advances ..)).finishes (finishes_run ..)
    · exact hs
  | wake id fut =>
    show (s.wake id fut).Wired
    rw [AsyncContext.wake]
    split
    · exact ⟨(hs.await _ _).linked, (hs.await _ _).numbered⟩
    · exact hs
  | wakeCaller k =>
    show (s.wakeCaller k).Wired
    rw [AsyncContext.wakeCaller]
    split
    · exact ⟨(hs.await _ _).linked, (hs.await _ _).numbered⟩
    · exact hs
  | startFlush id =>
    show (s.startFlush id).Wired
    rw [AsyncContext.startFlush]
    split
    · exact hsame _ id
    · exact hs
  | startBody id j =>
    show (s.startBody P id j).Wired
    rw [AsyncContext.startBody]
    split
    · split
      · exact hsame _ id
      · refine Wired.finishes (Wired.of_advances ?_ (advances ..)) (finishes_effect ..)
        exact ⟨Linked.detach hs.linked _, hs.numbered⟩
    · exact hs
  | resumeEffect id j =>
    show (s.resumeEffect id j).Wired
    rw [AsyncContext.resumeEffect]
    split
    · exact (hs.of_advances (advances ..)).finishes (finishes_effect ..)
    · exact hs
  | wakeEffect id j =>
    show (s.wakeEffect id j).Wired
    rw [AsyncContext.wakeEffect]
    split
    · exact ⟨(hs.await _ _).linked, (hs.await _ _).numbered⟩
    · exact hs
  | resumeDispose k =>
    show (s.resumeDispose k).Wired
    rw [AsyncContext.resumeDispose]
    split
    next id task hk =>
      split
      · exact hs.disposeEffect (hs.numbered.lt hk) id
      · exact hs
    next id call hk => exact (hsame _ id).afterDispose (hs.numbered.lt hk) id call
    next => exact hs
  | endCleaning k =>
    show (s.endCleaning k).Wired
    rw [AsyncContext.endCleaning]
    split
    next id call hk => exact (hsame _ id).afterDispose (hs.numbered.lt hk) id call
    next => exact hs
  | _ => exact hsame _ _

theorem Wired.step [BEq V] (hs : s.Wired) (P : Program I V) (event : Event I V) : (s.step P event).Wired := by
  cases event with
  | op op => exact hs.apply op
  | turn turn =>
    rw [AsyncContext.step]
    split
    · exact hs.turn P turn
    · exact hs

end AsyncContext

/-- In every run the two entries of an edge agree, and the calls of `dispose_async` are numbered. -/
theorem wired_run [DecidableEq I] [BEq V] (P : Program I V) (value : I → V) (events : List (Event I V)) :
    (run P value events).Wired := by
  induction events using reverseRecOn with
  | nil => exact ⟨fun _ _ => iff_of_false not_mem_nil not_mem_nil, fun _ _ => rfl⟩
  | append_singleton events event ih =>
    rw [run_concat]
    exact ih.step P event

/-- In every run each edge is known at both of its ends. -/
theorem edges_symmetric [DecidableEq I] [BEq V] (P : Program I V) (value : I → V) (events : List (Event I V))
    (d x : Handle I) : d ∈ (run P value events).dependencies x ↔ (d, x) ∈ (run P value events).dependents :=
  (wired_run P value events).linked d x

end LazilyPy.Async.Context

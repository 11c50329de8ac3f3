import LazilyPy.Async.Edges

/-!
# What a turn leaves alone

A turn of the event loop concerns at most one effect. Whatever else there is of the context, the fields of the
other effects, the edges to them and what they have read stay as they are.
-/

namespace LazilyPy.Async.Context

open Function

open Effect (AsyncEffect)

variable {I V R : Type}

namespace AsyncContext

variable {s s' s₁ : AsyncContext I V} {e id : I} {h d : Handle I} {k j : ℕ} {P : Program I V}

/-- Nothing changes that concerns the effect `e`. -/
structure Spares (e : I) (s s' : AsyncContext I V) : Prop where
  value : s'.value = s.value
  sources : ∀ id, s'.disposed (.source id) = s.disposed (.source id)
  depth : s'.depth = s.depth
  batchQueue : s'.batchQueue = s.batchQueue
  running : s'.running = s.running
  disposed : s'.disposed (.effect e) = s.disposed (.effect e)
  effects : e ∈ s'.effects ↔ e ∈ s.effects
  effect : s'.effect e = s.effect e
  flushTask : s'.flushTask e = s.flushTask e
  flushTasks : s'.flushTasks e = s.flushTasks e
  effectRuns : s'.effectRuns e = s.effectRuns e
  starts : s'.starts (.effect e) = s.starts (.effect e)
  executions : s'.executions e = s.executions e
  reads : s'.reads e = s.reads e
  edges : ∀ d, (d, .effect e) ∈ s'.dependents ↔ (d, .effect e) ∈ s.dependents
  disposers : ∀ k t, s'.disposers k = some (e, t) ↔ s.disposers k = some (e, t)

theorem Spares.refl (e : I) (s : AsyncContext I V) : Spares e s s :=
  ⟨rfl, fun _ => rfl, rfl, rfl, rfl, rfl, .rfl, rfl, rfl, rfl, rfl, rfl, rfl, rfl, fun _ => .rfl, fun _ _ => .rfl⟩

theorem Spares.trans (h : Spares e s s₁) (h' : Spares e s₁ s') : Spares e s s' where
  value := h'.value.trans h.value
  sources id := (h'.sources id).trans (h.sources id)
  depth := h'.depth.trans h.depth
  batchQueue := h'.batchQueue.trans h.batchQueue
  running := h'.running.trans h.running
  disposed := h'.disposed.trans h.disposed
  effects := h'.effects.trans h.effects
  effect := h'.effect.trans h.effect
  flushTask := h'.flushTask.trans h.flushTask
  flushTasks := h'.flushTasks.trans h.flushTasks
  effectRuns := h'.effectRuns.trans h.effectRuns
  starts := h'.starts.trans h.starts
  executions := h'.executions.trans h.executions
  reads := h'.reads.trans h.reads
  edges d := (h'.edges d).trans (h.edges d)
  disposers k t := (h'.disposers k t).trans (h.disposers k t)

/-- The turns that may change something of the effect `e`. -/
def Concerns (e : I) (s : AsyncContext I V) : Turn I → Prop
  | .disposeAsync id | .startFlush id | .startBody id _ | .resumeEffect id _ | .wakeEffect id _ => id = e
  | .beginCleanup id _ | .endCleanup id _ | .resumeFlush id _ | .endRelease id _ => id = e
  | .resumeDispose k | .endCleaning k => ∃ t, s.disposers k = some (e, t)
  | _ => False

variable [DecidableEq I]

/-! ### Bodies -/

theorem spares_onSlot (e : I) (id : I) (f : Runtime V Unit → Runtime V Unit) (s : AsyncContext I V) :
    Spares e s (s.onSlot id f) :=
  ⟨rfl, fun _ => rfl, rfl, rfl, rfl, rfl, .rfl, rfl, rfl, rfl, rfl, rfl, rfl, rfl, fun _ => .rfl, fun _ _ => .rfl⟩

section

variable (hne : h ≠ .effect e)

include hne

theorem spares_track (d : Handle I) (s : AsyncContext I V) : Spares e s (s.track h d) := by
  rw [track]
  split
  · exact .refl e s
  · refine ⟨rfl, fun _ => rfl, rfl, rfl, rfl, rfl, .rfl, rfl, rfl, rfl, rfl, rfl, rfl, rfl, fun x => ?_,
      fun _ _ => .rfl⟩
    show (x, .effect e) ∈ s.dependents.insert (d, h) ↔ _
    rw [List.mem_insert_iff, or_iff_right]
    rintro ⟨⟩
    exact hne rfl

theorem spares_note (id : I) (s : AsyncContext I V) : Spares e s (s.note h id) := by
  cases h with
  | effect e' =>
    rw [note]
    split
    · exact .refl e s
    · have hne' : e ≠ e' := fun heq => hne (congrArg Handle.effect heq.symm)
      have hreads : update s.reads e' (s.reads e' ++ [(id, s.value id)]) e = s.reads e := update_of_ne hne' ..
      exact ⟨rfl, fun _ => rfl, rfl, rfl, rfl, rfl, .rfl, rfl, rfl, rfl, rfl, rfl, rfl, hreads, fun _ => .rfl,
        fun _ _ => .rfl⟩
  | _ => exact .refl e s

theorem spares_detach (s : AsyncContext I V) : Spares e s (s.detach h) := by
  refine ⟨rfl, fun _ => rfl, rfl, rfl, rfl, rfl, .rfl, rfl, rfl, rfl, rfl, rfl, rfl, rfl, fun x => ?_, fun _ _ => .rfl⟩
  show (x, .effect e) ∈ s.dependents.filter _ ↔ _
  rw [List.mem_filter, decide_eq_true_eq, and_iff_left]
  exact fun hand => hne hand.2.symm

theorem spares_countStart (s : AsyncContext I V) : Spares e s (s.countStart h) :=
  ⟨rfl, fun _ => rfl, rfl, rfl, rfl, rfl, .rfl, rfl, rfl, rfl, rfl, update_of_ne hne.symm .., rfl, rfl,
    fun _ => .rfl, fun _ _ => .rfl⟩

/-- A body spares the effects that it is not the body of. -/
theorem spares_advance (body : Body I V R) (s : AsyncContext I V) :
    Spares e s (advance h body s).2 := by
  induction body generalizing s with
  | ret r => exact .refl e s
  | raise => exact .refl e s
  | suspend rest ih => exact .refl e s
  | get id k ih => exact ((spares_track hne _ s).trans (spares_note hne id _)).trans (ih _ _)
  | peek id k ih => exact (spares_track hne _ s).trans (ih _ _)
  | getAsync id k ih =>
    rw [advance]
    split
    · exact (spares_track hne _ s).trans (ih _ _)
    · exact spares_track hne _ s

end

theorem spares_await (e : I) (id : I) (future : Option ℕ) (s : AsyncContext I V) :
    Spares e s (s.await id future).2 := by
  obtain heq | ⟨-, heq⟩ := await_cases id future s
  · rw [heq]
    exact .refl e s
  · rw [heq]
    exact spares_onSlot e id _ s

theorem spares_setRun (e : I) (id : I) (fut : ℕ) (r : Option (Run I V)) (s : AsyncContext I V) :
    Spares e s (s.setRun id fut r) :=
  ⟨rfl, fun _ => rfl, rfl, rfl, rfl, rfl, .rfl, rfl, rfl, rfl, rfl, rfl, rfl, rfl, fun _ => .rfl, fun _ _ => .rfl⟩

theorem spares_finishRun (e : I) (id : I) (fut : ℕ) (prior : Option V) (r : Stop I V V × AsyncContext I V) :
    Spares e r.2 (finishRun P id fut prior r) := by
  obtain ⟨stop, s⟩ := r
  cases stop with
  | returned value =>
    rw [finishRun]
    split
    · exact (spares_setRun e id fut none s).trans (spares_onSlot e id _ _)
    · exact ⟨rfl, fun _ => rfl, rfl, rfl, rfl, rfl, .rfl, rfl, rfl, rfl, rfl, rfl, rfl, rfl, fun _ => .rfl,
        fun _ _ => .rfl⟩
  | raised => exact (spares_setRun e id fut none s).trans (spares_onSlot e id _ _)
  | stopped phase => exact spares_setRun e id fut _ s

/-- What the body of an effect changes that goes on: what it reads now is noted with an edge. -/
structure Registers (e : I) (s s' : AsyncContext I V) : Prop where
  advances : Advances (.effect e) s s'
  reads : ∀ p ∈ s'.reads e, p ∈ s.reads e ∨ s.value p.1 = p.2 ∧ (.source p.1, .effect e) ∈ s'.dependents

omit [DecidableEq I] in
theorem Registers.trans (h : Registers e s s₁) (h' : Registers e s₁ s') : Registers e s s' where
  advances := h.advances.trans h'.advances
  reads p hp := by
    obtain hp | ⟨hvalue, hedge⟩ := h'.reads p hp
    · exact (h.reads p hp).imp_right fun hr => ⟨hr.1, h'.advances.subset hr.2⟩
    · exact .inr ⟨by rwa [← h.advances.value], hedge⟩

theorem registers_track (e : I) (d : Handle I) (s : AsyncContext I V) : Registers e s (s.track (.effect e) d) := by
  refine ⟨advances_track _ d s, fun p hp => .inl ?_⟩
  rw [track] at hp
  split at hp
  · exact hp
  · exact hp

/-- A source that is read is noted after its edge has been entered. -/
theorem registers_get (hs : s.Linked) (e id : I) :
    Registers e s ((s.track (.effect e) (.source id)).note (.effect e) id) := by
  refine ⟨(advances_track _ _ s).trans (advances_note _ id _), fun p hp => ?_⟩
  have hadvances := advances_track (.effect e) (.source id) s
  have hedge := mem_dependents_track hs (.effect e) (.source id)
  have hreads := (registers_track e (.source id) s).reads
  generalize s.track (.effect e) (.source id) = s₁ at hp hadvances hedge hreads ⊢
  rw [note] at hp ⊢
  split
  next hdisposed =>
    rw [if_pos hdisposed] at hp
    exact hreads p hp
  next hdisposed =>
    rw [if_neg hdisposed] at hp
    have hmem : p ∈ s₁.reads e ++ [(id, s₁.value id)] := by
      have heq : update s₁.reads e (s₁.reads e ++ [(id, s₁.value id)]) e =
          s₁.reads e ++ [(id, s₁.value id)] := update_self ..
      rwa [← heq]
    obtain hold | hnew := List.mem_append.mp hmem
    · exact hreads p hold
    · rw [List.mem_singleton.mp hnew]
      exact .inr ⟨by rw [hadvances.value], hedge⟩

/-- What a body has read is noted with an edge. -/
theorem registers_advance (hs : s.Linked) (e : I) (body : Body I V R) :
    Registers e s (advance (.effect e) body s).2 := by
  induction body generalizing s with
  | ret r => exact ⟨.refl _ s, fun _ hp => .inl hp⟩
  | raise => exact ⟨.refl _ s, fun _ hp => .inl hp⟩
  | suspend rest ih => exact ⟨.refl _ s, fun _ hp => .inl hp⟩
  | get id k ih =>
    have hget := registers_get hs e id
    exact hget.trans (ih _ (hget.advances.linked hs))
  | peek id k ih =>
    have htrack := registers_track e (.computed id) s
    exact htrack.trans (ih _ (htrack.advances.linked hs))
  | getAsync id k ih =>
    have htrack := registers_track e (.computed id) s
    rw [advance]
    split
    · exact htrack.trans (ih _ (htrack.advances.linked hs))
    · exact htrack

/-! ### Effects -/

theorem spares_onEffect (hne : e ≠ id) (f : AsyncEffect → AsyncEffect) (s : AsyncContext I V) :
    Spares e s (s.onEffect id f) :=
  ⟨rfl, fun _ => rfl, rfl, rfl, rfl, rfl, .rfl, update_of_ne hne .., rfl, rfl, rfl, rfl, rfl, rfl,
    fun _ => .rfl, fun _ _ => .rfl⟩

theorem spares_setEffectRun (hne : e ≠ id) (j : ℕ) (phase : Option (Phase I V Bool)) (s : AsyncContext I V) :
    Spares e s (s.setEffectRun id j phase) :=
  ⟨rfl, fun _ => rfl, rfl, rfl, rfl, rfl, .rfl, rfl, rfl, rfl, update_of_ne hne .., rfl, rfl, rfl,
    fun _ => .rfl, fun _ _ => .rfl⟩

theorem spares_finishEffect (hne : e ≠ id) (j : ℕ) (r : Stop I V Bool × AsyncContext I V) :
    Spares e r.2 (finishEffect id j r) := by
  obtain ⟨stop, s⟩ := r
  have hcount (f : AsyncEffect → AsyncEffect) : Spares e s
      (({ s with executions := update s.executions id (s.executions id + 1) }.setEffectRun id j
        none).onEffect id f) := by
    refine Spares.trans ?_ ((spares_setEffectRun hne j none _).trans (spares_onEffect hne f _))
    exact ⟨rfl, fun _ => rfl, rfl, rfl, rfl, rfl, .rfl, rfl, rfl, rfl, rfl, rfl, update_of_ne hne ..,
      rfl, fun _ => .rfl, fun _ _ => .rfl⟩
  cases stop with
  | stopped phase => exact spares_setEffectRun hne j _ s
  | raised => exact hcount _
  | returned returns => exact hcount _

theorem spares_startBody (hne : e ≠ id) (j : ℕ) (s : AsyncContext I V) : Spares e s (s.startBody P id j) := by
  have hhandle : Handle.effect id ≠ .effect e := fun heq => hne (Handle.effect.inj heq).symm
  rw [startBody]
  split
  · split
    · exact spares_onEffect hne _ s
    · have hreset : Spares e s { s with reads := update s.reads id [] } :=
        ⟨rfl, fun _ => rfl, rfl, rfl, rfl, rfl, .rfl, rfl, rfl, rfl, rfl, rfl, rfl,
          update_of_ne hne .., fun _ => .rfl, fun _ _ => .rfl⟩
      have hstart := (hreset.trans (spares_countStart hhandle _)).trans (spares_detach hhandle _)
      exact (hstart.trans (spares_advance hhandle _ _)).trans (spares_finishEffect hne j _)
  · exact .refl e s

theorem spares_schedule (hne : e ≠ id) (s : AsyncContext I V) : Spares e s (s.schedule id) := by
  rw [schedule]
  split
  · exact .refl e s
  · have hinvalidate := spares_onEffect hne AsyncEffect.invalidate s
    dsimp only
    split
    · refine hinvalidate.trans ?_
      rw [createFlush]
      split
      · exact ⟨rfl, fun _ => rfl, rfl, rfl, rfl, rfl, .rfl, rfl, update_of_ne hne ..,
          update_of_ne hne .., rfl, rfl, rfl, rfl, fun _ => .rfl, fun _ _ => .rfl⟩
      · exact ⟨rfl, fun _ => rfl, rfl, rfl, rfl, rfl, .rfl, rfl, update_of_ne hne .., rfl, rfl, rfl,
          rfl, rfl, fun _ => .rfl, fun _ _ => .rfl⟩
    · exact hinvalidate

theorem spares_notify (hne : h ≠ .effect e) (s : AsyncContext I V) : Spares e s (s.notify h) := by
  cases h with
  | source id => exact .refl e s
  | computed id => exact spares_onSlot e id (fun r => { r with slot := r.slot.invalidate }) s
  | effect id => exact spares_schedule (fun heq => hne (congrArg _ heq.symm)) s

theorem spares_dirtyDisposedDependents (e : I) (roots : List (Handle I)) (s : AsyncContext I V) :
    Spares e s (s.dirtyDisposedDependents roots) := by
  rw [dirtyDisposedDependents]
  generalize s.walk roots = l
  induction l generalizing s with
  | nil => exact .refl e s
  | cons x l ih =>
    refine Spares.trans ?_ (ih _)
    cases x with
    | computed id => exact spares_onSlot e id (fun r => { r with slot := r.slot.invalidate }) s
    | _ => exact .refl e s

theorem afterDispose_eq (k : ℕ) (id : I) (call : ℕ) (s : AsyncContext I V) : s.afterDispose k id call = { s with
    dependents := (s.afterDispose k id call).dependents
    dependencies := (s.afterDispose k id call).dependencies
    disposers := (s.afterDispose k id call).disposers } := by
  rw [afterDispose]
  split
  · rfl
  · rfl

section

variable (hne : e ≠ id) (hk : ∀ t, s.disposers k ≠ some (e, t))

include hne hk

omit [DecidableEq I] in
/-- A dispose of another effect is noted under its own number. -/
theorem spares_setDisposer (point : Disposing) :
    Spares e s (s.setDisposer k (id, point)) := by
  refine ⟨rfl, fun _ => rfl, rfl, rfl, rfl, rfl, .rfl, rfl, rfl, rfl, rfl, rfl, rfl, rfl, fun _ => .rfl, fun k' t => ?_⟩
  show update s.disposers k (some (id, point)) k' = some (e, t) ↔ _
  by_cases hk' : k' = k
  · subst hk'
    rw [update_self]
    refine iff_of_false (fun heq => ?_) (hk t)
    exact hne (Prod.mk.inj (Option.some.inj heq)).1.symm
  · rw [update_of_ne hk']

theorem spares_afterDispose (call : ℕ) :
    Spares e s (s.afterDispose k id call) := by
  have hhandle : Handle.effect id ≠ .effect e := fun heq => hne (Handle.effect.inj heq).symm
  rw [afterDispose]
  split
  · have hk' : ∀ t, (s.detach (.effect id)).disposers k ≠ some (e, t) := hk
    exact (spares_detach hhandle s).trans (spares_setDisposer hne hk' _)
  · exact spares_setDisposer hne hk _

theorem spares_disposeEffect :
    Spares e s (s.disposeEffect k id) := by
  have heffect := spares_onEffect hne AsyncEffect.dispose s
  have hk' : ∀ t, (s.onEffect id AsyncEffect.dispose).disposers k ≠ some (e, t) := hk
  exact heffect.trans (spares_afterDispose hne hk' _)

end

theorem spares_disposeAsync (hs : s.Numbered) (hne : e ≠ id) : Spares e s (s.disposeAsync id) := by
  have hhandle : Handle.effect e ≠ .effect id := fun heq => hne (Handle.effect.inj heq)
  have hmark : Spares e s { s with
      disposed := update s.disposed (.effect id) true
      effects := s.effects.filter (· ≠ id)
      flushTask := update s.flushTask id none
      nextDisposer := s.nextDisposer + 1 } := by
    have hother (i : I) : Handle.source i ≠ .effect id := nofun
    have hsource (i : I) : update s.disposed (.effect id) true (.source i) = s.disposed (.source i) :=
      update_of_ne (hother i) ..
    refine ⟨rfl, hsource, rfl, rfl, rfl, update_of_ne hhandle .., ?_,
      rfl, update_of_ne hne .., rfl, rfl, rfl, rfl, rfl, fun _ => .rfl, fun _ _ => .rfl⟩
    simp [List.mem_filter, hne]
  have hk : ∀ t, s.disposers s.nextDisposer ≠ some (e, t) := by
    intro t
    rw [hs _ le_rfl]
    nofun
  rw [disposeAsync]
  split
  · split
    · exact hmark.trans (spares_disposeEffect hne hk)
    · refine hmark.trans (spares_setDisposer hne ?_ _)
      exact hk
  · exact hmark.trans (spares_disposeEffect hne hk)

omit [DecidableEq I] in
/-- What has another effect has no part of `e`. -/
theorem not_disposers_of_ne {t : Disposing} (hk : s.disposers k = some (id, t))
    (hnot : ¬ ∃ t, s.disposers k = some (e, t)) : e ≠ id ∧ ∀ t, s.disposers k ≠ some (e, t) := by
  refine ⟨?_, fun t ht => hnot ⟨t, ht⟩⟩
  rintro rfl
  exact hnot ⟨t, hk⟩

/-- A turn spares the effects that it does not concern. -/
theorem spares_turn (hs : s.Numbered) (turn : Turn I) (hnot : ¬ s.Concerns e turn) : Spares e s (s.turn P turn) := by
  have hcomputed (id : I) : Handle.computed id ≠ .effect e := nofun
  cases turn with
  | getAsync id =>
    show Spares e s (s.getAsync id)
    rw [getAsync]
    split
    · exact .refl e s
    · exact ⟨rfl, fun _ => rfl, rfl, rfl, rfl, rfl, .rfl, rfl, rfl, rfl, rfl, rfl, rfl, rfl, fun _ => .rfl,
        fun _ _ => .rfl⟩
  | disposeAsync id => exact spares_disposeAsync hs (Ne.symm hnot)
  | begin id =>
    show Spares e s (s.begin P id)
    rw [begin]
    split
    · exact .refl e s
    · refine Spares.trans ?_ (spares_finishRun e id _ _ _)
      refine Spares.trans ?_ (spares_advance (hcomputed id) _ _)
      refine Spares.trans ?_ (spares_detach (hcomputed id) _)
      exact (spares_onSlot e id _ s).trans (spares_countStart (hcomputed id) _)
  | resume id fut =>
    show Spares e s (s.resume P id fut)
    rw [resume]
    split
    · exact (spares_advance (hcomputed id) _ s).trans (spares_finishRun e id _ _ _)
    · exact .refl e s
  | wake id fut =>
    show Spares e s (s.wake id fut)
    rw [wake]
    split
    · exact (spares_await e _ _ s).trans (spares_setRun e id fut _ _)
    · exact .refl e s
  | wakeCaller k =>
    show Spares e s (s.wakeCaller k)
    rw [wakeCaller]
    split
    next dep future _ =>
      refine (spares_await e dep future s).trans ?_
      exact ⟨rfl, fun _ => rfl, rfl, rfl, rfl, rfl, .rfl, rfl, rfl, rfl, rfl, rfl, rfl, rfl, fun _ => .rfl,
        fun _ _ => .rfl⟩
    next => exact .refl e s
  | startFlush id =>
    show Spares e s (s.startFlush id)
    rw [startFlush]
    split
    · exact spares_onEffect (Ne.symm hnot) _ s
    · exact .refl e s
  | startBody id j => exact spares_startBody (Ne.symm hnot) j s
  | resumeEffect id j =>
    have hne : e ≠ id := Ne.symm hnot
    show Spares e s (s.resumeEffect id j)
    rw [resumeEffect]
    split
    · refine (spares_advance ?_ _ s).trans (spares_finishEffect hne j _)
      exact fun heq => hne (Handle.effect.inj heq).symm
    · exact .refl e s
  | wakeEffect id j =>
    show Spares e s (s.wakeEffect id j)
    rw [wakeEffect]
    split
    · exact (spares_await e _ _ s).trans (spares_setEffectRun (Ne.symm hnot) j _ _)
    · exact .refl e s
  | beginCleanup id task => exact spares_onEffect (Ne.symm hnot) _ s
  | endCleanup id task => exact spares_onEffect (Ne.symm hnot) _ s
  | resumeFlush id j => exact spares_onEffect (Ne.symm hnot) _ s
  | endRelease id j => exact spares_onEffect (Ne.symm hnot) _ s
  | resumeDispose k =>
    show Spares e s (s.resumeDispose k)
    rw [resumeDispose]
    split
    next id task hk =>
      obtain ⟨hne, hk'⟩ := not_disposers_of_ne hk hnot
      split
      · exact spares_disposeEffect hne hk'
      · exact .refl e s
    next id call hk =>
      obtain ⟨hne, hk'⟩ := not_disposers_of_ne hk hnot
      refine (spares_onEffect hne (AsyncEffect.resumeDispose call) s).trans (spares_afterDispose hne ?_ call)
      exact hk'
    next => exact .refl e s
  | endCleaning k =>
    show Spares e s (s.endCleaning k)
    rw [endCleaning]
    split
    next id call hk =>
      obtain ⟨hne, hk'⟩ := not_disposers_of_ne hk hnot
      refine (spares_onEffect hne (AsyncEffect.endCleaning call) s).trans (spares_afterDispose hne ?_ call)
      exact hk'
    next => exact .refl e s

end AsyncContext

end LazilyPy.Async.Context

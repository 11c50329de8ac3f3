import LazilyPy.Async.Edges
import LazilyPy.Async.Order

/-!
# What the guard of a computed compares with

A run of a computed notes what has been memoized when it begins, and memoizes what it returns unless the guard finds the
two equal. It does so before the slot looks whether the run is still the current one, so a run that has been superseded
memoizes a value that is not published.
-/

namespace LazilyPy.Async

open List Option Function

/-! ## The slot -/

namespace Runtime

variable {V E : Type} {r r' r₁ : Runtime V E} {fut : ℕ} {value : Option V} {error : E} {d : Drive}

def published (r r' : Runtime V E) : Option V :=
  if r.slot.state ≠ .resolved ∧ r'.slot.state = .resolved then r'.slot.value else none

structure Passes (r r' : Runtime V E) : Prop where
  valid : r.Valid → r'.Valid
  current : r.Valid → ∀ fut, r'.Current fut → r.Current fut
  resolved : r'.slot.state = .resolved → r.slot.state = .resolved
  begun : ∀ d ∈ r.drives, d.rev ≠ none → d ∈ r'.drives

theorem Passes.refl (r : Runtime V E) : Passes r r :=
  ⟨fun hv => hv, fun _ _ hc => hc, fun hr => hr, fun _ hd _ => hd⟩

theorem Passes.trans (h : Passes r r₁) (h' : Passes r₁ r') : Passes r r' where
  valid hv := h'.valid (h.valid hv)
  current hv fut hc := h.current hv fut (h'.current (h.valid hv) fut hc)
  resolved hr := h.resolved (h'.resolved hr)
  begun d hd hrev := h'.begun d (h.begun d hd hrev) hrev

theorem Passes.published (h : Passes r r') : published r r' = none :=
  if_neg fun hp => hp.1 (h.resolved hp.2)

theorem passes_invalidate (r : Runtime V E) : Passes r { r with slot := r.slot.invalidate } := by
  by_cases herror : r.slot.state = .error
  · have hslot : r.slot.invalidate = { r.slot with revision := r.slot.revision + 1 } := by
      simp [AsyncSlot.invalidate, herror]
    refine ⟨fun hv => hv.invalidate, fun _ fut hc => ?_, fun hr => ?_, fun d hd _ => hd⟩
    · rwa [hslot] at hc
    · rwa [hslot] at hr
  · refine ⟨fun hv => hv.invalidate, fun _ fut hc => ?_, fun hr => ?_, fun d hd _ => hd⟩
    · rw [invalidate_eq herror] at hc
      cases hc.1
    · rw [invalidate_eq herror] at hr
      cases hr

theorem passes_hardClear (r : Runtime V E) : Passes r { r with slot := r.slot.hardClear } := by
  refine ⟨fun hv => hv.advance rfl (.inl rfl) nofun fun _ => rfl, fun _ fut => ?_, nofun, fun d hd _ => hd⟩
  rintro ⟨hfuture, -⟩
  cases hfuture

theorem passes_spawn (hv : r.Valid → ∀ d ∈ r.drives, r.slot.future ≠ some d.future) : Passes r r.spawn := by
  refine ⟨fun h => h.spawn (hv h), fun h fut => ?_, nofun, fun d hd _ => mem_append_left _ hd⟩
  rintro ⟨hfuture, d, hd, rfl, hrev⟩
  have hnext : r.nextFuture = d.future := some.inj hfuture
  obtain hd | hd := mem_append.mp hd
  · have hlt := h.drives d hd
    omega
  · rw [mem_singleton.mp hd] at hrev
    exact absurd rfl hrev

theorem passes_get (r : Runtime V E) : Passes r r.get := by
  unfold Runtime.get
  split
  · exact .refl r
  · split
    next herror => exact passes_spawn fun hv => hv.ne_of_not_computing (by simp [herror])
    · split
      next hidle =>
        refine passes_spawn fun hv => ?_
        obtain hempty | hnone := hidle
        · exact hv.ne_of_not_computing (by simp [hempty])
        · exact fun d _ hfut => by simp [hnone] at hfut
      · exact .refl r

/-! ### Runs -/

/-- Of the runs that have not returned, each has a task that has begun, and the one of the slot's future has found
memoized what has been published last, as it is memoized now. -/
structure Kept (r : Runtime V E) (priors : ℕ → Option (Option V)) (memo last : Option V) : Prop where
  valid : r.Valid
  begun : ∀ fut prior, priors fut = some prior → ∃ d ∈ r.drives, d.future = fut ∧ d.rev ≠ none
  memo : memo = last
  prior : ∀ fut prior, priors fut = some prior → r.slot.future = some fut → prior = last

variable {priors priors' : ℕ → Option (Option V)} {memo last prior : Option V} {v : V}

theorem Kept.passes (h : Kept r priors memo last) (hp : Passes r r') : Kept r' priors memo last := by
  have hbegun : ∀ fut prior, priors fut = some prior → ∃ d ∈ r'.drives, d.future = fut ∧ d.rev ≠ none := by
    intro fut prior hrun
    obtain ⟨d, hd, hfut, hrev⟩ := h.begun fut prior hrun
    exact ⟨d, hp.begun d hd hrev, hfut, hrev⟩
  refine ⟨hp.valid h.valid, hbegun, h.memo, fun fut prior hrun hfut => ?_⟩
  exact h.prior fut prior hrun (hp.current h.valid fut ⟨hfut, hbegun fut prior hrun⟩).1

/-- A task begins, and its run notes what is memoized. -/
theorem Kept.begins (h : Kept r priors memo last) (hd : d ∈ r.drives) (hrev : d.rev = none) :
    Kept (r.begins d.future) (update priors d.future (some memo)) memo last := by
  refine ⟨h.valid.begins _, fun fut prior hrun => ?_, h.memo, fun fut prior hrun hfut => ?_⟩
  · by_cases hsame : fut = d.future
    · subst hsame
      exact ⟨_, (mem_begins h.valid hd hrev).mpr (.inr rfl), rfl, some_ne_none _⟩
    · rw [update_of_ne hsame] at hrun
      obtain ⟨d', hd', rfl, hrev'⟩ := h.begun fut prior hrun
      exact ⟨d', (mem_begins h.valid hd hrev).mpr (.inl ⟨hd', hsame⟩), rfl, hrev'⟩
  · by_cases hsame : fut = d.future
    · subst hsame
      rw [update_self] at hrun
      obtain rfl := some.inj hrun
      exact h.memo
    · rw [update_of_ne hsame] at hrun
      exact h.prior fut prior hrun hfut

/-- The run of the slot's future is the current one. -/
theorem Kept.current_iff (h : Kept r priors memo last) (hrun : priors fut = some prior) :
    r.Current fut ↔ r.slot.future = some fut :=
  ⟨And.left, fun hfut => ⟨hfut, h.begun fut prior hrun⟩⟩

/-- A run is over, and its task is done. -/
theorem Kept.finish (h : Kept r priors memo last) {s : AsyncSlot V E} {memo' last' : Option V}
    (hv : (Runtime.finish fut { r with slot := s }).Valid) (hmemo : memo' = last')
    (hslot : s.future = some fut ∨ s = r.slot ∧ last' = last) :
    Kept (Runtime.finish fut { r with slot := s }) (update priors fut none) memo' last' := by
  have hne : ∀ fut' prior, update priors fut none fut' = some prior → fut' ≠ fut := by
    rintro _ prior hrun rfl
    rw [update_self] at hrun
    cases hrun
  refine ⟨hv, fun fut' prior hrun => ?_, hmemo, fun fut' prior hrun hfut => ?_⟩
  · have hsame := hne fut' prior hrun
    rw [update_of_ne hsame] at hrun
    obtain ⟨d, hd, rfl, hrev⟩ := h.begun fut' prior hrun
    exact ⟨d, mem_filter.mpr ⟨hd, by simpa using hsame⟩, rfl, hrev⟩
  · have hsame := hne fut' prior hrun
    rw [update_of_ne hsame] at hrun
    obtain hslot | ⟨rfl, rfl⟩ := hslot
    · exact absurd (some.inj (hfut.symm.trans hslot)) hsame
    · exact h.prior fut' prior hrun hfut

theorem Kept.resolve (h : Kept r priors memo last) (fut : ℕ) (outcome : Future V E) :
    Kept (r.resolve fut outcome) priors memo last := by
  refine ⟨h.valid.resolve fut outcome, ?_, h.memo, ?_⟩
  · rw [drives_resolve]
    exact h.begun
  · rw [slot_resolve]
    exact h.prior

/-- The current run returns: what it completes with is published, and memoized already. -/
theorem Kept.complete (h : Kept r priors memo last) (hrun : priors fut = some prior)
    (hfut : r.slot.future = some fut) (value : Option V) :
    Kept (r.completeOk fut value) (update priors fut none) value value ∧
      published r (r.completeOk fut value) = value := by
  obtain ⟨d, hd, rfl, -⟩ := h.begun fut prior hrun
  have hcomputing := (h.valid.current d hd hfut).1
  rw [completeOk_current h.valid ((h.current_iff hrun).mpr hfut), finish_resolve]
  constructor
  · have hkept : Kept (Runtime.finish d.future { r with slot :=
        { r.slot with state := .resolved, computeRev := none, value } }) (update priors d.future none)
        value value := h.finish (h.valid.publish hfut rfl rfl nofun nofun) rfl (.inl hfut)
    exact hkept.resolve _ _
  · unfold published
    rw [slot_resolve, if_pos ⟨by simp [hcomputing], rfl⟩]
    rfl

/-- A superseded run is over: nothing is published, and what it has memoized is what has been published last. -/
theorem Kept.discard (h : Kept r priors memo last) {memo' : Option V} (hmemo : memo' = last)
    (hstale : r' = r ∨ (∃ d ∈ r.drives, d.future = fut ∧ d.rev ≠ none) ∧
      r' = (r.resolve fut (.result none)).finish fut) :
    Kept r' (update priors fut none) memo' last ∧ published r r' = none := by
  obtain rfl | ⟨-, rfl⟩ := hstale
  · refine ⟨⟨h.valid, fun fut' prior hrun => ?_, hmemo, fun fut' prior hrun => ?_⟩, (Passes.refl _).published⟩
    · by_cases hsame : fut' = fut
      · rw [hsame, update_self] at hrun
        cases hrun
      · rw [update_of_ne hsame] at hrun
        exact h.begun fut' prior hrun
    · by_cases hsame : fut' = fut
      · rw [hsame, update_self] at hrun
        cases hrun
      · rw [update_of_ne hsame] at hrun
        exact h.prior fut' prior hrun
  · rw [finish_resolve]
    constructor
    · have hkept : Kept (r.finish fut) (update priors fut none) memo' last :=
        h.finish (h.valid.finish fut) hmemo (.inr ⟨rfl, rfl⟩)
      exact hkept.resolve _ _
    · unfold published
      rw [slot_resolve]
      exact if_neg fun hp => hp.1 hp.2

/-- A run raises. -/
theorem Kept.raise (h : Kept r priors memo last) (hrun : priors fut = some prior) (error : E) :
    Kept (r.completeErr fut error) (update priors fut none) memo last ∧
      published r (r.completeErr fut error) = none := by
  by_cases hfut : r.slot.future = some fut
  · obtain ⟨d, hd, rfl, -⟩ := h.begun fut prior hrun
    have hcomputing := (h.valid.current d hd hfut).1
    rw [completeErr_current h.valid ((h.current_iff hrun).mpr hfut), finish_resolve]
    constructor
    · have hv := h.valid.publish hfut (s :=
        { r.slot with state := .error, computeRev := none, error := some error }) rfl
        rfl nofun fun _ => h.valid.value (by simp [hcomputing])
      have hkept : Kept (Runtime.finish d.future { r with slot :=
          { r.slot with state := .error, computeRev := none, error := some error } })
          (update priors d.future none) memo last := h.finish hv h.memo (.inl hfut)
      exact hkept.resolve _ _
    · unfold published
      rw [slot_resolve]
      exact if_neg fun hp => nomatch hp.2
  · exact h.discard h.memo (completeErr_stale h.valid fun hc => hfut hc.1)

end Runtime

end LazilyPy.Async

namespace LazilyPy.Async.Context

open List Option Function

open Effect (AsyncEffect)

variable {I V : Type}

/-- A run of a computed that returns: what it has found memoized when it began, and what it has computed. -/
structure Return (V : Type) where
  run : ℕ
  prior : Option V
  value : V

def returnOf (run : ℕ) (prior : Option V) : Stop I V V → Option (Return V)
  | .returned value => some ⟨run, prior, value⟩
  | _ => none

namespace AsyncContext

/-- The value that the slot of a computed is resolved with from one state to the next. -/
def publication (id : I) (s s' : AsyncContext I V) : Option V :=
  (s.slot id).published (s'.slot id)

/-- What the runs of a computed that have not returned have found memoized. -/
def priors (id : I) (s : AsyncContext I V) : ℕ → Option (Option V) :=
  Option.map Run.prior ∘ s.runs id

def KeptBy (id : I) (last : Option V) (s : AsyncContext I V) : Prop :=
  (s.slot id).Kept (s.priors id) (s.memo id) last

/-- The computed has only been passed by: no run of it has begun or returned. -/
structure Steady (id : I) (s s' : AsyncContext I V) : Prop where
  slot : (s.slot id).Passes (s'.slot id)
  memo : s'.memo id = s.memo id
  priors : s'.priors id = s.priors id

variable {s s' s₁ : AsyncContext I V} {id : I} {last : Option V} {h : Handle I}

theorem Steady.refl (id : I) (s : AsyncContext I V) : Steady id s s :=
  ⟨.refl _, rfl, rfl⟩

theorem Steady.trans (h : Steady id s s₁) (h' : Steady id s₁ s') : Steady id s s' :=
  ⟨h.slot.trans h'.slot, h'.memo.trans h.memo, h'.priors.trans h.priors⟩

/-- What changes nothing that a run of the computed sees. -/
theorem Steady.of_eq (id : I) (hslot : s'.slot id = s.slot id := by rfl) (hmemo : s'.memo id = s.memo id := by rfl)
    (hruns : s'.runs id = s.runs id := by rfl) : Steady id s s' :=
  ⟨by rw [hslot]; exact .refl _, hmemo, congrArg (Option.map Run.prior ∘ ·) hruns⟩

theorem KeptBy.steady (hs : s.KeptBy id last) (h : Steady id s s') :
    s'.KeptBy id last ∧ publication id s s' = none := by
  refine ⟨?_, h.slot.published⟩
  unfold KeptBy
  rw [h.memo, h.priors]
  exact Runtime.Kept.passes hs h.slot

theorem Steady.of_advances (ha : Advances h s s') (id : I) : Steady id s s' :=
  .of_eq id (congrFun ha.slot id) (congrFun ha.memo id) (congrFun ha.runs id)

variable [DecidableEq I]

theorem steady_onSlot {f : Runtime V Unit → Runtime V Unit} (hf : ∀ r, Runtime.Passes r (f r)) (n id : I)
    (s : AsyncContext I V) : Steady id s (s.onSlot n f) := by
  refine ⟨?_, rfl, rfl⟩
  show Runtime.Passes _ (update s.slot n _ id)
  by_cases hn : id = n
  · subst hn
    rw [update_self]
    exact hf _
  · rw [update_of_ne hn]
    exact .refl _

theorem steady_notify (h : Handle I) (id : I) (s : AsyncContext I V) : Steady id s (s.notify h) := by
  cases h with
  | source n => exact .refl id s
  | computed n => exact steady_onSlot Runtime.passes_invalidate n id s
  | effect n =>
    rw [notify, schedule_eq]
    exact ⟨.refl _, rfl, rfl⟩

omit [DecidableEq I] in
theorem steady_foldl {α : Type} {f : AsyncContext I V → α → AsyncContext I V}
    (hf : ∀ s a, Steady id s (f s a)) (l : List α) (s : AsyncContext I V) : Steady id s (l.foldl f s) := by
  induction l generalizing s with
  | nil => exact .refl id s
  | cons a l ih => exact (hf s a).trans (ih (f s a))

theorem steady_invalidateDependents (h : Handle I) (id : I) (s : AsyncContext I V) :
    Steady id s (s.invalidateDependents h) := by
  rw [invalidateDependents]
  split
  · exact ⟨.refl _, rfl, rfl⟩
  · exact steady_foldl (fun s h => steady_notify h id s) _ s

theorem steady_dirtyDisposedDependents (roots : List (Handle I)) (id : I) (s : AsyncContext I V) :
    Steady id s (s.dirtyDisposedDependents roots) := by
  refine steady_foldl (fun s h => ?_) _ s
  cases h with
  | computed n => exact steady_onSlot Runtime.passes_invalidate n id s
  | _ => exact .refl id s

theorem steady_apply [BEq V] (op : Op I V) (id : I) (s : AsyncContext I V) : Steady id s (s.apply op) := by
  cases op with
  | set n value =>
    show Steady id s (s.set n value)
    rw [AsyncContext.set]
    split
    · exact .refl id s
    · split
      · exact .refl id s
      · exact (Steady.of_eq id).trans (steady_invalidateDependents _ id _)
  | invalidate n =>
    exact (steady_onSlot Runtime.passes_invalidate n id s).trans (steady_invalidateDependents _ id _)
  | hardClear n => exact steady_onSlot Runtime.passes_hardClear n id s
  | exitBatch =>
    show Steady id s s.exitBatch
    rw [AsyncContext.exitBatch]
    split
    · exact .refl id s
    · refine Steady.trans ?_ (steady_foldl (fun s h => steady_invalidateDependents h id s) _ _)
      exact .of_eq id
    · exact .of_eq id
  | effectAsync n =>
    show Steady id s (s.effectAsync n)
    rw [AsyncContext.effectAsync]
    split
    · exact .refl id s
    · rw [schedule_eq]
      exact .of_eq id
  | disposeComputed n =>
    show Steady id s (s.disposeComputed n)
    rw [AsyncContext.disposeComputed]
    split
    · exact .refl id s
    · refine Steady.trans ?_ (steady_dirtyDisposedDependents _ id _)
      refine Steady.trans ?_ (steady_onSlot Runtime.passes_hardClear n id _)
      exact .of_eq id
  | disposeSource n =>
    show Steady id s (s.disposeSource n)
    rw [AsyncContext.disposeSource]
    split
    · exact .refl id s
    · exact (Steady.of_eq id).trans (steady_dirtyDisposedDependents _ id _)
  | _ => exact .of_eq id

theorem steady_await (n : I) (future : Option ℕ) (id : I) (s : AsyncContext I V) :
    Steady id s (s.await n future).2 := by
  obtain heq | ⟨-, heq⟩ := await_cases n future s
  · rw [heq]
    exact .refl id s
  · rw [heq]
    exact steady_onSlot Runtime.passes_get n id s

theorem steady_finishEffect (n : I) (j : ℕ) (r : Stop I V Bool × AsyncContext I V) (id : I) :
    Steady id r.2 (finishEffect n j r) := by
  obtain ⟨stop, s⟩ := r
  cases stop with
  | _ => exact .of_eq id

theorem steady_afterDispose (k : ℕ) (n : I) (call : ℕ) (id : I) (s : AsyncContext I V) :
    Steady id s (s.afterDispose k n call) := by
  rw [afterDispose]
  split
  · exact .of_eq id
  · exact .of_eq id

theorem steady_disposeEffect (k : ℕ) (n id : I) (s : AsyncContext I V) : Steady id s (s.disposeEffect k n) :=
  (Steady.of_eq id).trans (steady_afterDispose k n _ id _)

theorem steady_disposeAsync (n id : I) (s : AsyncContext I V) : Steady id s (s.disposeAsync n) := by
  rw [disposeAsync]
  split
  · split
    · exact (Steady.of_eq id).trans (steady_disposeEffect _ n id _)
    · exact .of_eq id
  · exact (Steady.of_eq id).trans (steady_disposeEffect _ n id _)

/-- The end of a turn of another computed. -/
theorem steady_finishRun (P : Program I V) {n : I} (hn : id ≠ n) (fut : ℕ) (prior : Option V)
    (r : Stop I V V × AsyncContext I V) : Steady id r.2 (finishRun P n fut prior r) := by
  obtain ⟨stop, s⟩ := r
  cases stop with
  | stopped phase => exact .of_eq id rfl rfl (update_of_ne hn ..)
  | raised => exact .of_eq id (update_of_ne hn ..) rfl (update_of_ne hn ..)
  | returned value =>
    rw [finishRun]
    split
    · exact .of_eq id (update_of_ne hn ..) rfl (update_of_ne hn ..)
    · exact .of_eq id (update_of_ne hn ..) (update_of_ne hn ..) (update_of_ne hn ..)

theorem priors_setRun (n : I) (fut : ℕ) (r : Option (Run I V)) (s : AsyncContext I V) :
    (s.setRun n fut r).priors n = update (s.priors n) fut (r.map Run.prior) := by
  show Option.map Run.prior ∘ update s.runs n (update (s.runs n) fut r) n = _
  rw [update_self, comp_update]
  rfl

/-- A run that has not returned has come to another point. -/
theorem steady_setRun {n : I} {fut : ℕ} {prior : Option V} (hrun : s.priors n fut = some prior)
    (phase : Phase I V V) (id : I) : Steady id s (s.setRun n fut (some ⟨prior, phase⟩)) := by
  refine ⟨.refl _, rfl, ?_⟩
  by_cases hn : id = n
  · subst hn
    rw [priors_setRun, map_some, ← hrun, update_eq_self]
  · exact congrArg (Option.map Run.prior ∘ ·) (update_of_ne hn ..)

def Runs (id : I) : Turn I → Prop
  | .begin n => n = id
  | .resume n _ => n = id
  | _ => False

theorem steady_turn (P : Program I V) {turn : Turn I} (hturn : ¬ Runs id turn) (s : AsyncContext I V) :
    Steady id s (s.turn P turn) := by
  cases turn with
  | getAsync n =>
    show Steady id s (s.getAsync n)
    rw [AsyncContext.getAsync]
    split
    · exact .refl id s
    · exact .of_eq id
  | disposeAsync n => exact steady_disposeAsync n id s
  | begin n =>
    have hn : id ≠ n := fun heq => hturn heq.symm
    show Steady id s (s.begin P n)
    rw [AsyncContext.begin]
    split
    · exact .refl id s
    · refine Steady.trans (Steady.trans ?_ (Steady.of_advances (advances ..) id)) (steady_finishRun P hn ..)
      exact .of_eq id (update_of_ne hn ..)
  | resume n fut =>
    have hn : id ≠ n := fun heq => hturn heq.symm
    show Steady id s (s.resume P n fut)
    rw [AsyncContext.resume]
    split
    · exact (Steady.of_advances (advances ..) id).trans (steady_finishRun P hn ..)
    · exact .refl id s
  | wake n fut =>
    show Steady id s (s.wake n fut)
    rw [AsyncContext.wake]
    split
    next prior dep future k hrun =>
      refine (steady_await dep future id s).trans (steady_setRun ?_ _ id)
      have hruns : (s.await dep future).2.runs = s.runs := by
        obtain heq | ⟨-, heq⟩ := await_cases dep future s
        · rw [heq]
        · rw [heq]
          rfl
      unfold priors
      rw [hruns, comp_apply, hrun]
      rfl
    · exact .refl id s
  | wakeCaller k =>
    show Steady id s (s.wakeCaller k)
    rw [AsyncContext.wakeCaller]
    split
    · exact (steady_await _ _ id s).trans (.of_eq id)
    · exact .refl id s
  | startFlush n =>
    show Steady id s (s.startFlush n)
    rw [AsyncContext.startFlush]
    split
    · exact .of_eq id
    · exact .refl id s
  | startBody n j =>
    show Steady id s (s.startBody P n j)
    rw [AsyncContext.startBody]
    split
    · split
      · exact .of_eq id
      · refine Steady.trans ?_ (steady_finishEffect ..)
        exact (Steady.of_eq id).trans (.of_advances (advances ..) id)
    · exact .refl id s
  | resumeEffect n j =>
    show Steady id s (s.resumeEffect n j)
    rw [AsyncContext.resumeEffect]
    split
    · exact (Steady.of_advances (advances ..) id).trans (steady_finishEffect ..)
    · exact .refl id s
  | wakeEffect n j =>
    show Steady id s (s.wakeEffect n j)
    rw [AsyncContext.wakeEffect]
    split
    · exact (steady_await _ _ id s).trans (.of_eq id)
    · exact .refl id s
  | resumeDispose k =>
    show Steady id s (s.resumeDispose k)
    rw [AsyncContext.resumeDispose]
    split
    · split
      · exact steady_disposeEffect k _ id s
      · exact .refl id s
    · exact (Steady.of_eq id).trans (steady_afterDispose k _ _ id _)
    · exact .refl id s
  | endCleaning k =>
    show Steady id s (s.endCleaning k)
    rw [AsyncContext.endCleaning]
    split
    · exact (Steady.of_eq id).trans (steady_afterDispose k _ _ id _)
    · exact .refl id s
  | _ => exact .of_eq id

/-! ### What a turn of a run publishes -/

def returns (P : Program I V) (id : I) (s : AsyncContext I V) : Turn I → Option (Return V)
  | .begin n =>
    if n = id then
      (s.unstarted id).bind fun d => returnOf d.future (s.memo id) (advance (.computed id) (P.compute id)
        (((s.onSlot id (Runtime.begins d.future)).countStart (.computed id)).detach (.computed id))).1
    else none
  | .resume n fut =>
    if n = id then
      match s.runs id fut with
      | some ⟨prior, .suspended rest⟩ => returnOf fut prior (advance (.computed id) rest s).1
      | _ => none
    else none
  | _ => none

def returnsIn (P : Program I V) (id : I) (s : AsyncContext I V) : Event I V → Option (Return V)
  | .op _ => none
  | .turn turn => if s.running ∧ s.depth = 0 then s.returns P id turn else none

/-- A run that returns is that of the slot's future, or the guard keeps what the run has found memoized, or the value is
the one that has been published last. -/
def HarmlessBy (P : Program I V) (id : I) (last : Option V) (s : AsyncContext I V) (r : Return V) : Prop :=
  (s.slot id).slot.future = some r.run ∨ P.guarded id r.prior r.value ≠ none ∨ last = some r.value

/-- What is published is what the guard keeps of what has been published last, and otherwise what has been computed. -/
def GuardsBy (P : Program I V) (id : I) (last published : Option V) (r : Option (Return V)) : Prop :=
  ∀ p, published = some p → ∃ c, r = some c ∧ p = (P.guarded id last c.value).getD c.value

variable {P : Program I V} {fut : ℕ} {prior : Option V}

omit [DecidableEq I] in
theorem eq_of_guarded {v old : V} (hguarded : P.guarded id prior v = some old) : prior = some old := by
  unfold Program.guarded at hguarded
  split at hguarded
  · split at hguarded
    · exact hguarded
    · cases hguarded
  · cases hguarded

theorem publication_complete (f : Runtime V Unit → Runtime V Unit) (fut : ℕ) (memo : I → Option V) :
    publication id s (({ s with memo := memo }.setRun id fut none).onSlot id f) =
      (s.slot id).published (f (s.slot id)) := by
  show (s.slot id).published (update s.slot id (f (s.slot id)) id) = _
  rw [update_self]

theorem kept_complete {f : Runtime V Unit → Runtime V Unit} {memo : I → Option V}
    (h : (f (s.slot id)).Kept (update (s.priors id) fut none) (memo id) last) :
    (({ s with memo := memo }.setRun id fut none).onSlot id f).KeptBy id last := by
  show Runtime.Kept (update s.slot id (f (s.slot id)) id) (AsyncContext.priors id (s.setRun id fut none)) (memo id) last
  rw [update_self, priors_setRun]
  exact h

/-- A run has returned and is completed with a value, which is published if it is that of the slot's future. -/
theorem kept_completeOk (h : (s.slot id).Kept (update (s.priors id) fut (some prior)) (s.memo id) last)
    (x : V) {memo : I → Option V} (hmemo : memo id = if (s.slot id).slot.future = some fut then some x else last) :
    KeptBy id ((publication id s (({ s with memo := memo }.setRun id fut none).onSlot id
        (Runtime.completeOk fut (some x)))).or last)
      (({ s with memo := memo }.setRun id fut none).onSlot id (Runtime.completeOk fut (some x))) ∧
    publication id s (({ s with memo := memo }.setRun id fut none).onSlot id (Runtime.completeOk fut (some x))) =
      if (s.slot id).slot.future = some fut then some x else none := by
  have hself : update (s.priors id) fut (some prior) fut = some prior := update_self ..
  rw [publication_complete]
  by_cases hfut : (s.slot id).slot.future = some fut
  · obtain ⟨hkept, hpublished⟩ := h.complete hself hfut (some x)
    rw [update_idem] at hkept
    rw [if_pos hfut] at hmemo ⊢
    refine ⟨kept_complete ?_, hpublished⟩
    rwa [hpublished, hmemo]
  · have hstale : (s.slot id).completeOk fut (some x) = s.slot id ∨ _ :=
      Runtime.completeOk_stale h.valid fun hc => hfut hc.1
    obtain ⟨hkept, hnone⟩ := h.discard (rfl : last = last) hstale
    rw [update_idem] at hkept
    rw [if_neg hfut] at hmemo ⊢
    refine ⟨kept_complete ?_, hnone⟩
    rwa [hnone, hmemo]

/-- The turn of a run ends, which has noted what was memoized when it began. -/
theorem kept_finishRun (h : (s.slot id).Kept (update (s.priors id) fut (some prior)) (s.memo id) last)
    (stop : Stop I V V) (hharmless : ∀ r, returnOf fut prior stop = some r → s.HarmlessBy P id last r) :
    (finishRun P id fut prior (stop, s)).KeptBy id ((publication id s (finishRun P id fut prior (stop, s))).or last) ∧
      GuardsBy P id last (publication id s (finishRun P id fut prior (stop, s))) (returnOf fut prior stop) := by
  have hself : update (s.priors id) fut (some prior) fut = some prior := update_self ..
  cases stop with
  | stopped phase =>
    have hnone : publication id s (finishRun P id fut prior (.stopped phase, s)) = none :=
      (Runtime.Passes.refl _).published
    rw [hnone]
    refine ⟨?_, nofun⟩
    show Runtime.Kept (s.slot id) ((s.setRun id fut _).priors id) (s.memo id) last
    rw [priors_setRun]
    exact h
  | raised =>
    obtain ⟨hkept, hnone⟩ := h.raise hself ()
    rw [update_idem] at hkept
    have hpublication : publication id s (finishRun P id fut prior (.raised, s)) = none :=
      (publication_complete (Runtime.completeErr fut ()) fut s.memo).trans hnone
    rw [hpublication]
    exact ⟨kept_complete hkept, nofun⟩
  | returned v =>
    have hharmless := hharmless _ rfl
    have hprior := h.prior fut prior hself
    rw [finishRun]
    cases hguarded : P.guarded id prior v with
    | some old =>
      obtain rfl := eq_of_guarded hguarded
      have hmemo : s.memo id = if (s.slot id).slot.future = some fut then some old else last := by
        split
        next hfut => exact h.memo.trans (hprior hfut).symm
        · exact h.memo
      obtain ⟨hkept, hpublication⟩ := kept_completeOk h old hmemo
      refine ⟨hkept, fun p hp => ⟨_, rfl, ?_⟩⟩
      replace hp := hpublication.symm.trans hp
      split at hp
      next hfut =>
        obtain rfl := some.inj hp
        rw [← hprior hfut]
        dsimp only
        rw [hguarded]
        rfl
      · cases hp
    | none =>
      have hmemo : update s.memo id (some v) id =
          if (s.slot id).slot.future = some fut then some v else last := by
        rw [update_self]
        split
        · rfl
        next hfut => exact ((hharmless.resolve_left hfut).resolve_left fun hne => hne hguarded).symm
      obtain ⟨hkept, hpublication⟩ := kept_completeOk h v hmemo
      refine ⟨hkept, fun p hp => ⟨_, rfl, ?_⟩⟩
      replace hp := hpublication.symm.trans hp
      split at hp
      next hfut =>
        obtain rfl := some.inj hp
        rw [← hprior hfut]
        dsimp only
        rw [hguarded]
        rfl
      · cases hp

theorem returns_begin (P : Program I V) (id : I) (s : AsyncContext I V) : s.returns P id (.begin id) =
    (s.unstarted id).bind fun d => returnOf d.future (s.memo id) (advance (.computed id) (P.compute id)
      (((s.onSlot id (Runtime.begins d.future)).countStart (.computed id)).detach (.computed id))).1 :=
  if_pos rfl

theorem returns_resume (P : Program I V) (id : I) (fut : ℕ) (s : AsyncContext I V) :
    s.returns P id (.resume id fut) = match s.runs id fut with
      | some ⟨prior, .suspended rest⟩ => returnOf fut prior (advance (.computed id) rest s).1
      | _ => none :=
  if_pos rfl

theorem kept_begin (h : s.KeptBy id last)
    (hharmless : ∀ r, s.returns P id (.begin id) = some r → s.HarmlessBy P id last r) :
    (s.begin P id).KeptBy id ((publication id s (s.begin P id)).or last) ∧
      GuardsBy P id last (publication id s (s.begin P id)) (s.returns P id (.begin id)) := by
  have hreturns := returns_begin P id s
  rw [hreturns] at hharmless ⊢
  rw [begin]
  cases hd : s.unstarted id with
  | none =>
    have hnone : publication id s s = none := (Runtime.Passes.refl _).published
    dsimp only
    rw [hnone]
    exact ⟨h, (by rintro _ ⟨⟩)⟩
  | some d =>
    rw [hd, bind_some] at hharmless
    rw [bind_some]
    have hmem := mem_of_find?_eq_some hd
    have hrev : d.rev = none := by simpa using find?_some hd
    have hbegins := Runtime.Kept.begins h hmem hrev
    have hstep := advances (.computed id) (P.compute id)
      (((s.onSlot id (Runtime.begins d.future)).countStart (.computed id)).detach (.computed id))
    dsimp only at hharmless ⊢
    generalize advance (.computed id) (P.compute id)
      (((s.onSlot id (Runtime.begins d.future)).countStart (.computed id)).detach (.computed id)) = r at *
    obtain ⟨stop, s₁⟩ := r
    have hslot : s₁.slot id = (s.slot id).begins d.future := (congrFun hstep.slot id).trans (update_self ..)
    have hmemo : s₁.memo = s.memo := hstep.memo
    have hpriors : s₁.priors id = s.priors id := by
      unfold priors
      rw [show s₁.runs = s.runs from hstep.runs]
    have hsame (s' : AsyncContext I V) : publication id s s' = publication id s₁ s' := by
      unfold publication
      rw [hslot]
      rfl
    rw [hsame]
    refine kept_finishRun ?_ stop fun r hr => ?_
    · rw [hslot, hmemo, hpriors]
      exact hbegins
    · have hr := hharmless r hr
      unfold HarmlessBy at hr ⊢
      rwa [hslot]

theorem kept_resume (h : s.KeptBy id last) (fut : ℕ)
    (hharmless : ∀ r, s.returns P id (.resume id fut) = some r → s.HarmlessBy P id last r) :
    (s.resume P id fut).KeptBy id ((publication id s (s.resume P id fut)).or last) ∧
      GuardsBy P id last (publication id s (s.resume P id fut)) (s.returns P id (.resume id fut)) := by
  have hreturns := returns_resume P id fut s
  rw [hreturns] at hharmless ⊢
  rw [resume]
  have hnothing : s.KeptBy id ((publication id s s).or last) ∧ GuardsBy P id last (publication id s s) none := by
    have hnone : publication id s s = none := (Runtime.Passes.refl _).published
    rw [hnone]
    exact ⟨h, (by rintro _ ⟨⟩)⟩
  cases hrun : s.runs id fut with
  | none => exact hnothing
  | some run =>
    obtain ⟨prior, phase⟩ := run
    cases phase with
    | waiting dep future k => exact hnothing
    | suspended rest =>
      rw [hrun] at hharmless
      have hstep := advances (.computed id) rest s
      have hsteady := Steady.of_advances hstep id
      dsimp only at hharmless ⊢
      generalize advance (.computed id) rest s = r at *
      obtain ⟨stop, s₁⟩ := r
      have hslot : s₁.slot = s.slot := hstep.slot
      have hsame (s' : AsyncContext I V) : publication id s s' = publication id s₁ s' := by
        unfold publication
        rw [hslot]
      have hprior : s₁.priors id fut = some prior := by
        rw [hsteady.priors]
        unfold priors
        rw [comp_apply, hrun]
        rfl
      rw [hsame]
      refine kept_finishRun ?_ stop fun r hr => ?_
      · rw [← hprior, update_eq_self]
        exact (h.steady hsteady).1
      · have hr := hharmless r hr
        unfold HarmlessBy at hr ⊢
        rwa [hslot]

/-- One step. -/
theorem kept_step [BEq V] (h : s.KeptBy id last) (event : Event I V)
    (hharmless : ∀ r, s.returnsIn P id event = some r → s.HarmlessBy P id last r) :
    (s.step P event).KeptBy id ((publication id s (s.step P event)).or last) ∧
      GuardsBy P id last (publication id s (s.step P event)) (s.returnsIn P id event) := by
  have hsteady {s' : AsyncContext I V} (hs' : Steady id s s') (r : Option (Return V)) :
      s'.KeptBy id ((publication id s s').or last) ∧ GuardsBy P id last (publication id s s') r := by
    obtain ⟨hkept, hnone⟩ := h.steady hs'
    rw [hnone]
    exact ⟨hkept, nofun⟩
  cases event with
  | op op => exact hsteady (steady_apply op id s) _
  | turn turn =>
    unfold returnsIn at hharmless ⊢
    rw [step]
    dsimp only at hharmless ⊢
    by_cases hruns : s.running = true ∧ s.depth = 0
    · rw [if_pos hruns] at hharmless
      rw [if_pos hruns, if_pos hruns]
      by_cases hturn : Runs id turn
      · cases turn with
        | begin n =>
          obtain rfl : n = id := hturn
          exact kept_begin h hharmless
        | resume n fut =>
          obtain rfl : n = id := hturn
          exact kept_resume h fut hharmless
        | _ => exact hturn.elim
      · exact hsteady (steady_turn P hturn s) _
    · rw [if_neg hruns, if_neg hruns]
      exact hsteady (.refl id s) _

end AsyncContext

/-! ## Runs -/

section Runs

variable [DecidableEq I] [BEq V] (P : Program I V) (value : I → V) (id : I)

def lastPublished (events : List (Event I V)) : Option V :=
  (events.foldl (fun acc event => (acc.1.step P event, (acc.1.publication id (acc.1.step P event)).or acc.2))
    (({ value := value } : AsyncContext I V), none)).2

/-- If a run of the computed returns in the step, then it is that of the slot's future, or its guard keeps what it has
found memoized, or it returns what has been published last. -/
def Harmless (before : List (Event I V)) (event : Event I V) : Prop :=
  ∀ r ∈ (run P value before).returnsIn P id event,
    (run P value before).HarmlessBy P id (lastPublished P value id before) r

/-- A value that the step publishes is the one that has been published last, if the guard finds that one and what has
been computed equal, and else what has been computed. A run that begins will compare with what has been published
last. -/
structure Guards (before : List (Event I V)) (event : Event I V) : Prop where
  published : ∀ p, (run P value before).publication id ((run P value before).step P event) = some p →
    ∃ r, (run P value before).returnsIn P id event = some r ∧
      p = (P.guarded id (lastPublished P value id before) r.value).getD r.value
  compared : event = .turn (.begin id) → (run P value before).memo id = lastPublished P value id before

variable {P value id} {events : List (Event I V)}

theorem lastPublished_concat (events : List (Event I V)) (event : Event I V) :
    lastPublished P value id (events ++ [event]) =
      ((run P value events).publication id ((run P value events).step P event)).or
        (lastPublished P value id events) := by
  have hrun : ∀ (l : List (Event I V)) (acc : AsyncContext I V × Option V), (l.foldl (fun acc event =>
      (acc.1.step P event, (acc.1.publication id (acc.1.step P event)).or acc.2)) acc).1 =
        l.foldl (AsyncContext.step P) acc.1 := by
    intro l
    induction l with
    | nil => exact fun _ => rfl
    | cons event l ih => exact fun acc => ih _
  unfold lastPublished run
  rw [foldl_concat, hrun]

theorem kept_run (h : Throughout (Harmless P value id) events) :
    (run P value events).KeptBy id (lastPublished P value id events) := by
  induction events using reverseRecOn with
  | nil => exact ⟨Runtime.valid_init, nofun, rfl, nofun⟩
  | append_singleton events event ih =>
    obtain ⟨hevents, hevent⟩ := throughout_concat.mp h
    rw [run_concat, lastPublished_concat]
    exact (AsyncContext.kept_step (ih hevents) event hevent).1

/-- If no superseded run memoizes anything but what has been published last, then the guard compares with what has been
published last in every step. -/
theorem guards_of_harmless (h : Throughout (Harmless P value id) events) : Throughout (Guards P value id) events := by
  rintro before event after rfl
  have hkept := kept_run h.of_append
  exact ⟨(AsyncContext.kept_step hkept event (h before event after rfl)).2, fun _ => hkept.memo⟩

end Runs

/-! ## A run that has been superseded -/

/-- The computed 1 awaits something after it has read the source 0. Its guard finds values of one parity equal. -/
def parity : Program ℕ ℕ where
  compute _ := .get 0 fun reply => match reply with
    | .value v => .suspend (.ret v)
    | _ => .raise
  eq _ := some fun a b => a % 2 == b % 2
  effect _ := .ret false

def resolveOnce : List (Event ℕ ℕ) :=
  [.op .startLoop, .turn (.getAsync 1), .turn (.wakeCaller 0), .turn (.begin 1), .turn (.resume 1 0)]

/-- The source is written while a run of the computed awaits something. That run returns, and then the next one. -/
def resolveLate : List (Event ℕ ℕ) :=
  [.op .startLoop, .turn (.getAsync 1), .turn (.wakeCaller 0), .turn (.begin 1), .op (.set 0 13), .turn (.resume 1 0),
    .turn (.getAsync 1), .turn (.wakeCaller 1), .turn (.begin 1), .turn (.resume 1 1)]

theorem guards_once : Throughout (Guards parity (fun _ => 5) 1) resolveOnce := by
  refine guards_of_harmless ?_
  unfold Harmless AsyncContext.HarmlessBy
  decide

/-- The first run is superseded, and the second one is resolved with what that has returned. -/
theorem guards_superseded : ¬ ∀ (P : Program ℕ ℕ) (value : ℕ → ℕ) (id : ℕ) (events : List (Event ℕ ℕ)),
    (P.eq id).isSome → Throughout (Guards P value id) events := by
  intro h
  have hguards := h parity (fun _ => 5) 1 resolveLate rfl resolveLate.dropLast (.turn (.resume 1 1)) [] rfl
  obtain ⟨r, hr, hp⟩ := hguards.published 5 (by decide)
  have hlast : lastPublished parity (fun _ => 5) 1 resolveLate.dropLast = none := by decide
  rw [hlast] at hp
  cases hr
  revert hp
  decide

end LazilyPy.Async.Context

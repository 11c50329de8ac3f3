import LazilyPy.Async.Slot

/-!
# Tasks that begin one after another

The tasks of a slot begin in the order in which they have been spawned. The current one is the latest,
so that once it has begun no other one begins.
-/

namespace LazilyPy.Async.Runtime

open List Option Function

variable {V E : Type} {r : Runtime V E} {d d' : Drive} {fut : ℕ} {value : Option V} {error : E}

structure Ordered (r : Runtime V E) : Prop where
  sorted : r.drives.Pairwise fun d d' => d.future < d'.future ∧ (d.rev = none → d'.rev = none)
  last : ∀ fut, r.slot.future = some fut → ∀ d ∈ r.drives, d.future ≤ fut
  unstarted : ∀ fut, r.slot.future = some fut → ∀ d ∈ r.drives, d.rev = none →
    ∃ d' ∈ r.drives, d'.future = fut ∧ d'.rev = none
  resolved : r.slot.state = .resolved → r.slot.future ≠ none
  empty : r.slot.state = .empty → r.slot.future = none

structure Calm (r : Runtime V E) : Prop where
  state : r.slot.state ≠ .error
  futures : ∀ fut, r.futures fut = .pending ∨ ∃ value, r.futures fut = .result value

/-- A task that has begun belongs to the future that the slot has. -/
def Current (r : Runtime V E) (fut : ℕ) : Prop :=
  r.slot.future = some fut ∧ ∃ d ∈ r.drives, d.future = fut ∧ d.rev ≠ none

theorem ordered_init : ({} : Runtime V E).Ordered where
  sorted := .nil
  last _ h := nomatch h
  unstarted _ h := nomatch h
  resolved h := nomatch h
  empty _ := rfl

theorem calm_init : ({} : Runtime V E).Calm where
  state := nofun
  futures _ := .inl rfl

/-! ### The order -/

theorem Ordered.spawn (h : r.Ordered) (hv : r.Valid) : r.spawn.Ordered where
  sorted := by
    refine pairwise_append.mpr ⟨h.sorted, pairwise_singleton .., fun d hd d' hd' => ?_⟩
    rw [mem_singleton.mp hd']
    exact ⟨hv.drives d hd, fun _ => rfl⟩
  last fut hfut d hd := by
    obtain rfl := some.inj hfut
    obtain hd | hd := mem_append.mp hd
    · exact (hv.drives d hd).le
    · rw [mem_singleton.mp hd]
  unstarted fut hfut _ _ _ := by
    obtain rfl := some.inj hfut
    exact ⟨_, mem_append_right _ (mem_singleton_self _), rfl, rfl⟩
  resolved h := nomatch h
  empty h := nomatch h

theorem get_eq (h : r.Ordered) (hcalm : r.Calm) : r.get = r ∨ (r.slot.future = none ∧ r.get = r.spawn) := by
  rw [get]
  split
  · exact .inl rfl
  · split
    next herror => exact absurd herror hcalm.state
    · split
      next hor => exact .inr ⟨hor.elim h.empty id, rfl⟩
      · exact .inl rfl

theorem Ordered.get (h : r.Ordered) (hv : r.Valid) (hcalm : r.Calm) : r.get.Ordered := by
  obtain heq | ⟨-, heq⟩ := get_eq h hcalm
  · rwa [heq]
  · rw [heq]
    exact h.spawn hv

theorem Calm.spawn (h : r.Calm) : r.spawn.Calm := by
  refine ⟨nofun, fun fut => ?_⟩
  show update r.futures r.nextFuture .pending fut = _ ∨ _
  by_cases hfut : fut = r.nextFuture
  · rw [hfut, update_self]
    exact .inl rfl
  · show _ ∨ ∃ value, update r.futures r.nextFuture .pending fut = .result value
    rw [update_of_ne hfut]
    exact h.futures fut

theorem Calm.get (h : r.Calm) (ho : r.Ordered) : r.get.Calm := by
  obtain heq | ⟨-, heq⟩ := get_eq ho h
  · rwa [heq]
  · rw [heq]
    exact h.spawn

/-- Before the oldest task that has not begun, all have. -/
theorem Ordered.started_of_lt (h : r.Ordered) (hd : r.drives.find? (fun d => d.rev = none) = some d)
    (hd' : d' ∈ r.drives) (hlt : d'.future < d.future) : d'.rev ≠ none := by
  obtain ⟨-, before, after, hdrives, hbefore⟩ := find?_eq_some_iff_append.mp hd
  have hsorted := h.sorted
  rw [hdrives] at hd' hsorted
  obtain hd' | hd' := mem_append.mp hd'
  · simpa using hbefore d' hd'
  · obtain rfl | hd' := mem_cons.mp hd'
    · omega
    · have hafter := (pairwise_cons.mp (pairwise_append.mp hsorted).2.1).1 d' hd'
      omega

/-- A task that begins notes the revision, and the others stay as they are. -/
theorem mem_begins (hv : r.Valid) (hd : d ∈ r.drives) (hrev : d.rev = none) : d' ∈ (r.begins d.future).drives ↔
      (d' ∈ r.drives ∧ d'.future ≠ d.future) ∨ d' = { d with rev := some r.slot.revision } := by
  show d' ∈ r.drives.map _ ↔ _
  rw [List.mem_map]
  constructor
  · rintro ⟨a, ha, rfl⟩
    by_cases hfut : a.future = d.future
    · have heq : a = d := inj_on_of_nodup_map hv.distinct ha hd hfut
      rw [heq, if_pos ⟨rfl, hrev⟩]
      exact .inr rfl
    · rw [if_neg fun hand => hfut hand.1]
      exact .inl ⟨ha, hfut⟩
  · rintro (⟨hmem, hne⟩ | rfl)
    · exact ⟨d', hmem, if_neg fun hand => hne hand.1⟩
    · exact ⟨d, hd, if_pos ⟨rfl, hrev⟩⟩

theorem Ordered.begins (h : r.Ordered) (hv : r.Valid)
    (hfind : r.drives.find? (fun d => d.rev = none) = some d) : (r.begins d.future).Ordered := by
  have hd := mem_of_find?_eq_some hfind
  have hrev : d.rev = none := by simpa using find?_some hfind
  refine ⟨?_, fun fut hfut d' hd' => ?_, fun fut hfut d' hd' hnone => ?_, h.resolved, h.empty⟩
  · show (r.drives.map _).Pairwise _
    rw [pairwise_map]
    refine h.sorted.imp_of_mem fun {a b} ha hb hab => ?_
    have hfuture (c : Drive) : (if c.future = d.future ∧ c.rev = none then
        { c with rev := some r.slot.revision } else c).future = c.future := by
      split
      · rfl
      · rfl
    rw [hfuture, hfuture]
    refine ⟨hab.1, fun hnone => ?_⟩
    split at hnone
    · cases hnone
    · have hother : ¬ (b.future = d.future ∧ b.rev = none) := fun hand =>
        h.started_of_lt hfind ha (hand.1 ▸ hab.1) hnone
      rw [if_neg hother]
      exact hab.2 hnone
  · obtain ⟨hd', -⟩ | rfl := (mem_begins hv hd hrev).mp hd'
    · exact h.last fut hfut d' hd'
    · exact h.last fut hfut d hd
  · obtain ⟨hd', hne⟩ | rfl := (mem_begins hv hd hrev).mp hd'
    · obtain ⟨c, hc, rfl, hcnone⟩ := h.unstarted fut hfut d' hd' hnone
      refine ⟨c, (mem_begins hv hd hrev).mpr (.inl ⟨hc, fun hsame => ?_⟩), rfl, hcnone⟩
      -- the task that begins would be the last one, so the other one has begun
      have hle := h.last c.future hfut d' hd'
      exact h.started_of_lt hfind hd' (by omega) hnone
    · cases hnone

/-- Where a task has not begun, the slot is not resolved and no task of its future has begun. -/
theorem Ordered.idle (h : r.Ordered) (hv : r.Valid) (hd : d ∈ r.drives) (hrev : d.rev = none) :
    r.slot.state ≠ .resolved ∧ ∀ fut, ¬ r.Current fut := by
  have hcurrent : ∀ fut, r.slot.future = some fut →
      r.slot.state = .computing ∧ ∀ d' ∈ r.drives, d'.future = fut → d'.rev = none := by
    intro fut hfut
    obtain ⟨c, hc, rfl, hcnone⟩ := h.unstarted fut hfut d hd hrev
    refine ⟨(hv.current c hc hfut).1, fun d' hd' hsame => ?_⟩
    rw [inj_on_of_nodup_map hv.distinct hd' hc hsame]
    exact hcnone
  constructor
  · intro hresolved
    obtain ⟨fut, hfut⟩ := ne_none_iff_exists'.mp (h.resolved hresolved)
    cases (hcurrent fut hfut).1.symm.trans hresolved
  · rintro fut ⟨hfut, d', hd', hsame, hne⟩
    exact hne ((hcurrent fut hfut).2 d' hd' hsame)

/-- The slot is changed to one without a future. -/
theorem Ordered.clear (h : r.Ordered) {s : AsyncSlot V E} (hfuture : s.future = none)
    (hstate : s.state ≠ .resolved) : Ordered { r with slot := s } where
  sorted := h.sorted
  last _ hfut := nomatch hfuture.symm.trans hfut
  unstarted _ hfut := nomatch hfuture.symm.trans hfut
  resolved hresolved := absurd hresolved hstate
  empty _ := hfuture

theorem invalidate_eq (h : r.slot.state ≠ .error) : r.slot.invalidate =
    { r.slot with
      revision := r.slot.revision + 1
      state := .computing
      computeRev := some (r.slot.revision + 1)
      value := none
      future := none } := by
  simp [AsyncSlot.invalidate, h]

/-! ### Completions -/

/-- A task that has begun is done. -/
theorem Ordered.finish (h : r.Ordered) (hv : r.Valid) (hd : d ∈ r.drives) (hrev : d.rev ≠ none)
    {s : AsyncSlot V E} (hfuture : s.future = r.slot.future) (hempty : s.state = .empty → s.future = none)
    (hresolved : s.state = .resolved → s.future ≠ none) :
    (Runtime.finish d.future { r with slot := s }).Ordered where
  sorted := h.sorted.filter _
  last fut hfut d' hd' := h.last fut (hfuture ▸ hfut) d' (mem_of_mem_filter hd')
  unstarted fut hfut d' hd' hnone := by
    obtain ⟨c, hc, rfl, hcnone⟩ := h.unstarted fut (hfuture ▸ hfut) d' (mem_of_mem_filter hd') hnone
    refine ⟨c, mem_filter.mpr ⟨hc, ?_⟩, rfl, hcnone⟩
    have hne : c.future ≠ d.future := by
      intro hsame
      rw [inj_on_of_nodup_map hv.distinct hc hd hsame] at hcnone
      exact hrev hcnone
    simpa using hne
  resolved := hresolved
  empty := hempty

theorem Ordered.resolve (h : r.Ordered) (fut : ℕ) (outcome : Future V E) : (r.resolve fut outcome).Ordered := by
  have hdrives := drives_resolve (r := r) fut outcome
  have hslot := slot_resolve (r := r) fut outcome
  exact ⟨hdrives ▸ h.sorted, by rw [hdrives, hslot]; exact h.last, by
    rw [hdrives, hslot]; exact h.unstarted, hslot ▸ h.resolved, hslot ▸ h.empty⟩

theorem Calm.resolve (h : r.Calm) (fut : ℕ) (value : Option V) : (r.resolve fut (.result value)).Calm := by
  refine ⟨by rw [slot_resolve]; exact h.state, fun fut' => ?_⟩
  rw [Runtime.resolve]
  split
  · show update r.futures fut (.result value) fut' = _ ∨
      ∃ value', update r.futures fut (.result value) fut' = .result value'
    by_cases hfut : fut' = fut
    · rw [hfut, update_self]
      exact .inr ⟨value, rfl⟩
    · rw [update_of_ne hfut]
      exact h.futures fut'
  · exact h.futures fut'

/-- The current task is found, and its completion is. -/
theorem running?_of_current (hv : r.Valid) (hfut : r.Current fut) :
    ∃ d rev, r.running? fut = some (d, rev) ∧ r.slot.isCurrent fut rev := by
  obtain ⟨hfuture, d, hd, rfl, hrev⟩ := hfut
  obtain ⟨rev, hrev⟩ := ne_none_iff_exists'.mp hrev
  obtain ⟨hstate, -, hbegun⟩ := hv.current d hd hfuture
  exact ⟨d, rev, hv.running?_eq_some.mpr ⟨hd, rfl, hrev⟩, by rw [hv.computing hstate, hbegun rev hrev], hfuture⟩

/-- The current task completes: the slot is resolved. -/
theorem completeOk_current (hv : r.Valid) (hfut : r.Current fut) : r.completeOk fut value =
    (Runtime.resolve fut (.result value)
      { r with slot := { r.slot with state := .resolved, computeRev := none, value } }).finish fut := by
  obtain ⟨d, rev, hrunning, hcurrent⟩ := running?_of_current hv hfut
  rw [completeOk, hrunning]
  exact if_pos hcurrent

/-- The current task fails: so does the slot. -/
theorem completeErr_current (hv : r.Valid) (hfut : r.Current fut) : r.completeErr fut error =
    (Runtime.resolve fut (.exception error)
      { r with slot := { r.slot with state := .error, computeRev := none, error := some error } }).finish fut := by
  obtain ⟨d, rev, hrunning, hcurrent⟩ := running?_of_current hv hfut
  rw [completeErr, hrunning]
  exact if_pos hcurrent

/-- Another task completes: the slot stays as it is, and the task is done if it has begun. -/
theorem completeOk_stale (hv : r.Valid) (hfut : ¬ r.Current fut) : r.completeOk fut value = r ∨
    (∃ d ∈ r.drives, d.future = fut ∧ d.rev ≠ none) ∧
      r.completeOk fut value = (r.resolve fut (.result none)).finish fut := by
  rw [completeOk]
  split
  · exact .inl rfl
  next d rev hrunning =>
    obtain ⟨hd, rfl, hrev⟩ := hv.running?_eq_some.mp hrunning
    have hsome : d.rev ≠ none := by rw [hrev]; exact some_ne_none rev
    rw [if_neg fun hcurrent => hfut ⟨hcurrent.2, d, hd, rfl, hsome⟩]
    exact .inr ⟨⟨d, hd, rfl, hsome⟩, rfl⟩

theorem completeErr_stale (hv : r.Valid) (hfut : ¬ r.Current fut) : r.completeErr fut error = r ∨
    (∃ d ∈ r.drives, d.future = fut ∧ d.rev ≠ none) ∧
      r.completeErr fut error = (r.resolve fut (.result none)).finish fut := by
  rw [completeErr]
  split
  · exact .inl rfl
  next d rev hrunning =>
    obtain ⟨hd, rfl, hrev⟩ := hv.running?_eq_some.mp hrunning
    have hsome : d.rev ≠ none := by rw [hrev]; exact some_ne_none rev
    rw [if_neg fun hcurrent => hfut ⟨hcurrent.2, d, hd, rfl, hsome⟩]
    exact .inr ⟨⟨d, hd, rfl, hsome⟩, rfl⟩

end LazilyPy.Async.Runtime

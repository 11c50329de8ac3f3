import LazilyPy.Async.Turns

/-!
# Computeds that are resolved

Every step keeps computeds fresh, as long as nothing is disposed of and no computed is cleared on which
another one stands: a reset is not propagated, and the next run of the computed that has been reset is
cut from its sources for a while.
-/

namespace LazilyPy.Async.Context

open List Function

variable {I V R : Type} [DecidableEq I]

namespace AsyncContext

variable {s s' s₁ : AsyncContext I V} {n m id : I} {fut : ℕ} {P : Program I V} {rank : I → ℕ}
  {Q Q' : List (Handle I)} {h : Handle I}

/-! ### Walks -/

theorem slot_notify (h : Handle I) (s : AsyncContext I V) (m : I) : (s.notify h).slot m =
    if h = .computed m then { s.slot m with slot := (s.slot m).slot.invalidate } else s.slot m := by
  cases h with
  | source id => rw [if_neg nofun, notify]
  | effect id => rw [if_neg nofun, notify, schedule_eq]
  | computed id =>
    show update s.slot id _ m = _
    by_cases hm : m = id
    · rw [hm, update_self, if_pos rfl]
    · rw [update_of_ne hm, if_neg fun heq => hm (Handle.computed.inj heq).symm]

/-- Every slot that a walk comes through is invalidated once. -/
theorem slot_foldl_notify {l : List (Handle I)} (hl : l.Nodup) (s : AsyncContext I V) (m : I) :
    (l.foldl notify s).slot m =
      if .computed m ∈ l then { s.slot m with slot := (s.slot m).slot.invalidate } else s.slot m := by
  induction l generalizing s with
  | nil => rw [if_neg not_mem_nil, foldl_nil]
  | cons h l ih =>
    obtain ⟨hnot, hl⟩ := nodup_cons.mp hl
    rw [foldl_cons, ih hl, slot_notify]
    by_cases hh : h = .computed m
    · rw [← hh, if_neg hnot, if_pos mem_cons_self, if_pos rfl]
    · rw [if_neg hh]
      have hiff : .computed m ∈ h :: l ↔ .computed m ∈ l := by
        rw [mem_cons, or_iff_right (Ne.symm hh)]
      simp only [hiff]

theorem notified_walk (h : Handle I) (s : AsyncContext I V) : Notified s ((s.walk [h]).tail.foldl notify s) :=
  notified_foldl (fun s h => notified_notify h s) _ s

/-- A walk takes a handle from the queue: what stands on it is invalidated. -/
theorem sound_walk (hs : Sound P rank (h :: Q) s) (hh : ∀ id, h ≠ .effect id) :
    Sound P rank Q ((s.walk [h]).tail.foldl notify s) := by
  have hstep := notified_walk h s
  have hslot := fun m => slot_foldl_notify (nodup_tail_walk h s) s m
  generalize (s.walk [h]).tail.foldl notify s = s' at hstep hslot
  have hvalue : s'.value = s.value := by rw [hstep]
  have hruns : s'.runs = s.runs := by rw [hstep]
  have hdisposed : s'.disposed = s.disposed := by rw [hstep]
  have hdependents : s'.dependents = s.dependents := by rw [hstep]
  refine ⟨hs.linked.notified hstep, fun id => ?_, fun id => ?_, fun m => ?_⟩
  · rw [hdisposed, hs.sources]
  · rw [hdisposed, hs.computeds]
  · have hfresh := hs.fresh m
    by_cases hm : .computed m ∈ (s.walk [h]).tail
    · have hslot := hslot m
      rw [if_pos hm, Runtime.invalidate_eq hfresh.calm.state] at hslot
      have hvalid := hfresh.valid.invalidate
      rw [Runtime.invalidate_eq hfresh.calm.state] at hvalid
      exact hfresh.cleared hslot hvalid rfl nofun nofun
    · have hslotm := hslot m
      rw [if_neg hm] at hslotm
      by_cases hroot : h = .computed m
      · -- the handle itself has been invalidated before
        have hfuture := hfresh.queued (by rw [← hroot]; exact mem_cons_self)
        refine ⟨by rw [hslotm]; exact hfresh.valid, by rw [hslotm]; exact hfresh.ordered,
          by rw [hslotm]; exact hfresh.calm, fun fut hfut => ?_, fun hresolved => ?_, fun _ => ?_⟩
        · rw [hslotm] at hfut
          exact nomatch hfuture.symm.trans hfut.1
        · rw [hslotm] at hresolved
          exact absurd hfuture (hfresh.ordered.resolved hresolved)
        · rw [hslotm]
          exact hfuture
      have hreach : ¬ s.Reaches h (.computed m) := fun hr =>
        hm (mem_tail_walk_iff.mpr ⟨Ne.symm hroot, hr⟩)
      refine hfresh.mono hslotm (congrFun hruns m) (fun d hd => ?_) (fun e he hor => ?_) fun hmem => ?_
      · rwa [hdependents]
      · obtain ⟨d, v⟩ := e
        have hnext (hd : ∀ id, d ≠ .effect id) : .computed m ∈ s.successors d := (mem_successors hd).mpr he
        obtain hmem | hheld := hor
        · obtain rfl | hmem := mem_cons.mp hmem
          · exact absurd (.single (hnext hh)) hreach
          · exact .inl hmem
        · refine .inr ?_
          cases d with
          | source id =>
            show s'.value id = v
            rw [hvalue]
            exact hheld
          | computed id =>
            have hnot : .computed id ∉ (s.walk [h]).tail := fun hid =>
              hreach ((mem_tail_walk_iff.mp hid).2.tail (hnext nofun))
            have hslotid := hslot id
            rw [if_neg hnot] at hslotid
            show (s'.slot id).slot.state = .resolved ∧ (s'.slot id).slot.value = some v
            rw [hslotid]
            exact hheld
          | effect id => exact hheld
      · exact hfresh.queued (mem_cons_of_mem _ hmem)

theorem sound_foldl_invalidateDependents (hs : Sound P rank Q s) (hdepth : s.depth = 0)
    (hQ : ∀ h ∈ Q, ∀ id, h ≠ .effect id) :
    Sound P rank [] (Q.foldl (fun s h => s.invalidateDependents h) s) := by
  induction Q generalizing s with
  | nil => exact hs
  | cons h Q ih =>
    rw [forall_mem_cons] at hQ
    rw [foldl_cons, invalidateDependents_of_depth hdepth]
    refine ih (sound_walk hs hQ.1) ?_ hQ.2
    rw [notified_walk h s]
    exact hdepth

/-! ### Operations -/

/-- What is invalidated is queued in a batch, and else it is taken from the queue. -/
theorem good_invalidateDependents (hs : Sound P rank (h :: s.batchQueue) s)
    (hidle : s.depth = 0 → s.batchQueue = []) (hqueue : ∀ h ∈ s.batchQueue, ∀ id, h ≠ .effect id)
    (hh : ∀ id, h ≠ .effect id) : Good P (s.invalidateDependents h) := by
  by_cases hdepth : s.depth = 0
  · rw [hidle hdepth] at hs
    rw [invalidateDependents_of_depth hdepth]
    have hnone : ((s.walk [h]).tail.foldl notify s).batchQueue = [] :=
      (batchQueue_foldl_notify _ s).trans (hidle hdepth)
    refine ⟨⟨rank, ?_⟩, fun _ => hnone, ?_⟩
    · rw [hnone]
      exact sound_walk hs hh
    · rw [hnone]
      exact nofun
  · rw [invalidateDependents, if_pos (by omega)]
    refine ⟨⟨rank, ?_⟩, fun h0 => absurd h0 hdepth, fun x hx => ?_⟩
    · refine (hs.congr_queue fun x => ?_).setQueue s.depth (s.batchQueue ++ [h])
      show _ ↔ x ∈ s.batchQueue ++ [h]
      rw [mem_append, mem_singleton, mem_cons, or_comm]
    · obtain hx | hx := mem_append.mp hx
      · exact hqueue x hx
      · rw [mem_singleton.mp hx]
        exact hh

theorem sound_value (hs : Sound P rank Q s) (id : I) (v : V) :
    Sound P rank (.source id :: Q) { s with value := update s.value id v } where
  linked := hs.linked
  sources := hs.sources
  computeds := hs.computeds
  fresh m := by
    have hfresh := hs.fresh m
    refine hfresh.mono rfl rfl (fun _ hd => hd) (fun e _ hor => ?_) fun hmem => ?_
    · obtain hmem | hheld := hor
      · exact .inl (mem_cons_of_mem _ hmem)
      · obtain ⟨d, w⟩ := e
        by_cases hd : d = .source id
        · exact .inl (hd ▸ mem_cons_self)
        · refine .inr ?_
          cases d with
          | source i =>
            have hne : i ≠ id := fun h => hd (h ▸ rfl)
            exact (update_of_ne hne ..).trans hheld
          | computed i => exact hheld
          | effect i => exact hheld
    · exact hfresh.queued ((mem_cons.mp hmem).resolve_left nofun)

theorem sound_invalidateSlot (hs : Sound P rank Q s) (n : I) :
    Sound P rank (.computed n :: Q) (s.invalidateSlot n) where
  linked := hs.linked
  sources := hs.sources
  computeds := hs.computeds
  fresh m := by
    have hfresh := hs.fresh m
    by_cases hm : m = n
    · subst hm
      have hslot : (s.invalidateSlot m).slot m =
          { s.slot m with slot := (s.slot m).slot.invalidate } := update_self ..
      have hvalid := hfresh.valid.invalidate
      rw [Runtime.invalidate_eq hfresh.calm.state] at hslot hvalid
      exact hfresh.cleared hslot hvalid rfl nofun nofun
    · refine hfresh.mono (update_of_ne hm ..) rfl (fun _ hd => hd) (fun e _ hor => ?_) fun hmem => ?_
      · obtain hmem | hheld := hor
        · exact .inl (mem_cons_of_mem _ hmem)
        · obtain ⟨d, w⟩ := e
          by_cases hd : d = .computed n
          · exact .inl (hd ▸ mem_cons_self)
          · refine .inr ?_
            cases d with
            | source i => exact hheld
            | computed i =>
              have hne : i ≠ n := fun h => hd (h ▸ rfl)
              have hslot : (s.invalidateSlot n).slot i = s.slot i := update_of_ne hne ..
              show ((s.invalidateSlot n).slot i).slot.state = .resolved ∧ _
              rw [hslot]
              exact hheld
            | effect i => exact hheld
      · refine hfresh.queued ((mem_cons.mp hmem).resolve_left fun heq => hm ?_)
        exact Handle.computed.inj heq

/-- A reset is not propagated, so that nothing may stand on what is reset. -/
theorem sound_hardClear (hs : Sound P rank Q s) (n : I)
    (hfree : (s.slot n).slot.state = .resolved → s.dependentsOf (.computed n) = []) :
    Sound P rank Q (s.hardClear n) where
  linked := hs.linked
  sources := hs.sources
  computeds := hs.computeds
  fresh m := by
    have hfresh := hs.fresh m
    by_cases hm : m = n
    · subst hm
      have hslot : (s.hardClear m).slot m = { s.slot m with slot := (s.slot m).slot.hardClear } :=
        update_self ..
      have hvalid := hfresh.valid.step .hardClear
      exact hfresh.cleared hslot hvalid rfl nofun nofun
    · refine hfresh.mono (update_of_ne hm ..) rfl (fun _ hd => hd) (fun e he hor => ?_) hfresh.queued
      refine hor.imp_right fun hheld => ?_
      obtain ⟨d, w⟩ := e
      cases d with
      | source i => exact hheld
      | computed i =>
        have hne : i ≠ n := by
          rintro rfl
          have hmem := mem_dependentsOf.mpr he
          rw [hfree hheld.1] at hmem
          cases hmem
        have hslot : (s.hardClear n).slot i = s.slot i := update_of_ne hne ..
        show ((s.hardClear n).slot i).slot.state = .resolved ∧ _
        rw [hslot]
        exact hheld
      | effect i => exact hheld

theorem good_exitBatch (hs : Good P s) : Good P s.exitBatch := by
  rw [exitBatch]
  obtain ⟨rank, hsound⟩ := hs.sound
  split
  · exact hs
  · have hstart : Sound P rank s.batchQueue.eraseDups { s with depth := 0, batchQueue := [] } :=
      (hsound.congr_queue fun h => mem_eraseDups.symm).setQueue 0 []
    obtain ⟨hqueue, hdepth⟩ := queue_foldl_invalidateDependents s.batchQueue.eraseDups
      (s := { s with depth := 0, batchQueue := [] }) rfl
    have hend := sound_foldl_invalidateDependents hstart rfl fun h hh => hs.queue h (mem_eraseDups.mp hh)
    refine ⟨⟨rank, ?_⟩, fun _ => hqueue, ?_⟩
    · rw [hqueue]
      exact hend
    · rw [hqueue]
      simp
  next d hdepth => exact ⟨⟨rank, hsound.setQueue (d + 1) s.batchQueue⟩, (by simp), hs.queue⟩

/-- Nothing is disposed of, and no computed is reset that is resolved and has dependents. -/
def Admits (s : AsyncContext I V) : Event I V → Prop
  | .op (.disposeComputed _) => False
  | .op (.disposeSource _) => False
  | .op (.hardClear id) => (s.slot id).slot.state = .resolved → s.dependentsOf (.computed id) = []
  | _ => True

theorem good_step [BEq V] (hexact : P.Exact) (hplain : ∀ n, (P.compute n).Plain) (hs : Good P s)
    {event : Event I V} (hadmits : s.Admits event) : Good P (s.step P event) := by
  obtain ⟨rank, hsound⟩ := hs.sound
  cases event with
  | turn turn =>
    rw [step]
    split
    next hrun =>
      have hnone := hs.idle hrun.2
      rw [hnone] at hsound
      obtain ⟨⟨rank', hsound'⟩, hdepth, hqueue⟩ := sound_turn hexact hplain hsound turn
      refine ⟨⟨rank', ?_⟩, fun _ => hqueue.trans hnone, ?_⟩
      · rw [hqueue, hnone]
        exact hsound'
      · rw [hqueue]
        exact hs.queue
    · exact hs
  | op op =>
    cases op with
    | set id v =>
      show Good P (s.set id v)
      rw [set]
      split
      · exact hs
      · split
        · exact hs
        · exact good_invalidateDependents (sound_value hsound id v) hs.idle hs.queue (by simp)
    | invalidate id =>
      exact good_invalidateDependents (sound_invalidateSlot hsound id) hs.idle hs.queue (by simp)
    | hardClear id => exact ⟨⟨rank, sound_hardClear hsound id hadmits⟩, hs.idle, hs.queue⟩
    | enterBatch => exact ⟨⟨rank, hsound.setQueue (s.depth + 1) s.batchQueue⟩, (by rintro ⟨⟩), hs.queue⟩
    | exitBatch => exact good_exitBatch hs
    | effectAsync id =>
      refine hs.quiet ?_
      show Quiet s (s.effectAsync id)
      rw [effectAsync]
      split
      · exact .refl s
      · have hadd : Quiet s { s with effects := s.effects ++ [id] } :=
          ⟨rfl, fun _ => rfl, fun _ => rfl, fun h => h, rfl, rfl, fun _ _ h => h, rfl, rfl⟩
        exact hadd.trans (quiet_schedule id _)
    | disposeComputed id => exact hadmits.elim
    | disposeSource id => exact hadmits.elim
    | startLoop =>
      exact hs.quiet ⟨rfl, fun _ => rfl, fun _ => rfl, fun h => h, rfl, rfl, fun _ _ h => h, rfl, rfl⟩
    | stopLoop =>
      exact hs.quiet ⟨rfl, fun _ => rfl, fun _ => rfl, fun h => h, rfl, rfl, fun _ _ h => h, rfl, rfl⟩

end AsyncContext

/-! ### Runs -/

open AsyncContext

variable [BEq V] {P : Program I V} {value : I → V} {events : List (Event I V)}

theorem good_run (hexact : P.Exact) (hplain : ∀ n, (P.compute n).Plain)
    (hadmits : Throughout (fun before event => (run P value before).Admits event) events) :
    Good P (run P value events) := by
  induction events using reverseRecOn with
  | nil => exact ⟨⟨_, sound_init P value⟩, fun _ => rfl, nofun⟩
  | append_singleton events event ih =>
    obtain ⟨hbefore, hevent⟩ := throughout_concat.mp hadmits
    rw [run_concat]
    exact good_step hexact hplain (ih hbefore) hevent

/-- A computed that is resolved outside of a batch has the value that its body has from scratch, if no
computed is reset on which another one may stand. -/
theorem resolved_fresh (hexact : P.Exact) (hplain : ∀ n, (P.compute n).Plain)
    (hadmits : Throughout (fun before event => (run P value before).Admits event) events)
    (hdepth : (run P value events).depth = 0) (n : I)
    (hresolved : ((run P value events).slot n).slot.state = .resolved) :
    ∃ v, ((run P value events).slot n).slot.value = some v ∧
      Evaluates P (run P value events).value (P.compute n) v := by
  have hgood := good_run hexact hplain hadmits
  obtain ⟨rank, hsound⟩ := hgood.sound
  rw [hgood.idle hdepth] at hsound
  exact hsound.evaluates hresolved

/-! ### A reset -/

/-- The second computed awaits the first one, which awaits something before it reads its source. -/
def chain : Program ℕ ℕ where
  compute n :=
    if n = 0 then .suspend (.get 0 fun reply => match reply with | .value v => .ret v | _ => .raise)
    else .getAsync 0 fun reply => match reply with | .value v => .ret v | _ => .raise
  eq _ := none
  effect _ := .ret false

def resolveBoth : List (Event ℕ ℕ) :=
  [.op .startLoop, .turn (.getAsync 1), .turn (.wakeCaller 0), .turn (.begin 1), .turn (.wake 1 0),
    .turn (.begin 0), .turn (.resume 0 0), .turn (.wake 1 0), .turn (.resume 1 0)]

theorem plain_chain (n : ℕ) : (chain.compute n).Plain := by
  by_cases hn : n = 0
  · subst hn
    exact .suspend (.get fun v => .ret v)
  · rw [chain]
    simp only [hn]
    exact .getAsync fun v => .ret v

theorem exact_chain : chain.Exact := nofun

theorem resolved_fresh_chain : ∃ v, ((run chain (fun _ => 1) resolveBoth).slot 1).slot.value = some v ∧
      Evaluates chain (run chain (fun _ => 1) resolveBoth).value (chain.compute 1) v := by
  refine resolved_fresh exact_chain plain_chain ?_ (by decide) 1 (by decide)
  have hall : ∀ event ∈ resolveBoth, ∀ s : AsyncContext ℕ ℕ, s.Admits event := by
    simp [resolveBoth, AsyncContext.Admits]
  rintro before event after hsplit
  exact hall event (by rw [hsplit]; simp) _

/-- The first computed is reset and runs again, and its source is written before it is read. -/
def resetFirst : List (Event ℕ ℕ) :=
  resolveBoth ++ [.op (.hardClear 0), .turn (.getAsync 0), .turn (.wakeCaller 1), .turn (.begin 0), .op (.set 0 2)]

theorem resolved_stale : ¬ ∀ (P : Program ℕ ℕ) (value : ℕ → ℕ) (events : List (Event ℕ ℕ)), P.Exact →
    (∀ n, (P.compute n).Plain) → (run P value events).depth = 0 → ∀ n,
      ((run P value events).slot n).slot.state = .resolved → ∃ v, ((run P value events).slot n).slot.value = some v ∧
          Evaluates P (run P value events).value (P.compute n) v := by
  intro h
  obtain ⟨v, hv, hevaluates⟩ :=
    h chain (fun _ => 1) resetFirst exact_chain plain_chain (by decide) 1 (by decide)
  have hcached : ((run chain (fun _ => 1) resetFirst).slot 1).slot.value = some 1 := by decide
  have hfresh : Evaluates chain (run chain (fun _ => 1) resetFirst).value (chain.compute 1) 2 :=
    .getAsync (.suspend (.get (.ret 2))) (.ret 2)
  obtain rfl := Option.some.inj (hv.symm.trans hcached)
  cases hevaluates.unique hfresh

end LazilyPy.Async.Context

import LazilyPy.Async.Fresh

/-!
# Turns of the event loop

Every turn of the event loop keeps computeds fresh: a body that goes on has edges from what it reads
before it awaits anything, and a task begins only while nothing stands on what its computed has read.
-/

namespace LazilyPy.Async.Context

open List Option Function

open Effect (AsyncEffect)

variable {I V R : Type} [DecidableEq I]

namespace AsyncContext

variable {s s' s₁ : AsyncContext I V} {n m id : I} {fut : ℕ} {P : Program I V} {rank : I → ℕ}
  {Q Q' : List (Handle I)} {h : Handle I}

/-! ### Turns of `get_async` -/

theorem await_spec (hcalm : (s.slot id).Calm) (future : Option ℕ) : (∃ f, s.await id future = (.blocked f, s)) ∨
      ((s.slot id).slot.state = .resolved ∧ s.await id future = (.over (s.cached id), s)) ∨
      ((s.slot id).slot.state ≠ .resolved ∧ ∃ f, s.await id future = (.blocked f, s.onSlot id Runtime.get)) := by
  rw [await]
  split
  · exact .inl ⟨future, rfl⟩
  next e heq =>
    obtain ⟨fut, -, hfut⟩ := map_eq_some_iff.mp heq
    obtain hpending | ⟨value, hresult⟩ := hcalm.futures fut
    · cases hfut.symm.trans hpending
    · cases hfut.symm.trans hresult
  next heq =>
    obtain ⟨fut, -, hfut⟩ := map_eq_some_iff.mp heq
    obtain hpending | ⟨value, hresult⟩ := hcalm.futures fut
    · cases hfut.symm.trans hpending
    · cases hfut.symm.trans hresult
  · split
    next hresolved => exact .inr (.inl ⟨hresolved, rfl⟩)
    next hresolved => exact .inr (.inr ⟨hresolved, _, rfl⟩)

theorem locally_get (n : I) (s : AsyncContext I V) : Locally n s (s.onSlot n Runtime.get) where
  value := rfl
  sources _ := rfl
  computeds _ := rfl
  linked hs := hs
  slot m hm := update_of_ne hm ..
  runs _ _ := rfl
  edges _ _ _ hd := hd
  held hresolved := by
    show (update s.slot n _ n).slot = _
    rw [update_self, Runtime.get, if_pos hresolved]
  depth := rfl
  batchQueue := rfl

theorem sound_get (hs : Sound P rank [] s) (n : I) : Sound P rank [] (s.onSlot n Runtime.get) := by
  have hfresh := hs.fresh n
  have hslot : (s.onSlot n Runtime.get).slot n = (s.slot n).get := update_self ..
  obtain heq | ⟨hnone, heq⟩ := Runtime.get_eq hfresh.ordered hfresh.calm
  · have hsame : (s.onSlot n Runtime.get) = s := by
      rw [onSlot, heq, update_eq_self]
    rwa [hsame]
  · refine hs.locally (locally_get n s) ⟨?_, ?_, ?_, fun fut hfut => ?_, fun hresolved => ?_, nofun⟩
    · rw [hslot]
      exact hfresh.valid.get
    · rw [hslot]
      exact hfresh.ordered.get hfresh.valid hfresh.calm
    · rw [hslot]
      exact hfresh.calm.get hfresh.ordered
    · -- the task that has been spawned has not begun
      rw [hslot, heq] at hfut
      obtain ⟨hfuture, d, hd, rfl, hrev⟩ := hfut
      obtain hd | hd := mem_append.mp hd
      · have hlt := hfresh.valid.drives d hd
        have hnext : (s.slot n).nextFuture = d.future := some.inj hfuture
        omega
      · rw [mem_singleton.mp hd] at hrev
        exact absurd rfl hrev
    · rw [hslot, heq] at hresolved
      cases hresolved

theorem sound_await (hs : Sound P rank [] s) (id : I) (future : Option ℕ) :
    Sound P rank [] (s.await id future).2 ∧ (s.await id future).2.depth = s.depth ∧
      (s.await id future).2.batchQueue = s.batchQueue := by
  obtain ⟨f, heq⟩ | ⟨-, heq⟩ | ⟨-, f, heq⟩ := await_spec (hs.fresh id).calm future
  · rw [heq]
    exact ⟨hs, rfl, rfl⟩
  · rw [heq]
    exact ⟨hs, rfl, rfl⟩
  · rw [heq]
    exact ⟨sound_get hs id, rfl, rfl⟩

/-! ### The end of a turn of a body -/

/-- What is returned is completed with, whether a guard keeps what has been memoized or not, as the two
are equal. -/
theorem finishRun_returned (hexact : P.Exact) (n : I) (fut : ℕ) (prior : Option V) (v : V)
    (s : AsyncContext I V) : ∃ memo, finishRun P n fut prior (.returned v, s) =
      ({ s with memo := memo }.setRun n fut none).onSlot n (Runtime.completeOk fut (some v)) := by
  rw [finishRun]
  split
  next old hguarded =>
    refine ⟨s.memo, ?_⟩
    obtain ⟨eq, heq, hequal⟩ := Program.guarded_eq_some hguarded
    rw [hexact n eq heq old v hequal]
  next => exact ⟨_, rfl⟩

/-- A completion keeps a slot that is resolved. -/
theorem slot_of_complete {r r' : Runtime V Unit} (hstale : r' = r ∨
    (∃ d ∈ r.drives, d.future = fut ∧ d.rev ≠ none) ∧ r' = (r.resolve fut (.result none)).finish fut) :
    r'.slot = r.slot := by
  obtain rfl | ⟨-, rfl⟩ := hstale
  · rfl
  · exact Runtime.slot_resolve fut (.result none)

theorem locally_complete (hv : (s.slot n).Valid) {f : Runtime V Unit → Runtime V Unit}
    (memo : I → Option V) (hstale : ¬ (s.slot n).Current fut → f (s.slot n) = s.slot n ∨
      (∃ d ∈ (s.slot n).drives, d.future = fut ∧ d.rev ≠ none) ∧
        f (s.slot n) = ((s.slot n).resolve fut (.result none)).finish fut) :
    Locally n s (({ s with memo := memo }.setRun n fut none).onSlot n f) where
  value := rfl
  sources _ := rfl
  computeds _ := rfl
  linked hs := hs
  slot m hm := update_of_ne hm ..
  runs m hm := update_of_ne hm ..
  edges _ _ _ hd := hd
  held hresolved := by
    show (update s.slot n _ n).slot = _
    rw [update_self]
    refine slot_of_complete (hstale fun hfut => ?_)
    cases (current_computing hv hfut).symm.trans hresolved
  depth := rfl
  batchQueue := rfl

/-- The turn of a body ends, which has come this far if it is the current one. -/
theorem sound_finishRun (hexact : P.Exact) {stop : Stop I V V} (prior : Option V) (h : FreshBut P rank Q s n fut)
    (hcurrent : (s.slot n).Current fut → Based P rank Q s n stop.rest ∧
      (∀ phase, stop = .stopped phase → s.Tracked n phase) ∧ stop ≠ .raised) :
    Locally n s (finishRun P n fut prior (stop, s)) ∧ Fresh P rank Q (finishRun P n fut prior (stop, s)) n := by
  cases stop with
  | stopped phase =>
    have hrun (fut' : ℕ) : (s.setRun n fut (some ⟨prior, phase⟩)).runs n fut' =
        if fut' = fut then some ⟨prior, phase⟩ else s.runs n fut' := by
      show update s.runs n (update (s.runs n) fut _) n fut' = _
      rw [update_self, update_apply]
    refine ⟨⟨rfl, fun _ => rfl, fun _ => rfl, fun hs => hs, fun _ _ => rfl,
      fun m hm => update_of_ne hm .., fun _ _ _ hd => hd, fun _ => rfl, rfl, rfl⟩,
      h.valid, h.ordered, h.calm, fun fut' hfut => ?_, h.resolved, h.queued⟩
    by_cases hsame : fut' = fut
    · subst hsame
      obtain ⟨hbased, htracked, -⟩ := hcurrent hfut
      exact ⟨prior, phase, (hrun fut').trans (if_pos rfl), hbased, htracked phase rfl⟩
    · obtain ⟨prior', phase', hrun', hrest⟩ := h.current fut' hsame hfut
      exact ⟨prior', phase', (hrun fut').trans ((if_neg hsame).trans hrun'), hrest⟩
  | raised =>
    have hstale : ¬ (s.slot n).Current fut := fun hfut => (hcurrent hfut).2.2 rfl
    have hcomplete : (s.slot n).completeErr fut () = s.slot n ∨ _ := Runtime.completeErr_stale h.valid hstale
    have hlocal : Locally n s ((s.setRun n fut none).onSlot n (Runtime.completeErr fut ())) :=
      locally_complete h.valid s.memo fun _ => hcomplete
    refine ⟨hlocal, fresh_stale h hstale ?_ (fun fut' hne => ?_) rfl fun e => hlocal.holds⟩
    · show update s.slot n _ n = _ ∨ _ ∧ update s.slot n _ n = _
      rw [update_self]
      exact hcomplete
    · show update s.runs n (update (s.runs n) fut none) n fut' = _
      rw [update_self, update_of_ne hne]
  | returned v =>
    obtain ⟨memo, heq⟩ := finishRun_returned hexact n fut prior v s
    rw [heq]
    have hlocal : Locally n s
        (({ s with memo := memo }.setRun n fut none).onSlot n (Runtime.completeOk fut (some v))) :=
      locally_complete h.valid memo fun hstale => Runtime.completeOk_stale h.valid hstale
    refine ⟨hlocal, ?_⟩
    have hslot : (({ s with memo := memo }.setRun n fut none).onSlot n
        (Runtime.completeOk fut (some v))).slot n = (s.slot n).completeOk fut (some v) :=
      update_self ..
    by_cases hfut : (s.slot n).Current fut
    · rw [Runtime.completeOk_current h.valid hfut] at hslot
      obtain ⟨hbased, -⟩ := hcurrent hfut
      have hbased : Based P rank Q (({ s with memo := memo }.setRun n fut none).onSlot n
        (Runtime.completeOk fut (some v))) n (.ret v) := hbased.mono rfl fun e => hlocal.holds
      generalize ({ s with memo := memo }.setRun n fut none).onSlot n
        (Runtime.completeOk fut (some v)) = s' at hslot hbased
      have hvalid : (s'.slot n).Valid := by
        rw [hslot, ← Runtime.completeOk_current h.valid hfut]
        exact h.valid.completeOk _ _
      obtain ⟨hfuture, d, hd, rfl, hrev⟩ := hfut
      have hinner : (s'.slot n).slot =
          { (s.slot n).slot with state := .resolved, computeRev := none, value := some v } := by
        rw [hslot]
        exact Runtime.slot_resolve d.future (.result (some v))
      refine ⟨hvalid, ?_, ?_, fun fut' hfut' => ?_, fun _ => ⟨v, by rw [hinner], hbased⟩, fun hmem => ?_⟩
      · have hfinish := h.ordered.finish h.valid hd hrev
          (s := { (s.slot n).slot with state := .resolved, computeRev := none, value := some v }) rfl
          (fun hempty => nomatch hempty) fun _ => by rw [hfuture]; exact some_ne_none _
        rw [hslot, Runtime.finish_resolve]
        exact hfinish.resolve _ _
      · rw [hslot]
        have hcalm : Runtime.Calm { s.slot n with slot :=
            { (s.slot n).slot with state := .resolved, computeRev := none, value := some v } } :=
          ⟨nofun, h.calm.futures⟩
        have hcalm := hcalm.resolve d.future (some v)
        exact ⟨hcalm.state, hcalm.futures⟩
      · have hcomputing := current_computing hvalid hfut'
        rw [hinner] at hcomputing
        cases hcomputing
      · rw [hinner]
        exact h.queued hmem
    · refine fresh_stale h hfut ?_ (fun fut' hne => ?_) rfl fun e => hlocal.holds
      · rw [hslot]
        exact Runtime.completeOk_stale h.valid hfut
      · show update s.runs n (update (s.runs n) fut none) n fut' = _
        rw [update_self, update_of_ne hne]

/-! ### Turns of computeds -/

/-- What has been read by a body up to where it stops holds, and has edges. -/
theorem based_advance (hs : s.Linked) (hsources : ∀ id, s.disposed (.source id) = false)
    (hcomputeds : ∀ id, s.disposed (.computed id) = false) (hplain : (P.compute n).Plain)
    {body : Body I V V} (hbased : Based P rank Q s n body) :
    Based P rank Q (advance (.computed n) body s).2 n (advance (.computed n) body s).1.rest ∧
      (∀ phase, (advance (.computed n) body s).1 = .stopped phase → (advance (.computed n) body s).2.Tracked n phase) ∧
      (advance (.computed n) body s).1 ≠ .raised := by
  obtain ⟨log, hcomes, hbacked⟩ := hbased
  have hbody : body.Plain := hcomes.plain hplain
  have hstep := advances (.computed n) body s
  have hlocal : Locally n s (advance (.computed n) body s).2 := locally_advances hstep
  obtain ⟨log', hcomes', hlog, htracked⟩ := comes_advance (n := n) hbody hs hsources hcomputeds
  refine ⟨⟨log ++ log', hcomes.trans hcomes', fun e he => ?_⟩, htracked, fun hraised => ?_⟩
  · obtain he | he := mem_append.mp he
    · obtain ⟨hmem, hor, hrest⟩ := hbacked e he
      exact ⟨hstep.subset hmem, hor.imp_right hlocal.holds, hrest⟩
    · obtain ⟨id, rfl, hmem⟩ := hlog e he
      exact ⟨hmem, .inr (congrFun hlocal.value id), nofun, nofun⟩
  · rw [hraised] at hcomes'
    cases hcomes'.plain hbody

theorem sound_begin (hexact : P.Exact) (hplain : ∀ n, (P.compute n).Plain) (hs : Sound P rank [] s)
    (n : I) : Sound P rank [] (s.begin P n) ∧ (s.begin P n).depth = s.depth ∧
      (s.begin P n).batchQueue = s.batchQueue := by
  rw [begin]
  split
  · exact ⟨hs, rfl, rfl⟩
  next d hd =>
    have hfresh := hs.fresh n
    have hmem := mem_of_find?_eq_some hd
    have hrev : d.rev = none := by simpa using find?_some hd
    obtain ⟨hresolved, hidle⟩ := hfresh.ordered.idle hfresh.valid hmem hrev
    -- the task notes the revision, and the computed is detached
    have hdetach : Locally n s
        (((s.onSlot n (Runtime.begins d.future)).countStart (.computed n)).detach (.computed n)) := by
      refine ⟨rfl, fun _ => rfl, fun _ => rfl, fun hlinked => ?_, fun m hm => update_of_ne hm ..,
        fun _ _ => rfl, fun m hm d hd => ?_, fun h => absurd h hresolved, rfl, rfl⟩
      · have hlinked' : ((s.onSlot n (Runtime.begins d.future)).countStart (.computed n)).Linked := hlinked
        exact hlinked'.detach _
      · refine mem_filter.mpr ⟨hd, ?_⟩
        have hne : ¬ (Handle.computed m = .computed n) := fun h => hm (Handle.computed.inj h)
        simp [hne]
    have hslot : (((s.onSlot n (Runtime.begins d.future)).countStart (.computed n)).detach
        (.computed n)).slot n = (s.slot n).begins d.future := update_self ..
    dsimp only
    generalize ((s.onSlot n (Runtime.begins d.future)).countStart (.computed n)).memo n = prior
    generalize ((s.onSlot n (Runtime.begins d.future)).countStart (.computed n)).detach (.computed n) = s₁
      at hdetach hslot
    have hstep := advances (.computed n) (P.compute n) s₁
    have hbased : Based P rank [] s₁ n (P.compute n) := ⟨[], .refl _, (by rintro _ ⟨⟩)⟩
    have hadvance := based_advance (hdetach.linked hs.linked) (fun id => (hdetach.sources id).trans (hs.sources id))
      (fun id => (hdetach.computeds id).trans (hs.computeds id)) (hplain n) hbased
    generalize advance (.computed n) (P.compute n) s₁ = r at hstep hadvance
    obtain ⟨stop, s₂⟩ := r
    have hslot₂ : s₂.slot n = (s.slot n).begins d.future := (congrFun hstep.slot n).trans hslot
    have hbut : FreshBut P rank [] s₂ n d.future := by
      refine ⟨?_, ?_, ?_, fun fut hne hfut => ?_, fun h => ?_, (by simp)⟩
      · rw [hslot₂]
        exact hfresh.valid.begins _
      · rw [hslot₂]
        exact hfresh.ordered.begins hfresh.valid hd
      · rw [hslot₂]
        exact ⟨hfresh.calm.state, hfresh.calm.futures⟩
      · rw [hslot₂] at hfut
        obtain ⟨hfuture, d', hd', rfl, hrev'⟩ := hfut
        obtain ⟨hd', -⟩ | rfl := (Runtime.mem_begins hfresh.valid hmem hrev).mp hd'
        · exact absurd ⟨hfuture, d', hd', rfl, hrev'⟩ (hidle d'.future)
        · exact absurd rfl hne
      · rw [hslot₂] at h
        exact absurd h hresolved
    obtain ⟨hlocal, hfresh'⟩ := sound_finishRun hexact prior hbut fun _ => hadvance
    have hall := (hdetach.trans (locally_advances hstep)).trans hlocal
    exact ⟨hs.locally hall hfresh', hall.depth, hall.batchQueue⟩

theorem sound_resume (hexact : P.Exact) (hplain : ∀ n, (P.compute n).Plain) (hs : Sound P rank [] s)
    (n : I) (fut : ℕ) : Sound P rank [] (s.resume P n fut) ∧ (s.resume P n fut).depth = s.depth ∧
      (s.resume P n fut).batchQueue = s.batchQueue := by
  rw [resume]
  split
  next prior rest hrun =>
    have hstep := advances (.computed n) rest s
    have hadvance (hbased : Based P rank [] s n rest) :=
      based_advance hs.linked hs.sources hs.computeds (hplain n) hbased
    generalize advance (.computed n) rest s = r at hstep hadvance
    obtain ⟨stop, s₁⟩ := r
    have hlocal : Locally n s s₁ := locally_advances hstep
    have hslot : s₁.slot n = s.slot n := congrFun hstep.slot n
    have hruns : s₁.runs n = s.runs n := congrFun hstep.runs n
    have hfresh : Fresh P rank [] s₁ n := by
      refine (hs.fresh n).mono hslot hruns (fun d hd => hstep.subset hd) (fun e _ hor => ?_) (by simp)
      exact hor.imp_right hlocal.holds
    have hcurrent (hfut : (s₁.slot n).Current fut) : Based P rank [] s n rest := by
      rw [hslot] at hfut
      obtain ⟨prior', phase, hrun', hbased, -⟩ := (hs.fresh n).current fut hfut
      cases hrun.symm.trans hrun'
      exact hbased
    obtain ⟨hfinish, hfresh'⟩ := sound_finishRun hexact prior (hfresh.but fut) fun hfut =>
      hadvance (hcurrent hfut)
    have hall := hlocal.trans hfinish
    exact ⟨hs.locally hall hfresh', hall.depth, hall.batchQueue⟩
  · exact ⟨hs, rfl, rfl⟩

theorem sound_setRun (hs : Sound P rank [] s) {prior : Option V} {phase : Phase I V V}
    (hcurrent : (s.slot n).Current fut → Based P rank [] s n phase.rest ∧ s.Tracked n phase) :
    Sound P rank [] (s.setRun n fut (some ⟨prior, phase⟩)) := by
  have hrun (fut' : ℕ) : (s.setRun n fut (some ⟨prior, phase⟩)).runs n fut' =
      if fut' = fut then some ⟨prior, phase⟩ else s.runs n fut' := by
    show update s.runs n (update (s.runs n) fut _) n fut' = _
    rw [update_self, update_apply]
  have hfresh := hs.fresh n
  refine hs.locally (n := n) ⟨rfl, fun _ => rfl, fun _ => rfl, fun hs => hs, fun _ _ => rfl,
    fun m hm => update_of_ne hm .., fun _ _ _ hd => hd, fun _ => rfl, rfl, rfl⟩
    ⟨hfresh.valid, hfresh.ordered, hfresh.calm, fun fut' hfut => ?_, hfresh.resolved, hfresh.queued⟩
  by_cases hsame : fut' = fut
  · subst hsame
    obtain ⟨hbased, htracked⟩ := hcurrent hfut
    exact ⟨prior, phase, (hrun fut').trans (if_pos rfl), hbased, htracked⟩
  · obtain ⟨prior', phase', hrun', hrest⟩ := hfresh.current fut' hfut
    exact ⟨prior', phase', (hrun fut').trans ((if_neg hsame).trans hrun'), hrest⟩

/-- A turn of the `get_async` in which a body waits. What it returns is read by the body, so that the
computed ranks above what it has waited for. -/
theorem sound_wake (hs : Sound P rank [] s) (n : I) (fut : ℕ) :
    (∃ rank', Sound P rank' [] (s.wake n fut)) ∧ (s.wake n fut).depth = s.depth ∧
      (s.wake n fut).batchQueue = s.batchQueue := by
  rw [wake]
  split
  next prior dep future k hrun =>
    have hstanding {s' : AsyncContext I V} (hs' : Sound P rank [] s') (hruns : s'.runs = s.runs)
        (hfut : (s'.slot n).Current fut) : Based P rank [] s' n (.getAsync dep k) ∧
          (.computed dep, .computed n) ∈ s'.dependents := by
      obtain ⟨prior', phase, hrun', hbased, htracked⟩ := (hs'.fresh n).current fut hfut
      rw [hruns] at hrun'
      cases hrun.symm.trans hrun'
      exact ⟨hbased, htracked⟩
    obtain ⟨f, heq⟩ | ⟨hresolved, heq⟩ | ⟨-, f, heq⟩ := await_spec (hs.fresh dep).calm future
    · rw [heq]
      exact ⟨⟨rank, sound_setRun hs (hstanding hs rfl)⟩, rfl, rfl⟩
    · rw [heq]
      refine ⟨?_, rfl, rfl⟩
      by_cases hfut : (s.slot n).Current fut
      · have hcomputing := current_computing (hs.fresh n).valid hfut
        have hne : dep ≠ n := by
          rintro rfl
          cases hcomputing.symm.trans hresolved
        obtain ⟨v, hv, -⟩ := (hs.fresh dep).resolved hresolved
        have hcached : s.cached dep = .value v := by rw [cached, hv]; rfl
        have hraised := hs.raise (n := n) (by rw [hcomputing]; simp) (le_max_left (rank n) (rank dep + 1))
        refine ⟨_, sound_setRun hraised fun _ => ⟨?_, trivial⟩⟩
        obtain ⟨prior', phase, hrun', ⟨log, hcomes, hbacked⟩, htracked⟩ := (hraised.fresh n).current fut hfut
        cases hrun.symm.trans hrun'
        refine ⟨log ++ [(.computed dep, v)], ?_, fun e he => ?_⟩
        · rw [hcached]
          exact hcomes.trans (.getAsync (.refl _))
        · obtain he | he := mem_append.mp he
          · exact hbacked e he
          · rw [mem_singleton.mp he]
            refine ⟨htracked, .inr ⟨hresolved, hv⟩, (by simp), ?_⟩
            rintro id ⟨⟩
            rw [update_of_ne hne, update_self]
            omega
      · exact ⟨rank, sound_setRun hs fun h => absurd h hfut⟩
    · rw [heq]
      have hget := sound_get hs dep
      exact ⟨⟨rank, sound_setRun hget (hstanding hget rfl)⟩, rfl, rfl⟩
  · exact ⟨⟨rank, hs⟩, rfl, rfl⟩

theorem sound_wakeCaller (hs : Sound P rank [] s) (k : ℕ) :
    Sound P rank [] (s.wakeCaller k) ∧ (s.wakeCaller k).depth = s.depth ∧
      (s.wakeCaller k).batchQueue = s.batchQueue := by
  rw [wakeCaller]
  split
  next id future _ =>
    obtain ⟨hawait, hdepth, hqueue⟩ := sound_await hs id future
    refine ⟨hawait.quiet ?_, hdepth, hqueue⟩
    exact ⟨rfl, fun _ => rfl, fun _ => rfl, fun h => h, rfl, rfl, fun _ _ h => h, rfl, rfl⟩
  · exact ⟨hs, rfl, rfl⟩

/-! ### Turns of effects -/

theorem quiet_detach (id : I) (s : AsyncContext I V) : Quiet s (s.detach (.effect id)) :=
  ⟨rfl, fun _ => rfl, fun _ => rfl, fun hs => hs.detach _, rfl, rfl,
    fun m d hd => mem_filter.mpr ⟨hd, by simp⟩, rfl, rfl⟩

theorem quiet_onEffect (id : I) (f : AsyncEffect → AsyncEffect) (s : AsyncContext I V) : Quiet s (s.onEffect id f) :=
  ⟨rfl, fun _ => rfl, fun _ => rfl, fun h => h, rfl, rfl, fun _ _ h => h, rfl, rfl⟩

theorem quiet_finishEffect (id : I) (j : ℕ) (r : Stop I V Bool × AsyncContext I V) :
    Quiet r.2 (finishEffect id j r) := by
  obtain ⟨stop, s⟩ := r
  cases stop with
  | _ => exact ⟨rfl, fun _ => rfl, fun _ => rfl, fun h => h, rfl, rfl, fun _ _ h => h, rfl, rfl⟩

theorem quiet_afterDispose (k : ℕ) (id : I) (call : ℕ) (s : AsyncContext I V) :
    Quiet s (s.afterDispose k id call) := by
  rw [afterDispose]
  split
  · exact (quiet_detach id s).trans (quiet_setDisposer k _ _)
  · exact quiet_setDisposer k _ s

theorem quiet_disposeEffect (k : ℕ) (id : I) (s : AsyncContext I V) : Quiet s (s.disposeEffect k id) :=
  (quiet_onEffect id _ s).trans (quiet_afterDispose k id _ _)

theorem quiet_disposeAsync (id : I) (s : AsyncContext I V) : Quiet s (s.disposeAsync id) := by
  have hmark : Quiet s { s with
      disposed := update s.disposed (.effect id) true
      effects := s.effects.filter (· ≠ id)
      flushTask := update s.flushTask id none
      nextDisposer := s.nextDisposer + 1 } := by
    have hother (h : Handle I) (hne : h ≠ .effect id) :
        update s.disposed (.effect id) true h = s.disposed h := update_of_ne hne ..
    exact ⟨rfl, fun i => hother (.source i) nofun, fun i => hother (.computed i) nofun, fun h => h, rfl,
      rfl, fun _ _ h => h, rfl, rfl⟩
  rw [disposeAsync]
  split
  · split
    · exact hmark.trans (quiet_disposeEffect _ id _)
    · exact hmark.trans (quiet_setDisposer _ _ _)
  · exact hmark.trans (quiet_disposeEffect _ id _)

theorem quiet_schedule (id : I) (s : AsyncContext I V) : Quiet s (s.schedule id) := by
  rw [schedule_eq]
  exact ⟨rfl, fun _ => rfl, fun _ => rfl, fun h => h, rfl, rfl, fun _ _ h => h, rfl, rfl⟩

theorem quiet_startBody (id : I) (j : ℕ) (s : AsyncContext I V) : Quiet s (s.startBody P id j) := by
  rw [startBody]
  split
  · split
    · exact quiet_onEffect id _ s
    · have hmark : Quiet s ({ s with reads := update s.reads id [] }.countStart (.effect id)) :=
        ⟨rfl, fun _ => rfl, fun _ => rfl, fun h => h, rfl, rfl, fun _ _ h => h, rfl, rfl⟩
      have hbody := (hmark.trans (quiet_detach id _)).trans (quiet_advances (advances (.effect id) (P.effect id) _))
      exact hbody.trans (quiet_finishEffect id j _)
  · exact .refl s

theorem sound_turn (hexact : P.Exact) (hplain : ∀ n, (P.compute n).Plain) (hs : Sound P rank [] s)
    (turn : Turn I) : (∃ rank', Sound P rank' [] (s.turn P turn)) ∧
      (s.turn P turn).depth = s.depth ∧ (s.turn P turn).batchQueue = s.batchQueue := by
  have hquiet {s' : AsyncContext I V} (hstep : Quiet s s') : (∃ rank', Sound P rank' [] s') ∧
      s'.depth = s.depth ∧ s'.batchQueue = s.batchQueue :=
    ⟨⟨rank, hs.quiet hstep⟩, hstep.depth, hstep.batchQueue⟩
  have hsame {s' : AsyncContext I V} (hstep : Sound P rank [] s' ∧ s'.depth = s.depth ∧
      s'.batchQueue = s.batchQueue) : (∃ rank', Sound P rank' [] s') ∧ s'.depth = s.depth ∧
        s'.batchQueue = s.batchQueue :=
    ⟨⟨rank, hstep.1⟩, hstep.2⟩
  cases turn with
  | getAsync id =>
    refine hquiet ?_
    show Quiet s (s.getAsync id)
    rw [getAsync]
    split
    · exact .refl s
    · exact ⟨rfl, fun _ => rfl, fun _ => rfl, fun h => h, rfl, rfl, fun _ _ h => h, rfl, rfl⟩
  | disposeAsync id => exact hquiet (quiet_disposeAsync id s)
  | begin id => exact hsame (sound_begin hexact hplain hs id)
  | resume id fut => exact hsame (sound_resume hexact hplain hs id fut)
  | wake id fut => exact sound_wake hs id fut
  | wakeCaller k => exact hsame (sound_wakeCaller hs k)
  | startFlush id =>
    refine hquiet ?_
    show Quiet s (s.startFlush id)
    rw [startFlush]
    split
    · exact quiet_onEffect id _ s
    · exact .refl s
  | startBody id j => exact hquiet (quiet_startBody id j s)
  | resumeEffect id j =>
    refine hquiet ?_
    show Quiet s (s.resumeEffect id j)
    rw [resumeEffect]
    split
    · exact (quiet_advances (advances (.effect id) _ s)).trans (quiet_finishEffect id j _)
    · exact .refl s
  | wakeEffect id j =>
    refine hsame ?_
    show Sound P rank [] (s.wakeEffect id j) ∧ _
    rw [turn, wakeEffect]
    split
    next dep future k _ =>
      obtain ⟨hawait, hdepth, hqueue⟩ := sound_await hs dep future
      refine ⟨hawait.quiet ?_, hdepth, hqueue⟩
      exact ⟨rfl, fun _ => rfl, fun _ => rfl, fun h => h, rfl, rfl, fun _ _ h => h, rfl, rfl⟩
    · exact ⟨hs, rfl, rfl⟩
  | beginCleanup id task => exact hquiet (quiet_onEffect id _ s)
  | endCleanup id task => exact hquiet (quiet_onEffect id _ s)
  | resumeFlush id j => exact hquiet (quiet_onEffect id _ s)
  | endRelease id j => exact hquiet (quiet_onEffect id _ s)
  | resumeDispose k =>
    refine hquiet ?_
    show Quiet s (s.resumeDispose k)
    rw [resumeDispose]
    split
    · split
      · exact quiet_disposeEffect k _ s
      · exact .refl s
    · exact (quiet_onEffect _ _ s).trans (quiet_afterDispose k _ _ _)
    · exact .refl s
  | endCleaning k =>
    refine hquiet ?_
    show Quiet s (s.endCleaning k)
    rw [endCleaning]
    split
    · exact (quiet_onEffect _ _ s).trans (quiet_afterDispose k _ _ _)
    · exact .refl s

end AsyncContext

end LazilyPy.Async.Context

import LazilyPy.Reactive.Invariant

/-!
# Steps keep the invariant

One lemma for each control of the machine, assembled in `inv_step`, and from it `inv_run`:
the invariant holds in every configuration that a run of `Calm` steps reaches.
-/

namespace LazilyPy.Reactive

open List Function

variable {V : Type}

section Steps

variable {G : Graph V} {S : Instr → Prop} {h : Heap V} {st : List (Frame V)}

variable {h' : Heap V} {t : Ctl V} {n e : Node} {ord : Enum} {i : ℕ} {v : V} {c' c : Config V} {Q : Node → Prop}
  {P : ℕ → Prop}

/-- The queue grows with the sets, the control and the stack that make it up. -/
theorem Config.Queued.of_le {t' : Ctl V} {st' : List (Frame V)} {m : Node} (hm : Config.Queued ⟨h, t, st⟩ m)
    (hw : ∀ n ∈ h.work, n ∈ h'.work) (hp : ∀ n ∈ h.pendingEffects, n ∈ h'.pendingEffects)
    (ht : t.Owes m → t'.Owes m) (hst : ∀ f ∈ st, f ∈ st') : Config.Queued ⟨h', t', st'⟩ m :=
  hm.imp (hw m) fun hm => ⟨hm.1, hm.2.imp (hp m) fun ho => ho.imp ht fun ⟨f, hf, hfo⟩ => ⟨f, hst f hf, hfo⟩⟩

/-- The queue and the running puller do not depend on a control that calls no effect. -/
theorem HeapInv.recontrol {s : Ctl V} (hi : HeapInv G (Config.Queued ⟨h, t, st⟩) (Config.Pulling ⟨h, t, st⟩) h')
    (ht : ∀ e, t ≠ .call e) (hw : h'.work = h.work) (hp : h'.pendingEffects = h.pendingEffects) :
    HeapInv G (Config.Queued ⟨h', s, st⟩) (Config.Pulling ⟨h', s, st⟩) h' := by
  refine hi.mono (fun m hm => ?_) (fun i hm => ?_)
  · refine hm.imp (fun hwm => hw ▸ hwm) fun hm => ⟨hm.1, hm.2.imp (fun hpm => hp ▸ hpm) ?_⟩
    rintro (ho | hf)
    · cases t with
      | call e => exact absurd rfl (ht e)
      | _ => exact ho.elim
    · exact .inr hf
  · exact hm.imp (fun ⟨k, hk, _⟩ => absurd hk (ht _)) id

/-- Nothing is owed by a frame that is pushed. -/
theorem HeapInv.push (f : Frame V) (hi : HeapInv G (Config.Queued ⟨h, t, st⟩) (Config.Pulling ⟨h, t, st⟩) h') :
    HeapInv G (Config.Queued ⟨h, t, f :: st⟩) (Config.Pulling ⟨h, t, f :: st⟩) h' := by
  refine hi.mono (fun m hm => ?_) (fun i hm => ?_)
  · exact hm.of_le (fun _ => id) (fun _ => id) id fun _ => mem_cons_of_mem _
  · exact hm.imp_right fun ⟨p, hp⟩ => ⟨p, mem_cons_of_mem _ hp⟩

/-- A frame that owes nothing and does not wait for a memo is popped. -/
theorem HeapInv.pop {f : Frame V}
    (hi : HeapInv G (Config.Queued ⟨h, t, f :: st⟩) (Config.Pulling ⟨h, t, f :: st⟩) h') (hf : ∀ m, ¬ f.Owes m)
    (hp : ∀ p i, f ≠ .pull p i) :
    HeapInv G (Config.Queued ⟨h, t, st⟩) (Config.Pulling ⟨h, t, st⟩) h' := by
  refine hi.mono (fun m hm => ?_) (fun i hm => ?_)
  · refine hm.imp_right fun hm => ⟨hm.1, hm.2.imp_right fun hm => hm.imp_right ?_⟩
    rintro ⟨f', hf', ho⟩
    rcases mem_cons.mp hf' with rfl | hmem
    · exact absurd ho (hf m)
    · exact ⟨f', hmem, ho⟩
  · refine hm.imp_right fun ⟨p, hpm⟩ => ⟨p, ?_⟩
    exact (mem_cons.mp hpm).resolve_left fun heq => hp p i heq.symm

/-- More frames. -/
theorem Orderly.push (ho : Orderly S h st) (f : Frame V) : Orderly S h (f :: st) :=
  ⟨ho.called, ho.within, ho.pending, ho.busy, fun ha => mem_cons_of_mem _ (ho.active ha)⟩

/-- A frame other than the drain is popped. -/
theorem Orderly.pop {f : Frame V} (ho : Orderly S h (f :: st)) (hf : f ≠ .drain) : Orderly S h st :=
  ⟨ho.called, ho.within, ho.pending, ho.busy, fun ha => (mem_cons.mp (ho.active ha)).resolve_left hf.symm⟩

/-- `Slot.__call__` of a slot that the stack waits for. -/
theorem inv_callSlot (hi : HeapInv G (Config.Queued ⟨h, t, st⟩) (Config.Pulling ⟨h, t, st⟩) h)
    (ht : ∀ e, t ≠ .call e) (hn : n.isSlot = true) (hw : Awaits G S h n st) (ho : Orderly S h st) :
    Inv G S (callSlot G h st n) := by
  have hpuller : n.isPuller = false := by cases n <;> simp_all [Node.isSlot, Node.isPuller]
  simp only [callSlot, hi.alive hpuller]
  cases hc : h.cache n with
  | some v =>
    exact ⟨hi.recontrol ht rfl rfl, hw.receives hc, ho⟩
  | none =>
    refine ⟨(hi.startCompute hn hc).recontrol ht rfl rfl, ⟨⟨hn, hc, ?_⟩, ?_⟩,
      ⟨ho.called, ho.within, ho.pending, ho.busy, ho.active⟩⟩
    · simp [Heap.startCompute]
    · exact (Extends.startCompute h n).awaits hn hw.1 hw

/-- A read, once the reader is subscribed. -/
theorem inv_get {d : Ref} (hi : Inv G S ⟨h, .get d, st⟩) (hrec : ¬ Evaluating d.object st) :
    Inv G S (getRef G h st d) := by
  obtain ⟨hheap, hfits, ho⟩ := hi
  change HeapInv G _ _ h at hheap
  change Waits G S h st d at hfits
  have hctl : ∀ e, (.get d : Ctl V) ≠ .call e := by simp
  cases d with
  | source i =>
    have hd : h.disposed (.source i) = false := hheap.alive rfl
    simp only [getRef, hd]
    exact ⟨hheap.recontrol hctl rfl rfl, hfits.receives fun m hl => ⟨hl.2.1, .inl rfl⟩, ho⟩
  | slot i => exact inv_callSlot hheap hctl rfl ⟨hrec, .inl ⟨.slot i, rfl, hfits⟩⟩ ho
  | computed i =>
    simp only [getRef, getComputed]
    by_cases he : h.eager i = true
    · simp only [he, if_true, hheap.fresh i, Bool.false_eq_true, if_false]
      -- the handle is set: only a puller waiting for this very memo could still owe it
      obtain ⟨k, _, _, _, hpull | ⟨_, hh, _⟩⟩ := hheap.eagerly i he
      · rcases hpull with ⟨k', hk', _⟩ | ⟨p, hp⟩
        · cases hk'
        · exact absurd (hfits.evaluating hp) hrec
      obtain ⟨v, hv⟩ := Option.ne_none_iff_exists'.mp hh
      refine ⟨hheap.recontrol hctl rfl rfl, hfits.receives fun m hl => ?_, ho⟩
      simp only [hv, Option.getD_some]
      exact ⟨hl.2.1, .inl ⟨he, hv ▸ Offers.refl G v⟩⟩
    · simp only [he]
      exact inv_callSlot hheap hctl rfl ⟨hrec, .inl ⟨.computed i, ⟨rfl, by simpa using he⟩, hfits⟩⟩ ho

/-- Subscribing leaves the rest of the state in order. -/
theorem Orderly.subscribe (ho : Orderly S h st) (d : Ref) (r : Node) : Orderly S (h.subscribe d r) st := by
  rw [Heap.subscribe_eq]
  exact ⟨ho.called, ho.within, ho.pending, ho.busy, ho.active⟩

/-- A subscription after which the read is under way. -/
theorem HeapInv.subscribed (hi : HeapInv G (Config.Queued ⟨h, t, st⟩) (Config.Pulling ⟨h, t, st⟩) h)
    (ht : ∀ e, t ≠ .call e) (d : Ref) (r : Node) (t' : Ctl V) (f : Frame V) :
    HeapInv G (Config.Queued ⟨h.subscribe d r, t', f :: st⟩)
      (Config.Pulling ⟨h.subscribe d r, t', f :: st⟩) (h.subscribe d r) := by
  refine ((hi.subscribe d r).recontrol ht ?_ ?_).push f
  · rw [Heap.subscribe_eq]
  · rw [Heap.subscribe_eq]

/-- One step of a compute function. -/
theorem inv_eval {t : Comp V} (hi : Inv G S ⟨h, .eval n t, st⟩) (hr : t ≠ .raise) :
    Inv G S (stepEval h st n t) := by
  obtain ⟨hheap, ⟨⟨hn, hc, hf⟩, hw⟩, ho⟩ := hi
  change HeapInv G _ _ h at hheap
  have hctl : ∀ e, (.eval n t : Ctl V) ≠ .call e := by simp
  cases t with
  | ret v =>
    refine ⟨(hheap.setCache hn hc hf).recontrol hctl rfl rfl, ?_,
      ⟨ho.called, ho.within, ho.pending, ho.busy, ho.active⟩⟩
    refine ((Extends.setCache h n v).awaits hn hw.1 hw).receives ?_
    simp [Heap.setCache]
  | raise => exact absurd rfl hr
  | read d k =>
    have hx := Extends.subscribe h n d n
    refine ⟨hheap.subscribed hctl d n _ _, ?_, (ho.subscribe d n).push _⟩
    refine ⟨rfl, linked_subscribe h d n, ⟨hn, ?_, ?_⟩, hx.awaits hn hw.1 hw⟩
    · rw [stepEval, Heap.subscribe_eq]
      exact hc
    · rw [stepEval, Heap.subscribe_eq]
      exact hf

/-- `touch()`, with the dependents counted as queued. -/
theorem inv_touch (hord : ord.Lawful)
    (hi : HeapInv G (fun m => Config.Queued ⟨h, .returned none, st⟩ m ∨ m ∈ h.parents n)
      (Config.Pulling ⟨h, .returned none, st⟩) h) (hst : Settled S h st) (ho : Orderly S h st) :
    Inv G S (touch ord h st n) := by
  have hreturn : ∀ c, (none : Option (Code V)) = some c → c.Within S := by simp
  simp only [touch]
  cases hp : h.parents n with
  | nil =>
    exact ⟨hi.mono (fun m hm => hm.resolve_right (by simp [hp])) (fun _ => id), ⟨hreturn, hst⟩, ho⟩
  | cons p ps =>
    have hwork : ∀ m ∈ h.parents n, m ∈ (h.pushParents ord n).work := fun m hm =>
      mem_append_left _ ((hord _ _).mem_iff.mpr hm)
    have hpush := hi.pushParents (R := Config.Queued ⟨h.pushParents ord n, .returned none, st⟩)
      (n := n) ord (by
        rintro m (hm | hm)
        · exact hm.imp_left fun hw => mem_append_right _ hw
        · exact .inl (hwork m hm)) fun m hm => .inl (hwork m hm)
    simp only [drainResets]
    by_cases ha : (h.pushParents ord n).active = true
    · simp only [ha, if_true]
      exact ⟨hpush, ⟨hreturn, hst⟩, ho.called, ho.within, ho.pending, fun _ => ha, ho.active⟩
    · simp only [ha]
      have hloop := (hpush.recontrol (s := .loop) (by simp) rfl rfl).push .drain
      refine ⟨{ hloop with }, ⟨by simp, ?_⟩, ho.called, ho.within, ho.pending, fun _ => rfl, fun _ => ?_⟩
      · exact Settled.cons trivial hst
      · exact mem_cons_self

/-- The puller stores what the memo returned. -/
theorem inv_pulled [DecidableEq V] (hord : ord.Lawful) {p : Node} (hi : Inv G S ⟨h, .value v, .pull p i :: st⟩) :
    Inv G S (pulled G ord h st p i v) := by
  obtain ⟨hheap, ⟨hc, k, st', rfl, rfl, ha, hst⟩, ho⟩ := hi
  change HeapInv G _ _ h at hheap
  have hreturn : ∀ c, (none : Option (Code V)) = some c → c.Within S := by simp
  have hst' : ∀ u, Settled S ((h.record (.puller i k) (.memo i) v).setHandle i u)
      (.effect (.puller i k) :: st') := fun u => Settled.cons trivial hst
  have hpull : ∀ h' : Heap V, ∀ j, Config.Pulling
      ⟨h, .value v, .pull (.puller i k) i :: .effect (.puller i k) :: st'⟩ j ∧ j ≠ i →
      Config.Pulling ⟨h', .returned none, .effect (.puller i k) :: st'⟩ j := by
    rintro h' j ⟨⟨k', hk', _⟩ | ⟨p, hp⟩, hj⟩
    · cases hk'
    · rcases hp with _ | ⟨_, _ | ⟨_, hp⟩⟩
      · exact absurd rfl hj
      · exact absurd hp hst.not_pull
  have hqueue : ∀ u m, Config.Queued ⟨h, .value v, .pull (.puller i k) i :: .effect (.puller i k) :: st'⟩ m →
      Config.Queued ⟨(h.record (.puller i k) (.memo i) v).setHandle i u, .returned none,
        .effect (.puller i k) :: st'⟩ m := by
    intro u m hm
    simpa [Config.Queued, Ctl.Owes, Frame.Owes, Heap.setHandle, Heap.record] using hm
  have ho' := ho.pop (by simp)
  simp only [pulled]
  cases hh : h.handle i with
  | none =>
    refine ⟨(hheap.pulled ha hc (fun _ => rfl) (hqueue v) ?_).mono (fun _ => id) (hpull _),
      ⟨hreturn, hst' v⟩, ho'.called, ho'.within, ho'.pending, ho'.busy, ho'.active⟩
    rintro m w _ ⟨u, hu, _⟩
    simp [hh] at hu
  | some old =>
    simp only
    split
    · refine inv_touch hord ?_ (hst' v) ⟨ho'.called, ho'.within, ho'.pending, ho'.busy, ho'.active⟩
      refine (hheap.pulled ha hc (fun _ => rfl) (fun m hm => .inl (hqueue v m hm)) ?_).mono (fun _ => id) (hpull _)
      exact fun m w hm _ => .inl (.inr hm)
    · next hkeep =>
      have hsame : (h.record (.puller i k) (.memo i) v).setHandle i old = h.record (.puller i k) (.memo i) v := by
        simp only [Heap.setHandle, ← hh]
        congr 1
        exact update_eq_self i h.handle
      have hexact : G.ExactGuards → old = v := fun hx => hx.eq_of_suppressed (by simpa using hkeep)
      have hpulled := (hheap.pulled ha hc hexact (hqueue old) ?_).mono (fun _ => id)
        (hpull (h.record (.puller i k) (.memo i) v))
      · rw [hsame] at hpulled
        exact ⟨hpulled, ⟨hreturn, hst' old⟩, ho'.called, ho'.within, ho'.pending, ho'.busy, ho'.active⟩
      · rw [hh]
        exact fun m w _ ho => .inr ho

/-- A value reaches the frame that asked for it. -/
theorem inv_value [DecidableEq V] (hord : ord.Lawful) (hi : Inv G S ⟨h, .value v, st⟩)
    (hs : stepValue G ord h v st = some c') : Inv G S c' := by
  have hctl : ∀ e, (.value v : Ctl V) ≠ .call e := by simp
  cases st with
  | nil => cases hs
  | cons f st =>
    cases f with
    | inSlot n d k =>
      cases hs
      obtain ⟨hheap, ⟨hseen, hdep, ⟨hn, hc, hf⟩, hw⟩, ho⟩ := hi
      change HeapInv G _ _ h at hheap
      have hne : n.isPuller = false := by cases n <;> simp_all [Node.isSlot, Node.isPuller]
      have hrec := hheap.record (hseen.mono (fun _ _ hF => hF.elim) (fun _ => id) (fun _ => id)
        (fun _ _ => id) rfl rfl) hdep hc hne (.inl hn)
      refine ⟨(hrec.recontrol hctl rfl rfl).pop (by simp [Frame.Owes]) (by simp), ?_,
        ho.called, ho.within, ho.pending, ho.busy, (ho.pop (by simp)).active⟩
      refine ⟨⟨hn, hc, ?_⟩, (Extends.record h n d.node v).awaits hn hw.1 hw⟩
      simpa [Heap.record] using Comp.follow_append hf v
    | inCode r d k =>
      cases hs
      obtain ⟨hheap, ⟨hseen, hr, hk, hst⟩, ho⟩ := hi
      change HeapInv G _ _ h at hheap
      have ho' := ho.pop (by simp)
      cases r with
      | none =>
        exact ⟨(hheap.recontrol hctl rfl rfl).pop (by simp [Frame.Owes]) (by simp), ⟨hr, hk v, hst⟩, ho'⟩
      | some e =>
        obtain ⟨hs, hdep⟩ := hseen e rfl
        obtain ⟨⟨i, rfl⟩, hstart⟩ := hr e rfl
        have hc : h.cache (.effect i) = none := by
          by_contra hne
          cases hheap.cached _ hne
        have hrec := hheap.record (hs.mono (fun _ _ hF => hF.elim) (fun _ => id) (fun _ => id)
          (fun _ _ => id) rfl rfl) hdep hc rfl (.inr ⟨rfl, hstart⟩)
        exact ⟨(hrec.recontrol hctl rfl rfl).pop (by simp [Frame.Owes]) (by simp),
          ⟨hr, hk v, hst⟩, ho'.called, ho'.within, ho'.pending, ho'.busy, ho'.active⟩
    | pull p i =>
      cases hs
      exact inv_pulled hord hi
    | _ => exact hi.fits.elim

/-- The body of an effect starts, with the effect itself out of the queue. -/
theorem inv_runBody (hG : S .call → ∀ i r, (G.effectBody i r).Within S)
    (hi : HeapInv G (fun m => Config.Queued ⟨h, .returned none, st⟩ m ∨ m = e)
      (fun j => Config.Pulling ⟨h, .returned none, st⟩ j ∨ ∃ k, e = .puller j k ∧ h.puller j = some k) h)
    (he : Callable h e) (hs : h.started e = true) (hd : h.disposed e = false) (hst : Settled S h st)
    (ho : Orderly S h st) : Inv G S (runBody G h st e) := by
  have hstart := hi.startEffect (e := e) (R := Config.Queued ⟨h, .returned none, st⟩)
    (fun m hm hne => hm.resolve_right hne) he.1
    (fun i k heq _ hk => .inr ⟨k, heq, hk⟩)
  cases e with
  | effect i =>
    have hrun := hstart.mono (R := Config.Queued ⟨h, .returned none, st⟩) (fun _ => id)
      (U := Config.Pulling ⟨h, .returned none, st⟩) (fun j hj => hj.resolve_right (by simp))
    have hctl := (hrun.recontrol (s := .exec (some (.effect i)) (G.effectBody i (h.runs (.effect i))))
      (by simp) rfl rfl).push (.effect (.effect i))
    refine ⟨hctl, ⟨?_, hG (ho.called i hs) _ _, Settled.cons trivial (hst.mono fun _ => id)⟩, ?_⟩
    · intro e heq
      cases heq
      exact ⟨⟨i, rfl⟩, hs⟩
    · exact ⟨ho.called, ho.within, ho.pending, ho.busy, fun ha => mem_cons_of_mem _ (ho.active ha)⟩
  | puller i k =>
    obtain ⟨_, hcur⟩ := (he.2 i k rfl).imp_right fun h' => h'.resolve_left (by simp [hd])
    set h₁ := (h.startEffect (.puller i k)).registerEdge (.memo i) (.puller i k) with hh₁
    have hrun : HeapInv G (Config.Queued ⟨h₁, .returned none, .pull (.puller i k) i :: .effect (.puller i k) :: st⟩)
        (Config.Pulling ⟨h₁, .returned none, .pull (.puller i k) i :: .effect (.puller i k) :: st⟩)
        h₁ := by
      refine (hstart.registerEdge (d := .memo i) rfl (.puller i k)).mono (fun m hm => ?_) (fun j hj => ?_)
      · exact hm.of_le (fun _ => id) (fun _ => id) id (by simp +contextual)
      · rcases hj with (⟨k', hk', _⟩ | ⟨p, hp⟩) | ⟨k', hk', _⟩
        · cases hk'
        · exact absurd hp hst.not_pull
        · cases hk'
          exact .inr ⟨_, mem_cons_self⟩
    have hst₁ : Settled S h₁ st := hst.mono fun _ => id
    refine inv_callSlot hrun (by simp) rfl ⟨?_, .inr ⟨i, k, st, rfl, rfl, ?_, hst₁⟩⟩ ?_
    · rintro ⟨d, k', hmem⟩
      exact hst.not_evaluating ⟨d, k', by simpa using hmem⟩
    · exact
      { eager := hcur.1
        puller := hcur.2
        started := hs
        reads := by simp [Heap.registerEdge, Heap.startEffect]
        deps := by simp [Heap.registerEdge]
        parents := by simp [Heap.registerEdge] }
    · exact ⟨ho.called, ho.within, ho.pending, ho.busy, fun ha => mem_cons_of_mem _ (mem_cons_of_mem _ (ho.active ha))⟩
  | source i => cases he.1
  | slot i => cases he.1
  | computed i => cases he.1
  | memo i => cases he.1

/-- `Effect.__call__`. -/
theorem inv_call (hG : S .call → ∀ i r, (G.effectBody i r).Within S) (hi : Inv G S ⟨h, .call e, st⟩) :
    Inv G S (callEffect G h st e) := by
  obtain ⟨hheap, ⟨he, hcall, hst⟩, ho⟩ := hi
  change HeapInv G _ _ h at hheap
  change Callable h e at he
  have hqueue : ∀ m, Config.Queued ⟨h, .call e, st⟩ m → Config.Queued ⟨h, .returned none, st⟩ m ∨ m = e := by
    rintro m (hm | ⟨hm, hp | ho | hf⟩)
    · exact .inl (.inl hm)
    · exact .inl (.inr ⟨hm, .inl hp⟩)
    · exact .inr ho
    · exact .inl (.inr ⟨hm, .inr (.inr hf)⟩)
  simp only [callEffect]
  by_cases hd : h.disposed e = true
  · simp only [hd, if_true]
    -- a disposed effect has no record, and it is not the puller of an eager computed
    refine ⟨hheap.requeue (fun m hm => ?_) (fun i k hq hei hk => ?_) (fun i hei hp => ?_), ⟨by simp, hst⟩, ho⟩
    · refine (hqueue m hm).imp_right ?_
      rintro rfl
      by_contra hr
      rcases hheap.readers m hr with hslot | ⟨_, _, hd'⟩
      · have := he.1
        cases m <;> simp_all [Node.isSlot, Node.isEffect]
      · simp [hd] at hd'
    · refine .inl ((hqueue _ hq).resolve_right ?_)
      rintro rfl
      exact absurd hd (by simp [(hheap.current hei hk).2])
    · refine hp.imp_left ?_
      rintro ⟨k, hk, hcur⟩
      cases hk
      exact absurd hd (by simp [(hheap.current hei hcur).2])
  · have hd' : h.disposed e = false := by simpa using hd
    simp only [hd', Bool.false_eq_true, if_false]
    set h₁ : Heap V := { h with started := update h.started e true } with hh₁
    have hheap₁ := hheap.start (e := e) fun i k heq => heq ▸ he.2 i k heq
    have hst₁ : Settled S h₁ st := hst.mono fun e' he' => by
      simp only [h₁, update_apply]
      split
      · rfl
      · exact he'
    have hcalled : ∀ i, h₁.started (.effect i) = true → S .call := by
      intro i hi
      by_cases heq : Node.effect i = e
      · exact hcall i heq.symm
      · exact ho.called i (by simpa [h₁, heq] using hi)
    cases hc : h.cleanup e with
    | none =>
      refine inv_runBody hG (e := e) (hheap₁.mono hqueue fun i hp => ?_) he (by simp [h₁]) hd' hst₁
        ⟨hcalled, ho.within, ho.pending, ho.busy, ho.active⟩
      rcases hp with ⟨k, hk, hcur⟩ | hp
      · cases hk
        exact .inr ⟨k, rfl, hcur⟩
      · exact .inl (.inr hp)
    | some c =>
      obtain ⟨i, rfl⟩ : ∃ i, e = .effect i := by
        have := he.1
        cases e with
        | effect i => exact ⟨i, rfl⟩
        | puller i k => simp [hheap.closures i k] at hc
        | _ => cases this
      have hq : ∀ m, Config.Queued ⟨h, .call (.effect i), st⟩ m → Config.Queued
          ⟨{ h₁ with cleanup := update h₁.cleanup (.effect i) none }, .exec none c,
            .cleanup (.effect i) :: st⟩ m := by
        intro m hm
        rcases hqueue m hm with hm | rfl
        · exact hm.of_le (fun _ => id) (fun _ => id) id fun _ => mem_cons_of_mem _
        · exact .inr ⟨rfl, .inr (.inr ⟨_, mem_cons_self, rfl⟩)⟩
      have hp : ∀ j, Config.Pulling ⟨h, .call (.effect i), st⟩ j → Config.Pulling
          ⟨{ h₁ with cleanup := update h₁.cleanup (.effect i) none }, .exec none c,
            .cleanup (.effect i) :: st⟩ j := by
        rintro j (⟨k, hk, _⟩ | ⟨p, hp⟩)
        · cases hk
        · exact .inr ⟨p, mem_cons_of_mem _ hp⟩
      have hheap₂ := hheap₁.mono hq hp
      refine ⟨{ hheap₂ with closures := fun j k => ?_ }, ⟨?_, ho.within _ c hc, ?_⟩, ?_⟩
      · simpa using hheap₂.closures j k
      · rintro e ⟨⟩
      · exact Settled.cons ⟨⟨i, rfl⟩, by simp⟩ (hst₁.mono fun _ => id)
      · refine ⟨hcalled, fun e' code hcode => ?_, ho.pending, ho.busy, fun ha => mem_cons_of_mem _ (ho.active ha)⟩
        by_cases heq : e' = .effect i
        · subst heq
          simp at hcode
        · exact ho.within e' code (by simpa [h₁, heq] using hcode)

/-- A started effect may be called. -/
theorem HeapInv.callable (hi : HeapInv G Q P h) (he : e.isEffect = true) (hs : h.started e = true) : Callable h e :=
  ⟨he, fun i k heq => by subst heq; exact hi.minted i k hs⟩

/-- An effect that is disposed, or was never started, has no record. -/
theorem HeapInv.reads_eq_nil (hi : HeapInv G Q P h) (he : e.isSlot = false)
    (hd : h.disposed e = true ∨ h.started e = false) :
    h.reads e = [] := by
  by_contra hr
  rcases hi.readers e hr with hslot | ⟨_, hs, hd'⟩
  · simp [he] at hslot
  · rcases hd with hd | hd <;> simp_all

/-- A node that is neither a slot nor a live effect that has started has no record. -/
theorem HeapInv.reads_of_idle (hi : HeapInv G Q P h) (hn : n.isSlot = false)
    (hd : n.isEffect = false ∨ h.disposed n = true ∨ h.started n = false) : h.reads n = [] := by
  rcases hd with he | hd
  · by_contra hr
    rcases hi.readers n hr with hslot | ⟨heff, _⟩
    · simp [hn] at hslot
    · simp [he] at heff
  · exact hi.reads_eq_nil hn hd

/-- A node leaves the queue without a rerun: it has no record, and no eager computed is
waiting for it. -/
theorem HeapInv.dismiss {R : Node → Prop} (hi : HeapInv G Q P h) (hQ : ∀ m, Q m → R m ∨ m = e)
    (he : e.isSlot = false) (hP : ∀ i, ¬ P i) (hd : e.isEffect = true → h.disposed e = true ∨ h.started e = false) :
    HeapInv G R P h := by
  have hnil : h.reads e = [] := by
    refine hi.reads_of_idle he ?_
    cases heff : e.isEffect with
    | false => exact .inl rfl
    | true => exact .inr (hd heff)
  have hleave : ∀ m, Q m → R m ∨ h.reads m = [] := by
    intro m hm
    rcases hQ m hm with hm | rfl
    · exact .inl hm
    · exact .inr hnil
  refine hi.requeue hleave (fun i k hq hei hk => ?_) (fun i _ => id)
  refine .inl ((hQ _ hq).resolve_right ?_)
  rintro rfl
  obtain ⟨k', hk', _, hd', hcur⟩ := hi.eagerly i hei
  obtain rfl : k' = k := Option.some.inj (hk' ▸ hk)
  rcases hd rfl with hd | hs
  · simp [hd] at hd'
  · simpa [hs] using (hcur.resolve_left (hP i)).1

/-- No puller waits in the middle of the stack. -/
theorem Settled.not_pulling (hst : Settled S h st) (ht : ∀ e, t ≠ .call e) (i : ℕ) :
    ¬ Config.Pulling ⟨h', t, st⟩ i := by
  rintro (⟨k, hk, _⟩ | ⟨p, hp⟩)
  · exact ht _ hk
  · exact hst.not_pull hp

/-- Effects have no dependents to forget. -/
theorem HeapInv.clearParents_eq (hi : HeapInv G Q P h) (he : e.isEffect = true) : h.clearParents e = h := by
  have hnil := hi.sinks e he
  simp only [Heap.clearParents, ← hnil]
  congr 1
  exact update_eq_self e h.parents

/-- `_invalidate` of the popped node. -/
theorem inv_invalidate (hord : ord.Lawful) {rest : List Node} (hi : Inv G S ⟨h, .loop, .drain :: st⟩)
    (hwork : h.work = n :: rest) (hrun : n.isEffect = true → h.disposed n = false → h.running n = false) :
    Inv G S (invalidate ord { h with work := rest } (.drain :: st) n) := by
  obtain ⟨hheap, ⟨hdrain, hst⟩, ho⟩ := hi
  change HeapInv G _ _ h at hheap
  change Settled S h (.drain :: st) at hst
  have hloop : ∀ e, (.loop : Ctl V) ≠ .call e := by simp
  have hactive : h.active = true := ho.busy (by simp [hwork])
  set h₁ : Heap V := { h with work := rest } with hh₁
  have hheap₁ : HeapInv G (Config.Queued ⟨h, .loop, .drain :: st⟩)
      (Config.Pulling ⟨h, .loop, .drain :: st⟩) h₁ := { hheap with }
  have hqueue : ∀ m, Config.Queued ⟨h, .loop, .drain :: st⟩ m →
      Config.Queued ⟨h₁, .loop, .drain :: st⟩ m ∨ m = n := by
    rintro m (hm | hm)
    · rcases mem_cons.mp (hwork ▸ hm) with rfl | hm
      · exact .inr rfl
      · exact .inl (.inl hm)
    · exact .inl (.inr hm)
  have ho₁ : ∀ w, Orderly S { h₁ with work := w } (.drain :: st) := fun w =>
    ⟨ho.called, ho.within, ho.pending, fun _ => hactive, ho.active⟩
  have hpulling : ∀ i, ¬ Config.Pulling ⟨h, .loop, .drain :: st⟩ i := hst.not_pulling hloop
  have hslot : n.isSlot = true → Inv G S ⟨h₁.invalidateSlot ord n, .loop, .drain :: st⟩ := by
    intro hn
    refine ⟨hheap₁.invalidateSlot hn ord (fun m hm hne => ?_) (fun m hm => ?_), ⟨hdrain, hst.mono fun _ => id⟩, ?_⟩
    · refine ((hqueue m hm).resolve_right hne).of_le (fun m hm => ?_) (fun _ => id) id fun _ => id
      exact mem_append_right _ hm
    · exact .inl (mem_append_left _ ((hord _ _).mem_iff.mpr hm))
    · exact ⟨ho.called, ho.within, ho.pending, fun _ => hactive, ho.active⟩
  have hskip : n.isSlot = false → (n.isEffect = true → h.disposed n = true ∨ h.started n = false) →
      Inv G S ⟨h₁, .loop, .drain :: st⟩ := fun hn hd =>
    ⟨hheap₁.dismiss hqueue hn hpulling hd, ⟨hdrain, hst⟩, ho₁ rest⟩
  have heffect : n.isEffect = true → Inv G S (if h₁.disposed n || h₁.running n then ⟨h₁, .loop, .drain :: st⟩
      else if 0 < h₁.depth then ⟨(h₁.clearParents n).enqueueEffect n, .loop, .drain :: st⟩
      else if h₁.started n then ⟨h₁.clearParents n, .call n, .drain :: st⟩
      else ⟨h₁.clearParents n, .loop, .drain :: st⟩) := by
    intro hn
    have hns : n.isSlot = false := by cases n <;> simp_all [Node.isSlot, Node.isEffect]
    rw [hheap₁.clearParents_eq hn]
    by_cases hd : h.disposed n = true
    · simp only [h₁, hd, Bool.true_or, if_true]
      exact hskip hns fun _ => .inl hd
    have hr := hrun hn (by simpa using hd)
    simp only [h₁, hd, hr, Bool.or_self, Bool.false_eq_true, if_false]
    split
    · refine ⟨?_, ⟨hdrain, hst.mono fun _ => id⟩, ho.called, ho.within, fun e he => ?_, fun _ => hactive, ho.active⟩
      · refine { hheap₁.mono (R := Config.Queued ⟨h₁.enqueueEffect n, .loop, .drain :: st⟩)
          (fun m hm => ?_) (fun _ => id) with }
        rcases hqueue m hm with hm | rfl
        · refine hm.of_le (fun _ => id) (fun e he => ?_) id fun _ => id
          exact mem_insertNode.mpr (.inr he)
        · exact .inr ⟨hn, .inl (mem_insertNode.mpr (.inl rfl))⟩
      · rcases mem_insertNode.mp he with rfl | he
        · exact hn
        · exact ho.pending e he
    · split
      · next hs =>
        refine ⟨hheap₁.mono (fun m hm => ?_) (fun i hi => absurd hi (hpulling i)),
          ⟨hheap₁.callable hn hs, fun i heq => ho.called i (heq ▸ hs), hst⟩, ho₁ rest⟩
        rcases hqueue m hm with hm | rfl
        · exact hm.of_le (fun _ => id) (fun _ => id) (fun ho => ho.elim) fun _ => id
        · exact .inr ⟨hn, .inr (.inl rfl)⟩
      · next hs => exact hskip hns fun _ => .inr (by simpa using hs)
  cases n with
  | source i => exact hskip rfl (by simp [Node.isEffect])
  | computed i => exact hskip rfl (by simp [Node.isEffect])
  | slot i =>
    simp only [invalidate, hheap₁.alive (n := .slot i) rfl]
    exact hslot rfl
  | memo i =>
    simp only [invalidate, hheap₁.alive (n := .memo i) rfl]
    exact hslot rfl
  | effect i => exact heffect rfl
  | puller i k => exact heffect rfl

/-- The head of the drain loop. -/
theorem inv_loop (hord : ord.Lawful) (hi : Inv G S ⟨h, .loop, st⟩) (hcalm : Calm (⟨h, .loop, st⟩ : Config V))
    (hs : stepLoop ord h st = some c') : Inv G S c' := by
  cases st with
  | nil => cases hs
  | cons f st =>
    cases f with
    | drain =>
      simp only [stepLoop] at hs
      split at hs
      · next hwork =>
        cases hs
        obtain ⟨hheap, ⟨_, hst⟩, ho⟩ := hi
        have hheap' := (hheap.recontrol (s := .returned none) (by simp) rfl rfl).pop (by simp [Frame.Owes]) (by simp)
        refine ⟨{ hheap' with }, ⟨by simp, hst.tail.mono fun _ => id⟩, ho.called, ho.within, ho.pending, ?_, ?_⟩
        · exact fun hne => absurd hwork hne
        · simp
      · next n rest hwork =>
        cases hs
        exact inv_invalidate hord hi hwork fun he hd =>
          hcalm.notReentered n rest rfl hwork he hd
    | _ => cases hs

/-- The loop of phase 2, with the effects still to rerun counted as queued. -/
theorem inv_nextRerun {b : Bool} {es : List Node} (hi : HeapInv G (fun m => Config.Queued ⟨h, .returned none, st⟩ m ∨
      m.isEffect = true ∧ m ∈ es) (Config.Pulling ⟨h, .returned none, st⟩) h)
    (hes : ∀ e ∈ es, e.isEffect = true) (hst : Settled S h st) (ho : Orderly S h st)
    (hr : (nextRerun h st b es).ctl ≠ .raised) : Inv G S (nextRerun h st b es) := by
  have hreturned : ∀ e, (.returned none : Ctl V) ≠ .call e := by simp
  cases es with
  | nil =>
    cases b with
    | true => exact absurd rfl hr
    | false =>
      have hi' := hi.mono (fun m hm => hm.resolve_right (by simp)) (fun _ => id)
      exact ⟨{ hi' with }, ⟨by simp, hst.mono fun _ => id⟩, ho.called, ho.within, ho.pending, ho.busy, ho.active⟩
  | cons e rest =>
    have he := hes e mem_cons_self
    have hns : e.isSlot = false := by cases e <;> simp_all [Node.isSlot, Node.isEffect]
    have hst' : Settled S h (.rerun b rest :: st) := Settled.cons (fun e' he' => hes e' (mem_cons_of_mem _ he')) hst
    have ho' := ho.push (.rerun b rest)
    have hqueue : ∀ t m, (Config.Queued ⟨h, .returned none, st⟩ m ∨ m.isEffect = true ∧ m ∈ e :: rest) →
        Config.Queued ⟨h, t, .rerun b rest :: st⟩ m ∨ m = e := by
      rintro t m (hm | ⟨hm, hmem⟩)
      · exact .inl (hm.of_le (fun _ => id) (fun _ => id) (fun ho => ho.elim) fun _ => mem_cons_of_mem _)
      · rcases mem_cons.mp hmem with rfl | hmem
        · exact .inr rfl
        · exact .inl (.inr ⟨hm, .inr (.inr ⟨_, mem_cons_self, hmem⟩)⟩)
    have hskip : h.disposed e = true ∨ h.started e = false → Inv G S ⟨h, .returned none, .rerun b rest :: st⟩ := by
      intro hd
      have hi' := hi.dismiss (hqueue (.returned none)) hns (hst.not_pulling hreturned) fun _ => hd
      exact ⟨hi'.mono (fun _ => id) fun i hp => absurd hp (hst.not_pulling hreturned i), ⟨by simp, hst'⟩, ho'⟩
    simp only [nextRerun]
    split
    · next hd => exact hskip (.inl hd)
    · split
      · next hs =>
        refine ⟨hi.mono (fun m hm => ?_) fun i hp => absurd hp (hst.not_pulling hreturned i),
          ⟨hi.callable he hs, fun i heq => ho.called i (heq ▸ hs), hst'⟩, ho'⟩
        refine (hqueue (.call e) m hm).elim id ?_
        rintro rfl
        exact .inr ⟨he, .inr (.inl rfl)⟩
      · next hs => exact hskip (.inr (by simpa using hs))

/-- The end of a batch. -/
theorem inv_endBatch (hord : ord.Lawful) {b : Bool}
    (hi : HeapInv G (Config.Queued ⟨h, .returned none, st⟩) (Config.Pulling ⟨h, .returned none, st⟩) h)
    (hst : Settled S h st) (ho : Orderly S h st) (hr : (endBatch ord h st b).ctl ≠ .raised) :
    Inv G S (endBatch ord h st b) := by
  simp only [endBatch] at hr ⊢
  split
  · have hflush := Heap.touchAll_eq ord (ord none h.pendingCells) ({ h with pendingCells := [] })
    have hpend : (h.flushTouch ord).pendingEffects = h.pendingEffects := by
      simp only [Heap.flushTouch]
      rw [hflush]
    have hclean : (h.flushTouch ord).cleanup = h.cleanup := by
      simp only [Heap.flushTouch]
      rw [hflush]
    have hstart : (h.flushTouch ord).started = h.started := by
      simp only [Heap.flushTouch]
      rw [hflush]
    have hwork : ∀ m ∈ h.work, m ∈ (h.flushTouch ord).work := fun m hm =>
      (Heap.mem_work_touchAll hord).mpr (.inl hm)
    refine ⟨(hi.flushTouch hord (fun m hm => ?_) (fun m hm => .inl hm)).mono (fun _ => id)
      (fun i hp => ?_), ⟨by simp, ?_⟩, hstart ▸ ho.called, hclean ▸ ho.within, hpend ▸ ho.pending, fun _ => rfl,
      fun _ => mem_cons_self⟩
    · refine hm.of_le hwork (fun e he => hpend ▸ he) (fun ho => ho.elim) fun f hf => ?_
      exact mem_cons_of_mem _ (mem_cons_of_mem _ hf)
    · exact absurd hp (hst.not_pulling (by simp) i)
    · exact Settled.cons trivial (Settled.cons trivial (hst.mono fun _ he => hstart ▸ he))
  · cases b with
    | true =>
      next hdepth => simp [hdepth] at hr
    | false =>
      exact ⟨{ hi with }, ⟨by simp, hst.mono fun _ => id⟩, ho.called, ho.within, ho.pending, ho.busy, ho.active⟩

/-- A call has returned. -/
theorem inv_returned (hG : S .call → ∀ i r, (G.effectBody i r).Within S) (hord : ord.Lawful) {cl : Option (Code V)}
    (hi : Inv G S ⟨h, .returned cl, st⟩) (hs : stepReturned G ord h cl st = some c') (hr : c'.ctl ≠ .raised) :
    Inv G S c' := by
  obtain ⟨hheap, ⟨hcl, hst⟩, ho⟩ := hi
  have hctl : ∀ e, (.returned cl : Ctl V) ≠ .call e := by simp
  cases st with
  | nil => cases hs
  | cons f st =>
    have hpop : ∀ t, (∀ m, ¬ f.Owes m) → (∀ p i, f ≠ .pull p i) →
        HeapInv G (Config.Queued ⟨h, t, st⟩) (Config.Pulling ⟨h, t, st⟩) h :=
      fun t hf hp => (hheap.recontrol hctl rfl rfl).pop hf hp
    change Settled S h (f :: st) at hst
    have hst' := hst.tail
    have hf : f.Settled S h := hst f mem_cons_self
    change Orderly S h (f :: st) at ho
    cases f with
    | andThen r c =>
      cases hs
      exact ⟨hpop _ (by simp [Frame.Owes]) (by simp), ⟨hf.1, hf.2, hst'⟩, ho.pop (by simp)⟩
    | attempt r c =>
      cases hs
      exact ⟨hpop _ (by simp [Frame.Owes]) (by simp), ⟨hf.1, hf.2, hst'⟩, ho.pop (by simp)⟩
    | drain =>
      cases hs
      exact ⟨hheap.recontrol hctl rfl rfl, ⟨by simp, hst⟩, ho⟩
    | effect e =>
      cases hs
      have hheap' := hpop (.returned none) (by simp [Frame.Owes]) (by simp)
      have ho' := ho.pop (by simp)
      refine ⟨{ hheap' with closures := fun i k => ?_ }, ⟨by simp, hst'.mono fun _ => id⟩,
        ho'.called, fun e' c hc => ?_, ho'.pending, ho'.busy, ho'.active⟩
      · by_cases heq : Node.puller i k = e
        · subst heq
          simp [Node.isPuller]
        · simpa [heq] using hheap'.closures i k
      · by_cases heq : e' = e
        · subst heq
          by_cases hp : e'.isPuller = true
          · simp [hp] at hc
          · exact hcl c (by simpa [hp] using hc)
        · exact ho.within e' c (by simpa [heq] using hc)
    | cleanup e =>
      cases hs
      obtain ⟨⟨i, rfl⟩, hstart⟩ := hf
      refine inv_runBody hG ((hheap.recontrol (s := .returned none) hctl rfl rfl).mono
        (fun m hm => ?_) (fun j hp => ?_)) ⟨rfl, by simp⟩ hstart (hheap.alive rfl) hst'
        (ho.pop (by simp))
      · rcases hm with hm | ⟨hm, hp | hc | ⟨f, hf, hfo⟩⟩
        · exact .inl (.inl hm)
        · exact .inl (.inr ⟨hm, .inl hp⟩)
        · exact hc.elim
        · rcases mem_cons.mp hf with rfl | hf
          · exact .inr hfo
          · exact .inl (.inr ⟨hm, .inr (.inr ⟨f, hf, hfo⟩)⟩)
      · exact absurd hp (hst.not_pulling (by simp) j)
    | batch =>
      cases hs
      exact inv_endBatch hord (hpop _ (by simp [Frame.Owes]) (by simp)) hst' (ho.pop (by simp)) hr
    | flushed b =>
      cases hs
      have ho' := ho.pop (by simp)
      refine inv_nextRerun ?_ (fun e he => ?_) (hst'.mono fun _ => id)
        ⟨ho'.called, ho'.within, by simp, ho'.busy, ho'.active⟩ hr
      · have hheap' := hpop (.returned none) (by simp [Frame.Owes]) (by simp)
        refine { hheap'.mono (R := fun m => _ ∨ m.isEffect = true ∧
          m ∈ ord none h.pendingEffects) (fun m hm => ?_) (fun _ => id) with }
        rcases hm with hm | ⟨hm, hp | ho⟩
        · exact .inl (.inl hm)
        · exact .inr ⟨hm, (hord _ _).mem_iff.mpr hp⟩
        · exact .inl (.inr ⟨hm, .inr ho⟩)
      · exact ho.pending e ((hord _ _).mem_iff.mp he)
    | rerun b rest =>
      cases hs
      have ho' := ho.pop (by simp)
      refine inv_nextRerun ?_ hf hst' ho' hr
      have hheap' := hheap.recontrol (s := .returned none) hctl rfl rfl
      refine hheap'.mono (fun m hm => ?_) (fun i hp => ?_)
      · rcases hm with hm | ⟨hm, hp | hc | ⟨f, hf, hfo⟩⟩
        · exact .inl (.inl hm)
        · exact .inl (.inr ⟨hm, .inl hp⟩)
        · exact hc.elim
        · rcases mem_cons.mp hf with rfl | hf
          · exact .inr ⟨hm, hfo⟩
          · exact .inl (.inr ⟨hm, .inr (.inr ⟨f, hf, hfo⟩)⟩)
      · exact absurd hp (hst.not_pulling (by simp) i)
    | rearmed i => exact hf.elim
    | disposing e => exact hf.elim
    | _ => cases hs

/-- The `value` setter of a source. -/
theorem inv_setSource [DecidableEq V] (hord : ord.Lawful)
    (hi : HeapInv G (Config.Queued ⟨h, .returned none, st⟩) (Config.Pulling ⟨h, .returned none, st⟩) h)
    (hst : Settled S h st) (ho : Orderly S h st) : Inv G S (setSource ord h st i v) := by
  have hreturn : ∀ c, (none : Option (Code V)) = some c → c.Within S := by simp
  have hd : h.disposed (.source i) = false := hi.alive rfl
  simp only [setSource, hd, Bool.false_eq_true, if_false]
  split
  · next hv =>
    have hsame : h.setValue i v = h := by
      simp only [Heap.setValue, hv]
      congr 1
      exact update_eq_self i h.value
    rw [hsame]
    exact ⟨hi, ⟨hreturn, hst⟩, ho⟩
  · split
    · exact ⟨hi.setPending i v, ⟨hreturn, hst.mono fun _ => id⟩, ho.called, ho.within, ho.pending, ho.busy, ho.active⟩
    · exact inv_touch hord (hi.setValue (fun m hm => .inl hm) fun m hm => .inr hm)
        (hst.mono fun _ => id) ⟨ho.called, ho.within, ho.pending, ho.busy, ho.active⟩

/-- `lazy()` of an eager computed retires its puller, which has no dependents and no cleanup. -/
theorem HeapInv.lazyComputed_eq (hi : HeapInv G Q P h) (ord : Enum) {k : ℕ} (he : h.eager i = true)
    (hk : h.puller i = some k) :
    lazyComputed ord h st i = ⟨(h.dropPuller i).retire (.puller i k), .returned none, st⟩ := by
  have hd : (h.dropPuller i).disposed (.puller i k) = false := (hi.current he hk).2
  have hparents : ((h.dropPuller i).retire (.puller i k)).parents (.puller i k) = [] := by
    simp [Heap.retire, Heap.detachFromDependencies, Heap.dropPuller, hi.sinks (.puller i k) rfl]
  have hclear : ((h.dropPuller i).retire (.puller i k)).clearParents (.puller i k) =
      (h.dropPuller i).retire (.puller i k) := by
    simp only [Heap.clearParents, ← hparents]
    congr 1
    exact update_eq_self _ _
  have hclean : ((h.dropPuller i).retire (.puller i k)).cleanup (.puller i k) = none := hi.closures i k
  simp only [lazyComputed, he, hk, if_true, disposeEffect, hd, Bool.false_eq_true, if_false,
    hparents, hclear, finalCleanup, hclean]

/-- `lazy()` of a computed whose readers also depend on its memo. -/
theorem inv_lazyComputed
    (hi : HeapInv G (Config.Queued ⟨h, .returned none, st⟩) (Config.Pulling ⟨h, .returned none, st⟩) h)
    (hst : Settled S h st) (ho : Orderly S h st)
    (hsafe : h.eager i = true → ∀ k, h.puller i = some k → ∀ m w,
      (.computed i, w) ∈ h.reads m → Config.Queued ⟨h, .returned none, st⟩ m ∨
        m ∈ h.parents (.memo i) ∧ ¬ Config.Queued ⟨h, .returned none, st⟩ (.puller i k)) :
    Inv G S (lazyComputed ord h st i) := by
  have hreturn : ∀ c, (none : Option (Code V)) = some c → c.Within S := by simp
  by_cases he : h.eager i = true
  · obtain ⟨k, hk, _⟩ := hi.eagerly i he
    have hlazy := hi.lazy he hk (hst.not_pulling (by simp) i) (hsafe he k hk)
    rw [hi.lazyComputed_eq ord he hk]
    exact ⟨hlazy.mono (fun _ => id) fun j hp => absurd hp (hst.not_pulling (by simp) j),
      ⟨hreturn, hst.mono fun _ => id⟩, ho.called, ho.within, ho.pending, ho.busy, ho.active⟩
  · simp only [lazyComputed, he]
    exact ⟨hi, ⟨hreturn, hst⟩, ho⟩

/-- One statement of client code or of an effect body. -/
theorem inv_exec [DecidableEq V] (hS : ¬ S .dispose) (hord : ord.Lawful) {r : Option Node} {code : Code V}
    (hi : Inv G S ⟨h, .exec r code, st⟩) (hcalm : Calm (⟨h, .exec r code, st⟩ : Config V)) (hr : code ≠ .raise) :
    Inv G S (stepExec ord h st r code) := by
  obtain ⟨hheap, ⟨hread, hcode, hst⟩, ho⟩ := hi
  change HeapInv G _ _ h at hheap
  change Reader h r at hread
  change Settled S h st at hst
  change Orderly S h st at ho
  have hctl : ∀ e, (.exec r code : Ctl V) ≠ .call e := by simp
  have hheap' : ∀ t, HeapInv G (Config.Queued ⟨h, t, st⟩) (Config.Pulling ⟨h, t, st⟩) h :=
    fun t => hheap.recontrol hctl rfl rfl
  cases code with
  | done => exact ⟨hheap' _, ⟨by simp, hst⟩, ho⟩
  | doneWith c => exact ⟨hheap' _, ⟨by rintro c' ⟨⟩; exact hcode, hst⟩, ho⟩
  | raise => exact absurd rfl hr
  | read d k =>
    cases r with
    | none => exact ⟨(hheap' _).push _, ⟨rfl, by simp, hread, hcode.2, hst⟩, ho.push _⟩
    | some e =>
      have hx := Extends.subscribe h e d e
      refine ⟨hheap.subscribed hctl d e _ _, ⟨rfl, ?_, hx.reader hread, hcode.2, hx.settled hst⟩,
        (ho.subscribe d e).push _⟩
      rintro e' ⟨⟩
      exact linked_subscribe h d e
  | write i v k =>
    exact inv_setSource hord ((hheap' _).push _) (Settled.cons ⟨hread, hcode.2⟩ hst) (ho.push _)
  | batch b k =>
    have hheap₁ := ((hheap' (.exec r b)).push (.andThen r k)).push .batch
    refine ⟨{ hheap₁ with }, ⟨hread, hcode.2.1, ?_⟩, ?_⟩
    · exact Settled.cons trivial (Settled.cons ⟨hread, hcode.2.2⟩ (hst.mono fun _ => id))
    · have ho' := (ho.push (.andThen r k)).push .batch
      exact ⟨ho'.called, ho'.within, ho'.pending, ho'.busy, ho'.active⟩
  | call e k =>
    refine ⟨((hheap' (.call (.effect e))).push _), ⟨⟨rfl, by simp⟩, fun _ _ => hcode.1, ?_⟩, ho.push _⟩
    exact Settled.cons ⟨hread, hcode.2⟩ hst
  | eager i k =>
    simp only [stepExec]
    by_cases he : h.eager i = true
    · simp only [he, if_true]
      exact ⟨hheap' _, ⟨hread, hcode.2, hst⟩, ho⟩
    · simp only [he]
      have hlazy : h.eager i = false := by simpa using he
      have hmint := (hheap.mintPuller (i := i) hlazy
        (U := fun j => Config.Pulling ⟨h, .exec r (.eager i k), st⟩ j ∨ j = i)
        (fun j hj => .inl hj) (.inr rfl)).mono
        (R := Config.Queued ⟨h.mintPuller i, .call (.puller i (h.minted i)), .andThen r k :: st⟩)
        (U := Config.Pulling ⟨h.mintPuller i, .call (.puller i (h.minted i)), .andThen r k :: st⟩)
        (fun m hm => hm.of_le (fun _ => id) (fun _ => id) (fun ho => ho.elim) fun _ => mem_cons_of_mem _)
        (by
          rintro j (hj | rfl)
          · exact absurd hj (hst.not_pulling hctl j)
          · exact .inl ⟨_, rfl, by simp [Heap.mintPuller]⟩)
      refine ⟨hmint, ⟨⟨rfl, ?_⟩, by simp, ?_⟩, ?_⟩
      · intro j k' heq
        cases heq
        simp [Heap.mintPuller]
      · exact Settled.cons ⟨hread, hcode.2⟩ (hst.mono fun _ => id)
      · exact ⟨ho.called, ho.within, ho.pending, ho.busy, fun ha => mem_cons_of_mem _ (ho.active ha)⟩
  | lazy i k =>
    have hqueue : ∀ m, Config.Queued ⟨h, .exec r (.lazy i k), st⟩ m ↔
        Config.Queued ⟨h, .returned none, .andThen r k :: st⟩ m := by
      intro m
      simp [Config.Queued, Ctl.Owes, Frame.Owes]
    refine inv_lazyComputed ((hheap' _).push _) (Settled.cons ⟨hread, hcode.2⟩ hst) (ho.push _) ?_
    intro he k' hk m w hr
    rw [← hqueue m, ← hqueue (.puller i k')]
    exact hcalm.lazySafe r i k k' rfl he hk m w hr
  | dispose d k => exact absurd hcode.1 hS
  | disposeEffect e k => exact absurd hcode.1 hS
  | attempt b k =>
    exact ⟨(hheap' _).push _, ⟨hread, hcode.2.1, Settled.cons ⟨hread, hcode.2.2⟩ hst⟩, ho.push _⟩

/-- A step keeps the invariant until an exception propagates. -/
theorem inv_step [DecidableEq V] (hS : ¬ S .dispose) (hG : S .call → ∀ i r, (G.effectBody i r).Within S)
    (hord : ord.Lawful) (hi : Inv G S c) (hcalm : Calm c) (hs : step G ord c = some c') (hr : c'.ctl ≠ .raised) :
    Inv G S c' := by
  obtain ⟨h, t, st⟩ := c
  cases t with
  | exec r code =>
    cases hs
    refine inv_exec hS hord hi hcalm ?_
    rintro rfl
    exact hr rfl
  | get d =>
    cases hs
    exact inv_get hi (hcalm.wellFounded d rfl)
  | eval n t =>
    cases hs
    refine inv_eval hi ?_
    rintro rfl
    exact hr rfl
  | value v => exact inv_value hord hi hs
  | call e =>
    cases hs
    exact inv_call hG hi
  | loop => exact inv_loop hord hi hcalm hs
  | dirty ns => exact hi.fits.elim
  | returned cl => exact inv_returned hG hord hi hs hr
  | raised => exact hi.fits.elim

/-- The client's next call starts with the invariant. -/
theorem inv_issue {code : Code V} (hi : Inv G S c) (hidle : c.Idle) (hcode : code.Within S) :
    Inv G S (c.issue code) := by
  obtain ⟨h, t, st⟩ := c
  obtain ⟨rfl, hraised | ⟨cl, hcl⟩⟩ := hidle
  · cases hraised
    exact hi.fits.elim
  · cases hcl
    exact ⟨hi.heap.recontrol (by simp) rfl rfl, ⟨by rintro e ⟨⟩, hcode, by rintro f ⟨⟩⟩, hi.orderly⟩

theorem inv_init (σ : ℕ → V) : Inv G S (Config.init σ) where
  heap := HeapInv.init σ
  fits := ⟨by simp, by rintro f ⟨⟩⟩
  orderly := ⟨by simp [Config.init, Heap.init], by simp [Config.init, Heap.init],
    by simp [Config.init, Heap.init], by simp [Config.init, Heap.init],
    by simp [Config.init, Heap.init]⟩

/-- The invariant holds wherever a run of calm steps leads without raising. -/
theorem inv_run [DecidableEq V] (hS : ¬ S .dispose) (hG : S .call → ∀ i r, (G.effectBody i r).Within S)
    {ok : Config V → Prop} (hok : ∀ c, ok c → Calm c) (hi : Inv G S c) (hrun : Run G S ok c c')
    (hr : c'.ctl ≠ .raised) : Inv G S c' := by
  induction hrun with
  | refl => exact hi
  | tail _ hstep ih =>
    have hinv := ih (hok _ hstep.1).quiet
    cases hstep.2 with
    | tick ord hord hs => exact inv_step hS hG hord hinv (hok _ hstep.1) hs hr
    | issue code hidle hcode => exact inv_issue hinv hidle hcode

end Steps

end LazilyPy.Reactive

import LazilyPy.Reactive.Plain
import LazilyPy.Reactive.Symmetry

/-!
# What cached values rely on

In a graph without a `Computed` a callable is a fixed tree of reads, and nothing that it reads changes while it
is in a call. So a callable that reads itself never returns: it comes to the same read again. A slot that holds a
value is in no call then, it is among the dependents of everything that it has recorded, and every slot that it
has recorded holds a value as well, unless a wave or a disposal walk is to visit it.
-/

namespace LazilyPy.Reactive

open List Function

variable {V : Type}

/-! ## Calls in progress -/

def Heap.answer (h : Heap V) : Ref → Option V
  | .source i => if h.disposed (.source i) then none else some (h.value i)
  | .slot i => h.cache (.slot i)
  | .computed _ => none

/-- A compute function comes to `t` on the answers of the heap. -/
inductive Replays (h : Heap V) : Comp V → Comp V → Prop
  | refl (t : Comp V) : Replays h t t
  | read {d : Ref} {k : V → Comp V} {v : V} {t : Comp V} (hd : h.answer d = some v)
    (ht : Replays h (k v) t) : Replays h (.read d k) t

namespace Replays

variable {h h' : Heap V} {s t t' : Comp V}

theorem mono (hr : Replays h s t) (hans : ∀ d v, h.answer d = some v → h'.answer d = some v) : Replays h' s t := by
  induction hr with
  | refl t => exact .refl t
  | read hd _ ih => exact .read (hans _ _ hd) ih

theorem snoc {d : Ref} {k : V → Comp V} {v : V} (hr : Replays h s (.read d k))
    (hd : h.answer d = some v) : Replays h s (k v) := by
  generalize hread : Comp.read d k = t at hr
  induction hr with
  | refl _ =>
    subst hread
    exact .read hd (.refl _)
  | read hd' _ ih => exact .read hd' (ih hread)

theorem total (hr : Replays h s t) (hr' : Replays h s t') : Replays h t t' ∨ Replays h t' t := by
  induction hr with
  | refl _ => exact .inl hr'
  | read hd ht ih =>
    cases hr' with
    | refl _ => exact .inr (.read hd ht)
    | read hd' ht' =>
      rw [hd] at hd'
      cases hd'
      exact ih ht'

/-- A callable that returns has an answer to every read that it comes to. -/
theorem answered {d : Ref} {k : V → Comp V} {v : V} (hr : Replays h s (.read d k))
    (hret : Replays h s (.ret v)) : h.answer d ≠ none := by
  obtain hfrom | hfrom := hr.total hret
  · cases hfrom with
    | read hd _ => simp [hd]
  · cases hfrom

end Replays

/-- The calls in progress: no slot in a call holds a value, each callable has come to where it is on the answers
that the heap still gives, and a value on its way is such an answer. -/
structure Computing (G : Graph V) (c : Config V) : Prop where
  hollow : ∀ i, c.InCall (.slot i) → c.heap.cache (.slot i) = none
  eval : ∀ n t, c.ctl = .eval n t → Replays c.heap (G.callable n) t
  frames : ∀ n d k, .inSlot n d k ∈ c.stack → Replays c.heap (G.callable n) (.read d k)
  answered : ∀ v d, c.ctl = .value v → Asks c.stack d → c.heap.answer d = some v

section Stacks

variable {st : List (Frame V)}

theorem Owner.ne_slot {r : Option Node} (hr : Owner r) (i : ℕ) : r ≠ some (.slot i) := by
  intro heq
  obtain ⟨e, he⟩ := hr _ heq
  cases he

theorem Frame.Flat.not_runs {f : Frame V} (hf : f.Flat) (i : ℕ) : ¬ f.Runs (.slot i) := by
  intro hrun
  cases f with
  | andThen r c | attempt r c => exact hf.1.ne_slot i hrun
  | effect e | cleanup e =>
    obtain ⟨rfl, he⟩ := hrun
    cases he
  | inSlot _ _ _ | inCode _ _ _ | pull _ _ => cases hf
  | _ => cases hrun

theorem Flat.not_runs (hst : Flat st) (i : ℕ) : ¬ ∃ f ∈ st, f.Runs (.slot i) := by
  rintro ⟨f, hf, hrun⟩
  exact (hst f hf).not_runs i hrun

theorem Flat.not_inSlot (hst : Flat st) {n : Node} {d : Ref} {k : V → Comp V} : .inSlot n d k ∉ st :=
  fun hmem => hst _ hmem

theorem Asks.unique {d d' : Ref} (hd : Asks st d) (hd' : Asks st d') : d = d' := by
  cases st with
  | nil => cases hd
  | cons f st =>
    cases f with
    | inSlot n d₀ k | inCode n d₀ k => exact hd.1.symm.trans hd'.1
    | _ => cases hd

/-- What a slot in a call waits for is what the stack waits for, or a slot in a call. -/
theorem Asks.inSlot {d : Ref} (hst : Asks st d) {n : Node} {d' : Ref} {k : V → Comp V}
    (hmem : .inSlot n d' k ∈ st) : d' = d ∨ ∃ j, d' = .slot j ∧ ∃ f ∈ st, f.Runs (.slot j) := by
  induction st generalizing d with
  | nil => cases hst
  | cons f st ih =>
    cases f with
    | inSlot m d₀ k₀ =>
      obtain ⟨rfl, -, i, rfl, hrest⟩ := hst
      obtain heq | hmem := mem_cons.mp hmem
      · cases heq
        exact .inl rfl
      · refine .inr ?_
        obtain rfl | ⟨j, rfl, f, hf, hrun⟩ := ih hrest hmem
        · exact ⟨i, rfl, _, mem_cons_self, rfl⟩
        · exact ⟨j, rfl, f, mem_cons_of_mem _ hf, hrun⟩
    | inCode r d₀ k₀ =>
      obtain heq | hmem := mem_cons.mp hmem
      · cases heq
      · exact absurd hmem (Flat.not_inSlot hst.2.2.2)
    | _ => cases hst

/-- A slot in a call waits for something. -/
theorem Asks.exists_inSlot {d : Ref} (hst : Asks st d) {i : ℕ} (hrun : ∃ f ∈ st, f.Runs (.slot i)) :
    ∃ d' k, .inSlot (.slot i) d' k ∈ st := by
  induction st generalizing d with
  | nil => cases hst
  | cons f st ih =>
    obtain ⟨f', hf', hrun⟩ := hrun
    cases f with
    | inSlot m d₀ k₀ =>
      obtain ⟨rfl, -, j, rfl, hrest⟩ := hst
      obtain rfl | hf' := mem_cons.mp hf'
      · cases hrun
        exact ⟨_, _, mem_cons_self⟩
      · obtain ⟨d', k, hmem⟩ := ih hrest ⟨f', hf', hrun⟩
        exact ⟨d', k, mem_cons_of_mem _ hmem⟩
    | inCode r d₀ k₀ =>
      obtain rfl | hf' := mem_cons.mp hf'
      · exact absurd hrun (hst.2.2.1.ne_slot i)
      · exact absurd ⟨f', hf', hrun⟩ (hst.2.2.2.not_runs i)
    | _ => cases hst

end Stacks

/-- With no read in progress, no slot is in a call. -/
theorem FlatConfig.not_inCall {c : Config V} (hc : FlatConfig c) (i : ℕ) : ¬ c.InCall (.slot i) := by
  obtain ⟨h, t, st⟩ := c
  obtain ⟨-, hctl⟩ := hc
  rintro (hrun | hrun)
  · cases t with
    | exec r code => exact hctl.1.1.ne_slot i hrun
    | eval n t => cases hctl
    | _ => cases hrun
  · cases t with
    | exec _ _ | call _ | dirty _ | returned _ => exact hctl.2.not_runs i hrun
    | loop | raised => exact Flat.not_runs hctl i hrun
    | get _ | eval _ _ | value _ => cases hctl

theorem FlatConfig.flat {c : Config V} (hc : FlatConfig c) : Flat c.stack := by
  obtain ⟨h, t, st⟩ := c
  obtain ⟨-, hctl⟩ := hc
  cases t with
  | exec _ _ | call _ | dirty _ | returned _ => exact hctl.2
  | loop | raised => exact hctl
  | get _ | eval _ _ | value _ => cases hctl

theorem FlatConfig.computing {c : Config V} (hc : FlatConfig c) (G : Graph V) : Computing G c where
  hollow i hcall := absurd hcall (hc.not_inCall i)
  eval n t heq := by
    have hctl := hc.ctl
    rw [heq] at hctl
    cases hctl
  frames n d k hmem := absurd hmem hc.flat.not_inSlot
  answered v d heq := by
    have hctl := hc.ctl
    rw [heq] at hctl
    cases hctl

theorem Heap.answer_subscribe (h : Heap V) (d : Ref) (r : Node) : (h.subscribe d r).answer = h.answer := by
  funext d'
  rw [Heap.subscribe_eq]
  cases d' <;> rfl

section Reading

variable {G : Graph V} {h : Heap V} {st : List (Frame V)}

/-- Pushing the frame of client code or of an effect. -/
theorem computing_exec {r : Option Node} (hr : Owner r) (hst : Flat st) {d : Ref} {k : V → Code V} :
    Computing G ⟨h, .get d, .inCode r d k :: st⟩ where
  hollow i := by
    rintro (hrun | ⟨f, hf, hrun⟩)
    · cases hrun
    · obtain rfl | hf := mem_cons.mp hf
      · exact absurd hrun (hr.ne_slot i)
      · exact absurd ⟨f, hf, hrun⟩ (hst.not_runs i)
  eval := nofun
  frames n d' k' hmem := by
    obtain heq | hmem := mem_cons.mp hmem
    · cases heq
    · exact absurd hmem hst.not_inSlot
  answered := nofun

theorem computing_get {d : Ref} (hd : d.Plain) (hst : Asks st d) (hc : Computing G ⟨h, .get d, st⟩) :
    Computing G (getRef G h st d) := by
  have hstack : ∀ {i}, (∃ f ∈ st, f.Runs (.slot i)) → h.cache (.slot i) = none :=
    fun hrun => hc.hollow _ (.inr hrun)
  have hraised : Computing G ⟨h, .raised, st⟩ :=
    ⟨fun i hcall => hstack (hcall.resolve_left (by rintro ⟨⟩)), (by simp), hc.frames, (by simp)⟩
  have hvalue : ∀ v, h.answer d = some v → Computing G ⟨h, .value v, st⟩ := by
    refine fun v hv => ⟨fun i hcall => hstack (hcall.resolve_left (by rintro ⟨⟩)), (by simp), hc.frames, ?_⟩
    rintro v d' ⟨⟩ hst'
    rw [hst'.unique hst, hv]
  cases d with
  | source i =>
    simp only [getRef]
    split
    · exact hraised
    · next hlive => exact hvalue _ (by simp [Heap.answer, hlive])
  | slot i =>
    simp only [getRef, callSlot]
    split
    · exact hraised
    · split
      · next v hv => exact hvalue v hv
      · next hnone =>
        have hans : (h.startCompute (.slot i)).answer = h.answer := by
          funext d
          cases d <;> rfl
        refine ⟨fun j hcall => ?_, ?_, fun n d k hmem => ?_, (by simp)⟩
        · obtain heq | hrun := hcall
          · cases heq
            exact hnone
          · exact hstack hrun
        · rintro n t ⟨⟩
          exact .refl _
        · exact (hc.frames n d k hmem).mono fun d v hv => by rw [hans, hv]
  | computed i => cases hd

theorem computing_eval {i : ℕ} {t : Comp V} (hst : Asks st (.slot i))
    (hc : Computing G ⟨h, .eval (.slot i) t, st⟩) : Computing G (stepEval h st (.slot i) t) := by
  have hhere : Replays h (G.callable (.slot i)) t := hc.eval _ _ rfl
  have hnone : h.cache (.slot i) = none := hc.hollow i (.inl rfl)
  cases t with
  | ret v =>
    have hans : ∀ d w, h.answer d = some w → (h.setCache (.slot i) v).answer d = some w := by
      intro d w hw
      cases d with
      | source j => exact hw
      | slot j =>
        have hne : Node.slot j ≠ .slot i := by
          intro heq
          rw [Heap.answer, heq, hnone] at hw
          cases hw
        exact (update_of_ne hne _ _).trans hw
      | computed j => cases hw
    refine ⟨fun j hcall => ?_, nofun, fun n d k hmem => (hc.frames n d k hmem).mono hans, ?_⟩
    · have hrun := hcall.resolve_left nofun
      by_cases hj : j = i
      · -- the call below waits for a slot in a call, and has an answer to what it waits for
        subst hj
        obtain ⟨d, k, hmem⟩ := hst.exists_inSlot hrun
        have hanswered := (hc.frames _ d k hmem).answered hhere
        obtain rfl | ⟨j', rfl, hrun'⟩ := hst.inSlot hmem
        · exact absurd hnone hanswered
        · exact absurd (hc.hollow j' (.inr hrun')) hanswered
      · have hne : Node.slot j ≠ .slot i := fun heq => hj (Node.slot.inj heq)
        exact (update_of_ne hne _ _).trans (hc.hollow j (.inr hrun))
    · rintro w d ⟨⟩ hst'
      rw [hst'.unique hst]
      exact update_self _ _ _
  | raise => exact ⟨fun j hcall => hc.hollow j (.inr (hcall.resolve_left nofun)), nofun, hc.frames, nofun⟩
  | read d k =>
    have hcache : (h.subscribe d (.slot i)).cache = h.cache := by rw [Heap.subscribe_eq]
    refine ⟨fun j hcall => ?_, nofun, fun n d' k' hmem => ?_, nofun⟩
    · show (h.subscribe d (.slot i)).cache (.slot j) = none
      rw [hcache]
      obtain ⟨f, hf, hrun⟩ := hcall.resolve_left nofun
      obtain rfl | hf := mem_cons.mp hf
      · exact hc.hollow j (.inl hrun)
      · exact hc.hollow j (.inr ⟨f, hf, hrun⟩)
    · have hreplays : Replays h (G.callable n) (.read d' k') := by
        obtain heq | hmem := mem_cons.mp hmem
        · cases heq
          exact hhere
        · exact hc.frames n d' k' hmem
      exact hreplays.mono fun d₀ v hv => (congrFun (Heap.answer_subscribe h d _) d₀).trans hv

/-- The slot below goes on with the value that it has asked for. -/
theorem computing_value {n : Node} {d : Ref} {k : V → Comp V} {v : V}
    (hst : Asks (.inSlot n d k :: st) d) (hc : Computing G ⟨h, .value v, .inSlot n d k :: st⟩) :
    Computing G ⟨h.record n d.node v, .eval n (k v), st⟩ := by
  have hans : (h.record n d.node v).answer = h.answer := by
    funext d₀
    cases d₀ <;> rfl
  have hsame : ∀ d₀ w, h.answer d₀ = some w → (h.record n d.node v).answer d₀ = some w :=
    fun d₀ w hw => (congrFun hans d₀).trans hw
  refine ⟨fun j hcall => ?_, ?_, fun n' d' k' hmem => ?_, nofun⟩
  · obtain heq | ⟨f, hf, hrun⟩ := hcall
    · exact hc.hollow j (.inr ⟨_, mem_cons_self, heq⟩)
    · exact hc.hollow j (.inr ⟨f, mem_cons_of_mem _ hf, hrun⟩)
  · rintro n' t ⟨⟩
    have hreplays := hc.frames n d k mem_cons_self
    exact (hreplays.snoc (hc.answered v d rfl hst)).mono hsame
  · exact (hc.frames n' d' k' (mem_cons_of_mem _ hmem)).mono hsame

end Reading

variable [DecidableEq V] {G : Graph V} {ord : Enum}

theorem computing_step (hG : G.Plain) (hord : ord.Lawful) {c c' : Config V} (hp : PlainConfig c)
    (hc : Computing G c) (hs : step G ord c = some c') : Computing G c' := by
  obtain hp | hp := hp
  · by_cases hread : ∃ r d k, c.ctl = .exec r (.read d k)
    · obtain ⟨h, t, st⟩ := c
      obtain ⟨r, d, k, rfl⟩ := hread
      cases hs
      exact computing_exec hp.ctl.1.1 hp.ctl.2
    · exact (flat_step hG hord hp (fun r d k heq => hread ⟨r, d, k, heq⟩) hs).computing G
  · obtain ⟨h, t, st⟩ := c
    have hctl := hp.ctl
    cases t with
    | get d =>
      cases hs
      exact computing_get hctl.1 hctl.2 hc
    | eval n t =>
      cases hs
      obtain ⟨-, i, rfl, hst⟩ := hctl
      exact computing_eval hst hc
    | value v =>
      obtain ⟨d, hst⟩ := hctl
      cases st with
      | nil => cases hst
      | cons f st =>
        cases f with
        | inSlot n d' k =>
          cases hs
          obtain rfl := hst.1
          exact computing_value hst hc
        | inCode r d' k =>
          have hflat : FlatConfig c' := by
            refine (asking_step hG hp hs).resolve_right fun hask => ?_
            cases hs
            cases hask.ctl
          exact hflat.computing G
        | _ => cases hst
    | raised =>
      obtain ⟨d, hst⟩ := hctl
      cases st with
      | nil => cases hst
      | cons f st =>
        cases f with
        | inSlot n d' k =>
          cases hs
          refine ⟨fun i hcall => ?_, nofun, fun n d k hmem => hc.frames n d k (mem_cons_of_mem _ hmem), nofun⟩
          obtain ⟨f, hf, hrun⟩ := hcall.resolve_left nofun
          exact hc.hollow i (.inr ⟨f, mem_cons_of_mem _ hf, hrun⟩)
        | inCode r d' k =>
          have hflat : FlatConfig ⟨h, .raised, st⟩ := ⟨hp.heap, hst.2.2.2⟩
          cases hs
          exact hflat.computing G
        | _ => cases hst
    | exec _ _ | call _ | loop | dirty _ | returned _ => cases hctl

/-! ## Answers -/

structure Keeping (h : Heap V) (c' : Config V) : Prop where
  cache : c'.heap.cache = h.cache
  disposed : ∀ i, c'.heap.disposed (.source i) = h.disposed (.source i)

/-- Whoever depends on an answer that the heap gives no longer is to be visited. -/
def Drops (h : Heap V) (c' : Config V) : Prop :=
  ∀ d, h.answer d ≠ none → c'.heap.answer d = none → ∀ m ∈ h.parents d.node, m ≠ d.node → c'.Waiting m

namespace Keeping

variable {h h₁ : Heap V} {c' : Config V}

omit [DecidableEq V] in
theorem of_same (hk : Keeping h₁ c') (hcache : h₁.cache = h.cache)
    (hdisposed : ∀ i, h₁.disposed (.source i) = h.disposed (.source i)) : Keeping h c' :=
  ⟨hk.cache.trans hcache, fun i => (hk.disposed i).trans (hdisposed i)⟩

omit [DecidableEq V] in
theorem drops (hk : Keeping h c') : Drops h c' := by
  intro d hd hnone
  exfalso
  cases d with
  | source i =>
    simp only [Heap.answer, hk.disposed] at hnone
    split at hnone
    · next hdisposed => exact hd (if_pos hdisposed)
    · cases hnone
  | slot i =>
    have heq : c'.heap.cache (.slot i) = h.cache (.slot i) := congrFun hk.cache _
    exact hd (heq.symm.trans hnone)
  | computed i => exact hd rfl

end Keeping

section Answers

variable {h : Heap V} {st : List (Frame V)}

omit [DecidableEq V] in
theorem keeping_touch (n : Node) : Keeping h (touch ord h st n) := by
  unfold touch drainResets
  split
  · exact ⟨rfl, fun _ => rfl⟩
  · split <;> exact ⟨rfl, fun _ => rfl⟩

theorem keeping_setSource (i : ℕ) (v : V) : Keeping h (setSource ord h st i v) := by
  unfold setSource
  split
  · exact ⟨rfl, fun _ => rfl⟩
  · split
    · exact ⟨rfl, fun _ => rfl⟩
    · split
      · exact ⟨rfl, fun _ => rfl⟩
      · have htouch : Keeping (h.setValue i v) (touch ord (h.setValue i v) st (.source i)) := keeping_touch _
        exact htouch.of_same rfl fun _ => rfl

omit [DecidableEq V] in
theorem keeping_callEffect {e : Node} (he : e.Watches) : Keeping h (callEffect G h st e) := by
  obtain ⟨i, rfl⟩ := he
  unfold callEffect
  split
  · exact ⟨rfl, fun _ => rfl⟩
  · split <;> exact ⟨rfl, fun _ => rfl⟩

omit [DecidableEq V] in
theorem keeping_finalCleanup (e : Node) : Keeping h (finalCleanup h st e) := by
  unfold finalCleanup
  split <;> exact ⟨rfl, fun _ => rfl⟩

omit [DecidableEq V] in
theorem keeping_disposeEffect (e : ℕ) : Keeping h (disposeEffect ord h st (.effect e)) := by
  have hretired : ∀ i, ((h.retire (.effect e)).clearParents (.effect e)).disposed (.source i) =
      h.disposed (.source i) := fun i => by simp [Heap.clearParents, Heap.retire, Heap.detachFromDependencies]
  simp only [disposeEffect]
  split
  · exact ⟨rfl, fun _ => rfl⟩
  · split
    · exact (keeping_finalCleanup _).of_same rfl hretired
    · split
      · exact ⟨rfl, hretired⟩
      · exact (keeping_finalCleanup _).of_same rfl hretired

omit [DecidableEq V] in
theorem keeping_endBatch (b : Bool) : Keeping h (endBatch ord h st b) := by
  unfold endBatch
  split
  · have htouch := Heap.touchAll_eq ord (ord none h.pendingCells) { h with pendingCells := [] }
    have hcache := congrArg Heap.cache htouch
    have hdisposed := congrArg Heap.disposed htouch
    exact ⟨hcache, fun i => congrFun hdisposed _⟩
  · exact ⟨rfl, fun _ => rfl⟩

omit [DecidableEq V] in
theorem keeping_nextRerun (b : Bool) (es : List Node) : Keeping h (nextRerun h st b es) := by
  cases es with
  | nil => exact ⟨rfl, fun _ => rfl⟩
  | cons e rest =>
    simp only [nextRerun]
    split
    · exact ⟨rfl, fun _ => rfl⟩
    · split <;> exact ⟨rfl, fun _ => rfl⟩

omit [DecidableEq V] in
/-- A slot drops its value, and what depends on it is to be visited. -/
theorem drops_of_update {c' : Config V} {n : Node} (hcache : c'.heap.cache = update h.cache n none)
    (hdisposed : ∀ i, c'.heap.disposed (.source i) = h.disposed (.source i))
    (hparents : ∀ m ∈ h.parents n, m ≠ n → c'.Waiting m) : Drops h c' := by
  intro d hd hnone
  cases d with
  | source i =>
    simp only [Heap.answer, hdisposed] at hnone
    split at hnone
    · next hdead => exact absurd (if_pos hdead) hd
    · cases hnone
  | slot i =>
    by_cases hn : Node.slot i = n
    · subst hn
      exact hparents
    · have heq : c'.heap.cache (.slot i) = h.cache (.slot i) := by
        rw [hcache, update_of_ne hn]
      exact absurd (heq.symm.trans hnone) hd
  | computed i => exact absurd rfl hd

omit [DecidableEq V] in
theorem drops_dispose (hord : ord.Lawful) {d : Ref} (hd : d.Plain) : Drops h (dispose ord h st d) := by
  cases d with
  | source i =>
    simp only [dispose]
    split
    · exact Keeping.drops ⟨rfl, fun _ => rfl⟩
    · intro d hans hnone m hm _
      have heq : d = .source i := by
        by_contra hne
        cases d with
        | source j =>
          have hji : Node.source j ≠ .source i := fun heq => hne (by rw [Node.source.inj heq])
          simp only [Heap.answer, Heap.clearParents, update_of_ne hji] at hnone
          exact hans hnone
        | slot j => exact hans hnone
        | computed j => exact hans rfl
      subst heq
      exact .inr ⟨_, rfl, (hord _ _).mem_iff.mpr hm⟩
  | slot i =>
    simp only [dispose]
    split
    · exact Keeping.drops ⟨rfl, fun _ => rfl⟩
    · refine drops_of_update rfl (fun j => ?_) fun m hm hne => .inr ⟨_, rfl, (hord _ _).mem_iff.mpr ?_⟩
      · simp [Heap.clearParents, Heap.retire, Heap.detachFromDependencies, Heap.dropCache]
      have hkept : m ∈ if Node.slot i ∈ h.deps (.slot i) then (h.parents (.slot i)).filter (· ≠ .slot i)
          else h.parents (.slot i) := by
        by_cases hself : Node.slot i ∈ h.deps (.slot i)
        · simp [hself, hm, hne]
        · simpa [hself] using hm
      exact hkept
  | computed i => cases hd

theorem drops_exec (hord : ord.Lawful) {r : Option Node} {code : Code V} (hcode : code.Plain) :
    Drops h (stepExec ord h st r code) := by
  cases code with
  | read d k =>
    refine Keeping.drops ?_
    cases r with
    | none => exact ⟨rfl, fun _ => rfl⟩
    | some e =>
      have heq := Heap.subscribe_eq d e h
      have hcache := congrArg Heap.cache heq
      have hdisposed := congrArg Heap.disposed heq
      exact ⟨hcache, fun i => congrFun hdisposed _⟩
  | write i v k => exact (keeping_setSource i v).drops
  | dispose d k => exact drops_dispose hord hcode.1
  | disposeEffect e k => exact (keeping_disposeEffect e).drops
  | eager _ _ | lazy _ _ => cases hcode
  | _ => exact Keeping.drops ⟨rfl, fun _ => rfl⟩

omit [DecidableEq V] in
theorem drops_loop (hord : ord.Lawful) {c' : Config V} (hh : PlainHeap h)
    (hs : stepLoop ord h st = some c') : Drops h c' := by
  cases st with
  | nil => cases hs
  | cons f st =>
    cases f with
    | drain =>
      simp only [stepLoop] at hs
      split at hs
      · cases hs
        exact Keeping.drops ⟨rfl, fun _ => rfl⟩
      · next n rest hwork =>
        cases hs
        cases n with
        | slot i =>
          simp only [invalidate]
          split
          · exact Keeping.drops ⟨rfl, fun _ => rfl⟩
          · refine drops_of_update rfl (fun _ => rfl) fun m hm _ => .inl (mem_append_left _ ?_)
            exact (hord _ _).mem_iff.mpr hm
        | effect e =>
          simp only [invalidate]
          split
          · exact Keeping.drops ⟨rfl, fun _ => rfl⟩
          · split
            · exact Keeping.drops ⟨rfl, fun _ => rfl⟩
            · split <;> exact Keeping.drops ⟨rfl, fun _ => rfl⟩
        | _ =>
          have hplain := hh.work _ (hwork ▸ mem_cons_self)
          cases hplain
    | _ => cases hs

omit [DecidableEq V] in
theorem drops_dirty (hord : ord.Lawful) {ns : List Node} (hns : ∀ n ∈ ns, n.isPlain = true) :
    Drops h (stepDirty ord h st ns) := by
  cases ns with
  | nil => exact Keeping.drops ⟨rfl, fun _ => rfl⟩
  | cons n rest =>
    simp only [stepDirty]
    split
    · exact Keeping.drops ⟨rfl, fun _ => rfl⟩
    · cases n with
      | slot i =>
        refine drops_of_update rfl (fun _ => rfl) fun m hm _ => .inr ⟨_, rfl, mem_append_left _ ?_⟩
        exact (hord _ _).mem_iff.mpr hm
      | effect e => exact Keeping.drops ⟨rfl, fun _ => rfl⟩
      | _ => cases hns _ mem_cons_self

omit [DecidableEq V] in
theorem keeping_returned {cl : Option (Code V)} (hst : Flat st) {c' : Config V}
    (hs : stepReturned G ord h cl st = some c') : Keeping h c' := by
  cases st with
  | nil => cases hs
  | cons f st =>
    obtain ⟨hf, -⟩ := flat_cons.mp hst
    cases f with
    | cleanup e =>
      cases hs
      obtain ⟨i, rfl⟩ := hf
      exact ⟨rfl, fun _ => rfl⟩
    | disposing e =>
      cases hs
      exact keeping_finalCleanup e
    | batch =>
      cases hs
      exact keeping_endBatch false
    | flushed b =>
      cases hs
      exact (keeping_nextRerun b _).of_same rfl fun _ => rfl
    | rerun b rest =>
      cases hs
      exact keeping_nextRerun b rest
    | inSlot _ _ _ | inCode _ _ _ | pull _ _ | rearmed _ | rearmSlot _ => cases hf
    | _ =>
      cases hs
      exact ⟨rfl, fun _ => rfl⟩

omit [DecidableEq V] in
theorem keeping_raised {c' : Config V} (hs : stepRaised ord h st = some c') : Keeping h c' := by
  cases st with
  | nil => cases hs
  | cons f st =>
    cases f with
    | batch =>
      cases hs
      exact keeping_endBatch true
    | _ =>
      cases hs
      exact ⟨rfl, fun _ => rfl⟩

end Answers

/-- With no read in progress, an answer is lost only together with what relies on it. -/
theorem drops_step (hord : ord.Lawful) {c c' : Config V} (hc : FlatConfig c)
    (hs : step G ord c = some c') : Drops c.heap c' := by
  obtain ⟨h, t, st⟩ := c
  obtain ⟨hh, hctl⟩ := hc
  cases t with
  | exec r code =>
    cases hs
    exact drops_exec hord hctl.1.2
  | call e =>
    cases hs
    exact (keeping_callEffect hctl.1).drops
  | loop => exact drops_loop hord hh hs
  | dirty ns =>
    cases hs
    exact drops_dirty hord hctl.1
  | returned cl => exact (keeping_returned hctl.2 hs).drops
  | raised => exact (keeping_raised hs).drops
  | get _ | eval _ _ | value _ => cases hctl

/-! ## The invariant -/

def Config.Live (c : Config V) (i : ℕ) : Prop :=
  c.heap.cache (.slot i) ≠ none ∨ c.InCall (.slot i) ∧ c.ctl ≠ .raised

/-- A read of `d` has an answer, unless slot `i` waits for a visit or for this answer. -/
def Config.Grounded (c : Config V) (i : ℕ) (d : Ref) : Prop :=
  c.Waiting (.slot i) ∨ c.heap.answer d ≠ none ∨ ∃ k, .inSlot (.slot i) d k ∈ c.stack

def Config.Based (c : Config V) : Prop :=
  ∀ i d, d.node ∈ c.heap.deps (.slot i) → c.Live i → c.Grounded i d

structure Reliant (G : Graph V) (c : Config V) : Prop where
  plain : PlainConfig c
  computing : Computing G c
  unread : Unread c.heap
  retired : ∀ i, c.Retired (.slot i)
  attached : ∀ i, c.Attached (.slot i)
  based : c.Based

section Asked

variable {h : Heap V} {st : List (Frame V)} {t : Ctl V}

omit [DecidableEq V] in
/-- On the same edges and values, with less in a call. -/
theorem Config.Based.mono {c c' : Config V} (hb : c.Based)
    (hlive : ∀ i d, d.node ∈ c'.heap.deps (.slot i) → c'.Live i →
      c'.Grounded i d ∨ d.node ∈ c.heap.deps (.slot i) ∧ c.Live i)
    (hground : ∀ i d, c'.Live i → c.Grounded i d → c'.Grounded i d) : c'.Based := by
  intro i d hd hi
  obtain hdone | ⟨hd, hold⟩ := hlive i d hd hi
  · exact hdone
  · exact hground i d hi (hb i d hd hold)

omit [DecidableEq V] in
theorem Config.Waiting.of_asks (hctl : t.AsksOn st) {m : Node} (hm : (⟨h, t, st⟩ : Config V).Waiting m) :
    m ∈ h.work := by
  obtain hm | ⟨ns, heq, -⟩ := hm
  · exact hm
  · cases heq
    cases hctl

omit [DecidableEq V] in
theorem Config.Grounded.same (hctl : t.AsksOn st) {t' : Ctl V} {i : ℕ} {d : Ref}
    (hg : (⟨h, t, st⟩ : Config V).Grounded i d) : (⟨h, t', st⟩ : Config V).Grounded i d :=
  hg.imp (fun hw => .inl (hw.of_asks hctl)) id

omit [DecidableEq V] in
theorem based_get {d : Ref} (hd : d.Plain) (hst : Asks st d) (hb : (⟨h, .get d, st⟩ : Config V).Based) :
    (getRef G h st d).Based := by
  have hctl : (Ctl.get d).AsksOn st := ⟨hd, hst⟩
  have hanswer : ∀ t, (∀ m, ¬ Ctl.Runs t m) → (⟨h, t, st⟩ : Config V).Based := fun t hruns =>
    hb.mono (fun i d' hd' hi => .inr ⟨hd', hi.imp id fun hcall =>
      ⟨.inr (hcall.1.resolve_left (hruns _)), (by simp)⟩⟩) fun i d' _ hg => hg.same hctl
  cases d with
  | source i =>
    simp only [getRef]
    split <;> exact hanswer _ (by rintro _ ⟨⟩)
  | slot i =>
    simp only [getRef, callSlot]
    split
    · exact hanswer _ (by rintro _ ⟨⟩)
    · split
      · exact hanswer _ (by rintro _ ⟨⟩)
      · refine hb.mono (fun m d' hd' hi => .inr ?_) fun m d' _ hg => ?_
        · have hne : Node.slot m ≠ .slot i := by
            intro heq
            rw [heq] at hd'
            simp [Heap.startCompute] at hd'
          refine ⟨by simpa [Heap.startCompute, hne] using hd', hi.imp id fun hcall => ⟨.inr ?_, (by simp)⟩⟩
          exact hcall.1.resolve_left hne
        · exact hg.imp (fun hw => .inl (hw.of_asks hctl)) (.imp (fun hans => by cases d' <;> exact hans) id)
  | computed i => cases hd

omit [DecidableEq V] in
theorem mem_deps_subscribe {d d' : Ref} (hd : d.Plain) {r m : Node}
    (hmem : d'.node ∈ (h.subscribe d r).deps m) : d'.node ∈ h.deps m ∨ m = r ∧ d' = d := by
  have hnode : d'.node = d.node → d' = d := by
    intro heq
    cases d <;> cases d' <;> simp_all [Ref.node]
  have hedge : d'.node ∈ (h.registerEdge d.node r).deps m → d'.node ∈ h.deps m ∨ m = r ∧ d' = d := by
    intro hmem
    by_cases hm : m = r
    · subst hm
      have hcases : d'.node = d.node ∨ d'.node ∈ h.deps m := by simpa [Heap.registerEdge] using hmem
      exact hcases.symm.imp id fun heq => ⟨rfl, hnode heq⟩
    · exact .inl (by simpa [Heap.registerEdge, hm] using hmem)
  cases d with
  | source i | slot i => exact hedge hmem
  | computed i => cases hd

omit [DecidableEq V] in
theorem based_eval {i : ℕ} {t : Comp V} (ht : t.Plain) (hst : Asks st (.slot i))
    (hb : (⟨h, .eval (.slot i) t, st⟩ : Config V).Based) : (stepEval h st (.slot i) t).Based := by
  have hctl : (Ctl.eval (.slot i) t).AsksOn st := ⟨ht, i, rfl, hst⟩
  have hstack : ∀ {m}, (∃ f ∈ st, f.Runs (.slot m)) → (⟨h, .eval (.slot i) t, st⟩ : Config V).Live m :=
    fun hrun => .inr ⟨.inr hrun, (by simp)⟩
  have hself : (⟨h, .eval (.slot i) t, st⟩ : Config V).Live i := .inr ⟨.inl rfl, (by simp)⟩
  cases t with
  | ret v =>
    refine hb.mono (fun m d hd hi => .inr ⟨hd, ?_⟩) fun m d _ hg => (hg.same hctl).imp id (.imp (fun hans => ?_) id)
    · by_cases hm : m = i
      · exact hm ▸ hself
      · have hne : Node.slot m ≠ .slot i := fun heq => hm (Node.slot.inj heq)
        refine hi.elim (fun hcache => .inl ?_) fun hcall => hstack (hcall.1.resolve_left (by rintro ⟨⟩))
        simpa [stepEval, Heap.setCache, hne] using hcache
    · cases d with
      | slot j =>
        have hans : h.cache (.slot j) ≠ none := hans
        show (h.setCache (.slot i) v).cache (.slot j) ≠ none
        by_cases hji : Node.slot j = .slot i
        · simp [Heap.setCache, hji]
        · simpa [Heap.setCache, hji] using hans
      | _ => exact hans
  | raise =>
    refine hb.mono (fun m d hd hi => .inr ⟨hd, ?_⟩) fun m d _ hg => hg.same hctl
    exact hi.imp id fun hcall => absurd rfl hcall.2
  | read d k =>
    have heq := Heap.subscribe_eq d (.slot i) h
    have hcache : (h.subscribe d (.slot i)).cache = h.cache := by rw [heq]
    have hwork : (h.subscribe d (.slot i)).work = h.work := by rw [heq]
    refine hb.mono (fun m d' hd' hi => ?_) fun m d' _ hg => ?_
    · obtain hold | ⟨hm, rfl⟩ := mem_deps_subscribe ht.1 hd'
      · refine .inr ⟨hold, hi.imp (fun hm => hcache ▸ hm) fun hcall => ⟨?_, (by simp)⟩⟩
        obtain ⟨f, hf, hrun⟩ := hcall.1.resolve_left (by rintro ⟨⟩)
        obtain rfl | hf := mem_cons.mp hf
        · exact .inl hrun
        · exact .inr ⟨f, hf, hrun⟩
      · cases hm
        exact .inl (.inr (.inr ⟨k, mem_cons_self⟩))
    · obtain hw | hans | ⟨k', hframe⟩ := hg
      · exact .inl (.inl (hwork.symm ▸ hw.of_asks hctl))
      · refine .inr (.inl ?_)
        show (h.subscribe d (.slot i)).answer d' ≠ none
        rw [Heap.answer_subscribe]
        exact hans
      · exact .inr (.inr ⟨k', mem_cons_of_mem _ hframe⟩)

omit [DecidableEq V] in
theorem based_value {n : Node} {d : Ref} {k : V → Comp V} {v : V}
    (hst : Asks (.inSlot n d k :: st) d) (hc : Computing G ⟨h, .value v, .inSlot n d k :: st⟩)
    (hb : (⟨h, .value v, .inSlot n d k :: st⟩ : Config V).Based) :
    (⟨h.record n d.node v, .eval n (k v), st⟩ : Config V).Based := by
  have hctl : (Ctl.value v).AsksOn (.inSlot n d k :: st) := ⟨d, hst⟩
  have hsame : ∀ d', (h.record n d.node v).answer d' = h.answer d' := fun d' => by cases d' <;> rfl
  refine hb.mono (fun m d' hd' hi => .inr ⟨hd', hi.imp id fun hcall => ⟨.inr ?_, nofun⟩⟩) fun m d' _ hg => ?_
  · obtain heq | ⟨f, hf, hrun⟩ := hcall.1
    · exact ⟨_, mem_cons_self, heq⟩
    · exact ⟨f, mem_cons_of_mem _ hf, hrun⟩
  · obtain hw | hans | ⟨k', hframe⟩ := hg
    · exact .inl (.inl (hw.of_asks hctl))
    · exact .inr (.inl ((hsame d').symm ▸ hans))
    · obtain heq | hframe := mem_cons.mp hframe
      · cases heq
        have hanswered : h.answer d = some v := hc.answered v _ rfl hst
        refine .inr (.inl ?_)
        show (h.record (.slot m) d.node v).answer d ≠ none
        rw [hsame, hanswered]
        exact nofun
      · exact .inr (.inr ⟨k', hframe⟩)

omit [DecidableEq V] in
/-- An exception leaves a call: the slot holds no value. -/
theorem based_unwind {f : Frame V} {d : Ref} (hst : Asks (f :: st) d)
    (hc : Computing G ⟨h, .raised, f :: st⟩) (hb : (⟨h, .raised, f :: st⟩ : Config V).Based) :
    (⟨h, .raised, st⟩ : Config V).Based := by
  have hctl : (Ctl.raised : Ctl V).AsksOn (f :: st) := ⟨d, hst⟩
  refine hb.mono (fun m d' hd' hi => .inr ⟨hd', .inl (hi.resolve_right fun hcall => hcall.2 rfl)⟩) fun m d' hi hg => ?_
  obtain hw | hans | ⟨k', hframe⟩ := hg
  · exact .inl (.inl (hw.of_asks hctl))
  · exact .inr (.inl hans)
  · obtain rfl | hframe := mem_cons.mp hframe
    · have hnone : h.cache (.slot m) = none := hc.hollow m (.inr ⟨_, mem_cons_self, rfl⟩)
      exact absurd hnone (hi.resolve_right fun hcall => hcall.2 rfl)
    · exact .inr (.inr ⟨k', hframe⟩)

end Asked

section Step

variable {c c' : Config V}

omit [DecidableEq V] in
theorem FlatConfig.not_mobile (hflat : FlatConfig c) (i : ℕ) : ¬ c.Mobile (.slot i) := by
  rintro (hcall | ⟨heff, _⟩)
  · exact hflat.not_inCall i hcall
  · cases heff

omit [DecidableEq V] in
/-- With no read in progress, whoever loses an answer that it relies on is to be visited. -/
theorem based_flat (hr : Reliant G c) (hflat : FlatConfig c) (hmoves : StepMoves c c')
    (hdrops : Drops c.heap c') : c'.Based := by
  intro i d hd hlive
  have hmobile := hflat.not_mobile i
  have hold := hmoves.moves.edges.deps_subset hmobile hd
  have hcached : c'.heap.cache (.slot i) ≠ none := by
    refine hlive.resolve_right fun hcall => ?_
    obtain hI | ⟨-, hnil⟩ := hmoves.moves.enter _ hcall.1
    · exact hmobile hI
    · simp [hnil] at hd
  have hcache : c.heap.cache (.slot i) ≠ none := by
    obtain hnone | heq | hI := hmoves.moves.store (.slot i)
    · exact absurd hnone hcached
    · exact heq ▸ hcached
    · exact absurd hI hmobile
  have hwaits : c.Waiting (.slot i) → c'.Waiting (.slot i) := by
    refine fun hwait => hmoves.moves.waits _ ⟨hwait, fun hpop => hcached (hmoves.popped _ hpop rfl ?_)⟩
    by_contra hdead
    exact hcache ((hr.retired i (by simpa using hdead)).2.2 rfl)
  obtain hwait | hans | ⟨k, hframe⟩ := hr.based i d hold (.inl hcache)
  · exact .inl (hwaits hwait)
  · by_cases hlost : c'.heap.answer d = none
    · -- the slot has lost the answer, and it does not rely on itself
      have hself : Node.slot i ≠ d.node := by
        intro heq
        cases d with
        | slot j =>
          cases heq
          exact hcached hlost
        | _ => cases heq
      refine .inl ((hr.attached i (.inl hcache)).elim hwaits fun hsub => ?_)
      exact hdrops d hans hlost _ (hsub _ hold) hself
    · exact .inr (.inl hlost)
  · exact absurd hframe hflat.flat.not_inSlot

theorem based_asking (hG : G.Plain) (hc : Computing G c) (hb : c.Based) (hask : AskingConfig c)
    (hs : step G ord c = some c') : c'.Based := by
  obtain ⟨h, t, st⟩ := c
  have hctl := hask.ctl
  cases t with
  | get d =>
    cases hs
    exact based_get hctl.1 hctl.2 hb
  | eval n t =>
    cases hs
    obtain ⟨ht, i, rfl, hst⟩ := hctl
    exact based_eval ht hst hb
  | value v =>
    obtain ⟨d, hst⟩ := hctl
    cases st with
    | nil => cases hst
    | cons f st =>
      cases f with
      | inSlot n d' k =>
        cases hs
        obtain rfl := hst.1
        exact based_value hst hc hb
      | inCode r d' k =>
        have hflat : FlatConfig c' := by
          refine (asking_step hG hask hs).resolve_right fun hask' => ?_
          cases hs
          cases hask'.ctl
        have hlive : ∀ i, c'.Live i → c'.heap.cache (.slot i) ≠ none :=
          fun i hi => hi.resolve_right fun hcall => hflat.not_inCall i hcall.1
        have hsame : c'.heap.cache = h.cache ∧ c'.heap.deps = h.deps ∧ c'.heap.work = h.work ∧
            c'.heap.answer = h.answer := by
          cases hs
          cases r <;> exact ⟨rfl, rfl, rfl, by funext d; cases d <;> rfl⟩
        obtain ⟨hcache, hdeps, hwork, hanswer⟩ := hsame
        refine hb.mono (fun i d hd hi => .inr ⟨hdeps ▸ hd, .inl (hcache ▸ hlive i hi)⟩) fun i d _ hg => ?_
        obtain hw | hans | ⟨k', hframe⟩ := hg
        · exact .inl (.inl (hwork.symm ▸ hw.of_asks hask.ctl))
        · exact .inr (.inl (hanswer.symm ▸ hans))
        · obtain heq | hframe := mem_cons.mp hframe
          · cases heq
          · exact absurd hframe hst.2.2.2.not_inSlot
      | _ => cases hst
  | raised =>
    obtain ⟨d, hst⟩ := hctl
    cases st with
    | nil => cases hst
    | cons f st =>
      cases f with
      | inSlot n d' k =>
        cases hs
        exact based_unwind hst hc hb
      | inCode r d' k =>
        cases hs
        exact based_unwind hst hc hb
      | _ => cases hst
  | exec _ _ | call _ | loop | dirty _ | returned _ => cases hctl

omit [DecidableEq V] in
theorem PlainConfig.flat (hp : PlainConfig c) (hctl : ¬ c.ctl.AsksOn c.stack) : FlatConfig c :=
  hp.resolve_right fun hask => hctl hask.ctl

theorem reliant_step (hG : G.Plain) (hord : ord.Lawful) (hr : Reliant G c) (hs : step G ord c = some c') :
    Reliant G c' := by
  have hmoves := moves_step hord hs
  -- whatever a wave or a walk visits, and whatever is disposed, no slot is in a call
  have hvisits : ∀ i, c.Pops (.slot i) → ¬ c.InCall (.slot i) := by
    intro i hpop
    refine (hr.plain.flat fun hask => ?_).not_inCall i
    obtain ⟨hctl, -⟩ | ⟨ns, hctl, -⟩ := hpop
    · rw [hctl] at hask
      exact hask
    · rw [hctl] at hask
      exact hask
  have hdisposes : ∀ i, c.Disposes (.slot i) → ¬ c.InCall (.slot i) := by
    intro i hdisp
    refine (hr.plain.flat fun hask => ?_).not_inCall i
    unfold Config.Disposes at hdisp
    split at hdisp <;> simp_all [Ctl.AsksOn]
  refine ⟨plain_step hG hord hr.plain hs, computing_step hG hord hr.plain hr.computing hs,
    hmoves.moves.edges.unread hr.unread, fun i => retired_step rfl (hr.retired i) (hdisposes i) hmoves,
    fun i => attached_step rfl hr.unread (hr.retired i) (hr.attached i) (hvisits i) hmoves, ?_⟩
  obtain hflat | hask := hr.plain
  · exact based_flat hr hflat hmoves (drops_step hord hflat hs)
  · exact based_asking hG hr.computing hr.based hask hs

omit [DecidableEq V] in
theorem Reliant.issue (hr : Reliant G c) (hidle : c.Idle) {code : Code V} (hcode : code.Plain) :
    Reliant G (c.issue code) := by
  have hflat := hr.plain.issue hidle hcode
  have hwait : ∀ m, c.Waiting m → (c.issue code).Waiting m := by
    rintro m (hm | ⟨ns, heq, -⟩)
    · exact .inl hm
    · obtain hctl | ⟨cl, hctl⟩ := hidle.2 <;> rw [hctl] at heq <;> cases heq
  refine ⟨.inl hflat, hflat.computing G, hr.unread, fun i hd => ⟨hflat.not_inCall i, (hr.retired i hd).2⟩,
    fun i hlive => ?_, fun i j hj hlive => ?_⟩
  · have hcache := hlive.resolve_right (hflat.not_inCall i)
    exact (hr.attached i (.inl hcache)).imp (hwait _) id
  · have hcache := hlive.resolve_right fun hcall => hflat.not_inCall i hcall.1
    exact (hr.based i j hj (.inl hcache)).imp (hwait _) id

omit [DecidableEq V] in
theorem reliant_init (G : Graph V) (σ : ℕ → V) : Reliant G (Config.init σ) where
  plain := .inl (flatConfig_init σ)
  computing := (flatConfig_init σ).computing G
  unread := fun _ _ hn => by cases hn
  retired := fun _ hd => by cases hd
  attached := fun _ _ => .inr fun _ hn => by cases hn
  based := fun _ _ hj => by cases hj

theorem Reliant.step (hG : G.Plain) (hr : Reliant G c) (hs : PlainStep G c c') : Reliant G c' := by
  cases hs with
  | tick ord hord hs => exact reliant_step hG hord hr hs
  | issue code hidle hcode => exact hr.issue hidle hcode

theorem reliant_run (hG : G.Plain) {σ : ℕ → V}
    (hrun : Relation.ReflTransGen (PlainStep G) (Config.init σ) c) : Reliant G c := by
  induction hrun with
  | refl => exact reliant_init G σ
  | tail _ hs ih => exact ih.step hG hs

end Step

end LazilyPy.Reactive

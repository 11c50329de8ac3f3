import LazilyPy.Reactive.Moves
import LazilyPy.Reactive.Preservation

/-!
# What becomes of a node

In one step a node starts a run, loses its value to a wave, is disposed, or stays as it is. A node
that stays keeps its place in the queue, and its edges until a wave is to visit it.
-/

namespace LazilyPy.Reactive

open List Function

variable {V : Type}

/-- The run that a frame belongs to. The cleanup of the previous run comes before the run. -/
def Frame.Bodies : Frame V → Node → Prop
  | .cleanup _, _ => False
  | f, m => f.Runs m

def Config.Busy (c : Config V) (m : Node) : Prop :=
  c.ctl.Runs m ∨ ∃ f ∈ c.stack, f.Bodies m

/-- What a step from `h` does to a node. Records and values are written by nodes in `I`, and nodes
in `Q` stay in the queue. -/
inductive Fate (I Q : Node → Prop) (h : Heap V) (c' : Config V) (m : Node) : Prop
  /-- Its callable or its body starts. -/
  | starts : (m.isSlot = true → h.cache m = none) → c'.heap.runs m = h.runs m + 1 → Fate I Q h c' m
  /-- It loses its value, and its dependents are to be visited or have just started. -/
  | invalidated : m.isSlot = true → c'.heap.runs m = h.runs m → c'.heap.cache m = none →
    (∀ p ∈ h.parents m, p ∈ c'.heap.work ∨ c'.heap.runs p = h.runs p + 1) → Fate I Q h c' m
  | retires : c'.heap.runs m = h.runs m → c'.heap.disposed m = true → Fate I Q h c' m
  | stays : c'.heap.runs m = h.runs m →
    (I m ∨ c'.heap.reads m = h.reads m ∧ c'.heap.cache m = h.cache m) → (Q m → c'.Queued m) →
    (∀ n, m ∈ h.parents n → m ∈ c'.heap.parents n ∨ m ∈ c'.heap.work) → Fate I Q h c' m

/-- What a step from `h` does to every node. Only nodes in `I` go on with their runs. -/
structure Progress (I Q : Node → Prop) (h : Heap V) (c' : Config V) : Prop where
  fate : ∀ m, Fate I Q h c' m
  busy : ∀ m, c'.Busy m → I m ∨ c'.heap.runs m = h.runs m + 1

/-- The stack belongs to runs in `I`. -/
def Bears (I : Node → Prop) (st : List (Frame V)) : Prop :=
  ∀ f ∈ st, ∀ m, f.Bodies m → I m

@[simp] theorem bears_cons {I : Node → Prop} {f : Frame V} {st : List (Frame V)} :
    Bears I (f :: st) ↔ (∀ m, f.Bodies m → I m) ∧ Bears I st :=
  forall_mem_cons

theorem Bears.busy {I : Node → Prop} {c : Config V} (hst : Bears I c.stack)
    (hctl : ∀ m, c.ctl.Runs m → I m) {m : Node} (hm : c.Busy m) : I m :=
  hm.elim (hctl m) fun ⟨f, hf, hrun⟩ => hst f hf m hrun

/-- The nodes in `Q` are queued whatever the control is. -/
def Holds (Q : Node → Prop) (h : Heap V) (st : List (Frame V)) : Prop :=
  ∀ m, Q m → Config.Queued ⟨h, .returned none, st⟩ m

theorem Holds.queued {Q : Node → Prop} {h : Heap V} {st : List (Frame V)} (hQ : Holds Q h st)
    {c' : Config V} (hw : ∀ n ∈ h.work, n ∈ c'.heap.work)
    (hp : ∀ n ∈ h.pendingEffects, n ∈ c'.heap.pendingEffects) (hst : ∀ f ∈ st, f ∈ c'.stack)
    {m : Node} (hm : Q m) : c'.Queued m :=
  (hQ m hm).of_le hw hp (fun ho => ho.elim) hst

theorem Holds.push {Q : Node → Prop} {h : Heap V} {st : List (Frame V)} (hQ : Holds Q h st)
    (f : Frame V) : Holds Q h (f :: st) :=
  fun _ hm => hQ.queued (fun _ => id) (fun _ => id) (fun _ => mem_cons_of_mem _) hm

theorem Holds.pop {Q : Node → Prop} {h : Heap V} {st : List (Frame V)} {f : Frame V}
    (hQ : Holds Q h (f :: st)) (hf : ∀ m, ¬ f.Owes m) : Holds Q h st := by
  refine fun m hm => (hQ m hm).imp id fun hq => ⟨hq.1, hq.2.imp_right fun ho => ?_⟩
  refine ho.imp id fun ⟨f', hf', hfo⟩ => ⟨f', ?_, hfo⟩
  refine (mem_cons.mp hf').resolve_left ?_
  rintro rfl
  exact hf m hfo

/-- The nodes are the same, but for the records and values of those in `I` and for edges that are
new. No value is lost. -/
structure Alike (I : Node → Prop) (h h' : Heap V) : Prop where
  runs : h'.runs = h.runs
  cache : ∀ m, h'.cache m = none → h.cache m = none
  record : ∀ m, I m ∨ h'.reads m = h.reads m ∧ h'.cache m = h.cache m
  parents : ∀ m n, m ∈ h.parents n → m ∈ h'.parents n

structure Keeps (I : Node → Prop) (h h' : Heap V) : Prop extends Alike I h h' where
  work : h'.work = h.work
  effects : h'.pendingEffects = h.pendingEffects

theorem Alike.of_eq {I : Node → Prop} {h h' : Heap V} (hruns : h'.runs = h.runs)
    (hreads : h'.reads = h.reads) (hcache : h'.cache = h.cache)
    (hparents : h'.parents = h.parents) : Alike I h h' :=
  ⟨hruns, fun _ => hcache ▸ id, fun m => .inr ⟨by rw [hreads], by rw [hcache]⟩, fun _ _ => hparents ▸ id⟩

namespace Keeps

variable {I : Node → Prop} {h h' : Heap V}

theorem of_eq (hruns : h'.runs = h.runs) (hreads : h'.reads = h.reads)
    (hcache : h'.cache = h.cache) (hparents : h'.parents = h.parents) (hwork : h'.work = h.work)
    (heffects : h'.pendingEffects = h.pendingEffects) : Keeps I h h' :=
  ⟨.of_eq hruns hreads hcache hparents, hwork, heffects⟩

theorem refl (h : Heap V) : Keeps I h h :=
  .of_eq rfl rfl rfl rfl rfl rfl

theorem subscribe (h : Heap V) (d : Ref) (r : Node) : Keeps I h (h.subscribe d r) := by
  have heq := Heap.subscribe_eq d r h
  have hruns := congrArg Heap.runs heq
  have hreads := congrArg Heap.reads heq
  have hcache := congrArg Heap.cache heq
  have hwork := congrArg Heap.work heq
  have heffects := congrArg Heap.pendingEffects heq
  exact ⟨⟨hruns, fun m => (congrFun hcache m).symm.trans,
    fun m => .inr ⟨congrFun hreads m, congrFun hcache m⟩, (Extends.subscribe h r d r).parents⟩,
    hwork, heffects⟩

theorem recorded (h : Heap V) {n : Node} (hn : I n) (d : Node) (v : V) : Keeps I h (h.record n d v) := by
  refine ⟨⟨rfl, fun _ => id, fun m => ?_, fun _ _ => id⟩, rfl, rfl⟩
  by_cases hm : m = n
  · exact .inl (hm ▸ hn)
  · exact .inr ⟨by simp [Heap.record, hm], rfl⟩

theorem setCache (h : Heap V) {n : Node} (hn : I n) (v : V) : Keeps I h (h.setCache n v) := by
  refine ⟨⟨rfl, fun m hnone => ?_, fun m => ?_, fun _ _ => id⟩, rfl, rfl⟩
  · have hm : m ≠ n := by
      rintro rfl
      simp [Heap.setCache] at hnone
    simpa [Heap.setCache, hm] using hnone
  · by_cases hm : m = n
    · exact .inl (hm ▸ hn)
    · exact .inr ⟨rfl, by simp [Heap.setCache, hm]⟩

theorem trans {h'' : Heap V} (hk : Keeps I h h') (hk' : Keeps I h' h'') : Keeps I h h'' where
  runs := hk'.runs.trans hk.runs
  cache m hm := hk.cache m (hk'.cache m hm)
  record m := (hk'.record m).elim .inl fun hsame' => (hk.record m).imp id fun hsame =>
    ⟨hsame'.1.trans hsame.1, hsame'.2.trans hsame.2⟩
  parents m n hn := hk'.parents m n (hk.parents m n hn)
  work := hk'.work.trans hk.work
  effects := hk'.effects.trans hk.effects

end Keeps

namespace Progress

variable {I Q : Node → Prop} {h h₁ : Heap V} {c' : Config V}

/-- Nothing happens to a node, except that a wave may be about to visit it. -/
theorem keep (hruns : c'.heap.runs = h.runs) (hreads : c'.heap.reads = h.reads) (hcache : c'.heap.cache = h.cache)
    (hparents : ∀ m n, m ∈ h.parents n → m ∈ c'.heap.parents n ∨ m ∈ c'.heap.work)
    (hQ : ∀ m, Q m → c'.Queued m) (hst : Bears I c'.stack) (hctl : ∀ m, c'.ctl.Runs m → I m) :
    Progress I Q h c' where
  fate m := .stays (by rw [hruns]) (.inr ⟨by rw [hreads], by rw [hcache]⟩) (hQ m) (hparents m)
  busy m hm := .inl (hst.busy hctl hm)

theorem keeps (hk : Keeps I h c'.heap) {st : List (Frame V)} (hQ : Holds Q h st)
    (hsub : ∀ f ∈ st, f ∈ c'.stack) (hst : Bears I c'.stack) (hctl : ∀ m, c'.ctl.Runs m → I m) :
    Progress I Q h c' where
  fate m := .stays (by rw [hk.runs]) (hk.record m) (hQ.queued (fun _ => hk.work ▸ id) (fun _ => hk.effects ▸ id) hsub)
    fun n hn => .inl (hk.parents m n hn)
  busy m hm := .inl (hst.busy hctl hm)

/-- Steps from a heap whose nodes are the same. -/
theorem of_alike (hp : Progress I Q h₁ c') (hk : Alike I h h₁) : Progress I Q h c' where
  fate m := by
    cases hp.fate m with
    | starts hslot hruns => exact .starts (fun hm => hk.cache m (hslot hm)) (hk.runs ▸ hruns)
    | invalidated hslot hruns hcache hwork =>
      exact .invalidated hslot (hk.runs ▸ hruns) hcache fun p hp =>
        hk.runs ▸ hwork p (hk.parents p m hp)
    | retires hruns hd => exact .retires (hk.runs ▸ hruns) hd
    | stays hruns hsame hqueued hedges =>
      refine .stays (hk.runs ▸ hruns) ?_ hqueued fun n hn => hedges n (hk.parents m n hn)
      exact hsame.elim .inl fun hsame => (hk.record m).imp id fun hsame' =>
        ⟨hsame.1.trans hsame'.1, hsame.2.trans hsame'.2⟩
  busy m hm := hk.runs ▸ hp.busy m hm

end Progress

section Cases

variable {I Q : Node → Prop} {h : Heap V} {st : List (Frame V)}

variable {n e : Node} {ord : Enum} {G : Graph V}

theorem progress_callSlot (G : Graph V) (hst : Bears I st) (hQ : Holds Q h st) :
    Progress I Q h (callSlot G h st n) := by
  unfold callSlot
  split
  · exact .keeps (.refl h) hQ (fun _ => id) hst nofun
  · split
    · exact .keeps (.refl h) hQ (fun _ => id) hst nofun
    · next hcache =>
      refine ⟨fun m => ?_, ?_⟩
      · by_cases hm : m = n
        · subst hm
          exact .starts (fun _ => hcache) (by simp [Heap.startCompute])
        · refine .stays (by simp [Heap.startCompute, hm])
            (.inr ⟨by simp [Heap.startCompute, hm], rfl⟩) (fun hq => ?_) fun _ => .inl
          exact hQ.queued (fun _ => id) (fun _ => id) (fun _ => id) hq
      · rintro m (rfl | ⟨f, hf, hrun⟩)
        · exact .inr (by simp [Heap.startCompute])
        · exact .inl (hst f hf m hrun)

theorem progress_touch (hord : ord.Lawful) (hst : Bears I st) (hQ : Holds Q h st) (n : Node) :
    Progress I Q h (touch ord h st n) := by
  have hpush : ∀ m d, m ∈ h.parents d → m ∈ (h.pushParents ord n).parents d ∨ m ∈ (h.pushParents ord n).work := by
    intro m d hm
    by_cases hd : d = n
    · subst hd
      exact .inr (mem_append_left _ ((hord _ _).mem_iff.mpr hm))
    · exact .inl (by simpa [Heap.pushParents, hd] using hm)
  have hwork : ∀ m ∈ h.work, m ∈ (h.pushParents ord n).work := fun m hm => mem_append_right _ hm
  unfold touch
  split
  · exact .keeps (.refl h) hQ (fun _ => id) hst (by rintro _ ⟨⟩)
  · unfold drainResets
    split
    · refine .keep rfl rfl rfl hpush (fun m hm => ?_) hst (by rintro _ ⟨⟩)
      exact hQ.queued hwork (fun _ => id) (fun _ => id) hm
    · refine .keep rfl rfl rfl hpush (fun m hm => ?_) (bears_cons.mpr ⟨(by rintro _ ⟨⟩), hst⟩) (by rintro _ ⟨⟩)
      exact hQ.queued hwork (fun _ => id) (fun _ => mem_cons_of_mem _) hm

theorem progress_getRef (G : Graph V) (hst : Bears I st) (hQ : Holds Q h st) (d : Ref) :
    Progress I Q h (getRef G h st d) := by
  cases d with
  | source i =>
    simp only [getRef]
    split
    · exact .keeps (.refl h) hQ (fun _ => id) hst (by rintro _ ⟨⟩)
    · exact .keeps (.refl h) hQ (fun _ => id) hst (by rintro _ ⟨⟩)
  | slot i => exact progress_callSlot G hst hQ
  | computed i =>
    have hslot : ∀ h₁ : Heap V, Keeps I h h₁ → Holds Q h₁ st →
        Progress I Q h (callSlot G h₁ (.rearmSlot i :: st) (.memo i)) := fun h₁ hk hQ =>
      (progress_callSlot G (bears_cons.mpr ⟨(by rintro _ ⟨⟩), hst⟩) (hQ.push _)).of_alike hk.toAlike
    simp only [getRef, getComputed]
    split
    · split
      · split
        · split
          · exact hslot _ (.of_eq rfl rfl rfl rfl rfl rfl) hQ
          · exact .keeps (.of_eq rfl rfl rfl rfl rfl rfl) hQ
              (fun _ => mem_cons_of_mem _) (bears_cons.mpr ⟨(by rintro _ ⟨⟩), hst⟩) (by rintro _ ⟨⟩)
        · exact hslot _ (.of_eq rfl rfl rfl rfl rfl rfl) hQ
      · exact .keeps (.refl h) hQ (fun _ => id) hst (by rintro _ ⟨⟩)
    · exact progress_callSlot G hst hQ

/-- A node that is detached from what it has read; the rest of the graph stays. -/
theorem mem_parents_detach {m : Node} (hm : m ≠ e) (hn : m ∈ h.parents n) :
    m ∈ (h.detachFromDependencies e).parents n := by
  simp only [Heap.detachFromDependencies]
  split
  · simp [hn, hm]
  · exact hn

section

variable (G : Graph V) (hst : Bears I st) (he : e.isEffect = true) (hQ : Holds (fun m => Q m ∧ m ≠ e) h st)

include hst he hQ

/-- The body of an effect starts, and takes the effect out of the queue. -/
theorem progress_runBody : Progress I Q h (runBody G h st e) := by
  have hruns : ∀ m, m ≠ e → (h.startEffect e).runs m = h.runs m := fun m hm => by
    simp [Heap.startEffect, Heap.detachFromDependencies, hm]
  have hself : (h.startEffect e).runs e = h.runs e + 1 := by
    simp [Heap.startEffect, Heap.detachFromDependencies]
  have hreads : ∀ m, m ≠ e → (h.startEffect e).reads m = h.reads m := fun m hm => by
    simp [Heap.startEffect, Heap.detachFromDependencies, hm]
  cases e with
  | effect i =>
    refine ⟨fun m => ?_, ?_⟩
    · by_cases hm : m = .effect i
      · subst hm
        exact .starts (by rintro ⟨⟩) hself
      · refine .stays (hruns m hm) (.inr ⟨hreads m hm, rfl⟩) (fun hq => ?_) fun n hn => ?_
        · exact hQ.queued (fun _ => id) (fun _ => id) (fun _ => mem_cons_of_mem _) ⟨hq, hm⟩
        · exact .inl (mem_parents_detach hm hn)
    · rintro m (hrun | ⟨f, hf, hrun⟩)
      · obtain rfl : .effect i = m := Option.some.inj hrun
        exact .inr hself
      · obtain rfl | hf := mem_cons.mp hf
        · obtain ⟨rfl, _⟩ := hrun
          exact .inr hself
        · exact .inl (hst f hf m hrun)
  | puller i k =>
    set h₁ := (h.startEffect (.puller i k)).registerEdge (.memo i) (.puller i k) with hh₁
    have hparents : ∀ m n, m ≠ .puller i k → m ∈ h.parents n → m ∈ h₁.parents n := by
      intro m n hm hn
      have hdetach := mem_parents_detach hm hn
      by_cases hmemo : n = .memo i
      · subst hmemo
        simp only [hh₁, Heap.registerEdge, update_self]
        exact mem_insertNode.mpr (.inr hdetach)
      · simp only [hh₁, Heap.registerEdge, update_of_ne hmemo]
        exact hdetach
    have hbears : Bears (fun m => I m ∨ m = .puller i k)
        (.pull (.puller i k) i :: .effect (.puller i k) :: st) := by
      refine bears_cons.mpr ⟨fun m hm => .inr hm, bears_cons.mpr ⟨fun m hm => .inr hm.1, ?_⟩⟩
      exact fun f hf m hrun => .inl (hst f hf m hrun)
    have hholds : Holds (fun m => Q m ∧ m ≠ .puller i k) h₁ st := fun m hm => hQ m hm
    have hslot := progress_callSlot G (n := .memo i) hbears ((hholds.push _).push _)
    -- the memo may start as well
    have hstarted : (runBody G h st (.puller i k)).heap.runs (.puller i k) = h.runs (.puller i k) + 1 := by
      simp only [runBody, callSlot]
      split
      · exact hself
      · split
        · exact hself
        · exact hself
    refine ⟨fun m => ?_, fun m hm => ?_⟩
    · by_cases hm : m = .puller i k
      · subst hm
        exact .starts (by rintro ⟨⟩) hstarted
      · cases hslot.fate m with
        | starts hcache hr => exact .starts hcache (hr.trans (congrArg (· + 1) (hruns m hm)))
        | invalidated hs hr hcache hwork =>
          refine .invalidated hs (hr.trans (hruns m hm)) hcache fun p hp => ?_
          by_cases hpe : p = .puller i k
          · subst hpe
            exact .inr hstarted
          · refine (hwork p (hparents p m hpe hp)).imp id fun hr => ?_
            exact hr.trans (congrArg (· + 1) (hruns p hpe))
        | retires hr hd => exact .retires (hr.trans (hruns m hm)) hd
        | stays hr hsame hqueued hedges =>
          refine .stays (hr.trans (hruns m hm)) ?_ (fun hq => hqueued ⟨hq, hm⟩)
            fun n hn => hedges n (hparents m n hm hn)
          refine hsame.imp (fun hi => hi.resolve_right hm) fun hsame => ⟨?_, hsame.2⟩
          exact hsame.1.trans (hreads m hm)
    · by_cases heq : m = .puller i k
      · subst heq
        exact .inr hstarted
      · exact (hslot.busy m hm).imp (fun hi => hi.resolve_right heq) fun hr => hr.trans (congrArg (· + 1) (hruns m heq))
  | source i => cases he
  | slot i => cases he
  | computed i => cases he
  | memo i => cases he

theorem progress_callEffect (hdisposed : h.disposed e = true → ¬ Q e) :
    Progress I Q h (callEffect G h st e) := by
  simp only [callEffect]
  split
  · next hd =>
    have hall : Holds Q h st := fun m hm => hQ m ⟨hm, fun heq => hdisposed hd (heq ▸ hm)⟩
    exact .keeps (.refl h) hall (fun _ => id) hst (by rintro _ ⟨⟩)
  · split
    · refine .keep rfl rfl rfl (fun _ _ => .inl) (fun m hm => ?_) (bears_cons.mpr ⟨(by intros; contradiction), hst⟩)
        (by rintro _ ⟨⟩)
      by_cases heq : m = e
      · subst heq
        exact .inr ⟨he, .inr (.inr ⟨_, mem_cons_self, rfl⟩)⟩
      · exact hQ.queued (fun _ => id) (fun _ => id) (fun _ => mem_cons_of_mem _) ⟨hm, heq⟩
    · have hholds : Holds (fun m => Q m ∧ m ≠ e)
          { h with started := update h.started e true } st := fun m hm => hQ m hm
      exact (progress_runBody G hst he hholds).of_alike (.of_eq rfl rfl rfl rfl)

end

/-- `lazy()` retires the puller, and no other node. -/
theorem progress_lazyComputed {R : Node → Prop} {P : ℕ → Prop} (hi : HeapInv G R P h) (ord : Enum)
    (hst : Bears I st) (hQ : Holds Q h st) (i : ℕ) :
    Progress I Q h (lazyComputed ord h st i) := by
  by_cases he : h.eager i = true
  · obtain ⟨k, hk, _⟩ := hi.eagerly i he
    rw [hi.lazyComputed_eq ord he hk]
    refine ⟨fun m => ?_, fun m hm => .inl (hst.busy (by rintro _ ⟨⟩) hm)⟩
    by_cases hm : m = .puller i k
    · subst hm
      exact .retires rfl (by simp [Heap.retire])
    · refine .stays rfl (.inr ⟨?_, rfl⟩) (fun hq => ?_) fun n hn => .inl ?_
      · simp [Heap.retire, Heap.detachFromDependencies, Heap.dropPuller, hm]
      · exact hQ.queued (fun _ => id) (fun _ => id) (fun _ => id) hq
      · exact mem_parents_detach (h := h.dropPuller i) hm hn
  · simp only [lazyComputed, he]
    exact .keeps (.refl h) hQ (fun _ => id) hst (by rintro _ ⟨⟩)

theorem progress_endBatch (hord : ord.Lawful) (hst : Bears I st) (hQ : Holds Q h st) (b : Bool) :
    Progress I Q h (endBatch ord h st b) := by
  unfold endBatch
  split
  · have heq := Heap.touchAll_eq ord (ord none h.pendingCells) { h with pendingCells := [] }
    have hruns := congrArg Heap.runs heq
    have hreads := congrArg Heap.reads heq
    have hcache := congrArg Heap.cache heq
    have hparents := congrArg Heap.parents heq
    have heffects := congrArg Heap.pendingEffects heq
    have hwork : ∀ m, m ∈ (h.flushTouch ord).work ↔ m ∈ h.work ∨
        ∃ n ∈ ord none h.pendingCells, h.disposed n = false ∧ m ∈ h.parents n :=
      fun m => Heap.mem_work_touchAll hord
    refine .keep hruns hreads hcache (fun m n hm => ?_) (fun m hm => ?_)
      (bears_cons.mpr ⟨nofun, bears_cons.mpr ⟨nofun, hst⟩⟩) nofun
    · by_cases hn : n ∈ ord none h.pendingCells ∧ h.disposed n = false
      · exact .inr ((hwork m).mpr (.inr ⟨n, hn.1, hn.2, hm⟩))
      · refine .inl ((congrFun hparents n).symm ▸ ?_)
        dsimp only
        rw [if_neg hn]
        exact hm
    · refine hQ.queued (fun n hn => (hwork n).mpr (.inl hn)) (fun n hn => heffects.symm ▸ hn) (fun f hf => ?_) hm
      exact mem_cons_of_mem _ (mem_cons_of_mem _ hf)
  · refine .keep rfl rfl rfl (fun _ _ => .inl) (fun m hm => ?_) hst ?_
    · exact hQ.queued (fun _ => id) (fun _ => id) (fun _ => id) hm
    · cases b <;> exact nofun

/-- An effect of phase 2 stays in the queue until it is called. -/
theorem progress_nextRerun (hst : Bears I st) {es : List Node}
    (hes : ∀ e ∈ es, e.isEffect = true) (hQ : Holds (fun m => Q m ∧ m ∉ es) h st)
    (hskip : ∀ m ∈ es, h.disposed m = true ∨ h.started m = false → ¬ Q m) (b : Bool) :
    Progress I Q h (nextRerun h st b es) := by
  have hsame : ∀ c' : Config V, c'.heap.runs = h.runs → c'.heap.reads = h.reads →
      c'.heap.cache = h.cache → c'.heap.parents = h.parents → (∀ m, Q m → c'.Queued m) →
      Bears I c'.stack → (∀ m, c'.ctl.Runs m → I m) → Progress I Q h c' :=
    fun c' hruns hreads hcache hparents hqueued hst hctl =>
      .keep hruns hreads hcache (fun m n hm => .inl (hparents.symm ▸ hm)) hqueued hst hctl
  cases es with
  | nil =>
    refine hsame _ rfl rfl rfl rfl (fun m hm => ?_) hst (by cases b <;> rintro _ ⟨⟩)
    exact hQ.queued (fun _ => id) (fun _ => id) (fun _ => id) ⟨hm, not_mem_nil⟩
  | cons e rest =>
    have hrest : ∀ t m, Q m → m ≠ e → Config.Queued ⟨h, t, .rerun b rest :: st⟩ m := by
      intro t m hm hne
      by_cases hmem : m ∈ e :: rest
      · have hlater := (mem_cons.mp hmem).resolve_left hne
        exact .inr ⟨hes m hmem, .inr (.inr ⟨_, mem_cons_self, hlater⟩)⟩
      · exact hQ.queued (fun _ => id) (fun _ => id) (fun _ => mem_cons_of_mem _) ⟨hm, hmem⟩
    have hframe : Bears I (.rerun b rest :: st) := bears_cons.mpr ⟨(by rintro _ ⟨⟩), hst⟩
    have hdismiss : ¬ Q e → ∀ m, Q m → Config.Queued ⟨h, .returned none, .rerun b rest :: st⟩ m :=
      fun he m hm => hrest _ m hm fun heq => he (heq ▸ hm)
    simp only [nextRerun]
    split
    · next hd =>
      exact hsame _ rfl rfl rfl rfl (hdismiss (hskip e mem_cons_self (.inl hd))) hframe (by rintro _ ⟨⟩)
    · split
      · refine hsame _ rfl rfl rfl rfl (fun m hm => ?_) hframe (by rintro _ ⟨⟩)
        by_cases heq : m = e
        · subst heq
          exact .inr ⟨hes m mem_cons_self, .inr (.inl rfl)⟩
        · exact hrest _ m hm heq
      · next hs =>
        exact hsame _ rfl rfl rfl rfl
          (hdismiss (hskip e mem_cons_self (.inr (by simpa using hs)))) hframe (by rintro _ ⟨⟩)

/-- The popped node loses its value, joins the effects to be rerun, or is called. -/
theorem progress_invalidate (hord : ord.Lawful) (hst : Bears I st) (hQ : Holds (fun m => Q m ∧ m ≠ n) h st)
    (hslot : n.isSlot = true → h.disposed n = false)
    (hskip : n.isSlot = false → n.isEffect = false ∨ h.disposed n = true ∨ h.started n = false → ¬ Q n)
    (hrun : n.isEffect = true → h.disposed n = false → h.running n = false)
    (hsinks : n.isEffect = true → h.parents n = []) :
    Progress I Q h (invalidate ord h st n) := by
  have hothers : ∀ c' : Config V, (∀ m ∈ h.work, m ∈ c'.heap.work) →
      (∀ m ∈ h.pendingEffects, m ∈ c'.heap.pendingEffects) → c'.stack = st → ∀ m, Q m → m ≠ n →
      c'.Queued m := by
    intro c' hw hp hstack m hm hne
    exact hQ.queued hw hp (fun _ => hstack.symm ▸ id) ⟨hm, hne⟩
  have hdismiss : ¬ Q n → Progress I Q h ⟨h, .loop, st⟩ := by
    intro hn
    refine .keep rfl rfl rfl (fun _ _ => .inl) (fun m hm => ?_) hst (by rintro _ ⟨⟩)
    exact hothers _ (fun _ => id) (fun _ => id) rfl m hm fun heq => hn (heq ▸ hm)
  have hdrop : n.isSlot = true → Progress I Q h ⟨h.invalidateSlot ord n, .loop, st⟩ := by
    intro hn
    have hpush : ∀ p ∈ h.parents n, p ∈ (h.invalidateSlot ord n).work :=
      fun p hp => mem_append_left _ ((hord _ _).mem_iff.mpr hp)
    refine ⟨fun m => ?_, fun m hm => .inl (hst.busy (by rintro _ ⟨⟩) hm)⟩
    by_cases hm : m = n
    · subst hm
      refine .invalidated hn rfl ?_ fun p hp => .inl (hpush p hp)
      simp [Heap.invalidateSlot, Heap.pushParents, Heap.dropCache]
    · refine .stays rfl (.inr ⟨?_, ?_⟩) (fun hq => ?_) fun d hd => ?_
      · simp [Heap.invalidateSlot, Heap.pushParents, Heap.dropCache, hm]
      · simp [Heap.invalidateSlot, Heap.pushParents, Heap.dropCache, hm]
      · exact hothers _ (fun _ hw => mem_append_right _ hw) (fun _ => id) rfl m hq hm
      · by_cases hdn : d = n
        · subst hdn
          exact .inr (hpush m hd)
        · refine .inl ?_
          simpa [Heap.invalidateSlot, Heap.pushParents, Heap.dropCache, hdn] using hd
  have heffect : n.isEffect = true → Progress I Q h (if h.disposed n || h.running n then ⟨h, .loop, st⟩
      else if 0 < h.depth then ⟨(h.clearParents n).enqueueEffect n, .loop, st⟩
      else if h.started n then ⟨h.clearParents n, .call n, st⟩
      else ⟨h.clearParents n, .loop, st⟩) := by
    intro hn
    have hns : n.isSlot = false := by cases n <;> simp_all [Node.isSlot, Node.isEffect]
    have hkept : ∀ m d, m ∈ h.parents d → m ∈ (h.clearParents n).parents d := by
      intro m d hm
      have hdn : d ≠ n := by
        rintro rfl
        simp [hsinks hn] at hm
      simpa [Heap.clearParents, hdn] using hm
    by_cases hd : h.disposed n = true
    · simp only [hd, Bool.true_or, if_true]
      exact hdismiss (hskip hns (.inr (.inl hd)))
    have hr := hrun hn (by simpa using hd)
    simp only [hd, hr, Bool.or_self, Bool.false_eq_true, if_false]
    split
    · refine .keep rfl rfl rfl (fun m d hm => .inl (hkept m d hm)) (fun m hm => ?_) hst (by rintro _ ⟨⟩)
      by_cases heq : m = n
      · subst heq
        exact .inr ⟨hn, .inl (mem_insertNode.mpr (.inl rfl))⟩
      · refine hothers _ (fun _ => id) (fun e he => ?_) rfl m hm heq
        exact mem_insertNode.mpr (.inr he)
    · split
      · refine .keep rfl rfl rfl (fun m d hm => .inl (hkept m d hm)) (fun m hm => ?_) hst (by rintro _ ⟨⟩)
        by_cases heq : m = n
        · subst heq
          exact .inr ⟨hn, .inr (.inl rfl)⟩
        · exact hothers _ (fun _ => id) (fun _ => id) rfl m hm heq
      · next hs =>
        have hnq := hskip hns (.inr (.inr (by simpa using hs)))
        refine .keep rfl rfl rfl (fun m d hm => .inl (hkept m d hm)) (fun m hm => ?_) hst (by rintro _ ⟨⟩)
        exact hothers _ (fun _ => id) (fun _ => id) rfl m hm fun heq => hnq (heq ▸ hm)
  cases n with
  | source i => exact hdismiss (hskip rfl (.inl rfl))
  | computed i => exact hdismiss (hskip rfl (.inl rfl))
  | slot i =>
    simp only [invalidate, hslot rfl]
    exact hdrop rfl
  | memo i =>
    simp only [invalidate, hslot rfl]
    exact hdrop rfl
  | effect i => exact heffect rfl
  | puller i k => exact heffect rfl

theorem progress_eval (hn : I n) (hst : Bears I st) (hQ : Holds Q h st) (t : Comp V) :
    Progress I Q h (stepEval h st n t) := by
  cases t with
  | ret v => exact .keeps (.setCache h hn v) hQ (fun _ => id) hst nofun
  | raise => exact .keeps (.refl h) hQ (fun _ => id) hst nofun
  | read d k =>
    refine .keeps (.subscribe h d n) hQ (fun _ => mem_cons_of_mem _) (bears_cons.mpr ⟨?_, hst⟩) nofun
    rintro m rfl
    exact hn

theorem progress_returned (hord : ord.Lawful) (hst : Bears I st) (hQ : Holds Q h st) {S : Instr → Prop}
    (hsettled : Settled S h st) (hpending : ∀ e ∈ h.pendingEffects, e.isEffect = true)
    (hskip : ∀ m, m.isEffect = true → h.disposed m = true ∨ h.started m = false → ¬ Q m) {cl : Option (Code V)}
    {c' : Config V} (hs : stepReturned G ord h cl st = some c') :
    Progress I Q h c' := by
  cases st with
  | nil => cases hs
  | cons f st =>
    obtain ⟨hf, hrest⟩ := bears_cons.mp hst
    have hfs : f.Settled S h := hsettled f mem_cons_self
    cases f with
    | andThen r c =>
      cases hs
      exact .keeps (.refl h) (hQ.pop nofun) (fun _ => id) hrest hf
    | attempt r c =>
      cases hs
      exact .keeps (.refl h) (hQ.pop nofun) (fun _ => id) hrest hf
    | rearmed i => exact hfs.elim
    | disposing e => exact hfs.elim
    | drain =>
      cases hs
      exact .keeps (.refl h) hQ (fun _ => id) hst nofun
    | effect e =>
      cases hs
      exact .keeps (.of_eq rfl rfl rfl rfl rfl rfl) (hQ.pop nofun) (fun _ => id) hrest nofun
    | cleanup e =>
      cases hs
      obtain ⟨⟨i, rfl⟩, _⟩ := hfs
      refine progress_runBody G hrest rfl fun m hm => ?_
      refine (hQ m hm.1).imp id fun hq => ⟨hq.1, hq.2.imp_right fun ho => ?_⟩
      refine ho.imp id fun ⟨f', hf', hfo⟩ => ⟨f', ?_, hfo⟩
      refine (mem_cons.mp hf').resolve_left ?_
      rintro rfl
      exact hm.2 hfo
    | batch =>
      cases hs
      exact progress_endBatch hord hrest (hQ.pop nofun) false
    | flushed b =>
      cases hs
      have hes : ∀ e ∈ ord none h.pendingEffects, e.isEffect = true := fun e he => hpending e ((hord _ _).mem_iff.mp he)
      have hrerun := progress_nextRerun (h := { h with pendingEffects := [] }) hrest hes
        (Q := Q) (fun m hm => ?_) (fun m hm => hskip m (hes m hm)) b
      · exact hrerun.of_alike (.of_eq rfl rfl rfl rfl)
      · refine (hQ.pop nofun m hm.1).imp id fun hq => ⟨hq.1, .inr ?_⟩
        exact hq.2.resolve_left fun hp => hm.2 ((hord _ _).mem_iff.mpr hp)
    | rerun b rest =>
      cases hs
      refine progress_nextRerun hrest hfs (fun m hm => ?_) (fun m hm => hskip m (hfs m hm)) b
      refine (hQ m hm.1).imp id fun hq => ⟨hq.1, hq.2.imp_right fun ho => ?_⟩
      refine ho.imp id fun ⟨f', hf', hfo⟩ => ⟨f', ?_, hfo⟩
      refine (mem_cons.mp hf').resolve_left ?_
      rintro rfl
      exact hm.2 hfo
    | _ => cases hs

variable [DecidableEq V]

theorem progress_setSource (hord : ord.Lawful) (hst : Bears I st) (hQ : Holds Q h st) (i : ℕ) (v : V) :
    Progress I Q h (setSource ord h st i v) := by
  have hset : Keeps I h (h.setValue i v) := .of_eq rfl rfl rfl rfl rfl rfl
  have hholds : Holds Q (h.setValue i v) st := fun m hm => hQ m hm
  unfold setSource
  split
  · exact .keeps (.refl h) hQ (fun _ => id) hst nofun
  · split
    · exact .keeps hset hQ (fun _ => id) hst nofun
    · split
      · exact .keeps (.of_eq rfl rfl rfl rfl rfl rfl) hQ (fun _ => id) hst nofun
      · exact (progress_touch hord hst hholds _).of_alike hset.toAlike

theorem progress_exec {R : Node → Prop} {P : ℕ → Prop} (hi : HeapInv G R P h) (hord : ord.Lawful) (hst : Bears I st)
    (hQ : Holds Q h st) {r : Option Node} (hr : ∀ m, r = some m → I m) {S : Instr → Prop} (hS : ¬ S .dispose)
    {code : Code V} (hcode : code.Within S) : Progress I Q h (stepExec ord h st r code) := by
  have hthen : ∀ k, Bears I (Frame.andThen r k :: st) := fun k => bears_cons.mpr ⟨hr, hst⟩
  cases code with
  | done => exact .keeps (.refl h) hQ (fun _ => id) hst (by rintro _ ⟨⟩)
  | doneWith c => exact .keeps (.refl h) hQ (fun _ => id) hst (by rintro _ ⟨⟩)
  | raise => exact .keeps (.refl h) hQ (fun _ => id) hst (by rintro _ ⟨⟩)
  | read d k =>
    have hframe : Bears I (Frame.inCode r d k :: st) := bears_cons.mpr ⟨hr, hst⟩
    cases r with
    | none => exact .keeps (.refl h) hQ (fun _ => mem_cons_of_mem _) hframe (by rintro _ ⟨⟩)
    | some e => exact .keeps (.subscribe h d e) hQ (fun _ => mem_cons_of_mem _) hframe (by rintro _ ⟨⟩)
  | write i v k => exact progress_setSource hord (hthen k) (hQ.push _) i v
  | batch b k =>
    refine .keeps (.of_eq rfl rfl rfl rfl rfl rfl) hQ (fun f hf => ?_) (bears_cons.mpr ⟨(by rintro _ ⟨⟩), hthen k⟩) hr
    exact mem_cons_of_mem _ (mem_cons_of_mem _ hf)
  | call e k => exact .keeps (.refl h) hQ (fun _ => mem_cons_of_mem _) (hthen k) (by rintro _ ⟨⟩)
  | eager i k =>
    simp only [stepExec]
    split
    · exact .keeps (.refl h) hQ (fun _ => id) hst hr
    · exact .keeps (.of_eq rfl rfl rfl rfl rfl rfl) hQ (fun _ => mem_cons_of_mem _) (hthen k) (by rintro _ ⟨⟩)
  | lazy i k => exact progress_lazyComputed hi ord (hthen k) (hQ.push _) i
  | dispose d k => exact absurd hcode.1 hS
  | disposeEffect e k => exact absurd hcode.1 hS
  | attempt b k =>
    exact .keeps (.refl h) hQ (fun _ => mem_cons_of_mem _) (bears_cons.mpr ⟨hr, hst⟩) hr

theorem progress_pulled (hord : ord.Lawful) (hst : Bears I st) (hQ : Holds Q h st) {p : Node} (hp : I p) (i : ℕ)
    (v : V) :
    Progress I Q h (pulled G ord h st p i v) := by
  have hrecord : Keeps I h (h.record p (.memo i) v) := .recorded h hp _ v
  have hset : Keeps I (h.record p (.memo i) v) ((h.record p (.memo i) v).setHandle i v) :=
    .of_eq rfl rfl rfl rfl rfl rfl
  have hholds : Holds Q ((h.record p (.memo i) v).setHandle i v) st := fun m hm => hQ m hm
  simp only [pulled]
  split
  · exact .keeps (hrecord.trans hset) hQ (fun _ => id) hst (by rintro _ ⟨⟩)
  · split
    · exact (progress_touch hord hst hholds _).of_alike (hrecord.trans hset).toAlike
    · exact .keeps hrecord hQ (fun _ => id) hst (by rintro _ ⟨⟩)

theorem progress_value (hord : ord.Lawful) (hst : Bears I st) (hQ : Holds Q h st) {v : V} {c' : Config V}
    (hs : stepValue G ord h v st = some c') :
    Progress I Q h c' := by
  cases st with
  | nil => cases hs
  | cons f st =>
    obtain ⟨hf, hrest⟩ := bears_cons.mp hst
    cases f with
    | inSlot n d k =>
      cases hs
      exact .keeps (.recorded h (hf n rfl) d.node v) (hQ.pop nofun) (fun _ => id) hrest hf
    | inCode r d k =>
      cases hs
      cases r with
      | none => exact .keeps (.refl h) (hQ.pop nofun) (fun _ => id) hrest hf
      | some e =>
        exact .keeps (.recorded h (hf e rfl) d.node v) (hQ.pop nofun) (fun _ => id) hrest hf
    | pull p i =>
      cases hs
      exact progress_pulled hord hrest (hQ.pop nofun) (hf p rfl) i v
    | rearmSlot i =>
      cases hs
      exact .keeps (.of_eq rfl rfl rfl rfl rfl rfl) (hQ.pop nofun) (fun _ => id) hrest nofun
    | _ => cases hs

end Cases

def Config.Due (c : Config V) (m : Node) : Prop :=
  c.Queued m ∧ c.heap.reads m ≠ []

/-- What a calm step does to every node. -/
theorem progress_step [DecidableEq V] {G : Graph V} {S : Instr → Prop} (hS : ¬ S .dispose)
    {ord : Enum} (hord : ord.Lawful) {c c' : Config V} (hi : Inv G S c) (hcalm : Calm c)
    (hs : step G ord c = some c') : Progress c.Busy c.Due c.heap c' := by
  obtain ⟨h, t, st⟩ := c
  obtain ⟨hheap, hfits, ho⟩ := hi
  change HeapInv G _ _ h at hheap
  have hst : Bears (Config.Busy ⟨h, t, st⟩) st := fun f hf m hrun => .inr ⟨f, hf, hrun⟩
  -- unless the control calls an effect, whoever is due is so whatever the control is
  have hQ : (∀ e, t ≠ .call e) → Holds (Config.Due ⟨h, t, st⟩) h st := by
    intro ht m hm
    refine hm.1.imp id fun hq => ⟨hq.1, hq.2.imp_right fun ho => .inr (ho.resolve_left ?_)⟩
    cases t with
    | call e => exact absurd rfl (ht e)
    | _ => exact id
  have hskip : ∀ m, m.isEffect = true → h.disposed m = true ∨ h.started m = false →
      ¬ (⟨h, t, st⟩ : Config V).Due m := by
    intro m hm hd hdue
    have hns : m.isSlot = false := by cases m <;> simp_all [Node.isSlot, Node.isEffect]
    exact hdue.2 (hheap.reads_eq_nil hns hd)
  cases t with
  | exec r code =>
    cases hs
    exact progress_exec hheap hord hst (hQ (by simp)) (fun m hm => .inl hm) hS hfits.2.1
  | get d =>
    cases hs
    exact progress_getRef G hst (hQ (by simp)) d
  | eval n t =>
    cases hs
    exact progress_eval (.inl rfl) hst (hQ (by simp)) t
  | value v => exact progress_value hord hst (hQ (by simp)) hs
  | call e =>
    cases hs
    refine progress_callEffect G hst hfits.1.1 (fun m hm => ?_) fun hd =>
      hskip e hfits.1.1 (.inl hd)
    refine hm.1.1.imp id fun hq => ⟨hq.1, hq.2.imp_right fun ho => .inr (ho.resolve_left ?_)⟩
    exact hm.2
  | loop =>
    cases st with
    | nil => cases hs
    | cons f st =>
      cases f with
      | drain =>
        simp only [step, stepLoop] at hs
        split at hs
        · next hwork =>
          cases hs
          exact .keeps (.of_eq rfl rfl rfl rfl rfl rfl) ((hQ (by simp)).pop (by rintro _ ⟨⟩)) (fun _ => id)
            (bears_cons.mp hst).2 (by rintro _ ⟨⟩)
        · next n rest hwork =>
          cases hs
          have hpop := progress_invalidate (h := { h with work := rest }) hord hst
            (Q := Config.Due ⟨h, .loop, .drain :: st⟩) (n := n) (fun m hm => ?_)
            (fun hn => hheap.alive (by cases n <;> simp_all [Node.isSlot, Node.isPuller]))
            (fun hns hn hdue => hdue.2 (hheap.reads_of_idle hns hn))
            (hcalm.notReentered n rest rfl hwork) (hheap.sinks n)
          · exact hpop.of_alike (.of_eq rfl rfl rfl rfl)
          · refine (hQ (by simp) m hm.1).imp (fun hw => ?_) id
            have hw' : m ∈ n :: rest := hwork ▸ hw
            exact (mem_cons.mp hw').resolve_left hm.2
      | _ => cases hs
  | dirty ns => exact hfits.elim
  | returned cl =>
    exact progress_returned hord hst (hQ (by simp)) hfits.2 ho.pending hskip hs
  | raised => exact hfits.elim

end LazilyPy.Reactive

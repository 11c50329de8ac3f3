import LazilyPy.Reactive.Moves
import LazilyPy.Reactive.Preservation

/-!
# What a wave spares

An effect is reached by a change of a node that has it among its dependents, or by a call of the client. While
neither happens it starts no run, gains no edge, and the computeds whose dependent it is hold what they held.
-/

namespace LazilyPy.Reactive

open List

variable {V : Type}

inductive Config.Announces [DecidableEq V] (G : Graph V) (c : Config V) : Node → Prop
  | source {r : Option Node} {i : ℕ} {v : V} {k : Code V} : c.ctl = .exec r (.write i v k) →
    c.heap.disposed (.source i) = false → v ≠ c.heap.value i → Announces G c (.source i)
  | computed {v : V} {p : Node} {i : ℕ} {st : List (Frame V)} : c.ctl = .value v → c.stack = .pull p i :: st →
    (∀ old, c.heap.handle i = some old → G.propagates i old v = true) → Announces G c (.computed i)
  | slot {n : Node} {rest : List Node} : c.ctl = .loop → c.heap.work = n :: rest → n.isSlot = true → Announces G c n
  | cell {n : Node} {cl : Option (Code V)} {st : List (Frame V)} : c.ctl = .returned cl → c.stack = .batch :: st →
    n ∈ c.heap.pendingCells → Announces G c n

/-- Since `h` the node `m` has joined no queue, started no run and gained no edge, and the computeds whose dependent
it is hold what they held. -/
structure Spares (m : Node) (h h' : Heap V) : Prop where
  work : m ∉ h.work → m ∉ h'.work
  effects : m ∉ h.pendingEffects → m ∉ h'.pendingEffects
  runs : h'.runs m = h.runs m
  edges : ∀ n, m ∈ h'.parents n → m ∈ h.parents n
  handles : ∀ i, m ∈ h'.parents (.computed i) → h'.handle i = h.handle i

/-- No frame belongs to a call of the node, and none is to run it. -/
def Clear (m : Node) (st : List (Frame V)) : Prop :=
  ∀ f ∈ st, ¬ f.Runs m ∧ ¬ f.Owes m

/-- Since `h` nothing has reached the node. -/
structure Spared (m : Node) (h : Heap V) (c : Config V) : Prop where
  heap : Spares m h c.heap
  control : ¬ c.ctl.Runs m ∧ ¬ c.ctl.Owes m
  stack : Clear m c.stack

@[simp] theorem clear_cons {m : Node} {f : Frame V} {st : List (Frame V)} :
    Clear m (f :: st) ↔ (¬ f.Runs m ∧ ¬ f.Owes m) ∧ Clear m st :=
  forall_mem_cons

theorem Clear.push {m : Node} {f : Frame V} {st : List (Frame V)} (hst : Clear m st) (hruns : ¬ f.Runs m)
    (howes : ¬ f.Owes m) : Clear m (f :: st) :=
  clear_cons.mpr ⟨⟨hruns, howes⟩, hst⟩

namespace Spares

variable {m : Node} {h h' h'' : Heap V}

theorem of_eq (hwork : h'.work = h.work) (heffects : h'.pendingEffects = h.pendingEffects) (hruns : h'.runs = h.runs)
    (hparents : h'.parents = h.parents) (hhandle : h'.handle = h.handle) : Spares m h h' :=
  ⟨fun hm => hwork ▸ hm, fun hm => heffects ▸ hm, by rw [hruns], fun _ hm => hparents ▸ hm, fun _ _ => by rw [hhandle]⟩

theorem refl (h : Heap V) : Spares m h h :=
  .of_eq rfl rfl rfl rfl rfl

theorem trans (hs : Spares m h h') (hs' : Spares m h' h'') : Spares m h h'' where
  work := hs'.work ∘ hs.work
  effects := hs'.effects ∘ hs.effects
  runs := hs'.runs.trans hs.runs
  edges n hm := hs.edges n (hs'.edges n hm)
  handles i hm := (hs'.handles i hm).trans (hs.handles i (hs'.edges _ hm))

theorem registerEdge (h : Heap V) (d : Node) {r : Node} (hr : r ≠ m) : Spares m h (h.registerEdge d r) := by
  refine ⟨id, id, rfl, fun n hm => ?_, fun _ _ => rfl⟩
  by_cases hn : n = d
  · subst hn
    simpa [Heap.registerEdge, Ne.symm hr] using hm
  · simpa [Heap.registerEdge, hn] using hm

theorem subscribe (h : Heap V) (d : Ref) {r : Node} (hr : r ≠ m) : Spares m h (h.subscribe d r) := by
  cases d with
  | source i => exact registerEdge h _ hr
  | slot i => exact registerEdge h _ hr
  | computed i =>
    simp only [Heap.subscribe]
    split
    · exact registerEdge h _ hr
    · exact (registerEdge h _ hr).trans (registerEdge _ _ hr)

theorem detach (h : Heap V) (n : Node) : Spares m h (h.detachFromDependencies n) := by
  refine ⟨id, id, rfl, fun d hm => ?_, fun _ _ => rfl⟩
  simp only [Heap.detachFromDependencies] at hm
  split at hm
  · exact mem_of_mem_filter hm
  · exact hm

theorem clearParents (h : Heap V) (n : Node) : Spares m h (h.clearParents n) := by
  refine ⟨id, id, rfl, fun d hm => ?_, fun _ _ => rfl⟩
  by_cases hd : d = n
  · subst hd
    simp [Heap.clearParents] at hm
  · simpa [Heap.clearParents, hd] using hm

theorem pushParents {ord : Enum} (hord : ord.Lawful) (h : Heap V) {n : Node} (hn : m ∉ h.parents n) :
    Spares m h (h.pushParents ord n) := by
  refine ⟨fun hm => ?_, id, rfl, fun d hm => ?_, fun _ _ => rfl⟩
  · simp only [Heap.pushParents, mem_append, (hord _ _).mem_iff]
    exact not_or.mpr ⟨hn, hm⟩
  · exact (clearParents h n).edges d hm

theorem startCompute (h : Heap V) {n : Node} (hn : n ≠ m) : Spares m h (h.startCompute n) :=
  ⟨id, id, by simp [Heap.startCompute, Ne.symm hn], fun _ => id, fun _ _ => rfl⟩

theorem startEffect (h : Heap V) {n : Node} (hn : n ≠ m) : Spares m h (h.startEffect n) := by
  have hdetach := detach (m := m) h n
  exact ⟨id, id, by simp [Heap.startEffect, Heap.detachFromDependencies, Ne.symm hn], hdetach.edges, hdetach.handles⟩

theorem setHandle (h : Heap V) {i : ℕ} (v : V) (hi : m ∉ h.parents (.computed i)) : Spares m h (h.setHandle i v) := by
  refine ⟨id, id, rfl, fun _ => id, fun j hm => ?_⟩
  have hj : j ≠ i := by
    rintro rfl
    exact hi hm
  simp [Heap.setHandle, hj]

end Spares

namespace Spared

variable {m : Node} {h h₁ : Heap V} {c' : Config V}

/-- Nothing reaches the node while its heap is spared and neither control nor stack belongs to it. -/
theorem quiet {t : Ctl V} {st : List (Frame V)} (hs : Spares m h h₁) (hst : Clear m st) (hruns : ¬ t.Runs m)
    (howes : ¬ t.Owes m) : Spared m h ⟨h₁, t, st⟩ :=
  ⟨hs, ⟨hruns, howes⟩, hst⟩

theorem of_spares (hs : Spares m h h₁) (hc : Spared m h₁ c') : Spared m h c' :=
  ⟨hs.trans hc.heap, hc.control, hc.stack⟩

end Spared

section Cases

variable {G : Graph V} {ord : Enum} {h : Heap V} {st : List (Frame V)} {m : Node}

theorem spared_callSlot (G : Graph V) (hst : Clear m st) {n : Node} (hn : n ≠ m) :
    Spared m h (callSlot G h st n) := by
  unfold callSlot
  split
  · exact .quiet (.refl h) hst nofun nofun
  · split
    · exact .quiet (.refl h) hst nofun nofun
    · exact .quiet (.startCompute h hn) hst (fun heq => hn heq.symm) nofun

theorem spared_touch (hord : ord.Lawful) (hst : Clear m st) {n : Node} (hn : m ∉ h.parents n) :
    Spared m h (touch ord h st n) := by
  have hpush := Spares.pushParents hord h hn
  unfold touch
  split
  · exact .quiet (.refl h) hst nofun nofun
  · unfold drainResets
    split
    · exact .quiet hpush hst nofun nofun
    · exact .quiet (hpush.trans (.of_eq rfl rfl rfl rfl rfl)) (hst.push nofun nofun) nofun nofun

theorem spared_getRef (G : Graph V) (hm : m.isEffect = true) (hpuller : m.isPuller = false) (hst : Clear m st)
    (d : Ref) : Spared m h (getRef G h st d) := by
  have hslot : ∀ n : Node, n.isSlot = true → n ≠ m := by
    rintro n hn rfl
    cases n <;> simp_all [Node.isSlot, Node.isEffect]
  cases d with
  | source i =>
    simp only [getRef]
    split
    · exact .quiet (.refl h) hst (by rintro ⟨⟩) (by rintro ⟨⟩)
    · exact .quiet (.refl h) hst (by rintro ⟨⟩) (by rintro ⟨⟩)
  | slot i => exact spared_callSlot G hst (hslot _ rfl)
  | computed i =>
    have hrearm : ∀ h₁ : Heap V, Spares m h h₁ → Spared m h (callSlot G h₁ (.rearmSlot i :: st) (.memo i)) :=
      fun h₁ hs => .of_spares hs (spared_callSlot G (hst.push id id) (hslot _ rfl))
    simp only [getRef, getComputed]
    split
    · split
      · split
        · next k _ =>
          split
          · exact hrearm _ (.of_eq rfl rfl rfl rfl rfl)
          · refine .quiet (.of_eq rfl rfl rfl rfl rfl) (hst.push (by rintro ⟨⟩) (by rintro ⟨⟩)) (by rintro ⟨⟩) ?_
            rintro rfl
            cases hpuller
        · exact hrearm _ (.of_eq rfl rfl rfl rfl rfl)
      · exact .quiet (.refl h) hst (by rintro ⟨⟩) (by rintro ⟨⟩)
    · exact spared_callSlot G hst (hslot _ rfl)

theorem spared_runBody (G : Graph V) (hm : m.isEffect = true) (hst : Clear m st) {e : Node} (he : e ≠ m) :
    Spared m h (runBody G h st e) := by
  have hframe : ∀ f : Node, f ≠ m → ¬ (Frame.effect f : Frame V).Runs m := fun f hf heq => hf heq.1.symm
  cases e with
  | effect i =>
    refine .quiet (.startEffect h he) (hst.push (hframe _ he) id) (fun heq => ?_) id
    exact he (Option.some.inj heq)
  | puller i k =>
    have hmemo : Node.memo i ≠ m := by
      rintro rfl
      cases hm
    refine .of_spares ((Spares.startEffect h he).trans (.registerEdge _ (.memo i) he)) (spared_callSlot G ?_ hmemo)
    exact (hst.push (hframe _ he) id).push (fun heq => he heq.symm) id
  | _ => exact .quiet (.refl h) hst nofun nofun

theorem spared_callEffect (G : Graph V) (hm : m.isEffect = true) (hst : Clear m st) {e : Node} (he : e ≠ m) :
    Spared m h (callEffect G h st e) := by
  simp only [callEffect]
  split
  · exact .quiet (.refl h) hst (by rintro ⟨⟩) (by rintro ⟨⟩)
  · split
    · refine .quiet (.of_eq rfl rfl rfl rfl rfl) (hst.push ?_ ?_) (by rintro ⟨⟩) (by rintro ⟨⟩)
      · exact fun heq => he heq.1.symm
      · exact fun heq => he heq.symm
    · have hstart : Spares m h { h with started := Function.update h.started e true } :=
        .of_eq rfl rfl rfl rfl rfl
      exact .of_spares hstart (spared_runBody G hm hst he)

theorem spared_finalCleanup (hst : Clear m st) (e : Node) : Spared m h (finalCleanup h st e) := by
  unfold finalCleanup
  split
  · exact .quiet (.of_eq rfl rfl rfl rfl rfl) hst nofun nofun
  · exact .quiet (.refl h) hst nofun nofun

theorem spared_lazyComputed {R : Node → Prop} {P : ℕ → Prop} (hi : HeapInv G R P h) (ord : Enum)
    (hst : Clear m st) (i : ℕ) : Spared m h (lazyComputed ord h st i) := by
  by_cases he : h.eager i = true
  · obtain ⟨k, hk, _⟩ := hi.eagerly i he
    rw [hi.lazyComputed_eq ord he hk]
    refine .quiet ?_ hst nofun nofun
    have hdrop : Spares m h (h.dropPuller i) := .of_eq rfl rfl rfl rfl rfl
    exact (hdrop.trans (.detach _ (.puller i k))).trans (.of_eq rfl rfl rfl rfl rfl)
  · simp only [lazyComputed, he]
    exact .quiet (.refl h) hst nofun nofun

theorem spared_invalidate (hord : ord.Lawful) (hst : Clear m st) {n : Node} (hn : n ≠ m)
    (hslot : n.isSlot = true → m ∉ h.parents n) : Spared m h (invalidate ord h st n) := by
  have hdrop : n.isSlot = true → Spares m h (h.invalidateSlot ord n) := by
    intro hs
    have hcache : Spares m h (h.dropCache n) := .of_eq rfl rfl rfl rfl rfl
    exact hcache.trans (.pushParents hord _ (hslot hs))
  have henqueue : Spares m h ((h.clearParents n).enqueueEffect n) := by
    refine (Spares.clearParents h n).trans ⟨id, fun hm => ?_, rfl, fun _ => id, fun _ _ => rfl⟩
    simpa [Heap.enqueueEffect, Ne.symm hn] using hm
  have heffect : Spared m h (if h.disposed n || h.running n then ⟨h, .loop, st⟩
      else if 0 < h.depth then ⟨(h.clearParents n).enqueueEffect n, .loop, st⟩
      else if h.started n then ⟨h.clearParents n, .call n, st⟩
      else ⟨h.clearParents n, .loop, st⟩) := by
    split
    · exact .quiet (.refl h) hst nofun nofun
    · split
      · exact .quiet henqueue hst nofun nofun
      · split
        · exact .quiet (.clearParents h n) hst nofun fun heq => hn heq.symm
        · exact .quiet (.clearParents h n) hst nofun nofun
  cases n with
  | slot i | memo i =>
    simp only [invalidate]
    split
    · exact .quiet (.refl h) hst nofun nofun
    · exact .quiet (hdrop rfl) hst nofun nofun
  | effect i | puller i k => exact heffect
  | source i | computed i => exact .quiet (.refl h) hst nofun nofun

theorem spared_endBatch (hord : ord.Lawful) (hst : Clear m st) (hcells : ∀ n ∈ h.pendingCells, m ∉ h.parents n)
    (b : Bool) : Spared m h (endBatch ord h st b) := by
  unfold endBatch
  split
  · have heq := Heap.touchAll_eq ord (ord none h.pendingCells) { h with pendingCells := [] }
    have hruns := congrArg Heap.runs heq
    have hparents := congrArg Heap.parents heq
    have heffects := congrArg Heap.pendingEffects heq
    have hhandle := congrArg Heap.handle heq
    have hedges : ∀ n, m ∈ (h.flushTouch ord).parents n → m ∈ h.parents n := by
      intro n hm
      change m ∈ (({ h with pendingCells := [] } : Heap V).touchAll ord (ord none h.pendingCells)).parents n at hm
      rw [hparents] at hm
      simp only at hm
      split at hm
      · cases hm
      · exact hm
    refine .quiet ⟨fun hm => ?_, fun hm => heffects.symm ▸ hm, congrFun hruns m, hedges, fun i _ => congrFun hhandle i⟩
      ((hst.push id id).push id id) id id
    intro hmem
    obtain hwork | ⟨n, hn, _, hedge⟩ := (Heap.mem_work_touchAll hord).mp hmem
    · exact hm hwork
    · exact hcells n ((hord _ _).mem_iff.mp hn) hedge
  · refine .quiet (.of_eq rfl rfl rfl rfl rfl) hst ?_ ?_
    · cases b <;> exact id
    · cases b <;> exact id

theorem spared_nextRerun (hst : Clear m st) {es : List Node} (hes : m ∉ es) (b : Bool) :
    Spared m h (nextRerun h st b es) := by
  cases es with
  | nil =>
    refine .quiet (.of_eq rfl rfl rfl rfl rfl) hst ?_ ?_
    · cases b <;> exact id
    · cases b <;> exact id
  | cons e rest =>
    obtain ⟨hne, hrest⟩ := not_or.mp (mem_cons.not.mp hes)
    have hframe : Clear m (Frame.rerun b rest :: st) := hst.push id hrest
    simp only [nextRerun]
    split
    · exact .quiet (.refl h) hframe (by rintro ⟨⟩) (by rintro ⟨⟩)
    · split
      · exact .quiet (.refl h) hframe (by rintro ⟨⟩) hne
      · exact .quiet (.refl h) hframe (by rintro ⟨⟩) (by rintro ⟨⟩)

theorem spared_eval (hst : Clear m st) {n : Node} (hn : n ≠ m) (t : Comp V) : Spared m h (stepEval h st n t) := by
  cases t with
  | ret v => exact .quiet (.of_eq rfl rfl rfl rfl rfl) hst nofun nofun
  | raise => exact .quiet (.refl h) hst nofun nofun
  | read d k => exact .quiet (.subscribe h d hn) (hst.push (fun heq => hn heq.symm) nofun) nofun nofun

theorem spared_returned (hord : ord.Lawful) (hm : m.isEffect = true) (hst : Clear m st)
    (heffects : m ∉ h.pendingEffects)
    (hcells : ∀ rest, st = .batch :: rest → ∀ n ∈ h.pendingCells, m ∉ h.parents n) {cl : Option (Code V)}
    {c' : Config V} (hs : stepReturned G ord h cl st = some c') : Spared m h c' := by
  cases st with
  | nil => cases hs
  | cons f st =>
    obtain ⟨⟨hruns, howes⟩, hrest⟩ := clear_cons.mp hst
    cases f with
    | andThen r c | attempt r c =>
      cases hs
      exact .quiet (.refl h) hrest hruns nofun
    | rearmed i =>
      cases hs
      exact .quiet (.refl h) hrest nofun nofun
    | drain =>
      cases hs
      exact .quiet (.refl h) hst nofun nofun
    | effect e =>
      cases hs
      exact .quiet (.of_eq rfl rfl rfl rfl rfl) hrest nofun nofun
    | cleanup e =>
      cases hs
      exact spared_runBody G hm hrest fun heq => howes heq.symm
    | disposing e =>
      cases hs
      exact spared_finalCleanup hrest e
    | batch =>
      cases hs
      exact spared_endBatch hord hrest (hcells st rfl) false
    | flushed b =>
      cases hs
      have hes : m ∉ ord none h.pendingEffects := fun hmem => heffects ((hord _ _).mem_iff.mp hmem)
      have hflushed : Spares m h { h with pendingEffects := [] } :=
        ⟨id, fun _ => not_mem_nil, rfl, fun _ => id, fun _ _ => rfl⟩
      exact .of_spares hflushed (spared_nextRerun hrest hes b)
    | rerun b rest =>
      cases hs
      exact spared_nextRerun hrest howes b
    | _ => cases hs

variable [DecidableEq V]

theorem spared_exec {R : Node → Prop} {P : ℕ → Prop} (hi : HeapInv G R P h) (hord : ord.Lawful) {e : ℕ}
    (hst : Clear (.effect e) st) {r : Option Node} (hr : r ≠ some (.effect e)) {S : Instr → Prop}
    (hS : ¬ S .dispose) {code : Code V} (hcode : code.Within S) (hcall : ∀ k, code ≠ .call e k)
    (hwrite : ∀ i v k, code = .write i v k → h.disposed (.source i) = false → v ≠ h.value i →
      .effect e ∉ h.parents (.source i)) : Spared (.effect e) h (stepExec ord h st r code) := by
  have hthen : ∀ k, Clear (.effect e) (Frame.andThen r k :: st) := fun k => hst.push hr id
  cases code with
  | done | doneWith c | raise => exact .quiet (.refl h) hst (by rintro ⟨⟩) (by rintro ⟨⟩)
  | read d k =>
    have hframe : Clear (.effect e) (Frame.inCode r d k :: st) := hst.push hr id
    cases r with
    | none => exact .quiet (.refl h) hframe (by rintro ⟨⟩) (by rintro ⟨⟩)
    | some n => exact .quiet (.subscribe h d fun heq => hr (heq ▸ rfl)) hframe (by rintro ⟨⟩) (by rintro ⟨⟩)
  | write i v k =>
    have hset : Spares (.effect e) h (h.setValue i v) := .of_eq rfl rfl rfl rfl rfl
    simp only [stepExec, setSource]
    split
    · exact .quiet (.refl h) (hthen k) (by rintro ⟨⟩) (by rintro ⟨⟩)
    · next hd =>
      split
      · exact .quiet hset (hthen k) (by rintro ⟨⟩) (by rintro ⟨⟩)
      · next hv =>
        split
        · exact .quiet (hset.trans (.of_eq rfl rfl rfl rfl rfl)) (hthen k) (by rintro ⟨⟩) (by rintro ⟨⟩)
        · exact .of_spares hset (spared_touch hord (hthen k) (hwrite i v k rfl (by simpa using hd) hv))
  | batch b k => exact .quiet (.of_eq rfl rfl rfl rfl rfl) ((hthen k).push id id) hr (by rintro ⟨⟩)
  | call j k =>
    refine .quiet (.refl h) (hthen k) (by rintro ⟨⟩) ?_
    rintro ⟨⟩
    exact hcall k rfl
  | eager i k =>
    simp only [stepExec]
    split
    · exact .quiet (.refl h) hst hr (by rintro ⟨⟩)
    · exact .quiet (.of_eq rfl rfl rfl rfl rfl) (hthen k) (by rintro ⟨⟩) (by rintro ⟨⟩)
  | lazy i k => exact spared_lazyComputed hi ord (hthen k) i
  | dispose d k => exact absurd hcode.1 hS
  | disposeEffect j k => exact absurd hcode.1 hS
  | attempt b k => exact .quiet (.refl h) (hst.push hr id) hr (by rintro ⟨⟩)

theorem spared_pulled (hord : ord.Lawful) (hst : Clear m st) (p : Node) (i : ℕ) (v : V)
    (hpull : (∀ old, h.handle i = some old → G.propagates i old v = true) → m ∉ h.parents (.computed i)) :
    Spared m h (pulled G ord h st p i v) := by
  have hrecord : Spares m h (h.record p (.memo i) v) := .of_eq rfl rfl rfl rfl rfl
  simp only [pulled]
  split
  · next hnone =>
    have hedge := hpull (by simp [hnone])
    exact .quiet (hrecord.trans (.setHandle _ v hedge)) hst (by rintro ⟨⟩) (by rintro ⟨⟩)
  · next old hold =>
    split
    · next hprop =>
      have hedge := hpull fun old' hold' => by
        obtain rfl := Option.some.inj (hold.symm.trans hold')
        exact hprop
      exact .of_spares (hrecord.trans (.setHandle _ v hedge)) (spared_touch hord hst hedge)
    · exact .quiet hrecord hst (by rintro ⟨⟩) (by rintro ⟨⟩)

end Cases

/-- A step that announces no change to the effect and does not call it spares it. -/
theorem spared_step [DecidableEq V] {G : Graph V} {S : Instr → Prop} (hS : ¬ S .dispose) {ord : Enum}
    (hord : ord.Lawful) {c c' : Config V} (hi : Inv G S c) {e : ℕ} {h₀ : Heap V} (hwork : .effect e ∉ h₀.work)
    (heffects : .effect e ∉ h₀.pendingEffects) (hc : Spared (.effect e) h₀ c)
    (hcall : ∀ r k, c.ctl ≠ .exec r (.call e k))
    (hedges : ∀ n, c.Announces G n → .effect e ∉ c.heap.parents n) (hs : step G ord c = some c') :
    Spared (.effect e) h₀ c' := by
  obtain ⟨h, t, st⟩ := c
  obtain ⟨hheap, hfits, -⟩ := hi
  obtain ⟨hspares, ⟨hruns, howes⟩, hst⟩ := hc
  change HeapInv G _ _ h at hheap
  change Clear _ st at hst
  refine .of_spares hspares ?_
  cases t with
  | exec r code =>
    cases hs
    refine spared_exec hheap hord hst hruns hS hfits.2.1 (fun k hk => hcall r k (hk ▸ rfl)) ?_
    rintro i v k rfl hd hv
    exact hedges _ (.source rfl hd hv)
  | get d =>
    cases hs
    exact spared_getRef G rfl rfl hst d
  | eval n t =>
    cases hs
    exact spared_eval hst (fun heq => hruns heq.symm) t
  | value v =>
    cases st with
    | nil => cases hs
    | cons f st =>
      obtain ⟨⟨hframe, -⟩, hrest⟩ := clear_cons.mp hst
      cases f with
      | inSlot n d k =>
        cases hs
        exact .quiet (.of_eq rfl rfl rfl rfl rfl) hrest hframe (by rintro ⟨⟩)
      | inCode r d k =>
        cases hs
        refine .quiet ?_ hrest hframe (by rintro ⟨⟩)
        cases r with
        | none => exact .refl h
        | some n => exact .of_eq rfl rfl rfl rfl rfl
      | pull p i =>
        cases hs
        exact spared_pulled hord hrest p i v fun hprop => hedges _ (.computed rfl rfl hprop)
      | _ => exact hfits.elim
  | call n =>
    cases hs
    exact spared_callEffect G rfl hst fun heq => howes heq.symm
  | loop =>
    cases st with
    | nil => cases hs
    | cons f st =>
      cases f with
      | drain =>
        simp only [step, stepLoop] at hs
        split at hs
        · cases hs
          exact .quiet (.of_eq rfl rfl rfl rfl rfl) (clear_cons.mp hst).2 (by rintro ⟨⟩) (by rintro ⟨⟩)
        · next n rest hpop =>
          cases hs
          have hpop' : h.work = n :: rest := hpop
          have hmem := hspares.work hwork
          change Node.effect e ∉ h.work at hmem
          rw [hpop'] at hmem
          obtain ⟨hne, hrest⟩ := not_or.mp (mem_cons.not.mp hmem)
          have hshrink : Spares (.effect e) h { h with work := rest } :=
            ⟨fun _ => hrest, id, rfl, fun _ => id, fun _ _ => rfl⟩
          exact .of_spares hshrink (spared_invalidate hord hst (Ne.symm hne) fun hslot =>
            hedges n (.slot rfl hpop' hslot))
      | _ => cases hs
  | dirty ns => exact hfits.elim
  | returned cl =>
    refine spared_returned hord rfl hst (hspares.effects heffects) (fun rest hrest n hn => ?_) hs
    exact hedges n (.cell rfl hrest hn)
  | raised => exact hfits.elim

end LazilyPy.Reactive

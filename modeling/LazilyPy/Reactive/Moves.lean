import LazilyPy.Reactive.Edges
import LazilyPy.Reactive.Session

/-!
# Calls, waves and edges

What one step of the machine may do to the calls in progress, to the nodes that a wave or a
disposal walk is to visit, to the cached values and to the edges.
-/

namespace LazilyPy.Reactive

open List Function

variable {V : Type}


def Frame.Runs : Frame V → Node → Prop
  | .effect e, m | .cleanup e, m => m = e ∧ e.isEffect = true
  | .inCode r _ _, m | .andThen r _, m | .attempt r _, m => r = some m
  | .inSlot n _ _, m => m = n
  | .pull p _, m => m = p
  | _, _ => False

def Ctl.Runs : Ctl V → Node → Prop
  | .exec r _, m => r = some m
  | .eval n _, m => m = n
  | _, _ => False

/-- A call of the node is in progress: its callable, its body or its cleanup. -/
def Config.InCall (c : Config V) (m : Node) : Prop :=
  c.ctl.Runs m ∨ ∃ f ∈ c.stack, f.Runs m

def Config.Waiting (c : Config V) (m : Node) : Prop :=
  m ∈ c.heap.work ∨ ∃ ns, c.ctl = .dirty ns ∧ m ∈ ns

def Config.Pops (c : Config V) (m : Node) : Prop :=
  (c.ctl = .loop ∧ c.heap.work.head? = some m) ∨ ∃ ns, c.ctl = .dirty ns ∧ ns.head? = some m

def Config.Disposes (c : Config V) (m : Node) : Prop :=
  match c.ctl with
  | .exec _ (.dispose (.source i) _) => m = .source i
  | .exec _ (.dispose (.slot i) _) => m = .slot i
  | .exec _ (.dispose (.computed i) _) | .exec _ (.lazy i _) =>
    ∃ k, m = .puller i k ∧ c.heap.puller i = some k
  | .exec _ (.disposeEffect e _) => m = .effect e
  | _ => False

/-- What may be in a call after a step from `h`: what is in `I`, and slots that start. Values
are stored for nodes in `I`, nodes in `D` are disposed, for good, and whoever is in `Q` still
waits. -/
structure Moves (I D Q : Node → Prop) (h : Heap V) (c' : Config V) : Prop where
  store : ∀ m, c'.heap.cache m = none ∨ c'.heap.cache m = h.cache m ∨ I m
  enter : ∀ m, c'.InCall m → I m ∨ c'.heap.disposed m = false ∧ c'.heap.deps m = []
  retire : ∀ m, m.isReader = true → c'.heap.disposed m = true → h.disposed m = true ∨
    D m ∧ c'.heap.deps m = [] ∧ (m.isSlot = true → c'.heap.cache m = none)
  remains : ∀ m, h.disposed m = true → c'.heap.disposed m = true
  waits : ∀ m, Q m → c'.Waiting m
  edges : EdgeSteps I c'.Waiting h c'.heap

/-- The stack belongs to calls in `I`. -/
def Held (I : Node → Prop) (st : List (Frame V)) : Prop :=
  ∀ f ∈ st, ∀ m, f.Runs m → I m

@[simp] theorem held_cons {I : Node → Prop} {f : Frame V} {st : List (Frame V)} :
    Held I (f :: st) ↔ (∀ m, f.Runs m → I m) ∧ Held I st :=
  forall_mem_cons

theorem Held.calls {I : Node → Prop} {c : Config V} (hst : Held I c.stack)
    (hctl : ∀ m, c.ctl.Runs m → I m) {m : Node} (hm : c.InCall m) : I m :=
  hm.elim (hctl m) fun ⟨f, hf, hrun⟩ => hst f hf m hrun

/-- The parts of the heap that `Moves` speaks of are the same. -/
structure Agrees (h h' : Heap V) : Prop where
  cache : h'.cache = h.cache
  parents : h'.parents = h.parents
  deps : h'.deps = h.deps
  disposed : h'.disposed = h.disposed
  work : h'.work = h.work

namespace Moves

variable {I D Q : Node → Prop} {h h₁ : Heap V} {c' : Config V}

/-- A step that changes nothing of it. -/
theorem keep (ha : Agrees h c'.heap) (hQ : ∀ m, Q m → m ∈ h.work) (hst : Held I c'.stack)
    (hctl : ∀ m, c'.ctl.Runs m → I m) : Moves I D Q h c' where
  store m := .inr (.inl (by rw [ha.cache]))
  enter m hm := .inl (hst.calls hctl hm)
  retire m _ hm := .inl (ha.disposed ▸ hm)
  remains m hm := ha.disposed.symm ▸ hm
  waits m hm := .inl (ha.work.symm ▸ hQ m hm)
  edges := .same ha.parents ha.deps

theorem of_agrees (hm : Moves I D Q h₁ c') (ha : Agrees h h₁) : Moves I D Q h c' where
  store := ha.cache ▸ hm.store
  enter := hm.enter
  retire := ha.disposed ▸ hm.retire
  remains := ha.disposed ▸ hm.remains
  waits := hm.waits
  edges := hm.edges.of_same ha.parents ha.deps

end Moves

section Cases

variable {I D Q : Node → Prop} {h : Heap V} {st : List (Frame V)}

theorem moves_callSlot (G : Graph V) (hst : Held I st) (hQ : ∀ m, Q m → m ∈ h.work) {n : Node}
    (hn : n.isSlot = true) : Moves I D Q h (callSlot G h st n) := by
  unfold callSlot
  split
  · exact .keep ⟨rfl, rfl, rfl, rfl, rfl⟩ hQ hst nofun
  · next hdisposed =>
    split
    · exact .keep ⟨rfl, rfl, rfl, rfl, rfl⟩ hQ hst nofun
    · exact {
        store := fun m => .inr (.inl rfl)
        enter := by
          rintro m (rfl | ⟨f, hf, hrun⟩)
          · exact .inr ⟨by simpa [Heap.startCompute] using hdisposed, by simp [Heap.startCompute]⟩
          · exact .inl (hst f hf m hrun)
        retire := fun m _ hm => .inl hm
        remains := fun _ hm => hm
        waits := fun m hm => .inl (hQ m hm)
        edges := .single (.forget n hn rfl rfl) }

variable {ord : Enum} {e : Node}

theorem moves_touch (hord : ord.Lawful) (hst : Held I st) (hQ : ∀ m, Q m → m ∈ h.work) (n : Node) :
    Moves I D Q h (touch ord h st n) := by
  have hpush : ∀ c' : Config V, c'.heap.cache = h.cache →
      c'.heap.parents = update h.parents n [] → c'.heap.deps = h.deps →
      c'.heap.disposed = h.disposed → c'.heap.work = ord (some n) (h.parents n) ++ h.work →
      Held I c'.stack → (∀ m, c'.ctl.Runs m → I m) → Moves I D Q h c' := by
    intro c' hcache hparents hdeps hdisposed hwork hst hctl
    exact {
      store := fun m => .inr (.inl (by rw [hcache]))
      enter := fun m hm => .inl (hst.calls hctl hm)
      retire := fun m _ hm => .inl (hdisposed ▸ hm)
      remains := fun _ hm => hdisposed.symm ▸ hm
      waits := fun m hm => .inl (hwork ▸ mem_append_right _ (hQ m hm))
      edges := by
        refine .single (.take n (fun _ m hm => .inl ?_) hparents hdeps)
        rw [hwork]
        exact mem_append_left _ ((hord _ _).mem_iff.mpr hm) }
  unfold touch
  split
  · exact .keep ⟨rfl, rfl, rfl, rfl, rfl⟩ hQ hst nofun
  · unfold drainResets
    split
    · exact hpush _ rfl rfl rfl rfl rfl hst nofun
    · exact hpush _ rfl rfl rfl rfl rfl (held_cons.mpr ⟨nofun, hst⟩) nofun

section

variable (G : Graph V) (hst : Held I st) (hQ : ∀ m, Q m → m ∈ h.work)

include hst hQ

theorem moves_getRef (d : Ref) :
    Moves I D Q h (getRef G h st d) := by
  cases d with
  | source i =>
    simp only [getRef]
    split <;> exact .keep ⟨rfl, rfl, rfl, rfl, rfl⟩ hQ hst nofun
  | slot i => exact moves_callSlot G hst hQ rfl
  | computed i =>
    have hslot : ∀ h₁ : Heap V, Agrees h h₁ →
        Moves I D Q h (callSlot G h₁ (.rearmSlot i :: st) (.memo i)) := fun h₁ ha =>
      (moves_callSlot G (held_cons.mpr ⟨nofun, hst⟩) (ha.work ▸ hQ) rfl).of_agrees ha
    simp only [getRef, getComputed]
    split
    · split
      · split
        · split
          · exact hslot _ ⟨rfl, rfl, rfl, rfl, rfl⟩
          · exact .keep ⟨rfl, rfl, rfl, rfl, rfl⟩ hQ (held_cons.mpr ⟨nofun, hst⟩) nofun
        · exact hslot _ ⟨rfl, rfl, rfl, rfl, rfl⟩
      · exact .keep ⟨rfl, rfl, rfl, rfl, rfl⟩ hQ hst nofun
    · exact moves_callSlot G hst hQ rfl

theorem moves_runBody (he : e.isEffect = true → I e) :
    Moves I D Q h (runBody G h st e) := by
  cases e with
  | effect i =>
    exact {
      store := fun m => .inr (.inl rfl)
      enter := by
        refine fun m hm => .inl (Held.calls (held_cons.mpr ⟨?_, hst⟩) ?_ hm)
        · rintro m ⟨rfl, he'⟩
          exact he he'
        · rintro m ⟨⟩
          exact he rfl
      retire := fun m _ hm => .inl hm
      remains := fun _ hm => hm
      waits := fun m hm => .inl (hQ m hm)
      edges := .single (.detach (.effect i) rfl rfl) }
  | puller i k =>
    have hslot : Moves I D Q ((h.startEffect (.puller i k)).registerEdge (.memo i) (.puller i k))
        (runBody G h st (.puller i k)) := by
      refine moves_callSlot G (n := .memo i) (h := (h.startEffect (.puller i k)).registerEdge (.memo i) (.puller i k))
        (held_cons.mpr ⟨?_, held_cons.mpr ⟨?_, hst⟩⟩) hQ rfl
      · rintro m rfl
        exact he rfl
      · rintro m ⟨rfl, he'⟩
        exact he he'
    exact {
      store := hslot.store
      enter := hslot.enter
      retire := hslot.retire
      remains := hslot.remains
      waits := hslot.waits
      edges := .head (b := h.startEffect (.puller i k)) (.detach (.puller i k) rfl rfl)
        (.head (.register (.memo i) (.puller i k) rfl (he rfl) rfl rfl) hslot.edges) }
  | _ => exact .keep ⟨rfl, rfl, rfl, rfl, rfl⟩ hQ hst nofun

theorem moves_callEffect (he : e.isEffect = true → h.disposed e = false → I e) :
    Moves I D Q h (callEffect G h st e) := by
  simp only [callEffect]
  split
  · exact .keep ⟨rfl, rfl, rfl, rfl, rfl⟩ hQ hst nofun
  · next hdisposed =>
    have hI : e.isEffect = true → I e := fun heff => he heff (by simpa using hdisposed)
    split
    · refine .keep ⟨rfl, rfl, rfl, rfl, rfl⟩ hQ (held_cons.mpr ⟨?_, hst⟩) nofun
      rintro m ⟨rfl, heff⟩
      exact hI heff
    · have hbody := moves_runBody (h := { h with started := update h.started e true })
        (D := D) G hst hQ hI
      exact hbody.of_agrees ⟨rfl, rfl, rfl, rfl, rfl⟩

end

theorem moves_finalCleanup (hst : Held I st) (hQ : ∀ m, Q m → m ∈ h.work) (e : Node) :
    Moves I D Q h (finalCleanup h st e) := by
  unfold finalCleanup
  split <;> exact .keep ⟨rfl, rfl, rfl, rfl, rfl⟩ hQ hst nofun

/-- A node that is retired leaves the dependents of everything it has recorded. -/
theorem moves_retire {n : Node} {c' : Config V} (hst : Held I c'.stack) (hctl : ∀ m, c'.ctl.Runs m → I m) (hD : D n)
    (hcache : c'.heap.cache = h.cache ∨ c'.heap.cache = (h.dropCache n).cache)
    (hslot : n.isSlot = true → c'.heap.cache n = none)
    (hparents : c'.heap.parents = ((h.retire n).clearParents n).parents)
    (hdeps : c'.heap.deps = (h.retire n).deps)
    (hdisposed : c'.heap.disposed = (h.retire n).disposed)
    (hwaits : ∀ m, Q m → c'.Waiting m)
    (htaken : n.isEffect = false → ∀ m ∈ (h.retire n).parents n, c'.Waiting m) :
    Moves I D Q h c' where
  store m := by
    rcases hcache with hcache | hcache
    · exact .inr (.inl (by rw [hcache]))
    · by_cases hm : m = n
      · subst hm
        exact .inl (by simp [hcache, Heap.dropCache])
      · exact .inr (.inl (by simp [hcache, Heap.dropCache, hm]))
  enter m hm := .inl (hst.calls hctl hm)
  retire m _ hm := by
    by_cases hmn : m = n
    · subst hmn
      refine .inr ⟨hD, ?_, hslot⟩
      simp [hdeps, Heap.retire, Heap.detachFromDependencies]
    · exact .inl (by simpa [hdisposed, Heap.retire, Heap.detachFromDependencies, hmn] using hm)
  remains m hm := by
    by_cases hmn : m = n
    · subst hmn
      simp [hdisposed, Heap.retire]
    · simpa [hdisposed, Heap.retire, Heap.detachFromDependencies, hmn] using hm
  waits := hwaits
  edges := .head (b := h.retire n) (.detach n rfl rfl) (.single (.take n htaken hparents hdeps))

theorem moves_disposeEffect (hst : Held I st) (hQ : ∀ m, Q m → m ∈ h.work) (he : e.isEffect = true) (hD : D e) :
    Moves I D Q h (disposeEffect ord h st e) := by
  have hslot : e.isSlot = false := by cases e <;> simp_all [Node.isSlot, Node.isEffect]
  have hclean : Moves I D Q h (finalCleanup ((h.retire e).clearParents e) st e) := by
    unfold finalCleanup
    split <;> exact moves_retire hst (by rintro _ ⟨⟩) hD (.inl rfl) (by simp [hslot]) rfl rfl rfl
      (fun m hm => .inl (hQ m hm)) (by simp [he])
  simp only [disposeEffect]
  split
  · exact .keep ⟨rfl, rfl, rfl, rfl, rfl⟩ hQ hst (by rintro _ ⟨⟩)
  · split
    · exact hclean
    · split
      · exact moves_retire (held_cons.mpr ⟨(by rintro _ ⟨⟩), hst⟩) (by rintro _ ⟨⟩) hD (.inl rfl) (by simp [hslot])
          rfl rfl rfl (fun m hm => .inl (hQ m hm)) (by simp [he])
      · exact hclean

theorem moves_lazyComputed (hst : Held I st) (hQ : ∀ m, Q m → m ∈ h.work) {i : ℕ}
    (hD : ∀ k, h.puller i = some k → D (.puller i k)) :
    Moves I D Q h (lazyComputed ord h st i) := by
  unfold lazyComputed
  split
  · split
    · next k hk =>
      have hdispose : Moves I D Q (h.dropPuller i) (disposeEffect ord (h.dropPuller i) st (.puller i k)) :=
        moves_disposeEffect (h := h.dropPuller i) hst hQ rfl (hD k hk)
      exact hdispose.of_agrees ⟨rfl, rfl, rfl, rfl, rfl⟩
    · exact .keep ⟨rfl, rfl, rfl, rfl, rfl⟩ hQ hst nofun
  · exact .keep ⟨rfl, rfl, rfl, rfl, rfl⟩ hQ hst nofun

theorem moves_dispose (hord : ord.Lawful) (hst : Held I st) (hQ : ∀ m, Q m → m ∈ h.work) {d : Ref}
    (hsource : ∀ i, d = .source i → D (.source i)) (hslot : ∀ i, d = .slot i → D (.slot i))
    (hcomputed : ∀ i k, d = .computed i → h.puller i = some k → D (.puller i k)) :
    Moves I D Q h (dispose ord h st d) := by
  cases d with
  | source i =>
    simp only [dispose]
    split
    · exact .keep ⟨rfl, rfl, rfl, rfl, rfl⟩ hQ hst nofun
    · exact {
        store := fun m => .inr (.inl rfl)
        enter := fun m hm => .inl (hst.calls nofun hm)
        retire := by
          intro m hreader hm
          have hne : m ≠ .source i := by
            rintro rfl
            cases hreader
          exact .inl (by simpa [Heap.clearParents, hne] using hm)
        remains := by
          intro m hm
          by_cases hm' : m = .source i
          · subst hm'
            simp [Heap.clearParents]
          · simpa [Heap.clearParents, hm'] using hm
        waits := fun m hm => .inl (hQ m hm)
        edges := .single (.take (.source i)
          (fun _ m hm => .inr ⟨_, rfl, (hord _ _).mem_iff.mpr hm⟩) rfl rfl) }
  | slot i =>
    simp only [dispose]
    split
    · exact .keep ⟨rfl, rfl, rfl, rfl, rfl⟩ hQ hst nofun
    · exact moves_retire hst nofun (hslot i rfl) (.inr rfl)
        (fun _ => by simp [Heap.dropCache, Heap.retire, Heap.detachFromDependencies,
          Heap.clearParents]) rfl rfl rfl (fun m hm => .inl (hQ m hm))
        (fun _ m hm => .inr ⟨_, rfl, (hord _ _).mem_iff.mpr hm⟩)
  | computed i => exact moves_lazyComputed hst hQ (hcomputed i · rfl)

theorem moves_endBatch (hord : ord.Lawful) (hst : Held I st) (hQ : ∀ m, Q m → m ∈ h.work) (b : Bool) :
    Moves I D Q h (endBatch ord h st b) := by
  unfold endBatch
  split
  · have htouch := Heap.touchAll_eq ord (ord none h.pendingCells) { h with pendingCells := [] }
    have hcache := congrArg Heap.cache htouch
    have hdisposed := congrArg Heap.disposed htouch
    refine ⟨fun m => .inr (.inl (congrFun hcache m)), fun m hm => .inl (Held.calls ?_ nofun hm),
      fun m _ hm => .inl ((congrFun hdisposed m).symm.trans hm),
      fun m hm => (congrFun hdisposed m).trans hm, fun m hm => .inl ?_, ?_⟩
    · exact held_cons.mpr ⟨nofun, held_cons.mpr ⟨nofun, hst⟩⟩
    · exact (Heap.mem_work_touchAll hord).mpr (.inl (hQ m hm))
    · have hcells : EdgeSteps I (· ∈ (h.flushTouch ord).work) h
          (({ h with pendingCells := [] } : Heap V).touchAll ord (ord none h.pendingCells)) :=
        .of_same (.touchAll hord fun m hm => hm) rfl rfl
      exact (EdgeSteps.mono hcells fun m hm => .inl hm).tail (.same rfl rfl)
  · cases b <;> exact .keep ⟨rfl, rfl, rfl, rfl, rfl⟩ hQ hst nofun

theorem moves_nextRerun (hst : Held I st) (hQ : ∀ m, Q m → m ∈ h.work) (b : Bool)
    (es : List Node) : Moves I D Q h (nextRerun h st b es) := by
  unfold nextRerun
  split
  · cases b <;> exact .keep ⟨rfl, rfl, rfl, rfl, rfl⟩ hQ hst nofun
  · split
    · exact .keep ⟨rfl, rfl, rfl, rfl, rfl⟩ hQ (held_cons.mpr ⟨nofun, hst⟩) nofun
    · split <;> exact .keep ⟨rfl, rfl, rfl, rfl, rfl⟩ hQ (held_cons.mpr ⟨nofun, hst⟩) nofun

section

variable (hord : ord.Lawful) (hst : Held I st)

include hord hst

theorem moves_invalidate (hQ : ∀ m, Q m → m ∈ h.work) (n : Node) : Moves I D Q h (invalidate ord h st n) ∧
      (n.isSlot = true → h.disposed n = false → (invalidate ord h st n).heap.cache n = none) := by
  have hslot : Moves I D Q h ⟨h.invalidateSlot ord n, .loop, st⟩ := {
    store := by
      intro m
      by_cases hm : m = n
      · subst hm
        exact .inl (by simp [Heap.invalidateSlot, Heap.pushParents, Heap.dropCache])
      · exact .inr (.inl (by simp [Heap.invalidateSlot, Heap.pushParents, Heap.dropCache, hm]))
    enter := fun m hm => .inl (hst.calls (by rintro _ ⟨⟩) hm)
    retire := fun m _ hm => .inl hm
    remains := fun _ hm => hm
    waits := fun m hm => .inl (mem_append_right _ (hQ m hm))
    edges := .single (.take n
      (fun _ m hm => .inl (mem_append_left _ ((hord _ _).mem_iff.mpr hm))) rfl rfl) }
  have heffect : ∀ c' : Config V, n.isEffect = true → c'.heap.cache = h.cache →
      c'.heap.parents = update h.parents n [] → c'.heap.deps = h.deps →
      c'.heap.disposed = h.disposed → c'.heap.work = h.work → Held I c'.stack →
      (∀ m, c'.ctl.Runs m → I m) → Moves I D Q h c' := by
    intro c' hn hcache hparents hdeps hdisposed hwork hst hctl
    exact {
      store := fun m => .inr (.inl (by rw [hcache]))
      enter := fun m hm => .inl (hst.calls hctl hm)
      retire := fun m _ hm => .inl (hdisposed ▸ hm)
      remains := fun _ hm => hdisposed.symm ▸ hm
      waits := fun m hm => .inl (hwork.symm ▸ hQ m hm)
      edges := .single (.take n (by simp [hn]) hparents hdeps) }
  have hkeep : Moves I D Q h ⟨h, .loop, st⟩ := .keep ⟨rfl, rfl, rfl, rfl, rfl⟩ hQ hst (by rintro _ ⟨⟩)
  cases n with
  | slot i | memo i =>
    simp only [invalidate]
    split
    · next hd => exact ⟨hkeep, fun _ hd' => by simp [hd'] at hd⟩
    · exact ⟨hslot, fun _ _ => by
        simp [Heap.invalidateSlot, Heap.pushParents, Heap.dropCache]⟩
  | effect i | puller i k =>
    refine ⟨?_, (by rintro ⟨⟩)⟩
    simp only [invalidate]
    split
    · exact hkeep
    · split
      · exact heffect _ rfl rfl rfl rfl rfl rfl hst (by rintro _ ⟨⟩)
      · split <;> exact heffect _ rfl rfl rfl rfl rfl rfl hst (by rintro _ ⟨⟩)
  | source i | computed i => exact ⟨hkeep, (by rintro ⟨⟩)⟩

theorem moves_stepDirty (n : Node) (rest : List Node) (hQ : ∀ m, Q m → m ∈ h.work ∨ m ∈ rest)
    (hI : ∀ i k, n = .puller i k → h.disposed n = false → I n) :
    Moves I D Q h (stepDirty ord h st (n :: rest)) ∧ (n.isSlot = true → h.disposed n = false →
        (stepDirty ord h st (n :: rest)).heap.cache n = none) := by
  simp only [stepDirty]
  split
  · next hd =>
    refine ⟨?_, fun _ hd' => by simp [hd'] at hd⟩
    exact {
      store := fun m => .inr (.inl rfl)
      enter := fun m hm => .inl (hst.calls (by rintro _ ⟨⟩) hm)
      retire := fun m _ hm => .inl hm
      remains := fun _ hm => hm
      waits := fun m hm => (hQ m hm).imp id fun hrest => ⟨rest, rfl, hrest⟩
      edges := .refl }
  · next hd =>
    have hdrop : ((h.clearParents n).dropCached n).cache n = none ∨ n.isSlot = false := by
      cases n <;> simp [Heap.dropCached, Heap.dropCache, Node.isSlot]
    refine ⟨?_, fun hn _ => hdrop.resolve_right (by simp [hn])⟩
    refine ⟨fun m => ?_, fun m hm => .inl (hst.calls (by rintro _ ⟨⟩) hm), fun m _ hm => .inl ?_, fun m hm => ?_, fun m hm => ?_,
      .head (b := h.clearParents n) (.take n (fun _ m hm => ?_) rfl rfl) ?_⟩
    · cases n with
      | slot i | memo i =>
        simp only [Heap.dropCached, Heap.dropCache, Heap.clearParents, update_apply]
        split
        · exact .inl rfl
        · exact .inr (.inl rfl)
      | _ => exact .inr (.inl rfl)
    · cases n <;> exact hm
    · cases n <;> exact hm
    · have hwork : ((h.clearParents n).dropCached n).work = h.work := by cases n <;> rfl
      rcases hQ m hm with hm | hm
      · exact .inl (hwork.symm ▸ hm)
      · exact .inr ⟨_, rfl, mem_append_right _ hm⟩
    · exact .inr ⟨_, rfl, mem_append_left _ ((hord _ _).mem_iff.mpr hm)⟩
    · cases n with
      | puller i k =>
        exact .single (.register (.memo i) (.puller i k) rfl (hI i k rfl (by simpa using hd)) rfl rfl)
      | _ => exact EdgeSteps.same rfl rfl

theorem moves_returned {G : Graph V} (hQ : ∀ m, Q m → m ∈ h.work) {cl : Option (Code V)} {c' : Config V}
    (hs : stepReturned G ord h cl st = some c') : Moves I D Q h c' := by
  cases st with
  | nil => cases hs
  | cons f st =>
    obtain ⟨hf, hrest⟩ := held_cons.mp hst
    cases f with
    | andThen r c =>
      cases hs
      exact .keep ⟨rfl, rfl, rfl, rfl, rfl⟩ hQ hrest hf
    | attempt r c =>
      cases hs
      exact .keep ⟨rfl, rfl, rfl, rfl, rfl⟩ hQ hrest hf
    | rearmed i =>
      cases hs
      exact .keep ⟨rfl, rfl, rfl, rfl, rfl⟩ hQ hrest nofun
    | drain =>
      cases hs
      exact .keep ⟨rfl, rfl, rfl, rfl, rfl⟩ hQ hst nofun
    | effect e =>
      cases hs
      exact .keep ⟨rfl, rfl, rfl, rfl, rfl⟩ hQ hrest nofun
    | cleanup e =>
      cases hs
      exact moves_runBody G hrest hQ fun he => hf e ⟨rfl, he⟩
    | disposing e =>
      cases hs
      exact moves_finalCleanup hrest hQ e
    | batch =>
      cases hs
      exact moves_endBatch hord hrest hQ false
    | flushed b =>
      cases hs
      exact .of_agrees (moves_nextRerun (h := { h with pendingEffects := [] }) hrest hQ b _)
        ⟨rfl, rfl, rfl, rfl, rfl⟩
    | rerun b rest =>
      cases hs
      exact moves_nextRerun hrest hQ b rest
    | _ => cases hs

theorem moves_raised (hQ : ∀ m, Q m → m ∈ h.work) {c' : Config V} (hs : stepRaised ord h st = some c') :
    Moves I D Q h c' := by
  cases st with
  | nil => cases hs
  | cons f st =>
    obtain ⟨hf, hrest⟩ := held_cons.mp hst
    cases f with
    | batch =>
      cases hs
      exact moves_endBatch hord hrest hQ true
    | attempt r c =>
      cases hs
      exact .keep ⟨rfl, rfl, rfl, rfl, rfl⟩ hQ hrest hf
    | _ =>
      cases hs
      exact .keep ⟨rfl, rfl, rfl, rfl, rfl⟩ hQ hrest nofun

end

variable [DecidableEq V]

theorem moves_exec (hord : ord.Lawful) (hst : Held I st) (hQ : ∀ m, Q m → m ∈ h.work) {r : Option Node}
    (hr : ∀ m, r = some m → I m) {code : Code V} (hD : ∀ m, (⟨h, .exec r code, st⟩ : Config V).Disposes m → D m) :
    Moves I D Q h (stepExec ord h st r code) := by
  have hthen : ∀ k, Held I (Frame.andThen r k :: st) := fun k => held_cons.mpr ⟨hr, hst⟩
  cases code with
  | done => exact .keep ⟨rfl, rfl, rfl, rfl, rfl⟩ hQ hst nofun
  | doneWith c => exact .keep ⟨rfl, rfl, rfl, rfl, rfl⟩ hQ hst nofun
  | raise => exact .keep ⟨rfl, rfl, rfl, rfl, rfl⟩ hQ hst nofun
  | read d k =>
    have hcode : Held I (Frame.inCode r d k :: st) := held_cons.mpr ⟨hr, hst⟩
    cases r with
    | none => exact .keep ⟨rfl, rfl, rfl, rfl, rfl⟩ hQ hcode nofun
    | some e =>
      have heq := Heap.subscribe_eq d e h
      exact {
        store := fun m => .inr (.inl (congrFun (congrArg Heap.cache heq) m))
        enter := fun m hm => .inl (hcode.calls nofun hm)
        retire := fun m _ hm => .inl ((congrFun (congrArg Heap.disposed heq) m).symm.trans hm)
        remains := fun m hm => (congrFun (congrArg Heap.disposed heq) m).trans hm
        waits := fun m hm => .inl ((congrArg Heap.work heq).symm ▸ hQ m hm)
        edges := .subscribe h d (hr e rfl) }
  | write i v k =>
    simp only [stepExec, setSource]
    split
    · exact .keep ⟨rfl, rfl, rfl, rfl, rfl⟩ hQ (hthen k) nofun
    · split
      · exact .keep ⟨rfl, rfl, rfl, rfl, rfl⟩ hQ (hthen k) nofun
      · split
        · exact .keep ⟨rfl, rfl, rfl, rfl, rfl⟩ hQ (hthen k) nofun
        · exact .of_agrees (moves_touch (h := h.setValue i v) hord (hthen k) hQ _) ⟨rfl, rfl, rfl, rfl, rfl⟩
  | batch b k =>
    exact .keep ⟨rfl, rfl, rfl, rfl, rfl⟩ hQ (held_cons.mpr ⟨nofun, hthen k⟩) hr
  | call e k => exact .keep ⟨rfl, rfl, rfl, rfl, rfl⟩ hQ (hthen k) nofun
  | eager i k =>
    simp only [stepExec]
    split
    · exact .keep ⟨rfl, rfl, rfl, rfl, rfl⟩ hQ hst hr
    · exact .keep ⟨rfl, rfl, rfl, rfl, rfl⟩ hQ (hthen k) nofun
  | lazy i k => exact moves_lazyComputed (hthen k) hQ fun k' hk' => hD _ ⟨k', rfl, hk'⟩
  | dispose d k =>
    refine moves_dispose hord (hthen k) hQ ?_ ?_ ?_
    · rintro i rfl
      exact hD _ rfl
    · rintro i rfl
      exact hD _ rfl
    · rintro i k' rfl hk'
      exact hD _ ⟨k', rfl, hk'⟩
  | disposeEffect e k => exact moves_disposeEffect (hthen k) hQ rfl (hD _ rfl)
  | attempt b k => exact .keep ⟨rfl, rfl, rfl, rfl, rfl⟩ hQ (held_cons.mpr ⟨hr, hst⟩) hr

theorem moves_value {G : Graph V} (hord : ord.Lawful) (hst : Held I st) (hQ : ∀ m, Q m → m ∈ h.work) {v : V}
    {c' : Config V} (hs : stepValue G ord h v st = some c') : Moves I D Q h c' := by
  cases st with
  | nil => cases hs
  | cons f st =>
    obtain ⟨hf, hrest⟩ := held_cons.mp hst
    cases f with
    | inSlot n d k =>
      cases hs
      exact .keep ⟨rfl, rfl, rfl, rfl, rfl⟩ hQ hrest hf
    | inCode r d k =>
      cases hs
      cases r <;> exact .keep ⟨rfl, rfl, rfl, rfl, rfl⟩ hQ hrest hf
    | pull p i =>
      cases hs
      simp only [pulled]
      split
      · exact .keep ⟨rfl, rfl, rfl, rfl, rfl⟩ hQ hrest nofun
      · split
        · have htouch := moves_touch (h := (h.record p (.memo i) v).setHandle i v) (D := D) hord hrest hQ (.computed i)
          exact htouch.of_agrees ⟨rfl, rfl, rfl, rfl, rfl⟩
        · exact .keep ⟨rfl, rfl, rfl, rfl, rfl⟩ hQ hrest nofun
    | rearmSlot i =>
      cases hs
      exact .keep ⟨rfl, rfl, rfl, rfl, rfl⟩ hQ hrest nofun
    | _ => cases hs

end Cases

def Config.Mobile (c : Config V) (m : Node) : Prop :=
  c.InCall m ∨ m.isEffect = true ∧ c.heap.disposed m = false ∧ ¬ c.Disposes m

/-- What a step does: `Moves`, and a live slot that a wave or a walk visits holds no value
afterwards. -/
structure StepMoves (c c' : Config V) : Prop where
  moves : Moves c.Mobile c.Disposes (fun m => c.Waiting m ∧ ¬ c.Pops m) c.heap c'
  popped : ∀ m, c.Pops m → m.isSlot = true → c.heap.disposed m = false → c'.heap.cache m = none

theorem moves_step [DecidableEq V] {G : Graph V} {ord : Enum} (hord : ord.Lawful)
    {c c' : Config V} (hs : step G ord c = some c') : StepMoves c c' := by
  obtain ⟨h, t, st⟩ := c
  have hst : Held (Config.Mobile ⟨h, t, st⟩) st := fun f hf m hrun => .inl (.inr ⟨f, hf, hrun⟩)
  -- apart from the loops, whoever waits is on the work-stack and stays there
  have hplain : (∀ ns, t ≠ .dirty ns) → t ≠ .loop →
      (∀ m, (⟨h, t, st⟩ : Config V).Waiting m ∧ ¬ (⟨h, t, st⟩ : Config V).Pops m → m ∈ h.work) ∧
        ∀ m, ¬ (⟨h, t, st⟩ : Config V).Pops m := by
    intro hdirty hloop
    refine ⟨?_, ?_⟩
    · rintro m ⟨hm | ⟨ns, hns, _⟩, _⟩
      · exact hm
      · exact absurd hns (hdirty ns)
    · rintro m (⟨hl, _⟩ | ⟨ns, hns, _⟩)
      · exact hloop hl
      · exact hdirty ns hns
  cases t with
  | loop =>
    cases st with
    | nil => cases hs
    | cons f st =>
      cases f with
      | drain =>
        simp only [step, stepLoop] at hs
        split at hs
        · next hwork =>
          cases hs
          refine ⟨.keep ⟨rfl, rfl, rfl, rfl, rfl⟩ ?_ (held_cons.mp hst).2 nofun, ?_⟩
          · rintro m ⟨hm | ⟨ns, hns, _⟩, _⟩
            · exact hm
            · cases hns
          · rintro m (⟨_, hm⟩ | ⟨ns, hns, _⟩)
            · simp [hwork] at hm
            · cases hns
        · next n rest hwork =>
          cases hs
          have hmoves := moves_invalidate (h := { h with work := rest })
            (D := Config.Disposes ⟨h, .loop, .drain :: st⟩)
            (Q := fun m => (⟨h, .loop, .drain :: st⟩ : Config V).Waiting m ∧
              ¬ (⟨h, .loop, .drain :: st⟩ : Config V).Pops m) hord hst ?_ n
          · refine ⟨⟨hmoves.1.store, hmoves.1.enter, hmoves.1.retire, hmoves.1.remains,
              hmoves.1.waits, hmoves.1.edges.of_same rfl rfl⟩, ?_⟩
            rintro m (⟨_, hm⟩ | ⟨ns, hns, _⟩)
            · obtain rfl : n = m := by simpa [hwork] using hm
              exact hmoves.2
            · cases hns
          · rintro m ⟨hm | ⟨ns, hns, _⟩, hpop⟩
            · have hm' : m = n ∨ m ∈ rest := by simpa [hwork] using hm
              refine hm'.resolve_left ?_
              rintro rfl
              exact hpop (.inl ⟨rfl, by simp [hwork]⟩)
            · cases hns
      | _ => cases hs
  | dirty ns =>
    cases hs
    cases ns with
    | nil =>
      refine ⟨.keep ⟨rfl, rfl, rfl, rfl, rfl⟩ ?_ hst nofun, ?_⟩
      · rintro m ⟨hm | ⟨ns, hns, hm⟩, _⟩
        · exact hm
        · cases hns
          cases hm
      · rintro m (⟨hl, _⟩ | ⟨ns, hns, hm⟩)
        · cases hl
        · cases hns
          cases hm
    | cons n rest =>
      have hmoves := moves_stepDirty (h := h) (D := Config.Disposes ⟨h, .dirty (n :: rest), st⟩)
        (Q := fun m => (⟨h, .dirty (n :: rest), st⟩ : Config V).Waiting m ∧
          ¬ (⟨h, .dirty (n :: rest), st⟩ : Config V).Pops m) hord hst n rest ?_ ?_
      · refine ⟨hmoves.1, ?_⟩
        rintro m (⟨hl, _⟩ | ⟨ns, hns, hm⟩)
        · cases hl
        · cases hns
          obtain rfl : n = m := by simpa using hm
          exact hmoves.2
      · rintro m ⟨hm | ⟨ns, hns, hm⟩, hpop⟩
        · exact .inl hm
        · cases hns
          refine .inr ((mem_cons.mp hm).resolve_left ?_)
          rintro rfl
          exact hpop (.inr ⟨_, rfl, rfl⟩)
      · rintro i k rfl hd
        exact .inr ⟨rfl, hd, nofun⟩
  | exec r code =>
    cases hs
    obtain ⟨hQ, hpop⟩ := hplain nofun nofun
    exact ⟨moves_exec hord hst hQ (fun m hm => .inl (.inl hm)) fun _ hm => hm, fun m hm => absurd hm (hpop m)⟩
  | get d =>
    cases hs
    obtain ⟨hQ, hpop⟩ := hplain nofun nofun
    exact ⟨moves_getRef G hst hQ d, fun m hm => absurd hm (hpop m)⟩
  | eval n t =>
    cases hs
    obtain ⟨hQ, hpop⟩ := hplain nofun nofun
    refine ⟨?_, fun m hm => absurd hm (hpop m)⟩
    have hn : Config.Mobile ⟨h, .eval n t, st⟩ n := .inl (.inl rfl)
    cases t with
    | ret v =>
      refine ⟨fun m => ?_, fun m hm => .inl (hst.calls nofun hm), fun m _ hm => .inl hm,
        fun m hm => hm, fun m hm => .inl (hQ m hm), .same rfl rfl⟩
      by_cases hm : m = n
      · subst hm
        exact .inr (.inr hn)
      · exact .inr (.inl (by simp [stepEval, Heap.setCache, hm]))
    | raise => exact .keep ⟨rfl, rfl, rfl, rfl, rfl⟩ hQ hst nofun
    | read d k =>
      have heq := Heap.subscribe_eq d n h
      have hslot : Held (Config.Mobile ⟨h, .eval n (.read d k), st⟩) (.inSlot n d k :: st) := by
        refine held_cons.mpr ⟨?_, hst⟩
        rintro m rfl
        exact hn
      exact {
        store := fun m => .inr (.inl (congrFun (congrArg Heap.cache heq) m))
        enter := fun m hm => .inl (hslot.calls nofun hm)
        retire := fun m _ hm => .inl ((congrFun (congrArg Heap.disposed heq) m).symm.trans hm)
        remains := fun m hm => (congrFun (congrArg Heap.disposed heq) m).trans hm
        waits := fun m hm => .inl ((congrArg Heap.work heq).symm ▸ hQ m hm)
        edges := .subscribe h d hn }
  | value v =>
    obtain ⟨hQ, hpop⟩ := hplain nofun nofun
    exact ⟨moves_value hord hst hQ hs, fun m hm => absurd hm (hpop m)⟩
  | call e =>
    cases hs
    obtain ⟨hQ, hpop⟩ := hplain nofun nofun
    exact ⟨moves_callEffect G hst hQ fun he hd => .inr ⟨he, hd, nofun⟩, fun m hm => absurd hm (hpop m)⟩
  | returned cl =>
    obtain ⟨hQ, hpop⟩ := hplain nofun nofun
    exact ⟨moves_returned hord hst hQ hs, fun m hm => absurd hm (hpop m)⟩
  | raised =>
    obtain ⟨hQ, hpop⟩ := hplain nofun nofun
    exact ⟨moves_raised hord hst hQ hs, fun m hm => absurd hm (hpop m)⟩

end LazilyPy.Reactive

import Mathlib.Logic.Relation
import LazilyPy.Reactive.Heap

/-!
# Edges

`_parents` holds the dependents of a node and `_deps` what a node has read. Reads write the
two together; a wave or a disposal walk takes the dependents of the nodes it passes, and
what those have recorded stays until they run again.
-/

namespace LazilyPy.Reactive

open List
open Heap (detachFromDependencies registerEdge)

variable {V : Type}

def Node.isReader (n : Node) : Bool :=
  n.isSlot || n.isEffect

/-- One change to the edges. Only nodes in `R` subscribe, and whoever loses an edge to a node
that is not an effect is in `W` afterwards. -/
inductive EdgeStep (R W : Node → Prop) (h h' : Heap V) : Prop
  | same : h'.parents = h.parents → h'.deps = h.deps → EdgeStep R W h h'
  | register (d r : Node) : d.isEffect = false → R r →
    h'.parents = (h.registerEdge d r).parents → h'.deps = (h.registerEdge d r).deps →
    EdgeStep R W h h'
  | detach (n : Node) : h'.parents = (h.detachFromDependencies n).parents →
    h'.deps = (h.detachFromDependencies n).deps → EdgeStep R W h h'
  | take (n : Node) : (n.isEffect = false → ∀ m ∈ h.parents n, W m) →
    h'.parents = Function.update h.parents n [] → h'.deps = h.deps → EdgeStep R W h h'
  | forget (n : Node) : n.isSlot = true → h'.parents = h.parents →
    h'.deps = Function.update h.deps n [] → EdgeStep R W h h'

def EdgeSteps (R W : Node → Prop) : Heap V → Heap V → Prop :=
  Relation.ReflTransGen (EdgeStep R W)

namespace EdgeSteps

variable {R W : Node → Prop} {h h' h'' : Heap V}

theorem same (hp : h'.parents = h.parents) (hd : h'.deps = h.deps) : EdgeSteps R W h h' :=
  .single (.same hp hd)

/-- Steps from a heap with the same edges. -/
theorem of_same (hs : EdgeSteps R W h' h'') (hp : h'.parents = h.parents)
    (hd : h'.deps = h.deps) : EdgeSteps R W h h'' :=
  .head (.same hp hd) hs

theorem subscribe (h : Heap V) (d : Ref) {r : Node} (hr : R r) : EdgeSteps R W h (h.subscribe d r) := by
  cases d with
  | source i => exact .single (.register (.source i) r rfl hr rfl rfl)
  | slot i => exact .single (.register (.slot i) r rfl hr rfl rfl)
  | computed i =>
    simp only [Heap.subscribe]
    split
    · exact .single (.register (.computed i) r rfl hr rfl rfl)
    · exact .tail (.single (.register (.computed i) r rfl hr rfl rfl)) (.register (.memo i) r rfl hr rfl rfl)

theorem mono {W' : Node → Prop} (hs : EdgeSteps R W h h') (hW : ∀ m, W m → W' m) : EdgeSteps R W' h h' := by
  refine Relation.ReflTransGen.mono (fun h₁ h₂ hstep => ?_) _ _ hs
  cases hstep with
  | same hp hd => exact .same hp hd
  | register d r hd hr hp hdeps => exact .register d r hd hr hp hdeps
  | detach n hp hd => exact .detach n hp hd
  | take n htaken hp hd => exact .take n (fun hn m hm => hW m (htaken hn m hm)) hp hd
  | forget n hn hp hd => exact .forget n hn hp hd

/-- Touching cells takes their dependents onto the work-stack. -/
theorem touchAll {ord : Enum} (hord : ord.Lawful) {cells : List Node} {h : Heap V}
    (hW : ∀ m ∈ (h.touchAll ord cells).work, W m) :
    EdgeSteps R W h (h.touchAll ord cells) := by
  induction cells generalizing h with
  | nil => exact .refl
  | cons n ns ih =>
    by_cases hd : h.disposed n = true
    · have hrest : h.touchAll ord (n :: ns) = h.touchAll ord ns := by simp [Heap.touchAll, hd]
      rw [hrest] at hW ⊢
      exact ih hW
    · have hrest : h.touchAll ord (n :: ns) = (h.pushParents ord n).touchAll ord ns := by
        simp [Heap.touchAll, hd]
      rw [hrest] at hW ⊢
      have htake : EdgeStep R W h (h.pushParents ord n) := by
        refine .take n (fun _ m hm => hW m ?_) rfl rfl
        have hmem : m ∈ (h.pushParents ord n).work := mem_append_left _ ((hord _ _).mem_iff.mpr hm)
        exact (Heap.mem_work_touchAll hord).mpr (.inl hmem)
      exact .head htake (ih hW)

end EdgeSteps

/-! ## Edges and the nodes they join -/

/-- Every effect among the dependents of a node has recorded the node. -/
def Backed (h : Heap V) : Prop :=
  ∀ e n, e.isEffect = true → e ∈ h.parents n → n ∈ h.deps e

def Unread (h : Heap V) : Prop :=
  ∀ m n, n ∈ h.deps m → n.isEffect = false

/-- The node is among the dependents of everything it has recorded. -/
def Heap.Subscribes (h : Heap V) (m : Node) : Prop :=
  ∀ n ∈ h.deps m, m ∈ h.parents n

section Kept

variable {R W : Node → Prop} {h h' : Heap V}

theorem EdgeStep.backed (hs : EdgeStep R W h h') (hb : Backed h) : Backed h' := by
  intro e n he hmem
  cases hs with
  | same hp hd =>
    rw [hd]
    exact hb e n he (hp ▸ hmem)
  | register d r _ _ hp hd =>
    rw [hp] at hmem
    rw [hd]
    by_cases hn : n = d
    · subst hn
      have hcases : e = r ∨ e ∈ h.parents n := by simpa [registerEdge] using hmem
      by_cases her : e = r
      · subst her
        simp [registerEdge]
      · simpa [registerEdge, her] using hb e n he (hcases.resolve_left her)
    · have hold := hb e n he (by simpa [registerEdge, hn] using hmem)
      by_cases her : e = r
      · subst her
        simp [registerEdge, hold]
      · simpa [registerEdge, her] using hold
  | detach m hp hd =>
    rw [hp] at hmem
    rw [hd]
    have hold : e ∈ h.parents n := by
      simp only [detachFromDependencies] at hmem
      split at hmem
      · exact mem_of_mem_filter hmem
      · exact hmem
    by_cases hem : e = m
    · subst hem
      simp [detachFromDependencies, hb e n he hold] at hmem
    · simpa [detachFromDependencies, hem] using hb e n he hold
  | take m _ hp hd =>
    rw [hd]
    refine hb e n he ?_
    rw [hp] at hmem
    by_cases hn : n = m
    · subst hn
      simp at hmem
    · simpa [hn] using hmem
  | forget m hm hp hd =>
    rw [hd]
    have hem : e ≠ m := by
      rintro rfl
      cases e <;> simp_all [Node.isSlot, Node.isEffect]
    simpa [hem] using hb e n he (hp ▸ hmem)

theorem EdgeStep.unread (hs : EdgeStep R W h h') (hu : Unread h) : Unread h' := by
  intro m n hmem
  cases hs with
  | same _ hd => exact hu m n (hd ▸ hmem)
  | register d r hd _ _ hdeps =>
    rw [hdeps] at hmem
    by_cases hm : m = r
    · subst hm
      have hcases : n = d ∨ n ∈ h.deps m := by simpa [registerEdge] using hmem
      rcases hcases with rfl | hold
      · exact hd
      · exact hu m n hold
    · exact hu m n (by simpa [registerEdge, hm] using hmem)
  | detach a _ hd =>
    rw [hd] at hmem
    by_cases hm : m = a
    · subst hm
      simp [detachFromDependencies] at hmem
    · exact hu m n (by simpa [detachFromDependencies, hm] using hmem)
  | take _ _ _ hd => exact hu m n (hd ▸ hmem)
  | forget a _ _ hd =>
    rw [hd] at hmem
    by_cases hm : m = a
    · subst hm
      simp at hmem
    · exact hu m n (by simpa [hm] using hmem)

variable {m : Node}

/-- A node outside `R` records nothing new. -/
theorem EdgeStep.deps_subset (hs : EdgeStep R W h h') (hm : ¬ R m) : h'.deps m ⊆ h.deps m := by
  intro n hn
  cases hs with
  | same _ hd | take _ _ _ hd => exact hd ▸ hn
  | register d r _ hr _ hd =>
    have hne : m ≠ r := fun heq => hm (heq ▸ hr)
    simpa [hd, registerEdge, hne] using hn
  | detach a _ hd =>
    by_cases ha : m = a
    · subst ha
      simp [hd, detachFromDependencies] at hn
    · simpa [hd, detachFromDependencies, ha] using hn
  | forget a _ _ hd =>
    by_cases ha : m = a
    · subst ha
      simp [hd] at hn
    · simpa [hd, ha] using hn

/-- A node outside `R` is added to no dependents. -/
theorem EdgeStep.not_mem_parents (hs : EdgeStep R W h h') {n : Node} (hm : ¬ R m) (hmem : m ∉ h.parents n) :
    m ∉ h'.parents n := by
  intro hmem'
  cases hs with
  | same hp _ => exact hmem (hp ▸ hmem')
  | register d r _ hr hp _ =>
    have hne : m ≠ r := fun heq => hm (heq ▸ hr)
    rw [hp] at hmem'
    by_cases hn : n = d
    · subst hn
      exact hmem (by simpa [registerEdge, hne] using hmem')
    · exact hmem (by simpa [registerEdge, hn] using hmem')
  | detach a hp _ =>
    rw [hp] at hmem'
    simp only [detachFromDependencies] at hmem'
    split at hmem'
    · exact hmem (mem_of_mem_filter hmem')
    · exact hmem hmem'
  | take a _ hp _ =>
    rw [hp] at hmem'
    by_cases hn : n = a
    · subst hn
      simp at hmem'
    · exact hmem (by simpa [hn] using hmem')
  | forget a _ hp _ => exact hmem (hp ▸ hmem')

/-- A subscribed node stays subscribed, unless a wave or a walk is to visit it. -/
theorem EdgeStep.subscribes (hs : EdgeStep R W h h') (hu : Unread h) (hm : h.Subscribes m) :
    W m ∨ h'.Subscribes m := by
  cases hs with
  | same hp hd =>
    refine .inr fun n hn => ?_
    rw [hp]
    exact hm n (hd ▸ hn)
  | register d r _ _ hp hd =>
    refine .inr fun n hn => ?_
    rw [hd] at hn
    rw [hp]
    by_cases hmr : m = r
    · subst hmr
      have hcases : n = d ∨ n ∈ h.deps m := by simpa [registerEdge] using hn
      by_cases hnd : n = d
      · subst hnd
        simp [registerEdge]
      · simpa [registerEdge, hnd] using hm n (hcases.resolve_left hnd)
    · have hold := hm n (by simpa [registerEdge, hmr] using hn)
      by_cases hnd : n = d
      · subst hnd
        simp [registerEdge, hold]
      · simpa [registerEdge, hnd] using hold
  | detach a hp hd =>
    refine .inr fun n hn => ?_
    rw [hd] at hn
    rw [hp]
    by_cases hma : m = a
    · subst hma
      simp [detachFromDependencies] at hn
    · have hold := hm n (by simpa [detachFromDependencies, hma] using hn)
      simp only [detachFromDependencies]
      split
      · exact mem_filter.mpr ⟨hold, by simpa using hma⟩
      · exact hold
  | take a hW hp hd =>
    by_cases hread : a ∈ h.deps m
    · exact .inl (hW (hu m a hread) m (hm a hread))
    · refine .inr fun n hn => ?_
      rw [hd] at hn
      rw [hp]
      have hna : n ≠ a := fun heq => hread (heq ▸ hn)
      simpa [hna] using hm n hn
  | forget a _ hp hd =>
    refine .inr fun n hn => ?_
    rw [hd] at hn
    rw [hp]
    by_cases hma : m = a
    · subst hma
      simp at hn
    · exact hm n (by simpa [hma] using hn)

theorem EdgeSteps.backed (hs : EdgeSteps R W h h') (hb : Backed h) : Backed h' := by
  induction hs with
  | refl => exact hb
  | tail _ hstep ih => exact hstep.backed ih

theorem EdgeSteps.unread (hs : EdgeSteps R W h h') (hu : Unread h) : Unread h' := by
  induction hs with
  | refl => exact hu
  | tail _ hstep ih => exact hstep.unread ih

theorem EdgeSteps.deps_subset (hs : EdgeSteps R W h h') (hm : ¬ R m) : h'.deps m ⊆ h.deps m := by
  induction hs with
  | refl => exact Subset.refl _
  | tail _ hstep ih => exact Subset.trans (hstep.deps_subset hm) ih

/-- A node outside `R` that has recorded nothing keeps its record empty. -/
theorem EdgeSteps.deps_nil (hs : EdgeSteps R W h h') (hm : ¬ R m) (hnil : h.deps m = []) : h'.deps m = [] :=
  eq_nil_of_subset_nil (hnil ▸ hs.deps_subset hm)

theorem EdgeSteps.not_mem_parents (hs : EdgeSteps R W h h') {n : Node} (hm : ¬ R m) (hmem : m ∉ h.parents n) :
    m ∉ h'.parents n := by
  induction hs with
  | refl => exact hmem
  | tail _ hstep ih => exact hstep.not_mem_parents hm ih

theorem EdgeSteps.subscribes (hs : EdgeSteps R W h h') (hu : Unread h) (hm : h.Subscribes m) :
    W m ∨ h'.Subscribes m := by
  induction hs with
  | refl => exact .inr hm
  | tail hs hstep ih =>
    rcases ih with hW | ih
    · exact .inl hW
    · exact hstep.subscribes (EdgeSteps.unread hs hu) ih

end Kept

end LazilyPy.Reactive

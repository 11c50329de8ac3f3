import Mathlib.Data.List.Basic
import LazilyPy.Reactive.Syntax

/-!
# The state of the reactive graph

One context dict, the objects living in it, the pending sets of the batch module and
the work-stack of the slot module, with the operations the source performs on them.

`runs` and `reads` are history variables: how often a callable or a body was started, and
which node handed which value to its latest execution. No operation branches on them.
-/

namespace LazilyPy.Reactive

open Function

variable {V : Type}

/-- The enumeration of the Python sets met in one step. The first argument names the set:
the dependents of a node, or `none` for a pending set of the batch module. -/
abbrev Enum := Option Node → List Node → List Node

def Enum.Lawful (ord : Enum) : Prop :=
  ∀ o l, (ord o l).Perm l

def insertNode (n : Node) (l : List Node) : List Node :=
  if n ∈ l then l else n :: l

@[simp] theorem mem_insertNode {m n : Node} {l : List Node} : m ∈ insertNode n l ↔ m = n ∨ m ∈ l := by
  unfold insertNode
  split
  · next h => exact ⟨Or.inr, fun hm => hm.elim (fun e => e ▸ h) id⟩
  · exact List.mem_cons

structure Heap (V : Type) where
  /-- `Source._value`. -/
  value : ℕ → V
  /-- `ctx[slot]`, the cached value of a `Slot` object. -/
  cache : Node → Option V
  /-- `_parents`, the dependents. -/
  parents : Node → List Node
  /-- `_deps`, what the current run has read. -/
  deps : Node → List Node
  disposed : Node → Bool
  /-- `Computed._eager`. -/
  eager : ℕ → Bool
  /-- `Computed._puller`, by the number of the puller. -/
  puller : ℕ → Option ℕ
  /-- How many pullers `eager()` has minted. -/
  minted : ℕ → ℕ
  /-- `Computed._value`, with `none` for `_UNSET`. -/
  handle : ℕ → Option V
  /-- `Computed._stale`. -/
  stale : ℕ → Bool
  /-- `Effect._ctx is not None`. -/
  started : Node → Bool
  /-- `Effect._running`. -/
  running : Node → Bool
  /-- `Effect._cleanup`. -/
  cleanup : Node → Option (Code V)
  runs : Node → ℕ
  reads : Node → List (Node × V)
  /-- `batch._depth`. -/
  depth : ℕ
  pendingCells : List Node
  pendingEffects : List Node
  /-- `slot._reset_work`, the next entry first. -/
  work : List Node
  /-- `slot._reset_active`. -/
  active : Bool

/-- A fresh graph over initial source values: nothing cached, no edges, no effect started. -/
def Heap.init (σ : ℕ → V) : Heap V where
  value := σ
  cache := fun _ => none
  parents := fun _ => []
  deps := fun _ => []
  disposed := fun _ => false
  eager := fun _ => false
  puller := fun _ => none
  minted := fun _ => 0
  handle := fun _ => none
  stale := fun _ => false
  started := fun _ => false
  running := fun _ => false
  cleanup := fun _ => none
  runs := fun _ => 0
  reads := fun _ => []
  depth := 0
  pendingCells := []
  pendingEffects := []
  work := []
  active := false

namespace Heap

def registerEdge (dep reader : Node) (h : Heap V) : Heap V :=
  { h with
    parents := update h.parents dep (insertNode reader (h.parents dep))
    deps := update h.deps reader (insertNode dep (h.deps reader)) }

/-- `node._subscribe(reader)`. A lazy `Computed` subscribes the reader to its backing memo
as well. -/
def subscribe (d : Ref) (reader : Node) (h : Heap V) : Heap V :=
  match d with
  | .source i => h.registerEdge (.source i) reader
  | .slot i => h.registerEdge (.slot i) reader
  | .computed i =>
    let h' := h.registerEdge (.computed i) reader
    if h.eager i then h' else h'.registerEdge (.memo i) reader

/-- Subscribing changes edges only. -/
theorem subscribe_eq (d : Ref) (r : Node) (h : Heap V) : h.subscribe d r =
    { h with parents := (h.subscribe d r).parents, deps := (h.subscribe d r).deps } := by
  cases d with
  | source i => rfl
  | slot i => rfl
  | computed i =>
    simp only [subscribe]
    split <;> rfl

/-- `_detach_from_dependencies(node)`: drop the node from the dependents of everything it
recorded, and forget the record. -/
def detachFromDependencies (n : Node) (h : Heap V) : Heap V :=
  { h with
    parents := fun d => if d ∈ h.deps n then (h.parents d).filter (· ≠ n) else h.parents d
    deps := update h.deps n [] }

/-- Rebind the dependents of `n` to `None` and push them onto the work-stack. -/
def pushParents (ord : Enum) (n : Node) (h : Heap V) : Heap V :=
  { h with
    work := ord (some n) (h.parents n) ++ h.work
    parents := update h.parents n [] }

/-- The start of a recompute: `self._deps = None`. -/
def startCompute (n : Node) (h : Heap V) : Heap V :=
  { h with
    deps := update h.deps n []
    runs := update h.runs n (h.runs n + 1)
    reads := update h.reads n [] }

/-- `resolved[self] = value`. -/
def setCache (n : Node) (v : V) (h : Heap V) : Heap V :=
  { h with cache := update h.cache n (some v) }

/-- `resolved.pop(self, None)`. -/
def dropCache (n : Node) (h : Heap V) : Heap V :=
  { h with
    cache := update h.cache n none
    reads := update h.reads n [] }

/-- The node `d` handed the value `v` to the current run of `n`. -/
def record (n d : Node) (v : V) (h : Heap V) : Heap V :=
  { h with reads := update h.reads n (h.reads n ++ [(d, v)]) }

/-- `Effect.__call__` between the cleanup and the body. -/
def startEffect (e : Node) (h : Heap V) : Heap V :=
  let h' := h.detachFromDependencies e
  { h' with
    running := update h'.running e true
    runs := update h'.runs e (h'.runs e + 1)
    reads := update h'.reads e [] }

/-- `Slot._invalidate(ctx)` of a live slot. -/
def invalidateSlot (ord : Enum) (n : Node) (h : Heap V) : Heap V :=
  (h.dropCache n).pushParents ord n

/-- `Source.value = v` on a live source, before the change is announced. -/
def setValue (i : ℕ) (v : V) (h : Heap V) : Heap V :=
  { h with value := update h.value i v }

/-- `_pending_cells.add(cell)`. -/
def addPendingCell (n : Node) (h : Heap V) : Heap V :=
  { h with pendingCells := insertNode n h.pendingCells }

def enqueueEffect (e : Node) (h : Heap V) : Heap V :=
  { h with pendingEffects := insertNode e h.pendingEffects }

/-- `self._parents = None`. -/
def clearParents (n : Node) (h : Heap V) : Heap V :=
  { h with parents := update h.parents n [] }

/-- `Computed._value = v`. -/
def setHandle (i : ℕ) (v : V) (h : Heap V) : Heap V :=
  { h with handle := update h.handle i (some v) }

/-- `for cell in pending_cells: cell.touch()` while the drain is suspended. -/
def touchAll (ord : Enum) (cells : List Node) (h : Heap V) : Heap V :=
  cells.foldl (fun h n => if h.disposed n then h else h.pushParents ord n) h

/-- Touching cells changes the work-stack and the touched dependents only. -/
theorem touchAll_eq (ord : Enum) (cells : List Node) (h : Heap V) :
    h.touchAll ord cells = { h with
      work := (h.touchAll ord cells).work
      parents := fun d => if d ∈ cells ∧ h.disposed d = false then [] else h.parents d } := by
  induction cells generalizing h with
  | nil => simp [touchAll]
  | cons n ns ih =>
    by_cases hd : h.disposed n = true
    · have hrest : h.touchAll ord (n :: ns) = h.touchAll ord ns := by simp [touchAll, hd]
      rw [hrest, ih h]
      congr 1
      funext d
      by_cases hdn : d = n
      · subst hdn
        simp [hd]
      · simp [hdn]
    · have hrest : h.touchAll ord (n :: ns) = (h.pushParents ord n).touchAll ord ns := by
        simp [touchAll, hd]
      rw [hrest, ih (h.pushParents ord n)]
      simp only [pushParents]
      congr 1
      funext d
      by_cases hdn : d = n
      · subst hdn
        simp [hd]
      · simp [hdn]

/-- The dependents of the touched cells join the work-stack. -/
theorem mem_work_touchAll {ord : Enum} (hord : ord.Lawful) {cells : List Node} {h : Heap V}
    {m : Node} : m ∈ (h.touchAll ord cells).work ↔
      m ∈ h.work ∨ ∃ n ∈ cells, h.disposed n = false ∧ m ∈ h.parents n := by
  induction cells generalizing h with
  | nil => simp [touchAll]
  | cons n ns ih =>
    by_cases hd : h.disposed n = true
    · have hrest : h.touchAll ord (n :: ns) = h.touchAll ord ns := by simp [touchAll, hd]
      rw [hrest, ih]
      simp [hd]
    · have hrest : h.touchAll ord (n :: ns) = (h.pushParents ord n).touchAll ord ns := by
        simp [touchAll, hd]
      rw [hrest, ih]
      simp only [pushParents, List.mem_append, (hord _ _).mem_iff, List.mem_cons, exists_eq_or_imp, update_apply]
      constructor
      · rintro ((hm | hm) | ⟨d, hdn, hdd, hm⟩)
        · exact .inr (.inl ⟨by simpa using hd, hm⟩)
        · exact .inl hm
        · split at hm
          · cases hm
          · exact .inr (.inr ⟨d, hdn, hdd, hm⟩)
      · rintro (hm | ⟨_, hm⟩ | ⟨d, hdn, hdd, hm⟩)
        · exact .inl (.inr hm)
        · exact .inl (.inl hm)
        · by_cases heq : d = n
          · exact .inl (.inl (heq ▸ hm))
          · exact .inr ⟨d, hdn, hdd, by simpa [heq] using hm⟩

/-- The start of `_flush`: take the pending cells, suspend the drain and touch them. The
drain is resumed with the accumulated wave. -/
def flushTouch (ord : Enum) (h : Heap V) : Heap V :=
  { ({ h with pendingCells := [] } : Heap V).touchAll ord (ord none h.pendingCells) with
    active := true }

/-- `eager()` up to the first run of the puller, whose number is `h.minted i`. -/
def mintPuller (i : ℕ) (h : Heap V) : Heap V :=
  { h with
    eager := update h.eager i true
    puller := update h.puller i (some (h.minted i))
    minted := update h.minted i (h.minted i + 1) }

/-- `lazy()` up to the disposal of the puller. -/
def dropPuller (i : ℕ) (h : Heap V) : Heap V :=
  { h with
    eager := update h.eager i false
    stale := update h.stale i false
    puller := update h.puller i none }

/-- `self._disposed = True` and `_detach_from_dependencies(self)`. -/
def retire (n : Node) (h : Heap V) : Heap V :=
  let h' := h.detachFromDependencies n
  { h' with
    disposed := update h'.disposed n true
    reads := update h'.reads n [] }

/-- `_drop_cached(ctx)`: a puller also marks its owner stale and registers itself with the
backing memo again. -/
def dropCached (n : Node) (h : Heap V) : Heap V :=
  match n with
  | .slot _ | .memo _ => h.dropCache n
  | .puller i k =>
    ({ h with stale := update h.stale i true } : Heap V).registerEdge (.memo i)
      (.puller i k)
  | _ => h

end Heap

end LazilyPy.Reactive

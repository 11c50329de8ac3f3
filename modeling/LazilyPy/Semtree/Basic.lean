import LazilyPy.Lib.Search

/-!
# Memoized semantic trees

Each node of a tree has a value and children, and a derived value that is folded from its value and
from the derived values of its children. A change marks the ancestors of the node, and a read folds
what is marked.
-/

namespace LazilyPy.Semtree

/-- A node. Its derived value is the default of `D` as long as none has been folded. -/
structure SemNode (I V D : Type) where
  value : V
  children : List I := []
  computeCount : ℕ := 0
  downstreamCount : ℕ := 0
  derived : D
  dirty : Bool := true

/-- A tree: its nodes by their ids, and the parents of each. Nodes may share children. -/
structure SemTree (I V D : Type) where
  nodes : I → Option (SemNode I V D) := fun _ => none
  parents : I → List I := fun _ => []
  ids : List I := []

inductive Raised (I : Type)
  | key (id : I)
  | recursion
  deriving DecidableEq, Repr

namespace SemTree

variable {I V D : Type} [DecidableEq I]

def childrenOf (s : SemTree I V D) (id : I) : List I :=
  (s.nodes id).elim [] SemNode.children

def put (id : I) (node : SemNode I V D) (s : SemTree I V D) : SemTree I V D :=
  { s with nodes := Function.update s.nodes id (some node) }

def markDirty (id : I) (s : SemTree I V D) : SemTree I V D :=
  match s.nodes id with
  | none => s
  | some node => s.put id { node with dirty := true }

/-- Mark a node and its ancestors, except for what has been visited and what is beyond it. -/
def markDirtyChain : ℕ → I → List I × SemTree I V D → List I × SemTree I V D
  | 0, _, st => st
  | n + 1, id, (visited, s) =>
    if id ∈ visited then (visited, s)
    else
      (s.parents id).foldl (fun st parent => markDirtyChain n parent st) (id :: visited, s.markDirty id)

def touch (id : I) (s : SemTree I V D) : SemTree I V D :=
  (markDirtyChain (s.ids.length + 1) id ([], s)).2

/-! ### Reads -/

def each {α β ε σ : Type} (f : α → σ → Except ε β × σ) : List α → σ → Except ε (List β) × σ
  | [], s => (.ok [], s)
  | a :: l, s =>
    match f a s with
    | (.error e, s) => (.error e, s)
    | (.ok b, s) =>
      match each f l s with
      | (.error e, s) => (.error e, s)
      | (.ok bs, s) => (.ok (b :: bs), s)

section Fold

variable (fold : V → List D → D) [BEq D]

def compute (id : I) (childValues : List D) (s : SemTree I V D) : SemTree I V D :=
  match s.nodes id with
  | none => s
  | some node =>
    let folded := fold node.value childValues
    s.put id
      { node with
        computeCount := node.computeCount + 1
        downstreamCount :=
          if node.derived == folded then node.downstreamCount else node.downstreamCount + 1
        derived := folded
        dirty := false }

/-- Read the derived value of a node, at most so many nodes deep. -/
def derive : ℕ → I → SemTree I V D → Except (Raised I) D × SemTree I V D
  | 0, _, s => (.error .recursion, s)
  | n + 1, id, s =>
    match s.nodes id with
    | none => (.error (.key id), s)
    | some node =>
      if node.dirty then
        match each (derive n) node.children s with
        | (.error e, s) => (.error e, s)
        | (.ok childValues, s) => (.ok (fold node.value childValues), s.compute fold id childValues)
      else (.ok node.derived, s)

def derived (id : I) (s : SemTree I V D) : Except (Raised I) D × SemTree I V D :=
  s.derive fold (s.ids.length + 1) id

end Fold

/-! ### Changes -/

variable [BEq V] [Inhabited D]

def add (id : I) (value : V) (s : SemTree I V D) : SemTree I V D :=
  match s.nodes id with
  | some _ => s
  | none => { s.put id { value := value, derived := default } with ids := s.ids ++ [id] }

def setNodeValue (id : I) (value : V) (s : SemTree I V D) : SemTree I V D :=
  match s.nodes id with
  | none => s
  | some node =>
    if node.value == value then s else (s.put id { node with value := value }).touch id

def insertChild (parent child : I) (value : V) (s : SemTree I V D) : SemTree I V D :=
  if (s.nodes parent).isNone then s
  else
    let s := if (s.nodes child).isNone then s.add child value else s
    match s.nodes parent with
    | none => s
    | some p =>
      if child ∈ p.children then s
      else
        { s.put parent { p with children := p.children ++ [child] } with
          parents := Function.update s.parents child (s.parents child ++ [parent]) }.touch parent

def removeChild (parent child : I) (s : SemTree I V D) : SemTree I V D :=
  match s.nodes parent with
  | none => s
  | some p =>
    if child ∈ p.children then
      { s.put parent { p with children := p.children.filter (· ≠ child) } with
        parents := Function.update s.parents child ((s.parents child).filter (· ≠ parent)) }.touch parent
    else s

end SemTree

/-! ### Runs -/

inductive Op (I V : Type)
  | add (id : I) (value : V)
  | set (id : I) (value : V)
  | insertChild (parent child : I) (value : V)
  | removeChild (parent child : I)
  | read (id : I)

variable {I V D : Type} [DecidableEq I] [BEq V] [BEq D] [Inhabited D]

def SemTree.apply (fold : V → List D → D) (s : SemTree I V D) : Op I V → SemTree I V D
  | .add id value => s.add id value
  | .set id value => s.setNodeValue id value
  | .insertChild parent child value => s.insertChild parent child value
  | .removeChild parent child => s.removeChild parent child
  | .read id => (s.derived fold id).2

def run (fold : V → List D → D) (ops : List (Op I V)) : SemTree I V D :=
  ops.foldl (SemTree.apply fold) {}

theorem run_concat (fold : V → List D → D) (ops : List (Op I V)) (op : Op I V) :
    run fold (ops ++ [op]) = (run fold ops).apply fold op :=
  List.foldl_concat ..

end LazilyPy.Semtree

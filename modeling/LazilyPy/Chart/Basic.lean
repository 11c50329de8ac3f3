import Mathlib.Data.Finset.Union
import Mathlib.Data.List.Sort
import LazilyPy.Lib.Table

/-!
# Charts

A chart is a table of states that name their parents, with one root. Everything else that the
interpreter knows of a chart is computed from the table: the children of a state in the order in which
they are declared, its depth, its ancestors, and what entering it by default enters.

Following parent links or default entry may go on for ever. The functions that do so have as much fuel
as there are states, and give `none` when it runs out.
-/

open List

namespace LazilyPy.Chart

inductive Kind where
  | atomic | compound | parallel | history | final
  deriving DecidableEq, Repr

inductive HistoryKind where
  | shallow | deep
  deriving DecidableEq, Repr

structure Transition where
  target : String
  guard : Option String := none
  action : List String := []
  internal : Bool := false
  deriving DecidableEq, Repr

structure StateDef where
  id : String
  parent : Option String := none
  kind : Kind := .atomic
  history : Option HistoryKind := none
  initial : Option String := none
  default : Option String := none
  transitions : Table (Prod.fst : String × Transition → String) := .empty _
  entry : List String := []
  exit : List String := []
  compound : kind = .compound → initial ≠ none := by decide

def StateDef.references (d : StateDef) : List String :=
  d.parent.toList ++ d.initial.toList ++ d.default.toList ++ d.transitions.rows.map fun t => t.2.target

/-- A chart: every state that is named is declared, and one state has no parent. -/
structure ChartDef where
  states : Table StateDef.id
  root : String
  rooted : ∃ d ∈ states.rows, d.id = root ∧ d.parent = none
  unique : ∀ d ∈ states.rows, d.parent = none → d.id = root
  declared : ∀ d ∈ states.rows, ∀ r ∈ d.references, r ∈ states.rows.map StateDef.id

namespace ChartDef

variable (defn : ChartDef)

def ids : List String :=
  defn.states.rows.map StateDef.id

def get? (id : String) : Option StateDef :=
  defn.states.get? id

def order (id : String) : ℕ :=
  defn.ids.idxOf id

def children (id : String) : List String :=
  (defn.states.rows.filter fun d => d.parent = some id).map StateDef.id

def kind (id : String) : Option Kind :=
  (defn.get? id).map StateDef.kind

def isLeaf (id : String) : Bool :=
  defn.kind id = some .atomic || defn.kind id = some .final

/-- Set the depth of a state and, below it, of its descendants. What is below the root is a tree, so its
depth is less than the number of states. -/
def computeDepth : ℕ → String → ℕ → (String → Option ℕ) → String → Option ℕ
  | 0, _, _, depth => depth
  | fuel + 1, id, current, depth =>
    (defn.children id).foldl (fun depth kid => computeDepth fuel kid (current + 1) depth)
      (Function.update depth id (some current))

/-- The depth of a state. States that the root does not reach have depth 0. -/
def depthOf (id : String) : ℕ :=
  ((defn.computeDepth defn.ids.length defn.root 0 fun _ => none) id).getD 0

/-! ## Along parent links -/

def ancestorsFrom : ℕ → String → Option (List String)
  | 0, _ => none
  | fuel + 1, id =>
    match defn.get? id with
    | none => some []
    | some d =>
      match d.parent with
      | none => some [id]
      | some p => (ancestorsFrom fuel p).map (id :: ·)

def ancestorsInclusive (id : String) : Option (List String) :=
  defn.ancestorsFrom defn.ids.length id

/-- The first ancestor of `b` that is one of `a`. -/
def lca (a b : String) : Option String :=
  (defn.ancestorsInclusive a).bind fun ancA => (defn.ancestorsInclusive b).map fun ancB =>
    (ancB.find? (· ∈ ancA)).getD defn.root

def isProperDescendant (desc anc : String) : Option Bool :=
  if desc = anc then some false else (defn.ancestorsInclusive desc).map fun l => decide (anc ∈ l)

/-- The ancestors of the target below `top`, the target last. -/
def pathBelow (top target : String) : Option (List String) :=
  (defn.ancestorsInclusive target).map fun chain => (chain.takeWhile (· ≠ top)).reverse

/-- The members of a set that are proper descendants of a state, if all the walks end. -/
def properDescendants (states : Finset String) (anc : String) : Option (Finset String) :=
  if ∀ s ∈ states, (defn.isProperDescendant s anc).isSome then
    some (states.filter fun s => defn.isProperDescendant s anc = some true)
  else none

/-! ## Default entry -/

def enterFrom : ℕ → String → Option (List String)
  | 0, _ => none
  | fuel + 1, id =>
    match defn.get? id with
    | none => some [id]
    | some d =>
      match d.kind with
      | .compound =>
        match d.initial with
        | none => some [id]
        | some i => (enterFrom fuel i).map (id :: ·)
      | .parallel => ((defn.children id).mapM (enterFrom fuel)).map fun l => id :: l.flatten
      | .atomic | .history | .final => some [id]

def enterSubtree (id : String) : Option (List String) :=
  defn.enterFrom defn.ids.length id

def historyChildOf (region : String) : Option String :=
  (defn.children region).find? fun kid => defn.kind kid = some .history

/-! ## References are declared -/

variable {defn}

variable {id : String} {d : StateDef}

theorem mem_ids : id ∈ defn.ids ↔ ∃ d, defn.get? id = some d := by
  constructor
  · intro h
    obtain ⟨d, hd, rfl⟩ := mem_map.mp h
    exact ⟨d, Table.get?_of_mem hd⟩
  · rintro ⟨d, hd⟩
    obtain ⟨hmem, rfl⟩ := Table.get?_eq_some.mp hd
    exact mem_map_of_mem hmem

section

variable (h : defn.get? id = some d)

include h

theorem id_of_get? : d.id = id :=
  Table.key_of_get? h

theorem mem_ids_of_reference {r : String} (hr : r ∈ d.references) : r ∈ defn.ids :=
  defn.declared d (Table.mem_of_get? h) r hr

theorem mem_ids_of_parent {p : String} (hp : d.parent = some p) : p ∈ defn.ids :=
  mem_ids_of_reference h (by simp [StateDef.references, hp])

theorem mem_ids_of_initial {i : String} (hi : d.initial = some i) : i ∈ defn.ids :=
  mem_ids_of_reference h (by simp [StateDef.references, hi])

theorem mem_ids_of_default {s : String} (hs : d.default = some s) : s ∈ defn.ids :=
  mem_ids_of_reference h (by simp [StateDef.references, hs])

theorem mem_ids_of_transition {event : String} {t : String × Transition} (ht : d.transitions.get? event = some t) :
    t.2.target ∈ defn.ids := by
  refine mem_ids_of_reference h ?_
  have hmem : t.2.target ∈ d.transitions.rows.map fun t => t.2.target :=
    mem_map_of_mem (f := fun t : String × Transition => t.2.target) (Table.mem_of_get? ht)
  simpa [StateDef.references] using Or.inr (Or.inr (Or.inr hmem))

end

theorem mem_children {kid : String} :
    kid ∈ defn.children id ↔ ∃ d, defn.get? kid = some d ∧ d.parent = some id := by
  unfold children
  constructor
  · intro h
    obtain ⟨d, hd, rfl⟩ := mem_map.mp h
    obtain ⟨hmem, hp⟩ := mem_filter.mp hd
    exact ⟨d, Table.get?_of_mem hmem, by simpa using hp⟩
  · rintro ⟨d, hd, hp⟩
    obtain ⟨hmem, rfl⟩ := Table.get?_eq_some.mp hd
    exact mem_map_of_mem (mem_filter.mpr ⟨hmem, by simpa using hp⟩)

theorem children_subset {kid : String} (h : kid ∈ defn.children id) : kid ∈ defn.ids := by
  obtain ⟨d, hd, _⟩ := mem_children.mp h
  exact mem_ids.mpr ⟨d, hd⟩

theorem children_nodup (id : String) : (defn.children id).Nodup :=
  defn.states.nodup.sublist (filter_sublist.map StateDef.id)

theorem root_mem_ids (defn : ChartDef) : defn.root ∈ defn.ids := by
  obtain ⟨d, hd, hid, _⟩ := defn.rooted
  exact hid ▸ mem_map_of_mem hd

/-- The root is the state without a parent. -/
theorem parent_eq_none_iff (h : defn.get? id = some d) :
    d.parent = none ↔ id = defn.root := by
  constructor
  · intro hp
    rw [← id_of_get? h]
    exact defn.unique d (Table.mem_of_get? h) hp
  · rintro rfl
    obtain ⟨r, hr, hid, hp⟩ := defn.rooted
    have hget : defn.get? defn.root = some r := Table.get?_eq_some.mpr ⟨hr, hid⟩
    obtain rfl := Option.some.inj (h.symm.trans hget)
    exact hp

end ChartDef

end LazilyPy.Chart

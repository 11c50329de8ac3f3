import Mathlib.Logic.Basic
import Mathlib.Data.Nat.Notation

/-!
# Programs over the synchronous reactive graph

User code as the graph sees it. A compute function (`Slot.callable`, a
`Computed`'s callable) is a tree of tracked reads, so its dependencies may be
conditional. Client code and effect bodies also write sources, open batches, run
effects, switch a `Computed` between its eager and lazy forms and dispose nodes.
-/

namespace LazilyPy.Reactive

/-- What `ctx.read` can name: a `Source`, a `Slot` or a `Computed`. -/
inductive Ref where
  | source (i : ℕ)
  | slot (i : ℕ)
  | computed (i : ℕ)
  deriving DecidableEq, Repr

/-- The objects of one context. `memo i` is the backing `_slot` of `computed i`, and
`puller i k` the `k`-th `_EagerPuller` minted for it. -/
inductive Node where
  | source (i : ℕ)
  | slot (i : ℕ)
  | computed (i : ℕ)
  | memo (i : ℕ)
  | effect (i : ℕ)
  | puller (i k : ℕ)
  deriving DecidableEq, Repr

def Ref.node : Ref → Node
  | .source i => .source i
  | .slot i => .slot i
  | .computed i => .computed i

/-- The nodes whose value lives in the context dict: `Slot` objects. -/
def Node.isSlot : Node → Bool
  | .slot _ | .memo _ => true
  | _ => false

/-- The nodes that are `Effect` objects. -/
def Node.isEffect : Node → Bool
  | .effect _ | .puller _ _ => true
  | _ => false

/-- The puller nodes, whose body is `Computed._pull`. -/
def Node.isPuller : Node → Bool
  | .puller _ _ => true
  | _ => false

/-- A compute function, as the tree of the tracked reads it makes. -/
inductive Comp (V : Type) where
  | ret (v : V)
  | raise
  | read (d : Ref) (k : V → Comp V)

/-- Client code and effect bodies. `doneWith c` returns the cleanup closure `c`, and
`attempt b k` is `try: b except Exception: pass` followed by `k`. -/
inductive Code (V : Type) where
  | done
  | doneWith (cleanup : Code V)
  | raise
  | read (d : Ref) (k : V → Code V)
  | write (i : ℕ) (v : V) (k : Code V)
  | batch (body k : Code V)
  | call (e : ℕ) (k : Code V)
  | eager (i : ℕ) (k : Code V)
  | lazy (i : ℕ) (k : Code V)
  | dispose (d : Ref) (k : Code V)
  | disposeEffect (e : ℕ) (k : Code V)
  | attempt (body k : Code V)

/-- The instructions of `Code`, for naming what a piece of code may contain. -/
inductive Instr where
  | raise | read | write | batch | call | eager | lazy | dispose | attempt
  deriving DecidableEq, Repr

/-- The code uses only the instructions that `S` allows. -/
def Code.Within {V : Type} (S : Instr → Prop) : Code V → Prop
  | .done => True
  | .doneWith c => c.Within S
  | .raise => S .raise
  | .read _ k => S .read ∧ ∀ v, (k v).Within S
  | .write _ _ k => S .write ∧ k.Within S
  | .batch b k => S .batch ∧ b.Within S ∧ k.Within S
  | .call _ k => S .call ∧ k.Within S
  | .eager _ k => S .eager ∧ k.Within S
  | .lazy _ k => S .lazy ∧ k.Within S
  | .dispose _ k => S .dispose ∧ k.Within S
  | .disposeEffect _ k => S .dispose ∧ k.Within S
  | .attempt b k => S .attempt ∧ b.Within S ∧ k.Within S

/-- The definitions behind the nodes. `effectBody e r` is the code that the execution
number `r` of effect `e` runs, so a body may differ from one execution to the next;
`unset` is the `_UNSET` sentinel as a reader would see it. -/
structure Graph (V : Type) where
  slotBody : ℕ → Comp V
  computedBody : ℕ → Comp V
  changed : ℕ → Option (V → V → Bool)
  effectBody : ℕ → ℕ → Code V
  unset : V

variable {V : Type}

/-- The callable of a `Slot` object. -/
def Graph.callable (G : Graph V) : Node → Comp V
  | .slot i => G.slotBody i
  | .memo i => G.computedBody i
  | _ => .raise

inductive Comp.Mentions : Comp V → Ref → Prop
  | here {d : Ref} {k : V → Comp V} : Mentions (.read d k) d
  | later {d d' : Ref} {k : V → Comp V} (v : V) : Mentions (k v) d' → Mentions (.read d k) d'

/-- The compute functions form an acyclic graph: a rank of the references decreases from
each definition to everything that any branch of it reads. -/
def Graph.Ranked (G : Graph V) (rank : Ref → ℕ) : Prop :=
  (∀ i d, (G.slotBody i).Mentions d → rank d < rank (.slot i)) ∧
  ∀ i d, (G.computedBody i).Mentions d → rank d < rank (.computed i)

def Graph.Acyclic (G : Graph V) : Prop :=
  ∃ rank, G.Ranked rank

/-- Every custom `changed` predicate propagates every change of value. The default guard of
`computed` is natural equality, which does. -/
def Graph.ExactGuards (G : Graph V) : Prop :=
  ∀ i f, G.changed i = some f → ∀ old new, old ≠ new → f old new = true

/-- What evaluating a reference from scratch runs, over the source values `σ`. -/
def Graph.body (G : Graph V) (σ : ℕ → V) : Ref → Comp V
  | .source i => .ret (σ i)
  | .slot i => G.slotBody i
  | .computed i => G.computedBody i

/-- From-scratch evaluation of a compute function over the source values `σ`, with no cache:
every read evaluates the definition it names. -/
inductive Evaluates (G : Graph V) (σ : ℕ → V) : Comp V → V → Prop
  | ret (v : V) : Evaluates G σ (.ret v) v
  | read {d : Ref} {k : V → Comp V} {w v : V} :
      Evaluates G σ (G.body σ d) w → Evaluates G σ (k w) v → Evaluates G σ (.read d k) v

def Graph.Value (G : Graph V) (σ : ℕ → V) (d : Ref) (v : V) : Prop :=
  Evaluates G σ (G.body σ d) v

/-- From-scratch evaluation is a partial function. -/
theorem Evaluates.det {G : Graph V} {σ : ℕ → V} {t : Comp V} {v v' : V}
    (h : Evaluates G σ t v) (h' : Evaluates G σ t v') : v = v' := by
  induction h generalizing v' with
  | ret v => cases h'; rfl
  | read _ _ ihd ihk =>
    cases h' with
    | read hd hk =>
      have hw := ihd hd
      subst hw
      exact ihk hk

theorem Graph.Value.source {G : Graph V} {σ : ℕ → V} {i : ℕ} {v : V} : G.Value σ (.source i) v ↔ v = σ i := by
  constructor
  · intro h
    cases h
    rfl
  · rintro rfl
    exact .ret _

end LazilyPy.Reactive

import LazilyPy.Collection.KeyedOrder
import LazilyPy.Lib.Inquiry

/-!
# Maps of input cells

A keyed collection with a cell for each of its keys, a signal for the set of the keys and one for their order. Slots
read it through their compute views. A slot keeps the value that it has returned until something that it has
subscribed to is touched.

The slots read nothing but the map, so none of them depends on another one, and an invalidation wave ends at the
dependents of the source that it starts from.
-/

namespace LazilyPy.Collection

open Function

inductive Query (κ : Type) where
  | get (key : κ)
  | containsKey (key : κ)
  | len
  | keys

def Answer (κ ν : Type) : Query κ → Type
  | .get _ => Option ν
  | .containsKey _ => Bool
  | .len => ℕ
  | .keys => List κ

/-- The callable of a slot that reads the map through its compute view. -/
abbrev Body (κ ν ρ : Type) : Type :=
  Inquiry (Query κ) (Answer κ ν) ρ

inductive Node where
  | cell (handle : ℕ)
  | membership
  | order
  deriving DecidableEq

structure Source (α : Type) where
  value : α
  disposed : Bool

/-- The getter of `value`, which raises on a disposed source. -/
def Source.read {α : Type} (s : Source α) : Option α :=
  if s.disposed then none else some s.value

/-- The setter of `value`, with whether it notifies of a change. -/
def Source.write {α : Type} [DecidableEq α] (s : Source α) (value : α) : Source α × Bool :=
  if s.disposed then (s, false) else ({ s with value }, value ≠ s.value)

def dropCached {ρ : Type} (slots : List ℕ) (cache : ℕ → Option ρ) : ℕ → Option ρ :=
  slots.foldl (fun cache i => update cache i none) cache

theorem dropCached_apply {ρ : Type} (slots : List ℕ) (cache : ℕ → Option ρ) (i : ℕ) :
    dropCached slots cache i = if i ∈ slots then none else cache i := by
  induction slots generalizing cache with
  | nil => rfl
  | cons j slots ih =>
    rw [dropCached, List.foldl_cons, ← dropCached, ih, update_apply]
    by_cases hij : i = j
    · simp [hij]
    · simp [hij]

/-- The map with its sources and the slots that read it. A handle is the number of a cell, and a slot is a number,
too. `told` and `asked` are history that no operation reads. -/
structure SourceMap (κ ν ρ : Type) where
  keyed : KeyedOrder κ ℕ
  cells : List (Source ν)
  membershipSignal : Source ℕ
  orderSignal : Source ℕ
  version : ℕ
  orderVersion : ℕ
  /-- `Source._parents`. -/
  parents : Node → List ℕ
  /-- `ctx[slot]`. -/
  cache : ℕ → Option ρ
  /-- What the latest evaluation of a slot has read. -/
  told : ℕ → List (Sigma (Answer κ ν))
  /-- What all the evaluations of a slot have read. -/
  asked : ℕ → List (Query κ)

namespace SourceMap

variable {κ ν ρ : Type}

/-- `SourceMap(ctx)`, with slots that have not been called. -/
def new : SourceMap κ ν ρ where
  keyed := .empty
  cells := []
  membershipSignal := ⟨0, false⟩
  orderSignal := ⟨0, false⟩
  version := 0
  orderVersion := 0
  parents _ := []
  cache _ := none
  told _ := []
  asked _ := []

/-! ## Sources -/

/-- The dependents of a source leave it and lose their values. `Source.touch` does it by a wave, and
`_dirty_disposed_dependents` by a walk that schedules nothing: on slots without dependents the two are the same. -/
def touch (m : SourceMap κ ν ρ) (n : Node) : SourceMap κ ν ρ :=
  { m with
    parents := update m.parents n []
    cache := dropCached (m.parents n) m.cache }

/-- `_register_edge(source, slot)`. -/
def subscribe (m : SourceMap κ ν ρ) (n : Node) (i : ℕ) : SourceMap κ ν ρ :=
  { m with parents := update m.parents n (if i ∈ m.parents n then m.parents n else i :: m.parents n) }

def bumpOrder (m : SourceMap κ ν ρ) : SourceMap κ ν ρ :=
  let orderVersion := m.orderVersion + 1
  let (orderSignal, changed) := m.orderSignal.write orderVersion
  let m := { m with orderVersion, orderSignal }
  if changed then m.touch .order else m

def bumpMembership (m : SourceMap κ ν ρ) : SourceMap κ ν ρ :=
  let version := m.version + 1
  let (membershipSignal, changed) := m.membershipSignal.write version
  let m := { m with version, membershipSignal }
  (if changed then m.touch .membership else m).bumpOrder

/-- `Cell(ctx, value)`. -/
def mint (m : SourceMap κ ν ρ) (value : ν) : ℕ × SourceMap κ ν ρ :=
  (m.cells.length, { m with cells := m.cells ++ [⟨value, false⟩] })

/-- `Source.set` of a cell. -/
def setCell [DecidableEq ν] (m : SourceMap κ ν ρ) (handle : ℕ) (value : ν) : SourceMap κ ν ρ :=
  match m.cells[handle]? with
  | none => m
  | some cell =>
    let (cell, changed) := cell.write value
    let m := { m with cells := m.cells.set handle cell }
    if changed then m.touch (.cell handle) else m

/-- `Source.dispose` of a cell. -/
def disposeCell (m : SourceMap κ ν ρ) (handle : ℕ) : SourceMap κ ν ρ :=
  match m.cells[handle]? with
  | none => m
  | some cell =>
    if cell.disposed then m
    else { m with cells := m.cells.set handle { cell with disposed := true } }.touch (.cell handle)

variable [DecidableEq κ]

/-! ## Operations -/

def mintWith (m : SourceMap κ ν ρ) (key : κ) (compute : Unit → ν) : ℕ × SourceMap κ ν ρ :=
  match m.keyed.get key with
  | some warm => (warm, m)
  | none =>
    let (handle, m) := m.mint (compute ())
    let ((stored, mutation), keyed) := m.keyed.insert key handle
    let m := { m with keyed }
    (stored, if mutation.changed then m.bumpMembership else m)

def entryWith (m : SourceMap κ ν ρ) (key : κ) (default : Unit → ν) : ℕ × SourceMap κ ν ρ :=
  match m.keyed.get key with
  | some handle => (handle, m)
  | none => m.mintWith key default

def entry (m : SourceMap κ ν ρ) (key : κ) (default : ν) : ℕ × SourceMap κ ν ρ :=
  m.entryWith key fun _ => default

def set [DecidableEq ν] (m : SourceMap κ ν ρ) (key : κ) (value : ν) : SourceMap κ ν ρ :=
  match m.keyed.get key with
  | some handle => m.setCell handle value
  | none => (m.entryWith key fun _ => value).2

def remove (m : SourceMap κ ν ρ) (key : κ) : Bool × SourceMap κ ν ρ :=
  let ((handle, mutation), keyed) := m.keyed.remove key
  let m := { m with keyed }
  match handle, mutation.changed with
  | some handle, true => (true, (m.disposeCell handle).bumpMembership)
  | _, _ => (false, m)

def applyMove (m : SourceMap κ ν ρ) (move : MapMove × KeyedOrder κ ℕ) : Bool × SourceMap κ ν ρ :=
  let (outcome, keyed) := move
  let m := { m with keyed }
  if !outcome.applied then (false, m)
  else (true, if outcome.changed then m.bumpOrder else m)

def moveTo (m : SourceMap κ ν ρ) (key : κ) (index : ℤ) : Bool × SourceMap κ ν ρ :=
  m.applyMove (m.keyed.moveTo key index)

def moveBefore (m : SourceMap κ ν ρ) (key anchor : κ) : Bool × SourceMap κ ν ρ :=
  m.applyMove (m.keyed.moveBefore key anchor)

def moveAfter (m : SourceMap κ ν ρ) (key anchor : κ) : Bool × SourceMap κ ν ρ :=
  m.applyMove (m.keyed.moveAfter key anchor)

/-! ## Readers

A reader gets the compute view of a slot, and is none where it raises. -/

/-- The cell of a present key is read through the view. A key that is absent has no cell to subscribe to. -/
def get (m : SourceMap κ ν ρ) (key : κ) (i : ℕ) : Option (Option ν) × SourceMap κ ν ρ :=
  match m.keyed.get key with
  | none => (some none, m)
  | some handle => ((m.cells[handle]?.bind Source.read).map some, m.subscribe (.cell handle) i)

def containsKey (m : SourceMap κ ν ρ) (key : κ) (i : ℕ) : Option Bool × SourceMap κ ν ρ :=
  (m.membershipSignal.read.map fun _ => m.keyed.contains key, m.subscribe .membership i)

def len (m : SourceMap κ ν ρ) (i : ℕ) : Option ℕ × SourceMap κ ν ρ :=
  (m.membershipSignal.read.map fun _ => m.keyed.length, m.subscribe .membership i)

def keys (m : SourceMap κ ν ρ) (i : ℕ) : Option (List κ) × SourceMap κ ν ρ :=
  (m.orderSignal.read.map fun _ => m.keyed.order, m.subscribe .order i)

def reader (i : ℕ) : (q : Query κ) → SourceMap κ ν ρ → Option (Answer κ ν q) × SourceMap κ ν ρ
  | .get key, m => m.get key i
  | .containsKey key, m => m.containsKey key i
  | .len, m => m.len i
  | .keys, m => m.keys i

def consult (i : ℕ) (q : Query κ) (m : SourceMap κ ν ρ) : Option (Answer κ ν q) × SourceMap κ ν ρ :=
  let (a, m) := reader i q m
  (a, { m with
    told := update m.told i (m.told i ++ a.toList.map fun a => ⟨q, a⟩)
    asked := update m.asked i (m.asked i ++ [q]) })

/-- `Slot.__call__` of the slot `i`. A callable that raises leaves nothing in the cache. -/
def call (m : SourceMap κ ν ρ) (body : Body κ ν ρ) (i : ℕ) : Option ρ × SourceMap κ ν ρ :=
  match m.cache i with
  | some value => (some value, m)
  | none =>
    let (value, m) := body.exec (consult i) { m with told := update m.told i [] }
    (value, { m with cache := update m.cache i value })

def view (m : SourceMap κ ν ρ) : (q : Query κ) → Answer κ ν q
  | .get key => (m.keyed.get key).bind fun handle => m.cells[handle]?.map Source.value
  | .containsKey key => m.keyed.contains key
  | .len => m.keyed.length
  | .keys => m.keyed.order

/-! ## Runs -/

inductive Op (κ ν : Type) where
  | set (key : κ) (value : ν)
  | entry (key : κ) (default : ν)
  | remove (key : κ)
  | moveTo (key : κ) (index : ℤ)
  | moveBefore (key anchor : κ)
  | moveAfter (key anchor : κ)

variable [DecidableEq ν]

def perform (m : SourceMap κ ν ρ) : Op κ ν → SourceMap κ ν ρ
  | .set key value => m.set key value
  | .entry key default => (m.entry key default).2
  | .remove key => (m.remove key).2
  | .moveTo key index => (m.moveTo key index).2
  | .moveBefore key anchor => (m.moveBefore key anchor).2
  | .moveAfter key anchor => (m.moveAfter key anchor).2

inductive Act (κ ν : Type) where
  | op (op : Op κ ν)
  | call (i : ℕ)

def act (body : ℕ → Body κ ν ρ) (m : SourceMap κ ν ρ) : Act κ ν → SourceMap κ ν ρ
  | .op op => m.perform op
  | .call i => (m.call (body i) i).2

/-- The slots have the callables that `body` says. -/
def run (body : ℕ → Body κ ν ρ) (acts : List (Act κ ν)) : SourceMap κ ν ρ :=
  acts.foldl (act body) new

end SourceMap

end LazilyPy.Collection

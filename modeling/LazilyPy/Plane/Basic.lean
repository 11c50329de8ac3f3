import Mathlib.Data.List.Sort
import LazilyPy.Ipc.Arena
import LazilyPy.Lib.Latest
import LazilyPy.Lib.Keys

/-!
# The CRDT plane

A plane keeps the winning operation of each node and key. It drops operations whose node and stamp it
has applied before, observes the greatest stamp of each peer, and binds the keys of registered families
to nodes.
-/

namespace LazilyPy.Plane

open List

/-! ## On the wire -/

inductive IpcValue where
  | inline (data : List UInt8)
  | sharedBlob (blob : Ipc.ShmBlobRef)
  deriving DecidableEq, Repr

inductive NodeKeyError where
  | empty
  | tooLong (length : ℕ)
  | tooManySegments (segments : ℕ)
  | emptySegment
  deriving DecidableEq, Repr

def nodeKeyMaxLen : ℕ := 1024

def nodeKeyMaxSegments : ℕ := 32

def NodeKeyError.message : NodeKeyError → String
  | empty => "node key path is empty"
  | tooLong length => s!"node key path is {length} bytes, exceeds {nodeKeyMaxLen}"
  | tooManySegments segments => s!"node key has {segments} segments, exceeds {nodeKeyMaxSegments}"
  | emptySegment => "node key path has an empty segment"

structure NodeKey where
  path : String
  deriving DecidableEq, Repr

def NodeKey.new (path : String) : Except NodeKeyError NodeKey :=
  let byteLen := (path.toList.map Char.utf8Size).sum
  let parts := path.toList.splitOn '/'
  if path = "" then .error .empty
  else if nodeKeyMaxLen < byteLen then .error (.tooLong byteLen)
  else if [] ∈ parts then .error .emptySegment
  else if nodeKeyMaxSegments < parts.length then .error (.tooManySegments parts.length)
  else .ok ⟨path⟩

/-- One operation: the state of a register under the stamp that produced it. -/
structure CrdtOp where
  node : ℤ
  key : Option NodeKey
  stamp : Stamp
  state : IpcValue
  deriving DecidableEq, Repr

structure CrdtSync where
  frontier : List (ℤ × Stamp)
  ops : List CrdtOp
  deriving DecidableEq, Repr

/-! ## The plane -/

structure PlaneEntry where
  node : ℤ
  key : Option NodeKey
  stamp : Stamp
  state : List UInt8
  deriving DecidableEq, Repr

namespace PlaneEntry

def entryKey (e : PlaneEntry) : ℤ × Option String :=
  (e.node, e.key.map NodeKey.path)

def truth (e : PlaneEntry) : Bool :=
  match e.state with
  | [] => false
  | byte :: _ => byte ≠ 0

def toOp (e : PlaneEntry) : CrdtOp :=
  ⟨e.node, e.key, e.stamp, .inline e.state⟩

end PlaneEntry

/-- The entry that an operation writes. A blob leaves no payload. -/
def CrdtOp.entry (op : CrdtOp) : PlaneEntry :=
  ⟨op.node, op.key, op.stamp, match op.state with
    | .inline data => data
    | .sharedBlob _ => []⟩

def familyNodeBase : ℤ := 2 ^ 48

structure CrdtPlaneRuntime where
  selfPeer : ℤ := 0
  entries : Table PlaneEntry.entryKey := .empty _
  applied : List (ℤ × Stamp) := []
  frontier : Table (Prod.fst : ℤ × Stamp → ℤ) := .empty _
  families : List String := []
  familyMembers : Table (Prod.fst : String × List String → String) := .empty _
  familyEpoch : ℕ := 0
  nextFamilyNode : ℤ := familyNodeBase
  keyToNode : Table (Prod.fst : String × ℤ → String) := .empty _
  localLogical : ℤ := 0

def namespaceOf (path : String) : String :=
  String.ofList (path.toList.takeWhile (· ≠ '/'))

def familyPath (ns keySuffix : String) : String :=
  ns ++ "/" ++ keySuffix

namespace CrdtPlaneRuntime

/-! ### Families -/

def registerFamilyLww (ns : String) (p : CrdtPlaneRuntime) : CrdtPlaneRuntime :=
  { p with
    families := if ns ∈ p.families then p.families else p.families ++ [ns]
    familyMembers := if (p.familyMembers.get? ns).isSome then p.familyMembers
      else p.familyMembers.put (ns, []) }

/-- The loop of `_mint_family_node` from a candidate on, past at most `fuel` nodes in use. -/
def mintLoop (nodes : List ℤ) : ℕ → ℤ → ℤ
  | 0, candidate => candidate
  | fuel + 1, candidate =>
    if candidate ∈ nodes then mintLoop nodes fuel (candidate + 1) else candidate

def nodes (p : CrdtPlaneRuntime) : List ℤ :=
  p.entries.rows.map PlaneEntry.node

def mintFamilyNode (p : CrdtPlaneRuntime) : ℤ × CrdtPlaneRuntime :=
  let candidate := mintLoop p.nodes p.nodes.length p.nextFamilyNode
  (candidate, { p with nextFamilyNode := candidate + 1 })

def nodeOrMint (node : Option ℤ) (p : CrdtPlaneRuntime) : ℤ × CrdtPlaneRuntime :=
  match node with
  | some n => (n, p)
  | none => p.mintFamilyNode

def bindPath (path ns : String) (node : ℤ) (p : CrdtPlaneRuntime) : CrdtPlaneRuntime :=
  let members := ((p.familyMembers.get? ns).map Prod.snd).getD []
  { p with
    keyToNode := p.keyToNode.put (path, node)
    familyMembers := p.familyMembers.put (ns, if path ∈ members then members else members ++ [path])
    familyEpoch := p.familyEpoch + 1 }

/-- The node bound to a path. A path of a registered family that is not bound yet is bound first. -/
def materializeFamilyEntry (path : String) (node : Option ℤ) (p : CrdtPlaneRuntime) : ℤ × CrdtPlaneRuntime :=
  match p.keyToNode.get? path with
  | some (_, existing) => (existing, p)
  | none =>
    -- a node is minted even where the path then stays unbound
    let (bound, p) := p.nodeOrMint node
    if namespaceOf path ∈ p.families then (bound, p.bindPath path (namespaceOf path) bound)
    else (bound, p)

theorem mem_of_mintLoop_mem {nodes : List ℤ} {fuel : ℕ} {c : ℤ} (h : mintLoop nodes fuel c ∈ nodes) :
    ∀ i : ℕ, i ≤ fuel → c + i ∈ nodes := by
  induction fuel generalizing c with
  | zero =>
    intro i hi
    obtain rfl : i = 0 := by omega
    simpa [mintLoop] using h
  | succ fuel ih =>
    unfold mintLoop at h
    split at h
    · next hc =>
      -- the loop went on from a node in use to the next one
      rintro (_ | i) hi
      · simpa using hc
      · have hnext := ih h i (by omega)
        rwa [show c + ((i + 1 : ℕ) : ℤ) = c + 1 + i by omega]
    · next hc => exact absurd h hc

/-- A node that is minted is the node of no entry, so the loop needs no more fuel. -/
theorem mintFamilyNode_unused (p : CrdtPlaneRuntime) : p.mintFamilyNode.1 ∉ p.nodes := by
  intro h
  have hall := mem_of_mintLoop_mem h
  -- the loop would have met more nodes than there are
  have hsub : (range (p.nodes.length + 1)).map (fun i : ℕ => p.nextFamilyNode + i) ⊆ p.nodes := by
    intro n hn
    obtain ⟨i, hi, rfl⟩ := mem_map.mp hn
    exact hall i (by have := mem_range.mp hi; omega)
  have hnodup : ((range (p.nodes.length + 1)).map
      (fun i : ℕ => p.nextFamilyNode + i)).Nodup := by
    refine Nodup.map ?_ nodup_range
    intro i j hij
    dsimp only at hij
    omega
  have hlen := (subperm_of_subset hnodup hsub).length_le
  rw [length_map, length_range] at hlen
  omega

/-! ### Ingestion -/

def ingest (op : CrdtOp) (p : CrdtPlaneRuntime) : CrdtPlaneRuntime :=
  let p := { p with applied := (op.node, op.stamp) :: p.applied }
  let p := match op.key with
    | some key => (p.materializeFamilyEntry key.path (some op.node)).2
    | none => p
  { p with
    -- both keep what they have at an equal stamp
    frontier := p.frontier.keepLater Prod.snd (op.stamp.peer, op.stamp)
    entries := p.entries.keepLater PlaneEntry.stamp op.entry }

def apply (op : CrdtOp) (p : CrdtPlaneRuntime) : Bool × CrdtPlaneRuntime :=
  if (op.node, op.stamp) ∈ p.applied then (false, p) else (true, p.ingest op)

def applyOps (ops : List CrdtOp) (p : CrdtPlaneRuntime) : ℕ × CrdtPlaneRuntime :=
  ops.foldl (fun acc op =>
    let (new, p) := acc.2.apply op
    (if new then acc.1 + 1 else acc.1, p)) (0, p)

def observe (frontier : List (ℤ × Stamp)) (p : CrdtPlaneRuntime) : CrdtPlaneRuntime :=
  { p with frontier := frontier.foldl (Table.keepLater Prod.snd) p.frontier }

def applyFrame (frame : CrdtSync) (p : CrdtPlaneRuntime) : ℕ × CrdtPlaneRuntime :=
  let (applied, p) := p.applyOps frame.ops
  (applied, p.observe frame.frontier)

/-- Write a family entry, and give the operation to broadcast. A path that is no key is refused after
its node has been bound. -/
def familySetLww (ns keySuffix : String) (value : Bool) (now : ℤ) (p : CrdtPlaneRuntime) :
    Except NodeKeyError (Option CrdtOp) × CrdtPlaneRuntime :=
  let path := familyPath ns keySuffix
  let (node, p) := p.materializeFamilyEntry path none
  let p := { p with localLogical := p.localLogical + 1 }
  match NodeKey.new path with
  | .error e => (.error e, p)
  | .ok key =>
    let op : CrdtOp := ⟨node, some key, ⟨now, p.localLogical, p.selfPeer⟩, .inline [if value then 1 else 0]⟩
    let (new, p) := p.apply op
    (.ok (if new then some op else none), p)

/-! ### Queries -/

def familyValueLww (ns keySuffix : String) (p : CrdtPlaneRuntime) : Option Bool :=
  let path := familyPath ns keySuffix
  match p.keyToNode.get? path with
  | none => none
  | some (_, node) => (p.entries.rows.find? fun e =>
      e.node = node ∧ e.key.map NodeKey.path = some path).map PlaneEntry.truth

def stabilityWatermark (p : CrdtPlaneRuntime) : Option Stamp :=
  (p.frontier.rows.map Prod.snd).min?

def frontierItems (p : CrdtPlaneRuntime) : List (ℤ × Stamp) :=
  p.frontier.rows.insertionSort fun a b => a.1 ≤ b.1

def toSync (p : CrdtPlaneRuntime) : CrdtSync :=
  ⟨p.frontierItems, p.entries.rows.map PlaneEntry.toOp⟩

/-- The stamp that a frontier has of a peer, where a later entry replaces an earlier one. -/
def frontierStamp (frontier : List (ℤ × Stamp)) (peer : ℤ) : Stamp :=
  (((Table.empty (Prod.fst : ℤ × Stamp → ℤ)).putAll frontier).get? peer).elim ⟨0, 0, 0⟩ Prod.snd

def deltaSync (theirFrontier : List (ℤ × Stamp)) (p : CrdtPlaneRuntime) : CrdtSync :=
  ⟨p.frontierItems, (p.entries.rows.filter fun e =>
    frontierStamp theirFrontier e.stamp.peer < e.stamp).map PlaneEntry.toOp⟩

end CrdtPlaneRuntime

end LazilyPy.Plane

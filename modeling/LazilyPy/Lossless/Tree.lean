import Mathlib.Data.Finset.Card
import LazilyPy.Lib.Loop
import LazilyPy.Lib.StableSort
import LazilyPy.Lossless.Key
import LazilyPy.Text.Crdt

/-!
# The lossless tree

A replica holds the nodes of one document. Elements have children, leaves have text, and what the document shows is
the text of the live leaves in the order of the tree. Replicas exchange operations; an operation waits until what it
is about is there. Which operations a replica has applied is a dotted frontier: for each peer a prefix of its
counters, and those above the prefix that have come out of order.
-/

namespace LazilyPy.Lossless

/-! ### Dotted frontiers -/

/-- The observed counters of one peer: all up to `contiguous`, and those in `sparse`. -/
structure DotRange where
  contiguous : ℕ := 0
  sparse : Finset ℕ := ∅
  deriving DecidableEq

namespace DotRange

def contains (r : DotRange) (counter : ℕ) : Bool :=
  counter ≤ r.contiguous ∨ counter ∈ r.sparse

/-- One round of the loop that takes the counters behind the prefix into it. -/
def extend (r : DotRange) : Option DotRange :=
  if r.contiguous + 1 ∈ r.sparse then some ⟨r.contiguous + 1, r.sparse.erase (r.contiguous + 1)⟩ else none

def observe (r : DotRange) (counter : ℕ) : DotRange :=
  if counter ≤ r.contiguous then r
  else loop extend (insert counter r.sparse).card { r with sparse := insert counter r.sparse }

end DotRange

structure TreeVersionFrontier where
  dots : Table (Prod.fst (α := ℤ) (β := DotRange)) := .empty _

namespace TreeVersionFrontier

def range (f : TreeVersionFrontier) (peer : ℤ) : DotRange :=
  ((f.dots.get? peer).map Prod.snd).getD {}

def contains (f : TreeVersionFrontier) (d : Dot) : Bool :=
  match f.dots.get? d.peer with
  | none => false
  | some r => r.2.contains d.counter

def observe (f : TreeVersionFrontier) (d : Dot) : TreeVersionFrontier :=
  ⟨f.dots.put (d.peer, (f.range d.peer).observe d.counter)⟩

end TreeVersionFrontier

end LazilyPy.Lossless

namespace LazilyPy.Lossless

/-! ### The tree -/

open Text (TextCrdt TextOp)

abbrev TreeOpId := Dot

def ROOT : TreeOpId :=
  ⟨0, 0⟩

inductive LeafKind where
  | token
  | trivia
  | raw
  | error
  deriving DecidableEq

inductive NodeSeed where
  | element (kind : String)
  | leaf (kind : LeafKind) (text : List Char)
  deriving DecidableEq

inductive TreeOpKind where
  | createNode (id parent : TreeOpId) (sort : SortKey) (seed : NodeSeed)
  | tombstone (node : TreeOpId)
  | reorder (node : TreeOpId) (sort : SortKey)
  | leafEdit (node prev : TreeOpId) (ops : List (TextOp Char))
  | splitLeaf (node new : TreeOpId) (sort : SortKey) (atChar : ℕ) (prev : TreeOpId)
  | mergeLeaves (left right prevLeft prevRight : TreeOpId)

structure TreeOp where
  id : TreeOpId
  kind : TreeOpKind

inductive NodeBody where
  | leaf (kind : LeafKind) (text : TextCrdt Char)
  | element (kind : String)

structure NodeRecord where
  id : TreeOpId
  parent : Option TreeOpId
  sort : SortKey
  sortStamp : TreeOpId
  body : NodeBody
  tomb : Option TreeOpId := none
  textHead : TreeOpId := ROOT

/-- The earlier of the tombstone that is there and the one that comes. -/
def NodeRecord.bury (r : NodeRecord) (id : TreeOpId) : NodeRecord :=
  { r with tomb := some (match r.tomb with | none => id | some tomb => min tomb id) }

/-- One replica. The index of the children is not kept: it has for each parent the nodes under it, in the order in
which they have come. -/
structure LosslessTreeCrdt where
  peer : ℤ
  counter : ℕ := 0
  nodes : Table NodeRecord.id
  frontier : TreeVersionFrontier := {}
  log : List TreeOp := []
  buffered : List TreeOp := []

/-- `byte_to_char(text, byte_offset)`: the number of characters before the byte, if it is where a character
starts. -/
def byteToChar : List Char → ℤ → Option ℕ
  | [], byte => if byte = 0 then some 0 else none
  | c :: text, byte =>
    if byte = 0 then some 0
    else if byte < c.utf8Size then none
    else (byteToChar text (byte - c.utf8Size)).map (· + 1)

namespace LosslessTreeCrdt

def rootRecord : NodeRecord where
  id := ROOT
  parent := none
  sort := ⟨[], 0⟩
  sortStamp := ROOT
  body := .element "root"

/-- `LosslessTreeCrdt(peer)`. -/
def new (peer : ℤ) : LosslessTreeCrdt where
  peer := peer
  nodes := (Table.empty _).put rootRecord

def get? (s : LosslessTreeCrdt) (node : TreeOpId) : Option NodeRecord :=
  s.nodes.get? node

/-- The copy under another peer. The texts are copied under their own. -/
def fork (s : LosslessTreeCrdt) (peer : ℤ) : LosslessTreeCrdt :=
  { s with
    peer
    nodes := s.nodes.map (fun r =>
      match r.body with
      | .leaf kind text => { r with body := .leaf kind (text.fork text.peer) }
      | .element _ => r) fun r => by split <;> rfl }

/-! ## Reading -/

def liveRecords (s : LosslessTreeCrdt) (parent : TreeOpId) : List NodeRecord :=
  sortBy NodeRecord.sort (s.nodes.rows.filter fun r => r.parent = some parent ∧ r.tomb = none)

/-- `_live_children(parent)`. -/
def children (s : LosslessTreeCrdt) (parent : TreeOpId) : List TreeOpId :=
  (s.liveRecords parent).map NodeRecord.id

/-- `walk(node)`, to a depth. -/
def walkTo (s : LosslessTreeCrdt) : ℕ → TreeOpId → List Char
  | 0, _ => []
  | depth + 1, node =>
    match s.get? node with
    | none => []
    | some r =>
      match r.body with
      | .leaf _ text => text.text
      | .element _ => (s.children node).flatMap (s.walkTo depth)

/-- `walk(node)`. Children have higher counters than their parents, so that no path is longer than this depth. -/
def walk (s : LosslessTreeCrdt) (node : TreeOpId) : List Char :=
  s.walkTo (s.counter + 1 - node.counter) node

def render (s : LosslessTreeCrdt) : List Char :=
  s.walk ROOT

def leafText (s : LosslessTreeCrdt) (node : TreeOpId) : Except String (NodeRecord × List Char) :=
  match s.get? node with
  | none => .error "node not found"
  | some r =>
    match r.body with
    | .leaf _ text => .ok (r, text.text)
    | .element _ => .error "node is not a leaf"

/-! ## Applying operations -/

def modify (s : LosslessTreeCrdt) (node : TreeOpId) (f : NodeRecord → NodeRecord) : LosslessTreeCrdt :=
  match s.get? node with
  | none => s
  | some r => { s with nodes := s.nodes.put (f r) }

/-- Put a new node into the map, and into the bucket of its parent. -/
def addNode (s : LosslessTreeCrdt) (r : NodeRecord) : LosslessTreeCrdt :=
  { s with nodes := s.nodes.put r }

def seedBody (id : TreeOpId) : NodeSeed → NodeBody
  | .leaf kind text => .leaf kind (TextCrdt.seed id.peer text)
  | .element kind => .element kind

def applySplit (s : LosslessTreeCrdt) (node newNode : TreeOpId) (sort : SortKey) (atChar : ℕ) (id : TreeOpId) :
    LosslessTreeCrdt :=
  match s.get? node with
  | none => s
  | some r =>
    match r.body with
    | .element _ => s
    | .leaf kind text =>
      let clamp := min atChar text.text.length
      let head := text.text.take clamp
      let tail := text.text.drop clamp
      let s := s.modify node fun r =>
        { r with body := .leaf kind (TextCrdt.seed node.peer head), textHead := id }
      if (s.get? newNode).isNone ∧ r.parent.isSome then
        s.addNode {
          id := newNode
          parent := r.parent
          sort
          sortStamp := id
          body := .leaf kind (TextCrdt.seed newNode.peer tail) }
      else s

def applyMerge (s : LosslessTreeCrdt) (left right id : TreeOpId) : LosslessTreeCrdt :=
  match s.get? left, s.get? right with
  | some l, some r =>
    match l.body, r.body with
    | .leaf kind text, .leaf _ text' =>
      let s := s.modify left fun l =>
        { l with body := .leaf kind (TextCrdt.seed left.peer (text.text ++ text'.text)), textHead := id }
      s.modify right fun r => r.bury id
    | _, _ => s
  | _, _ => s

def applyOp (s : LosslessTreeCrdt) (op : TreeOp) : LosslessTreeCrdt :=
  match op.kind with
  | .createNode id parent sort seed =>
    if (s.get? id).isSome then s
    else
      s.addNode {
        id
        parent := some parent
        sort
        sortStamp := op.id
        body := seedBody id seed
        textHead := op.id }
  | .tombstone node => s.modify node fun r => r.bury op.id
  | .reorder node sort =>
    s.modify node fun r => if r.sortStamp < op.id then { r with sort, sortStamp := op.id } else r
  | .leafEdit node _ ops =>
    s.modify node fun r =>
      match r.body with
      | .leaf kind text => { r with body := .leaf kind (text.applyDelta ops).2, textHead := op.id }
      | .element _ => r
  | .splitLeaf node newNode sort atChar _ => s.applySplit node newNode sort atChar op.id
  | .mergeLeaves left right _ _ => s.applyMerge left right op.id

def record (s : LosslessTreeCrdt) (op : TreeOp) : LosslessTreeCrdt :=
  { s with frontier := s.frontier.observe op.id, log := s.log ++ [op] }

def commitLocal (s : LosslessTreeCrdt) (op : TreeOp) : LosslessTreeCrdt :=
  (s.applyOp op).record op

/-! ## Local operations -/

def keyAfter (s : LosslessTreeCrdt) (parent : TreeOpId) (after : Option TreeOpId) : SortKey :=
  let order := s.liveRecords parent
  let bounds : Option NodeRecord × Option NodeRecord :=
    match after with
    | none => (none, order.head?)
    | some anchor =>
      match order.dropWhile fun r => r.id ≠ anchor with
      | [] => (order.getLast?, none)
      | r :: rest => (some r, rest.head?)
  ⟨keyBetween (bounds.1.map fun r => r.sort.frac) (bounds.2.map fun r => r.sort.frac), s.peer⟩

def nextOpId (s : LosslessTreeCrdt) : TreeOpId :=
  ⟨s.counter + 1, s.peer⟩

def commitNext (s : LosslessTreeCrdt) (kind : TreeOpKind) : LosslessTreeCrdt :=
  { s with counter := s.counter + 1 }.commitLocal ⟨s.nextOpId, kind⟩

def createNode (s : LosslessTreeCrdt) (parent : TreeOpId) (after : Option TreeOpId) (seed : NodeSeed) :
    Except String (TreeOpId × LosslessTreeCrdt) :=
  match s.get? parent with
  | none => .error "node not found"
  | some _ =>
    .ok (s.nextOpId, s.commitNext (.createNode s.nextOpId parent (s.keyAfter parent after) seed))

def tombstoneNode (s : LosslessTreeCrdt) (node : TreeOpId) : Except String LosslessTreeCrdt :=
  if (s.get? node).isNone ∨ node = ROOT then .error "node not found"
  else .ok (s.commitNext (.tombstone node))

def reorderChild (s : LosslessTreeCrdt) (node : TreeOpId) (after : Option TreeOpId) :
    Except String LosslessTreeCrdt :=
  match (s.get? node).bind NodeRecord.parent with
  | none => .error "node not found"
  | some parent => .ok (s.commitNext (.reorder node (s.keyAfter parent after)))

/-- Delete `count` characters at one index. -/
def deleteRun (t : TextCrdt Char) (start : ℕ) : ℕ → TextCrdt Char
  | 0 => t
  | count + 1 => deleteRun (t.delete start).2 start count

def editLeaf (s : LosslessTreeCrdt) (node : TreeOpId) (atByte deleteBytes : ℤ) (insert : List Char) :
    Except String LosslessTreeCrdt := do
  let (r, text) ← s.leafText node
  match byteToChar text atByte, byteToChar text (atByte + deleteBytes), r.body with
  | some start, some stop, .leaf kind t =>
    -- The leaf's text is taken over, so that the edits of different peers have different ids.
    let owned := t.fork s.peer
    let edited := ((deleteRun owned start (stop - start)).insertStr start insert).2
    let s := s.modify node fun r => { r with body := .leaf kind edited }
    .ok (s.commitNext (.leafEdit node r.textHead (edited.deltaSince owned.versionVector)))
  | _, _, _ => .error "offset not on a char boundary"

def splitLeaf (s : LosslessTreeCrdt) (node : TreeOpId) (atByte : ℤ) :
    Except String (TreeOpId × LosslessTreeCrdt) := do
  let (r, text) ← s.leafText node
  match byteToChar text atByte with
  | none => .error "offset not on a char boundary"
  | some atChar =>
    match r.parent with
    | none => .error "node not found"
    | some parent =>
      .ok (s.nextOpId, s.commitNext (.splitLeaf node s.nextOpId (s.keyAfter parent (some node)) atChar r.textHead))

def mergeAdjacentLeaves (s : LosslessTreeCrdt) (left right : TreeOpId) : Except String LosslessTreeCrdt := do
  let (l, _) ← s.leafText left
  let (r, _) ← s.leafText right
  match l.parent with
  | none => .error "node not found"
  | some parent =>
    if ((s.children parent).dropWhile (· ≠ left)).tail.head? = some right then
      .ok (s.commitNext (.mergeLeaves left right l.textHead r.textHead))
    else .error "leaves are not adjacent live siblings"

/-! ## Exchanging operations -/

/-- `diff(their)`: the operations that the frontier lacks, in the order of their ids. -/
def diff (s : LosslessTreeCrdt) (their : TreeVersionFrontier) : List TreeOp :=
  sortBy TreeOp.id (s.log.filter fun op => !their.contains op.id)

def dependenciesReady (s : LosslessTreeCrdt) (op : TreeOp) : Bool :=
  match op.kind with
  | .createNode _ parent _ _ => (s.get? parent).isSome
  | .tombstone node => (s.get? node).isSome
  | .reorder node _ => (s.get? node).isSome
  | .leafEdit node prev _ => (s.get? node).isSome && s.frontier.contains prev
  | .splitLeaf node _ _ _ prev => (s.get? node).isSome && s.frontier.contains prev
  | .mergeLeaves left right prevLeft prevRight =>
    (s.get? left).isSome && (s.get? right).isSome && s.frontier.contains prevLeft && s.frontier.contains prevRight

/-- One operation of a pass over the buffer, and whether it has been applied. -/
def drainOne (acc : Bool × LosslessTreeCrdt) (op : TreeOp) : Bool × LosslessTreeCrdt :=
  if acc.2.frontier.contains op.id then acc
  else if acc.2.dependenciesReady op then (true, acc.2.commitLocal op)
  else (acc.1, { acc.2 with buffered := acc.2.buffered ++ [op] })

/-- One pass over the buffer, and whether anything has been applied. -/
def drainPass (s : LosslessTreeCrdt) : Bool × LosslessTreeCrdt :=
  s.buffered.foldl drainOne (false, { s with buffered := [] })

/-- `_drain_buffered()`. A pass that goes on applies an operation, so that there are no more passes than buffered
operations and one. -/
def drain : ℕ → LosslessTreeCrdt → LosslessTreeCrdt
  | 0, s => s
  | passes + 1, s => if s.drainPass.1 then drain passes s.drainPass.2 else s.drainPass.2

/-- One operation of an update is buffered, unless it has been applied. -/
def receive (s : LosslessTreeCrdt) (op : TreeOp) : LosslessTreeCrdt :=
  let s := { s with counter := max s.counter op.id.counter }
  if s.frontier.contains op.id then s else { s with buffered := s.buffered ++ [op] }

def applyUpdate (s : LosslessTreeCrdt) (ops : List TreeOp) : LosslessTreeCrdt :=
  let s := ops.foldl receive s
  drain (s.buffered.length + 1) s

end LosslessTreeCrdt

end LazilyPy.Lossless

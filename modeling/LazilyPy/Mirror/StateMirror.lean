import LazilyPy.Lib.Loop
import LazilyPy.Lib.Table
import Mathlib.Algebra.Order.Ring.Int
import Mathlib.Data.List.Sort

/-!
# The state mirror

A mirror keeps the last payload of every node that it tracks, and what has been published since the last
flush. A flush makes a delta of it. A replica starts from a snapshot and applies deltas.
-/

namespace LazilyPy.Mirror

open List Option Function

/-! ### On the wire -/

abbrev NodeId := Fin (2 ^ 64)

def u64Max : ℤ := 2 ^ 64 - 1

inductive NodeState
  | payload (data : List UInt8)
  | opaqueState
  deriving DecidableEq, Repr

structure NodeSnapshot where
  node : NodeId
  typeTag : String
  state : NodeState
  deriving DecidableEq, Repr

structure EdgeSnapshot where
  dependent : NodeId
  dependency : NodeId
  deriving DecidableEq, Repr

structure Snapshot where
  epoch : ℤ
  nodes : List NodeSnapshot
  edges : List EdgeSnapshot
  roots : List NodeId
  deriving DecidableEq, Repr

inductive DeltaOp
  | cellSet (node : NodeId) (payload : List UInt8)
  | slotValue (node : NodeId) (payload : List UInt8)
  | invalidate (node : NodeId)
  deriving DecidableEq, Repr

structure Delta where
  baseEpoch : ℤ
  epoch : ℤ
  ops : List DeltaOp
  deriving DecidableEq, Repr

/-- The delta of one epoch. It is refused if an epoch does not fit. -/
def Delta.next (baseEpoch : ℤ) (ops : List DeltaOp) : Option Delta :=
  if (0 ≤ baseEpoch ∧ baseEpoch ≤ u64Max) ∧ 0 ≤ baseEpoch + 1 ∧ baseEpoch + 1 ≤ u64Max then
    some ⟨baseEpoch, baseEpoch + 1, ops⟩
  else none

/-! ### The mirror -/

inductive MirrorKind
  | cell | slot
  deriving DecidableEq, Repr

structure MirrorEntry where
  node : NodeId
  kind : MirrorKind
  typeTag : String
  payload : Option (List UInt8) := none
  lastPublishedEpoch : ℤ := -1
  deriving DecidableEq, Repr

structure StateMirror where
  epoch : ℤ := 0
  nodes : Table MirrorEntry.node := .empty _
  edges : List EdgeSnapshot := []
  pendingCellSets : Table (Prod.fst : NodeId × List UInt8 → NodeId) := .empty _
  pendingInvalidations : List NodeId := []

def MirrorEntry.isCell (entry : MirrorEntry) : Bool :=
  entry.kind = .cell

def MirrorEntry.state (entry : MirrorEntry) : NodeState :=
  entry.payload.elim .opaqueState .payload

namespace StateMirror

/-! ### Registration -/

def track (kind : MirrorKind) (node : NodeId) (typeTag : String) (payload : Option (List UInt8))
    (s : StateMirror) : StateMirror :=
  match s.nodes.get? node with
  | none => { s with nodes := s.nodes.put ⟨node, kind, typeTag, payload, -1⟩ }
  | some entry =>
    { s with nodes := s.nodes.put { entry with
        kind := kind
        typeTag := typeTag
        payload := payload.or entry.payload } }

def trackCell (node : NodeId) (typeTag : String) (payload : Option (List UInt8)) (s : StateMirror) : StateMirror :=
  s.track .cell node typeTag payload

def trackSlot (node : NodeId) (typeTag : String) (payload : Option (List UInt8)) (s : StateMirror) : StateMirror :=
  s.track .slot node typeTag payload

def addEdge (dependent dependency : NodeId) (s : StateMirror) : StateMirror :=
  let edge : EdgeSnapshot := ⟨dependent, dependency⟩
  { s with edges := if edge ∈ s.edges then s.edges else s.edges ++ [edge] }

/-! ### Mutations -/

/-- Record the value of a cell. A node that is not tracked is refused. -/
def publishCell (node : NodeId) (payload : List UInt8) (s : StateMirror) : Option StateMirror :=
  match s.nodes.get? node with
  | none => none
  | some entry => some
    { s with
      nodes := s.nodes.put { entry with payload := some payload }
      pendingCellSets := s.pendingCellSets.put (node, payload) }

def invalidateSlot (node : NodeId) (payload : Option (List UInt8)) (s : StateMirror) : Option StateMirror :=
  match s.nodes.get? node with
  | none => none
  | some entry => some
    { s with
      nodes := s.nodes.put { entry with payload := payload.or entry.payload }
      pendingInvalidations := s.pendingInvalidations.insert node }

/-! ### Snapshots -/

def nodeSnapshot (entry : MirrorEntry) : NodeSnapshot :=
  ⟨entry.node, entry.typeTag, entry.state⟩

def snapshot (s : StateMirror) : Snapshot where
  epoch := s.epoch
  nodes := (s.nodes.rows.insertionSort fun a b => a.node ≤ b.node).map nodeSnapshot
  edges := s.edges
  roots := ((s.nodes.rows.filter MirrorEntry.isCell).map MirrorEntry.node).insertionSort (· ≤ ·)

/-! ### Flushes -/

def bumpEpoch (s : StateMirror) : StateMirror :=
  { s with epoch := s.epoch + 1 }

/-- Flush the value of a cell, unless it has been published in this epoch and is the same. -/
def flushCell (epoch : ℤ) (acc : List DeltaOp × Table MirrorEntry.node)
    (pending : NodeId × List UInt8) : List DeltaOp × Table MirrorEntry.node :=
  match acc.2.get? pending.1 with
  | none => acc
  | some entry =>
    if entry.lastPublishedEpoch = epoch ∧ entry.payload = some pending.2 then acc
    else
      (acc.1 ++ [.cellSet pending.1 pending.2], acc.2.put { entry with lastPublishedEpoch := epoch })

def flushSlot (epoch : ℤ) (acc : List DeltaOp × Table MirrorEntry.node) (node : NodeId) :
    List DeltaOp × Table MirrorEntry.node :=
  match acc.2.get? node with
  | none => acc
  | some entry =>
    (acc.1 ++ [entry.payload.elim (.invalidate node) (.slotValue node)],
      acc.2.put { entry with lastPublishedEpoch := epoch })

/-- The operations of a flush, and the nodes after it: cells first. -/
def flushOps (s : StateMirror) : List DeltaOp × Table MirrorEntry.node :=
  let cells := s.pendingCellSets.rows.insertionSort fun a b => a.1 ≤ b.1
  let slots := s.pendingInvalidations.insertionSort (· ≤ ·)
  slots.foldl (flushSlot s.epoch) (cells.foldl (flushCell s.epoch) ([], s.nodes))

/-- Flush what is pending. It is gone even where the epoch of the delta does not fit. -/
def flushDelta (s : StateMirror) : Option Delta × StateMirror :=
  (Delta.next s.epoch s.flushOps.1,
    { s with
      nodes := s.flushOps.2
      pendingCellSets := .empty _
      pendingInvalidations := [] })

def flushAndBump (s : StateMirror) : Option Delta × StateMirror :=
  match s.flushDelta with
  | (some delta, s) => (some delta, s.bumpEpoch)
  | (none, s) => (none, s)

end StateMirror

/-! ### Runs -/

inductive Registration
  | trackCell (node : NodeId) (typeTag : String) (payload : Option (List UInt8))
  | trackSlot (node : NodeId) (typeTag : String) (payload : Option (List UInt8))
  | addEdge (dependent dependency : NodeId)

inductive MirrorOp
  | publishCell (node : NodeId) (payload : List UInt8)
  | invalidateSlot (node : NodeId) (payload : Option (List UInt8))
  | snapshot
  | flushDelta
  | bumpEpoch
  | flushAndBump
  deriving DecidableEq, Repr

namespace StateMirror

def register (s : StateMirror) : Registration → StateMirror
  | .trackCell node typeTag payload => s.trackCell node typeTag payload
  | .trackSlot node typeTag payload => s.trackSlot node typeTag payload
  | .addEdge dependent dependency => s.addEdge dependent dependency

def of (registrations : List Registration) : StateMirror :=
  registrations.foldl register {}

/-- The mirror after a call. A call that is refused changes nothing. -/
def step (s : StateMirror) : MirrorOp → StateMirror
  | .publishCell node payload => (s.publishCell node payload).getD s
  | .invalidateSlot node payload => (s.invalidateSlot node payload).getD s
  | .snapshot => s
  | .flushDelta => s.flushDelta.2
  | .bumpEpoch => s.bumpEpoch
  | .flushAndBump => s.flushAndBump.2

def flushed (s : StateMirror) : MirrorOp → Option Delta
  | .flushDelta => s.flushDelta.1
  | .flushAndBump => s.flushAndBump.1
  | _ => none

def run (s : StateMirror) (ops : List MirrorOp) : StateMirror :=
  ops.foldl step s

theorem run_concat (s : StateMirror) (ops : List MirrorOp) (op : MirrorOp) :
    s.run (ops ++ [op]) = (s.run ops).step op :=
  foldl_concat ..

end StateMirror

/-! ### Replicas -/

abbrev Replica := NodeId → Option NodeState

def Snapshot.image (snapshot : Snapshot) : Replica := fun node =>
  (snapshot.nodes.find? fun n => n.node = node).map NodeSnapshot.state

namespace Replica

def apply (r : Replica) : DeltaOp → Replica
  | .cellSet node payload => update r node (some (.payload payload))
  | .slotValue node payload => update r node (some (.payload payload))
  | .invalidate node => update r node (some .opaqueState)

def replay (r : Replica) (ops : List DeltaOp) : Replica :=
  ops.foldl apply r

theorem replay_append (r : Replica) (ops ops' : List DeltaOp) : r.replay (ops ++ ops') = (r.replay ops).replay ops' :=
  foldl_append ..

/-- The replica after a call on the mirror, of which it is sent the delta. -/
def follow (s : StateMirror) (r : Replica) (op : MirrorOp) : Replica :=
  (s.flushed op).elim r fun delta => r.replay delta.ops

def run : StateMirror → Replica → List MirrorOp → Replica
  | _, r, [] => r
  | s, r, op :: ops => run (s.step op) (r.follow s op) ops

theorem run_concat (s : StateMirror) (r : Replica) (ops : List MirrorOp) (op : MirrorOp) :
    run s r (ops ++ [op]) = (run s r ops).follow (s.run ops) op := by
  induction ops generalizing s r with
  | nil => rfl
  | cons first ops ih => exact ih (s.step first) (r.follow s first)

end Replica

/-! ### What a flush does to a replica -/

namespace StateMirror

variable {s : StateMirror} {n : NodeId} {r : Replica} {op : MirrorOp} {entry : MirrorEntry}

def state (s : StateMirror) : Replica := fun n =>
  (s.nodes.get? n).map MirrorEntry.state

def Pending (s : StateMirror) (n : NodeId) : Prop :=
  (s.pendingCellSets.get? n).isSome ∨ n ∈ s.pendingInvalidations

/-- The next flush takes the node for one that has been published: it has been in this epoch, and only a
value of it as a cell is pending. -/
def Suppresses (s : StateMirror) (n : NodeId) : Prop :=
  (s.pendingCellSets.get? n).isSome ∧ n ∉ s.pendingInvalidations ∧
    ∃ entry, s.nodes.get? n = some entry ∧ entry.lastPublishedEpoch = s.epoch

structure Sound (s : StateMirror) : Prop where
  epoch : 0 ≤ s.epoch
  nodup : s.pendingInvalidations.Nodup
  slots : ∀ n ∈ s.pendingInvalidations, (s.nodes.get? n).isSome
  cells : ∀ n p, s.pendingCellSets.get? n = some p → ∃ entry, s.nodes.get? n = some entry ∧
    (n ∉ s.pendingInvalidations → entry.payload = some p.2)

/-- A snapshot has the states of the nodes. -/
theorem image_snapshot (s : StateMirror) : s.snapshot.image = s.state := by
  funext n
  have hfind := Table.find?_eq_of_perm (perm_insertionSort (fun a b => a.node ≤ b.node) s.nodes.rows) s.nodes.nodup n
  show (find? _ (map nodeSnapshot _)).map _ = _
  rw [find?_map, Option.map_map]
  exact congrArg (Option.map _) hfind

/-- What the loops of a flush have of a node: its entry, and what a replica holds. -/
def view (r : Replica) (acc : List DeltaOp × Table MirrorEntry.node) (n : NodeId) :
    Option MirrorEntry × Option NodeState :=
  (acc.2.get? n, r.replay acc.1 n)

def ownCell (epoch : ℤ) (pending : NodeId × List UInt8) :
    Option MirrorEntry × Option NodeState → Option MirrorEntry × Option NodeState
  | (none, held) => (none, held)
  | (some entry, held) =>
    if entry.lastPublishedEpoch = epoch ∧ entry.payload = some pending.2 then (some entry, held)
    else (some { entry with lastPublishedEpoch := epoch }, some (.payload pending.2))

def ownSlot (epoch : ℤ) : Option MirrorEntry × Option NodeState → Option MirrorEntry × Option NodeState
  | (none, held) => (none, held)
  | (some entry, _) => (some { entry with lastPublishedEpoch := epoch }, some entry.state)

theorem view_put (acc : List DeltaOp × Table MirrorEntry.node) {op : DeltaOp} (held : NodeState)
    (hop : ∀ r : Replica, r.apply op = update r entry.node (some held)) (n : NodeId) :
    view r (acc.1 ++ [op], acc.2.put entry) n = if n = entry.node then (some entry, some held) else view r acc n := by
  show ((acc.2.put entry).get? n, r.replay (acc.1 ++ [op]) n) = _
  rw [Table.get?_put, Replica.replay_append]
  show (_, (r.replay acc.1).apply op n) = _
  rw [hop, update_apply]
  split
  · rfl
  · rfl

section

variable (epoch : ℤ) (acc : List DeltaOp × Table MirrorEntry.node)

theorem view_flushCell_of_ne (pending : NodeId × List UInt8) (n : NodeId) (hn : n ≠ pending.1) :
    view r (flushCell epoch acc pending) n = view r acc n := by
  unfold flushCell
  split
  · rfl
  next entry hentry =>
    split
    · rfl
    · have hkey : entry.node = pending.1 := Table.key_of_get? hentry
      rw [view_put acc (.payload pending.2) (fun _ => by rw [← hkey]; rfl)]
      exact if_neg fun heq => hn (heq.trans hkey)

theorem view_flushCell_self (pending : NodeId × List UInt8) :
    view r (flushCell epoch acc pending) pending.1 = ownCell epoch pending (view r acc pending.1) := by
  unfold flushCell
  split
  next hnone =>
    rw [view, hnone]
    rfl
  next entry hentry =>
    have hkey : entry.node = pending.1 := Table.key_of_get? hentry
    have hview : view r acc pending.1 = (some entry, r.replay acc.1 pending.1) := by
      rw [view, hentry]
    rw [hview, ownCell]
    split
    · exact hview
    · rw [view_put acc (.payload pending.2) (fun _ => by rw [← hkey]; rfl)]
      exact if_pos hkey.symm

theorem view_flushSlot_of_ne (node n : NodeId) (hn : n ≠ node) :
    view r (flushSlot epoch acc node) n = view r acc n := by
  unfold flushSlot
  split
  · rfl
  next entry hentry =>
    have hkey : entry.node = node := Table.key_of_get? hentry
    rw [view_put acc entry.state]
    · exact if_neg fun heq => hn (heq.trans hkey)
    · intro r
      rw [← hkey, MirrorEntry.state]
      cases entry.payload with
      | none => rfl
      | some payload => rfl

theorem view_flushSlot_self (node : NodeId) :
    view r (flushSlot epoch acc node) node = ownSlot epoch (view r acc node) := by
  unfold flushSlot
  split
  next hnone =>
    rw [view, hnone]
    rfl
  next entry hentry =>
    have hkey : entry.node = node := Table.key_of_get? hentry
    have hview : view r acc node = (some entry, r.replay acc.1 node) := by
      rw [view, hentry]
    rw [hview, view_put acc entry.state]
    · exact if_pos hkey.symm
    · intro r
      rw [← hkey, MirrorEntry.state]
      cases entry.payload with
      | none => rfl
      | some payload => rfl

end

section

variable (hs : s.Sound) (r : Replica)

include hs

/-- The entry of a node after a flush, and what a replica holds of it. -/
theorem view_flushOps (n : NodeId) : view r s.flushOps n = if n ∈ s.pendingInvalidations then
      ownSlot s.epoch ((s.pendingCellSets.get? n).elim (s.nodes.get? n, r n) fun p =>
        ownCell s.epoch p (s.nodes.get? n, r n))
    else (s.pendingCellSets.get? n).elim (s.nodes.get? n, r n) fun p =>
      ownCell s.epoch p (s.nodes.get? n, r n) := by
  have hcellsPerm := perm_insertionSort (fun a b => a.1 ≤ b.1) s.pendingCellSets.rows
  have hslotsPerm := perm_insertionSort (· ≤ ·) s.pendingInvalidations
  have hcells := foldl_keyed (view_flushCell_of_ne (r := r) s.epoch) (view_flushCell_self s.epoch)
    ((hcellsPerm.map Prod.fst).nodup_iff.mpr s.pendingCellSets.nodup) ([], s.nodes) n
  rw [Table.find?_eq_of_perm hcellsPerm s.pendingCellSets.nodup] at hcells
  have hslots := foldl_nodup (view_flushSlot_of_ne (r := r) s.epoch) (view_flushSlot_self s.epoch)
    (hslotsPerm.nodup_iff.mpr hs.nodup)
    ((s.pendingCellSets.rows.insertionSort fun a b => a.1 ≤ b.1).foldl (flushCell s.epoch) ([], s.nodes)) n
  rw [hcells] at hslots
  simp only [hslotsPerm.mem_iff] at hslots
  exact hslots

/-- What is pending and not suppressed reaches a replica. -/
theorem replay_of_pending (hp : s.Pending n) (hn : ¬ s.Suppresses n) :
    r.replay s.flushOps.1 n = s.state n := by
  have hview := congrArg Prod.snd (view_flushOps hs r n)
  refine hview.trans ?_
  by_cases hslot : n ∈ s.pendingInvalidations
  · obtain ⟨entry, hentry⟩ := isSome_iff_exists.mp (hs.slots n hslot)
    rw [if_pos hslot, state, hentry]
    cases s.pendingCellSets.get? n with
    | none => rfl
    | some p =>
      show (ownSlot s.epoch (ownCell s.epoch p (some entry, r n))).2 = _
      rw [ownCell]
      split
      · rfl
      · rfl
  · obtain ⟨p, hcell⟩ := isSome_iff_exists.mp (hp.resolve_right hslot)
    obtain ⟨entry, hentry, hpayload⟩ := hs.cells n p hcell
    have hfresh : entry.lastPublishedEpoch ≠ s.epoch := fun heq =>
      hn ⟨by rw [hcell]; rfl, hslot, entry, hentry, heq⟩
    rw [if_neg hslot, hcell, state, hentry]
    show (ownCell s.epoch p (some entry, r n)).2 = some entry.state
    rw [ownCell, if_neg fun h => hfresh h.1, MirrorEntry.state, hpayload hslot]
    rfl

/-- What is suppressed does not. -/
theorem replay_of_suppresses (hn : s.Suppresses n) : r.replay s.flushOps.1 n = r n := by
  obtain ⟨hcell, hslot, entry, hentry, hepoch⟩ := hn
  obtain ⟨p, hcell⟩ := isSome_iff_exists.mp hcell
  obtain ⟨entry', hentry', hpayload⟩ := hs.cells n p hcell
  obtain rfl := some.inj (hentry.symm.trans hentry')
  refine (congrArg Prod.snd (view_flushOps hs r n)).trans ?_
  rw [if_neg hslot, hcell, hentry]
  show (ownCell s.epoch p (some entry, r n)).2 = _
  rw [ownCell, if_pos ⟨hepoch, hpayload hslot⟩]

theorem replay_of_not_pending (hp : ¬ s.Pending n) : r.replay s.flushOps.1 n = r n := by
  obtain ⟨hcell, hslot⟩ := not_or.mp hp
  refine (congrArg Prod.snd (view_flushOps hs r n)).trans ?_
  rw [if_neg hslot, not_isSome_iff_eq_none.mp hcell]
  rfl

end

/-- A flush changes no payload. -/
theorem payload_flushOps (hs : s.Sound) (n : NodeId) :
    (s.flushOps.2.get? n).map MirrorEntry.payload = (s.nodes.get? n).map MirrorEntry.payload := by
  have hview := congrArg Prod.fst (view_flushOps hs (fun _ => none) n)
  have hcell (p : NodeId × List UInt8) (v : Option MirrorEntry × Option NodeState) :
      (ownCell s.epoch p v).1.map MirrorEntry.payload = v.1.map MirrorEntry.payload := by
    obtain ⟨_ | entry, held⟩ := v
    · rfl
    · rw [ownCell]
      split
      · rfl
      · rfl
  have hslot (v : Option MirrorEntry × Option NodeState) :
      (ownSlot s.epoch v).1.map MirrorEntry.payload = v.1.map MirrorEntry.payload := by
    obtain ⟨_ | entry, held⟩ := v
    · rfl
    · rfl
  rw [show s.flushOps.2.get? n = _ from hview]
  split
  · rw [hslot]
    cases s.pendingCellSets.get? n with
    | none => rfl
    | some p => exact hcell p _
  · cases s.pendingCellSets.get? n with
    | none => rfl
    | some p => exact hcell p _

end StateMirror

end LazilyPy.Mirror

import LazilyPy.Codec.Strict
import LazilyPy.Wire.Message

/-!
# Messages survive the codecs

What is written for a message is read as that message, part by part. The tree that is written is a frame,
as long as what the message carries is below the limits of the codec.
-/

namespace LazilyPy.Wire

open Codec (WireValue namedFields)
open Ipc (BlobBackendKind NodeState ShmBlobRef)
open Plane (CrdtOp CrdtSync IpcValue NodeKey)
open Sync (OutboxAck ResyncRequest)

variable {limit : ℕ∞} {z : ℤ} {name : String}

/-! ### What a message may carry -/

/-- A key that is built by `NodeKey.new`. -/
def KeyBuilt (key : NodeKey) : Prop :=
  NodeKey.new key.path = .ok key

structure BlobU64 (blob : ShmBlobRef) : Prop where
  offset : IsU64 blob.offset
  len : IsU64 blob.len
  generation : IsU64 blob.generation
  epoch : IsU64 blob.epoch
  checksum : IsU64 blob.checksum

def ValueWithin (limit : ℕ∞) : IpcValue → Prop
  | .inline data => data.length < limit
  | .sharedBlob blob => BlobU64 blob

def StateWithin (limit : ℕ∞) : NodeState → Prop
  | .payload data => data.length < limit
  | .sharedBlob blob => BlobU64 blob
  | .opaqueState => True

structure NodeSnapshot.Within (limit : ℕ∞) (n : NodeSnapshot) : Prop where
  node : IsU64 n.node
  typeTag : n.typeTag.utf8ByteSize < limit
  state : StateWithin limit n.state
  key : ∀ key ∈ n.key, KeyBuilt key

structure Snapshot.Within (limit : ℕ∞) (s : Snapshot) : Prop where
  epoch : IsU64 s.epoch
  nodes : s.nodes.length < limit ∧ ∀ n ∈ s.nodes, n.Within limit
  edges : s.edges.length < limit ∧ ∀ e ∈ s.edges, IsU64 e.dependent ∧ IsU64 e.dependency
  roots : s.roots.length < limit ∧ ∀ root ∈ s.roots, IsU64 root

def DeltaOp.Within (limit : ℕ∞) : DeltaOp → Prop
  | cellSet node payload => IsU64 node ∧ ValueWithin limit payload
  | slotValue node payload => IsU64 node ∧ ValueWithin limit payload
  | invalidate node => IsU64 node
  | nodeAdd node typeTag state key =>
    (IsU64 node ∧ typeTag.utf8ByteSize < limit) ∧ StateWithin limit state ∧ ∀ k ∈ key, KeyBuilt k
  | nodeRemove node => IsU64 node
  | edgeAdd dependent dependency => IsU64 dependent ∧ IsU64 dependency
  | edgeRemove dependent dependency => IsU64 dependent ∧ IsU64 dependency
  | queuePush node payload => IsU64 node ∧ ValueWithin limit payload
  | queuePop node => IsU64 node
  | queueClose node => IsU64 node

structure Delta.Within (limit : ℕ∞) (delta : Delta) : Prop where
  baseEpoch : IsU64 delta.baseEpoch
  epoch : IsU64 delta.epoch
  ops : delta.ops.length < limit ∧ ∀ op ∈ delta.ops, op.Within limit

structure StampU64 (stamp : Stamp) : Prop where
  wall : IsU64 stamp.wall
  logical : IsU64 stamp.logical
  peer : IsU64 stamp.peer

structure CrdtOpWithin (limit : ℕ∞) (op : CrdtOp) : Prop where
  node : IsU64 op.node
  key : ∀ key ∈ op.key, KeyBuilt key
  stamp : StampU64 op.stamp
  state : ValueWithin limit op.state

structure CrdtSyncWithin (limit : ℕ∞) (sync : CrdtSync) : Prop where
  frontier : sync.frontier.length < limit ∧ ∀ entry ∈ sync.frontier, IsU64 entry.1 ∧ StampU64 entry.2
  ops : sync.ops.length < limit ∧ ∀ op ∈ sync.ops, CrdtOpWithin limit op

/-- A message of some variant, whose integers are of 64 bits, whose keys are built, and whose sizes are
below a limit. -/
inductive IpcMessage.Within (limit : ℕ∞) : IpcMessage → Prop
  | snapshot {snapshot : Snapshot} (h : snapshot.Within limit) : Within limit (ofSnapshot snapshot)
  | delta {delta : Delta} (h : delta.Within limit) : Within limit (ofDelta delta)
  | crdtSync {sync : CrdtSync} (h : CrdtSyncWithin limit sync) : Within limit (ofCrdtSync sync)
  | resyncRequest {request : ResyncRequest} (h : IsU64 request.fromEpoch) : Within limit (ofResyncRequest request)
  | outboxAck {ack : OutboxAck} (h : IsU64 ack.throughEpoch) : Within limit (ofOutboxAck ack)

/-! ### Keys and descriptors read back -/

theorem nodeKeyFromWire_toWire {key : NodeKey} (h : KeyBuilt key) :
    nodeKeyFromWire (nodeKeyToWire key) = .ok key := by
  unfold KeyBuilt at h
  simp only [nodeKeyFromWire, nodeKeyToWire, h]

theorem blobFromWire_toWire (blob : ShmBlobRef) : blobFromWire (blobToWire blob) = .ok blob := by
  obtain ⟨offset, len, generation, epoch, checksum, backend⟩ := blob
  cases backend with
  | shm => rfl
  | arrow => rfl
  | inProcess => rfl

/-! ### Payloads and states read back -/

theorem ipcValueFromWire_toWire (value : IpcValue) : ipcValueFromWire (ipcValueToWire value) = .ok value := by
  cases value with
  | inline data =>
    have hbytes := wireBytes_bytesToWire "IpcValue.Inline" data
    show IpcValue.inline <$> wireBytes "IpcValue.Inline" (bytesToWire data) = _
    rw [hbytes]
    rfl
  | sharedBlob blob =>
    show IpcValue.sharedBlob <$> blobFromWire (blobToWire blob) = _
    rw [blobFromWire_toWire]
    rfl

theorem nodeStateFromWire_toWire (state : NodeState) : nodeStateFromWire (nodeStateToWire state) = .ok state := by
  cases state with
  | payload data =>
    have hbytes := wireBytes_bytesToWire "NodeState.Payload" data
    show NodeState.payload <$> wireBytes "NodeState.Payload" (bytesToWire data) = _
    rw [hbytes]
    rfl
  | sharedBlob blob =>
    show NodeState.sharedBlob <$> blobFromWire (blobToWire blob) = _
    rw [blobFromWire_toWire]
    rfl
  | opaqueState => rfl

/-! ### Snapshots read back -/

theorem NodeSnapshot.fromWire_toWire {n : NodeSnapshot} (h : ∀ key ∈ n.key, KeyBuilt key) :
    fromWire n.toWire = .ok n := by
  obtain ⟨node, typeTag, state, key⟩ := n
  have hstate := nodeStateFromWire_toWire state
  cases key with
  | none =>
    show (nodeStateFromWire (nodeStateToWire state) >>= fun state =>
      .ok (NodeSnapshot.mk node typeTag state none)) = _
    rw [hstate]
    rfl
  | some key =>
    have hkey := nodeKeyFromWire_toWire (h key rfl)
    show (nodeStateFromWire (nodeStateToWire state) >>= fun state =>
      (some <$> nodeKeyFromWire (nodeKeyToWire key)) >>= fun key =>
        .ok (NodeSnapshot.mk node typeTag state key)) = _
    rw [hstate, hkey]
    rfl

theorem EdgeSnapshot.fromWire_toWire (e : EdgeSnapshot) : fromWire e.toWire = .ok e := rfl

theorem Snapshot.fromWire_toWire {s : Snapshot} (h : s.Within limit) : fromWire s.toWire = .ok s := by
  have hnodes : (s.nodes.map NodeSnapshot.toWire).mapM NodeSnapshot.fromWire = .ok s.nodes :=
    mapM_map fun n hn => NodeSnapshot.fromWire_toWire (h.nodes.2 n hn).key
  have hedges : (s.edges.map EdgeSnapshot.toWire).mapM EdgeSnapshot.fromWire = .ok s.edges :=
    mapM_map fun e _ => e.fromWire_toWire
  have hroots : (s.roots.map WireValue.int).mapM asInt = .ok s.roots := mapM_map fun _ _ => rfl
  show ((s.nodes.map NodeSnapshot.toWire).mapM NodeSnapshot.fromWire >>= fun nodes =>
    (s.edges.map EdgeSnapshot.toWire).mapM EdgeSnapshot.fromWire >>= fun edges =>
      (s.roots.map WireValue.int).mapM asInt >>= fun roots =>
        .ok (Snapshot.mk s.epoch nodes edges roots)) = _
  rw [hnodes, hedges, hroots]
  rfl

/-! ### Deltas read back -/

namespace DeltaOp

theorem checkU64_eq_ok (h : IsU64 z) : checkU64 name z = .ok () :=
  if_pos h

theorem payloadFromBody_body {make : ℤ → IpcValue → DeltaOp} {node : ℤ} (payload : IpcValue)
    (h : IsU64 node) : payloadFromBody name make (payloadBody node payload) = .ok (make node payload) := by
  have hpayload := ipcValueFromWire_toWire payload
  have hfields : wireObjectOpt name (payloadBody node payload) ["node", "payload"] [] = _ :=
    wireObjectOpt_namedFields (by simp) (by simp)
  unfold payloadFromBody
  rw [hfields]
  show (ipcValueFromWire (ipcValueToWire payload) >>= fun payload =>
    checkU64 "node" node >>= fun _ => .ok (make node payload)) = _
  rw [hpayload, checkU64_eq_ok h]
  rfl

theorem nodeFromBody_body {make : ℤ → DeltaOp} {node : ℤ} (h : IsU64 node) :
    nodeFromBody name make (nodeBody node) = .ok (make node) := by
  have hfields : wireObjectOpt name (nodeBody node) ["node"] [] = _ :=
    wireObjectOpt_namedFields (by simp) (by simp)
  unfold nodeFromBody
  rw [hfields]
  show (checkU64 "node" node >>= fun _ => .ok (make node)) = _
  rw [checkU64_eq_ok h]
  rfl

theorem edgeFromBody_body {make : ℤ → ℤ → DeltaOp} {dependent dependency : ℤ} (h : IsU64 dependent)
    (h' : IsU64 dependency) :
    edgeFromBody name make (edgeBody dependent dependency) = .ok (make dependent dependency) := by
  have hfields : wireObjectOpt name (edgeBody dependent dependency) ["dependent", "dependency"] [] = _ :=
    wireObjectOpt_namedFields (by simp) (by simp)
  unfold edgeFromBody
  rw [hfields]
  show (checkU64 "dependent" dependent >>= fun _ => checkU64 "dependency" dependency >>= fun _ =>
    .ok (make dependent dependency)) = _
  rw [checkU64_eq_ok h, checkU64_eq_ok h']
  rfl

theorem fromWire_nodeAdd {node : ℤ} (typeTag : String) (state : NodeState) {key : Option NodeKey}
    (h : IsU64 node) (hkey : ∀ k ∈ key, KeyBuilt k) :
    fromWire (nodeAdd node typeTag state key).toWire = .ok (nodeAdd node typeTag state key) := by
  have hstate := nodeStateFromWire_toWire state
  show nodeAddFromBody (namedFields _) = _
  unfold nodeAddFromBody
  cases key with
  | none =>
    rw [wireObjectOpt_namedFields (by simp [keyField]) (by simp [keyField])]
    show (nodeStateFromWire (nodeStateToWire state) >>= fun state => checkU64 "node" node >>= fun _ =>
      .ok (nodeAdd node typeTag state none)) = _
    rw [hstate, checkU64_eq_ok h]
    rfl
  | some key =>
    have hkey := nodeKeyFromWire_toWire (hkey key rfl)
    rw [wireObjectOpt_namedFields (by simp [keyField]) (by simp [keyField])]
    show (nodeStateFromWire (nodeStateToWire state) >>= fun state =>
      (some <$> nodeKeyFromWire (nodeKeyToWire key)) >>= fun key => checkU64 "node" node >>= fun _ =>
        .ok (nodeAdd node typeTag state key)) = _
    rw [hstate, hkey, checkU64_eq_ok h]
    rfl

theorem fromWire_toWire {op : DeltaOp} (h : op.Within limit) : fromWire op.toWire = .ok op := by
  cases op with
  | cellSet node payload => exact payloadFromBody_body payload h.1
  | slotValue node payload => exact payloadFromBody_body payload h.1
  | invalidate node => exact nodeFromBody_body h
  | nodeAdd node typeTag state key => exact fromWire_nodeAdd typeTag state h.1.1 h.2.2
  | nodeRemove node => exact nodeFromBody_body h
  | edgeAdd dependent dependency => exact edgeFromBody_body h.1 h.2
  | edgeRemove dependent dependency => exact edgeFromBody_body h.1 h.2
  | queuePush node payload => exact payloadFromBody_body payload h.1
  | queuePop node => exact nodeFromBody_body h
  | queueClose node => exact nodeFromBody_body h

end DeltaOp

theorem Delta.fromWire_toWire {delta : Delta} (h : delta.Within limit) : fromWire delta.toWire = .ok delta := by
  have hops : (delta.ops.map DeltaOp.toWire).mapM DeltaOp.fromWire = .ok delta.ops :=
    mapM_map fun op hop => DeltaOp.fromWire_toWire (h.ops.2 op hop)
  have hfields : wireObject "Delta" delta.toWire ["base_epoch", "epoch", "ops"] = _ :=
    wireObjectOpt_namedFields (by simp) (by simp)
  unfold fromWire
  rw [hfields]
  show ((delta.ops.map DeltaOp.toWire).mapM DeltaOp.fromWire >>= fun ops =>
    checkU64 "base_epoch" delta.baseEpoch >>= fun _ => checkU64 "epoch" delta.epoch >>= fun _ =>
      .ok (Delta.mk delta.baseEpoch delta.epoch ops)) = _
  rw [hops, DeltaOp.checkU64_eq_ok h.baseEpoch, DeltaOp.checkU64_eq_ok h.epoch]
  rfl

/-! ### The plane of operations reads back -/

theorem crdtOpFromWire_toWire {op : CrdtOp} (h : ∀ key ∈ op.key, KeyBuilt key) :
    crdtOpFromWire (crdtOpToWire op) = .ok op := by
  obtain ⟨node, key, stamp, state⟩ := op
  have hstate := ipcValueFromWire_toWire state
  cases key with
  | none =>
    show (ipcValueFromWire (ipcValueToWire state) >>= fun state =>
      .ok (CrdtOp.mk node none stamp state)) = _
    rw [hstate]
    rfl
  | some key =>
    have hkey := nodeKeyFromWire_toWire (h key rfl)
    show ((some <$> nodeKeyFromWire (nodeKeyToWire key)) >>= fun key =>
      ipcValueFromWire (ipcValueToWire state) >>= fun state => .ok (CrdtOp.mk node key stamp state)) = _
    rw [hstate, hkey]
    rfl

theorem crdtSyncFromWire_toWire {sync : CrdtSync} (h : CrdtSyncWithin limit sync) :
    crdtSyncFromWire (crdtSyncToWire sync) = .ok sync := by
  have hfrontier : (sync.frontier.map entryToWire).mapM entryFromWire = .ok sync.frontier := mapM_map fun _ _ => rfl
  have hops : (sync.ops.map crdtOpToWire).mapM crdtOpFromWire = .ok sync.ops :=
    mapM_map fun op hop => crdtOpFromWire_toWire (h.ops.2 op hop).key
  show ((sync.frontier.map entryToWire).mapM entryFromWire >>= fun frontier =>
    (sync.ops.map crdtOpToWire).mapM crdtOpFromWire >>= fun ops => .ok (CrdtSync.mk frontier ops)) = _
  rw [hfrontier, hops]
  rfl

namespace IpcMessage

variable {m : IpcMessage}

/-- The tree of a message is read as the message. -/
theorem fromWire_toWire (h : m.Within limit) : ∃ tree, m.toWire = .ok tree ∧ fromWire tree = .ok m := by
  cases h with
  | snapshot h =>
    refine ⟨_, rfl, ?_⟩
    show ofSnapshot <$> Snapshot.fromWire _ = _
    rw [Snapshot.fromWire_toWire h]
    rfl
  | delta h =>
    refine ⟨_, rfl, ?_⟩
    show ofDelta <$> Delta.fromWire _ = _
    rw [Delta.fromWire_toWire h]
    rfl
  | crdtSync h =>
    refine ⟨_, rfl, ?_⟩
    show ofCrdtSync <$> crdtSyncFromWire _ = _
    rw [crdtSyncFromWire_toWire h]
    rfl
  | resyncRequest h => exact ⟨_, rfl, rfl⟩
  | outboxAck h => exact ⟨_, rfl, rfl⟩

end IpcMessage

end LazilyPy.Wire

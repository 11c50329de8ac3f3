import LazilyPy.Ipc.Transport
import LazilyPy.Sync.Coordinator
import LazilyPy.Wire.Object

/-!
# Messages on the wire

A message is one of five variants. What the delta is made of is read strictly, and the rest as it comes.
-/

namespace LazilyPy.Wire

open Codec (WireValue namedFields)
open Ipc (BlobBackendKind NodeState ShmBlobRef)
open Plane (CrdtOp CrdtSync IpcValue NodeKey)
open Sync (OutboxAck ResyncRequest)

/-! ### Keys and descriptors -/

def nodeKeyToWire (key : NodeKey) : WireValue :=
  .str key.path

def nodeKeyFromWire (value : WireValue) : Decoded NodeKey :=
  match value with
  | .str path =>
    match NodeKey.new path with
    | .ok key => .ok key
    | .error error => .error (.nodeKey error)
  | value => .error (.expected "NodeKey" "a string" value)

def nodeKeyGiven (d : WireValue) : Decoded (Option NodeKey) := do
  match ← getGiven d "key" with
  | some value => some <$> nodeKeyFromWire value
  | none => pure none

def nodeKeyOrNull : Option NodeKey → WireValue
  | some key => nodeKeyToWire key
  | none => .none

def backendValue : BlobBackendKind → String
  | .shm => "shm"
  | .arrow => "arrow"
  | .inProcess => "in_process"

def backendFromWire (value : WireValue) : Decoded BlobBackendKind :=
  match [BlobBackendKind.shm, .arrow, .inProcess].find? fun kind => isText (backendValue kind) value with
  | some kind => .ok kind
  | none => .error (.blobBackend value)

def isDefault (kind : BlobBackendKind) : Bool :=
  kind = .shm

def blobToWire (blob : ShmBlobRef) : WireValue :=
  namedFields ([("offset", .int blob.offset), ("len", .int blob.len),
    ("generation", .int blob.generation), ("epoch", .int blob.epoch), ("checksum", .int blob.checksum)] ++
    if isDefault blob.backend then [] else [("backend", .str (backendValue blob.backend))])

def blobFromWire (d : WireValue) : Decoded ShmBlobRef := do
  let backend ← match ← getGiven d "backend" with
    | some value => backendFromWire value
    | none => pure .shm
  let offset ← intItem d "offset"
  let len ← intItem d "len"
  let generation ← intItem d "generation"
  let epoch ← intItem d "epoch"
  let checksum ← intItem d "checksum"
  return {
    offset
    len
    generation
    epoch
    checksum
    backend }

/-! ### Payloads and states -/

def ipcValueToWire : IpcValue → WireValue
  | .inline data => tagged "Inline" (bytesToWire data)
  | .sharedBlob blob => tagged "SharedBlob" (blobToWire blob)

def ipcValueFromWire (value : WireValue) : Decoded IpcValue :=
  match variant? value with
  | some (.str "Inline", body) => .inline <$> wireBytes "IpcValue.Inline" body
  | some (.str "SharedBlob", body) => .sharedBlob <$> blobFromWire body
  | some (tag, _) => .error (.unknownVariant "IpcValue" tag)
  | none => .error (.expected "IpcValue" "a single-key object" value)

def nodeStateToWire : NodeState → WireValue
  | .payload data => tagged "Payload" (bytesToWire data)
  | .sharedBlob blob => tagged "SharedBlob" (blobToWire blob)
  | .opaqueState => .str "Opaque"

def nodeStateFromWire (value : WireValue) : Decoded NodeState :=
  match value with
  | .str "Opaque" => .ok .opaqueState
  | .str other => .error (.unknownUnitVariant "NodeState" other)
  | value =>
    match variant? value with
    | some (.str "Payload", body) => .payload <$> wireBytes "NodeState.Payload" body
    | some (.str "SharedBlob", body) => .sharedBlob <$> blobFromWire body
    | some (tag, _) => .error (.unknownVariant "NodeState" tag)
    | none => .error (.expected "NodeState" "a single-key object" value)

/-! ### Snapshots -/

structure NodeSnapshot where
  node : ℤ
  typeTag : String
  state : NodeState
  key : Option NodeKey := none
  deriving DecidableEq, Repr

structure EdgeSnapshot where
  dependent : ℤ
  dependency : ℤ
  deriving DecidableEq, Repr

structure Snapshot where
  epoch : ℤ
  nodes : List NodeSnapshot := []
  edges : List EdgeSnapshot := []
  roots : List ℤ := []
  deriving DecidableEq, Repr

def keyField : Option NodeKey → List (String × WireValue)
  | some key => [("key", nodeKeyToWire key)]
  | none => []

def NodeSnapshot.toWire (n : NodeSnapshot) : WireValue :=
  namedFields ([("node", .int n.node), ("type_tag", .str n.typeTag),
    ("state", nodeStateToWire n.state)] ++ keyField n.key)

def NodeSnapshot.fromWire (d : WireValue) : Decoded NodeSnapshot := do
  let node ← intItem d "node"
  let typeTag ← (do asStr (← item d "type_tag"))
  let state ← (do nodeStateFromWire (← item d "state"))
  let key ← nodeKeyGiven d
  return {
    node
    typeTag
    state
    key }

def EdgeSnapshot.toWire (e : EdgeSnapshot) : WireValue :=
  namedFields [("dependent", .int e.dependent), ("dependency", .int e.dependency)]

def EdgeSnapshot.fromWire (d : WireValue) : Decoded EdgeSnapshot := do
  let dependent ← intItem d "dependent"
  let dependency ← intItem d "dependency"
  return ⟨dependent, dependency⟩

def Snapshot.toWire (s : Snapshot) : WireValue :=
  namedFields [("epoch", .int s.epoch), ("nodes", .list (s.nodes.map NodeSnapshot.toWire)),
    ("edges", .list (s.edges.map EdgeSnapshot.toWire)), ("roots", .list (s.roots.map .int))]

def Snapshot.fromWire (d : WireValue) : Decoded Snapshot := do
  let epoch ← intItem d "epoch"
  let nodes ← (do (← getList d "nodes").mapM NodeSnapshot.fromWire)
  let edges ← (do (← getList d "edges").mapM EdgeSnapshot.fromWire)
  let roots ← (do (← getList d "roots").mapM asInt)
  return {
    epoch
    nodes
    edges
    roots }

/-! ### Deltas -/

inductive DeltaOp
  | cellSet (node : ℤ) (payload : IpcValue)
  | slotValue (node : ℤ) (payload : IpcValue)
  | invalidate (node : ℤ)
  | nodeAdd (node : ℤ) (typeTag : String) (state : NodeState) (key : Option NodeKey)
  | nodeRemove (node : ℤ)
  | edgeAdd (dependent dependency : ℤ)
  | edgeRemove (dependent dependency : ℤ)
  | queuePush (node : ℤ) (payload : IpcValue)
  | queuePop (node : ℤ)
  | queueClose (node : ℤ)
  deriving DecidableEq, Repr

structure Delta where
  baseEpoch : ℤ
  epoch : ℤ
  ops : List DeltaOp := []
  deriving DecidableEq, Repr

def nodeBody (node : ℤ) : WireValue :=
  namedFields [("node", .int node)]

def payloadBody (node : ℤ) (payload : IpcValue) : WireValue :=
  namedFields [("node", .int node), ("payload", ipcValueToWire payload)]

def edgeBody (dependent dependency : ℤ) : WireValue :=
  namedFields [("dependent", .int dependent), ("dependency", .int dependency)]

namespace DeltaOp

def toWire : DeltaOp → WireValue
  | cellSet node payload => tagged "CellSet" (payloadBody node payload)
  | slotValue node payload => tagged "SlotValue" (payloadBody node payload)
  | invalidate node => tagged "Invalidate" (nodeBody node)
  | nodeAdd node typeTag state key =>
    tagged "NodeAdd" (namedFields ([("node", .int node), ("type_tag", .str typeTag),
      ("state", nodeStateToWire state)] ++ keyField key))
  | nodeRemove node => tagged "NodeRemove" (nodeBody node)
  | edgeAdd dependent dependency => tagged "EdgeAdd" (edgeBody dependent dependency)
  | edgeRemove dependent dependency => tagged "EdgeRemove" (edgeBody dependent dependency)
  | queuePush node payload => tagged "QueuePush" (payloadBody node payload)
  | queuePop node => tagged "QueuePop" (nodeBody node)
  | queueClose node => tagged "QueueClose" (nodeBody node)

/-- The fields of a node and a payload, and what the constructor checks of them. -/
def payloadFromBody (name : String) (make : ℤ → IpcValue → DeltaOp) (value : WireValue) : Decoded DeltaOp := do
  let d ← wireObjectOpt name value ["node", "payload"] []
  let node ← (do wireU64 (name ++ ".node") (← item d "node"))
  let payload ← (do ipcValueFromWire (← item d "payload"))
  checkU64 "node" node
  return make node payload

def nodeFromBody (name : String) (make : ℤ → DeltaOp) (value : WireValue) : Decoded DeltaOp := do
  let d ← wireObjectOpt name value ["node"] []
  let node ← (do wireU64 (name ++ ".node") (← item d "node"))
  checkU64 "node" node
  return make node

def edgeFromBody (name : String) (make : ℤ → ℤ → DeltaOp) (value : WireValue) : Decoded DeltaOp := do
  let d ← wireObjectOpt name value ["dependent", "dependency"] []
  let dependent ← (do wireU64 (name ++ ".dependent") (← item d "dependent"))
  let dependency ← (do wireU64 (name ++ ".dependency") (← item d "dependency"))
  checkU64 "dependent" dependent
  checkU64 "dependency" dependency
  return make dependent dependency

def cellSetFromBody : WireValue → Decoded DeltaOp :=
  payloadFromBody "DeltaOp.CellSet" .cellSet

def slotValueFromBody : WireValue → Decoded DeltaOp :=
  payloadFromBody "DeltaOp.SlotValue" .slotValue

def invalidateFromBody : WireValue → Decoded DeltaOp :=
  nodeFromBody "DeltaOp.Invalidate" .invalidate

def nodeRemoveFromBody : WireValue → Decoded DeltaOp :=
  nodeFromBody "DeltaOp.NodeRemove" .nodeRemove

def edgeAddFromBody : WireValue → Decoded DeltaOp :=
  edgeFromBody "DeltaOp.EdgeAdd" .edgeAdd

def edgeRemoveFromBody : WireValue → Decoded DeltaOp :=
  edgeFromBody "DeltaOp.EdgeRemove" .edgeRemove

def queuePushFromBody : WireValue → Decoded DeltaOp :=
  payloadFromBody "DeltaOp.QueuePush" .queuePush

def queuePopFromBody : WireValue → Decoded DeltaOp :=
  nodeFromBody "DeltaOp.QueuePop" .queuePop

def queueCloseFromBody : WireValue → Decoded DeltaOp :=
  nodeFromBody "DeltaOp.QueueClose" .queueClose

def nodeAddFromBody (value : WireValue) : Decoded DeltaOp := do
  let d ← wireObjectOpt "DeltaOp.NodeAdd" value ["node", "type_tag", "state"] ["key"]
  let node ← (do wireU64 "DeltaOp.NodeAdd.node" (← item d "node"))
  let typeTag ← (do wireStr "DeltaOp.NodeAdd.type_tag" (← item d "type_tag"))
  let state ← (do nodeStateFromWire (← item d "state"))
  let key ← nodeKeyGiven d
  checkU64 "node" node
  return .nodeAdd node typeTag state key

def fromWire (value : WireValue) : Decoded DeltaOp :=
  match variant? value with
  | some (.str "CellSet", body) => cellSetFromBody body
  | some (.str "SlotValue", body) => slotValueFromBody body
  | some (.str "Invalidate", body) => invalidateFromBody body
  | some (.str "NodeAdd", body) => nodeAddFromBody body
  | some (.str "NodeRemove", body) => nodeRemoveFromBody body
  | some (.str "EdgeAdd", body) => edgeAddFromBody body
  | some (.str "EdgeRemove", body) => edgeRemoveFromBody body
  | some (.str "QueuePush", body) => queuePushFromBody body
  | some (.str "QueuePop", body) => queuePopFromBody body
  | some (.str "QueueClose", body) => queueCloseFromBody body
  | some (tag, _) => .error (.unknownVariant "DeltaOp" tag)
  | none => .error (.expected "DeltaOp" "a single-key object" value)

end DeltaOp

def Delta.toWire (delta : Delta) : WireValue :=
  namedFields [("base_epoch", .int delta.baseEpoch), ("epoch", .int delta.epoch),
    ("ops", .list (delta.ops.map DeltaOp.toWire))]

def Delta.fromWire (value : WireValue) : Decoded Delta := do
  let d ← wireObject "Delta" value ["base_epoch", "epoch", "ops"]
  let baseEpoch ← (do wireU64 "Delta.base_epoch" (← item d "base_epoch"))
  let epoch ← (do wireU64 "Delta.epoch" (← item d "epoch"))
  let ops ← (do (← wireList "Delta.ops" (← item d "ops")).mapM DeltaOp.fromWire)
  checkU64 "base_epoch" baseEpoch
  checkU64 "epoch" epoch
  return {
    baseEpoch
    epoch
    ops }

/-! ### The plane of operations -/

def stampToWire (stamp : Stamp) : WireValue :=
  namedFields [("wall_time", .int stamp.wall), ("logical", .int stamp.logical), ("peer", .int stamp.peer)]

def stampFromWire (d : WireValue) : Decoded Stamp := do
  let wall ← intItem d "wall_time"
  let logical ← intItem d "logical"
  let peer ← intItem d "peer"
  return ⟨wall, logical, peer⟩

def crdtOpToWire (op : CrdtOp) : WireValue :=
  namedFields [("node", .int op.node), ("key", nodeKeyOrNull op.key), ("stamp", stampToWire op.stamp),
    ("state", ipcValueToWire op.state)]

def crdtOpFromWire (d : WireValue) : Decoded CrdtOp := do
  let value ← getGiven d "key"
  let node ← intItem d "node"
  let key ← match value with
    | some value => some <$> nodeKeyFromWire value
    | none => pure none
  let stamp ← (do stampFromWire (← item d "stamp"))
  let state ← (do ipcValueFromWire (← item d "state"))
  return {
    node
    key
    stamp
    state }

def entryToWire (entry : ℤ × Stamp) : WireValue :=
  .list [.int entry.1, stampToWire entry.2]

def entryFromWire (entry : WireValue) : Decoded (ℤ × Stamp) := do
  let peer ← (do toInt (← index entry 0))
  let stamp ← (do stampFromWire (← index entry 1))
  return (peer, stamp)

def crdtSyncToWire (sync : CrdtSync) : WireValue :=
  namedFields [("frontier", .list (sync.frontier.map entryToWire)), ("ops", .list (sync.ops.map crdtOpToWire))]

def crdtSyncFromWire (d : WireValue) : Decoded CrdtSync := do
  let frontier ← (do (← getList d "frontier").mapM entryFromWire)
  let ops ← (do (← getList d "ops").mapM crdtOpFromWire)
  return ⟨frontier, ops⟩

/-! ### Control frames -/

def resyncRequestToWire (request : ResyncRequest) : WireValue :=
  namedFields [("from_epoch", .int request.fromEpoch)]

def resyncRequestFromWire (d : WireValue) : Decoded ResyncRequest :=
  ResyncRequest.mk <$> intItem d "from_epoch"

def outboxAckToWire (ack : OutboxAck) : WireValue :=
  namedFields [("through_epoch", .int ack.throughEpoch)]

def outboxAckFromWire (d : WireValue) : Decoded OutboxAck :=
  OutboxAck.mk <$> intItem d "through_epoch"

/-! ### Messages -/

structure IpcMessage where
  snapshot : Option Snapshot := none
  delta : Option Delta := none
  crdtSync : Option CrdtSync := none
  resyncRequest : Option ResyncRequest := none
  outboxAck : Option OutboxAck := none
  deriving DecidableEq

structure Json where
  dumps : WireValue → Decoded String
  loads : String → Decoded WireValue

namespace IpcMessage

def ofSnapshot (snapshot : Snapshot) : IpcMessage :=
  { snapshot := some snapshot }

def ofDelta (delta : Delta) : IpcMessage :=
  { delta := some delta }

def ofCrdtSync (crdtSync : CrdtSync) : IpcMessage :=
  { crdtSync := some crdtSync }

def ofResyncRequest (resyncRequest : ResyncRequest) : IpcMessage :=
  { resyncRequest := some resyncRequest }

def ofOutboxAck (outboxAck : OutboxAck) : IpcMessage :=
  { outboxAck := some outboxAck }

def toWire (m : IpcMessage) : Decoded WireValue :=
  match m.snapshot, m.delta, m.crdtSync, m.resyncRequest, m.outboxAck with
  | some snapshot, _, _, _, _ => .ok (tagged "Snapshot" snapshot.toWire)
  | none, some delta, _, _, _ => .ok (tagged "Delta" delta.toWire)
  | none, none, some sync, _, _ => .ok (tagged "CrdtSync" (crdtSyncToWire sync))
  | none, none, none, some request, _ => .ok (tagged "ResyncRequest" (resyncRequestToWire request))
  | none, none, none, none, some ack => .ok (tagged "OutboxAck" (outboxAckToWire ack))
  | none, none, none, none, none => .error .noVariant

def fromWire (value : WireValue) : Decoded IpcMessage :=
  match variant? value with
  | some (.str "Snapshot", body) => ofSnapshot <$> Snapshot.fromWire body
  | some (.str "Delta", body) => ofDelta <$> Delta.fromWire body
  | some (.str "CrdtSync", body) => ofCrdtSync <$> crdtSyncFromWire body
  | some (.str "ResyncRequest", body) => ofResyncRequest <$> resyncRequestFromWire body
  | some (.str "OutboxAck", body) => ofOutboxAck <$> outboxAckFromWire body
  | some (tag, _) => .error (.unknownVariant "IpcMessage" tag)
  | none => .error (.malformed value)

def ofCodec {α : Type} : Except Codec.Raised α → Decoded α
  | .ok a => .ok a
  | .error raised => .error (.codec raised)

def encodeJson (json : Json) (m : IpcMessage) : Decoded (List UInt8) := do
  let tree ← m.toWire
  let text ← json.dumps tree
  return Bytes.utf8 text

def decodeJson (json : Json) (data : List UInt8) : Decoded IpcMessage := do
  let text ← ofCodec (Codec.decode data)
  let tree ← json.loads text
  fromWire tree

def encodeMsgpack (m : IpcMessage) : Decoded (List UInt8) := do
  let tree ← m.toWire
  ofCodec (Codec.msgpackPack tree)

def decodeMsgpack (data : List UInt8) : Decoded IpcMessage := do
  let tree ← ofCodec (Codec.msgpackUnpack data)
  fromWire tree

end IpcMessage

end LazilyPy.Wire

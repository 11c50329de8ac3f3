import LazilyPy.Wire.RoundTrip

/-!
# Messages survive both codecs

The tree of a message is a frame, as long as what the message carries is below a limit. There is no limit
for the text codec, and the binary one packs sizes of four bytes.
-/

namespace LazilyPy.Wire

open List

open Codec (WireValue namedFields)
open Ipc (BlobBackendKind NodeState ShmBlobRef)
open Plane (CrdtOp CrdtSync IpcValue NodeKey)
open Sync (OutboxAck ResyncRequest)

variable {limit : ℕ∞}

/-! ### Objects -/

def FieldNames (keys : List String) : Prop :=
  keys.Nodup ∧ keys.length < 2 ^ 32 ∧ ∀ key ∈ keys, key.utf8ByteSize < 2 ^ 32

instance (keys : List String) : Decidable (FieldNames keys) :=
  inferInstanceAs (Decidable (_ ∧ _ ∧ _))

theorem lt_of_lt_limit (hlimit : 2 ^ 32 ≤ limit) {n : ℕ} (h : n < 2 ^ 32) : (n : ℕ∞) < limit :=
  lt_of_lt_of_le (by exact_mod_cast h) hlimit

theorem frame_fields (hlimit : 2 ^ 32 ≤ limit) {items : List (String × WireValue)} (keys : List String)
    (hfst : items.map Prod.fst = keys) (hkeys : FieldNames keys)
    (hmember : ∀ item ∈ items, Frame limit item.2) : Frame limit (namedFields items) := by
  subst hfst
  obtain ⟨hnodup, hlen, hshort⟩ := hkeys
  rw [length_map] at hlen
  exact .dict (lt_of_lt_limit hlimit hlen) hnodup
    (fun item hitem => lt_of_lt_limit hlimit (hshort _ (mem_map_of_mem hitem))) hmember

theorem frame_tagged (hlimit : 2 ^ 32 ≤ limit) {tag : String} {body : WireValue}
    (htag : FieldNames [tag]) (hbody : Frame limit body) : Frame limit (tagged tag body) :=
  frame_fields hlimit [tag] rfl htag (forall_mem_singleton.mpr hbody)

/-- An array is a frame if its elements are. -/
theorem frame_list {α : Type} {toWire : α → WireValue} {l : List α} (hsize : l.length < limit)
    (h : ∀ a ∈ l, Frame limit (toWire a)) : Frame limit (.list (l.map toWire)) :=
  .list (by rwa [length_map]) (forall_mem_map.mpr h)

/-! ### Keys and descriptors -/

/-- The size of a text is the sum of the sizes of its characters. -/
theorem utf8ByteSize_eq (s : String) : s.utf8ByteSize = (s.toList.map Char.utf8Size).sum := by
  have hlist : ∀ l : List Char, (String.ofList l).utf8ByteSize = (l.map Char.utf8Size).sum := by
    intro l
    induction l with
    | nil => rfl
    | cons c l ih =>
      rw [String.ofList_cons, String.utf8ByteSize_append, ih, String.utf8ByteSize_singleton, map_cons, sum_cons]
  rw [← hlist, String.ofList_toList]

theorem KeyBuilt.size_le {key : NodeKey} (h : KeyBuilt key) : key.path.utf8ByteSize ≤ Plane.nodeKeyMaxLen := by
  unfold KeyBuilt NodeKey.new at h
  rw [utf8ByteSize_eq]
  by_contra hlong
  rw [not_le] at hlong
  dsimp only at h
  split at h
  · cases h
  · cases h

section

variable (hlimit : 2 ^ 32 ≤ limit)

include hlimit

theorem frame_nodeKeyToWire {key : NodeKey} (h : KeyBuilt key) :
    Frame limit (nodeKeyToWire key) := by
  have hsize := h.size_le
  have hmax : Plane.nodeKeyMaxLen = 1024 := rfl
  exact .str (lt_of_lt_limit hlimit (by omega))

theorem frame_nodeKeyOrNull {key : Option NodeKey} (h : ∀ k ∈ key, KeyBuilt k) : Frame limit (nodeKeyOrNull key) := by
  cases key with
  | none => exact .none
  | some key => exact frame_nodeKeyToWire hlimit (h key rfl)

theorem frame_blobToWire {blob : ShmBlobRef} (h : BlobU64 blob) :
    Frame limit (blobToWire blob) := by
  obtain ⟨offset, len, generation, epoch, checksum, backend⟩ := blob
  have hfields : ∀ item ∈ [("offset", WireValue.int offset), ("len", .int len),
      ("generation", .int generation), ("epoch", .int epoch), ("checksum", .int checksum)],
      Frame limit item.2 := by
    simp only [forall_mem_cons]
    exact ⟨.int h.offset, .int h.len, .int h.generation, .int h.epoch, .int h.checksum, forall_mem_nil _⟩
  have hbackend (token : String) (htoken : token.utf8ByteSize < 2 ^ 32) :
      ∀ item ∈ [("backend", WireValue.str token)], Frame limit item.2 :=
    forall_mem_singleton.mpr (.str (lt_of_lt_limit hlimit htoken))
  cases backend with
  | shm =>
    exact frame_fields hlimit ["offset", "len", "generation", "epoch", "checksum"] rfl (by decide) hfields
  | arrow =>
    exact frame_fields hlimit ["offset", "len", "generation", "epoch", "checksum", "backend"] rfl
      (by decide) (forall_mem_append.mpr ⟨hfields, hbackend "arrow" (by decide)⟩)
  | inProcess =>
    exact frame_fields hlimit ["offset", "len", "generation", "epoch", "checksum", "backend"] rfl
      (by decide) (forall_mem_append.mpr ⟨hfields, hbackend "in_process" (by decide)⟩)

/-! ### Payloads and states -/

theorem frame_ipcValueToWire {value : IpcValue} (h : ValueWithin limit value) :
    Frame limit (ipcValueToWire value) := by
  cases value with
  | inline data => exact frame_tagged hlimit (by decide) (frame_bytesToWire h)
  | sharedBlob blob => exact frame_tagged hlimit (by decide) (frame_blobToWire hlimit h)

theorem frame_nodeStateToWire {state : NodeState} (h : StateWithin limit state) :
    Frame limit (nodeStateToWire state) := by
  cases state with
  | payload data => exact frame_tagged hlimit (by decide) (frame_bytesToWire h)
  | sharedBlob blob => exact frame_tagged hlimit (by decide) (frame_blobToWire hlimit h)
  | opaqueState => exact .str (lt_of_lt_limit hlimit (by decide))

/-- The fields of a node, in a snapshot or in a delta. -/
theorem frame_nodeFields {node : ℤ} {typeTag : String} {state : NodeState} {key : Option NodeKey}
    (hnode : IsU64 node) (htag : typeTag.utf8ByteSize < limit) (hstate : StateWithin limit state)
    (hkey : ∀ k ∈ key, KeyBuilt k) :
    Frame limit (namedFields ([("node", .int node), ("type_tag", .str typeTag),
      ("state", nodeStateToWire state)] ++ keyField key)) := by
  have hfields : ∀ item ∈ [("node", WireValue.int node), ("type_tag", .str typeTag),
      ("state", nodeStateToWire state)], Frame limit item.2 := by
    simp only [forall_mem_cons]
    exact ⟨.int hnode, .str htag, frame_nodeStateToWire hlimit hstate, forall_mem_nil _⟩
  cases key with
  | none => exact frame_fields hlimit ["node", "type_tag", "state"] rfl (by decide) hfields
  | some key =>
    refine frame_fields hlimit ["node", "type_tag", "state", "key"] rfl (by decide)
      (forall_mem_append.mpr ⟨hfields, ?_⟩)
    exact forall_mem_singleton.mpr (frame_nodeKeyToWire hlimit (hkey key rfl))

theorem frame_pair {name name' : String} {value value' : WireValue} (hnames : FieldNames [name, name'])
    (h : Frame limit value) (h' : Frame limit value') :
    Frame limit (namedFields [(name, value), (name', value')]) := by
  refine frame_fields hlimit [name, name'] rfl hnames ?_
  simp only [forall_mem_cons]
  exact ⟨h, h', forall_mem_nil _⟩

/-! ### The five variants -/

theorem Snapshot.frame_toWire {s : Snapshot} (h : s.Within limit) :
    Frame limit s.toWire := by
  refine frame_fields hlimit ["epoch", "nodes", "edges", "roots"] rfl (by decide) ?_
  simp only [forall_mem_cons]
  refine ⟨.int h.epoch, frame_list h.nodes.1 fun n hn => ?_, frame_list h.edges.1 fun e he => ?_,
    frame_list h.roots.1 fun root hroot => .int (h.roots.2 root hroot), forall_mem_nil _⟩
  · have hwithin := h.nodes.2 n hn
    exact frame_nodeFields hlimit hwithin.node hwithin.typeTag hwithin.state hwithin.key
  · obtain ⟨hdependent, hdependency⟩ := h.edges.2 e he
    exact frame_pair hlimit (by decide) (.int hdependent) (.int hdependency)

theorem DeltaOp.frame_toWire {op : DeltaOp} (h : op.Within limit) :
    Frame limit op.toWire := by
  have hnode {node : ℤ} (hu64 : IsU64 node) : Frame limit (nodeBody node) :=
    frame_fields hlimit ["node"] rfl (by decide) (forall_mem_singleton.mpr (.int hu64))
  have hpayload {node : ℤ} {payload : IpcValue} (hop : IsU64 node ∧ ValueWithin limit payload) :
      Frame limit (payloadBody node payload) :=
    frame_pair hlimit (by decide) (.int hop.1) (frame_ipcValueToWire hlimit hop.2)
  have hedge {dependent dependency : ℤ} (hop : IsU64 dependent ∧ IsU64 dependency) :
      Frame limit (edgeBody dependent dependency) :=
    frame_pair hlimit (by decide) (.int hop.1) (.int hop.2)
  cases op with
  | cellSet node payload => exact frame_tagged hlimit (by decide) (hpayload h)
  | slotValue node payload => exact frame_tagged hlimit (by decide) (hpayload h)
  | invalidate node => exact frame_tagged hlimit (by decide) (hnode h)
  | nodeAdd node typeTag state key =>
    exact frame_tagged hlimit (by decide) (frame_nodeFields hlimit h.1.1 h.1.2 h.2.1 h.2.2)
  | nodeRemove node => exact frame_tagged hlimit (by decide) (hnode h)
  | edgeAdd dependent dependency => exact frame_tagged hlimit (by decide) (hedge h)
  | edgeRemove dependent dependency => exact frame_tagged hlimit (by decide) (hedge h)
  | queuePush node payload => exact frame_tagged hlimit (by decide) (hpayload h)
  | queuePop node => exact frame_tagged hlimit (by decide) (hnode h)
  | queueClose node => exact frame_tagged hlimit (by decide) (hnode h)

end

theorem Delta.frame_toWire (hlimit : 2 ^ 32 ≤ limit) {delta : Delta} (h : delta.Within limit) :
    Frame limit delta.toWire := by
  refine frame_fields hlimit ["base_epoch", "epoch", "ops"] rfl (by decide) ?_
  simp only [forall_mem_cons]
  exact ⟨.int h.baseEpoch, .int h.epoch,
    frame_list h.ops.1 fun op hop => op.frame_toWire hlimit (h.ops.2 op hop), forall_mem_nil _⟩

theorem frame_stampToWire (hlimit : 2 ^ 32 ≤ limit) {stamp : Stamp} (h : StampU64 stamp) :
    Frame limit (stampToWire stamp) := by
  refine frame_fields hlimit ["wall_time", "logical", "peer"] rfl (by decide) ?_
  simp only [forall_mem_cons]
  exact ⟨.int h.wall, .int h.logical, .int h.peer, forall_mem_nil _⟩

theorem frame_crdtOpToWire (hlimit : 2 ^ 32 ≤ limit) {op : CrdtOp} (h : CrdtOpWithin limit op) :
    Frame limit (crdtOpToWire op) := by
  refine frame_fields hlimit ["node", "key", "stamp", "state"] rfl (by decide) ?_
  simp only [forall_mem_cons]
  exact ⟨.int h.node, frame_nodeKeyOrNull hlimit h.key, frame_stampToWire hlimit h.stamp,
    frame_ipcValueToWire hlimit h.state, forall_mem_nil _⟩

theorem frame_crdtSyncToWire (hlimit : 2 ^ 32 ≤ limit) {sync : CrdtSync} (h : CrdtSyncWithin limit sync) :
    Frame limit (crdtSyncToWire sync) := by
  refine frame_pair hlimit (by decide) (frame_list h.frontier.1 fun entry hentry => ?_)
    (frame_list h.ops.1 fun op hop => frame_crdtOpToWire hlimit (h.ops.2 op hop))
  obtain ⟨hpeer, hstamp⟩ := h.frontier.2 entry hentry
  refine .list (lt_of_lt_limit hlimit (show 2 < 2 ^ 32 by decide)) ?_
  simp only [forall_mem_cons]
  exact ⟨.int hpeer, frame_stampToWire hlimit hstamp, forall_mem_nil _⟩

/-- A tree that comes back from the `json` module. -/
def Json.RoundTrips (json : Json) (tree : WireValue) : Prop :=
  ∃ text, json.dumps tree = .ok text ∧ json.loads text = .ok tree

namespace IpcMessage

variable {m : IpcMessage}

/-- The tree of a message is a frame. -/
theorem frame_toWire (hlimit : 2 ^ 32 ≤ limit) (h : m.Within limit) {tree : WireValue}
    (htree : m.toWire = .ok tree) : Frame limit tree := by
  cases h with
  | snapshot h =>
    obtain rfl := Except.ok.inj htree
    exact frame_tagged hlimit (by decide) (Snapshot.frame_toWire hlimit h)
  | delta h =>
    obtain rfl := Except.ok.inj htree
    exact frame_tagged hlimit (by decide) (Delta.frame_toWire hlimit h)
  | crdtSync h =>
    obtain rfl := Except.ok.inj htree
    exact frame_tagged hlimit (by decide) (frame_crdtSyncToWire hlimit h)
  | resyncRequest h =>
    obtain rfl := Except.ok.inj htree
    exact frame_tagged hlimit (by decide)
      (frame_fields hlimit ["from_epoch"] rfl (by decide) (forall_mem_singleton.mpr (.int h)))
  | outboxAck h =>
    obtain rfl := Except.ok.inj htree
    exact frame_tagged hlimit (by decide)
      (frame_fields hlimit ["through_epoch"] rfl (by decide) (forall_mem_singleton.mpr (.int h)))

theorem decodeJson_encodeJson {json : Json} (h : m.Within limit)
    (hjson : ∀ tree, m.toWire = .ok tree → json.RoundTrips tree) :
    ∃ data, m.encodeJson json = .ok data ∧ decodeJson json data = .ok m := by
  obtain ⟨tree, htree, hread⟩ := fromWire_toWire h
  obtain ⟨text, hdumps, hloads⟩ := hjson tree htree
  have hencode : m.encodeJson json = .ok (Bytes.utf8 text) := by
    rw [encodeJson, htree]
    show (json.dumps tree >>= fun text => .ok (Bytes.utf8 text)) = _
    rw [hdumps]
    rfl
  have hdecode : Codec.decode (Bytes.utf8 text) = .ok text := by
    rw [Codec.decode, Bytes.ofUtf8?_utf8]
  refine ⟨_, hencode, ?_⟩
  rw [decodeJson, hdecode]
  show (json.loads text >>= fromWire) = _
  rw [hloads]
  exact hread

theorem decodeMsgpack_encodeMsgpack (h : m.Within (2 ^ 32)) :
    ∃ data, m.encodeMsgpack = .ok data ∧ decodeMsgpack data = .ok m := by
  obtain ⟨tree, htree, hread⟩ := fromWire_toWire h
  obtain ⟨data, hpack, hreads⟩ := Codec.unpack_pack (frame_toWire le_rfl h htree).tree
  have hunpack : Codec.msgpackUnpack data = .ok tree := by
    have hrun : Codec.unpack.run data = .ok (tree, []) := by simpa using hreads []
    rw [Codec.msgpackUnpack_of_run hrun, if_pos rfl]
  refine ⟨data, ?_, ?_⟩
  · rw [encodeMsgpack, htree]
    show ofCodec (Codec.pack tree) = _
    rw [hpack]
    rfl
  · rw [decodeMsgpack, hunpack]
    exact hread

/-- Both codecs give a message back. The binary one does for sizes of four bytes. -/
theorem codecs_roundtrip (json : Json) (m : IpcMessage)
    (hjson : ∀ tree, m.toWire = .ok tree → Frame ⊤ tree → json.RoundTrips tree) :
    (m.Within ⊤ → ∃ data, m.encodeJson json = .ok data ∧ decodeJson json data = .ok m) ∧
    (m.Within (2 ^ 32) → ∃ data, m.encodeMsgpack = .ok data ∧ decodeMsgpack data = .ok m) := by
  refine ⟨fun h => decodeJson_encodeJson h fun tree htree => ?_, decodeMsgpack_encodeMsgpack⟩
  exact hjson tree htree (frame_toWire le_top h htree)

/-- A delta that sets one cell, and what `json` does with it. -/
def setOne : IpcMessage :=
  ofDelta ⟨4, 5, [.cellSet 1 (.inline [7])]⟩

def setOneText : String :=
  "\x7b\"Delta\":\x7b\"base_epoch\":4,\"epoch\":5,\"ops\":[\x7b\"CellSet\":\x7b\"node\":1," ++
    "\"payload\":\x7b\"Inline\":[7]\x7d\x7d\x7d]\x7d\x7d"

def setOneJson : Json where
  dumps _ := .ok setOneText
  loads text := if text = setOneText then setOne.toWire else .error .json

theorem loads_setOneText : setOneJson.loads setOneText = setOne.toWire := by
  simp only [setOneJson, if_true]

theorem setOne_within (hlimit : 2 ^ 32 ≤ limit) : setOne.Within limit := by
  have hone : ((1 : ℕ) : ℕ∞) < limit := lt_of_lt_limit hlimit (by decide)
  refine .delta ⟨by decide, by decide, hone, ?_⟩
  rw [forall_mem_singleton]
  exact ⟨by decide, hone⟩

theorem codecs_roundtrip_setOne :
    (∃ data, setOne.encodeJson setOneJson = .ok data ∧ decodeJson setOneJson data = .ok setOne) ∧
    (∃ data, setOne.encodeMsgpack = .ok data ∧ decodeMsgpack data = .ok setOne) := by
  have hboth := codecs_roundtrip setOneJson setOne
    fun tree htree _ => ⟨setOneText, rfl, loads_setOneText.trans htree⟩
  exact ⟨hboth.1 (setOne_within le_top), hboth.2 (setOne_within le_rfl)⟩

/-! ### What is too large -/

theorem packStr_of_short {key : String} (h : key.utf8ByteSize < 2 ^ 32) : ∃ raw, Codec.packStr key = .ok raw := by
  obtain ⟨raw, hraw, -⟩ := Codec.readsBack_str h
  exact ⟨raw, hraw⟩

/-- A snapshot with too many roots is not packed. -/
theorem encodeMsgpack_roots {roots : List ℤ} (hroots : 2 ^ 32 ≤ roots.length) :
    (ofSnapshot ⟨0, [], [], roots⟩).encodeMsgpack = .error (.codec (.codec .arrayTooLong)) := by
  have hheader : Codec.packArrayHeader (roots.map WireValue.int).length = .error (.codec .arrayTooLong) :=
    Codec.packHeader_of_le (by rwa [length_map])
  obtain ⟨epoch, hepoch⟩ := packStr_of_short (show "epoch".utf8ByteSize < 2 ^ 32 by decide)
  obtain ⟨nodes, hnodes⟩ := packStr_of_short (show "nodes".utf8ByteSize < 2 ^ 32 by decide)
  obtain ⟨edges, hedges⟩ := packStr_of_short (show "edges".utf8ByteSize < 2 ^ 32 by decide)
  obtain ⟨rest, hrest⟩ := packStr_of_short (show "roots".utf8ByteSize < 2 ^ 32 by decide)
  obtain ⟨tag, htag⟩ := packStr_of_short (show "Snapshot".utf8ByteSize < 2 ^ 32 by decide)
  have hone : Codec.packMapHeader 1 = .ok [0x81] := rfl
  have hfour : Codec.packMapHeader 4 = .ok [0x84] := rfl
  have hempty : Codec.packArrayHeader 0 = .ok [0x90] := rfl
  have hzero : Codec.packInt 0 = .ok [0] := rfl
  show ofCodec (Codec.pack (tagged "Snapshot" (Snapshot.toWire ⟨0, [], [], roots⟩))) = _
  simp only [tagged, Snapshot.toWire, namedFields, map_cons, map_nil, Codec.pack,
    Codec.packItems, Codec.packElements, hheader, hepoch, hnodes, hedges, hrest, htag, hzero,
    length_cons, length_nil, Nat.reduceAdd, hone, hfour, hempty]
  rfl

/-- A message of one of the five variants that the binary codec refuses. -/
theorem msgpack_refuses : (ofSnapshot ⟨0, [], [], replicate (2 ^ 32) 0⟩).Within ⊤ ∧
      (ofSnapshot ⟨0, [], [], replicate (2 ^ 32) 0⟩).encodeMsgpack = .error (.codec (.codec .arrayTooLong)) := by
  have hzero : IsU64 0 := by decide
  refine ⟨.snapshot ⟨hzero, ⟨ENat.natCast_lt_top _, nofun⟩, ⟨ENat.natCast_lt_top _, nofun⟩,
    ENat.natCast_lt_top _, fun root hroot => ?_⟩, encodeMsgpack_roots ?_⟩
  · obtain rfl := eq_of_mem_replicate hroot
    exact hzero
  · rw [length_replicate]

end IpcMessage

end LazilyPy.Wire

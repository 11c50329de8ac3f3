import LazilyPy.Ipc.Arena

/-!
# Spilling and resolving the payloads of a message

A backend keeps large payloads in an arena. A message is spilled into it before it is sent: its large
payloads are written, and replaced by descriptors. A router resolves the descriptors.
-/

namespace LazilyPy.Ipc

/-! ### Backends -/

/-- An arena behind a kind of backend. Only a backend over shared memory can be closed. -/
structure BlobBackend where
  kind : BlobBackendKind
  arena : ShmBlobArena
  epoch : ℕ := 0
  closed : Bool := false

namespace BlobBackend

def write (data : List UInt8) (b : BlobBackend) : Except Raised ShmBlobRef × BlobBackend :=
  if b.closed then (.error (.arena .closed), b)
  else
    let (written, arena) := b.arena.writeBlob b.epoch data
    (written.map fun descriptor => { descriptor with backend := b.kind }, { b with arena := arena })

def readView (descriptor : ShmBlobRef) (b : BlobBackend) : Except Raised (Option (List UInt8)) :=
  if b.closed ∨ descriptor.epoch ≠ b.epoch then .ok none
  else
    match b.arena.readBlob descriptor with
    | .ok view => .ok (some view)
    | .error (.arena _) => .ok none
    | .error raised => .error raised

def advanceEpoch (b : BlobBackend) : BlobBackend :=
  { b with epoch := b.epoch + 1 }

def close (b : BlobBackend) : BlobBackend :=
  { b with closed := true }

/-- The states that a backend gets into. Its arena may have been used before, and may be written to by
others. -/
inductive Reachable : BlobBackend → Prop
  | create {buffer : Bytearray} {arena : ShmBlobArena} (kind : BlobBackendKind)
      (hnew : ShmBlobArena.new buffer = .ok arena) : Reachable ⟨kind, arena, 0, false⟩
  | fromArena {b : BlobBackend} (hb : Reachable b) : Reachable ⟨.inProcess, b.arena, 0, false⟩
  | writeBlob {b : BlobBackend} (hb : Reachable b) (epoch : ℕ) (payload : List UInt8) :
      Reachable { b with arena := (b.arena.writeBlob epoch payload).2 }
  | write {b : BlobBackend} (hb : Reachable b) (data : List UInt8) : Reachable (b.write data).2
  | advanceEpoch {b : BlobBackend} (hb : Reachable b) : Reachable b.advanceEpoch
  | close {b : BlobBackend} (hb : Reachable b) (hkind : b.kind = .shm) : Reachable b.close

end BlobBackend

/-! ### Messages -/

inductive IpcValue
  | inline (data : List UInt8)
  | sharedBlob (blob : ShmBlobRef)
  deriving DecidableEq, Repr

/-- The state of a node: what it is, where it is, or that it cannot be told. -/
inductive NodeState
  | payload (data : List UInt8)
  | sharedBlob (blob : ShmBlobRef)
  | opaqueState
  deriving DecidableEq, Repr

structure NodeSnapshot where
  node : ℤ
  typeTag : String
  state : NodeState
  key : Option String := none
  deriving DecidableEq, Repr

structure Snapshot where
  nodes : List NodeSnapshot
  deriving DecidableEq, Repr

inductive DeltaOp
  | cellSet (node : ℤ) (payload : IpcValue)
  | slotValue (node : ℤ) (payload : IpcValue)
  | invalidate (node : ℤ)
  | nodeAdd (node : ℤ) (typeTag : String) (state : NodeState) (key : Option String)
  | nodeRemove (node : ℤ)
  | edgeAdd (dependent dependency : ℤ)
  | edgeRemove (dependent dependency : ℤ)
  | queuePush (node : ℤ) (payload : IpcValue)
  | queuePop (node : ℤ)
  | queueClose (node : ℤ)
  deriving DecidableEq, Repr

structure Delta where
  ops : List DeltaOp
  deriving DecidableEq, Repr

structure CrdtOp where
  node : ℤ
  state : IpcValue
  deriving DecidableEq, Repr

structure CrdtSync where
  ops : List CrdtOp
  deriving DecidableEq, Repr

structure IpcMessage where
  snapshot : Option Snapshot := none
  delta : Option Delta := none
  crdtSync : Option CrdtSync := none
  deriving DecidableEq, Repr

/-! ### Spilling -/

abbrev Spill :=
  ExceptT Raised (StateM BlobBackend)

/-- Write the data if it is large. If the arena refuses, it stays inline. -/
def spillData (data : List UInt8) (threshold : ℤ) : Spill (Option ShmBlobRef) :=
  if threshold ≤ data.length then
    tryCatch (some <$> BlobBackend.write data) fun
      | .arena _ => pure none
      | raised => throw raised
  else pure none

def spillValue (value : IpcValue) (threshold : ℤ) : Spill (IpcValue × ℕ) := do
  match value with
  | .inline data =>
    match ← spillData data threshold with
    | some descriptor => return (.sharedBlob descriptor, data.length)
    | none => return (value, 0)
  | .sharedBlob _ => return (value, 0)

def spillState (state : NodeState) (threshold : ℤ) : Spill (NodeState × ℕ) := do
  match state with
  | .payload data =>
    match ← spillData data threshold with
    | some descriptor => return (.sharedBlob descriptor, data.length)
    | none => return (state, 0)
  | .sharedBlob _ => return (state, 0)
  | .opaqueState => return (state, 0)

/-- Put the result of a spill into what carries it. A spill of no bytes counts as none. -/
def replaceSpilled {α σ : Type} (x : α) (put : σ → α) (spilled : σ × ℕ) : α × ℕ :=
  if spilled.2 ≠ 0 then (put spilled.1, spilled.2) else (x, 0)

def spillNode (threshold : ℤ) (node : NodeSnapshot) : Spill (NodeSnapshot × ℕ) :=
  replaceSpilled node (fun state => { node with state := state }) <$> spillState node.state threshold

def spillOp (threshold : ℤ) (op : DeltaOp) : Spill (DeltaOp × ℕ) :=
  match op with
  | .cellSet node payload => replaceSpilled op (.cellSet node) <$> spillValue payload threshold
  | .slotValue node payload => replaceSpilled op (.slotValue node) <$> spillValue payload threshold
  | .queuePush node payload => replaceSpilled op (.queuePush node) <$> spillValue payload threshold
  | .nodeAdd node typeTag state key =>
    replaceSpilled op (.nodeAdd node typeTag · key) <$> spillState state threshold
  | _ => return (op, 0)

def spillCrdtOp (threshold : ℤ) (op : CrdtOp) : Spill (CrdtOp × ℕ) :=
  replaceSpilled op (fun state => { op with state := state }) <$> spillValue op.state threshold

def spillEach {α : Type} (f : α → Spill (α × ℕ)) : List α → Spill (List α × ℕ)
  | [] => return ([], 0)
  | x :: xs => do
    let (x, spilled) ← f x
    let (xs, total) ← spillEach f xs
    return (x :: xs, spilled + total)

def spillSnapshot (snapshot : Snapshot) (threshold : ℤ) : Spill (Snapshot × ℕ) := do
  let (nodes, total) ← spillEach (spillNode threshold) snapshot.nodes
  return ({ snapshot with nodes := nodes }, total)

def spillDelta (delta : Delta) (threshold : ℤ) : Spill (Delta × ℕ) := do
  let (ops, total) ← spillEach (spillOp threshold) delta.ops
  return ({ delta with ops := ops }, total)

def spillCrdtSync (sync : CrdtSync) (threshold : ℤ) : Spill (CrdtSync × ℕ) := do
  let (ops, total) ← spillEach (spillCrdtOp threshold) sync.ops
  return ({ sync with ops := ops }, total)

def spillMessage (message : IpcMessage) (threshold : ℤ) : Spill (IpcMessage × ℕ) := do
  match message.snapshot, message.delta, message.crdtSync with
  | some snapshot, _, _ =>
    let (snapshot, total) ← spillSnapshot snapshot threshold
    return ({ message with snapshot := snapshot }, total)
  | none, some delta, _ =>
    let (delta, total) ← spillDelta delta threshold
    return ({ message with delta := delta }, total)
  | none, none, some sync =>
    let (sync, total) ← spillCrdtSync sync threshold
    return ({ message with crdtSync := sync }, total)
  | none, none, none => return (message, 0)

/-! ### Resolving -/

structure BlobRouter where
  backends : BlobBackendKind → Option BlobBackend := fun _ => none

namespace BlobRouter

def register (b : BlobBackend) (router : BlobRouter) : BlobRouter where
  backends := Function.update router.backends b.kind b

def readView (descriptor : ShmBlobRef) (router : BlobRouter) : Except Raised (Option (List UInt8)) :=
  match router.backends descriptor.backend with
  | none => .ok none
  | some b => b.readView descriptor

def resolve (value : IpcValue) (router : BlobRouter) : Except Raised (Option (List UInt8)) :=
  match value with
  | .inline data => .ok (some data)
  | .sharedBlob blob => router.readView blob

end BlobRouter

/-! ### Sites -/

inductive Site
  | value (value : IpcValue)
  | state (state : NodeState)
  deriving DecidableEq, Repr

namespace Site

def inline? : Site → Option (List UInt8)
  | value (.inline data) => some data
  | state (.payload data) => some data
  | _ => none

def share (descriptor : ShmBlobRef) : Site → Site
  | value _ => value (.sharedBlob descriptor)
  | state _ => state (.sharedBlob descriptor)

def resolve (site : Site) (router : BlobRouter) : Except Raised (Option (List UInt8)) :=
  match site with
  | value payload => router.resolve payload
  | state (.payload data) => .ok (some data)
  | state (.sharedBlob blob) => router.readView blob
  | state .opaqueState => .ok none

end Site

def NodeSnapshot.site (node : NodeSnapshot) : Site :=
  .state node.state

def DeltaOp.site? : DeltaOp → Option Site
  | cellSet _ payload => some (.value payload)
  | slotValue _ payload => some (.value payload)
  | queuePush _ payload => some (.value payload)
  | nodeAdd _ _ state _ => some (.state state)
  | _ => none

def CrdtOp.site (op : CrdtOp) : Site :=
  .value op.state

def Snapshot.sites (snapshot : Snapshot) : List Site :=
  snapshot.nodes.map NodeSnapshot.site

def Delta.sites (delta : Delta) : List Site :=
  delta.ops.filterMap DeltaOp.site?

def CrdtSync.sites (sync : CrdtSync) : List Site :=
  sync.ops.map CrdtOp.site

namespace IpcMessage

def sites (message : IpcMessage) : List Site :=
  message.snapshot.elim [] Snapshot.sites ++ message.delta.elim [] Delta.sites ++
    message.crdtSync.elim [] CrdtSync.sites

/-- The sites of the part that is spilled: of the snapshot, else of the delta, else of the
operations. -/
def spilledSites (message : IpcMessage) : List Site :=
  match message.snapshot, message.delta, message.crdtSync with
  | some snapshot, _, _ => snapshot.sites
  | none, some delta, _ => delta.sites
  | none, none, some sync => sync.sites
  | none, none, none => []

end IpcMessage

end LazilyPy.Ipc

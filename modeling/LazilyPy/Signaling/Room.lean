import LazilyPy.Lib.Table
import Mathlib.Data.List.Sort

/-!
# The signaling room

Connections join a room as a peer and leave it, and direct frames at other peers. The room keeps the peer
of each connection and the connection of each peer, and forwards frames under the peer of the sender.
-/

namespace LazilyPy.Signaling

/-! ### Frames -/

inductive SignalingFrameKind
  | join | welcome | peerJoined | peerLeft | offer | answer | ice | relay | leave | error
  deriving DecidableEq, Repr

namespace SignalingFrameKind

def value : SignalingFrameKind → String
  | join => "join"
  | welcome => "welcome"
  | peerJoined => "peer-joined"
  | peerLeft => "peer-left"
  | offer => "offer"
  | answer => "answer"
  | ice => "ice"
  | relay => "relay"
  | leave => "leave"
  | error => "error"

def all : List SignalingFrameKind :=
  [join, welcome, peerJoined, peerLeft, offer, answer, ice, relay, leave, error]

def ofValue? (type : String) : Option SignalingFrameKind :=
  all.find? fun kind => kind.value = type

@[simp] theorem ofValue?_value (kind : SignalingFrameKind) : ofValue? kind.value = some kind := by
  cases kind <;> decide

end SignalingFrameKind

inductive Message
  | unknownFrameType (type : String)
  | joinRequiresPeer
  | notJoined
  | missingTarget
  | unknownTarget (peer : ℤ)
  | notAllowed (sender target : ℤ)
  deriving DecidableEq, Repr

/-- The text of a message, where `repr` shows a string. -/
def Message.text (repr : String → String) : Message → String
  | unknownFrameType type => s!"unknown frame type {repr type}"
  | joinRequiresPeer => "join requires a peer id"
  | notJoined => "connection has not joined the session"
  | missingTarget => "directed frame requires a `to` peer id"
  | unknownTarget peer => s!"peer {peer} is not in this session"
  | notAllowed sender target => s!"peer {sender} is not allowed to signal peer {target}"

structure SignalingFrame (α : Type) where
  type : String
  peer : Option ℤ := none
  toPeer : Option ℤ := none
  frm : Option ℤ := none
  sdp : Option String := none
  candidate : Option String := none
  payload : Option α := none
  capabilities : Option (List String) := none
  peers : Option (List ℤ) := none
  code : Option String := none
  message : Option Message := none
  deriving DecidableEq, Repr

/-! ### The room -/

inductive PermissionMode
  | openMode | allowlist
  deriving DecidableEq, Repr

structure PeerConn where
  peer : ℤ
  capabilities : List String := []
  deriving DecidableEq, Repr

/-- The peer of each connection, the connection of each peer, and who may signal whom. -/
structure RoomCore where
  mode : PermissionMode := .openMode
  byConn : Table (Prod.fst : String × PeerConn → String) := .empty _
  byPeer : Table (Prod.fst : ℤ × String → ℤ) := .empty _
  grants : List (ℤ × ℤ) := []

abbrev Emit (α : Type) := String × SignalingFrame α

namespace RoomCore

variable {α : Type}

def peerOf (s : RoomCore) (conn : String) : Option ℤ :=
  (s.byConn.get? conn).map fun row => row.2.peer

def connOf (s : RoomCore) (peer : ℤ) : Option String :=
  (s.byPeer.get? peer).map Prod.snd

def roster (s : RoomCore) : List ℤ :=
  (s.byPeer.rows.map Prod.fst).insertionSort (· ≤ ·)

def errorFrame (conn code : String) (message : Message) : List (Emit α) :=
  [(conn, { type := SignalingFrameKind.error.value, code := code, message := message })]

def announce (kind : SignalingFrameKind) (conn : String) (peer : ℤ) (s : RoomCore) : List (Emit α) :=
  (s.byConn.rows.filter fun row => row.1 ≠ conn).map fun row =>
    (row.1, { type := kind.value, peer := peer })

/-- Register a connection as a peer. A connection that was another peer is detached from it. -/
def register (conn : String) (peer : ℤ) (capabilities : List String) (s : RoomCore) : RoomCore :=
  let byPeer := match s.byConn.get? conn with
    | some (_, existing) => if existing.peer ≠ peer then s.byPeer.erase existing.peer else s.byPeer
    | none => s.byPeer
  { s with
    byConn := s.byConn.put (conn, ⟨peer, capabilities⟩)
    byPeer := byPeer.put (peer, conn) }

def welcome (peer : ℤ) (s : RoomCore) : SignalingFrame α where
  type := SignalingFrameKind.welcome.value
  peer := peer
  peers := s.roster.filter fun p => p ≠ peer

def onJoin (conn : String) (frame : SignalingFrame α) (s : RoomCore) : List (Emit α) × RoomCore :=
  match frame.peer with
  | none => (errorFrame conn "malformed_join" .joinRequiresPeer, s)
  | some peer =>
    let s := s.register conn peer (frame.capabilities.getD [])
    ((conn, s.welcome peer) :: s.announce .peerJoined conn peer, s)

def unregister (conn : String) (peer : ℤ) (s : RoomCore) : RoomCore :=
  { s with
    byConn := s.byConn.erase conn
    byPeer := s.byPeer.erase peer }

def onLeave (conn : String) (s : RoomCore) : List (Emit α) × RoomCore :=
  match s.byConn.get? conn with
  | none => ([], s)
  | some (_, pc) =>
    let s := s.unregister conn pc.peer
    (s.announce .peerLeft conn pc.peer, s)

def isAllowed (s : RoomCore) (sender target : ℤ) : Bool :=
  (sender, target) ∈ s.grants

def onDirected (conn : String) (frame : SignalingFrame α) (s : RoomCore) : List (Emit α) :=
  match s.byConn.get? conn with
  | none => errorFrame conn "not_joined" .notJoined
  | some (_, sender) =>
    match frame.toPeer with
    | none => errorFrame conn "missing_target" .missingTarget
    | some target =>
      match s.connOf target with
      | none => errorFrame conn "unknown_target" (.unknownTarget target)
      | some targetConn =>
        if targetConn = conn then errorFrame conn "unknown_target" (.unknownTarget target)
        else if s.mode = .allowlist ∧ ¬ s.isAllowed sender.peer target then
          errorFrame conn "permission_denied" (.notAllowed sender.peer target)
        else
          [(targetConn,
            { type := frame.type
              frm := sender.peer
              sdp := frame.sdp
              candidate := frame.candidate
              payload := frame.payload })]

def handle (conn : String) (frame : SignalingFrame α) (s : RoomCore) : List (Emit α) × RoomCore :=
  match SignalingFrameKind.ofValue? frame.type with
  | some .join => s.onJoin conn frame
  | some .leave => s.onLeave conn
  | some .offer => (s.onDirected conn frame, s)
  | some .answer => (s.onDirected conn frame, s)
  | some .ice => (s.onDirected conn frame, s)
  | some .relay => (s.onDirected conn frame, s)
  | _ => (errorFrame conn "unknown_frame" (.unknownFrameType frame.type), s)

def allow (sender target : ℤ) (s : RoomCore) : RoomCore :=
  { s with grants := s.grants.insert (sender, target) }

end RoomCore

/-! ### Runs -/

inductive Input (α : Type)
  | frame (conn : String) (frame : SignalingFrame α)
  | allow (sender target : ℤ)

namespace RoomCore

variable {α : Type}

def step (s : RoomCore) : Input α → RoomCore
  | .frame conn frame => (s.handle conn frame).2
  | .allow sender target => s.allow sender target

def emits (s : RoomCore) : Input α → List (Emit α)
  | .frame conn frame => (s.handle conn frame).1
  | .allow _ _ => []

def run (mode : PermissionMode) (inputs : List (Input α)) : RoomCore :=
  inputs.foldl step { mode := mode }

theorem run_concat (mode : PermissionMode) (inputs : List (Input α)) (input : Input α) :
    run mode (inputs ++ [input]) = (run mode inputs).step input :=
  List.foldl_concat ..

/-! ### The tables after a frame -/

variable {s : RoomCore} {conn conn' : String} {peer peer' : ℤ}

section

variable (conn : String) (peer : ℤ)

theorem peerOf_register (capabilities : List String) (s : RoomCore) (conn' : String) :
    (s.register conn peer capabilities).peerOf conn' =
      if conn' = conn then some peer else s.peerOf conn' := by
  show ((s.byConn.put (conn, ⟨peer, capabilities⟩)).get? conn').map _ = _
  rw [Table.get?_put]
  split
  · rfl
  · rfl

theorem connOf_register (capabilities : List String) (s : RoomCore) (peer' : ℤ) :
    (s.register conn peer capabilities).connOf peer' = if peer' = peer then some conn
      else if s.peerOf conn = some peer' then none else s.connOf peer' := by
  unfold register connOf peerOf
  dsimp only
  rw [Table.get?_put]
  by_cases hpeer : peer' = peer
  · rw [if_pos hpeer, if_pos hpeer]
    rfl
  rw [if_neg hpeer, if_neg hpeer]
  cases hconn : s.byConn.get? conn with
  | none => rfl
  | some row =>
    obtain ⟨conn', existing⟩ := row
    simp only [Option.map_some, Option.some.injEq]
    by_cases hsame : existing.peer = peer
    · rw [if_neg (not_not.mpr hsame), if_neg fun heq => hpeer (heq.symm.trans hsame)]
    · rw [if_pos hsame, Table.get?_erase]
      by_cases hold : existing.peer = peer'
      · rw [if_pos hold, if_pos hold.symm]
        rfl
      · rw [if_neg hold, if_neg fun heq => hold heq.symm]

theorem peerOf_unregister (s : RoomCore) (conn' : String) :
    (s.unregister conn peer).peerOf conn' = if conn' = conn then none else s.peerOf conn' := by
  show ((s.byConn.erase conn).get? conn').map _ = _
  rw [Table.get?_erase]
  split
  · rfl
  · rfl

theorem connOf_unregister (s : RoomCore) (peer' : ℤ) :
    (s.unregister conn peer).connOf peer' = if peer' = peer then none else s.connOf peer' := by
  show ((s.byPeer.erase peer).get? peer').map _ = _
  rw [Table.get?_erase]
  split
  · rfl
  · rfl

end

/-! ### What a frame does -/

def Joins (frame : SignalingFrame α) (peer : ℤ) : Prop :=
  frame.type = SignalingFrameKind.join.value ∧ frame.peer = some peer

def Untelling (frame : SignalingFrame α) : Prop :=
  SignalingFrameKind.ofValue? frame.type ≠ some .welcome ∧ SignalingFrameKind.ofValue? frame.type ≠ some .peerJoined ∧
    SignalingFrameKind.ofValue? frame.type ≠ some .peerLeft

theorem untelling_errorFrame (conn code : String) (message : Message) :
    ∀ e ∈ (errorFrame conn code message : List (Emit α)), Untelling e.2 := by
  intro e he
  obtain rfl := List.mem_singleton.mp he
  unfold Untelling
  simp only [SignalingFrameKind.ofValue?_value]
  decide

/-- A frame that is forwarded: from the peer of its sender, to the connection of its target. -/
theorem onDirected_cases (conn : String) (frame : SignalingFrame α) (s : RoomCore) :
    (∃ code message, s.onDirected conn frame = errorFrame conn code message) ∨
    ∃ sender target targetConn, s.peerOf conn = some sender ∧ frame.toPeer = some target ∧
      s.connOf target = some targetConn ∧ s.onDirected conn frame = [(targetConn,
        { type := frame.type
          frm := sender
          sdp := frame.sdp
          candidate := frame.candidate
          payload := frame.payload })] := by
  unfold onDirected
  split
  · exact .inl ⟨_, _, rfl⟩
  next conn' sender hsender =>
    split
    · exact .inl ⟨_, _, rfl⟩
    next target htarget =>
      split
      · exact .inl ⟨_, _, rfl⟩
      next targetConn hconn =>
        split
        · exact .inl ⟨_, _, rfl⟩
        split
        · exact .inl ⟨_, _, rfl⟩
        · refine .inr ⟨sender.peer, target, targetConn, ?_, htarget, hconn, rfl⟩
          rw [peerOf, hsender]
          rfl

/-- What a join does. -/
theorem onJoin_cases (conn : String) (frame : SignalingFrame α) (s : RoomCore) :
    (frame.peer = none ∧ s.onJoin conn frame = (errorFrame conn "malformed_join" .joinRequiresPeer, s)) ∨
    ∃ peer, frame.peer = some peer ∧ s.onJoin conn frame =
      ((conn, (s.register conn peer (frame.capabilities.getD [])).welcome peer) ::
        (s.register conn peer (frame.capabilities.getD [])).announce .peerJoined conn peer,
        s.register conn peer (frame.capabilities.getD [])) := by
  unfold onJoin
  cases frame.peer with
  | none => exact .inl ⟨rfl, rfl⟩
  | some peer => exact .inr ⟨peer, rfl, rfl⟩

/-- What a leave does. -/
theorem onLeave_cases (conn : String) (s : RoomCore) : (s.peerOf conn = none ∧ s.onLeave (α := α) conn = ([], s)) ∨
    ∃ peer, s.peerOf conn = some peer ∧ s.onLeave (α := α) conn =
      ((s.unregister conn peer).announce .peerLeft conn peer, s.unregister conn peer) := by
  unfold onLeave peerOf
  cases s.byConn.get? conn with
  | none => exact .inl ⟨rfl, rfl⟩
  | some row => exact .inr ⟨row.2.peer, rfl, rfl⟩

/-- A frame is a join, a leave, a frame that is forwarded, or none of them. -/
theorem handle_eq (conn : String) (frame : SignalingFrame α) (s : RoomCore) :
    (frame.type = SignalingFrameKind.join.value ∧ s.handle conn frame = s.onJoin conn frame) ∨
    (frame.type ≠ SignalingFrameKind.join.value ∧ s.handle conn frame = s.onLeave conn) ∨
    (frame.type ≠ SignalingFrameKind.join.value ∧ Untelling frame ∧
      s.handle conn frame = (s.onDirected conn frame, s)) ∨
    (frame.type ≠ SignalingFrameKind.join.value ∧ s.handle conn frame =
      (errorFrame conn "unknown_frame" (.unknownFrameType frame.type), s)) := by
  have hnot (hne : SignalingFrameKind.ofValue? frame.type ≠ some .join) :
      frame.type ≠ SignalingFrameKind.join.value := by
    intro htype
    rw [htype, SignalingFrameKind.ofValue?_value] at hne
    exact hne rfl
  unfold handle Untelling
  cases hkind : SignalingFrameKind.ofValue? frame.type with
  | none => exact .inr (.inr (.inr ⟨hnot (by rw [hkind]; nofun), rfl⟩))
  | some kind =>
    cases kind with
    | join =>
      have hfound := List.find?_some hkind
      exact .inl ⟨(of_decide_eq_true hfound).symm, rfl⟩
    | leave => exact .inr (.inl ⟨hnot (by rw [hkind]; decide), rfl⟩)
    | offer | answer | ice | relay =>
      exact .inr (.inr (.inl ⟨hnot (by rw [hkind]; decide), by decide, rfl⟩))
    | welcome | peerJoined | peerLeft | error =>
      exact .inr (.inr (.inr ⟨hnot (by rw [hkind]; decide), rfl⟩))

/-- What a frame does: it changes nothing and tells nothing, or it is a join, or a leave. -/
theorem handle_cases (conn : String) (frame : SignalingFrame α) (s : RoomCore) :
    ((s.handle conn frame).2 = s ∧ (∀ e ∈ (s.handle conn frame).1, Untelling e.2) ∧ ∀ peer, ¬ Joins frame peer) ∨
    (∃ peer, Joins frame peer ∧ s.handle conn frame =
      ((conn, (s.register conn peer (frame.capabilities.getD [])).welcome peer) ::
        (s.register conn peer (frame.capabilities.getD [])).announce .peerJoined conn peer,
        s.register conn peer (frame.capabilities.getD []))) ∨
    ∃ peer, (∀ peer, ¬ Joins frame peer) ∧ s.peerOf conn = some peer ∧ s.handle conn frame =
      ((s.unregister conn peer).announce .peerLeft conn peer, s.unregister conn peer) := by
  obtain ⟨htype, heq⟩ | ⟨htype, heq⟩ | ⟨htype, huntelling, heq⟩ | ⟨htype, heq⟩ := handle_eq conn frame s
  · obtain ⟨hpeer, hjoin⟩ | ⟨peer, hpeer, hjoin⟩ := onJoin_cases conn frame s
    · refine .inl ⟨by rw [heq, hjoin], ?_, ?_⟩
      · rw [heq, hjoin]
        exact untelling_errorFrame conn _ _
      · rintro peer ⟨-, hsome⟩
        rw [hpeer] at hsome
        cases hsome
    · exact .inr (.inl ⟨peer, ⟨htype, hpeer⟩, heq.trans hjoin⟩)
  · have hnot (peer : ℤ) : ¬ Joins frame peer := fun hjoins => htype hjoins.1
    obtain ⟨-, hleave⟩ | ⟨peer, hpeer, hleave⟩ := onLeave_cases (α := α) conn s
    · refine .inl ⟨by rw [heq, hleave], ?_, hnot⟩
      rw [heq, hleave]
      exact List.forall_mem_nil _
    · exact .inr (.inr ⟨peer, hnot, hpeer, heq.trans hleave⟩)
  · refine .inl ⟨by rw [heq], ?_, fun peer hjoins => htype hjoins.1⟩
    intro e he
    rw [heq] at he
    -- what is forwarded has the type of the frame
    obtain ⟨code, message, herror⟩ | ⟨sender, target, targetConn, -, -, -, hforward⟩ := onDirected_cases conn frame s
    · exact untelling_errorFrame conn code message e (herror ▸ he)
    · rw [hforward] at he
      obtain rfl := List.mem_singleton.mp he
      exact huntelling
  · refine .inl ⟨by rw [heq], ?_, fun peer hjoins => htype hjoins.1⟩
    rw [heq]
    exact untelling_errorFrame conn _ _

end RoomCore

end LazilyPy.Signaling

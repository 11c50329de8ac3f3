import LazilyPy.Sync.Coordinator
import LazilyPy.Sync.Outbox

/-!
# The driver of one connection

One `tick` replays what the peer may have missed, drains the queue of the host, routes what the
source returns, and acknowledges. A failed send never raises: it stalls the driver until the next
reconnect. The source may raise, which ends the tick with an error in place of its `Progress`.

The world of a run is the driver and everything that has been observed of it, in order.
-/

namespace LazilyPy.Sync

structure SyncDriver (σ δ κ S : Type) where
  outbox : Outbox S
  coordinator : ResyncCoordinator
  pending : List (ℤ × IpcMessage σ δ κ)
  peerAckedThrough : ℤ
  ackOwed : Bool
  replayPending : Bool
  stalledSince : Option ℤ

structure Progress (σ δ κ : Type) where
  sent : ℕ
  applied : List (IpcMessage σ δ κ)
  resyncRequested : Bool
  snapshotsServed : ℕ
  peerAckedThrough : ℤ
  retained : ℕ
deriving DecidableEq

inductive Purpose where
  | replay (epoch : ℤ)
  | fresh (epoch : ℤ)
  | snapshot
  | request
  | ack
deriving DecidableEq

/-- How a tick ends early: `DriverError("Source", …)`, or the `ValueError` of a message with no
variant set. -/
inductive Failure where
  | source
  | value
deriving DecidableEq

inductive Event (σ δ κ : Type) where
  | enqueued (epoch : ℤ) (m : IpcMessage σ δ κ)
  | reconnected
  | sent (purpose : Purpose) (m : IpcMessage σ δ κ) (ok : Bool)
  | ingested (m : IpcMessage σ δ κ) (action : ResyncAction)
  | acked (through : ℤ)
  | returned (progress : Progress σ δ κ)
  | raised (failure : Failure)
deriving DecidableEq

/-- What happens around one tick: the clock reading, which sends succeed, the frames that the
source returns, whether it then raises, and the answers of the provider. Sends and answers are
numbered by the events before them. -/
structure Env (σ δ κ : Type) where
  now : ℤ
  accepts : ℕ → Bool
  inbound : List (IpcMessage σ δ κ)
  raises : Bool
  provider : ℕ → ℤ → IpcMessage σ δ κ

structure World (σ δ κ S : Type) where
  driver : SyncDriver σ δ κ S
  trace : List (Event σ δ κ)

structure Pass (σ δ κ S : Type) extends World σ δ κ S where
  progress : Progress σ δ κ

variable {σ δ κ S B : Type}

/-- `SyncDriver(…)` over a store. -/
def SyncDriver.new [OutboxStore S B] (store : S) (lastEpoch : ℤ) : SyncDriver σ δ κ S where
  outbox := .new store
  coordinator := .withEpoch lastEpoch
  pending := []
  peerAckedThrough := 0
  ackOwed := false
  replayPending := false
  stalledSince := none

namespace Pass

def observe (p : Pass σ δ κ S) (e : Event σ δ κ) : Pass σ δ κ S :=
  { p with trace := p.trace ++ [e] }

/-- What `self._sink.send(msg)` returns. -/
def accepted (env : Env σ δ κ) (p : Pass σ δ κ S) : Bool :=
  env.accepts p.trace.length

def send (env : Env σ δ κ) (p : Pass σ δ κ S) (purpose : Purpose) (m : IpcMessage σ δ κ) : Pass σ δ κ S :=
  p.observe (.sent purpose m (p.accepted env))

/-- `self._stalled_since = now`. -/
def stall (env : Env σ δ κ) (p : Pass σ δ κ S) : Pass σ δ κ S :=
  { p with driver := { p.driver with stalledSince := some env.now } }

/-- `self._replay_pending = True`, to finish the replay after the next reconnect. -/
def defer (p : Pass σ δ κ S) : Pass σ δ κ S :=
  { p with driver := { p.driver with replayPending := true } }

/-- `progress.sent += 1`. -/
def countSent (p : Pass σ δ κ S) : Pass σ δ κ S :=
  { p with progress := { p.progress with sent := p.progress.sent + 1 } }

/-- Phase 1, the frames of the replay: the first failure ends it. -/
def replay (env : Env σ δ κ) : List (ℤ × IpcMessage σ δ κ) → Pass σ δ κ S → Pass σ δ κ S
  | [], p => p
  | (epoch, m) :: frames, p =>
    if p.accepted env then replay env frames (p.send env (.replay epoch) m).countSent
    else ((p.send env (.replay epoch) m).stall env).defer

section Store

variable [OutboxStore S B] (codec : Codec (IpcMessage σ δ κ) B)

/-- `self._replay_pending = False` and `self._outbox.replay_from(self._peer_acked_through)`. -/
def startReplay (p : Pass σ δ κ S) : List (ℤ × IpcMessage σ δ κ) × Pass σ δ κ S :=
  let replayed := p.driver.outbox.replayFrom codec p.driver.peerAckedThrough
  (replayed.1, { p with driver := { p.driver with replayPending := false, outbox := replayed.2 } })

def resume (env : Env σ δ κ) (p : Pass σ δ κ S) : Pass σ δ κ S :=
  if p.driver.replayPending then replay env (p.startReplay codec).1 (p.startReplay codec).2 else p

/-- The first pending frame is appended to the outbox and leaves the queue. -/
def stage (p : Pass σ δ κ S) (epoch : ℤ) (m : IpcMessage σ δ κ)
    (pending : List (ℤ × IpcMessage σ δ κ)) : Pass σ δ κ S :=
  { p with driver := { p.driver with
    outbox := p.driver.outbox.append codec epoch m
    pending := pending } }

/-- `self._stalled_since = None`. -/
def unstall (p : Pass σ δ κ S) : Pass σ δ κ S :=
  { p with driver := { p.driver with stalledSince := none } }

/-- Phase 2, over the pending frames: each is appended to the outbox before it is sent, and the
first failure ends the drain. -/
def drain (env : Env σ δ κ) : List (ℤ × IpcMessage σ δ κ) → Pass σ δ κ S → Pass σ δ κ S
  | [], p => p
  | (epoch, m) :: pending, p =>
    if p.driver.stalledSince.isSome then p
    else
      let staged := p.stage codec epoch m pending
      let sent := staged.send env (.fresh epoch) m
      if staged.accepted env then drain env pending sent.countSent.unstall else sent.stall env

/-- An `OutboxAck` frame. -/
def acknowledge (p : Pass σ δ κ S) (through : ℤ) : Pass σ δ κ S :=
  let p := p.observe (.acked through)
  { p with driver := { p.driver with
    peerAckedThrough :=
      if p.driver.peerAckedThrough < through then through else p.driver.peerAckedThrough
    outbox := p.driver.outbox.ackThrough through } }

/-- A `ResyncRequest` frame. -/
def serve (env : Env σ δ κ) (p : Pass σ δ κ S) (fromEpoch : ℤ) : Pass σ δ κ S :=
  let sent := p.send env .snapshot (env.provider p.trace.length fromEpoch)
  if p.accepted env then
    { sent with
      progress := { sent.progress with snapshotsServed := sent.progress.snapshotsServed + 1 } }
  else sent.stall env

/-- `progress.applied.append(msg)`. -/
def apply (p : Pass σ δ κ S) (m : IpcMessage σ δ κ) : Pass σ δ κ S :=
  { p with progress := { p.progress with applied := p.progress.applied ++ [m] } }

def decide (p : Pass σ δ κ S) (m : IpcMessage σ δ κ) : Pass σ δ κ S :=
  let decision := p.driver.coordinator.ingest m
  let p := p.observe (.ingested m decision.1)
  { p with driver := { p.driver with coordinator := decision.2 } }

/-- `self._ack_owed = True`. -/
def owe (p : Pass σ δ κ S) : Pass σ δ κ S :=
  { p with driver := { p.driver with ackOwed := true } }

/-- A `ResyncRequest` of our own. -/
def request (env : Env σ δ κ) (p : Pass σ δ κ S) (fromEpoch : ℤ) : Pass σ δ κ S :=
  let sent := p.send env .request (.ofResyncRequest ⟨fromEpoch⟩)
  if p.accepted env then { sent with progress := { sent.progress with resyncRequested := true } }
  else sent.stall env

/-- A `Snapshot` or `Delta` frame. -/
def ingest (env : Env σ δ κ) (p : Pass σ δ κ S) (m : IpcMessage σ δ κ) : Pass σ δ κ S :=
  match (p.driver.coordinator.ingest m).1 with
  | .apply => (p.decide m).owe.apply m
  | .requestSnapshot fromEpoch => (p.decide m).request env fromEpoch
  | .ignore => p.decide m

/-- One received frame, or the `ValueError`. -/
def route (env : Env σ δ κ) (p : Pass σ δ κ S) (m : IpcMessage σ δ κ) : Except Failure (Pass σ δ κ S) :=
  match m.outboxAck, m.resyncRequest, m.crdtSync with
  | some a, _, _ => .ok (p.acknowledge a.throughEpoch)
  | none, some r, _ => .ok (p.serve env r.fromEpoch)
  | none, none, some _ => .ok (p.apply m)
  | none, none, none =>
    if m.snapshot.isSome ∨ m.delta.isSome then .ok (p.ingest env m) else .error .value

/-- Phase 3, over the frames that the source returns, with how it ends. -/
def receive (env : Env σ δ κ) : List (IpcMessage σ δ κ) → Pass σ δ κ S → Pass σ δ κ S × Option Failure
  | [], p => (p, if env.raises then some .source else none)
  | m :: inbound, p =>
    match p.route env m with
    | .ok p => receive env inbound p
    | .error failure => (p, some failure)

/-- `self._ack_owed = False`. -/
def settle (p : Pass σ δ κ S) : Pass σ δ κ S :=
  { p with driver := { p.driver with ackOwed := false } }

def advertise (env : Env σ δ κ) (p : Pass σ δ κ S) : Pass σ δ κ S :=
  if p.driver.ackOwed then
    let sent := p.send env .ack p.driver.coordinator.ack
    if p.accepted env then sent.settle else sent
  else p

def finish (p : Pass σ δ κ S) : Pass σ δ κ S :=
  let retained := p.driver.outbox.retainedEpochs
  { p with
    driver := { p.driver with outbox := retained.2 }
    progress := { p.progress with
      peerAckedThrough := p.driver.peerAckedThrough
      retained := retained.1.length } }

end Store

end Pass

namespace World

/-- `Progress()`. -/
def start (w : World σ δ κ S) : Pass σ δ κ S :=
  { w with
    progress := {
      sent := 0
      applied := []
      resyncRequested := false
      snapshotsServed := 0
      peerAckedThrough := 0
      retained := 0 } }

def enqueue (w : World σ δ κ S) (epoch : ℤ) (m : IpcMessage σ δ κ) : World σ δ κ S where
  driver := { w.driver with pending := w.driver.pending ++ [(epoch, m)] }
  trace := w.trace ++ [.enqueued epoch m]

def onReconnect (w : World σ δ κ S) : World σ δ κ S where
  driver := { w.driver with replayPending := true, ackOwed := true, stalledSince := none }
  trace := w.trace ++ [.reconnected]

variable [OutboxStore S B] (codec : Codec (IpcMessage σ δ κ) B)

def push (env : Env σ δ κ) (w : World σ δ κ S) : Pass σ δ κ S :=
  let p := w.start.resume codec env
  p.drain codec env p.driver.pending

def tick (env : Env σ δ κ) (w : World σ δ κ S) : World σ δ κ S :=
  match (w.push codec env).receive env env.inbound with
  | (p, some failure) => (p.observe (.raised failure)).toWorld
  | (p, none) =>
    let p := (p.advertise env).finish
    (p.observe (.returned p.progress)).toWorld

end World

inductive Command (σ δ κ : Type) where
  | enqueue (epoch : ℤ) (m : IpcMessage σ δ κ)
  | onReconnect
  | tick (env : Env σ δ κ)

namespace World

variable [OutboxStore S B] (codec : Codec (IpcMessage σ δ κ) B)

def step (w : World σ δ κ S) : Command σ δ κ → World σ δ κ S
  | .enqueue epoch m => w.enqueue epoch m
  | .onReconnect => w.onReconnect
  | .tick env => w.tick codec env

def run (w : World σ δ κ S) (cs : List (Command σ δ κ)) : World σ δ κ S :=
  cs.foldl (step codec) w

def init (store : S) (lastEpoch : ℤ) : World σ δ κ S where
  driver := .new store lastEpoch
  trace := []

theorem run_concat (w : World σ δ κ S) (cs : List (Command σ δ κ)) (c : Command σ δ κ) :
    w.run codec (cs ++ [c]) = (w.run codec cs).step codec c := by
  rw [run, List.foldl_append]
  rfl

end World

/-! ## Phases that only send -/

/-- From `p` to `p'` frames have been sent for purposes in `q`, and nothing has been received. -/
structure Sends (q : Purpose → Prop) (p p' : Pass σ δ κ S) : Prop where
  coordinator : p'.driver.coordinator = p.driver.coordinator
  applied : p'.progress.applied = p.progress.applied
  events : ∃ es, p'.trace = p.trace ++ es ∧ ∀ ev ∈ es, ∃ purpose m ok, ev = .sent purpose m ok ∧ q purpose

namespace Sends

variable {q q' : Purpose → Prop} {p p' p'' : Pass σ δ κ S} {env : Env σ δ κ}

theorem same (hcoordinator : p'.driver.coordinator = p.driver.coordinator)
    (happlied : p'.progress.applied = p.progress.applied) (htrace : p'.trace = p.trace) :
    Sends q p p' :=
  ⟨hcoordinator, happlied, [], by simpa using htrace, List.forall_mem_nil _⟩

theorem trans (h : Sends q p p') (h' : Sends q p' p'') : Sends q p p'' := by
  obtain ⟨es, htrace, hes⟩ := h.events
  obtain ⟨es', htrace', hes'⟩ := h'.events
  refine ⟨h'.coordinator.trans h.coordinator, h'.applied.trans h.applied, es ++ es', ?_, ?_⟩
  · rw [htrace', htrace, List.append_assoc]
  · intro ev hev
    exact (List.mem_append.mp hev).elim (hes ev) (hes' ev)

theorem send (env : Env σ δ κ) (p : Pass σ δ κ S) {purpose : Purpose} (hq : q purpose)
    (m : IpcMessage σ δ κ) : Sends q p (p.send env purpose m) :=
  ⟨rfl, rfl, [_], rfl, fun _ hev => ⟨purpose, m, _, List.mem_singleton.mp hev, hq⟩⟩

theorem replay (hq : ∀ e, q (.replay e)) (frames : List (ℤ × IpcMessage σ δ κ)) :
    Sends q p (Pass.replay env frames p) := by
  induction frames generalizing p with
  | nil => exact .same rfl rfl rfl
  | cons frame frames ih =>
    have hsend := send env p (hq frame.1) frame.2
    rw [Pass.replay]
    split
    · refine hsend.trans (.trans ?_ ih)
      exact .same rfl rfl rfl
    · exact hsend.trans (.same rfl rfl rfl)

theorem serve (hq : q .snapshot) (e : ℤ) : Sends q p (p.serve env e) := by
  have hsend := send env p hq (env.provider p.trace.length e)
  unfold Pass.serve
  dsimp only
  split
  · exact hsend.trans (.same rfl rfl rfl)
  · exact hsend.trans (.same rfl rfl rfl)

theorem request (hq : q .request) (e : ℤ) : Sends q p (p.request env e) := by
  have hsend := send env p hq (.ofResyncRequest ⟨e⟩)
  unfold Pass.request
  dsimp only
  split
  · exact hsend.trans (.same rfl rfl rfl)
  · exact hsend.trans (.same rfl rfl rfl)

theorem advertise (hq : q .ack) : Sends q p (p.advertise env) := by
  have hsend := send env p hq p.driver.coordinator.ack
  unfold Pass.advertise
  dsimp only
  split
  · split
    · exact hsend.trans (.same rfl rfl rfl)
    · exact hsend
  · exact .same rfl rfl rfl

variable [OutboxStore S B] {codec : Codec (IpcMessage σ δ κ) B}

theorem resume (hq : ∀ e, q (.replay e)) : Sends q p (p.resume codec env) := by
  unfold Pass.resume
  split
  · refine .trans ?_ (replay hq _)
    exact .same rfl rfl rfl
  · exact .same rfl rfl rfl

theorem drain (hq : ∀ e, q (.fresh e)) (pending : List (ℤ × IpcMessage σ δ κ)) :
    Sends q p (Pass.drain codec env pending p) := by
  induction pending generalizing p with
  | nil => exact .same rfl rfl rfl
  | cons frame pending ih =>
    have hstage : Sends q p (p.stage codec frame.1 frame.2 pending) := .same rfl rfl rfl
    have hsend := hstage.trans (send env _ (hq frame.1) frame.2)
    rw [Pass.drain]
    split
    · exact .same rfl rfl rfl
    · dsimp only
      split
      · refine hsend.trans (.trans ?_ ih)
        exact .same rfl rfl rfl
      · exact hsend.trans (.same rfl rfl rfl)

/-- The first two phases replay and drain. -/
theorem push (hreplay : ∀ e, q (.replay e)) (hfresh : ∀ e, q (.fresh e)) (w : World σ δ κ S) :
    Sends q w.start (w.push codec env) :=
  .trans (resume hreplay) (drain hfresh _)

end Sends

/-! ## A driver over a store in memory -/

def plain : Codec (IpcMessage ℕ ℕ Unit) (IpcMessage ℕ ℕ Unit) where
  encodeJson := id
  decodeJson := id

def receiving (inbound : List (IpcMessage ℕ ℕ Unit)) (raises : Bool) : Env ℕ ℕ Unit where
  now := 0
  accepts _ := true
  inbound := inbound
  raises := raises
  provider _ e := .ofSnapshot ⟨e, 0⟩

def inMemory : World ℕ ℕ Unit (InMemoryStore (IpcMessage ℕ ℕ Unit)) :=
  .init (.empty _) 0

end LazilyPy.Sync

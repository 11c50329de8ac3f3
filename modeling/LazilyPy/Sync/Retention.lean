import LazilyPy.Lib.Throughout
import LazilyPy.Sync.Driver

/-!
# What has been enqueued is not lost and not overtaken

A frame is in the queue, then in the outbox, and leaves it when the peer has acknowledged it. A
driver that is neither stalled nor about to replay has sent everything that it has taken from the
queue, which is what keeps a later frame from overtaking an earlier one.
-/

namespace LazilyPy.Sync

open List

variable {σ δ κ S B : Type}

/-! ## What the trace says -/

def Event.enqueued? : Event σ δ κ → Option (ℤ × IpcMessage σ δ κ)
  | .enqueued e m => some (e, m)
  | _ => none

def enqueuedFrames (trace : List (Event σ δ κ)) : List (ℤ × IpcMessage σ δ κ) :=
  trace.filterMap Event.enqueued?

/-- The peer has acknowledged the epoch: before the run, as the cursor `k` says, or in it. -/
def Acknowledged (k : ℤ) (trace : List (Event σ δ κ)) (a : ℤ) : Prop :=
  a = k ∨ .acked a ∈ trace

def Passed (k : ℤ) (trace : List (Event σ δ κ)) (e : ℤ) : Prop :=
  ∃ a, Acknowledged k trace a ∧ e ≤ a

def Arrived (trace : List (Event σ δ κ)) (e : ℤ) : Prop :=
  ∃ m, .sent (.fresh e) m true ∈ trace ∨ .sent (.replay e) m true ∈ trace

/-- A fresh frame is sent only when every earlier one has been sent or acknowledged. -/
def InTurn (k : ℤ) (trace : List (Event σ δ κ)) (ev : Event σ δ κ) : Prop :=
  ∀ e m, ev = .sent (.fresh e) m true → ∀ x ∈ enqueuedFrames trace, x.1 < e → Arrived trace x.1 ∨ Passed k trace x.1

/-- The event is none of those that the outbox and the queue are about. -/
def Event.Neutral : Event σ δ κ → Prop
  | .enqueued _ _ => False
  | .acked _ => False
  | .sent (.fresh _) _ _ => False
  | .sent (.replay _) _ _ => False
  | _ => True

section Trace

variable {k : ℤ} {trace l : List (Event σ δ κ)} {e : ℤ}

@[simp] theorem enqueuedFrames_append : enqueuedFrames (trace ++ l) = enqueuedFrames trace ++ enqueuedFrames l :=
  filterMap_append

theorem Passed.append (h : Passed k trace e) : Passed k (trace ++ l) e := by
  obtain ⟨a, ha, hle⟩ := h
  exact ⟨a, ha.imp id fun hmem => mem_append_left l hmem, hle⟩

theorem Arrived.append (h : Arrived trace e) : Arrived (trace ++ l) e := by
  obtain ⟨m, hm⟩ := h
  exact ⟨m, hm.imp (mem_append_left l) (mem_append_left l)⟩

theorem inTurn_of_ne {ev : Event σ δ κ} (h : ∀ e m, ev ≠ .sent (.fresh e) m true) : InTurn k trace ev :=
  fun e m hev => absurd hev (h e m)

theorem enqueuedFrames_neutral (h : ∀ ev ∈ l, ev.Neutral) : enqueuedFrames l = [] := by
  refine filterMap_eq_nil_iff.mpr fun ev hev => ?_
  cases ev with
  | enqueued e m => exact (h _ hev).elim
  | _ => rfl

theorem acked_neutral (h : ∀ ev ∈ l, ev.Neutral) {a : ℤ} : .acked a ∈ trace ++ l ↔ .acked a ∈ trace := by
  rw [mem_append]
  exact ⟨fun hmem => hmem.elim id fun hmem => (h _ hmem).elim, .inl⟩

end Trace

/-! ## What leaves the queue and the outbox alone -/

/-- From `w` to `w'` nothing happens to the queue and the outbox, and the driver does not recover
from a stall. -/
structure Idle (w w' : World σ δ κ S) : Prop where
  outbox : w'.driver.outbox = w.driver.outbox
  pending : w'.driver.pending = w.driver.pending
  peer : w'.driver.peerAckedThrough = w.driver.peerAckedThrough
  replay : w'.driver.replayPending = w.driver.replayPending
  stalled : w'.driver.stalledSince = none → w.driver.stalledSince = none
  events : ∃ l, w'.trace = w.trace ++ l ∧ ∀ ev ∈ l, ev.Neutral

namespace Idle

variable {w w' w'' : World σ δ κ S} {p : Pass σ δ κ S} {env : Env σ δ κ}

theorem refl (w : World σ δ κ S) : Idle w w :=
  ⟨rfl, rfl, rfl, rfl, id, [], by simp, forall_mem_nil _⟩

theorem trans (h : Idle w w') (h' : Idle w' w'') : Idle w w'' := by
  obtain ⟨l, htrace, hl⟩ := h.events
  obtain ⟨l', htrace', hl'⟩ := h'.events
  refine ⟨h'.outbox.trans h.outbox, h'.pending.trans h.pending, h'.peer.trans h.peer,
    h'.replay.trans h.replay, h.stalled ∘ h'.stalled, l ++ l', ?_, fun ev hev => ?_⟩
  · rw [htrace', htrace, append_assoc]
  · exact (mem_append.mp hev).elim (hl ev) (hl' ev)

/-- One event. -/
theorem event {ev : Event σ δ κ} (hev : ev.Neutral) (hdriver : w'.driver = w.driver)
    (htrace : w'.trace = w.trace ++ [ev]) : Idle w w' := by
  refine ⟨?_, ?_, ?_, ?_, ?_, [ev], htrace, fun _ hmem => (mem_singleton.mp hmem) ▸ hev⟩
  all_goals rw [hdriver]
  exact id

theorem send {purpose : Purpose} {m : IpcMessage σ δ κ} (h : (Event.sent purpose m (p.accepted env)).Neutral) :
    Idle p.toWorld (p.send env purpose m).toWorld :=
  .event h rfl rfl

theorem stall : Idle p.toWorld (p.stall env).toWorld :=
  ⟨rfl, rfl, rfl, rfl, nofun, [], by simp [Pass.stall], forall_mem_nil _⟩

theorem serve (e : ℤ) : Idle p.toWorld (p.serve env e).toWorld := by
  have hsend : Idle p.toWorld (p.send env .snapshot (env.provider p.trace.length e)).toWorld := .send trivial
  unfold Pass.serve
  dsimp only
  split
  · exact hsend.trans (.refl _)
  · exact hsend.trans .stall

theorem request (e : ℤ) : Idle p.toWorld (p.request env e).toWorld := by
  have hsend : Idle p.toWorld (p.send env .request (.ofResyncRequest ⟨e⟩)).toWorld := .send trivial
  unfold Pass.request
  dsimp only
  split
  · exact hsend.trans (.refl _)
  · exact hsend.trans .stall

theorem ingest (m : IpcMessage σ δ κ) : Idle p.toWorld (p.ingest env m).toWorld := by
  have hdecide : Idle p.toWorld (p.decide m).toWorld :=
    ⟨rfl, rfl, rfl, rfl, id, [.ingested m _], rfl, fun ev hev => (mem_singleton.mp hev) ▸ trivial⟩
  unfold Pass.ingest
  split
  · exact hdecide.trans ⟨rfl, rfl, rfl, rfl, id, [], by simp [Pass.apply, Pass.owe], forall_mem_nil _⟩
  · exact hdecide.trans (request _)
  · exact hdecide

theorem advertise : Idle p.toWorld (p.advertise env).toWorld := by
  have hsend : Idle p.toWorld (p.send env .ack p.driver.coordinator.ack).toWorld := .send trivial
  unfold Pass.advertise
  dsimp only
  split
  · split
    · exact hsend.trans ⟨rfl, rfl, rfl, rfl, id, [], by simp [Pass.settle], forall_mem_nil _⟩
    · exact hsend
  · exact .refl _

variable [OutboxStore S B]

/-- A frame that is no acknowledgement. -/
theorem route {p' : Pass σ δ κ S} {m : IpcMessage σ δ κ} (hack : m.outboxAck = none)
    (hroute : p.route env m = .ok p') : Idle p.toWorld p'.toWorld := by
  unfold Pass.route at hroute
  rw [hack] at hroute
  split at hroute
  · next heq => cases heq
  · obtain rfl := Except.ok.inj hroute
    exact .serve _
  · obtain rfl := Except.ok.inj hroute
    exact .refl _
  · split at hroute
    · obtain rfl := Except.ok.inj hroute
      exact .ingest m
    · cases hroute

end Idle

/-! ## Where a frame is -/

open OrderedStore

variable [OrderedStore S B] (codec : Codec (IpcMessage σ δ κ) B)

/-- Every enqueued frame is pending, stored, or acknowledged, and no fresh frame has overtaken an
earlier one. The cursors are the greatest acknowledgements. -/
structure Kept (k : ℤ) (w : World σ δ κ S) : Prop where
  tidy : w.driver.outbox.Tidy
  cursor : Acknowledged k w.trace w.driver.outbox.ackedThrough
  cursor_max : ∀ a, Acknowledged k w.trace a → a ≤ w.driver.outbox.ackedThrough
  peer : w.driver.peerAckedThrough = 0 ∨ .acked w.driver.peerAckedThrough ∈ w.trace
  increasing : (enqueuedFrames w.trace).Pairwise fun x y => x.1 < y.1
  pending : w.driver.pending.Sublist (enqueuedFrames w.trace)
  retained : ∀ x ∈ enqueuedFrames w.trace, x ∈ w.driver.pending ∨
    stored w.driver.outbox.store x.1 = some (codec.encodeJson x.2) ∨ Passed k w.trace x.1
  positive : ∀ e b, stored w.driver.outbox.store e = some b → 0 < e
  enqueued_pos : ∀ x ∈ enqueuedFrames w.trace, 0 < x.1
  inTurn : Throughout (InTurn k) w.trace

def CaughtUp (k : ℤ) (w : World σ δ κ S) : Prop :=
  ∀ x ∈ enqueuedFrames w.trace, x ∈ w.driver.pending ∨ Arrived w.trace x.1 ∨ Passed k w.trace x.1

/-- A driver that is neither stalled nor about to replay has caught up. -/
def Ready (k : ℤ) (w : World σ δ κ S) : Prop :=
  w.driver.stalledSince = none → w.driver.replayPending = false → CaughtUp k w

variable {codec} {k : ℤ} {w w' : World σ δ κ S}

/-- The queue and the outbox stay as they are, and nothing is enqueued or acknowledged. -/
theorem Kept.extend (h : Kept codec k w) (houtbox : w'.driver.outbox = w.driver.outbox)
    (hpending : w'.driver.pending = w.driver.pending)
    (hpeer : w'.driver.peerAckedThrough = w.driver.peerAckedThrough)
    (henqueued : enqueuedFrames w'.trace = enqueuedFrames w.trace)
    (hacked : ∀ a, .acked a ∈ w'.trace ↔ .acked a ∈ w.trace)
    (hturn : Throughout (InTurn k) w'.trace) : Kept codec k w' := by
  have hacknowledged : ∀ a, Acknowledged k w'.trace a ↔ Acknowledged k w.trace a := fun a =>
    or_congr_right (hacked a)
  have hpassed : ∀ e, Passed k w.trace e → Passed k w'.trace e := fun e ⟨a, ha, hle⟩ =>
    ⟨a, (hacknowledged a).mpr ha, hle⟩
  refine ⟨?_, ?_, ?_, ?_, ?_, ?_, ?_, ?_, ?_, hturn⟩
  · rw [houtbox]
    exact h.tidy
  · rw [houtbox, hacknowledged]
    exact h.cursor
  · rw [houtbox]
    exact fun a ha => h.cursor_max a ((hacknowledged a).mp ha)
  · rw [hpeer, hacked]
    exact h.peer
  · rw [henqueued]
    exact h.increasing
  · rw [henqueued, hpending]
    exact h.pending
  · rw [henqueued, hpending, houtbox]
    exact fun x hx => (h.retained x hx).imp id fun hx => hx.imp id (hpassed x.1)
  · rw [houtbox]
    exact h.positive
  · rw [henqueued]
    exact h.enqueued_pos

/-- One send, in its turn. -/
theorem Kept.send {p : Pass σ δ κ S} (h : Kept codec k p.toWorld) (env : Env σ δ κ)
    {purpose : Purpose} {m : IpcMessage σ δ κ}
    (hturn : InTurn k p.trace (.sent purpose m (p.accepted env))) :
    Kept codec k (p.send env purpose m).toWorld := by
  refine h.extend rfl rfl rfl ?_ (fun a => ?_) ?_
  · change enqueuedFrames (p.trace ++ [_]) = _
    rw [enqueuedFrames_append]
    exact append_nil _
  · change .acked a ∈ p.trace ++ [_] ↔ _
    simp
  · exact throughout_concat.mpr ⟨h.inTurn, hturn⟩

theorem Kept.idle (h : Kept codec k w) (hi : Idle w w') : Kept codec k w' := by
  obtain ⟨l, htrace, hl⟩ := hi.events
  refine h.extend hi.outbox hi.pending hi.peer ?_ (fun a => ?_) ?_
  · rw [htrace, enqueuedFrames_append, enqueuedFrames_neutral hl, append_nil]
  · rw [htrace, acked_neutral hl]
  · rw [htrace]
    refine h.inTurn.append fun ev hev before => inTurn_of_ne ?_
    rintro e m rfl
    exact hl _ hev

/-- More events, of which none enqueues, and the same queue. -/
theorem CaughtUp.append (h : CaughtUp k w) (hpending : w'.driver.pending = w.driver.pending)
    {l : List (Event σ δ κ)} (htrace : w'.trace = w.trace ++ l) (hl : enqueuedFrames l = []) :
    CaughtUp k w' := by
  intro x hx
  rw [htrace, enqueuedFrames_append, hl, append_nil] at hx
  rw [hpending, htrace]
  exact (h x hx).imp id fun hx => hx.imp Arrived.append Passed.append

theorem Ready.idle (h : Ready k w) (hi : Idle w w') : Ready k w' := by
  obtain ⟨l, htrace, hl⟩ := hi.events
  intro hstalled hreplay
  exact (h (hi.stalled hstalled) (hi.replay ▸ hreplay)).append hi.pending htrace (enqueuedFrames_neutral hl)

/-! ## Acknowledgements -/

theorem Kept.acknowledge {p : Pass σ δ κ S} (h : Kept codec k p.toWorld) (a : ℤ) :
    Kept codec k (p.acknowledge a).toWorld := by
  obtain ⟨htidy, hcursor, hstored⟩ := Outbox.ackThrough_spec h.tidy a
  have htrace : (p.acknowledge a).trace = p.trace ++ [.acked a] := rfl
  have henqueued : enqueuedFrames (p.acknowledge a).trace = enqueuedFrames p.trace := by
    rw [htrace, enqueuedFrames_append]
    exact append_nil _
  have hold : ∀ {x}, Acknowledged k p.trace x → Acknowledged k (p.acknowledge a).trace x := by
    intro x hx
    exact hx.imp id fun hmem => mem_append_left _ hmem
  have hnew : Acknowledged k (p.acknowledge a).trace a := .inr (mem_append_right _ (mem_singleton_self _))
  have hmax : Acknowledged k (p.acknowledge a).trace (max p.driver.outbox.ackedThrough a) := by
    rcases max_choice p.driver.outbox.ackedThrough a with heq | heq
    · rw [heq]
      exact hold h.cursor
    · rw [heq]
      exact hnew
  refine ⟨htidy, hcursor ▸ hmax, fun x hx => ?_, ?_, henqueued ▸ h.increasing,
    henqueued ▸ h.pending, fun x hx => ?_, fun e b hb => ?_, henqueued ▸ h.enqueued_pos, ?_⟩
  · change x ≤ (p.driver.outbox.ackThrough a).ackedThrough
    rw [hcursor]
    rcases hx with hx | hx
    · exact le_max_of_le_left (h.cursor_max x (.inl hx))
    · rcases mem_append.mp hx with hx | hx
      · exact le_max_of_le_left (h.cursor_max x (.inr hx))
      · obtain rfl : x = a := by simpa using hx
        exact le_max_right _ _
  · change (if p.driver.peerAckedThrough < a then a else p.driver.peerAckedThrough) = 0 ∨
      .acked (if p.driver.peerAckedThrough < a then a else p.driver.peerAckedThrough) ∈ p.trace ++ [.acked a]
    split
    · exact .inr (by simp)
    · exact h.peer.imp id fun hmem => mem_append_left _ hmem
  · rcases h.retained x (henqueued ▸ hx) with hx | hx | ⟨b, hb, hle⟩
    · exact .inl hx
    · by_cases hle : x.1 ≤ max p.driver.outbox.ackedThrough a
      · exact .inr (.inr ⟨_, hmax, hle⟩)
      · refine .inr (.inl ?_)
        change stored (p.driver.outbox.ackThrough a).store x.1 = _
        rw [hstored, if_neg hle, hx]
    · exact .inr (.inr ⟨b, hold hb, hle⟩)
  · have hstill : stored (p.driver.outbox.ackThrough a).store e = some b := hb
    rw [hstored] at hstill
    split at hstill
    · cases hstill
    · exact h.positive e b hstill
  · exact throughout_concat.mpr ⟨h.inTurn, inTurn_of_ne (by simp)⟩

theorem Ready.acknowledge {p : Pass σ δ κ S} (h : Ready k p.toWorld) (a : ℤ) : Ready k (p.acknowledge a).toWorld := by
  intro hstalled hreplay
  exact (h hstalled hreplay).append rfl (l := [.acked a]) rfl rfl

/-- Receiving keeps every frame. -/
theorem Kept.receive {p : Pass σ δ κ S} (h : Kept codec k p.toWorld ∧ Ready k p.toWorld)
    (env : Env σ δ κ) (inbound : List (IpcMessage σ δ κ)) :
    Kept codec k (p.receive env inbound).1.toWorld ∧ Ready k (p.receive env inbound).1.toWorld := by
  induction inbound generalizing p with
  | nil => exact h
  | cons m inbound ih =>
    rw [Pass.receive]
    split
    · next p' hroute =>
      cases hack : m.outboxAck with
      | none =>
        have hidle := Idle.route hack hroute
        exact ih ⟨h.1.idle hidle, h.2.idle hidle⟩
      | some a =>
        unfold Pass.route at hroute
        rw [hack] at hroute
        obtain rfl := Except.ok.inj hroute
        exact ih ⟨h.1.acknowledge _, h.2.acknowledge _⟩
    · exact h

/-! ## Replays -/

def World.dueFrames (codec : Codec (IpcMessage σ δ κ) B) (w : World σ δ κ S) : List (ℤ × IpcMessage σ δ κ) :=
  (w.driver.outbox.replayFrom codec w.driver.peerAckedThrough).1

/-- A replay is what is stored and not acknowledged, in ascending order. -/
theorem Kept.dueFrames (h : Kept codec k w) : ((w.dueFrames codec).Pairwise fun x y => x.1 < y.1) ∧
    ∀ e m, (e, m) ∈ w.dueFrames codec ↔ (∃ b, stored w.driver.outbox.store e = some b ∧ codec.decodeJson b = m) ∧
        ¬ Passed k w.trace e := by
  obtain ⟨_, hascending, hmem⟩ := Outbox.replayFrom_spec codec h.tidy w.driver.peerAckedThrough
  refine ⟨hascending, fun e m => (hmem e m).trans ?_⟩
  constructor
  · rintro ⟨_, hacked, hstored⟩
    refine ⟨hstored, ?_⟩
    rintro ⟨a, ha, hle⟩
    have hmax := h.cursor_max a ha
    omega
  · rintro ⟨⟨b, hb, hm⟩, hpassed⟩
    have hpos := h.positive e b hb
    have hacked : w.driver.outbox.ackedThrough < e := by
      refine lt_of_not_ge fun hle => hpassed ⟨_, h.cursor, hle⟩
    refine ⟨?_, hacked, b, hb, hm⟩
    rcases h.peer with hpeer | hpeer
    · omega
    · exact lt_of_not_ge fun hle => hpassed ⟨_, .inr hpeer, hle⟩

/-- Frames that have been sent one after the other, and one that has been refused. -/
def attempts (done rest : List (ℤ × IpcMessage σ δ κ)) : List (Event σ δ κ) :=
  (done.map fun x => .sent (.replay x.1) x.2 true) ++ rest.head?.toList.map fun x => .sent (.replay x.1) x.2 false

omit [OrderedStore S B] in
theorem mem_attempts {done rest : List (ℤ × IpcMessage σ δ κ)} {ev : Event σ δ κ}
    (h : ev ∈ attempts done rest) : ∃ e m ok, ev = .sent (.replay e) m ok := by
  rcases mem_append.mp h with h | h
  · obtain ⟨x, _, rfl⟩ := mem_map.mp h
    exact ⟨x.1, x.2, true, rfl⟩
  · obtain ⟨x, _, rfl⟩ := mem_map.mp h
    exact ⟨x.1, x.2, false, rfl⟩

omit [OrderedStore S B] in
/-- The frames of a replay are sent until one is refused, which stalls the driver. -/
theorem replay_spec (env : Env σ δ κ) (frames : List (ℤ × IpcMessage σ δ κ)) (p : Pass σ δ κ S) :
    ∃ done rest, frames = done ++ rest ∧ (Pass.replay env frames p).trace = p.trace ++ attempts done rest ∧
      (Pass.replay env frames p).driver = if rest = [] then p.driver else
        { p.driver with stalledSince := some env.now, replayPending := true } := by
  induction frames generalizing p with
  | nil => exact ⟨[], [], rfl, by simp [Pass.replay, attempts], by simp [Pass.replay]⟩
  | cons x frames ih =>
    rw [Pass.replay]
    cases hok : p.accepted env with
    | false =>
      refine ⟨[], x :: frames, rfl, ?_, by simp [Pass.defer, Pass.stall, Pass.send, Pass.observe]⟩
      simp [Pass.defer, Pass.stall, Pass.send, Pass.observe, attempts, hok]
    | true =>
      obtain ⟨done, rest, hframes, htrace, hdriver⟩ := ih (p.send env (.replay x.1) x.2).countSent
      refine ⟨x :: done, rest, by rw [hframes, cons_append], ?_, ?_⟩
      · rw [if_pos rfl, htrace]
        simp [Pass.countSent, Pass.send, Pass.observe, attempts, hok]
      · rw [if_pos rfl, hdriver]
        rfl

/-- Events of a replay. -/
theorem Kept.attempts (h : Kept codec k w) {done rest : List (ℤ × IpcMessage σ δ κ)}
    (houtbox : w'.driver.outbox = w.driver.outbox)
    (hpending : w'.driver.pending = w.driver.pending)
    (hpeer : w'.driver.peerAckedThrough = w.driver.peerAckedThrough)
    (htrace : w'.trace = w.trace ++ attempts done rest) : Kept codec k w' := by
  have hnone : enqueuedFrames (Sync.attempts done rest) = [] := by
    refine filterMap_eq_nil_iff.mpr fun ev hev => ?_
    obtain ⟨e, m, ok, rfl⟩ := mem_attempts hev
    rfl
  refine h.extend houtbox hpending hpeer ?_ (fun a => ?_) ?_
  · rw [htrace, enqueuedFrames_append, hnone, append_nil]
  · rw [htrace, mem_append]
    refine ⟨fun hmem => hmem.elim id fun hmem => ?_, .inl⟩
    obtain ⟨e, m, ok, heq⟩ := mem_attempts hmem
    cases heq
  · rw [htrace]
    refine h.inTurn.append fun ev hev before => inTurn_of_ne ?_
    obtain ⟨e, m, ok, rfl⟩ := mem_attempts hev
    simp

/-- After a replay that is not refused the driver has caught up. -/
theorem Kept.resume {p : Pass σ δ κ S} (h : Kept codec k p.toWorld) (hready : Ready k p.toWorld)
    (env : Env σ δ κ) : Kept codec k (p.resume codec env).toWorld ∧
      ((p.resume codec env).driver.stalledSince = none → CaughtUp k (p.resume codec env).toWorld) := by
  unfold Pass.resume
  cases hreplay : p.driver.replayPending with
  | false => exact ⟨h, fun hstalled => hready hstalled hreplay⟩
  | true =>
    have hsame : (p.driver.outbox.replayFrom codec p.driver.peerAckedThrough).2 = p.driver.outbox :=
      (Outbox.replayFrom_spec codec h.tidy _).1
    obtain ⟨done, rest, hframes, htrace, hdriver⟩ := replay_spec env (p.startReplay codec).1 (p.startReplay codec).2
    rw [if_pos rfl]
    generalize Pass.replay env (p.startReplay codec).1 (p.startReplay codec).2 = p' at htrace hdriver
    have houtbox : p'.driver.outbox = p.driver.outbox := by
      rw [hdriver]
      split <;> exact hsame
    have hpending : p'.driver.pending = p.driver.pending := by
      rw [hdriver]
      split <;> rfl
    have hpeer : p'.driver.peerAckedThrough = p.driver.peerAckedThrough := by
      rw [hdriver]
      split <;> rfl
    have hkept : Kept codec k p'.toWorld := h.attempts houtbox hpending hpeer htrace
    refine ⟨hkept, fun hstalled x hx => ?_⟩
    have hrest : rest = [] := by
      by_contra hne
      rw [hdriver, if_neg hne] at hstalled
      cases hstalled
    obtain rfl := hrest
    rw [append_nil] at hframes
    rcases hkept.retained x hx with hx | hx | hx
    · exact .inl hx
    · -- what is stored and not acknowledged was among the frames of the replay
      by_cases hpassed : Passed k p.trace x.1
      · rw [htrace]
        exact .inr (.inr hpassed.append)
      · have hdue : (x.1, codec.decodeJson (codec.encodeJson x.2)) ∈ p.toWorld.dueFrames codec :=
          (h.dueFrames.2 _ _).mpr ⟨⟨_, houtbox ▸ hx, rfl⟩, hpassed⟩
        have hdone : (x.1, codec.decodeJson (codec.encodeJson x.2)) ∈ done := hframes ▸ hdue
        refine .inr (.inl ⟨codec.decodeJson (codec.encodeJson x.2), .inr ?_⟩)
        rw [htrace]
        refine mem_append_right _ (mem_append_left _ ?_)
        exact mem_map.mpr ⟨_, hdone, rfl⟩
    · exact .inr (.inr hx)

/-! ## Fresh frames -/

/-- The first pending frame moves to the outbox. -/
theorem Kept.stage {p : Pass σ δ κ S} (h : Kept codec k p.toWorld) {x : ℤ × IpcMessage σ δ κ}
    {rest : List (ℤ × IpcMessage σ δ κ)} (hpending : p.driver.pending = x :: rest) :
    Kept codec k (p.stage codec x.1 x.2 rest).toWorld := by
  have hsub : (x :: rest).Sublist (enqueuedFrames p.trace) := hpending ▸ h.pending
  have hx : x ∈ enqueuedFrames p.trace := hsub.subset mem_cons_self
  have hstored : ∀ e, stored (p.stage codec x.1 x.2 rest).driver.outbox.store e =
      if e = x.1 then some (codec.encodeJson x.2) else stored p.driver.outbox.store e :=
    fun e => Outbox.stored_append x.1 x.2 e
  refine ⟨h.tidy.append x.1 x.2, h.cursor, h.cursor_max, h.peer, h.increasing,
    (sublist_cons_self x rest).trans hsub, fun y hy => ?_, fun e b hb => ?_, h.enqueued_pos,
    h.inTurn⟩
  · by_cases heq : y.1 = x.1
    · -- the epochs of the enqueued frames are distinct
      have hnodup : ((enqueuedFrames p.trace).map Prod.fst).Nodup :=
        pairwise_map.mpr (h.increasing.imp fun hlt => hlt.ne)
      obtain rfl := inj_on_of_nodup_map hnodup hy hx heq
      exact .inr (.inl (by rw [hstored, if_pos rfl]))
    · rw [hstored, if_neg heq]
      rcases h.retained y hy with hy | hy
      · rw [hpending] at hy
        rcases mem_cons.mp hy with rfl | hy
        · exact absurd rfl heq
        · exact .inl hy
      · exact .inr hy
  · rw [hstored] at hb
    split at hb
    · next heq =>
      rw [heq]
      exact h.enqueued_pos x hx
    · exact h.positive e b hb

/-- A driver that has caught up sends the pending frames in order. -/
theorem Kept.drain {p : Pass σ δ κ S} {pending : List (ℤ × IpcMessage σ δ κ)}
    (h : Kept codec k p.toWorld) (hcaught : p.driver.stalledSince = none → CaughtUp k p.toWorld)
    (env : Env σ δ κ) (hpending : p.driver.pending = pending) :
    Kept codec k (Pass.drain codec env pending p).toWorld ∧
      ((Pass.drain codec env pending p).driver.stalledSince = none →
        CaughtUp k (Pass.drain codec env pending p).toWorld) := by
  induction pending generalizing p with
  | nil => exact ⟨h, hcaught⟩
  | cons x rest ih =>
    rw [Pass.drain]
    by_cases hstalled : p.driver.stalledSince.isSome = true
    · rw [if_pos hstalled]
      exact ⟨h, hcaught⟩
    rw [if_neg hstalled]
    have hnone : p.driver.stalledSince = none := by simpa using hstalled
    have hc := hcaught hnone
    have hpairwise := (h.increasing.sublist (hpending ▸ h.pending : (x :: rest).Sublist _))
    have hturn : ∀ ok, InTurn k p.trace (.sent (.fresh x.1) x.2 ok) := by
      rintro ok e m heq y hy hlt
      obtain rfl : x.1 = e := by
        simp only [Event.sent.injEq, Purpose.fresh.injEq] at heq
        exact heq.1
      rcases hc y hy with hy | hy
      · rw [hpending] at hy
        rcases mem_cons.mp hy with rfl | hy
        · exact absurd hlt (lt_irrefl _)
        · exact absurd hlt ((pairwise_cons.mp hpairwise).1 y hy).le.not_gt
      · exact hy
    have hsent := (h.stage hpending).send env (hturn _)
    dsimp only
    split
    · next hok =>
      have hunstalled : Kept codec k ((p.stage codec x.1 x.2 rest).send env (.fresh x.1)
          x.2).countSent.unstall.toWorld :=
        hsent.idle ⟨rfl, rfl, rfl, rfl, fun _ => hnone, [], by simp [Pass.unstall, Pass.countSent], forall_mem_nil _⟩
      refine ih hunstalled (fun _ y hy => ?_) rfl
      have htrace : ((p.stage codec x.1 x.2 rest).send env (.fresh x.1)
          x.2).countSent.unstall.trace = p.trace ++ [.sent (.fresh x.1) x.2 true] := by
        rw [← hok]
        rfl
      rw [htrace] at hy ⊢
      rw [enqueuedFrames_append] at hy
      have hold : y ∈ enqueuedFrames p.trace := by simpa [enqueuedFrames, Event.enqueued?] using hy
      rcases hc y hold with hy | hy
      · rw [hpending] at hy
        rcases mem_cons.mp hy with rfl | hy
        · exact .inr (.inl ⟨y.2, .inl (mem_append_right _ (mem_singleton_self _))⟩)
        · exact .inl hy
      · exact .inr (hy.imp Arrived.append Passed.append)
    · exact ⟨hsent.idle .stall, (by rintro ⟨⟩)⟩

/-! ## Runs -/

variable (codec) in
theorem Kept.tick (h : Kept codec k w ∧ Ready k w) (env : Env σ δ κ) :
    Kept codec k (w.tick codec env) ∧ Ready k (w.tick codec env) := by
  have hresume := Kept.resume (p := w.start) h.1 h.2 env
  have hdrain := hresume.1.drain hresume.2 env rfl
  have hpush : Kept codec k (w.push codec env).toWorld ∧ Ready k (w.push codec env).toWorld :=
    ⟨hdrain.1, fun hstalled _ => hdrain.2 hstalled⟩
  have hreceive := Kept.receive hpush env env.inbound
  rw [World.tick]
  generalize Pass.receive env env.inbound (w.push codec env) = received at hreceive
  obtain ⟨p, outcome⟩ := received
  cases outcome with
  | some failure =>
    have hidle : Idle p.toWorld (p.observe (.raised failure)).toWorld := .event (by trivial) rfl rfl
    exact ⟨hreceive.1.idle hidle, hreceive.2.idle hidle⟩
  | none =>
    have hadvertise : Idle p.toWorld (p.advertise env).toWorld := .advertise
    have hsame : (p.advertise env).driver.outbox.retainedEpochs.2 = (p.advertise env).driver.outbox :=
      (Outbox.retainedEpochs_spec (hreceive.1.idle hadvertise).tidy).1
    have hfinish : Idle (p.advertise env).toWorld (p.advertise env).finish.toWorld :=
      ⟨hsame, rfl, rfl, rfl, id, [], by simp [Pass.finish], forall_mem_nil _⟩
    have hreturned : Idle (p.advertise env).finish.toWorld ((p.advertise env).finish.observe
        (.returned (p.advertise env).finish.progress)).toWorld := .event (by trivial) rfl rfl
    have hidle := hadvertise.trans (hfinish.trans hreturned)
    exact ⟨hreceive.1.idle hidle, hreceive.2.idle hidle⟩

omit [OrderedStore S B] in
theorem enqueuedFrames_enqueue (e : ℤ) (m : IpcMessage σ δ κ) :
    enqueuedFrames (w.enqueue e m).trace = enqueuedFrames w.trace ++ [(e, m)] := by
  simp [World.enqueue, enqueuedFrames, Event.enqueued?]

/-- A frame enters the queue, later than those before. -/
theorem Kept.enqueue (h : Kept codec k w) {e : ℤ} (hpos : 0 < e)
    (hlater : ∀ x ∈ enqueuedFrames w.trace, x.1 < e) (m : IpcMessage σ δ κ) :
    Kept codec k (w.enqueue e m) := by
  have hacked : ∀ a, Acknowledged k (w.enqueue e m).trace a ↔ Acknowledged k w.trace a := by
    intro a
    simp [Acknowledged, World.enqueue]
  refine ⟨h.tidy, (hacked _).mpr h.cursor, fun a ha => h.cursor_max a ((hacked a).mp ha), ?_, ?_, ?_,
    ?_, h.positive, ?_, throughout_concat.mpr ⟨h.inTurn, inTurn_of_ne (by simp)⟩⟩
  · exact h.peer.imp id fun hmem => mem_append_left _ hmem
  · rw [enqueuedFrames_enqueue]
    refine pairwise_append.mpr ⟨h.increasing, pairwise_singleton _ _, fun x hx y hy => ?_⟩
    obtain rfl := mem_singleton.mp hy
    exact hlater x hx
  · rw [enqueuedFrames_enqueue]
    exact h.pending.append (Sublist.refl _)
  · intro x hx
    rw [enqueuedFrames_enqueue] at hx
    rcases mem_append.mp hx with hx | hx
    · exact (h.retained x hx).imp (mem_append_left _) fun hx => hx.imp id Passed.append
    · exact .inl (mem_append_right _ hx)
  · intro x hx
    rw [enqueuedFrames_enqueue] at hx
    rcases mem_append.mp hx with hx | hx
    · exact h.enqueued_pos x hx
    · obtain rfl := mem_singleton.mp hx
      exact hpos

omit [OrderedStore S B] in
theorem Ready.enqueue (h : Ready k w) (e : ℤ) (m : IpcMessage σ δ κ) : Ready k (w.enqueue e m) := by
  intro hstalled hreplay x hx
  rw [enqueuedFrames_enqueue] at hx
  rcases mem_append.mp hx with hx | hx
  · exact (h hstalled hreplay x hx).imp (mem_append_left _) fun hx =>
      hx.imp Arrived.append Passed.append
  · exact .inl (mem_append_right _ hx)

/-- A reconnect makes the driver replay before it sends anything fresh. -/
theorem Kept.onReconnect (h : Kept codec k w) : Kept codec k w.onReconnect ∧ Ready k w.onReconnect := by
  refine ⟨h.extend rfl rfl rfl ?_ (fun a => ?_) ?_, nofun⟩
  · simp [World.onReconnect, enqueuedFrames, Event.enqueued?]
  · simp [World.onReconnect]
  · exact throughout_concat.mpr ⟨h.inTurn, inTurn_of_ne (by simp)⟩

def Command.epoch? : Command σ δ κ → Option ℤ
  | .enqueue e _ => some e
  | _ => none

def epochs (cs : List (Command σ δ κ)) : List ℤ :=
  cs.filterMap Command.epoch?

/-! ## What a tick does after its replay -/

def Event.After (ev : Event σ δ κ) : Prop :=
  ev.enqueued? = none ∧ ∀ e m ok, ev ≠ .sent (.replay e) m ok

omit [OrderedStore S B] in
theorem Event.Neutral.after {ev : Event σ δ κ} (h : ev.Neutral) : ev.After := by
  refine ⟨?_, ?_⟩
  · cases ev with
    | enqueued e m => exact h.elim
    | _ => rfl
  · rintro e m ok rfl
    exact h

omit [OrderedStore S B] in
/-- Events that neither enqueue nor replay, one after the other. -/
theorem after_trans {l₀ l₁ l₂ : List (Event σ δ κ)}
    (h : ∃ l, l₁ = l₀ ++ l ∧ ∀ ev ∈ l, ev.After) (h' : ∃ l, l₂ = l₁ ++ l ∧ ∀ ev ∈ l, ev.After) :
    ∃ l, l₂ = l₀ ++ l ∧ ∀ ev ∈ l, ev.After := by
  obtain ⟨l, rfl, hl⟩ := h
  obtain ⟨l', rfl, hl'⟩ := h'
  exact ⟨l ++ l', by rw [append_assoc], fun ev hev =>
    (mem_append.mp hev).elim (hl ev) (hl' ev)⟩

omit [OrderedStore S B] in
theorem Idle.after (h : Idle w w') : ∃ l, w'.trace = w.trace ++ l ∧ ∀ ev ∈ l, ev.After := by
  obtain ⟨l, htrace, hl⟩ := h.events
  exact ⟨l, htrace, fun ev hev => (hl ev hev).after⟩

theorem receive_after (env : Env σ δ κ) (inbound : List (IpcMessage σ δ κ)) (p : Pass σ δ κ S) :
    ∃ l, (p.receive env inbound).1.trace = p.trace ++ l ∧ ∀ ev ∈ l, ev.After := by
  induction inbound generalizing p with
  | nil => exact ⟨[], by simp [Pass.receive], by simp⟩
  | cons m inbound ih =>
    rw [Pass.receive]
    split
    · next p' hroute =>
      refine after_trans ?_ (ih p')
      cases hack : m.outboxAck with
      | none => exact (Idle.route hack hroute).after
      | some a =>
        unfold Pass.route at hroute
        rw [hack] at hroute
        obtain rfl := Except.ok.inj hroute
        refine ⟨[.acked a.throughEpoch], rfl, fun ev hev => ?_⟩
        obtain rfl := mem_singleton.mp hev
        exact ⟨rfl, by simp⟩
    · exact ⟨[], by simp, by simp⟩

variable (codec) in
theorem tick_after (env : Env σ δ κ) (w : World σ δ κ S) :
    ∃ l, (w.tick codec env).trace = (w.start.resume codec env).trace ++ l ∧ ∀ ev ∈ l, ev.After := by
  have hdrain : ∃ l, (w.push codec env).trace = (w.start.resume codec env).trace ++ l ∧ ∀ ev ∈ l, ev.After := by
    obtain ⟨l, htrace, hl⟩ := (Sends.drain (q := fun purpose => ∃ e, purpose = .fresh e)
      (fun e => ⟨e, rfl⟩) _ : Sends _ (w.start.resume codec env) (w.push codec env)).events
    refine ⟨l, htrace, fun ev hev => ?_⟩
    obtain ⟨purpose, m, ok, rfl, e, rfl⟩ := hl ev hev
    exact ⟨rfl, by simp⟩
  have hreceive := after_trans hdrain (receive_after env env.inbound (w.push codec env))
  rw [World.tick]
  generalize Pass.receive env env.inbound (w.push codec env) = received at hreceive
  obtain ⟨p, outcome⟩ := received
  cases outcome with
  | some failure => exact after_trans hreceive ⟨[.raised failure], rfl, by simp [Event.After, Event.enqueued?]⟩
  | none =>
    have hadvertise : Idle p.toWorld (p.advertise env).toWorld := .advertise
    have hreturned : ∀ ev ∈ [Event.returned (p.advertise env).finish.progress], ev.After := by
      simp [Event.After, Event.enqueued?]
    exact after_trans hreceive (after_trans hadvertise.after
      ⟨[.returned (p.advertise env).finish.progress], rfl, hreturned⟩)

section

variable (codec : Codec (IpcMessage σ δ κ) B) (env : Env σ δ κ) (w : World σ δ κ S)

/-- A tick sends the frames that are due, until one is refused, and then nothing for a replay. -/
theorem tick_replays :
    ∃ l, (∀ ev ∈ l, ev.After) ∧ ((w.driver.replayPending = false ∧ (w.tick codec env).trace = w.trace ++ l) ∨
        ∃ done rest, w.driver.replayPending = true ∧ w.dueFrames codec = done ++ rest ∧
          (w.tick codec env).trace = w.trace ++ attempts done rest ++ l) := by
  obtain ⟨l, htrace, hl⟩ := tick_after codec env w
  refine ⟨l, hl, ?_⟩
  cases hreplay : w.driver.replayPending with
  | false =>
    refine .inl ⟨rfl, ?_⟩
    rw [htrace]
    simp [Pass.resume, World.start, hreplay]
  | true =>
    obtain ⟨done, rest, hframes, hdone, _⟩ :=
      replay_spec env (w.start.startReplay codec).1 (w.start.startReplay codec).2
    refine .inr ⟨done, rest, rfl, hframes, ?_⟩
    have hresume : w.start.resume codec env =
        Pass.replay env (w.start.startReplay codec).1 (w.start.startReplay codec).2 := if_pos hreplay
    rw [htrace, hresume, hdone]
    rfl

theorem enqueuedFrames_tick : enqueuedFrames (w.tick codec env).trace = enqueuedFrames w.trace := by
  have hnone : ∀ l : List (Event σ δ κ), (∀ ev ∈ l, ev.enqueued? = none) → enqueuedFrames l = [] :=
    fun l hl => filterMap_eq_nil_iff.mpr hl
  obtain ⟨l, hl, ⟨_, htrace⟩ | ⟨done, rest, _, _, htrace⟩⟩ := tick_replays codec env w
  · rw [htrace, enqueuedFrames_append, hnone l fun ev hev => (hl ev hev).1, append_nil]
  · have hattempts : enqueuedFrames (attempts done rest) = [] := by
      refine hnone _ fun ev hev => ?_
      obtain ⟨e, m, ok, rfl⟩ := mem_attempts hev
      rfl
    rw [htrace, enqueuedFrames_append, enqueuedFrames_append, hattempts,
      hnone l fun ev hev => (hl ev hev).1, append_nil, append_nil]

end

/-! ## Whole runs -/

/-- A new driver keeps every frame that is enqueued, at increasing positive epochs. -/
theorem Kept.run (codec : Codec (IpcMessage σ δ κ) B) {store : S}
    (hstore : ∀ e b, stored store e = some b → 0 < e) (lastEpoch : ℤ) (cs : List (Command σ δ κ))
    (hincreasing : (epochs cs).Pairwise (· < ·)) (hpositive : ∀ e ∈ epochs cs, 0 < e) :
    Kept codec (OutboxStore.loadCursor store) ((World.init store lastEpoch).run codec cs) ∧
    Ready (OutboxStore.loadCursor store) ((World.init store lastEpoch).run codec cs) ∧
    (enqueuedFrames ((World.init store lastEpoch).run codec cs).trace).map Prod.fst = epochs cs := by
  induction cs using reverseRecOn with
  | nil =>
    refine ⟨⟨rfl, .inl rfl, ?_, .inl rfl, Pairwise.nil, Sublist.refl _, ?_, hstore, ?_, throughout_nil⟩, ?_, rfl⟩
    · rintro a (rfl | ha)
      · exact le_rfl
      · cases ha
    · exact fun x hx => absurd hx not_mem_nil
    · exact fun x hx => absurd hx not_mem_nil
    · exact fun _ _ x hx => absurd hx not_mem_nil
  | append_singleton cs c ih =>
    have happend : epochs (cs ++ [c]) = epochs cs ++ epochs [c] := filterMap_append
    rw [happend] at hincreasing hpositive ⊢
    obtain ⟨hbefore, _, hlater⟩ := pairwise_append.mp hincreasing
    obtain ⟨hkept, hready, hepochs⟩ := ih hbefore fun e he => hpositive e (mem_append_left _ he)
    rw [World.run_concat]
    cases c with
    | enqueue e m =>
      have he : e ∈ epochs [Command.enqueue e m] := mem_singleton_self e
      refine ⟨hkept.enqueue (hpositive e (mem_append_right _ he)) (fun x hx => ?_) m, hready.enqueue e m, ?_⟩
      · have hx' : x.1 ∈ epochs cs := hepochs ▸ mem_map_of_mem hx
        exact hlater x.1 hx' e he
      · rw [World.step, enqueuedFrames_enqueue, map_append, hepochs]
        rfl
    | onReconnect =>
      refine ⟨hkept.onReconnect.1, hkept.onReconnect.2, ?_⟩
      have hsame : enqueuedFrames ((World.init store lastEpoch).run codec cs).onReconnect.trace =
          enqueuedFrames ((World.init store lastEpoch).run codec cs).trace := by
        simp [World.onReconnect, enqueuedFrames, Event.enqueued?]
      rw [World.step, hsame, hepochs]
      exact (append_nil _).symm
    | tick env =>
      have htick := Kept.tick codec ⟨hkept, hready⟩ env
      refine ⟨htick.1, htick.2, ?_⟩
      rw [World.step, enqueuedFrames_tick, hepochs]
      exact (append_nil _).symm

/-- In every run of a new driver that enqueues at increasing positive epochs: an enqueued frame is
pending, retained or acknowledged; a fresh frame is sent only when every earlier one has been sent
or acknowledged; and a replay sends what is retained and not acknowledged, in ascending order, up
to the first refusal. -/
theorem outbox_conserves (codec : Codec (IpcMessage σ δ κ) B) {store : S}
    (hstore : ∀ e b, stored store e = some b → 0 < e) (lastEpoch : ℤ) (cs : List (Command σ δ κ))
    (hincreasing : (epochs cs).Pairwise (· < ·)) (hpositive : ∀ e ∈ epochs cs, 0 < e) :
    let k := OutboxStore.loadCursor store
    let w := (World.init store lastEpoch).run codec cs
    (∀ x ∈ enqueuedFrames w.trace, x ∈ w.driver.pending ∨ (x.1 ∈ w.driver.outbox.retainedEpochs.1 ∧
        stored w.driver.outbox.store x.1 = some (codec.encodeJson x.2)) ∨
      Passed k w.trace x.1) ∧
    (∀ before e m after, w.trace = before ++ .sent (.fresh e) m true :: after →
      ∀ x ∈ enqueuedFrames before, x.1 < e → Arrived before x.1 ∨ Passed k before x.1) ∧
    ((w.dueFrames codec).Pairwise fun x y => x.1 < y.1) ∧
    (∀ e m, (e, m) ∈ w.dueFrames codec ↔ (∃ b, stored w.driver.outbox.store e = some b ∧ codec.decodeJson b = m) ∧
        ¬ Passed k w.trace e) ∧
    ∀ env, ∃ l, (∀ ev ∈ l, ∀ e m ok, ev ≠ .sent (.replay e) m ok) ∧
      ((w.driver.replayPending = false ∧ (w.tick codec env).trace = w.trace ++ l) ∨
        ∃ done rest, w.driver.replayPending = true ∧ w.dueFrames codec = done ++ rest ∧
          (w.tick codec env).trace = w.trace ++ attempts done rest ++ l) := by
  intro k w
  obtain ⟨hkept, _, _⟩ := Kept.run codec hstore lastEpoch cs hincreasing hpositive
  refine ⟨fun x hx => ?_, fun before e m after htrace => ?_, hkept.dueFrames.1, hkept.dueFrames.2, fun env => ?_⟩
  · rcases hkept.retained x hx with hx | hx | hx
    · exact .inl hx
    · by_cases hacked : x.1 ≤ w.driver.outbox.ackedThrough
      · exact .inr (.inr ⟨_, hkept.cursor, hacked⟩)
      · refine .inr (.inl ⟨?_, hx⟩)
        refine ((Outbox.retainedEpochs_spec hkept.tidy).2 x.1).mpr ⟨lt_of_not_ge hacked, ?_⟩
        rw [hx, Option.isSome_some]
    · exact .inr (.inr hx)
  · exact hkept.inTurn before _ after htrace e m rfl
  · obtain ⟨l, hl, htick⟩ := tick_replays codec env w
    exact ⟨l, fun ev hev => (hl ev hev).2, htick⟩

/-! ## A sink that fails once -/

/-- Two frames are enqueued while the sink is down. After a reconnect the first one is replayed
before the second one is sent, and the peer acknowledges the first. -/
def reconnecting : List (Command ℕ ℕ Unit) :=
  [.enqueue 1 (.ofSnapshot ⟨1, 10⟩), .enqueue 2 (.ofDelta ⟨1, 2, 10⟩),
    .tick { receiving [] false with accepts := fun _ => false }, .onReconnect,
    .tick (receiving [.ofOutboxAck ⟨1⟩] false)]

theorem outbox_conserves_reconnecting : (inMemory.run plain reconnecting).driver.pending = [] ∧
    (inMemory.run plain reconnecting).driver.outbox.retainedEpochs.1 = [2] ∧
    ((2, .ofDelta ⟨1, 2, 10⟩) ∈ (inMemory.run plain reconnecting).dueFrames plain ↔
      (∃ b, stored (inMemory.run plain reconnecting).driver.outbox.store 2 = some b ∧
        plain.decodeJson b = .ofDelta ⟨1, 2, 10⟩) ∧
      ¬ Passed 0 (inMemory.run plain reconnecting).trace 2) := by
  refine ⟨by decide, by decide, ?_⟩
  have hempty : ∀ e b, stored (InMemoryStore.empty (IpcMessage ℕ ℕ Unit)) e = some b → 0 < e := by
    intro e b hb
    cases hb
  exact (outbox_conserves plain hempty 0 reconnecting (by decide) (by decide)).2.2.2.1 2 _

end LazilyPy.Sync

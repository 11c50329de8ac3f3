import LazilyPy.Sync.Driver

/-!
# Requests for a snapshot

The coordinator answers a gap with one request and then waits for a snapshot. It is the driver that
sends the request, and the coordinator never learns whether the sink has taken it: after a refused
request the receiver waits for a snapshot that nobody has been asked for.
-/

namespace LazilyPy.Sync

open List

variable {σ δ κ S B : Type}

/-- Whether a `ResyncRequest` has been accepted since the last gap was detected, after an event. -/
def Event.heard (b : Bool) : Event σ δ κ → Bool
  | .ingested _ (.requestSnapshot _) => false
  | .sent .request _ true => true
  | _ => b

def heard (trace : List (Event σ δ κ)) : Bool :=
  trace.foldl Event.heard false

/-- Whether a `ResyncRequest` has been refused and no frame has been applied since, after an
event. -/
def Event.refused (b : Bool) : Event σ δ κ → Bool
  | .sent .request _ false => true
  | .ingested _ .apply => false
  | _ => b

def refused (trace : List (Event σ δ κ)) : Bool :=
  trace.foldl Event.refused false

/-- The receiver waits for a snapshot, and no request has been accepted since the gap. -/
def World.Waits (w : World σ δ κ S) : Prop :=
  w.driver.coordinator.resyncing = true ∧ heard w.trace = false

def World.Matched (w : World σ δ κ S) : Prop :=
  w.Waits ↔ refused w.trace = true

/-! ## Events that are not about requests -/

/-- The event is neither a request nor a frame that is applied or answered with a request. -/
def Event.Aside (ev : Event σ δ κ) : Prop :=
  (∀ b, ev.heard b = b) ∧ ∀ b, ev.refused b = b

theorem foldl_aside {es : List (Event σ δ κ)} (h : ∀ ev ∈ es, ev.Aside) (b : Bool) :
    es.foldl Event.heard b = b ∧ es.foldl Event.refused b = b := by
  induction es with
  | nil => exact ⟨rfl, rfl⟩
  | cons ev es ih =>
    have hev := h ev mem_cons_self
    rw [foldl_cons, foldl_cons, hev.1, hev.2]
    exact ih fun ev' hev' => h ev' (mem_cons_of_mem ev hev')

theorem aside_sent {purpose : Purpose} (h : purpose ≠ .request) (m : IpcMessage σ δ κ) (ok : Bool) :
    (Event.sent purpose m ok).Aside := by
  cases purpose with
  | request => exact absurd rfl h
  | _ => exact ⟨fun _ => rfl, fun _ => rfl⟩

variable {w : World σ δ κ S} {p p' : Pass σ δ κ S} {m : IpcMessage σ δ κ}

/-- A coordinator that stays as it is, and events that are not about requests. -/
theorem World.Matched.aside {w' : World σ δ κ S} (h : w.Matched)
    (hcoordinator : w'.driver.coordinator = w.driver.coordinator) {l : List (Event σ δ κ)}
    (htrace : w'.trace = w.trace ++ l) (hes : ∀ ev ∈ l, ev.Aside) : w'.Matched := by
  have hheard : Sync.heard w'.trace = Sync.heard w.trace := by
    rw [Sync.heard, htrace, foldl_append]
    exact (foldl_aside hes _).1
  have hrefused : Sync.refused w'.trace = Sync.refused w.trace := by
    rw [Sync.refused, htrace, foldl_append]
    exact (foldl_aside hes _).2
  rw [Matched, Waits, hcoordinator, hheard, hrefused]
  exact h

/-- Sending anything but requests. -/
theorem World.Matched.sends {q : Purpose → Prop} (h : p.Matched) (hs : Sends q p p')
    (hq : ∀ purpose, q purpose → purpose ≠ .request) : p'.Matched := by
  obtain ⟨es, htrace, hes⟩ := hs.events
  refine h.aside hs.coordinator htrace fun ev hev => ?_
  obtain ⟨purpose, m, ok, rfl, hpurpose⟩ := hes ev hev
  exact aside_sent (hq purpose hpurpose) m ok

/-! ## One frame -/

/-- After a state frame: a request that is refused leaves the receiver waiting, and a frame that is
applied ends the wait. -/
theorem World.Matched.ingest (h : p.Matched) (env : Env σ δ κ) (m : IpcMessage σ δ κ) : (p.ingest env m).Matched := by
  have happlied : ∀ e, p.driver.coordinator.ingest m = (.apply, ⟨e, false⟩) → (p.ingest env m).Matched := by
    intro e heq
    have hcoordinator : (p.ingest env m).driver.coordinator = ⟨e, false⟩ := by
      simp [Pass.ingest, Pass.apply, Pass.owe, Pass.decide, heq]
    have htrace : (p.ingest env m).trace = p.trace ++ [.ingested m .apply] := by
      simp [Pass.ingest, Pass.apply, Pass.owe, Pass.decide, Pass.observe, heq]
    simp [Matched, Waits, hcoordinator, htrace, refused, Event.refused]
  rcases p.driver.coordinator.ingest_cases m with ⟨s, _, heq⟩ | ⟨_, d, _, _, _, heq⟩ |
    ⟨_, _, hresyncing, heq⟩ | ⟨_, _, heq⟩
  · exact happlied s.epoch heq
  · exact happlied d.epoch heq
  · -- the receiver was not waiting, so that nothing was refused before this request
    have hbefore : refused p.trace = false := by
      have hnot : ¬ refused p.trace = true := fun hr => by
        have hwaits := (h.mpr hr).1
        rw [hresyncing] at hwaits
        cases hwaits
      simpa using hnot
    have htrace : (p.ingest env m).trace = p.trace ++ [.ingested m (.requestSnapshot p.driver.coordinator.lastEpoch),
          .sent .request (.ofResyncRequest ⟨p.driver.coordinator.lastEpoch⟩)
            ((p.decide m).accepted env)] := by
      unfold Pass.ingest
      simp only [heq, Pass.request]
      split <;> simp [Pass.stall, Pass.send, Pass.decide, Pass.observe, heq]
    have hcoordinator : (p.ingest env m).driver.coordinator.resyncing = true := by
      unfold Pass.ingest
      simp only [heq, Pass.request]
      split <;> simp [Pass.stall, Pass.send, Pass.decide, Pass.observe, heq]
    have hheard : heard (p.ingest env m).trace = (p.decide m).accepted env := by
      rw [heard, htrace, foldl_append]
      cases (p.decide m).accepted env <;> rfl
    have hrefused : refused (p.ingest env m).trace = !(p.decide m).accepted env := by
      rw [refused, htrace, foldl_append, ← refused, hbefore]
      cases (p.decide m).accepted env <;> rfl
    simp [Matched, Waits, hcoordinator, hheard, hrefused]
  · refine h.aside (l := [.ingested m .ignore]) ?_ ?_ ?_
    · simp [Pass.ingest, Pass.decide, heq]
    · simp [Pass.ingest, Pass.decide, Pass.observe, heq]
    · intro ev hev
      obtain rfl := mem_singleton.mp hev
      exact ⟨fun _ => rfl, fun _ => rfl⟩

/-! ## A receiver that waits -/

def World.Silent (w w' : World σ δ κ S) : Prop :=
  w'.driver.coordinator = w.driver.coordinator ∧ ∃ l, w'.trace = w.trace ++ l ∧ ∀ m ok, .sent .request m ok ∉ l

namespace World

theorem Silent.refl (w : World σ δ κ S) : w.Silent w :=
  ⟨rfl, [], by simp, by simp⟩

theorem Silent.trans {w w' w'' : World σ δ κ S} (h : w.Silent w') (h' : w'.Silent w'') : w.Silent w'' := by
  obtain ⟨hcoordinator, l, htrace, hl⟩ := h
  obtain ⟨hcoordinator', l', htrace', hl'⟩ := h'
  refine ⟨hcoordinator'.trans hcoordinator, l ++ l', ?_, fun m ok hmem => ?_⟩
  · rw [htrace', htrace, append_assoc]
  · exact (mem_append.mp hmem).elim (hl m ok) (hl' m ok)

/-- One event that is not a request. -/
theorem Silent.event {w w' : World σ δ κ S} {ev : Event σ δ κ}
    (hcoordinator : w'.driver.coordinator = w.driver.coordinator)
    (htrace : w'.trace = w.trace ++ [ev]) (hev : ∀ m ok, ev ≠ .sent .request m ok) : w.Silent w' :=
  ⟨hcoordinator, [ev], htrace, fun m ok hmem => hev m ok (mem_singleton.mp hmem).symm⟩

end World

theorem Sends.silent {q : Purpose → Prop} (hs : Sends q p p') (hq : ¬ q .request) : p.Silent p'.toWorld := by
  obtain ⟨l, htrace, hl⟩ := hs.events
  refine ⟨hs.coordinator, l, htrace, fun m ok hmem => ?_⟩
  obtain ⟨purpose, m', ok', heq, hpurpose⟩ := hl _ hmem
  cases heq
  exact hq hpurpose

/-- A receiver that waits drops every delta that does not continue from its cursor. -/
theorem Pass.ingest_silent (env : Env σ δ κ) (hresyncing : p.driver.coordinator.resyncing = true)
    (hmoves : (p.driver.coordinator.ingest m).1 ≠ .apply) : p.Silent (p.ingest env m).toWorld := by
  rcases p.driver.coordinator.ingest_cases m with ⟨s, _, heq⟩ | ⟨_, d, _, _, _, heq⟩ |
    ⟨_, _, hnot, _⟩ | ⟨_, _, heq⟩
  · exact absurd (congrArg Prod.fst heq) hmoves
  · exact absurd (congrArg Prod.fst heq) hmoves
  · rw [hresyncing] at hnot
    cases hnot
  · refine ⟨?_, [.ingested m .ignore], ?_, by simp⟩
    · simp [Pass.ingest, Pass.decide, heq]
    · simp [Pass.ingest, Pass.decide, Pass.observe, heq]

/-! ## Runs -/

variable [OutboxStore S B]

theorem World.Matched.route (h : p.Matched) (env : Env σ δ κ) (hroute : p.route env m = .ok p') : p'.Matched := by
  unfold Pass.route at hroute
  split at hroute
  · next a _ =>
    obtain rfl := Except.ok.inj hroute
    refine h.aside rfl (l := [.acked a.throughEpoch]) rfl fun ev hev => ?_
    obtain rfl := mem_singleton.mp hev
    exact ⟨fun _ => rfl, fun _ => rfl⟩
  · next r _ _ =>
    obtain rfl := Except.ok.inj hroute
    exact h.sends (.serve (q := (· = .snapshot)) rfl _) (by rintro _ rfl; simp)
  · obtain rfl := Except.ok.inj hroute
    exact h
  · split at hroute
    · obtain rfl := Except.ok.inj hroute
      exact h.ingest env m
    · cases hroute

theorem World.Matched.receive (h : p.Matched) (env : Env σ δ κ) (inbound : List (IpcMessage σ δ κ)) :
    (Pass.receive env inbound p).1.Matched := by
  induction inbound generalizing p with
  | nil => exact h
  | cons m inbound ih =>
    rw [Pass.receive]
    split
    · next p' hroute => exact ih (h.route env hroute)
    · exact h

variable (codec : Codec (IpcMessage σ δ κ) B)

theorem World.Matched.tick (h : w.Matched) (env : Env σ δ κ) : (w.tick codec env).Matched := by
  have hpush : (w.push codec env).Matched := by
    refine World.Matched.sends (p := w.start) h (.push (q := (· ≠ .request)) ?_ ?_ w) fun _ => id
    · simp
    · simp
  have hreceive := hpush.receive env env.inbound
  rw [World.tick]
  generalize Pass.receive env env.inbound (w.push codec env) = received at hreceive
  obtain ⟨p, outcome⟩ := received
  cases outcome with
  | some failure =>
    refine hreceive.aside rfl (l := [.raised failure]) rfl fun ev hev => ?_
    obtain rfl := mem_singleton.mp hev
    exact ⟨fun _ => rfl, fun _ => rfl⟩
  | none =>
    have hadvertise : (p.advertise env).Matched :=
      hreceive.sends (.advertise (q := (· ≠ .request)) (by simp)) fun _ => id
    refine hadvertise.aside rfl (l := [.returned (p.advertise env).finish.progress]) rfl fun ev hev => ?_
    obtain rfl := mem_singleton.mp hev
    exact ⟨fun _ => rfl, fun _ => rfl⟩

theorem World.Matched.step (h : w.Matched) (c : Command σ δ κ) : (w.step codec c).Matched := by
  cases c with
  | enqueue e m =>
    refine h.aside rfl (l := [.enqueued e m]) rfl fun ev hev => ?_
    obtain rfl := mem_singleton.mp hev
    exact ⟨fun _ => rfl, fun _ => rfl⟩
  | onReconnect =>
    refine h.aside rfl (l := [.reconnected]) rfl fun ev hev => ?_
    obtain rfl := mem_singleton.mp hev
    exact ⟨fun _ => rfl, fun _ => rfl⟩
  | tick env => exact h.tick codec env

theorem World.Matched.run (h : w.Matched) (cs : List (Command σ δ κ)) :
    (w.run codec cs).Matched := by
  induction cs generalizing w with
  | nil => exact h
  | cons c cs ih => exact ih (h.step codec c)

theorem Pass.route_silent (env : Env σ δ κ) (hresyncing : p.driver.coordinator.resyncing = true)
    (hmoves : ¬ m.Moves p.driver.coordinator.lastEpoch) (hroute : p.route env m = .ok p') :
    p.Silent p'.toWorld := by
  unfold Pass.route at hroute
  split at hroute
  · obtain rfl := Except.ok.inj hroute
    exact .event rfl rfl (by simp)
  · obtain rfl := Except.ok.inj hroute
    exact (Sends.serve (q := (· = .snapshot)) rfl _).silent (by simp)
  · obtain rfl := Except.ok.inj hroute
    exact .refl _
  · next hack hrequest hcrdt =>
    split at hroute
    · obtain rfl := Except.ok.inj hroute
      refine p.ingest_silent env hresyncing fun happly => hmoves ⟨hack, hrequest, hcrdt, ?_⟩
      exact (ResyncCoordinator.ingest_apply_iff _ m).mp happly
    · cases hroute

theorem Pass.receive_silent (env : Env σ δ κ) {inbound : List (IpcMessage σ δ κ)}
    (hresyncing : p.driver.coordinator.resyncing = true)
    (hmoves : ∀ m ∈ inbound, ¬ m.Moves p.driver.coordinator.lastEpoch) :
    p.Silent (p.receive env inbound).1.toWorld := by
  induction inbound generalizing p with
  | nil => exact .refl _
  | cons m inbound ih =>
    rw [Pass.receive]
    split
    · next p' hroute =>
      have hfirst := p.route_silent env hresyncing (hmoves m mem_cons_self) hroute
      refine hfirst.trans (ih ?_ ?_)
      · rw [hfirst.1, hresyncing]
      · rw [hfirst.1]
        exact fun m' hm' => hmoves m' (mem_cons_of_mem m hm')
    · exact .refl _

namespace World

variable {w : World σ δ κ S}

theorem tick_silent (env : Env σ δ κ) (hresyncing : w.driver.coordinator.resyncing = true)
    (hmoves : ∀ m ∈ env.inbound, ¬ m.Moves w.driver.coordinator.lastEpoch) :
    w.Silent (w.tick codec env) := by
  have hpush : w.Silent (w.push codec env).toWorld :=
    (Sends.push (q := (· ≠ .request)) (by simp) (by simp) w).silent (by simp)
  have hreceive := hpush.trans (Pass.receive_silent env (by rw [hpush.1, hresyncing]) (by rw [hpush.1]; exact hmoves))
  rw [tick]
  generalize Pass.receive env env.inbound (w.push codec env) = received at hreceive
  obtain ⟨p, outcome⟩ := received
  cases outcome with
  | some failure => exact hreceive.trans (.event rfl rfl (by simp))
  | none =>
    have hadvertise : Sends (· = .ack) p (p.advertise env) := .advertise rfl
    exact hreceive.trans ((hadvertise.silent (by simp)).trans (.event rfl rfl (by simp)))

theorem run_silent {cs : List (Command σ δ κ)} (hresyncing : w.driver.coordinator.resyncing = true)
    (hmoves : ∀ env, .tick env ∈ cs → ∀ m ∈ env.inbound, ¬ m.Moves w.driver.coordinator.lastEpoch) :
    w.Silent (w.run codec cs) := by
  induction cs generalizing w with
  | nil => exact .refl _
  | cons c cs ih =>
    have hfirst : w.Silent (w.step codec c) := by
      cases c with
      | enqueue e m => exact .event rfl rfl (by simp)
      | onReconnect => exact .event rfl rfl (by simp)
      | tick env => exact w.tick_silent codec env hresyncing (hmoves env mem_cons_self)
    refine hfirst.trans (ih ?_ ?_)
    · rw [hfirst.1, hresyncing]
    · rw [hfirst.1]
      exact fun env henv => hmoves env (mem_cons_of_mem c henv)

/-- In some later run in which no frame closes the gap, the sink accepts a request. -/
def Recovers (w : World σ δ κ S) : Prop :=
  ∃ cs l m, (∀ env, .tick env ∈ cs → ∀ m ∈ env.inbound, ¬ m.Moves w.driver.coordinator.lastEpoch) ∧
    (w.run codec cs).trace = w.trace ++ l ∧ .sent .request m true ∈ l

theorem not_recovers (hresyncing : w.driver.coordinator.resyncing = true) :
    ¬ w.Recovers codec := by
  rintro ⟨cs, l, m, hmoves, htrace, hmem⟩
  obtain ⟨_, l', htrace', hl'⟩ := run_silent codec hresyncing hmoves
  obtain rfl := append_cancel_left (htrace.symm.trans htrace')
  exact hl' m true hmem

/-- In every state that a new driver reaches, a receiver that waits for a snapshot has had a
request accepted since the gap was detected, or some later tick may send one, if and only if no
request has been refused without a frame being applied since. -/
theorem request_remembered_iff (store : S) (e : ℤ) (cs : List (Command σ δ κ)) :
    (((init store e).run codec cs).driver.coordinator.resyncing = true →
      heard ((init store e).run codec cs).trace = true ∨ ((init store e).run codec cs).Recovers codec) ↔
    refused ((init store e).run codec cs).trace = false := by
  have hinit : (init store e : World σ δ κ S).Matched := by
    simp [Matched, Waits, init, SyncDriver.new, ResyncCoordinator.withEpoch, refused]
  have hmatched : ((init store e).run codec cs).Waits ↔
      refused ((init store e).run codec cs).trace = true := hinit.run codec cs
  generalize (init store e).run codec cs = w at hmatched
  rw [← Bool.not_eq_true, ← hmatched, Waits]
  constructor
  · rintro h ⟨hresyncing, hheard⟩
    rcases h hresyncing with h | h
    · rw [hheard] at h
      cases h
    · exact not_recovers codec hresyncing h
  · intro h hresyncing
    exact .inl (by simpa using fun hheard => h ⟨hresyncing, hheard⟩)

/-! ## A sink that refuses a request -/

def failing (inbound : List (IpcMessage ℕ ℕ Unit)) : Env ℕ ℕ Unit :=
  { receiving inbound false with accepts := fun _ => false }

/-- A delta beyond the cursor comes while the sink is down. Whatever happens after that, no request
is sent while the gap shows. -/
theorem request_forgotten :
    let w := inMemory.run plain [.tick (failing [.ofDelta ⟨5, 6, 10⟩])]
    w.driver.coordinator.resyncing = true ∧ heard w.trace = false ∧ ¬ w.Recovers plain := by
  have hresyncing : (inMemory.run plain
      [.tick (failing [.ofDelta ⟨5, 6, 10⟩])]).driver.coordinator.resyncing = true := by decide
  exact ⟨hresyncing, by decide, not_recovers plain hresyncing⟩

end World

end LazilyPy.Sync

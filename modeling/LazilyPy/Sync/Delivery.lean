import LazilyPy.Sync.Driver
import LazilyPy.Sync.Resync

/-!
# What the host is handed

The cursor moves when the coordinator answers `Apply`, and the frame reaches the host only in the
`Progress` that the tick returns. Nothing is lost as long as no tick raises after it has applied a
frame.
-/

namespace LazilyPy.Sync

open List
open Pass (acknowledge observe owe receive)

variable {σ δ κ S B : Type}

def Event.applied? : Event σ δ κ → Option (IpcMessage σ δ κ)
  | .ingested m .apply => some m
  | _ => none

/-- The `Snapshot` and `Delta` frames of a list. -/
def stateFrames (l : List (IpcMessage σ δ κ)) : List (IpcMessage σ δ κ) :=
  l.filter fun m => m.crdtSync.isNone

def Event.handed : Event σ δ κ → List (IpcMessage σ δ κ)
  | .returned progress => stateFrames progress.applied
  | _ => []

/-- The frames on which the coordinator has answered `Apply`. -/
def appliedFrames (trace : List (Event σ δ κ)) : List (IpcMessage σ δ κ) :=
  trace.filterMap Event.applied?

def handedFrames (trace : List (Event σ δ κ)) : List (IpcMessage σ δ κ) :=
  trace.flatMap Event.handed

namespace Env

/-- The tick raises: the source does, or a frame without a variant comes. -/
def Aborts (env : Env σ δ κ) : Prop :=
  env.raises = true ∨ ∃ m ∈ env.inbound, m.isEmpty = true

/-- No frame that is received before the tick raises moves a cursor at `e`. -/
def Quiet (e : ℤ) (env : Env σ δ κ) : Prop :=
  ∀ m ∈ env.inbound.takeWhile fun m => !m.isEmpty, ¬ m.Moves e

end Env

section Append

variable (trace trace' : List (Event σ δ κ)) (l l' : List (IpcMessage σ δ κ))

@[simp] theorem appliedFrames_append : appliedFrames (trace ++ trace') = appliedFrames trace ++ appliedFrames trace' :=
  filterMap_append

@[simp] theorem handedFrames_append : handedFrames (trace ++ trace') = handedFrames trace ++ handedFrames trace' :=
  flatMap_append

end Append

variable {p p' : Pass σ δ κ S}

/-- Sending applies and hands over nothing. -/
theorem Sends.frames {q : Purpose → Prop} (h : Sends q p p') :
    appliedFrames p'.trace = appliedFrames p.trace ∧ handedFrames p'.trace = handedFrames p.trace := by
  obtain ⟨es, htrace, hes⟩ := h.events
  have happlied : appliedFrames es = [] := by
    refine filterMap_eq_nil_iff.mpr fun ev hev => ?_
    obtain ⟨purpose, m, ok, rfl, _⟩ := hes ev hev
    rfl
  have hhanded : handedFrames es = [] := by
    refine flatMap_eq_nil_iff.mpr fun ev hev => ?_
    obtain ⟨purpose, m, ok, rfl, _⟩ := hes ev hev
    rfl
  simp [htrace, happlied, hhanded]

/-! ## The cursor -/

/-- The frames lead a cursor from one epoch to another, each of them applied. -/
inductive Climbs : ℤ → List (IpcMessage σ δ κ) → ℤ → Prop
  | nil (e : ℤ) : Climbs e [] e
  | cons (c : ResyncCoordinator) {m : IpcMessage σ δ κ} {l : List (IpcMessage σ δ κ)} {e : ℤ} :
      (c.ingest m).1 = .apply → Climbs (c.ingest m).2.lastEpoch l e → Climbs c.lastEpoch (m :: l) e

namespace Climbs

variable {e e' e'' : ℤ} {l l' : List (IpcMessage σ δ κ)}

theorem append (h : Climbs e l e') (h' : Climbs e' l' e'') : Climbs e (l ++ l') e'' := by
  induction h with
  | nil e => exact h'
  | cons c happly _ ih => exact .cons c happly (ih h')

/-- Folding the frames leads to the state at the later epoch. -/
theorem stateAt {fold : δ → σ → σ} {h : History σ} (hc : Climbs e l e') {s : σ}
    (hs : h.stateAt e = some s) (htells : ∀ m ∈ l, Tells fold h m) :
    h.stateAt e' = some (l.foldl (foldFrame fold) s) := by
  induction hc generalizing s with
  | nil e => exact hs
  | @cons c m l e' happly _ ih =>
    have hm := stateAt_foldFrame fold (htells m mem_cons_self) hs happly
    exact ih hm fun m' hm' => htells m' (mem_cons_of_mem m hm')

end Climbs

/-! ## One frame -/

/-- From `p` to `p'` the state frames `l` have been applied and put into the progress. -/
structure Folds (l : List (IpcMessage σ δ κ)) (p p' : Pass σ δ κ S) : Prop where
  applied : appliedFrames p'.trace = appliedFrames p.trace ++ l
  progress : stateFrames p'.progress.applied = stateFrames p.progress.applied ++ l
  handed : handedFrames p'.trace = handedFrames p.trace
  climbs : Climbs p.driver.coordinator.lastEpoch l p'.driver.coordinator.lastEpoch

theorem Folds.trans {l l' : List (IpcMessage σ δ κ)} {p'' : Pass σ δ κ S} (h : Folds l p p') (h' : Folds l' p' p'') :
    Folds (l ++ l') p p'' where
  applied := by rw [h'.applied, h.applied, append_assoc]
  progress := by rw [h'.progress, h.progress, append_assoc]
  handed := h'.handed.trans h.handed
  climbs := h.climbs.append h'.climbs

theorem Folds.lastEpoch (h : Folds [] p p') :
    p'.driver.coordinator.lastEpoch = p.driver.coordinator.lastEpoch := by
  have hc := h.climbs
  generalize p.driver.coordinator.lastEpoch = e at hc
  cases hc
  rfl

theorem Sends.folds {q : Purpose → Prop} (h : Sends q p p') : Folds [] p p' where
  applied := by rw [h.frames.1, append_nil]
  progress := by rw [h.applied, append_nil]
  handed := h.frames.2
  climbs := by
    rw [h.coordinator]
    exact .nil _

/-- A state frame is applied, or the cursor stays where it is. -/
theorem ingest_folds (env : Env σ δ κ) (p : Pass σ δ κ S) {m : IpcMessage σ δ κ} (hcrdt : m.crdtSync = none) :
    ((p.driver.coordinator.ingest m).1 = .apply ∧ Folds [m] p (p.ingest env m)) ∨
    ((p.driver.coordinator.ingest m).1 ≠ .apply ∧ Folds [] p (p.ingest env m)) := by
  have hsame : (p.driver.coordinator.ingest m).1 ≠ .apply → Climbs (σ := σ) (δ := δ) (κ := κ)
      p.driver.coordinator.lastEpoch [] (p.driver.coordinator.ingest m).2.lastEpoch := by
    intro happly
    rw [ResyncCoordinator.ingest_lastEpoch _ m happly]
    exact .nil _
  have hdecide : (p.driver.coordinator.ingest m).1 ≠ .apply → Folds [] p (p.decide m) := by
    intro happly
    refine ⟨?_, by simp [Pass.decide, observe], ?_, hsame happly⟩
    · change appliedFrames (p.trace ++ [.ingested m _]) = _
      rw [appliedFrames_append]
      congr 1
      cases haction : (p.driver.coordinator.ingest m).1 with
      | apply => exact absurd haction happly
      | _ => rfl
    · simp [Pass.decide, observe, handedFrames, Event.handed]
  unfold Pass.ingest
  cases haction : (p.driver.coordinator.ingest m).1 with
  | apply =>
    refine .inl ⟨rfl, ⟨?_, ?_, ?_, .cons _ haction (.nil _)⟩⟩
    · simp [Pass.apply, owe, Pass.decide, observe, haction, appliedFrames, Event.applied?]
    · simp [Pass.apply, owe, Pass.decide, observe, stateFrames, hcrdt]
    · simp [Pass.apply, owe, Pass.decide, observe, handedFrames, Event.handed]
  | ignore => exact .inr ⟨by simp, hdecide (by simp [haction])⟩
  | requestSnapshot e =>
    have hrequest : Sends (fun _ => True) (p.decide m) ((p.decide m).request env e) := .request trivial e
    exact .inr ⟨by simp, (hdecide (by simp [haction])).trans hrequest.folds⟩

variable [OutboxStore S B]

/-- What one frame does: it ends the tick, moves the cursor, or leaves it where it is. -/
theorem route_folds (env : Env σ δ κ) (p : Pass σ δ κ S) (m : IpcMessage σ δ κ) :
    (m.isEmpty = true ∧ p.route env m = .error .value) ∨
    ∃ p', m.isEmpty = false ∧ p.route env m = .ok p' ∧ ((m.Moves p.driver.coordinator.lastEpoch ∧ Folds [m] p p') ∨
        (¬ m.Moves p.driver.coordinator.lastEpoch ∧ Folds [] p p')) := by
  unfold Pass.route IpcMessage.Moves IpcMessage.isEmpty
  cases hack : m.outboxAck with
  | some a =>
    refine .inr ⟨p.acknowledge a.throughEpoch, by simp, rfl, .inr ⟨by simp, ⟨?_, ?_, ?_, .nil _⟩⟩⟩
    · simp [acknowledge, observe, appliedFrames, Event.applied?]
    · simp [acknowledge, observe]
    · simp [acknowledge, observe, handedFrames, Event.handed]
  | none =>
    cases hrequest : m.resyncRequest with
    | some r =>
      have hserve : Sends (fun _ => True) p (p.serve env r.fromEpoch) := .serve trivial _
      exact .inr ⟨p.serve env r.fromEpoch, by simp, rfl, .inr ⟨by simp, hserve.folds⟩⟩
    | none =>
      cases hcrdt : m.crdtSync with
      | some k =>
        refine .inr ⟨p.apply m, by simp, rfl, .inr ⟨by simp, ⟨?_, ?_, rfl, .nil _⟩⟩⟩
        · simp [Pass.apply]
        · simp [Pass.apply, stateFrames, hcrdt]
      | none =>
        by_cases hstate : m.snapshot.isSome ∨ m.delta.isSome
        · refine .inr ⟨p.ingest env m, ?_, by simp [hstate], ?_⟩
          · rcases hstate with hstate | hstate
            · simp [Option.isSome_iff_ne_none.mp hstate]
            · simpa using fun _ => hstate
          · rw [← ResyncCoordinator.ingest_apply_iff]
            rcases ingest_folds env p hcrdt with ⟨happly, hfolds⟩ | ⟨happly, hfolds⟩
            · exact .inl ⟨⟨rfl, rfl, rfl, happly⟩, hfolds⟩
            · exact .inr ⟨fun h => happly h.2.2.2, hfolds⟩
        · refine .inl ⟨?_, by simp [hstate]⟩
          simpa using hstate

/-! ## One tick -/

/-- What a list of frames does, and whether nothing has moved the cursor. -/
theorem receive_folds (env : Env σ δ κ) (inbound : List (IpcMessage σ δ κ)) (p : Pass σ δ κ S) :
    ∃ l, Folds l p (receive env inbound p).1 ∧ (l = [] ↔ ∀ m ∈ inbound.takeWhile fun m => !m.isEmpty,
        ¬ m.Moves p.driver.coordinator.lastEpoch) ∧
      ((receive env inbound p).2.isSome ↔ env.raises = true ∨ ∃ m ∈ inbound, m.isEmpty = true) := by
  induction inbound generalizing p with
  | nil =>
    refine ⟨[], ⟨by simp [receive], by simp [receive], rfl, .nil _⟩, by simp, ?_⟩
    cases hraises : env.raises <;> simp [receive, hraises]
  | cons m inbound ih =>
    rcases route_folds env p m with ⟨hempty, hroute⟩ | ⟨p', hempty, hroute, hmoves⟩
    · have hreceive : receive env (m :: inbound) p = (p, some .value) := by
        simp [receive, hroute]
      rw [hreceive]
      exact ⟨[], ⟨by simp, by simp, rfl, .nil _⟩, by simp [hempty], by simp [hempty]⟩
    · obtain ⟨l, hfolds, hnil, hfails⟩ := ih p'
      have hreceive : receive env (m :: inbound) p = receive env inbound p' := by
        simp [receive, hroute]
      rw [hreceive]
      rcases hmoves with ⟨hmoves, hfirst⟩ | ⟨hmoves, hfirst⟩
      · refine ⟨[m] ++ l, hfirst.trans hfolds, ?_, ?_⟩
        · simp [hempty, hmoves]
        · simpa [hempty] using hfails
      · refine ⟨l, by simpa using hfirst.trans hfolds, ?_, ?_⟩
        · rw [hnil, hfirst.lastEpoch]
          simp [hempty, hmoves]
        · simpa [hempty] using hfails

namespace World

variable (codec : Codec (IpcMessage σ δ κ) B)

/-- The frames that are applied from `w` to `w'` are `l`, and those that are handed over `l'`. -/
structure Yields (w w' : World σ δ κ S) (l l' : List (IpcMessage σ δ κ)) : Prop where
  applied : appliedFrames w'.trace = appliedFrames w.trace ++ l
  handed : handedFrames w'.trace = handedFrames w.trace ++ l'
  climbs : Climbs w.driver.coordinator.lastEpoch l w'.driver.coordinator.lastEpoch

theorem Yields.trans {w w' w'' : World σ δ κ S} {l l' k k' : List (IpcMessage σ δ κ)}
    (h : Yields w w' l l') (h' : Yields w' w'' k k') : Yields w w'' (l ++ k) (l' ++ k') where
  applied := by rw [h'.applied, h.applied, append_assoc]
  handed := by rw [h'.handed, h.handed, append_assoc]
  climbs := h.climbs.append h'.climbs

/-- A tick hands over what it has applied, unless it raises. -/
theorem tick_yields (env : Env σ δ κ) (w : World σ δ κ S) : ∃ l, (l = [] ↔ env.Quiet w.driver.coordinator.lastEpoch) ∧
      ((env.Aborts ∧ Yields w (w.tick codec env) l []) ∨ (¬ env.Aborts ∧ Yields w (w.tick codec env) l l)) := by
  have hpush : Sends (fun _ => True) w.start (w.push codec env) := .push (fun _ => trivial) (fun _ => trivial) w
  obtain ⟨l, hreceive, hnil, hfails⟩ := receive_folds env env.inbound (w.push codec env)
  have hfolds := hpush.folds.trans hreceive
  rw [nil_append] at hfolds
  rw [hpush.coordinator] at hnil
  refine ⟨l, hnil, ?_⟩
  rw [World.tick]
  generalize receive env env.inbound (w.push codec env) = received at *
  obtain ⟨p, outcome⟩ := received
  cases outcome with
  | some failure =>
    refine .inl ⟨hfails.mp rfl, ?_, ?_, hfolds.climbs⟩
    · change appliedFrames (p.trace ++ [.raised failure]) = _
      rw [appliedFrames_append]
      exact (append_nil _).trans hfolds.applied
    · change handedFrames (p.trace ++ [.raised failure]) = _
      rw [handedFrames_append]
      exact congrArg (· ++ []) hfolds.handed
  | none =>
    have hadvertise : Sends (fun _ => True) p (p.advertise env) := .advertise trivial
    have hend := hfolds.trans hadvertise.folds
    rw [append_nil] at hend
    refine .inr ⟨fun h => by simpa using hfails.mpr h, ?_, ?_, hend.climbs⟩
    · change appliedFrames ((p.advertise env).trace ++ [.returned _]) = _
      rw [appliedFrames_append]
      exact (append_nil _).trans hend.applied
    · change handedFrames ((p.advertise env).trace ++ [.returned (p.advertise env).finish.progress]) = _
      rw [handedFrames_append, hend.handed]
      refine congrArg (handedFrames w.trace ++ ·) ?_
      exact (append_nil _).trans hend.progress

/-! ## Runs -/

def Lossless (w : World σ δ κ S) : List (Command σ δ κ) → Prop
  | [] => True
  | c :: cs => (∀ env, c = .tick env → env.Aborts → env.Quiet w.driver.coordinator.lastEpoch) ∧
      Lossless (w.step codec c) cs

theorem step_yields (c : Command σ δ κ) (w : World σ δ κ S) :
    ∃ l l', Yields w (w.step codec c) l l' ∧ l'.length ≤ l.length ∧
      (l' = l ↔ ∀ env, c = .tick env → env.Aborts → env.Quiet w.driver.coordinator.lastEpoch) := by
  cases c with
  | enqueue e m =>
    refine ⟨[], [], ⟨?_, ?_, .nil _⟩, le_rfl, by simp⟩
    · simp [step, enqueue, appliedFrames, Event.applied?]
    · simp [step, enqueue, handedFrames, Event.handed]
  | onReconnect =>
    refine ⟨[], [], ⟨?_, ?_, .nil _⟩, le_rfl, by simp⟩
    · simp [step, onReconnect, appliedFrames, Event.applied?]
    · simp [step, onReconnect, handedFrames, Event.handed]
  | tick env =>
    obtain ⟨l, hnil, ⟨haborts, hyields⟩ | ⟨haborts, hyields⟩⟩ := tick_yields codec env w
    · refine ⟨l, [], hyields, Nat.zero_le _, ?_⟩
      rw [eq_comm, hnil]
      constructor
      · rintro hquiet env' ⟨⟩ _
        exact hquiet
      · exact fun h => h env rfl haborts
    · refine ⟨l, l, hyields, le_rfl, iff_of_true rfl ?_⟩
      rintro env' ⟨⟩ h
      exact absurd h haborts

/-- What a run hands over is what it has applied if and only if it is lossless. -/
theorem run_yields (cs : List (Command σ δ κ)) (w : World σ δ κ S) :
    ∃ l l', Yields w (w.run codec cs) l l' ∧ l'.length ≤ l.length ∧ (l' = l ↔ w.Lossless codec cs) := by
  induction cs generalizing w with
  | nil => exact ⟨[], [], ⟨by simp [run], by simp [run], .nil _⟩, le_rfl, by simp [Lossless]⟩
  | cons c cs ih =>
    obtain ⟨l, l', hstep, hlength, hquiet⟩ := step_yields codec c w
    obtain ⟨k, k', hrun, hlength', hlossless⟩ := ih (w.step codec c)
    refine ⟨l ++ k, l' ++ k', hstep.trans hrun, ?_, ?_⟩
    · simp only [length_append]
      omega
    · rw [Lossless, ← hquiet, ← hlossless]
      constructor
      · -- neither part is longer than what has been applied, so that both are equal
        intro h
        have htotal := congrArg length h
        simp only [length_append] at htotal
        exact append_inj h (by omega)
      · rintro ⟨rfl, rfl⟩
        rfl

/-- In every run of a new driver the host is handed exactly the frames on which the coordinator
answers `Apply`, each once and in order, if and only if no tick raises after it has applied a
frame. Then what the host has folded is the state of the producer at the cursor. -/
theorem handed_iff (store : S) (e : ℤ) (cs : List (Command σ δ κ)) :
    (handedFrames ((init store e).run codec cs).trace = appliedFrames ((init store e).run codec cs).trace ↔
      (init store e).Lossless codec cs) ∧
    ((init store e).Lossless codec cs → ∀ (fold : δ → σ → σ) (h : History σ) (s : σ), h.stateAt e = some s →
      (∀ m ∈ appliedFrames ((init store e).run codec cs).trace, Tells fold h m) →
      h.stateAt ((init store e).run codec cs).driver.coordinator.lastEpoch =
        some ((handedFrames ((init store e).run codec cs).trace).foldl (foldFrame fold) s)) := by
  obtain ⟨l, l', hyields, _, hlossless⟩ := run_yields codec cs (init store e)
  have happlied : appliedFrames ((init store e).run codec cs).trace = l := hyields.applied
  have hhanded : handedFrames ((init store e).run codec cs).trace = l' := hyields.handed
  rw [happlied, hhanded]
  refine ⟨hlossless, fun hrun fold h s hs htells => ?_⟩
  obtain rfl := hlossless.mpr hrun
  exact hyields.climbs.stateAt hs htells

/-! ## A source that raises -/

/-- The source returns a snapshot and raises. The next tick acknowledges the snapshot, which the
host is never handed. -/
theorem handed_loses :
    let w := inMemory.run plain
      [.tick (receiving [.ofSnapshot ⟨5, 50⟩] true), .tick (receiving [] false)]
    appliedFrames w.trace = [.ofSnapshot ⟨5, 50⟩] ∧ handedFrames w.trace = [] ∧ w.driver.coordinator.lastEpoch = 5 ∧
      Event.sent .ack (.ofOutboxAck ⟨5⟩) true ∈ w.trace := by
  decide

/-- A source that raises before the snapshot has come loses nothing. -/
theorem handed_iff_raising :
    let w := inMemory.run plain
      [.tick (receiving [] true), .tick (receiving [.ofSnapshot ⟨5, 50⟩] false)]
    handedFrames w.trace = appliedFrames w.trace ∧ w.driver.coordinator.lastEpoch = 5 := by
  refine ⟨(handed_iff plain (InMemoryStore.empty _) 0 _).1.mpr ⟨?_, ?_, trivial⟩, by decide⟩
  · rintro env ⟨⟩ _ m hm
    cases hm
  · rintro env ⟨⟩ h
    exact absurd h (by simp [Env.Aborts, receiving, IpcMessage.isEmpty, IpcMessage.ofSnapshot])

end World

end LazilyPy.Sync

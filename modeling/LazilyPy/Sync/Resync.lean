import Mathlib.Data.Set.Insert
import LazilyPy.Sync.Coordinator

/-!
# Two parties and a lossy channel

A producer has a state at each of its epochs and sends frames about them. The channel may drop,
duplicate and reorder frames: any frame that has been sent may arrive at any time, any number of
times, or never. A receiver folds exactly the frames that its coordinator applies, and is at every
time at the state that the producer had at the epoch of the cursor.
-/

namespace LazilyPy.Sync

open Option

variable {σ δ κ : Type}

/-- The states of the producer, with the epochs at which it was in them, the latest first. -/
structure History (σ : Type) where
  states : List (ℤ × σ)
  increasing : states.Pairwise fun x y => y.1 < x.1

namespace History

def stateAt (h : History σ) (e : ℤ) : Option σ :=
  (h.states.find? fun x => x.1 = e).map Prod.snd

def advance (h : History σ) (e : ℤ) (s : σ) (later : ∀ x ∈ h.states, x.1 < e) : History σ where
  states := (e, s) :: h.states
  increasing := List.pairwise_cons.mpr ⟨later, h.increasing⟩

/-- The past stays as it is. -/
theorem stateAt_advance {h : History σ} {e : ℤ} {s : σ} (later : ∀ x ∈ h.states, x.1 < e) {e' : ℤ}
    {s' : σ} (hs : h.stateAt e' = some s') : (h.advance e s later).stateAt e' = some s' := by
  obtain ⟨x, hx, rfl⟩ := map_eq_some_iff.mp hs
  have hlater := later x (List.mem_of_find?_eq_some hx)
  have hepoch : x.1 = e' := by simpa using List.find?_some hx
  have hne : ¬ e = e' := by omega
  simpa [stateAt, advance, hne] using hs

end History

section Fold

variable (fold : δ → σ → σ)

def foldFrame (p : σ) (m : IpcMessage σ δ κ) : σ :=
  match m.snapshot, m.delta with
  | some s, _ => s.state
  | none, some d => fold d.ops p
  | none, none => p

/-- A snapshot carries the state at its epoch, and a delta maps the state at its base epoch to the
state at its epoch. -/
def Tells (h : History σ) (m : IpcMessage σ δ κ) : Prop :=
  (∀ s, m.snapshot = some s → h.stateAt s.epoch = some s.state) ∧
    ∀ d, m.delta = some d → ∃ s, h.stateAt d.baseEpoch = some s ∧ h.stateAt d.epoch = some (fold d.ops s)

theorem Tells.advance {h : History σ} {m : IpcMessage σ δ κ} (ht : Tells fold h m) (e : ℤ) (s : σ)
    (later : ∀ x ∈ h.states, x.1 < e) : Tells fold (h.advance e s later) m := by
  refine ⟨fun s' hs' => History.stateAt_advance later (ht.1 s' hs'), fun d hd => ?_⟩
  obtain ⟨s', hbase, hepoch⟩ := ht.2 d hd
  exact ⟨s', History.stateAt_advance later hbase, History.stateAt_advance later hepoch⟩

/-- Folding a frame that the coordinator applies keeps up with the cursor. -/
theorem stateAt_foldFrame {h : History σ} {c : ResyncCoordinator} {m : IpcMessage σ δ κ} {p : σ}
    (ht : Tells fold h m) (hp : h.stateAt c.lastEpoch = some p) (happly : (c.ingest m).1 = .apply) :
    h.stateAt (c.ingest m).2.lastEpoch = some (foldFrame fold p m) := by
  rcases c.ingest_cases m with ⟨s, hs, heq⟩ | ⟨hs, d, hd, hbase, _, heq⟩ | ⟨_, _, _, heq⟩ |
    ⟨_, _, heq⟩
  · rw [heq, foldFrame, hs]
    exact ht.1 s hs
  · obtain ⟨s, hsbase, hsepoch⟩ := ht.2 d hd
    obtain rfl : s = p := some.inj (hsbase.symm.trans (hbase ▸ hp))
    rw [heq, foldFrame, hs, hd]
    exact hsepoch
  · simp [heq] at happly
  · simp [heq] at happly

end Fold

structure Receiver (σ : Type) where
  coordinator : ResyncCoordinator
  projection : σ

/-- A frame arrives: the host folds it if the coordinator answers `Apply`. -/
def Receiver.receive (fold : δ → σ → σ) (r : Receiver σ) (m : IpcMessage σ δ κ) : Receiver σ where
  coordinator := (r.coordinator.ingest m).2
  projection :=
    if (r.coordinator.ingest m).1 = .apply then foldFrame fold r.projection m else r.projection

/-- The states of the producer, the frames that it has sent, and the receiver. -/
structure Link (σ δ κ : Type) where
  history : History σ
  sent : Set (IpcMessage σ δ κ)
  receiver : Receiver σ

namespace Link

def advance (l : Link σ δ κ) (e : ℤ) (s : σ) (later : ∀ x ∈ l.history.states, x.1 < e) : Link σ δ κ :=
  { l with history := l.history.advance e s later }

def send (l : Link σ δ κ) (m : IpcMessage σ δ κ) : Link σ δ κ :=
  { l with sent := insert m l.sent }

def deliver (fold : δ → σ → σ) (l : Link σ δ κ) (m : IpcMessage σ δ κ) : Link σ δ κ :=
  { l with receiver := l.receiver.receive fold m }

/-- What can happen: the producer moves on, sends a frame about its states, or a frame that it has
sent arrives. -/
inductive Step (fold : δ → σ → σ) : Link σ δ κ → Link σ δ κ → Prop
  | advance (l : Link σ δ κ) (e : ℤ) (s : σ) (later : ∀ x ∈ l.history.states, x.1 < e) :
      Step fold l (l.advance e s later)
  | send (l : Link σ δ κ) (m : IpcMessage σ δ κ) : Tells fold l.history m → Step fold l (l.send m)
  | deliver (l : Link σ δ κ) (m : IpcMessage σ δ κ) : m ∈ l.sent → Step fold l (l.deliver fold m)

/-- A producer with a past, nothing sent, and a receiver in the state of its initial epoch. -/
def Initial (l : Link σ δ κ) : Prop :=
  l.sent = ∅ ∧ ∃ e, l.receiver.coordinator = .withEpoch e ∧ l.history.stateAt e = some l.receiver.projection

def Reached (fold : δ → σ → σ) (l : Link σ δ κ) : Prop :=
  ∃ l₀, Initial l₀ ∧ Relation.ReflTransGen (Step fold) l₀ l

/-- The frames in the channel tell about the states of the producer, and the receiver is at the
state of its cursor. -/
structure Synced (fold : δ → σ → σ) (l : Link σ δ κ) : Prop where
  tells : ∀ m ∈ l.sent, Tells fold l.history m
  projection : l.history.stateAt l.receiver.coordinator.lastEpoch = some l.receiver.projection

variable {fold : δ → σ → σ} {l l' : Link σ δ κ}

theorem synced_step (h : l.Synced fold) (hs : Step fold l l') : l'.Synced fold := by
  cases hs with
  | advance e s later =>
    exact ⟨fun m hm => (h.tells m hm).advance fold e s later, History.stateAt_advance later h.projection⟩
  | send m ht =>
    refine ⟨fun m' hm' => ?_, h.projection⟩
    rcases Set.mem_insert_iff.mp hm' with rfl | hm'
    · exact ht
    · exact h.tells m' hm'
  | deliver m hm =>
    refine ⟨h.tells, ?_⟩
    simp only [Link.deliver, Receiver.receive]
    by_cases happly : (l.receiver.coordinator.ingest m).1 = .apply
    · rw [if_pos happly]
      exact stateAt_foldFrame fold (h.tells m hm) h.projection happly
    · rw [if_neg happly, ResyncCoordinator.ingest_lastEpoch _ _ happly]
      exact h.projection

theorem synced_run (hrun : Reached fold l) : l.Synced fold := by
  obtain ⟨l₀, ⟨hsent, e, hc, hp⟩, hsteps⟩ := hrun
  induction hsteps with
  | refl =>
    refine ⟨fun m hm => ?_, ?_⟩
    · rw [hsent] at hm
      cases hm
    · rw [hc]
      exact hp
  | tail _ hs ih => exact synced_step ih hs

/-- In every reached state the receiver is at the state that the producer had at the epoch of its
cursor, and a frame that is ignored or answered with a request changes neither. -/
theorem resync_safe (hrun : Reached fold l) :
    l.history.stateAt l.receiver.coordinator.lastEpoch = some l.receiver.projection ∧
    ∀ m : IpcMessage σ δ κ, (l.receiver.coordinator.ingest m).1 ≠ .apply →
      (l.receiver.receive fold m).projection = l.receiver.projection ∧
      (l.receiver.receive fold m).coordinator.lastEpoch = l.receiver.coordinator.lastEpoch := by
  refine ⟨(synced_run hrun).projection, fun m happly => ⟨if_neg happly, ?_⟩⟩
  exact ResyncCoordinator.ingest_lastEpoch _ _ happly

/-! ## A stale snapshot and a gap -/

/-- A counter that has counted to three, and a receiver that has seen the start. -/
def counting : Link ℕ ℕ Unit where
  history := ⟨[(3, 30), (2, 20), (0, 0)], by decide⟩
  sent := ∅
  receiver := ⟨.withEpoch 0, 0⟩

def lastStep : IpcMessage ℕ ℕ Unit :=
  .ofDelta ⟨2, 3, 10⟩

def covering : IpcMessage ℕ ℕ Unit :=
  .ofSnapshot ⟨2, 20⟩

/-- The last delta overtakes a snapshot, is answered with a request, and comes again. -/
def overtaken : Link ℕ ℕ Unit :=
  ((((counting.send lastStep).send covering).deliver (· + ·) lastStep).deliver (· + ·)
    covering).deliver (· + ·) lastStep

theorem reached_overtaken : Reached (· + ·) overtaken := by
  have hstep : Tells (κ := Unit) (· + ·) counting.history lastStep := by
    refine ⟨nofun, fun d hd => ?_⟩
    obtain rfl := some.inj hd
    exact ⟨20, rfl, rfl⟩
  have hcovering : Tells (κ := Unit) (· + ·) counting.history covering := by
    refine ⟨fun s hs => ?_, nofun⟩
    obtain rfl := some.inj hs
    rfl
  have hsent : lastStep ∈ ((counting.send lastStep).send covering).sent := Set.mem_insert_of_mem _ (Set.mem_insert _ _)
  exact ⟨counting, ⟨rfl, 0, rfl, rfl⟩, .tail (.tail (.tail (.tail (.tail .refl
    (.send _ lastStep hstep)) (.send _ covering hcovering)) (.deliver _ lastStep hsent))
    (.deliver _ covering (Set.mem_insert _ _))) (.deliver _ lastStep hsent)⟩

theorem resync_safe_overtaken : overtaken.receiver.coordinator.lastEpoch = 3 ∧
      overtaken.history.stateAt 3 = some overtaken.receiver.projection :=
  ⟨by decide, (resync_safe reached_overtaken).1⟩

end Link

end LazilyPy.Sync

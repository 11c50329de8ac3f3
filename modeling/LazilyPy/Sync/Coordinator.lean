import Mathlib.Data.Int.Order.Basic

/-!
# Frames and the receiver's decision

A peer sends state frames (`Snapshot`, `Delta`, `CrdtSync`) and control frames (`ResyncRequest`,
`OutboxAck`) over one channel. The receiver decides from the epochs alone whether it applies a
state frame, asks for a snapshot, or drops it.
-/

namespace LazilyPy.Sync

open Option

structure Snapshot (σ : Type) where
  epoch : ℤ
  state : σ
deriving DecidableEq

/-- The changes from the state at `baseEpoch` to the state at `epoch`. -/
structure Delta (δ : Type) where
  baseEpoch : ℤ
  epoch : ℤ
  ops : δ
deriving DecidableEq

structure ResyncRequest where
  fromEpoch : ℤ
deriving DecidableEq

structure OutboxAck where
  throughEpoch : ℤ
deriving DecidableEq

structure IpcMessage (σ δ κ : Type) where
  snapshot : Option (Snapshot σ) := none
  delta : Option (Delta δ) := none
  crdtSync : Option κ := none
  resyncRequest : Option ResyncRequest := none
  outboxAck : Option OutboxAck := none
deriving DecidableEq

variable {σ δ κ : Type}

namespace IpcMessage

def ofSnapshot (s : Snapshot σ) : IpcMessage σ δ κ :=
  { snapshot := some s }

def ofDelta (d : Delta δ) : IpcMessage σ δ κ :=
  { delta := some d }

def ofResyncRequest (r : ResyncRequest) : IpcMessage σ δ κ :=
  { resyncRequest := some r }

def ofOutboxAck (a : OutboxAck) : IpcMessage σ δ κ :=
  { outboxAck := some a }

end IpcMessage

namespace IpcMessage

def isEmpty (m : IpcMessage σ δ κ) : Bool :=
  m.snapshot.isNone && m.delta.isNone && m.crdtSync.isNone && m.resyncRequest.isNone && m.outboxAck.isNone

/-- A `Snapshot`, or a `Delta` from the epoch `e` to a later one. -/
def Moves (e : ℤ) (m : IpcMessage σ δ κ) : Prop :=
  m.outboxAck = none ∧ m.resyncRequest = none ∧ m.crdtSync = none ∧
    (m.snapshot.isSome ∨ ∃ d, m.delta = some d ∧ d.baseEpoch = e ∧ e < d.epoch)

end IpcMessage

inductive ResyncAction where
  | apply
  | requestSnapshot (fromEpoch : ℤ)
  | ignore
deriving DecidableEq

/-- The cursor of the receiver, and whether a snapshot has been requested and has not come. -/
structure ResyncCoordinator where
  lastEpoch : ℤ
  resyncing : Bool
deriving DecidableEq

namespace ResyncCoordinator

def withEpoch (lastEpoch : ℤ) : ResyncCoordinator :=
  ⟨lastEpoch, false⟩

def ingestDelta (c : ResyncCoordinator) (d : Delta δ) : ResyncAction × ResyncCoordinator :=
  if d.baseEpoch = c.lastEpoch then
    if d.baseEpoch + 1 ≤ d.epoch then (.apply, ⟨d.epoch, false⟩) else (.ignore, c)
  else if d.baseEpoch < c.lastEpoch then (.ignore, c)
  else if c.resyncing then (.ignore, c)
  else (.requestSnapshot c.lastEpoch, { c with resyncing := true })

/-- `ingest_snapshot(snapshot_epoch)`: a snapshot always applies. -/
def ingestSnapshot (_ : ResyncCoordinator) (epoch : ℤ) : ResyncAction × ResyncCoordinator :=
  (.apply, ⟨epoch, false⟩)

def ingest (c : ResyncCoordinator) (m : IpcMessage σ δ κ) : ResyncAction × ResyncCoordinator :=
  match m.snapshot, m.delta with
  | some s, _ => c.ingestSnapshot s.epoch
  | none, some d => c.ingestDelta d
  | none, none => (.ignore, c)

def ack (c : ResyncCoordinator) : IpcMessage σ δ κ :=
  .ofOutboxAck ⟨c.lastEpoch⟩

section Ingest

variable (c : ResyncCoordinator) (m : IpcMessage σ δ κ)

/-- What ingesting a frame can do: a snapshot is adopted, a delta from the cursor to a later epoch
is applied, a snapshot is requested for a delta beyond the cursor, or nothing changes. -/
theorem ingest_cases : (∃ s, m.snapshot = some s ∧ c.ingest m = (.apply, ⟨s.epoch, false⟩)) ∨
    (m.snapshot = none ∧ ∃ d, m.delta = some d ∧ d.baseEpoch = c.lastEpoch ∧
      c.lastEpoch < d.epoch ∧ c.ingest m = (.apply, ⟨d.epoch, false⟩)) ∨
    (m.snapshot = none ∧ (∃ d, m.delta = some d ∧ c.lastEpoch < d.baseEpoch) ∧ c.resyncing = false ∧
      c.ingest m = (.requestSnapshot c.lastEpoch, { c with resyncing := true })) ∨
    (m.snapshot = none ∧ (∀ d, m.delta = some d → d.baseEpoch = c.lastEpoch →
      d.epoch ≤ c.lastEpoch) ∧ c.ingest m = (.ignore, c)) := by
  unfold ingest
  cases hs : m.snapshot with
  | some s => exact .inl ⟨s, rfl, rfl⟩
  | none =>
    right
    cases hd : m.delta with
    | none => exact .inr (.inr ⟨rfl, nofun, rfl⟩)
    | some d =>
      by_cases hbase : d.baseEpoch = c.lastEpoch
      · by_cases hepoch : d.baseEpoch + 1 ≤ d.epoch
        · refine .inl ⟨rfl, d, rfl, hbase, by omega, ?_⟩
          simp only [ingestDelta, hbase, if_true]
          rw [if_pos (by omega)]
        · refine .inr (.inr ⟨rfl, fun d' hd' _ => ?_, ?_⟩)
          · obtain rfl := some.inj hd'
            omega
          · simp only [ingestDelta, hbase, if_true]
            rw [if_neg (by omega)]
      · by_cases hlt : d.baseEpoch < c.lastEpoch
        · refine .inr (.inr ⟨rfl, fun d' hd' hbase' => ?_, ?_⟩)
          · obtain rfl := some.inj hd'
            omega
          · simp only [ingestDelta, hbase, hlt, if_true, if_false]
        · cases hresyncing : c.resyncing with
          | false =>
            refine .inr (.inl ⟨rfl, ⟨d, rfl, by omega⟩, rfl, ?_⟩)
            simp [ingestDelta, hbase, hlt, hresyncing]
          | true =>
            refine .inr (.inr ⟨rfl, fun d' hd' hbase' => ?_, ?_⟩)
            · obtain rfl := some.inj hd'
              omega
            · simp [ingestDelta, hbase, hlt, hresyncing]

theorem ingest_apply_iff : (c.ingest m).1 = .apply ↔
    m.snapshot.isSome ∨ ∃ d, m.delta = some d ∧ d.baseEpoch = c.lastEpoch ∧ c.lastEpoch < d.epoch := by
  rcases c.ingest_cases m with ⟨s, hs, heq⟩ | ⟨_, d, hd, hbase, hlt, heq⟩ |
    ⟨hs, ⟨d, hd, hlt⟩, _, heq⟩ | ⟨hs, hnone, heq⟩
  · simp [heq, hs]
  · simp [heq, hd, hbase, hlt]
  · simp only [heq, hs, hd, reduceCtorEq, isSome_none, Bool.false_eq_true, false_or, false_iff]
    rintro ⟨d', hd', hbase, _⟩
    obtain rfl := some.inj hd'
    omega
  · simp only [heq, hs, reduceCtorEq, isSome_none, Bool.false_eq_true, false_or, false_iff]
    rintro ⟨d, hd, hbase, hlt⟩
    have hle := hnone d hd hbase
    omega

/-- Any other answer than `Apply` leaves the cursor where it is. -/
theorem ingest_lastEpoch (h : (c.ingest m).1 ≠ .apply) : (c.ingest m).2.lastEpoch = c.lastEpoch := by
  rcases c.ingest_cases m with ⟨s, _, heq⟩ | ⟨_, d, _, _, _, heq⟩ | ⟨_, _, _, heq⟩ | ⟨_, _, heq⟩
  · simp [heq] at h
  · simp [heq] at h
  · rw [heq]
  · rw [heq]

end Ingest

end ResyncCoordinator

end LazilyPy.Sync

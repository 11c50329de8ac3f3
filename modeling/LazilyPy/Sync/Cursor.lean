import Mathlib.Order.Bounds.Basic
import LazilyPy.Lib.Throughout
import LazilyPy.Sync.Coordinator

/-!
# The cursor over a sequence of frames

Frames arrive in any order and any number of times. A delta moves the cursor forward only. A snapshot takes it to
its own epoch, wherever the cursor is.
-/

namespace LazilyPy.Sync

open List

variable {σ δ κ : Type}

def IpcMessage.epoch? (m : IpcMessage σ δ κ) : Option ℤ :=
  match m.snapshot, m.delta with
  | some s, _ => some s.epoch
  | none, some d => some d.epoch
  | none, none => none

namespace ResyncCoordinator

variable {c c₀ : ResyncCoordinator} {m : IpcMessage σ δ κ} {frames : List (IpcMessage σ δ κ)}

def after (c : ResyncCoordinator) (frames : List (IpcMessage σ δ κ)) : ResyncCoordinator :=
  frames.foldl (fun c m => (c.ingest m).2) c

def applied (c : ResyncCoordinator) : List (IpcMessage σ δ κ) → List ℤ
  | [] => []
  | m :: frames =>
    (if (c.ingest m).1 = .apply then m.epoch?.toList else []) ++ applied (c.ingest m).2 frames

section

variable (c : ResyncCoordinator) (frames : List (IpcMessage σ δ κ)) (m : IpcMessage σ δ κ)

theorem after_concat :
    c.after (frames ++ [m]) = ((c.after frames).ingest m).2 := by
  rw [after, foldl_append]
  rfl

theorem applied_concat : c.applied (frames ++ [m]) = c.applied frames ++
      if ((c.after frames).ingest m).1 = .apply then m.epoch?.toList else [] := by
  induction frames generalizing c with
  | nil => rw [nil_append, applied, applied, applied, append_nil, nil_append, after, foldl_nil]
  | cons a frames ih => rw [cons_append, applied, applied, ih, append_assoc, after, after, foldl_cons]

end

/-- The cursor is the highest of the epoch that it started at and those that have been applied. -/
def Highest (c₀ : ResyncCoordinator) (frames : List (IpcMessage σ δ κ)) : Prop :=
  IsGreatest {e | e = c₀.lastEpoch ∨ e ∈ c₀.applied frames} (c₀.after frames).lastEpoch

/-- At every moment the cursor is the highest epoch applied so far, and neither the cursor nor what is advertised
of it goes back. -/
structure Rises (c₀ : ResyncCoordinator) (frames : List (IpcMessage σ δ κ)) : Prop where
  highest : ∀ before after, frames = before ++ after → Highest c₀ before
  cursor : ∀ before middle after, frames = before ++ (middle ++ after) →
    (c₀.after before).lastEpoch ≤ (c₀.after (before ++ middle)).lastEpoch
  advertised : ∀ before middle after, frames = before ++ (middle ++ after) →
    ∀ a b, ((c₀.after before).ack : IpcMessage σ δ κ).outboxAck = some a →
      ((c₀.after (before ++ middle)).ack : IpcMessage σ δ κ).outboxAck = some b → a.throughEpoch ≤ b.throughEpoch

def Covers (c : ResyncCoordinator) (m : IpcMessage σ δ κ) : Prop :=
  ∀ s, m.snapshot = some s → c.lastEpoch ≤ s.epoch

/-- A frame that is applied takes the cursor to its epoch; any other one leaves the cursor alone. -/
theorem lastEpoch_ingest (c : ResyncCoordinator) (m : IpcMessage σ δ κ) :
    ((c.ingest m).1 = .apply ∧ m.epoch? = some (c.ingest m).2.lastEpoch) ∨
      ((c.ingest m).1 ≠ .apply ∧ (c.ingest m).2.lastEpoch = c.lastEpoch) := by
  obtain ⟨s, hs, heq⟩ | ⟨hs, d, hd, -, -, heq⟩ | ⟨-, -, -, heq⟩ | ⟨-, -, heq⟩ := c.ingest_cases m
  · refine .inl ⟨by rw [heq], ?_⟩
    rw [heq, IpcMessage.epoch?, hs]
  · refine .inl ⟨by rw [heq], ?_⟩
    rw [heq, IpcMessage.epoch?, hs, hd]
  · exact .inr ⟨by rw [heq]; nofun, by rw [heq]⟩
  · exact .inr ⟨by rw [heq]; nofun, by rw [heq]⟩

/-- A delta takes the cursor forward. -/
theorem le_ingest (h : c.Covers m) : c.lastEpoch ≤ (c.ingest m).2.lastEpoch := by
  obtain ⟨s, hs, heq⟩ | ⟨-, d, -, -, hlt, heq⟩ | ⟨-, -, -, heq⟩ | ⟨-, -, heq⟩ := c.ingest_cases m
  · rw [heq]
    exact h s hs
  · rw [heq]
    exact hlt.le
  · rw [heq]
  · rw [heq]

theorem Highest.concat (h : Highest c₀ frames) (hm : (c₀.after frames).Covers m) : Highest c₀ (frames ++ [m]) := by
  have hle := le_ingest hm
  rw [Highest, after_concat, applied_concat]
  obtain ⟨happly, hepoch⟩ | ⟨hother, hsame⟩ := lastEpoch_ingest (c₀.after frames) m
  · rw [if_pos happly, hepoch, Option.toList_some]
    refine ⟨.inr (mem_append_right _ (mem_singleton_self _)), fun e he => ?_⟩
    obtain hstart | hmem := he
    · exact (h.2 (.inl hstart)).trans hle
    · obtain hold | hnew := mem_append.mp hmem
      · exact (h.2 (.inr hold)).trans hle
      · exact (mem_singleton.mp hnew).le
  · rw [if_neg hother, append_nil, hsame]
    exact h

/-- What holds of frames whose snapshots are not behind the cursor. -/
theorem highest_of_covers (h : Throughout (fun before m => (c₀.after before).Covers m) frames) :
    Highest c₀ frames := by
  induction frames using reverseRecOn with
  | nil =>
    refine ⟨.inl rfl, fun e he => ?_⟩
    obtain hstart | hmem := he
    · exact hstart.le
    · cases hmem
  | append_singleton frames m ih =>
    obtain ⟨hframes, hm⟩ := throughout_concat.mp h
    exact (ih hframes).concat hm

theorem le_after_of_covers {before middle : List (IpcMessage σ δ κ)}
    (h : Throughout (fun before m => (c₀.after before).Covers m) (before ++ middle)) :
    (c₀.after before).lastEpoch ≤ (c₀.after (before ++ middle)).lastEpoch := by
  induction middle using reverseRecOn with
  | nil => rw [append_nil]
  | append_singleton middle m ih =>
    rw [← append_assoc] at h ⊢
    obtain ⟨hmiddle, hm⟩ := throughout_concat.mp h
    rw [after_concat]
    exact (ih hmiddle).trans (le_ingest hm)

/-- Over any frames, in any order and any number of times: the cursor is the highest epoch applied so far and does
not go back, and neither does what is advertised of it, exactly if no snapshot is behind the cursor when it
arrives. -/
theorem rises_iff (c₀ : ResyncCoordinator) (frames : List (IpcMessage σ δ κ)) :
    Rises c₀ frames ↔ Throughout (fun before m => (c₀.after before).Covers m) frames := by
  constructor
  · intro h before m after hsplit s hs
    have hle := h.cursor before [m] after (by rw [hsplit, singleton_append])
    rw [after_concat, ingest, hs] at hle
    exact hle
  · intro h
    have hcursor (before middle after : List (IpcMessage σ δ κ)) (hsplit : frames = before ++ (middle ++ after)) :
        (c₀.after before).lastEpoch ≤ (c₀.after (before ++ middle)).lastEpoch := by
      rw [← append_assoc] at hsplit
      exact le_after_of_covers (hsplit ▸ h).of_append
    refine ⟨fun before after hsplit => ?_, hcursor, fun before middle after hsplit a b ha hb => ?_⟩
    · exact highest_of_covers (hsplit ▸ h).of_append
    · obtain rfl := Option.some.inj ha
      obtain rfl := Option.some.inj hb
      exact hcursor before middle after hsplit

/-- A snapshot at epoch 5 and a delta to 6 have been applied when the snapshot arrives once more. -/
def redelivered : List (IpcMessage ℕ ℕ ℕ) :=
  [.ofSnapshot ⟨5, 0⟩, .ofDelta ⟨5, 6, 0⟩, .ofSnapshot ⟨5, 0⟩]

theorem not_always_rises : ¬ ∀ frames : List (IpcMessage ℕ ℕ ℕ), Rises (withEpoch 0) frames := by
  intro h
  have hle := (h redelivered).cursor [.ofSnapshot ⟨5, 0⟩, .ofDelta ⟨5, 6, 0⟩] [.ofSnapshot ⟨5, 0⟩] [] rfl
  revert hle
  decide

end ResyncCoordinator

end LazilyPy.Sync

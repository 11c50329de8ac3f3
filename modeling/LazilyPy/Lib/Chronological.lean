import Mathlib.Algebra.Order.Ring.Int
import Mathlib.Data.List.Induction

/-!
# Runs on a clock that does not go back

Every input of a run carries a reading of one clock. What an input keeps if its reading is not before the last one
holds after every run whose readings do not decrease.

Something that is due at every multiple of a period is done by the first tick that is not before the multiple.
-/

section Clock

open List

variable {α : Type} {time : α → ℤ} {l : List α} {a : α}

def Chronological (time : α → ℤ) (l : List α) : Prop :=
  l.Pairwise fun a b => time a ≤ time b

instance : Decidable (Chronological time l) :=
  inferInstanceAs (Decidable (l.Pairwise _))

theorem chronological_concat : Chronological time (l ++ [a]) ↔ Chronological time l ∧ ∀ b ∈ l, time b ≤ time a := by
  unfold Chronological
  rw [pairwise_append]
  refine ⟨fun h => ⟨h.1, fun b hb => h.2.2 b hb a (mem_singleton_self a)⟩, fun h => ?_⟩
  refine ⟨h.1, pairwise_singleton _ _, fun b hb c hc => ?_⟩
  obtain rfl := mem_singleton.mp hc
  exact h.2 b hb

/-- The reading that `motive` carries along is that of the last input. Before the first one it is any that is
early enough. -/
theorem Chronological.induction {motive : List α → ℤ → Prop} (low : ℤ) (nil : ∀ t ≤ low, motive [] t)
    (concat : ∀ l t a, motive l t → t ≤ time a → motive (l ++ [a]) (time a))
    (h : Chronological time (l ++ [a])) : motive (l ++ [a]) (time a) := by
  induction l using reverseRecOn generalizing a with
  | nil => exact concat [] (min low (time a)) a (nil _ (by omega)) (by omega)
  | append_singleton l b ih =>
    obtain ⟨hl, hle⟩ := chronological_concat.mp h
    exact concat _ _ a (ih hl) (hle b (mem_append_right _ (mem_singleton_self b)))

end Clock

/-! ### Elements and ticks -/

inductive Timed (T : Type)
  | push (now : ℤ) (v : T)
  | tick (now : ℤ)

namespace Timed

variable {T : Type}

def time : Timed T → ℤ
  | .push now _ => now
  | .tick now => now

def elem : Timed T → Option T
  | .push _ v => some v
  | .tick _ => none

def push? : Timed T → Option (ℤ × T)
  | .push now v => some (now, v)
  | .tick _ => none

def tick? : Timed T → Option ℤ
  | .push _ _ => none
  | .tick now => some now

end Timed

/-! ### Boundaries -/

section Boundary

open List

variable {T : Type} {period now next : ℤ} {inputs : List (Timed T)}

/-- A period that is clamped is positive. -/
theorem one_le_max (period : ℤ) : 1 ≤ max period 1 :=
  le_max_right period 1

def ReachesBoundary (period : ℤ) (before : List (Timed T)) : Timed T → Prop
  | .push _ _ => False
  | .tick now => ∃ k, 1 ≤ k ∧ k * period ≤ now ∧ ∀ t ∈ before.filterMap Timed.tick?, t < k * period

def NextBoundary (period : ℤ) (inputs : List (Timed T)) (next : ℤ) : Prop :=
  ∃ k, 1 ≤ k ∧ next = k * period ∧ (∀ t ∈ inputs.filterMap Timed.tick?, t < next) ∧
    (k = 1 ∨ ∃ t ∈ inputs.filterMap Timed.tick?, (k - 1) * period ≤ t)

theorem nextBoundary_nil (period : ℤ) : NextBoundary period ([] : List (Timed T)) period :=
  ⟨1, le_rfl, (one_mul _).symm, nofun, .inl rfl⟩

namespace NextBoundary

theorem reachesBoundary_iff (hperiod : 1 ≤ period) (h : NextBoundary period inputs next) (now : ℤ) :
    ReachesBoundary period inputs (.tick now) ↔ next ≤ now := by
  obtain ⟨k, hk, hnext, hticks, hlast⟩ := h
  constructor
  · rintro ⟨k', hk', hle, hafter⟩
    rw [hnext]
    refine le_trans ?_ hle
    refine Int.mul_le_mul_of_nonneg_right ?_ (by omega)
    obtain rfl | ⟨t, ht, hlast⟩ := hlast
    · exact hk'
    · -- a boundary that no tick has reached is not before the next one
      by_contra hlt
      have hmul : k' * period ≤ (k - 1) * period := Int.mul_le_mul_of_nonneg_right (by omega) (by omega)
      have hbefore := hafter t ht
      omega
  · intro hle
    exact ⟨k, hk, hnext ▸ hle, fun t ht => hnext ▸ hticks t ht⟩

theorem push (h : NextBoundary period inputs next) (now : ℤ) (v : T) :
    NextBoundary period (inputs ++ [.push now v]) next := by
  have hticks : (inputs ++ [Timed.push now v]).filterMap Timed.tick? = inputs.filterMap Timed.tick? := by
    rw [filterMap_append]
    exact append_nil _
  unfold NextBoundary
  rwa [hticks]

theorem filterMap_tick (inputs : List (Timed T)) (now : ℤ) :
    (inputs ++ [Timed.tick now]).filterMap Timed.tick? = inputs.filterMap Timed.tick? ++ [now] := by
  rw [filterMap_append]
  rfl

/-- A tick before the next boundary. -/
theorem wait (h : NextBoundary period inputs next) (hlt : now < next) :
    NextBoundary period (inputs ++ [.tick now]) next := by
  obtain ⟨k, hk, hnext, hticks, hlast⟩ := h
  unfold NextBoundary
  rw [filterMap_tick]
  refine ⟨k, hk, hnext, forall_mem_append.mpr ⟨hticks, forall_mem_singleton.mpr hlt⟩, ?_⟩
  exact hlast.imp_right fun ⟨t, ht, hle⟩ => ⟨t, mem_append_left _ ht, hle⟩

/-- A tick at which the boundary is moved on to the first one after it. -/
theorem pass (h : NextBoundary period inputs next) (hle : next ≤ now) {j : ℤ} (hj : 0 ≤ j)
    (hreached : next + j * period - period ≤ now) (hafter : now < next + j * period) :
    NextBoundary period (inputs ++ [.tick now]) (next + j * period) := by
  obtain ⟨k, hk, hnext, hticks, -⟩ := h
  unfold NextBoundary
  rw [filterMap_tick]
  have hsum : next + j * period = (k + j) * period := by rw [hnext, add_mul]
  refine ⟨k + j, by omega, hsum, ?_, .inr ⟨now, ?_, ?_⟩⟩
  · refine forall_mem_append.mpr ⟨fun t ht => ?_, forall_mem_singleton.mpr hafter⟩
    have hbefore := hticks t ht
    omega
  · exact mem_append_right _ (mem_singleton_self now)
  · rw [sub_mul, one_mul, ← hsum]
    exact hreached

end NextBoundary

end Boundary

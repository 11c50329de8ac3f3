import Mathlib.Data.List.Lex
import Mathlib.Data.Prod.Lex

/-!
# Ordered keys

A dot names one operation of one peer. Dots are ordered by counter, then by peer. A stamp of a hybrid logical clock is
ordered by wall time, then by logical counter, then by peer. So both are totally ordered, and those of different peers
are never equal. Lists of digits are ordered lexicographically: the lower one of two keys is a prefix of the upper
one, or they part at a digit. -/

/-! ### Dots and stamps -/

structure Dot where
  counter : ℕ
  peer : ℤ
  deriving DecidableEq, Repr

namespace Dot

def toPair (d : Dot) : ℕ ×ₗ ℤ :=
  toLex (d.counter, d.peer)

theorem toPair_injective : Function.Injective toPair := by
  rintro ⟨c, p⟩ ⟨c', p'⟩ h
  cases h
  rfl

instance : LinearOrder Dot :=
  LinearOrder.lift' toPair toPair_injective

theorem lt_iff {a b : Dot} : a < b ↔ a.counter < b.counter ∨ a.counter = b.counter ∧ a.peer < b.peer :=
  Prod.Lex.lt_iff

end Dot

@[ext] structure Stamp where
  wall : ℤ
  logical : ℤ
  peer : ℤ
  deriving DecidableEq, Repr

namespace Stamp

def toTriple (s : Stamp) : ℤ ×ₗ ℤ ×ₗ ℤ :=
  toLex (s.wall, toLex (s.logical, s.peer))

theorem toTriple_injective : Function.Injective toTriple := by
  rintro ⟨w, l, p⟩ ⟨w', l', p'⟩ h
  cases h
  rfl

instance : LinearOrder Stamp :=
  LinearOrder.lift' toTriple toTriple_injective

theorem lt_iff {a b : Stamp} : a < b ↔ a.wall < b.wall ∨ a.wall = b.wall ∧
    (a.logical < b.logical ∨ a.logical = b.logical ∧ a.peer < b.peer) := by
  have houter : a < b ↔ a.wall < b.wall ∨ a.wall = b.wall ∧
      toLex (a.logical, a.peer) < toLex (b.logical, b.peer) := Prod.Lex.lt_iff
  rw [houter, Prod.Lex.lt_iff]
  rfl

end Stamp

/-! ### Keys of digits -/

namespace Digits

open List

variable {lo hi rest x y : List ℕ}

theorem append_lt_append_iff (lo : List ℕ) : lo ++ x < lo ++ y ↔ x < y := by
  induction lo with
  | nil => rfl
  | cons a lo ih => rw [cons_append, cons_append, cons_lt_cons_self, ih]

theorem lt_append (lo : List ℕ) (h : x ≠ []) : lo < lo ++ x := by
  have hlt : [] < x := by
    cases x with
    | nil => exact absurd rfl h
    | cons a x => exact nil_lt_cons a x
  have happend := (append_lt_append_iff lo).mpr hlt
  rwa [append_nil] at happend

/-- The keys part at a digit, and that of `lo` is the smaller one. -/
def Parts (lo hi : List ℕ) : Prop :=
  ∃ c a b lo' hi', lo = c ++ a :: lo' ∧ hi = c ++ b :: hi' ∧ a < b

theorem prefix_or_parts_of_lt (h : lo < hi) : (∃ rest, hi = lo ++ rest) ∨ Parts lo hi := by
  induction lo generalizing hi with
  | nil => exact .inl ⟨hi, rfl⟩
  | cons a lo ih =>
    cases hi with
    | nil => exact absurd h (not_lt_nil _)
    | cons b hi =>
      obtain hlt | ⟨rfl, hlt⟩ := cons_lt_cons_iff.mp h
      · exact .inr ⟨[], a, b, lo, hi, rfl, rfl, hlt⟩
      · obtain ⟨rest, rfl⟩ | ⟨c, d, e, lo', hi', rfl, rfl, hde⟩ := ih hlt
        · exact .inl ⟨rest, rfl⟩
        · exact .inr ⟨a :: c, d, e, lo', hi', rfl, rfl, hde⟩

/-- Of two keys in order the lower one is a prefix, or they part. -/
theorem prefix_or_parts (h : lo ≤ hi) : (∃ rest, hi = lo ++ rest) ∨ Parts lo hi := by
  obtain hlt | rfl := h.lt_or_eq
  · exact prefix_or_parts_of_lt hlt
  · exact .inl ⟨[], (append_nil lo).symm⟩

/-- What extends the lower key stays below. -/
theorem Parts.append_lt (h : Parts lo hi) (x : List ℕ) : lo ++ x < hi := by
  obtain ⟨c, a, b, lo', hi', rfl, rfl, hlt⟩ := h
  rw [append_assoc, append_lt_append_iff]
  exact cons_lt_cons_iff.mpr (.inl hlt)

theorem Parts.ne_append (h : Parts lo hi) (rest : List ℕ) : hi ≠ lo ++ rest := by
  rintro rfl
  exact lt_irrefl _ (h.append_lt rest)

end Digits

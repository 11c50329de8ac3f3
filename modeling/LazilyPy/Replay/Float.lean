import LazilyPy.Lib.Framing
import Mathlib.Algebra.Order.Ring.Int

/-!
# Numbers as text
-/

namespace LazilyPy.Replay

open List

open Framing (toDigits_inj toNat_of_mem_toDigits)

def intText (z : ℤ) : List Char :=
  if z < 0 then '-' :: Nat.toDigits 10 z.natAbs else Nat.toDigits 10 z.natAbs

theorem minus_notMem_toDigits (n : ℕ) : '-' ∉ Nat.toDigits 10 n := by
  intro h
  exact absurd (toNat_of_mem_toDigits h).1 (by decide)

theorem intText_inj {z w : ℤ} (h : intText z = intText w) : z = w := by
  unfold intText at h
  split at h
  · split at h
    · have habs := toDigits_inj (cons_eq_cons.mp h).2
      omega
    · exact absurd (h ▸ mem_cons_self) (minus_notMem_toDigits w.natAbs)
  · split at h
    · exact absurd (h ▸ mem_cons_self) (minus_notMem_toDigits z.natAbs)
    · have habs := toDigits_inj h
      omega

/-- A choice between two tells what it depends on. -/
theorem iff_of_ite_eq {α : Type} {a b : α} {p q : Prop} [Decidable p] [Decidable q] (hne : a ≠ b)
    (h : (if p then a else b) = if q then a else b) : p ↔ q := by
  by_cases hp : p <;> by_cases hq : q <;> simp_all

structure Double where
  negative : Bool
  exponent : ℕ
  mantissa : ℕ
  exponent_lt : exponent < 2048
  mantissa_lt : mantissa < 2 ^ 52
  deriving DecidableEq

/-- The hexadecimal digits of a number, the most significant first. -/
def hexDigits : ℕ → ℕ → List Char
  | 0, _ => []
  | width + 1, n => hexDigits width (n / 16) ++ [Nat.digitChar (n % 16)]

@[simp] theorem length_hexDigits (width n : ℕ) : (hexDigits width n).length = width := by
  induction width generalizing n with
  | zero => rfl
  | succ width ih => rw [hexDigits, length_append, ih, length_singleton]

theorem digitChar_inj : ∀ n < 16, ∀ m < 16, Nat.digitChar n = Nat.digitChar m → n = m := by
  decide

theorem hexDigits_inj {width n m : ℕ} (hn : n < 16 ^ width) (hm : m < 16 ^ width)
    (h : hexDigits width n = hexDigits width m) : n = m := by
  induction width generalizing n m with
  | zero =>
    rw [pow_zero] at hn hm
    omega
  | succ width ih =>
    rw [pow_succ] at hn hm
    rw [hexDigits, hexDigits] at h
    obtain ⟨hhigh, hlow⟩ := append_inj' h rfl
    have hdiv := ih (by omega) (by omega) hhigh
    have hmod := digitChar_inj (n % 16) (by omega) (m % 16) (by omega) (singleton_inj.mp hlow)
    omega

namespace Double

variable {x y : Double}

def IsNaN (x : Double) : Prop :=
  x.exponent = 2047 ∧ x.mantissa ≠ 0

instance (x : Double) : Decidable x.IsNaN :=
  inferInstanceAs (Decidable (_ ∧ _))

def power (x : Double) : ℤ :=
  if x.exponent = 0 then -1022 else x.exponent - 1023

def finiteText (x : Double) : List Char :=
  '0' :: 'x' :: (if x.exponent = 0 then '0' else '1') :: '.' :: (hexDigits 13 x.mantissa ++
      'p' :: (if x.power < 0 then '-' else '+') :: Nat.toDigits 10 x.power.natAbs)

def magnitude (x : Double) : List Char :=
  if x.exponent = 2047 then ['i', 'n', 'f']
  else if x.exponent = 0 ∧ x.mantissa = 0 then ['0', 'x', '0', '.', '0', 'p', '+', '0']
  else x.finiteText

def hex (x : Double) : List Char :=
  if x.IsNaN then ['n', 'a', 'n']
  else if x.negative then '-' :: x.magnitude
  else x.magnitude

theorem finiteText_inj (h : x.finiteText = y.finiteText) : x.exponent = y.exponent ∧ x.mantissa = y.mantissa := by
  simp only [finiteText, cons.injEq, true_and] at h
  obtain ⟨hlead, htail⟩ := h
  obtain ⟨hdigits, hrest⟩ := append_inj htail (by simp)
  have hmantissa := hexDigits_inj (by exact x.mantissa_lt) (by exact y.mantissa_lt) hdigits
  simp only [cons.injEq, true_and] at hrest
  obtain ⟨hsign, hpower⟩ := hrest
  have habs := toDigits_inj hpower
  have hneg := iff_of_ite_eq (by decide) hsign
  have hzero := iff_of_ite_eq (by decide) hlead
  refine ⟨?_, hmantissa⟩
  have hpow : x.power = y.power := by omega
  unfold power at hpow
  split at hpow
  · next hx => rw [hx, hzero.mp hx]
  · next hx =>
    rw [if_neg (mt hzero.mpr hx)] at hpow
    omega

theorem length_finiteText (x : Double) : 18 ≤ x.finiteText.length := by
  simp only [finiteText, length_cons, length_append, length_hexDigits]
  omega

/-- A magnitude starts with no sign. -/
theorem magnitude_head (x : Double) : ∃ c rest, x.magnitude = c :: rest ∧ c ≠ '-' ∧ c ≠ 'n' := by
  unfold magnitude finiteText
  split
  · exact ⟨_, _, rfl, by decide, by decide⟩
  split
  · exact ⟨_, _, rfl, by decide, by decide⟩
  · exact ⟨_, _, rfl, by decide, by decide⟩

theorem magnitude_inj (hx : ¬ x.IsNaN) (hy : ¬ y.IsNaN) (h : x.magnitude = y.magnitude) :
    x.exponent = y.exponent ∧ x.mantissa = y.mantissa := by
  have hxlen := length_finiteText x
  have hylen := length_finiteText y
  have hinf (z : Double) : ['i', 'n', 'f'] ≠ z.finiteText := fun heq => nomatch heq
  unfold magnitude at h
  unfold IsNaN at hx hy
  split at h
  · split at h
    · omega
    split at h
    · cases h
    · exact absurd h (hinf y)
  split at h
  · split at h
    · cases h
    split at h
    · omega
    · rw [← h] at hylen
      exact absurd hylen (by decide)
  · split at h
    · exact absurd h.symm (hinf x)
    split at h
    · rw [h] at hxlen
      exact absurd hxlen (by decide)
    · exact finiteText_inj h

/-- The text determines a number. -/
theorem hex_inj (hx : ¬ x.IsNaN) (hy : ¬ y.IsNaN) (h : x.hex = y.hex) : x = y := by
  obtain ⟨c, rest, hc, hcsign, -⟩ := magnitude_head x
  obtain ⟨d, rest', hd, hdsign, -⟩ := magnitude_head y
  have hboth : x.negative = y.negative ∧ x.magnitude = y.magnitude := by
    unfold hex at h
    rw [if_neg hx, if_neg hy] at h
    split at h
    · next hxneg =>
      split at h
      · next hyneg => exact ⟨hxneg.trans hyneg.symm, (cons_eq_cons.mp h).2⟩
      · rw [hd] at h
        exact absurd (cons_eq_cons.mp h).1.symm hdsign
    · next hxneg =>
      split at h
      · rw [hc] at h
        exact absurd (cons_eq_cons.mp h).1 hcsign
      · next hyneg => exact ⟨by rw [Bool.not_eq_true] at hxneg hyneg; rw [hxneg, hyneg], h⟩
  obtain ⟨hexponent, hmantissa⟩ := magnitude_inj hx hy hboth.2
  obtain ⟨_, _, _, _, _⟩ := x
  obtain ⟨_, _, _, _, _⟩ := y
  simp_all only

example : (Double.mk true 1021 0x8000000000000 (by decide) (by decide)).hex = "-0x1.8000000000000p-2".toList := by
  decide

/-- The text tells what is no number. -/
theorem hex_ne_of_isNaN (hx : x.IsNaN) (hy : ¬ y.IsNaN) : x.hex ≠ y.hex := by
  obtain ⟨d, rest, hd, -, hn⟩ := magnitude_head y
  intro h
  unfold hex at h
  rw [if_pos hx, if_neg hy] at h
  split at h
  · cases h
  · rw [hd] at h
    exact hn (cons_eq_cons.mp h).1.symm

end Double

/-! ### The texts are ASCII -/

theorem toNat_of_mem_intText {z : ℤ} {c : Char} (h : c ∈ intText z) : c.toNat < 256 := by
  unfold intText at h
  split at h
  · obtain rfl | h := mem_cons.mp h
    · decide
    · have := toNat_of_mem_toDigits h
      omega
  · have := toNat_of_mem_toDigits h
    omega

theorem toNat_digitChar : ∀ n < 16, (Nat.digitChar n).toNat < 256 := by
  decide

theorem toNat_of_mem_hexDigits {width n : ℕ} {c : Char} (h : c ∈ hexDigits width n) : c.toNat < 256 := by
  induction width generalizing n with
  | zero => cases h
  | succ width ih =>
    obtain h | h := mem_append.mp h
    · exact ih h
    · rw [mem_singleton.mp h]
      exact toNat_digitChar (n % 16) (by omega)

theorem toNat_of_mem_magnitude {x : Double} : ∀ c ∈ x.magnitude, c.toNat < 256 := by
  unfold Double.magnitude
  split
  · simp
  split
  · simp
  · unfold Double.finiteText
    simp only [forall_mem_cons, forall_mem_append]
    refine ⟨by decide, by decide, ?_, by decide, fun c => toNat_of_mem_hexDigits, by decide, ?_, ?_⟩
    · split <;> decide
    · split <;> decide
    · intro c hc
      have := toNat_of_mem_toDigits hc
      omega

theorem toNat_of_mem_hex {x : Double} : ∀ c ∈ x.hex, c.toNat < 256 := by
  unfold Double.hex
  split
  · simp
  split
  · exact forall_mem_cons.mpr ⟨by decide, toNat_of_mem_magnitude⟩
  · exact toNat_of_mem_magnitude

end LazilyPy.Replay

import Mathlib.Data.Int.CardIntervalMod
import Mathlib.Data.Int.ConditionallyCompleteOrder

/-!
# Numbers with a given residue

The numbers with the residue `o` modulo `c` up to `n` are counted by the quotient of `n - o` by `c`.
-/

open List

/-- Some number with the residue `o` is after `lo` and not after `hi` if and only if the quotients
differ. -/
theorem residue_between_iff {c o lo hi : ℤ} (hc : 0 < c) (ho : 0 ≤ o) (hoc : o < c) :
    (∃ m, lo < m ∧ m ≤ hi ∧ m % c = o) ↔ (lo - o) / c < (hi - o) / c := by
  constructor
  · rintro ⟨m, hlo, hhi, hmod⟩
    have hm : m = c * (m / c) + o := by
      have hdiv := Int.mul_ediv_add_emod m c
      omega
    have hle : m / c ≤ (hi - o) / c := by
      refine (Int.le_ediv_iff_mul_le hc).mpr ?_
      rw [mul_comm]
      omega
    have hlt : (lo - o) / c < m / c := by
      refine (Int.ediv_lt_iff_lt_mul hc).mpr ?_
      rw [mul_comm]
      omega
    omega
  · intro hlt
    refine ⟨c * ((hi - o) / c) + o, ?_, ?_, ?_⟩
    · have hafter := (Int.ediv_lt_iff_lt_mul hc).mp hlt
      rw [mul_comm] at hafter
      omega
    · have hle := Int.mul_ediv_self_le (x := hi - o) (k := c) (by omega)
      omega
    · rw [Int.mul_add_emod_self_left]
      exact Int.emod_eq_of_lt ho hoc

/-- As many numbers between `lo` and `hi` have the residue as the quotients differ by. -/
theorem card_residue {c o lo hi : ℤ} (hc : 0 < c) (ho : 0 ≤ o) (hoc : o < c) (hle : lo ≤ hi) :
    (((Finset.Ioc lo hi).filter fun m => m % c = o).card : ℤ) = (hi - o) / c - (lo - o) / c := by
  have hfloor (x : ℤ) : ⌊((x : ℚ) - o) / c⌋ = (x - o) / c := by
    obtain ⟨d, rfl⟩ := Int.eq_ofNat_of_zero_le hc.le
    have h := Rat.floor_intCast_div_natCast (x - o) d
    push_cast at h ⊢
    exact h
  have hsame : (Finset.Ioc lo hi).filter (fun m => m % c = o) =
      (Finset.Ioc lo hi).filter fun m => m ≡ o [ZMOD c] := by
    refine Finset.filter_congr fun m _ => ?_
    rw [Int.ModEq, Int.emod_eq_of_lt ho hoc]
  have hmono : (lo - o) / c ≤ (hi - o) / c := Int.ediv_le_ediv hc (by omega)
  rw [hsame, Int.Ioc_filter_modEq_card _ _ hc, hfloor, hfloor]
  omega

/-- No number has two residues, so the numbers of each are added up. -/
theorem card_residues {c lo hi : ℤ} {os : List ℤ} (hc : 0 < c) (hos : ∀ o ∈ os, 0 ≤ o ∧ o < c)
    (hnodup : os.Nodup) (hle : lo ≤ hi) :
    (((Finset.Ioc lo hi).filter fun m => m % c ∈ os).card : ℤ) =
      (os.map fun o => (hi - o) / c - (lo - o) / c).sum := by
  induction os with
  | nil => simp
  | cons o os ih =>
    obtain ⟨ho, hos⟩ := forall_mem_cons.mp hos
    obtain ⟨hnot, hnodup⟩ := nodup_cons.mp hnodup
    have hapart : Disjoint ((Finset.Ioc lo hi).filter fun m => m % c = o)
        ((Finset.Ioc lo hi).filter fun m => m % c ∈ os) := by
      refine Finset.disjoint_filter.mpr fun m _ hm hmem => hnot ?_
      rwa [hm] at hmem
    have hunion : (Finset.Ioc lo hi).filter (fun m => m % c ∈ o :: os) =
        ((Finset.Ioc lo hi).filter fun m => m % c = o) ∪ ((Finset.Ioc lo hi).filter fun m => m % c ∈ os) := by
      ext m
      simp only [Finset.mem_filter, Finset.mem_union, mem_cons]
      tauto
    rw [hunion, Finset.card_union_of_disjoint hapart, Nat.cast_add, card_residue hc ho.1 ho.2 hle,
      ih hos hnodup, map_cons, sum_cons]

/-- What is found first in a sorted list is the least of what could be found. -/
theorem le_of_find?_eq_some {α : Type} [Preorder α] {p : α → Bool} {l : List α} {a b : α}
    (hl : l.Pairwise (· ≤ ·)) (ha : l.find? p = some a) (hb : b ∈ l) (hp : p b = true) : a ≤ b := by
  induction l with
  | nil => cases hb
  | cons c l ih =>
    obtain ⟨hc, hl⟩ := pairwise_cons.mp hl
    by_cases hpc : p c = true
    · rw [find?_cons_of_pos hpc] at ha
      obtain rfl := Option.some.inj ha
      obtain rfl | hb := mem_cons.mp hb
      · exact le_refl _
      · exact hc b hb
    · rw [find?_cons_of_neg hpc] at ha
      obtain rfl | hb := mem_cons.mp hb
      · exact absurd hp hpc
      · exact ih hl ha hb

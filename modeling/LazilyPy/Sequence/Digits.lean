import LazilyPy.Sequence.SeqCrdt
import Mathlib.Data.List.GetD

/-!
# Keys between keys

`_frac_between` goes over the digits of two keys until there is a gap. If the lower key is not a prefix of the upper
one, then it has found a key between them. If it is, the new key extends the lower one by a single digit, whatever the
upper one goes on with.
-/

namespace LazilyPy.Sequence

open Digits List

variable {lo hi rest x y : List ℕ}

/-! ## The loop -/

/-- The loop ends at a gap, at the latest past the ends of both keys. -/
theorem fracLoop_eq {fuel i : ℕ} (hlo : lo.length ≤ i + fuel) (hhi : hi.length ≤ i + fuel) :
    ∃ j ≥ i, 1 < hi.getD j 256 - lo.getD j 0 ∧
      fracLoop lo hi fuel i = lo.take j ++ [lo.getD j 0 + (hi.getD j 256 - lo.getD j 0) / 2] := by
  induction fuel generalizing i with
  | zero =>
    rw [Nat.add_zero] at hlo hhi
    refine ⟨i, le_rfl, ?_, rfl⟩
    rw [getD_eq_default lo 0 hlo, getD_eq_default hi 256 hhi]
    decide
  | succ fuel ih =>
    rw [fracLoop]
    split
    · next hgap => exact ⟨i, le_rfl, hgap, rfl⟩
    · obtain ⟨j, hj, hgap, heq⟩ := ih (i := i + 1) (by omega) (by omega)
      exact ⟨j, by omega, hgap, heq⟩

theorem lt_take_append {j m : ℕ} (h : lo.getD j 0 < m) : lo < lo.take j ++ [m] := by
  by_cases hj : j < lo.length
  · have hsplit : lo.take j ++ lo[j] :: lo.drop (j + 1) = lo := by
      rw [← drop_eq_getElem_cons hj, take_append_drop]
    rw [getD_eq_getElem lo 0 hj] at h
    have hlt := (append_lt_append_iff (lo.take j)).mpr (cons_lt_cons_iff.mpr (.inl h) : lo[j] :: lo.drop (j + 1) < [m])
    rwa [hsplit] at hlt
  · rw [take_of_length_le (not_lt.mp hj)]
    exact lt_append lo (cons_ne_nil m [])

/-- The new key is above the lower one. -/
theorem lt_fracBetween (lo hi : List ℕ) : lo < fracBetween lo hi := by
  have hlo : lo.length ≤ 0 + max lo.length hi.length := by omega
  have hhi : hi.length ≤ 0 + max lo.length hi.length := by omega
  obtain ⟨j, -, hgap, heq⟩ := fracLoop_eq hlo hhi
  rw [fracBetween, heq]
  exact lt_take_append (by omega)

/-- It is below the upper one, if the keys part. -/
theorem fracBetween_lt (h : Parts lo hi) : fracBetween lo hi < hi := by
  obtain ⟨c, a, b, lo', hi', rfl, rfl, hab⟩ := h
  have hlo : (c ++ a :: lo').getD c.length 0 = a := by simp
  have hhi : (c ++ b :: hi').getD c.length 256 = b := by simp
  have hat : (c ++ a :: lo').take c.length ++ [a + (b - a) / 2] < c ++ b :: hi' := by
    rw [take_left, append_lt_append_iff]
    exact cons_lt_cons_iff.mpr (.inl (by omega))
  have hloop : ∀ fuel i, i ≤ c.length → max (c ++ a :: lo').length (c ++ b :: hi').length ≤ i + fuel →
      fracLoop (c ++ a :: lo') (c ++ b :: hi') fuel i < c ++ b :: hi' := by
    intro fuel
    induction fuel with
    | zero =>
      intro i hi hfuel
      simp only [length_append, length_cons] at hfuel
      omega
    | succ fuel ih =>
      intro i hi hfuel
      rw [fracLoop]
      obtain hlt | rfl := hi.lt_or_eq
      · -- The keys agree here.
        have hsame : ¬ 1 < (c ++ b :: hi').getD i 256 - (c ++ a :: lo').getD i 0 := by
          simp [getElem?_append_left hlt, hlt]
        rw [if_neg hsame]
        exact ih (i + 1) hlt (by omega)
      · rw [hlo, hhi]
        split
        · exact hat
        · have hlo' : (c ++ a :: lo').length ≤ c.length + 1 + fuel := by omega
          have hhi' : (c ++ b :: hi').length ≤ c.length + 1 + fuel := by omega
          obtain ⟨j, hj, -, heq⟩ := fracLoop_eq hlo' hhi'
          obtain ⟨k, rfl⟩ := Nat.exists_eq_add_of_le hj
          rw [heq, Nat.add_assoc, take_length_add_append, Nat.add_comm 1 k, take_succ_cons,
            append_assoc, append_lt_append_iff]
          exact cons_lt_cons_iff.mpr (.inl hab)
  exact hloop _ 0 (Nat.zero_le _) (by simp)

/-- The digit that is put behind the lower key: half of the first digit above one that the upper key goes on with.
Behind its end there is 256. -/
def gap (rest : List ℕ) : ℕ :=
  ((rest.find? (1 < ·)).getD 256) / 2

/-- Past the end of the lower key the loop looks for a digit above one. -/
theorem fracLoop_append {fuel j : ℕ} (hfuel : rest.length ≤ j + fuel) :
    fracLoop lo (lo ++ rest) fuel (lo.length + j) = lo ++ [gap (rest.drop j)] := by
  have htake (j : ℕ) : lo.take (lo.length + j) = lo := take_of_length_le (Nat.le_add_right _ _)
  have hzero (j : ℕ) : lo.getD (lo.length + j) 0 = 0 := getD_eq_default lo 0 (Nat.le_add_right _ _)
  have hdigit (j : ℕ) : (lo ++ rest).getD (lo.length + j) 256 = rest.getD j 256 := by
    simp [getElem?_append_right]
  induction fuel generalizing j with
  | zero =>
    rw [Nat.add_zero] at hfuel
    rw [fracLoop, htake, hzero, hdigit, getD_eq_default rest 256 hfuel, drop_of_length_le hfuel]
    rfl
  | succ fuel ih =>
    rw [fracLoop, htake, hzero, hdigit]
    by_cases hj : j < rest.length
    · rw [drop_eq_getElem_cons hj, getD_eq_getElem rest 256 hj, gap, find?_cons]
      by_cases habove : 1 < rest[j]
      · simp [habove]
      · have hrest := ih (j := j + 1) (by omega)
        simpa [habove, gap, Nat.add_assoc] using hrest
    · rw [getD_eq_default rest 256 (not_lt.mp hj), drop_of_length_le (not_lt.mp hj)]
      rfl

/-- The upper key extends the lower one. -/
theorem fracBetween_append (lo rest : List ℕ) : fracBetween lo (lo ++ rest) = lo ++ [gap rest] := by
  have hloop : ∀ fuel i, i ≤ lo.length → (lo ++ rest).length ≤ i + fuel →
      fracLoop lo (lo ++ rest) fuel i = lo ++ [gap rest] := by
    intro fuel
    induction fuel with
    | zero =>
      intro i hi hfuel
      have hlen : lo.length + rest.length ≤ i := by simpa using hfuel
      obtain rfl : i = lo.length := by omega
      exact fracLoop_append (j := 0) (by omega)
    | succ fuel ih =>
      intro i hi hfuel
      have hlen : lo.length + rest.length ≤ i + (fuel + 1) := by simpa using hfuel
      obtain hlt | rfl := hi.lt_or_eq
      · have hsame : ¬ 1 < (lo ++ rest).getD i 256 - lo.getD i 0 := by
          simp [getElem?_append_left hlt, hlt]
        rw [fracLoop, if_neg hsame]
        exact ih (i + 1) hlt (by omega)
      · exact fracLoop_append (j := 0) (by omega)
  exact hloop _ 0 (Nat.zero_le _) (by simp)

end LazilyPy.Sequence

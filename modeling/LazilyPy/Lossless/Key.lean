import LazilyPy.Lib.Keys
import Mathlib.Data.List.GetD

/-!
# Sort keys of a lossless tree

Children stand in the order of fractional keys, and of peers where the keys are equal. `key_between` goes over the
digits of two keys, with zeros behind their ends.
-/

namespace LazilyPy.Lossless

open Digits List

@[ext] structure SortKey where
  frac : List ℕ
  peer : ℤ
  deriving DecidableEq

namespace SortKey

/-- The pair that `_cmp_sort` compares. -/
def toPair (k : SortKey) : List ℕ ×ₗ ℤ :=
  toLex (k.frac, k.peer)

theorem toPair_injective : Function.Injective toPair := by
  rintro ⟨f, p⟩ ⟨f', p'⟩ h
  cases h
  rfl

instance : LinearOrder SortKey :=
  LinearOrder.lift' toPair toPair_injective

variable {k k' : SortKey}

theorem lt_iff : k < k' ↔ k.frac < k'.frac ∨ k.frac = k'.frac ∧ k.peer < k'.peer :=
  Prod.Lex.toLex_lt_toLex

theorem frac_le (h : k ≤ k') : k.frac ≤ k'.frac := by
  obtain rfl | hlt := h.eq_or_lt
  · exact le_rfl
  · obtain hfrac | ⟨hfrac, -⟩ := lt_iff.mp hlt
    · exact hfrac.le
    · exact hfrac.le

end SortKey

/-- `key_between(lo, None)`. Behind the last digit there is room below 256. -/
def keyAbove : List ℕ → List ℕ
  | [] => [128]
  | a :: lo => if a + 1 < 256 then [(a + 256) / 2] else a :: keyAbove lo

/-- The loop of `key_between(lo, hi)` from index `i` on, with the rounds that are left. -/
def keyLoop (lo hi : List ℕ) : ℕ → ℕ → List ℕ
  | 0, _ => [128]
  | rounds + 1, i =>
    let a := lo.getD i 0
    let b := hi.getD i 0
    if a + 1 < b then [(a + b) / 2]
    else if a < b then a :: keyAbove (lo.drop (i + 1))
    else a :: keyLoop lo hi rounds (i + 1)

def keyBetween (lo hi : Option (List ℕ)) : List ℕ :=
  let lo := lo.getD []
  match hi with
  | none => keyAbove lo
  | some hi => keyLoop lo hi (lo.length + hi.length + 3) 0

def Minted (f : List ℕ) : Prop :=
  ∃ l d, f = l ++ [d] ∧ 0 < d

variable {lo hi f : List ℕ} {rounds i : ℕ}

/-! ## Keys do not end in zeros -/

theorem minted_singleton {d : ℕ} (h : 0 < d) : Minted [d] :=
  ⟨[], d, rfl, h⟩

theorem Minted.cons (h : Minted f) (a : ℕ) : Minted (a :: f) := by
  obtain ⟨l, d, rfl, hd⟩ := h
  exact ⟨a :: l, d, rfl, hd⟩

theorem minted_keyAbove (lo : List ℕ) : Minted (keyAbove lo) := by
  induction lo with
  | nil => exact minted_singleton (by decide)
  | cons a lo ih =>
    rw [keyAbove]
    split
    · exact minted_singleton (by omega)
    · exact ih.cons a

theorem minted_keyLoop : Minted (keyLoop lo hi rounds i) := by
  induction rounds generalizing i with
  | zero => exact minted_singleton (by decide)
  | succ rounds ih =>
    rw [keyLoop]
    split
    · exact minted_singleton (by omega)
    · split
      · exact (minted_keyAbove _).cons _
      · exact ih.cons _

theorem minted_keyBetween (lo hi : Option (List ℕ)) : Minted (keyBetween lo hi) := by
  cases hi with
  | none => exact minted_keyAbove _
  | some hi => exact minted_keyLoop

/-! ## Above the lower key -/

theorem lt_keyAbove (lo : List ℕ) : lo < keyAbove lo := by
  induction lo with
  | nil => exact nil_lt_cons 128 []
  | cons a lo ih =>
    rw [keyAbove]
    split
    · exact cons_lt_cons_iff.mpr (.inl (by omega))
    · exact cons_lt_cons_iff.mpr (.inr ⟨rfl, ih⟩)

theorem lt_keyLoop (h : lo.length ≤ i + rounds) : lo.drop i < keyLoop lo hi rounds i := by
  induction rounds generalizing i with
  | zero =>
    rw [drop_of_length_le (by omega)]
    exact nil_lt_cons 128 []
  | succ rounds ih =>
    rw [keyLoop]
    by_cases hi : i < lo.length
    · rw [drop_eq_getElem_cons hi, getD_eq_getElem lo 0 hi]
      split
      · exact cons_lt_cons_iff.mpr (.inl (by omega))
      · split
        · exact cons_lt_cons_iff.mpr (.inr ⟨rfl, lt_keyAbove _⟩)
        · exact cons_lt_cons_iff.mpr (.inr ⟨rfl, ih (by omega)⟩)
    · rw [drop_of_length_le (not_lt.mp hi)]
      split
      · exact nil_lt_cons _ _
      · split
        · exact nil_lt_cons _ _
        · exact nil_lt_cons _ _

/-- The new key is above the lower one. -/
theorem lt_keyBetween (lo : List ℕ) (hi : Option (List ℕ)) : lo < keyBetween (some lo) hi := by
  cases hi with
  | none => exact lt_keyAbove lo
  | some hi => exact lt_keyLoop (by omega : lo.length ≤ 0 + (lo.length + hi.length + 3))

/-! ## Below the upper key -/

/-- With zeros behind the ends, the first digit in which the keys differ is smaller in the lower one. -/
theorem keyLoop_lt {c hi' : List ℕ} {b : ℕ} (hsame : ∀ j < c.length, lo.getD j 0 = c.getD j 0)
    (hlt : lo.getD c.length 0 < b) (hi : i ≤ c.length) (hrounds : c.length < i + rounds) :
    keyLoop lo (c ++ b :: hi') rounds i < (c ++ b :: hi').drop i := by
  induction rounds generalizing i with
  | zero => omega
  | succ rounds ih =>
    rw [keyLoop]
    obtain hlt' | rfl := hi.lt_or_eq
    · have hlen : i < (c ++ b :: hi').length := by simp; omega
      have hdigit : (c ++ b :: hi').getD i 0 = lo.getD i 0 := by
        rw [hsame i hlt', getD_append c _ 0 i hlt']
      have hgap : ¬ lo.getD i 0 + 1 < lo.getD i 0 := by omega
      rw [hdigit, if_neg hgap, if_neg (lt_irrefl _), drop_eq_getElem_cons hlen, ← getD_eq_getElem _ 0 hlen, hdigit]
      exact cons_lt_cons_iff.mpr (.inr ⟨rfl, ih hlt' (by omega)⟩)
    · have hdigit : (c ++ b :: hi').getD c.length 0 = b := by simp
      rw [hdigit, drop_left]
      split
      · exact cons_lt_cons_iff.mpr (.inl (by omega))
      · exact cons_lt_cons_iff.mpr (.inl hlt)

/-- A key that does not end in a zero has a first digit that is not zero. -/
theorem Minted.split (h : Minted f) : ∃ k b f', f = replicate k 0 ++ b :: f' ∧ 0 < b := by
  obtain ⟨l, d, rfl, hd⟩ := h
  induction l with
  | nil => exact ⟨0, d, [], rfl, hd⟩
  | cons a l ih =>
    obtain ⟨k, b, f', heq, hb⟩ := ih
    by_cases ha : 0 < a
    · exact ⟨0, a, l ++ [d], rfl, ha⟩
    · obtain rfl : a = 0 := by omega
      exact ⟨k + 1, b, f', by rw [cons_append, heq]; rfl, hb⟩

/-- What an upper key goes on with behind a prefix of it does not end in a zero either. -/
theorem Minted.of_append {rest : List ℕ} (h : Minted (lo ++ rest)) (hne : rest ≠ []) : Minted rest := by
  obtain ⟨l, d, heq, hd⟩ := h
  obtain rfl | ⟨rest, e, rfl⟩ := eq_nil_or_concat rest
  · exact absurd rfl hne
  · rw [concat_eq_append, ← append_assoc] at heq
    obtain rfl : e = d := by simpa using (append_inj' heq rfl).2
    exact ⟨rest, e, concat_eq_append, hd⟩

/-- The new key is below the upper one, if the lower one is. -/
theorem keyBetween_lt (h : lo < hi) (hminted : Minted hi) : keyBetween (some lo) (some hi) < hi := by
  have hsplit : ∃ c b hi', hi = c ++ b :: hi' ∧ (∀ j < c.length, lo.getD j 0 = c.getD j 0) ∧
      lo.getD c.length 0 < b := by
    obtain ⟨rest, rfl⟩ | ⟨c, a, b, lo', hi', rfl, rfl, hlt⟩ := prefix_or_parts h.le
    · have hne : rest ≠ [] := by
        rintro rfl
        rw [append_nil] at h
        exact lt_irrefl _ h
      obtain ⟨k, b, hi', rfl, hb⟩ := (hminted.of_append hne).split
      refine ⟨lo ++ replicate k 0, b, hi', (append_assoc _ _ _).symm, fun j hj => ?_, ?_⟩
      · by_cases hj' : j < lo.length
        · rw [getD_append _ _ 0 j hj']
        · rw [getD_eq_default _ 0 (not_lt.mp hj'), getD_append_right _ _ 0 j (not_lt.mp hj')]
          simp
      · rw [getD_eq_default _ 0 (by simp)]
        exact hb
    · refine ⟨c, b, hi', rfl, fun j hj => getD_append _ _ 0 j hj, ?_⟩
      simpa using hlt
  obtain ⟨c, b, hi', rfl, hsame, hlt⟩ := hsplit
  have hrounds : c.length < 0 + (lo.length + (c ++ b :: hi').length + 3) := by
    rw [length_append]
    omega
  exact keyLoop_lt hsame hlt (Nat.zero_le _) hrounds

/-- Below the first key there is always room. -/
theorem keyBetween_none_lt (hminted : Minted hi) : keyBetween none (some hi) < hi := by
  have hlt : [] < hi := by
    obtain ⟨l, d, rfl, -⟩ := hminted
    cases l with
    | nil => exact nil_lt_cons d []
    | cons a l => exact nil_lt_cons a (l ++ [d])
  exact keyBetween_lt hlt hminted

/-! ## Between equal keys -/

theorem keyLoop_self_of_le (h : f.length ≤ i) : keyLoop f f rounds i = replicate rounds 0 ++ [128] := by
  induction rounds generalizing i with
  | zero => rfl
  | succ rounds ih =>
    rw [keyLoop, getD_eq_default f 0 h, ih (by omega)]
    rfl

theorem keyLoop_self (hi : i ≤ f.length) (h : f.length ≤ i + rounds) :
    keyLoop f f rounds i = f.drop i ++ (replicate (i + rounds - f.length) 0 ++ [128]) := by
  induction rounds generalizing i with
  | zero =>
    obtain rfl : i = f.length := by omega
    rw [keyLoop_self_of_le le_rfl, drop_length, Nat.add_zero, Nat.sub_self]
    rfl
  | succ rounds ih =>
    obtain hlt | rfl := hi.lt_or_eq
    · have hgap : ¬ f.getD i 0 + 1 < f.getD i 0 := by omega
      have hrounds : i + 1 + rounds - f.length = i + (rounds + 1) - f.length := by omega
      rw [keyLoop, if_neg hgap, if_neg (lt_irrefl _), ih hlt (by omega), drop_eq_getElem_cons hlt,
        getD_eq_getElem f 0 hlt, hrounds]
      rfl
    · rw [keyLoop_self_of_le le_rfl, drop_length, Nat.add_sub_cancel_left]
      rfl

def tieKey (f : List ℕ) : List ℕ :=
  f ++ (replicate (f.length + 3) 0 ++ [128])

/-- Between two equal keys the loop runs to its end. -/
theorem keyBetween_self (f : List ℕ) : keyBetween (some f) (some f) = tieKey f := by
  have hle : f.length ≤ 0 + (f.length + f.length + 3) := by omega
  have hloop := keyLoop_self (Nat.zero_le _) hle
  have hrounds : 0 + (f.length + f.length + 3) - f.length = f.length + 3 := by omega
  rw [hrounds] at hloop
  exact hloop

end LazilyPy.Lossless

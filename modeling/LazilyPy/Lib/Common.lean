import Mathlib.Data.List.Sublists
import Mathlib.Order.Bounds.Basic
import Mathlib.Order.MinMax

/-!
# Two lists compared

Two lists are walked together, for as long as both of them last, up to entries that are not related. The longest common
subsequence of two lists with a last entry each is found from the longest ones without these entries.
-/

/-! ### The first place at which they differ -/

section Walk

open List

variable {α β : Type}

/-- Entries at one place, before the `n`-th, are related. -/
def RelatedBelow (R : α → β → Prop) (l : List α) (l' : List β) (n : ℕ) : Prop :=
  ∀ i < n, ∀ a b, l[i]? = some a → l'[i]? = some b → R a b

structure FirstUnrelated (R : α → β → Prop) (l : List α) (l' : List β) (i : ℕ) (a : α) (b : β) : Prop where
  left : l[i]? = some a
  right : l'[i]? = some b
  unrelated : ¬ R a b
  before : RelatedBelow R l l' i

variable {R S : α → β → Prop} {l : List α} {l' : List β} {i j n : ℕ} {a a' : α} {b b' : β}

theorem RelatedBelow.mono (h : RelatedBelow R l l' n) (hle : i ≤ n) : RelatedBelow R l l' i :=
  fun j hj => h j (by omega)

/-- Entries that are related follow related entries. -/
theorem relatedBelow_cons_iff : RelatedBelow R (a :: l) (b :: l') (n + 1) ↔ R a b ∧ RelatedBelow R l l' n := by
  constructor
  · intro h
    refine ⟨h 0 (by omega) a b rfl rfl, fun i hi x y hx hy => ?_⟩
    exact h (i + 1) (by omega) x y hx hy
  · rintro ⟨hhead, htail⟩ i hi x y hx hy
    cases i with
    | zero =>
      cases hx
      cases hy
      exact hhead
    | succ i => exact htail i (by omega) x y hx hy

theorem FirstUnrelated.head (h : ¬ R a b) : FirstUnrelated R (a :: l) (b :: l') 0 a b where
  left := rfl
  right := rfl
  unrelated := h
  before i hi := absurd hi (by omega)

theorem FirstUnrelated.cons (hhead : R a b) (h : FirstUnrelated R l l' i a' b') :
    FirstUnrelated R (a :: l) (b :: l') (i + 1) a' b' where
  left := h.left
  right := h.right
  unrelated := h.unrelated
  before := relatedBelow_cons_iff.mpr ⟨hhead, h.before⟩

/-- The first entries that are not related in one way are the first ones in another. -/
theorem FirstUnrelated.imp (h : FirstUnrelated R l l' i a b) (hnot : ¬ S a b)
    (hbefore : RelatedBelow S l l' i) : FirstUnrelated S l l' i a b where
  left := h.left
  right := h.right
  unrelated := hnot
  before := hbefore

/-- Lists of one length with equal entries are equal. -/
theorem eq_of_relatedBelow {l l' : List α} (hlen : l.length = l'.length)
    (h : RelatedBelow Eq l l' l.length) : l = l' := by
  refine ext_getElem hlen fun i hi hi' => ?_
  exact h i hi _ _ (getElem?_eq_getElem hi) (getElem?_eq_getElem hi')

end Walk

/-! ### Common subsequences -/

def commonLengths {α : Type} (s t : List α) : Set ℕ :=
  {n | ∃ l : List α, l.Sublist s ∧ l.Sublist t ∧ l.length = n}

section Common

open List

variable {α : Type} {s t : List α} {x y : α} {m n : ℕ}

theorem commonLengths_comm (s t : List α) : commonLengths s t = commonLengths t s := by
  ext n
  constructor
  · rintro ⟨l, hs, ht, hlen⟩
    exact ⟨l, ht, hs, hlen⟩
  · rintro ⟨l, ht, hs, hlen⟩
    exact ⟨l, hs, ht, hlen⟩

theorem le_length_of_mem_commonLengths (h : n ∈ commonLengths s t) : n ≤ s.length ∧ n ≤ t.length := by
  obtain ⟨l, hs, ht, rfl⟩ := h
  exact ⟨hs.length_le, ht.length_le⟩

theorem isGreatest_commonLengths_nil (t : List α) : IsGreatest (commonLengths [] t) 0 := by
  refine ⟨⟨[], Sublist.refl [], nil_sublist t, rfl⟩, fun n hn => ?_⟩
  exact (le_length_of_mem_commonLengths hn).1

theorem sublist_concat_iff {l : List α} :
    l.Sublist (s ++ [x]) ↔ l.Sublist s ∨ ∃ l', l = l' ++ [x] ∧ l'.Sublist s := by
  constructor
  · intro h
    obtain ⟨l', e, rfl, hs, he⟩ := sublist_append_iff.mp h
    obtain rfl | rfl := sublist_singleton.mp he
    · exact .inl (by rwa [append_nil])
    · exact .inr ⟨l', rfl, hs⟩
  · rintro (h | ⟨l', rfl, h⟩)
    · exact h.trans (sublist_append_left s [x])
    · exact h.append (Sublist.refl [x])

/-- A last entry that both lists have is in a longest common subsequence. -/
theorem IsGreatest.concat_self (h : IsGreatest (commonLengths s t) n) (x : α) :
    IsGreatest (commonLengths (s ++ [x]) (t ++ [x])) (n + 1) := by
  obtain ⟨⟨l, hs, ht, rfl⟩, hmax⟩ := h
  refine ⟨⟨l ++ [x], hs.append (Sublist.refl _), ht.append (Sublist.refl _), length_append⟩, ?_⟩
  rintro m ⟨l', hs', ht', rfl⟩
  -- without its last entry the subsequence is one of the lists without theirs
  have hinit : l'.dropLast.Sublist s ∧ l'.dropLast.Sublist t := by
    have hpre {u : List α} (hu : l'.Sublist (u ++ [x])) : l'.dropLast.Sublist u := by
      obtain hu | ⟨l'', rfl, hu⟩ := sublist_concat_iff.mp hu
      · exact (dropLast_sublist l').trans hu
      · rwa [dropLast_concat]
    exact ⟨hpre hs', hpre ht'⟩
  have hle := hmax ⟨_, hinit.1, hinit.2, rfl⟩
  rw [length_dropLast] at hle
  omega

/-- Of two last entries that differ, one is not in it. -/
theorem IsGreatest.concat_of_ne (hxy : x ≠ y) (hm : IsGreatest (commonLengths (s ++ [x]) t) m)
    (hn : IsGreatest (commonLengths s (t ++ [y])) n) :
    IsGreatest (commonLengths (s ++ [x]) (t ++ [y])) (max m n) := by
  constructor
  · obtain hmax | hmax := max_choice m n
    · obtain ⟨l, hs, ht, hlen⟩ := hm.1
      exact ⟨l, hs, ht.trans (sublist_append_left t [y]), hlen.trans hmax.symm⟩
    · obtain ⟨l, hs, ht, hlen⟩ := hn.1
      exact ⟨l, hs.trans (sublist_append_left s [x]), ht, hlen.trans hmax.symm⟩
  · rintro k ⟨l, hs, ht, rfl⟩
    obtain hs' | ⟨l', rfl, -⟩ := sublist_concat_iff.mp hs
    · exact le_max_of_le_right (hn.2 ⟨l, hs', ht, rfl⟩)
    · obtain ht' | ⟨l'', heq, -⟩ := sublist_concat_iff.mp ht
      · exact le_max_of_le_left (hm.2 ⟨_, hs, ht', rfl⟩)
      · have hlast : x = y := by simpa using (append_inj' heq rfl).2
        exact absurd hlast hxy

end Common

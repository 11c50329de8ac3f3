import Mathlib.Data.List.Sort

/-!
# Stable sorting

Rows are sorted by a key, and rows of one key keep the order in which they stand. One row among others goes to where
its key and its place among the rows of that key say.
-/

open List

variable {α ι κ : Type} [LinearOrder κ] {key : α → κ} {l u v : List α} {a b c x : α}

abbrev sortBy (key : α → κ) (l : List α) : List α :=
  l.insertionSort fun a b => key a ≤ key b

/-- The key of `a` is smaller, or the keys are equal and `a` stands first. -/
def Before (key : α → κ) (l : List α) (a b : α) : Prop :=
  key a < key b ∨ key a = key b ∧ [a, b].Sublist l

/-! ## Pairs of rows -/

theorem mem_left_of_pair (hl : (u ++ b :: v).Nodup) (h : [a, b].Sublist (u ++ b :: v)) : a ∈ u := by
  induction u with
  | nil =>
    have hb : b ∉ v := (nodup_cons.mp hl).1
    cases h with
    | cons _ h => exact absurd (h.subset (by simp)) hb
    | cons_cons _ h => exact absurd (h.subset (by simp)) hb
  | cons d u ih =>
    cases h with
    | cons _ h => exact mem_cons_of_mem d (ih (nodup_cons.mp hl).2 h)
    | cons_cons _ h => exact mem_cons_self

theorem mem_right_of_pair (hl : (u ++ a :: v).Nodup) (h : [a, b].Sublist (u ++ a :: v)) : b ∈ v := by
  induction u with
  | nil =>
    cases h with
    | cons _ h => exact absurd (h.subset mem_cons_self) (nodup_cons.mp hl).1
    | cons_cons _ h => exact h.subset mem_cons_self
  | cons d u ih =>
    obtain ⟨hd, hl⟩ := nodup_cons.mp hl
    cases h with
    | cons _ h => exact ih hl h
    | cons_cons _ h => exact absurd (mem_append_right u mem_cons_self) hd

theorem not_pair_symm (hl : l.Nodup) (h : [a, b].Sublist l) : ¬ [b, a].Sublist l := by
  intro h'
  obtain ⟨u, v, rfl⟩ := append_of_mem (h.subset mem_cons_self)
  have hu := mem_left_of_pair hl h'
  have hv := mem_right_of_pair hl h
  exact (disjoint_of_nodup_append hl) hu (mem_cons_of_mem a hv)

theorem pair_trans (hl : l.Nodup) (h : [a, b].Sublist l) (h' : [b, c].Sublist l) : [a, c].Sublist l := by
  obtain ⟨u, v, rfl⟩ := append_of_mem (h'.subset mem_cons_self)
  have ha := singleton_sublist.mpr (mem_left_of_pair hl h)
  have hc := singleton_sublist.mpr (mem_right_of_pair hl h')
  exact ha.append (hc.trans (sublist_cons_self b v))

namespace Before

theorem le (h : Before key l a b) : key a ≤ key b := by
  obtain hlt | ⟨heq, -⟩ := h
  · exact hlt.le
  · exact heq.le

theorem trans (hl : l.Nodup) (h : Before key l a b) (h' : Before key l b c) : Before key l a c := by
  obtain hlt | ⟨heq, hpair⟩ := h
  · exact .inl (hlt.trans_le h'.le)
  · obtain hlt' | ⟨heq', hpair'⟩ := h'
    · exact .inl (heq.trans_lt hlt')
    · exact .inr ⟨heq.trans heq', pair_trans hl hpair hpair'⟩

theorem asymm (hl : l.Nodup) (h : Before key l a b) : ¬ Before key l b a := by
  intro h'
  have heq : key a = key b := le_antisymm h.le h'.le
  have hpair := (h.resolve_left heq.not_lt).2
  exact not_pair_symm hl hpair (h'.resolve_left heq.symm.not_lt).2

theorem mono {l' : List α} (h : Before key l a b) (hl : [a, b].Sublist l → [a, b].Sublist l') : Before key l' a b :=
  h.imp_right fun hpair => ⟨hpair.1, hl hpair.2⟩

end Before

/-! ## The sorted list -/

/-- A row that stands first goes before the rows of its key. -/
theorem pairwise_orderedInsert {m : List α} (hmem : ∀ b ∈ m, b ∈ l) (hm : m.Pairwise (Before key (a :: l))) :
    (m.orderedInsert (fun a b => key a ≤ key b) a).Pairwise (Before key (a :: l)) := by
  induction m with
  | nil => exact pairwise_singleton _ a
  | cons b m ih =>
    obtain ⟨hb, hm'⟩ := pairwise_cons.mp hm
    rw [orderedInsert_cons]
    split
    · next hle =>
      refine pairwise_cons.mpr ⟨fun c hc => ?_, hm⟩
      have hac : key a ≤ key c := by
        obtain rfl | hc := mem_cons.mp hc
        · exact hle
        · exact hle.trans (hb c hc).le
      obtain hlt | heq := hac.lt_or_eq
      · exact .inl hlt
      · exact .inr ⟨heq, (singleton_sublist.mpr (hmem c hc)).cons_cons a⟩
    · next hnot =>
      have hrest := ih (fun c hc => hmem c (mem_cons_of_mem b hc)) hm'
      refine pairwise_cons.mpr ⟨fun c hc => ?_, hrest⟩
      obtain rfl | hc := (mem_orderedInsert _).mp hc
      · exact .inl (not_le.mp hnot)
      · exact hb c hc

theorem pairwise_sortBy (key : α → κ) (l : List α) : (sortBy key l).Pairwise (Before key l) := by
  induction l with
  | nil => exact Pairwise.nil
  | cons a l ih =>
    refine pairwise_orderedInsert (fun b hb => (mem_insertionSort _).mp hb) ?_
    exact ih.imp fun h => h.mono fun hpair => hpair.cons a

/-- The sorted list is the one in which every row is before those behind it. -/
theorem sortBy_eq {m : List α} (hl : l.Nodup) (hperm : m.Perm l) (hm : m.Pairwise (Before key l)) :
    sortBy key l = m := by
  have hperm' : (sortBy key l).Perm m := (perm_insertionSort _ l).trans hperm.symm
  exact hperm'.eq_of_pairwise (fun a b _ _ h h' => absurd h' (h.asymm hl)) (pairwise_sortBy key l) hm

theorem pair_filter {p : α → Bool} (ha : p a = true) (hb : p b = true) (h : [a, b].Sublist l) :
    [a, b].Sublist (l.filter p) := by
  have hfilter := h.filter p
  rwa [filter_cons_of_pos ha, filter_cons_of_pos hb] at hfilter

theorem sortBy_filter (hl : l.Nodup) (p : α → Bool) : sortBy key (l.filter p) = (sortBy key l).filter p := by
  refine sortBy_eq (hl.filter p) ((perm_insertionSort _ l).filter p) ?_
  refine ((pairwise_sortBy key l).filter p).imp_of_mem fun ha hb h => ?_
  exact h.mono (pair_filter (mem_filter.mp ha).2 (mem_filter.mp hb).2)

/-! ## One row among the others -/

variable [DecidableEq ι] {name : α → ι}

omit [DecidableEq ι] in
/-- Lists of rows are equal if their names are. -/
theorem eq_of_map_eq (hl : (l.map name).Nodup) {m m' : List α} (hm : ∀ a ∈ m, a ∈ l) (hm' : ∀ a ∈ m', a ∈ l)
    (h : m.map name = m'.map name) : m = m' := by
  induction m generalizing m' with
  | nil => exact (map_eq_nil_iff.mp h.symm).symm
  | cons a m ih =>
    cases m' with
    | nil => cases h
    | cons a' m' =>
      obtain ⟨hname, hrest⟩ := cons_eq_cons.mp h
      have ha := hm a mem_cons_self
      have ha' := hm' a' mem_cons_self
      rw [inj_on_of_nodup_map hl ha ha' hname,
        ih (fun b hb => hm b (mem_cons_of_mem a hb)) (fun b hb => hm' b (mem_cons_of_mem a' hb)) hrest]

/-- Where one row goes among the others: behind `A` and before `B` exactly if it is behind the last row of `A` and
before the first row of `B`. -/
theorem map_sortBy_eq_iff {A B : List α} (hl : (l.map name).Nodup) (hx : x ∈ l)
    (hothers : sortBy key (l.filter fun a => name a ≠ name x) = A ++ B) :
    (sortBy key l).map name = A.map name ++ name x :: B.map name ↔
      (∀ a ∈ A.getLast?, Before key l a x) ∧ ∀ b ∈ B.head?, Before key l x b := by
  have hnd : l.Nodup := .of_map name hl
  have hmem : ∀ a, a ∈ A ++ B ↔ a ∈ l ∧ name a ≠ name x := by
    intro a
    rw [← hothers, mem_insertionSort, mem_filter, decide_eq_true_iff]
  have hmem' : ∀ a, a ∈ A ++ x :: B ↔ a ∈ l := by
    intro a
    rw [mem_append, mem_cons, or_left_comm, ← mem_append, hmem]
    constructor
    · rintro (rfl | ⟨ha, -⟩)
      · exact hx
      · exact ha
    · intro ha
      by_cases hname : name a = name x
      · exact .inl (inj_on_of_nodup_map hl ha hx hname)
      · exact .inr ⟨ha, hname⟩
  have hnames : (sortBy key l).map name = A.map name ++ name x :: B.map name ↔ sortBy key l = A ++ x :: B := by
    rw [← map_cons, ← map_append]
    exact ⟨eq_of_map_eq hl (fun a ha => (mem_insertionSort _).mp ha) fun a ha => (hmem' a).mp ha, fun h => h ▸ rfl⟩
  rw [hnames]
  constructor
  · intro h
    have hsorted := pairwise_sortBy key l
    rw [h, pairwise_append, pairwise_cons] at hsorted
    obtain ⟨-, ⟨hB, -⟩, hA⟩ := hsorted
    exact ⟨fun a ha => hA a (mem_of_getLast? ha) x mem_cons_self, fun b hb => hB b (mem_of_head? hb)⟩
  · rintro ⟨hlast, hhead⟩
    have hsorted : (A ++ B).Pairwise (Before key l) := by
      rw [← hothers]
      exact (pairwise_sortBy key _).imp fun h => h.mono fun hpair => hpair.trans filter_sublist
    obtain ⟨hA, hB, hAB⟩ := pairwise_append.mp hsorted
    have hbefore : ∀ a ∈ A, Before key l a x := by
      intro a ha
      obtain rfl | ⟨A', z, rfl⟩ := eq_nil_or_concat A
      · cases ha
      · rw [concat_eq_append] at hlast hA ha
        have hz : Before key l z x := hlast z getLast?_concat
        obtain ha | ha := mem_append.mp ha
        · exact ((pairwise_append.mp hA).2.2 a ha z (mem_singleton_self z)).trans hnd hz
        · rwa [mem_singleton.mp ha]
    have hbehind : ∀ b ∈ B, Before key l x b := by
      intro b hb
      cases B with
      | nil => cases hb
      | cons z B =>
        have hz : Before key l x z := hhead z rfl
        obtain rfl | hb := mem_cons.mp hb
        · exact hz
        · exact hz.trans hnd ((pairwise_cons.mp hB).1 b hb)
    have hnodup : (A ++ x :: B).Nodup := by
      rw [nodup_middle, nodup_cons, hmem, ← hothers]
      exact ⟨fun h => h.2 rfl, (perm_insertionSort _ _).nodup_iff.mpr (hnd.filter _)⟩
    refine sortBy_eq hnd ((perm_ext_iff_of_nodup hnodup hnd).mpr hmem') ?_
    refine pairwise_append.mpr ⟨hA, pairwise_cons.mpr ⟨hbehind, hB⟩, fun a ha b hb => ?_⟩
    obtain rfl | hb := mem_cons.mp hb
    · exact hbefore a ha
    · exact hAB a ha b hb

omit [DecidableEq ι] [LinearOrder κ] in
/-- Rows stand in the order of their names. -/
theorem pair_map_iff (hl : (l.map name).Nodup) (ha : a ∈ l) (hb : b ∈ l) :
    [name a, name b].Sublist (l.map name) ↔ [a, b].Sublist l := by
  refine ⟨fun h => ?_, fun h => h.map name⟩
  obtain ⟨u, v, rfl⟩ := append_of_mem ha
  rw [map_append, map_cons] at hl h
  obtain ⟨b', hb', hname⟩ := mem_map.mp (mem_right_of_pair hl h)
  obtain rfl : b' = b := by
    rw [← map_cons, ← map_append] at hl
    exact inj_on_of_nodup_map hl (mem_append_right u (mem_cons_of_mem a hb')) hb hname
  exact ((singleton_sublist.mpr hb').cons_cons a).trans (sublist_append_right u _)

/-! ## A list with one entry behind another one -/

section Behind

variable {β : Type} [DecidableEq β] {anchor y : β} {m m' : List β}

/-- The list with `y` right behind `anchor`. -/
def behind (anchor y : β) (m : List β) : List β :=
  m.flatMap fun b => if b = anchor then [anchor, y] else [b]

theorem behind_of_notMem (hm : anchor ∉ m) : behind anchor y m = m := by
  induction m with
  | nil => rfl
  | cons b m ih =>
    rw [mem_cons, not_or] at hm
    rw [behind, flatMap_cons, if_neg (Ne.symm hm.1)]
    exact congrArg (b :: ·) (ih hm.2)

theorem behind_split (hm : anchor ∉ m) (hm' : anchor ∉ m') :
    behind anchor y (m ++ anchor :: m') = m ++ anchor :: y :: m' := by
  rw [behind, flatMap_append, flatMap_cons, if_pos rfl]
  show behind anchor y m ++ (anchor :: y :: behind anchor y m') = _
  rw [behind_of_notMem hm, behind_of_notMem hm']

end Behind

/-! ## A row among the others, behind an anchor -/

omit [DecidableEq ι] in
/-- What is around a row of a list whose rows have different names. -/
theorem split_at_name {k : ι} (hl : (l.map name).Nodup) (h : k ∈ l.map name) :
    ∃ P a Q, l = P ++ a :: Q ∧ name a = k ∧ ∀ b ∈ P ++ Q, name b ≠ k := by
  obtain ⟨a, ha, hname⟩ := mem_map.mp h
  obtain ⟨P, Q, rfl⟩ := append_of_mem ha
  rw [map_append, map_cons, nodup_middle, nodup_cons, ← map_append] at hl
  refine ⟨P, a, Q, rfl, hname, fun b hb heq => hl.1 ?_⟩
  rw [hname, ← heq]
  exact mem_map_of_mem hb

theorem dropWhile_at_name {k : ι} {P Q : List α} (ha : name a = k) (hP : ∀ b ∈ P, name b ≠ k) :
    (P ++ a :: Q).dropWhile (fun b => name b ≠ k) = a :: Q := by
  rw [dropWhile_append_of_pos fun b hb => decide_eq_true (hP b hb)]
  exact dropWhile_cons_of_neg (by simpa using ha)

/-- The names of the others with one name put behind the anchor's. -/
theorem behind_others {P Q : List α} (ha : name a ≠ name x) (h : ∀ b ∈ P ++ Q, name b ≠ name a) :
    behind (name a) (name x) (((P ++ a :: Q).map name).filter (· ≠ name x)) =
      (P.filter (fun b => name b ≠ name x) ++ [a]).map name ++
        name x :: (Q.filter fun b => name b ≠ name x).map name := by
  have hnot : ∀ R : List α, (∀ b ∈ R, b ∈ P ++ Q) → name a ∉ (R.filter fun b => name b ≠ name x).map name := by
    intro R hR hin
    obtain ⟨b, hb, hname⟩ := mem_map.mp hin
    exact h b (hR b (mem_filter.mp hb).1) hname
  have hP := hnot P fun b hb => mem_append_left Q hb
  have hQ := hnot Q fun b hb => mem_append_right P hb
  have hfilter : ((P ++ a :: Q).map name).filter (· ≠ name x) =
      (P.filter fun b => name b ≠ name x).map name ++ name a :: (Q.filter fun b => name b ≠ name x).map name := by
    have hmap : ((P ++ a :: Q).map name).filter (· ≠ name x) =
        ((P ++ a :: Q).filter fun b => name b ≠ name x).map name := filter_map
    rw [hmap, filter_append, filter_cons_of_pos (by simpa using ha), map_append, map_cons]
  rw [hfilter, behind_split hP hQ, map_append, map_singleton, append_assoc, singleton_append]

import Mathlib.Data.List.InsertIdx
import LazilyPy.Lib.StableSort

/-!
# Moving one element of a list

An element is taken out of a list without duplicates, and put in again at an index. The others keep their order, and
the index says between which of them it comes to be.
-/

open List

variable {α : Type} {a b : α} {l m m' : List α} {i : ℕ}

/-! ## Splitting at an element -/

theorem insertIdx_split (m m' : List α) (a : α) : (m ++ m').insertIdx m.length a = m ++ a :: m' := by
  induction m with
  | nil => rfl
  | cons b m ih => exact congrArg (b :: ·) ih

variable [DecidableEq α]

theorem idxOf_split (ha : a ∉ m) : (m ++ a :: m').idxOf a = m.length := by
  rw [idxOf_append_of_notMem ha, idxOf_cons_self, Nat.add_zero]

theorem erase_split (ha : a ∉ m) : (m ++ a :: m').erase a = m ++ m' := by
  rw [erase_append_right _ ha, erase_cons_head]

/-- A list without duplicates, once an element before another one has been taken out of it. -/
theorem idxOf_erase (ha : a ∈ l) (hb : b ∈ l) (hne : b ≠ a) :
    (l.erase a).idxOf b = if l.idxOf a < l.idxOf b then l.idxOf b - 1 else l.idxOf b := by
  obtain ⟨m, m', rfl, ham⟩ := eq_append_cons_of_mem ha
  rw [erase_split ham, idxOf_split ham]
  by_cases hbm : b ∈ m
  · have hlt := idxOf_lt_length_of_mem hbm
    rw [idxOf_append_of_mem hbm, idxOf_append_of_mem hbm, if_neg hlt.not_gt]
  · rw [idxOf_append_of_notMem hbm, idxOf_append_of_notMem hbm, idxOf_cons_ne m' (Ne.symm hne), if_pos (by omega)]
    omega

/-! ## Moving an element -/

def ahead (anchor y : α) (m : List α) : List α :=
  m.flatMap fun b => if b = anchor then [y, anchor] else [b]

theorem ahead_of_notMem {anchor y : α} (hm : anchor ∉ m) : ahead anchor y m = m := by
  induction m with
  | nil => rfl
  | cons b m ih =>
    rw [mem_cons, not_or] at hm
    rw [ahead, flatMap_cons, if_neg (Ne.symm hm.1)]
    exact congrArg (b :: ·) (ih hm.2)

theorem ahead_split {anchor y : α} (hm : anchor ∉ m) (hm' : anchor ∉ m') :
    ahead anchor y (m ++ anchor :: m') = m ++ y :: anchor :: m' := by
  rw [ahead, flatMap_append, flatMap_cons, if_pos rfl]
  show ahead anchor y m ++ (y :: anchor :: ahead anchor y m') = _
  rw [ahead_of_notMem hm, ahead_of_notMem hm']

def reposition (a : α) (i : ℕ) (l : List α) : List α :=
  (l.erase a).insertIdx i a

theorem perm_reposition (ha : a ∈ l) (hi : i < l.length) : (reposition a i l).Perm l := by
  have hle : i ≤ (l.erase a).length := by
    rw [length_erase_of_mem ha]
    omega
  exact (perm_insertIdx a (l.erase a) hle).trans (perm_cons_erase ha).symm

/-- The others keep their order. -/
theorem erase_reposition (hl : l.Nodup) (i : ℕ) : (reposition a i l).erase a = l.erase a := by
  have hnot : a ∉ l.erase a := hl.not_mem_erase
  rw [reposition]
  generalize l.erase a = rest at hnot
  induction rest generalizing i with
  | nil =>
    cases i with
    | zero => simp
    | succ i => simp
  | cons b rest ih =>
    rw [mem_cons, not_or] at hnot
    cases i with
    | zero => simp
    | succ i => rw [insertIdx_succ_cons, erase_cons_tail (by simpa using Ne.symm hnot.1), ih i hnot.2]

theorem idxOf_reposition (hl : l.Nodup) (ha : a ∈ l) (hi : i < l.length) : (reposition a i l).idxOf a = i := by
  have hnot : a ∉ l.erase a := hl.not_mem_erase
  have hle : i ≤ (l.erase a).length := by
    rw [length_erase_of_mem ha]
    omega
  have hsplit : reposition a i l = (l.erase a).take i ++ a :: (l.erase a).drop i := by
    have htake : ((l.erase a).take i).length = i := length_take_of_le hle
    conv_lhs => rw [reposition, ← take_append_drop i (l.erase a)]
    rw [← insertIdx_split, htake]
  rw [hsplit, idxOf_split fun hmem => hnot (mem_of_mem_take hmem), length_take_of_le hle]

theorem reposition_idxOf (ha : a ∈ l) : reposition a (l.idxOf a) l = l := by
  obtain ⟨m, m', rfl, ham⟩ := eq_append_cons_of_mem ha
  rw [reposition, erase_split ham, idxOf_split ham, insertIdx_split]

/-- Only an element that is put where it has been leaves the list as it is. -/
theorem reposition_eq_self_iff (hl : l.Nodup) (ha : a ∈ l) (hi : i < l.length) :
    reposition a i l = l ↔ l.idxOf a = i := by
  constructor
  · intro h
    rw [← idxOf_reposition hl ha hi, h]
  · rintro rfl
    exact reposition_idxOf ha

section Anchor

variable (hl : l.Nodup) (hb : b ∈ l) (hne : b ≠ a)

include hl hb hne

theorem split_erase : ∃ m m', l.erase a = m ++ b :: m' ∧ b ∉ m ∧ b ∉ m' ∧ (l.erase a).idxOf b = m.length := by
  have hmem : b ∈ l.erase a := (mem_erase_of_ne hne).mpr hb
  obtain ⟨m, m', hsplit, hm⟩ := eq_append_cons_of_mem hmem
  have hnodup : (m ++ b :: m').Nodup := hsplit ▸ hl.erase a
  have hm' : b ∉ m' := (nodup_cons.mp (nodup_append.mp hnodup).2.1).1
  exact ⟨m, m', hsplit, hm, hm', by rw [hsplit, idxOf_split hm]⟩

theorem reposition_ahead : reposition a ((l.erase a).idxOf b) l = ahead b a (l.erase a) := by
  obtain ⟨m, m', hsplit, hm, hm', hidx⟩ := split_erase hl hb hne
  rw [reposition, hidx, hsplit, insertIdx_split, ahead_split hm hm']

theorem reposition_behind : reposition a ((l.erase a).idxOf b + 1) l = behind b a (l.erase a) := by
  obtain ⟨m, m', hsplit, hm, hm', hidx⟩ := split_erase hl hb hne
  have hlen : m.length + 1 = (m ++ [b]).length := by rw [length_append, length_singleton]
  rw [reposition, hidx, hsplit, behind_split hm hm', append_cons, hlen, insertIdx_split, append_assoc]
  rfl

end Anchor

/-! ## Several moves -/

def placeAfter (a : α) (anchor : Option α) (l : List α) : List α :=
  match anchor with
  | none => a :: l.erase a
  | some b => behind b a (l.erase a)

inductive Repositions : ℕ → List α → List α → Prop
  | refl (l : List α) : Repositions 0 l l
  | step {n : ℕ} {l l' : List α} {a : α} {i : ℕ} (h : Repositions n l l') (ha : a ∈ l') (hi : i < l'.length) :
      Repositions (n + 1) l (reposition a i l')

theorem Repositions.perm {n : ℕ} (h : Repositions n l m) : m.Perm l := by
  induction h with
  | refl => exact Perm.refl _
  | step _ ha hi ih => exact (perm_reposition ha hi).trans ih

/-- What has not been moved keeps its order: a move costs one element of what the lists have in common. -/
theorem Repositions.common {n : ℕ} (h : Repositions n l m) (hl : l.Nodup) :
    ∃ c : List α, c.Sublist l ∧ c.Sublist m ∧ l.length ≤ c.length + n := by
  induction h with
  | refl l => exact ⟨l, Sublist.refl l, Sublist.refl l, Nat.le_add_right _ _⟩
  | @step n l l' a i h ha hi ih =>
    obtain ⟨c, hsub, hsub', hlen⟩ := ih hl
    have hl' : l'.Nodup := h.perm.nodup_iff.mpr hl
    refine ⟨c.erase a, erase_sublist.trans hsub, ?_, ?_⟩
    · have herase : (c.erase a).Sublist ((reposition a i l').erase a) := by
        rw [erase_reposition hl']
        exact hsub'.erase a
      exact herase.trans erase_sublist
    · have hle := length_erase_le (a := a) (l := c)
      have hge : c.length ≤ (c.erase a).length + 1 := by
        rw [length_erase]
        split <;> omega
      omega

theorem perm_placeAfter {anchor : Option α} (hl : l.Nodup) (ha : a ∈ l) (hanchor : ∀ b ∈ anchor, b ∈ l ∧ b ≠ a) :
    (placeAfter a anchor l).Perm l := by
  cases anchor with
  | none => exact (perm_cons_erase ha).symm
  | some b =>
    obtain ⟨hb, hne⟩ := hanchor b rfl
    rw [placeAfter, ← reposition_behind hl hb hne]
    refine perm_reposition ha ?_
    have hlt := idxOf_lt_length_of_mem ((mem_erase_of_ne hne).mpr hb)
    rw [length_erase_of_mem ha] at hlt
    omega

def predecessor (l : List α) (a : α) : Option α :=
  (l.takeWhile (· ≠ a)).getLast?

theorem predecessor_split (ha : a ∉ m) : predecessor (m ++ a :: m') a = m.getLast? := by
  have hall : ∀ b ∈ m, decide (b ≠ a) = true := by
    intro b hb
    rw [decide_eq_true_iff]
    rintro rfl
    exact ha hb
  rw [predecessor, takeWhile_append_of_pos hall, takeWhile_cons_of_neg (by simp), append_nil]

theorem filter_behind {anchor y : α} {q : α → Bool} (hanchor : q anchor = true) (hy : q y = true) (m : List α) :
    (behind anchor y m).filter q = behind anchor y (m.filter q) := by
  induction m with
  | nil => rfl
  | cons b m ih =>
    have hrest : behind anchor y (b :: m) = (if b = anchor then [anchor, y] else [b]) ++ behind anchor y m := by
      rw [behind, flatMap_cons, behind]
    rw [hrest, filter_append, ih]
    by_cases hb : b = anchor
    · simp [behind, hb, hanchor, hy]
    · by_cases hq : q b = true
      · simp [behind, hb, hq]
      · simp [behind, hb, hq]

/-- Of a list without duplicates, its first part and the stable elements of the other one. -/
theorem filter_settled {stable : α → Bool} {done rest : List α} (h : (done ++ rest).Nodup) :
    (done ++ rest).filter (fun a => a ∈ done ∨ stable a) = done ++ rest.filter stable := by
  rw [filter_append]
  congr 1
  · exact filter_eq_self.mpr fun a ha => by simp [ha]
  · refine filter_congr fun a ha => ?_
    have hnot : a ∉ done := fun hin => (nodup_append.mp h).2.2 a hin a ha rfl
    simp [hnot]

/-- Where the stable elements are in the order of the goal, moving each of the others behind its predecessor, in the
order of the goal, reaches the goal. The elements up to the last one that has been moved, and the stable ones, are in
that order after each move. -/
theorem foldl_placeAfter {stable : α → Bool} {goal done rest l : List α} (hgoal : goal.Nodup)
    (hsplit : goal = done ++ rest) (hperm : l.Perm goal)
    (hl : l.filter (fun a => a ∈ done ∨ stable a) = goal.filter fun a => a ∈ done ∨ stable a) :
    (rest.filter fun a => !stable a).foldl (fun l a => placeAfter a (predecessor goal a) l) l = goal := by
  induction rest generalizing done l with
  | nil =>
    rw [append_nil] at hsplit
    subst hsplit
    have hall : ∀ m : List α, m.Perm goal → m.filter (fun a => a ∈ goal ∨ stable a) = m := fun m hm =>
      filter_eq_self.mpr fun a ha => by simp [hm.mem_iff.mp ha]
    rwa [hall l hperm, hall goal (Perm.refl _)] at hl
  | cons a rest ih =>
    have hnodup : (done ++ a :: rest).Nodup := hsplit ▸ hgoal
    obtain ⟨hdone, hrest, hdisj⟩ := nodup_append.mp hnodup
    have hadone : a ∉ done := fun hin => hdisj a hin a mem_cons_self rfl
    have harest : a ∉ rest := (nodup_cons.mp hrest).1
    have hsplit' : goal = (done ++ [a]) ++ rest := by rw [hsplit, append_assoc, singleton_append]
    by_cases hstable : stable a = true
    · rw [filter_cons_of_neg (by simpa using hstable)]
      refine ih hsplit' hperm ?_
      have hsame : (fun b => decide (b ∈ done ++ [a] ∨ stable b = true)) =
          fun b => decide (b ∈ done ∨ stable b = true) := by
        funext b
        by_cases hb : b = a
        · simp [hb, hstable]
        · simp [hb]
      rw [hsame]
      exact hl
    · rw [filter_cons_of_pos (by simpa using hstable), foldl_cons]
      have hpred : predecessor goal a = done.getLast? := by rw [hsplit, predecessor_split hadone]
      have hin : a ∈ l := hperm.mem_iff.mpr (by rw [hsplit]; exact mem_append_right done mem_cons_self)
      have hlnodup : l.Nodup := hperm.nodup_iff.mpr hgoal
      have hanchor : ∀ b ∈ predecessor goal a, b ∈ l ∧ b ≠ a := by
        intro b hb
        rw [hpred] at hb
        have hbdone := mem_of_getLast? hb
        refine ⟨hperm.mem_iff.mpr (by rw [hsplit]; exact mem_append_left _ hbdone), ?_⟩
        rintro rfl
        exact hadone hbdone
      refine ih hsplit' ((perm_placeAfter hlnodup hin hanchor).trans hperm) ?_
      have hgoal' : goal.filter (fun b => b ∈ done ++ [a] ∨ stable b) = done ++ a :: rest.filter stable := by
        rw [hsplit', filter_settled (hsplit' ▸ hgoal), append_assoc, singleton_append]
      have hothers : (l.erase a).filter (fun b => b ∈ done ++ [a] ∨ stable b) = done ++ rest.filter stable := by
        have hsame : (l.erase a).filter (fun b => b ∈ done ++ [a] ∨ stable b) =
            (l.filter fun b => b ∈ done ∨ stable b).filter (· ≠ a) := by
          rw [hlnodup.erase_eq_filter, filter_filter, filter_filter]
          refine filter_congr fun b _ => ?_
          by_cases hb : b = a
          · simp [hb]
          · simp [hb]
        have hnot : ∀ b ∈ done ++ rest.filter stable, decide (b ≠ a) = true := by
          intro b hb
          rw [decide_eq_true_iff]
          rintro rfl
          obtain hb | hb := mem_append.mp hb
          · exact hadone hb
          · exact harest (mem_filter.mp hb).1
        rw [hsame, hl, hsplit, filter_settled hnodup, filter_cons_of_neg hstable, filter_eq_self.mpr hnot]
      rw [hgoal', hpred]
      obtain hnil | ⟨done', b, hlast⟩ := eq_nil_or_concat' done
      · subst hnil
        rw [getLast?_nil, placeAfter, filter_cons_of_pos (by simp), hothers]
        rfl
      · subst hlast
        have hb : b ∉ done' ∧ b ∉ rest.filter stable := by
          refine ⟨fun hin => ?_, fun hin => ?_⟩
          · exact (nodup_append.mp hdone).2.2 b hin b (mem_singleton_self b) rfl
          · exact hdisj b mem_concat_self b (mem_cons_of_mem a (mem_filter.mp hin).1) rfl
        rw [getLast?_concat, placeAfter, filter_behind (by simp) (by simp), hothers, append_assoc,
          singleton_append, behind_split hb.1 hb.2, append_assoc]
        rfl

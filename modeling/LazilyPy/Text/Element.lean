import Mathlib.Data.List.Sort
import LazilyPy.Lib.Keys
import LazilyPy.Lib.Table

/-!
# Characters and their order

One character of a `TextCrdt` is an element with the id of its insertion, the id of the
element that it was inserted after, and the id of its deletion. The text order is the
pre-order of the tree of origins, with siblings in descending order of their ids.
-/

namespace LazilyPy.Text

open List

abbrev OpId := Dot

/-- One character. The origin `none` is `ROOT`, the start of the buffer. Ids are minted from 1
on, an element is younger than its origin, and it is deleted if and only if it has a delete
id. -/
@[ext]
structure TextElement (α : Type) where
  id : OpId
  ch : α
  origin : Option OpId
  deleted : Bool
  deleteId : Option OpId
  minted : 0 < id.counter
  older : ∀ o, origin = some o → o.counter < id.counter
  marked : deleted = deleteId.isSome
  stamped : ∀ d, deleteId = some d → 0 < d.counter

abbrev TextOp := TextElement

variable {α : Type}

/-- `a is not None and b is not None and a < b`. -/
def smaller : Option OpId → Option OpId → Bool
  | some a, some b => a < b
  | _, _ => false

namespace TextElement

/-- `target.deleted = True; target.delete_id = d`. -/
def delete (e : TextElement α) (d : OpId) (h : 0 < d.counter) : TextElement α :=
  { e with
    deleted := true
    deleteId := some d
    marked := rfl
    stamped := fun _ hd => (Option.some.inj hd) ▸ h }

/-- What an element becomes when an op with its id is observed, or `none` if nothing changes:
a deleted element stays deleted, and the smaller delete id is kept. -/
def absorb (e o : TextElement α) : Option (TextElement α) :=
  if h : o.deleted = true ∧ e.deleted = false then
    some { e with
      deleted := true
      deleteId :=
        if e.deleteId = none ∨ smaller o.deleteId e.deleteId then o.deleteId else e.deleteId
      marked := by
        split
        · exact h.1.symm.trans o.marked
        · next hne => exact (Option.isSome_iff_ne_none.mpr fun hnone => hne (.inl hnone)).symm
      stamped := by
        split
        · exact o.stamped
        · exact e.stamped }
  else if h : o.deleted = true ∧ e.deleted = true ∧ smaller o.deleteId e.deleteId = true then
    some { e with
      deleteId := o.deleteId
      marked := h.2.1.trans (h.1.symm.trans o.marked)
      stamped := o.stamped }
  else none

def join (e o : TextElement α) : TextElement α :=
  (e.absorb o).getD e

section Join

variable (e o : TextElement α)

theorem deleted_eq_false_iff : e.deleted = false ↔ e.deleteId = none := by
  rw [e.marked, Option.isSome_eq_false_iff, Option.isNone_iff_eq_none]

@[simp] theorem join_id : (e.join o).id = e.id := by
  unfold join absorb
  split
  · rfl
  · split <;> rfl

@[simp] theorem join_ch : (e.join o).ch = e.ch := by
  unfold join absorb
  split
  · rfl
  · split <;> rfl

@[simp] theorem join_origin : (e.join o).origin = e.origin := by
  unfold join absorb
  split
  · rfl
  · split <;> rfl

/-- The smaller delete id is kept. -/
theorem join_deleteId : (e.join o).deleteId = Option.merge min e.deleteId o.deleteId := by
  obtain ⟨_, _, _, deleted, deleteId, _, _, marked, _⟩ := e
  obtain ⟨_, _, _, deleted', deleteId', _, _, marked', _⟩ := o
  subst marked marked'
  cases deleteId' with
  | none => simp [join, absorb]
  | some d =>
    cases deleteId with
    | none => simp [join, absorb]
    | some d' =>
      by_cases hlt : d < d'
      · simp [join, absorb, smaller, hlt, min_eq_right hlt.le]
      · simp [join, absorb, smaller, hlt, min_eq_left (le_of_not_gt hlt)]

theorem eq_of_deleteId_eq {e o : TextElement α} (hid : e.id = o.id) (hch : e.ch = o.ch)
    (horigin : e.origin = o.origin) (hd : e.deleteId = o.deleteId) : e = o :=
  TextElement.ext hid hch horigin (by rw [e.marked, o.marked, hd]) hd

/-- Nothing is learnt from an element that is not deleted before. -/
theorem absorb_eq_none {e o : TextElement α}
    (h : ∀ d, o.deleteId = some d → ∃ d', e.deleteId = some d' ∧ d' ≤ d) : e.absorb o = none := by
  obtain ⟨_, _, _, deleted, deleteId, _, _, marked, _⟩ := e
  obtain ⟨_, _, _, deleted', deleteId', _, _, marked', _⟩ := o
  subst marked marked'
  cases deleteId' with
  | none => simp [absorb]
  | some d =>
    obtain ⟨d', rfl, hle⟩ := h d rfl
    simp [absorb, smaller, hle]

theorem known_of_absorb_eq_none {e o : TextElement α} (h : e.absorb o = none) {d : OpId}
    (hd : o.deleteId = some d) : ∃ d', e.deleteId = some d' ∧ d' ≤ d := by
  obtain ⟨_, _, _, deleted, deleteId, _, _, marked, _⟩ := e
  obtain ⟨_, _, _, deleted', deleteId', _, _, marked', _⟩ := o
  subst marked marked' hd
  cases deleteId with
  | none => simp [absorb] at h
  | some d' =>
    refine ⟨d', rfl, le_of_not_gt fun hlt => ?_⟩
    simp [absorb, smaller, hlt] at h

theorem join_self : e.join e = e := by
  refine eq_of_deleteId_eq (join_id e e) (join_ch e e) (join_origin e e) ?_
  rw [join_deleteId]
  cases e.deleteId <;> simp

end Join

end TextElement

/-! ## The traversal -/

def Precedes (a b : TextElement α) : Prop :=
  b.id ≤ a.id

instance : DecidableRel (Precedes (α := α)) :=
  fun a b => inferInstanceAs (Decidable (b.id ≤ a.id))

instance : Std.Total (Precedes (α := α)) :=
  ⟨fun a b => le_total b.id a.id⟩

instance : IsTrans (TextElement α) Precedes :=
  ⟨fun _ _ _ hab hbc => le_trans hbc hab⟩

/-- `children_by_origin[origin]`, sorted. -/
def childrenOf (rows : List (TextElement α)) (origin : Option OpId) : List (TextElement α) :=
  (rows.filter fun e => e.origin = origin).insertionSort Precedes

def visit (rows : List (TextElement α)) : ℕ → Option OpId → List (TextElement α)
  | 0, _ => []
  | n + 1, origin =>
    (childrenOf rows origin).flatMap fun child => child :: visit rows n (some child.id)

/-- The greatest counter of the ids. Origins are older than what is inserted after them, so no
path of the origin tree is longer. -/
def span (rows : List (TextElement α)) : ℕ :=
  (rows.map fun e => e.id.counter).foldr max 0

def order (rows : List (TextElement α)) : List (TextElement α) :=
  visit rows (span rows) none

section Order

variable {rows rows' : List (TextElement α)} {e : TextElement α}

variable {origin : Option OpId} {n : ℕ}

theorem mem_childrenOf : e ∈ childrenOf rows origin ↔ e ∈ rows ∧ e.origin = origin := by
  simp [childrenOf, mem_insertionSort]

theorem mem_of_mem_visit (h : e ∈ visit rows n origin) : e ∈ rows := by
  induction n generalizing origin with
  | zero => cases h
  | succ n ih =>
    obtain ⟨child, hchild, he⟩ := mem_flatMap.mp h
    rcases mem_cons.mp he with rfl | he
    · exact (mem_childrenOf.mp hchild).1
    · exact ih he

theorem mem_of_mem_order (h : e ∈ order rows) : e ∈ rows :=
  mem_of_mem_visit h

theorem counter_le_span (h : e ∈ rows) : e.id.counter ≤ span rows := by
  induction rows with
  | nil => cases h
  | cons r rows ih =>
    simp only [span, map_cons, foldr_cons]
    rcases mem_cons.mp h with rfl | h
    · exact Nat.le_max_left _ _
    · exact le_trans (ih h) (Nat.le_max_right _ _)

theorem span_le (h : ∀ e ∈ rows, e.id.counter ≤ n) : span rows ≤ n := by
  induction rows with
  | nil => exact Nat.zero_le n
  | cons r rows ih =>
    simp only [span, map_cons, foldr_cons]
    exact Nat.max_le.mpr ⟨h r mem_cons_self, ih fun e he => h e (mem_cons_of_mem r he)⟩

def originCounter : Option OpId → ℕ
  | none => 0
  | some o => o.counter

theorem originCounter_lt (h : e ∈ childrenOf rows (o : Option OpId)) : originCounter o < e.id.counter := by
  obtain ⟨_, rfl⟩ := mem_childrenOf.mp h
  cases horigin : e.origin with
  | none => exact e.minted
  | some o => exact e.older o horigin

/-- The traversal ends before its depth does. -/
theorem visit_succ (h : span rows ≤ n + originCounter origin) :
    visit rows (n + 1) origin = visit rows n origin := by
  induction n generalizing origin with
  | zero =>
    have hnil : childrenOf rows origin = [] := by
      refine eq_nil_iff_forall_not_mem.mpr fun e he => ?_
      have hlt := originCounter_lt he
      have hle := counter_le_span (mem_childrenOf.mp he).1
      omega
    simp [visit, hnil]
  | succ n ih =>
    rw [visit, visit]
    refine flatMap_congr fun child hchild => ?_
    have hlt := originCounter_lt hchild
    rw [@ih (some child.id) (by simp only [originCounter]; omega)]

/-- A greater depth changes nothing. -/
theorem visit_add (h : span rows ≤ n + originCounter origin) (m : ℕ) :
    visit rows (n + m) origin = visit rows n origin := by
  induction m with
  | zero => rfl
  | succ m ih => rw [← Nat.add_assoc, visit_succ (by omega), ih]

theorem visit_mono {m : ℕ} (h : n ≤ m) (he : e ∈ visit rows n origin) :
    e ∈ visit rows m origin := by
  induction n generalizing m origin with
  | zero => cases he
  | succ n ih =>
    obtain ⟨m, rfl⟩ := Nat.exists_eq_add_of_le' (Nat.one_le_of_lt h)
    obtain ⟨child, hchild, he⟩ := mem_flatMap.mp he
    refine mem_flatMap.mpr ⟨child, hchild, ?_⟩
    rcases mem_cons.mp he with rfl | he
    · exact mem_cons_self
    · exact mem_cons_of_mem child (ih (by omega) he)

section

variable (hrooted : ∀ e ∈ rows, ∀ o, e.origin = some o → ∃ e' ∈ rows, e'.id = o) (he : e ∈ rows)

include hrooted he

/-- What comes after an element that is reached is reached. -/
theorem mem_visit_root {f : TextElement α} (hf : f ∈ e :: visit rows n (some e.id)) :
    f ∈ visit rows (n + e.id.counter) none := by
  induction hc : e.id.counter using Nat.strong_induction_on generalizing e n with
  | _ c ih =>
    subst hc
    have hmono : ∀ {m}, n ≤ m → f ∈ e :: visit rows m (some e.id) := fun hm =>
      mem_cons.mpr ((mem_cons.mp hf).imp id (visit_mono hm))
    cases horigin : e.origin with
    | none =>
      obtain ⟨c, hc⟩ := Nat.exists_eq_add_of_le' e.minted
      rw [hc, ← Nat.add_assoc]
      exact mem_flatMap.mpr ⟨e, mem_childrenOf.mpr ⟨he, horigin⟩, hmono (Nat.le_add_right n c)⟩
    | some o =>
      obtain ⟨e', he', rfl⟩ := hrooted e he o horigin
      obtain ⟨c, hc⟩ := Nat.exists_eq_add_of_lt (e.older _ horigin)
      have hchild : f ∈ visit rows (n + c + 1) (some e'.id) :=
        mem_flatMap.mpr ⟨e, mem_childrenOf.mpr ⟨he, horigin⟩, hmono (Nat.le_add_right n c)⟩
      have hup := ih e'.id.counter (by omega) he' (mem_cons_of_mem e' hchild) rfl
      rwa [show n + e.id.counter = n + c + 1 + e'.id.counter by omega]

/-- Where no origin is missing, every element is reached. -/
theorem mem_order : e ∈ order rows := by
  have hroot := mem_visit_root hrooted he (n := 0) mem_cons_self
  exact visit_mono (by simpa using counter_le_span he) hroot

end

/-- Rows changed in place, without their ids and origins, keep their order. -/
theorem visit_map {f : TextElement α → TextElement α} (hid : ∀ e, (f e).id = e.id)
    (horigin : ∀ e, (f e).origin = e.origin) (n : ℕ) (origin : Option OpId) :
    visit (rows.map f) n origin = (visit rows n origin).map f := by
  have hchildren : ∀ o, childrenOf (rows.map f) o = (childrenOf rows o).map f := by
    intro o
    have hfilter : (rows.map f).filter (fun e => e.origin = o) = (rows.filter fun e => e.origin = o).map f := by
      rw [filter_map]
      congr 2
      funext e
      simp [horigin]
    rw [childrenOf, hfilter, childrenOf, map_insertionSort (r := Precedes) (s := Precedes)]
    simp [Precedes, hid]
  induction n generalizing origin with
  | zero => rfl
  | succ n ih =>
    rw [visit, visit, hchildren, flatMap_map, map_flatMap]
    refine flatMap_congr fun child _ => ?_
    rw [ih, hid, map_cons]

theorem order_map {f : TextElement α → TextElement α} (hid : ∀ e, (f e).id = e.id)
    (horigin : ∀ e, (f e).origin = e.origin) : order (rows.map f) = (order rows).map f := by
  have hspan : span (rows.map f) = span rows := by
    simp only [span, map_map]
    congr 2
    funext e
    simp [hid]
  rw [order, hspan, visit_map hid horigin, order]

/-- The order is a function of the set of the elements. -/
theorem order_perm (h : rows.Perm rows') (hnodup : (rows.map TextElement.id).Nodup) : order rows = order rows' := by
  have hchildren : ∀ o, childrenOf rows o = childrenOf rows' o := by
    intro o
    have hperm : (childrenOf rows o).Perm (childrenOf rows' o) :=
      ((perm_insertionSort _ _).trans (h.filter _)).trans (perm_insertionSort _ _).symm
    -- siblings are sorted by their ids, and no two of them have the same
    refine hperm.eq_of_pairwise ?_ (pairwise_insertionSort _ _) (pairwise_insertionSort _ _)
    intro a b ha hb hab hba
    have hb := (h.mem_iff.mpr (mem_childrenOf.mp hb).1)
    exact inj_on_of_nodup_map hnodup (mem_childrenOf.mp ha).1 hb (le_antisymm hba hab)
  have hvisit : ∀ n o, visit rows n o = visit rows' n o := by
    intro n
    induction n with
    | zero => exact fun _ => rfl
    | succ n ih =>
      intro o
      rw [visit, visit, hchildren]
      exact flatMap_congr fun child _ => by rw [ih]
  have hspan : span rows = span rows' := (h.map _).foldr_op_eq
  rw [order, order, hspan, hvisit]

/-- What is the origin of none ends the traversal. -/
theorem visit_leaf {o : OpId} (h : ∀ e ∈ rows, e.origin ≠ some o) (n : ℕ) : visit rows n (some o) = [] := by
  have hnil : childrenOf rows (some o) = [] := eq_nil_iff_forall_not_mem.mpr fun e he => h e (mem_childrenOf.mp he).1
      (mem_childrenOf.mp he).2
  cases n with
  | zero => rfl
  | succ n => rw [visit, hnil, flatMap_nil]

theorem childrenOf_filter (hnodup : (rows.map TextElement.id).Nodup) (p : TextElement α → Bool)
    (o : Option OpId) : childrenOf (rows.filter p) o = (childrenOf rows o).filter p := by
  have hperm : (childrenOf (rows.filter p) o).Perm ((childrenOf rows o).filter p) := by
    refine (perm_insertionSort _ _).trans ?_
    rw [filter_filter]
    simp only [Bool.and_comm]
    rw [← filter_filter]
    exact (perm_insertionSort _ _).symm.filter p
  refine hperm.eq_of_pairwise ?_ (pairwise_insertionSort _ _) ((pairwise_insertionSort _ _).filter p)
  intro a b ha hb hab hba
  have ha := (mem_filter.mp (mem_childrenOf.mp ha).1).1
  have hb := (mem_childrenOf.mp (mem_filter.mp hb).1).1
  exact inj_on_of_nodup_map hnodup ha hb (le_antisymm hba hab)

section

variable {p : TextElement α → Bool} (hnodup : (rows.map TextElement.id).Nodup)
  (hleaf : ∀ e ∈ rows, p e = false → ∀ e' ∈ rows, e'.origin ≠ some e.id)

include hnodup hleaf

/-- Removing elements that are the origin of none removes them from the traversal. -/
theorem visit_filter (n : ℕ) (o : Option OpId) : visit (rows.filter p) n o = (visit rows n o).filter p := by
  induction n generalizing o with
  | zero => rfl
  | succ n ih =>
    rw [visit, visit, childrenOf_filter hnodup, filter_flatMap]
    have hmem : ∀ e ∈ childrenOf rows o, e ∈ rows := fun e he => (mem_childrenOf.mp he).1
    generalize childrenOf rows o = children at hmem ⊢
    induction children with
    | nil => rfl
    | cons child children ihc =>
      have hrest := ihc fun e he => hmem e (mem_cons_of_mem child he)
      rw [flatMap_cons, ← hrest]
      by_cases hp : p child = true
      · simp [hp, ih]
      · have hchild := hleaf child (hmem child mem_cons_self) (by simpa using hp)
        simp [hp, visit_leaf hchild]

theorem order_filter :
    order (rows.filter p) = (order rows).filter p := by
  have hspan : span (rows.filter p) ≤ span rows := span_le fun e he => counter_le_span (mem_filter.mp he).1
  obtain ⟨m, hm⟩ := Nat.exists_eq_add_of_le hspan
  have hdepth : visit (rows.filter p) (span rows) none = order (rows.filter p) := by
    rw [hm]
    exact visit_add (by omega) m
  rw [← hdepth, visit_filter hnodup hleaf, order]

end

end Order

end LazilyPy.Text

import Mathlib.Data.List.Induction
import Mathlib.Data.List.Nodup
import Mathlib.Data.List.Perm.Basic

/-!
# Tables

A dictionary whose rows carry their own keys: rows with distinct keys, in the order in which
the keys came. Assigning a row replaces the row of its key in place, or adds it at the end.
-/

structure Table {κ ν : Type} (key : ν → κ) where
  rows : List ν
  nodup : (rows.map key).Nodup

namespace Table

open List
open Option hiding or_assoc

variable {κ ν : Type} {key : ν → κ}

def empty (key : ν → κ) : Table key where
  rows := []
  nodup := nodup_nil

variable {t : Table key} {v : ν} {k : κ} {l : List ν}

/-- Rows of one key are equal. -/
theorem eq_of_key_eq {w : ν} (hv : v ∈ t.rows) (hw : w ∈ t.rows) (h : key v = key w) : v = w :=
  inj_on_of_nodup_map t.nodup hv hw h

variable [DecidableEq κ]

def get? (t : Table key) (k : κ) : Option ν :=
  t.rows.find? fun v => key v = k

theorem get?_eq_some : t.get? k = some v ↔ v ∈ t.rows ∧ key v = k := by
  constructor
  · intro h
    exact ⟨mem_of_find?_eq_some h, by simpa using find?_some h⟩
  · rintro ⟨hv, rfl⟩
    obtain ⟨w, hw⟩ : ∃ w, t.get? (key v) = some w := by
      refine isSome_iff_exists.mp (find?_isSome.mpr ⟨v, hv, ?_⟩)
      simp
    have hkey : key w = key v := by simpa using find?_some hw
    rw [hw, eq_of_key_eq (mem_of_find?_eq_some hw) hv hkey]

theorem get?_eq_none : t.get? k = none ↔ ∀ v ∈ t.rows, key v ≠ k := by
  simp [get?]

theorem key_of_get? (h : t.get? k = some v) : key v = k :=
  (get?_eq_some.mp h).2

theorem mem_of_get? (h : t.get? k = some v) : v ∈ t.rows :=
  (get?_eq_some.mp h).1

theorem get?_of_mem (h : v ∈ t.rows) : t.get? (key v) = some v :=
  get?_eq_some.mpr ⟨h, rfl⟩

def putRows (key : ν → κ) (l : List ν) (v : ν) : List ν :=
  if key v ∈ l.map key then l.map fun r => if key r = key v then v else r else l ++ [v]

theorem nodup_putRows (h : (l.map key).Nodup) (v : ν) : ((putRows key l v).map key).Nodup := by
  unfold putRows
  split
  · have hkeys : (l.map fun r => if key r = key v then v else r).map key = l.map key := by
      rw [List.map_map]
      refine map_congr_left fun r _ => ?_
      by_cases hr : key r = key v
      · simp [hr]
      · simp [hr]
    rwa [hkeys]
  · next hv =>
    rw [map_append, map_singleton]
    exact Nodup.append h (nodup_singleton _) (by simpa using hv)

def put (t : Table key) (v : ν) : Table key where
  rows := putRows key t.rows v
  nodup := nodup_putRows t.nodup v

theorem mem_put {r : ν} : r ∈ (t.put v).rows ↔ r = v ∨ r ∈ t.rows ∧ key r ≠ key v := by
  simp only [put, putRows]
  split
  · next hv =>
    obtain ⟨w, hw, hkey⟩ := List.mem_map.mp hv
    constructor
    · intro h
      obtain ⟨x, hx, rfl⟩ := List.mem_map.mp h
      by_cases hxv : key x = key v
      · simp [hxv]
      · simp [hxv, hx]
    · rintro (rfl | ⟨hr, hne⟩)
      · exact List.mem_map.mpr ⟨w, hw, by simp [hkey]⟩
      · exact List.mem_map.mpr ⟨r, hr, by simp [hne]⟩
  · next hv =>
    rw [mem_append, mem_singleton, or_comm]
    refine or_congr_right ⟨fun hr => ⟨hr, fun heq => hv ?_⟩, And.left⟩
    exact heq ▸ List.mem_map_of_mem hr

theorem get?_put (t : Table key) (v : ν) (k : κ) : (t.put v).get? k = if k = key v then some v else t.get? k := by
  split
  · next h => exact get?_eq_some.mpr ⟨mem_put.mpr (.inl rfl), h.symm⟩
  · next h =>
    refine ext fun w => ?_
    rw [get?_eq_some, get?_eq_some, mem_put]
    constructor
    · rintro ⟨rfl | ⟨hw, _⟩, hk⟩
      · exact absurd hk.symm h
      · exact ⟨hw, hk⟩
    · rintro ⟨hw, hk⟩
      exact ⟨.inr ⟨hw, fun heq => h (hk.symm.trans heq)⟩, hk⟩

/-- Tables with equal lookups have the same rows, up to their order. -/
theorem perm_of_get?_eq {t' : Table key} (h : ∀ k, t.get? k = t'.get? k) : t.rows.Perm t'.rows := by
  have hmem : ∀ v, v ∈ t.rows ↔ v ∈ t'.rows := by
    intro v
    constructor
    · intro hv
      exact mem_of_get? ((h _).symm.trans (get?_of_mem hv))
    · intro hv
      exact mem_of_get? ((h _).trans (get?_of_mem hv))
  exact (perm_ext_iff_of_nodup (Nodup.of_map _ t.nodup) (Nodup.of_map _ t'.nodup)).mpr hmem

/-- The rows that satisfy `p`. -/
def filter (t : Table key) (p : ν → Bool) : Table key where
  rows := t.rows.filter p
  nodup := t.nodup.sublist (filter_sublist.map key)

theorem get?_filter (t : Table key) (p : ν → Bool) (k : κ) : (t.filter p).get? k = (t.get? k).filter p := by
  refine ext fun v => ?_
  rw [get?_eq_some, filter_eq_some_iff, get?_eq_some]
  simp only [filter, mem_filter]
  tauto

def erase (t : Table key) (k : κ) : Table key :=
  t.filter fun r => key r ≠ k

theorem get?_erase (t : Table key) (k k' : κ) : (t.erase k).get? k' = if k' = k then none else t.get? k' := by
  rw [erase, get?_filter]
  cases hget : t.get? k' with
  | none => rw [filter_none, ite_self]
  | some v =>
    have hkey := key_of_get? hget
    rw [filter_some, hkey]
    by_cases hk : k' = k
    · simp [hk]
    · simp [hk]

/-- A row put in the place of another one leaves the others where they are. -/
theorem rows_put_of_mem (h : key v ∈ t.rows.map key) :
    (t.put v).rows = t.rows.map fun r => if key r = key v then v else r := by
  simp [put, putRows, h]

/-- A row with a new key comes last. -/
theorem rows_put_of_notMem (h : key v ∉ t.rows.map key) : (t.put v).rows = t.rows ++ [v] := by
  simp [put, putRows, h]

/-- A row and the rows of the other keys are all rows. -/
theorem rows_perm_of_get? (h : t.get? k = some v) :
    t.rows.Perm (v :: (t.filter fun r => key r ≠ k).rows) := by
  obtain ⟨hin, rfl⟩ := get?_eq_some.mp h
  have hnodup : ∀ t' : Table key, t'.rows.Nodup := fun t' => Nodup.of_map _ t'.nodup
  have hnot : v ∉ (t.filter fun r => key r ≠ key v).rows := by simp [filter]
  refine (perm_ext_iff_of_nodup (hnodup t) (nodup_cons.mpr ⟨hnot, hnodup _⟩)).mpr fun r => ?_
  rw [mem_cons, filter, mem_filter]
  constructor
  · intro hr
    by_cases hkey : key r = key v
    · exact .inl (eq_of_key_eq hr hin hkey)
    · exact .inr ⟨hr, by simpa using hkey⟩
  · rintro (rfl | ⟨hr, _⟩)
    · exact hin
    · exact hr

def map (t : Table key) (f : ν → ν) (h : ∀ r, key (f r) = key r) : Table key where
  rows := t.rows.map f
  nodup := by
    have hkeys : (t.rows.map f).map key = t.rows.map key := by
      rw [List.map_map]
      exact map_congr_left fun r _ => h r
    exact hkeys ▸ t.nodup

theorem get?_map (t : Table key) (f : ν → ν) (h : ∀ r, key (f r) = key r) (k : κ) :
    (t.map f h).get? k = (t.get? k).map f := by
  refine ext fun v => ?_
  rw [get?_eq_some, map_eq_some_iff, map, List.mem_map]
  constructor
  · rintro ⟨⟨r, hr, rfl⟩, hk⟩
    exact ⟨r, get?_eq_some.mpr ⟨hr, (h r).symm.trans hk⟩, rfl⟩
  · rintro ⟨r, hr, rfl⟩
    obtain ⟨hin, hk⟩ := get?_eq_some.mp hr
    exact ⟨⟨r, hin, rfl⟩, (h r).trans hk⟩

def putAll (t : Table key) (l : List ν) : Table key :=
  l.foldl put t

/-- Of several rows of one key the last one stays. -/
theorem get?_putAll (t : Table key) (l : List ν) (k : κ) :
    (t.putAll l).get? k = (l.reverse.find? fun v => key v = k).or (t.get? k) := by
  induction l using reverseRecOn with
  | nil => rfl
  | append_singleton l a ih =>
    have hput : t.putAll (l ++ [a]) = (t.putAll l).put a := foldl_append
    rw [hput, get?_put, ih, reverse_append, reverse_singleton, singleton_append]
    by_cases hk : key a = k
    · simp [hk]
    · rw [if_neg (Ne.symm hk), find?_cons_of_neg (by simpa using hk)]

/-- Where rows of one key are equal, assigning rows is adding them. -/
theorem mem_putAll (h : ∀ v w, v ∈ t.rows ∨ v ∈ l → w ∈ t.rows ∨ w ∈ l → key v = key w → v = w) {r : ν} :
    r ∈ (t.putAll l).rows ↔ r ∈ t.rows ∨ r ∈ l := by
  induction l generalizing t with
  | nil => simp [putAll]
  | cons a l ih =>
    have hput : ∀ v, v ∈ (t.put a).rows ↔ v ∈ t.rows ∨ v = a := by
      intro v
      rw [mem_put]
      constructor
      · rintro (rfl | ⟨hv, _⟩)
        · exact .inr rfl
        · exact .inl hv
      · rintro (hv | rfl)
        · by_cases hkey : key v = key a
          · exact .inl (h v a (.inl hv) (.inr mem_cons_self) hkey)
          · exact .inr ⟨hv, hkey⟩
        · exact .inl rfl
    have hsub : ∀ v, v ∈ (t.put a).rows ∨ v ∈ l → v ∈ t.rows ∨ v ∈ a :: l := by
      intro v hv
      obtain hv | hv := hv
      · obtain hv | rfl := (hput v).mp hv
        · exact .inl hv
        · exact .inr mem_cons_self
      · exact .inr (mem_cons_of_mem a hv)
    have hrest := ih (t := t.put a) fun v w hv hw => h v w (hsub v hv) (hsub w hw)
    show r ∈ ((t.put a).putAll l).rows ↔ _
    rw [hrest, hput, mem_cons, or_assoc]

/-- The rows of a table, assigned in any order to an empty one, give a table with the same lookups. -/
theorem get?_putAll_of_perm (h : l.Perm t.rows) (k : κ) :
    ((empty key).putAll l).get? k = t.get? k := by
  have hkeys : ∀ v w, v ∈ (empty key).rows ∨ v ∈ l → w ∈ (empty key).rows ∨ w ∈ l → key v = key w → v = w := by
    intro v w hv hw
    have hin : ∀ {x}, x ∈ (empty key).rows ∨ x ∈ l → x ∈ t.rows := fun hx =>
      h.mem_iff.mp (hx.resolve_left not_mem_nil)
    exact eq_of_key_eq (hin hv) (hin hw)
  refine ext fun v => ?_
  have hnone : v ∉ (empty key).rows := not_mem_nil
  rw [get?_eq_some, get?_eq_some, mem_putAll hkeys, or_iff_right hnone, h.mem_iff]

/-- Searches for a key in lists with the same rows. -/
theorem find?_eq_of_perm {l' : List ν} (hperm : l.Perm l') (hl : (l'.map key).Nodup) (k : κ) :
    (l.find? fun v => key v = k) = l'.find? fun v => key v = k := by
  have hl' : (l.map key).Nodup := (hperm.map key).nodup_iff.mpr hl
  refine ext fun v => ?_
  show get? ⟨l, hl'⟩ k = some v ↔ get? ⟨l', hl⟩ k = some v
  rw [get?_eq_some, get?_eq_some]
  exact and_congr_left fun _ => hperm.mem_iff

/-- At most one row has a key. -/
theorem filter_key_eq (t : Table key) (k : κ) : (t.rows.filter fun v => key v = k) = (t.get? k).toList := by
  cases hget : t.get? k with
  | none =>
    refine filter_eq_nil_iff.mpr fun v hv => ?_
    simpa using get?_eq_none.mp hget v hv
  | some v =>
    refine perm_singleton.mp ?_
    have hnodup := (Nodup.of_map _ t.nodup).filter fun v => decide (key v = k)
    refine (perm_ext_iff_of_nodup hnodup (nodup_singleton v)).mpr fun w => ?_
    rw [mem_filter, decide_eq_true_iff, ← get?_eq_some, hget, mem_singleton]
    exact some_inj.trans eq_comm

end Table

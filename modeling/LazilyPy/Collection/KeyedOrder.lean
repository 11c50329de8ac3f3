import LazilyPy.Lib.Reposition
import LazilyPy.Lib.Table
import Mathlib.Tactic.Cases

/-!
# Keys in an order

The keys of a keyed collection, with a handle for each, and the order that they are in. A key that is new comes last,
and can be moved to an index, or next to another key.
-/

namespace LazilyPy.Collection

open List

inductive MapMutation where
  | none
  | inserted
  | removed
  deriving DecidableEq

def MapMutation.changed (m : MapMutation) : Bool :=
  m ≠ .none

inductive MapMove where
  | missing
  | unchanged
  | reordered
  deriving DecidableEq

def MapMove.applied (m : MapMove) : Bool :=
  m ≠ .missing

def MapMove.changed (m : MapMove) : Bool :=
  m = .reordered

structure KeyedOrder (κ η : Type) where
  entries : Table (Prod.fst (α := κ) (β := η))
  order : List κ

namespace KeyedOrder

variable {κ η : Type}

/-- `KeyedOrder()`. -/
def empty : KeyedOrder κ η where
  entries := .empty _
  order := []

/-- Where an index is, once it is between the first and the last one. -/
def clamp (m : KeyedOrder κ η) (index : ℤ) : ℕ :=
  (max 0 (min index (m.order.length - 1))).toNat

theorem clamp_lt {m : KeyedOrder κ η} {key : κ} (hkey : key ∈ m.order) (index : ℤ) :
    m.clamp index < m.order.length := by
  have hpos := length_pos_of_mem hkey
  rw [clamp]
  omega

theorem clamp_of_lt {m : KeyedOrder κ η} {i : ℕ} (hi : i < m.order.length) : m.clamp i = i := by
  rw [clamp]
  omega

variable [DecidableEq κ]

def get (m : KeyedOrder κ η) (key : κ) : Option η :=
  (m.entries.get? key).map Prod.snd

def contains (m : KeyedOrder κ η) (key : κ) : Bool :=
  (m.entries.get? key).isSome

def length (m : KeyedOrder κ η) : ℕ :=
  m.order.length

def position (m : KeyedOrder κ η) (key : κ) : Option ℕ :=
  m.order.idxOf? key

/-! ## Mutations -/

def insert (m : KeyedOrder κ η) (key : κ) (handle : η) : (η × MapMutation) × KeyedOrder κ η :=
  match m.get key with
  | some existing => ((existing, .none), m)
  | none => ((handle, .inserted), { entries := m.entries.put (key, handle), order := m.order ++ [key] })

def remove (m : KeyedOrder κ η) (key : κ) : (Option η × MapMutation) × KeyedOrder κ η :=
  match m.get key with
  | none => ((none, .none), m)
  | some handle =>
    ((some handle, .removed), { entries := m.entries.erase key, order := m.order.filter (· ≠ key) })

/-! ## Moves -/

def moveTo (m : KeyedOrder κ η) (key : κ) (index : ℤ) : MapMove × KeyedOrder κ η :=
  match m.position key with
  | none => (.missing, m)
  | some source =>
    let target := m.clamp index
    if source = target then (.unchanged, m)
    else (.reordered, { m with order := (m.order.eraseIdx source).insertIdx target key })

def moveBefore (m : KeyedOrder κ η) (key anchor : κ) : MapMove × KeyedOrder κ η :=
  match m.position anchor, m.position key with
  | some anchorIdx, some source => m.moveTo key (if source < anchorIdx then anchorIdx - 1 else anchorIdx)
  | _, _ => (.missing, m)

def moveAfter (m : KeyedOrder κ η) (key anchor : κ) : MapMove × KeyedOrder κ η :=
  match m.position anchor, m.position key with
  | some anchorIdx, some source => m.moveTo key (if source ≤ anchorIdx then anchorIdx else anchorIdx + 1)
  | _, _ => (.missing, m)

/-! ## The keys of the order are those of the entries -/

structure Lockstep (m : KeyedOrder κ η) : Prop where
  nodup : m.order.Nodup
  keys : ∀ key, key ∈ m.order ↔ m.contains key = true

variable {m : KeyedOrder κ η} {key anchor : κ}

theorem contains_eq_false_iff : m.contains key = false ↔ m.get key = none := by
  rw [contains, get, Option.isSome_eq_false_iff, Option.isNone_iff_eq_none, Option.map_eq_none_iff]

theorem contains_of_get {handle : η} (h : m.get key = some handle) : m.contains key = true := by
  rw [← Bool.not_eq_false, contains_eq_false_iff, h]
  nofun

theorem lockstep_empty : (empty : KeyedOrder κ η).Lockstep :=
  ⟨nodup_nil, fun _ => ⟨nofun, nofun⟩⟩

namespace Lockstep

/-- The same keys in another order. -/
theorem reorder (h : m.Lockstep) {order : List κ} (hperm : order.Perm m.order) :
    ({ m with order } : KeyedOrder κ η).Lockstep :=
  ⟨hperm.nodup_iff.mpr h.nodup, fun key => hperm.mem_iff.trans (h.keys key)⟩

theorem insert (h : m.Lockstep) (key : κ) (handle : η) : (m.insert key handle).2.Lockstep := by
  rw [KeyedOrder.insert]
  split
  · exact h
  · next hget =>
    have hnot : key ∉ m.order := fun hmem => by
      have hcontains := (h.keys key).mp hmem
      rw [contains_eq_false_iff.mpr hget] at hcontains
      cases hcontains
    refine ⟨h.nodup.append (nodup_singleton key) (by simpa using hnot), fun k => ?_⟩
    rw [mem_append, mem_singleton, h.keys, contains, contains, Table.get?_put]
    by_cases hk : k = key
    · simp [hk]
    · simp [hk]

theorem remove (h : m.Lockstep) (key : κ) : (m.remove key).2.Lockstep := by
  rw [KeyedOrder.remove]
  split
  · exact h
  · refine ⟨h.nodup.filter _, fun k => ?_⟩
    rw [mem_filter, h.keys, contains, contains, Table.get?_erase]
    by_cases hk : k = key
    · simp [hk]
    · simp [hk]

end Lockstep

theorem get_insert (h : m.get key = none) (handle : η) (k : κ) :
    (m.insert key handle).2.get k = if k = key then some handle else m.get k := by
  rw [insert, h]
  show ((m.entries.put (key, handle)).get? k).map Prod.snd = _
  rw [Table.get?_put]
  by_cases hk : k = key
  · simp [hk]
  · simp [hk, get]

theorem order_insert (h : m.get key = none) (handle : η) : (m.insert key handle).2.order = m.order ++ [key] := by
  rw [insert, h]

theorem get_remove (m : KeyedOrder κ η) (key k : κ) : (m.remove key).2.get k = if k = key then none else m.get k := by
  rw [remove]
  split
  · next h =>
    by_cases hk : k = key
    · simp [hk, h]
    · simp [hk]
  · show ((m.entries.erase key).get? k).map Prod.snd = _
    rw [Table.get?_erase]
    by_cases hk : k = key
    · simp [hk]
    · simp [hk, get]

theorem Lockstep.mem_iff (h : m.Lockstep) : key ∈ m.order ↔ m.get key ≠ none := by
  rw [h.keys, ← Bool.not_eq_false, ne_eq, contains_eq_false_iff]

/-! ## What a move does to the order -/

theorem position_of_mem (hkey : key ∈ m.order) : m.position key = some (m.order.idxOf key) := by
  rw [position]
  generalize m.order = order at hkey
  induction order with
  | nil => cases hkey
  | cons k order ih =>
    by_cases hk : k = key
    · simp [idxOf?_cons, hk]
    · have hrest := ih ((mem_cons.mp hkey).resolve_left (Ne.symm hk))
      rw [idxOf?_cons, if_neg (by simpa using hk), hrest, idxOf_cons_ne order hk]
      rfl

theorem position_of_notMem (hkey : key ∉ m.order) : m.position key = none :=
  idxOf?_eq_none_iff.mpr hkey

/-- A move puts the key at the index, and leaves the others in their order. -/
theorem moveTo_of_mem (hkey : key ∈ m.order) (index : ℤ) : m.moveTo key index =
      (if m.order.idxOf key = m.clamp index then .unchanged else .reordered,
        { m with order := reposition key (m.clamp index) m.order }) := by
  rw [moveTo, position_of_mem hkey]
  dsimp only
  split
  · next heq => rw [← heq, reposition_idxOf hkey]
  · rw [eraseIdx_idxOf_eq_erase, reposition]

theorem moveTo_of_notMem (hkey : key ∉ m.order) (index : ℤ) : m.moveTo key index = (.missing, m) := by
  rw [moveTo, position_of_notMem hkey]

section

variable (m : KeyedOrder κ η)

theorem get_moveTo (key : κ) (index : ℤ) (k : κ) : (m.moveTo key index).2.get k = m.get k := by
  rw [moveTo]
  split
  · rfl
  · dsimp only
    split <;> rfl

/-- A move next to an anchor is a move to an index, or none. -/
theorem moveBefore_cases (key anchor : κ) :
    m.moveBefore key anchor = (.missing, m) ∨ ∃ index, m.moveBefore key anchor = m.moveTo key index := by
  rw [moveBefore]
  split
  · exact .inr ⟨_, rfl⟩
  · exact .inl rfl

theorem moveAfter_cases (key anchor : κ) :
    m.moveAfter key anchor = (.missing, m) ∨ ∃ index, m.moveAfter key anchor = m.moveTo key index := by
  rw [moveAfter]
  split
  · exact .inr ⟨_, rfl⟩
  · exact .inl rfl

theorem get_moveBefore (key anchor k : κ) : (m.moveBefore key anchor).2.get k = m.get k := by
  obtain heq | ⟨index, heq⟩ := m.moveBefore_cases key anchor
  · rw [heq]
  · rw [heq, get_moveTo]

theorem get_moveAfter (key anchor k : κ) : (m.moveAfter key anchor).2.get k = m.get k := by
  obtain heq | ⟨index, heq⟩ := m.moveAfter_cases key anchor
  · rw [heq]
  · rw [heq, get_moveTo]

end

theorem moveBefore_of_notMem (h : key ∉ m.order ∨ anchor ∉ m.order) : m.moveBefore key anchor = (.missing, m) := by
  rw [moveBefore]
  obtain h | h := h
  · rw [position_of_notMem h]
    cases m.position anchor <;> rfl
  · rw [position_of_notMem h]

theorem moveAfter_of_notMem (h : key ∉ m.order ∨ anchor ∉ m.order) : m.moveAfter key anchor = (.missing, m) := by
  rw [moveAfter]
  obtain h | h := h
  · rw [position_of_notMem h]
    cases m.position anchor <;> rfl
  · rw [position_of_notMem h]

theorem moveBefore_self (m : KeyedOrder κ η) (key : κ) : (m.moveBefore key key).2 = m := by
  by_cases hkey : key ∈ m.order
  · have hlt := idxOf_lt_length_of_mem hkey
    rw [moveBefore, position_of_mem hkey]
    dsimp only
    rw [if_neg (lt_irrefl _), moveTo_of_mem hkey, clamp_of_lt hlt, reposition_idxOf hkey]
  · rw [moveBefore_of_notMem (.inl hkey)]

theorem moveAfter_self (m : KeyedOrder κ η) (key : κ) : (m.moveAfter key key).2 = m := by
  by_cases hkey : key ∈ m.order
  · have hlt := idxOf_lt_length_of_mem hkey
    rw [moveAfter, position_of_mem hkey]
    dsimp only
    rw [if_pos le_rfl, moveTo_of_mem hkey, clamp_of_lt hlt, reposition_idxOf hkey]
  · rw [moveAfter_of_notMem (.inl hkey)]

section Anchor

variable (hl : m.order.Nodup) (hkey : key ∈ m.order) (hanchor : anchor ∈ m.order) (hne : anchor ≠ key)

include hl hkey hanchor hne

/-- Taken out of the order, the key leaves the anchor at the index that the key is then put in at. -/
theorem order_moveBefore : (m.moveBefore key anchor).2.order = ahead anchor key (m.order.erase key) := by
  have hlt := idxOf_lt_length_of_mem hanchor
  have htarget : m.clamp (if m.order.idxOf key < m.order.idxOf anchor then (m.order.idxOf anchor : ℤ) - 1
      else m.order.idxOf anchor) = (m.order.erase key).idxOf anchor := by
    rw [idxOf_erase hkey hanchor hne, clamp]
    split <;> omega
  rw [moveBefore, position_of_mem hanchor, position_of_mem hkey]
  dsimp only
  rw [moveTo_of_mem hkey, htarget]
  exact reposition_ahead hl hanchor hne

theorem order_moveAfter : (m.moveAfter key anchor).2.order = behind anchor key (m.order.erase key) := by
  have hlt := idxOf_lt_length_of_mem hanchor
  have hlt' := idxOf_lt_length_of_mem hkey
  have hdiff : m.order.idxOf key ≠ m.order.idxOf anchor := fun heq => hne ((idxOf_inj hanchor).mp heq.symm)
  have htarget : m.clamp (if m.order.idxOf key ≤ m.order.idxOf anchor then (m.order.idxOf anchor : ℤ)
      else m.order.idxOf anchor + 1) = (m.order.erase key).idxOf anchor + 1 := by
    rw [idxOf_erase hkey hanchor hne, clamp]
    split <;> split <;> omega
  rw [moveAfter, position_of_mem hanchor, position_of_mem hkey]
  dsimp only
  rw [moveTo_of_mem hkey, htarget]
  exact reposition_behind hl hanchor hne

end Anchor

/-! ## Every operation -/

inductive Op (κ η : Type) where
  | insert (key : κ) (handle : η)
  | remove (key : κ)
  | moveTo (key : κ) (index : ℤ)
  | moveBefore (key anchor : κ)
  | moveAfter (key anchor : κ)

def perform (m : KeyedOrder κ η) : Op κ η → Bool × KeyedOrder κ η
  | .insert key handle => ((m.insert key handle).1.2.changed, (m.insert key handle).2)
  | .remove key => ((m.remove key).1.2.changed, (m.remove key).2)
  | .moveTo key index => ((m.moveTo key index).1.changed, (m.moveTo key index).2)
  | .moveBefore key anchor => ((m.moveBefore key anchor).1.changed, (m.moveBefore key anchor).2)
  | .moveAfter key anchor => ((m.moveAfter key anchor).1.changed, (m.moveAfter key anchor).2)

def run (ops : List (Op κ η)) : KeyedOrder κ η :=
  ops.foldl (fun m op => (m.perform op).2) empty

theorem Lockstep.moveTo (h : m.Lockstep) (key : κ) (index : ℤ) : (m.moveTo key index).2.Lockstep := by
  by_cases hkey : key ∈ m.order
  · rw [moveTo_of_mem hkey]
    exact h.reorder (perm_reposition hkey (clamp_lt hkey index))
  · rw [moveTo_of_notMem hkey]
    exact h

theorem Lockstep.perform (h : m.Lockstep) (op : Op κ η) : (m.perform op).2.Lockstep := by
  cases op with
  | insert key handle => exact h.insert key handle
  | remove key => exact h.remove key
  | moveTo key index => exact h.moveTo key index
  | moveBefore key anchor =>
    obtain heq | ⟨index, heq⟩ := m.moveBefore_cases key anchor
    · simpa only [KeyedOrder.perform, heq] using h
    · simpa only [KeyedOrder.perform, heq] using h.moveTo key index
  | moveAfter key anchor =>
    obtain heq | ⟨index, heq⟩ := m.moveAfter_cases key anchor
    · simpa only [KeyedOrder.perform, heq] using h
    · simpa only [KeyedOrder.perform, heq] using h.moveTo key index

theorem lockstep_run (ops : List (Op κ η)) : (run ops).Lockstep := by
  induction ops using reverseRecOn with
  | nil => exact lockstep_empty
  | append_singleton ops op ih =>
    rw [run, foldl_append]
    exact ih.perform op

theorem changed_moveTo (hl : m.order.Nodup) (key : κ) (index : ℤ) :
    (m.moveTo key index).1.changed = true ↔ (m.moveTo key index).2.order ≠ m.order := by
  by_cases hkey : key ∈ m.order
  · have hiff := reposition_eq_self_iff hl hkey (clamp_lt hkey index)
    rw [moveTo_of_mem hkey, ne_eq, hiff]
    split
    · next heq => simp [MapMove.changed, heq]
    · next hne => simp [MapMove.changed, hne]
  · rw [moveTo_of_notMem hkey]
    simp [MapMove.changed]

theorem changed_insert (m : KeyedOrder κ η) (key : κ) (handle : η) :
    (m.insert key handle).1.2.changed = true ↔ (m.insert key handle).2.order ≠ m.order := by
  rw [insert]
  split
  · simp [MapMutation.changed]
  · simp [MapMutation.changed]

theorem changed_remove (h : m.Lockstep) (key : κ) :
    (m.remove key).1.2.changed = true ↔ (m.remove key).2.order ≠ m.order := by
  rw [remove]
  split
  · simp [MapMutation.changed]
  · next handle hget =>
    have hkey : key ∈ m.order := (h.keys key).mpr (contains_of_get hget)
    have hne : m.order.filter (· ≠ key) ≠ m.order := fun heq => by
      have hmem := heq ▸ hkey
      simp at hmem
    simpa [MapMutation.changed] using hne

/-- An operation reports a change exactly if the keys, or their order, differ after it. -/
theorem changed_perform (h : m.Lockstep) (op : Op κ η) :
    (m.perform op).1 = true ↔ (m.perform op).2.order ≠ m.order := by
  cases op with
  | insert key handle => exact m.changed_insert key handle
  | remove key => exact changed_remove h key
  | moveTo key index => exact changed_moveTo h.nodup key index
  | moveBefore key anchor =>
    obtain heq | ⟨index, heq⟩ := m.moveBefore_cases key anchor
    · simp [perform, heq, MapMove.changed]
    · simpa only [perform, heq] using changed_moveTo h.nodup key index
  | moveAfter key anchor =>
    obtain heq | ⟨index, heq⟩ := m.moveAfter_cases key anchor
    · simp [perform, heq, MapMove.changed]
    · simpa only [perform, heq] using changed_moveTo h.nodup key index

/-- The order has the keys of the entries once each, every operation reports exactly whether the order has changed,
and a move puts the key next to its anchor, or at its index, among the others in their order. -/
structure Exact (m : KeyedOrder κ η) : Prop where
  lockstep : m.Lockstep
  reports : ∀ op, (m.perform op).1 = true ↔ (m.perform op).2.order ≠ m.order
  before : ∀ key anchor, key ∈ m.order → anchor ∈ m.order → anchor ≠ key →
    (m.moveBefore key anchor).2.order = ahead anchor key (m.order.erase key)
  after : ∀ key anchor, key ∈ m.order → anchor ∈ m.order → anchor ≠ key →
    (m.moveAfter key anchor).2.order = behind anchor key (m.order.erase key)
  index : ∀ key index, key ∈ m.order → (m.moveTo key index).2.order = reposition key (m.clamp index) m.order
  refused : ∀ key anchor, key ∉ m.order ∨ anchor ∉ m.order ∨ anchor = key →
    (m.moveBefore key anchor).2 = m ∧ (m.moveAfter key anchor).2 = m

theorem keyed_order_exact (ops : List (Op κ η)) : (run ops).Exact where
  lockstep := lockstep_run ops
  reports := changed_perform (lockstep_run ops)
  before _ _ hkey hanchor hne := order_moveBefore (lockstep_run ops).nodup hkey hanchor hne
  after _ _ hkey hanchor hne := order_moveAfter (lockstep_run ops).nodup hkey hanchor hne
  index key index hkey := by rw [moveTo_of_mem hkey]
  refused key anchor h := by
    obtain h | h | rfl := h
    · rw [moveBefore_of_notMem (.inl h), moveAfter_of_notMem (.inl h)]
      exact ⟨rfl, rfl⟩
    · rw [moveBefore_of_notMem (.inr h), moveAfter_of_notMem (.inr h)]
      exact ⟨rfl, rfl⟩
    · exact ⟨moveBefore_self _ _, moveAfter_self _ _⟩

end KeyedOrder

end LazilyPy.Collection

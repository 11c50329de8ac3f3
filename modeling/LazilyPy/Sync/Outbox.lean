import Mathlib.Data.List.Sort
import Mathlib.Order.MinMax
import LazilyPy.Lib.Table

/-!
# The outbox

Every frame is stored before it is sent and kept until the peer has acknowledged it. The outbox
keeps the cursor of the acknowledgements and leaves the frames to a store.
-/

namespace LazilyPy.Sync

open List

/-- The operations of a store of frames by epoch. -/
class OutboxStore (S : Type) (B : outParam Type) where
  put : S → ℤ → B → S
  deleteThrough : S → ℤ → S
  scanAfter : S → ℤ → List (ℤ × B)
  loadCursor : S → ℤ
  saveCursor : S → ℤ → S

/-- A store that keeps one frame at each epoch and scans in ascending order. -/
class OrderedStore (S : Type) (B : outParam Type) extends OutboxStore S B where
  /-- The frame at an epoch. -/
  stored : S → ℤ → Option B
  stored_put : ∀ s e b x, stored (put s e b) x = if x = e then some b else stored s x
  stored_deleteThrough : ∀ s e x, stored (deleteThrough s e) x = if x ≤ e then none else stored s x
  stored_saveCursor : ∀ s e x, stored (saveCursor s e) x = stored s x
  loadCursor_put : ∀ s e b, loadCursor (put s e b) = loadCursor s
  loadCursor_deleteThrough : ∀ s e, loadCursor (deleteThrough s e) = loadCursor s
  loadCursor_saveCursor : ∀ s e, loadCursor (saveCursor s e) = max (loadCursor s) e
  mem_scanAfter : ∀ s c e b, (e, b) ∈ scanAfter s c ↔ c < e ∧ stored s e = some b
  ascending_scanAfter : ∀ s c, (scanAfter s c).Pairwise fun x y => x.1 < y.1

attribute [simp] OrderedStore.stored_put OrderedStore.stored_deleteThrough
  OrderedStore.stored_saveCursor OrderedStore.loadCursor_put OrderedStore.loadCursor_deleteThrough
  OrderedStore.loadCursor_saveCursor

/-! ## The store of one process -/

structure InMemoryStore (B : Type) where
  entries : Table (Prod.fst : ℤ × B → ℤ)
  cursor : ℤ

namespace InMemoryStore

variable {B : Type}

/-- `InMemoryStore()`. -/
def empty (B : Type) : InMemoryStore B where
  entries := .empty _
  cursor := 0

def ascending (s : InMemoryStore B) : List (ℤ × B) :=
  s.entries.rows.insertionSort fun x y => x.1 ≤ y.1

instance : OutboxStore (InMemoryStore B) B where
  put s e b := { s with entries := s.entries.put (e, b) }
  deleteThrough s e := { s with entries := s.entries.filter fun x => e < x.1 }
  scanAfter s c := s.ascending.filter fun x => c < x.1
  loadCursor s := s.cursor
  saveCursor s e := { s with cursor := max s.cursor e }

theorem pairwise_ascending (s : InMemoryStore B) : s.ascending.Pairwise fun x y => x.1 < y.1 := by
  have hle : s.ascending.Pairwise fun x y => x.1 ≤ y.1 := by
    have : Std.Total fun x y : ℤ × B => x.1 ≤ y.1 := ⟨fun x y => le_total x.1 y.1⟩
    have : IsTrans (ℤ × B) fun x y => x.1 ≤ y.1 := ⟨fun _ _ _ => le_trans⟩
    exact pairwise_insertionSort _ _
  have hne : s.ascending.Pairwise fun x y => x.1 ≠ y.1 := by
    refine pairwise_map.mp ?_
    exact ((perm_insertionSort _ _).map Prod.fst).nodup_iff.mpr s.entries.nodup
  exact (hle.and hne).imp fun h => lt_of_le_of_ne h.1 h.2

instance : OrderedStore (InMemoryStore B) B where
  stored s e := (s.entries.get? e).map Prod.snd
  stored_put s e b x := by
    simp only [OutboxStore.put, Table.get?_put]
    split <;> rfl
  stored_deleteThrough s e x := by
    simp only [OutboxStore.deleteThrough, Table.get?_filter]
    cases hx : s.entries.get? x with
    | none => simp
    | some v =>
      obtain rfl : v.1 = x := Table.key_of_get? hx
      by_cases hle : v.1 ≤ e
      · simp [Option.filter, hle]
      · simp [Option.filter, hle, lt_of_not_ge hle]
  stored_saveCursor s e x := rfl
  loadCursor_put s e b := rfl
  loadCursor_deleteThrough s e := rfl
  loadCursor_saveCursor s e := rfl
  mem_scanAfter s c e b := by
    simp only [OutboxStore.scanAfter, ascending, mem_filter, mem_insertionSort,
      decide_eq_true_eq, Option.map_eq_some_iff, Table.get?_eq_some]
    constructor
    · rintro ⟨hmem, hlt⟩
      exact ⟨hlt, (e, b), ⟨hmem, rfl⟩, rfl⟩
    · rintro ⟨hlt, x, ⟨hmem, rfl⟩, rfl⟩
      exact ⟨hmem, hlt⟩
  ascending_scanAfter s c := s.pairwise_ascending.filter _

end InMemoryStore

/-! ## Append, acknowledge and replay -/

structure Codec (M B : Type) where
  encodeJson : M → B
  decodeJson : B → M

structure Outbox (S : Type) where
  store : S
  ackedThrough : ℤ

namespace Outbox

open OutboxStore

variable {M S B : Type} [OutboxStore S B] (codec : Codec M B)

/-- `Outbox(store)`. -/
def new (store : S) : Outbox S where
  store := store
  ackedThrough := loadCursor store

/-- The property `acked_through`, which reads the cursor of the store again. -/
def refresh (o : Outbox S) : Outbox S :=
  { o with ackedThrough := max o.ackedThrough (loadCursor o.store) }

def append (o : Outbox S) (epoch : ℤ) (m : M) : Outbox S :=
  { o with store := put o.store epoch (codec.encodeJson m) }

def ackThrough (o : Outbox S) (epoch : ℤ) : Outbox S :=
  let target := max (max epoch o.ackedThrough) (loadCursor o.store)
  if o.ackedThrough < target then
    { store := deleteThrough (saveCursor o.store target) target, ackedThrough := target }
  else { o with store := deleteThrough o.store target }

def replayFrom (o : Outbox S) (cursor : ℤ) : List (ℤ × M) × Outbox S :=
  let o := o.refresh
  ((scanAfter o.store (max cursor o.ackedThrough)).map fun x => (x.1, codec.decodeJson x.2), o)

def retainedEpochs (o : Outbox S) : List ℤ × Outbox S :=
  let o := o.refresh
  ((scanAfter o.store o.ackedThrough).map Prod.fst, o)

end Outbox

namespace Outbox

open OrderedStore

variable {M S B : Type} [OrderedStore S B] {codec : Codec M B} {o : Outbox S}

def Tidy (o : Outbox S) : Prop :=
  OutboxStore.loadCursor o.store = o.ackedThrough

theorem refresh_eq (h : o.Tidy) : o.refresh = o := by
  rw [refresh, h, max_self]

theorem Tidy.append (h : o.Tidy) (e : ℤ) (m : M) : (o.append codec e m).Tidy :=
  (loadCursor_put _ _ _).trans h

theorem stored_append (e : ℤ) (m : M) (x : ℤ) : stored (o.append codec e m).store x =
    if x = e then some (codec.encodeJson m) else stored o.store x :=
  stored_put _ _ _ _

/-- An acknowledgement raises the cursor and prunes what is at or below it. -/
theorem ackThrough_spec (h : o.Tidy) (e : ℤ) :
    (o.ackThrough e).Tidy ∧ (o.ackThrough e).ackedThrough = max o.ackedThrough e ∧
      ∀ x, stored (o.ackThrough e).store x = if x ≤ max o.ackedThrough e then none else stored o.store x := by
  have htarget : max (max e o.ackedThrough) (OutboxStore.loadCursor o.store) = max o.ackedThrough e := by
    rw [h]
    omega
  unfold ackThrough
  rw [htarget]
  by_cases hlt : o.ackedThrough < max o.ackedThrough e
  · rw [if_pos hlt]
    refine ⟨?_, rfl, fun x => by simp⟩
    simp only [Tidy, loadCursor_deleteThrough, loadCursor_saveCursor]
    rw [h]
    omega
  · rw [if_neg hlt]
    refine ⟨?_, ?_, fun x => by simp⟩
    · simpa [Tidy] using h
    · dsimp only
      omega

/-- A replay is the stored frames beyond the cursors, in ascending order. -/
theorem replayFrom_spec (codec : Codec M B) (h : o.Tidy) (cursor : ℤ) : (o.replayFrom codec cursor).2 = o ∧
    ((o.replayFrom codec cursor).1.Pairwise fun x y => x.1 < y.1) ∧
    ∀ e m, (e, m) ∈ (o.replayFrom codec cursor).1 ↔ cursor < e ∧ o.ackedThrough < e ∧
      ∃ b, stored o.store e = some b ∧ codec.decodeJson b = m := by
  refine ⟨refresh_eq h, pairwise_map.mpr (ascending_scanAfter _ _), fun e m => ?_⟩
  simp only [replayFrom, refresh_eq h, mem_map, Prod.exists, Prod.mk.injEq, mem_scanAfter, max_lt_iff]
  constructor
  · rintro ⟨e', b, ⟨hlt, hstored⟩, rfl, rfl⟩
    exact ⟨hlt.1, hlt.2, b, hstored, rfl⟩
  · rintro ⟨hcursor, hacked, b, hstored, rfl⟩
    exact ⟨e, b, ⟨⟨hcursor, hacked⟩, hstored⟩, rfl, rfl⟩

theorem retainedEpochs_spec (h : o.Tidy) : o.retainedEpochs.2 = o ∧
    ∀ e, e ∈ o.retainedEpochs.1 ↔ o.ackedThrough < e ∧ (stored o.store e).isSome := by
  refine ⟨refresh_eq h, fun e => ?_⟩
  simp only [retainedEpochs, refresh_eq h, mem_map, Prod.exists, mem_scanAfter, Option.isSome_iff_exists]
  constructor
  · rintro ⟨e, b, ⟨hlt, hstored⟩, rfl⟩
    exact ⟨hlt, b, hstored⟩
  · rintro ⟨hlt, b, hstored⟩
    exact ⟨e, b, ⟨hlt, hstored⟩, rfl⟩

end Outbox

end LazilyPy.Sync

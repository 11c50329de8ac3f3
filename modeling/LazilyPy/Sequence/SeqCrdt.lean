import Mathlib.Data.List.Sort
import Mathlib.Order.MinMax
import LazilyPy.Lib.Keys
import LazilyPy.Lib.Table

/-!
# The move-aware sequence

An element is three registers, each with its own stamp: a value, a position and a tombstone. Order is
the order of the positions of the live elements. A merge takes from each register the side with the
later stamp.
-/

namespace LazilyPy.Sequence

open List

@[ext] structure Position where
  frac : List ℕ
  peer : ℤ
  deriving DecidableEq, Repr

namespace Position

def toPair (p : Position) : List ℕ ×ₗ ℤ :=
  toLex (p.frac, p.peer)

theorem toPair_injective : Function.Injective toPair := by
  rintro ⟨f, p⟩ ⟨f', p'⟩ h
  cases h
  rfl

instance : LinearOrder Position :=
  LinearOrder.lift' toPair toPair_injective

end Position

def zeroStamp : Stamp :=
  ⟨0, 0, 0⟩

/-! ## The clock -/

structure SeqClock where
  lastWall : ℤ := 0
  lastLogical : ℤ := 0
  deriving DecidableEq, Repr

namespace SeqClock

def send (now : ℤ) (c : SeqClock) : SeqClock :=
  if c.lastWall < now then ⟨now, 0⟩ else ⟨c.lastWall, c.lastLogical + 1⟩

def recv (remote : Stamp) (now : ℤ) (c : SeqClock) : SeqClock :=
  let wall := max (max c.lastWall remote.wall) now
  { lastWall := wall
    lastLogical :=
      if wall = c.lastWall ∧ wall = remote.wall then max c.lastLogical remote.logical + 1
      else if wall = c.lastWall then c.lastLogical + 1
      else if wall = remote.wall then remote.logical + 1
      else 0 }

def stamp (peer : ℤ) (c : SeqClock) : Stamp :=
  ⟨c.lastWall, c.lastLogical, peer⟩

def Passed (c : SeqClock) (s : Stamp) : Prop :=
  s.wall < c.lastWall ∨ s.wall = c.lastWall ∧ s.logical ≤ c.lastLogical

variable {c : SeqClock}

/-- What is minted next is later than everything the clock has passed. -/
theorem Passed.lt_send {s : Stamp} (h : c.Passed s) (now peer : ℤ) : s < (c.send now).stamp peer := by
  rw [Stamp.lt_iff]
  unfold Passed at h
  simp only [send]
  split
  · exact .inl (by dsimp only [stamp]; omega)
  · dsimp only [stamp]
    omega

theorem Passed.send {s : Stamp} (h : c.Passed s) (now : ℤ) : (c.send now).Passed s := by
  unfold Passed at h ⊢
  simp only [SeqClock.send]
  split
  · dsimp only
    omega
  · dsimp only
    omega

theorem passed_send (c : SeqClock) (now peer : ℤ) : (c.send now).Passed ((c.send now).stamp peer) :=
  .inr ⟨rfl, le_rfl⟩

theorem Passed.recv {s : Stamp} (h : c.Passed s) (remote : Stamp) (now : ℤ) :
    (c.recv remote now).Passed s := by
  unfold Passed at h ⊢
  simp only [SeqClock.recv]
  split
  · omega
  · split
    · omega
    · split
      · omega
      · omega

theorem passed_recv (c : SeqClock) (remote : Stamp) (now : ℤ) : (c.recv remote now).Passed remote := by
  unfold Passed
  simp only [SeqClock.recv]
  split
  · omega
  · split
    · omega
    · split
      · omega
      · omega

/-- The clock has passed what is at or below a stamp that it has passed. -/
theorem Passed.of_le {s s' : Stamp} (h : c.Passed s') (hle : s ≤ s') : c.Passed s := by
  obtain rfl | hlt := hle.eq_or_lt
  · exact h
  · rw [Stamp.lt_iff] at hlt
    unfold Passed at h ⊢
    omega

end SeqClock

/-! ## Elements -/

structure SeqElement (V : Type) where
  id : String
  value : V
  valueStamp : Stamp
  position : Position
  positionStamp : Stamp
  deleted : Bool := false
  deletedStamp : Stamp := zeroStamp
  deriving DecidableEq

inductive Register where
  | value | position | deleted
  deriving DecidableEq

variable {V : Type}

namespace SeqElement

def stamp (e : SeqElement V) : Register → Stamp
  | .value => e.valueStamp
  | .position => e.positionStamp
  | .deleted => e.deletedStamp

def Same (e e' : SeqElement V) : Register → Prop
  | .value => e.value = e'.value
  | .position => e.position = e'.position
  | .deleted => e.deleted = e'.deleted

def maxStamp (e : SeqElement V) : Stamp :=
  max (max e.valueStamp e.positionStamp) e.deletedStamp

theorem stamp_le_maxStamp (e : SeqElement V) (r : Register) : e.stamp r ≤ e.maxStamp := by
  cases r with
  | value => exact (le_max_left _ _).trans (le_max_left _ _)
  | position => exact (le_max_right _ _).trans (le_max_left _ _)
  | deleted => exact le_max_right _ _

theorem same_refl (e : SeqElement V) (r : Register) : e.Same e r := by
  cases r <;> rfl

variable {e o : SeqElement V}

theorem Same.symm {f : SeqElement V} {r : Register} (h : e.Same f r) : f.Same e r := by
  cases r with
  | value => exact Eq.symm h
  | position => exact Eq.symm h
  | deleted => exact Eq.symm h

theorem Same.trans {f g : SeqElement V} {r : Register} (h : e.Same f r) (h' : f.Same g r) : e.Same g r := by
  cases r with
  | value => exact Eq.trans h h'
  | position => exact Eq.trans h h'
  | deleted => exact Eq.trans h h'

/-- Elements with the same stamps in the same registers are equal. -/
theorem eq_of_same {e' : SeqElement V} (hid : e.id = e'.id) (hstamp : ∀ r, e.stamp r = e'.stamp r)
    (hsame : ∀ r, e.Same e' r) : e = e' := by
  have hv := hsame .value
  have hp := hsame .position
  have hd := hsame .deleted
  have hvs := hstamp .value
  have hps := hstamp .position
  have hds := hstamp .deleted
  cases e
  cases e'
  simp_all [Same, stamp]

/-- The element after merging `other` into it: each register adopts the later side. -/
def merged (existing other : SeqElement V) : SeqElement V where
  id := existing.id
  position :=
    if existing.positionStamp < other.positionStamp then other.position else existing.position
  positionStamp :=
    if existing.positionStamp < other.positionStamp then other.positionStamp
    else existing.positionStamp
  value := if existing.valueStamp < other.valueStamp then other.value else existing.value
  valueStamp :=
    if existing.valueStamp < other.valueStamp then other.valueStamp else existing.valueStamp
  deleted :=
    if existing.deletedStamp < other.deletedStamp then other.deleted || existing.deleted
    else existing.deleted
  deletedStamp :=
    if existing.deletedStamp < other.deletedStamp then other.deletedStamp
    else existing.deletedStamp

@[simp] theorem id_merged (e o : SeqElement V) : (e.merged o).id = e.id :=
  rfl

/-- Whether a merge of `other` changes a register. -/
def changedBy (existing other : SeqElement V) : Bool :=
  decide (existing.positionStamp < other.positionStamp) ||
    decide (existing.valueStamp < other.valueStamp) ||
    decide (existing.deletedStamp < other.deletedStamp)

theorem changedBy_eq_false : e.changedBy o = false ↔ ∀ r, o.stamp r ≤ e.stamp r := by
  simp only [changedBy, Bool.or_eq_false_iff, decide_eq_false_iff_not, not_lt]
  constructor
  · rintro ⟨⟨hp, hv⟩, hd⟩ (_ | _ | _)
    · exact hv
    · exact hp
    · exact hd
  · intro h
    exact ⟨⟨h .position, h .value⟩, h .deleted⟩

/-- A merge takes the later stamp in each register. -/
theorem stamp_merged (e o : SeqElement V) (r : Register) : (e.merged o).stamp r = max (e.stamp r) (o.stamp r) := by
  have hmax : ∀ s t : Stamp, (if s < t then t else s) = max s t := by
    intro s t
    split
    · next h => exact (max_eq_right h.le).symm
    · next h => exact (max_eq_left (not_lt.mp h)).symm
  cases r with
  | value => exact hmax _ _
  | position => exact hmax _ _
  | deleted => exact hmax _ _

/-- Merging what changes nothing gives the element back. -/
theorem merged_eq_self (h : ∀ r, o.stamp r ≤ e.stamp r) : e.merged o = e := by
  have hv : ¬ e.valueStamp < o.valueStamp := not_lt.mpr (h .value)
  have hp : ¬ e.positionStamp < o.positionStamp := not_lt.mpr (h .position)
  have hd : ¬ e.deletedStamp < o.deletedStamp := not_lt.mpr (h .deleted)
  simp [merged, hv, hp, hd]

/-- Only a removal stamps the tombstone, and it does so above the zero stamp. -/
structure Tombstoned (e : SeqElement V) : Prop where
  deleted : e.deleted = true ↔ e.deletedStamp ≠ zeroStamp
  le : zeroStamp ≤ e.deletedStamp

/-- What a merge leaves in a register is what the side with the later stamp held. -/
theorem same_merged (he : e.Tombstoned) (ho : o.Tombstoned) (r : Register) :
    (e.merged o).stamp r = e.stamp r ∧ (e.merged o).Same e r ∨
      (e.merged o).stamp r = o.stamp r ∧ (e.merged o).Same o r := by
  rw [stamp_merged]
  by_cases h : e.stamp r < o.stamp r
  · refine .inr ⟨max_eq_right h.le, ?_⟩
    cases r with
    | value => exact if_pos h
    | position => exact if_pos h
    | deleted =>
      have hdead : o.deleted = true := ho.deleted.mpr (he.le.trans_lt h).ne'
      show (if e.deletedStamp < o.deletedStamp then _ else _) = o.deleted
      rw [if_pos (show e.deletedStamp < o.deletedStamp from h), hdead, Bool.true_or]
  · refine .inl ⟨max_eq_left (not_lt.mp h), ?_⟩
    cases r with
    | value => exact if_neg h
    | position => exact if_neg h
    | deleted => exact if_neg h

end SeqElement

/-! ## Fractional indices -/

/-- The loop of `_frac_between` from index `i` on. Past the ends of both keys there is a gap. -/
def fracLoop (lo hi : List ℕ) : ℕ → ℕ → List ℕ
  | 0, i => lo.take i ++ [lo.getD i 0 + (hi.getD i 256 - lo.getD i 0) / 2]
  | fuel + 1, i =>
    if 1 < hi.getD i 256 - lo.getD i 0 then
      lo.take i ++ [lo.getD i 0 + (hi.getD i 256 - lo.getD i 0) / 2]
    else fracLoop lo hi fuel (i + 1)

def fracBetween (lo hi : List ℕ) : List ℕ :=
  fracLoop lo hi (max lo.length hi.length) 0

/-- A key after `lo`. -/
def fracAfter (lo : List ℕ) : List ℕ :=
  lo ++ [128]

/-! ## Replicas -/

abbrev Elements (V : Type) := Table (SeqElement.id : SeqElement V → String)

structure SeqCrdt (V : Type) where
  peer : ℤ
  clock : SeqClock := {}
  elements : Elements V := Table.empty _

/-- The local operations, with the wall time that the caller supplies. -/
inductive LocalOp (V : Type) where
  | insertBack (id : String) (value : V) (now : ℤ)
  | insertFront (id : String) (value : V) (now : ℤ)
  | moveAfter (id anchor : String) (now : ℤ)
  | setValue (id : String) (value : V) (now : ℤ)
  | remove (id : String) (now : ℤ)

namespace SeqCrdt

def get? (s : SeqCrdt V) (id : String) : Option (SeqElement V) :=
  s.elements.get? id

def orderedAlive (s : SeqCrdt V) : List (SeqElement V) :=
  (s.elements.rows.filter fun e => !e.deleted).insertionSort fun a b => a.position ≤ b.position

def order (s : SeqCrdt V) : List String :=
  s.orderedAlive.map SeqElement.id

/-- Mint a stamp and write a new element over whatever has its id. -/
def insertAt (id : String) (value : V) (frac : List ℕ) (now : ℤ) (s : SeqCrdt V) : SeqCrdt V :=
  let clock := s.clock.send now
  { s with
    clock
    elements := s.elements.put
      { id, value
        valueStamp := clock.stamp s.peer
        position := ⟨frac, s.peer⟩
        positionStamp := clock.stamp s.peer } }

/-- Where `insert_back` puts an element. -/
def backFrac (s : SeqCrdt V) : List ℕ :=
  fracAfter (match s.orderedAlive.getLast? with
    | some e => e.position.frac
    | none => [])

/-- Where `insert_front` puts an element. -/
def frontFrac (s : SeqCrdt V) : List ℕ :=
  fracBetween [] (match s.orderedAlive.head? with
    | some e => e.position.frac
    | none => [256])

/-- Where `move_after` puts an element, if the anchor is alive. -/
def afterFrac (s : SeqCrdt V) (anchor : String) : Option (List ℕ) :=
  match s.orderedAlive.dropWhile fun e => e.id ≠ anchor with
  | [] => none
  | [e] => some (fracAfter e.position.frac)
  | e :: next :: _ => some (fracBetween e.position.frac next.position.frac)

/-- Mint a stamp and reassign one register of an element that is there. -/
def reassign (id : String) (now : ℤ) (f : Stamp → SeqElement V → SeqElement V) (s : SeqCrdt V) : SeqCrdt V :=
  match s.get? id with
  | none => s
  | some e =>
    let clock := s.clock.send now
    { s with clock, elements := s.elements.put (f (clock.stamp s.peer) e) }

def perform (s : SeqCrdt V) : LocalOp V → SeqCrdt V
  | .insertBack id value now => s.insertAt id value s.backFrac now
  | .insertFront id value now => s.insertAt id value s.frontFrac now
  | .moveAfter id anchor now =>
    match s.afterFrac anchor with
    | none => s
    | some frac => s.reassign id now fun stamp e =>
      if e.positionStamp < stamp then
        { e with position := ⟨frac, s.peer⟩, positionStamp := stamp }
      else e
  | .setValue id value now => s.reassign id now fun stamp e =>
    if e.valueStamp < stamp then { e with value, valueStamp := stamp } else e
  | .remove id now => s.reassign id now fun stamp e =>
    if e.deletedStamp < stamp then { e with deleted := true, deletedStamp := stamp } else e

/-- Merge one element of the other side. The flag tells whether anything has changed so far. -/
def mergeElement (acc : Bool × Elements V) (other : SeqElement V) : Bool × Elements V :=
  match acc.2.get? other.id with
  | none => (true, acc.2.put other)
  | some existing => (acc.1 || existing.changedBy other, acc.2.put (existing.merged other))

/-- Merge `other` into the replica, and tell whether it has changed. -/
def merge (s other : SeqCrdt V) (now : Option ℤ) : Bool × SeqCrdt V :=
  let clock := other.elements.rows.foldl (fun c e => c.recv e.maxStamp (now.getD 0)) s.clock
  let acc := other.elements.rows.foldl mergeElement (false, s.elements)
  (acc.1, { s with clock, elements := acc.2 })

/-! ### What a merge does to each element -/

theorem get?_mergeElement (acc : Bool × Elements V) (o : SeqElement V) (id : String) : (mergeElement acc o).2.get? id =
      if id = o.id then some ((acc.2.get? id).elim o (·.merged o)) else acc.2.get? id := by
  unfold mergeElement
  split
  · next h =>
    simp only [Table.get?_put]
    by_cases hid : id = o.id
    · subst hid
      simp [h]
    · simp [hid]
  · next e h =>
    have he : e.id = o.id := Table.key_of_get? h
    simp only [Table.get?_put, SeqElement.id_merged, he]
    by_cases hid : id = o.id
    · subst hid
      simp [h]
    · simp [hid]

variable {l : List (SeqElement V)} {acc : Bool × Elements V}

theorem get?_mergeAll_of_notMem {id : String} (h : ∀ o ∈ l, o.id ≠ id) :
    (l.foldl mergeElement acc).2.get? id = acc.2.get? id := by
  induction l generalizing acc with
  | nil => rfl
  | cons o l ih =>
    have ho : id ≠ o.id := (h o mem_cons_self).symm
    rw [foldl_cons, ih fun o' ho' => h o' (mem_cons_of_mem o ho'), get?_mergeElement, if_neg ho]

theorem get?_mergeAll_of_mem (hl : (l.map SeqElement.id).Nodup) {o : SeqElement V} (ho : o ∈ l) :
    (l.foldl mergeElement acc).2.get? o.id = some ((acc.2.get? o.id).elim o (·.merged o)) := by
  induction l generalizing acc with
  | nil => cases ho
  | cons a l ih =>
    obtain ⟨ha, hl⟩ := nodup_cons.mp hl
    have hother : ∀ o' ∈ l, o'.id ≠ a.id := fun o' ho' heq => ha (heq ▸ mem_map_of_mem ho')
    rw [foldl_cons]
    obtain rfl | ho := mem_cons.mp ho
    · rw [get?_mergeAll_of_notMem hother, get?_mergeElement, if_pos rfl]
    · rw [ih hl ho, get?_mergeElement, if_neg (hother o ho)]

/-- Which merges of one element after the other report a change. -/
theorem mergeAll_changed (hl : (l.map SeqElement.id).Nodup) : (l.foldl mergeElement acc).1 = false ↔ acc.1 = false ∧
      ∀ o ∈ l, ∃ e, acc.2.get? o.id = some e ∧ e.changedBy o = false := by
  induction l generalizing acc with
  | nil => simp
  | cons a l ih =>
    obtain ⟨ha, hl⟩ := nodup_cons.mp hl
    have hother : ∀ o ∈ l, o.id ≠ a.id := fun o ho heq => ha (heq ▸ mem_map_of_mem ho)
    have hget : ∀ o ∈ l, (mergeElement acc a).2.get? o.id = acc.2.get? o.id := by
      intro o ho
      rw [get?_mergeElement, if_neg (hother o ho)]
    have hfirst : (mergeElement acc a).1 = false ↔ acc.1 = false ∧
        ∃ e, acc.2.get? a.id = some e ∧ e.changedBy a = false := by
      unfold mergeElement
      split
      · next h => simp [h]
      · next e h => simp [h]
    rw [foldl_cons, ih hl, hfirst, forall_mem_cons, and_assoc]
    refine and_congr_right fun _ => and_congr_right fun _ => ?_
    refine forall₂_congr fun o ho => ?_
    rw [hget o ho]

variable {s t : SeqCrdt V} {now : Option ℤ}

/-- What a merge leaves of an element. -/
theorem get?_merge (s t : SeqCrdt V) (now : Option ℤ) (id : String) : (s.merge t now).2.get? id = match t.get? id with
      | none => s.get? id
      | some o => some ((s.get? id).elim o (·.merged o)) := by
  cases ht : t.get? id with
  | none =>
    have hnone : ∀ o ∈ t.elements.rows, o.id ≠ id := Table.get?_eq_none.mp ht
    exact get?_mergeAll_of_notMem hnone
  | some o =>
    obtain ⟨hmem, rfl⟩ := Table.get?_eq_some.mp ht
    exact get?_mergeAll_of_mem t.elements.nodup hmem

/-- The registers of `t` are no later than those of `s`. -/
def Le (t s : SeqCrdt V) : Prop :=
  ∀ id o, t.get? id = some o → ∃ e, s.get? id = some e ∧ ∀ r, o.stamp r ≤ e.stamp r

/-- A merge reports no change exactly if nothing in the other side is later. -/
theorem merge_changed : (s.merge t now).1 = false ↔ t.Le s := by
  have hall : (s.merge t now).1 = false ↔ false = false ∧ ∀ o ∈ t.elements.rows,
      ∃ e, s.elements.get? o.id = some e ∧ e.changedBy o = false :=
    mergeAll_changed t.elements.nodup
  rw [hall]
  constructor
  · rintro ⟨_, h⟩ id o ho
    obtain ⟨hmem, rfl⟩ := Table.get?_eq_some.mp ho
    obtain ⟨e, he, hle⟩ := h o hmem
    exact ⟨e, he, SeqElement.changedBy_eq_false.mp hle⟩
  · intro h
    refine ⟨rfl, fun o ho => ?_⟩
    obtain ⟨e, he, hle⟩ := h o.id o (Table.get?_of_mem ho)
    exact ⟨e, he, SeqElement.changedBy_eq_false.mpr hle⟩

theorem Le.refl (s : SeqCrdt V) : s.Le s :=
  fun _ o ho => ⟨o, ho, fun _ => le_rfl⟩

theorem Le.trans {u : SeqCrdt V} (h : t.Le s) (h' : s.Le u) : t.Le u := by
  intro id o ho
  obtain ⟨e, he, hle⟩ := h id o ho
  obtain ⟨f, hf, hle'⟩ := h' id e he
  exact ⟨f, hf, fun r => (hle r).trans (hle' r)⟩

/-- A merge is at or above either side. -/
theorem le_merge_left (s t : SeqCrdt V) (now : Option ℤ) : s.Le (s.merge t now).2 := by
  intro id e he
  rw [get?_merge]
  cases ht : t.get? id with
  | none => exact ⟨e, he, fun _ => le_rfl⟩
  | some o =>
    refine ⟨e.merged o, by simp [he], fun r => ?_⟩
    rw [SeqElement.stamp_merged]
    exact le_max_left _ _

theorem le_merge_right (s t : SeqCrdt V) (now : Option ℤ) : t.Le (s.merge t now).2 := by
  intro id o ho
  rw [get?_merge, ho]
  cases hs : s.get? id with
  | none => exact ⟨o, rfl, fun _ => le_rfl⟩
  | some e =>
    refine ⟨e.merged o, rfl, fun r => ?_⟩
    rw [SeqElement.stamp_merged]
    exact le_max_right _ _

/-- A merge that changes nothing leaves every element as it is. -/
theorem get?_merge_of_le (h : t.Le s) (now : Option ℤ) (id : String) : (s.merge t now).2.get? id = s.get? id := by
  rw [get?_merge]
  cases ht : t.get? id with
  | none => rfl
  | some o =>
    obtain ⟨e, he, hle⟩ := h id o ht
    simp [he, SeqElement.merged_eq_self hle]

end SeqCrdt

end LazilyPy.Sequence

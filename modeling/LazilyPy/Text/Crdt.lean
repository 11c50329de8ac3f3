import LazilyPy.Text.Element

/-!
# The text replica

A `TextCrdt` holds its elements by id, a Lamport counter, and a cache of the text order that
reads fill and that inserts and merges drop. A delete leaves the cache in place: it changes
tombstones, and the order depends on ids and origins only.
-/

namespace LazilyPy.Text

open List Option

variable {α : Type}

/-- A replica. No element is newer than its counter, and a cached order is the order. -/
structure TextCrdt (α : Type) where
  peer : ℤ
  counter : ℕ
  byId : Table (TextElement.id (α := α))
  /-- `_ordered_cache`, by the ids of the elements. -/
  orderedCache : Option (List OpId)
  counted : ∀ e ∈ byId.rows, e.id.counter ≤ counter
  cached : ∀ l, orderedCache = some l → l = (order byId.rows).map TextElement.id

namespace TextCrdt

/-- `TextCrdt(peer)`. -/
def empty (α : Type) (peer : ℤ) : TextCrdt α where
  peer := peer
  counter := 0
  byId := .empty _
  orderedCache := none
  counted := nofun
  cached := nofun

def get? (t : TextCrdt α) (i : OpId) : Option (TextElement α) :=
  t.byId.get? i

def fork (t : TextCrdt α) (peer : ℤ) : TextCrdt α :=
  { t with peer := peer, orderedCache := none, cached := nofun }

/-! ## Reading -/

/-- `_visible_ordered()`: the order, from the cache if there is one, which it fills. -/
def visibleOrdered (t : TextCrdt α) : List (TextElement α) × TextCrdt α :=
  match t.orderedCache with
  | some l => (l.filterMap t.byId.get?, t)
  | none =>
    let ordered := order t.byId.rows
    (ordered, { t with
      orderedCache := some (ordered.map TextElement.id)
      cached := fun _ h => (some.inj h).symm })

/-- `[e for e in self._visible_ordered() if not e.deleted]`. -/
def visible (t : TextCrdt α) : List (TextElement α) :=
  t.visibleOrdered.1.filter fun e => !e.deleted

def text (t : TextCrdt α) : List α :=
  t.visible.map TextElement.ch

section Reading

variable (t : TextCrdt α)

/-- What the cache holds is the order. -/
theorem visibleOrdered_fst : t.visibleOrdered.1 = order t.byId.rows := by
  unfold visibleOrdered
  split
  · next l hl =>
    have hget : ∀ e ∈ order t.byId.rows, t.byId.get? e.id = some e :=
      fun e he => Table.get?_of_mem (mem_of_mem_order he)
    rw [t.cached l hl, filterMap_map]
    exact (filterMap_congr hget).trans filterMap_some
  · rfl

@[simp] theorem visibleOrdered_peer : t.visibleOrdered.2.peer = t.peer := by
  unfold visibleOrdered
  split <;> rfl

@[simp] theorem visibleOrdered_counter : t.visibleOrdered.2.counter = t.counter := by
  unfold visibleOrdered
  split <;> rfl

@[simp] theorem visibleOrdered_byId : t.visibleOrdered.2.byId = t.byId := by
  unfold visibleOrdered
  split <;> rfl

theorem visible_eq : t.visible = (order t.byId.rows).filter fun e => !e.deleted := by
  rw [visible, visibleOrdered_fst]

theorem mem_of_mem_visible {e : TextElement α} (h : e ∈ t.visible) : e ∈ t.byId.rows := by
  rw [visible_eq] at h
  exact mem_of_mem_order (mem_filter.mp h).1

theorem deleted_of_mem_visible {e : TextElement α} (h : e ∈ t.visible) : e.deleted = false := by
  rw [visible_eq] at h
  simpa using (mem_filter.mp h).2

end Reading

/-! ## Local edits -/

def nextId (t : TextCrdt α) : OpId :=
  ⟨t.counter + 1, t.peer⟩

theorem nextId_pos (t : TextCrdt α) : 0 < t.nextId.counter :=
  Nat.succ_pos _

/-- A new element, inserted after an origin that is not newer than the counter. -/
def place (t : TextCrdt α) (ch : α) (origin : Option OpId)
    (h : ∀ o, origin = some o → o.counter ≤ t.counter) : TextCrdt α where
  peer := t.peer
  counter := t.counter + 1
  byId := t.byId.put
    { id := t.nextId
      ch := ch
      origin := origin
      deleted := false
      deleteId := none
      minted := t.nextId_pos
      older := fun o ho => Nat.lt_succ_of_le (h o ho)
      marked := rfl
      stamped := nofun }
  orderedCache := none
  counted := by
    intro e he
    rcases Table.mem_put.mp he with rfl | ⟨he, _⟩
    · exact le_rfl
    · exact Nat.le_succ_of_le (t.counted e he)
  cached := nofun

/-- The loop of `seed` and `insert_str`: each character is inserted after the one before. -/
def placeAll (t : TextCrdt α) (origin : Option OpId)
    (h : ∀ o, origin = some o → o.counter ≤ t.counter) : List α → List OpId × TextCrdt α
  | [] => ([], t)
  | ch :: chars =>
    let rest := placeAll (t.place ch origin h) (some t.nextId) (fun _ ho => (some.inj ho) ▸ le_rfl) chars
    (t.nextId :: rest.1, rest.2)

def seed (peer : ℤ) (chars : List α) : TextCrdt α :=
  { (placeAll (empty α peer) none nofun chars).2 with orderedCache := none, cached := nofun }

def indexToOrigin (t : TextCrdt α) (index : ℤ) : Option OpId × ℕ :=
  if index ≤ 0 then (none, 0)
  else if t.visible.length ≤ index then
    ((t.visible.getLast?).map TextElement.id, t.visible.length)
  else ((t.visible[(index - 1).toNat]?).map TextElement.id, index.toNat)

theorem indexToOrigin_visible {t : TextCrdt α} {index : ℤ} {o : OpId}
    (h : (t.indexToOrigin index).1 = some o) : ∃ e ∈ t.visible, e.id = o := by
  unfold indexToOrigin at h
  split at h
  · cases h
  · split at h
    · obtain ⟨e, he, rfl⟩ := map_eq_some_iff.mp h
      exact ⟨e, mem_of_getLast? he, rfl⟩
    · obtain ⟨e, he, rfl⟩ := map_eq_some_iff.mp h
      exact ⟨e, mem_of_getElem? he, rfl⟩

theorem indexToOrigin_counter (t : TextCrdt α) (index : ℤ) (o : OpId)
    (h : (t.indexToOrigin index).1 = some o) : o.counter ≤ t.counter := by
  obtain ⟨e, he, rfl⟩ := indexToOrigin_visible h
  exact t.counted e (t.mem_of_mem_visible he)

def insert (t : TextCrdt α) (index : ℤ) (ch : List α) : Except String (OpId × TextCrdt α) :=
  match ch with
  | [c] => .ok (t.nextId, t.place c (t.indexToOrigin index).1 (t.indexToOrigin_counter index))
  | _ => .error "insert takes exactly one character"

def insertStr (t : TextCrdt α) (index : ℤ) (chars : List α) : List OpId × TextCrdt α :=
  let placed := t.placeAll (t.indexToOrigin index).1 (t.indexToOrigin_counter index) chars
  (placed.1, { placed.2 with orderedCache := none, cached := nofun })

/-- A delete changes the rows in place, and neither ids nor origins. -/
theorem rows_put_delete {byId : Table (TextElement.id (α := α))} {target : TextElement α}
    (h : target ∈ byId.rows) (d : OpId) (hd : 0 < d.counter) :
    (byId.put (target.delete d hd)).rows = byId.rows.map fun e => if e.id = target.id then e.delete d hd else e := by
  rw [Table.rows_put_of_mem (v := target.delete d hd) (List.mem_map.mpr ⟨target, h, rfl⟩)]
  refine map_congr_left fun e he => ?_
  by_cases hid : e.id = target.id
  · rw [if_pos hid, Table.eq_of_key_eq he h hid]
    exact if_pos rfl
  · rw [if_neg hid]
    exact if_neg hid

/-- `target.deleted = True` with a new delete id. The cached order stays right. -/
def tombstone (t : TextCrdt α) (target : TextElement α) (h : target ∈ t.byId.rows) : TextCrdt α where
  peer := t.peer
  counter := t.counter + 1
  byId := t.byId.put (target.delete t.nextId t.nextId_pos)
  orderedCache := t.orderedCache
  counted := by
    intro e he
    rcases Table.mem_put.mp he with rfl | ⟨he, _⟩
    · exact Nat.le_succ_of_le (t.counted target h)
    · exact Nat.le_succ_of_le (t.counted e he)
  cached := by
    intro l hl
    rw [t.cached l hl, rows_put_delete h, order_map, List.map_map]
    · refine map_congr_left fun e _ => ?_
      simp only [Function.comp_apply]
      split <;> rfl
    · intro e
      split <;> rfl
    · intro e
      split <;> rfl

def delete (t : TextCrdt α) (index : ℤ) : Option OpId × TextCrdt α :=
  if index < 0 ∨ t.visible.length ≤ index then (none, t.visibleOrdered.2)
  else
    match h : t.visible[index.toNat]? with
    | none => (none, t.visibleOrdered.2)
    | some target => (some t.nextId, t.visibleOrdered.2.tombstone target
        (t.visibleOrdered_byId ▸ t.mem_of_mem_visible (mem_of_getElem? h)))

/-! ## Observing the elements of another replica -/

/-- One op of `apply_delta`, with the flag that tells whether anything has changed. -/
def observe (acc : Table (TextElement.id (α := α)) × Bool) (op : TextOp α) : Table (TextElement.id (α := α)) × Bool :=
  match acc.1.get? op.id with
  | none => (acc.1.put op, true)
  | some existing =>
    match existing.absorb op with
    | none => acc
    | some joined => (acc.1.put joined, true)

/-- If nothing has changed, there was nothing to learn from any op. -/
theorem foldl_observe_unchanged {ops : List (TextOp α)}
    {acc : Table (TextElement.id (α := α)) × Bool} (h : (ops.foldl observe acc).2 = false) :
    ops.foldl observe acc = acc ∧ ∀ op ∈ ops, ∃ e, acc.1.get? op.id = some e ∧ e.absorb op = none := by
  have hstep : ∀ (acc : Table (TextElement.id (α := α)) × Bool) op, (observe acc op).2 = false →
      observe acc op = acc ∧ ∃ e, acc.1.get? op.id = some e ∧ e.absorb op = none := by
    intro acc op h
    unfold observe at h ⊢
    split at h
    · cases h
    · next e he =>
      split at h
      · next habsorb => exact ⟨rfl, e, he, habsorb⟩
      · cases h
  induction ops generalizing acc with
  | nil => exact ⟨rfl, nofun⟩
  | cons op ops ih =>
    rw [foldl_cons] at h ⊢
    obtain ⟨hsame, hrest⟩ := ih h
    rw [hsame] at h ⊢
    obtain ⟨hop, hknown⟩ := hstep acc op h
    rw [hop] at hrest ⊢
    refine ⟨rfl, fun op' hop' => ?_⟩
    rcases mem_cons.mp hop' with rfl | hop'
    · exact hknown
    · exact hrest op' hop'

def advance (counter : ℕ) (rows : List (TextElement α)) : ℕ :=
  rows.foldl (fun c e => max c e.id.counter) counter

theorem le_advance (counter : ℕ) (rows : List (TextElement α)) : counter ≤ advance counter rows := by
  induction rows generalizing counter with
  | nil => exact le_rfl
  | cons e rows ih => exact (le_max_left _ _).trans (ih _)

theorem counter_le_advance (counter : ℕ) {rows : List (TextElement α)} {e : TextElement α}
    (h : e ∈ rows) : e.id.counter ≤ advance counter rows := by
  induction rows generalizing counter with
  | nil => cases h
  | cons r rows ih =>
    rcases mem_cons.mp h with rfl | h
    · exact (le_max_right _ _).trans (le_advance _ rows)
    · exact ih _ h

def applyDelta (t : TextCrdt α) (ops : List (TextOp α)) : Bool × TextCrdt α :=
  let acc := ops.foldl observe (t.byId, false)
  (acc.2, {
    peer := t.peer
    counter := advance t.counter acc.1.rows
    byId := acc.1
    orderedCache := if acc.2 then none else t.orderedCache
    counted := fun _ he => counter_le_advance _ he
    cached := by
      intro l hl
      split at hl
      · cases hl
      · next hflag =>
        have hsame : acc = (t.byId, false) := (foldl_observe_unchanged (by simpa [acc] using hflag)).1
        rw [hsame]
        exact t.cached l hl })

/-- `merge(other)`: the same algebra over the elements of the other replica. -/
def merge (t other : TextCrdt α) : TextCrdt α :=
  (t.applyDelta other.byId.rows).2

/-! ## Delta sync -/

/-- One element of `version_vector()`, at one peer: its insert id, then its delete id. -/
def vvStep (peer : ℤ) (c : ℕ) (e : TextElement α) : ℕ :=
  let c := if e.id.peer = peer then max c e.id.counter else c
  match e.deleteId with
  | some d => if d.peer = peer then max c d.counter else c
  | none => c

def versionVector (t : TextCrdt α) (peer : ℤ) : ℕ :=
  t.byId.rows.foldl (vvStep peer) 0

/-- The insert id or the delete id of the element is newer than the vector. -/
def unseen (vv : ℤ → ℕ) (e : TextElement α) : Bool :=
  decide (vv e.id.peer < e.id.counter) || match e.deleteId with
    | some d => e.deleted && decide (vv d.peer < d.counter)
    | none => false

def deltaSince (t : TextCrdt α) (vv : ℤ → ℕ) : List (TextOp α) :=
  t.byId.rows.filter (unseen vv)

/-! ## Tombstone collection -/

/-- The element is the left origin of some element of the replica. -/
def referenced (t : TextCrdt α) (e : TextElement α) : Bool :=
  t.byId.rows.any fun e' => e'.origin = some e.id

/-- What a stable `gc` collects: deleted elements that nothing references. -/
def collectable (t : TextCrdt α) (e : TextElement α) : Bool :=
  e.deleted && !t.referenced e

def gc (t : TextCrdt α) (stable : Bool) : ℕ × TextCrdt α :=
  if stable then
    (t.byId.rows.countP t.collectable, {
      peer := t.peer
      counter := t.counter
      byId := t.byId.filter fun e => !t.collectable e
      orderedCache := if 0 < t.byId.rows.countP t.collectable then none else t.orderedCache
      counted := fun e he => t.counted e (mem_filter.mp he).1
      cached := by
        intro l hl
        split at hl
        · cases hl
        · next hnone =>
          have hall : ∀ e ∈ t.byId.rows, (!t.collectable e) = true := by
            intro e he
            have hzero := countP_eq_zero.mp (Nat.eq_zero_of_not_pos hnone) e he
            simpa using hzero
          have hrows : (t.byId.filter fun e => !t.collectable e).rows = t.byId.rows := filter_eq_self.mpr hall
          rw [hrows]
          exact t.cached l hl })
  else (0, t)

end TextCrdt

end LazilyPy.Text

import Mathlib.Data.Int.Order.Basic
import Mathlib.Data.List.Basic
import Mathlib.Data.List.Induction

/-!
# The reactive queue

A queue over a deque, with readers that keep what they have derived from the deque until an operation resets them.
-/

namespace LazilyPy.Queue

open List Function

inductive QueuePushError where
  | full
  | closed
  deriving DecidableEq

inductive QueuePopError where
  | empty
  | closed
  deriving DecidableEq

/-! ## The storage -/

structure VecDequeStorage (α : Type) where
  elements : List α := []
  capacity : Option ℕ := none
  closed : Bool := false
  bounded : ∀ c ∈ capacity, 0 < c ∧ elements.length ≤ c

namespace VecDequeStorage

variable {α : Type}

def new (capacity : Option ℤ) : Except String (VecDequeStorage α) :=
  match capacity with
  | none => .ok { bounded := by simp }
  | some c =>
    if h : c ≤ 0 then .error "VecDequeStorage capacity must be > 0"
    else .ok { capacity := some c.toNat, bounded := by simpa using h }

def tryPush (value : α) (s : VecDequeStorage α) : Option QueuePushError × VecDequeStorage α :=
  if s.closed then (some .closed, s)
  else if h : ∃ c ∈ s.capacity, c ≤ s.elements.length then (some .full, s)
  else (none, { s with
    elements := s.elements ++ [value]
    bounded := fun c hc => by
      have hlt : s.elements.length < c := Nat.lt_of_not_le fun hle => h ⟨c, hc, hle⟩
      rw [length_append, length_singleton]
      exact ⟨by omega, hlt⟩ })

def tryPop (s : VecDequeStorage α) : Except QueuePopError α × VecDequeStorage α :=
  match h : s.elements with
  | value :: rest => (.ok value, { s with
      elements := rest
      bounded := fun c hc => by
        have hbounded := s.bounded c hc
        rw [h, length_cons] at hbounded
        exact ⟨hbounded.1, by omega⟩ })
  | [] => (.error (if s.closed then .closed else .empty), s)

/-- Either nothing has changed, or the item is at the end. -/
theorem tryPush_cases (value : α) (s : VecDequeStorage α) : (∃ e, s.tryPush value = (some e, s)) ∨
    s.closed = false ∧ ∃ s', s.tryPush value = (none, s') ∧ s'.elements = s.elements ++ [value] ∧
      s'.capacity = s.capacity ∧ s'.closed = s.closed := by
  rw [tryPush]
  split
  · exact .inl ⟨_, rfl⟩
  · next hclosed =>
    split
    · exact .inl ⟨_, rfl⟩
    · exact .inr ⟨Bool.eq_false_iff.mpr hclosed, _, rfl, rfl, rfl, rfl⟩

/-- Either there was nothing, or the first item is out. -/
theorem tryPop_cases (s : VecDequeStorage α) : (s.elements = [] ∧ ∃ e, s.tryPop = (.error e, s)) ∨
    ∃ value s', s.tryPop = (.ok value, s') ∧ s.elements = value :: s'.elements ∧ s'.capacity = s.capacity ∧
      s'.closed = s.closed := by
  rw [tryPop]
  split
  · next value rest h => exact .inr ⟨value, _, rfl, h, rfl, rfl⟩
  · next h => exact .inl ⟨h, _, rfl⟩

def peek (s : VecDequeStorage α) : Option α :=
  s.elements.head?

def len (s : VecDequeStorage α) : ℕ :=
  s.elements.length

def close (s : VecDequeStorage α) : VecDequeStorage α :=
  { s with closed := true }

end VecDequeStorage

/-! ## The queue -/

inductive Reader where
  | head
  | len
  | isEmpty
  | isFull
  deriving DecidableEq

def Reader.Value (α : Type) : Reader → Type
  | head => Option α
  | len => ℕ
  | isEmpty => Bool
  | isFull => Bool

structure QueueCell (α : Type) where
  storage : VecDequeStorage α
  capacity : Option ℕ
  /-- The value that a reader has derived, unless it has been reset since. -/
  cache : (r : Reader) → Option (r.Value α) := fun _ => none
  closed : Bool

/-- What an operation leaves, the readers that it resets, and whether it notifies the readers of `closed`. -/
structure Outcome (α : Type) where
  cell : QueueCell α
  resets : List Reader := []
  touched : Bool := false

namespace QueueCell

variable {α : Type}

/-- `QueueCell(storage)`. -/
def onStorage (storage : VecDequeStorage α) : QueueCell α where
  storage := storage
  capacity := storage.capacity
  closed := storage.closed

def derive (storage : VecDequeStorage α) (capacity : Option ℕ) : (r : Reader) → r.Value α
  | .head => storage.peek
  | .len => storage.len
  | .isEmpty => decide (storage.len = 0)
  | .isFull => decide (∃ c ∈ capacity, c ≤ storage.len)

def reset (q : QueueCell α) (r : Reader) : QueueCell α :=
  { q with cache := update q.cache r none }

/-- The readers that `_invalidate_readers` resets. -/
def resets (capacity : Option ℕ) (lenBefore lenAfter : ℕ) (headChanged : Bool) : List Reader :=
  [.len] ++ (if decide (lenBefore = 0) ≠ decide (lenAfter = 0) then [.isEmpty] else []) ++ (match capacity with
      | some cap => if decide (cap ≤ lenBefore) ≠ decide (cap ≤ lenAfter) then [.isFull] else []
      | none => []) ++
    (if headChanged then [.head] else [])

def invalidateReaders (q : QueueCell α) (lenBefore lenAfter : ℕ) (headChanged : Bool) : Outcome α where
  cell := (resets q.capacity lenBefore lenAfter headChanged).foldl reset q
  resets := resets q.capacity lenBefore lenAfter headChanged

def tryPush (value : α) (q : QueueCell α) : Option QueuePushError × Outcome α :=
  let lenBefore := q.storage.len
  let (result, storage) := q.storage.tryPush value
  let q := { q with storage := storage }
  match result with
  | none => (none, q.invalidateReaders lenBefore (lenBefore + 1) (decide (lenBefore = 0)))
  | some e => (some e, { cell := q })

def tryPop (q : QueueCell α) : Except QueuePopError α × Outcome α :=
  let lenBefore := q.storage.len
  let (result, storage) := q.storage.tryPop
  let q := { q with storage := storage }
  match result with
  | .ok value => (.ok value, q.invalidateReaders lenBefore (lenBefore - 1) true)
  | .error e => (.error e, { cell := q })

def close (q : QueueCell α) : Outcome α :=
  if q.storage.closed then { cell := q }
  else { cell := { q with storage := q.storage.close, closed := true }, touched := q.closed ≠ true }

/-- A read of a reader, which derives its value only after a reset. -/
def read (r : Reader) (q : QueueCell α) : r.Value α × QueueCell α :=
  match q.cache r with
  | some value => (value, q)
  | none =>
    let value := derive q.storage q.capacity r
    (value, { q with cache := update q.cache r (some value) })

def isClosed (q : QueueCell α) : Bool :=
  q.closed

end QueueCell

/-! ## Runs -/

inductive Op (α : Type) where
  | tryPush (value : α)
  | tryPop
  | close
  | read (r : Reader)
  | isClosed

variable {α : Type}

def QueueCell.perform (q : QueueCell α) : Op α → Outcome α
  | .tryPush value => (q.tryPush value).2
  | .tryPop => q.tryPop.2
  | .close => q.close
  | .read r => { cell := (q.read r).2 }
  | .isClosed => { cell := q }

/-- A queue, with what has been pushed to it and what has been popped from it. -/
structure History (α : Type) where
  cell : QueueCell α
  accepted : List α := []
  popped : List α := []

namespace History

def taken (q : QueueCell α) : Op α → List α
  | .tryPush value => if (q.tryPush value).1 = none then [value] else []
  | _ => []

def given (q : QueueCell α) : Op α → List α
  | .tryPop => match q.tryPop.1 with
    | .ok value => [value]
    | .error _ => []
  | _ => []

def step (h : History α) (op : Op α) : History α where
  cell := (h.cell.perform op).cell
  accepted := h.accepted ++ taken h.cell op
  popped := h.popped ++ given h.cell op

/-- The position of the head, counted from the first item that there has been. -/
def headPosition (h : History α) : Option ℕ :=
  if h.cell.storage.elements = [] then none else some h.popped.length

end History

def run (storage : VecDequeStorage α) (ops : List (Op α)) : History α :=
  ops.foldl History.step { cell := .onStorage storage }

/-! ## What an operation does -/

namespace QueueCell

variable {q : QueueCell α}

/-- The closed cell and the capacity are those of the storage, and what a reader keeps is what it would derive. -/
structure Coherent (q : QueueCell α) : Prop where
  capacity : q.capacity = q.storage.capacity
  closed : q.closed = q.storage.closed
  cache : ∀ r value, q.cache r = some value → value = derive q.storage q.capacity r

theorem cache_foldl_reset (rs : List Reader) (q : QueueCell α) (r : Reader) :
    (rs.foldl reset q).cache r = if r ∈ rs then none else q.cache r := by
  induction rs generalizing q with
  | nil => rfl
  | cons r' rs ih =>
    rw [foldl_cons, ih, reset]
    by_cases hr : r = r'
    · subst hr
      simp
    · simp [hr]

theorem foldl_reset (rs : List Reader) (q : QueueCell α) : (rs.foldl reset q).storage = q.storage ∧
    (rs.foldl reset q).capacity = q.capacity ∧ (rs.foldl reset q).closed = q.closed := by
  induction rs generalizing q with
  | nil => exact ⟨rfl, rfl, rfl⟩
  | cons r rs ih => exact ih (q.reset r)

variable {capacity : Option ℕ} {headChanged : Bool}

/-- Which readers are reset. -/
theorem mem_resets {lenBefore lenAfter : ℕ} :
    .len ∈ resets capacity lenBefore lenAfter headChanged ∧
      (.isEmpty ∈ resets capacity lenBefore lenAfter headChanged ↔ ¬ (lenBefore = 0 ↔ lenAfter = 0)) ∧
      (.isFull ∈ resets capacity lenBefore lenAfter headChanged ↔ ∃ c ∈ capacity, ¬ (c ≤ lenBefore ↔ c ≤ lenAfter)) ∧
      (.head ∈ resets capacity lenBefore lenAfter headChanged ↔ headChanged = true) := by
  cases capacity with
  | none => cases headChanged <;> simp only [resets] <;> split <;> simp_all
  | some c => cases headChanged <;> simp only [resets] <;> split <;> split <;> simp_all

/-- A reader that is not reset would derive what it has derived. -/
theorem derive_eq {storage storage' : VecDequeStorage α} {r : Reader}
    (hhead : headChanged = false → storage'.peek = storage.peek)
    (hr : r ∉ resets capacity storage.len storage'.len headChanged) :
    derive storage' capacity r = derive storage capacity r := by
  obtain ⟨hlen, hempty, hfull, hheads⟩ := @mem_resets capacity headChanged storage.len storage'.len
  cases r with
  | head =>
    rw [hheads, Bool.not_eq_true] at hr
    exact hhead hr
  | len => exact absurd hlen hr
  | isEmpty =>
    rw [hempty, not_not] at hr
    exact decide_eq_decide.mpr hr.symm
  | isFull =>
    rw [hfull] at hr
    refine decide_eq_decide.mpr (exists_congr fun c => and_congr_right fun hc => ?_)
    by_contra hne
    exact hr ⟨c, hc, fun h => hne h.symm⟩

/-- With the readers reset, the queue is coherent with the storage that it has now. -/
theorem Coherent.invalidate (hq : q.Coherent) {storage : VecDequeStorage α} {lenBefore lenAfter : ℕ}
    (hcapacity : storage.capacity = q.storage.capacity) (hclosed : storage.closed = q.storage.closed)
    (hbefore : lenBefore = q.storage.len) (hafter : lenAfter = storage.len)
    (hhead : headChanged = false → storage.peek = q.storage.peek) :
    (({ q with storage := storage }).invalidateReaders lenBefore lenAfter headChanged).cell.Coherent := by
  subst hbefore hafter
  obtain ⟨hs, hcap, hcl⟩ := foldl_reset (resets q.capacity q.storage.len storage.len headChanged)
    { q with storage := storage }
  refine ⟨hcap.trans (hq.capacity.trans (hcapacity.symm.trans (congrArg _ hs.symm))),
    hcl.trans (hq.closed.trans (hclosed.symm.trans (congrArg _ hs.symm))), fun r value hvalue => ?_⟩
  rw [invalidateReaders, cache_foldl_reset] at hvalue
  split at hvalue
  · cases hvalue
  · next hr =>
    rw [hq.cache r value hvalue, invalidateReaders, hs, hcap]
    exact (derive_eq hhead hr).symm

theorem tryPush_cases (value : α) (q : QueueCell α) : (∃ e, q.tryPush value = (some e, { cell := q })) ∨
    q.storage.closed = false ∧ ∃ s', q.tryPush value = (none, ({ q with storage := s' }).invalidateReaders
        q.storage.len (q.storage.len + 1) (decide (q.storage.len = 0))) ∧
      s'.elements = q.storage.elements ++ [value] ∧ s'.capacity = q.storage.capacity ∧
      s'.closed = q.storage.closed := by
  rw [tryPush]
  obtain ⟨e, h⟩ | ⟨hopen, s', h, hs'⟩ := q.storage.tryPush_cases value
  · rw [h]
    exact .inl ⟨e, rfl⟩
  · rw [h]
    exact .inr ⟨hopen, s', rfl, hs'⟩

theorem tryPop_cases (q : QueueCell α) : (q.storage.elements = [] ∧ ∃ e, q.tryPop = (.error e, { cell := q })) ∨
    ∃ value s', q.tryPop = (.ok value, ({ q with storage := s' }).invalidateReaders q.storage.len
        (q.storage.len - 1) true) ∧
      q.storage.elements = value :: s'.elements ∧ s'.capacity = q.storage.capacity ∧
      s'.closed = q.storage.closed := by
  rw [tryPop]
  obtain ⟨hempty, e, h⟩ | ⟨value, s', h, hs'⟩ := q.storage.tryPop_cases
  · rw [h]
    exact .inl ⟨hempty, e, rfl⟩
  · rw [h]
    exact .inr ⟨value, s', rfl, hs'⟩

theorem read_cases (r : Reader) (q : QueueCell α) : (q.read r).2 = q ∨ (q.read r).2 =
    { q with cache := update q.cache r (some (derive q.storage q.capacity r)) } := by
  rw [read]
  split
  · exact .inl rfl
  · exact .inr rfl

/-- A read of a coherent queue reads what is derived from the storage. -/
theorem Coherent.read_eq (hq : q.Coherent) (r : Reader) : (q.read r).1 = derive q.storage q.capacity r := by
  rw [read]
  split
  · next value hvalue => exact hq.cache r value hvalue
  · rfl

theorem Coherent.read (hq : q.Coherent) (r : Reader) : (q.read r).2.Coherent := by
  obtain h | h := read_cases r q
  · rwa [h]
  · rw [h]
    refine ⟨hq.capacity, hq.closed, fun r' value hvalue => ?_⟩
    dsimp only at hvalue ⊢
    by_cases hr : r' = r
    · subst hr
      rw [update_self] at hvalue
      exact (Option.some.inj hvalue).symm
    · rw [update_of_ne hr] at hvalue
      exact hq.cache r' value hvalue

theorem Coherent.perform (hq : q.Coherent) (op : Op α) : (q.perform op).cell.Coherent := by
  cases op with
  | tryPush value =>
    rw [QueueCell.perform]
    obtain ⟨e, h⟩ | ⟨-, s', h, hs', hcapacity, hclosed⟩ := tryPush_cases value q
    · rwa [h]
    · rw [h]
      refine hq.invalidate hcapacity hclosed rfl ?_ fun hhead => ?_
      · rw [VecDequeStorage.len, VecDequeStorage.len, hs', length_append, length_singleton]
      · rw [VecDequeStorage.peek, VecDequeStorage.peek, hs']
        refine head?_append_of_ne_nil _ fun hnil => ?_
        rw [VecDequeStorage.len, hnil] at hhead
        cases hhead
  | tryPop =>
    rw [QueueCell.perform]
    obtain ⟨-, e, h⟩ | ⟨value, s', h, hs', hcapacity, hclosed⟩ := tryPop_cases q
    · rwa [h]
    · rw [h]
      refine hq.invalidate hcapacity hclosed rfl ?_ nofun
      rw [VecDequeStorage.len, VecDequeStorage.len, hs', length_cons, Nat.add_sub_cancel]
  | close =>
    rw [QueueCell.perform, close]
    split
    · exact hq
    · exact ⟨hq.capacity, rfl, hq.cache⟩
  | read r => exact hq.read r
  | isClosed => exact hq

end QueueCell

/-! ## Every run -/

namespace History

def Succeeds (q : QueueCell α) : Op α → Prop
  | .tryPush value => (q.tryPush value).1 = none
  | .tryPop => ∃ value, q.tryPop.1 = .ok value
  | _ => False

/-- The operation resets just the readers that have something else to read. -/
structure ResetsExactly (h : History α) (op : Op α) : Prop where
  len : .len ∈ (h.cell.perform op).resets ↔ Succeeds h.cell op
  isEmpty : .isEmpty ∈ (h.cell.perform op).resets ↔ ((h.step op).cell.read .isEmpty).1 ≠ (h.cell.read .isEmpty).1
  isFull : .isFull ∈ (h.cell.perform op).resets ↔ ((h.step op).cell.read .isFull).1 ≠ (h.cell.read .isFull).1
  head : .head ∈ (h.cell.perform op).resets ↔ (h.step op).headPosition ≠ h.headPosition
  closed : (h.cell.perform op).touched = true ↔ (h.step op).cell.isClosed ≠ h.cell.isClosed

structure Exact (storage : VecDequeStorage α) (h : History α) : Prop where
  fifo : storage.elements ++ h.accepted = h.popped ++ h.cell.storage.elements
  capacity : h.cell.storage.capacity = storage.capacity
  bounded : ∀ c ∈ storage.capacity, h.cell.storage.len ≤ c
  terminal : h.cell.isClosed = true → ∀ op, (h.step op).accepted = h.accepted ∧ (h.step op).cell.isClosed = true
  reads : ∀ r, (h.cell.read r).1 = QueueCell.derive h.cell.storage storage.capacity r
  closed : h.cell.isClosed = h.cell.storage.closed
  resets : ∀ op, h.ResetsExactly op

structure Valid (storage : VecDequeStorage α) (h : History α) : Prop where
  coherent : h.cell.Coherent
  fifo : storage.elements ++ h.accepted = h.popped ++ h.cell.storage.elements
  capacity : h.cell.storage.capacity = storage.capacity

variable {storage : VecDequeStorage α} {h : History α} {op : Op α}

/-- What goes in is at the end of the storage, and what goes out was at its front. -/
theorem elements_step (h : History α) (op : Op α) :
    h.cell.storage.elements ++ taken h.cell op = given h.cell op ++ (h.step op).cell.storage.elements ∧
      (h.step op).cell.storage.capacity = h.cell.storage.capacity := by
  cases op with
  | tryPush value =>
    obtain ⟨e, he⟩ | ⟨-, s', hs, helements, hcapacity, -⟩ := QueueCell.tryPush_cases value h.cell
    · simp [step, QueueCell.perform, taken, given, he]
    · simp [step, QueueCell.perform, taken, given, hs, QueueCell.invalidateReaders, QueueCell.foldl_reset, helements,
        hcapacity]
  | tryPop =>
    obtain ⟨-, e, he⟩ | ⟨value, s', hs, helements, hcapacity, -⟩ := QueueCell.tryPop_cases h.cell
    · simp [step, QueueCell.perform, taken, given, he]
    · simp [step, QueueCell.perform, taken, given, hs, QueueCell.invalidateReaders, QueueCell.foldl_reset, helements,
        hcapacity]
  | close =>
    rw [step, QueueCell.perform, QueueCell.close]
    split
    · exact ⟨append_nil _, rfl⟩
    · exact ⟨append_nil _, rfl⟩
  | read r =>
    obtain hr | hr := QueueCell.read_cases r h.cell
    · simp [step, QueueCell.perform, taken, given, hr]
    · simp [step, QueueCell.perform, taken, given, hr]
  | isClosed => simp [step, QueueCell.perform, taken, given]

theorem Valid.step (hv : h.Valid storage) (op : Op α) : (h.step op).Valid storage where
  coherent := hv.coherent.perform op
  fifo := by
    have helements := (elements_step h op).1
    calc storage.elements ++ (h.accepted ++ taken h.cell op)
        = h.popped ++ (h.cell.storage.elements ++ taken h.cell op) := by
          rw [← append_assoc, hv.fifo, append_assoc]
      _ = (h.popped ++ given h.cell op) ++ (h.step op).cell.storage.elements := by
          rw [helements, append_assoc]
  capacity := (elements_step h op).2.trans hv.capacity

theorem valid_run (storage : VecDequeStorage α) (ops : List (Op α)) : (run storage ops).Valid storage := by
  induction ops using reverseRecOn with
  | nil => exact ⟨⟨rfl, rfl, nofun⟩, append_nil _, rfl⟩
  | append_singleton ops op ih =>
    rw [run, foldl_concat]
    exact ih.step op

/-- A queue that has been closed takes nothing, and stays closed. -/
theorem Valid.terminal (hv : h.Valid storage) (hclosed : h.cell.isClosed = true) (op : Op α) :
    (h.step op).accepted = h.accepted ∧ (h.step op).cell.isClosed = true := by
  have hstorage : h.cell.storage.closed = true := hv.coherent.closed.symm.trans hclosed
  cases op with
  | tryPush value =>
    obtain ⟨e, he⟩ | ⟨hopen, -⟩ := QueueCell.tryPush_cases value h.cell
    · simpa [History.step, QueueCell.perform, taken, he] using hclosed
    · rw [hopen] at hstorage
      cases hstorage
  | tryPop =>
    refine ⟨append_nil _, ?_⟩
    obtain ⟨-, e, he⟩ | ⟨value, s', hs, -⟩ := QueueCell.tryPop_cases h.cell
    · simpa [History.step, QueueCell.perform, he] using hclosed
    · rw [History.step, QueueCell.perform, hs, QueueCell.invalidateReaders, QueueCell.isClosed,
        (QueueCell.foldl_reset _ _).2.2]
      exact hclosed
  | close =>
    refine ⟨append_nil _, ?_⟩
    rw [History.step, QueueCell.perform, QueueCell.close, if_pos hstorage]
    exact hclosed
  | read r =>
    refine ⟨append_nil _, ?_⟩
    obtain hr | hr := QueueCell.read_cases r h.cell
    · rwa [History.step, QueueCell.perform, hr]
    · rwa [History.step, QueueCell.perform, hr]
  | isClosed => exact ⟨append_nil _, hclosed⟩

end History

end LazilyPy.Queue

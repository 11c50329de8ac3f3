import LazilyPy.Lib.Table
import Mathlib.Algebra.BigOperators.Group.Finset.Basic
import Mathlib.Algebra.Order.Ring.Int

/-!
# The counter register

For each peer a counter of what it has added and one of what it has taken away. A merge takes the greater count of each
peer. What a replica holds of a peer are always the counts behind some of the first operations of that peer, so that
nothing is counted twice.
-/

namespace LazilyPy.Register

open List Function

/-- A dictionary of counts. -/
abbrev Counts := Table (Prod.fst : ℤ × ℤ → ℤ)

namespace Counts

variable {t other : Counts} {peer q : ℤ}

def count? (t : Counts) (peer : ℤ) : Option ℤ :=
  (t.get? peer).map Prod.snd

/-- `t.get(peer, 0)`. -/
def count (t : Counts) (peer : ℤ) : ℤ :=
  (t.count? peer).getD 0

def total (t : Counts) : ℤ :=
  (t.rows.map Prod.snd).sum

/-- Every count of the other dictionary, where it is not below the own one. -/
def mergeFrom (t other : Counts) : Counts :=
  other.rows.foldl (fun t row => t.put (row.1, max (t.count row.1) row.2)) t

theorem count?_put (t : Counts) (peer c q : ℤ) :
    count? (t.put (peer, c)) q = if q = peer then some c else t.count? q := by
  rw [count?, Table.get?_put]
  split
  · rfl
  · rfl

/-- The counts of one peer in a merge. -/
def join : Option ℤ → Option ℤ → Option ℤ
  | a, none => a
  | a, some c => some (max (a.getD 0) c)

theorem count?_mergeFrom (t other : Counts) (q : ℤ) :
    (t.mergeFrom other).count? q = join (t.count? q) (other.count? q) := by
  obtain ⟨rows, hnodup⟩ := other
  rw [mergeFrom, count?.eq_1 ⟨rows, hnodup⟩, Table.get?]
  dsimp only
  induction rows generalizing t with
  | nil => rfl
  | cons row rows ih =>
    obtain ⟨hrow, hrows⟩ := nodup_cons.mp hnodup
    rw [foldl_cons, ih _ hrows, count?_put, find?_cons]
    by_cases hq : row.1 = q
    · subst hq
      have hnone : rows.find? (fun r => r.1 = row.1) = none := by
        rw [find?_eq_none]
        intro r hr heq
        exact hrow (of_decide_eq_true heq ▸ mem_map_of_mem hr)
      simp only [hnone, if_true, decide_true]
      rfl
    · rw [if_neg (Ne.symm hq), decide_eq_false hq]

/-- The total, over any peers that have all the counts. -/
theorem total_eq_sum (t : Counts) {peers : Finset ℤ} (h : ∀ q ∉ peers, t.count? q = none) :
    t.total = ∑ q ∈ peers, t.count q := by
  have hkeys : (t.rows.map Prod.fst).toFinset ⊆ peers := by
    intro q hq
    by_contra hnot
    obtain ⟨row, hrow, rfl⟩ := mem_map.mp (mem_toFinset.mp hq)
    have hnone := h row.1 hnot
    rw [count?, Table.get?_of_mem hrow] at hnone
    cases hnone
  rw [← Finset.sum_subset hkeys, sum_toFinset _ t.nodup, total, map_map]
  · refine congrArg sum (map_congr_left fun row hrow => ?_)
    dsimp only [comp_apply, count, count?]
    rw [Table.get?_of_mem hrow]
    rfl
  · intro q _ hq
    have hnone : t.get? q = none := Table.get?_eq_none.mpr fun row hrow hkey =>
      hq (mem_toFinset.mpr (hkey ▸ mem_map_of_mem hrow))
    rw [count, count?, hnone]
    rfl

end Counts

structure PnCounter where
  p : Counts := .empty _
  n : Counts := .empty _

namespace PnCounter

def increment (peer by_ : ℤ) (c : PnCounter) : Except String PnCounter :=
  if by_ < 0 then .error "increment must be non-negative; use decrement"
  else .ok { c with p := c.p.put (peer, c.p.count peer + by_) }

def decrement (peer by_ : ℤ) (c : PnCounter) : Except String PnCounter :=
  if by_ < 0 then .error "decrement must be non-negative; use increment"
  else .ok { c with n := c.n.put (peer, c.n.count peer + by_) }

def value (c : PnCounter) : ℤ :=
  c.p.total - c.n.total

/-- Equality of counters is that of their dictionaries. -/
def Same (c c' : PnCounter) : Prop :=
  c.p.rows.Perm c'.p.rows ∧ c.n.rows.Perm c'.n.rows

instance (c c' : PnCounter) : Decidable (Same c c') :=
  inferInstanceAs (Decidable (_ ∧ _))

def merged (self other : PnCounter) : PnCounter :=
  ⟨self.p.mergeFrom other.p, self.n.mergeFrom other.n⟩

/-- Merge `other` into the counter, and tell whether it has changed. -/
def merge (self other : PnCounter) : Bool × PnCounter :=
  (decide (¬ Same (self.merged other) self), self.merged other)

/-- What has been added for true, and what has been taken away for false. -/
def side (c : PnCounter) : Bool → Counts
  | true => c.p
  | false => c.n

theorem side_merge (self other : PnCounter) (up : Bool) :
    (self.merge other).2.side up = (self.side up).mergeFrom (other.side up) := by
  cases up with
  | false => rfl
  | true => rfl

theorem same_of_count? {c c' : PnCounter} (h : ∀ up q, (c.side up).count? q = (c'.side up).count? q) : Same c c' := by
  have hget : ∀ t t' : Counts, (∀ q, t.count? q = t'.count? q) → ∀ q, t.get? q = t'.get? q := by
    intro t t' heq q
    have hq : (t.get? q).map Prod.snd = (t'.get? q).map Prod.snd := heq q
    cases ht : t.get? q with
    | none =>
      rw [ht] at hq
      exact (Option.map_eq_none_iff.mp hq.symm).symm
    | some row =>
      rw [ht, Option.map_some] at hq
      obtain ⟨row', ht', hsnd⟩ := Option.map_eq_some_iff.mp hq.symm
      rw [ht']
      exact congrArg some (Prod.ext ((Table.key_of_get? ht).trans (Table.key_of_get? ht').symm) hsnd.symm)
  exact ⟨Table.perm_of_get?_eq (hget _ _ (h true)), Table.perm_of_get?_eq (hget _ _ (h false))⟩

end PnCounter

/-! ## The operations of one peer -/

/-- An operation that adds, or one that takes away. -/
structure Charge where
  up : Bool
  amount : ℤ
  deriving DecidableEq

/-- The count behind some operations. Without one of its side there is none. -/
def tally (up : Bool) (l : List Charge) : Option ℤ :=
  l.foldl (fun a c => if c.up = up then some (a.getD 0 + c.amount) else a) none

def net (l : List Charge) : ℤ :=
  (l.map fun c => if c.up then c.amount else -c.amount).sum

section Tally

variable {up : Bool} {l : List Charge}

theorem tally_concat (up : Bool) (l : List Charge) (c : Charge) :
    tally up (l ++ [c]) = if c.up = up then some ((tally up l).getD 0 + c.amount) else tally up l := by
  rw [tally, foldl_append]
  rfl

theorem net_eq (l : List Charge) : net l = (tally true l).getD 0 - (tally false l).getD 0 := by
  induction l using reverseRecOn with
  | nil => rfl
  | append_singleton l c ih =>
    have hnet : net (l ++ [c]) = net l + if c.up then c.amount else -c.amount := by simp [net]
    rw [hnet, ih, tally_concat, tally_concat]
    cases c.up with
    | true =>
      simp only [if_true, Bool.true_eq_false, if_false, Option.getD_some]
      omega
    | false =>
      simp only [Bool.false_eq_true, if_true, if_false, Option.getD_some]
      omega

/-- More operations of the peer have no smaller count. -/
theorem tally_append (h : ∀ c ∈ l, 0 ≤ c.amount) {l' : List Charge} (h' : ∀ c ∈ l', 0 ≤ c.amount) :
    0 ≤ (tally up l).getD 0 ∧ (tally up l).getD 0 ≤ (tally up (l ++ l')).getD 0 ∧
      (tally up (l ++ l') = none → tally up l = none) := by
  induction l' using reverseRecOn with
  | nil =>
    rw [append_nil]
    refine ⟨?_, le_rfl, id⟩
    induction l using reverseRecOn with
    | nil => exact le_rfl
    | append_singleton l c ih =>
      obtain ⟨hl, hc⟩ := forall_mem_append.mp h
      have hnonneg := ih hl
      have hamount := hc c (mem_singleton_self c)
      rw [tally_concat]
      split
      · rw [Option.getD_some]
        omega
      · exact hnonneg
  | append_singleton l' c ih =>
    obtain ⟨hl', hc⟩ := forall_mem_append.mp h'
    obtain ⟨hnonneg, hle, hnone⟩ := ih hl'
    have hamount := hc c (mem_singleton_self c)
    rw [← append_assoc, tally_concat]
    split
    · refine ⟨hnonneg, ?_, nofun⟩
      rw [Option.getD_some]
      omega
    · exact ⟨hnonneg, hle, hnone⟩

/-- Of the counts behind two numbers of operations, a merge has those behind the greater number. -/
theorem join_tally (h : ∀ c ∈ l, 0 ≤ c.amount) (a b : ℕ) :
    Counts.join (tally up (l.take a)) (tally up (l.take b)) = tally up (l.take (max a b)) := by
  have hsplit : ∀ {i j : ℕ}, i ≤ j → ∃ m, l.take j = l.take i ++ m ∧ ∀ c ∈ m, 0 ≤ c.amount := by
    intro i j hij
    refine ⟨(l.take j).drop i, ?_, fun c hc => h c (mem_of_mem_take (mem_of_mem_drop hc))⟩
    have htake := take_append_drop i (l.take j)
    rwa [take_take, min_eq_left hij, eq_comm] at htake
  have hnonneg : ∀ i, ∀ c ∈ l.take i, 0 ≤ c.amount := fun i c hc => h c (mem_of_mem_take hc)
  obtain hab | hba := le_total a b
  · obtain ⟨m, heq, hm⟩ := hsplit hab
    have hmore := @tally_append up _ (hnonneg a) _ hm
    rw [← heq] at hmore
    rw [max_eq_right hab]
    cases hb : tally up (l.take b) with
    | none => exact hmore.2.2 hb
    | some c =>
      rw [hb] at hmore
      exact congrArg some (max_eq_right hmore.2.1)
  · obtain ⟨m, heq, hm⟩ := hsplit hba
    have hmore := @tally_append up _ (hnonneg b) _ hm
    rw [← heq] at hmore
    rw [max_eq_left hba]
    cases hb : tally up (l.take b) with
    | none => rfl
    | some c =>
      rw [hb] at hmore
      cases ha : tally up (l.take a) with
      | none => cases hmore.2.2 ha
      | some d =>
        rw [ha] at hmore
        exact congrArg some (max_eq_left hmore.2.1)

end Tally

/-! ## Replicas -/

/-- What a replica does, under its own peer. -/
inductive CounterOp where
  | increment (peer by_ : ℤ)
  | decrement (peer by_ : ℤ)
  | merge (peer from_ : ℤ)
  deriving DecidableEq

def CounterOp.author : CounterOp → ℤ
  | increment peer _ => peer
  | decrement peer _ => peer
  | merge peer _ => peer

/-- The counters of the peers, the operations of each peer in their order, and how many of the first operations of each
peer a replica has received. -/
structure Counters where
  replica : ℤ → PnCounter
  history : ℤ → List Charge
  received : ℤ → ℤ → ℕ

namespace Counters

def init : Counters where
  replica _ := {}
  history _ := []
  received _ _ := 0

/-- An operation of the peer, which has come to the counter. -/
def book (w : Counters) (peer : ℤ) (charge : Charge) (c : PnCounter) : Counters where
  replica := update w.replica peer c
  history := update w.history peer (w.history peer ++ [charge])
  received := update w.received peer (update (w.received peer) peer (w.received peer peer + 1))

/-- What is refused changes nothing. -/
def step (w : Counters) : CounterOp → Counters
  | .increment peer by_ => match (w.replica peer).increment peer by_ with
    | .ok c => w.book peer ⟨true, by_⟩ c
    | .error _ => w
  | .decrement peer by_ => match (w.replica peer).decrement peer by_ with
    | .ok c => w.book peer ⟨false, by_⟩ c
    | .error _ => w
  | .merge peer from_ =>
    { w with
      replica := update w.replica peer ((w.replica peer).merge (w.replica from_)).2
      received := update w.received peer fun q => max (w.received peer q) (w.received from_ q) }

def run (ops : List CounterOp) : Counters :=
  ops.foldl step init

/-- The operations of a peer that a replica has received. -/
def receivedFrom (w : Counters) (r q : ℤ) : List Charge :=
  (w.history q).take (w.received r q)

/-- The counts are those behind what has been received. -/
structure Counted (w : Counters) : Prop where
  own : ∀ r, w.received r r = (w.history r).length
  within : ∀ r q, w.received r q ≤ (w.history q).length
  nonneg : ∀ q, ∀ c ∈ w.history q, 0 ≤ c.amount
  counts : ∀ r up q, ((w.replica r).side up).count? q = tally up (w.receivedFrom r q)

variable {w : Counters} {peer : ℤ}

theorem counted_init : Counted init where
  own _ := rfl
  within _ _ := le_rfl
  nonneg _ _ := nofun
  counts _ up _ := by
    cases up with
    | false => rfl
    | true => rfl

theorem Counted.book (h : Counted w) {charge : Charge} {c : PnCounter} (hamount : 0 ≤ charge.amount)
    (hsame : ∀ up q, q ≠ peer → (c.side up).count? q = ((w.replica peer).side up).count? q)
    (hown : ∀ up, (c.side up).count? peer = if charge.up = up
      then some (((w.replica peer).side up).count peer + charge.amount) else ((w.replica peer).side up).count? peer) :
    Counted (w.book peer charge c) where
  own r := by
    by_cases hr : r = peer
    · subst hr
      simp [Counters.book, h.own]
    · simp [Counters.book, hr, h.own]
  within r q := by
    have hle := h.within r q
    by_cases hr : r = peer <;> by_cases hq : q = peer <;> simp [Counters.book, hr, hq] at hle ⊢ <;> omega
  nonneg q := by
    by_cases hq : q = peer
    · subst hq
      simp only [Counters.book, update_self]
      exact forall_mem_append.mpr ⟨h.nonneg q, by simpa using hamount⟩
    · simpa [Counters.book, hq] using h.nonneg q
  counts r up q := by
    have hcounts := h.counts r up q
    rw [receivedFrom] at hcounts ⊢
    by_cases hr : r = peer
    · subst hr
      by_cases hq : q = r
      · -- its own operations it has all received
        subst hq
        have hall : (w.history q ++ [charge]).take (w.received q q + 1) = w.history q ++ [charge] :=
          take_of_length_le (by simp [h.own])
        have hbefore : (w.history q).take (w.received q q) = w.history q := take_of_length_le (h.own q).ge
        simp only [Counters.book, update_self]
        rw [hbefore] at hcounts
        rw [hall, tally_concat, hown, Counts.count, hcounts]
      · simp only [Counters.book, update_self, update_of_ne hq]
        rw [hsame up q hq, hcounts]
    · simp only [Counters.book, update_of_ne hr]
      rw [hcounts]
      by_cases hq : q = peer
      · subst hq
        rw [update_self, take_append_of_le_length (h.within r q)]
      · rw [update_of_ne hq]

theorem Counted.merge (h : Counted w) (peer from_ : ℤ) : Counted (w.step (.merge peer from_)) where
  own r := by
    by_cases hr : r = peer
    · subst hr
      have hle := h.within from_ r
      have hown := h.own r
      simp only [step, update_self]
      omega
    · simpa [step, hr] using h.own r
  within r q := by
    by_cases hr : r = peer
    · subst hr
      simpa [step] using ⟨h.within r q, h.within from_ q⟩
    · simpa [step, hr] using h.within r q
  nonneg := h.nonneg
  counts r up q := by
    rw [receivedFrom]
    by_cases hr : r = peer
    · subst hr
      simp only [step, update_self]
      rw [PnCounter.side_merge, Counts.count?_mergeFrom, h.counts, h.counts]
      exact join_tally (h.nonneg q) _ _
    · simp only [step, update_of_ne hr]
      exact h.counts r up q

theorem Counted.step (h : Counted w) (op : CounterOp) : Counted (w.step op) := by
  cases op with
  | increment peer by_ =>
    rw [Counters.step, PnCounter.increment]
    split
    · next c heq =>
      split at heq
      · cases heq
      · next hnonneg =>
        cases heq
        refine h.book (not_lt.mp hnonneg) (fun up q hq => ?_) fun up => ?_
        · cases up with
          | false => rfl
          | true => exact (Counts.count?_put _ _ _ _).trans (if_neg hq)
        · cases up with
          | false => rfl
          | true => exact (Counts.count?_put _ _ _ _).trans (if_pos rfl)
    · exact h
  | decrement peer by_ =>
    rw [Counters.step, PnCounter.decrement]
    split
    · next c heq =>
      split at heq
      · cases heq
      · next hnonneg =>
        cases heq
        refine h.book (not_lt.mp hnonneg) (fun up q hq => ?_) fun up => ?_
        · cases up with
          | false => exact (Counts.count?_put _ _ _ _).trans (if_neg hq)
          | true => rfl
        · cases up with
          | false => exact (Counts.count?_put _ _ _ _).trans (if_pos rfl)
          | true => rfl
    · exact h
  | merge peer from_ => exact h.merge peer from_

theorem history_eq_nil (ops : List CounterOp) {q : ℤ} (hq : q ∉ ops.map CounterOp.author) :
    (run ops).history q = [] := by
  induction ops using reverseRecOn with
  | nil => rfl
  | append_singleton ops op ih =>
    rw [map_append, mem_append, not_or] at hq
    have hrun : run (ops ++ [op]) = (run ops).step op := foldl_concat ..
    have hne : q ≠ op.author := fun heq => hq.2 (heq ▸ mem_singleton_self _)
    rw [hrun]
    have hbook : ∀ charge c, ((run ops).book op.author charge c).history q = [] := fun _ _ =>
      (update_of_ne hne _ _).trans (ih hq.1)
    cases op with
    | increment peer by_ =>
      rw [Counters.step]
      split
      · exact hbook _ _
      · exact ih hq.1
    | decrement peer by_ =>
      rw [Counters.step]
      split
      · exact hbook _ _
      · exact ih hq.1
    | merge peer from_ => exact ih hq.1

theorem counted_run (ops : List CounterOp) : Counted (run ops) := by
  induction ops using reverseRecOn with
  | nil => exact counted_init
  | append_singleton ops op ih =>
    have hrun : run (ops ++ [op]) = (run ops).step op := foldl_concat ..
    rw [hrun]
    exact ih.step op

/-- In every run the value is the sum of what has been received, of each peer its first operations, and replicas that
have received the same are equal. -/
theorem counts_every_operation_once (ops : List CounterOp) (r : ℤ) :
    (run ops).receivedFrom r r = (run ops).history r ∧
      ((run ops).replica r).value = ∑ q ∈ (ops.map CounterOp.author).toFinset, net ((run ops).receivedFrom r q) ∧
      ∀ r', (∀ q, (run ops).receivedFrom r q = (run ops).receivedFrom r' q) →
        PnCounter.Same ((run ops).replica r) ((run ops).replica r') := by
  have h := counted_run ops
  have hnone : ∀ up, ∀ q ∉ (ops.map CounterOp.author).toFinset, (((run ops).replica r).side up).count? q = none := by
    intro up q hq
    rw [h.counts, receivedFrom, history_eq_nil ops fun hmem => hq (mem_toFinset.mpr hmem), take_nil]
    rfl
  refine ⟨take_of_length_le (h.own r).ge, ?_, fun r' hsame => ?_⟩
  · have hp := Counts.total_eq_sum _ (hnone true)
    have hn := Counts.total_eq_sum _ (hnone false)
    dsimp only [PnCounter.side] at hp hn
    rw [PnCounter.value, hp, hn, ← Finset.sum_sub_distrib]
    refine Finset.sum_congr rfl fun q _ => ?_
    rw [net_eq, ← h.counts, ← h.counts]
    rfl
  · refine PnCounter.same_of_count? fun up q => ?_
    rw [h.counts, h.counts, hsame]

end Counters

end LazilyPy.Register

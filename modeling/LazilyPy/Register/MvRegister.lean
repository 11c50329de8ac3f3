import Mathlib.Data.Finset.Basic
import Mathlib.Data.List.Sort
import LazilyPy.Lib.Keys
import LazilyPy.Lib.Table
import LazilyPy.Lib.Throughout

/-!
# The multi-value register

A register that keeps concurrent writes side by side. An entry is dropped when a merge finds its
stamp in the causal context of either side; a write replaces the context by the stamps of the entries
that it overwrites.
-/

namespace LazilyPy.Register

open List Function

abbrev Entry (V : Type) := V × Stamp

structure MvRegister (V : Type) where
  entries : List (Entry V) := []
  observed : Finset Stamp := ∅

variable {V : Type}

namespace MvRegister

/-- A local write supersedes every entry; their stamps become the causal context. -/
def write (value : V) (stamp : Stamp) (r : MvRegister V) : MvRegister V where
  entries := [(value, stamp)]
  observed := (r.entries.map Prod.snd).toFinset

def values (r : MvRegister V) : List V :=
  r.entries.map Prod.fst

def candidates (self other : MvRegister V) : Table (Prod.snd : Entry V → Stamp) :=
  (Table.empty _).putAll (self.entries ++ other.entries)

/-- The register after merging `other` into it. -/
def merged (self other : MvRegister V) : MvRegister V where
  entries := ((candidates self other).rows.filter
    fun e => e.2 ∉ self.observed ∪ other.observed).insertionSort fun a b => a.2 ≤ b.2
  observed := self.observed ∪ other.observed

/-- Merge `other` into the register, and tell whether its entries have changed. -/
def merge [DecidableEq V] (self other : MvRegister V) : Bool × MvRegister V :=
  (decide ((self.merged other).entries ≠ self.entries), self.merged other)

/-- Where stamps name writes, a merge keeps the entries of either side that neither has observed. -/
theorem mem_entries_merged {self other : MvRegister V}
    (h : ∀ a b, a ∈ self.entries ∨ a ∈ other.entries → b ∈ self.entries ∨ b ∈ other.entries →
      a.2 = b.2 → a = b) {e : Entry V} :
    e ∈ (self.merged other).entries ↔ (e ∈ self.entries ∨ e ∈ other.entries) ∧
      e.2 ∉ self.observed ∧ e.2 ∉ other.observed := by
  have hrows : e ∈ (candidates self other).rows ↔ e ∈ self.entries ∨ e ∈ other.entries := by
    have hput := Table.mem_putAll (t := Table.empty (Prod.snd : Entry V → Stamp))
      (l := self.entries ++ other.entries) (r := e) fun a b ha hb => h a b
        (by simpa [Table.empty] using ha) (by simpa [Table.empty] using hb)
    rw [candidates, hput]
    simp [Table.empty]
  simp [merged, mem_insertionSort, hrows]

end MvRegister

/-! ## Replicas -/

/-- What a replica does: it writes a value, or merges the register of another one. -/
inductive Op (ι V : Type) where
  | write (i : ι) (value : V) (stamp : Stamp)
  | merge (i j : ι)

/-- The registers, the writes that each replica has seen, and which write has overwritten which: a
write overwrites what its replica has seen. -/
structure World (ι V : Type) where
  register : ι → MvRegister V
  seen : ι → List (Entry V)
  overwrote : List (Entry V × Entry V)

namespace World

variable {ι : Type}

def init : World ι V where
  register _ := {}
  seen _ := []
  overwrote := []

/-- The write `e` has been overwritten by one that replica `i` has seen. -/
def Overwritten (w : World ι V) (i : ι) (e : Entry V) : Prop :=
  ∃ e' ∈ w.seen i, (e, e') ∈ w.overwrote

/-- The entries of every replica are the writes it has seen that no write it has seen has
overwritten. -/
def Exact (w : World ι V) : Prop :=
  ∀ i e, e ∈ (w.register i).entries ↔ e ∈ w.seen i ∧ ¬ w.Overwritten i e

/-- Each side of a merge still has in its context the stamps of the other side's entries that it has
seen overwritten. -/
def Remembers (w : World ι V) : Op ι V → Prop
  | .write _ _ _ => True
  | .merge i j =>
    (∀ e ∈ (w.register i).entries, w.Overwritten j e → e.2 ∈ (w.register j).observed) ∧
      ∀ e ∈ (w.register j).entries, w.Overwritten i e → e.2 ∈ (w.register i).observed

/-- A write carries the peer of its replica, and a stamp that the replica has not used before. -/
def Fresh (peerOf : ι → ℤ) (w : World ι V) : Op ι V → Prop
  | .write i _ stamp => stamp.peer = peerOf i ∧ ∀ e ∈ w.seen i, e.2 ≠ stamp
  | .merge _ _ => True

variable [DecidableEq ι]

def step (w : World ι V) : Op ι V → World ι V
  | .write i value stamp =>
    { register := update w.register i ((w.register i).write value stamp)
      seen := update w.seen i ((value, stamp) :: w.seen i)
      overwrote := (w.seen i).map (·, (value, stamp)) ++ w.overwrote }
  | .merge i j =>
    { w with
      register := update w.register i ((w.register i).merged (w.register j))
      seen := update w.seen i (w.seen i ++ w.seen j) }

def run (ops : List (Op ι V)) : World ι V :=
  ops.foldl step init

theorem run_concat (ops : List (Op ι V)) (op : Op ι V) : run (ops ++ [op]) = (run ops).step op := by
  simp [run, foldl_append]

/-- What holds in every run: stamps name writes, the entries are among the writes that have been
seen and contain the causal maxima, and what a context holds has been overwritten. -/
structure Valid (peerOf : ι → ℤ) (w : World ι V) : Prop where
  issued : ∀ i, ∀ e ∈ w.seen i, ∃ k, e.2.peer = peerOf k ∧ e ∈ w.seen k
  unique : ∀ i j, ∀ e ∈ w.seen i, ∀ e' ∈ w.seen j, e.2 = e'.2 → e = e'
  closed : ∀ i e e', (e, e') ∈ w.overwrote → e' ∈ w.seen i → e ∈ w.seen i
  written : ∀ e e', (e, e') ∈ w.overwrote → ∃ k, e' ∈ w.seen k
  entries : ∀ i, ∀ e ∈ (w.register i).entries, e ∈ w.seen i ∧ e.2 ∉ (w.register i).observed
  maxima : ∀ i, ∀ e ∈ w.seen i, ¬ w.Overwritten i e → e ∈ (w.register i).entries
  observed : ∀ i, ∀ s ∈ (w.register i).observed, ∃ e ∈ w.seen i, e.2 = s ∧ w.Overwritten i e

omit [DecidableEq ι] in
theorem valid_init (peerOf : ι → ℤ) : Valid peerOf (init : World ι V) := by
  constructor <;> simp [init]

omit [DecidableEq ι] in
theorem exact_init : Exact (init : World ι V) := by
  intro i e
  simp [init]

section Write

variable {w : World ι V} {i : ι} {value : V} {stamp : Stamp}

variable {k : ι} {e : Entry V} {peerOf : ι → ℤ}

theorem mem_seen_write : e ∈ (w.step (.write i value stamp)).seen k ↔
    e ∈ w.seen k ∨ k = i ∧ e = (value, stamp) := by
  by_cases hk : k = i
  · subst hk
    simp [step, or_comm]
  · simp [step, hk]

theorem mem_overwrote_write {e' : Entry V} : (e, e') ∈ (w.step (.write i value stamp)).overwrote ↔
      e ∈ w.seen i ∧ e' = (value, stamp) ∨ (e, e') ∈ w.overwrote := by
  simp only [step, mem_append, mem_map, Prod.mk.injEq]
  refine or_congr_left ⟨?_, ?_⟩
  · rintro ⟨a, ha, rfl, rfl⟩
    exact ⟨ha, rfl⟩
  · rintro ⟨he, rfl⟩
    exact ⟨e, he, rfl, rfl⟩

/-- What a replica has seen overwritten after a write. -/
theorem overwritten_write (hv : w.Valid peerOf) (hnew : ∀ k, (value, stamp) ∉ w.seen k) :
    (w.step (.write i value stamp)).Overwritten k e ↔
      w.Overwritten k e ∨ k = i ∧ e ∈ w.seen i := by
  constructor
  · rintro ⟨e', he', hover⟩
    obtain ⟨he, rfl⟩ | hover := mem_overwrote_write.mp hover
    · obtain hold | ⟨hk, _⟩ := mem_seen_write.mp he'
      · exact absurd hold (hnew k)
      · exact .inr ⟨hk, he⟩
    · obtain hold | ⟨_, rfl⟩ := mem_seen_write.mp he'
      · exact .inl ⟨e', hold, hover⟩
      · obtain ⟨j, hj⟩ := hv.written _ _ hover
        exact absurd hj (hnew j)
  · rintro (⟨e', he', hover⟩ | ⟨rfl, he⟩)
    · exact ⟨e', mem_seen_write.mpr (.inl he'), mem_overwrote_write.mpr (.inr hover)⟩
    · exact ⟨_, mem_seen_write.mpr (.inr ⟨rfl, rfl⟩), mem_overwrote_write.mpr (.inl ⟨he, rfl⟩)⟩

section

variable (hinj : Injective peerOf) (hv : w.Valid peerOf) (hfresh : w.Fresh peerOf (.write i value stamp))

include hinj hv hfresh

omit [DecidableEq ι] in
/-- A fresh stamp is the stamp of no write. -/
theorem Valid.stamp_ne (he : e ∈ w.seen k) :
    e.2 ≠ stamp := by
  intro heq
  obtain ⟨j, hpeer, hj⟩ := hv.issued k e he
  have hji : j = i := hinj (by rw [← hpeer, heq, hfresh.1])
  exact hfresh.2 e (hji ▸ hj) heq

theorem valid_write :
    (w.step (.write i value stamp)).Valid peerOf := by
  have hne : ∀ k, ∀ e ∈ w.seen k, e.2 ≠ stamp := fun k e he => hv.stamp_ne hinj hfresh he
  have hnew : ∀ k, (value, stamp) ∉ w.seen k := fun k hk => hne k _ hk rfl
  exact
    { issued := by
        intro k e he
        obtain he | ⟨rfl, rfl⟩ := mem_seen_write.mp he
        · obtain ⟨j, hpeer, hj⟩ := hv.issued k e he
          exact ⟨j, hpeer, mem_seen_write.mpr (.inl hj)⟩
        · exact ⟨k, hfresh.1, he⟩
      unique := by
        intro k j e he e' he' heq
        obtain he | ⟨_, rfl⟩ := mem_seen_write.mp he
        · obtain he' | ⟨_, rfl⟩ := mem_seen_write.mp he'
          · exact hv.unique k j e he e' he' heq
          · exact absurd heq (hne k e he)
        · obtain he' | ⟨_, rfl⟩ := mem_seen_write.mp he'
          · exact absurd heq.symm (hne j e' he')
          · rfl
      closed := by
        intro k e e' hover he'
        obtain ⟨he, rfl⟩ | hover := mem_overwrote_write.mp hover
        · obtain he' | ⟨rfl, _⟩ := mem_seen_write.mp he'
          · exact absurd he' (hnew k)
          · exact mem_seen_write.mpr (.inl he)
        · obtain he' | ⟨_, rfl⟩ := mem_seen_write.mp he'
          · exact mem_seen_write.mpr (.inl (hv.closed k e e' hover he'))
          · obtain ⟨j, hj⟩ := hv.written _ _ hover
            exact absurd hj (hnew j)
      written := by
        intro e e' hover
        obtain ⟨_, rfl⟩ | hover := mem_overwrote_write.mp hover
        · exact ⟨i, mem_seen_write.mpr (.inr ⟨rfl, rfl⟩)⟩
        · obtain ⟨k, hk⟩ := hv.written e e' hover
          exact ⟨k, mem_seen_write.mpr (.inl hk)⟩
      entries := by
        intro k e he
        by_cases hk : k = i
        · subst hk
          obtain rfl : e = (value, stamp) := by simpa [step, MvRegister.write] using he
          refine ⟨mem_seen_write.mpr (.inr ⟨rfl, rfl⟩), fun hobs => ?_⟩
          obtain ⟨v, hv'⟩ : ∃ v, (v, stamp) ∈ (w.register k).entries := by
            simpa [step, MvRegister.write] using hobs
          exact hne k _ (hv.entries k _ hv').1 rfl
        · have hold : e ∈ (w.register k).entries := by simpa [step, hk] using he
          refine ⟨mem_seen_write.mpr (.inl (hv.entries k e hold).1), ?_⟩
          simpa [step, hk] using (hv.entries k e hold).2
      maxima := by
        intro k e he hmax
        rw [overwritten_write hv hnew, not_or] at hmax
        by_cases hk : k = i
        · -- the write overwrites all that its replica has seen
          subst hk
          obtain he | ⟨_, rfl⟩ := mem_seen_write.mp he
          · exact absurd ⟨rfl, he⟩ hmax.2
          · simp [step, MvRegister.write]
        · obtain he | ⟨hki, _⟩ := mem_seen_write.mp he
          · simpa [step, hk] using hv.maxima k e he hmax.1
          · exact absurd hki hk
      observed := by
        intro k s hs
        by_cases hk : k = i
        · subst hk
          obtain ⟨v, hv'⟩ : ∃ v, (v, s) ∈ (w.register k).entries := by
            simpa [step, MvRegister.write] using hs
          have hseen := (hv.entries k _ hv').1
          exact ⟨(v, s), mem_seen_write.mpr (.inl hseen), rfl, (overwritten_write hv hnew).mpr (.inr ⟨rfl, hseen⟩)⟩
        · obtain ⟨e, he, heq, hover⟩ := hv.observed k s (by simpa [step, hk] using hs)
          exact ⟨e, mem_seen_write.mpr (.inl he), heq, (overwritten_write hv hnew).mpr (.inl hover)⟩ }

/-- A write leaves every replica with the causal maxima. -/
theorem exact_write (hx : w.Exact) :
    (w.step (.write i value stamp)).Exact := by
  have hnew : ∀ k, (value, stamp) ∉ w.seen k := fun k hk => hv.stamp_ne hinj hfresh hk rfl
  have hnone : ∀ k, ¬ w.Overwritten k (value, stamp) := by
    rintro k ⟨e', he', hover⟩
    exact hnew k (hv.closed k _ e' hover he')
  intro k e
  rw [mem_seen_write, overwritten_write hv hnew, not_or]
  by_cases hk : k = i
  · subst hk
    have hentries : e ∈ ((w.step (.write k value stamp)).register k).entries ↔ e = (value, stamp) := by
      simp [step, MvRegister.write]
    rw [hentries]
    constructor
    · rintro rfl
      exact ⟨.inr ⟨rfl, rfl⟩, hnone k, fun h => hnew k h.2⟩
    · rintro ⟨he | ⟨_, rfl⟩, _, hlast⟩
      · exact absurd ⟨rfl, he⟩ hlast
      · rfl
  · have hentries : ((w.step (.write i value stamp)).register k).entries = (w.register k).entries := by
      simp [step, hk]
    rw [hentries, hx k e]
    simp [hk]

end

end Write

section Merge

variable {w : World ι V} {i j : ι}

variable {k : ι} {e : Entry V} {peerOf : ι → ℤ}

theorem mem_seen_merge : e ∈ (w.step (.merge i j)).seen k ↔
    e ∈ w.seen k ∨ k = i ∧ e ∈ w.seen j := by
  by_cases hk : k = i
  · subst hk
    simp [step]
  · simp [step, hk]

theorem overwritten_merge : (w.step (.merge i j)).Overwritten k e ↔
    w.Overwritten k e ∨ k = i ∧ w.Overwritten j e := by
  constructor
  · rintro ⟨e', he', hover⟩
    obtain he' | ⟨hk, he'⟩ := mem_seen_merge.mp he'
    · exact .inl ⟨e', he', hover⟩
    · exact .inr ⟨hk, e', he', hover⟩
  · rintro (⟨e', he', hover⟩ | ⟨rfl, e', he', hover⟩)
    · exact ⟨e', mem_seen_merge.mpr (.inl he'), hover⟩
    · exact ⟨e', mem_seen_merge.mpr (.inr ⟨rfl, he'⟩), hover⟩

/-- The entries that a merge keeps. -/
theorem mem_entries_merge (hv : w.Valid peerOf) :
    e ∈ ((w.step (.merge i j)).register i).entries ↔ (e ∈ (w.register i).entries ∨ e ∈ (w.register j).entries) ∧
        e.2 ∉ (w.register i).observed ∧ e.2 ∉ (w.register j).observed := by
  have hreg : (w.step (.merge i j)).register i = (w.register i).merged (w.register j) := by
    simp [step]
  have hseen : ∀ a, a ∈ (w.register i).entries ∨ a ∈ (w.register j).entries → ∃ k, a ∈ w.seen k :=
    fun a ha => ha.elim (fun ha => ⟨i, (hv.entries i a ha).1⟩) fun ha => ⟨j, (hv.entries j a ha).1⟩
  rw [hreg]
  refine MvRegister.mem_entries_merged fun a b ha hb heq => ?_
  obtain ⟨k, hk⟩ := hseen a ha
  obtain ⟨l, hl⟩ := hseen b hb
  exact hv.unique k l a hk b hl heq

omit [DecidableEq ι] in
/-- A stamp in the causal context names an overwritten write, and stamps name writes. -/
theorem Valid.overwritten_of_observed (hv : w.Valid peerOf) {l : ι} (he : e ∈ w.seen k)
    (hobs : e.2 ∈ (w.register l).observed) : w.Overwritten l e := by
  obtain ⟨e', he', heq, hover⟩ := hv.observed l _ hobs
  obtain rfl := hv.unique l k e' he' e he heq
  exact hover

theorem valid_merge (hv : w.Valid peerOf) : (w.step (.merge i j)).Valid peerOf := by
  have hold : ∀ k, ∀ e ∈ (w.step (.merge i j)).seen k, ∃ l, e ∈ w.seen l := by
    intro k e he
    obtain he | ⟨_, he⟩ := mem_seen_merge.mp he
    · exact ⟨k, he⟩
    · exact ⟨j, he⟩
  exact
    { issued := by
        intro k e he
        obtain ⟨l, hl⟩ := hold k e he
        obtain ⟨m, hpeer, hm⟩ := hv.issued l e hl
        exact ⟨m, hpeer, mem_seen_merge.mpr (.inl hm)⟩
      unique := by
        intro k l e he e' he' heq
        obtain ⟨m, hm⟩ := hold k e he
        obtain ⟨n, hn⟩ := hold l e' he'
        exact hv.unique m n e hm e' hn heq
      closed := by
        intro k e e' hover he'
        obtain he' | ⟨hk, he'⟩ := mem_seen_merge.mp he'
        · exact mem_seen_merge.mpr (.inl (hv.closed k e e' hover he'))
        · exact mem_seen_merge.mpr (.inr ⟨hk, hv.closed j e e' hover he'⟩)
      written := by
        intro e e' hover
        obtain ⟨k, hk⟩ := hv.written e e' hover
        exact ⟨k, mem_seen_merge.mpr (.inl hk)⟩
      entries := by
        intro k e he
        by_cases hk : k = i
        · subst hk
          obtain ⟨hside, hself, hother⟩ := (mem_entries_merge hv).mp he
          have hobs : ((w.step (.merge k j)).register k).observed =
              (w.register k).observed ∪ (w.register j).observed := by
            simp [step, MvRegister.merged]
          refine ⟨mem_seen_merge.mpr ?_, by simp [hobs, hself, hother]⟩
          exact hside.imp (fun he => (hv.entries k e he).1) fun he => ⟨rfl, (hv.entries j e he).1⟩
        · have hkept : e ∈ (w.register k).entries := by simpa [step, hk] using he
          refine ⟨mem_seen_merge.mpr (.inl (hv.entries k e hkept).1), ?_⟩
          simpa [step, hk] using (hv.entries k e hkept).2
      maxima := by
        intro k e he hmax
        rw [overwritten_merge, not_or] at hmax
        by_cases hk : k = i
        · -- neither context holds the stamp of a maximum, so the merge keeps it
          subst hk
          have hother : ¬ w.Overwritten j e := fun h => hmax.2 ⟨rfl, h⟩
          obtain ⟨m, hm⟩ := hold k e he
          refine (mem_entries_merge hv).mpr ⟨?_, fun h => hmax.1 (hv.overwritten_of_observed hm h),
            fun h => hother (hv.overwritten_of_observed hm h)⟩
          obtain he | ⟨_, he⟩ := mem_seen_merge.mp he
          · exact .inl (hv.maxima k e he hmax.1)
          · exact .inr (hv.maxima j e he hother)
        · obtain he | ⟨hki, _⟩ := mem_seen_merge.mp he
          · simpa [step, hk] using hv.maxima k e he hmax.1
          · exact absurd hki hk
      observed := by
        intro k s hs
        by_cases hk : k = i
        · subst hk
          have hs' : s ∈ (w.register k).observed ∨ s ∈ (w.register j).observed := by
            simpa [step, MvRegister.merged] using hs
          obtain hs | hs := hs'
          · obtain ⟨e, he, heq, hover⟩ := hv.observed k s hs
            exact ⟨e, mem_seen_merge.mpr (.inl he), heq, overwritten_merge.mpr (.inl hover)⟩
          · obtain ⟨e, he, heq, hover⟩ := hv.observed j s hs
            exact ⟨e, mem_seen_merge.mpr (.inr ⟨rfl, he⟩), heq, overwritten_merge.mpr (.inr ⟨rfl, hover⟩)⟩
        · obtain ⟨e, he, heq, hover⟩ := hv.observed k s (by simpa [step, hk] using hs)
          exact ⟨e, mem_seen_merge.mpr (.inl he), heq, overwritten_merge.mpr (.inl hover)⟩ }

/-- A merge of causal maxima gives the causal maxima if and only if no forgotten entry comes back. -/
theorem exact_merge_iff (hv : w.Valid peerOf) (hx : w.Exact) :
    (w.step (.merge i j)).Exact ↔ w.Remembers (.merge i j) := by
  have hlive : ∀ k, ∀ e ∈ (w.register k).entries, ¬ w.Overwritten k e := fun k e he => ((hx k e).mp he).2
  constructor
  · intro hx'
    -- an overwritten entry that stays after the merge would not be a maximum
    have hgone : ∀ e, e ∈ (w.register i).entries ∨ e ∈ (w.register j).entries → w.Overwritten i e ∨ w.Overwritten j e →
        e.2 ∈ (w.register i).observed ∨ e.2 ∈ (w.register j).observed := by
      intro e he hover
      by_contra hno
      rw [not_or] at hno
      have hkept := (mem_entries_merge hv).mpr ⟨he, hno⟩
      refine ((hx' i e).mp hkept).2 (overwritten_merge.mpr ?_)
      exact hover.imp id fun hover => ⟨rfl, hover⟩
    refine ⟨fun e he hover => ?_, fun e he hover => ?_⟩
    · exact (hgone e (.inl he) (.inr hover)).resolve_left (hv.entries i e he).2
    · exact (hgone e (.inr he) (.inl hover)).resolve_right (hv.entries j e he).2
  · rintro ⟨hleft, hright⟩ k e
    by_cases hk : k = i
    · subst hk
      constructor
      · intro he
        refine ⟨((valid_merge hv).entries k e he).1, fun hover => ?_⟩
        obtain ⟨hside, hself, hother⟩ := (mem_entries_merge hv).mp he
        obtain hover | ⟨_, hover⟩ := overwritten_merge.mp hover
        · exact hside.elim (fun he => hlive k e he hover) fun he => hself (hright e he hover)
        · exact hside.elim (fun he => hother (hleft e he hover)) fun he => hlive j e he hover
      · rintro ⟨he, hmax⟩
        exact (valid_merge hv).maxima k e he hmax
    · rw [mem_seen_merge, overwritten_merge]
      have hentries : ((w.step (.merge i j)).register k).entries = (w.register k).entries := by
        simp [step, hk]
      rw [hentries, hx k e]
      simp [hk]

end Merge

/-! ## Runs -/

theorem valid_run {peerOf : ι → ℤ} (hinj : Injective peerOf) {ops : List (Op ι V)}
    (hfresh : Throughout (fun before op => (run before).Fresh peerOf op) ops) :
    (run ops).Valid peerOf := by
  induction ops using reverseRecOn with
  | nil => exact valid_init peerOf
  | append_singleton ops op ih =>
    obtain ⟨hbefore, hop⟩ := throughout_concat.mp hfresh
    rw [run_concat]
    cases op with
    | write i value stamp => exact valid_write hinj (ih hbefore) hop
    | merge i j => exact valid_merge (ih hbefore)

/-- In every run of writes and merges over replicas with distinct peers, the entries of every replica
are the causal maxima of what it has seen at every moment if and only if no merge meets an entry that
the other side has seen overwritten and whose stamp its context has forgotten. -/
theorem entries_exact_iff {peerOf : ι → ℤ} (hinj : Injective peerOf) {ops : List (Op ι V)}
    (hfresh : Throughout (fun before op => (run before).Fresh peerOf op) ops) :
    (∀ before, before <+: ops → (run before).Exact) ↔
      Throughout (fun before op => (run before).Remembers op) ops := by
  induction ops using reverseRecOn with
  | nil =>
    refine ⟨fun _ => throughout_nil, fun _ before hbefore => ?_⟩
    obtain rfl := prefix_nil.mp hbefore
    exact exact_init
  | append_singleton ops op ih =>
    obtain ⟨hbefore, hop⟩ := throughout_concat.mp hfresh
    have hv := valid_run hinj hbefore
    have hstep : (run ops).Exact → ((run (ops ++ [op])).Exact ↔ (run ops).Remembers op) := by
      intro hx
      rw [run_concat]
      cases op with
      | write i value stamp => exact ⟨fun _ => trivial, fun _ => exact_write hinj hv hop hx⟩
      | merge i j => exact exact_merge_iff hv hx
    rw [throughout_concat, ← ih hbefore]
    constructor
    · intro h
      have hx := h ops (prefix_append ops [op])
      refine ⟨fun before hpre => h before (hpre.trans (prefix_append _ _)), ?_⟩
      exact (hstep hx).mp (h _ prefix_rfl)
    · rintro ⟨h, hrem⟩ before hpre
      obtain rfl | hpre := prefix_concat_iff.mp hpre
      · exact (hstep (h ops prefix_rfl)).mpr hrem
      · exact h before hpre

end World

/-! ## Two runs over two replicas -/

instance (w : World ℕ ℕ) (i : ℕ) (e : Entry ℕ) : Decidable (w.Overwritten i e) :=
  inferInstanceAs (Decidable (∃ e' ∈ w.seen i, (e, e') ∈ w.overwrote))

instance (peerOf : ℕ → ℤ) (w : World ℕ ℕ) : (op : Op ℕ ℕ) → Decidable (w.Fresh peerOf op)
  | .write i _ stamp =>
    inferInstanceAs (Decidable (stamp.peer = peerOf i ∧ ∀ e ∈ w.seen i, e.2 ≠ stamp))
  | .merge _ _ => inferInstanceAs (Decidable True)

instance (w : World ℕ ℕ) : (op : Op ℕ ℕ) → Decidable (w.Remembers op)
  | .write _ _ _ => inferInstanceAs (Decidable True)
  | .merge i j => inferInstanceAs (Decidable (
    (∀ e ∈ (w.register i).entries, w.Overwritten j e → e.2 ∈ (w.register j).observed) ∧
      ∀ e ∈ (w.register j).entries, w.Overwritten i e → e.2 ∈ (w.register i).observed))

/-- Replica 1 overwrites what it has merged, while replica 0 writes on. -/
def overwriting : List (Op ℕ ℕ) :=
  [.write 0 10 ⟨1, 0, 0⟩, .merge 1 0, .write 1 11 ⟨2, 0, 1⟩, .write 0 12 ⟨2, 0, 0⟩, .merge 0 1, .merge 1 0]

/-- Replica 0 overwrites its value twice; replica 1 still holds the first one. -/
def overwritingTwice : List (Op ℕ ℕ) :=
  [.write 0 10 ⟨1, 0, 0⟩, .merge 1 0, .write 0 11 ⟨2, 0, 0⟩, .write 0 12 ⟨3, 0, 0⟩, .merge 0 1]

theorem entries_exact_overwriting : (World.run overwriting).Exact := by
  have hfresh : Throughout (fun before op => (World.run before).Fresh Int.ofNat op) overwriting := by
    decide
  have hexact := (World.entries_exact_iff (fun _ _ => Int.ofNat.inj) hfresh).mpr (by decide)
  exact hexact overwriting prefix_rfl

theorem value_reappears : ¬ ∀ (peerOf : ℕ → ℤ) (ops : List (Op ℕ ℕ)), Injective peerOf →
    Throughout (fun before op => (World.run before).Fresh peerOf op) ops → (World.run ops).Exact := by
  intro h
  have hx := h Int.ofNat overwritingTwice (fun _ _ => Int.ofNat.inj) (by decide)
  have hback : ((10, ⟨1, 0, 0⟩) : Entry ℕ) ∈ ((World.run overwritingTwice).register 0).entries := by
    decide
  exact ((hx 0 _).mp hback).2 (by decide)

end LazilyPy.Register

import LazilyPy.Lossless.Reached
import LazilyPy.Lossless.Wire

/-!
# What a frontier has observed

A frontier is the set of the dots that it has observed, in one representation whatever the order has been. What `diff`
sends is what another frontier lacks of this set.
-/

namespace LazilyPy.Lossless

open List

namespace DotRange

variable {r r' : DotRange} {c : ℕ}

def Normal (r : DotRange) : Prop :=
  ∀ c ∈ r.sparse, r.contiguous + 1 < c

theorem contains_iff : r.contains c = true ↔ c ≤ r.contiguous ∨ c ∈ r.sparse := by
  rw [contains, decide_eq_true_iff]

/-! ### Taking counters into the prefix -/

/-- The dots are the same, and what is sparse stays above the prefix. -/
theorem extend_spec (h : r.extend = some r') : (∀ c, r'.contains c = r.contains c) ∧ r'.sparse.card < r.sparse.card ∧
      ((∀ c ∈ r.sparse, r.contiguous < c) → ∀ c ∈ r'.sparse, r'.contiguous < c) := by
  rw [extend] at h
  split at h
  · next hnext =>
    cases h
    refine ⟨fun c => Bool.eq_iff_iff.mpr ?_, Finset.card_erase_lt_of_mem hnext, fun habove c hc => ?_⟩
    · rw [contains_iff, contains_iff, Finset.mem_erase]
      by_cases hc : c = r.contiguous + 1
      · simp [hc, hnext]
      · have hle : c ≤ r.contiguous + 1 ↔ c ≤ r.contiguous := by omega
        simp [hc, hle]
    · obtain ⟨hne, hc⟩ := Finset.mem_erase.mp hc
      have hlt := habove c hc
      dsimp only
      omega
  · cases h

theorem extend_eq_none_iff : r.extend = none ↔ r.contiguous + 1 ∉ r.sparse := by
  rw [extend]
  split
  · next h => simp [h]
  · next h => simp [h]

/-- The loop takes a whole run, and leaves the same dots. -/
theorem loop_extend (r : DotRange) : (∀ c, (loop extend r.sparse.card r).contains c = r.contains c) ∧
    ((∀ c ∈ r.sparse, r.contiguous < c) → (loop extend r.sparse.card r).Normal) := by
  refine ⟨?_, fun habove => ?_⟩
  · exact loop_invariant (P := fun r' => ∀ c, r'.contains c = r.contains c)
      (fun a b hab ha c => ((extend_spec hab).1 c).trans (ha c)) _ fun _ => rfl
  · have hend : (loop extend r.sparse.card r).extend = none :=
      step_loop (fun a b hab => (extend_spec hab).2.1) (le_refl r.sparse.card)
    have hstay : ∀ c ∈ (loop extend r.sparse.card r).sparse, (loop extend r.sparse.card r).contiguous < c :=
      loop_invariant (P := fun r' : DotRange => ∀ c ∈ r'.sparse, r'.contiguous < c)
        (fun a b hab ha => (extend_spec hab).2.2 ha) r.sparse.card habove
    intro c hc
    have hlt := hstay c hc
    rw [extend_eq_none_iff] at hend
    have hne : c ≠ (loop extend r.sparse.card r).contiguous + 1 := fun heq => hend (heq ▸ hc)
    omega

theorem contains_observe (r : DotRange) (c c' : ℕ) :
    (r.observe c).contains c' = true ↔ c' = c ∨ r.contains c' = true := by
  rw [observe]
  split
  · next hle =>
    refine ⟨.inr, ?_⟩
    rintro (rfl | h)
    · exact contains_iff.mpr (.inl hle)
    · exact h
  · rw [(loop_extend { r with sparse := insert c r.sparse }).1, contains_iff, contains_iff, Finset.mem_insert]
    tauto

theorem Normal.observe (h : r.Normal) (c : ℕ) : (r.observe c).Normal := by
  rw [DotRange.observe]
  split
  · exact h
  · next hlt =>
    refine (loop_extend { r with sparse := insert c r.sparse }).2 fun c' hc' => ?_
    dsimp only
    obtain rfl | hc' := Finset.mem_insert.mp hc'
    · omega
    · have habove := h c' hc'
      omega

/-- A normal range is determined by its dots. -/
theorem Normal.eq_of_contains (h : r.Normal) (h' : r'.Normal)
    (hsame : ∀ c, 1 ≤ c → (r.contains c = true ↔ r'.contains c = true)) : r = r' := by
  have hle : ∀ {r r' : DotRange}, r.Normal → r'.Normal →
      (∀ c, 1 ≤ c → (r.contains c = true ↔ r'.contains c = true)) → r'.contiguous ≤ r.contiguous := by
    intro r r' h h' hsame
    by_contra hlt
    -- the dot behind the smaller prefix is in the other one
    have hnext := (hsame (r.contiguous + 1) (by omega)).mpr (contains_iff.mpr (.inl (by omega)))
    obtain hin | hin := contains_iff.mp hnext
    · omega
    · have habove := h _ hin
      omega
  have hcontiguous : r.contiguous = r'.contiguous :=
    le_antisymm (hle h' h fun c hc => (hsame c hc).symm) (hle h h' hsame)
  have hsparse : r.sparse = r'.sparse := by
    ext c
    constructor
    · intro hc
      have habove := h c hc
      obtain hin | hin := contains_iff.mp ((hsame c (by omega)).mp (contains_iff.mpr (.inr hc)))
      · omega
      · exact hin
    · intro hc
      have habove := h' c hc
      obtain hin | hin := contains_iff.mp ((hsame c (by omega)).mpr (contains_iff.mpr (.inr hc)))
      · omega
      · exact hin
  obtain ⟨contiguous, sparse⟩ := r
  obtain ⟨contiguous', sparse'⟩ := r'
  dsimp only at hcontiguous hsparse
  rw [hcontiguous, hsparse]

end DotRange

namespace TreeVersionFrontier

variable {f g : TreeVersionFrontier} {d d' : Dot} {ds ds' : List Dot}

def observed (ds : List Dot) : TreeVersionFrontier :=
  ds.foldl observe {}

/-- `f == g`: they have the same range for every peer. -/
def Same (f g : TreeVersionFrontier) : Prop :=
  ∀ peer, f.dots.get? peer = g.dots.get? peer

def Normal (f : TreeVersionFrontier) : Prop :=
  ∀ peer row, f.dots.get? peer = some row → row.2.Normal ∧ row.2 ≠ {}

theorem normal_empty : DotRange.Normal {} :=
  fun _ hc => absurd hc (Finset.notMem_empty _)

theorem Normal.range (h : f.Normal) (peer : ℤ) : (f.range peer).Normal := by
  rw [TreeVersionFrontier.range]
  cases hget : f.dots.get? peer with
  | none => exact normal_empty
  | some row => exact (h peer row hget).1

/-- A peer that is not known has no dots. -/
theorem contains_iff (hd : 1 ≤ d.counter) : f.contains d = true ↔ (f.range d.peer).contains d.counter = true := by
  rw [contains, range]
  cases f.dots.get? d.peer with
  | none =>
    refine ⟨nofun, fun h => ?_⟩
    obtain h | h := DotRange.contains_iff.mp h
    · exact absurd hd (Nat.not_le_of_lt (Nat.lt_succ_of_le h))
    · exact absurd h (Finset.notMem_empty _)
  | some row => rfl

theorem range_observe (f : TreeVersionFrontier) (d : Dot) (peer : ℤ) :
    (f.observe d).range peer = if peer = d.peer then (f.range d.peer).observe d.counter else f.range peer := by
  rw [range, observe, Table.get?_put]
  split
  · rfl
  · rfl

theorem contains_observe (f : TreeVersionFrontier) (d : Dot) (hd' : 1 ≤ d'.counter) :
    (f.observe d).contains d' = true ↔ d' = d ∨ f.contains d' = true := by
  rw [contains_iff hd', contains_iff hd', range_observe]
  split
  · next hpeer =>
    rw [DotRange.contains_observe, hpeer]
    refine or_congr_left ⟨fun hcounter => ?_, fun heq => by rw [heq]⟩
    obtain ⟨counter, peer⟩ := d
    obtain ⟨counter', peer'⟩ := d'
    dsimp only at hpeer hcounter
    rw [hpeer, hcounter]
  · next hpeer => exact (or_iff_right fun heq => hpeer (congrArg Dot.peer heq)).symm

theorem Normal.observe (h : f.Normal) (hd : 1 ≤ d.counter) : (f.observe d).Normal := by
  intro peer row hrow
  rw [TreeVersionFrontier.observe, Table.get?_put] at hrow
  split at hrow
  · cases hrow
    refine ⟨(h.range d.peer).observe d.counter, fun hempty => ?_⟩
    have hcontains : ((f.range d.peer).observe d.counter).contains d.counter = true :=
      (DotRange.contains_observe _ _ _).mpr (.inl rfl)
    rw [show (f.range d.peer).observe d.counter = {} from hempty] at hcontains
    obtain hle | hin := DotRange.contains_iff.mp hcontains
    · exact absurd hd (Nat.not_le_of_lt (Nat.lt_succ_of_le hle))
    · exact absurd hin (Finset.notMem_empty _)
  · exact h peer row hrow

/-- Normal frontiers are equal just if they have the same dots. -/
theorem Normal.same_iff (hf : f.Normal) (hg : g.Normal) :
    f.Same g ↔ ∀ d : Dot, 1 ≤ d.counter → (f.contains d = true ↔ g.contains d = true) := by
  constructor
  · intro hsame d hd
    rw [contains, contains, hsame d.peer]
  · intro hdots peer
    have hrange : f.range peer = g.range peer := by
      refine (hf.range peer).eq_of_contains (hg.range peer) fun c hc => ?_
      have hdot := hdots ⟨c, peer⟩ hc
      rwa [contains_iff hc, contains_iff hc] at hdot
    have hunknown : ∀ {f g : TreeVersionFrontier}, g.Normal → f.range peer = g.range peer →
        f.dots.get? peer = none → g.dots.get? peer = none := by
      intro f g hg heq hnone
      cases hget : g.dots.get? peer with
      | none => rfl
      | some row =>
        rw [TreeVersionFrontier.range, TreeVersionFrontier.range, hnone, hget] at heq
        exact absurd heq.symm (hg peer row hget).2
    cases hget : f.dots.get? peer with
    | none => exact (hunknown hg hrange hget).symm
    | some row =>
      cases hget' : g.dots.get? peer with
      | none =>
        rw [hunknown hf hrange.symm hget'] at hget
        cases hget
      | some row' =>
        rw [TreeVersionFrontier.range, TreeVersionFrontier.range, hget, hget'] at hrange
        have hkey : row.1 = row'.1 := (Table.key_of_get? hget).trans (Table.key_of_get? hget').symm
        exact congrArg some (Prod.ext hkey hrange)

/-! ### The frontier of a sequence of dots -/

theorem normal_observed (h : ∀ d ∈ ds, 1 ≤ d.counter) : (observed ds).Normal := by
  induction ds using reverseRecOn with
  | nil => exact fun peer row hrow => nomatch hrow
  | append_singleton ds d ih =>
    rw [observed, foldl_concat]
    exact (ih fun d' hd' => h d' (mem_append_left _ hd')).observe (h d mem_concat_self)

/-- A dot is in the frontier just if it has been observed. -/
theorem mem_observed (ds : List Dot) (hd : 1 ≤ d.counter) : (observed ds).contains d = true ↔ d ∈ ds := by
  induction ds using reverseRecOn with
  | nil => exact ⟨nofun, nofun⟩
  | append_singleton ds d' ih =>
    rw [observed, foldl_concat, contains_observe _ _ hd, mem_append, mem_singleton, or_comm]
    exact or_congr_left ih

theorem same_observed_iff (h : ∀ d ∈ ds, 1 ≤ d.counter) (h' : ∀ d ∈ ds', 1 ≤ d.counter) :
    (observed ds).Same (observed ds') ↔ ∀ d, d ∈ ds ↔ d ∈ ds' := by
  rw [(normal_observed h).same_iff (normal_observed h')]
  constructor
  · intro hdots d
    constructor
    · intro hd
      exact (mem_observed ds' (h d hd)).mp ((hdots d (h d hd)).mp ((mem_observed ds (h d hd)).mpr hd))
    · intro hd
      exact (mem_observed ds (h' d hd)).mp ((hdots d (h' d hd)).mpr ((mem_observed ds' (h' d hd)).mpr hd))
  · intro hdots d hd
    rw [mem_observed ds hd, mem_observed ds' hd, hdots]

/-- A frontier is read as it was written. -/
theorem observed_survives (h : ∀ d ∈ ds, 1 ≤ d.counter) :
    ∃ g, frontierFromWire (frontierToWire (observed ds)) = .ok g ∧ g.Same (observed ds) := by
  refine frontierFromWire_toWire fun row hrow => ?_
  have hnormal := (normal_observed h row.1 row (Table.get?_of_mem hrow)).1
  rw [DotRange.extend_eq_none_iff]
  intro hnext
  exact absurd (hnormal _ hnext) (lt_irrefl _)

end TreeVersionFrontier

/-! ## The log of a replica -/

namespace LosslessTreeCrdt

open TreeVersionFrontier (observed mem_observed)

structure Logged (s : LosslessTreeCrdt) : Prop where
  frontier : s.frontier = observed (s.log.map TreeOp.id)
  once : (s.log.map TreeOp.id).Nodup
  positive : ∀ op ∈ s.log ++ s.buffered, 1 ≤ op.id.counter

variable {s s' : LosslessTreeCrdt} {node : TreeOpId} {op : TreeOp}

theorem logged_new (peer : ℤ) : (new peer).Logged :=
  ⟨rfl, nodup_nil, nofun⟩

theorem Logged.contains_iff (h : s.Logged) {d : Dot} (hd : 1 ≤ d.counter) :
    s.frontier.contains d = true ↔ d ∈ s.log.map TreeOp.id := by
  rw [h.frontier, mem_observed _ hd]

/-- An operation that has not been applied is applied. -/
theorem Logged.commitLocal (h : s.Logged) (hpositive : 1 ≤ op.id.counter) (hnew : op.id ∉ s.log.map TreeOp.id) :
    (s.commitLocal op).Logged := by
  obtain ⟨nodes, heq⟩ := s.onlyNodes_applyOp op
  rw [LosslessTreeCrdt.commitLocal, heq]
  have hids : (s.log ++ [op]).map TreeOp.id = s.log.map TreeOp.id ++ [op.id] := map_append
  refine ⟨?_, ?_, fun op' hop' => ?_⟩
  · change s.frontier.observe op.id = observed ((s.log ++ [op]).map TreeOp.id)
    rw [hids, observed, foldl_concat, h.frontier, observed]
  · change ((s.log ++ [op]).map TreeOp.id).Nodup
    rw [hids]
    rw [← concat_eq_append]
    exact h.once.concat hnew
  · obtain hlog | hbuffered := mem_append.mp hop'
    · obtain hlog | hlast := mem_append.mp hlog
      · exact h.positive op' (mem_append_left _ hlog)
      · rwa [mem_singleton.mp hlast]
    · exact h.positive op' (mem_append_right _ hbuffered)

/-- What is minted is later than the log. -/
theorem Logged.commitNext (h : s.Logged) (hs : s.Grounded) (hsame : s.OnlyNodes s') (kind : TreeOpKind) :
    (s'.commitNext kind).Logged := by
  obtain ⟨nodes, rfl⟩ := hsame
  have hcount : ({ s with nodes, counter := s.counter + 1 } : LosslessTreeCrdt).Logged :=
    ⟨h.frontier, h.once, h.positive⟩
  refine hcount.commitLocal (Nat.le_add_left 1 s.counter) fun hmem => ?_
  obtain ⟨op, hop, hid⟩ := mem_map.mp hmem
  have hle := (hs.ops op (mem_append_left _ hop)).2
  rw [hid] at hle
  exact absurd hle (Nat.not_succ_le_self _)

/-- An operation that waits is applied only if the frontier lacks it. -/
theorem Logged.applyUpdate (h : s.Logged) {ops : List TreeOp} (hops : ∀ op ∈ ops, 1 ≤ op.id.counter) :
    (s.applyUpdate ops).Logged := by
  have hwaits : ∀ (s : LosslessTreeCrdt) counter buffered, s.counter ≤ counter →
      (∀ op ∈ buffered, 1 ≤ op.id.counter) → s.Logged → ({ s with counter, buffered } : LosslessTreeCrdt).Logged := by
    intro s counter buffered _ hbuffered hs
    refine ⟨hs.frontier, hs.once, fun op hop => ?_⟩
    obtain hlog | hwaiting := mem_append.mp hop
    · exact hs.positive op (mem_append_left _ hlog)
    · exact hbuffered op hwaiting
  have hcommit : ∀ (s : LosslessTreeCrdt) op, s.Logged → 1 ≤ op.id.counter → s.frontier.contains op.id = false →
      (s.commitLocal op).Logged := by
    intro s op hs hpositive hlacks
    refine hs.commitLocal hpositive fun hmem => ?_
    rw [(hs.contains_iff hpositive).mpr hmem] at hlacks
    cases hlacks
  exact (applyUpdate_induct (J := fun _ op => 1 ≤ op.id.counter) (fun _ _ _ _ hop => hop) hwaits hcommit h
    (fun op hop => h.positive op (mem_append_right _ hop)) hops).1

theorem Logged.act (h : s.Logged) (hs : s.Grounded) (hact : s.Acts s') : s'.Logged := by
  obtain ⟨s₁, kind, hsame, rfl⟩ := hact.commits
  exact h.commitNext hs hsame kind

theorem Reached.logged (h : s.Reached) : s.Logged := by
  induction h with
  | new peer => exact logged_new peer
  | createNode h hs' ih => exact ih.act h.grounded (.createNode hs')
  | tombstoneNode h hs' ih => exact ih.act h.grounded (.tombstoneNode hs')
  | reorderChild h hs' ih => exact ih.act h.grounded (.reorderChild hs')
  | editLeaf h hs' ih => exact ih.act h.grounded (.editLeaf hs')
  | splitLeaf h hs' ih => exact ih.act h.grounded (.splitLeaf hs')
  | mergeAdjacentLeaves h hs' ih => exact ih.act h.grounded (.mergeAdjacentLeaves hs')
  | applyUpdate _ _ hops ih ih' =>
    exact ih.applyUpdate fun op hop => ih'.positive op (mem_append_left _ (hops op hop))
  | fork _ peer ih => exact ⟨ih.frontier, ih.once, ih.positive⟩

/-! ## What is sent -/

/-- The operations that the other frontier lacks. -/
theorem mem_diff_iff (s : LosslessTreeCrdt) (their : TreeVersionFrontier) (op : TreeOp) :
    op ∈ s.diff their ↔ op ∈ s.log ∧ their.contains op.id = false := by
  rw [diff, sortBy, mem_insertionSort, mem_filter, Bool.not_eq_true']

theorem Logged.diff_once (h : s.Logged) (their : TreeVersionFrontier) : ((s.diff their).map TreeOp.id).Nodup := by
  have hperm : ((s.diff their).map TreeOp.id).Perm
      ((s.log.filter fun op => !their.contains op.id).map TreeOp.id) := (perm_insertionSort _ _).map _
  exact hperm.nodup_iff.mpr (h.once.sublist (filter_sublist.map _))

/-- A frontier has observed just what it has been told of, in a form that is the same for every order, and is read as
it was written. What is sent to a frontier are the operations that it lacks, each once. -/
theorem frontier_exact (ds ds' : List Dot) (hds : ∀ d ∈ ds, 1 ≤ d.counter) (hds' : ∀ d ∈ ds', 1 ≤ d.counter)
    (hs : s.Reached) (their : TreeVersionFrontier) :
    (∀ d : Dot, 1 ≤ d.counter → ((observed ds).contains d = true ↔ d ∈ ds)) ∧
      (∀ peer, ∀ c ∈ ((observed ds).range peer).sparse, ((observed ds).range peer).contiguous + 1 < c) ∧
      ((observed ds).Same (observed ds') ↔ ∀ d, d ∈ ds ↔ d ∈ ds') ∧
      (∀ op, op ∈ s.diff their ↔ op ∈ s.log ∧ their.contains op.id = false) ∧
      ((s.diff their).map TreeOp.id).Nodup ∧
      ∃ g, frontierFromWire (frontierToWire (observed ds)) = .ok g ∧ g.Same (observed ds) :=
  ⟨fun _ => mem_observed ds, TreeVersionFrontier.Normal.range (TreeVersionFrontier.normal_observed hds),
    TreeVersionFrontier.same_observed_iff hds hds', s.mem_diff_iff their, hs.logged.diff_once their,
    TreeVersionFrontier.observed_survives hds⟩

/-- Two peers, one with a hole. -/
theorem frontier_exact_holes :
    (observed [⟨3, 1⟩, ⟨1, 1⟩, ⟨1, 2⟩]).Same (observed [⟨1, 2⟩, ⟨1, 1⟩, ⟨3, 1⟩, ⟨1, 1⟩]) := by
  have h := frontier_exact [⟨3, 1⟩, ⟨1, 1⟩, ⟨1, 2⟩] [⟨1, 2⟩, ⟨1, 1⟩, ⟨3, 1⟩, ⟨1, 1⟩] (by decide) (by decide)
    (.new 1) {}
  refine h.2.2.1.mpr fun d => ?_
  simp only [mem_cons, not_mem_nil, or_false]
  tauto

end LosslessTreeCrdt

end LazilyPy.Lossless

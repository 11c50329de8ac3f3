import LazilyPy.Plane.History

/-!
# Delta synchronization

What a plane has after it has asked another one for what is later than its frontier.
-/

namespace LazilyPy.Plane

open CrdtPlaneRuntime List

/-- For every node and key of `b` the winner of `a` is at least the winner of `b`. -/
def Covers (a b : CrdtPlaneRuntime) : Prop :=
  ∀ k e, b.entries.get? k = some e → ∃ e', a.entries.get? k = some e' ∧ e.stamp ≤ e'.stamp

/-- What `a` has observed of a peer. -/
def observedOf (a : CrdtPlaneRuntime) (peer : ℤ) : Stamp :=
  (a.frontier.get? peer).elim ⟨0, 0, 0⟩ Prod.snd

/-- Every winner of `b` that `a` does not have yet is later than what `a` has observed of its peer. -/
def Admits (a b : CrdtPlaneRuntime) : Prop :=
  ∀ k e, b.entries.get? k = some e →
    (∃ e', a.entries.get? k = some e' ∧ e.stamp ≤ e'.stamp) ∨ observedOf a e.stamp.peer < e.stamp

/-- The published frontier is read back as it is. -/
theorem frontierStamp_frontierItems (p : CrdtPlaneRuntime) (peer : ℤ) :
    frontierStamp p.frontierItems peer = observedOf p peer := by
  have hmem : ∀ r : ℤ × Stamp, r ∈ ((Table.empty (Prod.fst : ℤ × Stamp → ℤ)).putAll p.frontierItems).rows ↔
        r ∈ p.frontier.rows := by
    intro r
    rw [Table.mem_putAll]
    · simp [Table.empty, frontierItems, mem_insertionSort]
    · intro v w hv hw hkey
      simp only [Table.empty, frontierItems, mem_insertionSort, not_mem_nil, false_or] at hv hw
      exact Table.eq_of_key_eq hv hw hkey
  have hget : ((Table.empty (Prod.fst : ℤ × Stamp → ℤ)).putAll p.frontierItems).get? peer = p.frontier.get? peer := by
    refine Option.ext fun r => ?_
    rw [Table.get?_eq_some, Table.get?_eq_some, hmem]
  unfold frontierStamp observedOf
  rw [hget]

namespace History

/-! ## What ingesting operations does to the entries -/

theorem Valid.moves {h h' : History} (hv : h.Valid) (hm : Relation.ReflTransGen Move h h') : h'.Valid := by
  induction hm with
  | refl => exact hv
  | tail _ hm ih => exact ih.move hm

variable (h : History)

variable {k : ℤ × Option String} {e : PlaneEntry}

theorem get?_apply_of_ne (op : CrdtOp) (hk : k ≠ op.entry.entryKey) :
    (h.apply op).plane.entries.get? k = h.plane.entries.get? k := by
  simp only [apply, CrdtPlaneRuntime.apply]
  split
  · rfl
  · rw [entries_ingest, Table.get?_keepLater_of_ne hk]

theorem get?_applyOps_of_ne (ops : List CrdtOp) (hk : ∀ op ∈ ops, k ≠ op.entry.entryKey) :
    (h.applyOps ops).plane.entries.get? k = h.plane.entries.get? k := by
  induction ops generalizing h with
  | nil => rfl
  | cons op ops ih =>
    have hrest := ih (h.apply op) fun o ho => hk o (mem_cons_of_mem op ho)
    exact hrest.trans (get?_apply_of_ne h op (hk op mem_cons_self))

/-- Entries are only replaced by later ones. -/
theorem get?_apply_ge (op : CrdtOp) (he : h.plane.entries.get? k = some e) :
    ∃ e', (h.apply op).plane.entries.get? k = some e' ∧ e.stamp ≤ e'.stamp := by
  simp only [apply, CrdtPlaneRuntime.apply]
  split
  · exact ⟨e, he, le_rfl⟩
  · rw [entries_ingest]
    exact Table.get?_keepLater_ge PlaneEntry.stamp he

theorem get?_applyOps_ge (ops : List CrdtOp) (he : h.plane.entries.get? k = some e) :
    ∃ e', (h.applyOps ops).plane.entries.get? k = some e' ∧ e.stamp ≤ e'.stamp := by
  induction ops generalizing h e with
  | nil => exact ⟨e, he, le_rfl⟩
  | cons op ops ih =>
    obtain ⟨e', he', hle⟩ := get?_apply_ge h op he
    obtain ⟨e'', he'', hle'⟩ := ih (h.apply op) he'
    exact ⟨e'', he'', hle.trans hle'⟩

theorem mem_applied_apply (op : CrdtOp) {x : ℤ × Stamp} :
    x ∈ (h.apply op).plane.applied ↔ x = (op.node, op.stamp) ∨ x ∈ h.plane.applied := by
  simp only [apply, CrdtPlaneRuntime.apply]
  split
  · next hold =>
    refine ⟨.inr, ?_⟩
    rintro (rfl | hx)
    · exact hold
    · exact hx
  · rw [applied_ingest, mem_cons]

theorem mem_applied_applyOps (ops : List CrdtOp) {x : ℤ × Stamp} : x ∈ (h.applyOps ops).plane.applied ↔
      (∃ op ∈ ops, x = (op.node, op.stamp)) ∨ x ∈ h.plane.applied := by
  induction ops generalizing h with
  | nil => simp [applyOps]
  | cons op ops ih =>
    have hrest := ih (h.apply op)
    rw [mem_applied_apply] at hrest
    rw [show h.applyOps (op :: ops) = (h.apply op).applyOps ops from rfl, hrest,
      exists_mem_cons_iff, or_assoc, or_left_comm]

theorem mem_log_applyOps (ops : List CrdtOp) (he : e ∈ (h.applyOps ops).log) :
    e ∈ h.log ∨ ∃ op ∈ ops, op.entry = e := by
  induction ops generalizing h with
  | nil => exact .inl he
  | cons op ops ih =>
    obtain he | ⟨o, ho, heq⟩ := ih (h.apply op) he
    · simp only [apply, log] at he
      split at he
      · rw [written_ingested] at he
        obtain he | he := mem_append.mp he
        · exact .inl he
        · exact .inr ⟨op, mem_cons_self, (mem_singleton.mp he).symm⟩
      · exact .inl he
    · exact .inr ⟨o, mem_cons_of_mem op ho, heq⟩

variable {h}

/-- An operation that is new, and that no other one of the batch passes for, is in the log. -/
theorem Valid.mem_log_applyOps_of_new (hv : h.Valid) {ops : List CrdtOp} {op : CrdtOp}
    (hmem : op ∈ ops) (hnew : (op.node, op.stamp) ∉ h.plane.applied)
    (honly : ∀ o ∈ ops, o.node = op.node → o.stamp = op.stamp → o.entry = op.entry) :
    op.entry ∈ (h.applyOps ops).log := by
  have hv' := hv.moves (moves_applyOps h ops)
  obtain ⟨e, he, hnode, hstamp⟩ := (hv'.applied op.node op.stamp).mp
    ((mem_applied_applyOps h ops).mpr (.inl ⟨op, hmem, rfl⟩))
  obtain hold | ⟨o, ho, rfl⟩ := mem_log_applyOps h ops he
  · exact absurd ((hv.applied _ _).mpr ⟨e, hold, hnode, hstamp⟩) hnew
  · rwa [← honly o ho hnode hstamp]

end History

open History

/-- Of any two planes, the one that applies what the other one publishes as later than its frontier has
then all that the other one has, if and only if the frontier did not stand above anything that it was
missing. -/
theorem covers_deltaSync_iff (peerA peerB : ℤ) (actionsA actionsB : List Action) :
    Covers ((run peerA actionsA).plane.applyFrame
        ((run peerB actionsB).plane.deltaSync (run peerA actionsA).plane.frontierItems)).2
      (run peerB actionsB).plane ↔
    Admits (run peerA actionsA).plane (run peerB actionsB).plane := by
  have hva := valid_run peerA actionsA
  have hvb := valid_run peerB actionsB
  generalize run peerA actionsA = a at hva ⊢
  generalize run peerB actionsB = b at hvb ⊢
  set ops := (b.plane.deltaSync a.plane.frontierItems).ops with hops
  have hentries : (a.plane.applyFrame (b.plane.deltaSync a.plane.frontierItems)).2.entries =
      (a.applyOps ops).plane.entries := by
    rw [plane_applyOps]
    rfl
  have hsent : ∀ op, op ∈ ops ↔
      ∃ e ∈ b.plane.entries.rows, observedOf a.plane e.stamp.peer < e.stamp ∧ e.toOp = op := by
    intro op
    simp only [hops, deltaSync, mem_map, mem_filter, frontierStamp_frontierItems,
      decide_eq_true_eq, and_assoc]
  unfold Covers
  rw [hentries]
  constructor
  · intro hcov k e he
    by_cases hless : observedOf a.plane e.stamp.peer < e.stamp
    · exact .inr hless
    · -- nothing is sent for `k`, so the plane had it before
      left
      obtain ⟨e', he', hle⟩ := hcov k e he
      refine ⟨e', ?_, hle⟩
      rw [← he']
      refine (get?_applyOps_of_ne a ops fun op hop hk => ?_).symm
      obtain ⟨f, hf, hlate, rfl⟩ := (hsent op).mp hop
      have hkey : b.plane.entries.get? k = some f := by
        rw [hk]
        exact Table.get?_of_mem hf
      obtain rfl : e = f := Option.some.inj (he.symm.trans hkey)
      exact hless hlate
  · intro hadm k e he
    have hkey : e.entryKey = k := Table.key_of_get? he
    obtain ⟨e', he', hle⟩ | hless := hadm k e he
    · obtain ⟨e'', he'', hle'⟩ := get?_applyOps_ge a ops he'
      exact ⟨e'', he'', hle.trans hle'⟩
    · have hmem : e.toOp ∈ ops := (hsent _).mpr ⟨e, Table.mem_of_get? he, hless, rfl⟩
      -- the frontier is at or above all that has been applied
      have hnew : (e.node, e.stamp) ∉ a.plane.applied := by
        intro happ
        obtain ⟨e₀, he₀, _, hstamp⟩ := (hva.applied _ _).mp happ
        obtain ⟨f, hf, hle⟩ := hva.observed e₀ he₀
        rw [hstamp] at hf hle
        refine absurd hless (not_lt.mpr ?_)
        rw [observedOf, hf]
        exact hle
      have honly : ∀ o ∈ ops, o.node = e.node → o.stamp = e.stamp → o.entry = e := by
        intro o ho hnode hstamp
        obtain ⟨f, hf, _, rfl⟩ := (hsent o).mp ho
        exact hvb.unique f (hvb.latest.mem _ f (Table.get?_of_mem hf)) e
          (hvb.latest.mem k e he) hnode hstamp
      have hlog := hva.mem_log_applyOps_of_new hmem hnew honly
      obtain ⟨e', he', hle⟩ := (hva.moves (moves_applyOps a ops)).latest.le e hlog
      exact ⟨e', hkey ▸ he', hle⟩

/-- Peer 1 has written node 2 and then node 1; one plane has ingested only the later operation. -/
def laterOnly : List Action :=
  [.apply ⟨1, none, ⟨20, 0, 1⟩, .inline [1]⟩]

def bothWrites : List Action :=
  [.apply ⟨2, none, ⟨10, 0, 1⟩, .inline [1]⟩, .apply ⟨1, none, ⟨20, 0, 1⟩, .inline [1]⟩]

theorem deltaSync_gap : ¬ ∀ (peerA peerB : ℤ) (actionsA actionsB : List Action),
    Covers ((run peerA actionsA).plane.applyFrame
        ((run peerB actionsB).plane.deltaSync (run peerA actionsA).plane.frontierItems)).2
      (run peerB actionsB).plane := by
  intro h
  have hnone : ((run 2 laterOnly).plane.applyFrame ((run 3 bothWrites).plane.deltaSync
      (run 2 laterOnly).plane.frontierItems)).2.entries.get? (2, none) = none := by
    decide
  obtain ⟨e', he', _⟩ := h 2 3 laterOnly bothWrites (2, none) ⟨2, none, ⟨10, 0, 1⟩, [1]⟩ (by decide)
  rw [hnone] at he'
  cases he'

end LazilyPy.Plane

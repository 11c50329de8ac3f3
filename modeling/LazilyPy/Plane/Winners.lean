import LazilyPy.Plane.DeltaSync

/-!
# Winners

The same operations, delivered in any order, in any frames and any number of times, leave the same winners.
-/

namespace LazilyPy.Plane

open CrdtPlaneRuntime History List

/-- A call that brings operations, or registers a family that they may belong to. -/
inductive Delivery where
  | registerFamilyLww (ns : String)
  | apply (op : CrdtOp)
  | applyOps (ops : List CrdtOp)
  | applyFrame (frame : CrdtSync)

namespace Delivery

def call : Delivery → Action
  | registerFamilyLww ns => .registerFamilyLww ns
  | apply op => .apply op
  | applyOps ops => .applyOps ops
  | applyFrame frame => .applyFrame frame

def ops : Delivery → List CrdtOp
  | registerFamilyLww _ => []
  | apply op => [op]
  | applyOps ops => ops
  | applyFrame frame => frame.ops

end Delivery

def delivered (selfPeer : ℤ) (deliveries : List Delivery) : CrdtPlaneRuntime :=
  (run selfPeer (deliveries.map Delivery.call)).plane

/-- Together the deliveries bring just these operations, each at least once. -/
def Delivers (deliveries : List Delivery) (ops : Finset CrdtOp) : Prop :=
  ∀ op, op ∈ ops ↔ ∃ d ∈ deliveries, op ∈ d.ops

/-! ## What is in the log -/

section Log

variable (h : History) (d : Delivery)

theorem mem_applied_step {x : ℤ × Stamp} :
    x ∈ (h.step d.call).plane.applied ↔ (∃ op ∈ d.ops, x = (op.node, op.stamp)) ∨ x ∈ h.plane.applied := by
  cases d with
  | registerFamilyLww ns => simp [Delivery.call, Delivery.ops, step, registerFamilyLww]
  | apply op => exact mem_applied_applyOps h [op]
  | applyOps ops => exact mem_applied_applyOps h ops
  | applyFrame frame => exact mem_applied_applyOps h frame.ops

theorem mem_log_step {e : PlaneEntry} (he : e ∈ (h.step d.call).log) : e ∈ h.log ∨ ∃ op ∈ d.ops, op.entry = e := by
  cases d with
  | registerFamilyLww ns =>
    have hlog : written (h.events ++ [.registered ns]) = h.log := written_registered _ _
    exact .inl (hlog ▸ he)
  | apply op => exact mem_log_applyOps h [op] he
  | applyOps ops => exact mem_log_applyOps h ops he
  | applyFrame frame => exact mem_log_applyOps h frame.ops he

end Log

section Delivered

variable {ops : Finset CrdtOp} {deliveries : List Delivery}

/-- What the plane has applied and logged after the deliveries. -/
theorem log_run (selfPeer : ℤ) (deliveries : List Delivery) : (∀ op, (∃ d ∈ deliveries, op ∈ d.ops) →
      (op.node, op.stamp) ∈ (run selfPeer (deliveries.map Delivery.call)).plane.applied) ∧
    ∀ e ∈ (run selfPeer (deliveries.map Delivery.call)).log, ∃ d ∈ deliveries, ∃ op ∈ d.ops, op.entry = e := by
  induction deliveries using reverseRecOn with
  | nil =>
    refine ⟨?_, nofun⟩
    rintro op ⟨d, hd, -⟩
    cases hd
  | append_singleton deliveries d ih =>
    rw [run, map_append, foldl_append]
    constructor
    · rintro op ⟨d', hd', hop⟩
      refine (mem_applied_step _ d).mpr ?_
      obtain hd' | hd' := mem_append.mp hd'
      · exact .inr (ih.1 op ⟨d', hd', hop⟩)
      · exact .inl ⟨op, mem_singleton.mp hd' ▸ hop, rfl⟩
    · intro e he
      obtain he | ⟨op, hop, heq⟩ := mem_log_step _ d he
      · obtain ⟨d', hd', hop⟩ := ih.2 e he
        exact ⟨d', mem_append_left _ hd', hop⟩
      · exact ⟨d, mem_append_right _ (mem_singleton_self d), op, hop, heq⟩

/-- An operation is dropped only for one that has its stamp, so where stamps are distinct each one is in the
log. -/
theorem mem_log_delivered (hdistinct : Set.InjOn CrdtOp.stamp ops) (hdelivers : Delivers deliveries ops)
    (selfPeer : ℤ) (e : PlaneEntry) :
    e ∈ (run selfPeer (deliveries.map Delivery.call)).log ↔ ∃ op ∈ ops, op.entry = e := by
  have hv := valid_run selfPeer (deliveries.map Delivery.call)
  obtain ⟨happlied, hlog⟩ := log_run selfPeer deliveries
  constructor
  · intro he
    obtain ⟨d, hd, op, hop, heq⟩ := hlog e he
    exact ⟨op, (hdelivers op).mpr ⟨d, hd, hop⟩, heq⟩
  · rintro ⟨op, hop, rfl⟩
    obtain ⟨e, he, -, hstamp⟩ := (hv.applied _ _).mp (happlied op ((hdelivers op).mp hop))
    obtain ⟨d, hd, o, ho, rfl⟩ := hlog e he
    rwa [← hdistinct ((hdelivers o).mpr ⟨d, hd, ho⟩) hop hstamp]

/-- For every node and key, the winner is the operation with the greatest stamp. -/
theorem winner_iff (hdistinct : Set.InjOn CrdtOp.stamp ops) (hdelivers : Delivers deliveries ops)
    (selfPeer : ℤ) (k : ℤ × Option String) (e : PlaneEntry) :
    (delivered selfPeer deliveries).entries.get? k = some e ↔ ∃ op ∈ ops, op.entry = e ∧
      e.entryKey = k ∧ ∀ o ∈ ops, o.entry.entryKey = k → o.stamp ≤ op.stamp := by
  have hlog := mem_log_delivered hdistinct hdelivers selfPeer
  rw [delivered, (valid_run selfPeer _).latest.get?_eq_some_iff]
  · constructor
    · rintro ⟨he, hkey, hmax⟩
      obtain ⟨op, hop, rfl⟩ := (hlog e).mp he
      exact ⟨op, hop, rfl, hkey, fun o ho => hmax o.entry ((hlog _).mpr ⟨o, ho, rfl⟩)⟩
    · rintro ⟨op, hop, rfl, hkey, hmax⟩
      refine ⟨(hlog _).mpr ⟨op, hop, rfl⟩, hkey, fun w hw => ?_⟩
      obtain ⟨o, ho, rfl⟩ := (hlog w).mp hw
      exact hmax o ho
  · intro v hv w hw _ hstamp
    obtain ⟨o, ho, rfl⟩ := (hlog v).mp hv
    obtain ⟨o', ho', rfl⟩ := (hlog w).mp hw
    rw [hdistinct ho ho' hstamp]

/-- Deliveries of the same operations, to planes of any peers, leave the same winners, and these have the greatest
stamps. -/
theorem winners_order_independent (hdistinct : Set.InjOn CrdtOp.stamp ops) {deliveries' : List Delivery}
    (hdelivers : Delivers deliveries ops) (hdelivers' : Delivers deliveries' ops) (selfPeer selfPeer' : ℤ)
    (k : ℤ × Option String) :
    (delivered selfPeer deliveries).entries.get? k = (delivered selfPeer' deliveries').entries.get? k ∧
      ∀ e, (delivered selfPeer deliveries).entries.get? k = some e ↔ ∃ op ∈ ops, op.entry = e ∧
        e.entryKey = k ∧ ∀ o ∈ ops, o.entry.entryKey = k → o.stamp ≤ op.stamp := by
  refine ⟨Option.ext fun e => ?_, winner_iff hdistinct hdelivers selfPeer k⟩
  exact (winner_iff hdistinct hdelivers selfPeer k e).trans (winner_iff hdistinct hdelivers' selfPeer' k e).symm

end Delivered

def opOf (peer : ℤ) : CrdtOp :=
  ⟨1, none, ⟨5, 0, peer⟩, .inline [7]⟩

theorem winners_order_independent_twice :
    (delivered 0 [.apply (opOf 2), .applyFrame ⟨[], [opOf 3, opOf 2]⟩]).entries.get? (1, none) =
      (delivered 9 [.applyOps [opOf 3, opOf 3, opOf 2]]).entries.get? (1, none) :=
  (winners_order_independent (show Set.InjOn CrdtOp.stamp ({opOf 2, opOf 3} : Finset CrdtOp) by decide)
    (by simp [Delivers, Delivery.ops, or_comm]) (by simp [Delivers, Delivery.ops, or_comm]) 0 9 (1, none)).1

end LazilyPy.Plane

import LazilyPy.Plane.Basic

/-!
# Histories of a plane

Any calls on one plane, with what it has ingested and registered.
-/

namespace LazilyPy.Plane

open List

namespace CrdtPlaneRuntime

/-! ## What materializing leaves alone -/

section Materialize

variable (path : String) (node : Option ℤ) (p : CrdtPlaneRuntime)

/-- Materializing binds a path, or counts a minted node. -/
theorem materialize_cases : ∃ p' : CrdtPlaneRuntime, (p' = p ∨ ∃ n, p' = { p with nextFamilyNode := n }) ∧
      ((p.materializeFamilyEntry path node).2 = p' ∨ ∃ bound,
        (p.materializeFamilyEntry path node).2 = p'.bindPath path (namespaceOf path) bound) := by
  unfold materializeFamilyEntry
  split
  · exact ⟨p, .inl rfl, .inl rfl⟩
  · refine ⟨(p.nodeOrMint node).2, ?_, ?_⟩
    · cases node with
      | none => exact .inr ⟨_, rfl⟩
      | some n => exact .inl rfl
    · dsimp only
      split
      · exact .inr ⟨_, rfl⟩
      · exact .inl rfl

@[simp] theorem entries_materialize : (p.materializeFamilyEntry path node).2.entries = p.entries := by
  obtain ⟨p', rfl | ⟨n, rfl⟩, h | ⟨bound, h⟩⟩ := materialize_cases path node p <;> rw [h] <;> rfl

@[simp] theorem applied_materialize : (p.materializeFamilyEntry path node).2.applied = p.applied := by
  obtain ⟨p', rfl | ⟨n, rfl⟩, h | ⟨bound, h⟩⟩ := materialize_cases path node p <;> rw [h] <;> rfl

@[simp] theorem frontier_materialize : (p.materializeFamilyEntry path node).2.frontier = p.frontier := by
  obtain ⟨p', rfl | ⟨n, rfl⟩, h | ⟨bound, h⟩⟩ := materialize_cases path node p <;> rw [h] <;> rfl

@[simp] theorem families_materialize : (p.materializeFamilyEntry path node).2.families = p.families := by
  obtain ⟨p', rfl | ⟨n, rfl⟩, h | ⟨bound, h⟩⟩ := materialize_cases path node p <;> rw [h] <;> rfl

@[simp] theorem selfPeer_materialize : (p.materializeFamilyEntry path node).2.selfPeer = p.selfPeer := by
  obtain ⟨p', rfl | ⟨n, rfl⟩, h | ⟨bound, h⟩⟩ := materialize_cases path node p <;> rw [h] <;> rfl

@[simp] theorem localLogical_materialize : (p.materializeFamilyEntry path node).2.localLogical = p.localLogical := by
  obtain ⟨p', rfl | ⟨n, rfl⟩, h | ⟨bound, h⟩⟩ := materialize_cases path node p <;> rw [h] <;> rfl

end Materialize

section Ingest

variable (op : CrdtOp) (p : CrdtPlaneRuntime)

@[simp] theorem applied_ingest : (p.ingest op).applied = (op.node, op.stamp) :: p.applied := by
  unfold ingest
  cases op.key <;> simp

@[simp] theorem entries_ingest : (p.ingest op).entries = p.entries.keepLater PlaneEntry.stamp op.entry := by
  unfold ingest
  cases op.key <;> simp

@[simp] theorem frontier_ingest :
    (p.ingest op).frontier = p.frontier.keepLater Prod.snd (op.stamp.peer, op.stamp) := by
  unfold ingest
  cases op.key <;> simp

@[simp] theorem families_ingest : (p.ingest op).families = p.families := by
  unfold ingest
  cases op.key <;> simp

@[simp] theorem selfPeer_ingest : (p.ingest op).selfPeer = p.selfPeer := by
  unfold ingest
  cases op.key <;> simp

end Ingest

end CrdtPlaneRuntime

open CrdtPlaneRuntime

/-! ## Calls and events -/

inductive Action where
  | registerFamilyLww (ns : String)
  | apply (op : CrdtOp)
  | applyOps (ops : List CrdtOp)
  | applyFrame (frame : CrdtSync)
  | familySetLww (ns keySuffix : String) (value : Bool) (now : ℤ)

def CrdtPlaneRuntime.perform (p : CrdtPlaneRuntime) : Action → CrdtPlaneRuntime
  | .registerFamilyLww ns => p.registerFamilyLww ns
  | .apply op => (p.apply op).2
  | .applyOps ops => (p.applyOps ops).2
  | .applyFrame frame => (p.applyFrame frame).2
  | .familySetLww ns keySuffix value now => (p.familySetLww ns keySuffix value now).2

/-- What has happened: a family has been registered, a local write has looked up a path, a new
operation has been ingested. -/
inductive Event where
  | registered (ns : String)
  | claimed (path : String) (node : ℤ)
  | ingested (e : PlaneEntry)
  deriving DecidableEq

def written (events : List Event) : List PlaneEntry :=
  events.filterMap fun
    | .ingested e => some e
    | _ => none

structure History where
  plane : CrdtPlaneRuntime
  events : List Event

namespace History

def log (h : History) : List PlaneEntry :=
  written h.events

def apply (h : History) (op : CrdtOp) : History where
  plane := (h.plane.apply op).2
  events := if (h.plane.apply op).1 then h.events ++ [.ingested op.entry] else h.events

def applyOps (h : History) (ops : List CrdtOp) : History :=
  ops.foldl apply h

def step (h : History) : Action → History
  | .registerFamilyLww ns => ⟨h.plane.registerFamilyLww ns, h.events ++ [.registered ns]⟩
  | .apply op => h.apply op
  | .applyOps ops => h.applyOps ops
  | .applyFrame frame =>
    ⟨(h.applyOps frame.ops).plane.observe frame.frontier, (h.applyOps frame.ops).events⟩
  | .familySetLww ns keySuffix value now =>
    let path := familyPath ns keySuffix
    let (node, p) := h.plane.materializeFamilyEntry path none
    let p := { p with localLogical := p.localLogical + 1 }
    let h : History := ⟨p, h.events ++ [.claimed path node]⟩
    match NodeKey.new path with
    | .error _ => h
    | .ok key => h.apply ⟨node, some key, ⟨now, p.localLogical, p.selfPeer⟩, .inline [if value then 1 else 0]⟩

theorem plane_applyOps (h : History) (ops : List CrdtOp) : (h.applyOps ops).plane = (h.plane.applyOps ops).2 := by
  have hplane : ops.foldl (fun p op => (p.apply op).2) h.plane = (h.applyOps ops).plane :=
    List.foldl_hom plane fun _ _ => rfl
  rw [CrdtPlaneRuntime.applyOps, ← hplane]
  exact @List.foldl_hom _ _ _ Prod.snd _ _ ops (0, h.plane) fun _ _ => rfl

end History

def run (selfPeer : ℤ) (actions : List Action) : History :=
  actions.foldl History.step ⟨{ selfPeer }, []⟩

/-! ## Moves -/

inductive Move : History → History → Prop
  | registered (h : History) (ns : String) : Move h ⟨h.plane.registerFamilyLww ns, h.events ++ [.registered ns]⟩
  | claimed (h : History) (path : String) : Move h ⟨(h.plane.materializeFamilyEntry path none).2,
      h.events ++ [.claimed path (h.plane.materializeFamilyEntry path none).1]⟩
  | ticked (h : History) (n : ℤ) : Move h ⟨{ h.plane with localLogical := n }, h.events⟩
  | ingested (h : History) (op : CrdtOp) (hnew : (op.node, op.stamp) ∉ h.plane.applied) :
    Move h ⟨h.plane.ingest op, h.events ++ [.ingested op.entry]⟩
  | observed (h : History) (frontier : List (ℤ × Stamp)) : Move h ⟨h.plane.observe frontier, h.events⟩

namespace History

open Relation (ReflTransGen)

theorem moves_apply (h : History) (op : CrdtOp) : ReflTransGen Move h (h.apply op) := by
  by_cases hnew : (op.node, op.stamp) ∈ h.plane.applied
  · have heq : h.apply op = h := by
      simp [apply, CrdtPlaneRuntime.apply, hnew]
    rw [heq]
  · have heq : h.apply op = ⟨h.plane.ingest op, h.events ++ [.ingested op.entry]⟩ := by
      simp [apply, CrdtPlaneRuntime.apply, hnew]
    rw [heq]
    exact .single (.ingested h op hnew)

theorem moves_applyOps (h : History) (ops : List CrdtOp) : ReflTransGen Move h (h.applyOps ops) := by
  induction ops generalizing h with
  | nil => exact .refl
  | cons op ops ih => exact (moves_apply h op).trans (ih (h.apply op))

/-- Every call is made of moves. -/
theorem moves_step (h : History) (a : Action) : ReflTransGen Move h (h.step a) := by
  cases a with
  | registerFamilyLww ns => exact .single (.registered h ns)
  | apply op => exact moves_apply h op
  | applyOps ops => exact moves_applyOps h ops
  | applyFrame frame => exact (moves_applyOps h frame.ops).tail (.observed _ _)
  | familySetLww ns keySuffix value now =>
    simp only [step]
    have hclaim := (ReflTransGen.single (Move.claimed h (familyPath ns keySuffix))).tail
      (.ticked _ ((h.plane.materializeFamilyEntry (familyPath ns keySuffix) none).2.localLogical + 1))
    split
    · exact hclaim
    · exact hclaim.trans (moves_apply _ _)

end History

def History.after (h : History) (actions : List Action) : History :=
  actions.foldl step h

/-- What is kept by every move is kept by any calls. -/
theorem after_induction {P : History → Prop} {h : History} (hp : P h)
    (hmove : ∀ h h', P h → Move h h' → P h') (actions : List Action) : P (h.after actions) := by
  have hmoves : ∀ h h', P h → Relation.ReflTransGen Move h h' → P h' := by
    intro h h' hp hr
    induction hr with
    | refl => exact hp
    | tail _ hm ih => exact hmove _ _ ih hm
  unfold History.after
  induction actions generalizing h with
  | nil => exact hp
  | cons a actions ih => exact ih (hmoves _ _ hp (h.moves_step a))

/-- What holds of a new plane, and is kept by every move, holds after any calls. -/
theorem run_induction {P : History → Prop} {selfPeer : ℤ} (hinit : P ⟨{ selfPeer }, []⟩)
    (hmove : ∀ h h', P h → Move h h' → P h') (actions : List Action) : P (run selfPeer actions) :=
  after_induction hinit hmove actions

/-! ## What every history keeps -/

namespace History

/-- The entries are the latest of the operations that were new, of which no two have the same node and
stamp, and the frontier is at or above their stamps. -/
structure Valid (h : History) : Prop where
  latest : h.plane.entries.Latest PlaneEntry.stamp h.log
  applied : ∀ n s, (n, s) ∈ h.plane.applied ↔ ∃ e ∈ h.log, e.node = n ∧ e.stamp = s
  unique : ∀ e ∈ h.log, ∀ e' ∈ h.log, e.node = e'.node → e.stamp = e'.stamp → e = e'
  observed : ∀ e ∈ h.log, ∃ f, h.plane.frontier.get? e.stamp.peer = some f ∧ e.stamp ≤ f.2

@[simp] theorem written_ingested (events : List Event) (e : PlaneEntry) :
    written (events ++ [.ingested e]) = written events ++ [e] := by
  simp [written]

@[simp] theorem written_registered (events : List Event) (ns : String) :
    written (events ++ [.registered ns]) = written events := by
  simp [written]

@[simp] theorem written_claimed (events : List Event) (path : String) (n : ℤ) :
    written (events ++ [.claimed path n]) = written events := by
  simp [written]

/-- Observing more stamps keeps the frontier at or above what it was. -/
theorem observe_ge {peer : ℤ} {f : ℤ × Stamp} (frontier : List (ℤ × Stamp)) (p : CrdtPlaneRuntime)
    (h : p.frontier.get? peer = some f) :
    ∃ f', (p.observe frontier).frontier.get? peer = some f' ∧ f.2 ≤ f'.2 := by
  have hfold : ∀ t : Table (Prod.fst : ℤ × Stamp → ℤ), t.get? peer = some f →
      ∃ f', (frontier.foldl (Table.keepLater Prod.snd) t).get? peer = some f' ∧ f.2 ≤ f'.2 := by
    clear h
    induction frontier generalizing f with
    | nil => exact fun t ht => ⟨f, ht, le_rfl⟩
    | cons g frontier ih =>
      intro t ht
      obtain ⟨f', hf', hle⟩ := Table.get?_keepLater_ge Prod.snd (v := g) ht
      obtain ⟨f'', hf'', hle'⟩ := ih _ hf'
      exact ⟨f'', hf'', hle.trans hle'⟩
  exact hfold p.frontier h

/-- An operation that is new goes to the end of the log, under a node and stamp of its own. -/
theorem Valid.ingest {h : History} (hv : h.Valid) {op : CrdtOp} (hnew : (op.node, op.stamp) ∉ h.plane.applied) :
    Valid ⟨h.plane.ingest op, h.events ++ [.ingested op.entry]⟩ := by
  have hfresh : ∀ e ∈ h.log, ¬ (e.node = op.node ∧ e.stamp = op.stamp) :=
    fun e he heq => hnew ((hv.applied _ _).mpr ⟨e, he, heq⟩)
  have hlog : written (h.events ++ [.ingested op.entry]) = h.log ++ [op.entry] := written_ingested _ _
  refine ⟨?_, fun n s => ?_, ?_, ?_⟩ <;> unfold log <;> dsimp only <;> rw [hlog]
  · rw [entries_ingest]
    exact hv.latest.keepLater op.entry
  · rw [applied_ingest, mem_cons, hv.applied]
    constructor
    · rintro (heq | ⟨e, he, heq⟩)
      · cases heq
        exact ⟨op.entry, by simp, rfl, rfl⟩
      · exact ⟨e, mem_append_left _ he, heq⟩
    · rintro ⟨e, he, rfl, rfl⟩
      obtain he | he := mem_append.mp he
      · exact .inr ⟨e, he, rfl, rfl⟩
      · obtain rfl := mem_singleton.mp he
        exact .inl rfl
  · intro e he e' he' hnode hstamp
    obtain he | he := mem_append.mp he
    · obtain he' | he' := mem_append.mp he'
      · exact hv.unique e he e' he' hnode hstamp
      · obtain rfl := mem_singleton.mp he'
        exact absurd ⟨hnode, hstamp⟩ (hfresh e he)
    · obtain rfl := mem_singleton.mp he
      obtain he' | he' := mem_append.mp he'
      · exact absurd ⟨hnode.symm, hstamp.symm⟩ (hfresh e' he')
      · exact (mem_singleton.mp he').symm
  · intro e he
    rw [frontier_ingest]
    obtain he | he := mem_append.mp he
    · obtain ⟨f, hf, hle⟩ := hv.observed e he
      obtain ⟨f', hf', hle'⟩ := Table.get?_keepLater_ge Prod.snd (v := (op.stamp.peer, op.stamp)) hf
      exact ⟨f', hf', hle.trans hle'⟩
    · obtain rfl := mem_singleton.mp he
      obtain hself | ⟨f, _, hf, hle⟩ := Table.get?_keepLater_self Prod.snd h.plane.frontier (op.stamp.peer, op.stamp)
      · exact ⟨_, hself, le_rfl⟩
      · exact ⟨f, hf, hle⟩

theorem Valid.move {h h' : History} (hv : h.Valid) (hm : Move h h') : h'.Valid := by
  cases hm with
  | registered ns =>
    have hlog : written (h.events ++ [.registered ns]) = h.log := written_registered _ _
    refine ⟨?_, ?_, ?_, ?_⟩ <;> unfold log <;> dsimp only <;> rw [hlog]
    · exact hv.latest
    · exact hv.applied
    · exact hv.unique
    · exact hv.observed
  | claimed path =>
    -- binding a path to a node writes nothing
    have hlog : written (h.events ++ [.claimed path (h.plane.materializeFamilyEntry path none).1]) =
        h.log := written_claimed _ _ _
    refine ⟨?_, ?_, ?_, ?_⟩ <;> unfold log <;> dsimp only <;> rw [hlog]
    · rw [entries_materialize]
      exact hv.latest
    · rw [applied_materialize]
      exact hv.applied
    · exact hv.unique
    · rw [frontier_materialize]
      exact hv.observed
  | ticked n => exact ⟨hv.latest, hv.applied, hv.unique, hv.observed⟩
  | ingested op hnew => exact hv.ingest hnew
  | observed frontier =>
    -- a frame's frontier can only raise what the plane has observed
    refine ⟨hv.latest, hv.applied, hv.unique, fun e he => ?_⟩
    obtain ⟨f, hf, hle⟩ := hv.observed e he
    obtain ⟨f', hf', hle'⟩ := observe_ge frontier h.plane hf
    exact ⟨f', hf', hle.trans hle'⟩

theorem valid_run (selfPeer : ℤ) (actions : List Action) : (run selfPeer actions).Valid := by
  refine run_induction ⟨Table.latest_empty _, ?_, nofun, nofun⟩ (fun _ _ hv hm => hv.move hm) actions
  intro n s
  simp [log, written]

end History

end LazilyPy.Plane

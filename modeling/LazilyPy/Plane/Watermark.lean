import LazilyPy.Lib.Throughout
import LazilyPy.Plane.History

/-!
# The stability watermark

Any number of planes that write, publish frames and apply each other's frames in any order, each frame
any number of times or never. A plane publishes operations that it rebuilds from its entries, and operations
that are ingested somewhere travel in the frames from plane to plane.
-/

namespace LazilyPy.Plane

open CrdtPlaneRuntime List Option Function

/-! ## What calls bring to a plane -/

/-- The plane `p'` has kept what `p` had applied; what it has beyond the entries of `p` is `P`, and what
it has observed beyond the frontier of `p` is `Q`. -/
structure Absorbs (P : PlaneEntry → Prop) (Q : ℤ × Stamp → Prop) (p p' : CrdtPlaneRuntime) : Prop where
  selfPeer : p'.selfPeer = p.selfPeer
  applied : ∀ x ∈ p.applied, x ∈ p'.applied
  entries : ∀ e ∈ p'.entries.rows, e ∈ p.entries.rows ∨ P e
  frontier : ∀ r ∈ p'.frontier.rows, r ∈ p.frontier.rows ∨ Q r

section Absorbs

variable {P : PlaneEntry → Prop} {Q : ℤ × Stamp → Prop} {p p' p'' : CrdtPlaneRuntime}

theorem Absorbs.refl (p : CrdtPlaneRuntime) : Absorbs P Q p p :=
  ⟨rfl, fun _ h => h, fun _ h => .inl h, fun _ h => .inl h⟩

theorem Absorbs.trans (h : Absorbs P Q p p') (h' : Absorbs P Q p' p'') : Absorbs P Q p p'' where
  selfPeer := h'.selfPeer.trans h.selfPeer
  applied x hx := h'.applied x (h.applied x hx)
  entries e he := (h'.entries e he).elim (h.entries e) .inr
  frontier r hr := (h'.frontier r hr).elim (h.frontier r) .inr

section

variable (p : CrdtPlaneRuntime)

theorem absorbs_apply {op : CrdtOp} (hnew : (p.apply op).1 = true → P op.entry ∧ Q (op.stamp.peer, op.stamp)) :
    Absorbs P Q p (p.apply op).2 := by
  by_cases happ : (op.node, op.stamp) ∈ p.applied
  · have heq : p.apply op = (false, p) := if_pos happ
    rw [heq]
    exact .refl p
  · have heq : p.apply op = (true, p.ingest op) := if_neg happ
    rw [heq] at hnew ⊢
    obtain ⟨hP, hQ⟩ := hnew rfl
    refine ⟨selfPeer_ingest op p, fun x hx => ?_, fun e he => ?_, fun r hr => ?_⟩
    · rw [applied_ingest]
      exact mem_cons_of_mem _ hx
    · rw [entries_ingest] at he
      obtain rfl | hold := Table.mem_keepLater he
      · exact .inr hP
      · exact .inl hold
    · rw [frontier_ingest] at hr
      obtain rfl | hold := Table.mem_keepLater hr
      · exact .inr hQ
      · exact .inl hold

theorem absorbs_observe {frontier : List (ℤ × Stamp)} (hQ : ∀ r ∈ frontier, Q r) :
    Absorbs P Q p (p.observe frontier) := by
  refine ⟨rfl, fun _ h => h, fun _ h => .inl h, ?_⟩
  have hfold : ∀ t : Table (Prod.fst : ℤ × Stamp → ℤ),
      ∀ r ∈ (frontier.foldl (Table.keepLater Prod.snd) t).rows, r ∈ t.rows ∨ Q r := by
    induction frontier with
    | nil => exact fun t r hr => .inl hr
    | cons g frontier ih =>
      intro t r hr
      obtain hr | hr := ih (fun r hr => hQ r (mem_cons_of_mem g hr)) _ r hr
      · obtain rfl | hold := Table.mem_keepLater hr
        · exact .inr (hQ r mem_cons_self)
        · exact .inl hold
      · exact .inr hr
  exact hfold p.frontier

theorem absorbs_applyFrame {frame : CrdtSync} (hP : ∀ op ∈ frame.ops, P op.entry ∧ Q (op.stamp.peer, op.stamp))
    (hQ : ∀ r ∈ frame.frontier, Q r) : Absorbs P Q p (p.applyFrame frame).2 := by
  have hops : ∀ ops : List CrdtOp, (∀ op ∈ ops, P op.entry ∧ Q (op.stamp.peer, op.stamp)) →
      ∀ h : History, Absorbs P Q h.plane (h.applyOps ops).plane := by
    intro ops
    induction ops with
    | nil => exact fun _ h => .refl h.plane
    | cons op ops ih =>
      intro hP h
      have hfirst : Absorbs P Q h.plane (h.apply op).plane := absorbs_apply h.plane fun _ => hP op mem_cons_self
      exact hfirst.trans (ih (fun o ho => hP o (mem_cons_of_mem op ho)) (h.apply op))
  have hplane := hops frame.ops hP ⟨p, []⟩
  rw [History.plane_applyOps] at hplane
  exact hplane.trans (absorbs_observe _ hQ)

/-- A local write looks up its path, and then is refused or applies its operation. -/
theorem familySetLww_cases (ns keySuffix : String) (value : Bool) (now : ℤ) :
    ∃ p' : CrdtPlaneRuntime, Absorbs P Q p p' ∧ ((∃ e, p.familySetLww ns keySuffix value now = (.error e, p')) ∨
        ∃ op : CrdtOp, op.stamp.peer = p.selfPeer ∧ p.familySetLww ns keySuffix value now =
          (.ok (if (p'.apply op).1 then some op else none), (p'.apply op).2)) := by
  let p' := (p.materializeFamilyEntry (familyPath ns keySuffix) none).2
  have hpeer : p'.selfPeer = p.selfPeer := selfPeer_materialize _ _ p
  have happlied : p'.applied = p.applied := applied_materialize _ _ p
  have hentries : p'.entries = p.entries := entries_materialize _ _ p
  have hfrontier : p'.frontier = p.frontier := frontier_materialize _ _ p
  refine ⟨{ p' with localLogical := p'.localLogical + 1 }, ?_, ?_⟩
  · exact ⟨hpeer, fun x hx => happlied ▸ hx, fun e he => .inl (hentries ▸ he), fun f hf => .inl (hfrontier ▸ hf)⟩
  · unfold familySetLww
    dsimp only
    split
    · exact .inl ⟨_, rfl⟩
    · exact .inr ⟨_, hpeer, rfl⟩

/-- A local write of a family brings the operation that it returns. -/
theorem absorbs_familySetLww {ns keySuffix : String} {value : Bool} {now : ℤ}
    (hnew : ∀ op, (p.familySetLww ns keySuffix value now).1 = .ok (some op) → P op.entry ∧
    Q (op.stamp.peer, op.stamp)) :
    Absorbs P Q p (p.familySetLww ns keySuffix value now).2 := by
  obtain ⟨p', hclaim, ⟨e, heq⟩ | ⟨op, _, heq⟩⟩ := familySetLww_cases p ns keySuffix value now
  · rw [heq]
    exact hclaim
  · rw [heq] at hnew ⊢
    refine hclaim.trans (absorbs_apply p' fun hop => hnew op ?_)
    rw [if_pos hop]

theorem mem_applied_apply (op : CrdtOp) : (op.node, op.stamp) ∈ (p.apply op).2.applied := by
  simp only [CrdtPlaneRuntime.apply]
  split
  · assumption
  · simp

end

/-- The operation that a local write returns has been applied. -/
theorem mem_applied_familySetLww {p : CrdtPlaneRuntime} {ns keySuffix : String} {value : Bool} {now : ℤ}
    {op : CrdtOp} (h : (p.familySetLww ns keySuffix value now).1 = .ok (some op)) :
    (op.node, op.stamp) ∈ (p.familySetLww ns keySuffix value now).2.applied ∧ op.stamp.peer = p.selfPeer := by
  obtain ⟨p', _, ⟨e, heq⟩ | ⟨op', hpeer, heq⟩⟩ :=
    familySetLww_cases (P := fun _ => True) (Q := fun _ => True) p ns keySuffix value now
  · rw [heq] at h
    cases h
  · rw [heq] at h ⊢
    obtain ⟨_, rfl⟩ : (p'.apply op').1 = true ∧ op' = op := by simpa using h
    exact ⟨mem_applied_apply p' op', hpeer⟩

end Absorbs

/-! ## The network -/

/-- The planes, the operations that have been issued, and the frames that have been published. -/
structure Network (ι : Type) where
  plane : ι → CrdtPlaneRuntime
  issued : List PlaneEntry
  frames : List CrdtSync

/-- What happens: a plane registers a family, writes, publishes, or applies a frame. -/
inductive Step (ι : Type) where
  | registerFamilyLww (i : ι) (ns : String)
  | write (i : ι) (op : CrdtOp)
  | familySetLww (i : ι) (ns keySuffix : String) (value : Bool) (now : ℤ)
  | toSync (i : ι)
  | deltaSync (i : ι) (theirFrontier : List (ℤ × Stamp))
  | deliver (i : ι) (frame : CrdtSync)

namespace Network

variable {ι : Type}

def init (peerOf : ι → ℤ) : Network ι where
  plane i := { selfPeer := peerOf i }
  issued := []
  frames := []

def issues (w : Network ι) : Step ι → Option (ι × CrdtOp)
  | .write i op => some (i, op)
  | .familySetLww i ns keySuffix value now =>
    match ((w.plane i).familySetLww ns keySuffix value now).1 with
    | .ok (some op) => some (i, op)
    | _ => none
  | _ => none

def publishes (w : Network ι) : Step ι → Option CrdtSync
  | .toSync i => some (w.plane i).toSync
  | .deltaSync i theirFrontier => some ((w.plane i).deltaSync theirFrontier)
  | _ => none

/-- A plane writes under its own peer, and applies what has been published. -/
def Allowed (peerOf : ι → ℤ) (w : Network ι) : Step ι → Prop
  | .write i op => op.stamp.peer = peerOf i
  | .deliver _ frame => frame ∈ w.frames
  | _ => True

/-- Whoever writes has ingested everything that has been issued up to the stamp of the write, and nobody
else has issued anything from that stamp on. -/
def Orderly (peerOf : ι → ℤ) (w : Network ι) (s : Step ι) : Prop :=
  ∀ x ∈ w.issues s, ∀ e ∈ w.issued, (e.stamp ≤ x.2.stamp → (e.node, e.stamp) ∈ (w.plane x.1).applied) ∧
      (x.2.stamp ≤ e.stamp → e.stamp.peer = peerOf x.1)

/-- What is at or below a watermark has been ingested by every peer that occurs in the frontier. -/
def Safe (peerOf : ι → ℤ) (w : Network ι) : Prop :=
  ∀ i watermark, (w.plane i).stabilityWatermark = some watermark → ∀ e ∈ w.issued, e.stamp ≤ watermark →
      ∀ k, ((w.plane i).frontier.get? (peerOf k)).isSome → (e.node, e.stamp) ∈ (w.plane k).applied

def Issued (w : Network ι) (r : ℤ × Stamp) : Prop :=
  r.2.peer = r.1 ∧ ∃ e ∈ w.issued, e.stamp = r.2

/-- What planes and frames hold has been issued, and whoever has issued an operation has ingested
everything up to it. -/
structure Valid (peerOf : ι → ℤ) (w : Network ι) : Prop where
  selfPeer : ∀ i, (w.plane i).selfPeer = peerOf i
  entries : ∀ i, ∀ e ∈ (w.plane i).entries.rows, e ∈ w.issued
  frontier : ∀ i, ∀ r ∈ (w.plane i).frontier.rows, w.Issued r
  frameOps : ∀ frame ∈ w.frames, ∀ op ∈ frame.ops, op.entry ∈ w.issued
  frameFrontier : ∀ frame ∈ w.frames, ∀ r ∈ frame.frontier, w.Issued r
  complete : ∀ e ∈ w.issued, ∀ f ∈ w.issued, e.stamp ≤ f.stamp →
    ∀ k, f.stamp.peer = peerOf k → (e.node, e.stamp) ∈ (w.plane k).applied

theorem valid_init (peerOf : ι → ℤ) : (init peerOf).Valid peerOf :=
  ⟨fun _ => rfl, fun _ _ h => absurd h not_mem_nil, fun _ _ h => absurd h not_mem_nil,
    fun _ h => absurd h not_mem_nil, fun _ h => absurd h not_mem_nil,
    fun _ h => absurd h not_mem_nil⟩

/-- The watermark is at or below the stamp of an operation that each peer of the frontier has issued. -/
theorem Valid.safe {peerOf : ι → ℤ} {w : Network ι} (hv : w.Valid peerOf) : w.Safe peerOf := by
  intro i watermark hwm e he hle k hk
  obtain ⟨r, hr⟩ := isSome_iff_exists.mp hk
  have hrow : r ∈ (w.plane i).frontier.rows := Table.mem_of_get? hr
  obtain ⟨hpeer, f, hf, hstamp⟩ := hv.frontier i r hrow
  -- the watermark is a minimum over what the peers of the frontier have issued
  have hmin : watermark ≤ r.2 := (min?_eq_some_iff.mp hwm).2 r.2 (List.mem_map_of_mem hrow)
  refine hv.complete e he f hf ?_ k ?_
  · rw [hstamp]
    exact hle.trans hmin
  · rw [hstamp, hpeer]
    exact Table.key_of_get? hr

variable [DecidableEq ι]

def act (w : Network ι) : Step ι → ι → CrdtPlaneRuntime
  | .registerFamilyLww i ns => update w.plane i ((w.plane i).registerFamilyLww ns)
  | .write i op => update w.plane i ((w.plane i).apply op).2
  | .familySetLww i ns keySuffix value now =>
    update w.plane i ((w.plane i).familySetLww ns keySuffix value now).2
  | .toSync _ | .deltaSync _ _ => w.plane
  | .deliver i frame => update w.plane i ((w.plane i).applyFrame frame).2

def step (w : Network ι) (s : Step ι) : Network ι where
  plane := w.act s
  issued := ((w.issues s).map fun x => x.2.entry).toList ++ w.issued
  frames := (w.publishes s).toList ++ w.frames

def run (peerOf : ι → ℤ) (steps : List (Step ι)) : Network ι :=
  steps.foldl step (init peerOf)

theorem run_concat (peerOf : ι → ℤ) (steps : List (Step ι)) (s : Step ι) :
    run peerOf (steps ++ [s]) = (run peerOf steps).step s := by
  simp [run, foldl_append]

section Step

variable {peerOf : ι → ℤ} {w : Network ι} {s : Step ι}

theorem mem_issued_step {e : PlaneEntry} :
    e ∈ (w.step s).issued ↔ (∃ x, w.issues s = some x ∧ x.2.entry = e) ∨ e ∈ w.issued := by
  simp [step]

theorem Issued.step {r : ℤ × Stamp} (h : w.Issued r) : (w.step s).Issued r := by
  obtain ⟨hpeer, e, he, hstamp⟩ := h
  exact ⟨hpeer, e, mem_issued_step.mpr (.inr he), hstamp⟩

/-- What a step issues is under the peer of its plane, which then has applied it. -/
theorem Valid.issues_spec (hv : w.Valid peerOf) (hs : w.Allowed peerOf s) {i : ι} {op : CrdtOp}
    (h : w.issues s = some (i, op)) :
    op.stamp.peer = peerOf i ∧ (op.node, op.stamp) ∈ (w.act s i).applied := by
  cases s with
  | write j op' =>
    cases h
    refine ⟨hs, ?_⟩
    simp only [act, update_self]
    exact mem_applied_apply _ _
  | familySetLww j ns keySuffix value now =>
    simp only [issues] at h
    split at h
    · next op' hop =>
      cases h
      obtain ⟨happ, hpeer⟩ := mem_applied_familySetLww hop
      refine ⟨hpeer.trans (hv.selfPeer i), ?_⟩
      simpa only [act, update_self] using happ
    · cases h
  | registerFamilyLww j ns => cases h
  | toSync j => cases h
  | deltaSync j theirFrontier => cases h
  | deliver j frame => cases h

/-- A step brings to a plane only what has been issued. -/
theorem Valid.absorbs_act (hv : w.Valid peerOf) (hs : w.Allowed peerOf s) (k : ι) :
    Absorbs (· ∈ (w.step s).issued) (w.step s).Issued (w.plane k) (w.act s k) := by
  have hof : ∀ {i : ι} {p : CrdtPlaneRuntime}, Absorbs (· ∈ (w.step s).issued) (w.step s).Issued (w.plane i) p →
      Absorbs (· ∈ (w.step s).issued) (w.step s).Issued (w.plane k)
        (update w.plane i p k) := by
    intro i p h
    by_cases hk : k = i
    · subst hk
      simpa using h
    · rw [update_of_ne hk]
      exact .refl _
  have hissued : ∀ i op, w.issues s = some (i, op) →
      op.entry ∈ (w.step s).issued ∧ (w.step s).Issued (op.stamp.peer, op.stamp) := by
    intro i op h
    have hmem : op.entry ∈ (w.step s).issued := mem_issued_step.mpr (.inl ⟨_, h, rfl⟩)
    exact ⟨hmem, rfl, op.entry, hmem, rfl⟩
  cases s with
  | registerFamilyLww i ns => exact hof ⟨rfl, fun _ h => h, fun _ h => .inl h, fun _ h => .inl h⟩
  | write i op => exact hof (absorbs_apply _ fun _ => hissued i op rfl)
  | familySetLww i ns keySuffix value now =>
    refine hof (absorbs_familySetLww _ fun op hop => hissued i op ?_)
    simp [issues, hop]
  | toSync i => exact .refl _
  | deltaSync i theirFrontier => exact .refl _
  | deliver i frame =>
    refine hof (absorbs_applyFrame _ (fun op hop => ?_) fun r hr => ?_)
    · have hmem := hv.frameOps frame hs op hop
      exact ⟨hmem, rfl, op.entry, hmem, rfl⟩
    · exact hv.frameFrontier frame hs r hr

omit [DecidableEq ι] in
/-- A frame holds what its plane holds. -/
theorem mem_publishes {frame : CrdtSync} (h : w.publishes s = some frame) : ∃ i,
    (∀ op ∈ frame.ops, op.entry ∈ (w.plane i).entries.rows) ∧
      ∀ r ∈ frame.frontier, r ∈ (w.plane i).frontier.rows := by
  have hitems : ∀ (p : CrdtPlaneRuntime), ∀ r ∈ p.frontierItems, r ∈ p.frontier.rows :=
    fun p r hr => (mem_insertionSort _).mp hr
  cases s with
  | toSync i =>
    cases h
    refine ⟨i, fun op hop => ?_, hitems _⟩
    obtain ⟨e, he, rfl⟩ := List.mem_map.mp hop
    exact he
  | deltaSync i theirFrontier =>
    cases h
    refine ⟨i, fun op hop => ?_, hitems _⟩
    obtain ⟨e, he, rfl⟩ := List.mem_map.mp hop
    exact (mem_filter.mp he).1
  | registerFamilyLww i ns => cases h
  | write i op => cases h
  | familySetLww i ns keySuffix value now => cases h
  | deliver i frame => cases h

theorem Valid.complete_step (hinj : Injective peerOf) (hv : w.Valid peerOf)
    (hs : w.Allowed peerOf s) (ho : w.Orderly peerOf s) {e f : PlaneEntry}
    (he : e ∈ (w.step s).issued) (hf : f ∈ (w.step s).issued) (hle : e.stamp ≤ f.stamp) {k : ι}
    (hk : f.stamp.peer = peerOf k) : (e.node, e.stamp) ∈ (w.act s k).applied := by
  have happ := (hv.absorbs_act hs k).applied
  obtain ⟨⟨i, op⟩, hiss, rfl⟩ | he := mem_issued_step.mp he
  · -- only the peer that issues `op` has issued anything from its stamp on
    have hki : k = i := by
      obtain ⟨⟨j, op'⟩, hiss', rfl⟩ | hf := mem_issued_step.mp hf
      · cases hiss.symm.trans hiss'
        exact hinj (hk.symm.trans (hv.issues_spec hs hiss).1)
      · exact hinj (hk.symm.trans ((ho (i, op) hiss f hf).2 hle))
    rw [hki]
    exact (hv.issues_spec hs hiss).2
  · obtain ⟨⟨i, op⟩, hiss, rfl⟩ | hf := mem_issued_step.mp hf
    · have hki : k = i := hinj (hk.symm.trans (hv.issues_spec hs hiss).1)
      rw [hki] at happ ⊢
      exact happ _ ((ho (i, op) hiss e he).1 hle)
    · exact happ _ (hv.complete e he f hf hle k hk)

theorem Valid.step (hinj : Injective peerOf) (hv : w.Valid peerOf)
    (hs : w.Allowed peerOf s) (ho : w.Orderly peerOf s) : (w.step s).Valid peerOf where
  selfPeer i := (hv.absorbs_act hs i).selfPeer.trans (hv.selfPeer i)
  entries i e he := by
    obtain hold | hnew := (hv.absorbs_act hs i).entries e he
    · exact mem_issued_step.mpr (.inr (hv.entries i e hold))
    · exact hnew
  frontier i r hr := by
    obtain hold | hnew := (hv.absorbs_act hs i).frontier r hr
    · exact (hv.frontier i r hold).step
    · exact hnew
  frameOps frame hframe op hop := by
    obtain hpub | hold := mem_append.mp hframe
    · obtain ⟨i, hops, _⟩ := mem_publishes (mem_toList.mp hpub)
      exact mem_issued_step.mpr (.inr (hv.entries i _ (hops op hop)))
    · exact mem_issued_step.mpr (.inr (hv.frameOps frame hold op hop))
  frameFrontier frame hframe r hr := by
    obtain hpub | hold := mem_append.mp hframe
    · obtain ⟨i, _, hfrontier⟩ := mem_publishes (mem_toList.mp hpub)
      exact (hv.frontier i r (hfrontier r hr)).step
    · exact (hv.frameFrontier frame hold r hr).step
  complete _ he _ hf hle _ hk := hv.complete_step hinj hs ho he hf hle hk

end Step

/-- In every run over planes with distinct peers in which each write comes after everything that has
been issued, what is at or below a watermark has been ingested by every peer of its frontier. -/
theorem watermark_safe {peerOf : ι → ℤ} (hinj : Injective peerOf) {steps : List (Step ι)}
    (hallowed : Throughout (fun before s => (run peerOf before).Allowed peerOf s) steps)
    (horderly : Throughout (fun before s => (run peerOf before).Orderly peerOf s) steps) :
    (run peerOf steps).Safe peerOf := by
  suffices hvalid : (run peerOf steps).Valid peerOf from hvalid.safe
  induction steps using reverseRecOn with
  | nil => exact valid_init peerOf
  | append_singleton steps s ih =>
    obtain ⟨hbefore, hs⟩ := throughout_concat.mp hallowed
    obtain ⟨hbefore', ho⟩ := throughout_concat.mp horderly
    rw [run_concat]
    exact (ih hbefore hbefore').step hinj hs ho

/-! ## Two runs over two planes -/

/-- Plane 1 writes after it has applied what plane 0 has published. -/
def takingTurns : List (Step ℕ) :=
  [.write 0 ⟨1, none, ⟨1, 0, 0⟩, .inline [1]⟩, .toSync 0,
    .deliver 1 ⟨[(0, ⟨1, 0, 0⟩)], [⟨1, none, ⟨1, 0, 0⟩, .inline [1]⟩]⟩,
    .write 1 ⟨2, none, ⟨2, 0, 1⟩, .inline [1]⟩]

def writingBelow : List (Step ℕ) :=
  [.write 0 ⟨1, none, ⟨10, 0, 0⟩, .inline [1]⟩, .write 1 ⟨2, none, ⟨5, 0, 1⟩, .inline [1]⟩]

instance (w : Network ℕ) : (s : Step ℕ) → Decidable (w.Allowed Int.ofNat s)
  | .write i op => inferInstanceAs (Decidable (op.stamp.peer = Int.ofNat i))
  | .deliver _ frame => inferInstanceAs (Decidable (frame ∈ w.frames))
  | .registerFamilyLww _ _ | .familySetLww _ _ _ _ _ | .toSync _ | .deltaSync _ _ =>
    inferInstanceAs (Decidable True)

instance (w : Network ℕ) (s : Step ℕ) : Decidable (w.Orderly Int.ofNat s) :=
  inferInstanceAs (Decidable (∀ x ∈ w.issues s, ∀ e ∈ w.issued,
    (e.stamp ≤ x.2.stamp → (e.node, e.stamp) ∈ (w.plane x.1).applied) ∧
      (x.2.stamp ≤ e.stamp → e.stamp.peer = Int.ofNat x.1)))

theorem watermark_safe_takingTurns : (run Int.ofNat takingTurns).Safe Int.ofNat :=
  watermark_safe (fun _ _ => Int.ofNat.inj) (by decide) (by decide)

theorem watermark_unsafe : ¬ ∀ (peerOf : ℕ → ℤ) (steps : List (Step ℕ)), Injective peerOf →
    Throughout (fun before s => (run peerOf before).Allowed peerOf s) steps → (run peerOf steps).Safe peerOf := by
  intro h
  have hsafe := h Int.ofNat writingBelow (fun _ _ => Int.ofNat.inj) (by decide)
  have happ := hsafe 0 ⟨10, 0, 0⟩ (by decide) ⟨2, none, ⟨5, 0, 1⟩, [1]⟩ (by decide) (by decide) 0
    (by decide)
  revert happ
  decide

end Network

end LazilyPy.Plane

namespace LazilyPy.Plane

open List Option

/-! ### Operations that are relayed -/

/-- A plane that has been brought operations: those of a frame of its own, or what another such plane has
published, now or before. -/
inductive Relays (ops : Set CrdtOp) : CrdtPlaneRuntime → Prop
  | start (selfPeer : ℤ) : Relays ops { selfPeer := selfPeer }
  | register {p : CrdtPlaneRuntime} (ns : String) (hp : Relays ops p) : Relays ops (p.registerFamilyLww ns)
  | ingest {p : CrdtPlaneRuntime} (frame : CrdtSync) (hframe : ∀ op ∈ frame.ops, op ∈ ops)
      (hp : Relays ops p) : Relays ops (p.applyFrame frame).2
  | toSync {p q : CrdtPlaneRuntime} (hp : Relays ops p) (hq : Relays ops q) : Relays ops (p.applyFrame q.toSync).2
  | deltaSync {p q : CrdtPlaneRuntime} (theirFrontier : List (ℤ × Stamp)) (hp : Relays ops p)
      (hq : Relays ops q) : Relays ops (p.applyFrame (q.deltaSync theirFrontier)).2

def CrdtPlaneRuntime.Publishes (p : CrdtPlaneRuntime) (k : ℤ × Option String) (op : CrdtOp) : Prop :=
  op.entry.entryKey = k ∧ (op ∈ p.toSync.ops ∨ ∃ theirFrontier, op ∈ (p.deltaSync theirFrontier).ops)

variable {ops : Set CrdtOp} {p : CrdtPlaneRuntime} {o op : CrdtOp} {e : PlaneEntry} {k : ℤ × Option String}

/-- A frame brings the entries of its operations. -/
theorem entries_applyFrame {P : PlaneEntry → Prop} {frame : CrdtSync} (hp : ∀ e ∈ p.entries.rows, P e)
    (hframe : ∀ op ∈ frame.ops, P op.entry) : ∀ e ∈ (p.applyFrame frame).2.entries.rows, P e := by
  have habsorbs : Absorbs P (fun _ => True) p (p.applyFrame frame).2 :=
    absorbs_applyFrame p (fun op hop => ⟨hframe op hop, trivial⟩) fun _ _ => trivial
  intro e he
  exact (habsorbs.entries e he).elim (hp e) id

/-- What a plane publishes is rebuilt from its entries. -/
theorem exists_entry_of_published {q : CrdtPlaneRuntime}
    (h : op ∈ q.toSync.ops ∨ ∃ theirFrontier, op ∈ (q.deltaSync theirFrontier).ops) :
    ∃ e ∈ q.entries.rows, e.toOp = op := by
  obtain h | ⟨theirFrontier, h⟩ := h
  · exact List.mem_map.mp h
  · obtain ⟨e, he, heq⟩ := List.mem_map.mp h
    exact ⟨e, mem_of_mem_filter he, heq⟩

/-- An entry is what one of the operations has written, after any number of hops. -/
theorem entries_of_relays (hp : Relays ops p) : ∀ e ∈ p.entries.rows, ∃ o ∈ ops, o.entry = e := by
  induction hp with
  | start selfPeer => exact nofun
  | register ns _ ih => exact ih
  | ingest frame hframe _ ih => exact entries_applyFrame ih fun op hop => ⟨op, hframe op hop, rfl⟩
  | toSync _ _ ih ih' =>
    refine entries_applyFrame ih fun op hop => ?_
    obtain ⟨e, he, rfl⟩ := exists_entry_of_published (.inl hop)
    exact ih' e he
  | deltaSync theirFrontier _ _ ih ih' =>
    refine entries_applyFrame ih fun op hop => ?_
    obtain ⟨e, he, rfl⟩ := exists_entry_of_published (.inr ⟨theirFrontier, hop⟩)
    exact ih' e he

/-- An operation survives the way through an entry just if its payload is inline. -/
theorem toOp_entry_iff (o : CrdtOp) : o.entry.toOp = o ↔ ∃ data, o.state = .inline data := by
  obtain ⟨node, key, stamp, state⟩ := o
  cases state with
  | inline data => exact ⟨fun _ => ⟨data, rfl⟩, fun _ => rfl⟩
  | sharedBlob blob => simp [CrdtOp.entry, PlaneEntry.toOp]

/-- Where an operation has won, it is published as it was just if its payload is inline. -/
theorem relays_iff (hdistinct : ops.InjOn CrdtOp.stamp) (hp : Relays ops p) (ho : o ∈ ops)
    (hwinner : p.entries.get? k = some e) (hstamp : e.stamp = o.stamp) :
    (∀ op, p.Publishes k op → op = o) ↔ ∃ data, o.state = .inline data := by
  obtain ⟨o', ho', rfl⟩ := entries_of_relays hp e (Table.mem_of_get? hwinner)
  -- stamps are distinct, so it is this operation that has won
  obtain rfl : o' = o := hdistinct ho' ho hstamp
  rw [← toOp_entry_iff]
  constructor
  · intro hall
    refine hall o'.entry.toOp ⟨Table.key_of_get? hwinner, .inl ?_⟩
    exact List.mem_map_of_mem (Table.mem_of_get? hwinner)
  · rintro hsame op ⟨hkey, hpublished⟩
    obtain ⟨e', he', rfl⟩ := exists_entry_of_published hpublished
    have hget : p.entries.get? k = some e' := hkey ▸ Table.get?_of_mem he'
    rw [← some.inj (hwinner.symm.trans hget)]
    exact hsame

def inlineOp : CrdtOp :=
  ⟨1, none, ⟨5, 0, 1⟩, .inline [7, 8]⟩

/-- The plane that an operation comes to, and the one that it is sent on to. -/
def hop (o : CrdtOp) : CrdtPlaneRuntime :=
  (CrdtPlaneRuntime.applyFrame (CrdtPlaneRuntime.applyFrame ⟨[], [o]⟩ {}).2.toSync { selfPeer := 2 }).2

theorem relays_hop (o : CrdtOp) : Relays {o} (hop o) := by
  refine .toSync (.start 2) (.ingest ⟨[], [o]⟩ (fun op hop => ?_) (.start 0))
  exact mem_singleton.mp hop

theorem relays_inline : (hop inlineOp).Publishes (1, none) inlineOp ∧
    ∀ op, (hop inlineOp).Publishes (1, none) op → op = inlineOp :=
  ⟨⟨by decide, .inl (by decide)⟩, (relays_iff (Set.injOn_singleton _ _) (relays_hop inlineOp) (Set.mem_singleton _)
      (show (hop inlineOp).entries.get? (1, none) = some inlineOp.entry by decide) rfl).mpr
      ⟨[7, 8], rfl⟩⟩

def blobOp : CrdtOp :=
  ⟨1, none, ⟨5, 0, 1⟩, .sharedBlob ⟨0, 2, 1, 0, 9, .shm⟩⟩

theorem relays_blob : ¬ ∀ (ops : Set CrdtOp) (p : CrdtPlaneRuntime) (o : CrdtOp) (k : ℤ × Option String)
    (e : PlaneEntry), ops.InjOn CrdtOp.stamp → Relays ops p → o ∈ ops → p.entries.get? k = some e →
      e.stamp = o.stamp → ∀ op, p.Publishes k op → op = o := by
  intro h
  have hpublishes : (hop blobOp).Publishes (1, none) ⟨1, none, ⟨5, 0, 1⟩, .inline []⟩ :=
    ⟨by decide, .inl (by decide)⟩
  have hsame := h {blobOp} (hop blobOp) blobOp (1, none) blobOp.entry (Set.injOn_singleton _ _)
    (relays_hop blobOp) (Set.mem_singleton _) (by decide) rfl _ hpublishes
  exact absurd hsame (by decide)

end LazilyPy.Plane

import LazilyPy.Reactive.Moves
import LazilyPy.Reactive.Coherence

/-!
# The two directions of an edge

An effect keeps the two directions together: whatever has it among its dependents, it has
recorded. A slot that holds a value is among the dependents of everything it has recorded.
Disposal removes a node from the dependents of everything it has recorded, for good.

The converse directions do not hold. A wave takes the dependents of the nodes it passes and
leaves what they have recorded, and the recompute of a slot forgets what it has recorded and
leaves it among the dependents.
-/

namespace LazilyPy.Reactive

open Option

variable {V : Type}

structure Tied (c : Config V) : Prop where
  backed : Backed c.heap
  unread : Unread c.heap
  retired : ∀ m, m.isReader = true → c.heap.disposed m = true →
    ¬ c.InCall m ∧ c.heap.deps m = [] ∧ (m.isSlot = true → c.heap.cache m = none)
  subscribes : ∀ m, m.isSlot = true → c.heap.cache m ≠ none ∨ c.InCall m → c.Waiting m ∨ c.heap.Subscribes m

/-- The step from `c` visits no slot and disposes no node during a call of it. -/
structure Undisturbed (c : Config V) : Prop where
  waves : ∀ m, c.Pops m → m.isSlot = true → ¬ c.InCall m
  disposals : ∀ m, c.Disposes m → ¬ c.InCall m

theorem Node.isReader_of_isSlot {m : Node} (hm : m.isSlot = true) : m.isReader = true := by
  simp [Node.isReader, hm]

theorem Node.isReader_of_isEffect {m : Node} (hm : m.isEffect = true) : m.isReader = true := by
  simp [Node.isReader, hm]

theorem Node.isEffect_of_isSlot {m : Node} (hm : m.isSlot = true) : m.isEffect = false := by
  cases m <;> simp_all [Node.isSlot, Node.isEffect]

/-! ## What a step preserves of one node -/

/-- Once disposed, the node is in no call, has recorded nothing and holds no value. -/
def Config.Retired (c : Config V) (m : Node) : Prop :=
  c.heap.disposed m = true → ¬ c.InCall m ∧ c.heap.deps m = [] ∧ (m.isSlot = true → c.heap.cache m = none)

/-- While it holds a value or is in a call, the node waits for a visit, or it is among the dependents of
everything it has recorded. -/
def Config.Attached (c : Config V) (m : Node) : Prop :=
  c.heap.cache m ≠ none ∨ c.InCall m → c.Waiting m ∨ c.heap.Subscribes m

section Node

variable {c c' : Config V} {m : Node}

/-- A disposed node is in no call and starts none. -/
theorem Config.Retired.not_mobile (hr : c.Retired m) (hd : c.heap.disposed m = true) : ¬ c.Mobile m := by
  rintro (hcall | ⟨_, hlive, _⟩)
  · exact (hr hd).1 hcall
  · simp [hd] at hlive

theorem retired_step (hreader : m.isReader = true) (hr : c.Retired m) (hdisp : c.Disposes m → ¬ c.InCall m)
    (hs : StepMoves c c') : c'.Retired m := by
  obtain ⟨hmoves, -⟩ := hs
  intro hd'
  obtain hd | ⟨hD, hdeps, hcache⟩ := hmoves.retire m hreader hd'
  · have hmobile := hr.not_mobile hd
    obtain ⟨_, hdeps, hcache⟩ := hr hd
    refine ⟨fun hcall => ?_, hmoves.edges.deps_nil hmobile hdeps, fun hslot => ?_⟩
    · obtain hI | ⟨hlive, _⟩ := hmoves.enter m hcall
      · exact hmobile hI
      · simp [hd'] at hlive
    · obtain hnone | heq | hI := hmoves.store m
      · exact hnone
      · rw [heq, hcache hslot]
      · exact absurd hI hmobile
  · refine ⟨fun hcall => ?_, hdeps, hcache⟩
    obtain (hI | ⟨_, _, hnot⟩) | ⟨hlive, _⟩ := hmoves.enter m hcall
    · exact hdisp hD hI
    · exact hnot hD
    · simp [hd'] at hlive

theorem attached_step (hslot : m.isSlot = true) (hu : Unread c.heap) (hr : c.Retired m) (ha : c.Attached m)
    (hwaves : c.Pops m → ¬ c.InCall m) (hs : StepMoves c c') : c'.Attached m := by
  obtain ⟨hmoves, hpopped⟩ := hs
  intro hlive'
  -- a slot starts with an empty record; any other was cached or in a call before
  by_cases hfresh : c'.heap.deps m = []
  · exact .inr fun n hn => by simp [hfresh] at hn
  have hmobile : c.Mobile m → c.InCall m := by
    rintro (hcall | ⟨heff, _⟩)
    · exact hcall
    · simp [Node.isEffect_of_isSlot hslot] at heff
  have hlive : c'.heap.cache m ≠ none ∧ c'.heap.cache m = c.heap.cache m ∨ c.InCall m := by
    obtain hcache | hcall := hlive'
    · obtain hnone | heq | hI := hmoves.store m
      · exact absurd hnone hcache
      · exact .inl ⟨hcache, heq⟩
      · exact .inr (hmobile hI)
    · obtain hI | ⟨_, hdeps⟩ := hmoves.enter m hcall
      · exact .inr (hmobile hI)
      · exact absurd hdeps hfresh
  have hold : c.heap.cache m ≠ none ∨ c.InCall m := by
    obtain ⟨hcache, heq⟩ | hcall := hlive
    · exact .inl (heq ▸ hcache)
    · exact .inr hcall
  obtain hwait | hsub := ha hold
  · by_cases hpop : c.Pops m
    · exfalso
      have hdisposed : c.heap.disposed m = false := by
        by_contra hd
        obtain ⟨hcall, _, hcache⟩ := hr (by simpa using hd)
        exact hold.elim (absurd (hcache hslot)) hcall
      obtain ⟨hcache, _⟩ | hcall := hlive
      · exact hcache (hpopped m hpop hslot hdisposed)
      · exact hwaves hpop hcall
    · exact .inl (hmoves.waits m ⟨hwait, hpop⟩)
  · exact hmoves.edges.subscribes hu hsub

end Node

theorem tied_step {c c' : Config V} (ht : Tied c) (hu : Undisturbed c) (hs : StepMoves c c') : Tied c' where
  backed := hs.moves.edges.backed ht.backed
  unread := hs.moves.edges.unread ht.unread
  retired m hreader := retired_step hreader (ht.retired m hreader) (hu.disposals m) hs
  subscribes m hslot := attached_step hslot ht.unread (ht.retired m (Node.isReader_of_isSlot hslot))
    (ht.subscribes m hslot) (fun hpop => hu.waves m hpop hslot) hs

/-- Issuing a call between two others leaves the invariant. -/
theorem Tied.issue {c : Config V} (ht : Tied c) (hidle : c.Idle) (code : Code V) : Tied (c.issue code) := by
  obtain ⟨hst, hctl⟩ := hidle
  have hcall : ∀ m, ¬ (c.issue code).InCall m := by
    rintro m (hrun | ⟨f, hf, _⟩)
    · cases hrun
    · simp [Config.issue, hst] at hf
  refine ⟨ht.backed, ht.unread, fun m hm hd => ⟨hcall m, (ht.retired m hm hd).2⟩, ?_⟩
  intro m hslot hlive
  rcases ht.subscribes m hslot (.inl (hlive.resolve_right (hcall m))) with hwait | hsub
  · rcases hwait with hwork | ⟨ns, hns, _⟩
    · exact .inl (.inl hwork)
    · rcases hctl with hctl | ⟨cl, hctl⟩ <;> simp [hctl] at hns
  · exact .inr hsub

theorem tied_init (σ : ℕ → V) : Tied (Config.init σ) where
  backed := by
    intro e n _ hmem
    cases hmem
  unread := by
    intro m n hmem
    cases hmem
  retired := by
    intro m _ hd
    cases hd
  subscribes := by
    intro m _ _
    exact .inr fun n hn => by cases hn

/-- The nodes that the step from `c` visits or disposes. -/
def Config.reached (c : Config V) : List Node :=
  match c.ctl with
  | .loop => c.heap.work.head?.toList
  | .dirty ns => ns.head?.toList
  | .exec _ (.dispose (.source i) _) => [.source i]
  | .exec _ (.dispose (.slot i) _) => [.slot i]
  | .exec _ (.dispose (.computed i) _) | .exec _ (.lazy i _) =>
    (c.heap.puller i).toList.map (.puller i)
  | .exec _ (.disposeEffect e _) => [.effect e]
  | _ => []

instance (f : Frame V) (m : Node) : Decidable (f.Runs m) :=
  match f with
  | .effect e | .cleanup e => inferInstanceAs (Decidable (m = e ∧ e.isEffect = true))
  | .inCode r _ _ | .andThen r _ | .attempt r _ => inferInstanceAs (Decidable (r = some m))
  | .inSlot n _ _ => inferInstanceAs (Decidable (m = n))
  | .pull p _ => inferInstanceAs (Decidable (m = p))
  | .rearmed _ | .rearmSlot _ | .drain | .disposing _ | .batch | .flushed _ | .rerun _ _ =>
    inferInstanceAs (Decidable False)

instance (t : Ctl V) (m : Node) : Decidable (t.Runs m) :=
  match t with
  | .exec r _ => inferInstanceAs (Decidable (r = some m))
  | .eval n _ => inferInstanceAs (Decidable (m = n))
  | .get _ | .value _ | .call _ | .loop | .dirty _ | .returned _ | .raised =>
    inferInstanceAs (Decidable False)

/-- A check that is enough for `Undisturbed`. -/
def undisturbedCheck (c : Config V) : Bool :=
  c.reached.all fun m => !decide (c.ctl.Runs m) && c.stack.all fun f => !decide (f.Runs m)

theorem undisturbed_of_check {c : Config V} (h : undisturbedCheck c = true) : Undisturbed c := by
  have hcall : ∀ m ∈ c.reached, ¬ c.InCall m := by
    intro m hm
    have hm := List.all_eq_true.mp h m hm
    simp only [Bool.and_eq_true, Bool.not_eq_true', decide_eq_false_iff_not, List.all_eq_true] at hm
    rintro (hrun | ⟨f, hf, hrun⟩)
    · exact hm.1 hrun
    · exact hm.2 f hf hrun
  constructor
  · rintro m (⟨hctl, hm⟩ | ⟨ns, hctl, hm⟩) _
    · exact hcall m (by simp [Config.reached, hctl, hm])
    · exact hcall m (by simp [Config.reached, hctl, hm])
  · intro m hm
    refine hcall m ?_
    unfold Config.Disposes at hm
    unfold Config.reached
    split at hm
    · next heq => simp [heq, hm]
    · next heq => simp [heq, hm]
    · next heq =>
      obtain ⟨k, rfl, hk⟩ := hm
      simp [heq, hk]
    · next heq =>
      obtain ⟨k, rfl, hk⟩ := hm
      simp [heq, hk]
    · next heq => simp [heq, hm]
    · exact hm.elim

variable [DecidableEq V] {G : Graph V} {S : Instr → Prop}

theorem tied_run {c c' : Config V} (ht : Tied c) (hrun : Run G S Undisturbed c c') : Tied c' := by
  induction hrun with
  | refl => exact ht
  | tail _ hstep ih =>
    cases hstep.2 with
    | tick ord hord hs => exact tied_step ih hstep.1 (moves_step hord hs)
    | issue code hidle _ => exact ih.issue hidle code

/-- A disposed node is added to no dependents. -/
theorem not_mem_parents_run {c c' : Config V} (ht : Tied c) (hrun : Run G S Undisturbed c c')
    {m n : Node} (hreader : m.isReader = true) (hd : c.heap.disposed m = true)
    (hmem : m ∉ c.heap.parents n) :
    m ∉ c'.heap.parents n := by
  have hkept : Tied c' ∧ c'.heap.disposed m = true ∧ m ∉ c'.heap.parents n := by
    induction hrun with
    | refl => exact ⟨ht, hd, hmem⟩
    | tail _ hstep ih =>
      obtain ⟨ht, hd, hmem⟩ := ih
      cases hstep.2 with
      | tick ord hord hs =>
        have hmoves := moves_step hord hs
        exact ⟨tied_step ht hstep.1 hmoves, hmoves.moves.remains m hd,
          hmoves.moves.edges.not_mem_parents (Config.Retired.not_mobile (ht.retired m hreader) hd) hmem⟩
      | issue code hidle _ => exact ⟨ht.issue hidle code, hd, hmem⟩
  exact hkept.2.2

/-- After `Slot.dispose`, the slot is among the dependents of nothing that it had recorded. -/
theorem dispose_detaches {ord : Enum} {c c' : Config V} {r : Option Node} {i : ℕ} {k : Code V}
    (hctl : c.ctl = .exec r (.dispose (.slot i) k)) (hlive : c.heap.disposed (.slot i) = false)
    (hs : step G ord c = some c') {n : Node} (hn : n ∈ c.heap.deps (.slot i)) :
    c'.heap.disposed (.slot i) = true ∧ .slot i ∉ c'.heap.parents n := by
  obtain ⟨h, t, st⟩ := c
  cases hctl
  cases hs
  have hlive' : h.disposed (.slot i) = false := hlive
  simp only [stepExec, dispose, hlive', Bool.false_eq_true, if_false]
  refine ⟨by simp [Heap.clearParents, Heap.retire], ?_⟩
  by_cases hself : n = .slot i
  · simp [Heap.clearParents, hself]
  · have hrecorded : n ∈ h.deps (.slot i) := hn
    simp [Heap.clearParents, hself, Heap.retire, Heap.detachFromDependencies, Heap.dropCache, hrecorded]

/-- The edges in every run in which no wave and no disposal reaches a node during a call of
it. -/
theorem edges_tied {σ : ℕ → V} {c : Config V} (hrun : Run G S Undisturbed (Config.init σ) c) :
    (∀ e n, e.isEffect = true → e ∈ c.heap.parents n → n ∈ c.heap.deps e) ∧
    (∀ m n, m.isSlot = true → c.heap.cache m ≠ none → ¬ c.Waiting m → n ∈ c.heap.deps m → m ∈ c.heap.parents n) ∧
    (∀ e n, e.isEffect = true → c.heap.disposed e = true → e ∉ c.heap.parents n) ∧
    (∀ m, m.isSlot = true → c.heap.disposed m = true → c.heap.cache m = none ∧ c.heap.deps m = []) ∧
    ∀ ord r i k c₁ c₂ n, ord.Lawful → Undisturbed c → c.ctl = .exec r (.dispose (.slot i) k) →
      step G ord c = some c₁ → Run G S Undisturbed c₁ c₂ → n ∈ c.heap.deps (.slot i) →
      .slot i ∉ c₂.heap.parents n := by
  have ht := tied_run (tied_init σ) hrun
  refine ⟨ht.backed, ?_, ?_, ?_, ?_⟩
  · intro m n hslot hcache hwait hn
    exact (ht.subscribes m hslot (.inl hcache)).resolve_left hwait n hn
  · intro e n he hd hmem
    have hnil := (ht.retired e (Node.isReader_of_isEffect he) hd).2.1
    simpa [hnil] using ht.backed e n he hmem
  · intro m hslot hd
    obtain ⟨_, hdeps, hcache⟩ := ht.retired m (Node.isReader_of_isSlot hslot) hd
    exact ⟨hcache hslot, hdeps⟩
  · intro ord r i k c₁ c₂ n hord hu hctl hs hrun₂ hn
    have hlive : c.heap.disposed (.slot i) = false := by
      by_contra hd
      obtain ⟨_, hdeps, _⟩ := ht.retired (.slot i) rfl (by simpa using hd)
      simp [hdeps] at hn
    obtain ⟨hd, hmem⟩ := dispose_detaches hctl hlive hs hn
    exact not_mem_parents_run (tied_step ht hu (moves_step hord hs)) hrun₂ rfl hd hmem

/-- `slot 0` reads source 0, and source 1 while source 0 holds 0. Effect 0 reads `slot 0`. -/
def branching : Graph ℕ where
  slotBody := fun _ => .read (.source 0) fun v =>
    if v = 0 then .read (.source 1) .ret else .ret v
  computedBody := fun _ => .ret 0
  changed := fun _ => none
  effectBody := fun _ _ => .read (.slot 0) fun _ => .done
  unset := 0

/-- A session on `branching`. -/
def branchingSession (check : Config ℕ → Bool) (codes : List (Code ℕ)) : Option (Config ℕ) :=
  session branching .stored check 60 codes (Config.init fun _ => 0)

/-- The effect runs twice, is disposed, and source 0 changes once more. -/
def retiring : List (Code ℕ) :=
  [.call 0 .done, .write 0 1 .done, .disposeEffect 0 .done, .write 0 2 .done, .read (.slot 0) fun _ => .done]

/-- The disposed effect is among no dependents, and the slot is among those of source 0. -/
theorem edges_tied_branching : ∃ c, branchingSession undisturbedCheck retiring = some c ∧
      .effect 0 ∉ c.heap.parents (.slot 0) ∧ .slot 0 ∈ c.heap.parents (.source 0) := by
  have hrun : Run branching (fun _ => True) Undisturbed (Config.init fun _ => 0)
      ((branchingSession undisturbedCheck retiring).get rfl) := by
    refine run_of_session Enum.stored_lawful (fun _ => undisturbed_of_check) ?_
      (some_get _).symm
    simp [retiring, Code.Within]
  obtain ⟨_, hslots, heffects, _⟩ := edges_tied hrun
  refine ⟨_, (some_get rfl).symm, heffects (.effect 0) (.slot 0) rfl (by decide), ?_⟩
  refine hslots (.slot 0) (.source 0) rfl (by decide) ?_ (by decide)
  rintro (hm | ⟨ns, hns, _⟩)
  · exact absurd hm (by decide)
  · cases hns

/-- After the write, `slot 0` has recorded both sources and source 0 has no dependents. After
the recompute, `slot 0` is among the dependents of source 1 and has not recorded it, and its
disposal leaves it there. -/
theorem edges_asymmetric : (¬ ∀ (G : Graph ℕ) (σ : ℕ → ℕ) (c : Config ℕ) (d n : Node),
      Run G (fun _ => True) (fun c => c.ctl ≠ .raised) (Config.init σ) c → Quiescent c →
      (n ∈ c.heap.deps d → d ∈ c.heap.parents n)) ∧
    (¬ ∀ (G : Graph ℕ) (σ : ℕ → ℕ) (c : Config ℕ) (d n : Node),
      Run G (fun _ => True) (fun c => c.ctl ≠ .raised) (Config.init σ) c → Quiescent c →
      (d ∈ c.heap.parents n → n ∈ c.heap.deps d)) ∧
    ¬ ∀ (G : Graph ℕ) (σ : ℕ → ℕ) (c : Config ℕ) (d n : Node),
      Run G (fun _ => True) (fun c => c.ctl ≠ .raised) (Config.init σ) c → Quiescent c →
      c.heap.disposed d = true → c.heap.disposed n = false → d ∉ c.heap.parents n := by
  have hrun : ∀ codes c, (∀ code ∈ codes, code.Within fun _ => True) → branchingSession quietCheck codes = some c →
      Run branching (fun _ => True) (fun c => c.ctl ≠ .raised) (Config.init fun _ => 0) c :=
    fun codes c hcodes h =>
      run_of_session Enum.stored_lawful (fun _ => quiet_of_check) hcodes h
  refine ⟨fun h => ?_, fun h => ?_, fun h => ?_⟩
  · have hread := h branching _ _ (.slot 0) (.source 0)
      (hrun [.read (.slot 0) fun _ => .done, .write 0 1 .done] _ (by simp [Code.Within])
        (some_get rfl).symm)
      ⟨Config.isIdle_idle rfl, quiet_of_check rfl, rfl, rfl, rfl⟩ (by decide)
    exact absurd hread (by decide)
  · have hread := h branching _ _ (.slot 0) (.source 1)
      (hrun [.read (.slot 0) fun _ => .done, .write 0 1 .done, .read (.slot 0) fun _ => .done] _
        (by simp [Code.Within]) (some_get rfl).symm)
      ⟨Config.isIdle_idle rfl, quiet_of_check rfl, rfl, rfl, rfl⟩ (by decide)
    exact absurd hread (by decide)
  · have hread := h branching _ _ (.slot 0) (.source 1)
      (hrun [.read (.slot 0) fun _ => .done, .write 0 1 .done, .read (.slot 0) fun _ => .done,
        .dispose (.slot 0) .done] _ (by simp [Code.Within]) (some_get rfl).symm)
      ⟨Config.isIdle_idle rfl, quiet_of_check rfl, rfl, rfl, rfl⟩ (by decide) (by decide)
    exact hread (by decide)

end LazilyPy.Reactive

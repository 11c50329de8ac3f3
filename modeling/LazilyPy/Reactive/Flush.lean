import LazilyPy.Reactive.Coherence
import LazilyPy.Reactive.Progress
import LazilyPy.Reactive.Sources

/-!
# A batch and its writes

When a batch of writes is over, every eager computed and every record of an effect holds the
from-scratch values over the sources that the writes left, and every effect that a change has
reached has run again. Phase 2 of the flush runs what phase 1 has queued, and nothing that its own
reruns queue, so this is so as long as they queue nothing.
-/

namespace LazilyPy.Reactive

open Option

variable {V : Type}

/-- Since `h₀` the node has started a run, has been disposed, or has lost its value. -/
def Touched (h₀ h : Heap V) (m : Node) : Prop :=
  h₀.runs m < h.runs m ∨ h.disposed m = true ∨ m.isSlot = true ∧ h.cache m = none

/-- The latest run of `m` has read the slot object `n`, be it through a lazy computed. -/
def ReadBy (h : Heap V) (n m : Node) : Prop :=
  n.isSlot = true ∧ ∃ w, (n, w) ∈ h.reads m ∨ ∃ i, n = .memo i ∧ h.eager i = false ∧ (.computed i, w) ∈ h.reads m

/-- What has been touched since `h₀` spreads along the reads of `h₀`: a node that has read a touched
one is touched or queued, and the others still have their edges and their records. -/
structure Tracked (h₀ : Heap V) (c : Config V) : Prop where
  busy : ∀ m, c.Busy m → h₀.runs m < c.heap.runs m
  runs : ∀ m, h₀.runs m ≤ c.heap.runs m
  reads : ∀ m, ¬ Touched h₀ c.heap m → c.heap.reads m = h₀.reads m
  edge : ∀ m n, ReadBy h₀ n m → Touched h₀ c.heap m ∨ c.Queued m ∨ m ∈ c.heap.parents n
  spread : ∀ m n, ReadBy h₀ n m → Touched h₀ c.heap n → Touched h₀ c.heap m ∨ c.Queued m

section Step

variable {h₀ : Heap V} {c c' : Config V} {m n : Node}

theorem ReadBy.reads_ne_nil {h : Heap V} (hr : ReadBy h n m) : h.reads m ≠ [] := by
  obtain ⟨_, w, hmem | ⟨i, _, _, hmem⟩⟩ := hr
  · exact List.ne_nil_of_mem hmem
  · exact List.ne_nil_of_mem hmem

/-- A touched node stays touched. -/
theorem Touched.step (ht : Tracked h₀ c) (hp : Progress c.Busy c.Due c.heap c')
    (hlive : ∀ m, c.heap.disposed m = true → c'.heap.disposed m = true)
    (hm : Touched h₀ c.heap m) : Touched h₀ c'.heap m := by
  have hruns : c.heap.runs m ≤ c'.heap.runs m := by
    cases hp.fate m with
    | starts _ hr => omega
    | invalidated _ hr => omega
    | retires hr => omega
    | stays hr => omega
  obtain hm | hm | ⟨hslot, hcache⟩ := hm
  · exact .inl (by omega)
  · exact .inr (.inl (hlive m hm))
  · cases hp.fate m with
    | starts _ hr =>
      have hle := ht.runs m
      exact .inl (by omega)
    | invalidated _ _ hnone => exact .inr (.inr ⟨hslot, hnone⟩)
    | retires _ hd => exact .inr (.inl hd)
    | stays hr hsame =>
      -- a value is only stored at the end of a run
      obtain hbusy | ⟨_, hsame⟩ := hsame
      · have hlt := ht.busy m hbusy
        exact .inl (by omega)
      · exact .inr (.inr ⟨hslot, hsame.trans hcache⟩)

theorem Tracked.step (ht : Tracked h₀ c) (hp : Progress c.Busy c.Due c.heap c')
    (hlive : ∀ m, c.heap.disposed m = true → c'.heap.disposed m = true)
    (hslots : ∀ m, m.isSlot = true → c'.heap.disposed m = false) : Tracked h₀ c' := by
  have hkept : ∀ m, Touched h₀ c.heap m → Touched h₀ c'.heap m := fun m => Touched.step ht hp hlive
  have hworks : ∀ m, m ∈ c'.heap.work → c'.Queued m := fun m hm => .inl hm
  -- a queued node that has read something stays so until it is touched
  have hqueued : ∀ m, c.Queued m → h₀.reads m ≠ [] → Touched h₀ c'.heap m ∨ c'.Queued m := by
    intro m hq hread
    by_cases hm : Touched h₀ c.heap m
    · exact .inl (hkept m hm)
    have hdue : c.Due m := ⟨hq, by rwa [ht.reads m hm]⟩
    have hle := ht.runs m
    cases hp.fate m with
    | starts _ hr => exact .inl (.inl (by omega))
    | invalidated hslot _ hnone => exact .inl (.inr (.inr ⟨hslot, hnone⟩))
    | retires _ hd => exact .inl (.inr (.inl hd))
    | stays _ _ hstill => exact .inr (hstill hdue)
  refine ⟨fun m hm => ?_, fun m => ?_, fun m hm => ?_, fun m n hr => ?_, fun m n hr hn => ?_⟩
  · have hle := ht.runs m
    obtain hbusy | hr := hp.busy m hm
    · have hlt := ht.busy m hbusy
      cases hp.fate m with
      | starts _ hr => omega
      | invalidated _ hr => omega
      | retires hr => omega
      | stays hr => omega
    · omega
  · have hle := ht.runs m
    cases hp.fate m with
    | starts _ hr => omega
    | invalidated _ hr => omega
    | retires hr => omega
    | stays hr => omega
  · have hm₀ : ¬ Touched h₀ c.heap m := fun h => hm (hkept m h)
    have hle := ht.runs m
    cases hp.fate m with
    | starts _ hr => exact absurd (.inl (by omega)) hm
    | invalidated hslot _ hnone => exact absurd (.inr (.inr ⟨hslot, hnone⟩)) hm
    | retires _ hd => exact absurd (.inr (.inl hd)) hm
    | stays _ hsame =>
      obtain hbusy | ⟨hsame, _⟩ := hsame
      · exact absurd (.inl (ht.busy m hbusy)) hm₀
      · exact hsame.trans (ht.reads m hm₀)
  · obtain hm | hq | hedge := ht.edge m n hr
    · exact .inl (hkept m hm)
    · exact (hqueued m hq hr.reads_ne_nil).imp id .inl
    · have hle := ht.runs m
      cases hp.fate m with
      | starts _ hr => exact .inl (.inl (by omega))
      | invalidated hslot _ hnone => exact .inl (.inr (.inr ⟨hslot, hnone⟩))
      | retires _ hd => exact .inl (.inr (.inl hd))
      | stays _ _ _ hedges =>
        obtain hedge | hwork := hedges n hedge
        · exact .inr (.inr hedge)
        · exact .inr (.inl (hworks m hwork))
  · by_cases hn₀ : Touched h₀ c.heap n
    · obtain hm | hq := ht.spread m n hr hn₀
      · exact .inl (hkept m hm)
      · exact hqueued m hq hr.reads_ne_nil
    -- `n` has just lost its value, and its dependents are to be visited
    cases hp.fate n with
    | starts hcache => exact absurd (.inr (.inr ⟨hr.1, hcache hr.1⟩)) hn₀
    | invalidated _ _ _ hwork =>
      obtain hm | hq | hedge := ht.edge m n hr
      · exact .inl (hkept m hm)
      · exact hqueued m hq hr.reads_ne_nil
      · have hle := ht.runs m
        obtain hwork | hstart := hwork m hedge
        · exact .inr (hworks m hwork)
        · exact .inl (.inl (by omega))
    | retires _ hd => exact absurd hd (by simp [hslots n hr.1])
    | stays hruns hsame =>
      exfalso
      obtain hbusy | ⟨_, hsame⟩ := hsame
      · exact hn₀ (.inl (ht.busy n hbusy))
      · obtain hlt | hd | ⟨hslot, hnone⟩ := hn
        · exact hn₀ (.inl (hruns ▸ hlt))
        · simp [hslots n hr.1] at hd
        · exact hn₀ (.inr (.inr ⟨hslot, hsame ▸ hnone⟩))

/-- At rest nothing has been touched since now. -/
theorem Rest.tracked {G : Graph V} (hr : Rest G c.heap) {code : Code V} (hidle : c.Idle) :
    Tracked c.heap (c.issue code) := by
  have hseen : ∀ m n, ReadBy c.heap n m → m ∈ c.heap.parents n ∧ c.heap.cache n ≠ none := by
    rintro m n ⟨hslot, w, hmem | ⟨i, rfl, hlazy, hmem⟩⟩
    · have hs := hr.seen hmem
      cases n with
      | slot i => exact ⟨hs.1, ne_none_iff_exists'.mpr ⟨w, hs.2⟩⟩
      | memo i => exact ⟨hs.1, ne_none_iff_exists'.mpr ⟨w, hs.2⟩⟩
      | _ => cases hslot
    · obtain ⟨_, ⟨heager, _⟩ | ⟨_, hmemo, u, hu, _⟩⟩ := hr.seen hmem
      · simp [hlazy] at heager
      · exact ⟨hmemo, ne_none_iff_exists'.mpr ⟨u, hu⟩⟩
  refine ⟨?_, fun _ => Nat.le_refl _, fun _ _ => rfl, fun m n hn => ?_, fun m n hn ht => ?_⟩
  · rintro m (hrun | ⟨f, hf, _⟩)
    · cases hrun
    · simp [Config.issue, hidle.1] at hf
  · exact .inr (.inr (hseen m n hn).1)
  · exfalso
    obtain hlt | hd | ⟨_, hnone⟩ := ht
    · exact Nat.lt_irrefl _ hlt
    · have hpuller : n.isPuller = false := by
        have hslot := hn.1
        cases n <;> simp_all [Node.isSlot, Node.isPuller]
      have hlive : c.heap.disposed n = false := hr.inv.alive hpuller
      have hdead : c.heap.disposed n = true := hd
      simp [hlive] at hdead
    · exact (hseen m n hn).2 hnone

end Step

/-! ## The batch -/

def Undisposed (x : Instr) : Prop :=
  x ≠ .dispose

/-- A step from `c` propagates no exception, reads nothing that is under evaluation, reaches no
effect that is running, and queues nothing for a phase 2 that has begun. -/
structure Tame (c : Config V) : Prop where
  calm : Calm c
  contained : Contained c

/-- The nodes that the change from the sources of `h₀` to `σ` reaches: those that have read
something of another value, and what has read a slot that is reached. -/
inductive Reached (G : Graph V) (h₀ : Heap V) (σ : ℕ → V) : Node → Prop
  | changed {m : Node} {d : Ref} {w v v' : V} : (d.node, w) ∈ h₀.reads m →
    G.Value h₀.value d v → G.Value σ d v' → v ≠ v' → Reached G h₀ σ m
  | through {m n : Node} : ReadBy h₀ n m → Reached G h₀ σ n → Reached G h₀ σ m

section Batch

variable {G : Graph V}

theorem within_writing (writes : List (ℕ × V)) : (writing writes).Within Undisposed := by
  induction writes with
  | nil => trivial
  | cons w writes ih => exact ⟨nofun, ih⟩

/-- What a change of the sources reaches has been touched once everything is at rest. -/
theorem Reached.touched {h₀ : Heap V} {c : Config V} (hx : G.ExactGuards) (hr₀ : Rest G h₀)
    (hr : Rest G c.heap) (ht : Tracked h₀ c) (hqueue : ∀ m, ¬ c.Queued m) {m : Node}
    (hm : Reached G h₀ c.heap.value m) : Touched h₀ c.heap m := by
  induction hm with
  | @changed m d w v v' hmem hv hv' hne =>
    by_contra hm
    have hmem' : (d.node, w) ∈ c.heap.reads m := by rwa [ht.reads m hm]
    exact hne ((hr₀.read_eq hx hmem hv).symm.trans (hr.read_eq hx hmem' hv'))
  | through hread _ ih => exact (ht.spread _ _ hread ih).resolve_right (hqueue _)

variable [DecidableEq V]

theorem tracked_run (hG : ∀ i r, (G.effectBody i r).Within Undisposed) {h₀ : Heap V}
    {c c' : Config V} (hi : Inv G Undisposed c) (ht : Tracked h₀ c) (hrun : Ticks G Tame c c')
    (hquiet : c'.ctl ≠ .raised) : Inv G Undisposed c' ∧ Tracked h₀ c' := by
  induction hrun with
  | refl => exact ⟨hi, ht⟩
  | tail _ hstep ih =>
    obtain ⟨htame, ord, hord, hs⟩ := hstep
    obtain ⟨hi, ht⟩ := ih htame.calm.quiet
    have hi' := inv_step (fun h => h rfl) (fun _ => hG) hord hi htame.calm hs hquiet
    have hp := progress_step (fun h => h rfl) hord hi htame.calm hs
    refine ⟨hi', ht.step hp (moves_step hord hs).moves.remains fun m hm => hi'.heap.alive ?_⟩
    cases m <;> simp_all [Node.isSlot, Node.isPuller]

/-- A batch of writes whose steps are all tame: the sources hold what the writes left, nothing is
queued, every eager computed holds its from-scratch value, whatever an effect has read last is a
from-scratch value, and every effect that the change reaches has run again. -/
theorem batch_equals (hx : G.ExactGuards) (hG : ∀ i r, (G.effectBody i r).Within Undisposed)
    {σ : ℕ → V} {c₀ c₁ : Config V} {writes : List (ℕ × V)}
    (hreach : Run G Undisposed Tame (Config.init σ) c₀) (hidle₀ : c₀.Idle)
    (hquiet₀ : c₀.ctl ≠ .raised)
    (hrun : Ticks G Tame (c₀.issue (.batch (writing writes) .done)) c₁) (hidle : c₁.Idle)
    (hquiet : c₁.ctl ≠ .raised) :
    c₁.heap.value = written c₀.heap.value writes ∧
      (c₁.heap.work = [] ∧ c₁.heap.pendingCells = [] ∧ c₁.heap.pendingEffects = []) ∧
      (∀ i v, c₁.heap.eager i = true → G.Value c₁.heap.value (.computed i) v → c₁.heap.handle i = some v) ∧
      (∀ e d w v, (d.node, w) ∈ c₁.heap.reads (.effect e) → G.Value c₁.heap.value d v → w = v) ∧
      ∀ e, Reached G c₀.heap c₁.heap.value (.effect e) → c₀.heap.runs (.effect e) < c₁.heap.runs (.effect e) := by
  have hcode : (Code.batch (writing writes) .done).Within Undisposed :=
    ⟨nofun, within_writing writes, trivial⟩
  have hi₀ : Inv G Undisposed c₀ := inv_run (fun h => h rfl) (fun _ => hG)
    (fun _ h => h.calm) (inv_init σ) hreach hquiet₀
  have hscoped₀ := scoped_run (fun _ h => h.contained) (scoped_init σ) hreach
  obtain ⟨hdepth₀, hcells₀, heffects₀⟩ := hscoped₀.outside (by rw [hidle₀.1]; rfl)
  have hr₀ := hi₀.rest hidle₀ hcells₀ heffects₀
  obtain ⟨hi, ht⟩ := tracked_run hG (inv_issue hi₀ hidle₀ hcode) (hr₀.tracked hidle₀) hrun hquiet
  have hscoped := scoped_run (S := Undisposed) (fun _ h => h.contained)
    (hscoped₀.issue hidle₀ _) hrun.run
  obtain ⟨_, hcells, heffects⟩ := hscoped.outside (by rw [hidle.1]; rfl)
  have hr := hi.rest hidle hcells heffects
  have hwork : c₁.heap.work = [] := by
    by_contra hne
    have hdrain := hi.orderly.active (hi.orderly.busy hne)
    simp [hidle.1] at hdrain
  have hqueue : ∀ m, ¬ c₁.Queued m := by
    rintro m (hm | ⟨_, hm | hm | ⟨f, hf, _⟩⟩)
    · simp [hwork] at hm
    · simp [heffects] at hm
    · rcases hidle.2 with hctl | ⟨cl, hctl⟩
      · exact hquiet hctl
      · simp [hctl, Ctl.Owes] at hm
    · simp [hidle.1] at hf
  refine ⟨?_, ⟨hwork, hcells, heffects⟩, fun i v => hr.handle_eq hx, fun e d w v => hr.read_eq hx, fun e he => ?_⟩
  · exact value_of_batch (fun c hc => ⟨hc.contained, hc.calm.quiet⟩) hidle₀ hdepth₀
      (fun i => hi₀.heap.alive rfl) hidle hrun
  · obtain hlt | hd | ⟨hslot, _⟩ := he.touched hx hr₀ hr ht hqueue
    · exact hlt
    · simp [hi.heap.alive (n := .effect e) rfl] at hd
    · cases hslot

end Batch

/-! ## Two batches -/

/-- `slot 0` and `computed 0` read source 0, and `computed (i + 1)` reads `computed i`. Effect 0 reads
`slot 0`. -/
def chained : Graph ℕ where
  slotBody := fun _ => .read (.source 0) .ret
  computedBody := fun
    | 0 => .read (.source 0) .ret
    | i + 1 => .read (.computed i) .ret
  changed := fun _ => none
  effectBody := fun _ _ => .read (.slot 0) fun _ => .done
  unset := 0

theorem chained_exactGuards : chained.ExactGuards := by
  rintro i f ⟨⟩

theorem chained_acyclic : chained.Acyclic := by
  refine ⟨fun d => d.rec (fun _ => 0) (fun _ => 1) fun i => i + 1, ?_, ?_⟩
  · rintro i d (_ | ⟨v, ⟨⟩⟩)
    exact Nat.lt_succ_self 0
  · rintro (_ | i) d (_ | ⟨v, ⟨⟩⟩)
    · exact Nat.lt_succ_self 0
    · exact Nat.lt_succ_self _

theorem chained_within : ∀ i r, (chained.effectBody i r).Within Undisposed :=
  fun _ _ => ⟨nofun, fun _ => trivial⟩

theorem chained_value (σ : ℕ → ℕ) (i : ℕ) : chained.Value σ (.computed i) (σ 0) := by
  induction i with
  | zero => exact .read (.ret _) (.ret _)
  | succ i ih => exact .read ih (.ret _)

/-- Enough for `Tame`. -/
def tameCheck (c : Config ℕ) : Bool :=
  calmCheck c && containedCheck c

theorem tame_of_check {c : Config ℕ} (h : tameCheck c = true) : Tame c := by
  have hboth := Bool.and_eq_true_iff.mp h
  exact ⟨calm_of_check hboth.1, contained_of_check hboth.2⟩

/-- The client's calls on `chained`. -/
def chainedSession (check : Config ℕ → Bool) (codes : List (Code ℕ)) : Option (Config ℕ) :=
  session chained .stored check 40 codes (Config.init fun _ => 0)

def chainedBatch (check : Config ℕ → Bool) (codes : List (Code ℕ)) : Option (Config ℕ) :=
  (chainedSession check codes).bind fun c =>
    playUntil chained .stored check Config.isIdle 60 (c.issue (.batch (writing [(0, 5)]) .done))

theorem run_chainedSession {ok : Config ℕ → Prop} {check : Config ℕ → Bool}
    (hok : ∀ c, check c = true → ok c) {codes : List (Code ℕ)}
    (hcodes : ∀ code ∈ codes, code.Within Undisposed) {c : Config ℕ}
    (h : chainedSession check codes = some c) :
    Run chained Undisposed ok (Config.init fun _ => 0) c :=
  run_of_session Enum.stored_lawful hok hcodes h

/-- An effect over a slot, and an eager computed that nothing reads. -/
theorem batch_equals_chained : ∃ c₀ c₁, chainedSession tameCheck [.eager 0 .done, .call 0 .done] = some c₀ ∧
      chainedBatch tameCheck [.eager 0 .done, .call 0 .done] = some c₁ ∧
      c₁.heap.value = written c₀.heap.value [(0, 5)] ∧ c₁.heap.handle 0 = some 5 ∧
      c₀.heap.runs (.effect 0) < c₁.heap.runs (.effect 0) := by
  have hcodes : ∀ code ∈ [(.eager 0 .done : Code ℕ), .call 0 .done], code.Within Undisposed := by
    simp [Code.Within, Undisposed]
  have hsession : chainedSession tameCheck [.eager 0 .done, .call 0 .done] =
      some ((chainedSession tameCheck [.eager 0 .done, .call 0 .done]).get rfl) :=
    (some_get _).symm
  have hplay : playUntil chained .stored tameCheck Config.isIdle 60
      (((chainedSession tameCheck [.eager 0 .done, .call 0 .done]).get rfl).issue
        (.batch (writing [(0, 5)]) .done)) =
      some ((chainedBatch tameCheck [.eager 0 .done, .call 0 .done]).get rfl) := rfl
  obtain ⟨hvalue, _, hhandle, _, hruns⟩ := batch_equals chained_exactGuards chained_within
    (run_chainedSession (fun _ => tame_of_check) hcodes hsession) (Config.isIdle_idle rfl)
    (quiet_of_check rfl) (ticks_of_playUntil Enum.stored_lawful (fun _ => tame_of_check) hplay)
    (Config.isIdle_idle rfl) (quiet_of_check rfl)
  refine ⟨_, _, hsession, (some_get rfl).symm, hvalue, ?_, ?_⟩
  · exact hhandle 0 5 rfl (chained_value _ 0)
  · refine hruns 0 (.through (n := .slot 0) ⟨rfl, 0, .inl (by decide)⟩ ?_)
    exact .changed (d := .source 0) (w := 0) (by decide) (.ret 0) (.ret 5)
      (by decide)

/-- Over an eager computed that another one reads, the flush queues the second puller in its phase 2
and leaves it there. -/
theorem batch_drops : ¬ ∀ (G : Graph ℕ) (σ : ℕ → ℕ) (c₀ c₁ : Config ℕ) (writes : List (ℕ × ℕ)),
    G.Acyclic → G.ExactGuards → (∀ i r, (G.effectBody i r).Within Undisposed) →
    Run G Undisposed (fun c => c.ctl ≠ .raised) (Config.init σ) c₀ → c₀.Idle →
    c₀.ctl ≠ .raised →
    Ticks G (fun c => c.ctl ≠ .raised) (c₀.issue (.batch (writing writes) .done)) c₁ → c₁.Idle →
    c₁.ctl ≠ .raised →
    c₁.heap.pendingEffects = [] ∧ ∀ i v, c₁.heap.eager i = true → G.Value c₁.heap.value (.computed i) v →
        c₁.heap.handle i = some v := by
  intro h
  have hcodes : ∀ code ∈ [(.eager 0 .done : Code ℕ), .eager 1 .done], code.Within Undisposed := by
    simp [Code.Within, Undisposed]
  have hsession : chainedSession quietCheck [.eager 0 .done, .eager 1 .done] =
      some ((chainedSession quietCheck [.eager 0 .done, .eager 1 .done]).get rfl) :=
    (some_get _).symm
  have hplay : playUntil chained .stored quietCheck Config.isIdle 60
      (((chainedSession quietCheck [.eager 0 .done, .eager 1 .done]).get rfl).issue
        (.batch (writing [(0, 5)]) .done)) =
      some ((chainedBatch quietCheck [.eager 0 .done, .eager 1 .done]).get rfl) := rfl
  have hleft := h chained _ _ _ [(0, 5)] chained_acyclic chained_exactGuards chained_within
    (run_chainedSession (fun _ => quiet_of_check) hcodes hsession) (Config.isIdle_idle rfl)
    (quiet_of_check rfl) (ticks_of_playUntil Enum.stored_lawful (fun _ => quiet_of_check) hplay)
    (Config.isIdle_idle rfl) (quiet_of_check rfl)
  have hstale := hleft.2 1 5 rfl (chained_value _ 1)
  revert hstale
  decide

end LazilyPy.Reactive

import LazilyPy.Reactive.Booked
import LazilyPy.Reactive.Flush
import LazilyPy.Reactive.Spared

/-!
# The guard of an eager computed

An effect that reads sources and eager computeds reruns after a write exactly if one of them has another value. This
is so as long as the wave of the write passes no backing memo that the effect depends on from when it was read lazily,
and pulls no computed that the effect reads while something below it is still to be visited.
-/

namespace LazilyPy.Reactive

open List Option Function

variable {V : Type}

/-- The node has another value over the sources `σ'`. -/
def Graph.Changed (G : Graph V) (σ σ' : ℕ → V) (d : Ref) : Prop :=
  ∃ v v', G.Value σ d v ∧ G.Value σ' d v' ∧ v ≠ v'

/-- Between two calls of the client, the effect has read only sources and eager computeds. -/
def ReadsSettled (h : Heap V) (m : Node) : Prop :=
  ∀ n w, (n, w) ∈ h.reads m → (∃ i, n = .source i) ∨ ∃ i, n = .computed i ∧ h.eager i = true

/-- Between two calls of the client nothing waits to be propagated. -/
theorem quiescent_of_idle {S : Instr → Prop} {c : Config V} (hi : Inv G S c) (hscoped : Scoped c) (hidle : c.Idle)
    (hquiet : c.ctl ≠ .raised) : Quiescent c := by
  obtain ⟨_, hcells, heffects⟩ := hscoped.outside (by rw [hidle.1]; rfl)
  refine ⟨hidle, hquiet, hcells, heffects, ?_⟩
  by_contra hne
  have hdrain := hi.orderly.active (hi.orderly.busy hne)
  simp [hidle.1] at hdrain

theorem Quiescent.not_queued {c : Config V} (hq : Quiescent c) (m : Node) : ¬ c.Queued m := by
  rintro (hm | ⟨-, hm | hm | ⟨f, hf, -⟩⟩)
  · simp [hq.work] at hm
  · simp [hq.effects] at hm
  · obtain hctl | ⟨cl, hctl⟩ := hq.idle.2
    · exact hq.quiet hctl
    · simp [hctl, Ctl.Owes] at hm
  · simp [hq.idle.1] at hf

/-- A step of the wave that a write starts: no other write changes a source, nothing calls the effect, no slot that has
it among its dependents is visited, and no computed that has is pulled before the wave has passed what its memo depends
on. -/
structure Guarded (start : Config V) (e : ℕ) (c : Config V) : Prop where
  tame : Tame c
  lone : c.Changes → c = start
  uncalled : ∀ r k, c.ctl ≠ .exec r (.call e k)
  direct : ∀ n rest, c.ctl = .loop → c.heap.work = n :: rest → n.isSlot = true → .effect e ∉ c.heap.parents n
  timely : ∀ v p i st, c.ctl = .value v → c.stack = .pull p i :: st → .effect e ∈ c.heap.parents (.computed i) →
    ¬ Doomed c.Queued c.Pulling c.heap (.memo i)

/-- The wave of a write that has left the sources `σ`. -/
structure Wave (G : Graph V) (σ : ℕ → V) (c : Config V) : Prop where
  inv : Inv G Undisposed c
  value : c.heap.value = σ
  cells : c.heap.pendingCells = []

section Wave

variable {G : Graph V} {σ : ℕ → V} {start c c' : Config V} {e : ℕ}

/-- Once the write has been made, nothing changes a source. -/
theorem Wave.quiet (hw : Wave G σ c) (hstart : start.Changes → start.heap.value ≠ σ) (hg : Guarded start e c) :
    ¬ c.Changes := by
  intro hc
  obtain rfl := hg.lone hc
  exact hstart hc hw.value

variable [DecidableEq V]

/-- A step that changes no source leaves no write pending. -/
theorem cells_step {ord : Enum} (hquiet : c.ctl ≠ .raised) (hchanges : c.Changes → c.heap.depth = 0)
    (hcells : c.heap.pendingCells = []) (hs : step G ord c = some c') : c'.heap.pendingCells = [] := by
  cases boundary_step hs with
  | quiet hsame => exact hsame.cells.trans hcells
  | defer r i v k hctl hlive hne hdepth =>
    have hzero := hchanges ⟨r, i, v, k, hctl, hlive, hne⟩
    omega
  | enqueue _ _ _ _ _ _ _ _ _ h => exact h.trans hcells
  | «open» _ _ _ _ _ h => exact h.trans hcells
  | close _ _ _ _ h => exact h.trans hcells
  | flush _ _ _ _ _ h => exact h
  | next _ _ _ _ _ _ _ h => exact h.trans hcells
  | leave _ _ _ _ _ h => exact h.trans hcells
  | unwind _ _ hraised => exact absurd hraised hquiet

theorem wave_step (hG : ∀ i r, (G.effectBody i r).Within Undisposed) {ord : Enum} (hord : ord.Lawful)
    (hw : Wave G σ c) (hcalm : Calm c) (hquiet : ¬ c.Changes) (hs : step G ord c = some c')
    (hquiet' : c'.ctl ≠ .raised) : Wave G σ c' where
  inv := inv_step (fun h => h rfl) (fun _ => hG) hord hw.inv hcalm hs hquiet'
  value := by
    obtain hflows | ⟨_, _, _, hflows, _⟩ := flows_step hquiet hs
    · exact hflows.value.trans hw.value
    · exact hflows.value.trans hw.value
  cells := cells_step hcalm.quiet (fun h => absurd h hquiet) hw.cells hs

theorem wave_run (hG : ∀ i r, (G.effectBody i r).Within Undisposed)
    (hstart : start.Changes → start.heap.value ≠ σ) (hw : Wave G σ c) (hrun : Ticks G (Guarded start e) c c')
    (hquiet : c'.ctl ≠ .raised) : Wave G σ c' := by
  induction hrun with
  | refl => exact hw
  | tail _ hstep ih =>
    obtain ⟨hg, ord, hord, hs⟩ := hstep
    have hw' := ih hg.tame.calm.quiet
    exact wave_step hG hord hw' hg.tame.calm (hw'.quiet hstart hg) hs hquiet

/-- As long as nothing that the effect has read changes, no step of the wave announces a change to it. -/
theorem Wave.unannounced (hw : Wave G σ c) (hguards : ∀ i, G.changed i = none) {h₀ : Heap V} (hr₀ : Rest G h₀)
    (hsp : Spared (.effect e) h₀ c) (hg : Guarded start e c) (hquiet : ¬ c.Changes)
    (hreads : ReadsSettled h₀ (.effect e))
    (hedges : ∀ n, n.isSlot = false → .effect e ∈ h₀.parents n → ∃ w, (n, w) ∈ h₀.reads (.effect e))
    (hvalues : ∀ d w, (d.node, w) ∈ h₀.reads (.effect e) → (∃ u, G.Value h₀.value d u) ∧ ∃ u, G.Value σ d u)
    (hsame : ∀ d w, (d.node, w) ∈ h₀.reads (.effect e) → ¬ G.Changed h₀.value σ d) {n : Node}
    (hn : c.Announces G n) : .effect e ∉ c.heap.parents n := by
  have hx : G.ExactGuards := fun i f hf => by simp [hguards i] at hf
  intro hedge
  cases hn with
  | source hctl hlive hne => exact hquiet ⟨_, _, _, _, hctl, hlive, hne⟩
  | slot hctl hwork hslot => exact hg.direct _ _ hctl hwork hslot hedge
  | cell _ _ hmem => simp [hw.cells] at hmem
  | @computed v p i st hctl hst hprop =>
    obtain ⟨w, hread⟩ := hedges _ rfl (hsp.heap.edges _ hedge)
    obtain ⟨⟨u, hu⟩, u', hu'⟩ := hvalues (.computed i) w hread
    have heager : h₀.eager i = true := by
      obtain ⟨j, hj⟩ | ⟨j, hj, he⟩ := hreads _ w hread
      · cases hj
      · cases hj
        exact he
    -- the computed still holds what it held, and is pulled to its new value
    have hhandle : c.heap.handle i = some u := (hsp.heap.handles i hedge).trans (hr₀.handle_eq hx heager hu)
    have hne : v ≠ u := by
      have hprop' := hprop u hhandle
      rw [Graph.propagates, hguards i] at hprop'
      exact of_decide_eq_true hprop'
    have hcache : c.heap.cache (.memo i) = some v := by
      have hfits := hw.inv.fits
      rw [hctl, hst] at hfits
      exact hfits.1
    have hnew : v = u' := hw.inv.heap.cache_eq hx (hg.timely v p i st hctl hst hedge) hcache (hw.value.symm ▸ hu')
    exact hsame (.computed i) w hread ⟨u, u', hu, hu', hnew ▸ Ne.symm hne⟩

theorem spared_run (hguards : ∀ i, G.changed i = none) (hG : ∀ i r, (G.effectBody i r).Within Undisposed)
    (hstart : start.Changes → start.heap.value ≠ σ) (hw : Wave G σ c) {h₀ : Heap V} (hr₀ : Rest G h₀)
    (hwork : h₀.work = []) (heffects : h₀.pendingEffects = []) (hsp : Spared (.effect e) h₀ c)
    (hreads : ReadsSettled h₀ (.effect e))
    (hedges : ∀ n, n.isSlot = false → .effect e ∈ h₀.parents n → ∃ w, (n, w) ∈ h₀.reads (.effect e))
    (hvalues : ∀ d w, (d.node, w) ∈ h₀.reads (.effect e) → (∃ u, G.Value h₀.value d u) ∧ ∃ u, G.Value σ d u)
    (hsame : ∀ d w, (d.node, w) ∈ h₀.reads (.effect e) → ¬ G.Changed h₀.value σ d)
    (hrun : Ticks G (Guarded start e) c c') (hquiet : c'.ctl ≠ .raised) : Spared (.effect e) h₀ c' := by
  induction hrun with
  | refl => exact hsp
  | @tail c₁ c₂ hrun hstep ih =>
    obtain ⟨hg, ord, hord, hs⟩ := hstep
    have hw₁ := wave_run hG hstart hw hrun hg.tame.calm.quiet
    have hsp₁ := ih hg.tame.calm.quiet
    refine spared_step (fun h => h rfl) hord hw₁.inv (by simp [hwork]) (by simp [heffects]) hsp₁ hg.uncalled
      (fun n hn => ?_) hs
    exact hw₁.unannounced hguards hr₀ hsp₁ hg (hw₁.quiet hstart hg) hreads hedges hvalues hsame hn

end Wave

section Write

variable [DecidableEq V] {G : Graph V}

/-- What the statement of the write leaves: the source holds the new value, and no change is pending. -/
theorem wave_of_write (hG : ∀ i r, (G.effectBody i r).Within Undisposed) {c c' : Config V} {i : ℕ} {v : V}
    {ord : Enum} (hord : ord.Lawful) (hi : Inv G Undisposed (c.issue (.write i v .done)))
    (hcalm : Calm (c.issue (.write i v .done))) (hdepth : c.heap.depth = 0) (hcells : c.heap.pendingCells = [])
    (hs : step G ord (c.issue (.write i v .done)) = some c') (hquiet : c'.ctl ≠ .raised) :
    Wave G (update c.heap.value i v) c' := by
  refine ⟨inv_step (fun h => h rfl) (fun _ => hG) hord hi hcalm hs hquiet, ?_,
    cells_step hcalm.quiet (fun _ => hdepth) hcells hs⟩
  have hlive : c.heap.disposed (.source i) = false := hi.heap.alive rfl
  cases hs
  simp only [Config.issue, stepExec, setSource, hlive, hdepth, Bool.false_eq_true, if_false, Nat.lt_irrefl]
  split
  · next heq => rw [heq, Heap.setValue]
  · exact (inert_touch ord _ _ _).steady.flows.value

/-- The write announces its change to no effect that has read nothing that changes. -/
theorem spared_of_write {c c' : Config V} {i e : ℕ} {v : V} {ord : Enum} (hord : ord.Lawful)
    (hi : Inv G Undisposed (c.issue (.write i v .done))) (hq : Quiescent c)
    (hedges : ∀ n, n.isSlot = false → .effect e ∈ c.heap.parents n → ∃ w, (n, w) ∈ c.heap.reads (.effect e))
    (hsame : ∀ d w, (d.node, w) ∈ c.heap.reads (.effect e) → ¬ G.Changed c.heap.value (update c.heap.value i v) d)
    (hs : step G ord (c.issue (.write i v .done)) = some c') : Spared (.effect e) c.heap c' := by
  have hstart : Spared (.effect e) c.heap (c.issue (.write i v .done)) := by
    refine .quiet (.refl _) ?_ nofun nofun
    rw [hq.idle.1]
    exact fun f hf => by cases hf
  refine spared_step (fun h => h rfl) hord hi (by simp [hq.work]) (by simp [hq.effects]) hstart nofun
    (fun n hn hedge => ?_) hs
  cases hn with
  | source hctl _ hne =>
    cases hctl
    obtain ⟨w, hread⟩ := hedges _ rfl hedge
    refine hsame (.source i) w hread ⟨c.heap.value i, v, .ret _, ?_, Ne.symm hne⟩
    exact Graph.Value.source.mpr (update_self i v c.heap.value).symm
  | computed hctl => cases hctl
  | slot hctl => cases hctl
  | cell hctl => cases hctl

/-- After a write, an effect that has read only sources and eager computeds has rerun exactly if one of them has
another value, and what it has read last are the values over the new sources. -/
theorem reruns_iff (hguards : ∀ i, G.changed i = none) (hG : ∀ i r, (G.effectBody i r).Within Undisposed)
    {σ : ℕ → V} {c₀ c₁ : Config V} {i e : ℕ} {v : V} (hreach : Run G Undisposed Tame (Config.init σ) c₀)
    (hidle₀ : c₀.Idle) (hquiet₀ : c₀.ctl ≠ .raised)
    (hrun : Ticks G (Guarded (c₀.issue (.write i v .done)) e) (c₀.issue (.write i v .done)) c₁) (hidle : c₁.Idle)
    (hquiet : c₁.ctl ≠ .raised) (hreads : ReadsSettled c₀.heap (.effect e))
    (hvalues : ∀ d w, (d.node, w) ∈ c₀.heap.reads (.effect e) →
      (∃ u, G.Value c₀.heap.value d u) ∧ ∃ u, G.Value c₁.heap.value d u) :
    c₁.heap.value = update c₀.heap.value i v ∧ (c₀.heap.runs (.effect e) < c₁.heap.runs (.effect e) ↔
        ∃ d w, (d.node, w) ∈ c₀.heap.reads (.effect e) ∧ G.Changed c₀.heap.value c₁.heap.value d) ∧
      ∀ d w u, (d.node, w) ∈ c₁.heap.reads (.effect e) → G.Value c₁.heap.value d u → w = u := by
  have hx : G.ExactGuards := fun i f hf => by simp [hguards i] at hf
  have hi₀ : Inv G Undisposed c₀ := inv_run (fun h => h rfl) (fun _ => hG) (fun _ h => h.calm) (inv_init σ) hreach
    hquiet₀
  have hscoped₀ := scoped_run (fun _ h => h.contained) (scoped_init σ) hreach
  have hq₀ := quiescent_of_idle hi₀ hscoped₀ hidle₀ hquiet₀
  have hdepth₀ := (hscoped₀.outside (by rw [hidle₀.1]; rfl)).1
  have hr₀ := hi₀.rest hidle₀ hq₀.cells hq₀.effects
  have hcode : (Code.write i v .done).Within Undisposed := ⟨nofun, trivial⟩
  have hissue := inv_issue hi₀ hidle₀ hcode
  have hedges : ∀ n, n.isSlot = false → .effect e ∈ c₀.heap.parents n →
      ∃ w, (n, w) ∈ c₀.heap.reads (.effect e) := fun n hn hedge =>
    recorded_of_edge (fun h => h rfl) (fun _ => hG) (fun _ h => h.calm) hreach hidle₀ hquiet₀ hedge hn
  have htame : Ticks G Tame (c₀.issue (.write i v .done)) c₁ :=
    Relation.ReflTransGen.mono (fun _ _ h => ⟨h.1.tame, h.2⟩) _ _ hrun
  obtain heq | ⟨c', ⟨hg, ord, hord, hs⟩, hrest⟩ := hrun.cases_head
  · exfalso
    rw [← heq] at hidle
    obtain hctl | ⟨_, hctl⟩ := hidle.2
    · cases hctl
    · cases hctl
  have hquiet' : c'.ctl ≠ .raised := by
    obtain rfl | ⟨_, ⟨hg', -⟩, -⟩ := hrest.cases_head
    · exact hquiet
    · exact hg'.tame.calm.quiet
  have hwave := wave_of_write hG hord hissue hg.tame.calm hdepth₀ hq₀.cells hs hquiet'
  have hstart : (c₀.issue (.write i v .done)).Changes →
      (c₀.issue (.write i v .done)).heap.value ≠ update c₀.heap.value i v := by
    rintro ⟨r, j, u, k, hctl, -, hne⟩ heq
    cases hctl
    exact hne ((congrFun heq i).trans (update_self i v c₀.heap.value)).symm
  have hwave₁ := wave_run hG hstart hwave hrest hquiet
  have hscoped := scoped_run (S := Undisposed) (fun _ h => h.contained) (hscoped₀.issue hidle₀ _) htame.run
  have hq := quiescent_of_idle hwave₁.inv hscoped hidle hquiet
  have hr := hwave₁.inv.rest hidle hq.cells hq.effects
  refine ⟨hwave₁.value, ⟨fun hlt => ?_, ?_⟩, fun d w u => hr.read_eq hx⟩
  · by_contra hsame
    simp only [not_exists, not_and] at hsame
    rw [hwave₁.value] at hsame hvalues
    have hspared := spared_of_write hord hissue hq₀ hedges hsame hs
    have hspared₁ := spared_run hguards hG hstart hwave hr₀ hq₀.work hq₀.effects hspared hreads hedges hvalues
      hsame hrest hquiet
    rw [hspared₁.heap.runs] at hlt
    exact Nat.lt_irrefl _ hlt
  · rintro ⟨d, w, hread, u, u', hu, hu', hne⟩
    have htracked := (tracked_run hG hissue (hr₀.tracked hidle₀) htame hquiet).2
    have hreached : Reached G c₀.heap c₁.heap.value (.effect e) := .changed hread hu hu' hne
    obtain hlt | hd | ⟨hslot, _⟩ := hreached.touched hx hr₀ hr htracked hq.not_queued
    · exact hlt
    · simp [hwave₁.inv.heap.alive (n := .effect e) rfl] at hd
    · cases hslot

end Write

/-! ## Two writes to a chain -/

/-- `computed 0` is source 0 up to 1, and `computed (i + 1)` reads `computed i`. Effect 0 reads `computed 1` and
source 1. -/
def capped : Graph ℕ where
  slotBody := fun _ => .ret 0
  computedBody := fun
    | 0 => .read (.source 0) fun v => .ret (min v 1)
    | i + 1 => .read (.computed i) .ret
  changed := fun _ => none
  effectBody := fun _ _ => .read (.computed 1) fun _ => .read (.source 1) fun _ => .done
  unset := 0

theorem capped_value (σ : ℕ → ℕ) (i : ℕ) : capped.Value σ (.computed i) (min (σ 0) 1) := by
  induction i with
  | zero => exact .read (.ret _) (.ret _)
  | succ i ih => exact .read ih (.ret _)

/-- Enough for `Guarded` after the statement of the write. -/
def guardedCheck (e : ℕ) (c : Config ℕ) : Bool :=
  tameCheck c &&
  match c.ctl with
  | .exec _ (.write i v _) => v = c.heap.value i
  | .exec _ (.call j _) => j ≠ e
  | .loop =>
    match c.heap.work with
    | n :: _ => !n.isSlot || .effect e ∉ c.heap.parents n
    | [] => true
  | .value _ =>
    match c.stack with
    | .pull _ i :: st =>
      .effect e ∉ c.heap.parents (.computed i) ||
        c.heap.work = [] && c.heap.pendingCells = [] && c.heap.pendingEffects = [] &&
        (st.all fun f => match f with
          | .rerun _ _ | .cleanup _ | .pull _ _ => false
          | _ => true) &&
        (c.heap.parents (.computed i)).all fun m => m.isEffect && !m.isPuller
    | _ => true
  | _ => true

/-- While a wave has nothing to visit, it still reaches the effects that a computed about to be pulled has. -/
theorem effect_of_doomed {c : Config ℕ} {v : ℕ} {p : Node} {i : ℕ} {st : List (Frame ℕ)} (hctl : c.ctl = .value v)
    (hst : c.stack = .pull p i :: st) (hwork : c.heap.work = []) (hcells : c.heap.pendingCells = [])
    (heffects : c.heap.pendingEffects = []) (hframes : ∀ f ∈ st, (∀ m, ¬ f.Owes m) ∧ ∀ q j, f ≠ .pull q j)
    (hreaders : ∀ m ∈ c.heap.parents (.computed i), m.isEffect = true ∧ m.isPuller = false) {m : Node}
    (hm : Doomed c.Queued c.Pulling c.heap m) : m.isEffect = true ∧ m.isPuller = false := by
  induction hm with
  | queued hq =>
    exfalso
    obtain hq | ⟨-, hq | hq | ⟨f, hf, hq⟩⟩ := hq
    · simp [hwork] at hq
    · simp [heffects] at hq
    · simp [hctl, Ctl.Owes] at hq
    · rw [hst] at hf
      obtain rfl | hf := mem_cons.mp hf
      · exact hq
      · exact (hframes f hf).1 _ hq
  | pending hmem => simp [hcells] at hmem
  | @slot m n hslot _ _ ih => cases n <;> simp_all [Node.isSlot, Node.isEffect]
  | puller _ _ _ ih => simp [Node.isPuller] at ih
  | pulling hpulling hedge =>
    obtain ⟨k, hcall, _⟩ | ⟨q, hq⟩ := hpulling
    · simp [hctl] at hcall
    · rw [hst] at hq
      obtain heq | hq := mem_cons.mp hq
      · cases heq
        exact hreaders _ hedge
      · exact absurd rfl ((hframes _ hq).2 _ _)

theorem guarded_of_check {start c : Config ℕ} {e : ℕ} (h : guardedCheck e c = true) : Guarded start e c := by
  obtain ⟨htame, hrest⟩ := Bool.and_eq_true_iff.mp h
  refine ⟨tame_of_check htame, ?_, ?_, ?_, ?_⟩
  · rintro ⟨r, i, v, k, hctl, -, hne⟩
    simp [hctl, hne] at hrest
  · intro r k hctl
    simp [hctl] at hrest
  · intro n rest hctl hwork hslot
    simpa [hctl, hwork, hslot] using hrest
  · intro v p i st hctl hst hedge hdoomed
    simp only [hctl, hst, hedge, not_true_eq_false, decide_false, Bool.false_or, Bool.and_eq_true, decide_eq_true_eq,
      List.all_eq_true] at hrest
    obtain ⟨⟨⟨⟨hwork, hcells⟩, heffects⟩, hframes⟩, hreaders⟩ := hrest
    have hmemo := effect_of_doomed hctl hst hwork hcells heffects (fun f hf => ?_) (fun m hm => ?_) hdoomed
    · cases hmemo.1
    · have hframe := hframes f hf
      cases f <;> simp_all [Frame.Owes]
    · simpa using hreaders m hm

/-- A session on `capped`. -/
def cappedSession (codes : List (Code ℕ)) : Option (Config ℕ) :=
  session capped .stored tameCheck 60 codes (Config.init fun _ => 0)

/-- A write to source 0 after these calls, in a wave that passes the check. -/
def cappedWrite (v : ℕ) (codes : List (Code ℕ)) : Option (Config ℕ) :=
  (cappedSession codes).bind fun c => (step capped .stored (c.issue (.write 0 v .done))).bind
    (playUntil capped .stored (guardedCheck 0) Config.isIdle 60)

theorem ticks_cappedWrite {v : ℕ} {codes : List (Code ℕ)} {c₀ c₁ : Config ℕ} (hsession : cappedSession codes = some c₀)
    (htame : tameCheck (c₀.issue (.write 0 v .done)) = true) (h : cappedWrite v codes = some c₁) :
    Ticks capped (Guarded (c₀.issue (.write 0 v .done)) 0) (c₀.issue (.write 0 v .done)) c₁ := by
  rw [cappedWrite, hsession, bind_some] at h
  obtain ⟨c, hs, hplay⟩ := bind_eq_some_iff.mp h
  have hstart : Guarded (c₀.issue (.write 0 v .done)) 0 (c₀.issue (.write 0 v .done)) :=
    ⟨tame_of_check htame, fun _ => rfl, nofun, nofun, nofun⟩
  exact .head ⟨hstart, .stored, Enum.stored_lawful, hs⟩
    (ticks_of_playUntil Enum.stored_lawful (fun _ => guarded_of_check) hplay)

variable {h : Heap ℕ} {a b : ℕ}

section

variable (hreads : h.reads (.effect 0) = [(.computed 1, a), (.source 1, b)])

include hreads

/-- What the effect reads, and what that holds. -/
theorem capped_reads {d : Ref} {w : ℕ} (hread : (d.node, w) ∈ h.reads (.effect 0)) :
    d = .computed 1 ∧ (∀ σ, capped.Value σ d (min (σ 0) 1)) ∨ d = .source 1 ∧ ∀ σ, capped.Value σ d (σ 1) := by
  simp only [hreads, mem_cons, not_mem_nil, or_false, Prod.mk.injEq] at hread
  cases d with
  | source i =>
    obtain ⟨⟨⟩, -⟩ | ⟨⟨⟩, -⟩ := hread
    exact .inr ⟨rfl, fun _ => .ret _⟩
  | slot i => obtain ⟨⟨⟩, -⟩ | ⟨⟨⟩, -⟩ := hread
  | computed i =>
    obtain ⟨⟨⟩, -⟩ | ⟨⟨⟩, -⟩ := hread
    exact .inl ⟨rfl, fun σ => capped_value σ 1⟩

theorem capped_settled (heager : h.eager 1 = true) : ReadsSettled h (.effect 0) := by
  intro n w hread
  simp only [hreads, mem_cons, not_mem_nil, or_false, Prod.mk.injEq] at hread
  obtain ⟨rfl, -⟩ | ⟨rfl, -⟩ := hread
  · exact .inr ⟨1, rfl, heager⟩
  · exact .inl ⟨1, rfl⟩

theorem capped_valued (σ σ' : ℕ → ℕ) (d : Ref) (w : ℕ) (hread : (d.node, w) ∈ h.reads (.effect 0)) :
    (∃ u, capped.Value σ d u) ∧ ∃ u, capped.Value σ' d u := by
  obtain ⟨-, hvalue⟩ | ⟨-, hvalue⟩ := capped_reads hreads hread
  · exact ⟨⟨_, hvalue σ⟩, ⟨_, hvalue σ'⟩⟩
  · exact ⟨⟨_, hvalue σ⟩, ⟨_, hvalue σ'⟩⟩

end

theorem capped_within : ∀ i r, (capped.effectBody i r).Within Undisposed :=
  fun _ _ => ⟨nofun, fun _ => ⟨nofun, fun _ => trivial⟩⟩

/-- A write that changes both computeds reruns the effect; one that changes neither does not. -/
theorem reruns_iff_capped : (∃ c₀ c₁, cappedSession [.eager 0 .done, .eager 1 .done, .call 0 .done] = some c₀ ∧
      cappedWrite 1 [.eager 0 .done, .eager 1 .done, .call 0 .done] = some c₁ ∧
      c₀.heap.runs (.effect 0) < c₁.heap.runs (.effect 0)) ∧
    ∃ c₀ c₁, cappedSession [.eager 0 .done, .eager 1 .done, .call 0 .done, .write 0 1 .done] = some c₀ ∧
      cappedWrite 5 [.eager 0 .done, .eager 1 .done, .call 0 .done, .write 0 1 .done] = some c₁ ∧
      ¬ c₀.heap.runs (.effect 0) < c₁.heap.runs (.effect 0) := by
  have hwithin : ∀ codes : List (Code ℕ), (∀ code ∈ codes, code ∈
      [(.eager 0 .done : Code ℕ), .eager 1 .done, .call 0 .done, .write 0 1 .done]) →
      ∀ code ∈ codes, code.Within Undisposed := by
    intro codes hcodes code hmem
    have hcode := hcodes code hmem
    simp only [mem_cons, not_mem_nil, or_false] at hcode
    obtain rfl | rfl | rfl | rfl := hcode <;> exact ⟨nofun, trivial⟩
  have hrun : ∀ codes c, (∀ code ∈ codes, code ∈
      [(.eager 0 .done : Code ℕ), .eager 1 .done, .call 0 .done, .write 0 1 .done]) → cappedSession codes = some c →
      Run capped Undisposed Tame (Config.init fun _ => 0) c := fun codes c hcodes h =>
    run_of_session Enum.stored_lawful (fun _ => tame_of_check) (hwithin codes hcodes) h
  constructor
  · have hsession : cappedSession [.eager 0 .done, .eager 1 .done, .call 0 .done] =
        some ((cappedSession [.eager 0 .done, .eager 1 .done, .call 0 .done]).get rfl) := (some_get _).symm
    have hwrite : cappedWrite 1 [.eager 0 .done, .eager 1 .done, .call 0 .done] =
        some ((cappedWrite 1 [.eager 0 .done, .eager 1 .done, .call 0 .done]).get rfl) := (some_get _).symm
    refine ⟨_, _, hsession, hwrite, ?_⟩
    refine (reruns_iff (fun _ => rfl) capped_within (hrun _ _ (by simp) hsession) (Config.isIdle_idle rfl)
      (quiet_of_check rfl) (ticks_cappedWrite hsession rfl hwrite) (Config.isIdle_idle rfl) (quiet_of_check rfl)
      (capped_settled (a := 0) (b := 0) (by decide) rfl) (capped_valued (a := 0) (b := 0) (by decide) _ _)).2.1.mpr ?_
    exact ⟨.computed 1, 0, by decide, 0, 1, capped_value _ 1, capped_value _ 1, by decide⟩
  · have hsession : cappedSession [.eager 0 .done, .eager 1 .done, .call 0 .done, .write 0 1 .done] =
        some ((cappedSession [.eager 0 .done, .eager 1 .done, .call 0 .done, .write 0 1 .done]).get rfl) :=
      (some_get _).symm
    have hwrite : cappedWrite 5 [.eager 0 .done, .eager 1 .done, .call 0 .done, .write 0 1 .done] =
        some ((cappedWrite 5 [.eager 0 .done, .eager 1 .done, .call 0 .done, .write 0 1 .done]).get rfl) :=
      (some_get _).symm
    refine ⟨_, _, hsession, hwrite, fun hlt => ?_⟩
    have hreads : ((cappedSession [.eager 0 .done, .eager 1 .done, .call 0 .done, .write 0 1 .done]).get rfl).heap.reads
        (.effect 0) = [(.computed 1, 1), (.source 1, 0)] := by decide
    obtain ⟨d, w, hread, v, v', hv, hv', hne⟩ := (reruns_iff (fun _ => rfl) capped_within
      (hrun _ _ (by simp) hsession) (Config.isIdle_idle rfl) (quiet_of_check rfl)
      (ticks_cappedWrite hsession rfl hwrite) (Config.isIdle_idle rfl) (quiet_of_check rfl)
      (capped_settled hreads rfl) (capped_valued hreads _ _)).2.1.mp hlt
    obtain ⟨-, hvalue⟩ | ⟨-, hvalue⟩ := capped_reads hreads hread
    · rw [hv.det (hvalue _), hv'.det (hvalue _)] at hne
      exact hne (by decide)
    · rw [hv.det (hvalue _), hv'.det (hvalue _)] at hne
      exact hne (by decide)

/-- `computed 0` depends on source 0 and holds 0 whatever the source holds. Effect 0 reads it. -/
def steady : Graph ℕ where
  slotBody := fun _ => .ret 0
  computedBody := fun _ => .read (.source 0) fun _ => .ret 0
  changed := fun _ => none
  effectBody := fun _ _ => .read (.computed 0) fun _ => .done
  unset := 0

/-- An effect that has read a computed while it was lazy reruns with every visit of the backing memo, though the
computed has become eager and holds the same value. -/
theorem reruns_unchanged : ¬ ∀ (G : Graph ℕ) (σ : ℕ → ℕ) (c₀ c₁ : Config ℕ) (i v e : ℕ), G.Acyclic →
    (∀ i, G.changed i = none) → (∀ i r, (G.effectBody i r).Within fun x => x = .read) →
    Run G Undisposed (fun c => c.ctl ≠ .raised) (Config.init σ) c₀ → c₀.Idle → c₀.ctl ≠ .raised →
    Ticks G (fun c => c.ctl ≠ .raised) (c₀.issue (.write i v .done)) c₁ → c₁.Idle → c₁.ctl ≠ .raised →
    ReadsSettled c₀.heap (.effect e) →
    (c₀.heap.runs (.effect e) < c₁.heap.runs (.effect e) ↔
      ∃ d w, (d.node, w) ∈ c₀.heap.reads (.effect e) ∧ G.Changed c₀.heap.value c₁.heap.value d) := by
  intro h
  have hacyclic : steady.Acyclic := by
    refine ⟨fun d => d.rec (fun _ => 0) (fun _ => 0) fun _ => 1, ?_, ?_⟩
    · rintro i d ⟨⟩
    · rintro i d (_ | ⟨v, ⟨⟩⟩)
      exact Nat.lt_succ_self 0
  have hsession : session steady .stored quietCheck 40 [.call 0 .done, .eager 0 .done] (Config.init fun _ => 0) =
      some ((session steady .stored quietCheck 40 [.call 0 .done, .eager 0 .done] (Config.init fun _ => 0)).get rfl) :=
    (some_get _).symm
  have hplay : playUntil steady .stored quietCheck Config.isIdle 40
      (((session steady .stored quietCheck 40 [.call 0 .done, .eager 0 .done] (Config.init fun _ => 0)).get rfl).issue
        (.write 0 5 .done)) =
      some ((playUntil steady .stored quietCheck Config.isIdle 40
        (((session steady .stored quietCheck 40 [.call 0 .done, .eager 0 .done]
          (Config.init fun _ => 0)).get rfl).issue (.write 0 5 .done))).get rfl) := (some_get _).symm
  have hreads : ((session steady .stored quietCheck 40 [.call 0 .done, .eager 0 .done]
      (Config.init fun _ => 0)).get rfl).heap.reads (.effect 0) = [(.computed 0, 0)] := by decide
  have hsettled : ReadsSettled ((session steady .stored quietCheck 40 [.call 0 .done, .eager 0 .done]
      (Config.init fun _ => 0)).get rfl).heap (.effect 0) := by
    intro n w hmem
    simp only [hreads, mem_singleton, Prod.mk.injEq] at hmem
    obtain ⟨rfl, -⟩ := hmem
    exact .inr ⟨0, rfl, rfl⟩
  obtain ⟨d, w, hread, v, v', hv, hv', hne⟩ := (h steady (fun _ => 0) _ _ 0 5 0 hacyclic (fun _ => rfl)
    (fun _ _ => ⟨rfl, fun _ => trivial⟩)
    (run_of_session Enum.stored_lawful (fun _ => quiet_of_check) (by simp [Code.Within, Undisposed]) hsession)
    (Config.isIdle_idle rfl) (quiet_of_check rfl)
    (ticks_of_playUntil Enum.stored_lawful (fun _ => quiet_of_check) hplay) (Config.isIdle_idle rfl)
    (quiet_of_check rfl) hsettled).mp (by decide)
  have hd : d = .computed 0 := by
    simp only [hreads, mem_singleton, Prod.mk.injEq] at hread
    obtain ⟨hd, -⟩ := hread
    cases d with
    | computed i =>
      cases hd
      rfl
    | _ => cases hd
  subst hd
  have hvalue : ∀ σ, steady.Value σ (.computed 0) 0 := fun σ => .read (.ret _) (.ret _)
  exact hne ((hv.det (hvalue _)).trans (hv'.det (hvalue _)).symm)

end LazilyPy.Reactive

import LazilyPy.Reactive.Boundary
import LazilyPy.Reactive.Preservation

/-!
# Caches hold from-scratch values

What the rest of a wave does not reach holds the value of its definition over the current sources.
While no reader is queued, that is every cached value and every materialized `Computed`, and a read
returns it. Once propagation is quiescent, every effect is among the dependents of everything that its
latest execution read, so a later change of any of it reaches the effect again. The one exception is an
effect whose edges a wave took while its body was running.
-/

namespace LazilyPy.Reactive

open Option

variable {V : Type}

/-- What the rest of a wave reaches: what is queued (`Q`), and what depends on a source with a pending
change, on a slot that is reached, or on a computed whose puller is reached or at work (`P`). -/
inductive Doomed (Q : Node → Prop) (P : ℕ → Prop) (h : Heap V) : Node → Prop
  | queued {m : Node} : Q m → Doomed Q P h m
  | pending {m : Node} {i : ℕ} : .source i ∈ h.pendingCells → m ∈ h.parents (.source i) → Doomed Q P h m
  | slot {m n : Node} : n.isSlot = true → Doomed Q P h n → m ∈ h.parents n → Doomed Q P h m
  | puller {m : Node} {i k : ℕ} : h.puller i = some k → Doomed Q P h (.puller i k) →
    m ∈ h.parents (.computed i) → Doomed Q P h m
  | pulling {m : Node} {i : ℕ} : P i → m ∈ h.parents (.computed i) → Doomed Q P h m

namespace HeapInv

variable {G : Graph V} {Q : Node → Prop} {P : ℕ → Prop} {h : Heap V}

/-- A puller that nothing reaches has pulled the value that the memo still holds. -/
theorem pulled_memo (hi : HeapInv G Q P h) (hx : G.ExactGuards) {i k : ℕ} (he : h.eager i = true)
    (hk : h.puller i = some k) (hP : ¬ P i) (hd : ¬ Doomed Q P h (.puller i k)) :
    ∃ w, h.handle i = some w ∧ h.cache (.memo i) = some w ∧ .puller i k ∈ h.parents (.memo i) := by
  obtain ⟨k', hk', _, _, hcur⟩ := hi.eagerly i he
  obtain rfl : k' = k := some.inj (hk' ▸ hk)
  obtain ⟨_, _, hq | ⟨w, hw, u, hu, huw⟩⟩ := hcur.resolve_left hP
  · exact absurd (.queued hq) hd
  · have hseen := (hi.seen (.puller i k') (.memo i) w (by simp [hw])).resolve_left fun hq => hd (.queued hq)
    obtain rfl := huw hx
    exact ⟨u, hu, hseen.2, hseen.1⟩

variable {m : Node} {v : V}

section

variable (hi : HeapInv G Q P h) (hx : G.ExactGuards)

include hi hx

/-- What a node that nothing reaches has been handed is what the sources and the slots that nothing
reaches give. -/
theorem offered_eq {d : Ref} {u : V} (hm : ¬ Doomed Q P h m) (hs : Seen G P h m u d.node)
    (hsource : ∀ i, d = .source i → h.value i = v)
    (hcached : ∀ n, ¬ Doomed Q P h n → G.callable n = G.body h.value d → h.cache n = some u → u = v) : u = v := by
  cases d with
  | source i =>
    obtain ⟨hparents, hvalue | hpending⟩ := hs
    · exact hvalue.symm.trans (hsource i rfl)
    · exact absurd (.pending hpending hparents) hm
  | slot i => exact hcached (.slot i) (fun hd => hm (.slot rfl hd hs.1)) rfl hs.2
  | computed i =>
    obtain ⟨hparents, ⟨he, a, ha, hau⟩ | ⟨_, hmemo, a, ha, hau⟩⟩ := hs
    · obtain ⟨k, hk, _⟩ := hi.eagerly i he
      have hP : ¬ P i := fun hP => hm (.pulling hP hparents)
      have hpuller : ¬ Doomed Q P h (.puller i k) := fun hd => hm (.puller hk hd hparents)
      obtain ⟨w, hw, hc, hedge⟩ := hi.pulled_memo hx he hk hP hpuller
      obtain rfl : a = w := some.inj (ha ▸ hw)
      obtain rfl := hau hx
      exact hcached (.memo i) (fun hd => hpuller (.slot rfl hd hedge)) rfl hc
    · obtain rfl := hau hx
      exact hcached (.memo i) (fun hd => hm (.slot rfl hd hmemo)) rfl ha

/-- Replaying what a node that nothing reaches has read gives what from-scratch evaluation gives. -/
theorem replay_eq {t : Comp V} (he : Evaluates G h.value t v) {l : List (Node × V)} {w : V} (hm : ¬ Doomed Q P h m)
    (hl : ∀ n u, (n, u) ∈ l → Seen G P h m u n) (hf : t.follow l = some (.ret w)) : w = v := by
  induction he generalizing m l w with
  | ret v =>
    cases l with
    | nil =>
      simp only [Comp.follow_nil, some.injEq, Comp.ret.injEq] at hf
      exact hf.symm
    | cons r l => simp [Comp.follow] at hf
  | @read d k u v hd _ ihd ihk =>
    cases l with
    | nil => simp at hf
    | cons r l =>
      obtain ⟨n, u'⟩ := r
      obtain ⟨rfl, hf'⟩ := Comp.follow_read hf
      have hu : u' = u := by
        refine hi.offered_eq hx hm (hl d.node u' List.mem_cons_self) ?_ ?_
        · rintro i rfl
          exact (Graph.Value.source.mp hd).symm
        · -- a cached value replays its own record
          intro n hn hbody hc
          refine ihd hn (fun a b hab => ?_) (hbody ▸ hi.replay n u' hc)
          exact (hi.seen n a b hab).resolve_left fun hq => hn (.queued hq)
      subst hu
      exact ihk hm (fun n u hmem => hl n u (List.mem_cons_of_mem _ hmem)) hf'

/-- The cached value of a slot that nothing reaches is the from-scratch value. -/
theorem cache_eq {n : Node} {w : V} (hn : ¬ Doomed Q P h n) (hc : h.cache n = some w)
    (he : Evaluates G h.value (G.callable n) v) :
    w = v := by
  refine hi.replay_eq hx he hn (fun a b hab => ?_) (hi.replay n w hc)
  exact (hi.seen n a b hab).resolve_left fun hq => hn (.queued hq)

/-- What a node that nothing reaches is offered is the from-scratch value. -/
theorem value_eq {d : Ref} {u : V} (hm : ¬ Doomed Q P h m) (hs : Seen G P h m u d.node) (he : G.Value h.value d v) :
    u = v := by
  refine hi.offered_eq hx hm hs ?_ fun n hn hbody hc => hi.cache_eq hx hn hc (hbody ▸ he)
  rintro i rfl
  exact (Graph.Value.source.mp he).symm

end

end HeapInv

structure Rest (G : Graph V) (h : Heap V) : Prop where
  inv : HeapInv G (fun _ => False) (fun _ => False) h
  settled : h.pendingCells = []

namespace Rest

variable {G : Graph V} {h : Heap V}

/-- At rest nothing is reached. -/
theorem not_doomed (hr : Rest G h) (m : Node) : ¬ Doomed (fun _ => False) (fun _ => False) h m := by
  intro hd
  induction hd with
  | queued hq => exact hq
  | pending hi => simp [hr.settled] at hi
  | slot _ _ _ ih => exact ih
  | puller _ _ _ ih => exact ih
  | pulling hP => exact hP

/-- Every record is good. -/
theorem seen (hr : Rest G h) {m n : Node} {w : V} (hm : (n, w) ∈ h.reads m) : Seen G (fun _ => False) h m w n :=
  (hr.inv.seen m n w hm).resolve_left id

/-- A cached value is the from-scratch value. -/
theorem cache_eq (hr : Rest G h) (hx : G.ExactGuards) {n : Node} {v w : V}
    (hc : h.cache n = some w) (he : Evaluates G h.value (G.callable n) v) : w = v :=
  hr.inv.cache_eq hx (hr.not_doomed n) hc he

/-- A materialized value is the from-scratch value. -/
theorem handle_eq (hr : Rest G h) (hx : G.ExactGuards) {i : ℕ} {v : V} (hei : h.eager i = true)
    (he : G.Value h.value (.computed i) v) : h.handle i = some v := by
  obtain ⟨k, hk, _⟩ := hr.inv.eagerly i hei
  obtain ⟨w, hw, hc, _⟩ := hr.inv.pulled_memo hx hei hk id (hr.not_doomed _)
  obtain rfl := hr.cache_eq (n := .memo i) hx hc he
  exact hw

/-- A recorded value is the from-scratch value. -/
theorem read_eq (hr : Rest G h) (hx : G.ExactGuards) {m : Node} {d : Ref} {v w : V}
    (hm : (d.node, w) ∈ h.reads m) (he : G.Value h.value d v) : w = v :=
  hr.inv.value_eq hx (hr.not_doomed m) (hr.seen hm) he

end Rest

/-- The values a reader can be handed are from-scratch values over `σ`. -/
structure Coherent (G : Graph V) (σ : ℕ → V) (h : Heap V) : Prop where
  value : h.value = σ
  cache : ∀ n v w, h.cache n = some w → Evaluates G σ (G.callable n) v → w = v
  handle : ∀ i v, h.eager i = true → G.Value σ (.computed i) v → h.handle i = some v
  alive : ∀ n, n.isPuller = false → h.disposed n = false
  fresh : ∀ i, h.stale i = false

theorem Rest.coherent {G : Graph V} {h : Heap V} (hr : Rest G h) (hx : G.ExactGuards) : Coherent G h.value h where
  value := rfl
  cache := fun _ _ _ => hr.cache_eq hx
  handle := fun _ _ => hr.handle_eq hx
  alive := fun _ => hr.inv.alive
  fresh := hr.inv.fresh

section Reading

variable {G : Graph V} {σ : ℕ → V} {h : Heap V} {ord : Enum}

theorem Coherent.subscribe (hc : Coherent G σ h) (d : Ref) (r : Node) : Coherent G σ (h.subscribe d r) := by
  rw [Heap.subscribe_eq]
  exact ⟨hc.value, hc.cache, hc.handle, hc.alive, hc.fresh⟩

variable [DecidableEq V]

/-- The control reaches the value `v`, with the stack as it is now. -/
def Delivers (G : Graph V) (ord : Enum) (σ : ℕ → V) (c : Config V) (v : V) : Prop :=
  ∃ h', Steps G ord c ⟨h', .value v, c.stack⟩ ∧ Coherent G σ h'

variable {v : V} {d : Ref}

/-- A slot delivers its value if its callable does. -/
theorem Coherent.callSlot (hc : Coherent G σ h) {n : Node} {st : List (Frame V)} (hn : n.isPuller = false)
    (he : Evaluates G σ (G.callable n) v)
    (heval : ∀ h', Coherent G σ h' → Delivers G ord σ ⟨h', .eval n (G.callable n), st⟩ v) :
    ∃ h', Steps G ord (callSlot G h st n) ⟨h', .value v, st⟩ ∧ Coherent G σ h' := by
  simp only [Reactive.callSlot, hc.alive n hn]
  cases hcache : h.cache n with
  | some w =>
    obtain rfl := hc.cache n v w hcache he
    exact ⟨h, .refl, hc⟩
  | none => exact heval _ ⟨hc.value, hc.cache, hc.handle, hc.alive, hc.fresh⟩

/-- A read delivers the from-scratch value if evaluation does. -/
theorem Coherent.get (hc : Coherent G σ h) {st : List (Frame V)} (he : G.Value σ d v)
    (heval : ∀ n h', G.callable n = G.body σ d → Coherent G σ h' →
      Delivers G ord σ ⟨h', .eval n (G.callable n), st⟩ v) :
    Delivers G ord σ ⟨h, .get d, st⟩ v := by
  suffices hget : ∃ h', Steps G ord (getRef G h st d) ⟨h', .value v, st⟩ ∧ Coherent G σ h' by
    obtain ⟨h', hsteps, hc'⟩ := hget
    exact ⟨h', .head rfl hsteps, hc'⟩
  cases d with
  | source i =>
    obtain rfl := Graph.Value.source.mp he
    simp only [getRef, hc.alive (.source i) rfl, ← hc.value]
    exact ⟨h, .refl, hc.value ▸ hc⟩
  | slot i => exact hc.callSlot rfl he fun h' => heval (.slot i) h' rfl
  | computed i =>
    simp only [getRef, getComputed]
    by_cases hei : h.eager i = true
    · simp only [hei, if_true, hc.fresh i, Bool.false_eq_true, if_false, hc.handle i v hei he, getD_some]
      exact ⟨h, .refl, hc⟩
    · simp only [hei]
      exact hc.callSlot rfl he fun h' => heval (.memo i) h' rfl

/-- Evaluating what is left of a callable delivers the from-scratch value. -/
theorem Coherent.eval {t : Comp V} (he : Evaluates G σ t v) (hc : Coherent G σ h) {n : Node}
    (hn : Evaluates G σ (G.callable n) v) (st : List (Frame V)) :
    Delivers G ord σ ⟨h, .eval n t, st⟩ v := by
  induction he generalizing h n st with
  | ret v =>
    refine ⟨h.setCache n v, .single rfl, hc.value, fun m u w hw hu => ?_, hc.handle, hc.alive, hc.fresh⟩
    by_cases hm : m = n
    · subst hm
      obtain rfl : v = w := by simpa [Heap.setCache] using hw
      exact hn.det hu
    · exact hc.cache m u w (by simpa [Heap.setCache, hm] using hw) hu
  | @read d k w v hd hk ihd ihk =>
    have hget : Delivers G ord σ ⟨h.subscribe d n, .get d, .inSlot n d k :: st⟩ w :=
      (hc.subscribe d n).get hd fun n' h' hn' hc' => hn' ▸ ihd hc' (hn' ▸ hd) _
    obtain ⟨h₁, hsteps₁, hc₁⟩ := hget
    have hc₂ : Coherent G σ (h₁.record n d.node w) := ⟨hc₁.value, hc₁.cache, hc₁.handle, hc₁.alive, hc₁.fresh⟩
    obtain ⟨h₂, hsteps₂, hc₃⟩ := ihk hc₂ hn st
    exact ⟨h₂, .head rfl (hsteps₁.trans (.head rfl hsteps₂)), hc₃⟩

/-- A read in a coherent state returns the from-scratch value. -/
theorem Coherent.delivers (hc : Coherent G σ h) (he : G.Value σ d v) (st : List (Frame V)) :
    Delivers G ord σ ⟨h, .get d, st⟩ v :=
  hc.get he fun _ _ hn hc' => hn ▸ hc'.eval he (hn ▸ he) st

/-- A client that reads in a coherent state is handed the from-scratch value, and no other. -/
theorem Coherent.returns_iff {c : Config V} (hc : Coherent G σ c.heap) (hidle : c.Idle) (hv : G.Value σ d v) (u : V) :
    c.Returns G ord d u ↔ u = v := by
  have hreturns : c.Returns G ord d v := by
    obtain ⟨h', hsteps, _⟩ : Delivers G ord σ ⟨c.heap, .get d, [.inCode none d fun _ => .done]⟩ v := hc.delivers hv _
    refine ⟨h', .head ?_ hsteps⟩
    simp [Config.issue, step, stepExec, hidle.1]
  constructor
  · exact fun hu => hu.det hreturns
  · rintro rfl
    exact hreturns

end Reading

/-! ## Sessions without batches -/

/-- The calls of a client that opens no batch and runs no effect. -/
inductive Unbatched : Instr → Prop
  | read : Unbatched .read
  | write : Unbatched .write
  | eager : Unbatched .eager
  | lazy : Unbatched .lazy

/-- An idle configuration with nothing pending is at rest. -/
theorem Inv.rest {G : Graph V} {S : Instr → Prop} {c : Config V} (hi : Inv G S c)
    (hidle : c.Idle) (hcells : c.heap.pendingCells = []) (heffects : c.heap.pendingEffects = []) :
    Rest G c.heap := by
  obtain ⟨h, t, st⟩ := c
  obtain ⟨rfl, hctl⟩ := hidle
  obtain ⟨cl, rfl⟩ : ∃ cl, t = .returned cl := by
    rcases hctl with rfl | hctl
    · exact hi.fits.elim
    · exact hctl
  have hwork : h.work = [] := by
    by_contra hne
    cases hi.orderly.active (hi.orderly.busy hne)
  refine ⟨hi.heap.mono (fun m hm => ?_) (fun i hm => ?_), hcells⟩
  · rcases hm with hm | ⟨_, hm | hm | ⟨f, hf, _⟩⟩
    · simp [hwork] at hm
    · rw [heffects] at hm
      cases hm
    · exact hm
    · cases hf
  · rcases hm with ⟨k, hk, _⟩ | ⟨p, hp⟩
    · cases hk
    · cases hp

/-- With no scope open, a step that propagates no exception is contained. -/
theorem contained_of_unscoped {c : Config V} (hq : c.ctl ≠ .raised) (hsc : scopes c.stack = []) : Contained c := by
  have hno : ∀ b rest, .rerun b rest ∉ c.stack := by
    intro b rest hmem
    have hscope : .rerun b rest ∈ scopes c.stack := List.mem_filter.mpr ⟨hmem, rfl⟩
    rw [hsc] at hscope
    cases hscope
  exact ⟨fun hctl => absurd hctl hq, fun _ _ _ _ _ _ _ => hno, fun _ _ _ _ _ _ _ => hno⟩

section Unbatched

variable [DecidableEq V] {G : Graph V}

/-- A step of code without batches opens no scope. -/
theorem unscoped_step {ord : Enum} {c c' : Config V} (hi : Inv G Unbatched c)
    (hsc : scopes c.stack = []) (hs : step G ord c = some c') : scopes c'.stack = [] := by
  have hno : ∀ f st, c.stack = f :: st → f.isScope = false := by
    intro f st hst
    by_contra hf
    have hscope : f.isScope = true := by simpa using hf
    simp [hst, hscope] at hsc
  cases boundary_step hs with
  | quiet hq => rw [hq.scopes, hsc]
  | defer r i v k _ _ _ _ _ _ _ hsc' => rw [hsc', hsc]
  | enqueue e rest _ _ _ _ _ _ _ _ _ _ hst => rw [hst, hsc]
  | «open» r b k hctl =>
    have hfits := hi.fits
    rw [hctl] at hfits
    cases hfits.2.1.1
  | close st hst => cases hno _ st hst
  | flush b st hst => cases hno _ st hst
  | next f b rest st hst hf =>
    rcases hf with ⟨⟨_, rfl⟩, _⟩ | ⟨⟨_, _, rfl⟩, _⟩ <;> cases hno _ st hst
  | leave f st hst hf =>
    rcases hf with ⟨⟨_, rfl⟩, _⟩ | ⟨⟨_, _, rfl⟩, _⟩ <;> cases hno _ st hst
  | unwind f st _ hst hf =>
    rcases hf with ⟨_, rfl⟩ | ⟨_, _, rfl⟩ <;> cases hno _ st hst

/-- Without batches, no scope is ever open. -/
theorem unscoped_run {σ : ℕ → V} {c : Config V}
    (hrun : Run G Unbatched Calm (Config.init σ) c) : Scoped c ∧ scopes c.stack = [] := by
  induction hrun with
  | refl => exact ⟨scoped_init σ, rfl⟩
  | @tail c c' hrun hstep ih =>
    have hi : Inv G Unbatched c := inv_run (by rintro ⟨⟩) (by rintro ⟨⟩) (fun _ => id) (inv_init σ) hrun hstep.1.quiet
    have hok := contained_of_unscoped hstep.1.quiet ih.2
    cases hstep.2 with
    | tick ord _ hs => exact ⟨scoped_step ih.1 hok hs, unscoped_step hi ih.2 hs⟩
    | issue code hidle _ => exact ⟨ih.1.issue hidle code, ih.2⟩

/-- Outside a batch, reading a source, a slot or a computed returns the value that evaluating
it from scratch over the current sources gives, and no other. -/
theorem read_coherent (hx : G.ExactGuards) {σ : ℕ → V} {c : Config V}
    (hrun : Run G Unbatched Calm (Config.init σ) c) (hidle : c.Idle) (hquiet : c.ctl ≠ .raised)
    {d : Ref} {v : V} (hv : G.Value c.heap.value d v) (ord : Enum) (u : V) :
    c.Returns G ord d u ↔ u = v := by
  have hi : Inv G Unbatched c := inv_run (by rintro ⟨⟩) (by rintro ⟨⟩) (fun _ => id)
    (inv_init σ) hrun hquiet
  obtain ⟨hscoped, hsc⟩ := unscoped_run hrun
  obtain ⟨_, hcells, heffects⟩ := hscoped.outside hsc
  exact ((hi.rest hidle hcells heffects).coherent hx).returns_iff hidle hv u

end Unbatched

/-- `slot 0` reads `computed 0`, which reads source 0. -/
def relayed : Graph ℕ where
  slotBody := fun _ => .read (.computed 0) .ret
  computedBody := fun _ => .read (.source 0) .ret
  changed := fun _ => none
  effectBody := fun _ _ => .done
  unset := 0

theorem relayed_exactGuards : relayed.ExactGuards := by
  rintro i f ⟨⟩

theorem relayed_acyclic : relayed.Acyclic := by
  refine ⟨fun d => match d with | .source _ => 0 | .computed _ => 1 | .slot _ => 2, ?_, ?_⟩
  · rintro i d (_ | ⟨v, ⟨⟩⟩)
    exact Nat.lt_succ_self 1
  · rintro i d (_ | ⟨v, ⟨⟩⟩)
    exact Nat.lt_succ_self 0

theorem relayed_value (σ : ℕ → ℕ) : relayed.Value σ (.slot 0) (σ 0) :=
  .read (.read (.ret _) (.ret _)) (.ret _)

/-- A session on `relayed`. -/
def relayedSession (check : Config ℕ → Bool) (codes : List (Code ℕ)) : Option (Config ℕ) :=
  session relayed .stored check 40 codes (Config.init fun _ => 0)

/-- `computed 0` becomes eager, `slot 0` reads it, and source 0 changes. -/
theorem read_coherent_relayed : ∃ c, relayedSession calmCheck
        [.eager 0 .done, .read (.slot 0) fun _ => .done, .write 0 1 .done] = some c ∧
      c.Returns relayed .stored (.slot 0) 1 := by
  refine ⟨(relayedSession calmCheck _).get rfl, (some_get _).symm, ?_⟩
  refine (read_coherent relayed_exactGuards (run_of_session Enum.stored_lawful
    (fun _ => calm_of_check) ?_ (some_get _).symm) (Config.isIdle_idle rfl) ?_
    (relayed_value _) .stored 1).mpr rfl
  · simp [Code.Within, Unbatched.eager, Unbatched.read, Unbatched.write]
  · rintro ⟨⟩

/-- `lazy()` comes between the read and the write. -/
def staleSession : Option (Config ℕ) :=
  relayedSession quietCheck [.eager 0 .done, .read (.slot 0) fun _ => .done, .lazy 0 .done, .write 0 1 .done]

def handed (c : Config ℕ) : Bool :=
  match c.ctl, c.stack with
  | .value _, [_] => true
  | _, _ => false

/-- `lazy()` takes the only edge on which the change of source 0 could reach `slot 0`. -/
theorem staleSession_returns : (staleSession.get rfl).Returns relayed .stored (.slot 0) 0 := by
  have hplay : playUntil relayed .stored (fun _ => true) handed 10
      ((staleSession.get rfl).issue (.read (.slot 0) fun _ => .done)) =
      some ((playUntil relayed .stored (fun _ => true) handed 10
        ((staleSession.get rfl).issue (.read (.slot 0) fun _ => .done))).get rfl) :=
    (some_get _).symm
  exact ⟨_, steps_of_playUntil hplay⟩

/-- An acyclic graph with exact guards, a session that raises nothing, and a stale read. -/
theorem read_stale : ¬ ∀ (G : Graph ℕ) (σ : ℕ → ℕ) (c : Config ℕ) (d : Ref) (v u : ℕ), G.Acyclic → G.ExactGuards →
    Run G Unbatched (fun c => c.ctl ≠ .raised) (Config.init σ) c → c.Idle → c.ctl ≠ .raised →
    G.Value c.heap.value d v → (c.Returns G .stored d u ↔ u = v) := by
  intro h
  have hrun : Run relayed Unbatched (fun c => c.ctl ≠ .raised) (Config.init fun _ => 0)
      (staleSession.get rfl) := by
    refine run_of_session Enum.stored_lawful (fun _ => quiet_of_check) ?_ (some_get _).symm
    simp [Code.Within, Unbatched.eager, Unbatched.read, Unbatched.lazy, Unbatched.write]
  have hstale := (h relayed _ _ (.slot 0) 1 0 relayed_acyclic relayed_exactGuards hrun
    (Config.isIdle_idle rfl) (quiet_of_check rfl) (relayed_value _)).mp staleSession_returns
  cases hstale

end LazilyPy.Reactive

namespace LazilyPy.Reactive

open Option

/-! ### Effects stay subscribed -/

variable {V : Type}

/-- No call is in progress, no exception propagates and nothing waits to be propagated. -/
structure Quiescent (c : Config V) : Prop where
  idle : c.Idle
  quiet : c.ctl ≠ .raised
  cells : c.heap.pendingCells = []
  effects : c.heap.pendingEffects = []
  work : c.heap.work = []

/-- The node is a dependent of what a read of `d` depends on: a lazy computed is read through
its backing memo. -/
def Subscribed (h : Heap V) (m : Node) (d : Ref) : Prop :=
  m ∈ h.parents d.node ∧ ∀ i, d = .computed i → h.eager i = false → m ∈ h.parents (.memo i)

theorem Seen.subscribed {G : Graph V} {P : ℕ → Prop} {h : Heap V} {m : Node} {d : Ref} {w : V}
    (hs : Seen G P h m w d.node) : Subscribed h m d := by
  refine ⟨hs.mem_parents, ?_⟩
  rintro i rfl he
  rcases hs.2 with ⟨he', _⟩ | ⟨_, hmemo, _⟩
  · simp [he] at he'
  · exact hmemo

def Lively (i : Instr) : Prop :=
  i ≠ .dispose

variable [DecidableEq V] {G : Graph V}

/-- Effects stay subscribed to what their latest execution read. -/
theorem effect_subscribed (hG : ∀ i r, (G.effectBody i r).Within Lively) {σ : ℕ → V}
    {c : Config V} (hrun : Run G Lively Calm (Config.init σ) c) (hq : Quiescent c) {e : ℕ}
    {d : Ref} {w : V} (hread : (d.node, w) ∈ c.heap.reads (.effect e)) :
    Subscribed c.heap (.effect e) d := by
  have hi : Inv G Lively c := inv_run (by simp [Lively]) (fun _ => hG) (fun _ => id)
    (inv_init σ) hrun hq.quiet
  exact ((hi.rest hq.idle hq.cells hq.effects).seen hread).subscribed

/-- An effect that reads source 0, after it has been rerun twice. -/
theorem effect_subscribed_watching : ∃ c, session (watching fun _ => .done) .stored calmCheck 40
        [.call 0 .done, .write 0 5 .done, .batch (.write 0 6 .done) .done]
        (Config.init fun _ => 0) = some c ∧
      Subscribed c.heap (.effect 0) (.source 0) := by
  refine ⟨(session (watching fun _ => .done) .stored calmCheck 40 _ _).get rfl, (some_get _).symm, ?_⟩
  refine effect_subscribed (G := watching fun _ => .done) (w := 6) ?_
    (run_of_session Enum.stored_lawful (fun _ => calm_of_check) ?_ (some_get _).symm)
    ⟨Config.isIdle_idle rfl, quiet_of_check rfl, rfl, rfl, rfl⟩ ?_
  · simp [watching, Code.Within, Lively]
  · simp [Code.Within, Lively]
  · decide

/-- The first run of an effect that reads source 0 and then moves it away from 0. -/
def resetOnce : Graph ℕ :=
  watching fun v => if v = 0 then .write 0 1 .done else .done

/-- The wave of its own write reaches the effect while its body is running: the edge is gone,
and the effect is not rerun. -/
theorem effect_unsubscribed : ¬ ∀ (G : Graph ℕ) (σ : ℕ → ℕ) (c : Config ℕ) (e : ℕ) (d : Ref)
    (w : ℕ), (∀ i r, (G.effectBody i r).Within Lively) →
    Run G Lively (fun c => c.ctl ≠ .raised) (Config.init σ) c → Quiescent c →
    (d.node, w) ∈ c.heap.reads (.effect e) → Subscribed c.heap (.effect e) d := by
  intro h
  have hG : ∀ i r, (resetOnce.effectBody i r).Within Lively := by
    intro i r
    refine ⟨by simp [Lively], fun v => ?_⟩
    show Code.Within Lively (if v = 0 then _ else _)
    split
    · simp [Code.Within, Lively]
    · trivial
  have hsub := h resetOnce (fun _ => 0)
    ((session resetOnce .stored quietCheck 40 [.call 0 .done] (Config.init fun _ => 0)).get rfl)
    0 (.source 0) 0 hG
    (run_of_session Enum.stored_lawful (fun _ => quiet_of_check) (by simp [Code.Within, Lively])
      (some_get _).symm)
    ⟨Config.isIdle_idle rfl, quiet_of_check rfl, rfl, rfl, rfl⟩ (by decide)
  exact absurd hsub.1 (by decide)

end LazilyPy.Reactive

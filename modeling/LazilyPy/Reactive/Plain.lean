import Mathlib.Data.Finset.Insert
import LazilyPy.Reactive.Machine

/-!
# Graphs of sources, slots and effects

Without a `Computed` in the graph no callable runs user code: while a slot is evaluated, the stack holds nothing
but the slots that wait for it and the code that has read the first of them. Everything else runs with no slot
in a call.
-/

namespace LazilyPy.Reactive

open List Function

variable {V : Type}

/-! ## Code -/

/-- A `Source` or a `Slot`. -/
def Ref.Plain : Ref → Prop
  | .source _ | .slot _ => True
  | .computed _ => False

def Comp.Plain : Comp V → Prop
  | .ret _ => True
  | .raise => True
  | .read d k => d.Plain ∧ ∀ v, (k v).Plain

def Code.Plain : Code V → Prop
  | .done => True
  | .doneWith c => c.Plain
  | .raise => True
  | .read d k => d.Plain ∧ ∀ v, (k v).Plain
  | .write _ _ k => k.Plain
  | .batch b k => b.Plain ∧ k.Plain
  | .call _ k => k.Plain
  | .eager _ _ | .lazy _ _ => False
  | .dispose d k => d.Plain ∧ k.Plain
  | .disposeEffect _ k => k.Plain
  | .attempt b k => b.Plain ∧ k.Plain

structure Graph.Plain (G : Graph V) : Prop where
  slots : ∀ i, (G.slotBody i).Plain
  effects : ∀ e r, (G.effectBody e r).Plain

def Node.isPlain : Node → Bool
  | .slot _ | .effect _ => true
  | _ => false

def Node.Watches (n : Node) : Prop :=
  ∃ e, n = .effect e

theorem Node.Watches.isPlain {n : Node} (h : n.Watches) : n.isPlain = true := by
  obtain ⟨e, rfl⟩ := h
  rfl

def Owner (r : Option Node) : Prop :=
  ∀ n, r = some n → n.Watches

/-! ## Heaps -/

structure PlainHeap (h : Heap V) : Prop where
  parents : ∀ n, ∀ m ∈ h.parents n, m.isPlain = true
  work : ∀ m ∈ h.work, m.isPlain = true
  effects : ∀ m ∈ h.pendingEffects, m.Watches
  cleanup : ∀ n c, h.cleanup n = some c → c.Plain
  leaves : ∀ e, h.parents (.effect e) = []
  finite : ∃ nodes : Finset Node, ∀ n ∉ nodes, h.parents n = []

namespace PlainHeap

variable {h h' : Heap V}

/-- Edges and entries are taken away, dependents go on the work-stack. -/
theorem shrink (hh : PlainHeap h) (hparents : ∀ n, ∀ m ∈ h'.parents n, m ∈ h.parents n)
    (hwork : ∀ m ∈ h'.work, m ∈ h.work ∨ ∃ n, m ∈ h.parents n)
    (heffects : ∀ m ∈ h'.pendingEffects, m ∈ h.pendingEffects ∨ m.Watches)
    (hcleanup : ∀ n c, h'.cleanup n = some c → h.cleanup n = some c ∨ c.Plain) : PlainHeap h' where
  parents n m hm := hh.parents n m (hparents n m hm)
  work m hm := by
    obtain hm | ⟨n, hm⟩ := hwork m hm
    · exact hh.work m hm
    · exact hh.parents n m hm
  effects m hm := (heffects m hm).elim (hh.effects m) id
  cleanup n c hc := (hcleanup n c hc).elim (hh.cleanup n c) id
  leaves e := eq_nil_iff_forall_not_mem.mpr fun m hm => by
    have hold := hparents _ m hm
    rw [hh.leaves e] at hold
    cases hold
  finite := by
    obtain ⟨nodes, hout⟩ := hh.finite
    refine ⟨nodes, fun n hn => eq_nil_iff_forall_not_mem.mpr fun m hm => ?_⟩
    have hold := hparents n m hm
    rw [hout n hn] at hold
    cases hold

/-- What it speaks of is the same. -/
theorem same (hh : PlainHeap h) (hparents : h'.parents = h.parents) (hwork : h'.work = h.work)
    (heffects : h'.pendingEffects = h.pendingEffects) (hcleanup : h'.cleanup = h.cleanup) :
    PlainHeap h' :=
  hh.shrink (fun _ _ hm => hparents ▸ hm) (fun _ hm => .inl (hwork ▸ hm))
    (fun _ hm => .inl (heffects ▸ hm)) fun _ _ hc => .inl (hcleanup ▸ hc)

theorem init (σ : ℕ → V) : PlainHeap (Heap.init σ) where
  parents := fun _ _ hm => by cases hm
  work := fun _ hm => by cases hm
  effects := fun _ hm => by cases hm
  cleanup := fun _ _ hc => by cases hc
  leaves := fun _ => rfl
  finite := ⟨∅, fun _ _ => rfl⟩

theorem registerEdge (hh : PlainHeap h) {d r : Node} (hd : d.isEffect = false) (hr : r.isPlain = true) :
    PlainHeap (h.registerEdge d r) where
  parents n m hm := by
    by_cases hn : n = d
    · subst hn
      have hcases : m = r ∨ m ∈ h.parents n := by simpa [Heap.registerEdge] using hm
      exact hcases.elim (fun heq => heq ▸ hr) (hh.parents n m)
    · exact hh.parents n m (by simpa [Heap.registerEdge, hn] using hm)
  work := hh.work
  effects := hh.effects
  cleanup := hh.cleanup
  leaves e := by
    have hne : Node.effect e ≠ d := by
      rintro rfl
      cases hd
    show update h.parents d _ (.effect e) = []
    rw [update_of_ne hne]
    exact hh.leaves e
  finite := by
    obtain ⟨nodes, hout⟩ := hh.finite
    refine ⟨insert d nodes, fun n hn => ?_⟩
    rw [Finset.mem_insert, not_or] at hn
    show update h.parents d _ n = []
    rw [update_of_ne hn.1]
    exact hout n hn.2

theorem subscribe (hh : PlainHeap h) {d : Ref} (hd : d.Plain) {r : Node} (hr : r.isPlain = true) :
    PlainHeap (h.subscribe d r) := by
  cases d with
  | source i => exact hh.registerEdge rfl hr
  | slot i => exact hh.registerEdge rfl hr
  | computed i => cases hd

theorem detach (hh : PlainHeap h) (n : Node) : PlainHeap (h.detachFromDependencies n) := by
  refine hh.shrink (fun d m hm => ?_) (fun _ => .inl) (fun _ => .inl) fun _ _ => .inl
  simp only [Heap.detachFromDependencies] at hm
  split at hm
  · exact mem_of_mem_filter hm
  · exact hm

theorem retire (hh : PlainHeap h) (n : Node) : PlainHeap (h.retire n) :=
  (hh.detach n).same rfl rfl rfl rfl

theorem startEffect (hh : PlainHeap h) (n : Node) : PlainHeap (h.startEffect n) :=
  (hh.detach n).same rfl rfl rfl rfl

theorem clearParents (hh : PlainHeap h) (n : Node) : PlainHeap (h.clearParents n) := by
  refine hh.shrink (fun d m hm => ?_) (fun _ => .inl) (fun _ => .inl) fun _ _ => .inl
  by_cases hd : d = n
  · subst hd
    simp [Heap.clearParents] at hm
  · simpa [Heap.clearParents, hd] using hm

theorem dropCached (hh : PlainHeap h) {n : Node} (hn : n.isPlain = true) : PlainHeap (h.dropCached n) := by
  cases n with
  | slot i => exact hh.same rfl rfl rfl rfl
  | effect e => exact hh
  | _ => cases hn

theorem pushParents (hh : PlainHeap h) {ord : Enum} (hord : ord.Lawful) (n : Node) :
    PlainHeap (h.pushParents ord n) := by
  refine hh.shrink (fun d m hm => ?_) (fun m hm => ?_) (fun _ => .inl) fun _ _ => .inl
  · by_cases hd : d = n
    · subst hd
      simp [Heap.pushParents] at hm
    · simpa [Heap.pushParents, hd] using hm
  · obtain hm | hm := mem_append.mp hm
    · exact .inr ⟨n, (hord _ _).mem_iff.mp hm⟩
    · exact .inl hm

theorem touchAll (hh : PlainHeap h) {ord : Enum} (hord : ord.Lawful) (cells : List Node) :
    PlainHeap (h.touchAll ord cells) := by
  induction cells generalizing h with
  | nil => exact hh
  | cons n cells ih =>
    show PlainHeap (Heap.touchAll ord cells (if h.disposed n = true then h else h.pushParents ord n))
    split
    · exact ih hh
    · exact ih (hh.pushParents hord n)

theorem flushTouch (hh : PlainHeap h) {ord : Enum} (hord : ord.Lawful) : PlainHeap (h.flushTouch ord) := by
  have hempty : PlainHeap { h with pendingCells := [] } := hh.same rfl rfl rfl rfl
  exact (hempty.touchAll hord _).same rfl rfl rfl rfl

theorem setCleanup (hh : PlainHeap h) (e : Node) {cl : Option (Code V)} (hcl : ∀ c, cl = some c → c.Plain) :
    PlainHeap { h with cleanup := update h.cleanup e cl } := by
  refine hh.shrink (fun _ _ => id) (fun _ => .inl) (fun _ => .inl) fun n c hc => ?_
  by_cases hn : n = e
  · subst hn
    exact .inr (hcl c (by simpa using hc))
  · exact .inl (by simpa [hn] using hc)

end PlainHeap

/-! ## Stacks -/

def Frame.Flat : Frame V → Prop
  | .inSlot _ _ _ | .inCode _ _ _ | .pull _ _ | .rearmed _ | .rearmSlot _ => False
  | .andThen r c => Owner r ∧ c.Plain
  | .attempt r k => Owner r ∧ k.Plain
  | .effect e | .cleanup e | .disposing e => e.Watches
  | .rerun _ rest => ∀ e ∈ rest, e.Watches
  | .drain | .batch | .flushed _ => True

def Flat (st : List (Frame V)) : Prop :=
  ∀ f ∈ st, f.Flat

theorem flat_cons {f : Frame V} {st : List (Frame V)} : Flat (f :: st) ↔ f.Flat ∧ Flat st :=
  forall_mem_cons

/-- A stack that waits for the value of `d`: slots in a call wait for each other, and code for the last of
them. -/
def Asks : List (Frame V) → Ref → Prop
  | .inSlot n d k :: st, d' => d = d' ∧ (∀ v, (k v).Plain) ∧ ∃ i, n = .slot i ∧ Asks st (.slot i)
  | .inCode r d k :: st, d' => d = d' ∧ (∀ v, (k v).Plain) ∧ Owner r ∧ Flat st
  | _, _ => False

def Ctl.FlatOn (st : List (Frame V)) : Ctl V → Prop
  | .exec r c => (Owner r ∧ c.Plain) ∧ Flat st
  | .call e => e.Watches ∧ Flat st
  | .loop => Flat st
  | .dirty ns => (∀ n ∈ ns, n.isPlain = true) ∧ Flat st
  | .returned cl => (∀ c, cl = some c → c.Plain) ∧ Flat st
  | .raised => Flat st
  | .get _ | .eval _ _ | .value _ => False

def Ctl.AsksOn (st : List (Frame V)) : Ctl V → Prop
  | .get d => d.Plain ∧ Asks st d
  | .eval n t => t.Plain ∧ ∃ i, n = .slot i ∧ Asks st (.slot i)
  | .value _ | .raised => ∃ d, Asks st d
  | .exec _ _ | .call _ | .loop | .dirty _ | .returned _ => False

structure FlatConfig (c : Config V) : Prop where
  heap : PlainHeap c.heap
  ctl : c.ctl.FlatOn c.stack

structure AskingConfig (c : Config V) : Prop where
  heap : PlainHeap c.heap
  ctl : c.ctl.AsksOn c.stack

def PlainConfig (c : Config V) : Prop :=
  FlatConfig c ∨ AskingConfig c

theorem flatConfig_init (σ : ℕ → V) : FlatConfig (Config.init σ) :=
  ⟨.init σ, nofun, fun _ hf => by cases hf⟩

variable {c c' : Config V}

theorem PlainConfig.heap (hc : PlainConfig c) : PlainHeap c.heap :=
  hc.elim FlatConfig.heap AskingConfig.heap

theorem PlainConfig.issue (hc : PlainConfig c) (hidle : c.Idle) {code : Code V} (hcode : code.Plain) :
    FlatConfig (c.issue code) := by
  refine ⟨hc.heap, ⟨⟨nofun, hcode⟩, ?_⟩⟩
  show Flat c.stack
  rw [hidle.1]
  exact fun f hf => by cases hf

/-! ## Steps -/

section Cases

variable {G : Graph V} {ord : Enum} {h h' : Heap V} {st : List (Frame V)}

theorem plain_callSlot (hG : G.Plain) (hh : PlainHeap h) {i : ℕ} (hst : Asks st (.slot i)) :
    AskingConfig (callSlot G h st (.slot i)) := by
  unfold callSlot
  split
  · exact ⟨hh, _, hst⟩
  · split
    · exact ⟨hh, _, hst⟩
    · exact ⟨hh.same rfl rfl rfl rfl, hG.slots i, i, rfl, hst⟩

variable {d : Ref} {e : Node} {c' : Config V}

theorem plain_getRef (hG : G.Plain) (hh : PlainHeap h) (hd : d.Plain) (hst : Asks st d) :
    AskingConfig (getRef G h st d) := by
  cases d with
  | source i =>
    simp only [getRef]
    split
    · exact ⟨hh, _, hst⟩
    · exact ⟨hh, _, hst⟩
  | slot i => exact plain_callSlot hG hh hst
  | computed i => cases hd

theorem plain_drainResets (hh : PlainHeap h) (hst : Flat st) : FlatConfig (drainResets h st) := by
  unfold drainResets
  split
  · exact ⟨hh, nofun, hst⟩
  · exact ⟨hh.same rfl rfl rfl rfl, flat_cons.mpr ⟨trivial, hst⟩⟩

theorem plain_touch (hord : ord.Lawful) (hh : PlainHeap h) (hst : Flat st) (n : Node) :
    FlatConfig (touch ord h st n) := by
  unfold touch
  split
  · exact ⟨hh, nofun, hst⟩
  · exact plain_drainResets (hh.pushParents hord n) hst

theorem plain_setSource [DecidableEq V] (hord : ord.Lawful) (hh : PlainHeap h) (hst : Flat st) (i : ℕ)
    (v : V) : FlatConfig (setSource ord h st i v) := by
  have hset : PlainHeap (h.setValue i v) := hh.same rfl rfl rfl rfl
  unfold setSource
  split
  · exact ⟨hh, nofun, hst⟩
  · split
    · exact ⟨hset, nofun, hst⟩
    · split
      · exact ⟨hset.same rfl rfl rfl rfl, nofun, hst⟩
      · exact plain_touch hord hset hst _

theorem plain_runBody (hG : G.Plain) (hh : PlainHeap h) (hst : Flat st) (he : e.Watches) :
    FlatConfig (runBody G h st e) := by
  obtain ⟨i, rfl⟩ := he
  have hflat : Flat (.effect (.effect i) :: st) := flat_cons.mpr ⟨⟨i, rfl⟩, hst⟩
  refine ⟨hh.startEffect _, ⟨?_, hG.effects i _⟩, hflat⟩
  rintro n ⟨⟩
  exact ⟨i, rfl⟩

theorem plain_callEffect (hG : G.Plain) (hh : PlainHeap h) (hst : Flat st) (he : e.Watches) :
    FlatConfig (callEffect G h st e) := by
  have hstart : PlainHeap { h with started := update h.started e true } :=
    hh.same rfl rfl rfl rfl
  unfold callEffect
  split
  · exact ⟨hh, nofun, hst⟩
  · split
    · next c hc =>
      exact ⟨hstart.setCleanup e nofun, ⟨nofun, hh.cleanup e c hc⟩, flat_cons.mpr ⟨he, hst⟩⟩
    · exact plain_runBody hG hstart hst he

theorem plain_finalCleanup (hh : PlainHeap h) (hst : Flat st) (e : Node) : FlatConfig (finalCleanup h st e) := by
  unfold finalCleanup
  split
  · next c hc => exact ⟨hh.setCleanup e nofun, ⟨nofun, hh.cleanup e c hc⟩, hst⟩
  · exact ⟨hh, nofun, hst⟩

theorem plain_disposeEffect (hord : ord.Lawful) (hh : PlainHeap h) (hst : Flat st) (he : e.Watches) :
    FlatConfig (disposeEffect ord h st e) := by
  have hretired := hh.retire e
  have hcleared := hretired.clearParents e
  unfold disposeEffect
  dsimp only
  split
  · exact ⟨hh, nofun, hst⟩
  · split
    · exact plain_finalCleanup hcleared hst e
    · next p ps hps =>
      split
      · refine ⟨hcleared, fun n hn => hretired.parents e n ?_, flat_cons.mpr ⟨he, hst⟩⟩
        rw [hps]
        exact (hord _ _).mem_iff.mp hn
      · exact plain_finalCleanup hcleared hst e

theorem plain_dispose (hord : ord.Lawful) (hh : PlainHeap h) (hst : Flat st) (hd : d.Plain) :
    FlatConfig (dispose ord h st d) := by
  cases d with
  | source i =>
    simp only [dispose]
    split
    · exact ⟨hh, nofun, hst⟩
    · have hmarked : PlainHeap { h with disposed := update h.disposed (.source i) true } :=
        hh.same rfl rfl rfl rfl
      exact ⟨hmarked.clearParents _, fun n hn => hh.parents _ n ((hord _ _).mem_iff.mp hn), hst⟩
  | slot i =>
    simp only [dispose]
    split
    · exact ⟨hh, nofun, hst⟩
    · have hdropped : PlainHeap (h.dropCache (.slot i)) := hh.same rfl rfl rfl rfl
      have hretired := hdropped.retire (.slot i)
      exact ⟨hretired.clearParents _, fun n hn => hretired.parents _ n ((hord _ _).mem_iff.mp hn), hst⟩
  | computed i => cases hd

theorem plain_read (hh : PlainHeap h) (hst : Flat st) {r : Option Node} (hr : Owner r) {k : V → Code V}
    (hcode : (Code.read d k).Plain) : AskingConfig ⟨match r with
      | some e => h.subscribe d e
      | none => h, .get d, .inCode r d k :: st⟩ := by
  have hasks : Asks (.inCode r d k :: st) d := ⟨rfl, hcode.2, hr, hst⟩
  refine ⟨?_, hcode.1, hasks⟩
  cases r with
  | none => exact hh
  | some e => exact hh.subscribe hcode.1 (hr e rfl).isPlain

theorem plain_exec [DecidableEq V] (hord : ord.Lawful) (hh : PlainHeap h) (hst : Flat st)
    {r : Option Node} (hr : Owner r) {code : Code V} (hcode : code.Plain)
    (hread : ∀ d k, code ≠ .read d k) : FlatConfig (stepExec ord h st r code) := by
  have hthen (k : Code V) (hk : k.Plain) : Flat (.andThen r k :: st) := flat_cons.mpr ⟨⟨hr, hk⟩, hst⟩
  cases code with
  | done => exact ⟨hh, nofun, hst⟩
  | doneWith c =>
    refine ⟨hh, ?_, hst⟩
    rintro c ⟨⟩
    exact hcode
  | raise => exact ⟨hh, hst⟩
  | read d k => exact absurd rfl (hread d k)
  | write i v k => exact plain_setSource hord hh (hthen k hcode) i v
  | batch b k => exact ⟨hh.same rfl rfl rfl rfl, ⟨hr, hcode.1⟩, flat_cons.mpr ⟨trivial, hthen k hcode.2⟩⟩
  | call e k => exact ⟨hh, ⟨e, rfl⟩, hthen k hcode⟩
  | eager i k => cases hcode
  | lazy i k => cases hcode
  | dispose d k => exact plain_dispose hord hh (hthen k hcode.2) hcode.1
  | disposeEffect e k => exact plain_disposeEffect hord hh (hthen k hcode) ⟨e, rfl⟩
  | attempt b k => exact ⟨hh, ⟨hr, hcode.1⟩, flat_cons.mpr ⟨⟨hr, hcode.2⟩, hst⟩⟩

theorem plain_eval (hh : PlainHeap h) {i : ℕ} (hst : Asks st (.slot i)) {t : Comp V} (ht : t.Plain) :
    AskingConfig (stepEval h st (.slot i) t) := by
  cases t with
  | ret v => exact ⟨hh.same rfl rfl rfl rfl, _, hst⟩
  | raise => exact ⟨hh, _, hst⟩
  | read d k =>
    have hasks : Asks (.inSlot (.slot i) d k :: st) d := ⟨rfl, ht.2, i, rfl, hst⟩
    exact ⟨hh.subscribe ht.1 rfl, ht.1, hasks⟩

theorem plain_value [DecidableEq V] (hh : PlainHeap h) {v : V} (hst : Asks st d)
    (hs : stepValue G ord h v st = some c') : PlainConfig c' := by
  cases st with
  | nil => cases hst
  | cons f st =>
    cases f with
    | inSlot n d' k =>
      cases hs
      obtain ⟨-, hk, i, rfl, hst⟩ := hst
      exact .inr ⟨hh.same rfl rfl rfl rfl, hk v, i, rfl, hst⟩
    | inCode r d' k =>
      cases hs
      obtain ⟨-, hk, hr, hst⟩ := hst
      refine .inl ⟨?_, ⟨hr, hk v⟩, hst⟩
      cases r with
      | none => exact hh
      | some e => exact hh.same rfl rfl rfl rfl
    | _ => cases hst

section

variable (hord : ord.Lawful) (hh : PlainHeap h) (hst : Flat st)

include hord hh hst

theorem plain_invalidate {n : Node} (hn : n.isPlain = true) : FlatConfig (invalidate ord h st n) := by
  cases n with
  | slot i =>
    simp only [invalidate]
    split
    · exact ⟨hh, hst⟩
    · have hdropped : PlainHeap (h.dropCache (.slot i)) := hh.same rfl rfl rfl rfl
      exact ⟨hdropped.pushParents hord _, hst⟩
  | effect e =>
    have hcleared := hh.clearParents (.effect e)
    simp only [invalidate]
    split
    · exact ⟨hh, hst⟩
    · split
      · refine ⟨hcleared.shrink (fun _ _ => id) (fun _ => .inl) (fun m hm => ?_) fun _ _ => .inl, hst⟩
        obtain rfl | hm := mem_insertNode.mp hm
        · exact .inr ⟨e, rfl⟩
        · exact .inl hm
      · split
        · exact ⟨hcleared, ⟨e, rfl⟩, hst⟩
        · exact ⟨hcleared, hst⟩
  | _ => cases hn

theorem plain_dirty {ns : List Node} (hns : ∀ n ∈ ns, n.isPlain = true) : FlatConfig (stepDirty ord h st ns) := by
  cases ns with
  | nil => exact ⟨hh, nofun, hst⟩
  | cons n rest =>
    obtain ⟨hn, hrest⟩ := forall_mem_cons.mp hns
    simp only [stepDirty]
    split
    · exact ⟨hh, hrest, hst⟩
    · refine ⟨(hh.clearParents n).dropCached hn, fun m hm => ?_, hst⟩
      obtain hm | hm := mem_append.mp hm
      · exact hh.parents n m ((hord _ _).mem_iff.mp hm)
      · exact hrest m hm

theorem plain_loop (hs : stepLoop ord h st = some c') :
    FlatConfig c' := by
  cases st with
  | nil => cases hs
  | cons f st =>
    cases f with
    | drain =>
      simp only [stepLoop] at hs
      split at hs
      · cases hs
        exact ⟨hh.same rfl rfl rfl rfl, nofun, (flat_cons.mp hst).2⟩
      · next n rest hwork =>
        cases hs
        have hpopped : PlainHeap { h with work := rest } := by
          refine hh.shrink (fun _ _ => id) (fun m hm => .inl ?_) (fun _ => .inl) fun _ _ => .inl
          rw [hwork]
          exact mem_cons_of_mem _ hm
        refine plain_invalidate hord hpopped hst (hh.work n ?_)
        rw [hwork]
        exact mem_cons_self
    | _ => cases hs

theorem plain_endBatch (b : Bool) :
    FlatConfig (endBatch ord h st b) := by
  unfold endBatch
  split
  · exact ⟨hh.flushTouch hord, flat_cons.mpr ⟨trivial, flat_cons.mpr ⟨trivial, hst⟩⟩⟩
  · refine ⟨hh.same rfl rfl rfl rfl, ?_⟩
    cases b with
    | true => exact hst
    | false => exact ⟨nofun, hst⟩

end

theorem plain_nextRerun (hh : PlainHeap h) (hst : Flat st) (b : Bool) {es : List Node}
    (hes : ∀ e ∈ es, e.Watches) : FlatConfig (nextRerun h st b es) := by
  cases es with
  | nil =>
    refine ⟨hh.same rfl rfl rfl rfl, ?_⟩
    cases b with
    | true => exact hst
    | false => exact ⟨nofun, hst⟩
  | cons e rest =>
    obtain ⟨he, hrest⟩ := forall_mem_cons.mp hes
    have hflat : Flat (.rerun b rest :: st) := flat_cons.mpr ⟨hrest, hst⟩
    simp only [nextRerun]
    split
    · exact ⟨hh, nofun, hflat⟩
    · split
      · exact ⟨hh, he, hflat⟩
      · exact ⟨hh, nofun, hflat⟩

theorem plain_returned (hG : G.Plain) (hord : ord.Lawful) (hh : PlainHeap h) (hst : Flat st) {cl : Option (Code V)}
    (hcl : ∀ c, cl = some c → c.Plain) (hs : stepReturned G ord h cl st = some c') : FlatConfig c' := by
  cases st with
  | nil => cases hs
  | cons f st =>
    obtain ⟨hf, hrest⟩ := flat_cons.mp hst
    cases f with
    | andThen r c =>
      cases hs
      exact ⟨hh, hf, hrest⟩
    | drain =>
      cases hs
      exact ⟨hh, flat_cons.mpr ⟨trivial, hrest⟩⟩
    | effect e =>
      cases hs
      have hstored : PlainHeap { h with
          cleanup := update h.cleanup e (if e.isPuller = true then none else cl) } := by
        refine hh.setCleanup e fun c hc => ?_
        split at hc
        · cases hc
        · exact hcl c hc
      exact ⟨hstored.same rfl rfl rfl rfl, nofun, hrest⟩
    | cleanup e =>
      cases hs
      exact plain_runBody hG hh hrest hf
    | disposing e =>
      cases hs
      exact plain_finalCleanup hh hrest e
    | batch =>
      cases hs
      exact plain_endBatch hord hh hrest false
    | flushed b =>
      cases hs
      refine plain_nextRerun ?_ hrest b fun e he => hh.effects e ((hord _ _).mem_iff.mp he)
      exact hh.shrink (fun _ _ => id) (fun _ => .inl) (fun _ hm => by cases hm) fun _ _ => .inl
    | rerun b rest =>
      cases hs
      exact plain_nextRerun hh hrest b hf
    | attempt r k =>
      cases hs
      exact ⟨hh, hf, hrest⟩
    | _ => cases hf

theorem plain_raised (hord : ord.Lawful) (hh : PlainHeap h) (hst : Flat st) (hs : stepRaised ord h st = some c') :
    FlatConfig c' := by
  cases st with
  | nil => cases hs
  | cons f st =>
    obtain ⟨hf, hrest⟩ := flat_cons.mp hst
    cases f with
    | batch =>
      cases hs
      exact plain_endBatch hord hh hrest true
    | attempt r k =>
      cases hs
      exact ⟨hh, hf, hrest⟩
    | inSlot _ _ _ | inCode _ _ _ | pull _ _ | rearmed _ | rearmSlot _ => cases hf
    | _ =>
      cases hs
      exact ⟨hh.same rfl rfl rfl rfl, hrest⟩

theorem plain_unwind (hh : PlainHeap h) (hst : Asks st d) (hs : stepRaised ord h st = some c') : PlainConfig c' := by
  cases st with
  | nil => cases hst
  | cons f st =>
    cases f with
    | inSlot n d' k =>
      cases hs
      obtain ⟨-, -, i, -, hrest⟩ := hst
      exact .inr ⟨hh, _, hrest⟩
    | inCode r d' k =>
      cases hs
      exact .inl ⟨hh, hst.2.2.2⟩
    | _ => cases hst

end Cases

variable [DecidableEq V] {G : Graph V} {ord : Enum}

/-- With no read in progress, only a read starts one. -/
theorem flat_step (hG : G.Plain) (hord : ord.Lawful) (hc : FlatConfig c)
    (hread : ∀ r d k, c.ctl ≠ .exec r (.read d k)) (hs : step G ord c = some c') : FlatConfig c' := by
  obtain ⟨h, t, st⟩ := c
  obtain ⟨hh, hctl⟩ := hc
  cases t with
  | exec r code =>
    cases hs
    refine plain_exec hord hh hctl.2 hctl.1.1 hctl.1.2 ?_
    rintro d k rfl
    exact hread r d k rfl
  | call e =>
    cases hs
    exact plain_callEffect hG hh hctl.2 hctl.1
  | loop => exact plain_loop hord hh hctl hs
  | dirty ns =>
    cases hs
    exact plain_dirty hord hh hctl.2 hctl.1
  | returned cl => exact plain_returned hG hord hh hctl.2 hctl.1 hs
  | raised => exact plain_raised hord hh hctl hs
  | get _ | eval _ _ | value _ => cases hctl

theorem asking_step (hG : G.Plain) (hc : AskingConfig c) (hs : step G ord c = some c') :
    PlainConfig c' := by
  obtain ⟨h, t, st⟩ := c
  obtain ⟨hh, hctl⟩ := hc
  cases t with
  | get d =>
    cases hs
    exact .inr (plain_getRef hG hh hctl.1 hctl.2)
  | eval n t =>
    cases hs
    obtain ⟨ht, i, rfl, hst⟩ := hctl
    exact .inr (plain_eval hh hst ht)
  | value v =>
    obtain ⟨d, hst⟩ := hctl
    exact plain_value hh hst hs
  | raised =>
    obtain ⟨d, hst⟩ := hctl
    exact plain_unwind hh hst hs
  | exec _ _ | call _ | loop | dirty _ | returned _ => cases hctl

theorem plain_step (hG : G.Plain) (hord : ord.Lawful) (hc : PlainConfig c) (hs : step G ord c = some c') :
    PlainConfig c' := by
  obtain hc | hc := hc
  · by_cases hread : ∃ r d k, c.ctl = .exec r (.read d k)
    · obtain ⟨h, t, st⟩ := c
      obtain ⟨r, d, k, rfl⟩ := hread
      cases hs
      exact .inr (plain_read hc.heap hc.ctl.2 hc.ctl.1.1 hc.ctl.1.2)
    · exact .inl (flat_step hG hord hc (fun r d k heq => hread ⟨r, d, k, heq⟩) hs)
  · exact asking_step hG hc hs

inductive PlainStep (G : Graph V) : Config V → Config V → Prop
  | tick {c c' : Config V} (ord : Enum) : ord.Lawful → step G ord c = some c' → PlainStep G c c'
  | issue {c : Config V} (code : Code V) : c.Idle → code.Plain → PlainStep G c (c.issue code)

end LazilyPy.Reactive

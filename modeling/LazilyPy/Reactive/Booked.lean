import LazilyPy.Reactive.Moves
import LazilyPy.Reactive.Preservation

/-!
# What an effect has recorded

Between two of its runs an effect has subscribed to the nodes that its latest run has read, and to the backing memos
of those that were lazy at the time.
-/

namespace LazilyPy.Reactive

open List

variable {V : Type}

/-- Whatever `m` has recorded is a slot, or has handed a value to the latest run, or is about to. -/
def Booked (m : Node) (h : Heap V) (st : List (Frame V)) : Prop :=
  ∀ n ∈ h.deps m, n.isSlot = true ∨ (∃ w, (n, w) ∈ h.reads m) ∨ ∃ d k, Frame.inCode (some m) d k ∈ st ∧ d.node = n

/-- The node has recorded nothing new and has lost no value that it read, or it starts again. -/
def Books (m : Node) (h h' : Heap V) : Prop :=
  ((∀ n ∈ h'.deps m, n ∈ h.deps m) ∧ ∀ r ∈ h.reads m, r ∈ h'.reads m) ∨ h'.deps m = []

/-- A step from `h` above `st` neither adds to the record of the node nor takes a frame off. -/
structure Files (m : Node) (h : Heap V) (st : List (Frame V)) (c' : Config V) : Prop where
  heap : Books m h c'.heap
  stack : ∀ f ∈ st, f ∈ c'.stack

namespace Books

variable {m : Node} {h h' h'' : Heap V}

theorem of_eq (hdeps : h'.deps = h.deps) (hreads : h'.reads = h.reads) : Books m h h' :=
  .inl ⟨fun _ hn => hdeps ▸ hn, fun _ hr => hreads ▸ hr⟩

theorem refl (h : Heap V) : Books m h h :=
  .of_eq rfl rfl

theorem trans (hb : Books m h h') (hb' : Books m h' h'') : Books m h h'' := by
  obtain ⟨hdeps', hreads'⟩ | hnil := hb'
  · obtain ⟨hdeps, hreads⟩ | hnil := hb
    · exact .inl ⟨fun n hn => hdeps n (hdeps' n hn), fun r hr => hreads' r (hreads r hr)⟩
    · refine .inr (eq_nil_iff_forall_not_mem.mpr fun n hn => ?_)
      have hmem := hdeps' n hn
      simp [hnil] at hmem
  · exact .inr hnil

theorem registerEdge (h : Heap V) (d : Node) {r : Node} (hr : r ≠ m) : Books m h (h.registerEdge d r) :=
  .inl ⟨fun n hn => by simpa [Heap.registerEdge, Ne.symm hr] using hn, fun _ => id⟩

theorem subscribe (h : Heap V) (d : Ref) {r : Node} (hr : r ≠ m) : Books m h (h.subscribe d r) := by
  cases d with
  | source i => exact registerEdge h _ hr
  | slot i => exact registerEdge h _ hr
  | computed i =>
    simp only [Heap.subscribe]
    split
    · exact registerEdge h _ hr
    · exact (registerEdge h _ hr).trans (registerEdge _ _ hr)

theorem startCompute (h : Heap V) (n : Node) : Books m h (h.startCompute n) := by
  by_cases hm : m = n
  · subst hm
    exact .inr (by simp [Heap.startCompute])
  · refine .inl ⟨fun d hd => by simpa [Heap.startCompute, hm] using hd, fun r hr => ?_⟩
    simpa [Heap.startCompute, hm] using hr

theorem startEffect (h : Heap V) (n : Node) : Books m h (h.startEffect n) := by
  by_cases hm : m = n
  · subst hm
    exact .inr (by simp [Heap.startEffect, Heap.detachFromDependencies])
  · refine .inl ⟨fun d hd => ?_, fun r hr => ?_⟩
    · simpa [Heap.startEffect, Heap.detachFromDependencies, hm] using hd
    · simpa [Heap.startEffect, Heap.detachFromDependencies, hm] using hr

theorem retire (h : Heap V) (n : Node) : Books m h (h.retire n) := by
  by_cases hm : m = n
  · subst hm
    exact .inr (by simp [Heap.retire, Heap.detachFromDependencies])
  · refine .inl ⟨fun d hd => ?_, fun r hr => ?_⟩
    · simpa [Heap.retire, Heap.detachFromDependencies, hm] using hd
    · simpa [Heap.retire, Heap.detachFromDependencies, hm] using hr

theorem record (h : Heap V) (n d : Node) (v : V) : Books m h (h.record n d v) := by
  refine .inl ⟨fun _ => id, fun r hr => ?_⟩
  by_cases hm : m = n
  · subst hm
    simp [Heap.record, hr]
  · simpa [Heap.record, hm] using hr

end Books

namespace Booked

variable {m : Node} {h h' : Heap V} {st : List (Frame V)}

theorem of_books {st' : List (Frame V)} (hb : Booked m h st) (hh : Books m h h') (hst : ∀ f ∈ st, f ∈ st') :
    Booked m h' st' := by
  intro n hn
  obtain ⟨hdeps, hreads⟩ | hnil := hh
  · obtain hslot | ⟨w, hw⟩ | ⟨d, k, hframe, hd⟩ := hb n (hdeps n hn)
    · exact .inl hslot
    · exact .inr (.inl ⟨w, hreads _ hw⟩)
    · exact .inr (.inr ⟨d, k, hst _ hframe, hd⟩)
  · simp [hnil] at hn

/-- A frame that waits for no read of the node is taken off. -/
theorem pop {f : Frame V} (hb : Booked m h (f :: st)) (hf : ∀ d k, f ≠ .inCode (some m) d k) : Booked m h st := by
  intro n hn
  obtain hslot | hread | ⟨d, k, hframe, hd⟩ := hb n hn
  · exact .inl hslot
  · exact .inr (.inl hread)
  · exact .inr (.inr ⟨d, k, (mem_cons.mp hframe).resolve_left (Ne.symm (hf d k)), hd⟩)

theorem files {c' : Config V} (hb : Booked m h st) (hf : Files m h st c') : Booked m c'.heap c'.stack :=
  hb.of_books hf.heap hf.stack

/-- The node subscribes to what it is about to read. -/
theorem subscribe (hb : Booked m h st) (d : Ref) (k : V → Code V) :
    Booked m (h.subscribe d m) (.inCode (some m) d k :: st) := by
  have hedge : ∀ (h₁ : Heap V) (n : Node), (n.isSlot = true ∨ n = d.node) →
      Booked m h₁ (.inCode (some m) d k :: st) → Booked m (h₁.registerEdge n m) (.inCode (some m) d k :: st) := by
    intro h₁ n hn hb₁ n' hn'
    have hcases : n' = n ∨ n' ∈ h₁.deps m := by simpa [Heap.registerEdge] using hn'
    obtain rfl | hold := hcases
    · exact hn.imp id fun heq => .inr ⟨d, k, mem_cons_self, heq.symm⟩
    · exact hb₁ n' hold
  have hpush := hb.of_books (.refl h) fun f hf => mem_cons_of_mem (.inCode (some m) d k) hf
  cases d with
  | source i => exact hedge h _ (.inr rfl) hpush
  | slot i => exact hedge h _ (.inr rfl) hpush
  | computed i =>
    simp only [Heap.subscribe]
    split
    · exact hedge h _ (.inr rfl) hpush
    · exact hedge _ _ (.inl rfl) (hedge h _ (.inr rfl) hpush)

/-- What was about to be read has been read. -/
theorem record {d : Ref} {k : V → Code V} (hb : Booked m h (.inCode (some m) d k :: st)) (v : V) :
    Booked m (h.record m d.node v) st := by
  intro n hn
  obtain hslot | ⟨w, hw⟩ | ⟨d', k', hframe, hd⟩ := hb n hn
  · exact .inl hslot
  · exact .inr (.inl ⟨w, by simp [Heap.record, hw]⟩)
  · obtain heq | hmem := mem_cons.mp hframe
    · cases heq
      exact .inr (.inl ⟨v, by simp [Heap.record, hd]⟩)
    · exact .inr (.inr ⟨d', k', hmem, hd⟩)

end Booked

section Cases

variable {G : Graph V} {ord : Enum} {h : Heap V} {st : List (Frame V)} {m : Node}

theorem Files.same {c' : Config V} (hh : Books m h c'.heap) (hst : c'.stack = st) : Files m h st c' :=
  ⟨hh, fun _ hf => hst ▸ hf⟩

theorem Files.push {c' : Config V} {f : Frame V} (hh : Books m h c'.heap) (hst : c'.stack = f :: st) :
    Files m h st c' :=
  ⟨hh, fun _ hf => hst ▸ mem_cons_of_mem _ hf⟩

theorem Files.of_push {h₁ : Heap V} {c' : Config V} {f : Frame V} (hf : Files m h₁ (f :: st) c')
    (hh : Books m h h₁) : Files m h st c' :=
  ⟨hh.trans hf.heap, fun f' hf' => hf.stack f' (mem_cons_of_mem _ hf')⟩

theorem Files.of_books {h₁ : Heap V} {c' : Config V} (hf : Files m h₁ st c') (hh : Books m h h₁) : Files m h st c' :=
  ⟨hh.trans hf.heap, hf.stack⟩

theorem files_callSlot (G : Graph V) (h : Heap V) (st : List (Frame V)) (n : Node) :
    Files m h st (callSlot G h st n) := by
  unfold callSlot
  split
  · exact .same (.refl h) rfl
  · split
    · exact .same (.refl h) rfl
    · exact .same (.startCompute h n) rfl

theorem files_touch (n : Node) : Files m h st (touch ord h st n) := by
  unfold touch
  split
  · exact .same (.refl h) rfl
  · unfold drainResets
    split
    · exact .same (.of_eq rfl rfl) rfl
    · exact .push (.of_eq rfl rfl) rfl

theorem files_getRef (G : Graph V) (d : Ref) : Files m h st (getRef G h st d) := by
  cases d with
  | source i =>
    simp only [getRef]
    split
    · exact .same (.refl h) rfl
    · exact .same (.refl h) rfl
  | slot i => exact files_callSlot G h st _
  | computed i =>
    simp only [getRef, getComputed]
    split
    · split
      · split
        · split
          · exact (files_callSlot G _ _ _).of_push (.of_eq rfl rfl)
          · exact .push (.of_eq rfl rfl) rfl
        · exact (files_callSlot G _ _ _).of_push (.of_eq rfl rfl)
      · exact .same (.refl h) rfl
    · exact files_callSlot G h st _

theorem files_runBody (G : Graph V) (hm : m.isPuller = false) (e : Node) : Files m h st (runBody G h st e) := by
  cases e with
  | effect i => exact .push (.startEffect h _) rfl
  | puller i k =>
    have hne : Node.puller i k ≠ m := by
      rintro rfl
      cases hm
    have hstart : Books m h ((h.startEffect (.puller i k)).registerEdge (.memo i) (.puller i k)) :=
      (Books.startEffect h _).trans (.registerEdge _ _ hne)
    exact ((files_callSlot G _ _ _).of_push (.refl _)).of_push hstart
  | _ => exact .same (.refl h) rfl

theorem files_callEffect (G : Graph V) (hm : m.isPuller = false) (e : Node) : Files m h st (callEffect G h st e) := by
  simp only [callEffect]
  split
  · exact .same (.refl h) rfl
  · split
    · exact .push (.of_eq rfl rfl) rfl
    · exact (files_runBody G hm e).of_books (.of_eq rfl rfl)

theorem files_finalCleanup (e : Node) : Files m h st (finalCleanup h st e) := by
  unfold finalCleanup
  split
  · exact .same (.of_eq rfl rfl) rfl
  · exact .same (.refl h) rfl

theorem files_disposeEffect (e : Node) : Files m h st (disposeEffect ord h st e) := by
  have hretire : Books m h ((h.retire e).clearParents e) := (Books.retire h e).trans (.of_eq rfl rfl)
  simp only [disposeEffect]
  split
  · exact .same (.refl h) rfl
  · split
    · exact (files_finalCleanup e).of_books hretire
    · split
      · exact .push hretire rfl
      · exact (files_finalCleanup e).of_books hretire

theorem files_lazyComputed (i : ℕ) : Files m h st (lazyComputed ord h st i) := by
  unfold lazyComputed
  split
  · split
    · exact (files_disposeEffect _).of_books (.of_eq rfl rfl)
    · exact .same (.of_eq rfl rfl) rfl
  · exact .same (.refl h) rfl

theorem files_invalidate (hm : m.isSlot = false) (n : Node) : Files m h st (invalidate ord h st n) := by
  have hdrop : n.isSlot = true → Books m h (h.invalidateSlot ord n) := by
    intro hn
    have hne : m ≠ n := by
      rintro rfl
      simp [hn] at hm
    refine .inl ⟨fun _ => id, fun r hr => ?_⟩
    simpa [Heap.invalidateSlot, Heap.pushParents, Heap.dropCache, hne] using hr
  cases n with
  | slot i | memo i =>
    simp only [invalidate]
    split
    · exact .same (.refl h) rfl
    · exact .same (hdrop rfl) rfl
  | effect i | puller i k =>
    simp only [invalidate]
    split
    · exact .same (.refl h) rfl
    · split
      · exact .same (.of_eq rfl rfl) rfl
      · split
        · exact .same (.of_eq rfl rfl) rfl
        · exact .same (.of_eq rfl rfl) rfl
  | source i | computed i => exact .same (.refl h) rfl

theorem files_endBatch (b : Bool) : Files m h st (endBatch ord h st b) := by
  unfold endBatch
  split
  · have heq := Heap.touchAll_eq ord (ord none h.pendingCells) { h with pendingCells := [] }
    have hdeps := congrArg Heap.deps heq
    have hreads := congrArg Heap.reads heq
    refine ⟨.of_eq hdeps hreads, fun f hf => ?_⟩
    exact mem_cons_of_mem _ (mem_cons_of_mem _ hf)
  · exact .same (.of_eq rfl rfl) rfl

theorem files_nextRerun (b : Bool) (es : List Node) : Files m h st (nextRerun h st b es) := by
  unfold nextRerun
  split
  · exact .same (.of_eq rfl rfl) rfl
  · split
    · exact .push (.refl h) rfl
    · split
      · exact .push (.refl h) rfl
      · exact .push (.refl h) rfl

theorem booked_returned (hm : m.isPuller = false) (hb : Booked m h st) {cl : Option (Code V)} {c' : Config V}
    (hs : stepReturned G ord h cl st = some c') : Booked m c'.heap c'.stack := by
  cases st with
  | nil => cases hs
  | cons f st =>
    cases f with
    | andThen r c | attempt r c | rearmed i =>
      cases hs
      exact hb.pop nofun
    | drain =>
      cases hs
      exact hb
    | effect e =>
      cases hs
      exact (hb.pop nofun).of_books (.of_eq rfl rfl) fun _ => id
    | cleanup e =>
      cases hs
      exact (hb.pop nofun).files (files_runBody G hm e)
    | disposing e =>
      cases hs
      exact (hb.pop nofun).files (files_finalCleanup e)
    | batch =>
      cases hs
      exact (hb.pop nofun).files (files_endBatch false)
    | flushed b =>
      cases hs
      exact (hb.pop nofun).files ((files_nextRerun b _).of_books (.of_eq rfl rfl))
    | rerun b rest =>
      cases hs
      exact (hb.pop nofun).files (files_nextRerun b rest)
    | _ => cases hs

variable [DecidableEq V]

theorem files_setSource (i : ℕ) (v : V) : Files m h st (setSource ord h st i v) := by
  unfold setSource
  split
  · exact .same (.refl h) rfl
  · split
    · exact .same (.of_eq rfl rfl) rfl
    · split
      · exact .same (.of_eq rfl rfl) rfl
      · exact (files_touch _).of_books (.of_eq rfl rfl)

theorem files_pulled (p : Node) (i : ℕ) (v : V) : Files m h st (pulled G ord h st p i v) := by
  have hset : Books m h ((h.record p (.memo i) v).setHandle i v) := (Books.record h p _ v).trans (.of_eq rfl rfl)
  simp only [pulled]
  split
  · exact .same hset rfl
  · split
    · exact (files_touch _).of_books hset
    · exact .same (.record h p _ v) rfl

theorem booked_exec (hb : Booked m h st) {r : Option Node} {S : Instr → Prop} (hS : ¬ S .dispose) {code : Code V}
    (hcode : code.Within S) : Booked m (stepExec ord h st r code).heap (stepExec ord h st r code).stack := by
  cases code with
  | done | doneWith c | raise => exact hb
  | read d k =>
    cases r with
    | none => exact hb.of_books (.refl h) fun f hf => mem_cons_of_mem _ hf
    | some n =>
      by_cases hn : n = m
      · subst hn
        exact hb.subscribe d k
      · exact hb.of_books (.subscribe h d hn) fun f hf => mem_cons_of_mem _ hf
  | write i v k =>
    have hset : Files m h (.andThen r k :: st) (setSource ord h (.andThen r k :: st) i v) := files_setSource i v
    exact hb.files (hset.of_push (.refl h))
  | batch b k =>
    exact hb.of_books (.of_eq rfl rfl) fun f hf => mem_cons_of_mem _ (mem_cons_of_mem _ hf)
  | call e k => exact hb.of_books (.refl h) fun f hf => mem_cons_of_mem _ hf
  | eager i k =>
    simp only [stepExec]
    split
    · exact hb
    · exact hb.of_books (.of_eq rfl rfl) fun f hf => mem_cons_of_mem _ hf
  | lazy i k =>
    have hlazy : Files m h (.andThen r k :: st) (lazyComputed ord h (.andThen r k :: st) i) := files_lazyComputed i
    exact hb.files (hlazy.of_push (.refl h))
  | dispose d k => exact absurd hcode.1 hS
  | disposeEffect e k => exact absurd hcode.1 hS
  | attempt b k => exact hb.of_books (.refl h) fun f hf => mem_cons_of_mem _ hf

theorem booked_value (hb : Booked m h st) {v : V} {c' : Config V} (hs : stepValue G ord h v st = some c') :
    Booked m c'.heap c'.stack := by
  cases st with
  | nil => cases hs
  | cons f st =>
    cases f with
    | inSlot n d k =>
      cases hs
      exact (hb.pop nofun).of_books (.record h n _ v) fun _ => id
    | inCode r d k =>
      cases hs
      cases r with
      | none => exact (hb.pop nofun).of_books (.refl h) fun _ => id
      | some n =>
        by_cases hn : n = m
        · subst hn
          exact hb.record v
        · refine (hb.pop fun d' k' heq => ?_).of_books (.record h n _ v) fun _ => id
          cases heq
          exact hn rfl
    | pull p i =>
      cases hs
      exact (hb.pop nofun).files (files_pulled p i v)
    | rearmSlot i =>
      cases hs
      exact (hb.pop nofun).of_books (.of_eq rfl rfl) fun _ => id
    | _ => cases hs

end Cases

section Runs

variable [DecidableEq V] {G : Graph V} {S : Instr → Prop} {ord : Enum} {c c' : Config V} {m : Node}

/-- A step that propagates no exception and disposes nothing keeps the record of an effect. -/
theorem booked_step (hS : ¬ S .dispose) (hi : Inv G S c) (hm : m.isEffect = true) (hpuller : m.isPuller = false)
    (hb : Booked m c.heap c.stack) (hs : step G ord c = some c') : Booked m c'.heap c'.stack := by
  have hslot : m.isSlot = false := by cases m <;> simp_all [Node.isSlot, Node.isEffect]
  obtain ⟨h, t, st⟩ := c
  have hfits := hi.fits
  change Booked m h st at hb
  cases t with
  | exec r code =>
    cases hs
    exact booked_exec hb hS hfits.2.1
  | get d =>
    cases hs
    exact hb.files (files_getRef G d)
  | eval n t =>
    cases hs
    have hn : n ≠ m := by
      rintro rfl
      have heval : InEval G h n t := hfits.1
      simp [heval.1] at hslot
    cases t with
    | ret v => exact hb.of_books (.of_eq rfl rfl) fun _ => id
    | raise => exact hb
    | read d k => exact hb.of_books (.subscribe h d hn) fun f hf => mem_cons_of_mem _ hf
  | value v => exact booked_value hb hs
  | call e =>
    cases hs
    exact hb.files (files_callEffect G hpuller e)
  | loop =>
    cases st with
    | nil => cases hs
    | cons f st =>
      cases f with
      | drain =>
        simp only [step, stepLoop] at hs
        split at hs
        · cases hs
          exact (hb.pop (by simp)).of_books (.of_eq rfl rfl) fun _ => id
        · cases hs
          exact hb.files ((files_invalidate hslot _).of_books (.of_eq rfl rfl))
      | _ => cases hs
  | dirty ns => exact hfits.elim
  | returned cl => exact booked_returned hpuller hb hs
  | raised => exact hfits.elim

/-- Between two calls of the client, an effect that has a node among what it depends on has been handed a value by
it, or depends on a slot. -/
theorem recorded_of_edge (hS : ¬ S .dispose) (hG : S .call → ∀ i r, (G.effectBody i r).Within S)
    {ok : Config V → Prop} (hok : ∀ c, ok c → Calm c) {σ : ℕ → V}
    (hrun : Run G S ok (Config.init σ) c) (hidle : c.Idle) (hquiet : c.ctl ≠ .raised) {e : ℕ} {n : Node}
    (hedge : .effect e ∈ c.heap.parents n) (hn : n.isSlot = false) : ∃ w, (n, w) ∈ c.heap.reads (.effect e) := by
  have hkept : (c.ctl ≠ .raised → Booked (.effect e) c.heap c.stack) ∧ Backed c.heap := by
    clear hidle hquiet hedge
    induction hrun with
    | refl =>
      constructor
      · rintro _ n ⟨⟩
      · rintro e n _ ⟨⟩
    | @tail c c' hrun hstep ih =>
      obtain ⟨hc, hstep⟩ := hstep
      have hcalm := hok c hc
      cases hstep with
      | tick ord hord hs =>
        have hi := inv_run hS hG hok (inv_init σ) hrun hcalm.quiet
        exact ⟨fun _ => booked_step hS hi rfl rfl (ih.1 hcalm.quiet) hs, (moves_step hord hs).moves.edges.backed ih.2⟩
      | issue code hidle _ => exact ⟨fun _ => ih.1 hcalm.quiet, ih.2⟩
  obtain hslot | hread | ⟨d, k, hframe, -⟩ := hkept.1 hquiet n (hkept.2 (.effect e) n rfl hedge)
  · simp [hn] at hslot
  · exact hread
  · simp [hidle.1] at hframe

end Runs

end LazilyPy.Reactive

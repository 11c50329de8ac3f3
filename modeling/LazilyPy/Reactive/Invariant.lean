import LazilyPy.Reactive.Machine
import LazilyPy.Reactive.Trace

/-!
# The invariant of the machine

What the call stack must look like for the heap to satisfy `HeapInv`: reads only happen in
a block of frames at the top of the stack, in which each frame is linked to the value that
it waits for, and nothing below that block waits for a value.
-/

namespace LazilyPy.Reactive

open List

variable {V : Type}

def Ctl.Owes : Ctl V → Node → Prop
  | .call e, m => m = e
  | _, _ => False

def Frame.Owes : Frame V → Node → Prop
  | .rerun _ rest, m => m ∈ rest
  | .cleanup e, m => m = e
  | _, _ => False

/-- The node is on the work-stack, or it is an effect that is to be rerun. -/
def Config.Queued (c : Config V) (m : Node) : Prop :=
  m ∈ c.heap.work ∨ m.isEffect = true ∧ (m ∈ c.heap.pendingEffects ∨ c.ctl.Owes m ∨ ∃ f ∈ c.stack, f.Owes m)

/-- The current puller of `computed i` is about to run, or waits for the memo. -/
def Config.Pulling (c : Config V) (i : ℕ) : Prop :=
  (∃ k, c.ctl = .call (.puller i k) ∧ c.heap.puller i = some k) ∨ ∃ p, .pull p i ∈ c.stack

def Reader (h : Heap V) (r : Option Node) : Prop :=
  ∀ e, r = some e → (∃ i, e = .effect i) ∧ h.started e = true

/-- A frame that waits for no value, with its code within `S`. -/
def Frame.Settled (S : Instr → Prop) (h : Heap V) : Frame V → Prop
  | .andThen r c | .attempt r c => Reader h r ∧ c.Within S
  | .cleanup e => (∃ i, e = .effect i) ∧ h.started e = true
  | .rerun _ rest => ∀ e ∈ rest, e.isEffect = true
  | .drain | .effect _ | .batch | .flushed _ => True
  | _ => False

def Settled (S : Instr → Prop) (h : Heap V) (st : List (Frame V)) : Prop :=
  ∀ f ∈ st, f.Settled S h

/-- The callable of `n` has started and not returned. -/
def Evaluating (n : Node) (st : List (Frame V)) : Prop :=
  ∃ d k, Frame.inSlot n d k ∈ st

/-- `t` is what the recorded reads of `n` leave of its callable. -/
def InEval (G : Graph V) (h : Heap V) (n : Node) (t : Comp V) : Prop :=
  n.isSlot = true ∧ h.cache n = none ∧ (G.callable n).follow (h.reads n) = some t

/-- `m` has subscribed to `d`. -/
def Linked (h : Heap V) (m : Node) (d : Ref) : Prop :=
  d.node ∈ h.deps m ∧ m ∈ h.parents d.node ∧ ∀ i, d = .computed i → h.eager i = false → m ∈ h.parents (.memo i)

/-- The slot object whose value a read of `d` returns. -/
def Serves (h : Heap V) (n : Node) : Ref → Prop
  | .source _ => False
  | .slot i => n = .slot i
  | .computed i => n = .memo i ∧ h.eager i = false

/-- The object whose value a read of `d` returns while `d` is lazy. -/
def Ref.object : Ref → Node
  | .source i => .source i
  | .slot i => .slot i
  | .computed i => .memo i

/-- The value of the memo `n` goes to the puller on top of the stack. -/
def PullsAt (S : Instr → Prop) (h : Heap V) (n : Node) (st : List (Frame V)) : Prop :=
  ∃ i k st', n = .memo i ∧ st = .pull (.puller i k) i :: .effect (.puller i k) :: st' ∧ Armed h i k ∧ Settled S h st'

/-- The stack waits for the value of `d`. -/
def Waits (G : Graph V) (S : Instr → Prop) (h : Heap V) : List (Frame V) → Ref → Prop
  | .inSlot m d' k :: st, d =>
    d' = d ∧ Linked h m d ∧ InEval G h m (.read d k) ∧ ¬ Evaluating m st ∧
      ((∃ d₂, Serves h m d₂ ∧ Waits G S h st d₂) ∨ PullsAt S h m st)
  | .inCode r d' k :: st, d =>
    d' = d ∧ (∀ e, r = some e → Linked h e d) ∧ Reader h r ∧ (∀ v, (k v).Within S) ∧ Settled S h st
  | _, _ => False

/-- The stack waits for the value of the slot object `n`. -/
def Awaits (G : Graph V) (S : Instr → Prop) (h : Heap V) (n : Node) (st : List (Frame V)) : Prop :=
  ¬ Evaluating n st ∧ ((∃ d, Serves h n d ∧ Waits G S h st d) ∨ PullsAt S h n st)

/-- The value `v` is what the top frame waits for. -/
def Receives (G : Graph V) (S : Instr → Prop) (h : Heap V) (v : V) : List (Frame V) → Prop
  | .inSlot m d k :: st =>
    Seen G (fun _ => False) h m v d.node ∧ d.node ∈ h.deps m ∧ InEval G h m (.read d k) ∧ Awaits G S h m st
  | .inCode r d k :: st =>
    (∀ e, r = some e → Seen G (fun _ => False) h e v d.node ∧ d.node ∈ h.deps e) ∧
      Reader h r ∧ (∀ v, (k v).Within S) ∧ Settled S h st
  | .pull p i :: st =>
    h.cache (.memo i) = some v ∧ ∃ k st', p = .puller i k ∧ st = .effect p :: st' ∧ Armed h i k ∧ Settled S h st'
  | _ => False

/-- An effect that may be called: a puller only while it is current. -/
def Callable (h : Heap V) (e : Node) : Prop :=
  e.isEffect = true ∧ ∀ i k, e = .puller i k →
    k < h.minted i ∧ (h.disposed e = true ∨ h.eager i = true ∧ h.puller i = some k)

def Fits (G : Graph V) (S : Instr → Prop) (h : Heap V) (st : List (Frame V)) : Ctl V → Prop
  | .exec r c => Reader h r ∧ c.Within S ∧ Settled S h st
  | .get d => Waits G S h st d
  | .eval n t => InEval G h n t ∧ Awaits G S h n st
  | .value v => Receives G S h v st
  | .call e => Callable h e ∧ (∀ i, e = .effect i → S .call) ∧ Settled S h st
  | .loop => .drain ∈ st.head? ∧ Settled S h st
  | .returned cl => (∀ c, cl = some c → c.Within S) ∧ Settled S h st
  | .dirty _ | .raised => False

/-- Effects start where `S` allows calls, cleanup closures stay within `S`, only effects are
pending, and there is work only while a drain is on the stack. -/
structure Orderly (S : Instr → Prop) (h : Heap V) (st : List (Frame V)) : Prop where
  called : ∀ i, h.started (.effect i) = true → S .call
  within : ∀ e code, h.cleanup e = some code → code.Within S
  pending : ∀ e ∈ h.pendingEffects, e.isEffect = true
  busy : h.work ≠ [] → h.active = true
  active : h.active = true → .drain ∈ st

structure Inv (G : Graph V) (S : Instr → Prop) (c : Config V) : Prop where
  heap : HeapInv G c.Queued c.Pulling c.heap
  fits : Fits G S c.heap c.stack c.ctl
  orderly : Orderly S c.heap c.stack

/-- What a step from `c` must not do: propagate an exception, read what is under evaluation,
drop the puller of a computed whose readers depend on it alone, or take the edges of an
effect that is running. -/
structure Calm (c : Config V) : Prop where
  quiet : c.ctl ≠ .raised
  wellFounded : ∀ d, c.ctl = .get d → ¬ Evaluating d.object c.stack
  lazySafe : ∀ r i code k, c.ctl = .exec r (.lazy i code) → c.heap.eager i = true →
    c.heap.puller i = some k → ∀ m w, (.computed i, w) ∈ c.heap.reads m → c.Queued m ∨
      m ∈ c.heap.parents (.memo i) ∧ ¬ c.Queued (.puller i k)
  notReentered : ∀ m rest, c.ctl = .loop → c.heap.work = m :: rest → m.isEffect = true →
    c.heap.disposed m = false → c.heap.running m = false

/-- A check that is enough for `Calm`. -/
def calmCheck (c : Config V) : Bool :=
  match c.ctl with
  | .raised => false
  | .exec _ (.lazy _ _) => false
  | .get d => c.stack.all fun f => match f with
    | .inSlot n _ _ => n ≠ d.object
    | _ => true
  | .loop =>
    match c.heap.work with
    | m :: _ => !(m.isEffect && !c.heap.disposed m && c.heap.running m)
    | [] => true
  | _ => true

theorem calm_of_check {c : Config V} (h : calmCheck c = true) : Calm c where
  quiet := by
    intro hctl
    simp [calmCheck, hctl] at h
  wellFounded := by
    rintro d hctl ⟨d', k, hmem⟩
    simp only [calmCheck, hctl] at h
    simpa using all_eq_true.mp h _ hmem
  lazySafe := by
    intro r i code k hctl
    simp [calmCheck, hctl] at h
  notReentered := by
    intro m rest hctl hwork he hd
    simpa [calmCheck, hctl, hwork, he, hd] using h

/-- A change to the record and the cache of `n` that adds edges only. -/
structure Extends (n : Node) (h h' : Heap V) : Prop where
  reads : ∀ m, m ≠ n → h'.reads m = h.reads m
  cache : ∀ m, m ≠ n → h'.cache m = h.cache m
  parents : ∀ m d, m ∈ h.parents d → m ∈ h'.parents d
  deps : ∀ m d, m ≠ n → d ∈ h.deps m → d ∈ h'.deps m
  eager : h'.eager = h.eager
  puller : h'.puller = h.puller
  started : h'.started = h.started

section Stability

variable {G : Graph V} {S : Instr → Prop} {n m : Node} {h h' : Heap V} {st : List (Frame V)} {d : Ref}

theorem Extends.subscribe (h : Heap V) (n : Node) (d : Ref) (r : Node) : Extends n h (h.subscribe d r) := by
  have hedge : ∀ (h : Heap V) (d : Node), Extends n h (h.registerEdge d r) := fun h d =>
    { reads := fun _ _ => rfl
      cache := fun _ _ => rfl
      parents := by
        intro m d' hm
        by_cases hd : d' = d
        · subst hd
          simp [Heap.registerEdge, hm]
        · simpa [Heap.registerEdge, hd] using hm
      deps := by
        intro m d' _ hd'
        by_cases hm : m = r
        · subst hm
          simp [Heap.registerEdge, hd']
        · simpa [Heap.registerEdge, hm] using hd'
      eager := rfl
      puller := rfl
      started := rfl }
  cases d with
  | source i => exact hedge h _
  | slot i => exact hedge h _
  | computed i =>
    simp only [Heap.subscribe]
    split
    · exact hedge h _
    · have h₁ := hedge h (.computed i)
      have h₂ := hedge (h.registerEdge (.computed i) r) (.memo i)
      exact
      { reads := fun _ _ => rfl
        cache := fun _ _ => rfl
        parents := fun m d hm => h₂.parents m d (h₁.parents m d hm)
        deps := fun m d hm hd => h₂.deps m d hm (h₁.deps m d hm hd)
        eager := rfl
        puller := rfl
        started := rfl }

theorem Extends.startCompute (h : Heap V) (n : Node) : Extends n h (h.startCompute n) where
  reads := fun m hm => by simp [Heap.startCompute, hm]
  cache := fun _ _ => rfl
  parents := fun _ _ => id
  deps := fun m d hm hd => by simpa [Heap.startCompute, hm] using hd
  eager := rfl
  puller := rfl
  started := rfl

theorem Extends.setCache (h : Heap V) (n : Node) (v : V) : Extends n h (h.setCache n v) where
  reads := fun _ _ => rfl
  cache := fun m hm => by simp [Heap.setCache, hm]
  parents := fun _ _ => id
  deps := fun _ _ _ => id
  eager := rfl
  puller := rfl
  started := rfl

theorem Extends.record (h : Heap V) (n d : Node) (v : V) : Extends n h (h.record n d v) where
  reads := fun m hm => by simp [Heap.record, hm]
  cache := fun _ _ => rfl
  parents := fun _ _ => id
  deps := fun _ _ _ => id
  eager := rfl
  puller := rfl
  started := rfl

/-- Subscribing links the reader. -/
theorem linked_subscribe (h : Heap V) (d : Ref) (m : Node) : Linked (h.subscribe d m) m d := by
  cases d with
  | source i => simp [Linked, Heap.subscribe, Heap.registerEdge, Ref.node]
  | slot i => simp [Linked, Heap.subscribe, Heap.registerEdge, Ref.node]
  | computed i =>
    by_cases he : h.eager i = true
    · simp [Linked, Heap.subscribe, Heap.registerEdge, Ref.node, he]
    · simp [Linked, Heap.subscribe, Heap.registerEdge, Ref.node, he]

theorem Reader.mono {r : Option Node} (hr : Reader h r)
    (hs : ∀ e, h.started e = true → h'.started e = true) : Reader h' r :=
  fun e he => ⟨(hr e he).1, hs e (hr e he).2⟩

theorem Settled.mono (hst : Settled S h st)
    (hs : ∀ e, h.started e = true → h'.started e = true) : Settled S h' st := by
  intro f hf
  have hfs := hst f hf
  cases f with
  | andThen r c => exact ⟨hfs.1.mono hs, hfs.2⟩
  | attempt r c => exact ⟨hfs.1.mono hs, hfs.2⟩
  | cleanup e => exact ⟨hfs.1, hs e hfs.2⟩
  | _ => exact hfs

theorem Settled.tail {f : Frame V} (hst : Settled S h (f :: st)) : Settled S h st :=
  fun f' hf' => hst f' (mem_cons_of_mem _ hf')

theorem Settled.cons {f : Frame V} (hf : f.Settled S h) (hst : Settled S h st) : Settled S h (f :: st) := by
  intro f' hf'
  rcases mem_cons.mp hf' with rfl | hmem
  · exact hf
  · exact hst f' hmem

section

variable (hx : Extends n h h')

include hx

theorem Extends.reader {r : Option Node} (hr : Reader h r) : Reader h' r :=
  hr.mono fun _ he => hx.started ▸ he

theorem Extends.settled (hst : Settled S h st) : Settled S h' st :=
  hst.mono fun _ he => hx.started ▸ he

theorem Extends.linked (hm : m ≠ n) (hl : Linked h m d) : Linked h' m d :=
  ⟨hx.deps _ _ hm hl.1, hx.parents _ _ hl.2.1, fun i hi he => hx.parents _ _ (hl.2.2 i hi (hx.eager ▸ he))⟩

theorem Extends.inEval (hm : m ≠ n) {t : Comp V} (he : InEval G h m t) : InEval G h' m t :=
  ⟨he.1, (hx.cache m hm).trans he.2.1, (hx.reads m hm).symm ▸ he.2.2⟩

theorem Extends.serves (hs : Serves h m d) : Serves h' m d := by
  cases d with
  | computed i => exact ⟨hs.1, hx.eager ▸ hs.2⟩
  | _ => exact hs

end

section

variable (hx : Extends n h h') (hn : n.isSlot = true)

include hx hn

theorem Extends.armed {i k : ℕ} (ha : Armed h i k) : Armed h' i k := by
  have hne : Node.puller i k ≠ n := by
    rintro rfl
    cases hn
  exact
  { eager := hx.eager ▸ ha.eager
    puller := hx.puller ▸ ha.puller
    started := hx.started ▸ ha.started
    reads := (hx.reads _ hne).trans ha.reads
    deps := hx.deps _ _ hne ha.deps
    parents := hx.parents _ _ ha.parents }

theorem Extends.pullsAt (hp : PullsAt S h m st) : PullsAt S h' m st := by
  obtain ⟨i, k, st', hm, hst, ha, hs⟩ := hp
  exact ⟨i, k, st', hm, hst, hx.armed hn ha, hx.settled hs⟩

/-- The waiting frames survive a change to a slot that none of them evaluates. -/
theorem Extends.waits (hne : ¬ Evaluating n st) (hw : Waits G S h st d) : Waits G S h' st d := by
  induction st generalizing d with
  | nil => exact hw
  | cons f st ih =>
    have hne' : ¬ Evaluating n st := fun ⟨d', k, hf⟩ =>
      hne ⟨d', k, mem_cons_of_mem _ hf⟩
    cases f with
    | inSlot m d' k =>
      obtain ⟨rfl, hl, he, hm, hrest⟩ := hw
      have hmn : m ≠ n := by
        rintro rfl
        exact hne ⟨d', k, mem_cons_self⟩
      refine ⟨rfl, hx.linked hmn hl, hx.inEval hmn he, hm, ?_⟩
      rcases hrest with ⟨d₂, hs, hw'⟩ | hp
      · exact .inl ⟨d₂, hx.serves hs, ih hne' hw'⟩
      · exact .inr (hx.pullsAt hn hp)
    | inCode r d' k =>
      obtain ⟨rfl, hl, hr, hk, hs⟩ := hw
      refine ⟨rfl, fun e he => hx.linked ?_ (hl e he), hx.reader hr, hk, hx.settled hs⟩
      obtain ⟨⟨i, rfl⟩, _⟩ := hr e he
      rintro rfl
      cases hn
    | _ => exact hw

theorem Extends.awaits (hne : ¬ Evaluating n st) (hw : Awaits G S h m st) : Awaits G S h' m st := by
  refine ⟨hw.1, ?_⟩
  rcases hw.2 with ⟨d, hs, hw'⟩ | hp
  · exact .inl ⟨d, hx.serves hs, hx.waits hn hne hw'⟩
  · exact .inr (hx.pullsAt hn hp)

end

theorem Settled.not_pull (hst : Settled S h st) {p : Node} {i : ℕ} : Frame.pull p i ∉ st :=
  fun hmem => hst _ hmem

theorem Settled.not_evaluating (hst : Settled S h st) : ¬ Evaluating n st :=
  fun ⟨_, _, hmem⟩ => hst _ hmem

/-- While a read waits, a puller waits only for the memo under evaluation. -/
theorem Waits.evaluating (hw : Waits G S h st d) {p : Node} {i : ℕ}
    (hp : Frame.pull p i ∈ st) : Evaluating (.memo i) st := by
  induction st generalizing d with
  | nil => cases hp
  | cons f st ih =>
    cases f with
    | inSlot m d' k =>
      obtain ⟨rfl, _, _, _, ⟨d₂, _, hw'⟩ | ⟨i', k', st', rfl, rfl, _, hs⟩⟩ := hw
      · obtain ⟨d₁, k₁, hmem⟩ := ih hw' (by simpa using hp)
        exact ⟨d₁, k₁, mem_cons_of_mem _ hmem⟩
      · rcases hp with _ | ⟨_, _ | ⟨_, _ | ⟨_, hp⟩⟩⟩
        · exact ⟨d', k, mem_cons_self⟩
        · exact absurd hp hs.not_pull
    | inCode r d' k =>
      obtain ⟨_, _, _, _, hs⟩ := hw
      exact absurd (by simpa using hp) hs.not_pull
    | _ => exact hw.elim

/-- A cached value is what the waiting frame gets. -/
theorem Awaits.receives {v : V} (hw : Awaits G S h n st) (hv : h.cache n = some v) : Receives G S h v st := by
  obtain ⟨_, ⟨d, hs, hw'⟩ | ⟨i, k, st', rfl, rfl, ha, hst⟩⟩ := hw
  · have hseen : ∀ m, Linked h m d → Seen G (fun _ => False) h m v d.node := by
      intro m hl
      cases d with
      | source i => exact hs.elim
      | slot i => exact ⟨hl.2.1, hs ▸ hv⟩
      | computed i =>
        obtain ⟨rfl, he⟩ := hs
        refine ⟨hl.2.1, .inr ⟨fun he' => ?_, hl.2.2 i rfl he, v, hv, fun _ => rfl⟩⟩
        simp [he] at he'
    cases st with
    | nil => exact hw'.elim
    | cons f st =>
      cases f with
      | inSlot m d' k =>
        obtain ⟨rfl, hl, he, hrest⟩ := hw'
        exact ⟨hseen m hl, hl.1, he, hrest⟩
      | inCode r d' k =>
        obtain ⟨rfl, hl, hr, hk, hst⟩ := hw'
        exact ⟨fun e he => ⟨hseen e (hl e he), (hl e he).1⟩, hr, hk, hst⟩
      | _ => exact hw'.elim
  · exact ⟨hv, k, st', rfl, rfl, ha, hst⟩

/-- A value on offer at the node itself is what the waiting frame gets. -/
theorem Waits.receives {v : V} (hw : Waits G S h st d)
    (hseen : ∀ m, Linked h m d → Seen G (fun _ => False) h m v d.node) :
    Receives G S h v st := by
  cases st with
  | nil => exact hw.elim
  | cons f st =>
    cases f with
    | inSlot m d' k =>
      obtain ⟨rfl, hl, he, hrest⟩ := hw
      exact ⟨hseen m hl, hl.1, he, hrest⟩
    | inCode r d' k =>
      obtain ⟨rfl, hl, hr, hk, hst⟩ := hw
      exact ⟨fun e he => ⟨hseen e (hl e he), (hl e he).1⟩, hr, hk, hst⟩
    | _ => exact hw.elim

end Stability

end LazilyPy.Reactive

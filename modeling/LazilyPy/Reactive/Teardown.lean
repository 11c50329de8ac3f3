import LazilyPy.Reactive.Walk

/-!
# Teardown scopes

`teardown.py`. A scope disposes what it has adopted, in the reverse order. The disposal of a node drops the
values of everything that depends on it, and of nothing else as long as every slot among the dependents has
recorded what it depends on. `Slot.__call__` forgets its record without leaving the dependents of what it had
read, so a slot may lose its value with a node that its last evaluation has not read.
-/

namespace LazilyPy.Reactive

open List Function
open Config (ReturnedTo isIdle_idle)

variable {V : Type}

/-! ## The source -/

/-- A `Source`, a `Slot` or an `Effect`. -/
def Node.Disposable : Node → Prop
  | .source _ | .slot _ | .effect _ => True
  | _ => False

/-- `dispose_node(node, ctx)`. What is neither an effect nor a source is handed the context, which `Computed.dispose`
does not take. The backing memo and the pullers of a `Computed` are handed to nobody. -/
def disposeNode (n : Node) (k : Code V) : Code V :=
  match n with
  | .source i => .dispose (.source i) k
  | .slot i => .dispose (.slot i) k
  | .computed _ => .raise
  | .effect e => .disposeEffect e k
  | .memo _ | .puller _ _ => k

structure TeardownScope where
  owned : List Node
  armed : Bool

namespace TeardownScope

def init : TeardownScope where
  owned := []
  armed := true

def adopt (n : Node) (s : TeardownScope) : TeardownScope :=
  { s with owned := s.owned ++ [n] }

def disarm (_ : TeardownScope) : TeardownScope where
  owned := []
  armed := false

def close (s : TeardownScope) : TeardownScope × Code V :=
  if s.armed then ({ s with owned := [] }, s.owned.reverse.foldr disposeNode .done)
  else (s, .done)

end TeardownScope

/-! ## One disposal -/

variable [DecidableEq V] {G : Graph V} {Q : Config V → Prop} {st st₀ : List (Frame V)} {h h' : Heap V} {n : Node}

omit [DecidableEq V] in
theorem mem_parents_retire {a b : Node} (hb : b ∈ h.parents a) (hne : b ≠ n) : b ∈ (h.retire n).parents a := by
  simp only [Heap.retire, Heap.detachFromDependencies]
  split
  · simpa [hne] using hb
  · exact hb

omit [DecidableEq V] in
theorem parents_retire_subset (a : Node) : (h.retire n).parents a ⊆ h.parents a := by
  intro b hb
  simp only [Heap.retire, Heap.detachFromDependencies] at hb
  split at hb
  · exact mem_of_mem_filter hb
  · exact hb

omit [DecidableEq V] in
theorem parents_clearParents_subset (a : Node) : (h.clearParents n).parents a ⊆ h.parents a := by
  intro b hb
  by_cases ha : a = n
  · subst ha
    simp [Heap.clearParents] at hb
  · simpa [Heap.clearParents, ha] using hb

variable {r : Option Node} {k : Code V}

theorem until_source {i : ℕ} (hh : PlainHeap h)
    (hdone : ∀ h', PlainHeap h' → Torn (.source i) h h' →
      Until (Tick G) (ReturnedTo st₀) Q ⟨h', .returned none, .andThen r k :: st⟩) :
    Until (Tick G) (ReturnedTo st₀) Q ⟨h, .exec r (.dispose (.source i) k), st⟩ := by
  refine until_of_step not_returnedTo_exec (fun ord => dispose ord h (.andThen r k :: st) (.source i))
    (fun _ => rfl) fun ord hord => ?_
  simp only [dispose]
  split
  · next hdead => exact hdone h hh (torn_self hdead)
  · next hlive =>
    have hlive : h.disposed (.source i) = false := by simpa using hlive
    have hmarked : PlainHeap { h with disposed := update h.disposed (.source i) true } :=
      hh.same rfl rfl rfl rfl
    have hcleared := hmarked.clearParents (.source i)
    obtain ⟨nodes, hout⟩ := hcleared.finite
    refine until_dirty hcleared hout (fun m hm => hh.parents _ m ((hord _ _).mem_iff.mp hm)) le_rfl
      fun h' hh' hw => hdone h' hh' (torn_of_walked hw hlive rfl (fun a => parents_clearParents_subset a)
        (fun a b hb _ ha => ?_) (by simp) (fun _ _ => rfl) rfl (fun _ _ hc => hc)
        (fun a ha => (hord _ _).mem_iff.mp ha) fun a ha _ => (hord _ _).mem_iff.mpr ha)
    simpa [Heap.clearParents, ha] using hb

theorem until_slot {i : ℕ} (hh : PlainHeap h)
    (hdone : ∀ h', PlainHeap h' → Torn (.slot i) h h' →
      Until (Tick G) (ReturnedTo st₀) Q ⟨h', .returned none, .andThen r k :: st⟩) :
    Until (Tick G) (ReturnedTo st₀) Q ⟨h, .exec r (.dispose (.slot i) k), st⟩ := by
  refine until_of_step not_returnedTo_exec (fun ord => dispose ord h (.andThen r k :: st) (.slot i))
    (fun _ => rfl) fun ord hord => ?_
  simp only [dispose]
  split
  · next hdead => exact hdone h hh (torn_self hdead)
  · next hlive =>
    have hlive : h.disposed (.slot i) = false := by simpa using hlive
    have hdropped : PlainHeap (h.dropCache (.slot i)) := hh.same rfl rfl rfl rfl
    have hretired := hdropped.retire (.slot i)
    have hcleared := hretired.clearParents (.slot i)
    obtain ⟨nodes, hout⟩ := hcleared.finite
    refine until_dirty hcleared hout (fun m hm => hretired.parents _ m ((hord _ _).mem_iff.mp hm)) le_rfl
      fun h' hh' hw => hdone h' hh' (torn_of_walked hw hlive rfl ?_ (fun a b hb hne ha => ?_) ?_
        (fun m hm => update_of_ne hm _ _) rfl (fun _ _ hc => hc) ?_ ?_)
    · exact fun a => Subset.trans (parents_clearParents_subset a) (parents_retire_subset a)
    · have hkept : b ∈ ((h.dropCache (.slot i)).retire (.slot i)).parents a := mem_parents_retire hb hne
      simpa [Heap.clearParents, ha] using hkept
    · rintro j -
      exact update_self _ _ _
    · exact fun a ha => parents_retire_subset _ ((hord _ _).mem_iff.mp ha)
    · exact fun a ha hne => (hord _ _).mem_iff.mpr (mem_parents_retire ha hne)

/-- No node depends on an effect, so only its cleanup is left to run. -/
theorem until_effect {e : ℕ} (hh : PlainHeap h) (hcleanup : ∀ c, h.cleanup (.effect e) = some c → c.Harmless)
    (hlen : st₀.length ≤ st.length + 1)
    (hdone : ∀ h' cl, PlainHeap h' → Torn (.effect e) h h' →
      Until (Tick G) (ReturnedTo st₀) Q ⟨h', .returned cl, .andThen r k :: st⟩) :
    Until (Tick G) (ReturnedTo st₀) Q ⟨h, .exec r (.disposeEffect e k), st⟩ := by
  refine until_of_step not_returnedTo_exec
    (fun ord => disposeEffect ord h (.andThen r k :: st) (.effect e)) (fun _ => rfl) fun ord hord => ?_
  have hnone : (h.retire (.effect e)).parents (.effect e) = [] := (hh.retire _).leaves e
  simp only [disposeEffect]
  split
  · next hdead => exact hdone h none hh (torn_self hdead)
  · next hlive =>
    have hlive : h.disposed (.effect e) = false := by simpa using hlive
    have hcleared := (hh.retire (.effect e)).clearParents (.effect e)
    have htorn : ∀ h₁ : Heap V, h₁.parents = ((h.retire (.effect e)).clearParents (.effect e)).parents →
        h₁.disposed = (h.retire (.effect e)).disposed → h₁.cache = h.cache → h₁.runs = h.runs →
        (∀ m c, h₁.cleanup m = some c → h.cleanup m = some c) → Torn (.effect e) h h₁ := by
      intro h₁ hparents hdisposed hcache hruns hclean
      refine torn_of_walked (walked_nil h₁) hlive hdisposed (fun a => ?_) (fun a b hb hne ha => ?_) (by simp)
        (fun m _ => congrFun hcache m) hruns hclean (fun _ ha => by cases ha) ?_
      · rw [hparents]
        exact Subset.trans (parents_clearParents_subset a) (parents_retire_subset a)
      · have hkept : b ∈ (h.retire (.effect e)).parents a := mem_parents_retire hb hne
        rw [hparents]
        simpa [Heap.clearParents, ha] using hkept
      · intro a ha
        rw [hh.leaves e] at ha
        cases ha
    split
    · simp only [finalCleanup]
      split
      · next c hc =>
        have hplain : PlainHeap { (h.retire (.effect e)).clearParents (.effect e) with
            cleanup := update h.cleanup (.effect e) none } := hcleared.setCleanup _ (by simp)
        refine until_harmless (hcleanup c hc) hlen fun cl => hdone _ cl hplain (htorn _ rfl rfl rfl rfl ?_)
        intro m c' hc'
        by_cases hm : m = .effect e
        · subst hm
          simp [Heap.clearParents, Heap.retire, Heap.detachFromDependencies] at hc'
        · simpa [Heap.clearParents, Heap.retire, Heap.detachFromDependencies, hm] using hc'
      · exact hdone _ none hcleared (htorn _ rfl rfl rfl rfl fun _ _ hc => hc)
    · next hps =>
      rw [hnone] at hps
      cases hps

theorem until_disposeNode (hn : n.Disposable) (hh : PlainHeap h) (hcleanup : ∀ c, h.cleanup n = some c → c.Harmless)
    (hlen : st₀.length ≤ st.length + 1)
    (hdone : ∀ h' cl, PlainHeap h' → Torn n h h' →
      Until (Tick G) (ReturnedTo st₀) Q ⟨h', .returned cl, .andThen r k :: st⟩) :
    Until (Tick G) (ReturnedTo st₀) Q ⟨h, .exec r (disposeNode n k), st⟩ := by
  cases n with
  | source i => exact until_source hh fun h' => hdone h' none
  | slot i => exact until_slot hh fun h' => hdone h' none
  | effect e => exact until_effect hh hcleanup hlen hdone
  | _ => cases hn

/-! ## Several disposals -/

omit [DecidableEq V] in
/-- The disposals of some nodes, one after another, have taken `h` to `h'`. -/
inductive Tears : List Node → Heap V → Heap V → Prop
  | nil (h : Heap V) : Tears [] h h
  | cons {n : Node} {ns : List Node} {h h₁ h' : Heap V} (htorn : Torn n h h₁) (hrest : Tears ns h₁ h') :
    Tears (n :: ns) h h'

theorem until_disposeAll {ns : List Node} (hns : ∀ n ∈ ns, n.Disposable) (hh : PlainHeap h)
    (hcleanup : ∀ n ∈ ns, ∀ c, h.cleanup n = some c → c.Harmless)
    (hdone : ∀ h', Tears ns h h' → Q ⟨h', .returned none, st⟩) :
    Until (Tick G) (ReturnedTo st) Q ⟨h, .exec r (ns.foldr disposeNode .done), st⟩ := by
  induction ns generalizing h with
  | nil =>
    refine until_of_step not_returnedTo_exec (fun _ => _) (fun _ => rfl) fun _ _ => ?_
    exact .here ⟨rfl, none, rfl⟩ (hdone h (.nil h))
  | cons n ns ih =>
    obtain ⟨hn, hrest⟩ := forall_mem_cons.mp hns
    obtain ⟨hclean, hcleans⟩ := forall_mem_cons.mp hcleanup
    refine until_disposeNode hn hh hclean (Nat.le_succ _) fun h₁ cl hh₁ htorn => ?_
    refine until_of_step (not_returnedTo le_rfl) (fun _ => _) (fun _ => rfl) fun _ _ => ?_
    refine ih hrest hh₁ (fun m hm c hc => hcleans m hm c (htorn.cleanup m c hc)) fun h' htears => ?_
    exact hdone h' (.cons htorn htears)

omit [DecidableEq V] in
/-- What another disposal reaches after the disposal of `n`. -/
theorem gone_after {h₁ : Heap V} (ht : Torn n h h₁) (m : Node) {a : Node} :
    Gone h n a ∨ Gone h₁ m a ↔ Gone h n a ∨ Gone h m a := by
  by_cases hdead : h.disposed n = true
  · rw [ht.idle hdead]
  have hlive : h.disposed n = false := by simpa using hdead
  have halive : ∀ b, h₁.Alive b ↔ h.Alive b ∧ b ≠ n := by
    intro b
    have hdisposed := ht.disposed b
    simp only [Heap.Alive, ← Bool.not_eq_true, hdisposed]
    tauto
  by_cases hm : h.disposed m = false ∧ m ≠ n
  · have hm₁ : h₁.disposed m = false := (halive m).mpr hm
    have hafter := swept_after (a := a) halive (fun b c hc => ht.subset b hc)
      (fun b c hc hcn hbn hs => ht.parents b c hc hcn fun hg => hs (hg.2.resolve_left hbn)) hm.1 hm.2
    simp only [Gone, hlive, hm.1, hm₁, true_and]
    tauto
  · have hgone₁ : ¬ Gone h₁ m a := fun hg => hm ((halive m).mp hg.1)
    refine ⟨fun hg => .inl (hg.resolve_right hgone₁), fun hg => .inl (hg.elim id fun hg => ?_)⟩
    have heq : m = n := by
      by_contra hne
      exact hm ⟨hg.1, hne⟩
    exact heq ▸ hg

omit [DecidableEq V] in
/-- What the disposals leave speaks of the heap before all of them. -/
theorem tears_spec {ns : List Node} (ht : Tears ns h h') :
    (∀ i, (∃ n ∈ ns, Gone h n (.slot i)) → h'.cache (.slot i) = none) ∧
    (∀ m, (¬ ∃ n ∈ ns, Gone h n m) → h'.cache m = h.cache m) ∧
    (∀ m, h'.disposed m = true ↔ h.disposed m = true ∨ m ∈ ns) ∧ h'.runs = h.runs := by
  induction ht with
  | nil h =>
    refine ⟨?_, fun _ _ => rfl, fun m => ?_, rfl⟩
    · rintro i ⟨n, hn, -⟩
      cases hn
    · simp
  | @cons n ns h h₁ h' htorn _ ih =>
    obtain ⟨hdropped, hkept, hdisposed, hruns⟩ := ih
    refine ⟨fun i hgone => ?_, fun m hgone => ?_, fun m => ?_, hruns.trans htorn.runs⟩
    · by_cases hlater : ∃ m ∈ ns, Gone h₁ m (.slot i)
      · exact hdropped i hlater
      · have hfirst : Gone h n (.slot i) := by
          obtain ⟨m, hm, hg⟩ := hgone
          obtain rfl | hm := mem_cons.mp hm
          · exact hg
          · exact ((gone_after htorn m).mpr (.inr hg)).resolve_right fun hg₁ => hlater ⟨m, hm, hg₁⟩
        exact (hkept _ hlater).trans (htorn.dropped i hfirst)
    · have hn : ¬ Gone h n m := fun hg => hgone ⟨n, mem_cons_self, hg⟩
      refine (hkept m ?_).trans (htorn.kept m hn)
      rintro ⟨a, ha, hg⟩
      exact hgone ⟨a, mem_cons_of_mem _ ha, ((gone_after htorn a).mp (.inr hg)).resolve_left hn⟩
    · rw [hdisposed, htorn.disposed, mem_cons, or_assoc]

/-! ## What depends on a node -/

/-- The last evaluation of slot `i` depended on `n`, directly or through other slots. -/
inductive Heap.DependsOn (h : Heap V) (n : Node) : ℕ → Prop
  | direct {i : ℕ} (hn : n ∈ h.deps (.slot i)) : h.DependsOn n i
  | through {i j : ℕ} (hj : .slot j ∈ h.deps (.slot i)) (hn : h.DependsOn n j) : h.DependsOn n i

/-- Every slot with a value among the dependents of `n`, or of what the walk from `n` reaches, has recorded what
it is a dependent of. -/
def Heap.Recorded (h : Heap V) (n : Node) : Prop :=
  ∀ d i, d = n ∨ Swept h.parents h.Alive (h.parents n) d → .slot i ∈ h.parents d →
    h.cache (.slot i) ≠ none → d ∈ h.deps (.slot i)

section Depending

variable {c : Config V}

omit [DecidableEq V] in
/-- With no read and no wave in progress, what a slot with a value has recorded has answers. -/
theorem Reliant.answer_ne_none (hr : Reliant G c) (hflat : FlatConfig c) (hwait : ∀ m, ¬ c.Waiting m) {i : ℕ}
    {d : Ref} (hcache : c.heap.cache (.slot i) ≠ none) (hd : d.node ∈ c.heap.deps (.slot i)) :
    c.heap.answer d ≠ none := by
  obtain hw | hans | ⟨k, hframe⟩ := hr.based i d hd (.inl hcache)
  · exact absurd hw (hwait _)
  · exact hans
  · exact absurd hframe hflat.flat.not_inSlot

omit [DecidableEq V] in
theorem Reliant.alive (hr : Reliant G c) {i : ℕ} (hcache : c.heap.cache (.slot i) ≠ none) :
    c.heap.Alive (.slot i) := by
  by_contra hdead
  have hdisposed : c.heap.disposed (.slot i) = true := by simpa [Heap.Alive] using hdead
  exact hcache ((hr.retired i hdisposed).2.2 rfl)

omit [DecidableEq V] in
/-- A slot whose value depends on a node is reached from it. -/
theorem gone_of_dependsOn (hr : Reliant G c) (hflat : FlatConfig c) (hwait : ∀ m, ¬ c.Waiting m)
    (hn : n.Disposable) {i : ℕ} (hdep : c.heap.DependsOn n i) (hcache : c.heap.cache (.slot i) ≠ none) :
    Gone c.heap n (.slot i) := by
  have hedge : ∀ {i d}, c.heap.cache (.slot i) ≠ none → d ∈ c.heap.deps (.slot i) →
      .slot i ∈ c.heap.parents d := fun hcache hd =>
    (hr.attached _ (.inl hcache)).resolve_left (hwait _) _ hd
  induction hdep with
  | @direct i hd =>
    refine ⟨?_, .inr (.root (hedge hcache hd) (hr.alive hcache))⟩
    cases n with
    | source j =>
      have hans := hr.answer_ne_none (d := .source j) hflat hwait hcache hd
      by_contra hdead
      exact hans (if_pos (by simpa using hdead))
    | slot j => exact hr.alive (hr.answer_ne_none (d := .slot j) hflat hwait hcache hd)
    | effect e => cases hr.unread _ _ hd
    | _ => cases hn
  | @through i j hj _ ih =>
    have hcached : c.heap.cache (.slot j) ≠ none := hr.answer_ne_none (d := .slot j) hflat hwait hcache hj
    obtain ⟨hlive, heq | hswept⟩ := ih hcached
    · exact ⟨hlive, .inr (.root (heq ▸ hedge hcache hj) (hr.alive hcache))⟩
    · exact ⟨hlive, .inr (.next hswept (hedge hcache hj) (hr.alive hcache))⟩

omit [DecidableEq V] in
theorem swept_isPlain (hh : PlainHeap h) {m : Node} (hs : Swept h.parents h.Alive (h.parents n) m) :
    m.isPlain = true := by
  cases hs with
  | root hm _ => exact hh.parents _ _ hm
  | next _ hm _ => exact hh.parents _ _ hm

omit [DecidableEq V] in
/-- A slot with a value is reached from what it depends on only, when every slot has recorded what it is a
dependent of. -/
theorem dependsOn_of_gone (hr : Reliant G c) (hflat : FlatConfig c) (hwait : ∀ m, ¬ c.Waiting m)
    (hrecorded : c.heap.Recorded n) {i : ℕ} (hne : .slot i ≠ n) (hgone : Gone c.heap n (.slot i))
    (hcache : c.heap.cache (.slot i) ≠ none) : c.heap.DependsOn n i := by
  have hswept := hgone.2.resolve_left hne
  generalize hm : Node.slot i = m at hswept
  induction hswept generalizing i with
  | @root m hroot _ =>
    subst hm
    exact .direct (hrecorded n i (.inl rfl) hroot hcache)
  | @next a b ha hb _ ih =>
    subst hm
    have hd := hrecorded a i (.inr ha) hb hcache
    cases a with
    | slot j =>
      by_cases hjn : Node.slot j = n
      · exact .direct (hjn ▸ hd)
      · have hcached : c.heap.cache (.slot j) ≠ none := hr.answer_ne_none (d := .slot j) hflat hwait hcache hd
        exact .through hd (ih hjn ⟨hgone.1, .inr ha⟩ hcached rfl)
    | effect e =>
      rw [hr.plain.heap.leaves e] at hb
      cases hb
    | _ =>
      have hplain := swept_isPlain hr.plain.heap ha
      cases hplain

end Depending

/-- In every reachable graph of sources, slots and effects, from where no wave is in progress and none has been
abandoned: the disposal of a node, with a cleanup that leaves the graph alone and does not raise, drops the value
of every slot whose last evaluation depended on the node, and of no other slot if those among the dependents have
recorded what they are dependents of; it runs no callable and no body. From everywhere: what closing a scope
leaves does not depend on the order in which it has adopted its nodes. -/
theorem teardown_exact (hG : G.Plain) {σ : ℕ → V} {c : Config V}
    (hrun : Relation.ReflTransGen (PlainStep G) (Config.init σ) c) (r : Option Node) :
    (∀ n k, n.Disposable → c.ctl = .exec r (disposeNode n k) → c.heap.work = [] →
      (∀ cl, c.heap.cleanup n = some cl → cl.Harmless) →
      Until (Tick G) (Config.ReturnedTo (.andThen r k :: c.stack))
        (fun c' => (∀ i, c'.heap.disposed (.slot i) = false → c.heap.DependsOn n i → c'.heap.cache (.slot i) = none) ∧
          (c.heap.Recorded n → ∀ i, .slot i ≠ n → ¬ c.heap.DependsOn n i →
            c'.heap.cache (.slot i) = c.heap.cache (.slot i)) ∧
          c'.heap.runs = c.heap.runs) c) ∧
    ∀ ns, (∀ n ∈ ns, n.Disposable) → (∀ n ∈ ns, ∀ cl, c.heap.cleanup n = some cl → cl.Harmless) →
      ∃ (cache : ℕ → Option V) (disposed : Node → Bool), ∀ s : TeardownScope, s.armed = true →
        s.owned.Perm ns → Until (Tick G) (Config.ReturnedTo c.stack)
          (fun c' => (∀ i, c'.heap.cache (.slot i) = cache i) ∧ c'.heap.disposed = disposed ∧
            c'.heap.runs = c.heap.runs) { c with ctl := .exec r s.close.2 } := by
  have hr := reliant_run hG hrun
  refine ⟨fun n k hn hctl hwork hcleanup => ?_, fun ns hns hcleanup => ?_⟩
  · have hflat : FlatConfig c := hr.plain.flat (by rw [hctl]; exact id)
    have hwait : ∀ m, ¬ c.Waiting m := by
      rintro m (hm | ⟨ns, heq, -⟩)
      · rw [hwork] at hm
        cases hm
      · rw [hctl] at heq
        cases heq
    have hspec : ∀ h', Torn n c.heap h' → (∀ i, h'.disposed (.slot i) = false → c.heap.DependsOn n i →
          h'.cache (.slot i) = none) ∧
        (c.heap.Recorded n → ∀ i, .slot i ≠ n → ¬ c.heap.DependsOn n i →
          h'.cache (.slot i) = c.heap.cache (.slot i)) ∧ h'.runs = c.heap.runs := by
      intro h' htorn
      refine ⟨fun i _ hdep => ?_, fun hrecorded i hne hdep => ?_, htorn.runs⟩
      · by_cases hgone : Gone c.heap n (.slot i)
        · exact htorn.dropped i hgone
        · by_contra hcache
          rw [htorn.kept _ hgone] at hcache
          exact hgone (gone_of_dependsOn hr hflat hwait hn hdep hcache)
      · by_cases hgone : Gone c.heap n (.slot i)
        · rw [htorn.dropped i hgone]
          by_contra hcache
          exact hdep (dependsOn_of_gone hr hflat hwait hrecorded hne hgone (Ne.symm hcache))
        · exact htorn.kept _ hgone
    obtain ⟨h, t, st⟩ := c
    cases hctl
    exact until_disposeNode hn hr.plain.heap hcleanup le_rfl fun h' cl _ htorn =>
      .here ⟨rfl, cl, rfl⟩ (hspec h' htorn)
  · classical
    refine ⟨fun i => if ∃ n ∈ ns, Gone c.heap n (.slot i) then none else c.heap.cache (.slot i),
      fun m => c.heap.disposed m || decide (m ∈ ns), fun s harmed hperm => ?_⟩
    have hmem : ∀ n, n ∈ s.owned.reverse ↔ n ∈ ns := fun n => mem_reverse.trans hperm.mem_iff
    have hclose : (s.close.2 : Code V) = s.owned.reverse.foldr disposeNode .done := by
      simp only [TeardownScope.close, harmed, if_true]
    rw [hclose]
    refine until_disposeAll (fun n hn => hns n ((hmem n).mp hn)) hr.plain.heap
      (fun n hn => hcleanup n ((hmem n).mp hn)) fun h' htears => ?_
    obtain ⟨hdropped, hkept, hdisposed, hruns⟩ := tears_spec htears
    simp only [hmem] at hdropped hkept hdisposed
    refine ⟨fun i => ?_, funext fun m => ?_, hruns⟩
    · by_cases hgone : ∃ n ∈ ns, Gone c.heap n (.slot i)
      · exact (hdropped i hgone).trans (if_pos hgone).symm
      · exact (hkept _ hgone).trans (if_neg hgone).symm
    · rw [Bool.eq_iff_iff, hdisposed, Bool.or_eq_true, decide_eq_true_iff]

/-! ## A slot that forgets what it depends on -/

theorem branching_plain : branching.Plain where
  slots := fun _ => by
    refine ⟨trivial, fun v => ?_⟩
    dsimp only
    split
    · exact ⟨trivial, fun _ => trivial⟩
    · exact trivial
  effects := fun _ _ => ⟨trivial, fun _ => trivial⟩

/-- Calls of a client whose code names no `Computed`. -/
theorem plain_of_session {ord : Enum} (hord : ord.Lawful) {check : Config V → Bool} {fuel : ℕ}
    {codes : List (Code V)} (hcodes : ∀ code ∈ codes, code.Plain) {c c' : Config V}
    (h : session G ord check fuel codes c = some c') : Relation.ReflTransGen (PlainStep G) c c' := by
  induction codes generalizing c with
  | nil =>
    cases h
    exact .refl
  | cons code codes ih =>
    obtain ⟨c₁, hcall, hrest⟩ := Option.bind_eq_some_iff.mp h
    obtain ⟨hcode, hcodes⟩ := forall_mem_cons.mp hcodes
    unfold playCall at hcall
    split at hcall
    · next hidle =>
      rw [Bool.and_eq_true] at hidle
      have hplayed : Relation.ReflTransGen (PlainStep G) (c.issue code) c₁ :=
        Relation.ReflTransGen.mono (fun _ _ hs => .tick ord hord hs) _ _ (steps_of_playUntil hcall)
      exact .head (.issue code (isIdle_idle hidle.1) hcode) (hplayed.trans (ih hcodes hrest))
    · cases hcall

/-- Calls on `branching`, and then one more call of the client. -/
def branchingCall (codes : List (Code ℕ)) (code : Code ℕ) : Option (Config ℕ) :=
  (branchingSession (fun _ => true) codes).map fun c => c.issue code

theorem run_branchingCall {codes : List (Code ℕ)} {code : Code ℕ} (hcodes : ∀ code ∈ codes, code.Plain)
    (hcode : code.Plain) {c : Config ℕ} (h : branchingCall codes code = some c)
    (hidle : ∀ c, branchingSession (fun _ => true) codes = some c → c.isIdle = true) :
    Relation.ReflTransGen (PlainStep branching) (Config.init fun _ => 0) c := by
  obtain ⟨c₀, hsession, rfl⟩ := Option.map_eq_some_iff.mp h
  exact .tail (plain_of_session Enum.stored_lawful hcodes hsession)
    (.issue code (isIdle_idle (hidle c₀ hsession)) hcode)

theorem ticks_of_playUntil_returned {ord : Enum} (hord : ord.Lawful) {check stop : Config V → Bool}
    (hstop : ∀ c, stop c = false → ¬ c.ReturnedTo st) {fuel : ℕ} {c c' : Config V}
    (h : playUntil G ord check stop fuel c = some c') :
    Relation.ReflTransGen (fun c c' => ¬ c.ReturnedTo st ∧ Tick G c c') c c' := by
  induction fuel generalizing c with
  | zero => cases h
  | succ fuel ih =>
    unfold playUntil at h
    split at h
    · cases h
      exact .refl
    · next hgo =>
      split at h
      · obtain ⟨c₁, hs, hrest⟩ := Option.bind_eq_some_iff.mp h
        exact .head ⟨hstop c (by simpa using hgo), ord, hord, hs⟩ (ih hrest)
      · cases h

def hasReturned (c : Config ℕ) : Bool :=
  match c.ctl with
  | .returned _ => true
  | _ => false

theorem not_returnedTo_of_hasReturned {st : List (Frame ℕ)} (c : Config ℕ) (h : hasReturned c = false) :
    ¬ c.ReturnedTo st := by
  rintro ⟨-, cl, hcl⟩
  simp [hasReturned, hcl] at h

def bothRead : List (Code ℕ) :=
  [.read (.slot 0) fun _ => .done]

def oneRead : List (Code ℕ) :=
  [.read (.slot 0) fun _ => .done, .write 0 1 .done, .read (.slot 0) fun _ => .done]

/-- The disposal of source 0 drops the value of slot 0, and a scope of both can be closed in any order. -/
theorem teardown_exact_branching : ∃ c : Config ℕ, branchingCall bothRead (disposeNode (.source 0) .done) = some c ∧
      c.heap.cache (.slot 0) = some 0 ∧
      Until (Tick branching) (Config.ReturnedTo (.andThen none .done :: c.stack))
        (fun c' => c'.heap.cache (.slot 0) = none ∨ c'.heap.disposed (.slot 0) = true) c ∧
      ∃ (cache : ℕ → Option ℕ) (disposed : Node → Bool), ∀ s : TeardownScope, s.armed = true →
        s.owned.Perm [.source 0, .slot 0] → Until (Tick branching) (Config.ReturnedTo c.stack)
          (fun c' => (∀ i, c'.heap.cache (.slot i) = cache i) ∧ c'.heap.disposed = disposed ∧
            c'.heap.runs = c.heap.runs) { c with ctl := .exec none s.close.2 } := by
  have hrun : Relation.ReflTransGen (PlainStep branching) (Config.init fun _ => 0)
      ((branchingCall bothRead (disposeNode (.source 0) .done)).get rfl) := by
    have hcode : (disposeNode (.source 0) (.done : Code ℕ)).Plain := ⟨trivial, trivial⟩
    refine run_branchingCall ?_ hcode (Option.some_get _).symm ?_
    · simp [bothRead, Code.Plain, Ref.Plain]
    · intro c hc
      cases hc
      rfl
  obtain ⟨hdispose, hclose⟩ := teardown_exact branching_plain hrun none
  refine ⟨_, (Option.some_get rfl).symm, by decide, ?_, hclose _ ?_ ?_⟩
  · refine (hdispose (.source 0) .done trivial rfl rfl (fun cl hcl => by cases hcl)).mono fun c' hc' => ?_
    by_cases hd : c'.heap.disposed (.slot 0) = true
    · exact .inr hd
    · exact .inl (hc'.1 0 (by simpa using hd) (.direct (by decide)))
  · simp [Node.Disposable]
  · intro n _ cl hcl
    cases hcl

/-- Slot 0 is still among the dependents of source 1, which its last evaluation has not read. The disposal of
source 1 drops its value. -/
theorem dispose_drops_stranger : ¬ ∀ (G : Graph ℕ) (σ : ℕ → ℕ) (c : Config ℕ) (r : Option Node) (n : Node)
    (k : Code ℕ), G.Plain → Relation.ReflTransGen (PlainStep G) (Config.init σ) c → n.Disposable →
      c.ctl = .exec r (disposeNode n k) → c.heap.work = [] → c.heap.cleanup n = none →
      Until (Tick G) (Config.ReturnedTo (.andThen r k :: c.stack))
        (fun c' => ∀ i, .slot i ≠ n → ¬ c.heap.DependsOn n i →
          c'.heap.cache (.slot i) = c.heap.cache (.slot i)) c := by
  intro h
  have hrun : Relation.ReflTransGen (PlainStep branching) (Config.init fun _ => 0)
      ((branchingCall oneRead (disposeNode (.source 1) .done)).get rfl) := by
    have hcode : (disposeNode (.source 1) (.done : Code ℕ)).Plain := ⟨trivial, trivial⟩
    refine run_branchingCall ?_ hcode (Option.some_get _).symm ?_
    · simp [oneRead, Code.Plain, Ref.Plain]
    · intro c hc
      cases hc
      rfl
  have huntil := h branching _ _ none (.source 1) .done branching_plain hrun trivial rfl rfl rfl
  have hplayed : playUntil branching .stored (fun _ => true) hasReturned 10
      ((branchingCall oneRead (disposeNode (.source 1) .done)).get rfl) = some _ := (Option.some_get rfl).symm
  have hkept := huntil.of_run
    (ticks_of_playUntil_returned Enum.stored_lawful not_returnedTo_of_hasReturned hplayed) ⟨rfl, none, rfl⟩
  have hdeps : ((branchingCall oneRead (disposeNode (.source 1) .done)).get rfl).heap.deps (.slot 0) =
      [.source 0] := rfl
  have hindependent : ¬ ((branchingCall oneRead (disposeNode (.source 1) .done)).get rfl).heap.DependsOn
      (.source 1) 0 := by
    rintro (hn | ⟨hj, -⟩)
    · rw [hdeps] at hn
      simp at hn
    · rw [hdeps] at hj
      simp at hj
  exact absurd (hkept 0 nofun hindependent) (by decide)

end LazilyPy.Reactive

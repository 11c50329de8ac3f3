import Mathlib.Tactic.Cases
import LazilyPy.Reactive.Heap

/-!
# What the heap remembers of each reader

Every reader (a slot with a cached value, an effect that has run) recorded which node
handed it which value. `Seen` says that such a record is still good: the reader is still
among the dependents that a change of the node notifies, and the node would hand out the
same value again. `HeapInv` says it of every reader that is not queued, and `Heap`'s
operations preserve it.
-/

namespace LazilyPy.Reactive

open List Option Function
open Heap (detachFromDependencies dropCache dropPuller retire setHandle)

variable {V : Type}

/-- The rest of a compute function after the recorded reads, if it makes exactly those. -/
def Comp.follow : Comp V → List (Node × V) → Option (Comp V)
  | t, [] => some t
  | .read d k, (n, w) :: rs => if d.node = n then (k w).follow rs else none
  | .ret _, _ :: _ => none
  | .raise, _ :: _ => none

@[simp] theorem Comp.follow_nil (t : Comp V) : t.follow [] = some t := by
  cases t <;> rfl

theorem Comp.follow_read {d : Ref} {k : V → Comp V} {n : Node} {w : V} {rs : List (Node × V)}
    {t : Comp V} (h : (Comp.read d k).follow ((n, w) :: rs) = some t) :
    d.node = n ∧ (k w).follow rs = some t := by
  unfold Comp.follow at h
  split at h
  · next hd => exact ⟨hd, h⟩
  · cases h

/-- One more read. -/
theorem Comp.follow_append {t : Comp V} {rs : List (Node × V)} {d : Ref} {k : V → Comp V}
    (h : t.follow rs = some (.read d k)) (v : V) :
    t.follow (rs ++ [(d.node, v)]) = some (k v) := by
  induction rs generalizing t with
  | nil =>
    simp only [Comp.follow_nil, some.injEq] at h
    subst h
    simp [Comp.follow]
  | cons r rs ih =>
    obtain ⟨n, w⟩ := r
    cases t with
    | ret _ => simp [Comp.follow] at h
    | raise => simp [Comp.follow] at h
    | read d' k' =>
      obtain ⟨hd, hk⟩ := Comp.follow_read h
      simp only [cons_append, Comp.follow, hd, if_true]
      exact ih hk

/-- The value `o` on offer is the recorded `w`. A custom `changed` predicate may hold a new
value back, so the values agree only where the guards are exact. -/
def Offers (G : Graph V) (o : Option V) (w : V) : Prop :=
  ∃ u, o = some u ∧ (G.ExactGuards → u = w)

theorem Offers.refl (G : Graph V) (w : V) : Offers G (some w) w :=
  ⟨w, rfl, fun _ => rfl⟩

/-- The record `(n, w)` of reader `m` is still good. A source with a pending change still
notifies its dependents, and a computed whose puller is at work (`P`) is about to compare
its memo with the value it holds. -/
def Seen (G : Graph V) (P : ℕ → Prop) (h : Heap V) (m : Node) (w : V) : Node → Prop
  | .source i => m ∈ h.parents (.source i) ∧ (h.value i = w ∨ .source i ∈ h.pendingCells)
  | .slot i => m ∈ h.parents (.slot i) ∧ h.cache (.slot i) = some w
  | .memo i => m ∈ h.parents (.memo i) ∧ h.cache (.memo i) = some w
  | .computed i =>
    m ∈ h.parents (.computed i) ∧ ((h.eager i = true ∧ Offers G (h.handle i) w) ∨
        ((h.eager i = true → P i) ∧ m ∈ h.parents (.memo i) ∧ Offers G (h.cache (.memo i)) w))
  | .effect _ | .puller _ _ => False

/-- The invariant of the heap between two statements, with `Q` the readers that wait to be
invalidated or rerun and `P` the computeds whose puller is at work. -/
structure HeapInv (G : Graph V) (Q : Node → Prop) (P : ℕ → Prop) (h : Heap V) : Prop where
  seen : ∀ m n w, (n, w) ∈ h.reads m → Q m ∨ Seen G P h m w n
  replay : ∀ n v, h.cache n = some v → (G.callable n).follow (h.reads n) = some (.ret v)
  cached : ∀ n, h.cache n ≠ none → n.isSlot = true
  readers : ∀ n, h.reads n ≠ [] → n.isSlot = true ∨ (n.isEffect = true ∧ h.started n = true ∧ h.disposed n = false)
  recorded : ∀ m n w, (n, w) ∈ h.reads m → n ∈ h.deps m
  sinks : ∀ n, n.isEffect = true → h.parents n = []
  retired : ∀ n, h.disposed n = true → ∃ i k, n = .puller i k ∧ k < h.minted i
  minted : ∀ i k, h.started (.puller i k) = true → k < h.minted i ∧
      (h.disposed (.puller i k) = true ∨ (h.eager i = true ∧ h.puller i = some k))
  fresh : ∀ i, h.stale i = false
  closures : ∀ i k, h.cleanup (.puller i k) = none
  eagerly : ∀ i, h.eager i = true → ∃ k, h.puller i = some k ∧ k < h.minted i ∧ h.disposed (.puller i k) = false ∧
    (P i ∨ (h.started (.puller i k) = true ∧ h.handle i ≠ none ∧ (Q (.puller i k) ∨
        ∃ w, h.reads (.puller i k) = [(.memo i, w)] ∧ Offers G (h.handle i) w)))

/-- The current puller of `computed i` waits for the memo that it depends on. -/
structure Armed (h : Heap V) (i k : ℕ) : Prop where
  eager : h.eager i = true
  puller : h.puller i = some k
  started : h.started (.puller i k) = true
  reads : h.reads (.puller i k) = []
  deps : .memo i ∈ h.deps (.puller i k)
  parents : .puller i k ∈ h.parents (.memo i)

section Seen

variable {G : Graph V} {P U : ℕ → Prop} {h h' : Heap V} {m n : Node} {w : V}

/-- A good record stays good while the dependents only grow and no value on offer changes. -/
theorem Seen.mono (hs : Seen G P h m w n) (hP : ∀ i, h.eager i = true → P i → U i)
    (hpar : ∀ d, m ∈ h.parents d → m ∈ h'.parents d)
    (hval : ∀ i, h.value i = w ∨ .source i ∈ h.pendingCells → h'.value i = w ∨ .source i ∈ h'.pendingCells)
    (hcache : ∀ d u, h.cache d = some u → h'.cache d = some u)
    (heager : h'.eager = h.eager) (hhandle : h'.handle = h.handle) :
    Seen G U h' m w n := by
  cases n with
  | source i => exact ⟨hpar _ hs.1, hval i hs.2⟩
  | slot i => exact ⟨hpar _ hs.1, hcache _ _ hs.2⟩
  | memo i => exact ⟨hpar _ hs.1, hcache _ _ hs.2⟩
  | computed i =>
    obtain ⟨hm, ⟨he, ho⟩ | ⟨he, hmemo, u, hu, hw⟩⟩ := hs
    · exact ⟨hpar _ hm, .inl ⟨heager ▸ he, hhandle ▸ ho⟩⟩
    · refine ⟨hpar _ hm, .inr ⟨fun h' => hP i (heager ▸ h') (he (heager ▸ h')), hpar _ hmemo, u, ?_, hw⟩⟩
      exact hcache _ _ hu
  | effect i => exact hs
  | puller i k => exact hs

/-- The reader of a good record is among the dependents. -/
theorem Seen.mem_parents (hs : Seen G P h m w n) : m ∈ h.parents n := by
  cases n with
  | effect i => exact hs.elim
  | puller i k => exact hs.elim
  | _ => exact hs.1

end Seen

namespace HeapInv

variable {G : Graph V} {Q R : Node → Prop} {P U : ℕ → Prop} {h : Heap V}

theorem init (σ : ℕ → V) : HeapInv G Q P (Heap.init σ) where
  seen := by simp [Heap.init]
  replay := by simp [Heap.init]
  cached := by simp [Heap.init]
  readers := by simp [Heap.init]
  recorded := by simp [Heap.init]
  sinks := by simp [Heap.init]
  retired := by simp [Heap.init]
  minted := by simp [Heap.init]
  fresh := by simp [Heap.init]
  closures := by simp [Heap.init]
  eagerly := by simp [Heap.init]

/-- Readers may join the queue, and leave it once they have no record. -/
theorem requeue (hi : HeapInv G Q P h) (hQ : ∀ m, Q m → R m ∨ h.reads m = [])
    (hp : ∀ i k, Q (.puller i k) → h.eager i = true → h.puller i = some k → R (.puller i k) ∨ U i)
    (hP : ∀ i, h.eager i = true → P i → U i) : HeapInv G R U h :=
  { hi with
    seen := by
      intro m n w hr
      rcases hi.seen m n w hr with hq | hs
      · rcases hQ m hq with hq' | hnil
        · exact .inl hq'
        · rw [hnil] at hr
          cases hr
      · exact .inr (hs.mono hP (fun _ => id) (fun _ => id) (fun _ _ => id) rfl rfl)
    eagerly := by
      intro i he
      obtain ⟨k, hk, hlt, hd, hcur⟩ := hi.eagerly i he
      refine ⟨k, hk, hlt, hd, ?_⟩
      rcases hcur with hPi | ⟨hs, hh, hq | hr⟩
      · exact .inl (hP i he hPi)
      · exact (hp i k hq he hk).symm.imp_right fun hq' => ⟨hs, hh, .inl hq'⟩
      · exact .inr ⟨hs, hh, .inr hr⟩ }

theorem mono (hi : HeapInv G Q P h) (hQ : ∀ m, Q m → R m) (hP : ∀ i, P i → U i) : HeapInv G R U h :=
  hi.requeue (fun m hm => .inl (hQ m hm)) (fun _ _ hq _ _ => .inl (hQ _ hq)) (fun i _ => hP i)

variable {i k : ℕ} {v : V}

/-- The current puller of an eager computed. -/
theorem current (hi : HeapInv G Q P h) (he : h.eager i = true) (hk : h.puller i = some k) :
    k < h.minted i ∧ h.disposed (.puller i k) = false := by
  obtain ⟨k', hk', hlt, hd, _⟩ := hi.eagerly i he
  obtain rfl : k' = k := some.inj (hk' ▸ hk)
  exact ⟨hlt, hd⟩

/-- Sources, slots, memos and effects are not disposed. -/
theorem alive (hi : HeapInv G Q P h) {n : Node} (hn : n.isPuller = false) : h.disposed n = false := by
  by_contra hd
  obtain ⟨i, k, rfl, _⟩ := hi.retired n (by simpa using hd)
  simp [Node.isPuller] at hn

/-- A new edge to a node that is not an effect. -/
theorem registerEdge (hi : HeapInv G Q P h) {d : Node} (hd : d.isEffect = false) (r : Node) :
    HeapInv G Q P (h.registerEdge d r) :=
  { hi with
    seen := by
      intro m n w hr
      refine (hi.seen m n w hr).imp_right fun hs => ?_
      refine hs.mono (fun _ _ => id) (fun n' hn' => ?_) (fun _ => id) (fun _ _ => id) rfl rfl
      simp only [Heap.registerEdge, update_apply]
      split
      · next heq => exact mem_insertNode.mpr (.inr (heq ▸ hn'))
      · exact hn'
    recorded := by
      intro m n w hr
      have hmem := hi.recorded m n w hr
      simp only [Heap.registerEdge, update_apply]
      split
      · next heq => exact mem_insertNode.mpr (.inr (heq ▸ hmem))
      · exact hmem
    sinks := by
      intro n hn
      have hne : n ≠ d := by
        rintro rfl
        simp [hn] at hd
      simp only [Heap.registerEdge, update_apply, hne, if_false]
      exact hi.sinks n hn }

theorem subscribe (hi : HeapInv G Q P h) (d : Ref) (r : Node) : HeapInv G Q P (h.subscribe d r) := by
  cases d with
  | source i => exact hi.registerEdge rfl r
  | slot i => exact hi.registerEdge rfl r
  | computed i =>
    simp only [Heap.subscribe]
    split
    · exact hi.registerEdge rfl r
    · exact (hi.registerEdge rfl r).registerEdge rfl r

/-- A recompute starts on an empty cache. -/
theorem startCompute (hi : HeapInv G Q P h) {n : Node} (hn : n.isSlot = true)
    (hc : h.cache n = none) : HeapInv G Q P (h.startCompute n) := by
  have hreads : ∀ m, m ≠ n → (h.startCompute n).reads m = h.reads m := fun m hm => by
    simp [Heap.startCompute, hm]
  have hself : (h.startCompute n).reads n = [] := by simp [Heap.startCompute]
  exact
  { hi with
    seen := by
      intro m d w hr
      by_cases hm : m = n
      · rw [hm, hself] at hr
        cases hr
      · rw [hreads m hm] at hr
        exact hi.seen m d w hr
    replay := by
      intro m v hv
      have hm : m ≠ n := by
        rintro rfl
        rw [show (h.startCompute m).cache m = h.cache m from rfl, hc] at hv
        cases hv
      rw [hreads m hm]
      exact hi.replay m v hv
    readers := by
      intro m hr
      by_cases hm : m = n
      · exact .inl (hm ▸ hn)
      · exact hi.readers m (hreads m hm ▸ hr)
    recorded := by
      intro m d w hr
      by_cases hm : m = n
      · rw [hm, hself] at hr
        cases hr
      · rw [hreads m hm] at hr
        simpa [Heap.startCompute, hm] using hi.recorded m d w hr
    eagerly := by
      intro i he
      obtain ⟨k, hk, hlt, hd, hcur⟩ := hi.eagerly i he
      have hp : Node.puller i k ≠ n := by
        rintro rfl
        cases hn
      refine ⟨k, hk, hlt, hd, ?_⟩
      rw [hreads _ hp]
      exact hcur }

/-- A recompute ends with the value that its reads lead to. -/
theorem setCache (hi : HeapInv G Q P h) {n : Node} (hn : n.isSlot = true) (hc : h.cache n = none)
    (hf : (G.callable n).follow (h.reads n) = some (.ret v)) :
    HeapInv G Q P (h.setCache n v) :=
  { hi with
    seen := by
      intro m d w hr
      refine (hi.seen m d w hr).imp_right fun hs => ?_
      refine hs.mono (fun _ _ => id) (fun _ => id) (fun _ => id) (fun d' u hu => ?_) rfl rfl
      have hd' : d' ≠ n := by
        rintro rfl
        rw [hc] at hu
        cases hu
      simpa [Heap.setCache, hd'] using hu
    replay := by
      intro m u hu
      by_cases hm : m = n
      · subst hm
        obtain rfl : v = u := by simpa [Heap.setCache] using hu
        exact hf
      · exact hi.replay m u (by simpa [Heap.setCache, hm] using hu)
    cached := by
      intro m hm
      by_cases heq : m = n
      · exact heq ▸ hn
      · exact hi.cached m (by simpa [Heap.setCache, heq] using hm) }

/-- A read of a value on offer, by a slot under evaluation or by a running effect. -/
theorem record (hi : HeapInv G Q P h) {m n : Node} {w : V} (hs : Seen G P h m w n)
    (hdep : n ∈ h.deps m) (hc : h.cache m = none) (hp : m.isPuller = false)
    (hm : m.isSlot = true ∨ (m.isEffect = true ∧ h.started m = true)) :
    HeapInv G Q P (h.record m n w) := by
  have hreads : ∀ m', m' ≠ m → (h.record m n w).reads m' = h.reads m' := fun m' hm' => by
    simp [Heap.record, hm']
  have hself : (h.record m n w).reads m = h.reads m ++ [(n, w)] := by simp [Heap.record]
  exact
  { hi with
    seen := by
      intro m' n' w' hr
      by_cases hm' : m' = m
      · subst hm'
        rw [hself, mem_append, mem_singleton] at hr
        rcases hr with hr | heq
        · exact hi.seen _ _ _ hr
        · cases heq
          exact .inr hs
      · rw [hreads m' hm'] at hr
        exact hi.seen m' n' w' hr
    replay := by
      intro m' v hv
      have hm' : m' ≠ m := by
        rintro rfl
        rw [show (h.record m' n w).cache m' = h.cache m' from rfl, hc] at hv
        cases hv
      rw [hreads m' hm']
      exact hi.replay m' v hv
    readers := by
      intro m' hr
      by_cases hm' : m' = m
      · subst hm'
        exact hm.imp_right fun hm => ⟨hm.1, hm.2, hi.alive hp⟩
      · exact hi.readers m' (hreads m' hm' ▸ hr)
    recorded := by
      intro m' n' w' hr
      by_cases hm' : m' = m
      · subst hm'
        rw [hself, mem_append, mem_singleton] at hr
        rcases hr with hr | heq
        · exact hi.recorded _ _ _ hr
        · cases heq
          exact hdep
      · rw [hreads m' hm'] at hr
        exact hi.recorded m' n' w' hr
    eagerly := by
      intro i he
      obtain ⟨k, hk, hlt, hd, hcur⟩ := hi.eagerly i he
      have hne : Node.puller i k ≠ m := by
        rintro rfl
        cases hp
      refine ⟨k, hk, hlt, hd, ?_⟩
      rw [hreads _ hne]
      exact hcur }

/-- Some dependents of `n` are pushed onto the work-stack. -/
theorem pushParents (hi : HeapInv G Q P h) {n : Node} (ord : Enum) (hQ : ∀ m, Q m → R m)
    (hpar : ∀ m ∈ h.parents n, R m) : HeapInv G R P (h.pushParents ord n) :=
  { hi.mono hQ (fun _ => id) with
    seen := by
      intro m d w hr
      by_cases hq : R m
      · exact .inl hq
      · have hs := (hi.seen m d w hr).resolve_left fun hq' => hq (hQ m hq')
        refine .inr (hs.mono (fun _ _ => id) (fun d' hd' => ?_) (fun _ => id) (fun _ _ => id) rfl rfl)
        have hne : d' ≠ n := by
          rintro rfl
          exact hq (hpar m hd')
        simpa [Heap.pushParents, hne] using hd'
    sinks := by
      intro m hm
      simp only [Heap.pushParents, update_apply]
      split
      · rfl
      · exact hi.sinks m hm }

/-- A slot is invalidated: it leaves the queue, and its dependents join. -/
theorem invalidateSlot (hi : HeapInv G Q P h) {n : Node} (hn : n.isSlot = true) (ord : Enum)
    (hQ : ∀ m, Q m → m ≠ n → R m) (hpar : ∀ m ∈ h.parents n, R m) :
    HeapInv G R P (h.invalidateSlot ord n) := by
  have hreads : ∀ m, m ≠ n → (h.invalidateSlot ord n).reads m = h.reads m := fun m hm => by
    simp [Heap.invalidateSlot, dropCache, Heap.pushParents, hm]
  have hself : (h.invalidateSlot ord n).reads n = [] := by
    simp [Heap.invalidateSlot, dropCache, Heap.pushParents]
  have hcache : ∀ m, m ≠ n → (h.invalidateSlot ord n).cache m = h.cache m := fun m hm => by
    simp [Heap.invalidateSlot, dropCache, Heap.pushParents, hm]
  have hnone : (h.invalidateSlot ord n).cache n = none := by
    simp [Heap.invalidateSlot, dropCache, Heap.pushParents]
  have hparents : ∀ d, d ≠ n → (h.invalidateSlot ord n).parents d = h.parents d := fun d hd => by
    simp [Heap.invalidateSlot, dropCache, Heap.pushParents, hd]
  exact
  { hi with
    seen := by
      intro m d w hr
      by_cases hm : m = n
      · rw [hm, hself] at hr
        cases hr
      · rw [hreads m hm] at hr
        by_cases hq : R m
        · exact .inl hq
        · have hs := (hi.seen m d w hr).resolve_left fun hq' => hq (hQ m hq' hm)
          have hmem : ∀ d', m ∈ h.parents d' → m ∈ (h.invalidateSlot ord n).parents d' := by
            intro d' hd'
            have hne : d' ≠ n := by
              rintro rfl
              exact hq (hpar m hd')
            rwa [hparents d' hne]
          have hkeep : ∀ d', m ∈ h.parents d' → (h.invalidateSlot ord n).cache d' = h.cache d' := by
            intro d' hd'
            refine hcache d' ?_
            rintro rfl
            exact hq (hpar m hd')
          refine .inr ?_
          cases d with
          | source i => exact ⟨hmem _ hs.1, hs.2⟩
          | slot i => exact ⟨hmem _ hs.1, (hkeep _ hs.1).trans hs.2⟩
          | memo i => exact ⟨hmem _ hs.1, (hkeep _ hs.1).trans hs.2⟩
          | computed i =>
            obtain ⟨hc, he | ⟨he, hmemo, u, hu, hw⟩⟩ := hs
            · exact ⟨hmem _ hc, .inl he⟩
            · exact ⟨hmem _ hc, .inr ⟨he, hmem _ hmemo, u, (hkeep _ hmemo).trans hu, hw⟩⟩
          | effect i => exact hs
          | puller i k => exact hs
    replay := by
      intro m v hv
      have hm : m ≠ n := by
        rintro rfl
        rw [hnone] at hv
        cases hv
      rw [hreads m hm]
      exact hi.replay m v (hcache m hm ▸ hv)
    cached := by
      intro m hm
      by_cases heq : m = n
      · exact heq ▸ hn
      · exact hi.cached m (hcache m heq ▸ hm)
    readers := by
      intro m hr
      by_cases hm : m = n
      · exact .inl (hm ▸ hn)
      · exact hi.readers m (hreads m hm ▸ hr)
    recorded := by
      intro m d w hr
      by_cases hm : m = n
      · rw [hm, hself] at hr
        cases hr
      · exact hi.recorded m d w (hreads m hm ▸ hr)
    sinks := by
      intro m hm
      have hne : m ≠ n := by
        rintro rfl
        cases m <;> simp_all [Node.isSlot, Node.isEffect]
      rw [hparents m hne]
      exact hi.sinks m hm
    eagerly := by
      intro i he
      obtain ⟨k, hk, hlt, hd, hcur⟩ := hi.eagerly i he
      have hne : Node.puller i k ≠ n := by
        rintro rfl
        cases hn
      refine ⟨k, hk, hlt, hd, ?_⟩
      rw [hreads _ hne]
      refine hcur.imp_right fun hcur => ⟨hcur.1, hcur.2.1, hcur.2.2.imp_left fun hq => ?_⟩
      exact hQ _ hq hne }

/-- A source takes a new value while its dependents are pushed. -/
theorem setValue (hi : HeapInv G Q P h) (hQ : ∀ m, Q m → R m) (hpar : ∀ m ∈ h.parents (.source i), R m) :
    HeapInv G R P (h.setValue i v) :=
  { hi.mono hQ (fun _ => id) with
    seen := by
      intro m d w hr
      by_cases hq : R m
      · exact .inl hq
      · have hs := (hi.seen m d w hr).resolve_left fun hq' => hq (hQ m hq')
        refine .inr ?_
        cases d with
        | source j =>
          have hne : j ≠ i := by
            rintro rfl
            exact hq (hpar m hs.1)
          exact ⟨hs.1, by simpa [Heap.setValue, hne] using hs.2⟩
        | slot j => exact hs
        | memo j => exact hs
        | computed j => exact hs
        | effect j => exact hs
        | puller j k => exact hs }

/-- A source takes a new value that stays pending. -/
theorem setPending (hi : HeapInv G Q P h) (i : ℕ) (v : V) :
    HeapInv G Q P ((h.setValue i v).addPendingCell (.source i)) :=
  { hi with
    seen := by
      intro m d w hr
      refine (hi.seen m d w hr).imp_right fun hs => ?_
      refine hs.mono (fun _ _ => id) (fun _ => id) (fun j hj => ?_) (fun _ _ => id) rfl rfl
      by_cases hji : j = i
      · subst hji
        exact .inr (by simp [Heap.addPendingCell])
      · exact hj.imp (fun hv => by simpa [Heap.addPendingCell, Heap.setValue, hji] using hv)
          (fun hp => by simp [Heap.addPendingCell, Heap.setValue, hp]) }

/-- The touch phase of a flush: every reader of a pending source joins the queue. -/
theorem flushTouch (hi : HeapInv G Q P h) {ord : Enum} (hord : ord.Lawful)
    (hQ : ∀ m, Q m → R m) (hwork : ∀ m ∈ (h.flushTouch ord).work, R m) :
    HeapInv G R P (h.flushTouch ord) := by
  have hmem : ∀ n ∈ h.pendingCells, h.disposed n = false → ∀ m ∈ h.parents n, R m := by
    intro n hn hd m hm
    refine hwork m ?_
    simp only [Heap.flushTouch]
    exact (Heap.mem_work_touchAll hord).mpr (.inr ⟨n, (hord _ _).mem_iff.mpr hn, hd, hm⟩)
  have heq := Heap.touchAll_eq ord (ord none h.pendingCells) ({ h with pendingCells := [] })
  have hpar : ∀ m, ¬ R m → ∀ d, m ∈ h.parents d → m ∈ (h.flushTouch ord).parents d := by
    intro m hq d hd
    simp only [Heap.flushTouch]
    rw [heq]
    simp only [(hord _ _).mem_iff]
    split
    · next hc => exact absurd (hmem d hc.1 hc.2 m hd) hq
    · exact hd
  have hrest : h.flushTouch ord = { h with
      work := (h.flushTouch ord).work
      parents := (h.flushTouch ord).parents
      pendingCells := []
      active := true } := by
    simp only [Heap.flushTouch]
    rw [heq]
  have hi' := hi.mono hQ (fun _ => id)
  rw [hrest]
  exact
  { hi' with
    seen := by
      intro m d w hr
      by_cases hq : R m
      · exact .inl hq
      · have hs := (hi'.seen m d w hr).resolve_left hq
        refine .inr ?_
        cases d with
        | source i =>
          refine ⟨hpar m hq _ hs.1, .inl (hs.2.resolve_right fun hp => hq ?_)⟩
          exact hmem _ hp (hi.alive rfl) m hs.1
        | slot i => exact ⟨hpar m hq _ hs.1, hs.2⟩
        | memo i => exact ⟨hpar m hq _ hs.1, hs.2⟩
        | computed i =>
          obtain ⟨hc, he | ⟨he, hmemo, ho⟩⟩ := hs
          · exact ⟨hpar m hq _ hc, .inl he⟩
          · exact ⟨hpar m hq _ hc, .inr ⟨he, hpar m hq _ hmemo, ho⟩⟩
        | effect i => exact hs
        | puller i k => exact hs
    sinks := by
      intro n hn
      have hnil := hi.sinks n hn
      simp only [Heap.flushTouch]
      rw [heq]
      simp [hnil] }

/-- The first call of an effect. -/
theorem start (hi : HeapInv G Q P h) {e : Node} (he : ∀ i k, e = .puller i k → k < h.minted i ∧
      (h.disposed e = true ∨ (h.eager i = true ∧ h.puller i = some k))) :
    HeapInv G Q P { h with started := update h.started e true } := by
  have hmono : ∀ n, h.started n = true → update h.started e true n = true := by
    intro n hn
    simp only [update_apply]
    split
    · rfl
    · exact hn
  exact
  { hi with
    readers := fun n hr => (hi.readers n hr).imp_right fun h' => ⟨h'.1, hmono n h'.2.1, h'.2.2⟩
    minted := by
      intro i k hs
      by_cases hne : Node.puller i k = e
      · subst hne
        exact he i k rfl
      · exact hi.minted i k (by simpa [hne] using hs)
    eagerly := by
      intro i hei
      obtain ⟨k, hk, hlt, hd, hcur⟩ := hi.eagerly i hei
      exact ⟨k, hk, hlt, hd, hcur.imp_right fun hc => ⟨hmono _ hc.1, hc.2⟩⟩ }

/-- The body of an effect starts: the effect leaves the queue with an empty record. -/
theorem startEffect (hi : HeapInv G Q P h) {e : Node} (hQ : ∀ m, Q m → m ≠ e → R m) (he : e.isEffect = true)
    (hp : ∀ i k, e = .puller i k → h.eager i = true → h.puller i = some k → P i) :
    HeapInv G R P (h.startEffect e) := by
  have hreads : ∀ m, m ≠ e → (h.startEffect e).reads m = h.reads m := fun m hm => by
    simp [Heap.startEffect, detachFromDependencies, hm]
  have hself : (h.startEffect e).reads e = [] := by simp [Heap.startEffect]
  have hpar : ∀ m, m ≠ e → ∀ d, m ∈ h.parents d → m ∈ (h.startEffect e).parents d := by
    intro m hm d hd
    simp only [Heap.startEffect, detachFromDependencies]
    split
    · simp [hd, hm]
    · exact hd
  exact
  { hi with
    seen := by
      intro m d w hr
      by_cases hm : m = e
      · rw [hm, hself] at hr
        cases hr
      · rw [hreads m hm] at hr
        refine (hi.seen m d w hr).imp (fun hq => hQ m hq hm) fun hs => ?_
        exact hs.mono (fun _ _ => id) (hpar m hm) (fun _ => id) (fun _ _ => id) rfl rfl
    replay := by
      intro m v hv
      have hm : m ≠ e := by
        rintro rfl
        have hslot := hi.cached m (by rw [show h.cache m = some v from hv]; simp)
        cases m <;> simp_all [Node.isSlot, Node.isEffect]
      rw [hreads m hm]
      exact hi.replay m v hv
    readers := by
      intro m hr
      by_cases hm : m = e
      · rw [hm, hself] at hr
        exact absurd rfl hr
      · exact hi.readers m (hreads m hm ▸ hr)
    recorded := by
      intro m d w hr
      by_cases hm : m = e
      · rw [hm, hself] at hr
        cases hr
      · rw [hreads m hm] at hr
        simpa [Heap.startEffect, detachFromDependencies, hm] using hi.recorded m d w hr
    sinks := by
      intro n hn
      have hnil := hi.sinks n hn
      simp [Heap.startEffect, detachFromDependencies, hnil]
    eagerly := by
      intro i hei
      obtain ⟨k, hk, hlt, hd, hcur⟩ := hi.eagerly i hei
      refine ⟨k, hk, hlt, hd, ?_⟩
      by_cases hne : Node.puller i k = e
      · exact .inl (hp i k hne.symm hei hk)
      · rw [hreads _ hne]
        exact hcur.imp_right fun hc => ⟨hc.1, hc.2.1, hc.2.2.imp_left fun hq => hQ _ hq hne⟩ }

/-- `eager()`: the new puller is about to materialize the value. -/
theorem mintPuller (hi : HeapInv G Q P h) (he : h.eager i = false) (hP : ∀ j, P j → U j) (hPi : U i) :
    HeapInv G Q U (h.mintPuller i) := by
  have hminted : ∀ j, h.minted j ≤ (h.mintPuller i).minted j := by
    intro j
    by_cases hj : j = i
    · subst hj
      simp [Heap.mintPuller]
    · simp [Heap.mintPuller, hj]
  exact
  { hi with
    seen := by
      intro m d w hr
      refine (hi.seen m d w hr).imp_right fun hs => ?_
      cases d with
      | computed j =>
        by_cases hj : j = i
        · subst hj
          obtain ⟨hc, ⟨he', _⟩ | ⟨_, hmemo, ho⟩⟩ := hs
          · rw [he] at he'
            cases he'
          · exact ⟨hc, .inr ⟨fun _ => hPi, hmemo, ho⟩⟩
        · obtain ⟨hc, ⟨he', ho⟩ | ⟨he', hmemo, ho⟩⟩ := hs
          · exact ⟨hc, .inl ⟨by simpa [Heap.mintPuller, hj] using he', ho⟩⟩
          · refine ⟨hc, .inr ⟨fun hej => hP j (he' ?_), hmemo, ho⟩⟩
            simpa [Heap.mintPuller, hj] using hej
      | source j => exact hs
      | slot j => exact hs
      | memo j => exact hs
      | effect j => exact hs
      | puller j k => exact hs
    retired := by
      intro n hn
      obtain ⟨j, k, rfl, hlt⟩ := hi.retired n hn
      exact ⟨j, k, rfl, Nat.lt_of_lt_of_le hlt (hminted j)⟩
    minted := by
      intro j k hs
      obtain ⟨hlt, hcur⟩ := hi.minted j k hs
      refine ⟨Nat.lt_of_lt_of_le hlt (hminted j), hcur.imp_right fun hc => ?_⟩
      have hj : j ≠ i := by
        rintro rfl
        rw [he] at hc
        cases hc.1
      simpa [Heap.mintPuller, hj] using hc
    eagerly := by
      intro j hej
      by_cases hj : j = i
      · subst hj
        refine ⟨h.minted j, by simp [Heap.mintPuller], by simp [Heap.mintPuller], ?_, .inl hPi⟩
        by_contra hd
        obtain ⟨j', k', heq, hlt⟩ := hi.retired (.puller j (h.minted j)) (by simpa [Heap.mintPuller] using hd)
        cases heq
        exact Nat.lt_irrefl _ hlt
      · obtain ⟨k, hk, hlt, hd, hcur⟩ := hi.eagerly j (by simpa [Heap.mintPuller, hj] using hej)
        refine ⟨k, by simpa [Heap.mintPuller, hj] using hk, Nat.lt_of_lt_of_le hlt (hminted j), hd, ?_⟩
        exact hcur.imp_left (hP j) }

/-- `lazy()`, when every reader that holds the materialized value also depends on the memo,
which offers the same value. -/
theorem lazy (hi : HeapInv G Q P h) (he : h.eager i = true) (hk : h.puller i = some k) (hPi : ¬ P i)
    (hsafe : ∀ m w, (.computed i, w) ∈ h.reads m → Q m ∨ m ∈ h.parents (.memo i) ∧ ¬ Q (.puller i k)) :
    HeapInv G Q P ((h.dropPuller i).retire (.puller i k)) := by
  set h' := (h.dropPuller i).retire (.puller i k) with hh'
  have hreads : ∀ m, m ≠ .puller i k → h'.reads m = h.reads m := fun m hm => by
    simp [h', retire, dropPuller, detachFromDependencies, hm]
  have hself : h'.reads (.puller i k) = [] := by
    simp [h', retire, dropPuller, detachFromDependencies]
  have hpar : ∀ m, m ≠ .puller i k → ∀ d, m ∈ h.parents d → m ∈ h'.parents d := by
    intro m hm d hd
    by_cases hdep : d ∈ h.deps (.puller i k)
    · simp [h', retire, dropPuller, detachFromDependencies, hdep, hd, hm]
    · simp [h', retire, dropPuller, detachFromDependencies, hdep, hd]
  have heager : ∀ j, h'.eager j = true → j ≠ i ∧ h.eager j = true := by
    intro j hej
    by_cases hj : j = i
    · subst hj
      simp [h', retire, dropPuller, detachFromDependencies] at hej
    · simpa [h', retire, dropPuller, detachFromDependencies, hj] using hej
  have hcur : ∀ j, j ≠ i → h'.puller j = h.puller j ∧ h'.eager j = h.eager j := fun j hj => by
    simp [h', retire, dropPuller, detachFromDependencies, hj]
  have hdisp : ∀ n, n ≠ .puller i k → h'.disposed n = h.disposed n := fun n hn => by
    simp [h', retire, dropPuller, detachFromDependencies, hn]
  have hdead : h'.disposed (.puller i k) = true := by simp [h', retire]
  exact
  { hi with
    seen := by
      intro m d w hr
      have hm : m ≠ .puller i k := by
        rintro rfl
        rw [hself] at hr
        cases hr
      rw [hreads m hm] at hr
      rcases hi.seen m d w hr with hq | hs
      · exact .inl hq
      cases d with
      | source j => exact .inr ⟨hpar m hm _ hs.1, hs.2⟩
      | slot j => exact .inr ⟨hpar m hm _ hs.1, hs.2⟩
      | memo j => exact .inr ⟨hpar m hm _ hs.1, hs.2⟩
      | computed j =>
        obtain ⟨hc, ⟨hej, hw⟩ | ⟨hej, hmemo, ho⟩⟩ := hs
        · by_cases hj : j = i
          · subst hj
            refine (hsafe m w hr).imp_right fun ⟨hmemo, hnq⟩ => ?_
            refine ⟨hpar m hm _ hc, .inr ⟨fun he' => absurd rfl (heager j he').1, hpar m hm _ hmemo, ?_⟩⟩
            -- the puller is not queued, so the memo still holds what it pulled last
            obtain ⟨k', hk', _, _, hp⟩ := hi.eagerly j he
            obtain rfl : k' = k := some.inj (hk' ▸ hk)
            obtain ⟨_, _, hq | ⟨u, hu, hou⟩⟩ := hp.resolve_left hPi
            · exact absurd hq hnq
            have hseen := (hi.seen (.puller j k') (.memo j) u (by simp [hu])).resolve_left hnq
            obtain ⟨a, ha, haw⟩ := hw
            obtain ⟨b, hb, hbu⟩ := hou
            have hab : a = b := some.inj (ha ▸ hb)
            exact ⟨u, hseen.2, fun hx => (hbu hx).symm.trans (hab ▸ haw hx)⟩
          · exact .inr ⟨hpar m hm _ hc, .inl ⟨(hcur j hj).2.trans hej, hw⟩⟩
        · exact .inr ⟨hpar m hm _ hc, .inr ⟨fun he' => hej (heager j he').2, hpar m hm _ hmemo, ho⟩⟩
      | effect j => exact hs.elim
      | puller j k' => exact hs.elim
    replay := by
      intro m v hv
      have hm : m ≠ .puller i k := by
        rintro rfl
        have := hi.cached (.puller i k) (by rw [show h.cache _ = some v from hv]; simp)
        cases this
      rw [hreads m hm]
      exact hi.replay m v hv
    readers := by
      intro m hr
      have hm : m ≠ .puller i k := by
        rintro rfl
        exact hr hself
      rw [hreads m hm] at hr
      rw [hdisp m hm]
      exact hi.readers m hr
    recorded := by
      intro m d w hr
      have hm : m ≠ .puller i k := by
        rintro rfl
        rw [hself] at hr
        cases hr
      rw [hreads m hm] at hr
      simpa [h', retire, dropPuller, detachFromDependencies, hm] using hi.recorded m d w hr
    sinks := by
      intro n hn
      have hnil := hi.sinks n hn
      simp [h', retire, dropPuller, detachFromDependencies, hnil]
    retired := by
      intro n hn
      by_cases hne : n = .puller i k
      · exact ⟨i, k, hne, (hi.current he hk).1⟩
      · exact hi.retired n (hdisp n hne ▸ hn)
    minted := by
      intro j k' hs
      obtain ⟨hlt, hold⟩ := hi.minted j k' hs
      refine ⟨hlt, ?_⟩
      by_cases hne : Node.puller j k' = .puller i k
      · exact .inl (hne ▸ hdead)
      · rw [hdisp _ hne]
        refine hold.imp_right fun hc => ?_
        have hj : j ≠ i := by
          rintro rfl
          obtain rfl : k = k' := some.inj (hk ▸ hc.2)
          exact hne rfl
        rw [(hcur j hj).1, (hcur j hj).2]
        exact hc
    fresh := by
      intro j
      by_cases hj : j = i
      · subst hj
        simp [h', retire, dropPuller, detachFromDependencies]
      · simpa [h', retire, dropPuller, detachFromDependencies, hj] using hi.fresh j
    eagerly := by
      intro j hej
      obtain ⟨hj, hej'⟩ := heager j hej
      obtain ⟨k', hk', hlt, hd, hold⟩ := hi.eagerly j hej'
      have hne : Node.puller j k' ≠ .puller i k := by
        rintro heq
        cases heq
        exact hj rfl
      refine ⟨k', (hcur j hj).1.trans hk', hlt, (hdisp _ hne).trans hd, ?_⟩
      rw [hreads _ hne]
      exact hold }

/-- The puller stores its result. Readers that do not join the queue hold a value that the
new one replaces without a change. -/
theorem pulled (hi : HeapInv G Q P h) {u : V} (hp : Armed h i k) (hc : h.cache (.memo i) = some v)
    (hv : G.ExactGuards → u = v) (hQ : ∀ m, Q m → R m)
    (hold : ∀ m w, m ∈ h.parents (.computed i) → Offers G (h.handle i) w → R m ∨ Offers G (some u) w) :
    HeapInv G R (fun j => P j ∧ j ≠ i) ((h.record (.puller i k) (.memo i) v).setHandle i u) := by
  set h' := (h.record (.puller i k) (.memo i) v).setHandle i u with hh'
  have hreads : ∀ m, m ≠ .puller i k → h'.reads m = h.reads m := fun m hm => by
    simp [h', Heap.record, setHandle, hm]
  have hself : h'.reads (.puller i k) = [(.memo i, v)] := by
    simp [h', Heap.record, setHandle, hp.reads]
  have hhandle : h'.handle i = some u := by simp [h', setHandle]
  have hother : ∀ j, j ≠ i → h'.handle j = h.handle j := fun j hj => by
    simp [h', Heap.record, setHandle, hj]
  exact
  { hi with
    seen := by
      intro m d w hr
      by_cases hm : m = .puller i k
      · subst hm
        rw [hself, mem_singleton] at hr
        cases hr
        exact .inr ⟨hp.parents, hc⟩
      rw [hreads m hm] at hr
      by_cases hq : R m
      · exact .inl hq
      have hs := (hi.seen m d w hr).resolve_left fun hq' => hq (hQ m hq')
      cases d with
      | computed j =>
        by_cases hj : j = i
        · subst hj
          refine .inr ⟨hs.1, .inl ⟨hp.eager, ?_⟩⟩
          rw [hhandle]
          obtain ⟨hm', ⟨_, ho⟩ | ⟨_, _, a, ha, haw⟩⟩ := hs
          · exact (hold m w hm' ho).resolve_left hq
          · have hav : a = v := some.inj (ha ▸ hc)
            exact ⟨u, rfl, fun hx => (hv hx).trans (hav ▸ haw hx)⟩
        · obtain ⟨hm', ⟨he, ho⟩ | ⟨he, hmemo, ho⟩⟩ := hs
          · exact .inr ⟨hm', .inl ⟨he, (hother j hj).symm ▸ ho⟩⟩
          · exact .inr ⟨hm', .inr ⟨fun he' => ⟨he he', hj⟩, hmemo, ho⟩⟩
      | source j => exact .inr hs
      | slot j => exact .inr hs
      | memo j => exact .inr hs
      | effect j => exact .inr hs
      | puller j k' => exact .inr hs
    replay := by
      intro m w hw
      have hm : m ≠ .puller i k := by
        rintro rfl
        have := hi.cached (.puller i k) (by rw [show h.cache _ = some w from hw]; simp)
        cases this
      rw [hreads m hm]
      exact hi.replay m w hw
    readers := by
      intro m hr
      by_cases hm : m = .puller i k
      · subst hm
        exact .inr ⟨rfl, hp.started, (hi.current hp.eager hp.puller).2⟩
      · exact hi.readers m (hreads m hm ▸ hr)
    recorded := by
      intro m d w hr
      by_cases hm : m = .puller i k
      · subst hm
        rw [hself, mem_singleton] at hr
        cases hr
        exact hp.deps
      · exact hi.recorded m d w (hreads m hm ▸ hr)
    eagerly := by
      intro j hej
      obtain ⟨k', hk', hlt, hd, hcur⟩ := hi.eagerly j hej
      refine ⟨k', hk', hlt, hd, ?_⟩
      by_cases hj : j = i
      · subst hj
        obtain rfl : k' = k := some.inj (hk' ▸ hp.puller)
        refine .inr ⟨hp.started, by simp [hhandle], .inr ⟨v, hself, ?_⟩⟩
        rw [hhandle]
        exact ⟨u, rfl, hv⟩
      · have hne : Node.puller j k' ≠ .puller i k := by
          rintro heq
          cases heq
          exact hj rfl
        rw [hreads _ hne, hother j hj]
        exact hcur.imp (fun hPj => ⟨hPj, hj⟩)
          fun hc => ⟨hc.1, hc.2.1, hc.2.2.imp_left (hQ _)⟩ }

end HeapInv

end LazilyPy.Reactive

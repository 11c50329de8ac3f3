import Mathlib.Algebra.Order.BigOperators.Group.Finset
import LazilyPy.Reactive.Machine

/-!
# The wave of a batch

Inside a batch a wave runs no effect. It drops what the slots hold to which it comes, and queues the
effects, and what it leaves is determined by the cells that were touched, whatever the order in which
they were touched and the dependents were visited.
-/

namespace LazilyPy.Reactive

open List
open Heap (clearParents dropCache enqueueEffect invalidateSlot pushParents)
open Node (isEffect isSlot)

variable {V : Type}

namespace Heap

def Drops (h : Heap V) (n : Node) : Prop :=
  n.isSlot = true ∧ h.disposed n = false

def Queues (h : Heap V) (n : Node) : Prop :=
  n.isEffect = true ∧ h.disposed n = false ∧ h.running n = false

instance (h : Heap V) (n : Node) : Decidable (h.Drops n) :=
  inferInstanceAs (Decidable (_ ∧ _))

instance (h : Heap V) (n : Node) : Decidable (h.Queues n) :=
  inferInstanceAs (Decidable (_ ∧ _))

theorem Drops.not_queues {h : Heap V} {n : Node} (hd : h.Drops n) : ¬ h.Queues n := by
  rintro ⟨heffect, -⟩
  have hslot := hd.1
  cases n <;> simp_all [isSlot, isEffect]

def visit (ord : Enum) (n : Node) (h : Heap V) : Heap V :=
  if h.Drops n then h.invalidateSlot ord n
  else if h.Queues n then (h.clearParents n).enqueueEffect n
  else h

end Heap

theorem not_idle_cons {h : Heap V} {t : Ctl V} {f : Frame V} {st : List (Frame V)} :
    ¬ (⟨h, t, f :: st⟩ : Config V).Idle :=
  fun hidle => nomatch hidle.1

theorem visit_pendingCells (ord : Enum) (n : Node) (h : Heap V) : (h.visit ord n).pendingCells = h.pendingCells := by
  unfold Heap.visit
  split
  · rfl
  · split <;> rfl

/-- Inside a batch, an invalidation is a visit. -/
theorem invalidate_in_batch {ord : Enum} {h : Heap V} (hdepth : 0 < h.depth) (st : List (Frame V))
    (n : Node) : invalidate ord h st n = ⟨h.visit ord n, .loop, st⟩ := by
  cases n with
  | source i => simp [invalidate, Heap.visit, Heap.Drops, Heap.Queues, isSlot, isEffect]
  | computed i => simp [invalidate, Heap.visit, Heap.Drops, Heap.Queues, isSlot, isEffect]
  | slot i =>
    by_cases hd : h.disposed (.slot i) = true <;>
      simp [invalidate, Heap.visit, Heap.Drops, Heap.Queues, isSlot, isEffect, hd]
  | memo i =>
    by_cases hd : h.disposed (.memo i) = true <;>
      simp [invalidate, Heap.visit, Heap.Drops, Heap.Queues, isSlot, isEffect, hd]
  | effect i =>
    by_cases hd : h.disposed (.effect i) = true <;> by_cases hr : h.running (.effect i) = true <;>
      simp [invalidate, Heap.visit, Heap.Drops, Heap.Queues, isSlot, isEffect, hd, hr, hdepth]
  | puller i k =>
    by_cases hd : h.disposed (.puller i k) = true <;> by_cases hr : h.running (.puller i k) = true <;>
      simp [invalidate, Heap.visit, Heap.Drops, Heap.Queues, isSlot, isEffect, hd, hr, hdepth]

/-- The wave over the dependents of these cells comes to the node. -/
inductive InWave (h : Heap V) (cells : Set Node) : Node → Prop
  | left {m : Node} : m ∈ h.work → InWave h cells m
  | touched {n m : Node} : n ∈ cells → m ∈ h.parents n → InWave h cells m
  | through {n m : Node} : InWave h cells n → h.Drops n → m ∈ h.parents n → InWave h cells m

theorem InWave.mono {h : Heap V} {cells cells' : Set Node} {m : Node} (hm : InWave h cells m)
    (hsub : cells ⊆ cells') : InWave h cells' m := by
  induction hm with
  | left hwork => exact .left hwork
  | touched hn hmem => exact .touched (hsub hn) hmem
  | through _ hdrops hmem ih => exact .through ih hdrops hmem

def Taken (h₀ : Heap V) (cells : Set Node) (seen : Finset Node) (n : Node) : Prop :=
  n ∈ cells ∨ n ∈ seen ∧ (h₀.Drops n ∨ h₀.Queues n)

/-- Where a wave stands that has started on `h₀`: these cells have been touched, and these nodes have
been seen. -/
structure FrontierSwept (h₀ : Heap V) (cells : Set Node) (seen : Finset Node) (h : Heap V) : Prop where
  same : h = { h₀ with
    cache := h.cache
    reads := h.reads
    parents := h.parents
    pendingCells := h.pendingCells
    pendingEffects := h.pendingEffects
    work := h.work
    active := h.active }
  dropped : ∀ n ∈ seen, h₀.Drops n → h.cache n = none ∧ h.reads n = []
  held : ∀ n, ¬ (n ∈ seen ∧ h₀.Drops n) → h.cache n = h₀.cache n ∧ h.reads n = h₀.reads n
  taken : ∀ n, Taken h₀ cells seen n → h.parents n = []
  kept : ∀ n, ¬ Taken h₀ cells seen n → h.parents n = h₀.parents n
  queued : ∃ new, h.pendingEffects = new ++ h₀.pendingEffects ∧ new.Nodup ∧
    ∀ n, n ∈ new ↔ (n ∈ seen ∧ h₀.Queues n) ∧ n ∉ h₀.pendingEffects
  owed : ∀ m, (m ∈ h₀.work ∨ (∃ n ∈ cells, m ∈ h₀.parents n) ∨
    ∃ n ∈ seen, h₀.Drops n ∧ m ∈ h₀.parents n) → m ∈ seen ∨ m ∈ h.work
  reached : ∀ m, m ∈ seen ∨ m ∈ h.work → InWave h₀ cells m

section

variable {h₀ h h' : Heap V} {cells touched : Set Node} {seen seen' : Finset Node} {n m : Node} {ord : Enum}

theorem FrontierSwept.init (h₀ : Heap V) : FrontierSwept h₀ ∅ ∅ h₀ where
  same := rfl
  dropped := by simp
  held n _ := ⟨rfl, rfl⟩
  taken := by simp [Taken]
  kept n _ := rfl
  queued := ⟨[], by simp⟩
  owed := by simp
  reached := by
    rintro m (hm | hm)
    · cases Finset.notMem_empty m hm
    · exact .left hm

/-- What a wave does not touch. -/
theorem FrontierSwept.recell (hs : FrontierSwept h₀ cells seen h) (pending : List Node) (active : Bool) :
    FrontierSwept h₀ cells seen { h with pendingCells := pending, active := active } where
  same := by
    conv_lhs => rw [hs.same]
  dropped := hs.dropped
  held := hs.held
  taken := hs.taken
  kept := hs.kept
  queued := hs.queued
  owed := hs.owed
  reached := hs.reached

theorem FrontierSwept.depth (hs : FrontierSwept h₀ cells seen h) : h.depth = h₀.depth :=
  (congrArg Heap.depth hs.same).trans rfl

theorem FrontierSwept.disposed (hs : FrontierSwept h₀ cells seen h) : h.disposed = h₀.disposed :=
  (congrArg Heap.disposed hs.same).trans rfl

theorem FrontierSwept.running (hs : FrontierSwept h₀ cells seen h) : h.running = h₀.running :=
  (congrArg Heap.running hs.same).trans rfl

section

variable (hs : FrontierSwept h₀ cells seen h)

include hs

theorem FrontierSwept.drops_iff : h.Drops n ↔ h₀.Drops n := by
  rw [Heap.Drops, Heap.Drops, hs.disposed]

theorem FrontierSwept.queues_iff : h.Queues n ↔ h₀.Queues n := by
  rw [Heap.Queues, Heap.Queues, hs.disposed, hs.running]

/-- The dependents of a node are those from the start, until they are taken. -/
theorem FrontierSwept.parents_cases (n : Node) :
    Taken h₀ cells seen n ∧ h.parents n = [] ∨ ¬ Taken h₀ cells seen n ∧ h.parents n = h₀.parents n := by
  by_cases ht : Taken h₀ cells seen n
  · exact .inl ⟨ht, hs.taken n ht⟩
  · exact .inr ⟨ht, hs.kept n ht⟩

/-- Where the dependents of a node have been taken, they are owed a visit. -/
theorem FrontierSwept.owes (ht : Taken h₀ cells seen n) (hq : ¬ h₀.Queues n) (hm : m ∈ h₀.parents n) :
    m ∈ seen ∨ m ∈ h.work := by
  obtain hn | ⟨hn, hd | hq'⟩ := ht
  · exact hs.owed m (.inr (.inl ⟨n, hn, hm⟩))
  · exact hs.owed m (.inr (.inr ⟨n, hn, hd, hm⟩))
  · exact absurd hq' hq

end

/-- A cell is touched. -/
theorem FrontierSwept.touch (hord : ord.Lawful) (hs : FrontierSwept h₀ cells seen h) (hq : ¬ h₀.Queues n) :
    FrontierSwept h₀ (insert n cells) seen (h.pushParents ord n) where
  same := by
    conv_lhs => rw [hs.same]
    rfl
  dropped := hs.dropped
  held := hs.held
  taken := by
    rintro d ((rfl | hd) | hd)
    · simp [pushParents]
    · by_cases hdn : d = n
      · simp [pushParents, hdn]
      · simp [pushParents, hdn, hs.taken d (.inl hd)]
    · by_cases hdn : d = n
      · simp [pushParents, hdn]
      · simp [pushParents, hdn, hs.taken d (.inr hd)]
  kept := by
    intro d hd
    have hdn : d ≠ n := fun heq => hd (.inl (.inl heq))
    have hkept := hs.kept d fun ht => hd (ht.imp .inr id)
    simp [pushParents, hdn, hkept]
  queued := hs.queued
  owed := by
    have hwork : ∀ m, m ∈ seen ∨ m ∈ h.work → m ∈ seen ∨ m ∈ (h.pushParents ord n).work :=
      fun m hm => hm.imp id fun hmem => mem_append_right _ hmem
    rintro m (hm | ⟨d, rfl | hd, hm⟩ | hm)
    · exact hwork m (hs.owed m (.inl hm))
    · obtain ⟨ht, -⟩ | ⟨-, hparents⟩ := hs.parents_cases d
      · exact hwork m (hs.owes ht hq hm)
      · refine .inr (mem_append_left _ ((hord _ _).mem_iff.mpr ?_))
        exact hparents ▸ hm
    · exact hwork m (hs.owed m (.inr (.inl ⟨d, hd, hm⟩)))
    · exact hwork m (hs.owed m (.inr (.inr hm)))
  reached := by
    have hold : ∀ m, m ∈ seen ∨ m ∈ h.work → InWave h₀ (insert n cells) m :=
      fun m hm => (hs.reached m hm).mono (Set.subset_insert n cells)
    rintro m (hm | hm)
    · exact hold m (.inl hm)
    · obtain hm | hm := mem_append.mp hm
      · have hm := (hord _ _).mem_iff.mp hm
        obtain ⟨-, hparents⟩ | ⟨-, hparents⟩ := hs.parents_cases n
        · simp [hparents] at hm
        · exact .touched (Set.mem_insert n cells) (hparents ▸ hm)
      · exact hold m (.inr hm)

variable {rest : List Node}

/-- What has been seen or waits for a visit, after a visit. -/
theorem FrontierSwept.owed_visit (hs : FrontierSwept h₀ cells seen h) (hwork : h.work = n :: rest)
    {work : List Node} (hrest : rest ⊆ work) (hparents : h₀.Drops n → ∀ m ∈ h.parents n, m ∈ work) (m : Node)
    (hm : m ∈ h₀.work ∨ (∃ n ∈ cells, m ∈ h₀.parents n) ∨ ∃ d ∈ insert n seen, h₀.Drops d ∧ m ∈ h₀.parents d) :
    m ∈ insert n seen ∨ m ∈ work := by
  have hold : m ∈ seen ∨ m ∈ h.work → m ∈ insert n seen ∨ m ∈ work := by
    rintro (hm | hm)
    · exact .inl (Finset.mem_insert_of_mem hm)
    · rw [hwork] at hm
      obtain rfl | hm := mem_cons.mp hm
      · exact .inl (Finset.mem_insert_self m seen)
      · exact .inr (hrest hm)
  obtain hm | hm | ⟨d, hd, hdrops, hm⟩ := hm
  · exact hold (hs.owed m (.inl hm))
  · exact hold (hs.owed m (.inr (.inl hm)))
  · obtain rfl | hd := Finset.mem_insert.mp hd
    · obtain ⟨ht, -⟩ | ⟨-, heq⟩ := hs.parents_cases d
      · exact hold (hs.owes ht hdrops.not_queues hm)
      · exact .inr (hparents hdrops m (heq ▸ hm))
    · exact hold (hs.owed m (.inr (.inr ⟨d, hd, hdrops, hm⟩)))

theorem FrontierSwept.reached_visit (hs : FrontierSwept h₀ cells seen h) (hwork : h.work = n :: rest)
    {work : List Node} (hsub : ∀ m ∈ work, m ∈ rest ∨ h₀.Drops n ∧ m ∈ h.parents n) (m : Node)
    (hm : m ∈ insert n seen ∨ m ∈ work) : InWave h₀ cells m := by
  have hn : InWave h₀ cells n := hs.reached n (.inr (hwork ▸ mem_cons_self))
  obtain hm | hm := hm
  · obtain rfl | hm := Finset.mem_insert.mp hm
    · exact hn
    · exact hs.reached m (.inl hm)
  · obtain hm | ⟨hdrops, hm⟩ := hsub m hm
    · exact hs.reached m (.inr (hwork ▸ mem_cons_of_mem n hm))
    · obtain ⟨-, heq⟩ | ⟨-, heq⟩ := hs.parents_cases n
      · simp [heq] at hm
      · exact .through hn hdrops (heq ▸ hm)

theorem taken_insert {d : Node} (hne : d ≠ n) : Taken h₀ cells (insert n seen) d ↔ Taken h₀ cells seen d := by
  simp [Taken, hne]

/-- A visit drops what a slot holds. -/
theorem FrontierSwept.visit_drops (hord : ord.Lawful) (hs : FrontierSwept h₀ cells seen h)
    (hwork : h.work = n :: rest) (hn : h₀.Drops n) :
    FrontierSwept h₀ cells (insert n seen) (({ h with work := rest } : Heap V).invalidateSlot ord n) where
  same := by
    conv_lhs => rw [hs.same]
    rfl
  dropped := by
    intro d hd hdrops
    by_cases hdn : d = n
    · simp [invalidateSlot, dropCache, pushParents, hdn]
    · have hold := hs.dropped d ((Finset.mem_insert.mp hd).resolve_left hdn) hdrops
      simp [invalidateSlot, dropCache, pushParents, hdn, hold]
  held := by
    intro d hd
    have hdn : d ≠ n := by
      rintro rfl
      exact hd ⟨Finset.mem_insert_self d seen, hn⟩
    have hold := hs.held d fun hmem => hd ⟨Finset.mem_insert_of_mem hmem.1, hmem.2⟩
    simp [invalidateSlot, dropCache, pushParents, hdn, hold]
  taken := by
    intro d hd
    by_cases hdn : d = n
    · simp [invalidateSlot, dropCache, pushParents, hdn]
    · have hold := hs.taken d ((taken_insert hdn).mp hd)
      simp [invalidateSlot, dropCache, pushParents, hdn, hold]
  kept := by
    intro d hd
    have hdn : d ≠ n := by
      rintro rfl
      exact hd (.inr ⟨Finset.mem_insert_self d seen, .inl hn⟩)
    have hold := hs.kept d fun ht => hd ((taken_insert hdn).mpr ht)
    simp [invalidateSlot, dropCache, pushParents, hdn, hold]
  queued := by
    obtain ⟨new, heq, hnodup, hnew⟩ := hs.queued
    refine ⟨new, heq, hnodup, fun d => ?_⟩
    rw [hnew, Finset.mem_insert]
    refine and_congr_left' (and_congr_left fun hq => ⟨.inr, fun hd => hd.resolve_left ?_⟩)
    rintro rfl
    exact hn.not_queues hq
  owed := hs.owed_visit hwork (subset_append_right _ _) fun _ m hm => mem_append_left _ ((hord _ _).mem_iff.mpr hm)
  reached := hs.reached_visit hwork fun m hm =>
    (mem_append.mp hm).symm.imp id fun hm => ⟨hn, (hord _ _).mem_iff.mp hm⟩

/-- A visit queues an effect. -/
theorem FrontierSwept.visit_queues (hs : FrontierSwept h₀ cells seen h) (hwork : h.work = n :: rest)
    (hn : h₀.Queues n) :
    FrontierSwept h₀ cells (insert n seen)
      ((({ h with work := rest } : Heap V).clearParents n).enqueueEffect n) where
  same := by
    conv_lhs => rw [hs.same]
    rfl
  dropped d hd hdrops := by
    refine hs.dropped d ((Finset.mem_insert.mp hd).resolve_left ?_) hdrops
    rintro rfl
    exact hdrops.not_queues hn
  held d hd := hs.held d fun hmem => hd ⟨Finset.mem_insert_of_mem hmem.1, hmem.2⟩
  taken := by
    intro d hd
    by_cases hdn : d = n
    · simp [clearParents, enqueueEffect, hdn]
    · have hold := hs.taken d ((taken_insert hdn).mp hd)
      simp [clearParents, enqueueEffect, hdn, hold]
  kept := by
    intro d hd
    have hdn : d ≠ n := by
      rintro rfl
      exact hd (.inr ⟨Finset.mem_insert_self d seen, .inr hn⟩)
    have hold := hs.kept d fun ht => hd ((taken_insert hdn).mpr ht)
    simp [clearParents, enqueueEffect, hdn, hold]
  queued := by
    obtain ⟨new, heq, hnodup, hnew⟩ := hs.queued
    have hself : n ∉ h₀.pendingEffects → ∀ d, (d = n ∨ d ∈ new ↔
        (d ∈ insert n seen ∧ h₀.Queues d) ∧ d ∉ h₀.pendingEffects) := by
      intro hnot d
      rw [hnew, Finset.mem_insert]
      constructor
      · rintro (rfl | ⟨⟨hd, hq⟩, hpending⟩)
        · exact ⟨⟨.inl rfl, hn⟩, hnot⟩
        · exact ⟨⟨.inr hd, hq⟩, hpending⟩
      · rintro ⟨⟨rfl | hd, hq⟩, hpending⟩
        · exact .inl rfl
        · exact .inr ⟨⟨hd, hq⟩, hpending⟩
    show ∃ new', insertNode n h.pendingEffects = new' ++ h₀.pendingEffects ∧ _
    rw [insertNode, heq]
    split
    · next hmem =>
      -- it has been queued before
      refine ⟨new, rfl, hnodup, fun d => ?_⟩
      by_cases hpending : n ∈ h₀.pendingEffects
      · rw [hnew, Finset.mem_insert]
        refine and_congr_left fun hd => and_congr_left fun _ => ⟨.inr, fun hd' => hd'.resolve_left ?_⟩
        rintro rfl
        exact hd hpending
      · have hnmem := (mem_append.mp hmem).resolve_right hpending
        rw [← hself hpending]
        exact ⟨.inr, fun hd => hd.elim (fun heq => heq ▸ hnmem) id⟩
    · next hnot =>
      rw [mem_append, not_or] at hnot
      refine ⟨n :: new, rfl, nodup_cons.mpr ⟨hnot.1, hnodup⟩, fun d => ?_⟩
      rw [mem_cons]
      exact hself hnot.2 d
  owed := hs.owed_visit hwork (Subset.refl rest) fun hdrops => absurd hn hdrops.not_queues
  reached := hs.reached_visit hwork fun m hm => .inl hm

/-- A visit of any other node does nothing. -/
theorem FrontierSwept.visit_skips (hs : FrontierSwept h₀ cells seen h) (hwork : h.work = n :: rest)
    (hn : ¬ h₀.Drops n) (hq : ¬ h₀.Queues n) :
    FrontierSwept h₀ cells (insert n seen) { h with work := rest } where
  same := by
    conv_lhs => rw [hs.same]
  dropped d hd hdrops := by
    refine hs.dropped d ((Finset.mem_insert.mp hd).resolve_left ?_) hdrops
    rintro rfl
    exact hn hdrops
  held d hd := hs.held d fun hmem => hd ⟨Finset.mem_insert_of_mem hmem.1, hmem.2⟩
  taken d hd := by
    refine hs.taken d (hd.imp id fun hd => ⟨(Finset.mem_insert.mp hd.1).resolve_left ?_, hd.2⟩)
    rintro rfl
    exact hd.2.elim hn hq
  kept d hd := hs.kept d fun ht => hd (ht.imp id fun ht => ⟨Finset.mem_insert_of_mem ht.1, ht.2⟩)
  queued := by
    obtain ⟨new, heq, hnodup, hnew⟩ := hs.queued
    refine ⟨new, heq, hnodup, fun d => ?_⟩
    rw [hnew, Finset.mem_insert]
    refine and_congr_left' (and_congr_left fun hqd => ⟨.inr, fun hd => hd.resolve_left ?_⟩)
    rintro rfl
    exact hq hqd
  owed := hs.owed_visit hwork (Subset.refl rest) fun hdrops => absurd hdrops hn
  reached := hs.reached_visit hwork fun m hm => .inl hm

/-- A node is visited. -/
theorem FrontierSwept.visit (hord : ord.Lawful) (hs : FrontierSwept h₀ cells seen h) (hwork : h.work = n :: rest) :
    FrontierSwept h₀ cells (insert n seen) (({ h with work := rest } : Heap V).visit ord n) := by
  have hdrops : ({ h with work := rest } : Heap V).Drops n ↔ h₀.Drops n := hs.drops_iff
  have hqueues : ({ h with work := rest } : Heap V).Queues n ↔ h₀.Queues n := hs.queues_iff
  unfold Heap.visit
  split
  · next hn => exact hs.visit_drops hord hwork (hdrops.mp hn)
  · next hn =>
    split
    · next hq => exact hs.visit_queues hwork (hqueues.mp hq)
    · next hq => exact hs.visit_skips hwork (fun h => hn (hdrops.mpr h)) fun h => hq (hqueues.mpr h)

/-- Once the work-stack is empty, a wave has seen what it comes to. -/
theorem FrontierSwept.mem_seen_iff (hs : FrontierSwept h₀ cells seen h) (hwork : h.work = []) :
    m ∈ seen ↔ InWave h₀ cells m := by
  have howed : ∀ m, (m ∈ h₀.work ∨ (∃ n ∈ cells, m ∈ h₀.parents n) ∨
      ∃ n ∈ seen, h₀.Drops n ∧ m ∈ h₀.parents n) → m ∈ seen := by
    intro m hm
    refine (hs.owed m hm).resolve_right ?_
    rw [hwork]
    exact not_mem_nil
  constructor
  · exact fun hm => hs.reached m (.inl hm)
  · intro hm
    induction hm with
    | left hm => exact howed _ (.inl hm)
    | touched hn hm => exact howed _ (.inr (.inl ⟨_, hn, hm⟩))
    | through _ hdrops hm ih => exact howed _ (.inr (.inr ⟨_, ih, hdrops, hm⟩))

/-- Two waves over the dependents of the same cells leave the same, and queue the same effects. -/
theorem FrontierSwept.unique (hs : FrontierSwept h₀ cells seen h) (hs' : FrontierSwept h₀ cells seen' h')
    (hwork : h.work = []) (hwork' : h'.work = []) (hactive : h.active = h'.active)
    (hpending : h.pendingCells = h'.pendingCells) :
    ({ h with pendingEffects := [] } : Heap V) = { h' with pendingEffects := [] } ∧
      h.pendingEffects.Perm h'.pendingEffects := by
  have hseen : seen = seen' := by
    ext m
    rw [hs.mem_seen_iff hwork, hs'.mem_seen_iff hwork']
  subst hseen
  have hstored : h.cache = h'.cache ∧ h.reads = h'.reads := by
    constructor <;> funext n
    · by_cases hn : n ∈ seen ∧ h₀.Drops n
      · rw [(hs.dropped n hn.1 hn.2).1, (hs'.dropped n hn.1 hn.2).1]
      · rw [(hs.held n hn).1, (hs'.held n hn).1]
    · by_cases hn : n ∈ seen ∧ h₀.Drops n
      · rw [(hs.dropped n hn.1 hn.2).2, (hs'.dropped n hn.1 hn.2).2]
      · rw [(hs.held n hn).2, (hs'.held n hn).2]
  have hparents : h.parents = h'.parents := by
    funext n
    by_cases hn : Taken h₀ cells seen n
    · rw [hs.taken n hn, hs'.taken n hn]
    · rw [hs.kept n hn, hs'.kept n hn]
  constructor
  · rw [hs.same, hs'.same, hstored.1, hstored.2, hparents, hwork, hwork', hactive, hpending]
  · obtain ⟨new, heq, hnodup, hnew⟩ := hs.queued
    obtain ⟨new', heq', hnodup', hnew'⟩ := hs'.queued
    rw [heq, heq']
    refine Perm.append_right _ ((perm_ext_iff_of_nodup hnodup hnodup').mpr fun n => ?_)
    rw [hnew, hnew']

def unseen (h₀ : Heap V) (nodes seen : Finset Node) : ℕ :=
  ∑ n ∈ nodes \ seen, (h₀.parents n).length

theorem unseen_insert {nodes : Finset Node} (hn : n ∈ nodes) (hnot : n ∉ seen) :
    (h₀.parents n).length + unseen h₀ nodes (insert n seen) = unseen h₀ nodes seen := by
  have hmem : n ∈ nodes \ seen := Finset.mem_sdiff.mpr ⟨hn, hnot⟩
  have herase : nodes \ insert n seen = (nodes \ seen).erase n := by
    ext m
    simp only [Finset.mem_sdiff, Finset.mem_insert, Finset.mem_erase]
    tauto
  rw [unseen, unseen, herase]
  exact Finset.add_sum_erase (nodes \ seen) (fun n => (h₀.parents n).length) hmem

/-- A visit takes more off the work-stack and the dependents that have not been seen than it adds. -/
theorem FrontierSwept.measure_lt (hord : ord.Lawful) (hs : FrontierSwept h₀ cells seen h)
    (hwork : h.work = n :: rest) {nodes : Finset Node} (hn : n ∈ nodes) :
    (({ h with work := rest } : Heap V).visit ord n).work.length + unseen h₀ nodes (insert n seen) <
      h.work.length + unseen h₀ nodes seen := by
  have hlength : h.work.length = rest.length + 1 := by rw [hwork, length_cons]
  by_cases hdrops : h₀.Drops n
  · have hvisit : (({ h with work := rest } : Heap V).visit ord n).work.length =
        (h.parents n).length + rest.length := by
      have hd : ({ h with work := rest } : Heap V).Drops n := hs.drops_iff.mpr hdrops
      simp [Heap.visit, hd, invalidateSlot, pushParents, dropCache, (hord _ _).length_eq]
    by_cases hseen : n ∈ seen
    · -- its dependents have been taken
      have hnil := hs.taken n (.inr ⟨hseen, .inl hdrops⟩)
      rw [Finset.insert_eq_self.mpr hseen, hvisit, hnil, length_nil]
      omega
    · have hle : (h.parents n).length ≤ (h₀.parents n).length := by
        obtain ⟨-, heq⟩ | ⟨-, heq⟩ := hs.parents_cases n
        · simp [heq]
        · exact heq ▸ Nat.le_refl _
      have hsum : (h₀.parents n).length + unseen h₀ nodes (insert n seen) = unseen h₀ nodes seen :=
        unseen_insert hn hseen
      omega
  · have hvisit : (({ h with work := rest } : Heap V).visit ord n).work = rest := by
      have hd : ¬ ({ h with work := rest } : Heap V).Drops n := fun h => hdrops (hs.drops_iff.mp h)
      simp only [Heap.visit, hd, if_false]
      split <;> rfl
    have hsum : unseen h₀ nodes (insert n seen) ≤ unseen h₀ nodes seen := by
      refine Finset.sum_le_sum_of_subset (Finset.sdiff_subset_sdiff (Finset.Subset.refl _) ?_)
      exact Finset.subset_insert n seen
    rw [hvisit]
    omega

def liveCells (h₀ : Heap V) (cells : List Node) : Set Node :=
  {n | n ∈ cells ∧ h₀.disposed n = false}

theorem liveCells_cons_dead {cells : List Node} (hd : h₀.disposed n = true) :
    liveCells h₀ (n :: cells) = liveCells h₀ cells := by
  ext m
  simp only [liveCells, Set.mem_ofPred_eq, mem_cons]
  refine and_congr_left fun hm => ⟨fun h => h.resolve_left ?_, .inr⟩
  rintro rfl
  simp [hd] at hm

theorem liveCells_cons_live {cells : List Node} (hd : h₀.disposed n = false) :
    liveCells h₀ (n :: cells) = insert n (liveCells h₀ cells) := by
  ext m
  simp only [liveCells, Set.mem_ofPred_eq, mem_cons, Set.mem_insert_iff]
  constructor
  · rintro ⟨rfl | hm, hlive⟩
    · exact .inl rfl
    · exact .inr ⟨hm, hlive⟩
  · rintro (rfl | ⟨hm, hlive⟩)
    · exact ⟨.inl rfl, hd⟩
    · exact ⟨.inr hm, hlive⟩

theorem liveCells_append (cells cells' : List Node) :
    liveCells h₀ (cells ++ cells') = liveCells h₀ cells ∪ liveCells h₀ cells' := by
  ext m
  simp [liveCells, or_and_right]

theorem FrontierSwept.touchAll (hord : ord.Lawful) {cells : List Node}
    (hcells : ∀ n ∈ cells, n.isEffect = false) (hs : FrontierSwept h₀ touched seen h) :
    FrontierSwept h₀ (touched ∪ liveCells h₀ cells) seen (h.touchAll ord cells) := by
  induction cells generalizing h touched with
  | nil => simpa [liveCells, Heap.touchAll] using hs
  | cons n cells ih =>
    rw [forall_mem_cons] at hcells
    by_cases hd : h.disposed n = true
    · have htouch : h.touchAll ord (n :: cells) = h.touchAll ord cells := by simp [Heap.touchAll, hd]
      rw [htouch, liveCells_cons_dead (hs.disposed ▸ hd)]
      exact ih hcells.2 hs
    · have hlive : h₀.disposed n = false := by simpa [hs.disposed] using hd
      have htouch : h.touchAll ord (n :: cells) = (h.pushParents ord n).touchAll ord cells := by
        simp [Heap.touchAll, hd]
      rw [htouch, liveCells_cons_live hlive, Set.union_insert, ← Set.insert_union]
      exact ih hcells.2 (hs.touch hord fun hq => Bool.false_ne_true (hcells.1.symm.trans hq.1))

theorem FrontierSwept.flushTouch (hord : ord.Lawful) (hcells : ∀ n ∈ h.pendingCells, n.isEffect = false)
    (hs : FrontierSwept h₀ touched seen h) :
    FrontierSwept h₀ (touched ∪ liveCells h₀ h.pendingCells) seen (h.flushTouch ord) := by
  have hperm := hord none h.pendingCells
  have hset : liveCells h₀ (ord none h.pendingCells) = liveCells h₀ h.pendingCells := by
    ext m
    simp [liveCells, hperm.mem_iff]
  have hcells' := FrontierSwept.touchAll hord (fun n hn => hcells n (hperm.mem_iff.mp hn)) (hs.recell [] h.active)
  rw [hset] at hcells'
  exact hcells'.recell _ true

theorem flushTouch_pendingCells (ord : Enum) (h : Heap V) : (h.flushTouch ord).pendingCells = [] := by
  have heq := congrArg Heap.pendingCells
    (Heap.touchAll_eq ord (ord none h.pendingCells) { h with pendingCells := [] })
  exact heq.trans rfl

structure WaveEnds (h₀ : Heap V) (cells : Set Node) (pending : List Node) (h : Heap V) : Prop where
  swept : ∃ seen, FrontierSwept h₀ cells seen h
  work : h.work = []
  active : h.active = false
  pendingCells : h.pendingCells = pending

theorem WaveEnds.unique {pending : List Node} (he : WaveEnds h₀ cells pending h)
    (he' : WaveEnds h₀ cells pending h') :
    ({ h with pendingEffects := [] } : Heap V) = { h' with pendingEffects := [] } ∧
      h.pendingEffects.Perm h'.pendingEffects := by
  obtain ⟨_, hs⟩ := he.swept
  obtain ⟨_, hs'⟩ := he'.swept
  exact hs.unique hs' he.work he'.work (he.active.trans he'.active.symm) (he.pendingCells.trans he'.pendingCells.symm)

/-- A wave that ends comes to finitely many nodes. -/
theorem WaveEnds.exists_nodes {pending : List Node} (he : WaveEnds h₀ cells pending h) :
    ∃ nodes : Finset Node, ∀ m, InWave h₀ cells m → m ∈ nodes := by
  obtain ⟨seen, hs⟩ := he.swept
  exact ⟨seen, fun m hm => (hs.mem_seen_iff he.work).mpr hm⟩

end

end LazilyPy.Reactive

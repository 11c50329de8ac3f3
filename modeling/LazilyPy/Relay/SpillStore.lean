import LazilyPy.Ingress.Basic
import LazilyPy.Lib.Merging
import LazilyPy.Lib.Throughout
import Mathlib.Algebra.Order.Ring.Int
import Mathlib.Data.List.Nodup

/-!
# The spill store

A durable tail of pages. The consumer is shown the pages that it has not acknowledged, acknowledges them
from the front, and then they are reclaimed. A window that is spilled is merged into the last page until
that is full, or opens a page of its own.
-/

namespace LazilyPy.Relay

open List Option Function

open Ingress (MergePolicy)

variable {T : Type}

inductive SpillMode where
  | compactOnWrite | appendCompact
  deriving DecidableEq, Repr

structure SpillPage (T : Type) where
  id : ℕ
  summary : T
  bytes : ℤ
  deriving DecidableEq

/-- The store. The first `acked` pages can be reclaimed. -/
structure SpillStore (T : Type) where
  mode : SpillMode
  pageSize : ℤ
  mergePolicy : MergePolicy T
  pages : List (SpillPage T) := []
  openFill : ℕ := 0
  nextId : ℕ := 0
  acked : ℕ := 0

namespace SpillStore

def new (mode : SpillMode) (pageSize : ℤ) (mergePolicy : MergePolicy T) : SpillStore T where
  mode := mode
  pageSize := max 1 pageSize
  mergePolicy := mergePolicy

def pushPage (summary : T) (bytes : ℤ) (s : SpillStore T) : SpillStore T :=
  { s with pages := s.pages ++ [⟨s.nextId, summary, bytes⟩], nextId := s.nextId + 1 }

def openPage? (s : SpillStore T) : Option (SpillPage T) :=
  if s.mode = .appendCompact ∨ s.pageSize ≤ s.openFill then none else s.pages.getLast?

def spill (window : T) (bytes : ℤ) (s : SpillStore T) : SpillStore T :=
  match s.openPage? with
  | none => { s.pushPage window bytes with
      openFill := if s.mode = .appendCompact then s.openFill else 1 }
  | some last => { s with
      pages := s.pages.dropLast ++ [{ last with
        summary := s.mergePolicy.merge last.summary window
        bytes := last.bytes + bytes }]
      openFill := s.openFill + 1 }

def pendingPages (s : SpillStore T) : List (SpillPage T) :=
  s.pages.drop s.acked

/-- The cursor after the pages up to `id`, from the pages that are left. -/
def ackLoop (id : ℤ) : List (SpillPage T) → ℕ → ℕ
  | [], acked => acked
  | p :: rest, acked => if (p.id : ℤ) ≤ id then ackLoop id rest (acked + 1) else acked

/-- Acknowledge every page up to `id`. -/
def ackThrough (id : ℤ) (s : SpillStore T) : SpillStore T :=
  { s with acked := ackLoop id s.pendingPages s.acked }

def reclaim (s : SpillStore T) : SpillStore T :=
  { s with pages := s.pages.drop s.acked, acked := 0 }

def replayUnacked (downstream : T) (s : SpillStore T) : T :=
  s.pendingPages.foldl (fun acc p => s.mergePolicy.merge acc p.summary) downstream

def reached (id : ℤ) (s : SpillStore T) : List (SpillPage T) :=
  s.pendingPages.takeWhile fun p => (p.id : ℤ) ≤ id

theorem ackLoop_eq (id : ℤ) (pages : List (SpillPage T)) (acked : ℕ) :
    ackLoop id pages acked = acked + (pages.takeWhile fun p => (p.id : ℤ) ≤ id).length := by
  induction pages generalizing acked with
  | nil => rfl
  | cons p pages ih =>
    rw [ackLoop]
    split
    · next h =>
      rw [ih, takeWhile_cons_of_pos (by simpa using h), length_cons]
      omega
    · next h =>
      rw [takeWhile_cons_of_neg (by simpa using h)]
      rfl

theorem pendingPages_ackThrough (id : ℤ) (s : SpillStore T) :
    (s.ackThrough id).pendingPages = s.pendingPages.dropWhile fun p => (p.id : ℤ) ≤ id := by
  rw [pendingPages, ackThrough, ackLoop_eq, ← drop_drop]
  have hdrop := @drop_left _ (s.pendingPages.takeWhile fun p => (p.id : ℤ) ≤ id)
    (s.pendingPages.dropWhile fun p => (p.id : ℤ) ≤ id)
  rw [takeWhile_append_dropWhile] at hdrop
  exact hdrop

end SpillStore

/-- A window that has been spilled: the page that it has joined, and whether the consumer has been shown
that page since. -/
structure Window (T : Type) where
  page : ℕ
  value : T
  shown : Bool := false

inductive SpillOp (T : Type) where
  | spill (window : T) (bytes : ℤ)
  | show
  | ackThrough (id : ℤ)
  | reclaim

/-- A store, all windows that have been spilled, the ids of the pages that have been acknowledged, and of
those that have been opened. -/
structure Tail (T : Type) where
  store : SpillStore T
  windows : List (Window T) := []
  acknowledged : List ℕ := []
  opened : List ℕ := []

namespace Tail

def step (t : Tail T) : SpillOp T → Tail T
  | .spill window bytes => {
      store := t.store.spill window bytes
      windows := t.windows ++ [⟨t.store.openPage?.elim t.store.nextId (·.id), window, false⟩]
      acknowledged := t.acknowledged
      opened := if t.store.openPage?.isNone then t.opened ++ [t.store.nextId] else t.opened }
  | .show => { t with
      windows := t.windows.map fun w =>
        if w.page ∈ t.store.pendingPages.map SpillPage.id then { w with shown := true } else w }
  | .ackThrough id => { t with
      store := t.store.ackThrough id
      acknowledged := t.acknowledged ++ (t.store.reached id).map SpillPage.id }
  | .reclaim => { t with store := t.store.reclaim }

def run (store : SpillStore T) (ops : List (SpillOp T)) : Tail T :=
  ops.foldl step { store }

theorem run_concat (store : SpillStore T) (ops : List (SpillOp T)) (op : SpillOp T) :
    run store (ops ++ [op]) = (run store ops).step op := by
  simp [run, foldl_append]

/-- The windows that the consumer has not seen in an acknowledged page, each with its page. -/
def unseen (t : Tail T) : List (ℕ × T) :=
  (t.windows.filter fun w => ¬ (w.shown = true ∧ w.page ∈ t.acknowledged)).map fun w => (w.page, w.value)

/-- An acknowledgement names a page that the consumer has been shown. -/
def Allowed (t : Tail T) : SpillOp T → Prop
  | .ackThrough id => ∃ w ∈ t.windows, (w.page : ℤ) = id ∧ w.shown = true
  | _ => True

/-- A window does not join a page that has been acknowledged, and an acknowledgement reaches no page that
a window has joined since the page has been shown. -/
def Sound (t : Tail T) : SpillOp T → Prop
  | .spill _ _ => ∀ last, t.store.openPage? = some last → last.id ∉ t.acknowledged
  | .ackThrough id => ∀ p ∈ t.store.reached id, ∀ w ∈ t.windows, w.page = p.id → w.shown = true
  | _ => True

instance (t : Tail T) : (op : SpillOp T) → Decidable (t.Allowed op)
  | .spill _ _ | .show | .reclaim => inferInstanceAs (Decidable True)
  | .ackThrough id => inferInstanceAs (Decidable (∃ w ∈ t.windows, (w.page : ℤ) = id ∧ w.shown = true))

instance (t : Tail T) : (op : SpillOp T) → Decidable (t.Sound op)
  | .spill _ _ => inferInstanceAs (Decidable (∀ last ∈ t.store.openPage?, last.id ∉ t.acknowledged))
  | .ackThrough id => inferInstanceAs (Decidable
      (∀ p ∈ t.store.reached id, ∀ w ∈ t.windows, w.page = p.id → w.shown = true))
  | .show | .reclaim => inferInstanceAs (Decidable True)

/-- The pending pages are the windows that have not been seen, merged; none of them has been
acknowledged; and no id has been given to two pages. -/
structure Lossless (t : Tail T) : Prop where
  fold : mergeAll t.store.mergePolicy.merge (t.store.pendingPages.map SpillPage.summary) =
    mergeAll t.store.mergePolicy.merge (t.unseen.map Prod.snd)
  replay : ∀ downstream, t.store.replayUnacked downstream =
    (t.unseen.map Prod.snd).foldl t.store.mergePolicy.merge downstream
  delivered : ∀ p ∈ t.store.pendingPages, p.id ∉ t.acknowledged
  opened : t.opened.Nodup

end Tail

/-! ## Pages that summarise windows -/

/-- The pages have the windows, page by page, and each page is its own windows, merged. -/
structure Grouped (merge : T → T → T) (windows : List (ℕ × T)) (pages : List (SpillPage T)) : Prop where
  flatten : windows = (pages.map fun p => windows.filter (·.1 = p.id)).flatten
  summary : ∀ p ∈ pages, mergeAll merge ((windows.filter (·.1 = p.id)).map Prod.snd) = some p.summary

namespace Grouped

variable {merge : T → T → T} {windows : List (ℕ × T)} {pages front back : List (SpillPage T)} {last : SpillPage T}

theorem nil : Grouped merge [] [] :=
  ⟨rfl, fun _ hp => absurd hp not_mem_nil⟩

/-- A window that joins no page of `pages` leaves them as they are. -/
theorem filter_concat {id : ℕ} {p : SpillPage T} (hne : p.id ≠ id) (window : T) :
    (windows ++ [(id, window)]).filter (·.1 = p.id) = windows.filter (·.1 = p.id) := by
  rw [filter_append, filter_singleton]
  simp [Ne.symm hne]

theorem filter_concat_self {id : ℕ} (window : T) :
    (windows ++ [(id, window)]).filter (·.1 = id) = windows.filter (·.1 = id) ++ [(id, window)] := by
  rw [filter_append, filter_singleton]
  simp

/-- A window opens a page. -/
theorem push (h : Grouped merge windows pages) {id : ℕ} (hwindows : ∀ w ∈ windows, w.1 ≠ id)
    (hpages : ∀ p ∈ pages, p.id ≠ id) (window : T) (bytes : ℤ) :
    Grouped merge (windows ++ [(id, window)]) (pages ++ [⟨id, window, bytes⟩]) := by
  have hnone : windows.filter (·.1 = id) = [] := by
    rw [filter_eq_nil_iff]
    intro w hw
    simpa using hwindows w hw
  constructor
  · have hold : (pages.map fun p => (windows ++ [(id, window)]).filter (·.1 = p.id)) =
        pages.map fun p => windows.filter (·.1 = p.id) :=
      map_congr_left fun p hp => filter_concat (hpages p hp) window
    rw [map_append, flatten_append, hold, ← h.flatten, map_singleton, flatten_singleton, filter_concat_self, hnone]
    rfl
  · intro p hp
    obtain hp | hp := mem_append.mp hp
    · rw [filter_concat (hpages p hp)]
      exact h.summary p hp
    · obtain rfl := mem_singleton.mp hp
      rw [filter_concat_self, hnone]
      rfl

/-- A window joins the last page. -/
theorem join (h : Grouped merge windows (front ++ [last])) (hfront : ∀ p ∈ front, p.id ≠ last.id)
    (window : T) (bytes : ℤ) : Grouped merge (windows ++ [(last.id, window)])
      (front ++ [{ last with summary := merge last.summary window, bytes }]) := by
  have hflatten := h.flatten
  rw [map_append, flatten_append, map_singleton, flatten_singleton] at hflatten
  constructor
  · have hold : (front.map fun p => (windows ++ [(last.id, window)]).filter (·.1 = p.id)) =
        front.map fun p => windows.filter (·.1 = p.id) :=
      map_congr_left fun p hp => filter_concat (hfront p hp) window
    rw [map_append, flatten_append, hold, map_singleton, flatten_singleton,
      filter_concat_self, ← append_assoc, ← hflatten]
  · intro p hp
    obtain hp | hp := mem_append.mp hp
    · rw [filter_concat (hfront p hp)]
      exact h.summary p (mem_append_left _ hp)
    · obtain rfl := mem_singleton.mp hp
      dsimp only
      rw [filter_concat_self, map_append, map_singleton, mergeAll_concat, h.summary last (by simp)]
      rfl

/-- The first pages are given up, and their windows with them. -/
theorem drop (h : Grouped merge windows (front ++ back)) (hne : ∀ p ∈ front, ∀ q ∈ back, p.id ≠ q.id) :
    Grouped merge (windows.filter fun w => w.1 ∉ front.map SpillPage.id) back := by
  have hnot : ∀ q ∈ back, ∀ w : ℕ × T, w.1 = q.id → w.1 ∉ front.map SpillPage.id := by
    rintro q hq w heq hin
    obtain ⟨p, hp, hid⟩ := List.mem_map.mp hin
    exact hne p hp q hq (hid.trans heq)
  have hback : ∀ q ∈ back, (windows.filter fun w => w.1 ∉ front.map SpillPage.id).filter (·.1 = q.id) =
      windows.filter (·.1 = q.id) := by
    intro q hq
    rw [List.filter_filter]
    refine filter_congr fun w _ => ?_
    by_cases heq : w.1 = q.id
    · simpa [heq] using hnot q hq w heq
    · simp [heq]
  constructor
  · have hgone : ∀ p ∈ front, (windows.filter (·.1 = p.id)).filter
        (fun w => w.1 ∉ front.map SpillPage.id) = [] := by
      intro p hp
      rw [filter_eq_nil_iff]
      intro w hw
      have hid : w.1 = p.id := by simpa using (mem_filter.mp hw).2
      simpa using ⟨p, hp, hid.symm⟩
    have hkept : (back.map fun q => (windows.filter fun w => w.1 ∉ front.map SpillPage.id).filter
        (·.1 = q.id)) = back.map fun q => windows.filter (·.1 = q.id) :=
      map_congr_left hback
    have hsame : (back.map fun q => (windows.filter (·.1 = q.id)).filter
        fun w => w.1 ∉ front.map SpillPage.id) = back.map fun q => windows.filter (·.1 = q.id) := by
      refine map_congr_left fun q hq => filter_eq_self.mpr fun w hw => ?_
      have hid : w.1 = q.id := by simpa using (mem_filter.mp hw).2
      simpa using hnot q hq w hid
    rw [hkept]
    conv_lhs => rw [h.flatten]
    rw [map_append, flatten_append, filter_append, filter_flatten, filter_flatten, List.map_map, List.map_map]
    have hfront : (front.map ((fun l => l.filter fun w => w.1 ∉ front.map SpillPage.id) ∘
        fun p => windows.filter (·.1 = p.id))).flatten = [] := by
      rw [flatten_eq_nil_iff]
      intro l hl
      obtain ⟨p, hp, rfl⟩ := List.mem_map.mp hl
      exact hgone p hp
    rw [hfront, nil_append]
    exact congrArg List.flatten hsame
  · intro q hq
    rw [hback q hq]
    exact h.summary q (mem_append_right _ hq)

/-- The windows merge to what their pages merge to. -/
theorem mergeAll_eq [Std.Associative merge] (h : Grouped merge windows pages) :
    mergeAll merge (windows.map Prod.snd) = mergeAll merge (pages.map SpillPage.summary) := by
  rw [h.flatten, map_flatten, List.map_map]
  refine mergeAll_flatten ?_
  rw [forall₂_map_left_iff, forall₂_same]
  exact h.summary

end Grouped

/-! ## The invariant -/

namespace Tail

/-- Pages are in the order of their ids, what has been acknowledged comes before what is pending, and the
pending pages have the windows that have not been seen. -/
structure Valid (merge : T → T → T) (t : Tail T) : Prop where
  merge_eq : t.store.mergePolicy.merge = merge
  acked_le : t.store.acked ≤ t.store.pages.length
  sorted : t.store.pages.Pairwise fun p q => p.id < q.id
  below : ∀ p ∈ t.store.pages, p.id < t.store.nextId
  known : ∀ w ∈ t.windows, w.page < t.store.nextId
  reached : ∀ p ∈ t.store.pages.take t.store.acked, p.id ∈ t.acknowledged
  passed : ∀ id ∈ t.acknowledged, id < t.store.nextId ∧ ∀ p ∈ t.store.pendingPages, id < p.id
  opened_lt : ∀ id ∈ t.opened, id < t.store.nextId
  opened_nodup : t.opened.Nodup
  grouped : Grouped merge t.unseen t.store.pendingPages

namespace Valid

variable {merge : T → T → T} {t : Tail T}

theorem init {store : SpillStore T} (hmerge : store.mergePolicy.merge = merge)
    (hpages : store.pages = []) (hacked : store.acked = 0) : Valid merge { store } where
  merge_eq := hmerge
  acked_le := by simp [hacked]
  sorted := by simp [hpages]
  below p hp := by simp [hpages] at hp
  known w hw := absurd hw not_mem_nil
  reached p hp := by simp [hacked] at hp
  passed id hid := absurd hid not_mem_nil
  opened_lt id hid := absurd hid not_mem_nil
  opened_nodup := nodup_nil
  grouped := by
    have hpending : store.pendingPages = [] := by simp [SpillStore.pendingPages, hpages]
    simpa [unseen, hpending] using Grouped.nil

theorem unseen_concat (windows : List (Window T)) (acknowledged opened : List ℕ)
    (store : SpillStore T) (page : ℕ) (value : T) :
    unseen { store, windows := windows ++ [⟨page, value, false⟩], acknowledged, opened } =
      unseen { store, windows, acknowledged, opened } ++ [(page, value)] := by
  simp [unseen, filter_append]

theorem page_of_mem_unseen {x : ℕ × T} (h : x ∈ t.unseen) : ∃ w ∈ t.windows, w.page = x.1 := by
  obtain ⟨w, hw, rfl⟩ := List.mem_map.mp h
  exact ⟨w, (mem_filter.mp hw).1, rfl⟩

/-- The window opens a page. -/
theorem push (h : t.Valid merge) (hopen : t.store.openPage? = none) (window : T) (bytes : ℤ) :
    (t.step (.spill window bytes)).Valid merge := by
  have hpending : (t.store.pages ++ [SpillPage.mk t.store.nextId window bytes]).drop t.store.acked =
      t.store.pendingPages ++ [SpillPage.mk t.store.nextId window bytes] :=
    drop_append_of_le_length h.acked_le
  have hin : ∀ p ∈ t.store.pendingPages, p ∈ t.store.pages := fun p hp => mem_of_mem_drop hp
  simp only [step, SpillStore.spill, hopen, SpillStore.pushPage, elim_none, isNone_none, if_true]
  refine ⟨h.merge_eq, ?_, ?_, ?_, ?_, ?_, ?_, ?_, ?_, ?_⟩
  · simpa using h.acked_le.trans (Nat.le_succ _)
  · refine pairwise_append.mpr ⟨h.sorted, pairwise_singleton _ _, fun p hp q hq => ?_⟩
    obtain rfl := mem_singleton.mp hq
    exact h.below p hp
  · intro p hp
    obtain hp | hp := mem_append.mp hp
    · exact (h.below p hp).trans (Nat.lt_succ_self _)
    · obtain rfl := mem_singleton.mp hp
      exact Nat.lt_succ_self _
  · intro w hw
    obtain hw | hw := mem_append.mp hw
    · exact (h.known w hw).trans (Nat.lt_succ_self _)
    · obtain rfl := mem_singleton.mp hw
      exact Nat.lt_succ_self _
  · rw [take_append_of_le_length h.acked_le]
    exact h.reached
  · intro id hid
    obtain ⟨hlt, hbefore⟩ := h.passed id hid
    refine ⟨hlt.trans (Nat.lt_succ_self _), fun p hp => ?_⟩
    rw [SpillStore.pendingPages, hpending] at hp
    obtain hp | hp := mem_append.mp hp
    · exact hbefore p hp
    · obtain rfl := mem_singleton.mp hp
      exact hlt
  · intro id hid
    obtain hid | hid := mem_append.mp hid
    · exact (h.opened_lt id hid).trans (Nat.lt_succ_self _)
    · obtain rfl := mem_singleton.mp hid
      exact Nat.lt_succ_self _
  · refine Nodup.append h.opened_nodup (nodup_singleton _) ?_
    rw [disjoint_singleton]
    exact fun hid => lt_irrefl _ (h.opened_lt _ hid)
  · rw [unseen_concat, SpillStore.pendingPages, hpending]
    refine h.grouped.push (fun x hx => ?_) (fun p hp => (h.below p (hin p hp)).ne) window bytes
    obtain ⟨w, hw, heq⟩ := page_of_mem_unseen hx
    exact heq ▸ (h.known w hw).ne

/-- The window joins the last page, which is pending. -/
theorem join (h : t.Valid merge) {last : SpillPage T} (hopen : t.store.openPage? = some last)
    (hpending : last.id ∉ t.acknowledged) (window : T) (bytes : ℤ) :
    (t.step (.spill window bytes)).Valid merge := by
  obtain ⟨front, hpages⟩ : ∃ front, t.store.pages = front ++ [last] := by
    unfold SpillStore.openPage? at hopen
    split at hopen
    · exact nomatch hopen
    · exact ⟨_, (dropLast_append_getLast? last hopen).symm⟩
  have hacked : t.store.acked ≤ front.length := by
    by_contra hgt
    refine hpending (h.reached last ?_)
    rw [take_of_length_le (by simp [hpages]; omega), hpages]
    simp
  have hdrop : ∀ p : SpillPage T, (front ++ [p]).drop t.store.acked = front.drop t.store.acked ++ [p] :=
    fun p => drop_append_of_le_length hacked
  have hfront : ∀ p ∈ front, p.id < last.id := by
    intro p hp
    exact (pairwise_append.mp (hpages ▸ h.sorted)).2.2 p hp last (by simp)
  have hlast : last.id < t.store.nextId := h.below last (by simp [hpages])
  have hbelow : ∀ p ∈ front, p.id < t.store.nextId := fun p hp => (hfront p hp).trans hlast
  have hgrouped : Grouped merge t.unseen (front.drop t.store.acked ++ [last]) := by
    have hgrouped := h.grouped
    rwa [SpillStore.pendingPages, hpages, hdrop] at hgrouped
  simp only [step, SpillStore.spill, hopen, hpages, dropLast_concat, elim_some,
    isNone_some, Bool.false_eq_true, if_false]
  refine ⟨h.merge_eq, ?_, ?_, ?_, ?_, ?_, ?_, h.opened_lt, h.opened_nodup, ?_⟩
  · simpa using hacked.trans (Nat.le_succ _)
  · refine pairwise_append.mpr ⟨?_, pairwise_singleton _ _, fun p hp q hq => ?_⟩
    · exact (pairwise_append.mp (hpages ▸ h.sorted)).1
    · obtain rfl := mem_singleton.mp hq
      exact hfront p hp
  · intro p hp
    obtain hp | hp := mem_append.mp hp
    · exact hbelow p hp
    · obtain rfl := mem_singleton.mp hp
      exact hlast
  · intro w hw
    obtain hw | hw := mem_append.mp hw
    · exact h.known w hw
    · obtain rfl := mem_singleton.mp hw
      exact hlast
  · have hreached := h.reached
    rw [hpages, take_append_of_le_length hacked] at hreached
    rw [take_append_of_le_length hacked]
    exact hreached
  · intro id hid
    obtain ⟨hlt, hbefore⟩ := h.passed id hid
    rw [SpillStore.pendingPages, hpages, hdrop] at hbefore
    refine ⟨hlt, fun p hp => ?_⟩
    rw [SpillStore.pendingPages, hdrop] at hp
    obtain hp | hp := mem_append.mp hp
    · exact hbefore p (mem_append_left _ hp)
    · obtain rfl := mem_singleton.mp hp
      exact hbefore last (by simp)
  · rw [unseen_concat, SpillStore.pendingPages, hdrop, h.merge_eq]
    exact hgrouped.join (fun p hp => (hfront p (mem_of_mem_drop hp)).ne) window _

theorem show_ (h : t.Valid merge) : (t.step .show).Valid merge := by
  have hunseen : (t.step .show).unseen = t.unseen := by
    unfold unseen step
    dsimp only
    rw [List.filter_map, List.map_map]
    -- only windows of pending pages are shown, and no pending page has been acknowledged
    have hfilter : ∀ w ∈ t.windows, ((fun w : Window T => decide ¬ (w.shown = true ∧
        w.page ∈ t.acknowledged)) ∘ fun w => if w.page ∈ t.store.pendingPages.map SpillPage.id then
          { w with shown := true } else w) w = decide ¬ (w.shown = true ∧ w.page ∈ t.acknowledged) := by
      intro w _
      simp only [comp_apply]
      split
      · next hin =>
        obtain ⟨p, hp, hid⟩ := List.mem_map.mp hin
        have hnot : w.page ∉ t.acknowledged := fun hack =>
          lt_irrefl _ (hid ▸ (h.passed w.page hack).2 p hp)
        simp [hnot]
      · rfl
    rw [filter_congr hfilter]
    refine map_congr_left fun w _ => ?_
    simp only [comp_apply]
    split
    · rfl
    · rfl
  refine ⟨h.merge_eq, h.acked_le, h.sorted, h.below, fun w hw => ?_, h.reached, h.passed, h.opened_lt,
    h.opened_nodup, ?_⟩
  · obtain ⟨w', hw', rfl⟩ := List.mem_map.mp hw
    have hknown := h.known w' hw'
    split
    · exact hknown
    · exact hknown
  · rw [hunseen]
    exact h.grouped

/-- The windows of the pages that an acknowledgement reaches are seen. -/
theorem unseen_ackThrough {id : ℤ}
    (hshown : ∀ p ∈ t.store.reached id, ∀ w ∈ t.windows, w.page = p.id → w.shown = true) :
    (t.step (.ackThrough id)).unseen = t.unseen.filter fun x => x.1 ∉ (t.store.reached id).map SpillPage.id := by
  simp only [unseen, step]
  rw [List.filter_map, List.filter_filter]
  refine congrArg (map _) (filter_congr fun w hw => ?_)
  have hseen : w.page ∈ (t.store.reached id).map SpillPage.id → w.shown = true := by
    intro hnew
    obtain ⟨p, hp, hid⟩ := List.mem_map.mp hnew
    exact hshown p hp w hw hid.symm
  rw [Bool.eq_iff_iff]
  simp only [comp_apply, mem_append, Bool.and_eq_true, decide_eq_true_eq]
  tauto


theorem ackThrough (h : t.Valid merge) {id : ℤ}
    (hshown : ∀ p ∈ t.store.reached id, ∀ w ∈ t.windows, w.page = p.id → w.shown = true) :
    (t.step (.ackThrough id)).Valid merge := by
  have hsplit : t.store.reached id ++ (t.store.ackThrough id).pendingPages = t.store.pendingPages := by
    rw [SpillStore.pendingPages_ackThrough]
    exact takeWhile_append_dropWhile
  have hin : ∀ p ∈ t.store.pendingPages, p ∈ t.store.pages := fun p hp => mem_of_mem_drop hp
  have hreached : ∀ p ∈ t.store.reached id, p ∈ t.store.pendingPages := fun p hp =>
    hsplit ▸ mem_append_left _ hp
  have hrest : ∀ p ∈ (t.store.ackThrough id).pendingPages, p ∈ t.store.pendingPages := fun p hp =>
    hsplit ▸ mem_append_right _ hp
  have hlt : ∀ p ∈ t.store.reached id, ∀ q ∈ (t.store.ackThrough id).pendingPages, p.id < q.id := by
    have hsorted : t.store.pendingPages.Pairwise fun p q => p.id < q.id := h.sorted.sublist (drop_sublist _ _)
    exact (pairwise_append.mp (hsplit ▸ hsorted)).2.2
  have hacked : (t.store.ackThrough id).acked = t.store.acked + (t.store.reached id).length :=
    SpillStore.ackLoop_eq id _ _
  refine ⟨h.merge_eq, ?_, h.sorted, h.below, h.known, ?_, ?_, h.opened_lt, h.opened_nodup, ?_⟩
  · have hlen : (t.store.reached id).length ≤ t.store.pendingPages.length := by
      rw [← hsplit, length_append]
      exact Nat.le_add_right _ _
    rw [SpillStore.pendingPages, length_drop] at hlen
    have hle := h.acked_le
    show (t.store.ackThrough id).acked ≤ t.store.pages.length
    omega
  · intro p hp
    show p.id ∈ t.acknowledged ++ _
    have hp : p ∈ t.store.pages.take (t.store.acked + (t.store.reached id).length) := hacked ▸ hp
    rw [take_add] at hp
    obtain hp | hp := mem_append.mp hp
    · exact mem_append_left _ (h.reached p hp)
    · have htake : (t.store.pages.drop t.store.acked).take (t.store.reached id).length = t.store.reached id := by
        show t.store.pendingPages.take _ = _
        rw [← hsplit, take_left' rfl]
      rw [htake] at hp
      exact mem_append_right _ (List.mem_map_of_mem hp)
  · intro a ha
    obtain ha | ha := mem_append.mp ha
    · obtain ⟨hnext, hbefore⟩ := h.passed a ha
      exact ⟨hnext, fun p hp => hbefore p (hrest p hp)⟩
    · obtain ⟨p, hp, rfl⟩ := List.mem_map.mp ha
      exact ⟨h.below p (hin p (hreached p hp)), hlt p hp⟩
  · rw [unseen_ackThrough hshown]
    refine Grouped.drop ?_ fun p hp q hq => (hlt p hp q hq).ne
    exact hsplit.symm ▸ h.grouped

theorem reclaim (h : t.Valid merge) : (t.step .reclaim).Valid merge where
  merge_eq := h.merge_eq
  acked_le := Nat.zero_le _
  sorted := h.sorted.sublist (drop_sublist _ _)
  below p hp := h.below p (mem_of_mem_drop hp)
  known := h.known
  reached p hp := absurd hp (by simp [step, SpillStore.reclaim])
  passed := h.passed
  opened_lt := h.opened_lt
  opened_nodup := h.opened_nodup
  grouped := h.grouped

theorem step (h : t.Valid merge) {op : SpillOp T} (hsound : t.Sound op) : (t.step op).Valid merge := by
  cases op with
  | spill window bytes =>
    cases hopen : t.store.openPage? with
    | none => exact h.push hopen window bytes
    | some last => exact h.join hopen (hsound last hopen) window bytes
  | «show» => exact h.show_
  | ackThrough id => exact h.ackThrough hsound
  | reclaim => exact h.reclaim

theorem lossless [Std.Associative merge] (h : t.Valid merge) : t.Lossless := by
  obtain rfl := h.merge_eq
  have hfold := h.grouped.mergeAll_eq
  refine ⟨hfold.symm, fun downstream => ?_, fun p hp hack => ?_, h.opened_nodup⟩
  · rw [foldl_eq_mergeAll, hfold, ← foldl_eq_mergeAll, foldl_map]
    rfl
  · exact lt_irrefl _ ((h.passed p.id hack).2 p hp)

end Valid

theorem valid_run (store : SpillStore T) (hpages : store.pages = []) (hacked : store.acked = 0)
    {ops : List (SpillOp T)} (hsound : Throughout (fun before op => (run store before).Sound op) ops) :
    (run store ops).Valid store.mergePolicy.merge := by
  induction ops using reverseRecOn with
  | nil => exact .init rfl hpages hacked
  | append_singleton ops op ih =>
    obtain ⟨hbefore, hop⟩ := throughout_concat.mp hsound
    exact run_concat store ops op ▸ (ih hbefore).step hop

end Tail

/-- In every run in which no window joins a page that has been acknowledged, and no acknowledgement
reaches a page that a window has joined since the page has been shown, the pending pages are exactly the
windows that have not been seen. -/
theorem lossless_run (mode : SpillMode) (pageSize : ℤ) (mergePolicy : MergePolicy T)
    [Std.Associative mergePolicy.merge] {ops : List (SpillOp T)}
    (hsound : Throughout
      (fun before op => (Tail.run (.new mode pageSize mergePolicy) before).Sound op) ops) :
    (Tail.run (.new mode pageSize mergePolicy) ops).Lossless :=
  have : Std.Associative (SpillStore.new mode pageSize mergePolicy).mergePolicy.merge :=
    inferInstanceAs (Std.Associative mergePolicy.merge)
  (Tail.valid_run _ rfl rfl hsound).lossless

/-- Two windows share a page, which is acknowledged and reclaimed before the third one comes. -/
theorem lossless_run_reclaimed : (Tail.run (.new .compactOnWrite 2 { merge := fun a b : ℕ => a + b })
      [.spill 1 8, .spill 2 8, .show, .ackThrough 0, .reclaim, .spill 3 8]).Lossless :=
  have : Std.Associative (fun a b : ℕ => a + b) := ⟨Nat.add_assoc⟩
  lossless_run .compactOnWrite 2 { merge := fun a b : ℕ => a + b } (by decide)

def compacting : SpillStore ℕ :=
  .new .compactOnWrite 2 { merge := fun a b => a + b }

/-- A window that joins a page after that has been acknowledged is lost. -/
theorem not_always_lossless : ¬ ∀ ops : List (SpillOp ℕ),
    Throughout (fun before op => (Tail.run compacting before).Allowed op) ops →
      (Tail.run compacting ops).Lossless := by
  intro h
  have hfold := (h [.spill 1 8, .show, .ackThrough 0, .spill 2 8] (by decide)).fold
  revert hfold
  decide

end LazilyPy.Relay

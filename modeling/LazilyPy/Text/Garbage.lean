import LazilyPy.Text.Replicas

/-!
# Tombstone collection

A replica collects the deleted elements that none of its own elements has as left origin. What
keeps every replica whole is that no replica at all has an element with such an origin: an
element that comes later would not be reached.
-/

namespace LazilyPy.Text

open List Option Function Table

variable {α : Type}

/-! ## What collection leaves -/

/-- The elements with an id in `X` are deleted, no element has an origin in `X` or a missing one,
and no id in `X` is newer than the replica of its peer. -/
structure Tidy (X : OpId → Prop) (t : TextCrdt α) : Prop where
  buried : ∀ e ∈ t.byId.rows, X e.id → e.deleted = true
  rooted : ∀ e ∈ t.byId.rows, ∀ o, e.origin = some o → ¬ X o ∧ t.Present o
  old : ∀ x, X x → x.peer = t.peer → x.counter ≤ t.counter

namespace Tidy

variable {X : OpId → Prop} {s t t' : TextCrdt α}

theorem of_rows (h : Tidy X t) (hpeer : t'.peer = t.peer) (hcounter : t.counter ≤ t'.counter)
    (hrows : t'.byId.rows = t.byId.rows) : Tidy X t' where
  buried e he := h.buried e (hrows ▸ he)
  rooted e he o ho := by
    obtain ⟨hx, e', he', hid⟩ := h.rooted e (hrows ▸ he) o ho
    exact ⟨hx, e', hrows ▸ he', hid⟩
  old x hx hp := (h.old x hx (hp.trans hpeer)).trans hcounter

/-- What is inserted has an origin that the replica shows. -/
theorem not_collected (h : Tidy X t) {e : TextElement α} (he : e ∈ t.visible) : ¬ X e.id ∧ t.Present e.id := by
  have hmem := t.mem_of_mem_visible he
  refine ⟨fun hx => ?_, e, hmem, rfl⟩
  have hlive := t.deleted_of_mem_visible he
  rw [h.buried e hmem hx] at hlive
  cases hlive

theorem indexToOrigin (h : Tidy X t) (index : ℤ) (x : OpId)
    (hx : (t.indexToOrigin index).1 = some x) : ¬ X x ∧ t.Present x := by
  obtain ⟨e, he, rfl⟩ := TextCrdt.indexToOrigin_visible hx
  exact h.not_collected he

theorem not_nextId (h : Tidy X t) : ¬ X t.nextId := by
  intro hx
  have hle := h.old t.nextId hx rfl
  exact absurd hle (Nat.not_succ_le_self _)

theorem place (h : Tidy X t) (ch : α) (o : Option OpId)
    (ho : ∀ x, o = some x → x.counter ≤ t.counter) (hroot : ∀ x, o = some x → ¬ X x ∧ t.Present x) :
    Tidy X (t.place ch o ho) := by
  have hkept : ∀ x, t.Present x → (t.place ch o ho).Present x := by
    rintro x ⟨e, he, rfl⟩
    refine ⟨e, mem_put.mpr (.inr ⟨he, fun hid => ?_⟩), rfl⟩
    have hle := t.counted e he
    rw [hid] at hle
    exact absurd hle (Nat.not_succ_le_self _)
  refine ⟨fun e he hx => ?_, fun e he x hx => ?_, fun x hx hp => ?_⟩
  · rcases mem_put.mp he with rfl | ⟨he, _⟩
    · exact absurd hx h.not_nextId
    · exact h.buried e he hx
  · rcases mem_put.mp he with rfl | ⟨he, _⟩
    · exact ⟨(hroot x hx).1, hkept x (hroot x hx).2⟩
    · exact ⟨(h.rooted e he x hx).1, hkept x (h.rooted e he x hx).2⟩
  · exact Nat.le_succ_of_le (h.old x hx hp)

theorem placeAll (h : Tidy X t) (chars : List α) (o : Option OpId)
    (ho : ∀ x, o = some x → x.counter ≤ t.counter) (hroot : ∀ x, o = some x → ¬ X x ∧ t.Present x) :
    Tidy X (t.placeAll o ho chars).2 := by
  induction chars generalizing t o with
  | nil => exact h
  | cons ch chars ih =>
    refine ih (h.place ch o ho hroot) (some t.nextId) _ fun x hx => ?_
    obtain rfl := some.inj hx
    exact ⟨h.not_nextId, _, mem_put.mpr (.inl rfl), rfl⟩

theorem tombstone (h : Tidy X t) {target : TextElement α} (hmem : target ∈ t.byId.rows) :
    Tidy X (t.tombstone target hmem) := by
  have hkept : ∀ x, t.Present x → (t.tombstone target hmem).Present x := by
    rintro x ⟨e, he, rfl⟩
    by_cases hid : e.id = target.id
    · exact ⟨_, mem_put.mpr (.inl rfl), hid.symm⟩
    · exact ⟨e, mem_put.mpr (.inr ⟨he, hid⟩), rfl⟩
  refine ⟨fun e he hx => ?_, fun e he x hx => ?_, fun x hx hp => ?_⟩
  · rcases mem_put.mp he with rfl | ⟨he, _⟩
    · rfl
    · exact h.buried e he hx
  · rcases mem_put.mp he with rfl | ⟨he, _⟩
    · exact ⟨(h.rooted target hmem x hx).1, hkept x (h.rooted target hmem x hx).2⟩
    · exact ⟨(h.rooted e he x hx).1, hkept x (h.rooted e he x hx).2⟩
  · exact Nat.le_succ_of_le (h.old x hx hp)

theorem read (h : Tidy X t) : Tidy X t.visibleOrdered.2 :=
  h.of_rows (by simp) (by simp) (by simp)

theorem delete (h : Tidy X t) (index : ℤ) : Tidy X (t.delete index).2 := by
  unfold TextCrdt.delete
  split
  · exact h.read
  · split
    · exact h.read
    · next target hget =>
      exact h.read.tombstone (t.visibleOrdered_byId ▸ t.mem_of_mem_visible (mem_of_getElem? hget))

/-- Local operations leave a tidy replica tidy. -/
theorem edit (h : Tidy X t) (e : Edit α) : Tidy X (e.run t) := by
  cases e with
  | insert index ch =>
    match ch with
    | [c] => exact h.place c _ (t.indexToOrigin_counter index) (h.indexToOrigin index)
    | [] => exact h
    | _ :: _ :: _ => exact h
  | insertStr index chars =>
    exact (h.placeAll chars _ (t.indexToOrigin_counter index) (h.indexToOrigin index)).of_rows rfl le_rfl rfl
  | delete index => exact h.delete index
  | read => exact h.read

/-- Elements of a tidy replica, after which everything that it knows is known. -/
theorem applyDelta (h : Tidy X t) (hs : Tidy X s) {ops : Table (TextElement.id (α := α))}
    (hops : ∀ e ∈ ops.rows, e ∈ s.byId.rows) (hcov : (t.applyDelta ops.rows).2.Covers X s) :
    Tidy X (t.applyDelta ops.rows).2 := by
  have hown := t.covers_applyDelta (X := fun _ => False) ops
  refine ⟨fun e he hx => ?_, fun e he x hx => ?_, fun x hx hp => ?_⟩
  · obtain ⟨e₀, hfrom, hid, _⟩ := TextCrdt.mem_applyDelta he
    rw [← hid] at hx
    -- a deleted element of either replica is deleted after the join
    have hdeleted : ∃ d, e₀.deleteId = some d ∧ (t.applyDelta ops.rows).2.Buried e₀.id d := by
      rcases hfrom with hfrom | hfrom
      · obtain ⟨d, hd⟩ := isSome_iff_exists.mp (e₀.marked ▸ h.buried e₀ hfrom hx)
        exact ⟨d, hd, ((hown e₀ hfrom).resolve_left id).2 d hd⟩
      · obtain ⟨d, hd⟩ := isSome_iff_exists.mp (e₀.marked ▸ hs.buried e₀ (hops e₀ hfrom) hx)
        exact ⟨d, hd, (t.observed ops hfrom).2 d hd⟩
    obtain ⟨d, _, e₁, he₁, hid₁, d', hd', _⟩ := hdeleted
    obtain rfl := eq_of_key_eq he he₁ (hid.symm.trans hid₁.symm)
    rw [e.marked, hd', isSome_some]
  · obtain ⟨e₀, hfrom, _, _, horigin⟩ := TextCrdt.mem_applyDelta he
    rw [← horigin] at hx
    rcases hfrom with hfrom | hfrom
    · obtain ⟨hnot, hpresent⟩ := h.rooted e₀ hfrom x hx
      exact ⟨hnot, (hpresent.covers hown).resolve_left id⟩
    · obtain ⟨hnot, hpresent⟩ := hs.rooted e₀ (hops e₀ hfrom) x hx
      exact ⟨hnot, (hpresent.covers hcov).resolve_left hnot⟩
  · exact (h.old x hx hp).trans (TextCrdt.le_advance _ _)

/-- In a tidy replica every element is reached. -/
theorem mem_order (h : Tidy X t) {e : TextElement α} (he : e ∈ t.byId.rows) : e ∈ order t.byId.rows :=
  Text.mem_order (fun e he o ho => (h.rooted e he o ho).2) he

open Classical in
/-- The text does not depend on the elements with an id in `X`. -/
theorem text_eq (h : Tidy X t) : t.text =
    ((order (t.byId.filter fun e => ¬ X e.id).rows).filter fun e => !e.deleted).map
      TextElement.ch := by
  have hleaf : ∀ e ∈ t.byId.rows, (decide (¬ X e.id)) = false → ∀ e' ∈ t.byId.rows, e'.origin ≠ some e.id := by
    intro e _ hx e' he' horigin
    exact (h.rooted e' he' e.id horigin).1 (by simpa using hx)
  have hfilter := order_filter t.byId.nodup (p := fun e => decide (¬ X e.id)) hleaf
  rw [TextCrdt.text, TextCrdt.visible_eq, Table.filter, hfilter, List.filter_filter]
  refine congrArg _ (filter_congr fun e he => ?_)
  by_cases hx : X e.id
  · simp [hx, h.buried e (mem_of_mem_order he) hx]
  · simp [hx]

end Tidy

namespace TextCrdt

/-- Nothing that a replica shows is collected, and its order is kept. -/
theorem text_gc (t : TextCrdt α) (stable : Bool) : (t.gc stable).2.text = t.text := by
  cases stable with
  | false => rfl
  | true =>
    have hleaf : ∀ e ∈ t.byId.rows, (!t.collectable e) = false → ∀ e' ∈ t.byId.rows, e'.origin ≠ some e.id := by
      intro e _ hc e' he' horigin
      have hunreferenced : t.referenced e = false := by
        have hboth : e.deleted = true ∧ t.referenced e = false := by
          simpa [collectable] using hc
        exact hboth.2
      exact List.any_eq_false.mp hunreferenced e' he' (by simpa using horigin)
    have hrows : (t.gc true).2.byId.rows = t.byId.rows.filter fun e => !t.collectable e := rfl
    rw [text, text, visible_eq, visible_eq, hrows, order_filter t.byId.nodup hleaf, List.filter_filter]
    refine congrArg _ (filter_congr fun e _ => ?_)
    cases hdeleted : e.deleted <;> simp [collectable, hdeleted]

end TextCrdt

/-! ## Replicas that collect -/

structure Shared (ι α : Type) where
  replica : ι → TextCrdt α
  collected : Set OpId

namespace Shared

variable {ι : Type}

def init (peerOf : ι → ℤ) : Shared ι α where
  replica i := .empty α (peerOf i)
  collected := ∅

def Settled (w : Shared ι α) (x : OpId) : Prop :=
  ∀ j, ∃ e ∈ (w.replica j).byId.rows, e.id = x ∧ e.deleted = true

def Unreferenced (w : Shared ι α) (x : OpId) : Prop :=
  ∀ j, ∀ e ∈ (w.replica j).byId.rows, e.origin ≠ some x

/-- Every replica holds the element as deleted, or has been able to collect it, and no replica has
an element that was inserted after it. -/
def Spent (w : Shared ι α) (x : OpId) : Prop :=
  (x ∈ w.collected ∨ w.Settled x) ∧ w.Unreferenced x

structure Sound (peerOf : ι → ℤ) (w : Shared ι α) : Prop where
  causal : Causal peerOf (· ∈ w.collected) w.replica fun s => ∃ j, s = w.replica j
  tidy : ∀ j, Tidy (· ∈ w.collected) (w.replica j)

def Exchanged (s t : TextCrdt α) : Prop :=
  (t.applyDelta (s.deltaSince t.versionVector)).1 = false ∧ (s.applyDelta (t.deltaSince s.versionVector)).1 = false

instance (s t : TextCrdt α) : Decidable (Exchanged s t) :=
  inferInstanceAs (Decidable (_ ∧ _))

open Classical in
theorem Sound.text_eq {peerOf : ι → ℤ} {w : Shared ι α} (h : w.Sound peerOf) {i j : ι}
    (hex : Exchanged (w.replica i) (w.replica j)) : (w.replica i).text = (w.replica j).text := by
  have hi : ∃ k, w.replica i = w.replica k := ⟨i, rfl⟩
  have hj : ∃ k, w.replica j = w.replica k := ⟨j, rfl⟩
  have hji := h.causal.covers_of_unchanged hi hj hex.1
  have hij := h.causal.covers_of_unchanged hj hi hex.2
  let kept (t : TextCrdt α) := t.byId.filter fun e => ¬ e.id ∈ w.collected
  have hperm : (kept (w.replica i)).rows.Perm (kept (w.replica j)).rows := by
    refine (perm_ext_iff_of_nodup (Nodup.of_map _ (kept _).nodup) (Nodup.of_map _ (kept _).nodup)).mpr fun e => ?_
    simp only [kept, Table.filter, mem_filter, decide_eq_true_eq]
    constructor
    · rintro ⟨he, hx⟩
      exact ⟨h.causal.mem_of_covers hi hj hji hij he hx, hx⟩
    · rintro ⟨he, hx⟩
      exact ⟨h.causal.mem_of_covers hj hi hij hji he hx, hx⟩
  rw [(h.tidy i).text_eq, (h.tidy j).text_eq, order_perm hperm (kept _).nodup]

variable [DecidableEq ι]

def move (w : Shared ι α) (i : ι) (t : TextCrdt α) : Shared ι α :=
  { w with replica := update w.replica i t }

def gc (w : Shared ι α) (i : ι) (stable : Bool) : Shared ι α where
  replica := update w.replica i ((w.replica i).gc stable).2
  collected := {x | x ∈ w.collected ∨
    stable = true ∧ ∃ e ∈ (w.replica i).byId.rows, (w.replica i).collectable e = true ∧ e.id = x}

/-- What can happen, where a replica collects only elements that satisfy `ok`. -/
inductive Step (ok : Shared ι α → OpId → Prop) : Shared ι α → Shared ι α → Prop
  | edit (w : Shared ι α) (i : ι) (e : Edit α) : Step ok w (w.move i (e.run (w.replica i)))
  | merge (w : Shared ι α) (i j : ι) : Step ok w (w.move i ((w.replica i).merge (w.replica j)))
  | pull (w : Shared ι α) (i j : ι) : Step ok w (w.move i
        ((w.replica i).applyDelta ((w.replica j).deltaSince (w.replica i).versionVector)).2)
  | gc (w : Shared ι α) (i : ι) (stable : Bool) :
      (∀ e ∈ (w.replica i).byId.rows, stable = true → (w.replica i).collectable e = true →
        ok w e.id) → Step ok w (w.gc i stable)

def Reached (peerOf : ι → ℤ) (ok : Shared ι α → OpId → Prop) (w : Shared ι α) : Prop :=
  Relation.ReflTransGen (Step ok) (init peerOf) w

variable {peerOf : ι → ℤ} {w w' : Shared ι α}

/-- A replica moves to a tidy state that it may move to. -/
theorem Sound.move {i : ι} {t : TextCrdt α} (h : w.Sound peerOf)
    (hcausal : Causal peerOf (· ∈ w.collected) (update w.replica i t) fun s => s = t ∨ ∃ j, s = w.replica j)
    (ht : Tidy (· ∈ w.collected) t) : (w.move i t).Sound peerOf where
  causal := by
    refine hcausal.mono (fun _ => id) ?_ fun j => ⟨j, rfl⟩
    rintro s ⟨j, rfl⟩
    by_cases hji : j = i
    · subst hji
      exact .inl (by simp [Shared.move])
    · exact .inr ⟨j, by simp [Shared.move, hji]⟩
  tidy j := by
    by_cases hji : j = i
    · subst hji
      simpa [Shared.move] using ht
    · simpa [Shared.move, hji] using h.tidy j

/-- Every element of a replica after a collection was there before, and what is missing has been
collected. -/
theorem mem_gc (w : Shared ι α) (i : ι) (stable : Bool) (j : ι) :
    (∀ e ∈ ((w.gc i stable).replica j).byId.rows, e ∈ (w.replica j).byId.rows) ∧ ∀ e ∈ (w.replica j).byId.rows,
        e.id ∈ (w.gc i stable).collected ∨ e ∈ ((w.gc i stable).replica j).byId.rows := by
  by_cases hji : j = i
  · subst hji
    cases stable with
    | false =>
      simp only [gc, TextCrdt.gc, update_self]
      exact ⟨fun _ he => he, fun _ he => .inr he⟩
    | true =>
      have hrows : ((w.gc j true).replica j).byId.rows =
          (w.replica j).byId.rows.filter fun e => !(w.replica j).collectable e := by
        simp [gc, TextCrdt.gc, Table.filter]
      rw [hrows]
      refine ⟨fun e he => (mem_filter.mp he).1, fun e he => ?_⟩
      by_cases hc : (w.replica j).collectable e = true
      · exact .inl (.inr ⟨rfl, e, he, hc, rfl⟩)
      · exact .inr (mem_filter.mpr ⟨he, by simpa using hc⟩)
  · simp only [gc, ne_eq, hji, not_false_eq_true, update_of_ne]
    exact ⟨fun _ he => he, fun _ he => .inr he⟩

theorem counter_gc (w : Shared ι α) (i : ι) (stable : Bool) (j : ι) :
    ((w.gc i stable).replica j).peer = (w.replica j).peer ∧
      ((w.gc i stable).replica j).counter = (w.replica j).counter := by
  by_cases hji : j = i
  · subst hji
    cases stable <;> simp [gc, TextCrdt.gc]
  · simp [gc, hji]

/-- Collecting what is spent keeps the replicas sound. -/
theorem Sound.gc (h : w.Sound peerOf) (i : ι) (stable : Bool)
    (hok : ∀ e ∈ (w.replica i).byId.rows, stable = true → (w.replica i).collectable e = true →
      w.Spent e.id) : (w.gc i stable).Sound peerOf := by
  have hmentions : ∀ j d, ((w.gc i stable).replica j).Mentions d → (w.replica j).Mentions d := by
    rintro j d ⟨e, he, hd⟩
    exact ⟨e, (w.mem_gc i stable j).1 e he, hd⟩
  have hpresent : ∀ j x, (w.replica j).Present x →
      x ∈ (w.gc i stable).collected ∨ ((w.gc i stable).replica j).Present x := by
    rintro j x ⟨e, he, rfl⟩
    exact ((w.mem_gc i stable j).2 e he).imp id fun he => ⟨e, he, rfl⟩
  have hburied : ∀ j x d, (w.replica j).Buried x d →
      x ∈ (w.gc i stable).collected ∨ ((w.gc i stable).replica j).Buried x d := by
    rintro j x d ⟨e, he, rfl, hd⟩
    exact ((w.mem_gc i stable j).2 e he).imp id fun he => ⟨e, he, rfl, hd⟩
  have hcurrent : ∀ j, ∃ k, w.replica j = w.replica k := fun j => ⟨j, rfl⟩
  refine ⟨⟨fun j => ⟨j, rfl⟩, fun j => ?_, ?_, ?_, ?_, ?_, ?_, ?_⟩, fun j => ⟨?_, ?_, ?_⟩⟩
  · exact (w.counter_gc i stable j).1.trans (h.causal.peer j)
  · rintro s ⟨j, rfl⟩ d hd k hk
    rw [(w.counter_gc i stable k).2]
    exact h.causal.bound _ (hcurrent j) d (hmentions j d hd) k hk
  · rintro s t ⟨j, rfl⟩ ⟨k, rfl⟩ e he e' he' hid
    exact h.causal.agree _ _ (hcurrent j) (hcurrent k) e ((w.mem_gc i stable j).1 e he) e'
      ((w.mem_gc i stable k).1 e' he') hid
  · rintro s t ⟨j, rfl⟩ ⟨k, rfl⟩ d hd e he hp hc
    rcases h.causal.inserts _ _ (hcurrent j) (hcurrent k) d (hmentions j d hd) e
      ((w.mem_gc i stable k).1 e he) hp hc with hx | hx
    · exact .inl (.inl hx)
    · exact hpresent j e.id hx
  · rintro s t ⟨j, rfl⟩ ⟨k, rfl⟩ d hd e he d' hd' hp hc
    rcases h.causal.deletes _ _ (hcurrent j) (hcurrent k) d (hmentions j d hd) e
      ((w.mem_gc i stable k).1 e he) d' hd' hp hc with hx | hx
    · exact .inl (.inl hx)
    · exact hburied j e.id d' hx
  · rintro t ⟨k, rfl⟩ e he j hp
    rcases h.causal.ownInserts _ (hcurrent k) e ((w.mem_gc i stable k).1 e he) j hp with hx | hx
    · exact .inl (.inl hx)
    · exact hpresent j e.id hx
  · rintro t ⟨k, rfl⟩ e he d hd j hp
    rcases h.causal.ownDeletes _ (hcurrent k) e ((w.mem_gc i stable k).1 e he) d hd j hp with hx | hx
    · exact .inl (.inl hx)
    · exact hburied j e.id d hx
  · intro e he hx
    have hmem := (w.mem_gc i stable j).1 e he
    rcases hx with hx | ⟨hstable, e₁, he₁, hc, hid⟩
    · exact (h.tidy j).buried e hmem hx
    · rcases (hok e₁ he₁ hstable hc).1 with hx | hsettled
      · exact (h.tidy j).buried e hmem (hid ▸ hx)
      · obtain ⟨e₂, he₂, hid₂, hdeleted⟩ := hsettled j
        rwa [eq_of_key_eq hmem he₂ (hid.symm.trans hid₂.symm)]
  · intro e he o ho
    have hmem := (w.mem_gc i stable j).1 e he
    obtain ⟨hold, hp⟩ := (h.tidy j).rooted e hmem o ho
    have hnot : o ∉ (w.gc i stable).collected := by
      rintro (hx | ⟨hstable, e₁, he₁, hc, rfl⟩)
      · exact hold hx
      · exact (hok e₁ he₁ hstable hc).2 j e hmem ho
    exact ⟨hnot, (hpresent j o hp).resolve_left hnot⟩
  · rintro x (hx | ⟨_, e₁, he₁, _, rfl⟩) hp
    · rw [(w.counter_gc i stable j).1] at hp
      rw [(w.counter_gc i stable j).2]
      exact (h.tidy j).old x hx hp
    · rw [(w.counter_gc i stable j).1, h.causal.peer j] at hp
      rw [(w.counter_gc i stable j).2]
      exact h.causal.bound _ (hcurrent i) e₁.id ⟨e₁, he₁, .inl rfl⟩ j hp.symm

theorem sound_step (hinj : Injective peerOf) (h : w.Sound peerOf) (hs : Step Spent w w') :
    w'.Sound peerOf := by
  cases hs with
  | edit i e => exact h.move (h.causal.edit hinj i e) ((h.tidy i).edit e)
  | merge i j =>
    have hcov := (w.replica i).covers_merge (X := (· ∈ w.collected)) (w.replica j)
    exact h.move (h.causal.update hinj (.applyDelta h.causal ⟨j, rfl⟩ (fun _ he => he) hcov))
      ((h.tidy i).applyDelta (h.tidy j) (fun _ he => he) hcov)
  | pull i j =>
    have hcov := h.causal.covers_delta (s := w.replica j) (t := w.replica i) ⟨j, rfl⟩ ⟨i, rfl⟩
    have hops : ∀ e ∈ ((w.replica j).byId.filter
        (TextCrdt.unseen (w.replica i).versionVector)).rows, e ∈ (w.replica j).byId.rows :=
      fun e he => (mem_filter.mp he).1
    exact h.move (h.causal.update hinj (.applyDelta h.causal ⟨j, rfl⟩ hops hcov))
      ((h.tidy i).applyDelta (h.tidy j) hops hcov)
  | gc i stable hok => exact h.gc i stable hok

/-- Replicas that collect only what is spent stay sound. -/
theorem sound_run (hinj : Injective peerOf) (hrun : Reached peerOf Spent w) : w.Sound peerOf := by
  induction hrun with
  | refl =>
    refine ⟨(Text.Causal.init peerOf).mono (fun _ => id) (fun _ hs => hs) fun i => ⟨i, rfl⟩,
      fun j => ⟨nofun, nofun, nofun⟩⟩
  | tail _ hs ih => exact sound_step hinj ih hs

/-- In every run in which the replicas collect only what is spent, collecting changes no text, no
element misses its origin, so that all are reached, and replicas that have exchanged everything
have the same text. -/
theorem gc_safe (hinj : Injective peerOf) (hrun : Reached peerOf Spent w) :
    (∀ i stable, ((w.replica i).gc stable).2.text = (w.replica i).text) ∧
    (∀ i, ∀ e ∈ (w.replica i).byId.rows,
      (∀ o, e.origin = some o → (w.replica i).Present o) ∧ e ∈ order (w.replica i).byId.rows) ∧
    ∀ i j, Exchanged (w.replica i) (w.replica j) → (w.replica i).text = (w.replica j).text := by
  have h := sound_run hinj hrun
  refine ⟨fun i stable => (w.replica i).text_gc stable, fun i e he => ⟨fun o ho => ?_, ?_⟩,
    fun i j hex => h.text_eq hex⟩
  · exact ((h.tidy i).rooted e he o ho).2
  · exact (h.tidy i).mem_order he

/-! ## Two replicas -/

open World (twoPeers twoPeers_injective)

/-- A first character at one replica, after which the other one inserts a second character. Then
the first replica deletes its character and inserts a third one, and the other one merges this:
both replicas hold the first character as deleted. -/
def behind : Shared Bool Char :=
  let w := (init twoPeers).move false ((Edit.insert 0 ['x']).run (.empty Char 1))
  let w := w.move true ((w.replica true).merge (w.replica false))
  let w := w.move true ((Edit.insert 1 ['f']).run (w.replica true))
  let w := w.move false ((Edit.delete 0).run (w.replica false))
  let w := w.move false ((Edit.insert 0 ['y']).run (w.replica false))
  w.move true ((w.replica true).merge (w.replica false))

theorem reached_behind (ok : Shared Bool Char → OpId → Prop) : Reached twoPeers ok behind :=
  .tail (.tail (.tail (.tail (.tail (.tail .refl (.edit _ false (.insert 0 ['x'])))
    (.merge _ true false)) (.edit _ true (.insert 1 ['f']))) (.edit _ false (.delete 0)))
    (.edit _ false (.insert 0 ['y']))) (.merge _ true false)

/-- The first replica collects, and then pulls the second character. -/
def orphaned : Shared Bool Char :=
  let w := behind.gc false true
  w.move false ((w.replica false).applyDelta ((w.replica true).deltaSince (w.replica false).versionVector)).2

/-- Each replica has everything that the other one has to send, and their texts differ: the
second character is never reached. -/
theorem gc_orphans : Reached twoPeers Settled orphaned ∧ Exchanged (orphaned.replica false) (orphaned.replica true) ∧
    (orphaned.replica false).text = ['y'] ∧ (orphaned.replica true).text = ['y', 'f'] := by
  refine ⟨.tail (.tail (reached_behind Settled) (.gc _ false true ?_)) (.pull _ false true), ?_⟩
  · have hsettled : ∀ e ∈ (behind.replica false).byId.rows,
        (behind.replica false).collectable e = true → e.id = ⟨1, 1⟩ := by decide
    have hboth : ∀ j, ∃ e ∈ (behind.replica j).byId.rows, e.id = ⟨1, 1⟩ ∧ e.deleted = true := by
      decide
    intro e he _ hc
    rw [hsettled e he hc]
    exact hboth
  · decide

def known : Shared Bool Char :=
  let w := (init twoPeers).move false ((Edit.insert 0 ['x']).run (.empty Char 1))
  let w := w.move false ((Edit.delete 0).run (w.replica false))
  w.move true ((w.replica true).merge (w.replica false))

/-- One of them collects it, the other one inserts, and the first one merges the other. -/
def collecting : Shared Bool Char :=
  let w := known.gc false true
  let w := w.move true ((Edit.insert 0 ['c']).run (w.replica true))
  w.move false ((w.replica false).merge (w.replica true))

theorem reached_collecting : Reached twoPeers Spent collecting := by
  have hknown : Reached twoPeers Spent known :=
    .tail (.tail (.tail .refl (.edit _ false (.insert 0 ['x']))) (.edit _ false (.delete 0))) (.merge _ true false)
  have hcollected : ∀ e ∈ (known.replica false).byId.rows,
      (known.replica false).collectable e = true → e.id = ⟨1, 1⟩ := by decide
  have hsettled : ∀ j, ∃ e ∈ (known.replica j).byId.rows, e.id = ⟨1, 1⟩ ∧ e.deleted = true := by
    decide
  have hunreferenced : ∀ j, ∀ e ∈ (known.replica j).byId.rows, e.origin ≠ some ⟨1, 1⟩ := by decide
  refine .tail (.tail (.tail hknown (.gc _ false true fun e he _ hc => ?_))
    (.edit _ true (.insert 0 ['c']))) (.merge _ false true)
  rw [hcollected e he hc]
  exact ⟨.inr hsettled, hunreferenced⟩

theorem gc_safe_collecting : (collecting.replica false).text = (collecting.replica true).text ∧
    (collecting.replica true).text = ['c'] :=
  ⟨(gc_safe twoPeers_injective reached_collecting).2.2 false true (by decide), by decide⟩

end Shared

end LazilyPy.Text

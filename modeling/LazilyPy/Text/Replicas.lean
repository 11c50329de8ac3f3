import LazilyPy.Lib.Merging
import LazilyPy.Text.Delta

/-!
# Replicas that exchange states and deltas

Any number of replicas with distinct peers. A replica edits its text, merges a state that some
replica has been in, or pulls a delta from one. In every run, merging states that replicas have been
in is a join, whatever the order and the grouping, and a delta carries exactly what a merge of the
whole state would.
-/

namespace LazilyPy.Text

open Function

variable {α : Type}

/-- The local operations. Reading the text fills the cache of the order. -/
inductive Edit (α : Type) where
  | insert (index : ℤ) (ch : List α)
  | insertStr (index : ℤ) (chars : List α)
  | delete (index : ℤ)
  | read

/-- The replica after a local operation; a rejected insert leaves it as it is. -/
def Edit.run (t : TextCrdt α) : Edit α → TextCrdt α
  | insert index ch =>
    match t.insert index ch with
    | .ok (_, t') => t'
    | .error _ => t
  | insertStr index chars => (t.insertStr index chars).2
  | delete index => (t.delete index).2
  | read => t.visibleOrdered.2

/-! ## Local operations and the invariant -/

namespace Causal

variable {ι : Type} [DecidableEq ι] {peerOf : ι → ℤ} {X : OpId → Prop} {R : ι → TextCrdt α} {L : TextCrdt α → Prop}

variable {i : ι} {t : TextCrdt α}

/-- Two moves of one replica, of which the first state is forgotten. -/
theorem update_update {t' : TextCrdt α}
    (h : Causal peerOf X (Function.update (Function.update R i t) i t') (fun s => s = t' ∨ s = t ∨ L s))
    (hcurrent : ∀ j, L (R j)) :
    Causal peerOf X (Function.update R i t') (fun s => s = t' ∨ L s) := by
  rw [update_idem] at h
  refine h.mono (fun _ => id) (fun s hs => hs.imp id .inr) fun j => ?_
  by_cases hj : j = i
  · subst hj
    exact .inl (by simp)
  · exact .inr (by simpa [hj] using hcurrent j)

variable (hinj : Injective peerOf)

include hinj

/-- A state with the same elements. -/
theorem same (h : Causal peerOf X R L) (hpeer : t.peer = (R i).peer) (hcounter : (R i).counter ≤ t.counter)
    (hrows : t.byId.rows = (R i).byId.rows) :
    Causal peerOf X (Function.update R i t) (fun s => s = t ∨ L s) :=
  h.update hinj (.of_rows h hpeer hcounter hrows)

/-- Characters inserted one after the other. -/
theorem placeAll (h : Causal peerOf X R L) (chars : List α) (ht : R i = t) (o : Option OpId)
    (ho : ∀ x, o = some x → x.counter ≤ t.counter) :
    Causal peerOf X (Function.update R i (t.placeAll o ho chars).2)
      (fun s => s = (t.placeAll o ho chars).2 ∨ L s) := by
  induction chars generalizing R L t o with
  | nil =>
    subst ht
    exact h.same hinj rfl le_rfl rfl
  | cons ch chars ih =>
    subst ht
    have hplaced := h.update hinj (.place h ch o ho)
    exact (ih hplaced (update_self i _ R) _ _).update_update h.current

theorem tombstone (h : Causal peerOf X R L) (ht : R i = t) {target : TextElement α} (hmem : target ∈ t.byId.rows)
    (hlive : target.deleteId = none) :
    Causal peerOf X (Function.update R i (t.tombstone target hmem))
      (fun s => s = t.tombstone target hmem ∨ L s) := by
  subst ht
  exact h.update hinj (.tombstone h hmem hlive)

/-- A deletion, after the order has been read. -/
theorem delete (h : Causal peerOf X R L) (i : ι) (index : ℤ) :
    Causal peerOf X (Function.update R i ((R i).delete index).2)
      (fun s => s = ((R i).delete index).2 ∨ L s) := by
  have hread : Causal peerOf X (Function.update R i (R i).visibleOrdered.2)
      (fun s => s = (R i).visibleOrdered.2 ∨ L s) :=
    h.same hinj (by simp) (by simp) (by simp)
  unfold TextCrdt.delete
  split
  · exact hread
  · split
    · exact hread
    · next target hget =>
      have hlive : target.deleteId = none := target.deleted_eq_false_iff.mp
        ((R i).deleted_of_mem_visible (List.mem_of_getElem? hget))
      have hmem : target ∈ (R i).visibleOrdered.2.byId.rows := by
        rw [TextCrdt.visibleOrdered_byId]
        exact (R i).mem_of_mem_visible (List.mem_of_getElem? hget)
      exact (hread.tombstone hinj (update_self i _ R) hmem hlive).update_update h.current

/-- Local operations keep the invariant. -/
theorem edit (h : Causal peerOf X R L) (i : ι) (e : Edit α) :
    Causal peerOf X (Function.update R i (e.run (R i))) (fun s => s = e.run (R i) ∨ L s) := by
  cases e with
  | insert index ch =>
    match ch with
    | [c] => exact h.update hinj (.place h c _ ((R i).indexToOrigin_counter index))
    | [] => exact h.same hinj rfl le_rfl rfl
    | _ :: _ :: _ => exact h.same hinj rfl le_rfl rfl
  | insertStr index chars =>
    have hplaced := h.placeAll hinj chars rfl _ ((R i).indexToOrigin_counter index)
    refine (hplaced.same hinj ?_ ?_ ?_).update_update h.current
    · simp [Edit.run, TextCrdt.insertStr]
    · simp [Edit.run, TextCrdt.insertStr]
    · simp [Edit.run, TextCrdt.insertStr]
  | delete index => exact h.delete hinj i index
  | read => exact h.same hinj (by simp [Edit.run]) (by simp [Edit.run]) (by simp [Edit.run])

end Causal

/-! ## Runs -/

structure World (ι α : Type) where
  replica : ι → TextCrdt α
  seen : Set (TextCrdt α)

namespace World

variable {ι : Type}

def init (peerOf : ι → ℤ) : World ι α where
  replica i := .empty α (peerOf i)
  seen := Set.range fun i => .empty α (peerOf i)

variable [DecidableEq ι]

def move (w : World ι α) (i : ι) (t : TextCrdt α) : World ι α where
  replica := Function.update w.replica i t
  seen := insert t w.seen

/-- What can happen: a local operation, a merge of a state, or a delta pull from one. -/
inductive Step : World ι α → World ι α → Prop
  | edit (w : World ι α) (i : ι) (e : Edit α) : Step w (w.move i (e.run (w.replica i)))
  | merge (w : World ι α) (i : ι) (s : TextCrdt α) : s ∈ w.seen → Step w (w.move i ((w.replica i).merge s))
  | pull (w : World ι α) (i : ι) (s : TextCrdt α) : s ∈ w.seen → Step w (w.move i
        ((w.replica i).applyDelta (s.deltaSince (w.replica i).versionVector)).2)

def Reached (peerOf : ι → ℤ) (w : World ι α) : Prop :=
  Relation.ReflTransGen Step (init peerOf) w

def Causal (peerOf : ι → ℤ) (w : World ι α) : Prop :=
  Text.Causal peerOf (fun _ => False) w.replica (· ∈ w.seen)

variable {peerOf : ι → ℤ} {w w' : World ι α}

theorem causal_step (hinj : Injective peerOf) (h : w.Causal peerOf) (hs : Step w w') : w'.Causal peerOf := by
  cases hs with
  | edit i e => exact Text.Causal.edit hinj h i e
  | merge i s hs =>
    exact h.update hinj (.applyDelta h hs (fun _ he => he) ((w.replica i).covers_merge s))
  | pull i s hs =>
    have hops : ∀ e ∈ (s.byId.filter (TextCrdt.unseen (w.replica i).versionVector)).rows,
        e ∈ s.byId.rows := fun e he => (List.mem_filter.mp he).1
    exact h.update hinj (.applyDelta h hs hops (h.covers_delta hs (h.current i)))

/-- Every run of replicas with distinct peers keeps them causal. -/
theorem causal_run (hinj : Injective peerOf) (hrun : Reached peerOf w) : w.Causal peerOf := by
  induction hrun with
  | refl =>
    refine (Text.Causal.init peerOf).mono (fun _ => id) ?_ fun i => ⟨i, rfl⟩
    rintro s ⟨i, rfl⟩
    exact ⟨i, rfl⟩
  | tail _ hs ih => exact causal_step hinj ih hs

end World

end LazilyPy.Text

namespace LazilyPy.Text

open Function

/-! ### Convergence -/

namespace World

variable {α ι : Type} {peerOf : ι → ℤ} {w : World ι α}

/-- What is merged from states that have been seen agrees. -/
theorem agree_eval (h : w.Causal peerOf) {t t' : MergeTree (TextCrdt α)}
    (ht : ∀ s ∈ t.leaves, s ∈ w.seen) (ht' : ∀ s ∈ t'.leaves, s ∈ w.seen) :
    (t.eval TextCrdt.merge).Agree (t'.eval TextCrdt.merge) := by
  have hleft : ∀ c ∈ w.seen, (t.eval TextCrdt.merge).Agree c := fun c hc =>
    MergeTree.eval_induction (fun a b ha hb => ha.merge hb) fun s hs => h.agree s c (ht s hs) hc
  have hright : (t'.eval TextCrdt.merge).Agree (t.eval TextCrdt.merge) :=
    MergeTree.eval_induction (p := fun s => s.Agree (t.eval TextCrdt.merge))
      (fun a b ha hb => ha.merge hb) fun s hs => (hleft s (ht' s hs)).symm
  exact hright.symm

/-- Whatever is merged from the same states holds the same elements. -/
theorem eval_get?_congr (h : w.Causal peerOf) (t t' : MergeTree (TextCrdt α))
    (ht : ∀ s ∈ t.leaves, s ∈ w.seen) (hsame : ∀ s, s ∈ t.leaves ↔ s ∈ t'.leaves) (i : OpId) :
    (t.eval TextCrdt.merge).get? i = (t'.eval TextCrdt.merge).get? i := by
  have ht' : ∀ s ∈ t'.leaves, s ∈ w.seen := fun s hs => ht s ((hsame s).mpr hs)
  exact (agree_eval h ht ht').get?_eq (MergeTree.eval_congr TextCrdt.status_merge hsame) i

variable [DecidableEq ι]

/-- Merging is commutative, associative and idempotent on the elements, and replicas that have
merged the same states have the same elements and the same text. -/
theorem merge_join (hinj : Injective peerOf) (hrun : Reached peerOf w) :
    (∀ a ∈ w.seen, ∀ b ∈ w.seen, ∀ i, (a.merge b).get? i = (b.merge a).get? i) ∧
    (∀ a ∈ w.seen, ∀ b ∈ w.seen, ∀ c ∈ w.seen, ∀ i, ((a.merge b).merge c).get? i = (a.merge (b.merge c)).get? i) ∧
    (∀ a ∈ w.seen, ∀ i, (a.merge a).get? i = a.get? i) ∧
    ∀ t t' : MergeTree (TextCrdt α), (∀ s ∈ t.leaves, s ∈ w.seen) → (∀ s, s ∈ t.leaves ↔ s ∈ t'.leaves) →
      (∀ i, (t.eval TextCrdt.merge).get? i = (t'.eval TextCrdt.merge).get? i) ∧
        (t.eval TextCrdt.merge).text = (t'.eval TextCrdt.merge).text := by
  have h := causal_run hinj hrun
  refine ⟨fun a ha b hb i => ?_, fun a ha b hb c hc i => ?_, fun a ha i => ?_, fun t t' ht hsame => ?_⟩
  · exact eval_get?_congr h (.node (.leaf a) (.leaf b)) (.node (.leaf b) (.leaf a))
      (by simp [MergeTree.leaves, ha, hb]) (by simp [MergeTree.leaves, or_comm]) i
  · exact eval_get?_congr h (.node (.node (.leaf a) (.leaf b)) (.leaf c))
      (.node (.leaf a) (.node (.leaf b) (.leaf c)))
      (by simp [MergeTree.leaves, ha, hb, hc]) (by simp [MergeTree.leaves]) i
  · exact eval_get?_congr h (.node (.leaf a) (.leaf a)) (.leaf a)
      (by simp [MergeTree.leaves, ha]) (by simp [MergeTree.leaves]) i
  · have hget := eval_get?_congr h t t' ht hsame
    exact ⟨hget, TextCrdt.text_congr hget⟩

/-- Applying the delta of a replica, by the version vector of the receiver, is merging it: the
result is the same replica, with its elements, tombstones, origins and counter. -/
theorem delta_eq_merge (hinj : Injective peerOf) (hrun : Reached peerOf w) :
    (∀ i j, ((w.replica i).applyDelta ((w.replica j).deltaSince (w.replica i).versionVector)).2 =
      (w.replica i).merge (w.replica j)) ∧
    ∀ a ∈ w.seen, ∀ b ∈ w.seen, (b.applyDelta (a.deltaSince b.versionVector)).2 = b.merge a := by
  have h := causal_run hinj hrun
  exact ⟨fun i j => h.applyDelta_eq_merge (h.current j) (h.current i), fun a ha b hb => h.applyDelta_eq_merge ha hb⟩

/-- An id is that of one character, after one other, in whatever states it is found. -/
theorem opId_identifies (hinj : Injective peerOf) (hrun : Reached peerOf w) {a b : TextCrdt α} (ha : a ∈ w.seen)
    (hb : b ∈ w.seen) {e e' : TextElement α} (he : e ∈ a.byId.rows) (he' : e' ∈ b.byId.rows) (hid : e.id = e'.id) :
    e.ch = e'.ch ∧ e.origin = e'.origin :=
  (causal_run hinj hrun).agree a b ha hb e he e' he' hid

/-- A vector has no gaps: a replica holds exactly the inserted elements that its vector covers, and has buried every
element whose deletion it covers. -/
theorem versionVector_exact (hinj : Injective peerOf) (hrun : Reached peerOf w) {a b : TextCrdt α} (ha : a ∈ w.seen)
    (hb : b ∈ w.seen) {e : TextElement α} (he : e ∈ a.byId.rows) :
    (b.Present e.id ↔ e.id.counter ≤ b.versionVector e.id.peer) ∧
      ∀ d, e.deleteId = some d → d.counter ≤ b.versionVector d.peer → b.Buried e.id d := by
  have h := causal_run hinj hrun
  refine ⟨⟨fun ⟨e', he', hid⟩ => ?_, fun hle => ?_⟩, fun d hd hle => ?_⟩
  · exact TextCrdt.Mentions.le_versionVector ⟨e', he', .inl hid⟩
  · obtain ⟨d, hd, hpeer, hcounter⟩ := TextCrdt.exists_versionVector (e.minted.trans_le hle)
    exact (h.inserts b a hb ha d hd e he hpeer.symm (hcounter.symm ▸ hle)).resolve_left id
  · obtain ⟨d', hd', hpeer, hcounter⟩ := TextCrdt.exists_versionVector ((e.stamped d hd).trans_le hle)
    exact (h.deletes b a hb ha d' hd' e he d hd hpeer.symm (hcounter.symm ▸ hle)).resolve_left id

/-! ## Two replicas -/

def twoPeers : Bool → ℤ
  | false => 1
  | true => 2

theorem twoPeers_injective : Injective twoPeers := by
  intro a b h
  cases a <;> cases b <;> simp_all [twoPeers]

/-- A first character at one replica, which the other one merges and deletes. -/
def deleted : World Bool Char :=
  let w := (init twoPeers).move false ((Edit.insert 0 ['a']).run (.empty Char 1))
  let w := w.move true ((w.replica true).merge (w.replica false))
  w.move true ((Edit.delete 0).run (w.replica true))

def concurrent : World Bool Char :=
  let w := deleted.move false ((Edit.insert 1 ['b']).run (deleted.replica false))
  w.move true ((Edit.insert 0 ['c']).run (w.replica true))

theorem reached_deleted : Reached twoPeers deleted := by
  refine .tail (.tail (.tail .refl (.edit _ false (.insert 0 ['a']))) (.merge _ true _ ?_)) (.edit _ true (.delete 0))
  exact Set.mem_insert _ _

theorem reached_concurrent : Reached twoPeers concurrent :=
  .tail (.tail reached_deleted (.edit _ false (.insert 1 ['b']))) (.edit _ true (.insert 0 ['c']))

theorem mem_seen_concurrent (i : Bool) : concurrent.replica i ∈ concurrent.seen :=
  (causal_run twoPeers_injective reached_concurrent).current i

/-- The replicas merge each other. -/
theorem merge_join_concurrent : ((concurrent.replica false).merge (concurrent.replica true)).text =
        ((concurrent.replica true).merge (concurrent.replica false)).text ∧
      ((concurrent.replica true).merge (concurrent.replica false)).text = ['c', 'b'] := by
  obtain ⟨_, _, _, htrees⟩ := merge_join twoPeers_injective reached_concurrent
  refine ⟨(htrees (.node (.leaf _) (.leaf _)) (.node (.leaf _) (.leaf _)) ?_ ?_).2, by decide⟩
  · simp [MergeTree.leaves, mem_seen_concurrent]
  · simp [MergeTree.leaves, or_comm]

/-- The deletion reaches the first replica in a delta, with the character inserted after it. -/
theorem delta_eq_merge_concurrent : ((concurrent.replica false).applyDelta ((concurrent.replica true).deltaSince
        (concurrent.replica false).versionVector)).2 =
      (concurrent.replica false).merge (concurrent.replica true) :=
  (delta_eq_merge twoPeers_injective reached_concurrent).1 false true

/-- The second replica has merged the first character. -/
theorem versionVector_exact_concurrent : (concurrent.replica true).Present ⟨1, 1⟩ := by
  obtain ⟨e, he, hid⟩ : ∃ e ∈ (concurrent.replica false).byId.rows, e.id = ⟨1, 1⟩ := by decide
  have hexact := versionVector_exact twoPeers_injective reached_concurrent (mem_seen_concurrent false)
    (mem_seen_concurrent true) he
  rw [← hid, hexact.1, hid]
  decide

/-- The character that the second replica has merged and deleted. -/
theorem opId_identifies_deleted : ∃ e ∈ (concurrent.replica false).byId.rows,
    ∃ e' ∈ (concurrent.replica true).byId.rows, e.deleted ≠ e'.deleted ∧ e.ch = e'.ch := by
  obtain ⟨e, he, e', he', hid, hne⟩ : ∃ e ∈ (concurrent.replica false).byId.rows,
      ∃ e' ∈ (concurrent.replica true).byId.rows, e.id = e'.id ∧ e.deleted ≠ e'.deleted := by decide
  have hsame := opId_identifies twoPeers_injective reached_concurrent (mem_seen_concurrent false)
    (mem_seen_concurrent true) he he' hid
  exact ⟨e, he, e', he', hne, hsame.1⟩

end World

end LazilyPy.Text

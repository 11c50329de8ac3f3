import LazilyPy.Text.Delta
import LazilyPy.Text.Seed

/-!
# The delta of local edits

What a replica inserts and deletes has ids of its own peer, behind its counter. If no earlier id of the peer is behind
the counter, the delta since the version vector before the edits has everything that they have changed.
-/

namespace LazilyPy.Text

open Option

variable {α : Type}

namespace TextCrdt

variable {t t' u : TextCrdt α} {e : TextElement α}

/-- An element of `t`, or one that `t` has inserted or deleted since. -/
def Derived (t t' : TextCrdt α) (e : TextElement α) : Prop :=
  t.get? e.id = some e ∨ (∀ d, e.deleteId = some d → d.peer = t.peer ∧ t.counter < d.counter ∧ d.counter ≤ t'.counter) ∧
      (t.get? e.id = none ∧ e.id.peer = t.peer ∧ t.counter < e.id.counter ∨
        ∃ e₀, t.get? e.id = some e₀ ∧ e₀.deleteId = none ∧ e.deleteId.isSome ∧ e₀.ch = e.ch ∧ e₀.origin = e.origin)

theorem Derived.mono {u : TextCrdt α} (h : Derived t t' e) (hle : t'.counter ≤ u.counter) : Derived t u e :=
  h.imp id fun ⟨hd, hfrom⟩ => ⟨fun d hde => ⟨(hd d hde).1, (hd d hde).2.1, (hd d hde).2.2.trans hle⟩, hfrom⟩

/-- What local edits of `t` make of it. -/
structure Edited (t t' : TextCrdt α) : Prop where
  peer : t'.peer = t.peer
  counter : t.counter ≤ t'.counter
  kept : ∀ i, t'.get? i = none → t.get? i = none
  derived : ∀ e ∈ t'.byId.rows, Derived t t' e

theorem Edited.refl (t : TextCrdt α) : Edited t t :=
  ⟨rfl, le_rfl, fun _ h => h, fun _ he => .inl (Table.get?_of_mem he)⟩

theorem Edited.of_rows (h : Edited t t') (hpeer : u.peer = t'.peer) (hcounter : u.counter = t'.counter)
    (hbyId : u.byId = t'.byId) : Edited t u := by
  refine ⟨hpeer.trans h.peer, h.counter.trans_eq hcounter.symm, fun i hi => h.kept i ?_, fun e he => ?_⟩
  · rwa [get?, hbyId] at hi
  · exact (h.derived e (hbyId ▸ he)).mono hcounter.ge

theorem Edited.place (h : Edited t t') (ch : α) (origin : Option OpId)
    (hle : ∀ o, origin = some o → o.counter ≤ t'.counter) : Edited t (t'.place ch origin hle) := by
  refine ⟨h.peer, h.counter.trans (Nat.le_succ _), fun i hi => h.kept i ?_, fun e he => ?_⟩
  · rw [get?, TextCrdt.place, Table.get?_put] at hi
    split at hi
    · cases hi
    · exact hi
  · obtain rfl | ⟨he, -⟩ := Table.mem_put.mp he
    · refine .inr ⟨(by simp), .inl ⟨?_, h.peer, Nat.lt_succ_of_le h.counter⟩⟩
      refine Table.get?_eq_none.mpr fun e he hid => ?_
      have hle := (t.counted e he).trans h.counter
      rw [hid] at hle
      exact absurd hle (Nat.not_succ_le_self _)
    · exact (h.derived e he).mono (Nat.le_succ _)

theorem Edited.placeAll (h : Edited t t') (chars : List α) (origin : Option OpId)
    (hle : ∀ o, origin = some o → o.counter ≤ t'.counter) : Edited t (t'.placeAll origin hle chars).2 := by
  induction chars generalizing t' origin with
  | nil => exact h
  | cons ch chars ih => exact ih (h.place ch origin hle) _ _

theorem Edited.insertStr (h : Edited t t') (index : ℤ) (chars : List α) : Edited t (t'.insertStr index chars).2 :=
  (h.placeAll chars _ (t'.indexToOrigin_counter index)).of_rows rfl rfl rfl

theorem Edited.tombstone (h : Edited t t') {target : TextElement α} (hmem : target ∈ t'.byId.rows)
    (hlive : target.deleteId = none) : Edited t (t'.tombstone target hmem) := by
  refine ⟨h.peer, h.counter.trans (Nat.le_succ _), fun i hi => h.kept i ?_, fun e he => ?_⟩
  · rw [get?, TextCrdt.tombstone, Table.get?_put] at hi
    split at hi
    · cases hi
    · exact hi
  · obtain rfl | ⟨he, -⟩ := Table.mem_put.mp he
    · refine .inr ⟨fun d hd => ?_, ?_⟩
      · obtain rfl := some.inj hd
        exact ⟨h.peer, Nat.lt_succ_of_le h.counter, le_rfl⟩
      · obtain hold | ⟨-, hnew | ⟨e₀, -, -, hburied, -⟩⟩ := h.derived target hmem
        · exact .inr ⟨target, hold, hlive, rfl, rfl, rfl⟩
        · exact .inl hnew
        · rw [hlive] at hburied
          cases hburied
    · exact (h.derived e he).mono (Nat.le_succ _)

theorem Edited.read (h : Edited t t') : Edited t t'.visibleOrdered.2 :=
  h.of_rows (by simp) (by simp) (by simp)

theorem Edited.delete (h : Edited t t') (index : ℤ) : Edited t (t'.delete index).2 := by
  rw [TextCrdt.delete]
  split
  · exact h.read
  · split
    · exact h.read
    · next target hget =>
      have hshown := List.mem_of_getElem? hget
      exact h.read.tombstone (t'.visibleOrdered_byId ▸ t'.mem_of_mem_visible hshown)
        (target.deleted_eq_false_iff.mp (t'.deleted_of_mem_visible hshown))

/-! ## The counter of a peer -/

def Deletions (P : OpId → Prop) (t : TextCrdt α) : Prop :=
  ∀ e ∈ t.byId.rows, ∀ d, e.deleteId = some d → P d

variable {P : OpId → Prop} {peer : ℤ}

theorem Deletions.of_get? (h : Deletions P t) (hsame : ∀ i, t'.get? i = t.get? i) : Deletions P t' :=
  fun e he d hd => h e (Table.mem_of_get? ((hsame e.id).symm.trans (Table.get?_of_mem he))) d hd

theorem Deletions.applyDelta (h : Deletions P t) {ops : List (TextOp α)}
    (hops : ∀ op ∈ ops, ∀ d, op.deleteId = some d → P d) : Deletions P (t.applyDelta ops).2 := by
  have hfold : ∀ (ops : List (TextOp α)) (acc : Table (TextElement.id (α := α)) × Bool),
      (∀ op ∈ ops, ∀ d, op.deleteId = some d → P d) → (∀ e ∈ acc.1.rows, ∀ d, e.deleteId = some d → P d) →
      ∀ e ∈ (ops.foldl observe acc).1.rows, ∀ d, e.deleteId = some d → P d := by
    intro ops
    induction ops with
    | nil => exact fun acc _ hacc => hacc
    | cons op ops ih =>
      intro acc hops hacc
      refine ih _ (fun op' hop' => hops op' (List.mem_cons_of_mem op hop')) ?_
      have hop := hops op List.mem_cons_self
      rw [observe]
      split
      · intro e he d hd
        obtain rfl | ⟨he, -⟩ := Table.mem_put.mp he
        · exact hop d hd
        · exact hacc e he d hd
      · next existing hget =>
        split
        · exact hacc
        · next joined hjoined =>
          intro e he d hd
          obtain rfl | ⟨he, -⟩ := Table.mem_put.mp he
          · have hjoin : existing.join op = e := by rw [TextElement.join, hjoined, getD_some]
            rw [← hjoin] at hd
            obtain hd | hd := TextElement.deleteId_of_join hd
            · exact hacc existing (Table.mem_of_get? hget) d hd
            · exact hop d hd
          · exact hacc e he d hd
  exact hfold ops (t.byId, false) hops h

/-- A seeded replica has no deletions. -/
theorem deletions_seed (owner : ℤ) (chars : List α) : Deletions P (seed owner chars) := by
  intro e he d hd
  have halive := (spells_seed owner chars).alive e he
  rw [e.marked, hd] at halive
  cases halive

def Counts (peer : ℤ) (t : TextCrdt α) : Prop :=
  t.Deletions fun d => d.peer = peer → d.counter ≤ t.counter

theorem Counts.versionVector_le (h : Counts peer t) : t.versionVector peer ≤ t.counter := by
  obtain hzero | hpos := Nat.eq_zero_or_pos (t.versionVector peer)
  · rw [hzero]
    exact Nat.zero_le _
  · obtain ⟨d, ⟨e, he, hd⟩, hpeer, hcounter⟩ := exists_versionVector hpos
    rw [← hcounter]
    obtain rfl | hd := hd
    · exact t.counted e he
    · exact h e he d hd hpeer

theorem Counts.of_get? (h : Counts peer t) (hsame : ∀ i, t'.get? i = t.get? i) (hle : t.counter ≤ t'.counter) :
    Counts peer t' :=
  fun e he d hd hpeer => (Deletions.of_get? h hsame e he d hd hpeer).trans hle

theorem Edited.counts (h : Edited t t') (hcounts : Counts peer t) : Counts peer t' := by
  intro e he d hd hpeer
  obtain hold | ⟨hminted, -⟩ := h.derived e he
  · exact (hcounts e (Table.mem_of_get? hold) d hd hpeer).trans h.counter
  · exact (hminted d hd).2.2

theorem Edited.deletions (h : Edited t t') (hdeletions : Deletions P t) (hown : ∀ d, d.peer = t.peer → P d) :
    Deletions P t' := by
  intro e he d hd
  obtain hold | ⟨hminted, -⟩ := h.derived e he
  · exact hdeletions e (Table.mem_of_get? hold) d hd
  · exact hown d (hminted d hd).1

/-- Deletions by other peers are not counted. -/
theorem Counts.applyDelta (h : Counts peer t) {ops : List (TextOp α)}
    (hops : ∀ op ∈ ops, ∀ d, op.deleteId = some d → d.peer ≠ peer) : Counts peer (t.applyDelta ops).2 := by
  have hbounded := Deletions.applyDelta h fun op hop d hd hpeer => absurd hpeer (hops op hop d hd)
  exact fun e he d hd hpeer => (hbounded e he d hd hpeer).trans (le_advance _ _)

/-! ## The delta -/

/-- The elements of a replica change nothing there. -/
theorem get?_applyDelta_self (t : TextCrdt α) (p : TextElement α → Bool) (i : OpId) :
    (t.applyDelta (t.byId.filter p).rows).2.get? i = t.get? i := by
  have hget := get?_applyDelta t (t.byId.filter p) i
  rw [Table.get?_filter] at hget
  refine hget.trans ?_
  change Option.merge TextElement.join (t.get? i) ((t.get? i).filter p) = t.get? i
  cases t.get? i with
  | none => rfl
  | some e =>
    rw [filter_some]
    split
    · exact congrArg some e.join_self
    · rfl

/-- What has been changed since the vector is all that the other replica lacks. -/
theorem Edited.delta_complete (h : Edited t t') (hcounts : Counts t.peer t) (hsame : ∀ i, u.get? i = t.get? i)
    (i : OpId) : (u.applyDelta (t'.deltaSince t.versionVector)).2.get? i = t'.get? i := by
  have hget := get?_applyDelta u (t'.byId.filter (unseen t.versionVector)) i
  rw [Table.get?_filter, hsame] at hget
  refine hget.trans ?_
  change Option.merge TextElement.join (t.get? i) ((t'.get? i).filter (unseen t.versionVector)) = t'.get? i
  have hbehind : ∀ {d : OpId}, d.peer = t.peer → t.counter < d.counter → t.versionVector d.peer < d.counter := by
    intro d hpeer hlt
    rw [hpeer]
    exact hcounts.versionVector_le.trans_lt hlt
  cases ht' : t'.get? i with
  | none => rw [h.kept i ht']; rfl
  | some e =>
    obtain ⟨hmem, rfl⟩ := Table.get?_eq_some.mp ht'
    obtain hold | ⟨hminted, ⟨hnone, hpeer, hlt⟩ | ⟨e₀, he₀, hlive, hburied, hch, horigin⟩⟩ := h.derived e hmem
    · rw [hold, filter_some]
      split
      · exact congrArg some e.join_self
      · rfl
    · -- an inserted element is in the delta
      have hunseen : unseen t.versionVector e = true := by
        rw [← Bool.not_eq_false, unseen_eq_false]
        exact fun hseen => absurd hseen.1 (Nat.not_le_of_lt (hbehind hpeer hlt))
      rw [hnone, filter_some, if_pos hunseen]
      rfl
    · -- and so is a deleted one
      obtain ⟨d, hd⟩ := isSome_iff_exists.mp hburied
      have hunseen : unseen t.versionVector e = true := by
        rw [← Bool.not_eq_false, unseen_eq_false]
        exact fun hseen => absurd (hseen.2 d hd) (Nat.not_le_of_lt (hbehind (hminted d hd).1 (hminted d hd).2.1))
      have hid : e₀.id = e.id := Table.key_of_get? he₀
      rw [he₀, filter_some, if_pos hunseen]
      refine congrArg some (TextElement.eq_of_deleteId_eq ?_ ?_ ?_ ?_)
      · rw [TextElement.join_id, hid]
      · rw [TextElement.join_ch, hch]
      · rw [TextElement.join_origin, horigin]
      · rw [TextElement.join_deleteId, hlive, hd]
        rfl

/-- What a delta deletes has been deleted by the peer. -/
theorem Edited.deleted_by (h : Edited t t') {op : TextOp α} (hop : op ∈ t'.deltaSince t.versionVector) {d : OpId}
    (hd : op.deleteId = some d) : d.peer = t.peer := by
  obtain ⟨hmem, hunseen⟩ := List.mem_filter.mp hop
  obtain hold | ⟨hminted, -⟩ := h.derived op hmem
  · -- what was there before has been seen
    have hknown := Table.mem_of_get? hold
    rw [← Bool.not_eq_false, unseen_eq_false] at hunseen
    exact absurd ⟨Mentions.le_versionVector ⟨op, hknown, .inl rfl⟩,
      fun d hd => Mentions.le_versionVector ⟨op, hknown, .inr hd⟩⟩ hunseen
  · exact (hminted d hd).1

end TextCrdt

end LazilyPy.Text

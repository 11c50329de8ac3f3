import LazilyPy.Text.Replicas
import LazilyPy.Text.Splice

/-!
# New ids

An id that an edit mints is greater than the id of every element. The counter is not moved past the delete ids that come
from other peers, so that it may be smaller than one of these.
-/

namespace LazilyPy.Text

open List

variable {α : Type}

namespace TextCrdt

variable {t t' : TextCrdt α}

/-- Every id that the replica knows, of an insertion or of a deletion, is smaller than the next one. -/
def Ahead (t : TextCrdt α) : Prop :=
  ∀ d, t.Mentions d → d < t.nextId

theorem nextId_mono (hpeer : t'.peer = t.peer) (hcounter : t.counter ≤ t'.counter) : t.nextId ≤ t'.nextId := by
  obtain heq | hlt := hcounter.eq_or_lt
  · rw [nextId, nextId, hpeer, heq]
  · exact (Dot.lt_iff.mpr (.inl (Nat.succ_lt_succ hlt))).le

/-- A replica that has minted an id, and knows no other new one. -/
theorem Ahead.minted (h : t.Ahead) (hcounter : t'.counter = t.counter + 1)
    (hknown : ∀ d, t'.Mentions d → d = t.nextId ∨ t.Mentions d) : t'.Ahead := by
  have hlt : t.nextId < t'.nextId := Dot.lt_iff.mpr (.inl (by rw [nextId, nextId, hcounter]; exact Nat.lt_succ_self _))
  intro d hd
  obtain rfl | hd := hknown d hd
  · exact hlt
  · exact (h d hd).trans hlt

theorem Ahead.of_rows (h : t.Ahead) (hpeer : t'.peer = t.peer) (hcounter : t.counter ≤ t'.counter)
    (hrows : t'.byId.rows = t.byId.rows) : t'.Ahead := by
  rintro d ⟨e, he, hd⟩
  exact (h d ⟨e, hrows ▸ he, hd⟩).trans_le (nextId_mono hpeer hcounter)

theorem Ahead.place (h : t.Ahead) (ch : α) (origin : Option OpId)
    (hle : ∀ o, origin = some o → o.counter ≤ t.counter) : (t.place ch origin hle).Ahead := by
  refine h.minted rfl ?_
  rintro d ⟨e, he, hd⟩
  obtain rfl | ⟨he, -⟩ := Table.mem_put.mp he
  · obtain rfl | hd := hd
    · exact .inl rfl
    · cases hd
  · exact .inr ⟨e, he, hd⟩

theorem Ahead.placeAll (h : t.Ahead) (chars : List α) (origin : Option OpId)
    (hle : ∀ o, origin = some o → o.counter ≤ t.counter) : (t.placeAll origin hle chars).2.Ahead := by
  induction chars generalizing t origin with
  | nil => exact h
  | cons ch chars ih => exact ih (h.place ch origin hle) _ _

theorem Ahead.tombstone (h : t.Ahead) {target : TextElement α} (hmem : target ∈ t.byId.rows) :
    (t.tombstone target hmem).Ahead := by
  refine h.minted rfl ?_
  rintro d ⟨e, he, hd⟩
  obtain rfl | ⟨he, -⟩ := Table.mem_put.mp he
  · obtain rfl | hd := hd
    · exact .inr ⟨target, hmem, .inl rfl⟩
    · exact .inl (Option.some.inj hd).symm
  · exact .inr ⟨e, he, hd⟩

theorem Ahead.read (h : t.Ahead) : t.visibleOrdered.2.Ahead :=
  h.of_rows (by simp) (by simp) (by simp)

theorem Ahead.delete (h : t.Ahead) (index : ℤ) : (t.delete index).2.Ahead := by
  rw [TextCrdt.delete]
  split
  · exact h.read
  · split
    · exact h.read
    · next target hget =>
      exact h.read.tombstone (t.visibleOrdered_byId ▸ t.mem_of_mem_visible (mem_of_getElem? hget))

theorem Ahead.edit (h : t.Ahead) (e : Edit α) : (e.run t).Ahead := by
  cases e with
  | insert index ch =>
    match ch with
    | [c] => exact h.place c _ (t.indexToOrigin_counter index)
    | [] => exact h
    | _ :: _ :: _ => exact h
  | insertStr index chars =>
    exact (h.placeAll chars _ (t.indexToOrigin_counter index)).of_rows rfl le_rfl rfl
  | delete index => exact h.delete index
  | read => exact h.read

/-! ## The ids that are minted -/

def Mints (t : TextCrdt α) (i : OpId) : Prop :=
  (∃ index ch t', t.insert index ch = .ok (i, t')) ∨ (∃ index chars, i ∈ (t.insertStr index chars).1) ∨
    ∃ index, (t.delete index).1 = some i

theorem nextId_le_of_mem_placeAll {chars : List α} {origin : Option OpId}
    {hle : ∀ o, origin = some o → o.counter ≤ t.counter} {i : OpId} (h : i ∈ (t.placeAll origin hle chars).1) :
    t.nextId ≤ i := by
  induction chars generalizing t origin with
  | nil => cases h
  | cons ch chars ih =>
    obtain rfl | h := mem_cons.mp h
    · exact le_rfl
    · have hplaced : t.nextId ≤ (t.place ch origin hle).nextId := nextId_mono rfl (Nat.le_succ _)
      exact hplaced.trans (ih h)

theorem Mints.le {i : OpId} (h : t.Mints i) : t.nextId ≤ i := by
  obtain ⟨index, ch, t', h⟩ | ⟨index, chars, h⟩ | ⟨index, h⟩ := h
  · match ch with
    | [c] =>
      cases h
      exact le_rfl
    | [] => cases h
    | _ :: _ :: _ => cases h
  · exact nextId_le_of_mem_placeAll h
  · rw [delete] at h
    split at h
    · cases h
    · split at h
      · cases h
      · cases h
        exact le_rfl

/-- What an edit mints is greater than the ids of the elements. -/
theorem Mints.lt {i : OpId} (h : t.Mints i) {e : TextElement α} (he : e ∈ t.byId.rows) : e.id < i :=
  (Dot.lt_iff.mpr (.inl (Nat.lt_succ_of_le (t.counted e he)))).trans_le h.le

/-! ## Deltas -/

/-- The deletions that the ops bring in are of elements that are deleted already, or earlier than what is minted after
the counter or after the elements of the ops. -/
def Timely (t : TextCrdt α) (ops : Table (TextElement.id (α := α))) : Prop :=
  ∀ op ∈ ops.rows, ∀ d, op.deleteId = some d →
    (∃ e, t.get? op.id = some e ∧ e.deleted = true) ∨ d < t.nextId ∨ ∃ op' ∈ ops.rows, d < ⟨op'.id.counter + 1, t.peer⟩

theorem advance_cases (counter : ℕ) (rows : List (TextElement α)) :
    advance counter rows = counter ∨ ∃ e ∈ rows, advance counter rows = e.id.counter := by
  induction rows generalizing counter with
  | nil => exact .inl rfl
  | cons e rows ih =>
    obtain heq | ⟨e', he', heq⟩ := ih (max counter e.id.counter)
    · obtain hmax | hmax := max_choice counter e.id.counter
      · exact .inl (heq.trans hmax)
      · exact .inr ⟨e, mem_cons_self, heq.trans hmax⟩
    · exact .inr ⟨e', mem_cons_of_mem e he', heq⟩

/-- After a delta the ids are smaller than the next one just if the delta is timely. -/
theorem Ahead.applyDelta_iff (h : t.Ahead) (ops : Table (TextElement.id (α := α))) :
    (t.applyDelta ops.rows).2.Ahead ↔ t.Timely ops := by
  have hmono : t.nextId ≤ (t.applyDelta ops.rows).2.nextId := nextId_mono rfl (le_advance _ _)
  constructor
  · intro hafter op hop d hd
    by_cases hburied : ∃ e, t.get? op.id = some e ∧ e.deleted = true
    · exact .inl hburied
    right
    -- the deletion is kept
    have hkept : (t.applyDelta ops.rows).2.Mentions d := by
      have hget := get?_applyDelta t ops op.id
      rw [Table.get?_of_mem hop] at hget
      cases hown : t.get? op.id with
      | none =>
        rw [hown] at hget
        exact ⟨op, Table.mem_of_get? hget, .inr hd⟩
      | some e =>
        rw [hown] at hget
        refine ⟨e.join op, Table.mem_of_get? hget, .inr ?_⟩
        have hlive : e.deleteId = none :=
          e.deleted_eq_false_iff.mp (Bool.eq_false_iff.mpr fun hdeleted => hburied ⟨e, hown, hdeleted⟩)
        rw [TextElement.join_deleteId, hlive, hd]
        rfl
    have hlt := hafter d hkept
    obtain heq | ⟨e, he, heq⟩ := advance_cases t.counter (t.applyDelta ops.rows).2.byId.rows
    · left
      exact hlt.trans_eq (congrArg (fun c => (⟨c + 1, t.peer⟩ : OpId)) heq)
    · have hnext : d < ⟨e.id.counter + 1, t.peer⟩ := hlt.trans_eq (congrArg (fun c => (⟨c + 1, t.peer⟩ : OpId)) heq)
      obtain ⟨e₀, hfrom, hid, -, -⟩ := mem_applyDelta he
      rw [← hid] at hnext
      obtain hown | hop' := hfrom
      · left
        refine hnext.trans_le ?_
        obtain heq | hlt := (t.counted e₀ hown).eq_or_lt
        · rw [nextId, heq]
        · exact (Dot.lt_iff.mpr (.inl (Nat.succ_lt_succ hlt))).le
      · exact .inr ⟨e₀, hop', hnext⟩
  · rintro htimely d ⟨e, he, hd⟩
    obtain rfl | hd := hd
    · exact Dot.lt_iff.mpr (.inl (Nat.lt_succ_of_le ((t.applyDelta ops.rows).2.counted e he)))
    · obtain ⟨e₀, hfrom, hid, hd₀⟩ := deleteId_applyDelta he hd
      obtain hown | hop := hfrom
      · exact (h d ⟨e₀, hown, .inr hd₀⟩).trans_le hmono
      · obtain ⟨e₁, hget, hdeleted⟩ | hlt | ⟨op', hop', hlt⟩ := htimely e₀ hop d hd₀
        · -- the earlier deletion is kept
          obtain ⟨hmem, hid₁⟩ := Table.get?_eq_some.mp hget
          obtain ⟨d₁, hd₁⟩ := Option.isSome_iff_exists.mp (e₁.marked ▸ hdeleted)
          have hcovers := ((t.covers_applyDelta (X := fun _ => False) ops e₁ hmem).resolve_left id).2 d₁ hd₁
          obtain ⟨e', he', hid', d', hd', hle⟩ := hcovers
          obtain rfl := Table.eq_of_key_eq he' he (hid'.trans (hid₁.trans hid))
          obtain rfl := Option.some.inj (hd'.symm.trans hd)
          exact (hle.trans_lt (h d₁ ⟨e₁, hmem, .inr hd₁⟩)).trans_le hmono
        · exact hlt.trans_le hmono
        · refine hlt.trans_le ?_
          obtain ⟨e', he', hid'⟩ := (t.observed ops hop').1
          have hle := (t.applyDelta ops.rows).2.counted e' he'
          rw [hid'] at hle
          obtain heq | hlt := hle.eq_or_lt
          · rw [nextId, ← heq]
            exact le_rfl
          · exact (Dot.lt_iff.mpr (.inl (Nat.succ_lt_succ hlt))).le

/-! ## Runs of one replica -/

structure Splices (t : TextCrdt α) : Prop where
  insert : ∀ index ch, ∃ i t', t.insert index [ch] = .ok (i, t') ∧ t'.text = spliced t.text index.toNat [ch]
  insertStr : ∀ index chars, (t.insertStr index chars).2.text = spliced t.text index.toNat chars
  delete : ∀ index : ℤ, 0 ≤ index → index < (t.text.length : ℤ) → (t.delete index).2.text = t.text.eraseIdx index.toNat

theorem splices (t : TextCrdt α) : t.Splices where
  insert index ch := ⟨_, t.text_insert index ch⟩
  insertStr := t.text_insertStr
  delete _ hnonneg hlt := (t.text_delete hnonneg hlt).2

/-- Edits are splices, and mint ids that are greater than every id that the replica knows. -/
def Local (t : TextCrdt α) : Prop :=
  t.Splices ∧ ∀ i, t.Mints i → ∀ d, t.Mentions d → d < i

theorem local_iff {t : TextCrdt Char} : t.Local ↔ t.Ahead := by
  constructor
  · intro h d hd
    exact h.2 t.nextId (.inl ⟨0, ['a'], _, rfl⟩) d hd
  · intro h
    exact ⟨t.splices, fun i hi d hd => (h d hd).trans_le hi.le⟩

end TextCrdt

open TextCrdt

/-- What happens to a replica: a local edit, or the ops of a delta or of another replica. -/
inductive Change (α : Type) where
  | edit (e : Edit α)
  | observe (ops : Table (TextElement.id (α := α)))

namespace Change

def run (t : TextCrdt α) : Change α → TextCrdt α
  | edit e => e.run t
  | observe ops => (t.applyDelta ops.rows).2

def Timely (t : TextCrdt α) : Change α → Prop
  | edit _ => True
  | observe ops => t.Timely ops

theorem ahead_run_iff {t : TextCrdt α} (h : t.Ahead) (c : Change α) : (c.run t).Ahead ↔ c.Timely t := by
  cases c with
  | edit e => exact iff_of_true (h.edit e) trivial
  | observe ops => exact h.applyDelta_iff ops

end Change

def replay (peer : ℤ) (changes : List (Change α)) : TextCrdt α :=
  changes.foldl Change.run (.empty α peer)

theorem ahead_empty (peer : ℤ) : (TextCrdt.empty α peer).Ahead := by
  rintro d ⟨e, he, -⟩
  cases he

theorem ahead_replay_iff (peer : ℤ) (changes : List (Change α)) :
    (∀ past, past <+: changes → (replay peer past).Ahead) ↔
      ∀ past c, past ++ [c] <+: changes → c.Timely (replay peer past) := by
  have hconcat : ∀ (past : List (Change α)) c, replay peer (past ++ [c]) = Change.run (replay peer past) c :=
    fun _ _ => foldl_concat _ _ _ _
  constructor
  · intro hahead past c hprefix
    have hpast := hahead past ((prefix_append past [c]).trans hprefix)
    refine (Change.ahead_run_iff hpast c).mp ?_
    rw [← hconcat]
    exact hahead _ hprefix
  · intro htimely past hprefix
    induction past using reverseRecOn with
    | nil => exact ahead_empty peer
    | append_singleton past c ih =>
      rw [hconcat]
      exact (Change.ahead_run_iff (ih ((prefix_append past [c]).trans hprefix)) c).mpr (htimely past c hprefix)

/-- Edits are splices in every state of a run. The ids that they mint are greater than those of all elements, and they
are greater than all ids, in every state, just if every delta is timely. -/
theorem local_edits_iff (peer : ℤ) (changes : List (Change Char)) :
    ((∀ past, past <+: changes → (replay peer past).Local) ↔
      ∀ past c, past ++ [c] <+: changes → c.Timely (replay peer past)) ∧
    ∀ past, past <+: changes → (replay peer past).Splices ∧
      ∀ i, (replay peer past).Mints i → ∀ e ∈ (replay peer past).byId.rows, e.id < i := by
  refine ⟨?_, fun past _ => ⟨(replay peer past).splices, fun i hi e he => hi.lt he⟩⟩
  rw [← ahead_replay_iff]
  exact forall₂_congr fun past _ => local_iff

/-- One peer inserts two characters and deletes both. Another one, that merges this, mints an id that is smaller than
that of the last deletion. -/
theorem local_edits_overtaken : ¬ (replay 2 [.observe (replay 1 [.edit (.insertStr 0 ['a', 'b']), .edit (.delete 0),
    .edit (.delete 0)] : TextCrdt Char).byId]).Local := by
  intro h
  have hknown : ∃ e ∈ (replay 2 [.observe (replay 1 [.edit (.insertStr 0 ['a', 'b']), .edit (.delete 0),
      .edit (.delete 0)] : TextCrdt Char).byId]).byId.rows, e.id = (⟨4, 1⟩ : OpId) ∨ e.deleteId = some ⟨4, 1⟩ := by
    decide +kernel
  have hlt := h.2 ⟨3, 2⟩ (.inl ⟨0, ['c'], _, rfl⟩) ⟨4, 1⟩ hknown
  exact absurd hlt (by decide)

end LazilyPy.Text

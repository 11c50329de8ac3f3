import LazilyPy.Lossless.Placement
import LazilyPy.Lossless.Walk
import LazilyPy.Text.Seed

/-!
# Splitting and merging leaves

A leaf that is split keeps the first part of its text, and the rest goes into a new leaf. Two adjacent leaves that are
merged have their texts in the left one. A merge leaves the document as it is; a split does so unless the new leaf is
put behind others that have come to the key of the old one.
-/

namespace LazilyPy.Lossless

open List hiding modify
open Table (eq_of_key_eq get?_eq_some get?_of_mem)
open Option hiding min_eq_left min_eq_right

namespace LosslessTreeCrdt

variable {s s' : LosslessTreeCrdt} {x a b : NodeRecord} {parent node q : TreeOpId} {g f : NodeRecord → NodeRecord}
  {text : List Char}

/-! ## Nodes that are written anew -/

theorem rows_modify (hf : ∀ r, (f r).id = r.id) :
    (s.modify node f).nodes.rows = s.nodes.rows.map fun r => if r.id = node then f r else r := by
  rw [modify]
  cases hr : s.get? node with
  | none =>
    have hid : ∀ r ∈ s.nodes.rows, (if r.id = node then f r else r) = r :=
      fun r hr' => if_neg (Table.get?_eq_none.mp hr r hr')
    rw [map_congr_left hid, List.map_id']
  | some r =>
    obtain ⟨hmem, rfl⟩ := get?_eq_some.mp hr
    have hin : (f r).id ∈ s.nodes.rows.map NodeRecord.id := List.mem_map.mpr ⟨r, hmem, (hf r).symm⟩
    refine (Table.rows_put_of_mem hin).trans (map_congr_left fun r' hr' => ?_)
    rw [hf r]
    by_cases hid : r'.id = r.id
    · rw [if_pos hid, if_pos hid, eq_of_key_eq hr' hmem hid]
    · rw [if_neg hid, if_neg hid]

/-- What is not written anew is there as before. -/
theorem mem_overwritten {rows : List NodeRecord} (hf : ∀ r, r.id = node → (f r).id = node) (hx : x.id ≠ node) :
    x ∈ rows.map (fun r => if r.id = node then f r else r) ↔ x ∈ rows := by
  rw [List.mem_map]
  constructor
  · rintro ⟨r, hr, rfl⟩
    by_cases hid : r.id = node
    · rw [if_pos hid] at hx
      exact absurd (hf r hid) hx
    · rwa [if_neg hid]
  · exact fun hmem => ⟨x, hmem, if_neg hx⟩

theorem get?_congr (h : ∀ r : NodeRecord, r.id = q → (r ∈ s'.nodes.rows ↔ r ∈ s.nodes.rows)) :
    s'.get? q = s.get? q := by
  refine ext fun r => ?_
  rw [get?, get?, get?_eq_some, get?_eq_some]
  exact and_congr_left (h r)

/-- The live nodes under a parent where nodes have been written anew, and some have been buried. -/
theorem liveRecords_map (hrows : s'.nodes.rows = s.nodes.rows.map g) (p : NodeRecord → Bool)
    (hg : ∀ r ∈ s.nodes.rows, (g r).parent = r.parent ∧ (g r).sort = r.sort ∧
      ((g r).tomb = none ↔ r.tomb = none ∧ p r = true)) (q : TreeOpId) :
    s'.liveRecords q = ((s.liveRecords q).filter p).map g := by
  have hbucket : s'.bucket q = ((s.bucket q).filter p).map g := by
    rw [bucket, hrows, List.filter_map, bucket, List.filter_filter]
    refine congrArg (map g) (filter_congr fun r hr => ?_)
    obtain ⟨hparent, -, htomb⟩ := hg r hr
    rw [Function.comp_apply, hparent, ← Bool.decide_coe (p r), ← Bool.decide_and, decide_eq_decide, htomb]
    tauto
  have hsort : sortBy NodeRecord.sort (((s.bucket q).filter p).map g) =
      (sortBy NodeRecord.sort ((s.bucket q).filter p)).map g := by
    refine (map_insertionSort _ _ g _ fun a ha b hb => ?_).symm
    have hkey : ∀ r ∈ (s.bucket q).filter p, (g r).sort = r.sort :=
      fun r hr => (hg r (mem_bucket.mp (mem_filter.mp hr).1).1).2.1
    rw [hkey a ha, hkey b hb]
  calc s'.liveRecords q = sortBy NodeRecord.sort (s'.bucket q) := rfl
    _ = (sortBy NodeRecord.sort ((s.bucket q).filter p)).map g := by rw [hbucket, hsort]
    _ = ((s.liveRecords q).filter p).map g := by rw [sortBy_filter (.of_map _ (s.nodup_bucket q))]; rfl

/-! ## Live leaves -/

def LiveLeaf (s : LosslessTreeCrdt) (node : TreeOpId) (text : List Char) : Prop :=
  ∃ r kind t, s.get? node = some r ∧ r.tomb = none ∧ r.body = .leaf kind t ∧ t.text = text

theorem LiveLeaf.walk (h : s.LiveLeaf node text) (hs : s.Grounded) : s.walk node = text := by
  obtain ⟨r, kind, t, hr, -, hbody, rfl⟩ := h
  exact walk_leaf hs hr hbody

/-- A live leaf is among the children of its parent. -/
theorem LiveLeaf.mem_children (h : s.LiveLeaf node text) (hs : s.Grounded) :
    ∃ parent, (s.get? node).bind NodeRecord.parent = some parent ∧ node ∈ s.children parent := by
  obtain ⟨r, kind, t, hr, hlive, hbody, -⟩ := h
  obtain ⟨hmem, rfl⟩ := get?_eq_some.mp hr
  cases hparent : r.parent with
  | none =>
    obtain ⟨kind', helement⟩ := (hs.nodes r hmem).rooted hparent
    rw [hbody] at helement
    cases helement
  | some parent =>
    refine ⟨parent, by rw [hr, bind_some, hparent], ?_⟩
    exact List.mem_map_of_mem (mem_liveRecords.mpr (mem_bucket.mpr ⟨hmem, hparent, hlive⟩))

/-- A child has one parent. -/
theorem parent_of_mem_children (h : node ∈ s.children parent) :
    (s.get? node).bind NodeRecord.parent = some parent := by
  obtain ⟨r, hr, rfl, hparent, -⟩ := LosslessTreeCrdt.mem_children h
  have hget : s.get? r.id = some r := get?_of_mem hr
  rw [hget, bind_some, hparent]

/-! ## Splits -/

/-- What has been split: the leaf `head` has what is left of the text, and the new leaf `x` under its parent has the
rest. -/
structure Splits (s s' : LosslessTreeCrdt) (parent : TreeOpId) (head x : NodeRecord) (text text' : List Char) :
    Prop where
  rows : s'.nodes.rows = (s.nodes.rows.map fun r => if r.id = head.id then head else r) ++ [x]
  same : ∀ r ∈ s.nodes.rows, r.id = head.id → head.parent = r.parent ∧ head.sort = r.sort ∧ head.tomb = r.tomb
  headText : ∃ kind t, head.body = .leaf kind t ∧ t.text = text
  newId : x.id = s.nextOpId
  newParent : x.parent = some parent
  newLive : x.tomb = none
  newSort : x.sort = s.keyAfter parent (some head.id)
  newText : ∃ kind t, x.body = .leaf kind t ∧ t.text = text'

theorem take_min_length {α : Type} (l : List α) (n : ℕ) :
    l.take (min n l.length) = l.take n ∧ l.drop (min n l.length) = l.drop n := by
  obtain hle | hle := le_total n l.length
  · rw [min_eq_left hle]
    exact ⟨rfl, rfl⟩
  · rw [min_eq_right hle, take_of_length_le hle, drop_of_length_le hle, take_length, drop_length]
    exact ⟨rfl, rfl⟩

theorem Grounded.splits (h : s.Grounded) {r : NodeRecord} {kind : LeafKind} {t : Text.TextCrdt Char} {atByte : ℤ}
    {atChar : ℕ} (hr : s.get? node = some r) (hbody : r.body = .leaf kind t) (hparent : r.parent = some parent)
    (hat : byteToChar t.text atByte = some atChar) :
    ∃ s' head x, s.splitLeaf node atByte = .ok (s.nextOpId, s') ∧ s'.Grounded ∧ head.id = node ∧
      s.Splits s' parent head x (t.text.take atChar) (t.text.drop atChar) := by
  obtain ⟨hmem, rfl⟩ := get?_eq_some.mp hr
  let op : TreeOp := ⟨s.nextOpId, .splitLeaf r.id s.nextOpId (s.keyAfter parent (some r.id)) atChar r.textHead⟩
  let write : NodeRecord → NodeRecord := fun r' =>
    { r' with
      body := .leaf kind (Text.TextCrdt.seed r.id.peer (t.text.take (min atChar t.text.length)))
      textHead := s.nextOpId }
  let x : NodeRecord := {
    id := s.nextOpId
    parent := r.parent
    sort := s.keyAfter parent (some r.id)
    sortStamp := s.nextOpId
    body := .leaf kind (Text.TextCrdt.seed s.nextOpId.peer (t.text.drop (min atChar t.text.length))) }
  have hok : s.splitLeaf r.id atByte = .ok (s.nextOpId, s.commitNext op.kind) := by
    rw [LosslessTreeCrdt.splitLeaf, leafText, hr]
    dsimp only
    rw [hbody]
    dsimp only [bind, Except.bind]
    rw [hat]
    dsimp only
    rw [hparent]
  refine ⟨s.commitNext op.kind, write r, x, hok, h.splitLeaf hok, rfl, ?_, ?_, ?_, rfl, hparent, rfl, rfl, ?_⟩
  · let s₀ : LosslessTreeCrdt := { s with counter := s.counter + 1 }
    have hr₀ : s₀.get? r.id = some r := hr
    have hwrite : ∀ r', (write r').id = r'.id := fun _ => rfl
    have hnone : (s₀.modify r.id write).get? s.nextOpId = none :=
      (get?_modify_of_ne hwrite (h.ne_nextOpId hmem).symm).trans h.get?_nextOpId
    have hnot : x.id ∉ (s₀.modify r.id write).nodes.rows.map NodeRecord.id := by
      intro hin
      obtain ⟨r', hr', hid⟩ := List.mem_map.mp hin
      exact Table.get?_eq_none.mp hnone r' hr' hid
    have happly : s₀.applySplit r.id s.nextOpId (s.keyAfter parent (some r.id)) atChar s.nextOpId =
        (s₀.modify r.id write).addNode x := by
      rw [LosslessTreeCrdt.applySplit, hr₀]
      dsimp only
      rw [hbody]
      dsimp only
      exact if_pos ⟨isNone_iff_eq_none.mpr hnone, isSome_iff_exists.mpr ⟨parent, hparent⟩⟩
    have hnodes : (s₀.applyOp op).nodes = ((s₀.modify r.id write).addNode x).nodes :=
      congrArg LosslessTreeCrdt.nodes happly
    rw [nodes_commitNext, hnodes]
    refine (Table.rows_put_of_notMem hnot).trans (congrArg (· ++ [x]) ?_)
    refine (rows_modify hwrite).trans (map_congr_left fun r' hr' => ?_)
    by_cases hid : r'.id = r.id
    · rw [if_pos hid, if_pos hid, eq_of_key_eq hr' hmem hid]
    · rw [if_neg hid, if_neg hid]
  · intro r' hr' hid
    obtain rfl : r' = r := eq_of_key_eq hr' hmem hid
    exact ⟨rfl, rfl, rfl⟩
  · refine ⟨kind, _, rfl, ?_⟩
    rw [Text.TextCrdt.text_seed, (take_min_length _ _).1]
  · refine ⟨kind, _, rfl, ?_⟩
    rw [Text.TextCrdt.text_seed, (take_min_length _ _).2]

/-! ## The children after a split -/

def overwrite (s : LosslessTreeCrdt) (head : NodeRecord) : LosslessTreeCrdt :=
  { s with
    nodes := s.nodes.map (fun r => if r.id = head.id then head else r) fun r => by
      by_cases hid : r.id = head.id
      · rw [if_pos hid, hid]
      · rw [if_neg hid] }

theorem liveRecords_overwrite {head : NodeRecord}
    (hsame : ∀ r ∈ s.nodes.rows, r.id = head.id → head.parent = r.parent ∧ head.sort = r.sort ∧ head.tomb = r.tomb)
    (q : TreeOpId) :
    (s.overwrite head).liveRecords q = (s.liveRecords q).map fun r => if r.id = head.id then head else r := by
  have hrows : (s.overwrite head).nodes.rows = s.nodes.rows.map fun r => if r.id = head.id then head else r := rfl
  have hmap := liveRecords_map hrows (fun _ => true) (fun r hr => ?_) q
  · rw [filter_true] at hmap
    exact hmap
  · by_cases hid : r.id = head.id
    · obtain ⟨hparent, hsort, htomb⟩ := hsame r hr hid
      rw [if_pos hid, htomb]
      exact ⟨hparent, hsort, (and_iff_left rfl).symm⟩
    · rw [if_neg hid]
      exact ⟨rfl, rfl, (and_iff_left rfl).symm⟩

theorem map_overwrite {head : NodeRecord} (l : List NodeRecord) :
    (l.map fun r => if r.id = head.id then head else r).map NodeRecord.id = l.map NodeRecord.id := by
  rw [List.map_map]
  refine map_congr_left fun r _ => ?_
  by_cases hid : r.id = head.id
  · simp [hid]
  · simp [hid]

/-- A node that comes last in its bucket goes behind the others of its key. -/
theorem Writes.children_last (h : s.Writes s' parent x) (hrows : s'.nodes.rows = s.nodes.rows ++ [x])
    {A B : List NodeRecord} (hsplit : s.liveRecords parent = A ++ B) (hA : ∀ a ∈ A, a.sort ≤ x.sort)
    (hB : ∀ b ∈ B.head?, x.sort < b.sort) :
    s'.children parent = A.map NodeRecord.id ++ x.id :: B.map NodeRecord.id := by
  have hmem : ∀ r ∈ s.liveRecords parent, r ∈ s.nodes.rows := fun r hr => (mem_bucket.mp (mem_liveRecords.mp hr)).1
  have hne : ∀ r ∈ s.nodes.rows, r.id ≠ x.id := by
    have hnodup := s'.nodes.nodup
    rw [hrows, map_append, map_singleton] at hnodup
    intro r hr heq
    exact (disjoint_of_nodup_append hnodup) (List.mem_map_of_mem hr) (by rw [heq]; exact mem_singleton_self _)
  have hkeep : (s.liveRecords parent).filter (fun r => r.id ≠ x.id) = A ++ B := by
    rw [← hsplit]
    exact filter_eq_self.mpr fun r hr => decide_eq_true (hne r (hmem r hr))
  refine (h.children_iff hkeep).mpr ⟨fun a ha => ?_, fun b hb => .inl (hB b hb)⟩
  have haA := mem_of_getLast? ha
  refine (hA a haA).lt_or_eq.imp_right fun heq => ⟨heq, ?_⟩
  have hrow : a.id ∈ s.nodes.rows.map NodeRecord.id := List.mem_map_of_mem (hmem a (hsplit ▸ mem_append_left B haA))
  rw [hrows, map_append, map_singleton]
  exact (singleton_sublist.mpr hrow).append (Sublist.refl [x.id])

section Splits

variable {head : NodeRecord} {text' : List Char}

section

variable (h : s.Splits s' parent head x text text')

include h

theorem Splits.ne (hs : s.Grounded) : ∀ r ∈ s.nodes.rows, r.id ≠ x.id := fun _ hr => h.newId ▸ hs.ne_nextOpId hr

theorem Splits.writes (hs : s.Grounded) :
    (s.overwrite head).Writes s' parent x := by
  refine writes_add (fun r hr => ?_) h.newParent h.newLive h.rows
  obtain ⟨r₀, hr₀, rfl⟩ := List.mem_map.mp hr
  by_cases hid : r₀.id = head.id
  · rw [if_pos hid, ← hid]
    exact h.ne hs r₀ hr₀
  · rw [if_neg hid]
    exact h.ne hs r₀ hr₀

theorem Splits.children_overwrite (q : TreeOpId) :
    (s.overwrite head).children q = s.children q := by
  rw [children, liveRecords_overwrite h.same, map_overwrite]
  rfl

/-- All that changes is under the parent: the leaf, and the new one. -/
theorem Splits.within (hs : s.Grounded) (hs' : s'.Grounded) (hmem : head.id ∈ s.children parent) :
    s.Within s' parent [head.id, x.id] := by
  refine ⟨fun q hq => ?_, fun q hq => ?_, fun q child hchild hin => ?_, fun q hq => ?_⟩
  · rw [mem_cons, mem_singleton, not_or] at hq
    refine get?_congr fun r hid => ?_
    have hne : r ≠ x := by
      rintro rfl
      exact hq.2 hid.symm
    rw [h.rows, mem_append, mem_singleton, or_iff_left hne, mem_overwritten (fun _ _ => rfl) (hid ▸ hq.1)]
  · rw [(h.writes hs).children_of_ne hq, h.children_overwrite]
  · obtain rfl | hin := mem_cons.mp hin
    · have hparent := parent_of_mem_children hchild
      rw [parent_of_mem_children hmem] at hparent
      exact (some.inj hparent).symm
    · obtain ⟨r, hr, hid, -⟩ := LosslessTreeCrdt.mem_children hchild
      rw [mem_singleton.mp hin] at hid
      exact absurd hid (h.ne hs r hr)
  · obtain rfl | hq := mem_cons.mp hq
    · exact hs.lt_of_mem_children hmem
    · rw [mem_singleton.mp hq]
      have hx : x ∈ s'.nodes.rows := h.rows ▸ mem_append_right _ (mem_singleton_self x)
      exact (hs'.nodes x hx).older parent h.newParent

/-- The children after a split. The new leaf has gone behind the children `M`. -/
theorem Splits.children_eq (hs : s.Grounded) {P M N : List NodeRecord}
    (hsplit : s.liveRecords parent = P ++ a :: (M ++ N)) (ha : a.id = head.id) (hM : ∀ r ∈ M, r.sort ≤ x.sort)
    (hN : ∀ r ∈ N.head?, x.sort < r.sort) (hlt : a.sort < x.sort) :
    s'.children parent = P.map NodeRecord.id ++ a.id :: (M.map NodeRecord.id ++ x.id :: N.map NodeRecord.id) := by
  let g : NodeRecord → NodeRecord := fun r => if r.id = head.id then head else r
  have hsame : ∀ r ∈ s.liveRecords parent, (g r).sort = r.sort := by
    intro r hr
    have hrow := (mem_bucket.mp (mem_liveRecords.mp hr)).1
    by_cases hid : r.id = head.id
    · show (if r.id = head.id then head else r).sort = r.sort
      rw [if_pos hid]
      exact (h.same r hrow hid).2.1
    · show (if r.id = head.id then head else r).sort = r.sort
      rw [if_neg hid]
  have hrecords : (s.overwrite head).liveRecords parent = (P ++ a :: M).map g ++ N.map g := by
    rw [liveRecords_overwrite h.same, hsplit, ← map_append, append_assoc, cons_append]
  have hsorted := s.sorted_liveRecords parent
  have hmem : ∀ r ∈ P ++ a :: (M ++ N), r ∈ s.liveRecords parent := fun r hr => hsplit ▸ hr
  rw [hsplit] at hsorted
  obtain ⟨-, -, hPa⟩ := pairwise_append.mp hsorted
  have hlast := (h.writes hs).children_last h.rows hrecords (fun r hr => ?_) fun r hr => ?_
  · rw [hlast, map_overwrite, map_overwrite]
    simp
  · obtain ⟨r₀, hr₀, rfl⟩ := List.mem_map.mp hr
    obtain hP | hr₀ := mem_append.mp hr₀
    · rw [hsame r₀ (hmem r₀ (mem_append_left _ hP))]
      exact (hPa r₀ hP a mem_cons_self).trans hlt.le
    · obtain rfl | hr₀ := mem_cons.mp hr₀
      · rw [hsame r₀ (hmem r₀ (mem_append_right _ mem_cons_self))]
        exact hlt.le
      · rw [hsame r₀ (hmem r₀ (mem_append_right _ (mem_cons_of_mem _ (mem_append_left _ hr₀))))]
        exact hM r₀ hr₀
  · rw [head?_map, mem_def, map_eq_some_iff] at hr
    obtain ⟨r₀, hr₀, rfl⟩ := hr
    have hin := mem_of_head? hr₀
    rw [hsame r₀ (hmem r₀ (mem_append_right _ (mem_cons_of_mem _ (mem_append_right _ hin))))]
    exact hN r₀ hr₀

/-- What the walk of the parent comes to after a split. -/
theorem Splits.walk_iff (hs : s.Grounded) (hs' : s'.Grounded) (helement : s.IsElement parent)
    (hwalk : s.walk head.id = text ++ text') {P M N : List NodeRecord}
    (hsplit : s.liveRecords parent = P ++ a :: (M ++ N)) (ha : a.id = head.id) (hM : ∀ r ∈ M, r.sort ≤ x.sort)
    (hN : ∀ r ∈ N.head?, x.sort < r.sort) (hlt : a.sort < x.sort) :
    (s'.walk parent).length = (s.walk parent).length ∧ (s'.walk parent = s.walk parent ↔
        text' ++ (M.map NodeRecord.id).flatMap s.walk = (M.map NodeRecord.id).flatMap s.walk ++ text') := by
  have hchildren : s.children parent =
      P.map NodeRecord.id ++ a.id :: (M.map NodeRecord.id ++ N.map NodeRecord.id) := by
    rw [children, hsplit]
    simp
  have hmem : head.id ∈ s.children parent := by
    rw [hchildren, ha]
    simp
  have hwithin := h.within hs hs' hmem
  have helement' := (hwithin.isElement_iff hwithin.parent_notMem).mpr helement
  -- The other children are as they were.
  have hnodup := s.nodup_liveRecords parent
  rw [hsplit] at hnodup
  have hothers : ∀ r ∈ P ++ (M ++ N), r.id ≠ a.id := by
    rw [map_append, map_cons, nodup_middle, nodup_cons, ← map_append] at hnodup
    intro r hr heq
    exact hnodup.1 (heq ▸ List.mem_map_of_mem hr)
  have hsame : ∀ L : List NodeRecord, (∀ r ∈ L, r ∈ P ++ (M ++ N)) →
      (L.map NodeRecord.id).flatMap s'.walk = (L.map NodeRecord.id).flatMap s.walk := by
    intro L hL
    refine flatMap_congr fun child hchild => ?_
    obtain ⟨r, hr, rfl⟩ := List.mem_map.mp hchild
    have hin : r ∈ s.liveRecords parent := by
      rw [hsplit]
      exact (perm_middle.symm.subset (mem_cons_of_mem a (hL r hr)))
    refine hwithin.walk_child hs hs' (List.mem_map_of_mem hin) ?_
    rw [mem_cons, mem_singleton, not_or]
    exact ⟨ha ▸ hothers r (hL r hr), h.ne hs r (mem_bucket.mp (mem_liveRecords.mp hin)).1⟩
  have hP := hsame P fun r hr => mem_append_left _ hr
  have hM' := hsame M fun r hr => mem_append_right _ (mem_append_left _ hr)
  have hN' := hsame N fun r hr => mem_append_right _ (mem_append_right _ hr)
  -- The leaf has the first part of the text, and the new one the rest.
  have hhead : s'.walk head.id = text := by
    obtain ⟨kind, t, hbody, rfl⟩ := h.headText
    obtain ⟨r, hr, hid, -⟩ := LosslessTreeCrdt.mem_children hmem
    refine walk_leaf hs' ?_ hbody
    have hrow : head ∈ s'.nodes.rows := by
      rw [h.rows]
      exact mem_append_left _ (List.mem_map.mpr ⟨r, hr, if_pos hid⟩)
    exact get?_of_mem hrow
  have hnew : s'.walk x.id = text' := by
    obtain ⟨kind, t, hbody, rfl⟩ := h.newText
    refine walk_leaf hs' ?_ hbody
    have hrow : x ∈ s'.nodes.rows := h.rows ▸ mem_append_right _ (mem_singleton_self x)
    exact get?_of_mem hrow
  have hbefore : s.walk parent = (P.map NodeRecord.id).flatMap s.walk ++ (text ++ (text' ++
      ((M.map NodeRecord.id).flatMap s.walk ++ (N.map NodeRecord.id).flatMap s.walk))) := by
    rw [walk_element hs helement, hchildren, flatMap_append, flatMap_cons, flatMap_append, ha, hwalk, append_assoc]
  have hafter : s'.walk parent = (P.map NodeRecord.id).flatMap s.walk ++ (text ++
      ((M.map NodeRecord.id).flatMap s.walk ++ (text' ++ (N.map NodeRecord.id).flatMap s.walk))) := by
    rw [walk_element hs' helement', h.children_eq hs hsplit ha hM hN hlt, flatMap_append, flatMap_cons,
      flatMap_append, flatMap_cons, hP, hM', hN', ha, hhead, hnew]
  rw [hbefore, hafter]
  constructor
  · simp only [length_append]
    omega
  · rw [append_cancel_left_eq, append_cancel_left_eq, ← append_assoc, ← append_assoc, append_cancel_right_eq]
    exact eq_comm

end

end Splits

/-! ## Where the rest of the text goes -/

/-- The children that a key behind the leaf's own does not come before. -/
def overtaken (s : LosslessTreeCrdt) (parent : TreeOpId) (a : NodeRecord) : List TreeOpId :=
  ((s.successors parent a.id).takeWhile fun r => r.sort ≤ ⟨tieKey a.sort.frac, s.peer⟩).map NodeRecord.id

/-- The rest of the leaf's text stays where it is. Where the next key is the leaf's own, and the document shows the
leaf, the text may as well stand behind the text of those whose keys are not above that of the new leaf. -/
def Undisturbed (s : LosslessTreeCrdt) (node : TreeOpId) (text : List Char) : Prop :=
  ∀ a n parent, s.get? node = some a → a.parent = some parent → (s.successors parent node).head? = some n →
    a.sort.frac = n.sort.frac → s.Shows parent ROOT →
    text ++ (s.overtaken parent a).flatMap s.walk = (s.overtaken parent a).flatMap s.walk ++ text

theorem Grounded.splitLeaf_render_iff (h : s.Grounded) {atByte : ℤ} {atChar : ℕ} (hleaf : s.LiveLeaf node text)
    (hat : byteToChar text atByte = some atChar) : ∃ s', s.splitLeaf node atByte = .ok (s.nextOpId, s') ∧
      (s'.render = s.render ↔ s.Undisturbed node (text.drop atChar)) := by
  have hwalk := hleaf.walk h
  obtain ⟨parent, hparent, hmem⟩ := hleaf.mem_children h
  obtain ⟨r, kind, t, hr, -, hbody, rfl⟩ := hleaf
  rw [hr, bind_some] at hparent
  obtain ⟨s', head, x, hok, hs', rfl, hsplits⟩ := h.splits hr hbody hparent hat
  refine ⟨s', hok, ?_⟩
  obtain ⟨P, a, Q, hsplit, ha, hothers⟩ := split_at_name (s.nodup_liveRecords parent) hmem
  have hrow := (mem_bucket.mp (mem_liveRecords.mp (hsplit ▸ mem_append_right P mem_cons_self))).1
  have hget : s.get? head.id = some a := ha ▸ get?_of_mem hrow
  have hsucc : s.successors parent head.id = Q := ha ▸ successors_eq hsplit (ha ▸ hothers)
  have hsort : x.sort = ⟨keyBetween (some a.sort.frac) (Q.head?.map fun r => r.sort.frac), s.peer⟩ := by
    rw [hsplits.newSort, ← ha]
    exact keyAfter_some hsplit (ha ▸ hothers)
  have hlt : a.sort < x.sort := SortKey.lt_iff.mpr (.inl (hsort ▸ lt_keyBetween _ _))
  have hle : ∀ n ∈ Q, a.sort ≤ n.sort := by
    have hsorted := s.sorted_liveRecords parent
    rw [hsplit] at hsorted
    exact (pairwise_cons.mp (pairwise_append.mp hsorted).2.1).1
  have hwithin := hsplits.within h hs' hmem
  by_cases helement : s.IsElement parent
  · let M := Q.takeWhile fun r => r.sort ≤ x.sort
    let N := Q.dropWhile fun r => r.sort ≤ x.sort
    have hQ : s.liveRecords parent = P ++ a :: (M ++ N) := by
      rw [hsplit]
      exact congrArg (fun R => P ++ a :: R) takeWhile_append_dropWhile.symm
    have hM : ∀ r ∈ M, r.sort ≤ x.sort := fun r hr => by simpa using mem_takeWhile_imp hr
    have hN : ∀ r ∈ N.head?, x.sort < r.sort := by
      intro r hr
      have hnot := head?_dropWhile_not (fun r : NodeRecord => decide (r.sort ≤ x.sort)) Q
      rw [mem_def] at hr
      rw [show (Q.dropWhile fun r => decide (r.sort ≤ x.sort)).head? = some r from hr] at hnot
      simpa using hnot
    have htext : s.walk head.id = t.text.take atChar ++ t.text.drop atChar := by
      rw [hwalk, take_append_drop]
    obtain ⟨hlength, hiff⟩ := hsplits.walk_iff h hs' helement htext hQ ha hM hN hlt
    rw [hwithin.render_iff h hs' hlength, hiff]
    -- What the new leaf goes behind is what the key behind the leaf's own does not come before, if the next key is
    -- the leaf's own, and nothing otherwise.
    have htie : ∀ n ∈ Q.head?, a.sort.frac = n.sort.frac → M.map NodeRecord.id = s.overtaken parent a := by
      intro n hn hfrac
      rw [mem_def] at hn
      have hkey : x.sort = ⟨tieKey a.sort.frac, s.peer⟩ := by
        rw [hsort, hn, map_some, ← hfrac, keyBetween_self]
      rw [overtaken, ha, hsucc, ← hkey]
    have hnone : (∀ n ∈ Q.head?, a.sort.frac ≠ n.sort.frac) → M = [] := by
      intro hne
      have hQ' : ∀ n ∈ Q.head?, ¬ n.sort ≤ x.sort := by
        intro n hn
        have hnQ := mem_append_right P (mem_cons_of_mem a (mem_of_head? hn))
        have hlt' := lt_of_le_of_ne (SortKey.frac_le (hle n (mem_of_head? hn))) (hne n hn)
        have hbelow := keyBetween_lt hlt' (minted_of_mem h (hsplit ▸ hnQ))
        rw [mem_def] at hn
        rw [hsort, hn, not_le]
        exact SortKey.lt_iff.mpr (.inl hbelow)
      cases Q with
      | nil => rfl
      | cons n Q => exact takeWhile_cons_of_neg (by simpa using hQ' n rfl)
    obtain rfl : r = a := some.inj (hr.symm.trans hget)
    by_cases hties : ∃ n ∈ Q.head?, r.sort.frac = n.sort.frac
    · obtain ⟨n, hn, hfrac⟩ := hties
      rw [htie n hn hfrac]
      constructor
      · intro hcommute a' n' parent' ha' hparent' _ _ hshows
        obtain rfl := some.inj (hget.symm.trans ha')
        obtain rfl := some.inj (hparent.symm.trans hparent')
        exact hcommute hshows
      · exact fun hkept => hkept r n parent hget hparent (hsucc ▸ hn) hfrac
    · rw [hnone fun n hn hfrac => hties ⟨n, hn, hfrac⟩]
      refine iff_of_true (fun _ => (append_nil _).trans rfl) fun a' n' parent' ha' hparent' hn' hfrac' _ => ?_
      obtain rfl := some.inj (hget.symm.trans ha')
      obtain rfl := some.inj (hparent.symm.trans hparent')
      exact absurd ⟨n', hsucc ▸ hn', hfrac'⟩ hties
  · have hsame : s'.walk parent = s.walk parent := walk_congr h hs' (hwithin.get parent hwithin.parent_notMem) helement
    refine iff_of_true ?_ fun a n parent' ha hparent' _ _ hshows => ?_
    · exact (hwithin.render_iff h hs' (congrArg length hsame)).mpr fun _ => hsame
    · obtain rfl := some.inj (hr.symm.trans ha)
      obtain rfl := some.inj (hparent.symm.trans hparent')
      exact absurd hshows.isElement_parent helement

/-! ## Merges -/

/-- What has been merged: `l` has the text of both, and `right` is buried. -/
structure Merges (s s' : LosslessTreeCrdt) (l : NodeRecord) (right : TreeOpId) (text : List Char) : Prop where
  rows : ∃ tomb, s'.nodes.rows =
    (s.nodes.rows.map fun r => if r.id = l.id then l else r).map fun r => if r.id = right then r.bury tomb else r
  ne : l.id ≠ right
  same : ∀ r ∈ s.nodes.rows, r.id = l.id → l.parent = r.parent ∧ l.sort = r.sort ∧ l.tomb = r.tomb
  text : ∃ kind t, l.body = .leaf kind t ∧ t.text = text

theorem Grounded.merges (h : s.Grounded) {left right : TreeOpId} {text' : List Char} {A B : List TreeOpId}
    (hleft : s.LiveLeaf left text) (hright : s.LiveLeaf right text')
    (hchildren : s.children parent = A ++ left :: right :: B) :
    ∃ s' l, s.mergeAdjacentLeaves left right = .ok s' ∧ s'.Grounded ∧ l.id = left ∧
      s.Merges s' l right (text ++ text') := by
  have hnodup : (A ++ left :: right :: B).Nodup := hchildren ▸ s.nodup_liveRecords parent
  have hne : left ≠ right := by
    obtain ⟨hleft, -⟩ := nodup_cons.mp (nodup_append.mp hnodup).2.1
    exact fun heq => hleft (heq ▸ mem_cons_self)
  have hmem : left ∈ s.children parent := hchildren ▸ mem_append_right A mem_cons_self
  have hparent := parent_of_mem_children hmem
  obtain ⟨l, kind, t, hl, -, hbody, rfl⟩ := hleft
  obtain ⟨r, kind', t', hr, -, hbody', rfl⟩ := hright
  rw [hl, bind_some] at hparent
  obtain ⟨hmeml, rfl⟩ := get?_eq_some.mp hl
  let write : NodeRecord → NodeRecord := fun r =>
    { r with body := .leaf kind (Text.TextCrdt.seed l.id.peer (t.text ++ t'.text)), textHead := s.nextOpId }
  let op : TreeOp := ⟨s.nextOpId, .mergeLeaves l.id right l.textHead r.textHead⟩
  have hadjacent : ((s.children parent).dropWhile (· ≠ l.id)).tail.head? = some right := by
    have hA : ∀ child ∈ A, child ≠ l.id := by
      intro child hchild heq
      exact (nodup_append.mp hnodup).2.2 child hchild l.id mem_cons_self heq
    rw [hchildren, dropWhile_append_of_pos fun child hchild => decide_eq_true (hA child hchild),
      dropWhile_cons_of_neg (by simp)]
    rfl
  have hok : s.mergeAdjacentLeaves l.id right = .ok (s.commitNext op.kind) := by
    rw [LosslessTreeCrdt.mergeAdjacentLeaves, leafText, leafText, hl, hr]
    dsimp only
    rw [hbody, hbody']
    dsimp only [bind, Except.bind]
    rw [hparent]
    exact if_pos hadjacent
  refine ⟨s.commitNext op.kind, write l, hok, h.mergeAdjacentLeaves hok, rfl, ⟨s.nextOpId, ?_⟩, hne, ?_, ?_⟩
  · let s₀ : LosslessTreeCrdt := { s with counter := s.counter + 1 }
    have hl₀ : s₀.get? l.id = some l := hl
    have hr₀ : s₀.get? right = some r := hr
    have hwrite : ∀ r', (write r').id = r'.id := fun _ => rfl
    have hbury : ∀ r' : NodeRecord, (r'.bury s.nextOpId).id = r'.id := fun _ => rfl
    have happly : s₀.applyMerge l.id right s.nextOpId = (s₀.modify l.id write).modify right (·.bury s.nextOpId) := by
      rw [LosslessTreeCrdt.applyMerge, hl₀, hr₀]
      dsimp only
      rw [hbody, hbody']
    have hnodes : (s₀.applyOp op).nodes = ((s₀.modify l.id write).modify right (·.bury s.nextOpId)).nodes :=
      congrArg LosslessTreeCrdt.nodes happly
    rw [nodes_commitNext, hnodes]
    refine (rows_modify hbury).trans (congrArg _ ?_)
    refine (rows_modify hwrite).trans (map_congr_left fun r' hr' => ?_)
    by_cases hid : r'.id = l.id
    · rw [if_pos hid, if_pos hid, eq_of_key_eq hr' hmeml hid]
    · rw [if_neg hid, if_neg hid]
  · intro r' hr' hid
    obtain rfl : r' = l := eq_of_key_eq hr' hmeml hid
    exact ⟨rfl, rfl, rfl⟩
  · exact ⟨kind, _, rfl, Text.TextCrdt.text_seed _ _⟩

namespace Merges

variable {l : NodeRecord} {right : TreeOpId} {text' : List Char}

/-- The buried leaf is no longer among the children. -/
theorem children_eq (h : s.Merges s' l right text) (q : TreeOpId) :
    s'.children q = (s.children q).filter (· ≠ right) := by
  obtain ⟨tomb, hrows⟩ := h.rows
  rw [List.map_map] at hrows
  let g : NodeRecord → NodeRecord :=
    (fun r => if r.id = right then r.bury tomb else r) ∘ fun r => if r.id = l.id then l else r
  have hleft : ∀ r : NodeRecord, r.id = l.id → g r = l := fun r hid =>
    (congrArg (fun r : NodeRecord => if r.id = right then r.bury tomb else r) (if_pos hid)).trans (if_neg h.ne)
  have hother : ∀ r : NodeRecord, r.id ≠ l.id → g r = if r.id = right then r.bury tomb else r := fun r hid =>
    congrArg (fun r : NodeRecord => if r.id = right then r.bury tomb else r) (if_neg hid)
  have hrecords := liveRecords_map (g := g) hrows (fun r => r.id ≠ right) (fun r hr => ?_) q
  · have hids : ∀ r : NodeRecord, (g r).id = r.id := by
      intro r
      by_cases hid : r.id = l.id
      · rw [hleft r hid, hid]
      · rw [hother r hid]
        split
        · rfl
        · rfl
    rw [children, hrecords, List.map_map]
    have hfilter : (s.children q).filter (· ≠ right) =
        ((s.liveRecords q).filter fun r => r.id ≠ right).map NodeRecord.id := List.filter_map
    rw [hfilter]
    exact map_congr_left fun r _ => hids r
  · by_cases hid : r.id = l.id
    · obtain ⟨hparent, hsort, htomb⟩ := h.same r hr hid
      rw [hleft r hid, htomb]
      exact ⟨hparent, hsort, (and_iff_left (decide_eq_true (hid ▸ h.ne))).symm⟩
    · rw [hother r hid]
      by_cases hright : r.id = right
      · rw [if_pos hright]
        exact ⟨rfl, rfl, iff_of_false (some_ne_none _) fun hlive => of_decide_eq_true hlive.2 hright⟩
      · rw [if_neg hright]
        exact ⟨rfl, rfl, (and_iff_left (decide_eq_true hright)).symm⟩

/-- Every other node is as it was. -/
theorem mem_rows (h : s.Merges s' l right text) {r : NodeRecord} (hl : r.id ≠ l.id) (hr : r.id ≠ right) :
    r ∈ s'.nodes.rows ↔ r ∈ s.nodes.rows := by
  obtain ⟨tomb, hrows⟩ := h.rows
  have hbury : ∀ r : NodeRecord, r.id = right → (r.bury tomb).id = right := fun _ hid => hid
  rw [hrows, mem_overwritten hbury hr, mem_overwritten (fun _ _ => rfl) hl]

theorem within (h : s.Merges s' l right text) (hs : s.Grounded) {A B : List TreeOpId}
    (hchildren : s.children parent = A ++ l.id :: right :: B) : s.Within s' parent [l.id, right] := by
  have hleft : l.id ∈ s.children parent := hchildren ▸ mem_append_right A mem_cons_self
  have hright : right ∈ s.children parent := hchildren ▸ mem_append_right A (mem_cons_of_mem _ mem_cons_self)
  have hone : ∀ q, ∀ child ∈ s.children q, child ∈ [l.id, right] → q = parent := by
    intro q child hchild hin
    have hmem : child ∈ s.children parent := by
      obtain rfl | hin := mem_cons.mp hin
      · exact hleft
      · exact mem_singleton.mp hin ▸ hright
    have hparent := parent_of_mem_children hchild
    rw [parent_of_mem_children hmem] at hparent
    exact (some.inj hparent).symm
  refine ⟨fun q hq => ?_, fun q hq => ?_, hone, fun q hq => ?_⟩
  · rw [mem_cons, mem_singleton, not_or] at hq
    refine get?_congr fun r hid => ?_
    rw [h.mem_rows (hid ▸ hq.1) (hid ▸ hq.2)]
  · rw [h.children_eq]
    refine filter_eq_self.mpr fun child hchild => decide_eq_true ?_
    rintro rfl
    exact hq (hone q child hchild (mem_cons_of_mem _ mem_cons_self))
  · obtain rfl | hq := mem_cons.mp hq
    · exact hs.lt_of_mem_children hleft
    · exact mem_singleton.mp hq ▸ hs.lt_of_mem_children hright

/-- The walk of the parent comes to what it has come to. -/
theorem walk_eq (h : s.Merges s' l right (text ++ text')) (hs : s.Grounded) (hs' : s'.Grounded)
    (hleft : s.walk l.id = text) (hright : s.walk right = text') {A B : List TreeOpId}
    (hchildren : s.children parent = A ++ l.id :: right :: B) : s'.walk parent = s.walk parent := by
  have hwithin := h.within hs hchildren
  by_cases helement : s.IsElement parent
  · have helement' := (hwithin.isElement_iff hwithin.parent_notMem).mpr helement
    have hnodup : (A ++ l.id :: right :: B).Nodup := hchildren ▸ s.nodup_liveRecords parent
    obtain ⟨-, hbehind, hapart⟩ := nodup_append.mp hnodup
    obtain ⟨hleftB, hbehind⟩ := nodup_cons.mp hbehind
    obtain ⟨hrightB, -⟩ := nodup_cons.mp hbehind
    have hA : ∀ child ∈ A, child ≠ l.id ∧ child ≠ right := fun child hchild =>
      ⟨hapart child hchild l.id mem_cons_self, hapart child hchild right (mem_cons_of_mem _ mem_cons_self)⟩
    have hB : ∀ child ∈ B, child ≠ l.id ∧ child ≠ right := by
      intro child hchild
      constructor
      · rintro rfl
        exact hleftB (mem_cons_of_mem right hchild)
      · rintro rfl
        exact hrightB hchild
    have hchildren' : s'.children parent = A ++ l.id :: B := by
      rw [h.children_eq, hchildren, filter_append, filter_cons_of_pos (by simpa using h.ne),
        filter_cons_of_neg (by simp), filter_eq_self.mpr fun child hchild => decide_eq_true (hA child hchild).2,
        filter_eq_self.mpr fun child hchild => decide_eq_true (hB child hchild).2]
    have hsame : ∀ child ∈ s.children parent, child ≠ l.id ∧ child ≠ right → s'.walk child = s.walk child := by
      intro child hchild hne
      refine hwithin.walk_child hs hs' hchild ?_
      rw [mem_cons, mem_singleton, not_or]
      exact hne
    have hA' : A.flatMap s'.walk = A.flatMap s.walk := flatMap_congr fun child hchild =>
      hsame child (hchildren ▸ mem_append_left _ hchild) (hA child hchild)
    have hB' : B.flatMap s'.walk = B.flatMap s.walk := by
      refine flatMap_congr fun child hchild => hsame child ?_ (hB child hchild)
      rw [hchildren]
      exact mem_append_right A (mem_cons_of_mem _ (mem_cons_of_mem _ hchild))
    have hl : s'.walk l.id = text ++ text' := by
      obtain ⟨kind, t, hbody, htext⟩ := h.text
      have hmem : l ∈ s'.nodes.rows := by
        obtain ⟨tomb, hrows⟩ := h.rows
        have hin : l.id ∈ s.children parent := hchildren ▸ mem_append_right A mem_cons_self
        obtain ⟨r, hr, hid, -⟩ := LosslessTreeCrdt.mem_children hin
        have hbury : ∀ r : NodeRecord, r.id = right → (r.bury tomb).id = right := fun _ hid => hid
        rw [hrows, mem_overwritten hbury h.ne]
        exact List.mem_map.mpr ⟨r, hr, if_pos hid⟩
      rw [← htext]
      exact walk_leaf hs' (get?_of_mem hmem) hbody
    calc s'.walk parent = A.flatMap s'.walk ++ (s'.walk l.id ++ B.flatMap s'.walk) := by
          rw [walk_element hs' helement', hchildren', flatMap_append, flatMap_cons]
      _ = A.flatMap s.walk ++ ((text ++ text') ++ B.flatMap s.walk) := by rw [hA', hl, hB']
      _ = A.flatMap s.walk ++ (s.walk l.id ++ (s.walk right ++ B.flatMap s.walk)) := by
          rw [hleft, hright, append_assoc]
      _ = s.walk parent := by
          rw [walk_element hs helement, hchildren, flatMap_append, flatMap_cons, flatMap_cons]
  · exact walk_congr hs hs' (hwithin.get parent hwithin.parent_notMem) helement

end Merges

theorem Grounded.mergeAdjacentLeaves_render (h : s.Grounded) {left right : TreeOpId} {text' : List Char}
    (hleft : s.LiveLeaf left text) (hright : s.LiveLeaf right text')
    (hadjacent : [left, right] <:+: s.children parent) :
    ∃ s', s.mergeAdjacentLeaves left right = .ok s' ∧ s'.render = s.render := by
  obtain ⟨A, B, hchildren⟩ := hadjacent
  have hsplit : s.children parent = A ++ left :: right :: B := by
    rw [← hchildren, append_assoc]
    rfl
  obtain ⟨s', l, hok, hs', rfl, hmerges⟩ := h.merges hleft hright hsplit
  have hwalk := hmerges.walk_eq h hs' (hleft.walk h) (hright.walk h) hsplit
  refine ⟨s', hok, ?_⟩
  exact ((hmerges.within h hsplit).render_iff h hs' (congrArg length hwalk)).mpr fun _ => hwalk

/-! ## The document -/

/-- On every replica that is reached, splitting a live leaf leaves the document as it is exactly if the rest of the text
stays where it is, and merging two adjacent live leaves always does. -/
theorem render_kept_iff (h : s.Reached) :
    (∀ node text atByte atChar, s.LiveLeaf node text → byteToChar text atByte = some atChar →
      ∃ s', s.splitLeaf node atByte = .ok (s.nextOpId, s') ∧
        (s'.render = s.render ↔ s.Undisturbed node (text.drop atChar))) ∧
    ∀ parent left right text text', s.LiveLeaf left text → s.LiveLeaf right text' →
      [left, right] <:+: s.children parent → ∃ s', s.mergeAdjacentLeaves left right = .ok s' ∧ s'.render = s.render :=
  ⟨fun _ _ _ _ hleaf hat => h.grounded.splitLeaf_render_iff hleaf hat,
    fun _ _ _ _ _ hleft hright hadjacent => h.grounded.mergeAdjacentLeaves_render hleft hright hadjacent⟩

theorem liveLeaf_mingled (text text' : List Char) : (mingled text text').LiveLeaf ⟨1, 0⟩ text :=
  ⟨_, .token, _, rfl, rfl, rfl, Text.TextCrdt.text_seed 0 text⟩

theorem liveLeaf_mingled_other (text : List Char) : (mingled ['a', 'b'] text).LiveLeaf ⟨1, 1⟩ text :=
  ⟨_, .token, _, rfl, rfl, rfl, Text.TextCrdt.text_seed 1 text⟩

theorem render_kept_iff_mingled : (∃ s', (mingled ['a', 'b'] ['c']).splitLeaf ⟨1, 0⟩ 1 = .ok (⟨2, 0⟩, s') ∧
      (s'.render = ['a', 'b', 'c'] ↔ (mingled ['a', 'b'] ['c']).Undisturbed ⟨1, 0⟩ ['b'])) ∧
    ∃ s', (mingled ['a', 'b'] ['c']).mergeAdjacentLeaves ⟨1, 0⟩ ⟨1, 1⟩ = .ok s' ∧ s'.render = ['a', 'b', 'c'] := by
  have hadjacent : [⟨1, 0⟩, ⟨1, 1⟩] <:+: (mingled ['a', 'b'] ['c']).children ROOT := by decide
  obtain ⟨hsplit, hmerge⟩ := render_kept_iff (reached_mingled ['a', 'b'] ['c'])
  exact ⟨hsplit ⟨1, 0⟩ ['a', 'b'] 1 1 (liveLeaf_mingled _ _) rfl,
    hmerge ROOT ⟨1, 0⟩ ⟨1, 1⟩ _ _ (liveLeaf_mingled _ _) (liveLeaf_mingled_other _) hadjacent⟩

/-- The rest of the text of the first of two leaves with equal keys goes behind the text of the second one. -/
theorem not_always_kept :
    ¬ ∀ (s s' : LosslessTreeCrdt) (node newNode : TreeOpId) (text : List Char) (atByte : ℤ), s.Reached →
      s.LiveLeaf node text → s.splitLeaf node atByte = .ok (newNode, s') → s'.render = s.render := by
  intro h
  have hrender := h (mingled ['a', 'b'] ['c']) _ ⟨1, 0⟩ ⟨2, 0⟩ ['a', 'b'] 1 (reached_mingled _ _)
    (liveLeaf_mingled _ _) rfl
  revert hrender
  decide

end LosslessTreeCrdt

end LazilyPy.Lossless

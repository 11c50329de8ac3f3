import LazilyPy.Lossless.Reached

/-!
# Where children are placed

A node that is created or reordered gets a key between those of its neighbours. Neighbours whose keys are equal leave
no room for it.
-/

namespace LazilyPy.Lossless

open List Option

namespace LosslessTreeCrdt

variable {s s' : LosslessTreeCrdt} {x a b : NodeRecord} {parent node : TreeOpId} {A B : List NodeRecord}

/-! ## The order of the children with one node put somewhere -/

def bucket (s : LosslessTreeCrdt) (parent : TreeOpId) : List NodeRecord :=
  s.nodes.rows.filter fun r => r.parent = some parent ∧ r.tomb = none

theorem nodup_bucket (s : LosslessTreeCrdt) (parent : TreeOpId) : ((s.bucket parent).map NodeRecord.id).Nodup :=
  s.nodes.nodup.sublist (filter_sublist.map NodeRecord.id)

theorem mem_bucket : a ∈ s.bucket parent ↔ a ∈ s.nodes.rows ∧ a.parent = some parent ∧ a.tomb = none := by
  rw [bucket, mem_filter, decide_eq_true_iff]

theorem mem_liveRecords : a ∈ s.liveRecords parent ↔ a ∈ s.bucket parent :=
  mem_insertionSort _

theorem nodup_liveRecords (s : LosslessTreeCrdt) (parent : TreeOpId) :
    ((s.liveRecords parent).map NodeRecord.id).Nodup :=
  ((perm_insertionSort _ _).map _).nodup_iff.mpr (s.nodup_bucket parent)

/-- The live node `x` has been written under its parent, and the other nodes are as they were. -/
structure Writes (s s' : LosslessTreeCrdt) (parent : TreeOpId) (x : NodeRecord) : Prop where
  mem : x ∈ s'.bucket parent
  rest : s'.nodes.rows.filter (fun r => r.id ≠ x.id) = s.nodes.rows.filter fun r => r.id ≠ x.id
  before : ∀ r ∈ s.nodes.rows, r.id = x.id → r.parent = some parent
  names : ∀ r ∈ s.nodes.rows, [x.id, r.id].Sublist (s'.nodes.rows.map NodeRecord.id) ↔
    [x.id, r.id].Sublist (s.nodes.rows.map NodeRecord.id)

theorem before_bucket_iff (ha : a ∈ s.bucket parent) (hb : b ∈ s.bucket parent) :
    Before NodeRecord.sort (s.bucket parent) a b ↔ a.sort < b.sort ∨
      a.sort = b.sort ∧ [a.id, b.id].Sublist (s.nodes.rows.map NodeRecord.id) := by
  refine or_congr_right (and_congr_right fun _ => ?_)
  rw [pair_map_iff s.nodes.nodup (mem_bucket.mp ha).1 (mem_bucket.mp hb).1]
  refine ⟨fun h => h.trans filter_sublist, fun h => pair_filter ?_ ?_ h⟩
  · exact decide_eq_true (mem_bucket.mp ha).2
  · exact decide_eq_true (mem_bucket.mp hb).2

namespace Writes

/-- The others are there as before. -/
theorem mem_rest (h : s.Writes s' parent x) (hb : b ∈ s.nodes.rows) (hid : b.id ≠ x.id) : b ∈ s'.nodes.rows := by
  have hmem : b ∈ s.nodes.rows.filter fun r => r.id ≠ x.id := mem_filter.mpr ⟨hb, decide_eq_true hid⟩
  rw [← h.rest] at hmem
  exact (mem_filter.mp hmem).1

/-- The children of the other parents are as they were. -/
theorem children_of_ne (h : s.Writes s' parent x) {q : TreeOpId} (hq : q ≠ parent) : s'.children q = s.children q := by
  have hparent := (mem_bucket.mp h.mem).2.1
  have hkeep : ∀ t : LosslessTreeCrdt, (∀ r ∈ t.nodes.rows, r.id = x.id → r.parent = some parent) →
      t.bucket q = (t.nodes.rows.filter fun r => r.id ≠ x.id).filter fun r => r.parent = some q ∧ r.tomb = none := by
    intro t ht
    rw [List.filter_filter, bucket]
    refine filter_congr fun r hr => ?_
    by_cases hid : r.id = x.id
    · have hne : r.parent ≠ some q := fun heq => hq (some.inj (heq.symm.trans (ht r hr hid)))
      simp [hne]
    · simp [hid]
  have hafter : ∀ r ∈ s'.nodes.rows, r.id = x.id → r.parent = some parent := by
    intro r hr hid
    rw [Table.eq_of_key_eq hr (mem_bucket.mp h.mem).1 hid]
    exact hparent
  have hbucket : s'.bucket q = s.bucket q := by rw [hkeep s' hafter, hkeep s h.before, h.rest]
  exact congrArg (fun l => (sortBy NodeRecord.sort l).map NodeRecord.id) hbucket

/-- Where the node goes. -/
theorem children_iff (h : s.Writes s' parent x)
    (hsplit : (s.liveRecords parent).filter (fun r => r.id ≠ x.id) = A ++ B) :
    s'.children parent = A.map NodeRecord.id ++ x.id :: B.map NodeRecord.id ↔ (∀ a ∈ A.getLast?, a.sort < x.sort ∨
        a.sort = x.sort ∧ [a.id, x.id].Sublist (s'.nodes.rows.map NodeRecord.id)) ∧
      ∀ b ∈ B.head?, x.sort < b.sort ∨ x.sort = b.sort ∧ [x.id, b.id].Sublist (s.nodes.rows.map NodeRecord.id) := by
  have hmem : ∀ r ∈ A ++ B, r ∈ s.nodes.rows ∧ r ∈ s'.bucket parent := by
    intro r hr
    rw [← hsplit] at hr
    obtain ⟨hlive, hid⟩ := mem_filter.mp hr
    have hbucket := mem_bucket.mp (mem_liveRecords.mp hlive)
    exact ⟨hbucket.1, mem_bucket.mpr ⟨h.mem_rest hbucket.1 (by simpa using hid), hbucket.2⟩⟩
  have hothers : sortBy NodeRecord.sort ((s'.bucket parent).filter fun r => r.id ≠ x.id) = A ++ B := by
    have hrows : (s'.bucket parent).filter (fun r => r.id ≠ x.id) = (s.bucket parent).filter fun r => r.id ≠ x.id := by
      rw [bucket, filter_comm, h.rest, filter_comm, bucket]
    rw [hrows, sortBy_filter (.of_map _ (s.nodup_bucket parent))]
    exact hsplit
  refine (map_sortBy_eq_iff (s'.nodup_bucket parent) h.mem hothers).trans ?_
  refine and_congr (forall₂_congr fun a ha => ?_) (forall₂_congr fun b hb => ?_)
  · exact before_bucket_iff (hmem a (mem_append_left B (mem_of_getLast? ha))).2 h.mem
  · have hb' := hmem b (mem_append_right A (mem_of_head? hb))
    rw [before_bucket_iff h.mem hb'.2, h.names b hb'.1]

end Writes

/-! ## The key behind an anchor -/

def successors (s : LosslessTreeCrdt) (parent anchor : TreeOpId) : List NodeRecord :=
  ((s.liveRecords parent).dropWhile fun r => r.id ≠ anchor).tail

/-- The key that goes behind two equal ones comes before that of `n'`. Of equal keys the one of the node that stands
first comes first. -/
def Precedes (s : LosslessTreeCrdt) (node : TreeOpId) (f : List ℕ) (n' : NodeRecord) : Prop :=
  (⟨tieKey f, s.peer⟩ : SortKey) < n'.sort ∨
    ⟨tieKey f, s.peer⟩ = n'.sort ∧ [node, n'.id].Sublist (s.nodes.rows.map NodeRecord.id)

/-- There is room for the node: at the front, and behind an anchor if its key and the next one differ, or if what
goes behind equal keys comes before the next other child. -/
def Room (s : LosslessTreeCrdt) (parent node : TreeOpId) : Option TreeOpId → Prop
  | none => True
  | some anchor => ∀ a n n', s.get? anchor = some a → (s.successors parent anchor).head? = some n →
      ((s.successors parent anchor).filter (·.id ≠ node)).head? = some n' → a.sort.frac = n.sort.frac →
      s.Precedes node a.sort.frac n'

/-- The node is the first child, or the one right behind the anchor. The others are in the order that they had, and
so are the children of every other parent. -/
def Placed (s s' : LosslessTreeCrdt) (parent node : TreeOpId) (after : Option TreeOpId) : Prop :=
  s'.children parent = (match after with
    | none => node :: (s.children parent).filter (· ≠ node)
    | some anchor => behind anchor node ((s.children parent).filter (· ≠ node))) ∧
  ∀ q, q ≠ parent → s'.children q = s.children q

theorem sorted_liveRecords (s : LosslessTreeCrdt) (parent : TreeOpId) :
    (s.liveRecords parent).Pairwise fun a b => a.sort ≤ b.sort :=
  (pairwise_sortBy NodeRecord.sort (s.bucket parent)).imp Before.le

theorem minted_of_mem (h : s.Grounded) (ha : a ∈ s.liveRecords parent) : Minted a.sort.frac := by
  obtain ⟨hmem, hparent, -⟩ := mem_bucket.mp (mem_liveRecords.mp ha)
  exact (h.nodes a hmem).minted parent hparent

variable {P Q : List NodeRecord} {after : Option TreeOpId}

section

variable (hsplit : s.liveRecords parent = P ++ a :: Q) (hothers : ∀ b ∈ P ++ Q, b.id ≠ a.id)

include hsplit hothers

theorem dropWhile_liveRecords :
    (s.liveRecords parent).dropWhile (fun r => r.id ≠ a.id) = a :: Q := by
  rw [hsplit]
  exact dropWhile_at_name rfl fun b hb => hothers b (mem_append_left Q hb)

theorem successors_eq :
    s.successors parent a.id = Q := by
  rw [successors, dropWhile_liveRecords hsplit hothers, tail_cons]

/-- What the key behind an anchor is. -/
theorem keyAfter_some : s.keyAfter parent (some a.id) =
      ⟨keyBetween (some a.sort.frac) (Q.head?.map fun r => r.sort.frac), s.peer⟩ := by
  rw [keyAfter, dropWhile_liveRecords hsplit hothers]
  rfl

end

/-- Where the key behind an anchor goes among those at or above the upper one. -/
theorem keyBetween_before_iff {lo hi : List ℕ} {peer : ℤ} {k : SortKey} {p : Prop} (hle : lo ≤ hi) (hle' : hi ≤ k.frac)
    (hminted : Minted hi) :
    (⟨keyBetween (some lo) (some hi), peer⟩ < k ∨ ⟨keyBetween (some lo) (some hi), peer⟩ = k ∧ p) ↔
      (lo = hi → ⟨tieKey lo, peer⟩ < k ∨ ⟨tieKey lo, peer⟩ = k ∧ p) := by
  obtain rfl | hlt := hle.eq_or_lt
  · rw [keyBetween_self]
    exact ⟨fun h _ => h, fun h => h rfl⟩
  · refine iff_of_true (.inl (SortKey.lt_iff.mpr (.inl ?_))) fun heq => absurd heq hlt.ne
    exact (keyBetween_lt hlt hminted).trans_le hle'

/-! ## Where a node is placed -/

section

variable (h : s.Writes s' parent x) (hs : s.Grounded)

include h hs

theorem Writes.placed_none (hsort : x.sort = s.keyAfter parent none) :
    s.Placed s' parent x.id none := by
  refine ⟨?_, fun q hq => h.children_of_ne hq⟩
  have hfilter : (s.children parent).filter (· ≠ x.id) =
      ((s.liveRecords parent).filter fun r => r.id ≠ x.id).map NodeRecord.id := List.filter_map
  dsimp only
  rw [hfilter]
  refine (h.children_iff (A := []) rfl).mpr ⟨fun a ha => absurd ha (not_mem_none a), fun b hb =>
    .inl (SortKey.lt_iff.mpr (.inl ?_))⟩
  have hbmem := (mem_filter.mp (mem_of_head? hb)).1
  rw [hsort, keyAfter]
  dsimp only
  cases horder : s.liveRecords parent with
  | nil =>
    rw [horder] at hbmem
    cases hbmem
  | cons n rest =>
    have hn : n ∈ s.liveRecords parent := horder ▸ mem_cons_self
    have hle : n.sort ≤ b.sort := by
      have hsorted := s.sorted_liveRecords parent
      rw [horder] at hbmem hsorted
      obtain rfl | hin := mem_cons.mp hbmem
      · exact le_rfl
      · exact (pairwise_cons.mp hsorted).1 b hin
    exact (keyBetween_none_lt (minted_of_mem hs hn)).trans_le (SortKey.frac_le hle)

theorem Writes.placed_some_iff {anchor : TreeOpId} (hanchor : anchor ∈ s.children parent) (hne : anchor ≠ x.id)
    (hsort : x.sort = s.keyAfter parent (some anchor)) :
    s.Placed s' parent x.id (some anchor) ↔ s.Room parent x.id (some anchor) := by
  obtain ⟨P, a, Q, hsplit, rfl, hothers⟩ := split_at_name (s.nodup_liveRecords parent) hanchor
  have hmem : ∀ b ∈ P ++ a :: Q, b ∈ s.liveRecords parent := fun b hb => hsplit ▸ hb
  have ha := hmem a (mem_append_right P mem_cons_self)
  have haget : s.get? a.id = some a := Table.get?_of_mem (mem_bucket.mp (mem_liveRecords.mp ha)).1
  have hsucc := successors_eq hsplit hothers
  rw [keyAfter_some hsplit hothers] at hsort
  have hfilter : (s.liveRecords parent).filter (fun r => r.id ≠ x.id) =
      (P.filter (fun r => r.id ≠ x.id) ++ [a]) ++ Q.filter fun r => r.id ≠ x.id := by
    rw [hsplit, filter_append, filter_cons_of_pos (by simpa using hne)]
    simp
  have hbehind : behind a.id x.id ((s.children parent).filter (· ≠ x.id)) =
      (P.filter (fun r => r.id ≠ x.id) ++ [a]).map NodeRecord.id ++
        x.id :: (Q.filter fun r => r.id ≠ x.id).map NodeRecord.id := by
    rw [children, hsplit]
    exact behind_others hne hothers
  have hplaced : s.Placed s' parent x.id (some a.id) ↔
      s'.children parent = behind a.id x.id ((s.children parent).filter (· ≠ x.id)) :=
    and_iff_left fun q hq => h.children_of_ne hq
  rw [hplaced, hbehind, h.children_iff hfilter]
  have hlast : ∀ b ∈ (P.filter (fun r => r.id ≠ x.id) ++ [a]).getLast?, b.sort < x.sort ∨
      b.sort = x.sort ∧ [b.id, x.id].Sublist (s'.nodes.rows.map NodeRecord.id) := by
    intro b hb
    rw [getLast?_concat, mem_some_iff] at hb
    subst hb
    exact .inl (SortKey.lt_iff.mpr (.inl (hsort ▸ lt_keyBetween _ _)))
  rw [and_iff_right hlast]
  have hsorted := s.sorted_liveRecords parent
  rw [hsplit] at hsorted
  obtain ⟨-, haQ, -⟩ := pairwise_append.mp hsorted
  rw [pairwise_cons] at haQ
  -- The next child that is not written itself, and the one whose key has been the upper one.
  have hnext : ∀ n n', Q.head? = some n → (Q.filter fun r => r.id ≠ x.id).head? = some n' →
      (x.sort < n'.sort ∨ x.sort = n'.sort ∧ [x.id, n'.id].Sublist (s.nodes.rows.map NodeRecord.id) ↔
        (a.sort.frac = n.sort.frac → s.Precedes x.id a.sort.frac n')) := by
    intro n n' hn hn'
    have hnQ := mem_of_head? hn
    have hn'Q := (mem_filter.mp (mem_of_head? hn')).1
    have hle : a.sort ≤ n.sort := haQ.1 n hnQ
    have hle' : n.sort ≤ n'.sort := by
      cases Q with
      | nil => cases hn
      | cons q Q =>
        obtain rfl := some.inj hn
        obtain rfl | hin := mem_cons.mp hn'Q
        · exact le_rfl
        · exact (pairwise_cons.mp haQ.2).1 n' hin
    have hminted := minted_of_mem hs (hmem n (mem_append_right P (mem_cons_of_mem a hnQ)))
    rw [hsort, hn]
    exact keyBetween_before_iff (SortKey.frac_le hle) (SortKey.frac_le hle') hminted
  constructor
  · intro h a' n n' ha' hn hn'
    obtain rfl := some.inj (haget.symm.trans ha')
    rw [hsucc] at hn hn'
    exact (hnext n n' hn hn').mp (h n' hn')
  · intro h n' hn'
    have hn : ∃ n, Q.head? = some n := by
      cases Q with
      | nil => cases hn'
      | cons q Q => exact ⟨q, rfl⟩
    obtain ⟨n, hn⟩ := hn
    refine (hnext n n' hn hn').mpr (h a n n' haget ?_ ?_)
    · rw [hsucc]
      exact hn
    · rw [hsucc]
      exact hn'

/-- Where a node is placed whose key is made for its place. -/
theorem Writes.placed_iff_room (hafter : ∀ anchor ∈ after, anchor ∈ s.children parent ∧ anchor ≠ x.id)
    (hsort : x.sort = s.keyAfter parent after) :
    s.Placed s' parent x.id after ↔ s.Room parent x.id after := by
  cases after with
  | none => exact iff_of_true (h.placed_none hs hsort) trivial
  | some anchor =>
    obtain ⟨hanchor, hne⟩ := hafter anchor rfl
    exact h.placed_some_iff hs hanchor hne hsort

end

/-! ## New nodes -/

theorem Grounded.ne_nextOpId (h : s.Grounded) (ha : a ∈ s.nodes.rows) : a.id ≠ s.nextOpId := by
  intro heq
  have hlt := h.counter_lt (Table.get?_of_mem ha)
  rw [heq] at hlt
  exact lt_irrefl _ hlt

/-- A node that is added under a new id. -/
theorem writes_add (hne : ∀ r ∈ s.nodes.rows, r.id ≠ x.id) (hparent : x.parent = some parent)
    (hlive : x.tomb = none) (hrows : s'.nodes.rows = s.nodes.rows ++ [x]) : s.Writes s' parent x := by
  have hnot : x.id ∉ s.nodes.rows.map NodeRecord.id := by
    intro hin
    obtain ⟨r, hr, heq⟩ := List.mem_map.mp hin
    exact hne r hr heq
  refine ⟨mem_bucket.mpr ⟨?_, hparent, hlive⟩, ?_, fun r hr hrid => absurd hrid (hne r hr), fun r hr => ?_⟩
  · rw [hrows]
    exact mem_append_right _ (mem_singleton_self x)
  · rw [hrows, filter_append]
    simp
  · refine iff_of_false (fun hpair => ?_) fun hpair => hnot (hpair.subset mem_cons_self)
    have hnodup : ((s.nodes.rows ++ [x]).map NodeRecord.id).Nodup := hrows ▸ s'.nodes.nodup
    rw [hrows, map_append, map_singleton] at hpair
    rw [map_append, map_singleton] at hnodup
    exact not_mem_nil (mem_right_of_pair hnodup hpair)

theorem nodes_commitNext (s : LosslessTreeCrdt) (kind : TreeOpKind) : (s.commitNext kind).nodes =
    (({ s with counter := s.counter + 1 } : LosslessTreeCrdt).applyOp ⟨s.nextOpId, kind⟩).nodes :=
  rfl

theorem Grounded.get?_nextOpId (h : s.Grounded) : s.get? s.nextOpId = none :=
  Table.get?_eq_none.mpr fun _ hr => h.ne_nextOpId hr

theorem Grounded.createNode_placed_iff (h : s.Grounded) (seed : NodeSeed) (hparent : (s.get? parent).isSome)
    (hafter : ∀ anchor ∈ after, anchor ∈ s.children parent) :
    ∃ s', s.createNode parent after seed = .ok (s.nextOpId, s') ∧
      (s.Placed s' parent s.nextOpId after ↔ s.Room parent s.nextOpId after) := by
  obtain ⟨p, hp⟩ := isSome_iff_exists.mp hparent
  refine ⟨s.commitNext (.createNode s.nextOpId parent (s.keyAfter parent after) seed), ?_, ?_⟩
  · rw [LosslessTreeCrdt.createNode, hp]
  · let x : NodeRecord := {
      id := s.nextOpId
      parent := some parent
      sort := s.keyAfter parent after
      sortStamp := s.nextOpId
      body := seedBody s.nextOpId seed
      textHead := s.nextOpId }
    have hrows : (s.commitNext (.createNode s.nextOpId parent (s.keyAfter parent after) seed)).nodes.rows =
        s.nodes.rows ++ [x] := by
      have hnone : ({ s with counter := s.counter + 1 } : LosslessTreeCrdt).get? s.nextOpId = none := h.get?_nextOpId
      have hnot : x.id ∉ s.nodes.rows.map NodeRecord.id := by
        intro hin
        obtain ⟨r, hr, heq⟩ := List.mem_map.mp hin
        exact h.ne_nextOpId hr heq
      rw [nodes_commitNext, LosslessTreeCrdt.applyOp]
      dsimp only
      rw [hnone]
      exact Table.rows_put_of_notMem hnot
    have hwrites : s.Writes _ parent x := writes_add (fun _ => h.ne_nextOpId) rfl rfl hrows
    refine hwrites.placed_iff_room h (fun anchor hanchor => ⟨hafter anchor hanchor, fun heq => ?_⟩) rfl
    obtain ⟨r, hr, hrid, -⟩ := mem_children (hafter anchor hanchor)
    exact h.ne_nextOpId hr (hrid.trans heq)

/-! ## Nodes that are put elsewhere -/

/-- A node that is written anew where it stands. -/
theorem writes_put (hr : a ∈ s.nodes.rows) (hid : a.id = x.id) (hparent : a.parent = some parent)
    (hparent' : x.parent = some parent) (hlive : x.tomb = none)
    (hrows : s'.nodes.rows = s.nodes.rows.map fun r => if r.id = x.id then x else r) : s.Writes s' parent x := by
  have hids : ∀ rows : List NodeRecord,
      (rows.map fun r => if r.id = x.id then x else r).map NodeRecord.id = rows.map NodeRecord.id := by
    intro rows
    rw [List.map_map]
    refine map_congr_left fun r _ => ?_
    by_cases h : r.id = x.id
    · simp [h]
    · simp [h]
  have hothers : ∀ rows : List NodeRecord,
    (rows.map fun r => if r.id = x.id then x else r).filter (fun r => r.id ≠ x.id) =
      rows.filter fun r => r.id ≠ x.id := by
    intro rows
    induction rows with
    | nil => rfl
    | cons r rows ih =>
      by_cases h : r.id = x.id
      · simpa [h] using ih
      · simpa [h] using ih
  refine ⟨mem_bucket.mpr ⟨?_, hparent', hlive⟩, ?_, fun r hr' hrid => ?_, fun r _ => ?_⟩
  · rw [hrows]
    exact List.mem_map.mpr ⟨a, hr, if_pos hid⟩
  · rw [hrows]
    exact hothers _
  · rw [Table.eq_of_key_eq hr' hr (hrid.trans hid.symm)]
    exact hparent
  · rw [hrows, hids]

theorem Grounded.reorderChild_placed_iff (h : s.Grounded) (hnode : node ∈ s.children parent)
    (hafter : ∀ anchor ∈ after, anchor ∈ s.children parent ∧ anchor ≠ node) :
    ∃ s', s.reorderChild node after = .ok s' ∧ (s.Placed s' parent node after ↔ s.Room parent node after) := by
  obtain ⟨r, hr, rfl, hparent, hlive⟩ := mem_children hnode
  have hget : s.get? r.id = some r := Table.get?_of_mem hr
  refine ⟨s.commitNext (.reorder r.id (s.keyAfter parent after)), ?_, ?_⟩
  · rw [LosslessTreeCrdt.reorderChild, hget, bind_some, hparent]
  · let x : NodeRecord := { r with sort := s.keyAfter parent after, sortStamp := s.nextOpId }
    have hrows : (s.commitNext (.reorder r.id (s.keyAfter parent after))).nodes.rows =
        s.nodes.rows.map fun r' => if r'.id = x.id then x else r' := by
      have hget' : ({ s with counter := s.counter + 1 } : LosslessTreeCrdt).get? r.id = some r := hget
      have hlt : r.sortStamp < s.nextOpId := Dot.lt_iff.mpr (.inl (Nat.lt_succ_of_le (h.nodes r hr).stamped))
      have hin : x.id ∈ s.nodes.rows.map NodeRecord.id := List.mem_map.mpr ⟨r, hr, rfl⟩
      rw [nodes_commitNext, LosslessTreeCrdt.applyOp]
      dsimp only
      rw [LosslessTreeCrdt.modify, hget']
      dsimp only
      rw [if_pos hlt]
      exact Table.rows_put_of_mem hin
    have hwrites : s.Writes _ parent x := writes_put hr rfl hparent hparent hlive hrows
    exact hwrites.placed_iff_room h hafter rfl

/-! ## Two leaves with one key -/

def planted (peer : ℤ) (text : List Char) : LosslessTreeCrdt :=
  (new peer).commitNext (.createNode ⟨1, peer⟩ ROOT ⟨[128], peer⟩ (.leaf .token text))

theorem reached_planted (peer : ℤ) (text : List Char) : (planted peer text).Reached := by
  have hcreate : (new peer).createNode ROOT none (.leaf .token text) = .ok (⟨1, peer⟩, planted peer text) := rfl
  exact .createNode (.new peer) hcreate

/-- Two replicas have planted a leaf each, and one has taken in the other's. -/
def mingled (text text' : List Char) : LosslessTreeCrdt :=
  (planted 0 text).applyUpdate (planted 1 text').log

theorem reached_mingled (text text' : List Char) : (mingled text text').Reached :=
  .applyUpdate (reached_planted 0 text) (reached_planted 1 text') fun _ hop => hop

/-- On every replica that is reached, a node that is created, or put elsewhere among the children of its parent, goes
where it has been asked to, exactly if there is room for it. -/
theorem placed_iff (h : s.Reached) {after : Option TreeOpId} (hafter : ∀ anchor ∈ after, anchor ∈ s.children parent) :
    (∀ seed, (s.get? parent).isSome → ∃ s', s.createNode parent after seed = .ok (s.nextOpId, s') ∧
      (s.Placed s' parent s.nextOpId after ↔ s.Room parent s.nextOpId after)) ∧
    ∀ node ∈ s.children parent, after ≠ some node → ∃ s', s.reorderChild node after = .ok s' ∧
      (s.Placed s' parent node after ↔ s.Room parent node after) := by
  refine ⟨fun seed hparent => h.grounded.createNode_placed_iff seed hparent hafter, fun node hnode hne => ?_⟩
  refine h.grounded.reorderChild_placed_iff hnode fun anchor hanchor => ⟨hafter anchor hanchor, ?_⟩
  rintro rfl
  exact hne hanchor

theorem placed_iff_mingled : (∃ s', (mingled [] []).createNode ROOT (some ⟨1, 0⟩) (.element "b") = .ok (⟨2, 0⟩, s') ∧
      ((mingled [] []).Placed s' ROOT ⟨2, 0⟩ (some ⟨1, 0⟩) ↔ (mingled [] []).Room ROOT ⟨2, 0⟩ (some ⟨1, 0⟩))) ∧
    ∃ s', (mingled [] []).reorderChild ⟨1, 0⟩ (some ⟨1, 1⟩) = .ok s' ∧
      ((mingled [] []).Placed s' ROOT ⟨1, 0⟩ (some ⟨1, 1⟩) ↔ (mingled [] []).Room ROOT ⟨1, 0⟩ (some ⟨1, 1⟩)) := by
  have hchildren : (mingled [] []).children ROOT = [⟨1, 0⟩, ⟨1, 1⟩] := by decide
  have hmem : ∀ node ∈ ([⟨1, 0⟩, ⟨1, 1⟩] : List TreeOpId), ∀ anchor ∈ some node,
      anchor ∈ (mingled [] []).children ROOT := by
    intro node hnode anchor hanchor
    obtain rfl := mem_some_iff.mp hanchor
    exact hchildren ▸ hnode
  constructor
  · exact (placed_iff (reached_mingled [] []) (hmem ⟨1, 0⟩ (by decide))).1 (.element "b") (by decide)
  · exact (placed_iff (reached_mingled [] []) (hmem ⟨1, 1⟩ (by decide))).2 ⟨1, 0⟩ (by decide) (by decide)

/-- Behind the first of two leaves with equal keys there is no key that is before the second one. -/
theorem not_always_placed :
    ¬ ∀ (s s' : LosslessTreeCrdt) (parent anchor node : TreeOpId) (seed : NodeSeed), s.Reached →
      anchor ∈ s.children parent → s.createNode parent (some anchor) seed = .ok (node, s') →
      s.Placed s' parent node (some anchor) := by
  intro h
  have hanchor : (⟨1, 0⟩ : TreeOpId) ∈ (mingled [] []).children ROOT := by decide
  have hplaced := h (mingled [] []) _ ROOT ⟨1, 0⟩ ⟨2, 0⟩ (.leaf .token []) (reached_mingled [] []) hanchor rfl
  have hchildren := hplaced.1
  revert hchildren
  decide

end LosslessTreeCrdt

end LazilyPy.Lossless

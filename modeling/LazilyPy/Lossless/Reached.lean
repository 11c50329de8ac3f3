import LazilyPy.Lib.MapM
import LazilyPy.Lossless.Tree

/-!
# Replicas of a lossless tree

The replicas that are reached by local operations, by updates from one another, and by copying, and what holds of all
of them.
-/

namespace LazilyPy.Lossless

open Option Table
open LosslessTreeCrdt (receive record)
open List hiding modify

/-- No later than the counter, under an older parent, and with a key that does not end in a zero. What has no parent is
no leaf. -/
structure NodeRecord.Sound (counter : ℕ) (r : NodeRecord) : Prop where
  counted : r.id.counter ≤ counter
  stamped : r.sortStamp.counter ≤ counter
  older : ∀ p, r.parent = some p → p.counter < r.id.counter
  minted : ∀ p, r.parent = some p → Minted r.sort.frac
  rooted : r.parent = none → ∃ kind, r.body = .element kind

def TreeOp.Sound (op : TreeOp) : Prop :=
  match op.kind with
  | .createNode id parent sort _ => id = op.id ∧ parent.counter < id.counter ∧ Minted sort.frac
  | .reorder _ sort => Minted sort.frac
  | .splitLeaf node newNode sort _ _ => newNode = op.id ∧ node.counter < newNode.counter ∧ Minted sort.frac
  | _ => True

namespace LosslessTreeCrdt

/-- The replicas that are reached from new ones. An update has operations that another replica has applied. -/
inductive Reached : LosslessTreeCrdt → Prop
  | new (peer : ℤ) : Reached (new peer)
  | createNode {s s' : LosslessTreeCrdt} {parent node : TreeOpId} {after : Option TreeOpId} {seed : NodeSeed}
      (h : Reached s) (hs' : s.createNode parent after seed = .ok (node, s')) : Reached s'
  | tombstoneNode {s s' : LosslessTreeCrdt} {node : TreeOpId} (h : Reached s)
      (hs' : s.tombstoneNode node = .ok s') : Reached s'
  | reorderChild {s s' : LosslessTreeCrdt} {node : TreeOpId} {after : Option TreeOpId} (h : Reached s)
      (hs' : s.reorderChild node after = .ok s') : Reached s'
  | editLeaf {s s' : LosslessTreeCrdt} {node : TreeOpId} {atByte deleteBytes : ℤ} {insert : List Char}
      (h : Reached s) (hs' : s.editLeaf node atByte deleteBytes insert = .ok s') : Reached s'
  | splitLeaf {s s' : LosslessTreeCrdt} {node newNode : TreeOpId} {atByte : ℤ} (h : Reached s)
      (hs' : s.splitLeaf node atByte = .ok (newNode, s')) : Reached s'
  | mergeAdjacentLeaves {s s' : LosslessTreeCrdt} {left right : TreeOpId} (h : Reached s)
      (hs' : s.mergeAdjacentLeaves left right = .ok s') : Reached s'
  | applyUpdate {s t : LosslessTreeCrdt} {ops : List TreeOp} (h : Reached s) (h' : Reached t)
      (hops : ∀ op ∈ ops, op ∈ t.log) : Reached (s.applyUpdate ops)
  | fork {s : LosslessTreeCrdt} (h : Reached s) (peer : ℤ) : Reached (s.fork peer)

/-- Every node and every operation is sound, and no operation is later than the counter. -/
structure Grounded (s : LosslessTreeCrdt) : Prop where
  nodes : ∀ r ∈ s.nodes.rows, r.Sound s.counter
  ops : ∀ op ∈ s.log ++ s.buffered, op.Sound ∧ op.id.counter ≤ s.counter

variable {s s' : LosslessTreeCrdt} {node : TreeOpId} {op : TreeOp}

theorem grounded_new (peer : ℤ) : (new peer).Grounded := by
  refine ⟨fun r hr => ?_, nofun⟩
  obtain rfl : r = rootRecord := mem_singleton.mp hr
  exact ⟨le_rfl, le_rfl, nofun, nofun, fun _ => ⟨_, rfl⟩⟩

/-! ## An operation changes the nodes -/

def OnlyNodes (s s' : LosslessTreeCrdt) : Prop :=
  ∃ nodes, s' = { s with nodes }

theorem OnlyNodes.refl (s : LosslessTreeCrdt) : s.OnlyNodes s :=
  ⟨s.nodes, rfl⟩

theorem OnlyNodes.trans {s'' : LosslessTreeCrdt} (h : s.OnlyNodes s') (h' : s'.OnlyNodes s'') : s.OnlyNodes s'' := by
  obtain ⟨nodes, rfl⟩ := h
  obtain ⟨nodes', rfl⟩ := h'
  exact ⟨nodes', rfl⟩

theorem onlyNodes_modify {f : NodeRecord → NodeRecord} : s.OnlyNodes (s.modify node f) := by
  rw [modify]
  split
  · exact .refl s
  · exact ⟨_, rfl⟩

variable {r : NodeRecord} {counter : ℕ} {newNode parent : TreeOpId} {atByte : ℤ}

theorem onlyNodes_addNode : s.OnlyNodes (s.addNode r) :=
  ⟨_, rfl⟩

theorem onlyNodes_applyOp (s : LosslessTreeCrdt) (op : TreeOp) : s.OnlyNodes (s.applyOp op) := by
  obtain ⟨id, kind⟩ := op
  cases kind with
  | createNode newNode parent sort seed =>
    dsimp only [applyOp]
    split
    · exact .refl s
    · exact onlyNodes_addNode
  | tombstone node => exact onlyNodes_modify
  | reorder node sort => exact onlyNodes_modify
  | leafEdit node prev ops => exact onlyNodes_modify
  | splitLeaf node newNode sort atChar prev =>
    dsimp only [applyOp]
    rw [applySplit]
    split
    · exact .refl s
    · split
      · exact .refl s
      · dsimp only
        split
        · exact onlyNodes_modify.trans onlyNodes_addNode
        · exact onlyNodes_modify
  | mergeLeaves left right prevLeft prevRight =>
    dsimp only [applyOp]
    rw [applyMerge]
    split
    · split
      · exact onlyNodes_modify.trans onlyNodes_modify
      · exact .refl s
    · exact .refl s

/-! ## A node is written anew -/

section Modify

variable {f : NodeRecord → NodeRecord} (hf : ∀ r, (f r).id = r.id)

include hf

theorem get?_modify_self {r : NodeRecord} (hr : s.get? node = some r) : (s.modify node f).get? node = some (f r) := by
  have hid : node = (f r).id := (key_of_get? hr).symm.trans (hf r).symm
  rw [modify, hr]
  exact (get?_put s.nodes (f r) node).trans (if_pos hid)

theorem get?_modify_of_ne {q : TreeOpId} (hq : q ≠ node) : (s.modify node f).get? q = s.get? q := by
  rw [modify]
  cases hr : s.get? node with
  | none => rfl
  | some r =>
    have hne : q ≠ (f r).id := by rwa [hf r, key_of_get? hr]
    exact (get?_put s.nodes (f r) q).trans (if_neg hne)

end Modify

/-! ## An operation keeps nodes and operations sound -/

theorem counter_modify {f : NodeRecord → NodeRecord} : (s.modify node f).counter = s.counter := by
  obtain ⟨nodes, heq⟩ : s.OnlyNodes (s.modify node f) := onlyNodes_modify
  rw [heq]

/-- The nodes are sound again. -/
theorem Grounded.of_nodes (h : s.Grounded) (hsame : s.OnlyNodes s')
    (hnodes : ∀ r ∈ s'.nodes.rows, r.Sound s.counter) : s'.Grounded := by
  obtain ⟨nodes, rfl⟩ := hsame
  exact ⟨hnodes, h.ops⟩

theorem Grounded.modify (h : s.Grounded) {f : NodeRecord → NodeRecord}
    (hf : ∀ r, s.get? node = some r → r.Sound s.counter → (f r).Sound s.counter) : (s.modify node f).Grounded := by
  refine h.of_nodes onlyNodes_modify ?_
  rw [LosslessTreeCrdt.modify]
  cases hr : s.get? node with
  | none => exact h.nodes
  | some r =>
    intro r' hr'
    obtain rfl | ⟨hr', -⟩ := mem_put.mp hr'
    · exact hf r hr (h.nodes r (mem_of_get? hr))
    · exact h.nodes r' hr'

theorem Grounded.addNode (h : s.Grounded) (hr : r.Sound s.counter) : (s.addNode r).Grounded := by
  refine ⟨fun r' hr' => ?_, h.ops⟩
  obtain rfl | ⟨hr', -⟩ := mem_put.mp hr'
  · exact hr
  · exact h.nodes r' hr'

theorem bury_sound (h : r.Sound counter) (id : TreeOpId) : (r.bury id).Sound counter :=
  ⟨h.counted, h.stamped, h.older, h.minted, h.rooted⟩

/-- A leaf with another text. -/
theorem reseed_sound (h : r.Sound counter) {kind kind' : LeafKind} {text text' : Text.TextCrdt Char} {id : TreeOpId}
    (hbody : r.body = .leaf kind text) :
    ({ r with body := .leaf kind' text', textHead := id } : NodeRecord).Sound counter := by
  refine ⟨h.counted, h.stamped, h.older, h.minted, fun hp => ?_⟩
  obtain ⟨kind'', helement⟩ := h.rooted hp
  rw [hbody] at helement
  cases helement

theorem Grounded.applySplit (h : s.Grounded) {sort : SortKey} {atChar : ℕ} {id : TreeOpId} (hid : newNode = id)
    (hle : id.counter ≤ s.counter) (hlt : node.counter < newNode.counter) (hminted : Minted sort.frac) :
    (s.applySplit node newNode sort atChar id).Grounded := by
  rw [LosslessTreeCrdt.applySplit]
  cases hr : s.get? node with
  | none => exact h
  | some r =>
    have hsound := h.nodes r (mem_of_get? hr)
    have hrid : r.id = node := key_of_get? hr
    dsimp only
    split
    · exact h
    · next kind text hbody =>
      have hmodify (kind : LeafKind) (text : Text.TextCrdt Char) :
          (s.modify node fun r => { r with body := .leaf kind text, textHead := id }).Grounded := by
        refine h.modify fun r' hr' hsound' => ?_
        obtain rfl := some.inj (hr.symm.trans hr')
        exact reseed_sound hsound' hbody
      split
      · next hnew =>
        refine (hmodify _ _).addNode ?_
        rw [counter_modify]
        refine ⟨hid ▸ hle, hle, fun p hp => ?_, fun _ _ => hminted, fun hp => ?_⟩
        · exact ((hsound.older p hp).trans_eq (congrArg Dot.counter hrid)).trans hlt
        · have hsome : r.parent.isSome := hnew.2
          rw [show r.parent = none from hp] at hsome
          cases hsome
      · exact hmodify _ _

theorem Grounded.applyMerge (h : s.Grounded) (left right id : TreeOpId) : (s.applyMerge left right id).Grounded := by
  rw [LosslessTreeCrdt.applyMerge]
  split
  · next l r hl hr =>
    split
    · next kind text kind' text' hbody hbody' =>
      refine Grounded.modify ?_ fun r hr hsound => bury_sound hsound id
      refine h.modify fun l' hl' hsound => ?_
      obtain rfl := some.inj (hl.symm.trans hl')
      exact reseed_sound hsound hbody
    · exact h
  · exact h

theorem Grounded.applyOp (h : s.Grounded) (hop : op.Sound) (hle : op.id.counter ≤ s.counter) :
    (s.applyOp op).Grounded := by
  obtain ⟨id, kind⟩ := op
  cases kind with
  | createNode newNode parent sort seed =>
    obtain ⟨hid, hlt, hminted⟩ := hop
    obtain rfl : newNode = id := hid
    dsimp only [LosslessTreeCrdt.applyOp]
    split
    · exact h
    · refine h.addNode ⟨hle, hle, fun p hp => ?_, fun _ _ => hminted, nofun⟩
      obtain rfl := some.inj hp
      exact hlt
  | tombstone node => exact h.modify fun r _ hr => bury_sound hr id
  | reorder node sort =>
    refine h.modify fun r _ hr => ?_
    split
    · exact ⟨hr.counted, hle, hr.older, fun _ _ => hop, hr.rooted⟩
    · exact hr
  | leafEdit node prev ops =>
    refine h.modify fun r _ hr => ?_
    split
    · next hbody => exact reseed_sound hr hbody
    · exact hr
  | splitLeaf node newNode sort atChar prev =>
    obtain ⟨hid, hlt, hminted⟩ := hop
    exact h.applySplit hid hle hlt hminted
  | mergeLeaves left right prevLeft prevRight => exact h.applyMerge left right id

theorem Grounded.commitLocal (h : s.Grounded) (hop : op.Sound) (hle : op.id.counter ≤ s.counter) :
    (s.commitLocal op).Grounded := by
  have happly := h.applyOp hop hle
  have hcounter : (s.applyOp op).counter = s.counter := by
    obtain ⟨nodes, heq⟩ := s.onlyNodes_applyOp op
    rw [heq]
  refine ⟨happly.nodes, fun op' hop' => ?_⟩
  obtain hlog | hbuffered := mem_append.mp hop'
  · obtain hlog | hlast := mem_append.mp hlog
    · exact happly.ops op' (mem_append_left _ hlog)
    · obtain rfl := mem_singleton.mp hlast
      exact ⟨hop, hle.trans_eq hcounter.symm⟩
  · exact happly.ops op' (mem_append_right _ hbuffered)

/-- A later counter. -/
theorem Grounded.count (h : s.Grounded) (hle : s.counter ≤ counter) :
    ({ s with counter } : LosslessTreeCrdt).Grounded :=
  ⟨fun r hr => ⟨(h.nodes r hr).counted.trans hle, (h.nodes r hr).stamped.trans hle, (h.nodes r hr).older,
    (h.nodes r hr).minted, (h.nodes r hr).rooted⟩, fun op hop => ⟨(h.ops op hop).1, (h.ops op hop).2.trans hle⟩⟩

theorem Grounded.commitNext (h : s.Grounded) {kind : TreeOpKind} (hop : TreeOp.Sound ⟨s.nextOpId, kind⟩) :
    (s.commitNext kind).Grounded :=
  (h.count (Nat.le_succ _)).commitLocal hop le_rfl

/-! ## Local operations -/

theorem minted_keyAfter (s : LosslessTreeCrdt) (parent : TreeOpId) (after : Option TreeOpId) :
    Minted (s.keyAfter parent after).frac :=
  minted_keyBetween _ _

/-- A node that is there is older than what is minted next. -/
theorem Grounded.counter_lt (h : s.Grounded) (hr : s.get? node = some r) :
    node.counter < s.nextOpId.counter := by
  obtain ⟨hmem, rfl⟩ := get?_eq_some.mp hr
  exact Nat.lt_succ_of_le (h.nodes r hmem).counted

theorem Grounded.createNode (h : s.Grounded) {after : Option TreeOpId} {seed : NodeSeed}
    (hs' : s.createNode parent after seed = .ok (node, s')) : s'.Grounded := by
  rw [LosslessTreeCrdt.createNode] at hs'
  split at hs'
  · cases hs'
  · next r hr =>
    cases hs'
    exact h.commitNext ⟨rfl, h.counter_lt hr, s.minted_keyAfter parent after⟩

theorem Grounded.tombstoneNode (h : s.Grounded) (hs' : s.tombstoneNode node = .ok s') : s'.Grounded := by
  rw [LosslessTreeCrdt.tombstoneNode] at hs'
  split at hs'
  · cases hs'
  · cases hs'
    exact h.commitNext trivial

theorem Grounded.reorderChild (h : s.Grounded) {after : Option TreeOpId}
    (hs' : s.reorderChild node after = .ok s') : s'.Grounded := by
  rw [LosslessTreeCrdt.reorderChild] at hs'
  split at hs'
  · cases hs'
  · next parent _ =>
    cases hs'
    exact h.commitNext (s.minted_keyAfter parent after)

/-- What reading a leaf finds. -/
theorem leafText_ok {text : List Char} (h : s.leafText node = .ok (r, text)) :
    s.get? node = some r ∧ ∃ kind t, r.body = .leaf kind t ∧ text = t.text := by
  rw [leafText] at h
  split at h
  · cases h
  · next r' hr' =>
    split at h
    · next kind t hbody =>
      cases h
      exact ⟨hr', kind, t, hbody, rfl⟩
    · cases h

def edited (s : LosslessTreeCrdt) (t : Text.TextCrdt Char) (start stop : ℕ) (insert : List Char) :
    Text.TextCrdt Char :=
  ((deleteRun (t.fork s.peer) start (stop - start)).insertStr start insert).2

/-- What an edit does. -/
theorem editLeaf_ok {deleteBytes : ℤ} {insert : List Char}
    (hs' : s.editLeaf node atByte deleteBytes insert = .ok s') :
    ∃ r kind t start stop, s.get? node = some r ∧ r.body = .leaf kind t ∧ byteToChar t.text atByte = some start ∧
      byteToChar t.text (atByte + deleteBytes) = some stop ∧
      s' = (s.modify node fun r => { r with body := .leaf kind (s.edited t start stop insert) }).commitNext
        (.leafEdit node r.textHead ((s.edited t start stop insert).deltaSince (t.fork s.peer).versionVector)) := by
  rw [editLeaf] at hs'
  obtain ⟨⟨r, text⟩, hleaf, hs'⟩ := except_bind_eq_ok.mp hs'
  obtain ⟨hr, kind, t, hbody, rfl⟩ := leafText_ok hleaf
  dsimp only at hs'
  rw [hbody] at hs'
  split at hs'
  · next start stop kind' t' hstart hstop hbody' =>
    cases hbody'
    cases hs'
    exact ⟨r, kind, t, start, stop, hr, hbody, hstart, hstop, rfl⟩
  · cases hs'

theorem Grounded.editLeaf (h : s.Grounded) {deleteBytes : ℤ} {insert : List Char}
    (hs' : s.editLeaf node atByte deleteBytes insert = .ok s') : s'.Grounded := by
  obtain ⟨r, kind, t, start, stop, hr, hbody, -, -, rfl⟩ := editLeaf_ok hs'
  refine Grounded.commitNext (h.modify fun r' hr' hsound => ?_) trivial
  obtain rfl := some.inj (hr.symm.trans hr')
  exact reseed_sound hsound hbody

/-- What a split does. -/
theorem splitLeaf_ok (hs' : s.splitLeaf node atByte = .ok (newNode, s')) :
    ∃ r kind t parent atChar, s.get? node = some r ∧ r.body = .leaf kind t ∧ r.parent = some parent ∧
      byteToChar t.text atByte = some atChar ∧ newNode = s.nextOpId ∧
      s' = s.commitNext (.splitLeaf node s.nextOpId (s.keyAfter parent (some node)) atChar r.textHead) := by
  rw [splitLeaf] at hs'
  obtain ⟨⟨r, text⟩, hleaf, hs'⟩ := except_bind_eq_ok.mp hs'
  obtain ⟨hr, kind, t, hbody, rfl⟩ := leafText_ok hleaf
  dsimp only at hs'
  split at hs'
  · cases hs'
  · next atChar hat =>
    split at hs'
    · cases hs'
    · next parent hparent =>
      cases hs'
      exact ⟨r, kind, t, parent, atChar, hr, hbody, hparent, hat, rfl, rfl⟩

theorem Grounded.splitLeaf (h : s.Grounded) (hs' : s.splitLeaf node atByte = .ok (newNode, s')) : s'.Grounded := by
  obtain ⟨r, kind, t, parent, atChar, hr, -, -, -, -, rfl⟩ := splitLeaf_ok hs'
  exact h.commitNext ⟨rfl, h.counter_lt hr, s.minted_keyAfter parent (some node)⟩

/-- What a merge of leaves does. -/
theorem mergeAdjacentLeaves_ok {left right : TreeOpId} (hs' : s.mergeAdjacentLeaves left right = .ok s') :
    ∃ l r kind t kind' t' parent, s.get? left = some l ∧ s.get? right = some r ∧ l.body = .leaf kind t ∧
      r.body = .leaf kind' t' ∧ l.parent = some parent ∧
      ((s.children parent).dropWhile (· ≠ left)).tail.head? = some right ∧
      s' = s.commitNext (.mergeLeaves left right l.textHead r.textHead) := by
  rw [mergeAdjacentLeaves] at hs'
  obtain ⟨⟨l, text⟩, hleft, hs'⟩ := except_bind_eq_ok.mp hs'
  obtain ⟨⟨r, text'⟩, hright, hs'⟩ := except_bind_eq_ok.mp hs'
  obtain ⟨hl, kind, t, hbody, -⟩ := leafText_ok hleft
  obtain ⟨hr, kind', t', hbody', -⟩ := leafText_ok hright
  dsimp only at hs'
  split at hs'
  · cases hs'
  · next parent hparent =>
    split at hs'
    · next hadjacent =>
      cases hs'
      exact ⟨l, r, kind, t, kind', t', parent, hl, hr, hbody, hbody', hparent, hadjacent, rfl⟩
    · cases hs'

theorem Grounded.mergeAdjacentLeaves (h : s.Grounded) {left right : TreeOpId}
    (hs' : s.mergeAdjacentLeaves left right = .ok s') : s'.Grounded := by
  obtain ⟨l, r, kind, t, kind', t', parent, -, -, -, -, -, -, rfl⟩ := mergeAdjacentLeaves_ok hs'
  exact h.commitNext trivial

/-! ## What a local operation does -/

inductive Acts (s : LosslessTreeCrdt) : LosslessTreeCrdt → Prop
  | createNode {s' : LosslessTreeCrdt} {parent node : TreeOpId} {after : Option TreeOpId} {seed : NodeSeed}
      (hs' : s.createNode parent after seed = .ok (node, s')) : Acts s s'
  | tombstoneNode {s' : LosslessTreeCrdt} {node : TreeOpId} (hs' : s.tombstoneNode node = .ok s') : Acts s s'
  | reorderChild {s' : LosslessTreeCrdt} {node : TreeOpId} {after : Option TreeOpId}
      (hs' : s.reorderChild node after = .ok s') : Acts s s'
  | editLeaf {s' : LosslessTreeCrdt} {node : TreeOpId} {atByte deleteBytes : ℤ} {insert : List Char}
      (hs' : s.editLeaf node atByte deleteBytes insert = .ok s') : Acts s s'
  | splitLeaf {s' : LosslessTreeCrdt} {node newNode : TreeOpId} {atByte : ℤ}
      (hs' : s.splitLeaf node atByte = .ok (newNode, s')) : Acts s s'
  | mergeAdjacentLeaves {s' : LosslessTreeCrdt} {left right : TreeOpId}
      (hs' : s.mergeAdjacentLeaves left right = .ok s') : Acts s s'

/-- A local operation mints an operation; an edit has made its text before. -/
theorem Acts.minted (h : s.Acts s') :
    (∃ kind, s' = s.commitNext kind ∧ ∀ node prev ops, kind ≠ .leafEdit node prev ops) ∨
      ∃ node r kind t start stop insert, s.get? node = some r ∧ r.body = .leaf kind t ∧
        s' = (s.modify node fun r => { r with body := .leaf kind (s.edited t start stop insert) }).commitNext
          (.leafEdit node r.textHead ((s.edited t start stop insert).deltaSince (t.fork s.peer).versionVector)) := by
  cases h with
  | createNode hs' =>
    rw [LosslessTreeCrdt.createNode] at hs'
    split at hs'
    · cases hs'
    · cases hs'
      exact .inl ⟨_, rfl, fun _ _ _ heq => nomatch heq⟩
  | tombstoneNode hs' =>
    rw [LosslessTreeCrdt.tombstoneNode] at hs'
    split at hs'
    · cases hs'
    · cases hs'
      exact .inl ⟨_, rfl, fun _ _ _ heq => nomatch heq⟩
  | reorderChild hs' =>
    rw [LosslessTreeCrdt.reorderChild] at hs'
    split at hs'
    · cases hs'
    · cases hs'
      exact .inl ⟨_, rfl, fun _ _ _ heq => nomatch heq⟩
  | editLeaf hs' =>
    obtain ⟨r, kind, t, start, stop, hr, hbody, -, -, rfl⟩ := editLeaf_ok hs'
    exact .inr ⟨_, r, kind, t, start, stop, _, hr, hbody, rfl⟩
  | splitLeaf hs' =>
    obtain ⟨r, kind, t, parent, atChar, -, -, -, -, -, rfl⟩ := splitLeaf_ok hs'
    exact .inl ⟨_, rfl, fun _ _ _ heq => nomatch heq⟩
  | mergeAdjacentLeaves hs' =>
    obtain ⟨l, r, kind, t, kind', t', parent, -, -, -, -, -, -, rfl⟩ := mergeAdjacentLeaves_ok hs'
    exact .inl ⟨_, rfl, fun _ _ _ heq => nomatch heq⟩

/-- Besides nodes, the counter and what is recorded differ. -/
theorem OnlyNodes.commitNext (h : s.OnlyNodes s') (kind : TreeOpKind) : ∃ nodes, s'.commitNext kind =
      ({ s with nodes, counter := s.counter + 1 } : LosslessTreeCrdt).record ⟨s.nextOpId, kind⟩ := by
  obtain ⟨nodes, rfl⟩ := h
  obtain ⟨nodes', heq⟩ := ({ s with nodes, counter := s.counter + 1 } : LosslessTreeCrdt).onlyNodes_applyOp
    ⟨s.nextOpId, kind⟩
  exact ⟨nodes', congrArg (record · _) heq⟩

theorem Acts.commits (h : s.Acts s') : ∃ s₁ kind, s.OnlyNodes s₁ ∧ s' = s₁.commitNext kind := by
  obtain ⟨kind, rfl, -⟩ | ⟨node, r, kind, t, start, stop, insert, -, -, rfl⟩ := h.minted
  · exact ⟨s, kind, .refl s, rfl⟩
  · exact ⟨_, _, onlyNodes_modify, rfl⟩

theorem Acts.reached (h : s.Acts s') (hs : s.Reached) : s'.Reached := by
  cases h with
  | createNode hs' => exact hs.createNode hs'
  | tombstoneNode hs' => exact hs.tombstoneNode hs'
  | reorderChild hs' => exact hs.reorderChild hs'
  | editLeaf hs' => exact hs.editLeaf hs'
  | splitLeaf hs' => exact hs.splitLeaf hs'
  | mergeAdjacentLeaves hs' => exact hs.mergeAdjacentLeaves hs'

/-! ## Updates -/

/-- What holds of a replica holds after an update, if it does not depend on what waits, and holds after each operation
that is applied. What holds of an operation that waits may depend on how far the counter has come. -/
theorem applyUpdate_induct {I : LosslessTreeCrdt → Prop} {J : ℕ → TreeOp → Prop}
    (hmono : ∀ c c' op, c ≤ c' → J c op → J c' op)
    (hwaits : ∀ s counter buffered, s.counter ≤ counter → (∀ op ∈ buffered, J counter op) → I s →
      I { s with counter, buffered })
    (hcommit : ∀ s op, I s → J s.counter op → s.frontier.contains op.id = false → I (s.commitLocal op))
    (h : I s) (hbuffered : ∀ op ∈ s.buffered, J s.counter op) {ops : List TreeOp}
    (hops : ∀ op ∈ ops, J op.id.counter op) :
    I (s.applyUpdate ops) ∧ ∀ op ∈ (s.applyUpdate ops).buffered, J (s.applyUpdate ops).counter op := by
  have hjoins : ∀ {c : ℕ} {l : List TreeOp} {op : TreeOp}, (∀ op' ∈ l, J c op') → J c op →
      ∀ op' ∈ l ++ [op], J c op' := by
    intro c l op hl hop op' hop'
    obtain hold | hlast := mem_append.mp hop'
    · exact hl op' hold
    · rwa [mem_singleton.mp hlast]
  have hreceive : ∀ (ops : List TreeOp) (s : LosslessTreeCrdt), I s → (∀ op ∈ s.buffered, J s.counter op) →
      (∀ op ∈ ops, J op.id.counter op) → I (ops.foldl receive s) ∧ ∀ op ∈ (ops.foldl receive s).buffered,
          J (ops.foldl receive s).counter op := by
    intro ops
    induction ops with
    | nil => exact fun s hs hbuffered _ => ⟨hs, hbuffered⟩
    | cons op ops ih =>
      intro s hs hbuffered hops
      have hrest : ∀ op' ∈ ops, J op'.id.counter op' := fun op' hop' => hops op' (mem_cons_of_mem op hop')
      have hle := le_max_left s.counter op.id.counter
      have hkept : ∀ op' ∈ s.buffered, J (max s.counter op.id.counter) op' :=
        fun op' hop' => hmono _ _ op' hle (hbuffered op' hop')
      rw [foldl_cons, receive]
      dsimp only
      split
      · exact ih _ (hwaits s _ s.buffered hle hkept hs) hkept hrest
      · have hjoined := hjoins hkept (hmono _ _ op (le_max_right _ _) (hops op mem_cons_self))
        exact ih _ (hwaits s _ _ hle hjoined hs) hjoined hrest
  have hpass : ∀ (ops : List TreeOp) (acc : Bool × LosslessTreeCrdt), I acc.2 →
      (∀ op ∈ acc.2.buffered, J acc.2.counter op) → (∀ op ∈ ops, J acc.2.counter op) →
      I (ops.foldl drainOne acc).2 ∧ ∀ op ∈ (ops.foldl drainOne acc).2.buffered,
        J (ops.foldl drainOne acc).2.counter op := by
    intro ops
    induction ops with
    | nil => exact fun acc hacc hbuffered _ => ⟨hacc, hbuffered⟩
    | cons op ops ih =>
      intro acc hacc hbuffered hops
      have hrest : ∀ op' ∈ ops, J acc.2.counter op' := fun op' hop' => hops op' (mem_cons_of_mem op hop')
      have hop := hops op mem_cons_self
      rw [foldl_cons, drainOne]
      split
      · exact ih acc hacc hbuffered hrest
      · next hlacks =>
        split
        · obtain ⟨hcounter, hwaiting⟩ : (acc.2.commitLocal op).counter = acc.2.counter ∧
              (acc.2.commitLocal op).buffered = acc.2.buffered := by
            obtain ⟨nodes, heq⟩ := acc.2.onlyNodes_applyOp op
            rw [LosslessTreeCrdt.commitLocal, heq]
            exact ⟨rfl, rfl⟩
          refine ih _ (hcommit acc.2 op hacc hop (Bool.eq_false_iff.mpr hlacks)) ?_ ?_
          · rwa [hcounter, hwaiting]
          · rwa [hcounter]
        · have hjoined := hjoins hbuffered hop
          exact ih _ (hwaits acc.2 _ _ le_rfl hjoined hacc) hjoined hrest
  have hdrain : ∀ (passes : ℕ) (s : LosslessTreeCrdt), I s → (∀ op ∈ s.buffered, J s.counter op) →
      I (drain passes s) ∧ ∀ op ∈ (drain passes s).buffered, J (drain passes s).counter op := by
    intro passes
    induction passes with
    | zero => exact fun s hs hbuffered => ⟨hs, hbuffered⟩
    | succ passes ih =>
      intro s hs hbuffered
      obtain ⟨hI, hJ⟩ := hpass s.buffered (false, { s with buffered := [] }) (hwaits s s.counter [] le_rfl nofun hs)
        nofun hbuffered
      rw [LosslessTreeCrdt.drain]
      split
      · exact ih _ hI hJ
      · exact ⟨hI, hJ⟩
  obtain ⟨hI, hJ⟩ := hreceive ops s h hbuffered hops
  exact hdrain _ _ hI hJ

theorem Grounded.applyUpdate (h : s.Grounded) {ops : List TreeOp} (hops : ∀ op ∈ ops, op.Sound) :
    (s.applyUpdate ops).Grounded := by
  have hwaits : ∀ (s : LosslessTreeCrdt) counter buffered, s.counter ≤ counter →
      (∀ op ∈ buffered, op.Sound ∧ op.id.counter ≤ counter) → s.Grounded →
      ({ s with counter, buffered } : LosslessTreeCrdt).Grounded := by
    intro s counter buffered hle hbuffered hs
    have hcount := hs.count hle
    refine ⟨hcount.nodes, fun op hop => ?_⟩
    obtain hlog | hwaiting := mem_append.mp hop
    · exact hcount.ops op (mem_append_left _ hlog)
    · exact hbuffered op hwaiting
  exact (applyUpdate_induct (J := fun c op => op.Sound ∧ op.id.counter ≤ c)
    (fun _ _ _ hle hop => ⟨hop.1, hop.2.trans hle⟩) hwaits (fun _ _ hs hop _ => hs.commitLocal hop.1 hop.2) h
    (fun op hop => h.ops op (mem_append_right _ hop)) fun op hop => ⟨hops op hop, le_rfl⟩).1

theorem Grounded.fork (h : s.Grounded) (peer : ℤ) : (s.fork peer).Grounded := by
  refine ⟨fun r hr => ?_, h.ops⟩
  obtain ⟨r₀, hr₀, rfl⟩ := List.mem_map.mp hr
  have hsound := h.nodes r₀ hr₀
  split
  · next hbody =>
    exact reseed_sound hsound hbody
  · exact hsound

/-- Every replica that is reached is grounded. -/
theorem Reached.grounded (h : s.Reached) : s.Grounded := by
  induction h with
  | new peer => exact grounded_new peer
  | createNode _ hs' ih => exact ih.createNode hs'
  | tombstoneNode _ hs' ih => exact ih.tombstoneNode hs'
  | reorderChild _ hs' ih => exact ih.reorderChild hs'
  | editLeaf _ hs' ih => exact ih.editLeaf hs'
  | splitLeaf _ hs' ih => exact ih.splitLeaf hs'
  | mergeAdjacentLeaves _ hs' ih => exact ih.mergeAdjacentLeaves hs'
  | applyUpdate _ _ hops ih ih' =>
    exact ih.applyUpdate fun op hop => (ih'.ops op (mem_append_left _ (hops op hop))).1
  | fork _ peer ih => exact ih.fork peer

/-! ## The walk ends -/

theorem mem_children {child : TreeOpId} (h : child ∈ s.children parent) :
    ∃ r ∈ s.nodes.rows, r.id = child ∧ r.parent = some parent ∧ r.tomb = none := by
  obtain ⟨r, hr, hid⟩ := List.mem_map.mp h
  have hmem := mem_filter.mp ((mem_insertionSort _).mp hr)
  exact ⟨r, hmem.1, hid, by simpa using hmem.2⟩

theorem Grounded.lt_of_mem_children (h : s.Grounded) {child : TreeOpId} (hchild : child ∈ s.children parent) :
    parent.counter < child.counter := by
  obtain ⟨r, hr, rfl, hparent, -⟩ := mem_children hchild
  exact (h.nodes r hr).older parent hparent

/-- Beyond the counter there is no node. -/
theorem Grounded.walkTo_of_lt (h : s.Grounded) (hlt : s.counter < node.counter) (depth : ℕ) :
    s.walkTo depth node = [] := by
  cases depth with
  | zero => rfl
  | succ depth =>
    have hnone : s.get? node = none := by
      refine get?_eq_none.mpr fun r hr hid => ?_
      have hle := (h.nodes r hr).counted
      rw [hid] at hle
      omega
    rw [walkTo, hnone]

/-- A greater depth changes nothing. -/
theorem Grounded.walkTo_eq (h : s.Grounded) {depth depth' : ℕ} (hd : s.counter + 1 ≤ depth + node.counter)
    (hd' : s.counter + 1 ≤ depth' + node.counter) : s.walkTo depth node = s.walkTo depth' node := by
  induction depth generalizing node depth' with
  | zero =>
    have hlt : s.counter < node.counter := by omega
    rw [h.walkTo_of_lt hlt, h.walkTo_of_lt hlt]
  | succ depth ih =>
    cases depth' with
    | zero =>
      have hlt : s.counter < node.counter := by omega
      rw [h.walkTo_of_lt hlt, h.walkTo_of_lt hlt]
    | succ depth' =>
      have hchildren : (s.children node).flatMap (s.walkTo depth) = (s.children node).flatMap (s.walkTo depth') := by
        refine flatMap_congr fun child hchild => ?_
        have hlt := h.lt_of_mem_children hchild
        exact ih (by omega) (by omega)
      rw [walkTo, walkTo, hchildren]

/-- What the walk of a node comes to. -/
theorem walk_eq (h : s.Grounded) (node : TreeOpId) : s.walk node = match s.get? node with
    | none => []
    | some r =>
      match r.body with
      | .leaf _ text => text.text
      | .element _ => (s.children node).flatMap s.walk := by
  have hdepth : s.walk node = s.walkTo (s.counter + 1) node := h.walkTo_eq (by omega) (by omega)
  have hchildren : (s.children node).flatMap (s.walkTo s.counter) = (s.children node).flatMap s.walk := by
    refine flatMap_congr fun child hchild => ?_
    have hlt := h.lt_of_mem_children hchild
    exact h.walkTo_eq (by omega) (by omega)
  have hbody : s.walkTo (s.counter + 1) node = match s.get? node with
      | none => []
      | some r =>
        match r.body with
        | .leaf _ text => text.text
        | .element _ => (s.children node).flatMap (s.walkTo s.counter) := rfl
  rw [hchildren] at hbody
  exact hdepth.trans hbody

end LosslessTreeCrdt

end LazilyPy.Lossless

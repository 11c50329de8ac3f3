import LazilyPy.Lib.MapM
import LazilyPy.Semtree.Basic

/-!
# What a change marks

A change marks the ancestors of the node that it changes, and nothing else. What is not marked has been
folded from what is not marked.
-/

namespace LazilyPy.Semtree

open Relation List Option Function

variable {I V D : Type}

namespace SemTree

variable {s s' : SemTree I V D} {i j x y p c : I} {n : ℕ} {node : SemNode I V D} {d : D}

/-! ### Invariants -/

/-- The ids are those of the nodes, the children of a node are nodes, and the index of parents agrees
with the children. -/
structure Linked (s : SemTree I V D) : Prop where
  mem_ids : ∀ i, i ∈ s.ids ↔ (s.nodes i).isSome
  mem_parents : ∀ p c, p ∈ s.parents c ↔ c ∈ s.childrenOf p
  mem_of_child : ∀ p c, c ∈ s.childrenOf p → c ∈ s.ids

def Above (s : SemTree I V D) (i x : I) : Prop :=
  ReflTransGen (fun a b => b ∈ s.childrenOf a) i x

def Cached (s : SemTree I V D) (i : I) (d : D) : Prop :=
  ∃ node, s.nodes i = some node ∧ node.dirty = false ∧ node.derived = d

def Dirty (s : SemTree I V D) (i : I) : Prop :=
  ∃ node, s.nodes i = some node ∧ node.dirty = true

def countOf (s : SemTree I V D) (i : I) : ℕ :=
  (s.nodes i).elim 0 SemNode.computeCount

/-- What is not marked has been folded from children that are not marked. -/
def CoherentAt (fold : V → List D → D) (s : SemTree I V D) (i : I) : Prop :=
  ∀ node, s.nodes i = some node → node.dirty = false →
    ∃ ds, Forall₂ s.Cached node.children ds ∧ node.derived = fold node.value ds

def Coherent (fold : V → List D → D) (s : SemTree I V D) : Prop :=
  ∀ i, CoherentAt fold s i

theorem childrenOf_of_nodes (h : s.nodes i = some node) : s.childrenOf i = node.children := by
  rw [childrenOf, h]
  rfl

theorem Linked.mem_of_parent (h : s.Linked) (hp : p ∈ s.parents c) : p ∈ s.ids := by
  rw [h.mem_parents, childrenOf] at hp
  rw [h.mem_ids]
  cases hnode : s.nodes p with
  | none =>
    rw [hnode] at hp
    cases hp
  | some node => rfl

theorem Linked.above_iff (h : s.Linked) : s.Above i x ↔ ReflTransGen (fun a b => b ∈ s.parents a) x i := by
  rw [Above, ← reflTransGen_swap]
  have hrel : (fun a b => a ∈ s.childrenOf b) = fun a b => b ∈ s.parents a := by
    funext a b
    exact propext (h.mem_parents b a).symm
  exact iff_of_eq (congrArg (fun r => ReflTransGen r x i) hrel)

theorem Above.mono (h : s.Above i x) (hsub : ∀ p, s.childrenOf p ⊆ s'.childrenOf p) : s'.Above i x :=
  ReflTransGen.mono (fun a _ hb => hsub a hb) i x h

section

/-- From one tree to another one in which the invariants hold, where what has been marked is above what
has changed. -/
structure Marks (fold : V → List D → D) (s s' : SemTree I V D) (changed : I → Prop) : Prop where
  linked : s'.Linked
  coherent : s'.Coherent fold
  dirty : ∀ j, s'.Dirty j → s.Dirty j ∨ ∃ y, changed y ∧ s'.Above j y
  countOf : ∀ j, s'.countOf j = s.countOf j

variable {fold : V → List D → D} {changed changed' : I → Prop}

theorem Marks.refl (hs : s.Linked) (hc : s.Coherent fold) : Marks fold s s changed :=
  ⟨hs, hc, fun _ h => .inl h, fun _ => rfl⟩

theorem Marks.mono (h : Marks fold s s' changed) (himp : ∀ y, changed y → changed' y) : Marks fold s s' changed' :=
  ⟨h.linked, h.coherent, fun j hj => (h.dirty j hj).imp_right fun ⟨y, hy, habove⟩ => ⟨y, himp y hy, habove⟩, h.countOf⟩

end

/-! ### Marks -/

variable [DecidableEq I]

def mark (l : List I) (s : SemTree I V D) : SemTree I V D :=
  { s with nodes := fun j =>
      if j ∈ l then (s.nodes j).map fun node => { node with dirty := true } else s.nodes j }

theorem nodes_mark (l : List I) (j : I) : (s.mark l).nodes j =
    if j ∈ l then (s.nodes j).map fun node => { node with dirty := true } else s.nodes j := rfl

theorem nodes_put_self (node : SemNode I V D) : (s.put i node).nodes i = some node :=
  update_self ..

theorem nodes_put_of_ne (node : SemNode I V D) (hne : j ≠ i) : (s.put i node).nodes j = s.nodes j :=
  update_of_ne hne ..

theorem markDirty_mark (l : List I) (i : I) : (s.mark l).markDirty i = s.mark (i :: l) := by
  have hnodes : ((s.mark l).markDirty i).nodes = (s.mark (i :: l)).nodes := by
    funext j
    have hother (hne : j ≠ i) : (s.mark l).nodes j = (s.mark (i :: l)).nodes j := by
      simp only [nodes_mark, mem_cons, or_iff_right hne]
    have hself : (s.mark (i :: l)).nodes i = ((s.mark l).nodes i).map fun node => { node with dirty := true } := by
      rw [nodes_mark, nodes_mark, if_pos mem_cons_self]
      cases s.nodes i with
      | none => simp
      | some node => split <;> rfl
    unfold markDirty
    split
    · next hnone =>
      by_cases hj : j = i
      · rw [hj, hself, hnone]
        rfl
      · exact hother hj
    · next node hsome =>
      by_cases hj : j = i
      · rw [hj, hself, hsome, nodes_put_self]
        rfl
      · rw [nodes_put_of_ne _ hj, hother hj]
  have hrest : (s.mark l).markDirty i = { s with nodes := ((s.mark l).markDirty i).nodes } := by
    unfold markDirty
    split
    · rfl
    · rfl
  rw [hrest, hnodes]
  rfl

/-- The nodes that are marked are those that are visited. -/
theorem markDirtyChain_mark (n : ℕ) (i : I) (l : List I) : markDirtyChain n i (l, s.mark l) =
      (search s.parents n i l, s.mark (search s.parents n i l)) := by
  induction n generalizing i l with
  | zero => rfl
  | succ n ih =>
    rw [markDirtyChain, search]
    split
    · rfl
    · rw [markDirty_mark]
      show (s.parents i).foldl _ _ = _
      generalize i :: l = l
      induction s.parents i generalizing l with
      | nil => rfl
      | cons p ps ihps => rw [foldl_cons, foldl_cons, ih, ihps]

theorem touch_eq (i : I) : s.touch i = s.mark (search s.parents (s.ids.length + 1) i []) :=
  congrArg Prod.snd (markDirtyChain_mark (s := s) _ i [])

/-- What is marked are the node and its ancestors. -/
theorem Linked.mem_marks_iff (h : s.Linked) (hi : i ∈ s.ids) :
    j ∈ search s.parents (s.ids.length + 1) i [] ↔ s.Above j i := by
  rw [h.above_iff]
  have hclosed : ∀ a ∈ s.ids.toFinset, ∀ b ∈ s.parents a, b ∈ s.ids.toFinset :=
    fun a _ b hb => List.mem_toFinset.mpr (h.mem_of_parent hb)
  have hcard := toFinset_card_le s.ids
  exact mem_search_iff hclosed (List.mem_toFinset.mpr hi) (by omega)

theorem nodes_touch_of_above (h : s.Linked) (hi : i ∈ s.ids) (hj : s.Above j i) :
    (s.touch i).nodes j = (s.nodes j).map fun node => { node with dirty := true } := by
  rw [touch_eq, nodes_mark, if_pos ((h.mem_marks_iff hi).mpr hj)]

theorem nodes_touch_of_not_above (h : s.Linked) (hi : i ∈ s.ids) (hj : ¬ s.Above j i) :
    (s.touch i).nodes j = s.nodes j := by
  rw [touch_eq, nodes_mark, if_neg fun hmem => hj ((h.mem_marks_iff hi).mp hmem)]

theorem childrenOf_touch (i j : I) : (s.touch i).childrenOf j = s.childrenOf j := by
  rw [touch_eq, childrenOf, childrenOf, nodes_mark]
  split
  · cases s.nodes j with
    | none => rfl
    | some node => rfl
  · rfl

theorem Linked.touch (h : s.Linked) (i : I) : (s.touch i).Linked := by
  have hids : (s.touch i).ids = s.ids := by rw [touch_eq]; rfl
  have hparents : (s.touch i).parents = s.parents := by rw [touch_eq]; rfl
  refine ⟨fun j => ?_, fun p c => ?_, fun p c hc => ?_⟩
  · rw [hids, h.mem_ids, touch_eq, nodes_mark]
    split
    · rw [isSome_map]
    · rfl
  · rw [hparents, childrenOf_touch]
    exact h.mem_parents p c
  · rw [childrenOf_touch] at hc
    rw [hids]
    exact h.mem_of_child p c hc

/-- A change of one node is coherent once its ancestors have been marked. -/
theorem coherent_touch {fold : V → List D → D} (hs : s.Linked) (hi : i ∈ s.ids)
    (h : ∀ j, j ≠ i → CoherentAt fold s j) : Coherent fold (s.touch i) := by
  intro j node hnode hclean
  by_cases habove : s.Above j i
  · rw [nodes_touch_of_above hs hi habove] at hnode
    obtain ⟨old, -, rfl⟩ := map_eq_some_iff.mp hnode
    cases hclean
  · rw [nodes_touch_of_not_above hs hi habove] at hnode
    have hne : j ≠ i := by
      rintro rfl
      exact habove .refl
    obtain ⟨ds, hds, hderived⟩ := h j hne node hnode hclean
    refine ⟨ds, forall₂_imp_of_mem hds fun c hc d hcached => ?_, hderived⟩
    -- an ancestor of the changed node would have marked its own parent
    have hchild : ¬ s.Above c i := fun hcabove =>
      habove (.head (by rwa [childrenOf_of_nodes hnode]) hcabove)
    rwa [Cached, nodes_touch_of_not_above hs hi hchild]

theorem above_touch (i j x : I) : (s.touch i).Above j x ↔ s.Above j x := by
  have hchildren : (s.touch i).childrenOf = s.childrenOf := funext (childrenOf_touch i)
  show ReflTransGen (fun a b => b ∈ (s.touch i).childrenOf a) j x ↔ _
  rw [hchildren]
  rfl

theorem dirty_touch (hs : s.Linked) (hi : i ∈ s.ids) (h : (s.touch i).Dirty j) :
    s.Dirty j ∨ (s.touch i).Above j i := by
  by_cases habove : s.Above j i
  · exact .inr ((above_touch i j i).mpr habove)
  · rw [Dirty, nodes_touch_of_not_above hs hi habove] at h
    exact .inl h

theorem countOf_touch (i j : I) : (s.touch i).countOf j = s.countOf j := by
  rw [touch_eq, countOf, countOf, nodes_mark]
  split
  · cases s.nodes j with
    | none => rfl
    | some node => rfl
  · rfl

/-! ### Changes -/

section Put

variable {old new : SemNode I V D} {fold : V → List D → D} {parents : I → List I}

theorem childrenOf_put (j : I) : (s.put i new).childrenOf j = if j = i then new.children else s.childrenOf j := by
  unfold childrenOf
  split
  · next h =>
    rw [h, nodes_put_self]
    rfl
  · next h => rw [nodes_put_of_ne _ h]

section

variable (hold : s.nodes i = some old)

include hold

theorem cached_put (hdirty : new.dirty = old.dirty) (hderived : new.derived = old.derived) (h : s.Cached c d) :
    (s.put i new).Cached c d := by
  obtain ⟨node, hnode, hclean, hd⟩ := h
  by_cases hc : c = i
  · rw [hc] at hnode ⊢
    obtain rfl := some.inj (hold.symm.trans hnode)
    exact ⟨new, nodes_put_self new, hdirty.trans hclean, hderived.trans hd⟩
  · exact ⟨node, (nodes_put_of_ne new hc).trans hnode, hclean, hd⟩

/-- The other nodes stay coherent. -/
theorem coherentAt_put (hdirty : new.dirty = old.dirty) (hderived : new.derived = old.derived) (hne : j ≠ i)
    (h : CoherentAt fold s j) :
    CoherentAt fold (s.put i new) j := by
  intro node hnode hclean
  rw [nodes_put_of_ne _ hne] at hnode
  obtain ⟨ds, hds, hd⟩ := h node hnode hclean
  exact ⟨ds, hds.imp fun c d hc => cached_put hold hdirty hderived hc, hd⟩

theorem dirty_put (hdirty : new.dirty = old.dirty) (h : (s.put i new).Dirty j) : s.Dirty j := by
  obtain ⟨node, hnode, hd⟩ := h
  by_cases hj : j = i
  · rw [hj, nodes_put_self] at hnode
    obtain rfl := some.inj hnode
    exact ⟨old, hj ▸ hold, hdirty.symm.trans hd⟩
  · rw [nodes_put_of_ne _ hj] at hnode
    exact ⟨node, hnode, hd⟩

theorem countOf_put (hcount : new.computeCount = old.computeCount) (j : I) : (s.put i new).countOf j = s.countOf j := by
  unfold countOf
  by_cases hj : j = i
  · rw [hj, nodes_put_self, hold]
    exact hcount
  · rw [nodes_put_of_ne _ hj]

theorem isSome_put (j : I) : ((s.put i new).nodes j).isSome = (s.nodes j).isSome := by
  by_cases hj : j = i
  · rw [hj, nodes_put_self, hold]
    rfl
  · rw [nodes_put_of_ne _ hj]

end

theorem Linked.relink (hs : s.Linked) (hold : s.nodes i = some old)
    (hparents : ∀ p c, p ∈ parents c ↔ c ∈ (s.put i new).childrenOf p)
    (hchildren : ∀ c ∈ new.children, c ∈ s.ids) :
    Linked { s.put i new with parents := parents } := by
  refine ⟨fun j => ?_, hparents, fun p c hc => ?_⟩
  · show j ∈ s.ids ↔ ((s.put i new).nodes j).isSome
    rw [isSome_put hold, hs.mem_ids]
  · change c ∈ (s.put i new).childrenOf p at hc
    rw [childrenOf_put] at hc
    split at hc
    · exact hchildren c hc
    · exact hs.mem_of_child p c hc

end Put

variable {fold : V → List D → D} {old : SemNode I V D}

/-- A node is replaced by one that has the same derived value, and then its ancestors are marked. -/
theorem marks_relink {new : SemNode I V D} {parents : I → List I} (hs : s.Linked)
    (hc : s.Coherent fold) (hold : s.nodes i = some old)
    (hnew : new.dirty = old.dirty ∧ new.derived = old.derived ∧ new.computeCount = old.computeCount)
    (hparents : ∀ p c, p ∈ parents c ↔ c ∈ (s.put i new).childrenOf p)
    (hchildren : ∀ c ∈ new.children, c ∈ s.ids) :
    Marks fold s (SemTree.touch i { s.put i new with parents := parents }) (· = i) := by
  obtain ⟨hdirty, hderived, hcount⟩ := hnew
  have hlinked := hs.relink hold hparents hchildren
  have hi : i ∈ s.ids := by
    rw [hs.mem_ids, hold]
    rfl
  refine ⟨hlinked.touch i, coherent_touch hlinked hi fun j hne => ?_, fun j hj => ?_, fun j => ?_⟩
  · exact coherentAt_put hold hdirty hderived hne (hc j)
  · obtain hj | hj := dirty_touch hlinked hi hj
    · exact .inl (dirty_put hold hdirty hj)
    · exact .inr ⟨i, rfl, hj⟩
  · rw [countOf_touch]
    exact countOf_put hold hcount j

section

variable [BEq V]

/-- An operation changes a node: it adds it, or it changes its value or its children. -/
inductive Changes (s : SemTree I V D) : Op I V → I → Prop
  | add {i : I} {v : V} (hi : s.nodes i = none) : Changes s (.add i v) i
  | set {i : I} {v : V} {node : SemNode I V D} (hi : s.nodes i = some node)
      (hv : (node.value == v) = false) : Changes s (.set i v) i
  | addChild {p c : I} {v : V} (hp : (s.nodes p).isSome) (hc : s.nodes c = none) : Changes s (.insertChild p c v) c
  | insertChild {p c : I} {v : V} (hp : (s.nodes p).isSome) (hc : c ∉ s.childrenOf p) :
      Changes s (.insertChild p c v) p
  | removeChild {p c : I} (hc : c ∈ s.childrenOf p) : Changes s (.removeChild p c) p

theorem marks_setNodeValue (hs : s.Linked) (hc : s.Coherent fold) (i : I) (v : V) :
    Marks fold s (s.setNodeValue i v) (Changes s (.set i v)) := by
  rw [setNodeValue]
  split
  · exact .refl hs hc
  next node hnode =>
    split
    · exact .refl hs hc
    next hne =>
      have hchildren (p : I) : (s.put i { node with value := v }).childrenOf p = s.childrenOf p := by
        rw [childrenOf_put]
        split
        · next h => rw [h, childrenOf_of_nodes hnode]
        · rfl
      have hmarks : Marks fold s ((s.put i { node with value := v }).touch i) (· = i) := by
        refine marks_relink hs hc hnode ⟨rfl, rfl, rfl⟩ (fun p c => ?_) fun c hmem => ?_
        · rw [hchildren]
          exact hs.mem_parents p c
        · exact hs.mem_of_child i c (by rwa [childrenOf_of_nodes hnode])
      refine hmarks.mono ?_
      rintro y rfl
      exact .set hnode (by simpa using hne)

theorem marks_removeChild (hs : s.Linked) (hc : s.Coherent fold) (p c : I) :
    Marks fold s (s.removeChild p c) (Changes s (.removeChild p c : Op I V)) := by
  rw [removeChild]
  split
  · exact .refl hs hc
  next node hnode =>
    have hold := childrenOf_of_nodes hnode
    split
    next hmem =>
      have hmarks : Marks fold s (SemTree.touch p
            { s.put p { node with children := node.children.filter (· ≠ c) } with
              parents := update s.parents c ((s.parents c).filter (· ≠ p)) })
          (· = p) := by
        refine marks_relink hs hc hnode ⟨rfl, rfl, rfl⟩ (fun q d => ?_) fun d hd => ?_
        · have hparents := hs.mem_parents q d
          rw [childrenOf_put]
          by_cases hd : c = d
          · subst hd
            rw [update_self, mem_filter, hparents]
            split
            · next hq => simp [hq]
            · next hq => simp [hq]
          · rw [update_of_ne (Ne.symm hd), hparents]
            split
            · next hq => simp [hq, Ne.symm hd, hold]
            · rfl
        · exact hs.mem_of_child p d (by rw [hold]; exact mem_of_mem_filter hd)
      refine hmarks.mono ?_
      rintro y rfl
      exact .removeChild (by rwa [hold])
    · exact .refl hs hc

end

variable [Inhabited D] {v : V}

theorem add_of_isSome (h : (s.nodes i).isSome) : s.add i v = s := by
  obtain ⟨node, hnode⟩ := isSome_iff_exists.mp h
  rw [add, hnode]

theorem add_of_none (h : s.nodes i = none) :
    s.add i v = { s.put i { value := v, derived := default } with ids := s.ids ++ [i] } := by
  rw [add, h]

theorem childrenOf_add (j : I) : (s.add i v).childrenOf j = s.childrenOf j := by
  cases h : s.nodes i with
  | some node => rw [add_of_isSome (by rw [h]; rfl)]
  | none =>
    rw [add_of_none h]
    show (s.put i _).childrenOf j = _
    rw [childrenOf_put]
    split
    · next hj => rw [hj, childrenOf, h, elim_none]
    · rfl

theorem nodes_add_of_ne (hne : j ≠ i) : (s.add i v).nodes j = s.nodes j := by
  cases h : s.nodes i with
  | some node => rw [add_of_isSome (by rw [h]; rfl)]
  | none =>
    rw [add_of_none h]
    exact nodes_put_of_ne _ hne

theorem Linked.add (hs : s.Linked) (i : I) (v : V) : (s.add i v).Linked := by
  cases h : s.nodes i with
  | some node => rwa [add_of_isSome (by rw [h]; rfl)]
  | none =>
    have hids : (s.add i v).ids = s.ids ++ [i] := by rw [add_of_none h]
    have hparents : (s.add i v).parents = s.parents := by
      rw [add_of_none h]
      rfl
    refine ⟨fun j => ?_, fun p c => ?_, fun p c hc => ?_⟩
    · rw [hids, mem_append, mem_singleton]
      by_cases hj : j = i
      · rw [hj, add_of_none h]
        show _ ↔ ((s.put i _).nodes i).isSome
        rw [nodes_put_self]
        simp
      · rw [nodes_add_of_ne hj, hs.mem_ids, or_iff_left hj]
    · rw [hparents, childrenOf_add]
      exact hs.mem_parents p c
    · rw [childrenOf_add] at hc
      rw [hids]
      exact mem_append_left _ (hs.mem_of_child p c hc)

theorem marks_add (hs : s.Linked) (hc : s.Coherent fold) (i : I) (v : V) :
    Marks fold s (s.add i v) fun y => s.nodes i = none ∧ y = i := by
  cases h : s.nodes i with
  | some node =>
    rw [add_of_isSome (by rw [h]; rfl)]
    exact .refl hs hc
  | none =>
    have hself : (s.add i v).nodes i = some { value := v, derived := default } := by
      rw [add_of_none h]
      exact nodes_put_self _
    refine ⟨hs.add i v, fun j node hnode hclean => ?_, fun j hj => ?_, fun j => ?_⟩
    · have hj : j ≠ i := by
        rintro rfl
        obtain rfl := some.inj (hself.symm.trans hnode)
        cases hclean
      rw [nodes_add_of_ne hj] at hnode
      obtain ⟨ds, hds, hd⟩ := hc j node hnode hclean
      refine ⟨ds, hds.imp fun c d hcached => ?_, hd⟩
      obtain ⟨child, hchild, hrest⟩ := hcached
      have hne : c ≠ i := by
        rintro rfl
        cases hchild.symm.trans h
      exact ⟨child, (nodes_add_of_ne hne).trans hchild, hrest⟩
    · by_cases hji : j = i
      · exact .inr ⟨i, ⟨rfl, rfl⟩, hji ▸ .refl⟩
      · rw [Dirty, nodes_add_of_ne hji] at hj
        exact .inl hj
    · by_cases hji : j = i
      · rw [hji, countOf, countOf, hself, h]
        rfl
      · rw [countOf, countOf, nodes_add_of_ne hji]

theorem isSome_add (i : I) (v : V) : ((s.add i v).nodes i).isSome := by
  cases h : s.nodes i with
  | some node =>
    rw [add_of_isSome (by rw [h]; rfl), h]
    rfl
  | none =>
    rw [add_of_none h]
    show ((s.put i _).nodes i).isSome
    rw [nodes_put_self]
    rfl

theorem marks_insertChild [BEq V] (hs : s.Linked) (hc : s.Coherent fold) (p c : I) (v : V) :
    Marks fold s (s.insertChild p c v) (Changes s (.insertChild p c v)) := by
  have hadd : (if (s.nodes c).isNone then s.add c v else s) = s.add c v := by
    split
    · rfl
    · next h => rw [add_of_isSome (by simpa [isSome_iff_ne_none] using h)]
  rw [insertChild]
  split
  · exact .refl hs hc
  next hp =>
    have hp : (s.nodes p).isSome := by simpa [isSome_iff_ne_none] using hp
    have hadded := marks_add hs hc c v
    have hfresh : Marks fold s (s.add c v) (Changes s (.insertChild p c v)) :=
      hadded.mono fun y ⟨hnone, hy⟩ => hy.symm ▸ .addChild hp hnone
    simp only [hadd]
    split
    · exact hfresh
    next node hnode =>
      split
      · exact hfresh
      next hnew =>
        have hold : s.childrenOf p = node.children := by
          rw [← childrenOf_add (i := c) (v := v), childrenOf_of_nodes hnode]
        have hmem : c ∈ (s.add c v).ids := (hadded.linked.mem_ids c).mpr (isSome_add c v)
        have hmarks : Marks fold (s.add c v) (SemTree.touch p
              { (s.add c v).put p { node with children := node.children ++ [c] } with
                parents := update (s.add c v).parents c ((s.add c v).parents c ++ [p]) })
            (· = p) := by
          refine marks_relink hadded.linked hadded.coherent hnode ⟨rfl, rfl, rfl⟩ (fun q d => ?_) fun d hd => ?_
          · have hparents := hadded.linked.mem_parents q d
            rw [childrenOf_put]
            by_cases hd : c = d
            · subst hd
              rw [update_self, mem_append, mem_singleton, hparents]
              split
              · next hq => simp [hq]
              · next hq => exact or_iff_left hq
            · rw [update_of_ne (Ne.symm hd), hparents]
              split
              · next hq => simp [hq, Ne.symm hd, childrenOf_of_nodes hnode]
              · rfl
          · obtain hd | hd := mem_append.mp hd
            · exact hadded.linked.mem_of_child p d (by rwa [childrenOf_of_nodes hnode])
            · rwa [mem_singleton.mp hd]
        refine ⟨hmarks.linked, hmarks.coherent, fun j hj => ?_, fun j => ?_⟩
        · obtain hj | ⟨y, rfl, habove⟩ := hmarks.dirty j hj
          · obtain hj | ⟨y, hy, habove⟩ := hfresh.dirty j hj
            · exact .inl hj
            · refine .inr ⟨y, hy, habove.mono fun q d hd => ?_⟩
              rw [childrenOf_touch]
              show d ∈ ((s.add c v).put p _).childrenOf q
              rw [childrenOf_put]
              split
              · next hq =>
                rw [hq, childrenOf_of_nodes hnode] at hd
                exact mem_append_left _ hd
              · exact hd
          · exact .inr ⟨y, .insertChild hp (by rwa [hold]), habove⟩
        · rw [hmarks.countOf, hadded.countOf]

/-- What an operation marks, if it is not a read. -/
theorem marks_apply [BEq V] [BEq D] (hs : s.Linked) (hc : s.Coherent fold) {op : Op I V}
    (hop : ∀ i, op ≠ .read i) : Marks fold s (s.apply fold op) (Changes s op) := by
  cases op with
  | add i v => exact (marks_add hs hc i v).mono fun y ⟨hnone, hy⟩ => hy.symm ▸ .add hnone
  | set i v => exact marks_setNodeValue hs hc i v
  | insertChild p c v => exact marks_insertChild hs hc p c v
  | removeChild p c => exact marks_removeChild hs hc p c
  | read i => exact absurd rfl (hop i)

end SemTree

end LazilyPy.Semtree

import LazilyPy.Lib.Descent
import LazilyPy.Semtree.Dirty
import Mathlib.Algebra.GroupWithZero.Nat

/-!
# Incremental and full folds

A read folds what is marked, below the node that is read. What it leaves is coherent again, so that every
derived value is the one of a full fold.
-/

namespace LazilyPy.Semtree

open Relation List Option

variable {I V D : Type}

namespace SemTree

variable {s s' s₁ : SemTree I V D} {i j c : I} {n : ℕ} {d d' : D} {fold : V → List D → D}

/-- The full fold of the subtree of a node, at most so many nodes deep. -/
def total (fold : V → List D → D) (s : SemTree I V D) : ℕ → I → Option D
  | 0, _ => none
  | n + 1, i =>
    (s.nodes i).bind fun node => (node.children.mapM (total fold s n)).map (fold node.value)

def fromScratch (fold : V → List D → D) (s : SemTree I V D) (i : I) : Option D :=
  total fold s (s.ids.length + 1) i

def Acyclic (s : SemTree I V D) : Prop :=
  ∀ i, ¬ TransGen (fun a b => b ∈ s.childrenOf a) i i

/-! ### What a read does -/

/-- A node after a read: it is the same, or it was marked and is not any more. -/
def Refolds (node node' : SemNode I V D) : Prop :=
  node' = node ∨ (node.dirty = true ∧ node'.dirty = false ∧ node'.value = node.value ∧ node'.children = node.children)

structure Extends (s s' : SemTree I V D) : Prop where
  ids : s'.ids = s.ids
  parents : s'.parents = s.parents
  nodes : ∀ i, Option.Rel Refolds (s.nodes i) (s'.nodes i)

variable {node node' : SemNode I V D} {f : I → SemTree I V D → Except (Raised I) D × SemTree I V D}

theorem Refolds.children (h : Refolds node node') : node'.children = node.children := by
  obtain rfl | ⟨-, -, -, h⟩ := h
  · rfl
  · exact h

theorem Refolds.value (h : Refolds node node') : node'.value = node.value := by
  obtain rfl | ⟨-, -, h, -⟩ := h
  · rfl
  · exact h

theorem Refolds.trans {node₁ : SemNode I V D} (h : Refolds node node₁) (h' : Refolds node₁ node') :
    Refolds node node' := by
  obtain rfl | ⟨hd, hclean, hv, hc⟩ := h
  · exact h'
  · obtain rfl | ⟨hd', -⟩ := h'
    · exact .inr ⟨hd, hclean, hv, hc⟩
    · cases hclean.symm.trans hd'

theorem Extends.of_none (h : Extends s s') (hnone : s.nodes i = none) : s'.nodes i = none := by
  have hrel := h.nodes i
  rw [hnone] at hrel
  generalize s'.nodes i = o at hrel ⊢
  cases hrel
  rfl

theorem Extends.of_some (h : Extends s s') (hsome : s.nodes i = some node) :
    ∃ node', s'.nodes i = some node' ∧ Refolds node node' := by
  have hrel := h.nodes i
  rw [hsome] at hrel
  generalize s'.nodes i = o at hrel ⊢
  cases hrel with
  | some hstep => exact ⟨_, rfl, hstep⟩

theorem Extends.refl (s : SemTree I V D) : Extends s s := by
  refine ⟨rfl, rfl, fun i => ?_⟩
  cases s.nodes i with
  | none => exact .none
  | some node => exact .some (.inl rfl)

theorem Extends.trans (h : Extends s s₁) (h' : Extends s₁ s') : Extends s s' := by
  refine ⟨h'.ids.trans h.ids, h'.parents.trans h.parents, fun i => ?_⟩
  cases hnode : s.nodes i with
  | none =>
    rw [h'.of_none (h.of_none hnode)]
    exact .none
  | some node =>
    obtain ⟨node₁, hnode₁, hstep⟩ := h.of_some hnode
    obtain ⟨node', hnode', hstep'⟩ := h'.of_some hnode₁
    rw [hnode']
    exact .some (hstep.trans hstep')

theorem Extends.childrenOf (h : Extends s s') (i : I) : s'.childrenOf i = s.childrenOf i := by
  cases hnode : s.nodes i with
  | none => rw [SemTree.childrenOf, SemTree.childrenOf, hnode, h.of_none hnode]
  | some node =>
    obtain ⟨node', hnode', hstep⟩ := h.of_some hnode
    rw [childrenOf_of_nodes hnode, childrenOf_of_nodes hnode', hstep.children]

theorem Extends.isSome (h : Extends s s') (i : I) : (s'.nodes i).isSome = (s.nodes i).isSome := by
  cases hnode : s.nodes i with
  | none => rw [h.of_none hnode]
  | some node =>
    obtain ⟨node', hnode', -⟩ := h.of_some hnode
    rw [hnode']
    rfl

theorem Extends.linked (h : Extends s s') (hs : s.Linked) : s'.Linked := by
  refine ⟨fun i => ?_, fun p c => ?_, fun p c hc => ?_⟩
  · rw [h.ids, h.isSome, hs.mem_ids]
  · rw [h.parents, h.childrenOf, hs.mem_parents]
  · rw [h.childrenOf] at hc
    rw [h.ids]
    exact hs.mem_of_child p c hc

theorem Extends.cached (h : Extends s s') (hc : s.Cached c d) : s'.Cached c d := by
  obtain ⟨node, hnode, hclean, hd⟩ := hc
  obtain ⟨node', hnode', rfl | ⟨hdirty, -⟩⟩ := h.of_some hnode
  · exact ⟨node', hnode', hclean, hd⟩
  · cases hclean.symm.trans hdirty

/-- A node that is marked after a read is the same as before. -/
theorem Extends.nodes_of_dirty (h : Extends s s') (hd : s'.Dirty i) : s'.nodes i = s.nodes i := by
  obtain ⟨node', hnode', hdirty⟩ := hd
  cases hnode : s.nodes i with
  | none => cases (h.of_none hnode).symm.trans hnode'
  | some node =>
    obtain ⟨node₁, hnode₁, rfl | ⟨-, hclean, -⟩⟩ := h.of_some hnode
    · exact hnode₁
    · obtain rfl := some.inj (hnode'.symm.trans hnode₁)
      cases hclean.symm.trans hdirty

/-- What is folded in a read was marked. -/
theorem Extends.dirty_of_countOf (h : Extends s s') (hne : s'.countOf i ≠ s.countOf i) : s.Dirty i := by
  cases hnode : s.nodes i with
  | none => exact absurd (by rw [countOf, countOf, hnode, h.of_none hnode]) hne
  | some node =>
    obtain ⟨node', hnode', rfl | ⟨hdirty, -⟩⟩ := h.of_some hnode
    · exact absurd (by rw [countOf, countOf, hnode, hnode']) hne
    · exact ⟨node, hnode, hdirty⟩

theorem cached_unique (s : SemTree I V D) : Relator.RightUnique s.Cached := by
  rintro i d d' ⟨node, hnode, -, rfl⟩ ⟨node', hnode', -, rfl⟩
  obtain rfl := some.inj (hnode.symm.trans hnode')
  rfl

/-! ### One read -/

theorem each_extends (l : List I) (hf : ∀ i s, Coherent fold s →
      Extends s (f i s).2 ∧ Coherent fold (f i s).2 ∧ ∀ d, (f i s).1 = .ok d → (f i s).2.Cached i d)
    (hc : s.Coherent fold) :
    Extends s (each f l s).2 ∧ Coherent fold (each f l s).2 ∧
      ∀ ds, (each f l s).1 = .ok ds → Forall₂ (each f l s).2.Cached l ds := by
  induction l generalizing s with
  | nil =>
    refine ⟨.refl s, hc, ?_⟩
    rintro ds ⟨⟩
    exact .nil
  | cons i l ih =>
    obtain ⟨hext, hcoh, hcached⟩ := hf i s hc
    rw [each]
    split
    next e s₁ heq =>
      rw [heq] at hext hcoh
      exact ⟨hext, hcoh, nofun⟩
    next d s₁ heq =>
      rw [heq] at hext hcoh hcached
      obtain ⟨hext', hcoh', hcached'⟩ := ih hcoh
      split
      next e s₂ heq' =>
        rw [heq'] at hext' hcoh'
        exact ⟨hext.trans hext', hcoh', nofun⟩
      next ds s₂ heq' =>
        rw [heq'] at hext' hcoh' hcached'
        refine ⟨hext.trans hext', hcoh', ?_⟩
        rintro ds' ⟨⟩
        exact .cons (hext'.cached (hcached d rfl)) (hcached' ds rfl)

theorem each_cons_of_ok {l : List I} {ds : List D} (h : f i s = (.ok d, s₁)) (hl : each f l s₁ = (.ok ds, s')) :
    each f (i :: l) s = (.ok (d :: ds), s') := by
  simp only [each, h, hl]

theorem each_ok {l : List I} {P : SemTree I V D → Prop}
    (hf : ∀ i ∈ l, ∀ s, P s → ∃ d s', f i s = (.ok d, s') ∧ P s') (hs : P s) :
    ∃ ds s', each f l s = (.ok ds, s') := by
  induction l generalizing s with
  | nil => exact ⟨[], s, rfl⟩
  | cons i l ih =>
    rw [forall_mem_cons] at hf
    obtain ⟨d, s₁, hd, hP⟩ := hf.1 s hs
    obtain ⟨ds, s', hds⟩ := ih hf.2 hP
    exact ⟨d :: ds, s', each_cons_of_ok hd hds⟩

section Read

variable [DecidableEq I] [BEq D]

/-- A node keeps what has been folded from its children, even if it was not marked any more. -/
theorem cached_compute (hc : s.Coherent fold) {node : SemNode I V D} (hnode : s.nodes i = some node)
    {ds : List D} (hds : Forall₂ s.Cached node.children ds) (hj : s.Cached j d) :
    (s.compute fold i ds).Cached j d := by
  rw [compute, hnode]
  obtain ⟨node', hnode', hclean, rfl⟩ := hj
  by_cases hji : j = i
  · subst hji
    obtain rfl := some.inj (hnode.symm.trans hnode')
    obtain ⟨ds', hds', hd⟩ := hc j node hnode hclean
    obtain rfl := (cached_unique s).forall₂ hds hds'
    exact ⟨_, nodes_put_self _, rfl, hd.symm⟩
  · exact ⟨node', (nodes_put_of_ne _ hji).trans hnode', hclean, rfl⟩

theorem coherent_compute (hc : s.Coherent fold) {node : SemNode I V D}
    (hnode : s.nodes i = some node) {ds : List D} (hds : Forall₂ s.Cached node.children ds) :
    (s.compute fold i ds).Coherent fold := by
  have hcached {j : I} {d : D} (hj : s.Cached j d) : (s.compute fold i ds).Cached j d :=
    cached_compute hc hnode hds hj
  intro j node' hnode' hclean
  by_cases hji : j = i
  · subst hji
    rw [compute, hnode, nodes_put_self] at hnode'
    obtain rfl := some.inj hnode'
    exact ⟨ds, hds.imp fun c d hj => hcached hj, rfl⟩
  · rw [compute, hnode, nodes_put_of_ne _ hji] at hnode'
    obtain ⟨ds', hds', hd⟩ := hc j node' hnode' hclean
    exact ⟨ds', hds'.imp fun c d hj => hcached hj, hd⟩

/-- A read folds nodes that are marked, and what it returns is kept. -/
theorem derive_extends (n : ℕ) (i : I) (hc : s.Coherent fold) :
    Extends s (s.derive fold n i).2 ∧ Coherent fold (s.derive fold n i).2 ∧
      ∀ d, (s.derive fold n i).1 = .ok d → (s.derive fold n i).2.Cached i d := by
  induction n generalizing s i with
  | zero => exact ⟨.refl s, hc, nofun⟩
  | succ n ih =>
    rw [derive]
    split
    · exact ⟨.refl s, hc, nofun⟩
    next node hnode =>
    split
    next hdirty =>
      obtain ⟨hext, hcoh, hcached⟩ := each_extends node.children (fun i s hs => ih i hs) hc
      split
      next e s₁ heq =>
        rw [heq] at hext hcoh
        exact ⟨hext, hcoh, nofun⟩
      next ds s₁ heq =>
        rw [heq] at hext hcoh hcached
        obtain ⟨node₁, hnode₁, hstep⟩ := hext.of_some hnode
        have hds : Forall₂ s₁.Cached node₁.children ds := by
          rw [hstep.children]
          exact hcached ds rfl
        refine ⟨⟨?_, ?_, fun j => ?_⟩, coherent_compute hcoh hnode₁ hds, ?_⟩
        · rw [compute, hnode₁]
          exact hext.ids
        · rw [compute, hnode₁]
          exact hext.parents
        · rw [compute, hnode₁]
          by_cases hj : j = i
          · rw [hj, nodes_put_self, hnode]
            exact .some (.inr ⟨hdirty, rfl, hstep.value, hstep.children⟩)
          · rw [nodes_put_of_ne _ hj]
            exact hext.nodes j
        · rintro d ⟨⟩
          rw [compute, hnode₁, ← hstep.value]
          exact ⟨_, nodes_put_self _, rfl, rfl⟩
    next hclean =>
      refine ⟨.refl s, hc, ?_⟩
      rintro d ⟨⟩
      exact ⟨node, hnode, by simpa using hclean, rfl⟩

/-- A read that comes to an end does not raise. -/
theorem derive_ok {n : ℕ} (hs : s.Linked) (hc : s.Coherent fold) (hends : Ends s.childrenOf n i)
    (hi : i ∈ s.ids) : ∃ d s', s.derive fold n i = (.ok d, s') := by
  induction n generalizing s i with
  | zero => exact hends.elim
  | succ n ih =>
    rw [derive]
    split
    next hnone =>
      rw [hs.mem_ids, hnone] at hi
      cases hi
    next node hnode =>
      split
      · have hread : ∀ c ∈ node.children, ∀ s₁, Extends s s₁ ∧ Coherent fold s₁ →
            ∃ d s', derive fold n c s₁ = (.ok d, s') ∧ Extends s s' ∧ Coherent fold s' := by
          intro c hmem s₁ ⟨hext, hcoh⟩
          rw [← childrenOf_of_nodes hnode] at hmem
          have hchildren : s₁.childrenOf = s.childrenOf := funext hext.childrenOf
          obtain ⟨d, s', hd⟩ := ih (hext.linked hs) hcoh (by rw [hchildren]; exact hends c hmem)
            (by rw [hext.ids]; exact hs.mem_of_child i c hmem)
          have hleft := derive_extends n c hcoh
          rw [hd] at hleft
          exact ⟨d, s', hd, hext.trans hleft.1, hleft.2.1⟩
        obtain ⟨ds, s', hds⟩ := each_ok hread ⟨.refl s, hc⟩
        rw [hds]
        exact ⟨_, _, rfl⟩
      · exact ⟨node.derived, s, rfl⟩

end Read

/-! ### Full folds -/

theorem Linked.ends (hs : s.Linked) (ha : s.Acyclic) (hi : i ∈ s.ids) : Ends s.childrenOf (s.ids.length + 1) i := by
  classical
  have hclosed : ∀ a ∈ s.ids.toFinset, ∀ b ∈ s.childrenOf a, b ∈ s.ids.toFinset :=
    fun a _ b hb => List.mem_toFinset.mpr (hs.mem_of_child a b hb)
  have hcard := toFinset_card_le s.ids
  have hseen : ∀ a ∈ (∅ : Finset I), TransGen (fun a b => b ∈ s.childrenOf a) a i :=
    fun a ha => absurd ha (Finset.notMem_empty a)
  refine ends_of_acyclic hclosed ha (List.mem_toFinset.mpr hi) hseen ?_
  rw [Finset.sdiff_empty]
  omega

/-- What is not marked has the value of a full fold. -/
theorem total_of_cached (hc : s.Coherent fold) (hends : Ends s.childrenOf n i) (h : s.Cached i d) :
    total fold s n i = some d := by
  induction n generalizing i d with
  | zero => exact hends.elim
  | succ n ih =>
    obtain ⟨node, hnode, hclean, rfl⟩ := h
    obtain ⟨ds, hds, hd⟩ := hc i node hnode hclean
    have hmap : node.children.mapM (total fold s n) = some ds :=
      mapM_eq_some.mpr <| forall₂_imp_of_mem hds fun c hmem d hcached =>
        ih (hends c (by rwa [childrenOf_of_nodes hnode])) hcached
    rw [total, hnode, bind_some, hmap, hd]
    rfl

/-- A read does not change what a full fold returns. -/
theorem Extends.total (h : Extends s s') (n : ℕ) (i : I) : total fold s' n i = total fold s n i := by
  induction n generalizing i with
  | zero => rfl
  | succ n ih =>
    have hfun : SemTree.total fold s' n = SemTree.total fold s n := funext ih
    rw [SemTree.total, SemTree.total, hfun]
    cases hnode : s.nodes i with
    | none => rw [h.of_none hnode]
    | some node =>
      obtain ⟨node', hnode', hstep⟩ := h.of_some hnode
      rw [hnode', bind_some, bind_some, hstep.value, hstep.children]

theorem derived_eq_fromScratch [DecidableEq I] [BEq D] (hs : s.Linked) (hc : s.Coherent fold)
    (ha : s.Acyclic) (hi : i ∈ s.ids) :
    ∃ d, (s.derived fold i).1 = .ok d ∧ fromScratch fold s i = some d := by
  have hends := hs.ends ha hi
  obtain ⟨d, s', hd⟩ := derive_ok hs hc hends hi
  obtain ⟨hext, hcoh, hcached⟩ := derive_extends (s.ids.length + 1) i hc
  rw [hd] at hext hcoh hcached
  have hchildren : s'.childrenOf = s.childrenOf := funext hext.childrenOf
  refine ⟨d, congrArg Prod.fst hd, ?_⟩
  rw [fromScratch, ← hext.total]
  exact total_of_cached hcoh (by rwa [hchildren]) (hcached d rfl)

end SemTree

/-! ### Runs -/

open SemTree

theorem Op.read_or (op : Op I V) : (∃ i, op = .read i) ∨ ∀ i, op ≠ .read i := by
  cases op with
  | read i => exact .inl ⟨i, rfl⟩
  | _ => exact .inr nofun

variable [DecidableEq I] [BEq V] [BEq D] [Inhabited D] (fold : V → List D → D)

theorem sound_run (ops : List (Op I V)) : (run fold ops).Linked ∧ (run fold ops).Coherent fold := by
  induction ops using reverseRecOn with
  | nil =>
    refine ⟨⟨fun i => ?_, fun p c => ?_, fun p c hc => hc⟩, nofun⟩
    · show i ∈ [] ↔ (none : Option (SemNode I V D)).isSome
      simp
    · show p ∈ [] ↔ c ∈ []
      simp
  | append_singleton ops op ih =>
    rw [run_concat]
    obtain ⟨i, rfl⟩ | hop := op.read_or
    · obtain ⟨hext, hcoh, -⟩ := derive_extends ((run fold ops).ids.length + 1) i ih.2
      exact ⟨hext.linked ih.1, hcoh⟩
    · have hmarks := marks_apply ih.1 ih.2 hop
      exact ⟨hmarks.linked, hmarks.coherent⟩

/-- What is marked has been changed, or what is below it has, and it has not been folded since. -/
theorem dirty_history (ops : List (Op I V)) (j : I) (h : (run fold ops).Dirty j) :
    ∃ earlier op later y, ops = earlier ++ op :: later ∧ Changes (run fold earlier) op y ∧
      (run fold (earlier ++ [op])).Above j y ∧
      (run fold (earlier ++ [op])).countOf j = (run fold ops).countOf j := by
  induction ops using reverseRecOn with
  | nil =>
    obtain ⟨node, hnode, -⟩ := h
    cases hnode
  | append_singleton ops op ih =>
    have hsound := sound_run fold ops
    have hearlier (hdirty : (run fold ops).Dirty j)
        (hcount : (run fold (ops ++ [op])).countOf j = (run fold ops).countOf j) :
        ∃ earlier op' later y, ops ++ [op] = earlier ++ op' :: later ∧
          Changes (run fold earlier) op' y ∧ (run fold (earlier ++ [op'])).Above j y ∧
          (run fold (earlier ++ [op'])).countOf j = (run fold (ops ++ [op])).countOf j := by
      obtain ⟨earlier, op', later, y, hops, hchanges, habove, hsame⟩ := ih hdirty
      refine ⟨earlier, op', later ++ [op], y, ?_, hchanges, habove, hsame.trans hcount.symm⟩
      rw [hops, append_assoc, cons_append]
    obtain ⟨i, rfl⟩ | hop := op.read_or
    · obtain ⟨hext, -, -⟩ := derive_extends ((run fold ops).ids.length + 1) i hsound.2
      have heq : (run fold (ops ++ [.read i])).nodes j = (run fold ops).nodes j := by
        rw [run_concat] at h ⊢
        exact hext.nodes_of_dirty h
      refine hearlier ?_ ?_
      · rwa [Dirty, heq] at h
      · rw [countOf, countOf, heq]
    · have hmarks := marks_apply hsound.1 hsound.2 hop
      rw [← run_concat] at hmarks
      obtain hdirty | ⟨y, hchanges, habove⟩ := hmarks.dirty j h
      · exact hearlier hdirty (hmarks.countOf j)
      · exact ⟨ops, op, [], y, rfl, hchanges, habove, rfl⟩

/-- A read returns the value of a full fold of what is below the node. What it folds is above a node that
has been changed since it was folded last. -/
theorem derived_fold (ops : List (Op I V)) (hacyclic : (run fold ops).Acyclic) : (∀ i ∈ (run fold ops).ids,
      ∃ d, ((run fold ops).derived fold i).1 = .ok d ∧ fromScratch fold (run fold ops) i = some d) ∧
    ∀ i j, ((run fold ops).derived fold i).2.countOf j ≠ (run fold ops).countOf j →
      ∃ earlier op later y, ops = earlier ++ op :: later ∧ Changes (run fold earlier) op y ∧
        (run fold (earlier ++ [op])).Above j y ∧
        (run fold (earlier ++ [op])).countOf j = (run fold ops).countOf j := by
  obtain ⟨hs, hc⟩ := sound_run fold ops
  constructor
  · intro i hi
    exact derived_eq_fromScratch hs hc hacyclic hi
  · intro i j hne
    obtain ⟨hext, -, -⟩ := derive_extends ((run fold ops).ids.length + 1) i hc
    exact dirty_history fold ops j (hext.dirty_of_countOf hne)

/-- The value of a shared child changes, after it has been folded. -/
theorem derived_fold_small :
    let sum : ℕ → List ℕ → ℕ := fun v ds => v + ds.sum
    let s := run sum [.add 0 5, .insertChild 0 1 7, .insertChild 2 1 0, .read 0, .set 1 8]
    ∃ d, (s.derived sum 0).1 = .ok d ∧ fromScratch sum s 0 = some d := by
  intro sum s
  have hzero : s.childrenOf 0 = [1] := by decide
  have hone : s.childrenOf 1 = [] := by decide
  have hids : s.ids = [0, 1] := by decide
  have hlt {a b : ℕ} (h : b ∈ s.childrenOf a) : a < b := by
    have ha : a ∈ s.ids := (sound_run sum _).1.mem_of_parent (((sound_run sum _).1.mem_parents a b).mpr h)
    rw [hids, mem_pair] at ha
    obtain rfl | rfl := ha
    · rw [hzero, mem_singleton] at h
      omega
    · rw [hone] at h
      cases h
  refine (derived_fold sum _ fun i hcycle => ?_).1 0 (by rw [hids]; simp)
  have hpath {j : ℕ} (h : TransGen (fun a b => b ∈ s.childrenOf a) i j) : i < j := by
    induction h with
    | single h => exact hlt h
    | tail _ h ih => exact ih.trans (hlt h)
  exact absurd (hpath hcycle) (lt_irrefl i)

end LazilyPy.Semtree

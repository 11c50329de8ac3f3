import LazilyPy.Chart.Basic
import LazilyPy.Lib.Covering

/-!
# Ancestors and default entry as relations

The walks of the interpreter are searches: one along parent links, one along default entry. Here each
function that walks is described by the relation it follows, for proofs that do not look at its fuel.
-/

namespace LazilyPy.Chart

open List Option

namespace ChartDef

variable (defn : ChartDef)

def parents (id : String) : List String :=
  ((defn.get? id).bind StateDef.parent).toList

def defaults (id : String) : List String :=
  match defn.get? id with
  | none => []
  | some d =>
    match d.kind with
    | .compound => d.initial.toList
    | .parallel => defn.children id
    | .atomic | .history | .final => []

def Within (s a : String) : Prop :=
  Relation.ReflTransGen (fun s p => p ∈ defn.parents s) s a

def Falls (s c : String) : Prop :=
  Relation.ReflTransGen (fun s c => c ∈ defn.defaults s) s c

def ChainEnds (s : String) : Prop :=
  Acc (fun p s => p ∈ defn.parents s) s

def DescentEnds (s : String) : Prop :=
  Acc (fun c s => c ∈ defn.defaults s) s

variable {defn}

variable {id s p c x a b top : String} {n : ℕ} {l : List String}

theorem get?_eq_none_iff : defn.get? id = none ↔ id ∉ defn.ids := by
  rw [mem_ids, not_exists, eq_none_iff_forall_ne_some]

/-! ## Parents and default entry -/

theorem parents_eq {d : StateDef} (h : defn.get? id = some d) : defn.parents id = d.parent.toList := by
  simp [parents, h]

theorem parents_of_none (h : defn.get? id = none) : defn.parents id = [] := by
  simp [parents, h]

theorem mem_parents : p ∈ defn.parents s ↔ ∃ d, defn.get? s = some d ∧ d.parent = some p := by
  simp [parents, bind_eq_some_iff]

theorem mem_parents_iff_children : p ∈ defn.parents s ↔ s ∈ defn.children p := by
  rw [mem_parents, mem_children]

theorem mem_ids_of_mem_parents (h : p ∈ defn.parents s) : p ∈ defn.ids := by
  obtain ⟨d, hd, hp⟩ := mem_parents.mp h
  exact mem_ids_of_parent hd hp

theorem parents_unique {q : String} (hp : p ∈ defn.parents s) (hq : q ∈ defn.parents s) : p = q := by
  obtain ⟨d, hd, hp⟩ := mem_parents.mp hp
  obtain ⟨d', hd', hq⟩ := mem_parents.mp hq
  rw [hd] at hd'
  cases hd'
  exact some.inj (hp.symm.trans hq)

theorem parents_rightUnique : Relator.RightUnique fun s p => p ∈ defn.parents s :=
  fun _ _ _ hp hq => parents_unique hp hq

theorem parents_root (defn : ChartDef) : defn.parents defn.root = [] := by
  obtain ⟨d, hd⟩ := mem_ids.mp defn.root_mem_ids
  rw [parents_eq hd, (parent_eq_none_iff hd).mpr rfl, toList_none]

/-- The root is the declared state without a parent. -/
theorem eq_root_of_parents (hs : s ∈ defn.ids) (h : defn.parents s = []) : s = defn.root := by
  obtain ⟨d, hd⟩ := mem_ids.mp hs
  rw [parents_eq hd, toList_eq_nil_iff] at h
  exact (parent_eq_none_iff hd).mp h

theorem defaults_eq {d : StateDef} (h : defn.get? id = some d) : defn.defaults id = match d.kind with
      | .compound => d.initial.toList
      | .parallel => defn.children id
      | .atomic | .history | .final => [] := by
  simp [defaults, h]

theorem defaults_of_none (h : defn.get? id = none) : defn.defaults id = [] := by
  simp [defaults, h]

/-- Default entry goes on to nothing, to the initial state or to the regions. -/
theorem defaults_cases (id : String) : defn.defaults id = [] ∨
    (∃ d c, defn.get? id = some d ∧ d.initial = some c ∧ defn.defaults id = [c]) ∨
      defn.defaults id = defn.children id := by
  cases hget : defn.get? id with
  | none => exact .inl (defaults_of_none hget)
  | some d =>
    have hd := defaults_eq hget
    cases hk : d.kind with
    | compound =>
      cases hi : d.initial with
      | none => exact .inl (by simp [hd, hk, hi])
      | some c => exact .inr (.inl ⟨d, c, rfl, hi, by simp [hd, hk, hi]⟩)
    | parallel => exact .inr (.inr (by simp [hd, hk]))
    | atomic => exact .inl (by simp [hd, hk])
    | history => exact .inl (by simp [hd, hk])
    | final => exact .inl (by simp [hd, hk])

theorem mem_ids_of_mem_defaults (h : c ∈ defn.defaults s) : c ∈ defn.ids := by
  obtain hnone | ⟨d, i, hd, hi, hone⟩ | hkids := defn.defaults_cases s
  · simp [hnone] at h
  · rw [hone, mem_singleton] at h
    exact h ▸ mem_ids_of_initial hd hi
  · exact children_subset (hkids ▸ h)

/-! ## Fuel -/

/-- With as much fuel as there are states, a search ends if it ever does. -/
theorem ends_ids_iff {next : String → List String} (hclosed : ∀ a, ∀ b ∈ next a, b ∈ defn.ids)
    (hnone : ∀ a, a ∉ defn.ids → next a = []) (a : String) :
    Ends next defn.ids.length a ↔ Acc (fun b a => b ∈ next a) a := by
  by_cases ha : a ∈ defn.ids
  · have hcard : defn.ids.toFinset.card = defn.ids.length := toFinset_card_of_nodup defn.states.nodup
    rw [← hcard]
    exact (acc_iff_ends (fun a _ b hb => List.mem_toFinset.mpr (hclosed a b hb)) (List.mem_toFinset.mpr ha)).symm
  · refine iff_of_true ?_ (Acc.intro a fun b hb => by simp [hnone a ha] at hb)
    obtain ⟨n, hn⟩ : ∃ n, defn.ids.length = n + 1 :=
      ⟨_, (Nat.succ_pred_eq_of_pos (length_pos_of_mem defn.root_mem_ids)).symm⟩
    rw [hn]
    intro b hb
    simp [hnone a ha] at hb

/-! ## Along parent links -/

/-- The chain of a declared state: the state alone, or the state and the chain of its parent. -/
theorem ancestorsFrom_cases (hs : s ∈ defn.ids) (h : defn.ancestorsFrom (n + 1) s = some l) :
    (defn.parents s = [] ∧ l = [s]) ∨ ∃ p l', defn.parents s = [p] ∧ p ∈ defn.ids ∧ defn.ancestorsFrom n p = some l' ∧
        l = s :: l' := by
  obtain ⟨d, hd⟩ := mem_ids.mp hs
  unfold ancestorsFrom at h
  rw [hd] at h
  rw [parents_eq hd]
  cases hp : d.parent with
  | none =>
    simp only [hp, some.injEq] at h
    exact .inl ⟨rfl, h.symm⟩
  | some p =>
    simp only [hp, map_eq_some_iff] at h
    obtain ⟨l', hl', rfl⟩ := h
    exact .inr ⟨p, l', rfl, mem_ids_of_parent hd hp, hl', rfl⟩

/-- The chain of a declared state is a search along parent links. -/
theorem ancestorsFrom_eq (hs : s ∈ defn.ids) :
    defn.ancestorsFrom n s = preorder defn.parents n s := by
  induction n generalizing s with
  | zero => rfl
  | succ n ih =>
    obtain ⟨d, hd⟩ := mem_ids.mp hs
    rw [ancestorsFrom, preorder, hd, parents_eq hd]
    cases hp : d.parent with
    | none => simp [hp]
    | some p =>
      have hchain := ih (mem_ids_of_parent hd hp)
      cases hrest : preorder defn.parents n p with
      | none => simp [hp, hchain, hrest]
      | some l => simp [hp, hchain, hrest]

theorem ancestorsInclusive_of_notMem (hs : s ∉ defn.ids) : defn.ancestorsInclusive s = some [] := by
  have hpos : defn.ids.length ≠ 0 := (length_pos_of_mem defn.root_mem_ids).ne'
  obtain ⟨n, hn⟩ := Nat.exists_eq_succ_of_ne_zero hpos
  rw [ancestorsInclusive, hn, ancestorsFrom, get?_eq_none_iff.mpr hs]

theorem ancestorsInclusive_isSome : (defn.ancestorsInclusive s).isSome ↔ defn.ChainEnds s := by
  by_cases hs : s ∈ defn.ids
  · rw [ancestorsInclusive, ancestorsFrom_eq hs, preorder_isSome]
    refine ends_ids_iff (fun a p hp => mem_ids_of_mem_parents hp) (fun a ha => ?_) s
    exact parents_of_none (get?_eq_none_iff.mpr ha)
  · refine iff_of_true (by simp [ancestorsInclusive_of_notMem hs]) (Acc.intro s fun p hp => ?_)
    simp [parents_of_none (get?_eq_none_iff.mpr hs)] at hp

theorem mem_ancestorsInclusive (hs : s ∈ defn.ids) (h : defn.ancestorsInclusive s = some l) :
    x ∈ l ↔ defn.Within s x := by
  rw [ancestorsInclusive, ancestorsFrom_eq hs] at h
  exact mem_preorder h

theorem Within.mem_ids (h : defn.Within s a) (hs : s ∈ defn.ids) : a ∈ defn.ids := by
  induction h with
  | refl => exact hs
  | tail _ hp _ => exact mem_ids_of_mem_parents hp

theorem Within.trans (hab : defn.Within a b) (hbc : defn.Within b c) : defn.Within a c :=
  Relation.ReflTransGen.trans hab hbc

/-- Two ancestors of a state are ancestors of one another. -/
theorem Within.total (ha : defn.Within s a) (hb : defn.Within s b) : defn.Within a b ∨ defn.Within b a :=
  Relation.ReflTransGen.total_of_right_unique parents_rightUnique ha hb

theorem Within.chainEnds (h : defn.Within s a) (hs : defn.ChainEnds s) : defn.ChainEnds a :=
  Acc.of_reach hs h

/-- The parent links of a state end if those of an ancestor do. -/
theorem Within.chainEnds_below (h : defn.Within s a) (ha : defn.ChainEnds a) : defn.ChainEnds s :=
  Acc.of_within parents_rightUnique ha h

theorem Within.antisymm (hab : defn.Within a b) (hba : defn.Within b a) (h : defn.ChainEnds a) : a = b :=
  Acc.antisymm h hab hba

/-- A state that is within another one and not that one is within it by way of its parent. -/
theorem Within.parent (h : defn.Within s a) (hne : s ≠ a) (hp : p ∈ defn.parents s) : defn.Within p a :=
  Relation.ReflTransGen.of_up parents_rightUnique h hne hp

theorem within_root (hs : s ∈ defn.ids) (h : defn.ChainEnds s) : defn.Within s defn.root := by
  induction h with
  | intro s _ ih =>
    cases hp : defn.parents s with
    | nil =>
      rw [eq_root_of_parents hs hp]
      exact .refl
    | cons p ps =>
      have hmem : p ∈ defn.parents s := by simp [hp]
      exact .head hmem (ih p hmem (mem_ids_of_mem_parents hmem))

theorem chainEnds_root (defn : ChartDef) : defn.ChainEnds defn.root :=
  Acc.intro _ fun p hp => by simp [parents_root] at hp

/-- What a chain comes through before `top`. -/
theorem mem_takeWhile_ancestorsFrom (hs : s ∈ defn.ids) (hends : defn.ChainEnds s)
    (h : defn.ancestorsFrom n s = some l) :
    x ∈ l.takeWhile (· ≠ top) ↔ defn.Within s x ∧ ¬ (defn.Within s top ∧ defn.Within top x) := by
  induction n generalizing s l with
  | zero => cases h
  | succ n ih =>
    by_cases htop : s = top
    · subst htop
      -- the chain begins with `top`, and nothing is both below and above it
      have hnil : l.takeWhile (· ≠ s) = [] := by
        obtain ⟨_, rfl⟩ | ⟨p, l', _, _, _, rfl⟩ := ancestorsFrom_cases hs h <;> simp
      rw [hnil]
      exact iff_of_false (by simp) fun hx => hx.2 ⟨.refl, hx.1⟩
    · have hself : ¬ (defn.Within s top ∧ defn.Within top s) := fun hx => htop (hx.1.antisymm hx.2 hends)
      obtain ⟨hnone, rfl⟩ | ⟨p, l', hp, hpids, hl', rfl⟩ := ancestorsFrom_cases hs h
      -- the chain ends here
      · have honly : ∀ a, defn.Within s a → a = s := by
          intro a ha
          obtain rfl | ⟨q, hq, _⟩ := Relation.ReflTransGen.cases_head ha
          · rfl
          · simp [hnone] at hq
        rw [takeWhile_cons_of_pos (by simpa using htop), takeWhile_nil, mem_singleton]
        constructor
        · rintro rfl
          exact ⟨.refl, hself⟩
        · exact fun hx => honly x hx.1
      · have hmem : p ∈ defn.parents s := by simp [hp]
        -- above `s` is what is above its parent
        have hstep : ∀ a, defn.Within s a ↔ a = s ∨ defn.Within p a := by
          intro a
          constructor
          · intro ha
            by_cases hsa : s = a
            · exact .inl hsa.symm
            · exact .inr (ha.parent hsa hmem)
          · rintro (rfl | ha)
            · exact .refl
            · exact .head hmem ha
        rw [takeWhile_cons_of_pos (by simpa using htop), mem_cons, ih hpids (hends.inv hmem) hl', hstep x, hstep top]
        constructor
        · rintro (rfl | ⟨hx, hnot⟩)
          · exact ⟨.inl rfl, by rwa [← hstep top]⟩
          · exact ⟨.inr hx, fun hxt => hnot ⟨hxt.1.resolve_left fun heq => htop heq.symm, hxt.2⟩⟩
        · rintro ⟨rfl | hx, hnot⟩
          · exact .inl rfl
          · exact .inr ⟨hx, fun hxt => hnot ⟨.inr hxt.1, hxt.2⟩⟩

/-- The path to a state below `top`: its ancestors that are not ancestors of `top` as well. -/
theorem mem_pathBelow {target : String} {path : List String} (hs : target ∈ defn.ids)
    (h : defn.pathBelow top target = some path) :
    x ∈ path ↔ defn.Within target x ∧ ¬ (defn.Within target top ∧ defn.Within top x) := by
  obtain ⟨chain, hchain, rfl⟩ := map_eq_some_iff.mp h
  rw [mem_reverse]
  exact mem_takeWhile_ancestorsFrom hs (ancestorsInclusive_isSome.mp (by simp [hchain])) hchain

/-- What is found first on a chain is within whatever else could have been found. -/
theorem within_of_find {y : String} {q : String → Bool} (hs : s ∈ defn.ids) (h : defn.ancestorsFrom n s = some l)
    (hx : l.find? q = some x) (hy : defn.Within s y) (hqy : q y) : defn.Within x y := by
  induction n generalizing s l with
  | zero => cases h
  | succ n ih =>
    by_cases hqs : q s
    · have hxs : x = s := by
        obtain ⟨_, rfl⟩ | ⟨p, l', _, _, _, rfl⟩ := ancestorsFrom_cases hs h <;>
          simpa [hqs, eq_comm] using hx
      rwa [hxs]
    · have hne : s ≠ y := fun heq => hqs (heq ▸ hqy)
      obtain ⟨hnone, rfl⟩ | ⟨p, l', hp, hpids, hl', rfl⟩ := ancestorsFrom_cases hs h
      · simp [hqs] at hx
      · rw [find?_cons_of_neg hqs] at hx
        exact ih hpids hl' hx (hy.parent hne (by simp [hp]))

/-- The least common ancestor of two states whose parent links end. -/
theorem lca_spec (ha : a ∈ defn.ids) (hb : b ∈ defn.ids) (h : defn.lca a b = some top) :
    defn.Within a top ∧ defn.Within b top ∧
      ∀ x, defn.Within a x → defn.Within b x → defn.Within top x := by
  obtain ⟨ancA, hancA, h⟩ := bind_eq_some_iff.mp h
  obtain ⟨ancB, hancB, rfl⟩ := map_eq_some_iff.mp h
  have hroot : ∀ s l, s ∈ defn.ids → defn.ancestorsInclusive s = some l → defn.root ∈ l := by
    intro s l hs hl
    exact (mem_ancestorsInclusive hs hl).mpr (within_root hs (ancestorsInclusive_isSome.mp (by simp [hl])))
  cases hfind : ancB.find? (· ∈ ancA) with
  | none =>
    have hnot := find?_eq_none.mp hfind defn.root (hroot b ancB hb hancB)
    exact absurd (hroot a ancA ha hancA) (by simpa using hnot)
  | some x =>
    have hxA : x ∈ ancA := by simpa using find?_some hfind
    refine ⟨(mem_ancestorsInclusive ha hancA).mp hxA,
      (mem_ancestorsInclusive hb hancB).mp (mem_of_find?_eq_some hfind), fun y hya hyb => ?_⟩
    exact within_of_find hb hancB hfind hyb (by simpa using (mem_ancestorsInclusive ha hancA).mpr hya)

theorem isProperDescendant_eq_some {anc : String} {b : Bool} (hs : s ∈ defn.ids)
    (h : defn.isProperDescendant s anc = some b) : b ↔ s ≠ anc ∧ defn.Within s anc := by
  unfold isProperDescendant at h
  split at h
  · next heq =>
    cases h
    simp [heq]
  · next hne =>
    obtain ⟨l, hl, rfl⟩ := map_eq_some_iff.mp h
    simp [hne, mem_ancestorsInclusive hs hl]

theorem mem_properDescendants {states below : Finset String} {anc : String} (hstates : ∀ s ∈ states, s ∈ defn.ids)
    (h : defn.properDescendants states anc = some below) : s ∈ below ↔ s ∈ states ∧ s ≠ anc ∧ defn.Within s anc := by
  unfold properDescendants at h
  split at h
  · next hsome =>
    cases h
    rw [Finset.mem_filter]
    refine and_congr_right fun hs => ?_
    obtain ⟨b, hb⟩ := isSome_iff_exists.mp (hsome s hs)
    rw [← isProperDescendant_eq_some (hstates s hs) hb, hb]
    simp
  · cases h

/-! ## Default entry -/

/-- Default entry is a search. -/
theorem enterFrom_eq : defn.enterFrom n s = preorder defn.defaults n s := by
  induction n generalizing s with
  | zero => rfl
  | succ n ih =>
    have hfun : defn.enterFrom n = preorder defn.defaults n := funext fun c => ih
    rw [enterFrom, preorder]
    cases hget : defn.get? s with
    | none => simp [defaults_of_none hget]
    | some d =>
      rw [defaults_eq hget]
      cases hk : d.kind with
      | compound =>
        cases hi : d.initial with
        | none => simp [hk, hi]
        | some i =>
          rw [hfun]
          cases hrest : preorder defn.defaults n i with
          | none => simp [hk, hi, hrest]
          | some l => simp [hk, hi, hrest]
      | parallel => simp [hk, hfun]
      | atomic => simp [hk]
      | history => simp [hk]
      | final => simp [hk]

theorem enterSubtree_isSome : (defn.enterSubtree s).isSome ↔ defn.DescentEnds s := by
  rw [enterSubtree, enterFrom_eq, preorder_isSome]
  refine ends_ids_iff (fun a c hc => mem_ids_of_mem_defaults hc) (fun a ha => ?_) s
  exact defaults_of_none (get?_eq_none_iff.mpr ha)

theorem mem_enterSubtree (h : defn.enterSubtree s = some l) :
    c ∈ l ↔ defn.Falls s c := by
  rw [enterSubtree, enterFrom_eq] at h
  exact mem_preorder h

theorem Falls.mem_ids (h : defn.Falls s c) (hs : s ∈ defn.ids) : c ∈ defn.ids := by
  induction h with
  | refl => exact hs
  | tail _ hc _ => exact mem_ids_of_mem_defaults hc

end ChartDef

end LazilyPy.Chart

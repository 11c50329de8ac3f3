import LazilyPy.Chart.Machine
import LazilyPy.Chart.Tree

/-!
# What a step does

The candidates, the plan and the recordings of a step, for proofs that do not look inside them.
-/

namespace LazilyPy.Chart

open Option
open List hiding Disjoint

structure Plan.Of (p : Plan) (l : List (Candidate × Finset String × Finset String)) : Prop where
  taken : p.taken = l.map Prod.fst
  exit : ∀ s, s ∈ p.exit ↔ ∃ x ∈ l, s ∈ x.2.1
  enter : ∀ s, s ∈ p.enter ↔ ∃ x ∈ l, s ∈ x.2.2
  disjoint : l.Pairwise fun x y => Disjoint x.2.1 y.2.1

theorem Plan.Of.empty : Plan.Of {} [] :=
  ⟨rfl, by simp, by simp, .nil⟩

variable {p : Plan} {l : List (Candidate × Finset String × Finset String)}
  {x : Candidate × Finset String × Finset String}

theorem Plan.Of.mem_taken (h : p.Of l) (hx : x ∈ l) : x.1 ∈ p.taken := by
  rw [h.taken]
  exact List.mem_map_of_mem hx

/-- A candidate is left out, or it comes to those that are taken. -/
theorem Plan.Of.accept (h : p.Of l) (x : Candidate × Finset String × Finset String) :
    p.accept x = p ∨ (p.accept x).Of (l ++ [x]) := by
  unfold Plan.accept
  split
  · exact .inl rfl
  · next hmeet =>
    have hdisj : Disjoint x.2.1 p.exit := Finset.disjoint_iff_inter_eq_empty.mpr (not_not.mp hmeet)
    refine .inr ⟨by simp [h.taken], fun s => ?_, fun s => ?_, ?_⟩
    · rw [Finset.mem_union, h.exit]
      simp [or_and_right, exists_or]
    · rw [Finset.mem_union, h.enter]
      simp [or_and_right, exists_or]
    · refine pairwise_append.mpr ⟨h.disjoint, pairwise_singleton _ _, ?_⟩
      intro y hy z hz
      obtain rfl := mem_singleton.mp hz
      refine Finset.disjoint_left.mpr fun s hsy hsz => ?_
      exact Finset.disjoint_left.mp hdisj hsz ((h.exit s).mpr ⟨y, hy, hsy⟩)

theorem Plan.Of.foldl (h : p.Of l) (offers : List (Candidate × Finset String × Finset String)) :
    ∃ l', (offers.foldl Plan.accept p).Of (l ++ l') ∧ l'.Sublist offers := by
  induction offers generalizing p l with
  | nil => exact ⟨[], by simpa using h, Sublist.refl _⟩
  | cons x offers ih =>
    rw [foldl_cons]
    obtain heq | haccept := h.accept x
    · rw [heq]
      obtain ⟨l', hl', hsub⟩ := ih h
      exact ⟨l', hl', hsub.cons x⟩
    · obtain ⟨l', hl', hsub⟩ := ih haccept
      exact ⟨x :: l', by simpa using hl', hsub.cons_cons x⟩

theorem Plan.Of.disjoint_of_ne (h : p.Of l) {y : Candidate × Finset String × Finset String} (hx : x ∈ l)
    (hy : y ∈ l) (hne : x ≠ y) : Disjoint x.2.1 y.2.1 := by
  have hsymm : Std.Symm fun x y : Candidate × Finset String × Finset String =>
      Disjoint x.2.1 y.2.1 := ⟨fun _ _ hxy => hxy.symm⟩
  exact h.disjoint.forall hx hy hne

namespace ChartDef

variable {defn : ChartDef} {i : Input} {st : StateChart}

/-! ## Candidates -/

variable {config : Finset String}

theorem mem_candidates {cs : List Candidate} (h : defn.candidates i config = some cs) {c : Candidate} :
    c ∈ cs ↔ ∃ leaf ∈ i.walk config, defn.isLeaf leaf ∧
        defn.candidate i.event i.guards leaf = some (some c) := by
  obtain ⟨l, hl, rfl⟩ := map_eq_some_iff.mp h
  rw [reduceOption_mem_iff]
  constructor
  · intro hc
    obtain ⟨leaf, hleaf, heq⟩ := exists_of_mem_mapM hl hc
    obtain ⟨hmem, hisLeaf⟩ := mem_filter.mp hleaf
    exact ⟨leaf, hmem, hisLeaf, heq⟩
  · rintro ⟨leaf, hmem, hisLeaf, heq⟩
    obtain ⟨b, hb, heq'⟩ := mem_mapM_of_mem hl (mem_filter.mpr ⟨hmem, hisLeaf⟩)
    rw [heq] at heq'
    cases heq'
    exact hb

/-- The source of a candidate is an ancestor of its leaf and declares its transition. -/
theorem candidate_spec {event : String} {guards : String → Bool} {leaf : String} {c : Candidate}
    (h : defn.candidate event guards leaf = some (some c)) : c.leaf = leaf ∧
      (∃ chain, defn.ancestorsInclusive leaf = some chain ∧ c.source ∈ chain) ∧
      ∃ d t, defn.get? c.source = some d ∧ d.transitions.get? event = some t ∧ c.transition = t.2 := by
  obtain ⟨chain, hchain, hfind⟩ := map_eq_some_iff.mp h
  obtain ⟨anc, hanc, hd⟩ := exists_of_findSome?_eq_some hfind
  obtain ⟨d, hget, hd⟩ := bind_eq_some_iff.mp hd
  obtain ⟨t, ht, hc⟩ := bind_eq_some_iff.mp hd
  split at hc
  · cases hc
    exact ⟨rfl, ⟨chain, hchain, hanc⟩, d, t, hget, ht, rfl⟩
  · cases hc

/-! ## Plans -/

/-- What a plan takes: offers made by active leaves. -/
theorem plan_spec {p : Plan} (h : defn.plan i st = some p) :
    ∃ l, p.Of l ∧ ∀ x ∈ l, (∃ leaf ∈ i.walk st.config, defn.isLeaf leaf ∧
        defn.candidate i.event i.guards leaf = some (some x.1)) ∧
      defn.computeExitEnter x.1 st.config st.history = some x.2 := by
  obtain ⟨offers, hoffers, rfl⟩ := map_eq_some_iff.mp h
  obtain ⟨cs, hcs, hmap⟩ := bind_eq_some_iff.mp hoffers
  obtain ⟨l, hl, hsub⟩ := Plan.Of.empty.foldl offers
  refine ⟨l, by simpa using hl, fun x hx => ?_⟩
  obtain ⟨c, hc, hx⟩ := exists_of_mem_mapM hmap (hsub.subset hx)
  obtain ⟨sets, hsets, rfl⟩ := map_eq_some_iff.mp hx
  rw [mem_insertionSort] at hc
  exact ⟨(mem_candidates hcs).mp hc, hsets⟩

/-- A step rejects its event, or it carries out a plan. -/
theorem send_cases {b : Bool} {st' : StateChart} (h : defn.send i st = some (b, st')) :
    (b = false ∧ st'.config = st.config ∧ st'.history = st.history ∧ st'.lastActions = []) ∨
      ∃ p, defn.plan i st = some p ∧ p.taken ≠ [] ∧ b = true ∧ st'.config = (st.config \ p.exit) ∪ p.enter ∧
        defn.recordAll (i.walk p.exit) st.config st.history = some st'.history ∧
        st'.lastActions = defn.actionsOf p := by
  obtain ⟨p, hp, h⟩ := bind_eq_some_iff.mp h
  split at h
  · cases h
    exact .inl ⟨rfl, rfl, rfl, rfl⟩
  · next htaken =>
    obtain ⟨history, hhistory, heq⟩ := map_eq_some_iff.mp h
    cases heq
    exact .inr ⟨p, hp, htaken, rfl, rfl, hhistory, rfl⟩

/-! ## Recordings -/

/-- A recording of a region leaves every history state as it is but that of the region, which may get
what is active in the region. -/
theorem recordRegion_cases {region hist : String} {history history' : History}
    (h : defn.recordRegion region hist config history = some history') :
    history' = history ∨ (∃ kid ∈ defn.children region, kid ∈ config ∧ defn.kind kid ≠ some .history ∧
        history' = Function.update history hist (some (.child kid))) ∨
      ∃ below, defn.properDescendants config region = some below ∧
        history' = Function.update history hist (some (.deepSet below)) := by
  unfold recordRegion at h
  split at h
  · cases h
    exact .inl rfl
  · split at h
    · cases h
      exact .inl rfl
    · split at h
      · split at h
        · next kid hfind =>
          cases h
          have hkid := find?_some hfind
          simp only [decide_eq_true_eq] at hkid
          exact .inr (.inl ⟨kid, mem_of_find?_eq_some hfind, hkid.1, hkid.2, rfl⟩)
        · cases h
          exact .inl rfl
      · obtain ⟨below, hbelow, rfl⟩ := map_eq_some_iff.mp h
        exact .inr (.inr ⟨below, hbelow, rfl⟩)

theorem recordAll_cons {region : String} {regions : List String} {history : History} :
    defn.recordAll (region :: regions) config history = (match defn.historyChildOf region with
        | some hist => defn.recordRegion region hist config history
        | none => some history).bind (defn.recordAll regions config) := by
  simp only [recordAll, foldlM_cons, bind_eq_bind]
  rfl

end ChartDef

def History.Holds (history : History) (P : String → Recording → Prop) : Prop :=
  ∀ hist r, history hist = some r → P hist r

theorem History.Holds.update {history : History} {P : String → Recording → Prop}
    (h : history.Holds P) {hist : String} {r : Recording} (hr : P hist r) :
    History.Holds (Function.update history hist (some r)) P := by
  intro hist' r' heq
  by_cases hh : hist' = hist
  · subst hh
    rw [Function.update_self] at heq
    cases heq
    exact hr
  · rw [Function.update_of_ne hh] at heq
    exact h hist' r' heq

namespace ChartDef

variable {defn : ChartDef} {i : Input} {st : StateChart}

variable {region hist : String} {history : History} {c : Candidate}

/-- A region is the parent of its history state. -/
theorem eq_of_historyChildOf {r : String} (h : defn.historyChildOf region = some hist) (hr : r ∈ defn.parents hist) :
    r = region :=
  parents_unique hr (mem_parents_iff_children.mpr (mem_of_find?_eq_some h))

/-- A step records children and descendants of regions that it leaves. -/
theorem recordAll_holds {P : String → Recording → Prop} {regions : List String} {config : Finset String}
    {history' : History} (h : defn.recordAll regions config history = some history') (hinit : history.Holds P)
    (hchild : ∀ region ∈ regions, ∀ hist, defn.historyChildOf region = some hist →
      ∀ kid ∈ defn.children region, kid ∈ config → defn.kind kid ≠ some .history → P hist (.child kid))
    (hdeep : ∀ region ∈ regions, ∀ hist, defn.historyChildOf region = some hist →
      ∀ below, defn.properDescendants config region = some below → P hist (.deepSet below)) :
    history'.Holds P := by
  induction regions generalizing history with
  | nil =>
    cases h
    exact hinit
  | cons region regions ih =>
    rw [recordAll_cons] at h
    obtain ⟨next, hnext, hrest⟩ := bind_eq_some_iff.mp h
    -- the first recording keeps what holds, and the rest goes on from there
    refine ih hrest ?_ (fun r hr => hchild r (mem_cons_of_mem _ hr)) (fun r hr => hdeep r (mem_cons_of_mem _ hr))
    cases hhist : defn.historyChildOf region with
    | none =>
      rw [hhist] at hnext
      cases hnext
      exact hinit
    | some hist =>
      rw [hhist] at hnext
      obtain rfl | ⟨kid, hkid, hactive, hkind, rfl⟩ | ⟨below, hbelow, rfl⟩ := recordRegion_cases hnext
      · exact hinit
      · exact hinit.update (hchild region mem_cons_self hist hhist kid hkid hactive hkind)
      · exact hinit.update (hdeep region mem_cons_self hist hhist below hbelow)

/-! ## Transitions -/

theorem regionOf_mem_ids (hist : String) : defn.regionOf hist ∈ defn.ids := by
  unfold regionOf truthy
  cases hp : ((defn.get? hist).bind StateDef.parent).filter (· ≠ "") with
  | none => exact defn.root_mem_ids
  | some p =>
    obtain ⟨hp, _⟩ := filter_eq_some_iff.mp hp
    obtain ⟨d, hd, hp⟩ := bind_eq_some_iff.mp hp
    exact mem_ids_of_parent hd hp

theorem startOf_mem_ids {start : String} (h : defn.startOf hist region = some start) :
    start ∈ defn.ids := by
  obtain h | ⟨_, h⟩ := or_eq_some_iff.mp h
  · obtain ⟨h, _⟩ := filter_eq_some_iff.mp h
    obtain ⟨d, hd, hs⟩ := bind_eq_some_iff.mp h
    exact mem_ids_of_default hd hs
  · obtain ⟨d, hd, hs⟩ := bind_eq_some_iff.mp h
    exact mem_ids_of_initial hd hs

/-- The states on the way from `top` to a state, without `top`. -/
def OnPath (defn : ChartDef) (top target x : String) : Prop :=
  defn.Within target x ∧ ¬ (defn.Within target top ∧ defn.Within top x)

/-- A history state restores what it has recorded, or else enters where it starts. -/
theorem mem_restoreViaHistory {x : String} {states : Finset String}
    (h : defn.restoreViaHistory history hist region = some states) :
    x ∈ states ↔ match history hist with
      | none => ∃ start, defn.startOf hist region = some start ∧ (defn.OnPath region start x ∨ defn.Falls start x)
      | some (.child kid) => defn.Falls kid x
      | some (.deepSet recorded) => x ∈ recorded := by
  unfold restoreViaHistory at h
  cases hhist : history hist with
  | none =>
    rw [hhist] at h
    cases hstart : defn.startOf hist region with
    | none =>
      simp only [hstart, some.injEq] at h
      simp [← h]
    | some start =>
      simp only [hstart] at h
      obtain ⟨path, hpath, h⟩ := bind_eq_some_iff.mp h
      obtain ⟨sub, hsub, rfl⟩ := map_eq_some_iff.mp h
      simp [mem_pathBelow (startOf_mem_ids hstart) hpath, mem_enterSubtree hsub, OnPath]
  | some recording =>
    rw [hhist] at h
    cases recording with
    | child kid =>
      obtain ⟨sub, hsub, rfl⟩ := map_eq_some_iff.mp h
      rw [Finset.mem_insert, List.mem_toFinset, mem_enterSubtree hsub]
      refine ⟨?_, .inr⟩
      rintro (rfl | hx)
      · exact .refl
      · exact hx
    | deepSet recorded =>
      cases h
      rfl

/-- What a transition enters: the way to its target or the region of its target, and from there on. -/
theorem mem_enters {top target x : String} {enter : Finset String} (htarget : target ∈ defn.ids)
    (h : defn.enters top target history = some enter) :
    x ∈ enter ↔ if defn.kind target = some .history then
        defn.OnPath top (defn.regionOf target) x ∨
          ∃ below, defn.restoreViaHistory history target (defn.regionOf target) = some below ∧ x ∈ below
      else defn.OnPath top target x ∨ defn.Falls target x := by
  unfold enters at h
  split at h
  · next hk =>
    obtain ⟨path, hpath, h⟩ := bind_eq_some_iff.mp h
    obtain ⟨below, hbelow, rfl⟩ := map_eq_some_iff.mp h
    simp [hk, mem_pathBelow (regionOf_mem_ids target) hpath, hbelow, OnPath]
  · next hk =>
    obtain ⟨path, hpath, h⟩ := bind_eq_some_iff.mp h
    obtain ⟨sub, hsub, rfl⟩ := map_eq_some_iff.mp h
    simp [hk, mem_pathBelow htarget hpath, mem_enterSubtree hsub, OnPath]

/-- What a transition exits: the active states below its domain. -/
theorem computeExitEnter_spec {config : Finset String} {sets : Finset String × Finset String}
    (hconfig : ∀ s ∈ config, s ∈ defn.ids) (h : defn.computeExitEnter c config history = some sets) :
    ∃ top, defn.domain c = some top ∧ (∀ s, s ∈ sets.1 ↔ s ∈ config ∧ s ≠ top ∧ defn.Within s top) ∧
      defn.enters top c.transition.target history = some sets.2 := by
  obtain ⟨top, htop, h⟩ := bind_eq_some_iff.mp h
  obtain ⟨exit, hexit, h⟩ := bind_eq_some_iff.mp h
  obtain ⟨enter, henter, rfl⟩ := map_eq_some_iff.mp h
  exact ⟨top, htop, fun s => mem_properDescendants hconfig hexit, henter⟩

theorem target_mem_ids {event : String} {guards : String → Bool} {leaf : String}
    (h : defn.candidate event guards leaf = some (some c)) : c.transition.target ∈ defn.ids := by
  obtain ⟨_, _, d, t, hd, ht, heq⟩ := candidate_spec h
  rw [heq]
  exact mem_ids_of_transition hd ht

/-- The leaf of a candidate is within the domain. -/
theorem within_domain {event : String} {guards : String → Bool} {leaf top : String}
    (h : defn.candidate event guards leaf = some (some c)) (hleaf : leaf ∈ defn.ids)
    (htop : defn.domain c = some top) : defn.Within leaf top := by
  obtain ⟨rfl, ⟨chain, hchain, hsource⟩, _⟩ := candidate_spec h
  obtain ⟨internal, _, htop⟩ := bind_eq_some_iff.mp htop
  split at htop
  · cases htop
    exact (mem_ancestorsInclusive hleaf hchain).mp hsource
  · exact (lca_spec hleaf (target_mem_ids h) htop).1

end ChartDef

/-- What is known of a candidate that a step takes, with what it exits and enters, and of its domain. -/
structure Taken (defn : ChartDef) (i : Input) (st : StateChart)
    (x : Candidate × Finset String × Finset String) (top : String) : Prop where
  active : x.1.leaf ∈ st.config
  isLeaf : defn.isLeaf x.1.leaf
  candidate : defn.candidate i.event i.guards x.1.leaf = some (some x.1)
  within : defn.Within x.1.leaf top
  domain : defn.domain x.1 = some top
  exit : ∀ s, s ∈ x.2.1 ↔ s ∈ st.config ∧ s ≠ top ∧ defn.Within s top
  enter : defn.enters top x.1.transition.target st.history = some x.2.2

/-- Two transitions of one leaf are one, and enter the same. -/
theorem Taken.eq_of_leaf {defn : ChartDef} {i : Input} {st : StateChart}
    {y : Candidate × Finset String × Finset String} {top top' : String} (hx : Taken defn i st x top)
    (hy : Taken defn i st y top') (h : x.1.leaf = y.1.leaf) :
    x.1 = y.1 ∧ top = top' ∧ x.2.2 = y.2.2 := by
  have hc : x.1 = y.1 := by
    have heq := hx.candidate
    rw [h, hy.candidate] at heq
    simpa using heq.symm
  have htop : top = top' := by
    have heq := hx.domain
    rw [hc, hy.domain] at heq
    simpa using heq.symm
  refine ⟨hc, htop, ?_⟩
  have heq := hx.enter
  rw [hc, htop, hy.enter] at heq
  simpa using heq.symm

/-- A transition that exits nothing stays within its leaf. -/
theorem Taken.leaf_eq {defn : ChartDef} {i : Input} {st : StateChart} {top : String} (hx : Taken defn i st x top)
    (h : x.2.1 = ∅) : x.1.leaf = top := by
  by_contra hne
  have hmem := (hx.exit x.1.leaf).mpr ⟨hx.active, hne, hx.within⟩
  simp [h] at hmem

/-! ## Declared states -/

def Recording.states : Recording → Finset String
  | .child kid => {kid}
  | .deepSet states => states

structure Declared (defn : ChartDef) (st : StateChart) : Prop where
  config : ∀ s ∈ st.config, s ∈ defn.ids
  history : st.history.Holds fun _ r => ∀ s ∈ r.states, s ∈ defn.ids

namespace ChartDef

variable {defn : ChartDef} {i : Input} {st : StateChart}

theorem OnPath.mem_ids {top target x : String} (h : defn.OnPath top target x)
    (htarget : target ∈ defn.ids) : x ∈ defn.ids :=
  h.1.mem_ids htarget

theorem declared_new (h : defn.new = some st) : Declared defn st := by
  obtain ⟨entered, hentered, rfl⟩ := map_eq_some_iff.mp h
  refine ⟨fun s hs => ?_, nofun⟩
  exact ((mem_enterSubtree hentered).mp (List.mem_toFinset.mp hs)).mem_ids defn.root_mem_ids

/-- A transition enters declared states. -/
theorem mem_ids_of_mem_enters (hdecl : Declared defn st) {top target x : String}
    {enter : Finset String} (htarget : target ∈ defn.ids)
    (h : defn.enters top target st.history = some enter) (hx : x ∈ enter) : x ∈ defn.ids := by
  have hmem := (mem_enters htarget h).mp hx
  split at hmem
  · obtain hpath | ⟨below, hbelow, hx⟩ := hmem
    · exact hpath.mem_ids (regionOf_mem_ids target)
    · have hrestored := (mem_restoreViaHistory hbelow).mp hx
      cases hhist : st.history target with
      | none =>
        rw [hhist] at hrestored
        obtain ⟨start, hstart, hpath | hfalls⟩ := hrestored
        · exact hpath.mem_ids (startOf_mem_ids hstart)
        · exact hfalls.mem_ids (startOf_mem_ids hstart)
      | some r =>
        rw [hhist] at hrestored
        have hids := hdecl.history target r hhist
        cases r with
        | child kid => exact Falls.mem_ids hrestored (hids kid (by simp [Recording.states]))
        | deepSet recorded => exact hids x hrestored
  · obtain hpath | hfalls := hmem
    · exact hpath.mem_ids htarget
    · exact hfalls.mem_ids htarget

theorem declared_send (hdecl : Declared defn st) {b : Bool} {st' : StateChart}
    (h : defn.send i st = some (b, st')) : Declared defn st' := by
  obtain ⟨_, hconfig, hhistory, _⟩ | ⟨p, hp, _, _, hconfig, hhistory, _⟩ := send_cases h
  · exact ⟨hconfig ▸ hdecl.config, hhistory ▸ hdecl.history⟩
  · obtain ⟨l, hof, hl⟩ := plan_spec hp
    constructor
    · intro s hs
      rw [hconfig, Finset.mem_union, Finset.mem_sdiff] at hs
      obtain ⟨hs, _⟩ | hs := hs
      · exact hdecl.config s hs
      · obtain ⟨x, hx, hs⟩ := (hof.enter s).mp hs
        obtain ⟨⟨leaf, _, _, hc⟩, hsets⟩ := hl x hx
        obtain ⟨top, _, _, henters⟩ := computeExitEnter_spec hdecl.config hsets
        exact mem_ids_of_mem_enters hdecl (target_mem_ids hc) henters hs
    · refine recordAll_holds hhistory hdecl.history ?_ ?_
      · intro region _ hist _ kid hkid _ _ s hs
        rw [Recording.states, Finset.mem_singleton] at hs
        exact hs ▸ children_subset hkid
      · intro region _ hist _ below hbelow s hs
        exact hdecl.config s ((mem_properDescendants hdecl.config hbelow).mp hs).1

/-- A step takes candidates of active leaves. -/
theorem plan_taken {p : Plan} (h : defn.plan i st = some p) (hdecl : Declared defn st)
    (hwalk : ∀ s ∈ i.walk st.config, s ∈ st.config) :
    ∃ l, p.Of l ∧ ∀ x ∈ l, ∃ top, Taken defn i st x top := by
  obtain ⟨l, hof, hl⟩ := plan_spec h
  refine ⟨l, hof, fun x hx => ?_⟩
  obtain ⟨⟨leaf, hleaf, hisLeaf, hc⟩, hsets⟩ := hl x hx
  obtain ⟨top, htop, hexit, henter⟩ := computeExitEnter_spec hdecl.config hsets
  obtain rfl := (candidate_spec hc).1
  have hactive := hwalk _ hleaf
  have hwithin := within_domain hc (hdecl.config _ hactive) htop
  exact ⟨top, hactive, hisLeaf, hc, hwithin, htop, hexit, henter⟩

/-- What a step exits is active, and what it enters is declared. -/
theorem plan_sets (hdecl : Declared defn st) {p : Plan}
    {l : List (Candidate × Finset String × Finset String)} (hof : p.Of l)
    (hl : ∀ x ∈ l, ∃ top, Taken defn i st x top) :
    p.exit ⊆ st.config ∧ ∀ s ∈ p.enter, s ∈ defn.ids := by
  constructor
  · intro s hs
    obtain ⟨x, hx, hxs⟩ := (hof.exit s).mp hs
    obtain ⟨top, htx⟩ := hl x hx
    exact ((htx.exit s).mp hxs).1
  · intro s hs
    obtain ⟨x, hx, hxs⟩ := (hof.enter s).mp hs
    obtain ⟨top, htx⟩ := hl x hx
    exact mem_ids_of_mem_enters hdecl (target_mem_ids htx.candidate) htx.enter hxs

/-! ## Runs -/

/-- What a step keeps holds throughout a run. -/
theorem run_induction {P : StateChart → Prop} (hnew : ∀ st, defn.new = some st → P st) {inputs : List Input}
    (hsend : ∀ i ∈ inputs, ∀ st b st', P st → defn.send i st = some (b, st') → P st')
    (h : defn.run inputs = some st) : P st := by
  induction inputs using reverseRecOn generalizing st with
  | nil => exact hnew st h
  | append_singleton inputs i ih =>
    rw [run_concat] at h
    obtain ⟨before, hbefore, h⟩ := bind_eq_some_iff.mp h
    obtain ⟨⟨b, after⟩, hafter, rfl⟩ := map_eq_some_iff.mp h
    have hP := ih (fun j hj => hsend j (mem_append_left _ hj)) hbefore
    exact hsend i (mem_append_right _ (mem_singleton_self i)) before b after hP hafter

theorem declared_run {inputs : List Input} (h : defn.run inputs = some st) : Declared defn st :=
  run_induction (fun _ => declared_new) (fun _ _ _ _ _ hdecl => declared_send hdecl) h

end ChartDef

end LazilyPy.Chart

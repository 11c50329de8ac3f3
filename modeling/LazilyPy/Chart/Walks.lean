import LazilyPy.Chart.Parse
import LazilyPy.Chart.Steps
import LazilyPy.Lib.Throughout

/-!
# Walks that end

Which steps of a chart return. The interpreter follows parent links and default entry without any bound
of its own; a chart may have cycles in either.
-/

namespace LazilyPy.Chart

open List Option

namespace ChartDef

variable (defn : ChartDef)

/-- What is entered for a target: the target itself, or what a history state restores. -/
def EntryEnds (target : String) (history : History) : Prop :=
  if defn.kind target = some .history then
    match history target with
    | none => ∀ start, defn.startOf target (defn.regionOf target) = some start →
        defn.ChainEnds start ∧ defn.DescentEnds start
    | some (.child kid) => defn.DescentEnds kid
    | some (.deepSet _) => True
  else defn.DescentEnds target

/-- The parent links of the active leaves end, and if one of them has an enabled transition, those of all
active states and of the target end, and so does what is entered for the target. -/
def Walkable (i : Input) (st : StateChart) : Prop :=
  (∀ leaf ∈ st.config, defn.isLeaf leaf → defn.ChainEnds leaf) ∧ ∀ leaf ∈ st.config, defn.isLeaf leaf →
      ∀ c, defn.candidate i.event i.guards leaf = some (some c) →
        (∀ s ∈ st.config, defn.ChainEnds s) ∧ defn.ChainEnds c.transition.target ∧
          defn.EntryEnds c.transition.target st.history

def Enumerates (walk : Finset String → List String) : Prop :=
  ∀ states : Finset String, (∀ s ∈ states, s ∈ defn.ids) → (walk states).Nodup ∧ ∀ s, s ∈ walk states ↔ s ∈ states

def inOrder (states : Finset String) : List String :=
  defn.ids.filter (· ∈ states)

variable {defn}

/-- An event for which no guard holds, where sets are walked in the order of declaration. -/
def signal (defn : ChartDef) (event : String) : Input :=
  ⟨event, fun _ => false, defn.inOrder⟩

theorem enumerates_inOrder (defn : ChartDef) : defn.Enumerates defn.inOrder := by
  intro states hstates
  refine ⟨defn.states.nodup.filter _, fun s => ?_⟩
  simp only [inOrder, mem_filter, decide_eq_true_eq]
  exact ⟨And.right, fun hs => ⟨hstates s hs, hs⟩⟩

theorem enumerates_signal (events : List String) : ∀ i ∈ events.map defn.signal, defn.Enumerates i.walk := by
  intro i hi
  obtain ⟨event, _, rfl⟩ := List.mem_map.mp hi
  exact defn.enumerates_inOrder

/-- The parent links of an ancestor end as well. -/
theorem chainEnds_of_mem {s x : String} {l : List String} (h : defn.ancestorsInclusive s = some l)
    (hx : x ∈ l) : defn.ChainEnds x := by
  by_cases hs : s ∈ defn.ids
  · exact ((mem_ancestorsInclusive hs h).mp hx).chainEnds (ancestorsInclusive_isSome.mp (by simp [h]))
  · rw [ancestorsInclusive_of_notMem hs] at h
    cases h
    cases hx

/-! ## What each function walks -/

theorem isProperDescendant_isSome {desc anc : String} :
    (defn.isProperDescendant desc anc).isSome ↔ desc = anc ∨ defn.ChainEnds desc := by
  unfold isProperDescendant
  split
  · next h => simp [h]
  · next h => simp [h, ancestorsInclusive_isSome]

theorem properDescendants_isSome {states : Finset String} {anc : String} :
    (defn.properDescendants states anc).isSome ↔ ∀ s ∈ states, s = anc ∨ defn.ChainEnds s := by
  unfold properDescendants
  split
  · next h => exact iff_of_true rfl fun s hs => isProperDescendant_isSome.mp (h s hs)
  · next h => exact iff_of_false nofun fun hall => h fun s hs => isProperDescendant_isSome.mpr (hall s hs)

variable {top hist : String} {c : Candidate} {history : History} {config : Finset String} {i : Input}

theorem pathBelow_isSome {target : String} : (defn.pathBelow top target).isSome ↔ defn.ChainEnds target := by
  rw [pathBelow, isSome_map, ancestorsInclusive_isSome]

theorem lca_isSome {a b : String} (ha : defn.ChainEnds a) : (defn.lca a b).isSome ↔ defn.ChainEnds b := by
  obtain ⟨l, hl⟩ := isSome_iff_exists.mp (ancestorsInclusive_isSome.mpr ha)
  rw [lca, hl, bind_some, isSome_map, ancestorsInclusive_isSome]

theorem chainEnds_of_lca {a b : String} (h : defn.lca a b = some top) : defn.ChainEnds top := by
  obtain ⟨ancA, _, h⟩ := bind_eq_some_iff.mp h
  obtain ⟨ancB, hancB, rfl⟩ := map_eq_some_iff.mp h
  cases hfind : ancB.find? (· ∈ ancA) with
  | none => exact defn.chainEnds_root
  | some x => exact chainEnds_of_mem hancB (mem_of_find?_eq_some hfind)

/-- The domain of a candidate needs the parent links of the target. -/
theorem domain_isSome (hleaf : defn.ChainEnds c.leaf) (hsource : defn.ChainEnds c.source) :
    (defn.domain c).isSome ↔ defn.ChainEnds c.transition.target := by
  unfold domain isInternal
  split
  · split
    · next h => simpa [h] using hsource
    · next h =>
      unfold isProperDescendant
      rw [if_neg h]
      constructor
      -- an internal transition walks up from the target to look for its source
      · intro hsome
        rw [← ancestorsInclusive_isSome]
        cases hanc : defn.ancestorsInclusive c.transition.target with
        | none => simp [hanc] at hsome
        | some l => rfl
      · intro htarget
        obtain ⟨l, hl⟩ := isSome_iff_exists.mp (ancestorsInclusive_isSome.mpr htarget)
        rw [hl, map_some, bind_some]
        split
        · rfl
        · exact (lca_isSome hleaf).mpr htarget
  · exact lca_isSome hleaf

theorem chainEnds_of_domain (hsource : defn.ChainEnds c.source) (h : defn.domain c = some top) :
    defn.ChainEnds top := by
  obtain ⟨internal, _, h⟩ := bind_eq_some_iff.mp h
  split at h
  · cases h
    exact hsource
  · exact chainEnds_of_lca h

theorem chainEnds_regionOf (h : defn.ChainEnds hist) : defn.ChainEnds (defn.regionOf hist) := by
  unfold regionOf truthy
  cases hp : ((defn.get? hist).bind StateDef.parent).filter (· ≠ "") with
  | none => exact defn.chainEnds_root
  | some p =>
    obtain ⟨hp, _⟩ := filter_eq_some_iff.mp hp
    exact h.inv (by simp [parents, hp])

theorem restoreViaHistory_isSome {region : String} :
    (defn.restoreViaHistory history hist region).isSome ↔ match history hist with
      | none => ∀ start, defn.startOf hist region = some start → defn.ChainEnds start ∧ defn.DescentEnds start
      | some (.child kid) => defn.DescentEnds kid
      | some (.deepSet _) => True := by
  unfold restoreViaHistory
  cases hhist : history hist with
  | none =>
    cases hstart : defn.startOf hist region with
    | none => simp
    | some start =>
      have hpath : (defn.pathBelow region start).isSome ↔ defn.ChainEnds start := pathBelow_isSome
      simp only [some.injEq, forall_eq', ← hpath, ← enterSubtree_isSome]
      cases defn.pathBelow region start <;> simp
  | some recording =>
    cases recording with
    | child kid => simp [enterSubtree_isSome]
    | deepSet states => simp

/-- Entering for a target needs what the target enters to end. -/
theorem enters_isSome {target : String} (h : defn.ChainEnds target) :
    (defn.enters top target history).isSome ↔ defn.EntryEnds target history := by
  have hpath : ∀ s, defn.ChainEnds s → ∃ path, defn.pathBelow top s = some path :=
    fun s hs => isSome_iff_exists.mp (pathBelow_isSome.mpr hs)
  unfold enters EntryEnds
  split
  · obtain ⟨path, hpath⟩ := hpath (defn.regionOf target) (chainEnds_regionOf h)
    rw [hpath, bind_some, isSome_map]
    exact restoreViaHistory_isSome
  · obtain ⟨path, hpath⟩ := hpath target h
    rw [hpath, bind_some, isSome_map, enterSubtree_isSome]

theorem computeExitEnter_isSome (hleaf : defn.ChainEnds c.leaf) (hsource : defn.ChainEnds c.source) :
    (defn.computeExitEnter c config history).isSome ↔ (∀ s ∈ config, defn.ChainEnds s) ∧
      defn.ChainEnds c.transition.target ∧ defn.EntryEnds c.transition.target history := by
  unfold computeExitEnter
  by_cases htarget : defn.ChainEnds c.transition.target
  · obtain ⟨top, htop⟩ := isSome_iff_exists.mp ((domain_isSome hleaf hsource).mpr htarget)
    have hends := chainEnds_of_domain hsource htop
    have hexit : (defn.properDescendants config top).isSome ↔ ∀ s ∈ config, defn.ChainEnds s := by
      rw [properDescendants_isSome]
      refine forall₂_congr fun s _ => ⟨?_, .inr⟩
      rintro (rfl | h)
      · exact hends
      · exact h
    have henters : (defn.enters top c.transition.target history).isSome ↔
        defn.EntryEnds c.transition.target history := enters_isSome htarget
    rw [htop, bind_some, ← hexit, ← henters]
    cases defn.properDescendants config top <;> simp [htarget]
  · refine iff_of_false ?_ fun h => htarget h.2.1
    have hnone : defn.domain c = none := by
      rw [← not_isSome_iff_eq_none, domain_isSome hleaf hsource]
      exact htarget
    simp [hnone]

/-! ## Steps -/

theorem candidate_isSome {event : String} {guards : String → Bool} {leaf : String} :
    (defn.candidate event guards leaf).isSome ↔ defn.ChainEnds leaf := by
  rw [candidate, isSome_map, ancestorsInclusive_isSome]

theorem candidates_isSome (hwalk : ∀ s, s ∈ i.walk config ↔ s ∈ config) :
    (defn.candidates i config).isSome ↔ ∀ leaf ∈ config, defn.isLeaf leaf → defn.ChainEnds leaf := by
  rw [candidates, isSome_map, mapM_isSome]
  simp only [mem_filter, and_imp, hwalk, candidate_isSome]

/-- The parent links of the source of a candidate end with those of its leaf. -/
theorem chainEnds_of_candidate {event : String} {guards : String → Bool} {leaf : String}
    (h : defn.candidate event guards leaf = some (some c)) :
    defn.ChainEnds c.leaf ∧ defn.ChainEnds c.source := by
  obtain ⟨rfl, ⟨chain, hchain, hsource⟩, _⟩ := candidate_spec h
  have hleaf := chainEnds_of_mem hchain hsource
  exact ⟨ancestorsInclusive_isSome.mp (by rw [hchain]; rfl), hleaf⟩

theorem offers_isSome {st : StateChart} (hwalk : ∀ s, s ∈ i.walk st.config ↔ s ∈ st.config) :
    (defn.offers i st).isSome ↔ defn.Walkable i st := by
  unfold Walkable
  rw [← candidates_isSome hwalk]
  cases hcs : defn.candidates i st.config with
  | none => simp [offers, hcs]
  | some cs =>
    rw [offers, hcs, bind_some, mapM_isSome]
    simp only [mem_insertionSort, mem_candidates hcs, isSome_map, isSome_some, true_and, hwalk]
    constructor
    · intro h leaf hleaf hisLeaf c hc
      obtain ⟨hends, hsource⟩ := chainEnds_of_candidate hc
      exact (computeExitEnter_isSome hends hsource).mp (h c ⟨leaf, hleaf, hisLeaf, hc⟩)
    · rintro h c ⟨leaf, hleaf, hisLeaf, hc⟩
      obtain ⟨hends, hsource⟩ := chainEnds_of_candidate hc
      exact (computeExitEnter_isSome hends hsource).mpr (h leaf hleaf hisLeaf c hc)

theorem recordRegion_isSome {region : String} (h : ∀ s ∈ config, defn.ChainEnds s) :
    (defn.recordRegion region hist config history).isSome := by
  unfold recordRegion
  split
  · rfl
  · split
    · rfl
    · split
      · split <;> rfl
      · rw [isSome_map, properDescendants_isSome]
        exact fun s hs => .inr (h s hs)

theorem recordAll_isSome {regions : List String} (h : ∀ s ∈ config, defn.ChainEnds s) :
    (defn.recordAll regions config history).isSome := by
  induction regions generalizing history with
  | nil => rfl
  | cons region regions ih =>
    rw [recordAll_cons]
    cases defn.historyChildOf region with
    | none => exact ih
    | some hist =>
      have hsome : (defn.recordRegion region hist config history).isSome := recordRegion_isSome h
      obtain ⟨next, hnext⟩ := isSome_iff_exists.mp hsome
      simpa only [hnext, bind_some] using ih

/-- A step returns exactly if it walks only where walks end. -/
theorem send_isSome_iff {st : StateChart} (hwalk : ∀ s, s ∈ i.walk st.config ↔ s ∈ st.config) :
    (defn.send i st).isSome ↔ defn.Walkable i st := by
  rw [← offers_isSome hwalk]
  constructor
  · intro h
    obtain ⟨r, hr⟩ := isSome_iff_exists.mp h
    obtain ⟨p, hp, _⟩ := bind_eq_some_iff.mp hr
    obtain ⟨l, hl, _⟩ := map_eq_some_iff.mp hp
    rw [hl]
    rfl
  · intro h
    obtain ⟨l, hl⟩ := isSome_iff_exists.mp h
    have hplan : defn.plan i st = some (l.foldl Plan.accept {}) := by rw [plan, hl, map_some]
    rw [send, hplan, bind_some]
    split
    · rfl
    · next htaken =>
      -- a transition has been taken, so the walks of its candidate came through every active state
      obtain ⟨adm, hof, hadm⟩ := plan_spec hplan
      have hne : adm ≠ [] := by
        rintro rfl
        exact htaken (by simpa using hof.taken)
      obtain ⟨x, hx⟩ := exists_mem_of_ne_nil _ hne
      obtain ⟨⟨leaf, hleaf, _, hc⟩, hsets⟩ := hadm x hx
      obtain ⟨hends, hsource⟩ := chainEnds_of_candidate hc
      have hconfig := ((computeExitEnter_isSome hends hsource).mp (by rw [hsets]; rfl)).1
      rw [isSome_map]
      exact recordAll_isSome hconfig

/-! ## Runs -/

/-- A run returns exactly if default entry of the root ends and every step walks only where this ends. -/
theorem run_isSome_iff {inputs : List Input} (hwalk : ∀ i ∈ inputs, defn.Enumerates i.walk) :
    (defn.run inputs).isSome ↔ defn.DescentEnds defn.root ∧
      Throughout (fun before i => ∀ st, defn.run before = some st → defn.Walkable i st) inputs := by
  induction inputs using reverseRecOn with
  | nil =>
    show (defn.new).isSome ↔ _
    rw [new, isSome_map, enterSubtree_isSome]
    exact ⟨fun h => ⟨h, throughout_nil⟩, And.left⟩
  | append_singleton inputs i ih =>
    have hprefix := ih fun j hj => hwalk j (mem_append_left _ hj)
    have hi := hwalk i (mem_append_right _ (mem_singleton_self i))
    rw [throughout_concat, ← and_assoc, ← hprefix, run_concat]
    cases hrun : defn.run inputs with
    | none => simp
    | some st =>
      have hlists := (hi st.config (declared_run hrun).config).2
      simp only [bind_some, isSome_map, send_isSome_iff hlists, isSome_some,
        true_and, some.injEq, forall_eq']

end ChartDef

def orbit : Value :=
  .dict [("initial", .str "a"), ("states", .dict [
    ("a", .dict [("on", .dict [("go", .str "b")])]),
    ("b", .dict [("parent", .str "c")]),
    ("c", .dict [("parent", .str "b")])])]

/-- An event for which the chart has no transition leaves the cycle alone. -/
theorem run_isSome_iff_orbit : ∃ defn, fromChart orbit = .ok defn ∧ defn.DescentEnds defn.root ∧ Throughout
      (fun before i => ∀ st, defn.run before = some st → defn.Walkable i st)
      (["stay"].map defn.signal) := by
  obtain ⟨defn, hdefn, hrun⟩ : ∃ defn, fromChart orbit = .ok defn ∧ (defn.run (["stay"].map defn.signal)).isSome := by
    apply accepted_of_test
    decide
  exact ⟨defn, hdefn, (ChartDef.run_isSome_iff (ChartDef.enumerates_signal _)).mp hrun⟩

/-- The event that leads to one of the two states does not return. -/
theorem not_every_run_returns : ¬ ∀ value defn, fromChart value = .ok defn →
    ∀ inputs : List Input, (∀ i ∈ inputs, defn.Enumerates i.walk) → (defn.run inputs).isSome := by
  intro h
  obtain ⟨defn, hdefn, hrun⟩ : ∃ defn, fromChart orbit = .ok defn ∧ (defn.run (["go"].map defn.signal)).isNone := by
    apply accepted_of_test
    decide
  have hsome := h orbit defn hdefn _ (ChartDef.enumerates_signal ["go"])
  rw [isNone_iff_eq_none.mp hrun] at hsome
  cases hsome

/-- A state that is its own initial state is entered for ever. -/
example : ∃ defn, fromChart (.dict [("initial", .str "a"),
    ("states", .dict [("a", .dict [("initial", .str "a")])])]) = .ok defn ∧ defn.new.isNone := by
  apply accepted_of_test
  decide

end LazilyPy.Chart

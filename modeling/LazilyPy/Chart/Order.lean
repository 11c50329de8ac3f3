import LazilyPy.Chart.Walks
import LazilyPy.Lib.SortedFold

/-!
# The order in which sets are walked

The candidates of a step come in the order in which the active states are walked, and are then sorted by
their sources. So only candidates of one source can come in two orders: an ancestor of several active
leaves whose transition each of them inherits. Where two of these exit different states, the first one
decides.
-/

namespace LazilyPy.Chart

open List Option

/-- The same event with the same guards. Sets may be walked in another order. -/
structure Input.Agree (i i' : Input) : Prop where
  event : i.event = i'.event
  guards : i.guards = i'.guards

structure Effects where
  exit : Finset String
  enter : Finset String
  transitions : List Transition

def Plan.effects (p : Plan) : Effects :=
  ⟨p.exit, p.enter, p.taken.map Candidate.transition⟩

def Effects.accept (e : Effects) (x : Candidate × Finset String × Finset String) : Effects :=
  if x.2.1 ∩ e.exit ≠ ∅ then e
  else ⟨e.exit ∪ x.2.1, e.enter ∪ x.2.2, e.transitions ++ [x.1.transition]⟩

theorem effects_accept (p : Plan) (x : Candidate × Finset String × Finset String) :
    (p.accept x).effects = p.effects.accept x := by
  unfold Plan.accept Effects.accept
  by_cases h : x.2.1 ∩ p.exit ≠ ∅
  · rw [if_pos h]
    exact (if_pos h).symm
  · rw [if_neg h]
    refine Eq.trans ?_ (if_neg h).symm
    simp [Plan.effects]

theorem effects_foldl (p : Plan) (l : List (Candidate × Finset String × Finset String)) :
    (l.foldl Plan.accept p).effects = l.foldl Effects.accept p.effects := by
  induction l generalizing p with
  | nil => rfl
  | cons x l ih => rw [foldl_cons, foldl_cons, ih, effects_accept]

theorem exit_subset_accept (e : Effects) (x : Candidate × Finset String × Finset String) :
    e.exit ⊆ (e.accept x).exit := by
  unfold Effects.accept
  split
  · exact Finset.Subset.refl _
  · exact Finset.subset_union_left

/-- Two candidates of one transition commute if one of them exits nothing, if both exit and enter the
same, or if one of them is in conflict anyway. -/
theorem accept_comm {e : Effects} {x y : Candidate × Finset String × Finset String}
    (ht : x.1.transition = y.1.transition) (h : x.2.1 = ∅ ∨ y.2.1 = ∅ ∨ x.2 = y.2 ∨
      x.2.1 ∩ e.exit ≠ ∅ ∨ y.2.1 ∩ e.exit ≠ ∅) :
    (e.accept x).accept y = (e.accept y).accept x := by
  have hpass : ∀ {e : Effects} {z : Candidate × Finset String × Finset String},
      z.2.1 ∩ e.exit ≠ ∅ → e.accept z = e := fun hz => if_pos hz
  have htake : ∀ {e : Effects} {z : Candidate × Finset String × Finset String}, z.2.1 ∩ e.exit = ∅ → e.accept z =
        ⟨e.exit ∪ z.2.1, e.enter ∪ z.2.2, e.transitions ++ [z.1.transition]⟩ :=
    fun hz => if_neg (not_not.mpr hz)
  have hkeep : ∀ {z w : Candidate × Finset String × Finset String},
      z.2.1 ∩ e.exit ≠ ∅ → z.2.1 ∩ (e.accept w).exit ≠ ∅ := by
    intro z w hz hnone
    refine hz (Finset.subset_empty.mp ?_)
    rw [← hnone]
    exact Finset.inter_subset_inter_left (exit_subset_accept e w)
  by_cases hx : x.2.1 ∩ e.exit = ∅
  · by_cases hy : y.2.1 ∩ e.exit = ∅
    · -- neither keeps the other one out
      have hmerge : x.2.1 ∩ (e.accept y).exit = ∅ → y.2.1 ∩ (e.accept x).exit = ∅ →
          (e.accept x).accept y = (e.accept y).accept x := by
        intro hxy hyx
        rw [htake hyx, htake hxy, htake hx, htake hy]
        simp [ht, Finset.union_assoc, Finset.union_comm x.2.1, Finset.union_comm x.2.2]
      obtain hempty | hempty | heq | hconf | hconf := h
      · exact hmerge (by simp [hempty]) (by simpa [htake hx, hempty] using hy)
      · exact hmerge (by simpa [htake hy, hempty] using hx) (by simp [hempty])
      · have hsame : ∀ e : Effects, e.accept x = e.accept y := by
          intro e
          simp only [Effects.accept, heq, ht]
        rw [hsame]
        exact (hsame _).symm
      · exact absurd hx hconf
      · exact absurd hy hconf
    · rw [hpass hy, hpass (hkeep hy)]
  · rw [hpass hx, hpass (hkeep hx)]

namespace ChartDef

variable (defn : ChartDef)

def exitsBelow (config : Finset String) (top : String) : Finset String :=
  config.filter fun s => defn.isProperDescendant s top = some true

/-- Two candidates of one source that both exit something exit the same, or one of them is in conflict
with a transition that is tried before. -/
def Unambiguous (i : Input) (st : StateChart) : Prop :=
  ∀ p ∈ defn.plan i st, ∀ cs ∈ defn.candidates i st.config, ∀ c ∈ cs, ∀ c' ∈ cs,
    c.source = c'.source → ∀ top ∈ defn.domain c, ∀ top' ∈ defn.domain c',
      defn.exitsBelow st.config top ≠ ∅ → defn.exitsBelow st.config top' ≠ ∅ →
        top = top' ∨ ∃ d ∈ p.taken, ¬ defn.Before c d ∧ ∃ other ∈ defn.domain d, defn.exitsBelow st.config other ∩
            (defn.exitsBelow st.config top ∪ defn.exitsBelow st.config top') ≠ ∅

instance (i : Input) (st : StateChart) : Decidable (defn.Unambiguous i st) :=
  inferInstanceAs (Decidable (∀ p ∈ defn.plan i st, ∀ cs ∈ defn.candidates i st.config,
    ∀ c ∈ cs, ∀ c' ∈ cs, c.source = c'.source → ∀ top ∈ defn.domain c, ∀ top' ∈ defn.domain c',
      defn.exitsBelow st.config top ≠ ∅ → defn.exitsBelow st.config top' ≠ ∅ →
        top = top' ∨ ∃ d ∈ p.taken, ¬ defn.Before c d ∧ ∃ other ∈ defn.domain d, defn.exitsBelow st.config other ∩
            (defn.exitsBelow st.config top ∪ defn.exitsBelow st.config top') ≠ ∅))

variable {defn} {i i' : Input} {st : StateChart}

/-! ## Sorting -/

theorem before_refl (c : Candidate) : defn.Before c c :=
  .inr ⟨rfl, le_refl _⟩

theorem before_total (c c' : Candidate) : defn.Before c c' ∨ defn.Before c' c := by
  unfold Before
  omega

theorem before_trans (c c' c'' : Candidate) (h : defn.Before c c') (h' : defn.Before c' c'') : defn.Before c c'' := by
  unfold Before at *
  omega

variable {c : Candidate} {cs : List Candidate} {o : List (Candidate × Finset String × Finset String)}
  {x : Candidate × Finset String × Finset String}

/-- Candidates that the sort does not tell apart have one source. -/
theorem source_eq_of_before {c' : Candidate} (hc : c.source ∈ defn.ids) (h : defn.Before c c')
    (h' : defn.Before c' c) : c.source = c'.source := by
  have horder : defn.order c.source = defn.order c'.source := by
    unfold Before at h h'
    omega
  exact (idxOf_inj hc).mp horder

theorem pairwise_sorted (cs : List Candidate) : (cs.insertionSort defn.Before).Pairwise defn.Before := by
  have htotal : Std.Total defn.Before := ⟨before_total⟩
  have htrans : IsTrans Candidate defn.Before := ⟨before_trans⟩
  exact pairwise_insertionSort defn.Before cs

/-! ## Candidates and offers -/

/-- Two lists of the members of one set. -/
theorem walk_perm (hwalk : defn.Enumerates i.walk) (hwalk' : defn.Enumerates i'.walk)
    {states : Finset String} (hstates : ∀ s ∈ states, s ∈ defn.ids) :
    (i.walk states).Perm (i'.walk states) := by
  obtain ⟨hnodup, hmem⟩ := hwalk states hstates
  obtain ⟨hnodup', hmem'⟩ := hwalk' states hstates
  refine (perm_ext_iff_of_nodup hnodup hnodup').mpr fun s => ?_
  rw [hmem, hmem']

theorem candidates_perm (hagree : i.Agree i') {config : Finset String}
    (hwalk : (i.walk config).Perm (i'.walk config)) (h : defn.candidates i config = some cs) :
    ∃ cs', defn.candidates i' config = some cs' ∧ cs.Perm cs' := by
  obtain ⟨l, hl, rfl⟩ := map_eq_some_iff.mp h
  obtain ⟨l', hl', hperm⟩ := perm_mapM (hwalk.filter defn.isLeaf) hl
  refine ⟨l'.reduceOption, ?_, hperm.filterMap id⟩
  rw [candidates, ← hagree.event, ← hagree.guards, hl', map_some]

theorem offers_perm (hagree : i.Agree i') (hwalk : (i.walk st.config).Perm (i'.walk st.config))
    (h : defn.offers i st = some o) :
    ∃ o', defn.offers i' st = some o' ∧ o.Perm o' := by
  obtain ⟨cs, hcs, hmap⟩ := bind_eq_some_iff.mp h
  obtain ⟨cs', hcs', hperm⟩ := candidates_perm hagree hwalk hcs
  have hsorted : (cs.insertionSort defn.Before).Perm (cs'.insertionSort defn.Before) :=
    (perm_insertionSort _ cs).trans (hperm.trans (perm_insertionSort _ cs').symm)
  obtain ⟨o', ho', hperm'⟩ := perm_mapM hsorted hmap
  exact ⟨o', by rw [offers, hcs', bind_some, ho'], hperm'⟩

/-- Offers are sorted by the sources of their candidates. -/
theorem offers_sorted (h : defn.offers i st = some o) : o.Pairwise fun x y => defn.Before x.1 y.1 := by
  obtain ⟨cs, hcs, hmap⟩ := bind_eq_some_iff.mp h
  refine pairwise_mapM hmap (pairwise_sorted cs) fun c c' x y hcc hx hy => ?_
  obtain ⟨_, _, rfl⟩ := map_eq_some_iff.mp hx
  obtain ⟨_, _, rfl⟩ := map_eq_some_iff.mp hy
  exact hcc

/-- An offer is made by a candidate, and exits what is below its domain. -/
theorem mem_offers (h : defn.offers i st = some o) (hx : x ∈ o) :
    (∃ cs, defn.candidates i st.config = some cs ∧ x.1 ∈ cs) ∧
      ∃ top, defn.domain x.1 = some top ∧ x.2.1 = defn.exitsBelow st.config top ∧
        defn.enters top x.1.transition.target st.history = some x.2.2 := by
  obtain ⟨cs, hcs, hmap⟩ := bind_eq_some_iff.mp h
  obtain ⟨c, hc, hx⟩ := exists_of_mem_mapM hmap hx
  obtain ⟨sets, hsets, rfl⟩ := map_eq_some_iff.mp hx
  refine ⟨⟨cs, hcs, (mem_insertionSort _).mp hc⟩, ?_⟩
  obtain ⟨top, htop, hsets⟩ := bind_eq_some_iff.mp hsets
  obtain ⟨exit, hexit, hsets⟩ := bind_eq_some_iff.mp hsets
  obtain ⟨enter, henter, rfl⟩ := map_eq_some_iff.mp hsets
  refine ⟨top, htop, ?_, henter⟩
  unfold properDescendants at hexit
  split at hexit
  · exact (some.inj hexit).symm
  · cases hexit

/-- Candidates of one source have one transition. -/
theorem transition_eq (h : defn.candidates i st.config = some cs) {c' : Candidate} (hc : c ∈ cs) (hc' : c' ∈ cs)
    (hsource : c.source = c'.source) :
    c.transition = c'.transition := by
  obtain ⟨leaf, _, _, hleaf⟩ := (mem_candidates h).mp hc
  obtain ⟨leaf', _, _, hleaf'⟩ := (mem_candidates h).mp hc'
  obtain ⟨_, _, d, t, hd, ht, heq⟩ := candidate_spec hleaf
  obtain ⟨_, _, d', t', hd', ht', heq'⟩ := candidate_spec hleaf'
  rw [hsource, hd'] at hd
  cases hd
  rw [ht'] at ht
  cases ht
  rw [heq, heq']

theorem source_mem_ids (h : defn.candidates i st.config = some cs) (hc : c ∈ cs) : c.source ∈ defn.ids := by
  obtain ⟨leaf, _, _, hleaf⟩ := (mem_candidates h).mp hc
  obtain ⟨_, _, d, _, hd, _⟩ := candidate_spec hleaf
  exact mem_ids.mpr ⟨d, hd⟩

/-! ## Plans -/

/-- A transition that is taken and comes before an offer has exited what it exits by then. -/
theorem exit_subset_of_before (h : defn.offers i st = some o) {d : Candidate}
    (hd : d ∈ (o.foldl Plan.accept {}).taken) (hbefore : ¬ defn.Before x.1 d) {top : String}
    (htop : defn.domain d = some top) : defn.exitsBelow st.config top ⊆
      ((o.filter fun y => ¬ defn.Before x.1 y.1).foldl Plan.accept {}).exit := by
  have hsplit := filter_before_append (r := fun x y => defn.Before x.1 y.1)
    (fun x y z => before_trans x.1 y.1 z.1) (offers_sorted h) x
  obtain ⟨l, hof, hsub⟩ := Plan.Of.empty.foldl (o.filter fun y => ¬ defn.Before x.1 y.1)
  obtain ⟨l', hof', hsub'⟩ := hof.foldl (o.filter fun y => defn.Before x.1 y.1)
  rw [← foldl_append, hsplit] at hof'
  rw [hof'.taken] at hd
  obtain ⟨y, hy, rfl⟩ := List.mem_map.mp hd
  obtain hy | hy := mem_append.mp hy
  · have hmem : y ∈ o := mem_of_mem_filter (hsub.subset (by simpa using hy))
    obtain ⟨_, top', htop', hexit, _⟩ := mem_offers h hmem
    obtain rfl : top = top' := some.inj (htop.symm.trans htop')
    intro s hs
    exact (hof.exit s).mpr ⟨y, hy, hexit ▸ hs⟩
  · have hafter := (mem_filter.mp (hsub'.subset hy)).2
    exact absurd (of_decide_eq_true hafter) hbefore

/-- Offers that are not told apart commute from where those before them lead. -/
theorem offers_comm (h : defn.offers i st = some o) (hun : defn.Unambiguous i st)
    {y : Candidate × Finset String × Finset String} (hx : x ∈ o) (hy : y ∈ o) (hxy : defn.Before x.1 y.1)
    (hyx : defn.Before y.1 x.1) {e : Effects}
    (he : ((o.filter fun z => ¬ defn.Before x.1 z.1).foldl Plan.accept {}).exit ⊆ e.exit) :
    (e.accept y).accept x = (e.accept x).accept y := by
  obtain ⟨⟨cs, hcs, hxcs⟩, top, htop, hxexit, hxenter⟩ := mem_offers h hx
  obtain ⟨⟨cs', hcs', hycs⟩, top', htop', hyexit, hyenter⟩ := mem_offers h hy
  obtain rfl : cs = cs' := some.inj (hcs.symm.trans hcs')
  have hsource := source_eq_of_before (source_mem_ids hcs hxcs) hxy hyx
  have htransition := transition_eq hcs hxcs hycs hsource
  refine (accept_comm htransition ?_).symm
  by_cases hxnone : x.2.1 = ∅
  · exact .inl hxnone
  by_cases hynone : y.2.1 = ∅
  · exact .inr (.inl hynone)
  have hplan : defn.plan i st = some (o.foldl Plan.accept {}) := by rw [plan, h, map_some]
  obtain rfl | ⟨d, hd, hbefore, other, hother, hmeet⟩ := hun _ hplan cs hcs x.1 hxcs y.1 hycs
    hsource top htop top' htop' (hxexit ▸ hxnone) (hyexit ▸ hynone)
  · have henter : x.2.2 = y.2.2 := by
      rw [htransition, hyenter] at hxenter
      exact (some.inj hxenter).symm
    exact .inr (.inr (.inl (Prod.ext (hxexit.trans hyexit.symm) henter)))
  · -- one of them meets what has been exited already
    have hgone := (exit_subset_of_before h hd hbefore hother).trans he
    obtain ⟨s, hs⟩ := Finset.nonempty_iff_ne_empty.mpr hmeet
    obtain ⟨hsother, hs⟩ := Finset.mem_inter.mp hs
    rw [← hxexit, ← hyexit] at hs
    obtain hs | hs := Finset.mem_union.mp hs
    · refine .inr (.inr (.inr (.inl (Finset.ne_empty_of_mem (a := s) ?_))))
      exact Finset.mem_inter.mpr ⟨hs, hgone hsother⟩
    · refine .inr (.inr (.inr (.inr (Finset.ne_empty_of_mem (a := s) ?_))))
      exact Finset.mem_inter.mpr ⟨hs, hgone hsother⟩

/-- Plans have the same effects in whatever order sets are walked. -/
theorem plan_effects (hagree : i.Agree i') (hwalk : (i.walk st.config).Perm (i'.walk st.config))
    (hun : defn.Unambiguous i st) {p : Plan} (hp : defn.plan i st = some p) :
    ∃ p', defn.plan i' st = some p' ∧ p.effects = p'.effects := by
  obtain ⟨o, ho, rfl⟩ := map_eq_some_iff.mp hp
  obtain ⟨o', ho', hperm⟩ := offers_perm hagree hwalk ho
  refine ⟨o'.foldl Plan.accept {}, by rw [plan, ho', map_some], ?_⟩
  rw [effects_foldl, effects_foldl]
  refine foldl_eq_of_sorted (r := fun x y => defn.Before x.1 y.1) (m := Effects.exit)
    (fun x => before_refl x.1) (fun x y z => before_trans x.1 y.1 z.1)
    (fun e x => exit_subset_accept e x) hperm (offers_sorted ho) (offers_sorted ho') ?_
  intro x hx y hy hxy hyx e he
  refine offers_comm ho hun hx hy hxy hyx ?_
  rwa [← effects_foldl] at he

/-! ## Recordings -/

/-- What is recorded of a region does not depend on earlier recordings. -/
theorem recordRegion_eq (defn : ChartDef) (region hist : String) (config : Finset String) :
    ∃ recording : Option (Option Recording), ∀ history, defn.recordRegion region hist config history = recording.map fun
        | none => history
        | some r => Function.update history hist (some r) := by
  unfold recordRegion
  split
  · exact ⟨some none, fun _ => rfl⟩
  · split
    · exact ⟨some none, fun _ => rfl⟩
    · split
      · split
        · next kid _ => exact ⟨some (some (.child kid)), fun _ => rfl⟩
        · exact ⟨some none, fun _ => rfl⟩
      · cases defn.properDescendants config region with
        | none => exact ⟨none, fun _ => rfl⟩
        | some below => exact ⟨some (some (.deepSet below)), fun _ => rfl⟩

/-- A region has a history state of its own, so recordings of two regions do not interfere. -/
theorem recordRegion_comm {region region' hist hist' : String} {config : Finset String}
    (hregion : defn.historyChildOf region = some hist)
    (hregion' : defn.historyChildOf region' = some hist') (history : History) :
    (defn.recordRegion region hist config history).bind (defn.recordRegion region' hist' config) =
      (defn.recordRegion region' hist' config history).bind
        (defn.recordRegion region hist config) := by
  by_cases hne : hist = hist'
  · have hparent := mem_parents_iff_children.mpr (mem_of_find?_eq_some hregion)
    have hparent' := mem_parents_iff_children.mpr (mem_of_find?_eq_some hregion')
    subst hne
    rw [parents_unique hparent hparent']
  -- both record what is active, so neither sees what the other one records
  · obtain ⟨recording, heq⟩ := recordRegion_eq defn region hist config
    obtain ⟨recording', heq'⟩ := recordRegion_eq defn region' hist' config
    have hfun : defn.recordRegion region hist config = _ := funext heq
    have hfun' : defn.recordRegion region' hist' config = _ := funext heq'
    rw [hfun, hfun']
    cases recording with
    | none => cases recording' <;> rfl
    | some r =>
      cases recording' with
      | none => rfl
      | some r' =>
        cases r with
        | none => cases r' <;> rfl
        | some r =>
          cases r' with
          | none => rfl
          | some r' =>
            simp only [map_some, bind_some, some.injEq]
            exact Function.update_comm hne _ _ _

def recordOne (defn : ChartDef) (config : Finset String) (region : String) (history : History) : Option History :=
  match defn.historyChildOf region with
  | some hist => defn.recordRegion region hist config history
  | none => some history

theorem recordOne_comm (config : Finset String) (region region' : String) (history : History) :
    (defn.recordOne config region history).bind (defn.recordOne config region') =
      (defn.recordOne config region' history).bind (defn.recordOne config region) := by
  cases hhist : defn.historyChildOf region with
  | none =>
    have hskip : defn.recordOne config region = some := funext fun history => by
      rw [recordOne, hhist]
    rw [hskip, bind_some, bind_fun_some]
  | some hist =>
    cases hhist' : defn.historyChildOf region' with
    | none =>
      have hskip : defn.recordOne config region' = some := funext fun history => by
        rw [recordOne, hhist']
      rw [hskip, bind_some, bind_fun_some]
    | some hist' =>
      have hone : defn.recordOne config region = defn.recordRegion region hist config :=
        funext fun history => by rw [recordOne, hhist]
      have hone' : defn.recordOne config region' = defn.recordRegion region' hist' config :=
        funext fun history => by rw [recordOne, hhist']
      rw [hone, hone']
      exact recordRegion_comm hhist hhist' history

/-- Recordings do not depend on the order of the regions. -/
theorem recordAll_perm {regions regions' : List String} (h : regions.Perm regions')
    (config : Finset String) (history : History) :
    defn.recordAll regions config history = defn.recordAll regions' config history := by
  have hcons : ∀ region regions history, defn.recordAll (region :: regions) config history =
      (defn.recordOne config region history).bind (defn.recordAll regions config) :=
    fun _ _ _ => recordAll_cons
  induction h generalizing history with
  | nil => rfl
  | cons region _ ih =>
    rw [hcons, hcons]
    exact congrArg _ (funext ih)
  | swap region region' regions =>
    have htwo : ∀ a b, defn.recordAll (a :: b :: regions) config history =
        ((defn.recordOne config a history).bind (defn.recordOne config b)).bind
          (defn.recordAll regions config) := by
      intro a b
      rw [hcons, bind_assoc]
      exact congrArg _ (funext fun history => hcons b regions history)
    rw [htwo, htwo, recordOne_comm]
  | trans _ _ ih ih' => exact (ih history).trans (ih' history)

/-! ## Steps and runs -/

/-- The actions of a plan are those of its effects. -/
theorem actionsOf_congr {p p' : Plan} (h : p.effects = p'.effects) : defn.actionsOf p = defn.actionsOf p' := by
  have hactions : ∀ p : Plan, defn.actionsOf p = defn.exitActions (defn.exitOrder p.effects.exit) ++
        p.effects.transitions.flatMap Transition.action ++
        defn.entryActions (defn.entryOrder p.effects.enter) := by
    intro p
    simp only [actionsOf, Plan.effects, flatMap_map]
  rw [hactions, hactions, h]

/-- A step does not depend on the order in which sets are walked. -/
theorem send_eq (hdecl : Declared defn st) (hagree : i.Agree i') (hwalk : defn.Enumerates i.walk)
    (hwalk' : defn.Enumerates i'.walk) (hun : defn.Unambiguous i st) :
    defn.send i' st = defn.send i st := by
  have hactive := walk_perm hwalk hwalk' hdecl.config
  cases hp : defn.plan i st with
  | none =>
    -- a walk that does not end does not end in another order either
    have hp' : defn.plan i' st = none := by
      rw [plan, map_eq_none_iff] at hp ⊢
      by_contra hsome
      obtain ⟨o', ho'⟩ := ne_none_iff_exists'.mp hsome
      obtain ⟨o, ho, _⟩ := offers_perm ⟨hagree.event.symm, hagree.guards.symm⟩ hactive.symm ho'
      rw [hp] at ho
      cases ho
    rw [send, send, hp, hp', bind_none, bind_none]
  | some p =>
    obtain ⟨p', hp', heffects⟩ := plan_effects hagree hactive hun hp
    have hexit : p.exit = p'.exit := congrArg Effects.exit heffects
    have henter : p.enter = p'.enter := congrArg Effects.enter heffects
    have htaken : p.taken = [] ↔ p'.taken = [] := by
      have htransitions := congrArg Effects.transitions heffects
      simp only [Plan.effects] at htransitions
      rw [← map_eq_nil_iff (f := Candidate.transition), htransitions, map_eq_nil_iff]
    rw [send, send, hp, hp', bind_some, bind_some]
    by_cases hnone : p.taken = []
    · rw [if_pos hnone, if_pos (htaken.mp hnone)]
    · rw [if_neg hnone, if_neg (mt htaken.mpr hnone)]
      -- the same regions are left, and history is recorded in whatever order
      have hexitIds : ∀ s ∈ p.exit, s ∈ defn.ids := by
        obtain ⟨l, hof, hl⟩ := plan_taken hp hdecl fun s => ((hwalk _ hdecl.config).2 s).mp
        exact fun s hs => hdecl.config s ((plan_sets hdecl hof hl).1 hs)
      have hregions := walk_perm hwalk hwalk' hexitIds
      rw [← hexit, ← henter, recordAll_perm hregions, actionsOf_congr heffects]

theorem run_eq_of_agree {inputs inputs' : List Input} (hagree : Forall₂ Input.Agree inputs inputs')
    (hwalk : ∀ i ∈ inputs, defn.Enumerates i.walk) (hwalk' : ∀ i ∈ inputs', defn.Enumerates i.walk)
    (hun : Throughout (fun before i => ∀ st ∈ defn.run before, defn.Unambiguous i st) inputs) :
    defn.run inputs' = defn.run inputs := by
  induction inputs using reverseRecOn generalizing inputs' with
  | nil =>
    cases hagree
    rfl
  | append_singleton inputs i ih =>
    have hreverse := forall₂_reverse_iff.mpr hagree
    rw [reverse_append, reverse_singleton, singleton_append, forall₂_cons_left_iff] at hreverse
    -- the last inputs agree, and so do those before them
    obtain ⟨i', rest, hi, hrest, heq⟩ := hreverse
    have hsplit : inputs' = rest.reverse ++ [i'] := by
      rw [← reverse_reverse inputs', heq, reverse_cons]
    subst hsplit
    obtain ⟨hunBefore, hunLast⟩ := throughout_concat.mp hun
    have hbefore : defn.run rest.reverse = defn.run inputs := ih (by simpa using forall₂_reverse_iff.mpr hrest)
      (fun j hj => hwalk j (mem_append_left _ hj))
      (fun j hj => hwalk' j (mem_append_left _ hj)) hunBefore
    rw [run_concat, run_concat, hbefore]
    cases hrun : defn.run inputs with
    | none => rfl
    | some st =>
      rw [bind_some, bind_some, send_eq (declared_run hrun) hi
        (hwalk i (by simp)) (hwalk' i' (by simp)) (hunLast st hrun)]

/-- Two runs that differ only in the order in which sets are walked agree at every moment, if at each
step of the first one no two candidates compete. -/
theorem run_eq {inputs inputs' : List Input} (hagree : Forall₂ Input.Agree inputs inputs')
    (hwalk : ∀ i ∈ inputs, defn.Enumerates i.walk) (hwalk' : ∀ i ∈ inputs', defn.Enumerates i.walk)
    (hun : Throughout (fun before i => ∀ st ∈ defn.run before, defn.Unambiguous i st) inputs)
    (n : ℕ) : defn.run (inputs'.take n) = defn.run (inputs.take n) := by
  refine run_eq_of_agree (forall₂_take n hagree)
    (fun i hi => hwalk i (mem_of_mem_take hi))
    (fun i hi => hwalk' i (mem_of_mem_take hi)) ?_
  rw [← take_append_drop n inputs] at hun
  exact hun.of_append

/-- An event as `signal`, with sets walked the other way round. -/
def signalBack (defn : ChartDef) (event : String) : Input :=
  ⟨event, fun _ => false, fun states => (defn.inOrder states).reverse⟩

theorem enumerates_signalBack (events : List String) : ∀ i ∈ events.map defn.signalBack, defn.Enumerates i.walk := by
  intro i hi states hstates
  obtain ⟨event, _, rfl⟩ := List.mem_map.mp hi
  obtain ⟨hnodup, hmem⟩ := defn.enumerates_inOrder states hstates
  exact ⟨nodup_reverse.mpr hnodup, fun s => by rw [← hmem s]; exact mem_reverse⟩

theorem agree_signalBack (events : List String) :
    Forall₂ Input.Agree (events.map defn.signal) (events.map defn.signalBack) := by
  induction events with
  | nil => exact .nil
  | cons event events ih => exact .cons ⟨rfl, rfl⟩ ih

end ChartDef

/-- A mixer with two orthogonal regions. Both of them inherit two transitions. -/
def mixer : Value :=
  .dict [("initial", .str "desk"), ("states", .dict [
    ("desk", .dict [("initial", .str "mix")]),
    ("mix", .dict [("parent", .str "desk"), ("parallel", .bool true),
      ("on", .dict [("mute", .str "off"), ("solo", .str "loud")])]),
    ("left", .dict [("parent", .str "mix"), ("initial", .str "soft")]),
    ("soft", .dict [("parent", .str "left")]),
    ("loud", .dict [("parent", .str "left")]),
    ("right", .dict [("parent", .str "mix")]),
    ("off", .dict [("parent", .str "desk")])])]

/-- The transition out of both regions is taken once, for whichever region comes first. -/
theorem run_eq_mixer : ∃ defn, fromChart mixer = .ok defn ∧ ∀ n, defn.run ((["mute"].map defn.signalBack).take n) =
      defn.run ((["mute"].map defn.signal).take n) := by
  obtain ⟨defn, hdefn, htest⟩ : ∃ defn, fromChart mixer = .ok defn ∧
      (decide (Throughout (fun before i => ∀ st ∈ defn.run before, defn.Unambiguous i st)
        (["mute"].map defn.signal))) = true := by
    apply accepted_of_test
    decide
  exact ⟨defn, hdefn, ChartDef.run_eq (ChartDef.agree_signalBack _) (ChartDef.enumerates_signal _)
    (ChartDef.enumerates_signalBack _) (of_decide_eq_true htest)⟩

/-- The transition into one of the regions leaves the other one if it is taken for that one first. -/
theorem order_decides : ¬ ∀ value defn, fromChart value = .ok defn →
    ∀ inputs inputs' : List Input, Forall₂ Input.Agree inputs inputs' →
      (∀ i ∈ inputs, defn.Enumerates i.walk) → (∀ i ∈ inputs', defn.Enumerates i.walk) →
        ∀ n, defn.run (inputs'.take n) = defn.run (inputs.take n) := by
  intro h
  obtain ⟨defn, hdefn, htest⟩ : ∃ defn, fromChart mixer = .ok defn ∧
      (decide ((∃ st ∈ defn.run (["solo"].map defn.signal), "right" ∈ st.config) ∧
        ∃ st ∈ defn.run (["solo"].map defn.signalBack), "right" ∉ st.config)) = true := by
    apply accepted_of_test
    decide
  obtain ⟨⟨st, hst, hin⟩, st', hst', hout⟩ := of_decide_eq_true htest
  have heq := h mixer defn hdefn _ _ (ChartDef.agree_signalBack ["solo"])
    (ChartDef.enumerates_signal _) (ChartDef.enumerates_signalBack _) 1
  have hsame : st' = st := by
    have hboth : some st' = some st := hst'.symm.trans (heq.trans hst)
    exact some.inj hboth
  exact hout (hsame ▸ hin)

end LazilyPy.Chart

import LazilyPy.Chart.Walks

/-!
# Legal configurations

A configuration is legal if the active states cover the chart: with every state its parent, one child of
a compound state, every region of a parallel one, and no history state. A step keeps this as long as
what it enters is complete. The interpreter enters the states on the way to a target, and below the
target what is entered by default; on the way into one region of a parallel state it leaves the other
regions out.
-/

namespace LazilyPy.Chart

open Option

namespace ChartDef

variable (defn : ChartDef)

structure Legal (config : Finset String) : Prop where
  parent : ∀ s ∈ config, ∀ p ∈ defn.parents s, p ∈ config
  compound : ∀ s ∈ config, defn.kind s = some .compound →
    ∃! kid, kid ∈ defn.children s ∧ defn.kind kid ≠ some .history ∧ kid ∈ config
  parallel : ∀ s ∈ config, defn.kind s = some .parallel →
    ∀ kid ∈ defn.children s, defn.kind kid ≠ some .history → kid ∈ config
  rooted : ∀ s ∈ config, defn.isLeaf s → ∃ chain, defn.ancestorsInclusive s = some chain ∧ defn.root ∈ chain
  noHistory : ∀ s ∈ config, defn.kind s ≠ some .history

/-! ## What is entered -/

/-- Default entry of a state comes to no history state, and from each state only to children of it. -/
def EntersWell (s : String) : Prop :=
  ∀ l ∈ defn.enterSubtree s, ∀ x ∈ l, defn.kind x ≠ some .history ∧ ∀ c ∈ defn.defaults x, x ∈ defn.parents c

/-- The way from `top` to a state comes through no history state, and into no region of a parallel state
that has other regions. -/
def ClearWay (top x : String) : Prop :=
  (∃ chain ∈ defn.ancestorsInclusive x, top ∈ chain) ∧
    ∀ path ∈ defn.pathBelow top x, ∀ s ∈ path, defn.kind s ≠ some .history ∧
      ∀ p ∈ defn.parents s, defn.kind p = some .parallel →
        ∀ kid ∈ defn.children p, defn.kind kid ≠ some .history → kid = s

/-- What is restored in a region from a recording, or without one from where the history state starts,
is complete. -/
def RestoresWell (region : String) : Option Recording → Option String → Prop
  | none, none => defn.kind region = some .parallel → ∀ kid ∈ defn.children region, defn.kind kid = some .history
  | none, some start => defn.ClearWay region start ∧ defn.EntersWell start
  | some (.child kid), _ => defn.ClearWay region kid ∧ defn.EntersWell kid
  | some (.deepSet _), _ => True

/-- What is entered below `top` for a target is complete. -/
def TargetsWell (top target : String) (history : History) : Prop :=
  if defn.kind target = some .history then
    defn.parents target = [defn.regionOf target] ∧ defn.ClearWay top (defn.regionOf target) ∧
      defn.RestoresWell (defn.regionOf target) (history target) (defn.startOf target (defn.regionOf target))
  else defn.ClearWay top target ∧ defn.EntersWell target

/-- What each transition enters is complete, and no transition stays within a leaf that another one
leaves, unless it is a transition of this leaf to itself and the other one enters the leaf again. -/
def Orderly (i : Input) (st : StateChart) : Prop :=
  ∀ p ∈ defn.plan i st, ∀ c ∈ p.taken, ∀ top ∈ defn.domain c, defn.TargetsWell top c.transition.target st.history ∧
      ∀ c' ∈ p.taken, ∀ top' ∈ defn.domain c', defn.isProperDescendant top top' = some true →
        c.transition.target = top ∧ ∃ enter ∈ defn.enters top' c'.transition.target st.history, top ∈ enter

instance (s : String) : Decidable (defn.EntersWell s) :=
  inferInstanceAs (Decidable (∀ l ∈ defn.enterSubtree s, ∀ x ∈ l,
    defn.kind x ≠ some .history ∧ ∀ c ∈ defn.defaults x, x ∈ defn.parents c))

instance (top x : String) : Decidable (defn.ClearWay top x) :=
  inferInstanceAs (Decidable ((∃ chain ∈ defn.ancestorsInclusive x, top ∈ chain) ∧
    ∀ path ∈ defn.pathBelow top x, ∀ s ∈ path, defn.kind s ≠ some .history ∧
      ∀ p ∈ defn.parents s, defn.kind p = some .parallel →
        ∀ kid ∈ defn.children p, defn.kind kid ≠ some .history → kid = s))

instance (region : String) : ∀ r start, Decidable (defn.RestoresWell region r start)
  | none, none => inferInstanceAs (Decidable (defn.kind region = some .parallel →
      ∀ kid ∈ defn.children region, defn.kind kid = some .history))
  | none, some start =>
    inferInstanceAs (Decidable (defn.ClearWay region start ∧ defn.EntersWell start))
  | some (.child kid), _ =>
    inferInstanceAs (Decidable (defn.ClearWay region kid ∧ defn.EntersWell kid))
  | some (.deepSet _), _ => .isTrue trivial

instance (top target : String) (history : History) : Decidable (defn.TargetsWell top target history) :=
  inferInstanceAs (Decidable (if defn.kind target = some .history then
    defn.parents target = [defn.regionOf target] ∧ defn.ClearWay top (defn.regionOf target) ∧
      defn.RestoresWell (defn.regionOf target) (history target) (defn.startOf target (defn.regionOf target))
  else defn.ClearWay top target ∧ defn.EntersWell target))

instance (i : Input) (st : StateChart) : Decidable (defn.Orderly i st) :=
  inferInstanceAs (Decidable (∀ p ∈ defn.plan i st, ∀ c ∈ p.taken, ∀ top ∈ defn.domain c,
    defn.TargetsWell top c.transition.target st.history ∧
      ∀ c' ∈ p.taken, ∀ top' ∈ defn.domain c', defn.isProperDescendant top top' = some true →
        c.transition.target = top ∧ ∃ enter ∈ defn.enters top' c'.transition.target st.history, top ∈ enter))

/-! ## Coverings -/

def Allows (s : String) (kids : Set String) : Prop :=
  defn.kind s ≠ some .history ∧ (defn.kind s = some .compound → ∃! kid, kid ∈ kids ∧ defn.kind kid ≠ some .history) ∧
    (defn.kind s = some .parallel → ∀ kid ∈ defn.children s, defn.kind kid ≠ some .history → kid ∈ kids)

abbrev Covers (top : String) (E : Set String) : Prop :=
  Fills (fun s p => p ∈ defn.parents s) defn.Allows top E

variable {defn}

variable {top s : String} {E : Set String} {x : Candidate × Finset String × Finset String} {b : Bool}
  {st' : StateChart}

theorem Covers.chainEnds (h : defn.Covers top E) (htop : defn.ChainEnds top) (hs : s ∈ E) : defn.ChainEnds s :=
  Within.chainEnds_below (h.within s hs) htop

/-- A configuration of the whole chart is legal. -/
theorem Covers.legal {config : Finset String} (h : defn.Covers defn.root config)
    (hids : ∀ s ∈ config, s ∈ defn.ids) : defn.Legal config where
  parent := by
    intro s hs p hp
    refine h.up_mem s hs ?_ p hp
    rintro rfl
    simp [parents_root] at hp
  compound := by
    intro s hs hk
    obtain ⟨kid, ⟨⟨hkid, hup⟩, hkind⟩, honly⟩ := (h.ok s hs).2.1 hk
    refine ⟨kid, ⟨mem_parents_iff_children.mp hup, hkind, hkid⟩, ?_⟩
    rintro kid' ⟨hchild, hkind', hkid'⟩
    exact honly kid' ⟨⟨hkid', mem_parents_iff_children.mpr hchild⟩, hkind'⟩
  parallel := fun s hs hk kid hkid hkind => ((h.ok s hs).2.2 hk kid hkid hkind).1
  rooted := by
    intro s hs _
    have hends := h.chainEnds defn.chainEnds_root hs
    obtain ⟨chain, hchain⟩ := isSome_iff_exists.mp (ancestorsInclusive_isSome.mpr hends)
    exact ⟨chain, hchain, (mem_ancestorsInclusive (hids s hs) hchain).mpr (h.within s hs)⟩
  noHistory := fun s hs => (h.ok s hs).1

/-- A state that is not compound, nor parallel with regions, allows no active children. -/
theorem allows_empty (hs : defn.kind s ≠ some .history) (hcompound : defn.kind s ≠ some .compound)
    (hparallel : defn.kind s = some .parallel → ∀ kid ∈ defn.children s, defn.kind kid = some .history) :
    defn.Allows s ∅ :=
  ⟨hs, fun hk => absurd hk hcompound, fun hk kid hkid hkind => absurd (hparallel hk kid hkid) hkind⟩

/-- A state that is not parallel with other regions allows one active child. -/
theorem allows_singleton {kid : String} (hs : defn.kind s ≠ some .history) (hkid : defn.kind kid ≠ some .history)
    (hparallel : defn.kind s = some .parallel → ∀ k ∈ defn.children s, defn.kind k ≠ some .history → k = kid) :
    defn.Allows s {kid} := by
  refine ⟨hs, fun _ => ⟨kid, ⟨rfl, hkid⟩, fun k hk => hk.1⟩, fun hk k hmem hkind => ?_⟩
  exact hparallel hk k hmem hkind

/-! ## What is entered is a covering -/

/-- What is entered by default covers a state. -/
theorem covers_falls (hends : defn.ChainEnds s)
    (hwell : ∀ x, defn.Falls s x → defn.kind x ≠ some .history ∧ ∀ c ∈ defn.defaults x, x ∈ defn.parents c) :
    defn.Covers s {x | defn.Falls s x} := by
  -- what is entered after `s` is entered by its own parent
  have hfrom : ∀ x, defn.Falls s x → x ≠ s → ∃ p, defn.Falls s p ∧ x ∈ defn.defaults p ∧ p ∈ defn.parents x := by
    intro x hx hne
    obtain rfl | ⟨p, hp, hpx⟩ := Relation.ReflTransGen.cases_tail hx
    · exact absurd rfl hne
    · exact ⟨p, hp, hpx, (hwell p hp).2 x hpx⟩
  have hwithin : ∀ x, defn.Falls s x → defn.Within x s := by
    intro x hx
    induction hx with
    | refl => exact .refl
    | tail hp hc ih => exact .head ((hwell _ hp).2 _ hc) ih
  have hacc : ∀ x, defn.Falls s x → defn.ChainEnds x := fun x hx => (hwithin x hx).chainEnds_below hends
  -- the active children are those that default entry goes on to
  have hkids : ∀ x, defn.Falls s x → ∀ k, defn.Falls s k → x ∈ defn.parents k → k ∈ defn.defaults x := by
    intro x hx k hk hup
    have hne : k ≠ s := by
      rintro rfl
      exact Acc.not_within hends hup (hwithin x hx)
    obtain ⟨p, _, hpk, hp⟩ := hfrom k hk hne
    exact parents_unique hp hup ▸ hpk
  refine ⟨.refl, hwithin, ?_, ?_⟩
  · intro x hx hne p hp
    obtain ⟨q, hq, _, hqx⟩ := hfrom x hx hne
    exact parents_unique hqx hp ▸ hq
  · intro x hx
    have hnext : ∀ k ∈ defn.defaults x, defn.Falls s k := fun k hk => hx.tail hk
    refine ⟨(hwell x hx).1, fun hk => ?_, fun hk kid hkid hkind => ?_⟩
    · obtain ⟨d, hd, hkd⟩ := map_eq_some_iff.mp hk
      obtain ⟨c, hc⟩ := ne_none_iff_exists'.mp (d.compound hkd)
      have hdefaults : defn.defaults x = [c] := by
        simp [defaults_eq hd, hkd, hc]
      have hcx : c ∈ defn.defaults x := by simp [hdefaults]
      refine ⟨c, ⟨⟨hnext c hcx, (hwell x hx).2 c hcx⟩, (hwell c (hnext c hcx)).1⟩, ?_⟩
      rintro k ⟨⟨hks, hkx⟩, _⟩
      simpa [hdefaults] using hkids x hx k hks hkx
    · obtain ⟨d, hd, hkd⟩ := map_eq_some_iff.mp hk
      have hmem : kid ∈ defn.defaults x := by
        simpa [defaults_eq hd, hkd] using hkid
      exact ⟨hnext kid hmem, mem_parents_iff_children.mpr hkid⟩

/-- A clear way in terms of parent links. -/
theorem ClearWay.spec {x : String} (h : defn.ClearWay top x) (hx : x ∈ defn.ids) :
    defn.ChainEnds x ∧ defn.Within x top ∧ ∀ s, defn.Within x s → defn.Within s top → s ≠ top →
      defn.kind s ≠ some .history ∧ ∀ p ∈ defn.parents s, defn.kind p = some .parallel →
        ∀ kid ∈ defn.children p, defn.kind kid ≠ some .history → kid = s := by
  obtain ⟨⟨chain, hchain, htop⟩, hpath⟩ := h
  have hends : defn.ChainEnds x := ancestorsInclusive_isSome.mp (by rw [hchain]; rfl)
  obtain ⟨path, hpath'⟩ := isSome_iff_exists.mp (pathBelow_isSome.mpr hends)
  refine ⟨hends, (mem_ancestorsInclusive hx hchain).mp htop, fun s hxs hst hne => ?_⟩
  refine hpath path hpath' s ((mem_pathBelow hx hpath').mpr ⟨hxs, fun hts => hne ?_⟩)
  exact hst.antisymm hts.2 (hxs.chainEnds hends)

/-- What covers a state, with the way up from there. -/
theorem covers_path {x : String} (h : defn.Covers x {s | s = x ∨ s ∈ E}) (hx : x ∈ defn.ids)
    (hway : defn.ClearWay top x) (htop : defn.kind top ≠ some .history) :
    defn.Covers top {s | s = top ∨ defn.OnPath top x s ∨ s ∈ E} := by
  obtain ⟨hends, hwithin, hclear⟩ := hway.spec hx
  have hcovers : defn.Covers top
      {s | s ∈ {s | s = x ∨ s ∈ E} ∨ defn.Within x s ∧ defn.Within s top} := by
    refine Fills.along h parents_rightUnique hends hwithin fun s p hxs hp hpt => ?_
    have hst : s ≠ top := by
      rintro rfl
      exact Acc.not_within (hwithin.chainEnds hends) hp hpt
    have hpkind : defn.kind p ≠ some .history := by
      by_cases hptop : p = top
      · rwa [hptop]
      · exact (hclear p (hxs.tail hp) hpt hptop).1
    obtain ⟨hskind, hregions⟩ := hclear s hxs (.head hp hpt) hst
    exact allows_singleton hpkind hskind (hregions p hp)
  have hsame : {s | s = top ∨ defn.OnPath top x s ∨ s ∈ E} =
      {s | s ∈ {s | s = x ∨ s ∈ E} ∨ defn.Within x s ∧ defn.Within s top} := by
    ext s
    constructor
    · rintro (rfl | ⟨hxs, hnot⟩ | hs)
      · exact .inr ⟨hwithin, .refl⟩
      · obtain hst | hts := hxs.total hwithin
        · exact .inr ⟨hxs, hst⟩
        · exact absurd ⟨hwithin, hts⟩ hnot
      · exact .inl (.inr hs)
    · rintro ((rfl | hs) | ⟨hxs, hst⟩)
      · by_cases hst : s = top
        · exact .inl hst
        · exact .inr (.inl ⟨.refl, fun hts => hst (hts.1.antisymm hts.2 hends)⟩)
      · exact .inr (.inr hs)
      · by_cases heq : s = top
        · exact .inl heq
        · exact .inr (.inl ⟨hxs, fun hts =>
            heq (hst.antisymm hts.2 (hxs.chainEnds hends))⟩)
  rwa [hsame]

/-- What is entered by default covers a state, if it is complete. -/
theorem EntersWell.covers (h : defn.EntersWell s) {l : List String} (hl : defn.enterSubtree s = some l)
    (hends : defn.ChainEnds s) :
    defn.Covers s {x | x = s ∨ x ∈ {y | defn.Falls s y}} := by
  have hsame : {x | x = s ∨ x ∈ {y | defn.Falls s y}} = {x | defn.Falls s x} := by
    ext x
    refine ⟨?_, .inr⟩
    rintro (rfl | hx)
    · exact .refl
    · exact hx
  rw [hsame]
  exact covers_falls hends fun x hx => h l hl x ((mem_enterSubtree hl).mpr hx)

/-! ## History -/

/-- A recorded child is one of the region, and recorded states cover it. -/
def Remembers (defn : ChartDef) (hist : String) (r : Recording) : Prop :=
  ∀ region ∈ defn.parents hist, match r with
    | .child kid => region ∈ defn.parents kid
    | .deepSet states => defn.Covers region {s | s = region ∨ s ∈ states}

/-- What is restored in a region covers it, if it is complete. -/
theorem RestoresWell.covers {history : History} {hist region : String} {below : Finset String}
    (h : defn.RestoresWell region (history hist) (defn.startOf hist region))
    (hbelow : defn.restoreViaHistory history hist region = some below)
    (hrem : history.Holds (Remembers defn)) (hregion : region ∈ defn.parents hist)
    (hids : history.Holds fun _ r => ∀ s ∈ r.states, s ∈ defn.ids)
    (hends : defn.ChainEnds region) (hkind : defn.kind region ≠ some .history) :
    defn.Covers region {s | s = region ∨ s ∈ below} := by
  have hmem : ∀ x, x ∈ below ↔ _ := fun x => mem_restoreViaHistory hbelow
  unfold restoreViaHistory at hbelow
  cases hhist : history hist with
  | none =>
    simp only [hhist] at h hmem hbelow
    cases hstart : defn.startOf hist region with
    | none =>
      simp only [hstart] at h hmem
      have hsame : {s | s = region ∨ s ∈ below} = {region} := by
        ext s
        simp [hmem]
      rw [hsame]
      refine Fills.singleton hends (allows_empty hkind (fun hk => ?_) h)
      -- a compound region has an initial state to start from
      obtain ⟨d, hd, hkd⟩ := map_eq_some_iff.mp hk
      have hinitial : d.initial = none := by
        obtain ⟨_, hor⟩ := or_eq_none_iff.mp hstart
        rwa [hd, bind_some] at hor
      exact d.compound hkd hinitial
    | some start =>
      simp only [hstart, some.injEq, exists_eq_left'] at h hmem hbelow
      obtain ⟨path, _, hsub⟩ := bind_eq_some_iff.mp hbelow
      obtain ⟨sub, hsub, _⟩ := map_eq_some_iff.mp hsub
      have hids := startOf_mem_ids hstart
      have hstartEnds := (h.1.spec hids).1
      have hcovers := covers_path (h.2.covers hsub hstartEnds) hids h.1 hkind
      simpa only [hmem, Set.mem_ofPred_eq] using hcovers
  | some r =>
    cases r with
    | child kid =>
      simp only [hhist] at h hmem hbelow
      obtain ⟨sub, hsub, _⟩ := map_eq_some_iff.mp hbelow
      have hkid : kid ∈ defn.ids := hids hist _ hhist kid (by simp [Recording.states])
      have hup : region ∈ defn.parents kid := hrem hist _ hhist region hregion
      have hkidEnds := (h.1.spec hkid).1
      have hcovers := covers_path (h.2.covers hsub hkidEnds) hkid h.1 hkind
      have hsame : {s | s = region ∨ s ∈ below} = {s | s = region ∨ defn.OnPath region kid s ∨ defn.Falls kid s} := by
        ext s
        constructor
        · rintro (hs | hs)
          · exact .inl hs
          · exact .inr (.inr ((hmem s).mp hs))
        · rintro (hs | ⟨hs, hnot⟩ | hs)
          · exact .inl hs
          · -- between a child and its region there is only the child
            by_cases heq : kid = s
            · exact .inr ((hmem s).mpr (heq ▸ .refl))
            · exact absurd ⟨.single hup, hs.parent heq hup⟩ hnot
          · exact .inr ((hmem s).mpr hs)
      rw [hsame]
      exact hcovers
    | deepSet states =>
      have hstates : states = below := by
        simpa [hhist] using hbelow
      exact hstates ▸ hrem hist _ hhist region hregion

/-- What is entered for a target covers the domain, if it is complete. -/
theorem TargetsWell.covers {target : String} {st : StateChart} {enter : Finset String}
    (h : defn.TargetsWell top target st.history) (henter : defn.enters top target st.history = some enter)
    (hdecl : Declared defn st) (hrem : st.history.Holds (Remembers defn)) (htarget : target ∈ defn.ids)
    (htop : defn.kind top ≠ some .history) :
    defn.Covers top {s | s = top ∨ s ∈ enter} := by
  have hmem : ∀ x, x ∈ enter ↔ _ := fun x => mem_enters htarget henter
  unfold enters at henter
  unfold TargetsWell at h
  by_cases hk : defn.kind target = some .history
  · simp only [hk, if_true] at h hmem henter
    obtain ⟨hparents, hway, hrestores⟩ := h
    obtain ⟨path, _, henter⟩ := bind_eq_some_iff.mp henter
    obtain ⟨below, hbelow, _⟩ := map_eq_some_iff.mp henter
    have hids : defn.regionOf target ∈ defn.ids := regionOf_mem_ids target
    obtain ⟨hends, hwithin, hclear⟩ := hway.spec hids
    have hkind : defn.kind (defn.regionOf target) ≠ some .history := by
      by_cases heq : defn.regionOf target = top
      · rwa [heq]
      · exact (hclear _ .refl hwithin heq).1
    have hcovers := covers_path (hrestores.covers hbelow hrem (by simp [hparents]) hdecl.history
      hends hkind) hids hway htop
    simpa [hmem, hbelow] using hcovers
  · simp only [hk, if_false] at h hmem henter
    obtain ⟨hway, hdefault⟩ := h
    obtain ⟨path, _, henter⟩ := bind_eq_some_iff.mp henter
    obtain ⟨sub, hsub, _⟩ := map_eq_some_iff.mp henter
    have hcovers := covers_path (hdefault.covers hsub (hway.spec htarget).1) htarget hway htop
    simpa only [hmem, Set.mem_ofPred_eq] using hcovers

/-! ## Steps -/

/-- The active states cover the chart, and so do the recorded ones their regions. -/
structure Settled (defn : ChartDef) (st : StateChart) : Prop where
  declared : Declared defn st
  covers : defn.Covers defn.root st.config
  remembers : st.history.Holds (Remembers defn)

/-- What is above an active state is active. -/
theorem Covers.up_closed (h : defn.Covers defn.root E) {a : String} (hs : s ∈ E) (hsa : defn.Within s a) : a ∈ E := by
  induction hsa with
  | refl => exact hs
  | tail _ hp ih =>
    refine h.up_mem _ ih ?_ _ hp
    rintro rfl
    simp [parents_root] at hp

theorem settled_new (hroot : defn.EntersWell defn.root) {st : StateChart}
    (h : defn.new = some st) : Settled defn st := by
  refine ⟨declared_new h, ?_, ?_⟩
  · obtain ⟨l, hl, rfl⟩ := map_eq_some_iff.mp h
    have hcovers := covers_falls defn.chainEnds_root fun x hx => hroot l hl x ((mem_enterSubtree hl).mpr hx)
    have hsame : ((l.toFinset : Finset String) : Set String) = {x | defn.Falls defn.root x} := by
      ext x
      simp [mem_enterSubtree hl]
    show defn.Covers defn.root (l.toFinset : Finset String)
    rwa [hsame]
  · obtain ⟨l, hl, rfl⟩ := map_eq_some_iff.mp h
    exact nofun

variable {i : Input} {st : StateChart} {p : Plan} {l : List (Candidate × Finset String × Finset String)}

/-- Two transitions with one domain enter the same. -/
theorem enter_eq_of_domain_eq (hof : p.Of l) {y : Candidate × Finset String × Finset String} (hx : x ∈ l)
    (hy : y ∈ l) (htx : Taken defn i st x top) (hty : Taken defn i st y top) : x.2.2 = y.2.2 := by
  by_cases hxy : x = y
  · rw [hxy]
  · have hsame : x.2.1 = y.2.1 := by
      ext s
      rw [htx.exit, hty.exit]
    -- they exit the same and nothing in common, so they stay within their leaf
    have hdisj := hof.disjoint_of_ne hx hy hxy
    have hyempty : y.2.1 = ∅ := by
      rw [hsame] at hdisj
      exact disjoint_self.mp hdisj
    have hleaf : x.1.leaf = y.1.leaf := (htx.leaf_eq (hsame.trans hyempty)).trans (hty.leaf_eq hyempty).symm
    exact (htx.eq_of_leaf hty hleaf).2.2

/-- A transition with a domain below that of another one exits nothing. -/
theorem exit_eq_empty_of_within (hof : p.Of l) {y : Candidate × Finset String × Finset String} (hx : x ∈ l)
    (hy : y ∈ l) {top' : String} (htx : Taken defn i st x top) (hty : Taken defn i st y top')
    (hset : Settled defn st) (hwithin : defn.Within top top') (hne : top ≠ top') : x.2.1 = ∅ := by
  have hxy : x ≠ y := by
    rintro rfl
    have heq := htx.domain.symm.trans hty.domain
    exact hne (some.inj heq)
  have htopEnds : defn.ChainEnds top := by
    refine hset.covers.chainEnds defn.chainEnds_root ?_
    exact hset.covers.up_closed htx.active htx.within
  have hsub : x.2.1 ⊆ y.2.1 := by
    intro s hs
    obtain ⟨hactive, _, hst⟩ := (htx.exit s).mp hs
    refine (hty.exit s).mpr ⟨hactive, ?_, hst.trans hwithin⟩
    rintro rfl
    exact hne (hwithin.antisymm hst htopEnds)
  exact disjoint_self.mp ((hof.disjoint_of_ne hx hy hxy).mono_right hsub)

/-- A transition of a leaf to itself enters the leaf alone. -/
theorem eq_of_mem_self (hx : Taken defn i st x top) (hexit : x.2.1 = ∅) (htarget : x.1.transition.target = top) :
    ∀ s ∈ x.2.2, s = top := by
  intro s hs
  have hleaf := hx.isLeaf
  rw [hx.leaf_eq hexit] at hleaf
  have hkind : defn.kind top = some .atomic ∨ defn.kind top = some .final := by
    simpa [isLeaf] using hleaf
  have hnone : defn.defaults top = [] := by
    obtain hk | hk := hkind <;> obtain ⟨d, hd, hkd⟩ := map_eq_some_iff.mp hk <;>
      simp [defaults_eq hd, hkd]
  have hnotHistory : defn.kind top ≠ some .history := by
    obtain hk | hk := hkind <;> simp [hk]
  have hmem := (mem_enters (target_mem_ids hx.candidate) hx.enter).mp hs
  rw [htarget, if_neg hnotHistory] at hmem
  obtain ⟨hts, hnot⟩ | hfalls := hmem
  · exact absurd ⟨.refl, hts⟩ hnot
  · obtain rfl | ⟨c, hc, _⟩ := Relation.ReflTransGen.cases_head hfalls
    · rfl
    · simp [hnone] at hc

def Outermost (defn : ChartDef) (l : List (Candidate × Finset String × Finset String)) (top : String) : Prop :=
  (∃ x ∈ l, defn.domain x.1 = some top) ∧
    ∀ y ∈ l, ∀ top', defn.domain y.1 = some top' → defn.Within top top' → top = top'

/-- What is active after a step below the domain of its transitions. -/
def EnteredAt (defn : ChartDef) (l : List (Candidate × Finset String × Finset String)) (top : String) : Set String :=
  {s | s = top ∨ ∃ x ∈ l, defn.domain x.1 = some top ∧ s ∈ x.2.2}

section

variable (hof : p.Of l) (hset : Settled defn st) (hl : ∀ x ∈ l, ∃ top, Taken defn i st x top)
  (hord : defn.Orderly i st) (hp : defn.plan i st = some p)

include hof hset hl hord hp

/-- A transition is an outermost one, or what it enters is entered by an outermost one. -/
theorem outermost_or_absorbed (hx : x ∈ l) (htx : Taken defn i st x top) : defn.Outermost l top ∨
      x.2.1 = ∅ ∧ ∀ s ∈ x.2.2, ∃ top', defn.Outermost l top' ∧ s ∈ defn.EnteredAt l top' := by
  by_cases hout : defn.Outermost l top
  · exact .inl hout
  · right
    obtain ⟨y, hy, top', hty, hwithin, hne⟩ : ∃ y ∈ l, ∃ top', defn.domain y.1 = some top' ∧
        defn.Within top top' ∧ top ≠ top' := by
      by_contra hall
      push Not at hall
      exact hout ⟨⟨x, hx, htx.domain⟩, hall⟩
    obtain ⟨top'', hy'⟩ := hl y hy
    obtain rfl : top' = top'' := by simpa [hty] using hy'.domain
    -- all that `x` would exit is exited by `y`, so `x` exits nothing
    have hexit := exit_eq_empty_of_within hof hx hy htx hy' hset hwithin hne
    have htop : top ∈ st.config := hset.covers.up_closed htx.active htx.within
    obtain ⟨chain, hchain⟩ := isSome_iff_exists.mp (ancestorsInclusive_isSome.mpr
      (hset.covers.chainEnds defn.chainEnds_root htop))
    have hdesc : defn.isProperDescendant top top' = some true := by
      rw [isProperDescendant, if_neg hne, hchain, map_some]
      simpa using (mem_ancestorsInclusive (hset.declared.config _ htop) hchain).mpr hwithin
    obtain ⟨htarget, enter, henter, hmem⟩ :=
      (hord p hp x.1 (hof.mem_taken hx) top htx.domain).2 y.1 (hof.mem_taken hy) top' hty hdesc
    obtain rfl : y.2.2 = enter := by simpa [hy'.enter] using henter
    refine ⟨hexit, fun s hs => ?_⟩
    obtain rfl := eq_of_mem_self htx hexit htarget s hs
    refine ⟨top', ⟨⟨y, hy, hty⟩, fun z hz top'' htz hwithin' => ?_⟩, .inr ⟨y, hy, hty, hmem⟩⟩
    -- the other transition exits the leaf, so its domain is not within a further one
    by_contra hne'
    obtain ⟨top3, hz'⟩ := hl z hz
    obtain rfl : top'' = top3 := by simpa [htz] using hz'.domain
    have hyempty := exit_eq_empty_of_within hof hy hz hy' hz' hset hwithin' hne'
    have hmemExit := (hy'.exit s).mpr ⟨htop, hne, hwithin⟩
    simp [hyempty] at hmemExit

/-- The active states after a step: the old ones but those below an outermost domain, and what is
entered there. -/
theorem mem_config_iff (s : String) : s ∈ (st.config \ p.exit) ∪ p.enter ↔
      (s ∈ st.config ∧ ∀ t, defn.Outermost l t → defn.Within s t → s = t) ∨
        ∃ t, defn.Outermost l t ∧ s ∈ defn.EnteredAt l t := by
  rw [Finset.mem_union, Finset.mem_sdiff]
  constructor
  · rintro (⟨hs, hexit⟩ | henter)
    · refine .inl ⟨hs, fun t ⟨⟨x, hx, hxt⟩, _⟩ hst => ?_⟩
      by_contra hne
      obtain ⟨top, htx⟩ := hl x hx
      obtain rfl : t = top := by simpa [hxt] using htx.domain
      exact hexit ((hof.exit s).mpr ⟨x, hx, (htx.exit s).mpr ⟨hs, hne, hst⟩⟩)
    · obtain ⟨x, hx, hs⟩ := (hof.enter s).mp henter
      obtain ⟨top, htx⟩ := hl x hx
      obtain hout | ⟨_, habsorbed⟩ := outermost_or_absorbed hof hset hl hord hp hx htx
      · exact .inr ⟨top, hout, .inr ⟨x, hx, htx.domain, hs⟩⟩
      -- what an inner transition enters is entered further out as well
      · exact .inr (habsorbed s hs)
  · rintro (⟨hs, hfree⟩ | ⟨t, hout, rfl | ⟨x, hx, _, hs⟩⟩)
    · refine .inl ⟨hs, fun hexit => ?_⟩
      obtain ⟨x, hx, hxs⟩ := (hof.exit s).mp hexit
      obtain ⟨top, htx⟩ := hl x hx
      obtain hout | ⟨hempty, _⟩ := outermost_or_absorbed hof hset hl hord hp hx htx
      · obtain ⟨_, hne, hst⟩ := (htx.exit s).mp hxs
        exact hne (hfree top hout hst)
      · simp [hempty] at hxs
    · obtain ⟨⟨x, hx, hxs⟩, hmax⟩ := hout
      obtain ⟨top, htx⟩ := hl x hx
      -- an outermost domain itself is not exited
      obtain rfl : s = top := by simpa [hxs] using htx.domain
      refine .inl ⟨hset.covers.up_closed htx.active htx.within, fun hexit => ?_⟩
      obtain ⟨y, hy, hys⟩ := (hof.exit s).mp hexit
      obtain ⟨top', hty⟩ := hl y hy
      obtain ⟨_, hne, hst⟩ := (hty.exit s).mp hys
      exact hne (hmax y hy top' hty.domain hst)
    · exact .inr ((hof.enter s).mpr ⟨x, hx, hs⟩)

/-- What is entered at an outermost domain covers it. -/
theorem covers_enteredAt {t : String} (hout : defn.Outermost l t) :
    defn.Covers t (defn.EnteredAt l t) := by
  obtain ⟨⟨x, hx, hxt⟩, _⟩ := hout
  obtain ⟨top, htx⟩ := hl x hx
  obtain rfl : t = top := by simpa [hxt] using htx.domain
  have hmem : t ∈ st.config := hset.covers.up_closed htx.active htx.within
  have hwell := (hord p hp x.1 (hof.mem_taken hx) t htx.domain).1
  have hcovers := hwell.covers htx.enter hset.declared hset.remembers
    (target_mem_ids htx.candidate) (hset.covers.ok t hmem).1
  have hsame : defn.EnteredAt l t = {s | s = t ∨ s ∈ x.2.2} := by
    ext s
    refine or_congr_right ⟨?_, fun hs => ⟨x, hx, htx.domain, hs⟩⟩
    rintro ⟨y, hy, hyt, hs⟩
    obtain ⟨top', hty⟩ := hl y hy
    obtain rfl : t = top' := by simpa [hyt] using hty.domain
    rwa [enter_eq_of_domain_eq hof hx hy htx hty]
  rwa [hsame]

end

section

variable (hset : Settled defn st) (hwalk : defn.Enumerates i.walk)

include hset hwalk

/-- An orderly step keeps the active states a covering of the chart. -/
theorem covers_send (hord : defn.Orderly i st) (h : defn.send i st = some (b, st')) :
    defn.Covers defn.root st'.config := by
  obtain ⟨_, hconfig, _, _⟩ | ⟨p, hp, _, _, hconfig, _, _⟩ := send_cases h
  · exact hconfig ▸ hset.covers
  · obtain ⟨l, hof, hl⟩ := plan_taken hp hset.declared fun s => ((hwalk _ hset.declared.config).2 s).mp
    have hreplaced := hset.covers.replace parents_rightUnique defn.chainEnds_root
      (T := {t | defn.Outermost l t}) (F := defn.EnteredAt l) ?_ ?_ ?_
    · have hsame : (st'.config : Set String) = {s | (s ∈ (st.config : Set String) ∧
          ∀ t ∈ {t | defn.Outermost l t}, defn.Within s t → s = t) ∨
            ∃ t ∈ {t | defn.Outermost l t}, s ∈ defn.EnteredAt l t} := by
        ext s
        rw [hconfig]
        exact mem_config_iff hof hset hl hord hp s
      rw [hsame]
      exact hreplaced
    · rintro t ⟨⟨x, hx, hxt⟩, _⟩
      obtain ⟨top, htx⟩ := hl x hx
      obtain rfl : t = top := by simpa [hxt] using htx.domain
      exact hset.covers.up_closed htx.active htx.within
    -- outermost domains are not above each other
    · rintro t ⟨_, hmax⟩ t' ⟨⟨y, hy, hyt⟩, _⟩ hwithin
      exact hmax y hy t' hyt hwithin
    · exact fun t hout => covers_enteredAt hof hset hl hord hp hout

/-- What is recorded of a region that is left covers the region. -/
theorem remembers_send (h : defn.send i st = some (b, st')) :
    st'.history.Holds (Remembers defn) := by
  obtain ⟨_, _, hhistory, _⟩ | ⟨p, hp, _, _, _, hhistory, _⟩ := send_cases h
  · exact hhistory ▸ hset.remembers
  · have hexit : ∀ region ∈ i.walk p.exit, region ∈ st.config := by
      obtain ⟨l, hof, hl⟩ := plan_taken hp hset.declared fun s => ((hwalk _ hset.declared.config).2 s).mp
      have hsub := (plan_sets hset.declared hof hl).1
      intro region hregion
      refine hsub (((hwalk p.exit fun s hs => ?_).2 region).mp hregion)
      exact hset.declared.config s (hsub hs)
    refine recordAll_holds hhistory hset.remembers ?_ ?_
    · intro region _ hist hhist kid hkid _ _ r hr
      rw [eq_of_historyChildOf hhist hr]
      exact mem_parents_iff_children.mpr hkid
    · intro region hregion hist hhist below hbelow r hr
      rw [eq_of_historyChildOf hhist hr]
      have hactive := hexit region hregion
      have hcovers := hset.covers.below parents_rightUnique defn.chainEnds_root hactive
      have hsame : {s | s = region ∨ s ∈ below} = {s | s ∈ (st.config : Set String) ∧ defn.Within s region} := by
        ext s
        rw [Set.mem_ofPred_eq, mem_properDescendants hset.declared.config hbelow]
        constructor
        · rintro (rfl | ⟨hs, _, hwithin⟩)
          · exact ⟨hactive, .refl⟩
          · exact ⟨hs, hwithin⟩
        · rintro ⟨hs, hwithin⟩
          by_cases heq : s = region
          · exact .inl heq
          · exact .inr ⟨hs, heq, hwithin⟩
      show defn.Covers region {s | s = region ∨ s ∈ below}
      rw [hsame]
      exact hcovers

/-- An orderly step keeps the active states a configuration of the chart. -/
theorem settled_send (hord : defn.Orderly i st) (h : defn.send i st = some (b, st')) : Settled defn st' :=
  ⟨declared_send hset.declared h, covers_send hset hwalk hord h, remembers_send hset hwalk h⟩

end

/-! ## Runs -/

/-- The configuration stays legal in every run in which the root is entered completely and each step is
orderly. -/
theorem legal_run {inputs : List Input} (hwalk : ∀ i ∈ inputs, defn.Enumerates i.walk)
    (hroot : defn.EntersWell defn.root)
    (hsteps : Throughout (fun before i => ∀ st ∈ defn.run before, defn.Orderly i st) inputs)
    (h : defn.run inputs = some st) : defn.Legal st.config := by
  have hsettled : Settled defn st := by
    induction inputs using List.reverseRecOn generalizing st with
    | nil => exact settled_new hroot h
    | append_singleton inputs i ih =>
      obtain ⟨hbefore, hi⟩ := throughout_concat.mp hsteps
      rw [run_concat] at h
      obtain ⟨before, hrun, h⟩ := bind_eq_some_iff.mp h
      obtain ⟨⟨b, after⟩, hafter, rfl⟩ := map_eq_some_iff.mp h
      have hset := ih (fun j hj => hwalk j (List.mem_append_left _ hj)) hbefore hrun
      exact settled_send hset (hwalk i (List.mem_append_right _ (List.mem_singleton_self i)))
        (hi before hrun) hafter
  exact hsettled.covers.legal hsettled.declared.config

end ChartDef

/-- A player with two orthogonal regions, which is resumed where it has been switched off. -/
def player : Value :=
  .dict [("initial", .str "app"), ("states", .dict [
    ("app", .dict [("initial", .str "off")]),
    ("off", .dict [("parent", .str "app"), ("on", .dict [("power", .str "hist")])]),
    ("run", .dict [("parent", .str "app"), ("initial", .str "on"), ("on", .dict [("power", .str "off")])]),
    ("hist", .dict [("parent", .str "run"), ("history", .str "deep")]),
    ("on", .dict [("parent", .str "run"), ("parallel", .bool true)]),
    ("volume", .dict [("parent", .str "on"), ("initial", .str "low")]),
    ("low", .dict [("parent", .str "volume"), ("on", .dict [("up", .str "high")])]),
    ("high", .dict [("parent", .str "volume")]),
    ("track", .dict [("parent", .str "on"), ("initial", .str "first")]),
    ("first", .dict [("parent", .str "track")])])]

/-- The player is switched on, turned up, switched off and on again. -/
theorem legal_run_player : ∃ defn, fromChart player = .ok defn ∧
    ∃ st, defn.run (["power", "up", "power", "power"].map defn.signal) = some st ∧
      "high" ∈ st.config ∧ defn.Legal st.config := by
  obtain ⟨defn, hdefn, htest⟩ : ∃ defn, fromChart player = .ok defn ∧ (decide (defn.EntersWell defn.root ∧
        (∃ st ∈ defn.run (["power", "up", "power", "power"].map defn.signal), "high" ∈ st.config) ∧
        Throughout (fun before i => ∀ st ∈ defn.run before, defn.Orderly i st)
          (["power", "up", "power", "power"].map defn.signal))) = true := by
    apply accepted_of_test
    decide
  obtain ⟨hroot, ⟨st, hst, hhigh⟩, hsteps⟩ := of_decide_eq_true htest
  exact ⟨defn, hdefn, st, hst, hhigh, ChartDef.legal_run (ChartDef.enumerates_signal _) hroot hsteps hst⟩

def sidedoor : Value :=
  .dict [("initial", .str "house"), ("states", .dict [
    ("house", .dict [("initial", .str "yard")]),
    ("yard", .dict [("parent", .str "house"), ("on", .dict [("enter", .str "lamp")])]),
    ("room", .dict [("parent", .str "house"), ("parallel", .bool true)]),
    ("light", .dict [("parent", .str "room"), ("initial", .str "lamp")]),
    ("lamp", .dict [("parent", .str "light")]),
    ("heat", .dict [("parent", .str "room")])])]

/-- The other region is left out. -/
theorem not_every_run_legal : ¬ ∀ value defn, fromChart value = .ok defn →
    ∀ inputs : List Input, (∀ i ∈ inputs, defn.Enumerates i.walk) →
      ∀ st, defn.run inputs = some st → defn.Legal st.config := by
  intro h
  obtain ⟨defn, hdefn, htest⟩ : ∃ defn, fromChart sidedoor = .ok defn ∧
      (decide (∃ st ∈ defn.run (["enter"].map defn.signal), "room" ∈ st.config ∧
        defn.kind "room" = some .parallel ∧ "heat" ∈ defn.children "room" ∧
          defn.kind "heat" ≠ some .history ∧ "heat" ∉ st.config)) = true := by
    apply accepted_of_test
    decide
  obtain ⟨st, hst, hroom, hkind, hheat, hhistory, hout⟩ := of_decide_eq_true htest
  have hlegal := h sidedoor defn hdefn _ (ChartDef.enumerates_signal ["enter"]) st hst
  exact hout (hlegal.parallel "room" hroom hkind "heat" hheat hhistory)

end LazilyPy.Chart

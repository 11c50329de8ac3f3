import LazilyPy.Chart.Actions

/-!
# History

A region that is left is recorded for its first history state. A transition to the history state enters what has
been recorded: below the region the same states are active as when it was left, or with a shallow history the same
child, with its default entry. Before the region has been left, the history state goes to the default that it names.

Transitions that a step takes together exit nothing in common. So no other one has its domain above or below the
region, unless one of the two exits nothing and stays where its leaf is.
-/

namespace LazilyPy.Chart

open List Option Function

namespace ChartDef

variable (defn : ChartDef)

def historyKind (hist : String) : Option HistoryKind :=
  (defn.get? hist).bind StateDef.history

/-- The run has left the region in a configuration, and the region has not been active since. -/
def LeftAt (inputs : List Input) (region : String) (config : Finset String) : Prop :=
  ∃ before i after, inputs = before ++ i :: after ∧
    (∃ st, defn.run before = some st ∧ st.config = config ∧ ∃ p, defn.plan i st = some p ∧ region ∈ p.exit) ∧
    ∀ l l', after = l ++ l' → ∀ st, defn.run (before ++ i :: l) = some st → region ∉ st.config

def NeverLeft (inputs : List Input) (region : String) : Prop :=
  Throughout (fun before i => ∀ st ∈ defn.run before, ∀ p ∈ defn.plan i st, region ∉ p.exit) inputs

/-- The step takes a transition to the history state, and no other one whose domain is the region or above or below
it. -/
def Returns (i : Input) (st : StateChart) (hist region : String) : Prop :=
  ∃ p ∈ defn.plan i st, ∃ c ∈ p.taken, c.transition.target = hist ∧ ∀ c' ∈ p.taken, c' ≠ c → ∀ top ∈ defn.domain c',
    top ≠ region ∧ defn.isProperDescendant top region ≠ some true ∧ defn.isProperDescendant region top ≠ some true

instance (inputs : List Input) (region : String) : Decidable (defn.NeverLeft inputs region) :=
  inferInstanceAs (Decidable (Throughout
    (fun before i => ∀ st ∈ defn.run before, ∀ p ∈ defn.plan i st, region ∉ p.exit) inputs))

instance (i : Input) (st : StateChart) (hist region : String) : Decidable (defn.Returns i st hist region) :=
  inferInstanceAs (Decidable (∃ p ∈ defn.plan i st, ∃ c ∈ p.taken, c.transition.target = hist ∧
    ∀ c' ∈ p.taken, c' ≠ c → ∀ top ∈ defn.domain c',
      top ≠ region ∧ defn.isProperDescendant top region ≠ some true ∧ defn.isProperDescendant region top ≠ some true))

variable {defn} {i : Input} {st st' : StateChart} {inputs : List Input} {region hist s : String}
  {history history' : History} {config : Finset String}

/-! ## What is recorded -/

theorem historyChildOf_spec (h : defn.historyChildOf region = some hist) :
    region ∈ defn.parents hist ∧ defn.kind hist = some .history := by
  refine ⟨mem_parents_iff_children.mpr (mem_of_find?_eq_some h), ?_⟩
  simpa using find?_some h

section

variable (hhist : defn.historyChildOf region = some hist)

include hhist

/-- The recording of another region leaves a history state as it is. -/
theorem recordRegion_other {r other : String} (hne : r ≠ region) (hother : defn.historyChildOf r = some other)
    (h : defn.recordRegion r other config history = some history') :
    history' hist = history hist := by
  have hdiffer : hist ≠ other := by
    rintro rfl
    exact hne (parents_unique (historyChildOf_spec hother).1 (historyChildOf_spec hhist).1)
  obtain rfl | ⟨kid, -, -, -, rfl⟩ | ⟨below, -, rfl⟩ := recordRegion_cases h
  · rfl
  · exact update_of_ne hdiffer _ _
  · exact update_of_ne hdiffer _ _

/-- What a history state has recorded stays while its region is not left. -/
theorem recordAll_other {regions : List String} (hregion : region ∉ regions)
    (h : defn.recordAll regions config history = some history') :
    history' hist = history hist := by
  induction regions generalizing history with
  | nil =>
    cases h
    rfl
  | cons r regions ih =>
    obtain ⟨hne, hrest⟩ := not_or.mp (mem_cons.not.mp hregion)
    rw [recordAll_cons] at h
    obtain ⟨next, hnext, h⟩ := bind_eq_some_iff.mp h
    refine (ih hrest h).trans ?_
    cases hother : defn.historyChildOf r with
    | none =>
      rw [hother] at hnext
      cases hnext
      rfl
    | some other =>
      rw [hother] at hnext
      exact recordRegion_other hhist (Ne.symm hne) hother hnext

/-- When its region is left, a history state gets what the recording of the region makes of it. -/
theorem recordAll_self {P : Option Recording → Prop} {regions : List String}
    (hP : ∀ history next, defn.recordRegion region hist config history = some next → P (next hist))
    (hregion : region ∈ regions) (h : defn.recordAll regions config history = some history') :
    P (history' hist) := by
  induction regions generalizing history with
  | nil => cases hregion
  | cons r regions ih =>
    rw [recordAll_cons] at h
    obtain ⟨next, hnext, hafter⟩ := bind_eq_some_iff.mp h
    by_cases hlater : region ∈ regions
    · exact ih hlater hafter
    · obtain rfl := (mem_cons.mp hregion).resolve_right hlater
      rw [hhist] at hnext
      rw [recordAll_other hhist hlater hafter]
      exact hP history next hnext

/-- A deep history gets all that is active below its region. -/
theorem recordRegion_deep (hdeep : defn.historyKind hist ≠ some .shallow)
    (h : defn.recordRegion region hist config history = some history') :
    ∃ below, defn.properDescendants config region = some below ∧ history' hist = some (.deepSet below) := by
  obtain ⟨d, hd, hkind⟩ := map_eq_some_iff.mp (historyChildOf_spec hhist).2
  have hdeep' : d.history ≠ some .shallow := by rwa [historyKind, hd, bind_some] at hdeep
  rw [recordRegion, hd] at h
  simp only [hkind, ne_eq, not_true_eq_false, if_false, if_neg hdeep'] at h
  obtain ⟨below, hbelow, rfl⟩ := map_eq_some_iff.mp h
  exact ⟨below, hbelow, update_self _ _ _⟩

end

variable {kid : String} {p : Plan} {b : Bool}

/-- A shallow history gets the child that is active. -/
theorem recordRegion_shallow (hhist : defn.historyChildOf region = some hist)
    (hshallow : defn.historyKind hist = some .shallow)
    (hkid : ∀ k, (k ∈ defn.children region ∧ k ∈ config ∧ defn.kind k ≠ some .history) ↔ k = kid)
    (h : defn.recordRegion region hist config history = some history') : history' hist = some (.child kid) := by
  obtain ⟨d, hd, hkind⟩ := map_eq_some_iff.mp (historyChildOf_spec hhist).2
  have hshallow' : d.history = some .shallow := by rwa [historyKind, hd, bind_some] at hshallow
  rw [recordRegion, hd] at h
  simp only [hkind, ne_eq, not_true_eq_false, if_false, if_pos hshallow'] at h
  obtain ⟨hmem, hactive, hkindKid⟩ := (hkid kid).mpr rfl
  cases hfind : (defn.children region).find? fun kid => kid ∈ config ∧ defn.kind kid ≠ some .history with
  | none =>
    have hnone := find?_eq_none.mp hfind kid hmem
    simp [hactive, hkindKid] at hnone
  | some k =>
    have hk := find?_some hfind
    simp only [decide_eq_true_eq] at hk
    obtain rfl := (hkid k).mp ⟨mem_of_find?_eq_some hfind, hk⟩
    simp only [ne_eq] at hfind
    simp only [hfind] at h
    cases h
    exact update_self _ _ _

/-! ## Along a run -/

/-- A step that takes a transition carries out its plan. -/
theorem send_of_taken {c : Candidate} (hp : defn.plan i st = some p) (hc : c ∈ p.taken)
    (h : defn.send i st = some (b, st')) : st'.config = (st.config \ p.exit) ∪ p.enter ∧
      defn.recordAll (i.walk p.exit) st.config st.history = some st'.history := by
  rw [send, hp, bind_some, if_neg (ne_nil_of_mem hc)] at h
  obtain ⟨history, hhistory, heq⟩ := map_eq_some_iff.mp h
  cases heq
  exact ⟨rfl, hhistory⟩

/-- What a step exits is recorded. -/
theorem send_of_exit (hp : defn.plan i st = some p) (hs : s ∈ p.exit) (h : defn.send i st = some (b, st')) :
    defn.recordAll (i.walk p.exit) st.config st.history = some st'.history := by
  obtain ⟨l, hof, -⟩ := plan_spec hp
  obtain ⟨x, hx, -⟩ := (hof.exit s).mp hs
  exact (send_of_taken hp (hof.mem_taken hx) h).2

section

variable (hdecl : Declared defn st) (hwalk : defn.Enumerates i.walk)

include hdecl hwalk

/-- What is exited is active. -/
theorem exit_subset (hp : defn.plan i st = some p) :
    p.exit ⊆ st.config := by
  obtain ⟨l, hof, hl⟩ := plan_taken hp hdecl fun s => ((hwalk _ hdecl.config).2 s).mp
  exact (plan_sets hdecl hof hl).1

theorem mem_walk_exit (hp : defn.plan i st = some p) : s ∈ i.walk p.exit ↔ s ∈ p.exit :=
  (hwalk p.exit fun s hs => hdecl.config s (exit_subset hdecl hwalk hp hs)).2 s

/-- A step that does not leave the region leaves its history state as it is. -/
theorem history_of_not_exit (hhist : defn.historyChildOf region = some hist)
    (hexit : ∀ p, defn.plan i st = some p → region ∉ p.exit) (h : defn.send i st = some (b, st')) :
    st'.history hist = st.history hist := by
  obtain ⟨-, -, hhistory, -⟩ | ⟨p, hp, -, -, -, hhistory, -⟩ := send_cases h
  · rw [hhistory]
  · exact recordAll_other hhist (fun hmem => hexit p hp ((mem_walk_exit hdecl hwalk hp).mp hmem)) hhistory

end

theorem run_cons {before : List Input} {l : List Input} {j : Input}
    (h : defn.run (before ++ i :: (l ++ [j])) = some st') :
    ∃ st b, defn.run (before ++ i :: l) = some st ∧ defn.send j st = some (b, st') := by
  rw [← cons_append, ← append_assoc, run_concat] at h
  obtain ⟨st, hst, h⟩ := bind_eq_some_iff.mp h
  obtain ⟨⟨b, after⟩, hsend, rfl⟩ := map_eq_some_iff.mp h
  exact ⟨st, b, hst, hsend⟩

/-- What has been recorded when the region was left stays while it is not active. -/
theorem history_of_leftAt {P : Option Recording → Prop} (hwalk : ∀ i ∈ inputs, defn.Enumerates i.walk)
    (hhist : defn.historyChildOf region = some hist)
    (hP : ∀ history next, defn.recordRegion region hist config history = some next → P (next hist))
    (hleft : defn.LeftAt inputs region config) (h : defn.run inputs = some st) : P (st.history hist) := by
  obtain ⟨before, i, after, rfl, ⟨st₀, hst₀, hconfig, p, hp, hregion⟩, hsince⟩ := hleft
  subst hconfig
  have hdecl := declared_run hst₀
  induction after using reverseRecOn generalizing st with
  | nil =>
    rw [run_concat, hst₀, bind_some] at h
    obtain ⟨⟨b, st'⟩, hsend, rfl⟩ := map_eq_some_iff.mp h
    have hi := hwalk i (mem_append_right _ mem_cons_self)
    exact recordAll_self hhist hP ((mem_walk_exit hdecl hi hp).mpr hregion) (send_of_exit hp hregion hsend)
  | append_singleton l j ih =>
    obtain ⟨st₁, b, hst₁, hsend⟩ := run_cons h
    have hj : defn.Enumerates j.walk := hwalk j (by simp)
    have hrecorded := ih (fun k hk => hwalk k (by simp only [mem_append, mem_cons] at hk ⊢; tauto)) hst₁
      fun a a' ha st hst => hsince a (a' ++ [j]) (by rw [ha, append_assoc]) st hst
    have hinactive := hsince l [j] rfl st₁ hst₁
    rw [history_of_not_exit (declared_run hst₁) hj hhist (fun p hp hmem =>
      hinactive (exit_subset (declared_run hst₁) hj hp hmem)) hsend]
    exact hrecorded

theorem leftAt_concat {before : List Input} (hst : defn.run before = some st) (hp : defn.plan i st = some p)
    (hregion : region ∈ p.exit) (hinactive : ∀ st', defn.run (before ++ [i]) = some st' → region ∉ st'.config) :
    defn.LeftAt (before ++ [i]) region st.config := by
  refine ⟨before, i, [], rfl, ⟨st, hst, rfl, p, hp, hregion⟩, fun l l' hl => ?_⟩
  obtain ⟨rfl, -⟩ := append_eq_nil_iff.mp hl.symm
  exact hinactive

/-- Nothing has been recorded of a region that has not been left. -/
theorem history_of_neverLeft (hwalk : ∀ i ∈ inputs, defn.Enumerates i.walk)
    (hhist : defn.historyChildOf region = some hist) (hnever : defn.NeverLeft inputs region)
    (h : defn.run inputs = some st) : st.history hist = none := by
  induction inputs using reverseRecOn generalizing st with
  | nil =>
    obtain ⟨entered, -, rfl⟩ := map_eq_some_iff.mp h
    rfl
  | append_singleton inputs i ih =>
    obtain ⟨hbefore, hi⟩ := throughout_concat.mp hnever
    rw [run_concat] at h
    obtain ⟨before, hrun, h⟩ := bind_eq_some_iff.mp h
    obtain ⟨⟨b, after⟩, hsend, rfl⟩ := map_eq_some_iff.mp h
    have hnone := ih (fun j hj => hwalk j (mem_append_left _ hj)) hbefore hrun
    have hiwalk := hwalk i (mem_append_right _ (mem_singleton_self i))
    rw [history_of_not_exit (declared_run hrun) hiwalk hhist (hi before hrun) hsend, hnone]

theorem records_run (h : defn.run inputs = some st) : st.history.Holds (RecordsBelow defn) :=
  (run_induction (P := fun st => Declared defn st ∧ st.history.Holds (RecordsBelow defn))
    (fun st hnew => ⟨declared_new hnew, by
      obtain ⟨entered, -, rfl⟩ := map_eq_some_iff.mp hnew
      exact nofun⟩)
    (fun _ _ _ _ _ hst hsend => ⟨declared_send hst.1 hsend, records_send hst.1 hst.2 hsend⟩) h).2

/-! ## What a transition to a history state leaves active -/

theorem isProperDescendant_of_within {anc : String} (hs : s ∈ defn.ids) (hends : defn.ChainEnds s) (hne : s ≠ anc)
    (h : defn.Within s anc) : defn.isProperDescendant s anc = some true := by
  obtain ⟨b, hb⟩ := isSome_iff_exists.mp (isProperDescendant_isSome.mpr (.inr hends : _ = anc ∨ _))
  rw [hb, (isProperDescendant_eq_some hs hb).mpr ⟨hne, h⟩]

/-- The domain of a transition to a history state is its region or above it. -/
theorem region_of_taken (hdecl : Declared defn st) (hin : defn.Inward i st) (hp : defn.plan i st = some p)
    {x : Candidate × Finset String × Finset String} (hx : x.1 ∈ p.taken) {top : String}
    (htx : Taken defn i st x top) (hhist : defn.historyChildOf region = some x.1.transition.target) :
    defn.regionOf x.1.transition.target = region ∧ defn.ChainEnds region ∧ defn.Within region top ∧
      defn.RestoresDown region (st.history x.1.transition.target) (defn.startOf x.1.transition.target region) := by
  obtain ⟨hup, hkind⟩ := historyChildOf_spec hhist
  have hwell := hin p hp x.1 hx
  rw [if_pos hkind] at hwell
  obtain ⟨hparents, hne, hdown⟩ := hwell
  have hregion : defn.regionOf x.1.transition.target = region := by
    rw [hparents] at hup
    exact (mem_singleton.mp hup).symm
  obtain ⟨hends, hwithin⟩ := domain_target htx.candidate (hdecl.config _ htx.active) htx.domain
  exact ⟨hregion, hends.inv hup, hwithin.parent (fun heq => hne (heq ▸ htx.domain)) hup, hregion ▸ hdown⟩

/-- Below its region a transition to a history state leaves active what it restores. -/
theorem active_below_iff (hdecl : Declared defn st) (hrec : st.history.Holds (RecordsBelow defn))
    (hwalk : defn.Enumerates i.walk) (hin : defn.Inward i st) (hhist : defn.historyChildOf region = some hist)
    (hreturns : defn.Returns i st hist region) (h : defn.send i st = some (b, st')) :
    defn.ChainEnds region ∧ defn.RestoresDown region (st.history hist) (defn.startOf hist region) ∧
      ∃ below, defn.restoreViaHistory st.history hist region = some below ∧
        ∀ s, s ≠ region → defn.Within s region → (s ∈ st'.config ↔ s ∈ below) := by
  obtain ⟨p, hp, c, hc, rfl, hothers⟩ := hreturns
  obtain ⟨hup, hkind⟩ := historyChildOf_spec hhist
  obtain ⟨l, hof, hl⟩ := plan_taken hp hdecl fun s => ((hwalk _ hdecl.config).2 s).mp
  obtain ⟨x, hx, rfl⟩ : ∃ x ∈ l, x.1 = c := by
    rw [hof.taken] at hc
    exact List.mem_map.mp hc
  obtain ⟨top, htx⟩ := hl x hx
  obtain ⟨hregion, hends, hregionTop, hdown⟩ := region_of_taken hdecl hin hp hc htx hhist
  have htarget := target_mem_ids htx.candidate
  have henter : ∀ s, s ∈ x.2.2 ↔ defn.OnPath top region s ∨
      ∃ below, defn.restoreViaHistory st.history x.1.transition.target region = some below ∧ s ∈ below := by
    intro s
    rw [mem_enters htarget htx.enter, if_pos hkind, hregion]
  obtain ⟨below, hbelow⟩ : ∃ below, defn.restoreViaHistory st.history x.1.transition.target region = some below := by
    have henters := htx.enter
    rw [enters, if_pos hkind, hregion] at henters
    obtain ⟨path, -, henters⟩ := bind_eq_some_iff.mp henters
    obtain ⟨below, hbelow, -⟩ := map_eq_some_iff.mp henters
    exact ⟨below, hbelow⟩
  refine ⟨hends, hdown, below, hbelow, fun s hs hsr => ?_⟩
  rw [(send_of_taken hp hc h).1, Finset.mem_union, Finset.mem_sdiff]
  constructor
  · rintro (⟨hactive, hstays⟩ | hentered)
    -- what was active below the region has been exited
    · have hbelowTop := below_trans hends hs hsr hregionTop
      exact absurd ((hof.exit s).mpr ⟨x, hx, (htx.exit s).mpr ⟨hactive, hbelowTop⟩⟩) hstays
    · obtain ⟨y, hy, hsy⟩ := (hof.enter s).mp hentered
      obtain ⟨top', hty⟩ := hl y hy
      by_cases hsame : y.1 = x.1
      · obtain ⟨-, -, heq⟩ := hty.eq_of_leaf htx (congrArg Candidate.leaf hsame)
        rw [heq] at hsy
        obtain hpath | ⟨below', hbelow', hmem⟩ := (henter s).mp hsy
        · exact absurd (hsr.antisymm hpath.1 (hsr.chainEnds_below hends)) hs
        · cases hbelow.symm.trans hbelow'
          exact hmem
      -- another transition enters what is within its domain only
      · obtain ⟨hendsY, hwithinY⟩ := domain_target hty.candidate (hdecl.config _ hty.active) hty.domain
        have hsTop : defn.Within s top' := by
          obtain hstrict | ⟨rfl, -⟩ := enter_below hdecl hrec hp hin (hof.mem_taken hy) hty hsy
          · exact hstrict.2
          · exact hwithinY
        obtain ⟨hne', habove, hbelow'⟩ := hothers y.1 (hof.mem_taken hy) hsame top' hty.domain
        obtain htr | hrt := hsTop.total hsr
        · exact absurd (isProperDescendant_of_within (hwithinY.mem_ids (target_mem_ids hty.candidate))
            (hwithinY.chainEnds hendsY) hne' htr) habove
        · exact absurd (isProperDescendant_of_within (mem_ids_of_mem_parents hup) hends (Ne.symm hne') hrt) hbelow'
  · intro hmem
    exact .inr ((hof.enter s).mpr ⟨x, hx, (henter s).mpr (.inr ⟨below, hbelow, hmem⟩)⟩)

/-- In a compound region a history state has where to start. -/
theorem startOf_of_compound (hkind : defn.kind region = some .compound) :
    ∃ start, defn.startOf hist region = some start := by
  obtain ⟨d, hd, hcompound⟩ := map_eq_some_iff.mp hkind
  obtain ⟨initial, hinitial⟩ := ne_none_iff_exists'.mp (d.compound hcompound)
  cases htruthy : truthy ((defn.get? hist).bind StateDef.default) with
  | none => exact ⟨initial, by rw [startOf, htruthy, hd, none_or, bind_some, hinitial]⟩
  | some start => exact ⟨start, by rw [startOf, htruthy, some_or]⟩

/-- Where a history state starts with the child that its region enters by default, it is entered by default. -/
theorem falls_of_start {start : String} (hstart : region ∈ defn.parents start)
    (hdefault : defn.defaults region = [start]) (hs : s ≠ region) :
    defn.OnPath region start s ∨ defn.Falls start s ↔ defn.Falls region s := by
  constructor
  · rintro (⟨hpath, hstops⟩ | hfalls)
    · obtain rfl | ⟨p, hp, hwithin⟩ := hpath.cases_head
      · exact .single (by simp [hdefault])
      -- the way ends at the child
      · obtain rfl := parents_unique hp hstart
        exact absurd ⟨.single hstart, hwithin⟩ hstops
    · exact .head (by simp [hdefault]) hfalls
  · intro hfalls
    obtain rfl | ⟨c, hc, hfalls⟩ := hfalls.cases_head
    · exact absurd rfl hs
    · rw [hdefault] at hc
      obtain rfl := mem_singleton.mp hc
      exact .inr hfalls

/-! ## What is restored -/

section

variable (hwalk : ∀ i ∈ inputs, defn.Enumerates i.walk) (hrun : defn.run inputs = some st)
  (hhist : defn.historyChildOf region = some hist)

include hwalk hrun hhist

/-- A deep history state restores what was active below its region. -/
theorem restored_deep (hdeep : defn.historyKind hist ≠ some .shallow) (hleft : defn.LeftAt inputs region config)
    {below : Finset String} (hbelow : defn.restoreViaHistory st.history hist region = some below) (hs : s ≠ region)
    (hsr : defn.Within s region) : s ∈ below ↔ s ∈ config := by
  have hconfig : ∀ s ∈ config, s ∈ defn.ids := by
    obtain ⟨before, i, after, -, ⟨st₀, hst₀, rfl, -⟩, -⟩ := hleft
    exact (declared_run hst₀).config
  obtain ⟨states, hstates, hrecorded⟩ := history_of_leftAt
    (P := fun r => ∃ states, defn.properDescendants config region = some states ∧ r = some (.deepSet states))
    hwalk hhist (fun _ _ => recordRegion_deep hhist hdeep) hleft hrun
  have hmem : s ∈ below ↔ s ∈ states := by
    have hrestored := mem_restoreViaHistory hbelow (x := s)
    rwa [hrecorded] at hrestored
  rw [hmem, mem_properDescendants hconfig hstates]
  exact and_iff_left ⟨hs, hsr⟩

/-- A shallow history state restores the child that was active, with its default entry. -/
theorem restored_shallow (hshallow : defn.historyKind hist = some .shallow) (hleft : defn.LeftAt inputs region config)
    (hkid : ∀ k, (k ∈ defn.children region ∧ k ∈ config ∧ defn.kind k ≠ some .history) ↔ k = kid)
    (hdown : defn.RestoresDown region (st.history hist) (defn.startOf hist region)) {below : Finset String}
    (hbelow : defn.restoreViaHistory st.history hist region = some below) :
    (s ∈ below ↔ defn.Falls kid s) ∧ (defn.Falls kid s → defn.Within s kid) := by
  have hrecorded : st.history hist = some (.child kid) := history_of_leftAt (P := fun r => r = some (.child kid))
    hwalk hhist (fun _ _ => recordRegion_shallow hhist hshallow hkid) hleft hrun
  have hrestored := mem_restoreViaHistory hbelow (x := s)
  rw [hrecorded] at hrestored hdown
  refine ⟨hrestored, fun hfalls => ?_⟩
  unfold restoreViaHistory at hbelow
  rw [hrecorded] at hbelow
  obtain ⟨sub, hsub, -⟩ := map_eq_some_iff.mp hbelow
  exact LeadsDown.within hdown hsub hfalls

end

/-- A child of a region is below another child only if it is that child. -/
theorem eq_of_siblings {k : String} (hends : defn.ChainEnds region) (hkid : region ∈ defn.parents kid)
    (hk : region ∈ defn.parents k) (h : defn.Within k kid) : k = kid := by
  by_contra hne
  exact Acc.not_within (Within.chainEnds_below (.single hkid) hends) hkid (h.parent hne hk)

/-- A step that returns to the history state of a region leaves active below it what was active when it was left, or
the child that was active with its default entry; before it has been left, what the history state goes to. -/
theorem history_restores (hwalk : ∀ i ∈ inputs, defn.Enumerates i.walk) (hrun : defn.run inputs = some st)
    (hi : defn.Enumerates i.walk) {b : Bool} (hsend : defn.send i st = some (b, st'))
    (hhist : defn.historyChildOf region = some hist) (hcompound : defn.kind region = some .compound)
    (hin : defn.Inward i st) (hreturns : defn.Returns i st hist region) :
    (∀ config, defn.LeftAt inputs region config → (defn.historyKind hist ≠ some .shallow →
        ∀ s, s ≠ region → defn.Within s region → (s ∈ st'.config ↔ s ∈ config)) ∧
      (defn.historyKind hist = some .shallow → ∀ kid,
        (∀ k, (k ∈ defn.children region ∧ k ∈ config ∧ defn.kind k ≠ some .history) ↔ k = kid) →
          (∀ k ∈ defn.children region, k ∈ st'.config ↔ k = kid) ∧
            ∀ s, s ≠ region → defn.Within s region → (s ∈ st'.config ↔ defn.Falls kid s))) ∧
    (defn.NeverLeft inputs region → ∃ start, defn.startOf hist region = some start ∧
      (∀ s, s ≠ region → defn.Within s region → (s ∈ st'.config ↔ defn.OnPath region start s ∨ defn.Falls start s)) ∧
      (region ∈ defn.parents start → defn.defaults region = [start] →
        ∀ s, s ≠ region → defn.Within s region → (s ∈ st'.config ↔ defn.Falls region s))) := by
  obtain ⟨hends, hdown, below, hbelow, hactive⟩ :=
    active_below_iff (declared_run hrun) (records_run hrun) hi hin hhist hreturns hsend
  constructor
  · intro config hleft
    constructor
    · intro hdeep s hs hsr
      rw [hactive s hs hsr, restored_deep hwalk hrun hhist hdeep hleft hbelow hs hsr]
    · intro hshallow kid hkid
      have hfalls : ∀ s, s ≠ region → defn.Within s region → (s ∈ st'.config ↔ defn.Falls kid s) := by
        intro s hs hsr
        rw [hactive s hs hsr, (restored_shallow hwalk hrun hhist hshallow hleft hkid hdown hbelow).1]
      refine ⟨fun k hk => ?_, hfalls⟩
      have hup := mem_parents_iff_children.mpr hk
      have hne : k ≠ region := by
        rintro rfl
        exact Acc.not_within hends hup .refl
      rw [hfalls k hne (.single hup)]
      constructor
      · intro hfall
        have hwithin := (restored_shallow hwalk hrun hhist hshallow hleft hkid hdown hbelow).2 hfall
        exact eq_of_siblings hends (mem_parents_iff_children.mpr ((hkid kid).mpr rfl).1) hup hwithin
      · rintro rfl
        exact .refl
  · intro hnever
    have hnone := history_of_neverLeft hwalk hhist hnever hrun
    obtain ⟨start, hstart⟩ : ∃ start, defn.startOf hist region = some start := startOf_of_compound hcompound
    have hmem : ∀ s, s ≠ region → defn.Within s region →
        (s ∈ st'.config ↔ defn.OnPath region start s ∨ defn.Falls start s) := by
      intro s hs hsr
      have hrestored := mem_restoreViaHistory hbelow (x := s)
      rw [hnone] at hrestored
      rw [hactive s hs hsr, hrestored]
      simp [hstart]
    refine ⟨start, hstart, hmem, fun hchild hdefault s hs hsr => ?_⟩
    rw [hmem s hs hsr, falls_of_start hchild hdefault hs]

end ChartDef

/-- A radio, which is switched on as it has been switched off, and whose settings are opened where they have been
closed. -/
def radio : Value :=
  .dict [("initial", .str "app"), ("states", .dict [
    ("app", .dict [("initial", .str "off")]),
    ("off", .dict [("parent", .str "app"), ("on", .dict [("power", .str "back"), ("menu", .str "recent")])]),
    ("run", .dict [("parent", .str "app"), ("initial", .str "on"), ("on", .dict [("power", .str "off")])]),
    ("back", .dict [("parent", .str "run"), ("history", .str "deep")]),
    ("on", .dict [("parent", .str "run"), ("parallel", .bool true)]),
    ("volume", .dict [("parent", .str "on"), ("initial", .str "low")]),
    ("low", .dict [("parent", .str "volume"), ("on", .dict [("up", .str "high")])]),
    ("high", .dict [("parent", .str "volume")]),
    ("band", .dict [("parent", .str "on")]),
    ("settings", .dict [("parent", .str "app"), ("initial", .str "clock"), ("on", .dict [("menu", .str "off")])]),
    ("recent", .dict [("parent", .str "settings"), ("history", .str "shallow")]),
    ("clock", .dict [("parent", .str "settings"), ("on", .dict [("next", .str "sound")])]),
    ("sound", .dict [("parent", .str "settings"), ("initial", .str "bass")]),
    ("bass", .dict [("parent", .str "sound"), ("on", .dict [("next", .str "treble")])]),
    ("treble", .dict [("parent", .str "sound")])])]

/-- The radio is switched on for the first time and again, and its settings are opened again. -/
theorem history_restores_radio : ∃ defn, fromChart radio = .ok defn ∧
    (∃ st b st', defn.run [] = some st ∧ defn.send (defn.signal "power") st = some (b, st') ∧
      "low" ∈ st'.config ∧ ∀ s, s ≠ "run" → defn.Within s "run" → (s ∈ st'.config ↔ defn.Falls "run" s)) ∧
    (∃ left st b st', defn.run (["power", "up"].map defn.signal) = some left ∧
      defn.run (["power", "up", "power"].map defn.signal) = some st ∧
      defn.send (defn.signal "power") st = some (b, st') ∧ "high" ∈ left.config ∧
        ∀ s, s ≠ "run" → defn.Within s "run" → (s ∈ st'.config ↔ s ∈ left.config)) ∧
    (∃ st b st', defn.run (["menu", "next", "next", "menu"].map defn.signal) = some st ∧
      defn.send (defn.signal "menu") st = some (b, st') ∧ "bass" ∈ st'.config ∧
        ∀ s, s ≠ "settings" → defn.Within s "settings" → (s ∈ st'.config ↔ defn.Falls "sound" s)) := by
  obtain ⟨defn, hdefn, htest⟩ : ∃ defn, fromChart radio = .ok defn ∧
      (decide (defn.historyChildOf "run" = some "back" ∧ defn.historyChildOf "settings" = some "recent" ∧
        defn.kind "run" = some .compound ∧ defn.kind "settings" = some .compound ∧
        defn.historyKind "back" = some .deep ∧ defn.historyKind "recent" = some .shallow ∧
        defn.startOf "back" "run" = some "on" ∧ "run" ∈ defn.parents "on" ∧ defn.defaults "run" = ["on"] ∧
        (∃ st ∈ defn.run ([].map defn.signal), defn.Inward (defn.signal "power") st ∧
          defn.Returns (defn.signal "power") st "back" "run" ∧
            ∃ r ∈ defn.send (defn.signal "power") st, "low" ∈ r.2.config) ∧
        (∃ left ∈ defn.run (["power", "up"].map defn.signal), "high" ∈ left.config ∧
          ∃ p ∈ defn.plan (defn.signal "power") left, "run" ∈ p.exit) ∧
        (∃ st ∈ defn.run (["power", "up", "power"].map defn.signal), "run" ∉ st.config ∧
          defn.Inward (defn.signal "power") st ∧ defn.Returns (defn.signal "power") st "back" "run" ∧
            (defn.send (defn.signal "power") st).isSome) ∧
        (∃ left ∈ defn.run (["menu", "next", "next"].map defn.signal),
          ((defn.children "settings").filter fun k => k ∈ left.config ∧ defn.kind k ≠ some .history) = ["sound"] ∧
          ∃ p ∈ defn.plan (defn.signal "menu") left, "settings" ∈ p.exit) ∧
        (∃ st ∈ defn.run (["menu", "next", "next", "menu"].map defn.signal), "settings" ∉ st.config ∧
          defn.Inward (defn.signal "menu") st ∧ defn.Returns (defn.signal "menu") st "recent" "settings" ∧
            ∃ r ∈ defn.send (defn.signal "menu") st, "bass" ∈ r.2.config))) = true := by
    apply accepted_of_test
    decide
  obtain ⟨hback, hrecent, hrun, hsettings, hdeep, hshallow, hstart, hon, hdefault, hfirst, hoff, hagain, hclosed,
    hopen⟩ :=
    of_decide_eq_true htest
  have hsignal : ∀ event, defn.Enumerates (defn.signal event).walk :=
    fun event => ChartDef.enumerates_signal [event] _ (mem_singleton_self _)
  refine ⟨defn, hdefn, ?_, ?_, ?_⟩
  · obtain ⟨st, hst, hin, hreturns, ⟨b, st'⟩, hsend, hlow⟩ := hfirst
    obtain ⟨start, hstart', -, hrestored⟩ := (ChartDef.history_restores (ChartDef.enumerates_signal []) hst
      (hsignal "power") hsend hback hrun hin hreturns).2 throughout_nil
    cases hstart.symm.trans hstart'
    exact ⟨st, b, st', hst, hsend, hlow, hrestored hon hdefault⟩
  · obtain ⟨left, hleft, hhigh, p, hp, hexit⟩ := hoff
    obtain ⟨st, hst, hinactive, hin, hreturns, hsend⟩ := hagain
    obtain ⟨⟨b, st'⟩, hsend⟩ := isSome_iff_exists.mp hsend
    have hleftAt : defn.LeftAt (["power", "up", "power"].map defn.signal) "run" left.config := by
      refine ChartDef.leftAt_concat (i := defn.signal "power") hleft hp hexit fun st₁ hst₁ => ?_
      cases hst.symm.trans hst₁
      exact hinactive
    refine ⟨left, st, b, st', hleft, hst, hsend, hhigh, ?_⟩
    exact ((ChartDef.history_restores (ChartDef.enumerates_signal _) hst (hsignal "power") hsend hback hrun hin
      hreturns).1 left.config hleftAt).1 (by simp [hdeep])
  · obtain ⟨left, hleft, hkids, p, hp, hexit⟩ := hclosed
    obtain ⟨st, hst, hinactive, hin, hreturns, ⟨b, st'⟩, hsend, hbass⟩ := hopen
    have hleftAt : defn.LeftAt (["menu", "next", "next", "menu"].map defn.signal) "settings" left.config := by
      refine ChartDef.leftAt_concat (i := defn.signal "menu") hleft hp hexit fun st₁ hst₁ => ?_
      cases hst.symm.trans hst₁
      exact hinactive
    have hkid : ∀ k, (k ∈ defn.children "settings" ∧ k ∈ left.config ∧ defn.kind k ≠ some .history) ↔ k = "sound" := by
      intro k
      have hmem : k ∈ (defn.children "settings").filter
          (fun k => k ∈ left.config ∧ defn.kind k ≠ some .history) ↔ k = "sound" := by
        rw [hkids, mem_singleton]
      simpa using hmem
    refine ⟨st, b, st', hst, hsend, hbass, ?_⟩
    exact (((ChartDef.history_restores (ChartDef.enumerates_signal _) hst (hsignal "menu") hsend hrecent hsettings hin
      hreturns).1 left.config hleftAt).2 hshallow "sound" hkid).2

/-- A device whose history state names another child than the one that its region enters by default. -/
def device : Value :=
  .dict [("initial", .str "root"), ("states", .dict [
    ("root", .dict [("initial", .str "idle")]),
    ("idle", .dict [("parent", .str "root"), ("on", .dict [("go", .str "last")])]),
    ("work", .dict [("parent", .str "root"), ("initial", .str "slow")]),
    ("last", .dict [("parent", .str "work"), ("history", .str "deep"), ("default", .str "fast")]),
    ("slow", .dict [("parent", .str "work")]),
    ("fast", .dict [("parent", .str "work")])])]

/-- Before the region has been left the history state goes to the child that it names, not to the one that its region
enters by default. -/
theorem not_every_history_enters_by_default : ¬ ∀ value defn, fromChart value = .ok defn →
    (∀ s ∈ defn.ids, defn.kind s ≠ some .parallel) → ∀ inputs : List Input,
      (∀ i ∈ inputs, defn.Enumerates i.walk) → ∀ i st b st' region hist, defn.Enumerates i.walk →
        defn.run inputs = some st → defn.send i st = some (b, st') → defn.kind region = some .compound →
          defn.historyChildOf region = some hist → (∃ p ∈ defn.plan i st, ∃ c ∈ p.taken, c.transition.target = hist) →
            defn.NeverLeft inputs region →
              ∀ s, s ≠ region → defn.Within s region → (s ∈ st'.config ↔ defn.Falls region s) := by
  intro h
  obtain ⟨defn, hdefn, htest⟩ : ∃ defn, fromChart device = .ok defn ∧
      (decide ((∀ s ∈ defn.ids, defn.kind s ≠ some .parallel) ∧ defn.kind "work" = some .compound ∧
        defn.historyChildOf "work" = some "last" ∧ "work" ∈ defn.parents "slow" ∧ "slow" ∈ defn.defaults "work" ∧
        ∃ st ∈ defn.run ([].map defn.signal),
          (∃ p ∈ defn.plan (defn.signal "go") st, ∃ c ∈ p.taken, c.transition.target = "last") ∧
            ∃ r ∈ defn.send (defn.signal "go") st, "slow" ∉ r.2.config)) = true := by
    apply accepted_of_test
    decide
  obtain ⟨hkinds, hwork, hlast, hparent, hdefault, st, hst, htarget, ⟨b, st'⟩, hsend, hslow⟩ := of_decide_eq_true htest
  have hiff := h device defn hdefn hkinds _ (ChartDef.enumerates_signal []) (defn.signal "go") st b st' "work" "last"
    (ChartDef.enumerates_signal ["go"] _ (mem_singleton_self _)) hst hsend hwork hlast htarget
    throughout_nil "slow" (by decide) (.single hparent)
  exact hslow (hiff.mpr (.single hdefault))

end LazilyPy.Chart

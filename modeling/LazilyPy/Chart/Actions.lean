import LazilyPy.Chart.Walks

/-!
# Entry and exit actions

The trace of a run lists when the entry and exit actions of states have run. They alternate as long as a
step enters no active state that it does not exit. What is entered below the domain of a transition has
been exited; the domain itself has not, unless another transition exits it, and is entered where it is
the target.
-/

namespace LazilyPy.Chart

open List Option

/-- A run of the entry actions or of the exit actions of a state. -/
inductive Occurrence where
  | entry (state : String)
  | exit (state : String)
  deriving DecidableEq

def marks (s : String) (tr : List Occurrence) : List Bool :=
  tr.filterMap fun
    | .entry x => if x = s then some true else none
    | .exit x => if x = s then some false else none

/-- Entry actions run only for a state that is not active or has been exited before, and exit actions
only for an active one. -/
def StepAlternates (config : Finset String) (new : List Occurrence) : Prop :=
  ∀ before s after, (new = before ++ .entry s :: after → s ∉ config ∨ .exit s ∈ before) ∧
    (new = before ++ .exit s :: after → s ∈ config)

namespace ChartDef

variable (defn : ChartDef)

def occurrenceActions : Occurrence → List String
  | .entry s => ((defn.get? s).map StateDef.entry).getD []
  | .exit s => ((defn.get? s).map StateDef.exit).getD []

def occurrences (p : Plan) : List Occurrence :=
  (defn.exitOrder p.exit).map .exit ++ (defn.entryOrder p.enter).map .entry

def newTrace : Option (List Occurrence) :=
  (defn.enterSubtree defn.root).map fun entered => entered.map .entry

def sendTrace (i : Input) (st : StateChart) : Option (List Occurrence) :=
  (defn.plan i st).map fun p => if p.taken = [] then [] else defn.occurrences p

/-- The chart after these events, with the entries and exits up to there. -/
def trace (inputs : List Input) : Option (StateChart × List Occurrence) :=
  inputs.foldl (fun before i => before.bind fun b => (defn.send i b.1).bind fun r =>
      (defn.sendTrace i b.1).map fun new => (r.2, b.2 ++ new))
    (defn.new.bind fun st => defn.newTrace.map fun tr => (st, tr))

/-- Entries and exits alternate throughout a run, and tell which states are active. -/
structure Alternates (inputs : List Input) (st : StateChart) (tr : List Occurrence) : Prop where
  marks : ∀ s, Alternating (marks s tr)
  last : ∀ s, s ∈ st.config ↔ present (Chart.marks s tr)
  steps : Throughout (fun before i => ∀ st ∈ defn.run before, ∀ new ∈ defn.sendTrace i st,
    StepAlternates st.config new) inputs

/-! ## What is entered -/

/-- Default entry goes from each state to proper descendants of it. -/
def LeadsDown (s : String) : Prop :=
  ∀ l ∈ defn.enterSubtree s, ∀ x ∈ l, ∀ c ∈ defn.defaults x, defn.isProperDescendant c x = some true

/-- What is restored in a region from a recording, or without one from where the history state starts,
is below the region. -/
def RestoresDown (region : String) : Option Recording → Option String → Prop
  | none, none => True
  | none, some start => defn.isProperDescendant start region = some true ∧ defn.LeadsDown start
  | some (.child kid), _ => defn.LeadsDown kid
  | some (.deepSet _), _ => True

/-- Below the target, or the region of a target that is a history state, only descendants are entered. -/
def Inward (i : Input) (st : StateChart) : Prop :=
  ∀ p ∈ defn.plan i st, ∀ c ∈ p.taken, if defn.kind c.transition.target = some .history then
      defn.parents c.transition.target = [defn.regionOf c.transition.target] ∧
        defn.domain c ≠ some c.transition.target ∧
        defn.RestoresDown (defn.regionOf c.transition.target) (st.history c.transition.target)
          (defn.startOf c.transition.target (defn.regionOf c.transition.target))
    else defn.LeadsDown c.transition.target

/-- An active target of a transition is below the domain of a transition, and so is exited. -/
def Leaves (i : Input) (st : StateChart) : Prop :=
  ∀ p ∈ defn.plan i st, ∀ c ∈ p.taken, defn.kind c.transition.target ≠ some .history →
    c.transition.target ∈ st.config → ∃ c' ∈ p.taken, ∃ top ∈ defn.domain c',
      defn.isProperDescendant c.transition.target top = some true

instance (s : String) : Decidable (defn.LeadsDown s) :=
  inferInstanceAs (Decidable (∀ l ∈ defn.enterSubtree s, ∀ x ∈ l, ∀ c ∈ defn.defaults x,
    defn.isProperDescendant c x = some true))

instance (region : String) : ∀ r start, Decidable (defn.RestoresDown region r start)
  | none, none => .isTrue trivial
  | none, some start => inferInstanceAs (Decidable
      (defn.isProperDescendant start region = some true ∧ defn.LeadsDown start))
  | some (.child kid), _ => inferInstanceAs (Decidable (defn.LeadsDown kid))
  | some (.deepSet _), _ => .isTrue trivial

instance (i : Input) (st : StateChart) : Decidable (defn.Inward i st) :=
  inferInstanceAs (Decidable (∀ p ∈ defn.plan i st, ∀ c ∈ p.taken, if defn.kind c.transition.target = some .history then
      defn.parents c.transition.target = [defn.regionOf c.transition.target] ∧
        defn.domain c ≠ some c.transition.target ∧
        defn.RestoresDown (defn.regionOf c.transition.target) (st.history c.transition.target)
          (defn.startOf c.transition.target (defn.regionOf c.transition.target))
    else defn.LeadsDown c.transition.target))

instance (i : Input) (st : StateChart) : Decidable (defn.Leaves i st) :=
  inferInstanceAs (Decidable (∀ p ∈ defn.plan i st, ∀ c ∈ p.taken,
    defn.kind c.transition.target ≠ some .history → c.transition.target ∈ st.config →
      ∃ c' ∈ p.taken, ∃ top ∈ defn.domain c', defn.isProperDescendant c.transition.target top = some true))

variable {defn}

/-! ## The trace -/

theorem trace_concat (inputs : List Input) (i : Input) : defn.trace (inputs ++ [i]) =
    (defn.trace inputs).bind fun b => (defn.send i b.1).bind fun r =>
      (defn.sendTrace i b.1).map fun new => (r.2, b.2 ++ new) := by
  simp [trace, foldl_append]

/-- The trace belongs to the run. -/
theorem run_of_trace {inputs : List Input} {st : StateChart} {tr : List Occurrence}
    (h : defn.trace inputs = some (st, tr)) : defn.run inputs = some st := by
  induction inputs using reverseRecOn generalizing st tr with
  | nil =>
    obtain ⟨st', hnew, h⟩ := bind_eq_some_iff.mp h
    obtain ⟨_, _, heq⟩ := map_eq_some_iff.mp h
    cases heq
    exact hnew
  | append_singleton inputs i ih =>
    rw [trace_concat] at h
    obtain ⟨⟨before, tr'⟩, hbefore, h⟩ := bind_eq_some_iff.mp h
    obtain ⟨r, hr, h⟩ := bind_eq_some_iff.mp h
    obtain ⟨new, _, heq⟩ := map_eq_some_iff.mp h
    cases heq
    rw [run_concat, ih hbefore, bind_some, hr, map_some]

/-- Every run has a trace. -/
theorem trace_of_run {inputs : List Input} {st : StateChart} (h : defn.run inputs = some st) :
    ∃ tr, defn.trace inputs = some (st, tr) := by
  induction inputs using reverseRecOn generalizing st with
  | nil =>
    obtain ⟨entered, hentered, rfl⟩ := map_eq_some_iff.mp h
    exact ⟨entered.map .entry, by simp [trace, new, newTrace, hentered]⟩
  | append_singleton inputs i ih =>
    rw [run_concat] at h
    obtain ⟨before, hbefore, h⟩ := bind_eq_some_iff.mp h
    obtain ⟨r, hr, rfl⟩ := map_eq_some_iff.mp h
    obtain ⟨tr, htr⟩ := ih hbefore
    obtain ⟨p, hp, _⟩ := bind_eq_some_iff.mp hr
    obtain ⟨new, hnew⟩ : ∃ new, defn.sendTrace i before = some new := ⟨_, map_eq_some_iff.mpr ⟨p, hp, rfl⟩⟩
    exact ⟨tr ++ new, by rw [trace_concat, htr, bind_some, hr, bind_some, hnew, map_some]⟩

theorem mem_exitOrder {states : Finset String} (h : ∀ s ∈ states, s ∈ defn.ids) {s : String} :
    s ∈ defn.exitOrder states ↔ s ∈ states :=
  (mem_insertionSort _).trans ((defn.enumerates_inOrder states h).2 s)

theorem mem_entryOrder {states : Finset String} (h : ∀ s ∈ states, s ∈ defn.ids) {s : String} :
    s ∈ defn.entryOrder states ↔ s ∈ states :=
  (mem_insertionSort _).trans ((defn.enumerates_inOrder states h).2 s)

theorem exitOrder_nodup (states : Finset String) : (defn.exitOrder states).Nodup :=
  (perm_insertionSort _ _).nodup_iff.mpr (defn.states.nodup.filter _)

theorem entryOrder_nodup (states : Finset String) : (defn.entryOrder states).Nodup :=
  (perm_insertionSort _ _).nodup_iff.mpr (defn.states.nodup.filter _)

end ChartDef

theorem marks_append (s : String) (tr new : List Occurrence) : marks s (tr ++ new) = marks s tr ++ marks s new :=
  filterMap_append

/-- A state is marked once where it is listed once. -/
theorem marks_map {f : String → Occurrence} {s : String} {b : Bool}
    (hf : ∀ x, marks s [f x] = if x = s then [b] else []) {l : List String} (h : l.Nodup) :
    marks s (l.map f) = if s ∈ l then [b] else [] := by
  induction l with
  | nil => rfl
  | cons x l ih =>
    obtain ⟨hx, hl⟩ := nodup_cons.mp h
    rw [map_cons, ← singleton_append, marks_append, hf, ih hl]
    by_cases hxs : x = s
    · subst hxs
      simp [hx]
    · simp [hxs, Ne.symm hxs]

theorem marks_entry {l : List String} (h : l.Nodup) (s : String) :
    marks s (l.map .entry) = if s ∈ l then [true] else [] :=
  marks_map (fun x => by by_cases hx : x = s <;> simp [marks, hx]) h

theorem marks_exit {l : List String} (h : l.Nodup) (s : String) :
    marks s (l.map .exit) = if s ∈ l then [false] else [] :=
  marks_map (fun x => by by_cases hx : x = s <;> simp [marks, hx]) h

namespace ChartDef

variable {defn : ChartDef} {i : Input} {st : StateChart} {p : Plan}
  {l : List (Candidate × Finset String × Finset String)}

/-! ## One step -/

theorem marks_occurrences (hexit : ∀ s ∈ p.exit, s ∈ defn.ids) (henter : ∀ s ∈ p.enter, s ∈ defn.ids) (s : String) :
    marks s (defn.occurrences p) = visit (decide (s ∈ p.exit)) (decide (s ∈ p.enter)) := by
  rw [occurrences, marks_append, marks_exit (exitOrder_nodup _), marks_entry (entryOrder_nodup _), visit]
  simp only [mem_exitOrder hexit, mem_entryOrder henter, decide_eq_true_eq]

/-- Entries are preceded by the exits of the step. -/
theorem stepAlternates_occurrences (hexit : ∀ s ∈ p.exit, s ∈ defn.ids)
    (henter : ∀ s ∈ p.enter, s ∈ defn.ids) (hsub : p.exit ⊆ st.config)
    (h : ∀ s ∈ p.enter, s ∈ st.config → s ∈ p.exit) :
    StepAlternates st.config (defn.occurrences p) := by
  have hentry : ∀ s, Occurrence.entry s ∈ defn.occurrences p → s ∈ p.enter := by
    intro s hs
    simpa [occurrences, mem_entryOrder henter] using hs
  have hexits : ∀ s, Occurrence.exit s ∈ defn.occurrences p ↔ s ∈ p.exit := by
    intro s
    simp [occurrences, mem_exitOrder hexit]
  intro before s after
  constructor
  · intro heq
    have hs : s ∈ p.enter := hentry s (by simp [heq])
    by_cases hactive : s ∈ st.config
    · right
      -- the exits come first, so none of them comes after an entry
      have hmem := (hexits s).mpr (h s hs hactive)
      rw [heq] at hmem
      obtain hbefore | hafter := mem_append.mp hmem
      · exact hbefore
      · exfalso
        obtain ⟨rest, hexits', hrest⟩ | ⟨rest, hbefore, hrest⟩ :=
          append_eq_append_iff.mp (heq.symm : before ++ _ = _ ++ _)
        · cases rest with
          | nil =>
            rw [nil_append] at hrest
            rw [hrest] at hafter
            simp at hafter
          | cons o rest =>
            obtain ⟨rfl, _⟩ := cons.inj hrest
            have hin : Occurrence.entry s ∈ (defn.exitOrder p.exit).map Occurrence.exit := by
              simp [hexits']
            simp at hin
        · have hin : Occurrence.exit s ∈ (defn.entryOrder p.enter).map Occurrence.entry := by
            rw [hrest]
            exact mem_append_right _ hafter
          simp at hin
    · exact .inl hactive
  · intro heq
    exact hsub ((hexits s).mp (by simp [heq]))

variable {top s : String} {b : Bool} {st' : StateChart} {new tr : List Occurrence}

theorem domain_target {event : String} {guards : String → Bool} {leaf : String} {c : Candidate}
    (h : defn.candidate event guards leaf = some (some c)) (hleaf : leaf ∈ defn.ids)
    (htop : defn.domain c = some top) :
    defn.ChainEnds c.transition.target ∧ defn.Within c.transition.target top := by
  have hends := chainEnds_of_candidate h
  refine ⟨(domain_isSome hends.1 hends.2).mp (by rw [htop]; rfl), ?_⟩
  have htarget := target_mem_ids h
  obtain rfl := (candidate_spec h).1
  obtain ⟨internal, hinternal, htop⟩ := bind_eq_some_iff.mp htop
  split at htop
  · next hyes =>
    subst hyes
    cases htop
    unfold isInternal at hinternal
    split at hinternal
    · split at hinternal
      · next heq => exact heq ▸ .refl
      · exact ((isProperDescendant_eq_some htarget hinternal).mp rfl).2
    · cases hinternal
  · exact (lca_spec hleaf htarget htop).2.1

/-- The way to a state within `top` is strictly below `top`. -/
theorem OnPath.below {target : String} (h : defn.OnPath top target s) (htarget : defn.Within target top) :
    s ≠ top ∧ defn.Within s top := by
  have hst : defn.Within s top := by
    obtain hst | hts := h.1.total htarget
    · exact hst
    · exact absurd ⟨htarget, hts⟩ h.2
  refine ⟨?_, hst⟩
  rintro rfl
  exact h.2 ⟨htarget, .refl⟩

/-- What is strictly below a state within `top` is strictly below `top`. -/
theorem below_trans {r : String} (hends : defn.ChainEnds r) (hne : s ≠ r) (hs : defn.Within s r)
    (hr : defn.Within r top) : s ≠ top ∧ defn.Within s top := by
  refine ⟨?_, hs.trans hr⟩
  rintro rfl
  exact hne (hr.antisymm hs hends).symm

theorem LeadsDown.within {x : String} (h : defn.LeadsDown s) {l : List String} (hl : defn.enterSubtree s = some l)
    (hx : defn.Falls s x) : defn.Within x s := by
  induction hx with
  | refl => exact .refl
  | @tail y c hy hc ih =>
    have hdesc := h l hl y ((mem_enterSubtree hl).mpr hy) c hc
    exact ((isProperDescendant_eq_some (mem_ids_of_mem_defaults hc) hdesc).mp rfl).2.trans ih

/-- A recorded child is one of the region, and recorded states are below it. -/
def RecordsBelow (defn : ChartDef) (hist : String) (r : Recording) : Prop :=
  ∀ region ∈ defn.parents hist, match r with
    | .child kid => region ∈ defn.parents kid
    | .deepSet states => ∀ s ∈ states, s ≠ region ∧ defn.Within s region

/-- What is restored in a region is strictly below it. -/
theorem RestoresDown.below {history : History} {hist region : String} {below : Finset String}
    (h : defn.RestoresDown region (history hist) (defn.startOf hist region))
    (hbelow : defn.restoreViaHistory history hist region = some below) (hrec : history.Holds (RecordsBelow defn))
    (hregion : region ∈ defn.parents hist) (hends : defn.ChainEnds region) (hs : s ∈ below) :
    s ≠ region ∧ defn.Within s region := by
  have hmem := (mem_restoreViaHistory hbelow).mp hs
  unfold restoreViaHistory at hbelow
  cases hhist : history hist with
  | none =>
    simp only [hhist] at h hmem hbelow
    obtain ⟨start, hstart, hmem⟩ := hmem
    simp only [hstart] at h hbelow
    obtain ⟨hdesc, hdown⟩ := h
    obtain ⟨path, _, hsub⟩ := bind_eq_some_iff.mp hbelow
    obtain ⟨sub, hsub, _⟩ := map_eq_some_iff.mp hsub
    obtain ⟨hne, hwithin⟩ := (isProperDescendant_eq_some (startOf_mem_ids hstart) hdesc).mp rfl
    obtain hpath | hfalls := hmem
    -- the way to the start state, or its default entry
    · exact hpath.below hwithin
    · refine ⟨?_, (hdown.within hsub hfalls).trans hwithin⟩
      rintro rfl
      exact hne (hwithin.antisymm (hdown.within hsub hfalls) (hwithin.chainEnds_below hends))
  | some r =>
    cases r with
    | child kid =>
      simp only [hhist] at h hmem hbelow
      obtain ⟨sub, hsub, _⟩ := map_eq_some_iff.mp hbelow
      have hup : region ∈ defn.parents kid := hrec hist _ hhist region hregion
      have hkid : defn.Within s kid := h.within hsub hmem
      refine ⟨?_, hkid.tail hup⟩
      rintro rfl
      exact Acc.not_within (Within.chainEnds_below (.single hup) hends) hup hkid
    | deepSet states =>
      simp only [hhist] at hmem
      exact hrec hist _ hhist region hregion s hmem

section

variable (hdecl : Declared defn st) (hrec : st.history.Holds (RecordsBelow defn))

include hdecl hrec

/-- What a transition enters is strictly below its domain, but for a target that is its domain. -/
theorem enter_below (hp : defn.plan i st = some p) (hin : defn.Inward i st)
    {x : Candidate × Finset String × Finset String} (hx : x.1 ∈ p.taken) (htx : Taken defn i st x top)
    (hs : s ∈ x.2.2) :
    (s ≠ top ∧ defn.Within s top) ∨
      (s = x.1.transition.target ∧ defn.kind x.1.transition.target ≠ some .history) := by
  have htarget := target_mem_ids htx.candidate
  obtain ⟨hends, hwithin⟩ := domain_target htx.candidate (hdecl.config _ htx.active) htx.domain
  have hwell := hin p hp x.1 hx
  have hmem := (mem_enters htarget htx.enter).mp hs
  have henter := htx.enter
  unfold enters at henter
  by_cases hk : defn.kind x.1.transition.target = some .history
  · simp only [hk, if_true] at hwell hmem henter
    obtain ⟨hparents, hne, hdown⟩ := hwell
    have hup : defn.regionOf x.1.transition.target ∈ defn.parents x.1.transition.target := by
      simp [hparents]
    have hne' : x.1.transition.target ≠ top := fun heq => hne (heq ▸ htx.domain)
    have hregion := hwithin.parent hne' hup
    obtain hpath | ⟨below, hbelow, hs⟩ := hmem
    · exact .inl (hpath.below hregion)
    · have hstrict := hdown.below hbelow hrec hup (hends.inv hup) hs
      exact .inl (below_trans (hends.inv hup) hstrict.1 hstrict.2 hregion)
  · simp only [hk, if_false] at hwell hmem henter
    obtain ⟨path, _, henter⟩ := bind_eq_some_iff.mp henter
    obtain ⟨sub, hsub, _⟩ := map_eq_some_iff.mp henter
    obtain hpath | hfalls := hmem
    · exact .inl (hpath.below hwithin)
    · by_cases hst : s = x.1.transition.target
      · exact .inr ⟨hst, hk⟩
      · exact .inl (below_trans hends hst (hwell.within hsub hfalls) hwithin)

/-- A step enters no active state that it does not exit exactly if it exits the active targets of its
transitions. -/
theorem leaves_iff (hp : defn.plan i st = some p) (hin : defn.Inward i st) (hof : p.Of l)
    (hl : ∀ x ∈ l, ∃ top, Taken defn i st x top) :
    defn.Leaves i st ↔ ∀ s ∈ p.enter, s ∈ st.config → s ∈ p.exit := by
  constructor
  · intro hleaves s hs hactive
    obtain ⟨x, hx, hsx⟩ := (hof.enter s).mp hs
    obtain ⟨top, htx⟩ := hl x hx
    obtain ⟨hne, hwithin⟩ | ⟨rfl, hk⟩ := enter_below hdecl hrec hp hin (hof.mem_taken hx) htx hsx
    -- below its own domain a transition exits all that is active
    · exact (hof.exit s).mpr ⟨x, hx, (htx.exit s).mpr ⟨hactive, hne, hwithin⟩⟩
    -- the target is the domain, so another transition has to exit it
    · obtain ⟨c', hc', top', htop', hdesc⟩ := hleaves p hp x.1 (hof.mem_taken hx) hk hactive
      rw [hof.taken] at hc'
      obtain ⟨y, hy, rfl⟩ := List.mem_map.mp hc'
      obtain ⟨top'', hty⟩ := hl y hy
      obtain rfl : top'' = top' := by
        rw [hty.domain] at htop'
        exact some.inj htop'
      have hbelow := (isProperDescendant_eq_some (hdecl.config _ hactive) hdesc).mp rfl
      exact (hof.exit _).mpr ⟨y, hy, (hty.exit _).mpr ⟨hactive, hbelow⟩⟩
  · intro h q hq c hc hk hactive
    obtain rfl : q = p := some.inj (hq.symm.trans hp)
    rw [hof.taken] at hc
    obtain ⟨x, hx, rfl⟩ := List.mem_map.mp hc
    obtain ⟨top, htx⟩ := hl x hx
    have htarget := target_mem_ids htx.candidate
    have henter : x.1.transition.target ∈ x.2.2 := by
      rw [mem_enters htarget htx.enter, if_neg hk]
      exact .inr .refl
    have hexit := h _ ((hof.enter _).mpr ⟨x, hx, henter⟩) hactive
    obtain ⟨y, hy, hys⟩ := (hof.exit _).mp hexit
    obtain ⟨top', hty⟩ := hl y hy
    refine ⟨y.1, hof.mem_taken hy, top', hty.domain, ?_⟩
    obtain ⟨hends, _⟩ := domain_target htx.candidate (hdecl.config _ htx.active) htx.domain
    obtain ⟨b, hb⟩ := isSome_iff_exists.mp (isProperDescendant_isSome.mpr (.inr hends : _ = top' ∨ _))
    rw [hb, (isProperDescendant_eq_some htarget hb).mpr ((hty.exit _).mp hys).2]

structure Traced (defn : ChartDef) (st : StateChart) (tr : List Occurrence) : Prop where
  declared : Declared defn st
  records : st.history.Holds (RecordsBelow defn)
  last : ∀ s, s ∈ st.config ↔ present (marks s tr)

theorem records_send (h : defn.send i st = some (b, st')) :
    st'.history.Holds (RecordsBelow defn) := by
  obtain ⟨_, _, hhistory, _⟩ | ⟨p, _, _, _, _, hhistory, _⟩ := send_cases h
  · exact hhistory ▸ hrec
  · refine recordAll_holds hhistory hrec ?_ ?_
    · intro region _ hist hhist kid hkid _ _ r hr
      rw [eq_of_historyChildOf hhist hr]
      exact mem_parents_iff_children.mpr hkid
    · intro region _ hist hhist below hbelow r hr s hs
      rw [eq_of_historyChildOf hhist hr]
      exact ((mem_properDescendants hdecl.config hbelow).mp hs).2

end

/-- A step that rejects its event leaves no trace; otherwise the trace is that of its plan. -/
theorem sendTrace_cases (h : defn.send i st = some (b, st')) (hnew : defn.sendTrace i st = some new) :
    (new = [] ∧ st'.config = st.config ∧ ∃ p, defn.plan i st = some p ∧ p.taken = []) ∨
      ∃ p, defn.plan i st = some p ∧ new = defn.occurrences p ∧ st'.config = (st.config \ p.exit) ∪ p.enter := by
  obtain ⟨p, hp, rfl⟩ := map_eq_some_iff.mp hnew
  rw [send, hp, bind_some] at h
  by_cases htaken : p.taken = []
  · rw [if_pos htaken] at h
    cases h
    exact .inl ⟨if_pos htaken, rfl, p, hp, htaken⟩
  · rw [if_neg htaken] at h
    obtain ⟨history, _, heq⟩ := map_eq_some_iff.mp h
    cases heq
    exact .inr ⟨p, hp, if_neg htaken, rfl⟩

section

variable (h : Traced defn st tr) (hwalk : defn.Enumerates i.walk)

include h hwalk

theorem traced_send (hsend : defn.send i st = some (b, st')) (hnew : defn.sendTrace i st = some new) :
    Traced defn st' (tr ++ new) := by
  refine ⟨declared_send h.declared hsend, records_send h.declared h.records hsend, fun s => ?_⟩
  obtain ⟨rfl, hconfig, _⟩ | ⟨p, hp, rfl, hconfig⟩ := sendTrace_cases hsend hnew
  · rw [hconfig, append_nil]
    exact h.last s
  · obtain ⟨l, hof, hl⟩ := plan_taken hp h.declared fun s => ((hwalk _ h.declared.config).2 s).mp
    obtain ⟨hexit, henter⟩ := plan_sets h.declared hof hl
    rw [marks_append, marks_occurrences (fun s hs => h.declared.config s (hexit hs)) henter,
      present_visit, hconfig, Finset.mem_union, Finset.mem_sdiff, h.last s]
    simp [or_comm]

/-- One step alternates exactly if it exits the active targets of its transitions. -/
theorem alternating_send (hin : defn.Inward i st) (hsend : defn.send i st = some (b, st'))
    (hnew : defn.sendTrace i st = some new) :
    (∀ s, Alternating (marks s (tr ++ new))) ↔ (∀ s, Alternating (marks s tr)) ∧ defn.Leaves i st := by
  obtain ⟨rfl, _, p, hp, htaken⟩ | ⟨p, hp, rfl, hconfig⟩ := sendTrace_cases hsend hnew
  · simp only [append_nil]
    refine (and_iff_left fun q hq c hc => ?_).symm
    obtain rfl : q = p := some.inj (hq.symm.trans hp)
    simp [htaken] at hc
  · obtain ⟨l, hof, hl⟩ := plan_taken hp h.declared fun s => ((hwalk _ h.declared.config).2 s).mp
    obtain ⟨hexit, henter⟩ := plan_sets h.declared hof hl
    have hids : ∀ s ∈ p.exit, s ∈ defn.ids := fun s hs => h.declared.config s (hexit hs)
    have hstep : ∀ s, Alternating (marks s (tr ++ defn.occurrences p)) ↔
        Alternating (marks s tr) ∧ (s ∈ p.enter → s ∈ st.config → s ∈ p.exit) := by
      intro s
      rw [marks_append, marks_occurrences hids henter, alternating_visit]
      · simp [h.last s]
      · exact fun hs => (h.last s).mp (hexit (of_decide_eq_true hs))
    rw [leaves_iff h.declared h.records hp hin hof hl, ← forall_and]
    exact forall_congr' hstep

/-- A step that exits the active targets of its transitions enters no state that is active. -/
theorem stepAlternates_send (hin : defn.Inward i st) (hleaves : defn.Leaves i st)
    (hnew : defn.sendTrace i st = some new) : StepAlternates st.config new := by
  obtain ⟨p, hp, rfl⟩ := map_eq_some_iff.mp hnew
  split
  · exact fun before s after => ⟨fun heq => by simp at heq, fun heq => by simp at heq⟩
  · obtain ⟨l, hof, hl⟩ := plan_taken hp h.declared fun s => ((hwalk _ h.declared.config).2 s).mp
    obtain ⟨hexit, henter⟩ := plan_sets h.declared hof hl
    exact stepAlternates_occurrences (fun s hs => h.declared.config s (hexit hs)) henter hexit
      ((leaves_iff h.declared h.records hp hin hof hl).mp hleaves)

end

/-! ## Runs -/

/-- Default entry that leads down enters each state once. -/
theorem enterSubtree_nodup (hends : defn.ChainEnds s) (hdown : defn.LeadsDown s) {l : List String}
    (hl : defn.enterSubtree s = some l) : l.Nodup := by
  have hwithin : ∀ x ∈ l, ∀ y, defn.Falls x y → defn.Within y x := by
    intro x hx y hxy
    induction hxy with
    | refl => exact .refl
    | @tail y c hy hc ih =>
      have hmem : y ∈ l := (mem_enterSubtree hl).mpr (((mem_enterSubtree hl).mp hx).trans hy)
      have hdesc := hdown l hl y hmem c hc
      exact ((isProperDescendant_eq_some (mem_ids_of_mem_defaults hc) hdesc).mp rfl).2.trans ih
  have hnext : ∀ x ∈ l, ∀ c ∈ defn.defaults x, c ∈ l ∧ c ≠ x ∧ defn.Within c x := by
    intro x hx c hc
    have hdesc := hdown l hl x hx c hc
    refine ⟨(mem_enterSubtree hl).mpr (((mem_enterSubtree hl).mp hx).tail hc), ?_⟩
    exact (isProperDescendant_eq_some (mem_ids_of_mem_defaults hc) hdesc).mp rfl
  have hchain : ∀ x ∈ l, defn.ChainEnds x := by
    intro x hx
    have hsmem : s ∈ l := (mem_enterSubtree hl).mpr .refl
    exact (hwithin s hsmem x ((mem_enterSubtree hl).mp hx)).chainEnds_below hends
  have hsearch := hl
  rw [enterSubtree, enterFrom_eq] at hsearch
  refine preorder_nodup hsearch (fun x hx c hc hcx => ?_) fun x hx => ?_
  · obtain ⟨hcl, hne, hcx'⟩ := hnext x hx c hc
    exact hne (hcx'.antisymm (hwithin c hcl x hcx) (hchain c hcl))
  · obtain hnone | ⟨_, c, _, _, hone⟩ | hkids := defn.defaults_cases x
    · rw [hnone]
      exact .nil
    · rw [hone]
      exact pairwise_singleton _ _
    · -- no state is below two regions
      have hregions : (defn.children x).Pairwise fun c c' => c ≠ c' := children_nodup x
      rw [← hkids] at hregions
      refine hregions.imp_of_mem fun hc hc' hne y hy hy' => ?_
      have hup : ∀ c ∈ defn.defaults x, x ∈ defn.parents c := by
        intro c hc
        rw [hkids] at hc
        exact mem_parents_iff_children.mpr hc
      obtain ⟨hcl, hcx, hcw⟩ := hnext x hx _ hc
      obtain ⟨hcl', hcx', hcw'⟩ := hnext x hx _ hc'
      obtain htotal | htotal := (hwithin _ hcl y hy).total (hwithin _ hcl' y hy')
      · exact Acc.not_within (hchain _ hcl') (hup _ hc') (htotal.parent hne (hup _ hc))
      · exact Acc.not_within (hchain _ hcl) (hup _ hc) (htotal.parent hne.symm (hup _ hc'))

theorem traced_run {inputs : List Input} (hwalk : ∀ i ∈ inputs, defn.Enumerates i.walk)
    (hroot : defn.LeadsDown defn.root) (h : defn.trace inputs = some (st, tr)) : Traced defn st tr := by
  induction inputs using reverseRecOn generalizing st tr with
  | nil =>
    obtain ⟨st', hnew, h⟩ := bind_eq_some_iff.mp h
    obtain ⟨_, htr, heq⟩ := map_eq_some_iff.mp h
    cases heq
    obtain ⟨entered, hentered, rfl⟩ := map_eq_some_iff.mp htr
    have hdecl := declared_new hnew
    obtain ⟨_, hentered', rfl⟩ := map_eq_some_iff.mp hnew
    rw [hentered] at hentered'
    cases hentered'
    have hnodup := enterSubtree_nodup defn.chainEnds_root hroot hentered
    refine ⟨hdecl, nofun, fun s => ?_⟩
    rw [marks_entry hnodup, List.mem_toFinset]
    by_cases hs : s ∈ entered <;> simp [hs, present]
  | append_singleton inputs i ih =>
    rw [trace_concat] at h
    obtain ⟨⟨before, tr'⟩, hbefore, h⟩ := bind_eq_some_iff.mp h
    obtain ⟨r, hr, h⟩ := bind_eq_some_iff.mp h
    obtain ⟨new, hnew, heq⟩ := map_eq_some_iff.mp h
    cases heq
    have htraced := ih (fun j hj => hwalk j (mem_append_left _ hj)) hbefore
    exact traced_send htraced (hwalk i (mem_append_right _ (mem_singleton_self i))) hr hnew

/-- In a run that enters only descendants of its targets, entries and exits alternate exactly if each
step exits the active targets of its transitions. -/
theorem alternates_iff {inputs : List Input} (hwalk : ∀ i ∈ inputs, defn.Enumerates i.walk)
    (hroot : defn.LeadsDown defn.root)
    (hin : Throughout (fun before i => ∀ st ∈ defn.run before, defn.Inward i st) inputs)
    {tr : List Occurrence} (h : defn.trace inputs = some (st, tr)) :
    defn.Alternates inputs st tr ↔ Throughout (fun before i => ∀ st ∈ defn.run before, defn.Leaves i st) inputs := by
  have hmarks : (∀ s, Alternating (marks s tr)) ↔
      Throughout (fun before i => ∀ st ∈ defn.run before, defn.Leaves i st) inputs := by
    induction inputs using reverseRecOn generalizing st tr with
    | nil =>
      refine iff_of_true (fun s => ?_) throughout_nil
      obtain ⟨_, hnew, h⟩ := bind_eq_some_iff.mp h
      obtain ⟨_, htr, heq⟩ := map_eq_some_iff.mp h
      cases heq
      obtain ⟨entered, hentered, rfl⟩ := map_eq_some_iff.mp htr
      rw [marks_entry (enterSubtree_nodup defn.chainEnds_root hroot hentered)]
      by_cases hs : s ∈ entered <;> simp [hs, Alternating]
    | append_singleton inputs i ih =>
      obtain ⟨hinBefore, hi⟩ := throughout_concat.mp hin
      have hwalkBefore : ∀ j ∈ inputs, defn.Enumerates j.walk :=
        fun j hj => hwalk j (mem_append_left _ hj)
      rw [trace_concat] at h
      obtain ⟨⟨before, tr'⟩, hbefore, h⟩ := bind_eq_some_iff.mp h
      obtain ⟨r, hr, h⟩ := bind_eq_some_iff.mp h
      obtain ⟨new, hnew, heq⟩ := map_eq_some_iff.mp h
      cases heq
      have hrun := run_of_trace hbefore
      rw [throughout_concat, ← ih hwalkBefore hinBefore hbefore, alternating_send
        (traced_run hwalkBefore hroot hbefore)
        (hwalk i (mem_append_right _ (mem_singleton_self i))) (hi before hrun) hr hnew]
      -- a run comes to one state only
      refine and_congr_right fun _ => ⟨fun hleaves st hst => ?_, fun hleaves => hleaves _ hrun⟩
      rw [hrun] at hst
      cases hst
      exact hleaves
  constructor
  · exact fun halternates => hmarks.mp halternates.marks
  · intro hleaves
    refine ⟨hmarks.mpr hleaves, (traced_run hwalk hroot h).last, ?_⟩
    intro before i after heq st hst new hnew
    have hsub : ∀ j ∈ before, j ∈ inputs := fun j hj => heq ▸ mem_append_left _ hj
    obtain ⟨tr, htr⟩ := trace_of_run hst
    exact stepAlternates_send (traced_run (fun j hj => hwalk j (hsub j hj)) hroot htr)
      (hwalk i (heq ▸ by simp)) (hin before i after heq st hst) (hleaves before i after heq st hst)
      hnew

end ChartDef

def gate : Value :=
  .dict [("initial", .str "gate"), ("states", .dict [
    ("gate", .dict [("initial", .str "closed")]),
    ("closed", .dict [("parent", .str "gate"), ("on", .dict [("coin", .str "open")]),
      ("exit", .list [.str "unlock"])]),
    ("open", .dict [("parent", .str "gate"), ("initial", .str "ready"), ("on", .dict [("push", .str "closed")])]),
    ("ready", .dict [("parent", .str "open"), ("entry", .list [.str "blink"])])])]

/-- The gate is opened and closed again. -/
theorem alternates_iff_gate : ∃ defn, fromChart gate = .ok defn ∧
    ∃ st tr, defn.trace (["coin", "push"].map defn.signal) = some (st, tr) ∧
      defn.Alternates (["coin", "push"].map defn.signal) st tr := by
  obtain ⟨defn, hdefn, htest⟩ : ∃ defn, fromChart gate = .ok defn ∧ (decide (defn.LeadsDown defn.root ∧
        (defn.run (["coin", "push"].map defn.signal)).isSome ∧
        Throughout (fun before i => ∀ st ∈ defn.run before, defn.Inward i st)
          (["coin", "push"].map defn.signal) ∧
        Throughout (fun before i => ∀ st ∈ defn.run before, defn.Leaves i st)
          (["coin", "push"].map defn.signal))) = true := by
    apply accepted_of_test
    decide
  obtain ⟨hroot, hrun, hin, hleaves⟩ := of_decide_eq_true htest
  obtain ⟨st, hst⟩ := isSome_iff_exists.mp hrun
  obtain ⟨tr, htr⟩ := ChartDef.trace_of_run hst
  exact ⟨defn, hdefn, st, tr, htr, (ChartDef.alternates_iff (ChartDef.enumerates_signal _) hroot hin htr).mpr hleaves⟩

def ticker : Value :=
  .dict [("initial", .str "clock"), ("states", .dict [
    ("clock", .dict [("initial", .str "idle")]),
    ("idle", .dict [("parent", .str "clock"), ("on", .dict [("tick", .str "idle")]),
      ("entry", .list [.str "start"]), ("exit", .list [.str "stop"])])])]

/-- It is entered again without having been exited. -/
theorem not_every_run_alternates : ¬ ∀ value defn, fromChart value = .ok defn →
    ∀ inputs : List Input, (∀ i ∈ inputs, defn.Enumerates i.walk) →
      ∀ st tr, defn.trace inputs = some (st, tr) → defn.Alternates inputs st tr := by
  intro h
  obtain ⟨defn, hdefn, htest⟩ : ∃ defn, fromChart ticker = .ok defn ∧
      (decide (∃ b ∈ defn.trace (["tick"].map defn.signal), marks "idle" b.2 = [true, true])) = true := by
    apply accepted_of_test
    decide
  obtain ⟨⟨st, tr⟩, htr, hmarks⟩ := of_decide_eq_true htest
  have halternates := h ticker defn hdefn _ (ChartDef.enumerates_signal ["tick"]) st tr htr
  have hidle := halternates.marks "idle"
  rw [hmarks] at hidle
  simp [Alternating] at hidle

end LazilyPy.Chart

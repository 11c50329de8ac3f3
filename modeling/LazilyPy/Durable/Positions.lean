import LazilyPy.Durable.Client
import LazilyPy.Ingress.ExactlyOnce
import LazilyPy.Lib.Throughout

/-!
# What the durable client lists

The client reads off its two cursors what an admission has delivered. That is right unless the admission
starts a new generation over.
-/

namespace LazilyPy.Durable.DurableClient

open List Option

open Ingress (IngressCore IngressEnvelope Scope Delivery Pending)

variable {P : Type}

/-! ### Scopes of the client -/

/-- What is pending for an owner: its own events, each in its place. -/
def Placed (owner : String) (row : Pending (DurableProjectionEvent P)) : Prop :=
  row.payload.ownerId = owner ∧ row.payload.sourcePosition = row.sequence + 1

/-- A scope between two events: it is open, and its window has been drained. -/
structure Held (owner : String) (s : Scope (DurableProjectionEvent P)) : Prop where
  valid : s.Valid
  notClosed : s.lifecycle ≠ .closed
  drained : s.window = none
  placed : ∀ row ∈ s.pending.rows, Placed owner row

theorem held_new (owner : String) (generation : ℤ) : Held owner (.new (DurableProjectionEvent P) generation) :=
  ⟨Scope.valid_new generation, nofun, rfl, forall_mem_nil _⟩

theorem Held.base {owner : String} {s : Scope (DurableProjectionEvent P)} (h : Held owner s)
    (e : IngressEnvelope String (DurableProjectionEvent P)) : Held owner (s.base e) := by
  refine ⟨h.valid.base, ?_, ?_, ?_⟩
  all_goals
    unfold Scope.base
    split
  · exact h.notClosed
  · exact h.notClosed
  · rfl
  · exact h.drained
  · exact forall_mem_nil _
  · exact h.placed

structure Sound (s : DurableClient P) : Prop where
  policy : s.projections.policy = {}
  merge : s.projections.merge = keepLatest _
  observedNow : s.projections.observedNow = 0
  held : ∀ owner scope, s.projections.scope? owner = some scope → Held owner scope

theorem sound_init : Sound (init (P := P)) := by
  refine ⟨rfl, rfl, rfl, fun owner scope hscope => ?_⟩
  have hnone : (init (P := P)).projections.scope? owner = none := rfl
  rw [hnone] at hscope
  cases hscope

def scopeOf (s : DurableClient P) (event : DurableProjectionEvent P) : Scope (DurableProjectionEvent P) :=
  (s.projections.scope? event.ownerId).getD (.new _ event.generation)

theorem Sound.held_scopeOf {s : DurableClient P} (h : s.Sound) (event : DurableProjectionEvent P) :
    Held event.ownerId (s.scopeOf event) := by
  unfold scopeOf
  cases hscope : s.projections.scope? event.ownerId with
  | none => exact held_new event.ownerId event.generation
  | some scope => exact h.held event.ownerId scope hscope

/-- The cursor of an owner whose scope is open. -/
theorem cursor_eq {core : IngressCore String (DurableProjectionEvent P)} {owner : String}
    (hopen : ∀ scope, core.scope? owner = some scope → scope.lifecycle ≠ .closed) (unknown : ℤ) :
    cursor core owner unknown = ((core.scope? owner).bind Scope.deliveredThrough).getD unknown := by
  unfold cursor IngressCore.authority IngressCore.view
  cases hscope : core.scope? owner with
  | none => rfl
  | some scope =>
    have hauthority : (scope.view core.observedNow core.policy).authority =
        some ⟨scope.generation, scope.deliveredThrough, scope.stampedAt⟩ :=
      if_neg (hopen scope hscope)
    simp only [map_some, bind_some, hauthority]

theorem mergeRows_keepLatest (window : Option (DurableProjectionEvent P))
    (rows : List (Pending (DurableProjectionEvent P))) :
    Ingress.mergeRows (keepLatest (DurableProjectionEvent P)).merge window rows =
      (rows.map Pending.payload).getLast?.or window := by
  induction rows using reverseRecOn with
  | nil => rfl
  | append_singleton rows row _ =>
    rw [Ingress.mergeRows, foldl_append, map_append, map_singleton, getLast?_append, getLast?_singleton]
    show some (mergeOnto _ _ _) = _
    generalize foldl _ _ _ = w
    cases w with
    | none => rfl
    | some w => rfl

/-! ### One event -/

section Record

variable {s : DurableClient P} {event : DurableProjectionEvent P}

def rows (s : DurableClient P) (event : DurableProjectionEvent P) : List (Pending (DurableProjectionEvent P)) :=
  (s.scopeOf event).delivers s.projections.policy s.projections.merge.merge s.projections.observedNow event.envelope

def admittedScope (s : DurableClient P) (event : DurableProjectionEvent P) :
    Option (Scope (DurableProjectionEvent P)) :=
  (s.projections.admitEnvelope event.envelope).1.scope? event.ownerId

/-- The event is not taken in, and the scope is as it was or has been handed off; or it is taken in. -/
theorem admittedScope_cases (h : s.Sound) (event : DurableProjectionEvent P) :
    (s.rows event = [] ∧ ((s.projections.scope? event.ownerId = none ∧ s.admittedScope event = none) ∨
      s.admittedScope event = some (s.scopeOf event) ∨
      s.admittedScope event = some ((s.scopeOf event).base event.envelope))) ∨
    ∃ scope, s.admittedScope event = some scope ∧ scope.Valid ∧ scope.lifecycle ≠ .closed ∧
      Delivery (keepLatest _).merge event.envelope.row (s.rows event)
        ((s.scopeOf event).base event.envelope) scope := by
  have hacts := s.projections.acts_step
    (show (Ingress.Op.admitEnvelope event.envelope).key? = some event.ownerId from rfl)
  have hscope : s.admittedScope event = _ := (hacts.scope? event.ownerId).trans (if_pos rfl)
  have hover : s.projections.policy.overflow ≠ .dropOldest := by
    rw [h.policy]
    nofun
  have hheld := h.held_scopeOf event
  obtain ⟨hadmitted, hrows, hsame⟩ | ⟨hadmitted, hdelivery⟩ := Scope.delivery_decide
    s.projections.policy s.projections.merge.merge s.projections.observedNow (s.scopeOf event)
    event.envelope hover
  · refine .inl ⟨hrows, ?_⟩
    dsimp only [Ingress.Op.act] at hscope
    cases hknown : s.projections.scope? event.ownerId with
    | none =>
      refine .inl ⟨rfl, hscope.trans (if_pos ⟨by rw [hknown]; rfl, ?_⟩)⟩
      exact fun hin => Bool.false_ne_true (hadmitted.symm.trans hin)
    | some scope =>
      rw [if_neg fun hnone => by rw [hknown] at hnone; cases hnone.1] at hscope
      obtain hsame | hsame := hsame
      · exact .inr (.inl (hscope.trans (congrArg some hsame)))
      · exact .inr (.inr (hscope.trans (congrArg some hsame)))
  · dsimp only [Ingress.Op.act] at hscope
    rw [if_neg fun hnone => hnone.2 hadmitted] at hscope
    refine .inr ⟨_, hscope, hheld.valid.decide, Scope.decide_ne_closed hheld.notClosed, ?_⟩
    rw [h.merge] at hdelivery ⊢
    unfold rows
    rw [h.merge]
    exact hdelivery

theorem scope?_admitEnvelope_of_ne {owner : String} (hne : owner ≠ event.ownerId) :
    (s.projections.admitEnvelope event.envelope).1.scope? owner = s.projections.scope? owner := by
  have hacts := s.projections.acts_step
    (show (Ingress.Op.admitEnvelope event.envelope).key? = some event.ownerId from rfl)
  exact (hacts.scope? owner).trans (if_neg hne)

/-- What a drain leaves of the scope of its key, and what it takes. -/
theorem scope?_drain (core : IngressCore String (DurableProjectionEvent P)) (key owner : String) :
    (core.drain key).1.scope? owner = if owner = key then
      (core.scope? key).map fun scope => if scope.window.isNone then scope else scope.clearWindow
      else core.scope? owner := by
  have hacts := core.acts_step (show (Ingress.Op.drain key).key? = some key from rfl)
  refine (hacts.scope? owner).trans ?_
  split
  · dsimp only [Ingress.Op.act]
    cases core.scope? key with
    | none => rfl
    | some scope =>
      dsimp only [map_some]
      split
      · rfl
      · rfl
  · rfl

theorem drained_eq (core : IngressCore String (DurableProjectionEvent P)) (key : String) :
    (core.drain key).2.2 = (core.scope? key).bind Scope.window := by
  unfold IngressCore.drain
  cases core.scope? key with
  | none => rfl
  | some scope =>
    dsimp only [bind_some]
    cases scope.window with
    | none => rfl
    | some value => rfl

theorem placed_envelope (event : DurableProjectionEvent P) : Placed event.ownerId event.envelope.row :=
  ⟨rfl, (sub_add_cancel event.sourcePosition 1).symm⟩

variable {scope : Scope (DurableProjectionEvent P)}

theorem Sound.held_admittedScope (h : s.Sound) (hscope : s.admittedScope event = some scope) :
    scope.Valid ∧ scope.lifecycle ≠ .closed ∧
      ∀ row ∈ scope.pending.rows, Placed event.ownerId row := by
  have hheld := h.held_scopeOf event
  have hbase := hheld.base event.envelope
  obtain ⟨-, ⟨-, hnone⟩ | hsame | hsame⟩ | ⟨admitted, hsome, hvalid, hopen, hdelivery⟩ := admittedScope_cases h event
  · rw [hnone] at hscope
    cases hscope
  · obtain rfl := some.inj (hsame.symm.trans hscope)
    exact ⟨hheld.valid, hheld.notClosed, hheld.placed⟩
  · obtain rfl := some.inj (hsame.symm.trans hscope)
    exact ⟨hbase.valid, hbase.notClosed, hbase.placed⟩
  · obtain rfl := some.inj (hsome.symm.trans hscope)
    refine ⟨hvalid, hopen, fun row hrow => ?_⟩
    obtain hrow | rfl := hdelivery.pending row hrow
    · exact hbase.placed row hrow
    · exact placed_envelope event

theorem Sound.record (h : s.Sound) (event : DurableProjectionEvent P) : (s.record event).2.Sound := by
  have hadmit := s.projections.acts_step
    (show (Ingress.Op.admitEnvelope event.envelope).key? = some event.ownerId from rfl)
  have hdrain := (s.projections.admitEnvelope event.envelope).1.acts_step
    (show (Ingress.Op.drain event.ownerId).key? = some event.ownerId from rfl)
  refine ⟨(hdrain.policy.trans hadmit.policy).trans h.policy, (hdrain.merge.trans hadmit.merge).trans h.merge,
    (hdrain.observedNow.trans hadmit.observedNow).trans h.observedNow, fun owner scope hscope => ?_⟩
  have hscope' := (scope?_drain _ event.ownerId owner).symm.trans hscope
  split at hscope'
  next hsame =>
    subst hsame
    obtain ⟨admitted, hadmitted, rfl⟩ := map_eq_some_iff.mp hscope'
    obtain ⟨hvalid, hopen, hplaced⟩ := h.held_admittedScope hadmitted
    split
    next hnone => exact ⟨hvalid, hopen, isNone_iff_eq_none.mp hnone, hplaced⟩
    · exact ⟨hvalid.clearWindow, hopen, rfl, hplaced⟩
  next hne =>
    rw [scope?_admitEnvelope_of_ne hne] at hscope'
    exact h.held owner scope hscope'

/-- Every row that is delivered is an event of the owner, in its place. -/
theorem Sound.placed_rows (h : s.Sound) {row : Pending (DurableProjectionEvent P)}
    (hrow : row ∈ s.rows event) : Placed event.ownerId row := by
  obtain ⟨hnone, -⟩ | ⟨_, -, -, -, hdelivery⟩ := admittedScope_cases h event
  · rw [hnone] at hrow
    cases hrow
  · obtain hrow | rfl := hdelivery.mem row hrow
    · exact ((h.held_scopeOf event).base event.envelope).placed row hrow
    · exact placed_envelope event

/-! ### The latest projection -/

section

variable (h : s.Sound) (event : DurableProjectionEvent P)

include h

theorem projection_record (owner : String) : (s.record event).2.projection owner = if owner = event.ownerId then
      ((s.rows event).map Pending.payload).getLast?.or (s.projection owner)
      else s.projection owner := by
  have hdrained : ((s.projections.admitEnvelope event.envelope).1.drain event.ownerId).2.2 =
      ((s.rows event).map Pending.payload).getLast? := by
    rw [drained_eq]
    have hbase := (h.held_scopeOf event).base event.envelope
    show (s.admittedScope event).bind Scope.window = _
    obtain ⟨hrows, ⟨-, hnone⟩ | hsame | hsame⟩ | ⟨admitted, hsome, -, -, hdelivery⟩ := admittedScope_cases h event
    · rw [hnone, hrows]
      rfl
    · rw [hsame, hrows]
      exact (h.held_scopeOf event).drained
    · rw [hsame, hrows]
      exact hbase.drained
    · rw [hsome, bind_some, hdelivery.window, mergeRows_keepLatest, hbase.drained, or_none]
  unfold projection record
  dsimp only
  rw [hdrained]
  cases ((s.rows event).map Pending.payload).getLast? with
  | none => exact (ite_self _).symm
  | some projected =>
    rw [elim_some, Table.get?_put]
    split
    · rfl
    · rfl

/-! ### The positions -/

/-- The cursor before the admission. -/
theorem Sound.cursor_before :
    cursor s.projections event.ownerId (-1) = (s.scopeOf event).nextExpected - 1 := by
  rw [cursor_eq fun scope hscope => (h.held event.ownerId scope hscope).notClosed]
  unfold scopeOf
  cases s.projections.scope? event.ownerId with
  | none => rfl
  | some scope =>
    rw [bind_some, getD_some, Scope.nextExpected]
    cases scope.deliveredThrough with
    | none => rfl
    | some d => exact (add_sub_cancel_right d 1).symm

/-- The cursor after the admission. -/
theorem Sound.cursor_after (before : ℤ) : cursor (s.projections.admitEnvelope event.envelope).1 event.ownerId before =
      ((s.admittedScope event).bind Scope.deliveredThrough).getD before :=
  cursor_eq (fun _ hscope => (h.held_admittedScope hscope).2.1) before

end

theorem resets_iff (h : s.Sound) (hobserves : s.Observes event) : s.Resets event ↔
    event.sourcePosition = 1 ∧ (s.scopeOf event).generation < event.generation ∧
      (s.scopeOf event).deliveredThrough ≠ none := by
  have hauthority : (∃ authority ∈ s.projections.authority event.ownerId,
      authority.generation < event.generation ∧ authority.deliveredThrough ≠ none) ↔
      (s.scopeOf event).generation < event.generation ∧ (s.scopeOf event).deliveredThrough ≠ none := by
    unfold IngressCore.authority IngressCore.view scopeOf
    cases hscope : s.projections.scope? event.ownerId with
    | none => exact iff_of_false nofun fun hlt => lt_irrefl event.generation hlt.1
    | some scope =>
      have hopen : (scope.view s.projections.observedNow s.projections.policy).authority =
          some ⟨scope.generation, scope.deliveredThrough, scope.stampedAt⟩ :=
        if_neg (h.held event.ownerId scope hscope).notClosed
      simp [hopen]
  unfold Resets
  rw [hauthority]
  exact and_iff_right hobserves

/-- A scope that has delivered nothing expects the first sequence. -/
theorem nextExpected_of_none (h : scope.deliveredThrough = none) : scope.nextExpected = 0 := by
  rw [Scope.nextExpected, h]

theorem nextExpected_of_some {d : ℤ} (h : scope.deliveredThrough = some d) : scope.nextExpected = d + 1 := by
  rw [Scope.nextExpected, h]

/-- The cursor that is read of a scope. -/
theorem getD_deliveredThrough (scope : Scope (DurableProjectionEvent P)) (before : ℤ) :
    scope.deliveredThrough = none ∧ scope.deliveredThrough.getD before = before ∨
    scope.deliveredThrough ≠ none ∧ scope.deliveredThrough.getD before = scope.nextExpected - 1 := by
  cases hd : scope.deliveredThrough with
  | none => exact .inl ⟨rfl, rfl⟩
  | some d =>
    refine .inr ⟨nofun, ?_⟩
    rw [nextExpected_of_some hd]
    exact (add_sub_cancel_right d 1).symm

/-- Without a new generation the admission is to the scope as it is. -/
theorem base_eq (s : DurableClient P) (event : DurableProjectionEvent P) :
    (¬ (s.scopeOf event).generation < event.generation ∧ (s.scopeOf event).base event.envelope = s.scopeOf event) ∨
    ((s.scopeOf event).generation < event.generation ∧
      (s.scopeOf event).base event.envelope = (s.scopeOf event).handOff event.generation) := by
  unfold Scope.base
  by_cases hlt : (s.scopeOf event).generation < event.generation
  · exact .inr ⟨hlt, if_pos hlt⟩
  · exact .inl ⟨hlt, if_neg hlt⟩

/-- The first event of a new generation is delivered. -/
theorem rows_ne_nil_of_resets (h : s.Sound) (hresets : s.Resets event) : s.rows event ≠ [] := by
  have hobserves := hresets.1
  obtain ⟨hposition, hlt, -⟩ := (resets_iff h hobserves).mp hresets
  have hfenced : ¬ (s.scopeOf event).Fenced s.projections.policy s.projections.observedNow
      event.envelope := by
    rintro (hclosed | hstale | hexpired)
    · exact (h.held_scopeOf event).notClosed hclosed
    · exact absurd (hlt.trans hstale) (lt_irrefl _)
    · rw [h.policy, h.observedNow] at hexpired
      have hstamp : event.envelope.stampedAt = 1 := hposition
      rw [hstamp] at hexpired
      exact absurd hexpired (by decide)
  have hbase : (s.scopeOf event).base event.envelope = (s.scopeOf event).handOff event.generation := if_pos hlt
  have hdelivers : ((s.scopeOf event).base event.envelope).Delivers s.projections.policy
      event.envelope := by
    constructor
    · rw [hbase]
      show event.sourcePosition - 1 = 0
      omega
    · rintro ⟨-, hoverflow⟩
      rw [h.policy] at hoverflow
      obtain hblock | hdrop := hoverflow
      · cases hblock
      · cases hdrop
  obtain ⟨handoff, hdecide⟩ := Scope.decide_of_not_fenced s.projections.merge.merge hfenced
  unfold rows Scope.delivers
  rw [hdecide, Scope.order_of_delivers hdelivers]
  exact cons_ne_nil _ _

/-- A run that starts over delivers one event, since nothing is pending. -/
theorem rows_handOff (hlt : (s.scopeOf event).generation < event.generation)
    (hdelivery : Delivery (keepLatest _).merge event.envelope.row (s.rows event)
      ((s.scopeOf event).base event.envelope) scope) (hne : s.rows event ≠ []) :
    event.sourcePosition = 1 ∧ (s.rows event).length = 1 := by
  have hbase : (s.scopeOf event).base event.envelope = (s.scopeOf event).handOff event.generation := if_pos hlt
  have hseq := hdelivery.sequences
  have hmem := hdelivery.mem
  rw [hbase] at hseq hmem
  have hself : ∀ row ∈ s.rows event, row = event.envelope.row := fun row hrow =>
    (hmem row hrow).resolve_left not_mem_nil
  have hnext : ((s.scopeOf event).handOff event.generation).nextExpected = 0 := rfl
  rw [hnext] at hseq
  generalize hrows : s.rows event = l at hseq hself hne ⊢
  cases l with
  | nil => exact absurd rfl hne
  | cons row l =>
    have hrow := hself row mem_cons_self
    obtain ⟨hfirst, hrest⟩ := cons.inj hseq
    have hzero : event.sourcePosition - 1 = 0 := by
      rw [hrow] at hfirst
      exact hfirst
    refine ⟨by omega, ?_⟩
    cases l with
    | nil => rfl
    | cons row' l =>
      -- a second row would be the same one, at the next sequence
      have hrow' := hself row' (mem_cons_of_mem _ mem_cons_self)
      obtain ⟨hsecond, -⟩ := cons.inj hrest
      rw [hrow'] at hsecond
      have hone : event.sourcePosition - 1 = 0 + 1 := hsecond
      omega

/-- The cursors before and after an admission tell what it has delivered, unless it starts over. -/
theorem advance (h : s.Sound) (hobserves : s.Observes event) {before after : ℤ}
    (hbefore : cursor s.projections event.ownerId (-1) = before)
    (hafter : cursor (s.projections.admitEnvelope event.envelope).1 event.ownerId before = after) :
    (¬ s.Resets event ∧ s.rows event = [] ∧ ¬ before < after) ∨
    (¬ s.Resets event ∧ before < after ∧ (s.rows event).map Pending.sequence =
      Ingress.sequences (before + 1) (after - before).toNat) ∨
    (s.Resets event ∧ ¬ before < after) := by
  rw [h.cursor_before event] at hbefore
  rw [h.cursor_after event] at hafter
  have hresets := resets_iff h hobserves
  have hnonneg := Scope.nextExpected_nonneg (h.held_scopeOf event).valid
  have hnot (hnil : s.rows event = []) : ¬ s.Resets event := fun hr =>
    rows_ne_nil_of_resets h hr hnil
  obtain ⟨hnil, hscope⟩ | ⟨scope, hsome, hvalid, -, hdelivery⟩ := admittedScope_cases h event
  · refine .inl ⟨hnot hnil, hnil, ?_⟩
    obtain ⟨-, hnone⟩ | hsame | hsame := hscope
    · rw [hnone, bind_none, getD_none] at hafter
      omega
    · rw [hsame, bind_some] at hafter
      obtain ⟨-, hd⟩ | ⟨-, hd⟩ := getD_deliveredThrough (s.scopeOf event) before
      · omega
      · omega
    · rw [hsame, bind_some] at hafter
      obtain ⟨-, hbase⟩ | ⟨-, hbase⟩ := base_eq s event
      · rw [hbase] at hafter
        obtain ⟨-, hd⟩ | ⟨-, hd⟩ := getD_deliveredThrough (s.scopeOf event) before
        · omega
        · omega
      · rw [hbase] at hafter
        have hd : before = after := hafter
        omega
  · rw [hsome, bind_some] at hafter
    have hcursor := hdelivery.cursor
    by_cases hnil : s.rows event = []
    · refine .inl ⟨hnot hnil, hnil, ?_⟩
      rw [hnil, length_nil] at hcursor
      obtain ⟨-, hd⟩ | ⟨hne, hd⟩ := getD_deliveredThrough scope before
      · omega
      · obtain ⟨-, hbase⟩ | ⟨-, hbase⟩ := base_eq s event
        · rw [hbase] at hcursor
          omega
        · rw [hbase] at hcursor
          have hzero : ((s.scopeOf event).handOff event.generation).nextExpected = 0 := rfl
          omega
    · have hpos := length_pos_iff.mpr hnil
      have hsequences := hdelivery.sequences
      have hmoved : scope.deliveredThrough ≠ none := by
        intro hnone
        rw [nextExpected_of_none hnone] at hcursor
        have hbase := Scope.nextExpected_nonneg ((h.held_scopeOf event).base event.envelope).valid
        omega
      have hd : scope.deliveredThrough.getD before = scope.nextExpected - 1 :=
        ((getD_deliveredThrough scope before).resolve_left fun hnone => hmoved hnone.1).2
      obtain ⟨hlt, hbase⟩ | ⟨hlt, hbase⟩ := base_eq s event
      · rw [hbase] at hcursor hsequences
        refine .inr (.inl ⟨fun hr => hlt (hresets.mp hr).2.1, by omega, ?_⟩)
        have hfirst : before + 1 = (s.scopeOf event).nextExpected := by omega
        have hcount : (after - before).toNat = (s.rows event).length := by omega
        rw [hfirst, hcount]
        exact hsequences
      · obtain ⟨hposition, hlength⟩ := rows_handOff hlt hdelivery hnil
        rw [hbase] at hcursor hsequences
        have hzero : ((s.scopeOf event).handOff event.generation).nextExpected = 0 := rfl
        obtain ⟨hnone, -⟩ | ⟨hsome', -⟩ := getD_deliveredThrough (s.scopeOf event) before
        · -- the generation before had delivered nothing
          have hstart := nextExpected_of_none hnone
          refine .inr (.inl ⟨fun hr => (hresets.mp hr).2.2 hnone, by omega, ?_⟩)
          have hfirst : before + 1 = 0 := by omega
          have hcount : (after - before).toNat = (s.rows event).length := by omega
          rw [hfirst, hcount]
          exact hsequences
        · refine .inr (.inr ⟨hresets.mpr ⟨hposition, hlt, hsome'⟩, ?_⟩)
          obtain ⟨d, hdelivered⟩ := ne_none_iff_exists'.mp hsome'
          have hstart := nextExpected_of_some hdelivered
          have hle := (h.held_scopeOf event).valid.cursor d hdelivered
          omega

/-- What is listed of an event: what has been delivered, or nothing if a new generation starts over. -/
theorem applied_record (h : s.Sound) (hobserves : s.Observes event) (owner : String) :
    (s.record event).2.appliedSourcePositions owner = if owner = event.ownerId then
      s.appliedSourcePositions owner ++ if s.Resets event then [] else
        (s.rows event).map fun row => row.payload.sourcePosition
      else s.appliedSourcePositions owner := by
  have hpositions : ((s.rows event).map fun row => row.payload.sourcePosition) =
      ((s.rows event).map Pending.sequence).map (· + 1) := by
    rw [List.map_map]
    exact map_congr_left fun row hrow => (h.placed_rows hrow).2
  have hsame : (if owner = event.ownerId then s.appliedSourcePositions owner ++ [] else
      s.appliedSourcePositions owner) = s.appliedSourcePositions owner := by
    rw [append_nil, ite_self]
  rw [hpositions]
  unfold record
  dsimp only
  obtain ⟨hresets, hnil, hnot⟩ | ⟨hresets, hlt, hrows⟩ | ⟨hresets, hnot⟩ := advance h hobserves rfl rfl
  · rw [if_neg hnot, if_neg hresets, hnil, map_nil, map_nil, hsame]
    rfl
  · rw [if_pos hlt, if_neg hresets, hrows]
    show ((Table.get? (Table.put _ _) owner).map Prod.snd).getD [] = _
    rw [Table.get?_put]
    split
    next heq => rw [heq]; rfl
    · rfl
  · rw [if_neg hnot, if_pos hresets, hsame]
    rfl

end Record

/-! ### Runs -/

theorem observeProjection_of_observes {s : DurableClient P} {event : DurableProjectionEvent P}
    (h : s.Observes event) :
    s.observeProjection event = (.ok (s.record event).1, (s.record event).2) := by
  unfold observeProjection
  rw [h.1]
  exact if_neg h.2

theorem observeProjection_of_not_observes {s : DurableClient P} {event : DurableProjectionEvent P}
    (h : ¬ s.Observes event) : (s.observeProjection event).2 = s := by
  unfold observeProjection
  cases hvalid : event.validate with
  | error error => rfl
  | ok =>
    have hconflicts : s.Conflicts event := by
      by_contra hnot
      exact h ⟨hvalid, hnot⟩
    rw [if_pos hconflicts]

section

variable (events : List (DurableProjectionEvent P))

theorem run_concat (event : DurableProjectionEvent P) :
    run (events ++ [event]) = ((run events).observeProjection event).2 := by
  unfold run session
  rw [foldl_concat]

theorem delivered_concat (event : DurableProjectionEvent P) (owner : String) :
    delivered (events ++ [event]) owner = delivered events owner ++
      ((run events).delivers event).filter fun event => event.ownerId = owner := by
  unfold delivered run session
  rw [foldl_concat, filter_append]

theorem sound_run : (run events).Sound := by
  induction events using reverseRecOn with
  | nil => exact sound_init
  | append_singleton events event ih =>
    rw [run_concat]
    by_cases h : (run events).Observes event
    · rw [observeProjection_of_observes h]
      exact ih.record event
    · rw [observeProjection_of_not_observes h]
      exact ih

end

/-- The client lists the positions of what has been delivered, and shows what was delivered last. -/
def Follows (events : List (DurableProjectionEvent P)) : Prop :=
  ∀ owner, (run events).appliedSourcePositions owner =
      (delivered events owner).map DurableProjectionEvent.sourcePosition ∧
    (run events).projection owner = (delivered events owner).getLast?

/-- An event that has the identity of an earlier one and another fingerprint is an error, and changes
nothing. -/
def RefusesConflicts (events : List (DurableProjectionEvent P)) : Prop :=
  ∀ before prior after event, events = before ++ prior :: after → (run before).Observes prior →
    event.validate = .ok () → event.identity = prior.identity → event.fingerprint ≠ prior.fingerprint →
      (run events).observeProjection event =
        (.error s!"conflicting durable projection at {event.ownerId}/{event.sourcePosition}", run events)

/-- What a client has observed it keeps the fingerprint of. -/
theorem fingerprint_kept {s : DurableClient P} {row : (String × ℤ × ℤ) × (String × String × ℤ × ℤ)}
    {identity : String × ℤ × ℤ} (hrow : s.projectionIdentities.get? identity = some row)
    (event : DurableProjectionEvent P) :
    (s.observeProjection event).2.projectionIdentities.get? identity = some row := by
  by_cases h : s.Observes event
  · rw [observeProjection_of_observes h]
    show (s.projectionIdentities.put _).get? identity = _
    rw [Table.get?_put]
    split
    next heq =>
      have hkey := Table.key_of_get? hrow
      have hsame : row.2 = event.fingerprint := by
        by_contra hne
        refine h.2 ⟨row, ?_, hne⟩
        rw [← show identity = event.identity from heq]
        exact hrow
      rw [← hsame, ← show identity = event.identity from heq, ← hkey]
    · exact hrow
  · rw [observeProjection_of_not_observes h]
    exact hrow

theorem refusesConflicts (events : List (DurableProjectionEvent P)) : RefusesConflicts events := by
  intro before prior after event heq hobserves hvalid hidentity hfingerprint
  have hkept : (run events).projectionIdentities.get? event.identity = some (prior.identity, prior.fingerprint) := by
    subst heq
    induction after using reverseRecOn with
    | nil =>
      rw [run_concat, observeProjection_of_observes hobserves]
      show (Table.put _ _).get? event.identity = _
      rw [Table.get?_put, if_pos hidentity]
    | append_singleton after event' ih =>
      have hsplit : before ++ prior :: (after ++ [event']) = (before ++ prior :: after) ++ [event'] := by
        rw [append_assoc, cons_append]
      rw [hsplit, run_concat]
      exact fingerprint_kept ih event'
  unfold observeProjection
  rw [hvalid]
  exact if_pos ⟨_, hkept, fun hsame => hfingerprint hsame.symm⟩

/-- One more event is followed if and only if it starts no generation over. -/
theorem follows_concat {events : List (DurableProjectionEvent P)} (h : Follows events)
    (event : DurableProjectionEvent P) :
    Follows (events ++ [event]) ↔ ¬ (run events).Resets event := by
  have hsound := sound_run events
  by_cases hobserves : (run events).Observes event
  · have hrun : run (events ++ [event]) = ((run events).record event).2 := by
      rw [run_concat, observeProjection_of_observes hobserves]
    have hdelivers : (run events).delivers event = ((run events).rows event).map Pending.payload := if_pos hobserves
    -- what is delivered is of the owner of the event
    have hof (owner : String) : delivered (events ++ [event]) owner = delivered events owner ++
        if owner = event.ownerId then ((run events).rows event).map Pending.payload else [] := by
      rw [delivered_concat, hdelivers]
      refine congrArg (delivered events owner ++ ·) ?_
      split
      next heq =>
        refine filter_eq_self.mpr fun event' hevent' => ?_
        obtain ⟨row, hrow, rfl⟩ := List.mem_map.mp hevent'
        exact decide_eq_true ((hsound.placed_rows hrow).1.trans heq.symm)
      next hne =>
        refine filter_eq_nil_iff.mpr fun event' hevent' => ?_
        obtain ⟨row, hrow, rfl⟩ := List.mem_map.mp hevent'
        exact fun heq => hne ((of_decide_eq_true heq).symm.trans (hsound.placed_rows hrow).1)
    constructor
    · intro hfollows hresets
      have happlied := (hfollows event.ownerId).1
      rw [hrun, hof, applied_record hsound hobserves, if_pos rfl, if_pos rfl, if_pos hresets,
        (h event.ownerId).1, map_append, append_cancel_left_eq] at happlied
      exact rows_ne_nil_of_resets hsound hresets (map_eq_nil_iff.mp (map_eq_nil_iff.mp happlied.symm))
    · intro hresets owner
      rw [hrun, hof, applied_record hsound hobserves, projection_record hsound, if_neg hresets]
      split
      · rw [(h owner).1, (h owner).2, map_append, List.map_map, getLast?_append]
        exact ⟨rfl, rfl⟩
      · rw [append_nil]
        exact h owner
  · have hrun : run (events ++ [event]) = run events := by
      rw [run_concat, observeProjection_of_not_observes hobserves]
    refine iff_of_true (fun owner => ?_) fun hresets => hobserves hresets.1
    have hnone : (run events).delivers event = [] := if_neg hobserves
    rw [hrun, delivered_concat, hnone, filter_nil, append_nil]
    exact h owner

/-- In every state of a run the client lists the positions of what has been delivered for each owner,
shows what was delivered last, and refuses conflicts, if and only if no event starts a new generation of
its owner over while the one before it has delivered. -/
theorem follows_iff (events : List (DurableProjectionEvent P)) :
    (∀ before after, events = before ++ after → Follows before ∧ RefusesConflicts before) ↔
      Throughout (fun before event => ¬ (run before).Resets event) events := by
  constructor
  · intro h before event after heq
    have hfollows := (h (before ++ [event]) after
      (by rw [heq, append_assoc, singleton_append])).1
    exact (follows_concat (h before (event :: after) heq).1 event).mp hfollows
  · intro h before
    induction before using reverseRecOn with
    | nil => exact fun _ _ => ⟨fun _ => ⟨rfl, rfl⟩, refusesConflicts []⟩
    | append_singleton before event ih =>
      intro after heq
      rw [append_assoc, singleton_append] at heq
      refine ⟨?_, refusesConflicts _⟩
      exact (follows_concat (ih _ heq).1 event).mpr (h before event after heq)

/-- An event of one generation and then one of the next, both at the first position: the second is
delivered and not listed. -/
theorem handoff_not_listed :
    let event (generation : ℤ) : DurableProjectionEvent Unit :=
      { protocolVersion := 1
        ownerId := "owner"
        generation := generation
        sourcePosition := 1
        projectionVersion := 1
        schemaVersion := 1
        codecVersion := 1
        completeness := .completeHistory
        entries := ()
        sourceFingerprint := "source"
        projectionFingerprint := "projection"
        health := .healthy }
    (∀ generation ∈ [1, 2], (event generation).validate = .ok ()) ∧
      delivered [event 1, event 2] "owner" = [event 1, event 2] ∧
      (run [event 1, event 2]).appliedSourcePositions "owner" = [1] ∧
      ¬ Follows [event 1, event 2] := by
  intro event
  have hdelivered : delivered [event 1, event 2] "owner" = [event 1, event 2] := by decide +kernel
  have hlisted : (run [event 1, event 2]).appliedSourcePositions "owner" = [1] := by decide +kernel
  refine ⟨by decide +kernel, hdelivered, hlisted, fun hfollows => ?_⟩
  have h := (hfollows "owner").1
  rw [hdelivered, hlisted] at h
  exact absurd h (by decide)

end LazilyPy.Durable.DurableClient

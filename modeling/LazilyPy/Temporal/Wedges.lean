import LazilyPy.Lib.Throughout
import LazilyPy.Temporal.ProjectedChart

/-!
# Wedges and the ticks that report them

An occupancy of a state lasts from the observation that enters it to the one that leaves it. The observer's clock is
moved by ticks and by observations, and only a tick says that the chart has become wedged. So a wedge is reported once,
by the tick that takes the clock past the deadline, or not at all, if an observation has done so before.
-/

namespace LazilyPy.Temporal

open List

inductive ChartOp
  | observe (state : String) (at_ : ℤ)
  | tick (now : ℤ)
  deriving DecidableEq

namespace ProjectedChartCore

def next (s : ProjectedChartCore) : ChartOp → ProjectedChartCore
  | .observe state at_ => (s.observe state at_).2
  | .tick now =>
    match s.tick now with
    | .ok (_, s') => s'
    | .error _ => s

def run (s : ProjectedChartCore) (ops : List ChartOp) : ProjectedChartCore :=
  ops.foldl next s

def reports (s : ProjectedChartCore) : ChartOp → Bool
  | .observe _ _ => false
  | .tick now =>
    match s.tick now with
    | .ok (edge, _) => edge
    | .error _ => false

def reportsOf (s : ProjectedChartCore) : List ChartOp → ℕ
  | [] => 0
  | op :: ops => (if s.reports op then 1 else 0) + reportsOf (s.next op) ops

def Accepts (s : ProjectedChartCore) : ChartOp → Prop
  | .observe _ _ => True
  | .tick now => s.now ≤ now

instance (s : ProjectedChartCore) (op : ChartOp) : Decidable (s.Accepts op) :=
  match op with
  | .observe _ _ => .isTrue trivial
  | .tick now => inferInstanceAs (Decidable (s.now ≤ now))

/-- The operation is an observation that is adopted and does not reaffirm the state. -/
def Enters (s : ProjectedChartCore) : ChartOp → Prop
  | .observe state at_ => s.observedAt ≤ at_ ∧ s.classify state ≠ .reaffirmed
  | .tick _ => False

instance (s : ProjectedChartCore) (op : ChartOp) : Decidable (s.Enters op) :=
  match op with
  | .observe state at_ => inferInstanceAs (Decidable (s.observedAt ≤ at_ ∧ s.classify state ≠ .reaffirmed))
  | .tick _ => .isFalse id

def Accepted (s : ProjectedChartCore) (ops : List ChartOp) : Prop :=
  Throughout (fun before op => (s.run before).Accepts op) ops

/-- In a run of `before`, `during` and `after`, the state is entered at the end of `before` and left at the beginning of
`after`, as far as they are not empty. -/
structure Occupancy (s : ProjectedChartCore) (before during after : List ChartOp) : Prop where
  entered : before = [] ∨ ∃ earlier op, before = earlier ++ [op] ∧ (s.run earlier).Enters op
  stays : Throughout (fun p op => ¬ (s.run (before ++ p)).Enters op) during
  left : ∀ op later, after = op :: later → (s.run (before ++ during)).Enters op

/-- Of an occupancy that begins at `s`: if the chart is wedged at some point and a tick follows, then exactly one tick
returns true, and if it is never wedged then none does. -/
def ReportedOnce (s : ProjectedChartCore) (during : List ChartOp) : Prop :=
  (∀ p q, during = p ++ q → (s.run p).wedged = true → (∃ now, .tick now ∈ q) → s.reportsOf during = 1) ∧
    ((∀ p q, during = p ++ q → (s.run p).wedged = false) → s.reportsOf during = 0)

def PastDeadline (s : ProjectedChartCore) : Prop :=
  ∃ deadline, s.defn.deadline s.state = some deadline ∧ s.enteredAt + deadline < s.now

/-- The timestamp is not stale, and is past the deadline while the observer's clock is not. -/
def Overtakes (s : ProjectedChartCore) (at_ : ℤ) : Prop :=
  s.observedAt ≤ at_ ∧ ∃ deadline, s.defn.deadline s.state = some deadline ∧
    s.now ≤ s.enteredAt + deadline ∧ s.enteredAt + deadline < at_

/-- The clock is past the deadline when the occupancy begins at `s`, or a reobservation takes it past, and a tick
follows. -/
def Overlooked (s : ProjectedChartCore) (during : List ChartOp) : Prop :=
  (s.PastDeadline ∧ ∃ now, .tick now ∈ during) ∨
    ∃ p state at_ q, during = p ++ .observe state at_ :: q ∧ (s.run p).Overtakes at_ ∧ ∃ now, .tick now ∈ q

variable {s : ProjectedChartCore} {op : ChartOp} {p q ops : List ChartOp}

theorem run_append (s : ProjectedChartCore) (p q : List ChartOp) : s.run (p ++ q) = (s.run p).run q :=
  foldl_append ..

theorem reportsOf_append (s : ProjectedChartCore) (p q : List ChartOp) :
    s.reportsOf (p ++ q) = s.reportsOf p + (s.run p).reportsOf q := by
  induction p generalizing s with
  | nil => exact (Nat.zero_add _).symm
  | cons op p ih =>
    rw [cons_append, reportsOf, reportsOf, ih, ← Nat.add_assoc]
    rfl

theorem wedged_iff_pastDeadline (s : ProjectedChartCore) : s.wedged = true ↔ s.PastDeadline := by
  rw [wedged_iff]
  unfold PastDeadline wedgesAt
  cases s.defn.deadline s.state with
  | none => simp
  | some deadline => simp

/-! ### While the state is occupied -/

structure Later (s s' : ProjectedChartCore) : Prop where
  defn : s'.defn = s.defn
  state : s'.state = s.state
  enteredAt : s'.enteredAt = s.enteredAt
  now : s.now ≤ s'.now

theorem Later.wedged {s' : ProjectedChartCore} (h : Later s s') (hw : s.wedged = true) : s'.wedged = true := by
  obtain ⟨deadline, hdeadline, hlt⟩ := s.wedged_iff_pastDeadline.mp hw
  refine s'.wedged_iff_pastDeadline.mpr ⟨deadline, ?_, ?_⟩
  · rw [h.defn, h.state, hdeadline]
  · rw [h.enteredAt]
    exact hlt.trans_le h.now

/-- One operation that does not enter a state. -/
theorem later_next (haccepts : s.Accepts op) (hstays : ¬ s.Enters op) : Later s (s.next op) := by
  cases op with
  | tick now =>
    have hle : s.now ≤ now := haccepts
    rw [next, tick_of_le hle]
    exact ⟨rfl, rfl, rfl, hle⟩
  | observe state at_ =>
    show Later s (s.observe state at_).2
    unfold observe
    split
    · exact ⟨rfl, rfl, rfl, le_rfl⟩
    next hfresh =>
      have hkind : s.classify state = .reaffirmed := by
        by_contra hne
        exact hstays ⟨not_lt.mp hfresh, hne⟩
      refine ⟨rfl, if_pos hkind, if_pos hkind, ?_⟩
      show s.now ≤ if s.now < at_ then at_ else s.now
      split
      next hlt => exact hlt.le
      · exact le_rfl

/-- A tick reports the wedge that it brings about. -/
theorem reports_tick {now : ℤ} (hle : s.now ≤ now) :
    s.reports (.tick now) = ((s.next (.tick now)).wedged && !s.wedged) := by
  rw [reports, next, tick_of_le hle]

theorem not_reports_of_wedged (haccepts : s.Accepts op) (hw : s.wedged = true) : s.reports op = false := by
  cases op with
  | observe state at_ => rfl
  | tick now => rw [reports_tick haccepts, hw, Bool.not_true, Bool.and_false]

theorem wedged_of_reports (haccepts : s.Accepts op) (hr : s.reports op = true) : (s.next op).wedged = true := by
  cases op with
  | observe state at_ => cases hr
  | tick now =>
    rw [reports_tick haccepts] at hr
    exact (Bool.and_eq_true_iff.mp hr).1

/-- A reobservation brings the wedge about exactly if its timestamp does. -/
theorem overtakes_iff {state : String} {at_ : ℤ} (hstays : ¬ s.Enters (.observe state at_)) (hnot : s.wedged = false) :
    (s.next (.observe state at_)).wedged = true ↔ s.Overtakes at_ := by
  have hbefore := s.wedged_iff_pastDeadline
  rw [hnot] at hbefore
  unfold PastDeadline at hbefore
  rw [wedged_iff_pastDeadline]
  show PastDeadline (s.observe state at_).2 ↔ _
  unfold observe
  split
  next hstale =>
    refine iff_of_false (fun h => absurd (hbefore.mpr h) Bool.false_ne_true) ?_
    rintro ⟨hle, -⟩
    omega
  next hfresh =>
    have hkind : s.classify state = .reaffirmed := by
      by_contra hne
      exact hstays ⟨not_lt.mp hfresh, hne⟩
    unfold PastDeadline
    dsimp only
    rw [if_pos hkind, if_pos hkind]
    constructor
    · rintro ⟨deadline, hdeadline, hlt⟩
      have hle : ¬ s.enteredAt + deadline < s.now := fun h => by simpa using hbefore.mpr ⟨deadline, hdeadline, h⟩
      refine ⟨not_lt.mp hfresh, deadline, hdeadline, not_lt.mp hle, ?_⟩
      split at hlt
      · exact hlt
      · exact absurd hlt hle
    · rintro ⟨-, deadline, hdeadline, hle, hlt⟩
      refine ⟨deadline, hdeadline, ?_⟩
      rw [if_pos (hle.trans_lt hlt)]
      exact hlt

def Stays (s : ProjectedChartCore) (ops : List ChartOp) : Prop :=
  Throughout (fun p op => (s.run p).Accepts op ∧ ¬ (s.run p).Enters op) ops

theorem Stays.head (h : s.Stays (op :: ops)) : s.Accepts op ∧ ¬ s.Enters op :=
  h [] op ops rfl

theorem Stays.tail (h : s.Stays (op :: ops)) : (s.next op).Stays ops :=
  fun p op' q heq => h (op :: p) op' q (by rw [heq]; rfl)

theorem Stays.left (h : s.Stays (p ++ q)) : s.Stays p := by
  rintro p' op q' rfl
  exact h p' op (q' ++ q) (by rw [append_assoc, cons_append])

theorem Stays.right (h : s.Stays (p ++ q)) : (s.run p).Stays q := by
  rintro p' op q' rfl
  rw [← run_append]
  exact h (p ++ p') op q' (append_assoc ..).symm

theorem Stays.wedged (h : s.Stays ops) (hw : s.wedged = true) : (s.run ops).wedged = true := by
  induction ops generalizing s with
  | nil => exact hw
  | cons op ops ih => exact ih h.tail ((later_next h.head.1 h.head.2).wedged hw)

/-- A wedge is not reported again. -/
theorem reportsOf_of_wedged (h : s.Stays ops) (hw : s.wedged = true) : s.reportsOf ops = 0 := by
  induction ops generalizing s with
  | nil => rfl
  | cons op ops ih =>
    rw [reportsOf, not_reports_of_wedged h.head.1 hw, ih h.tail ((later_next h.head.1 h.head.2).wedged hw)]
    rfl

/-- As long as the chart is not wedged nothing is reported. -/
theorem reportsOf_of_not_wedged (h : s.Stays ops) (hnot : (s.run ops).wedged = false) : s.reportsOf ops = 0 := by
  induction ops generalizing s with
  | nil => rfl
  | cons op ops ih =>
    have hquiet : s.reports op = false := by
      by_contra hr
      have hw := h.tail.wedged (wedged_of_reports h.head.1 (eq_true_of_ne_false hr))
      exact absurd (hnot.symm.trans hw) Bool.false_ne_true
    rw [reportsOf, hquiet, ih h.tail hnot]
    rfl

/-- The operation that brings the wedge about. -/
theorem exists_wedging (hnot : s.wedged = false) (hw : (s.run ops).wedged = true) : ∃ p op q,
    ops = p ++ op :: q ∧ (s.run p).wedged = false ∧ ((s.run p).next op).wedged = true := by
  induction ops generalizing s with
  | nil => exact absurd (hnot.symm.trans hw) Bool.false_ne_true
  | cons op ops ih =>
    cases hnext : (s.next op).wedged with
    | true => exact ⟨[], op, ops, rfl, hnot, hnext⟩
    | false =>
      obtain ⟨p, op', q, rfl, hp, hop⟩ := ih hnext hw
      exact ⟨op :: p, op', q, rfl, hp, hop⟩

/-- If one operation brings the wedge about, the reports are its own. -/
theorem reportsOf_split (h : s.Stays (p ++ op :: q)) (hp : (s.run p).wedged = false)
    (hop : ((s.run p).next op).wedged = true) :
    s.reportsOf (p ++ op :: q) = if (s.run p).reports op then 1 else 0 := by
  rw [reportsOf_append, reportsOf_of_not_wedged h.left hp, Nat.zero_add, reportsOf,
    reportsOf_of_wedged h.right.tail hop, Nat.add_zero]

/-- The wedge of an occupancy is reported as it should be, unless an observation brings it about and a tick follows. -/
theorem reportedOnce_iff (h : s.Stays ops) : s.ReportedOnce ops ↔ ¬ s.Overlooked ops := by
  constructor
  · rintro ⟨honce, -⟩ (⟨hpast, htick⟩ | ⟨p, state, at_, q, rfl, hovertakes, htick⟩)
    · have hw := s.wedged_iff_pastDeadline.mpr hpast
      have hone := honce [] ops rfl hw htick
      rw [reportsOf_of_wedged h hw] at hone
      cases hone
    · have hp : (s.run p).wedged = false := by
        obtain ⟨-, deadline, hdeadline, hle, -⟩ := hovertakes
        refine Bool.eq_false_iff.mpr fun hw => ?_
        obtain ⟨deadline', hdeadline', hlt⟩ := (wedged_iff_pastDeadline _).mp hw
        rw [hdeadline] at hdeadline'
        cases hdeadline'
        omega
      have hop := (overtakes_iff h.right.head.2 hp).mpr hovertakes
      have hone : s.reportsOf (p ++ .observe state at_ :: q) = 1 := by
        refine honce (p ++ [.observe state at_]) q (by simp) ?_ htick
        rw [run_append]
        exact hop
      rw [reportsOf_split h hp hop] at hone
      cases hone
  · intro hnot
    refine ⟨?_, fun hnever => reportsOf_of_not_wedged h (hnever ops [] (append_nil _).symm)⟩
    rintro p q rfl hw htick
    have hentry : s.wedged = false := by
      refine Bool.eq_false_iff.mpr fun hw => hnot (.inl ⟨s.wedged_iff_pastDeadline.mp hw, ?_⟩)
      exact htick.imp fun now hmem => mem_append_right _ hmem
    obtain ⟨p', op, q', rfl, hp, hop⟩ := exists_wedging hentry hw
    rw [append_assoc, cons_append] at h hnot ⊢
    rw [reportsOf_split h hp hop]
    cases op with
    | tick now =>
      have hreports : (s.run p').reports (.tick now) = true := by
        rw [reports_tick h.right.head.1, hop, hp]
        rfl
      rw [if_pos hreports]
    | observe state at_ =>
      refine absurd (.inr ⟨p', state, at_, q' ++ q, rfl, ?_, ?_⟩) hnot
      · exact (overtakes_iff h.right.head.2 hp).mp hop
      · exact htick.imp fun now hmem => mem_append_right _ hmem

/-! ### Runs -/

theorem Occupancy.during {before during after : List ChartOp} (h : s.Occupancy before during after)
    (haccepted : s.Accepted (before ++ during ++ after)) : (s.run before).Stays during := by
  rintro p op q rfl
  rw [← run_append]
  exact ⟨haccepted (before ++ p) op (q ++ after) (by simp), h.stays p op q rfl⟩

/-- In a run of accepted operations every wedge is reported exactly once if and only if no occupancy has an observation
that takes the clock past the deadline, or finds it there, and a later tick. -/
theorem reports_iff (defn : ProjectedChartDef) (at_ : ℤ) {ops : List ChartOp} (h : (new defn at_).Accepted ops) :
    (∀ before during after, ops = before ++ during ++ after → (new defn at_).Occupancy before during after →
        ((new defn at_).run before).ReportedOnce during) ↔
      ∀ before during after, ops = before ++ during ++ after → (new defn at_).Occupancy before during after →
        ¬ ((new defn at_).run before).Overlooked during := by
  refine forall_congr' fun before => forall_congr' fun during => forall_congr' fun after => ?_
  refine forall_congr' fun heq => forall_congr' fun hocc => ?_
  obtain rfl := heq
  exact reportedOnce_iff (hocc.during h)

def started : ProjectedChartDef where
  initial := "started"
  transitions := [("started", ["completed"]), ("completed", [])]
  deadlines := [("started", 10)]
  terminal := ["completed"]

/-- A tick past the deadline of the state that the chart has begun in. -/
theorem reports_ticked : ((new started 0).run []).ReportedOnce [.tick 11] := by
  have haccepted : (new started 0).Accepted [.tick 11] := by
    unfold Accepted
    decide
  have hocc : (new started 0).Occupancy [] [.tick 11] [] := ⟨.inl rfl, by decide, nofun⟩
  refine (reports_iff started 0 haccepted).mpr ?_ [] [.tick 11] [] rfl hocc
  rintro before during after heq - (⟨⟨deadline, hdeadline, hpast⟩, now, hmem⟩ | ⟨p, state, at_, q, rfl, -⟩)
  · have hnil : before = [] := by
      have hlength := congrArg length heq
      have hpos := length_pos_of_mem hmem
      rw [length_append, length_append, length_singleton] at hlength
      exact length_eq_zero_iff.mp (by omega)
    subst hnil
    cases hdeadline
    exact absurd hpast (by decide)
  · have hmem : ChartOp.observe state at_ ∈ [ChartOp.tick 11] := by
      rw [heq]
      simp
    simp at hmem

/-- The chart is observed in the same state past the deadline, and then ticked. -/
theorem reports_reaffirmed : ¬ ∀ (defn : ProjectedChartDef) (at_ : ℤ) (ops : List ChartOp),
    (new defn at_).Accepted ops → ∀ before during after, ops = before ++ during ++ after →
      (new defn at_).Occupancy before during after → ((new defn at_).run before).ReportedOnce during := by
  intro h
  have haccepted : (new started 0).Accepted [.observe "started" 20, .tick 30] := by
    unfold Accepted
    decide
  have hocc : (new started 0).Occupancy [] [.observe "started" 20, .tick 30] [] := ⟨.inl rfl, by decide, nofun⟩
  have honce := h started 0 _ haccepted [] _ [] rfl hocc
  have hone := honce.1 [.observe "started" 20] [.tick 30] rfl (by decide) ⟨30, mem_singleton_self _⟩
  revert hone
  decide

end ProjectedChartCore

end LazilyPy.Temporal

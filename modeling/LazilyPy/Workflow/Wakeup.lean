import LazilyPy.Lib.Throughout
import LazilyPy.Temporal.Cores
import LazilyPy.Temporal.ProjectedChart

/-!
# Wake-ups

A workflow drives its temporal sources from the clock of a durable engine: it reads the clock, ticks every
source, and asks when to wake up next. A workflow that sleeps until its next wake-up and advances makes a source
fire. The exception is a chart that is the earliest source: its next fire is its deadline, and it fires only after
that. The workflow then wakes up for nothing, and its next wake-up is at once.
-/

namespace LazilyPy.Workflow

open Temporal List

/-! ### Sources -/

inductive TimelineSource
  | timer (core : TimerCore)
  | interval (core : IntervalCore)
  | cron (core : CronCore)
  | deadline (core : DeadlineCore)
  | chart (core : ProjectedChartCore)

namespace TimelineSource

def tick : TimelineSource → ℤ → Except String (Bool × TimelineSource)
  | .timer core, now => .ok ((core.tick now).1, .timer (core.tick now).2)
  | .interval core, now => .ok ((core.tick now).1, .interval (core.tick now).2)
  | .cron core, now => .ok ((core.tick now).1, .cron (core.tick now).2)
  | .deadline core, now => .ok ((core.tick now).1, .deadline (core.tick now).2)
  | .chart core, now => (core.tick now).map fun r => (r.1, .chart r.2)

def nextFire : TimelineSource → Option ℤ
  | .timer core => core.nextFire
  | .interval core => core.nextFire
  | .cron core => core.nextFire
  | .deadline core => core.nextFire
  | .chart core => core.nextFire

def observe : TimelineSource → String → ℤ → TimelineSource
  | .chart core, state, instant => .chart (core.observe state instant).2
  | source, _, _ => source

def isChart : TimelineSource → Bool
  | .chart _ => true
  | _ => false

end TimelineSource

inductive SourceSpec
  | timer (fireAt : ℤ)
  | interval (period : ℤ)
  | cron (cycle : ℤ) (offsets : List ℤ)
  | deadline (instant : ℤ)
  | chart (defn : ProjectedChartDef) (instant : ℤ)

def SourceSpec.make : SourceSpec → TimelineSource
  | .timer fireAt => .timer { fireAt := fireAt }
  | .interval period => .interval (.new period)
  | .cron cycle offsets => .cron (.new cycle offsets)
  | .deadline instant => .deadline (.new instant)
  | .chart defn instant => .chart (.new defn instant)

/-! ### The clock -/

structure WorkflowClock where
  resolutionNs : ℤ
  last : ℤ
  resolution_pos : 0 < resolutionNs

namespace WorkflowClock

def tickOf (clock : WorkflowClock) (reading : ℤ) : ℤ :=
  reading / clock.resolutionNs

def tick (clock : WorkflowClock) (reading : ℤ) : Except String (ℤ × WorkflowClock) :=
  let current := clock.tickOf reading
  if current < clock.last then
    .error (s!"workflow clock went backwards ({current} < {clock.last}); a replayed clock cannot " ++
      "regress, so this reading did not come from the engine")
  else .ok (current, { clock with last := current })

end WorkflowClock

/-! ### The context -/

structure WorkflowContext where
  clock : WorkflowClock
  cores : List TimelineSource := []
  sources : List ℕ := []

/-- Tick some sources one after the other, until one of them raises. -/
def tickAll (now : ℤ) : List ℕ → List TimelineSource → Except String (List ℕ) × List TimelineSource
  | [], cores => (.ok [], cores)
  | i :: sources, cores =>
    match cores[i]? with
    | none => tickAll now sources cores
    | some source =>
      match source.tick now with
      | .error error => (.error error, cores)
      | .ok (edge, source') =>
        let rest := tickAll now sources (cores.set i source')
        (rest.1.map fun fired => if edge then i :: fired else fired, rest.2)

namespace WorkflowContext

def register (s : WorkflowContext) (i : ℕ) : WorkflowContext :=
  { s with sources := s.sources ++ [i] }

/-- Read the clock once and tick every registered source: those that fire. -/
def advance (s : WorkflowContext) (reading : ℤ) : Except String (List ℕ) × WorkflowContext :=
  match s.clock.tick reading with
  | .error error => (.error error, s)
  | .ok (now, clock) =>
    let ticked := tickAll now s.sources s.cores
    (ticked.1,
      { s with
        clock := clock
        cores := ticked.2 })

def pending (s : WorkflowContext) : List ℤ :=
  s.sources.filterMap fun i => s.cores[i]?.bind TimelineSource.nextFire

def nextWakeup (s : WorkflowContext) : Option ℤ :=
  s.pending.min?.map fun fire => max 0 (fire - s.clock.last)

end WorkflowContext

/-! ### Runs -/

inductive Op
  | create (spec : SourceSpec)
  | register (i : ℕ)
  | advance (reading : ℤ)
  | observe (i : ℕ) (state : String) (instant : ℤ)
  | tick (i : ℕ) (now : ℤ)

namespace WorkflowContext

def tickOne (s : WorkflowContext) (i : ℕ) (now : ℤ) : WorkflowContext :=
  { s with cores := (tickAll now [i] s.cores).2 }

def step (s : WorkflowContext) : Op → WorkflowContext
  | .create spec => { s with cores := s.cores ++ [spec.make] }
  | .register i => if i < s.cores.length then s.register i else s
  | .advance reading => (s.advance reading).2
  | .observe i state instant =>
    { s with cores := s.cores.modify i fun source => source.observe state instant }
  | .tick i now => s.tickOne i now

/-- A context after some operations, over a clock that starts from 0. -/
def run (resolutionNs : ℤ) (hpos : 0 < resolutionNs) (ops : List Op) : WorkflowContext :=
  ops.foldl step
    { clock := {
        resolutionNs := resolutionNs
        last := 0
        resolution_pos := hpos } }

theorem run_concat {resolutionNs : ℤ} {hpos : 0 < resolutionNs} (ops : List Op) (op : Op) :
    run resolutionNs hpos (ops ++ [op]) = (run resolutionNs hpos ops).step op :=
  foldl_concat ..

/-- Charts are made, observed and ticked by hand only at times that the clock has reached. -/
def Timely (s : WorkflowContext) : Op → Prop
  | .create (.chart _ instant) => instant ≤ s.clock.last
  | .observe _ _ instant => instant ≤ s.clock.last
  | .tick i now => ∀ core, s.cores[i]? = some (.chart core) → now ≤ s.clock.last
  | _ => True

end WorkflowContext

end LazilyPy.Workflow

namespace LazilyPy.Workflow

open Temporal List
open Option hiding max_eq_right

/-! ### One source -/

namespace TimelineSource

def Ready (now : ℤ) : TimelineSource → Prop
  | .chart core => core.now ≤ now
  | _ => True

/-- A chart fires after its next fire, and the other sources at it. -/
def Fires (source : TimelineSource) (now : ℤ) : Prop :=
  ∃ fire, source.nextFire = some fire ∧ if source.isChart then fire < now else fire ≤ now

variable {source : TimelineSource} {now now' : ℤ}

theorem Ready.mono (h : source.Ready now) (hle : now ≤ now') : source.Ready now' := by
  cases source with
  | chart core => exact le_trans h hle
  | _ => trivial

theorem Ready.observe (h : source.Ready now) (state : String) {instant : ℤ} (hle : instant ≤ now) :
    (source.observe state instant).Ready now := by
  cases source with
  | chart core => exact core.now_observe state instant h hle
  | _ => trivial

/-- What a tick does: it fires as it should, it fires only once, and it brings no new fire about where
there is none. -/
theorem tick_spec (h : source.Ready now) : ∃ edge source', source.tick now = .ok (edge, source') ∧
    (edge = true ↔ source.Fires now) ∧ source'.Ready now ∧ ¬ source'.Fires now ∧
    (source.nextFire = none → source'.nextFire = none) := by
  cases source with
  | timer core =>
    refine ⟨_, _, rfl, core.tick_iff now, trivial, fun hfires => ?_, TimerCore.nextFire_tick_of_none now⟩
    have hagain := ((core.tick now).2.tick_iff now).mpr hfires
    rw [core.tick_tick] at hagain
    cases hagain
  | interval core =>
    refine ⟨_, _, rfl, core.tick_iff now, trivial, fun hfires => ?_, nofun⟩
    have hagain := ((core.tick now).2.tick_iff now).mpr hfires
    rw [core.tick_tick] at hagain
    cases hagain
  | cron core =>
    refine ⟨_, _, rfl, core.tick_iff now, trivial, fun hfires => ?_, fun hnone => ?_⟩
    · have hagain := ((core.tick now).2.tick_iff now).mpr hfires
      rw [(core.tick_tick now).1] at hagain
      cases hagain
    · refine CronCore.nextFire_eq_none_iff.mpr ?_
      rw [(core.tick_snd now).2.1]
      exact CronCore.nextFire_eq_none_iff.mp hnone
  | deadline core =>
    refine ⟨_, _, rfl, core.timer.tick_iff now, trivial, fun hfires => ?_, TimerCore.nextFire_tick_of_none now⟩
    have hagain := ((core.timer.tick now).2.tick_iff now).mpr hfires
    rw [core.timer.tick_tick] at hagain
    cases hagain
  | chart core =>
    have hready : core.now ≤ now := h
    refine ⟨_, .chart { core with now := now }, ?_, core.tick_iff now, le_refl now, ?_, ?_⟩
    · show (core.tick now).map _ = _
      rw [ProjectedChartCore.tick_of_le hready]
      rfl
    · rintro ⟨fire, hfire, hlt⟩
      have hle := ((ProjectedChartCore.nextFire_eq_some_iff _ fire).mp hfire).2
      have hafter : fire < now := hlt
      have hbefore : now ≤ fire := hle
      omega
    · exact ProjectedChartCore.nextFire_tick_of_none hready

end TimelineSource

/-! ### A round of ticks -/

/-- A round of ticks: every source that should fire does, once, and nothing raises. -/
theorem tickAll_spec {now : ℤ} (sources : List ℕ) {cores : List TimelineSource}
    (h : ∀ source ∈ cores, source.Ready now) : ∃ fired, (tickAll now sources cores).1 = .ok fired ∧
      (∀ i, i ∈ fired ↔ i ∈ sources ∧ ∃ source, cores[i]? = some source ∧ source.Fires now) ∧
      (∀ source ∈ (tickAll now sources cores).2, source.Ready now) ∧
      ∀ i : ℕ, (∀ source, cores[i]? = some source → TimelineSource.nextFire source = none) →
        ∀ source, (tickAll now sources cores).2[i]? = some source → TimelineSource.nextFire source = none := by
  induction sources generalizing cores with
  | nil =>
    refine ⟨[], rfl, fun i => iff_of_false not_mem_nil ?_, h, fun i hi => hi⟩
    exact fun hi => not_mem_nil hi.1
  | cons i sources ih =>
    unfold tickAll
    cases hcore : cores[i]? with
    | none =>
      obtain ⟨fired, hfired, hmem, hready, hnone⟩ := ih h
      refine ⟨fired, hfired, fun j => ?_, hready, hnone⟩
      rw [hmem, mem_cons]
      constructor
      · exact fun hj => ⟨.inr hj.1, hj.2⟩
      · rintro ⟨rfl | hj, source, hsource, hfires⟩
        · rw [hcore] at hsource
          cases hsource
        · exact ⟨hj, source, hsource, hfires⟩
    | some source =>
      obtain ⟨edge, source', htick, hedge, hready', hquiet, hstays⟩ :=
        TimelineSource.tick_spec (h source (mem_of_getElem? hcore))
      have hlt : i < cores.length := (List.getElem?_eq_some_iff.mp hcore).1
      have hset : ∀ other ∈ cores.set i source', other.Ready now := by
        intro other hother
        obtain hold | rfl := mem_or_eq_of_mem_set hother
        · exact h other hold
        · exact hready'
      have hself : (cores.set i source')[i]? = some source' := by
        rw [getElem?_set_self hlt]
      have hother {j : ℕ} (hne : i ≠ j) : (cores.set i source')[j]? = cores[j]? :=
        getElem?_set_ne hne
      obtain ⟨fired, hfired, hmem, hready, hnone⟩ := ih hset
      dsimp only
      rw [htick]
      dsimp only
      rw [hfired]
      refine ⟨_, rfl, fun j => ?_, hready, fun j hj => hnone j fun other hget => ?_⟩
      · -- the source has been ticked, and fires no second time in this round
        by_cases hne : i = j
        · subst hne
          have hnot : i ∉ fired := by
            rw [hmem]
            rintro ⟨-, other, hget, hfires⟩
            rw [hself] at hget
            obtain rfl := some.inj hget
            exact hquiet hfires
          have hiff : (i ∈ if edge then i :: fired else fired) ↔ edge = true := by
            cases edge with
            | true => simp
            | false => simpa using hnot
          rw [hiff, hedge]
          constructor
          · exact fun hfires => ⟨mem_cons_self, source, hcore, hfires⟩
          · rintro ⟨-, other, hget, hfires⟩
            obtain rfl := some.inj (hcore.symm.trans hget)
            exact hfires
        · have hiff : (j ∈ if edge then i :: fired else fired) ↔ j ∈ fired := by
            cases edge with
            | true => simp [Ne.symm hne]
            | false => simp
          rw [hiff, hmem, hother hne, mem_cons, or_iff_right (Ne.symm hne)]
      · by_cases hne : i = j
        · subst hne
          rw [hself] at hget
          obtain rfl := some.inj hget
          exact hstays (hj source hcore)
        · rw [hother hne] at hget
          exact hj other hget

/-! ### The context -/

namespace WorkflowContext

variable {s : WorkflowContext}

def Sound (s : WorkflowContext) : Prop :=
  ∀ source ∈ s.cores, source.Ready s.clock.last

/-- What an advance does at a time that is not before the clock. -/
theorem Sound.advance (h : s.Sound) {reading : ℤ} (hle : s.clock.last ≤ s.clock.tickOf reading) :
    ∃ fired, (s.advance reading).1 = .ok fired ∧ (∀ i, i ∈ fired ↔ i ∈ s.sources ∧ ∃ source, s.cores[i]? = some source ∧
        source.Fires (s.clock.tickOf reading)) ∧ (s.advance reading).2.Sound ∧
      (s.advance reading).2.sources = s.sources ∧
      ∀ i : ℕ, (∀ source, s.cores[i]? = some source → TimelineSource.nextFire source = none) →
        ∀ source, (s.advance reading).2.cores[i]? = some source → TimelineSource.nextFire source = none := by
  have hlater : ∀ source ∈ s.cores, source.Ready (s.clock.tickOf reading) :=
    fun source hsource => (h source hsource).mono hle
  obtain ⟨fired, hfired, hmem, hready, hnone⟩ := tickAll_spec s.sources hlater
  have htick : s.clock.tick reading = .ok (s.clock.tickOf reading, { s.clock with last := s.clock.tickOf reading }) :=
    if_neg (not_lt.mpr hle)
  unfold WorkflowContext.advance
  rw [htick]
  exact ⟨fired, hfired, hmem, hready, rfl, hnone⟩

theorem advance_of_lt {reading : ℤ} (hlt : s.clock.tickOf reading < s.clock.last) :
    ∃ error, s.advance reading = (.error error, s) := by
  unfold WorkflowContext.advance WorkflowClock.tick
  dsimp only
  rw [if_pos hlt]
  exact ⟨_, rfl⟩

theorem Sound.step (h : s.Sound) {op : Op} (htimely : s.Timely op) : (s.step op).Sound := by
  cases op with
  | create spec =>
    intro source hsource
    obtain hsource | hsource := mem_append.mp hsource
    · exact h source hsource
    · obtain rfl := mem_singleton.mp hsource
      cases spec with
      | chart defn instant => exact htimely
      | _ => trivial
  | register i =>
    show Sound (if i < s.cores.length then s.register i else s)
    split
    · exact h
    · exact h
  | advance reading =>
    by_cases hlt : s.clock.tickOf reading < s.clock.last
    · obtain ⟨error, heq⟩ := advance_of_lt hlt
      show (s.advance reading).2.Sound
      rw [heq]
      exact h
    · obtain ⟨-, -, -, hsound, -⟩ := h.advance (not_lt.mp hlt)
      exact hsound
  | observe i state instant =>
    intro source hsource
    obtain ⟨j, hj⟩ := mem_iff_getElem?.mp hsource
    have hj' : (s.cores.modify i fun source => source.observe state instant)[j]? = some source := hj
    rw [getElem?_modify] at hj'
    obtain ⟨before, hbefore, rfl⟩ := map_eq_some_iff.mp hj'
    have hready := h before (mem_of_getElem? hbefore)
    split
    · exact hready.observe state htimely
    · exact hready
  | tick i now =>
    show ∀ source ∈ (tickAll now [i] s.cores).2, source.Ready s.clock.last
    unfold tickAll
    cases hcore : s.cores[i]? with
    | none => exact h
    | some source =>
      dsimp only
      cases htick : source.tick now with
      | error error => exact h
      | ok r =>
        intro other hother
        obtain hold | rfl := mem_or_eq_of_mem_set hother
        · exact h other hold
        · cases source with
          | chart core =>
            have hle := htimely core hcore
            have hmap : (core.tick now).map (fun r => (r.1, TimelineSource.chart r.2)) = .ok r := htick
            by_cases hback : now < core.now
            · rw [ProjectedChartCore.tick, if_pos hback] at hmap
              cases hmap
            · rw [ProjectedChartCore.tick_of_le (not_lt.mp hback)] at hmap
              obtain rfl := Except.ok.inj hmap
              exact hle
          | _ =>
            obtain rfl := Except.ok.inj htick
            trivial

theorem sound_run {resolutionNs : ℤ} {hpos : 0 < resolutionNs} {ops : List Op}
    (h : Throughout (fun before op => (run resolutionNs hpos before).Timely op) ops) :
    (run resolutionNs hpos ops).Sound := by
  induction ops using reverseRecOn with
  | nil => exact forall_mem_nil _
  | append_singleton ops op ih =>
    obtain ⟨hops, hop⟩ := throughout_concat.mp h
    rw [run_concat]
    exact (ih hops).step hop

/-! ### Wake-ups -/

def Pends (s : WorkflowContext) (source : TimelineSource) (fire : ℤ) : Prop :=
  ∃ i ∈ s.sources, s.cores[i]? = some source ∧ source.nextFire = some fire

theorem mem_pending {fire : ℤ} : fire ∈ s.pending ↔ ∃ source, s.Pends source fire := by
  unfold pending Pends
  rw [mem_filterMap]
  constructor
  · rintro ⟨i, hi, hfire⟩
    obtain ⟨source, hsource, hfire⟩ := bind_eq_some_iff.mp hfire
    exact ⟨source, i, hi, hsource, hfire⟩
  · rintro ⟨source, i, hi, hsource, hfire⟩
    exact ⟨i, hi, bind_eq_some_iff.mpr ⟨source, hsource, hfire⟩⟩

def advanceAll (s : WorkflowContext) (readings : List ℤ) : WorkflowContext :=
  readings.foldl (fun s reading => (s.advance reading).2) s

/-- The next wake-up is the next time at which an advance returns a source; without one, none does. -/
def WakesUp (s : WorkflowContext) : Prop :=
  (∀ delay, s.nextWakeup = some delay → (∀ reading, s.clock.tickOf reading = s.clock.last + delay →
      ∃ fired, (s.advance reading).1 = .ok fired ∧ fired ≠ []) ∧
    ∀ reading, s.clock.last ≤ s.clock.tickOf reading →
      s.clock.tickOf reading < s.clock.last + delay → (s.advance reading).1 = .ok []) ∧
  (s.nextWakeup = none → ∀ readings reading fired, ((s.advanceAll readings).advance reading).1 = .ok fired → fired = [])

/-- A chart that is the earliest source is overdue, or another source that is not a chart is as early. -/
def Punctual (s : WorkflowContext) : Prop :=
  ∀ source fire, s.Pends source fire → source.isChart = true → s.clock.last ≤ fire →
    ∃ other fire', s.Pends other fire' ∧ (fire' < fire ∨ fire' = fire ∧ other.isChart = false)

/-- Without a pending fire no advance ever returns a source. -/
theorem Sound.quiet (h : s.Sound) (hnone : s.pending = []) (reading : ℤ) :
    (∀ fired, (s.advance reading).1 = .ok fired → fired = []) ∧ (s.advance reading).2.Sound ∧
      (s.advance reading).2.pending = [] := by
  have hno (source : TimelineSource) (fire : ℤ) : ¬ s.Pends source fire := by
    intro hpends
    have hmem := mem_pending.mpr ⟨source, hpends⟩
    rw [hnone] at hmem
    cases hmem
  by_cases hlt : s.clock.tickOf reading < s.clock.last
  · obtain ⟨error, heq⟩ := advance_of_lt hlt
    rw [heq]
    exact ⟨nofun, h, hnone⟩
  · obtain ⟨fired, hfired, hmem, hsound, hsources, hstays⟩ := h.advance (not_lt.mp hlt)
    refine ⟨fun fired' hfired' => ?_, hsound, eq_nil_iff_forall_not_mem.mpr fun fire hfire => ?_⟩
    · obtain rfl := Except.ok.inj (hfired.symm.trans hfired')
      refine eq_nil_iff_forall_not_mem.mpr fun i hi => ?_
      obtain ⟨hi, source, hsource, fire, hfire, -⟩ := (hmem i).mp hi
      exact hno source fire ⟨i, hi, hsource, hfire⟩
    · obtain ⟨source, i, hi, hsource, hfire⟩ := mem_pending.mp hfire
      rw [hsources] at hi
      have hquiet := hstays i (fun before hbefore => ?_) source hsource
      · rw [hquiet] at hfire
        cases hfire
      · by_contra hsome
        obtain ⟨fire', hfire'⟩ := ne_none_iff_exists'.mp hsome
        exact hno before fire' ⟨i, hi, hbefore, hfire'⟩

/-- The earliest fire: all that can be returned before it is nothing. -/
theorem Sound.early (h : s.Sound) {fire reading : ℤ} (hmin : ∀ fire' ∈ s.pending, fire ≤ fire')
    (hle : s.clock.last ≤ s.clock.tickOf reading) (hlt : s.clock.tickOf reading < fire) :
    (s.advance reading).1 = .ok [] := by
  obtain ⟨fired, hfired, hmem, -⟩ := h.advance hle
  have hnil : fired = [] := by
    refine eq_nil_iff_forall_not_mem.mpr fun i hi => ?_
    obtain ⟨hi, source, hsource, fire', hfire', hdue⟩ := (hmem i).mp hi
    have hfirst := hmin fire' (mem_pending.mpr ⟨source, i, hi, hsource, hfire'⟩)
    split at hdue
    · omega
    · omega
  rw [hfired, hnil]

/-- In every state of a run that is timely for its charts, wake-ups make progress if and only if the
earliest source is not a chart that has yet to be overdue. -/
theorem wakesUp_iff {resolutionNs : ℤ} (hpos : 0 < resolutionNs) {ops : List Op}
    (h : Throughout (fun before op => (run resolutionNs hpos before).Timely op) ops) :
    (run resolutionNs hpos ops).WakesUp ↔ (run resolutionNs hpos ops).Punctual := by
  have hsound := sound_run h
  generalize run resolutionNs hpos ops = s at hsound ⊢
  constructor
  · rintro ⟨hwakes, -⟩ source fire hpends hchart hlast
    by_contra hno
    push Not at hno
    -- the chart is the earliest source, and those that are as early are charts as well
    have hmin (fire' : ℤ) (hfire' : fire' ∈ s.pending) : fire ≤ fire' := by
      obtain ⟨other, hother⟩ := mem_pending.mp hfire'
      exact (hno other fire' hother).1
    have hearliest : s.pending.min? = some fire :=
      min?_eq_some_iff.mpr ⟨mem_pending.mpr ⟨source, hpends⟩, hmin⟩
    have hwakeup : s.nextWakeup = some (fire - s.clock.last) := by
      rw [nextWakeup, hearliest, map_some, max_eq_right (by omega)]
    have hpos := s.clock.resolution_pos
    have hreading : s.clock.tickOf (fire * s.clock.resolutionNs) = fire :=
      Int.mul_ediv_cancel fire (by omega)
    obtain ⟨fired, hfired, hne⟩ := (hwakes _ hwakeup).1 (fire * s.clock.resolutionNs)
      (by rw [hreading]; omega)
    obtain ⟨fired', hfired', hmem, -⟩ := hsound.advance (by rw [hreading]; exact hlast)
    obtain rfl := Except.ok.inj (hfired.symm.trans hfired')
    obtain ⟨i, hi⟩ := exists_mem_of_ne_nil _ hne
    obtain ⟨hi, other, hother, fire', hfire', hdue⟩ := (hmem i).mp hi
    obtain ⟨hle, hsame⟩ := hno other fire' ⟨i, hi, hother, hfire'⟩
    rw [hreading] at hdue
    split at hdue
    next => omega
    next hnot => exact hsame (by omega) (by simpa using hnot)
  · intro hpunctual
    refine ⟨fun delay hdelay => ?_, fun hnone readings => ?_⟩
    · obtain ⟨fire, hearliest, rfl⟩ := map_eq_some_iff.mp hdelay
      obtain ⟨hfire, hmin⟩ := min?_eq_some_iff.mp hearliest
      refine ⟨fun reading hreading => ?_, fun reading hle hlt => ?_⟩
      · obtain ⟨source, hpends⟩ := mem_pending.mp hfire
        have hlater : s.clock.last ≤ s.clock.tickOf reading := by omega
        obtain ⟨fired, hfired, hmem, -⟩ := hsound.advance hlater
        refine ⟨fired, hfired, ?_⟩
        have hdue : ∃ due fire', s.Pends due fire' ∧
            if due.isChart then fire' < s.clock.tickOf reading else fire' ≤ s.clock.tickOf reading := by
          by_cases hchart : source.isChart = true
          · by_cases hover : fire < s.clock.last
            · exact ⟨source, fire, hpends, by rw [if_pos hchart]; omega⟩
            · obtain ⟨other, fire', hother, hlt | ⟨rfl, hnot⟩⟩ :=
                hpunctual source fire hpends hchart (not_lt.mp hover)
              · have hle := hmin fire' (mem_pending.mpr ⟨other, hother⟩)
                omega
              · exact ⟨other, fire', hother, by rw [hnot, if_neg Bool.false_ne_true]; omega⟩
          · exact ⟨source, fire, hpends, by rw [if_neg hchart]; omega⟩
        obtain ⟨due, fire', ⟨i, hi, hcore, hnext⟩, hfires⟩ := hdue
        exact ne_nil_of_mem ((hmem i).mpr ⟨hi, due, hcore, fire', hnext, hfires⟩)
      · exact hsound.early hmin hle (by omega)
    · have hpending : s.pending = [] := by
        rw [nextWakeup, map_eq_none_iff, min?_eq_none_iff] at hnone
        exact hnone
      have hquiet : (s.advanceAll readings).Sound ∧ (s.advanceAll readings).pending = [] := by
        induction readings using reverseRecOn with
        | nil => exact ⟨hsound, hpending⟩
        | append_singleton readings reading ih =>
          unfold advanceAll
          rw [foldl_concat]
          exact (ih.1.quiet ih.2 reading).2
      exact fun reading => (hquiet.1.quiet hquiet.2 reading).1

/-- A workflow with one timer. -/
theorem wakesUp_timer : (run 1 one_pos [.create (.timer 5), .register 0]).WakesUp := by
  refine (wakesUp_iff one_pos ?_).mpr ?_
  · intro before op after heq
    have hmem : op ∈ [Op.create (.timer 5), Op.register 0] :=
      heq ▸ mem_append_right before mem_cons_self
    obtain rfl | rfl : op = .create (.timer 5) ∨ op = .register 0 := by simpa using hmem
    · trivial
    · trivial
  · rintro source fire ⟨i, hi, hcore, -⟩ hchart
    obtain rfl : i = 0 := mem_singleton.mp hi
    have htimer : source = .timer { fireAt := 5 } := (some.inj hcore).symm
    rw [htimer] at hchart
    cases hchart

/-- A workflow with one chart wakes up at the deadline of the chart, nothing fires, and it is to wake up
again at once. -/
theorem wakeup_spins :
    let defn : ProjectedChartDef :=
      { initial := "running"
        transitions := [("running", [])]
        deadlines := [("running", 10)]
        terminal := [] }
    let ops : List Op := [.create (.chart defn 0), .register 0]
    Throughout (fun before op => (run 1 one_pos before).Timely op) ops ∧ (run 1 one_pos ops).nextWakeup = some 10 ∧
      ((run 1 one_pos ops).advance 10).1 = .ok [] ∧
      ((run 1 one_pos ops).advance 10).2.nextWakeup = some 0 ∧ ¬ (run 1 one_pos ops).WakesUp := by
  intro defn ops
  have hwakeup : (run 1 one_pos ops).nextWakeup = some 10 := by decide +kernel
  have hnothing : ((run 1 one_pos ops).advance 10).1 = .ok [] := by decide +kernel
  refine ⟨?_, hwakeup, hnothing, by decide +kernel, ?_⟩
  · refine throughout_concat (l := [_]).mpr ⟨?_, trivial⟩
    exact throughout_concat (l := []).mpr ⟨throughout_nil, le_refl 0⟩
  · rintro ⟨hwakes, -⟩
    obtain ⟨fired, hfired, hne⟩ := (hwakes 10 hwakeup).1 10 (by decide +kernel)
    exact hne (Except.ok.inj (hfired.symm.trans hnothing))

end WorkflowContext

end LazilyPy.Workflow

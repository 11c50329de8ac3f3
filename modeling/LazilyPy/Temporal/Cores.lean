import LazilyPy.Lib.Chronological
import LazilyPy.Lib.Residue
import Mathlib.Algebra.Order.BigOperators.Group.List

/-!
# Timers, intervals, cron patterns and deadlines

Sources of fires over a logical clock. A tick says whether a source fires; the next fire says when it
will.
-/

namespace LazilyPy.Temporal

open List

/-! ### Single-shot timers -/

structure TimerCore where
  fireAt : ℤ
  fired : Bool := false
  deriving DecidableEq, Repr

namespace TimerCore

def tick (s : TimerCore) (now : ℤ) : Bool × TimerCore :=
  if s.fired ∨ now < s.fireAt then (false, s) else (true, { s with fired := true })

def nextFire (s : TimerCore) : Option ℤ :=
  if s.fired then none else some s.fireAt

theorem tick_iff (s : TimerCore) (now : ℤ) : (s.tick now).1 = true ↔ ∃ fire, s.nextFire = some fire ∧ fire ≤ now := by
  unfold tick nextFire
  cases hfired : s.fired with
  | true => simp
  | false =>
    by_cases hlt : now < s.fireAt
    · simp [hlt]
    · simp [hlt, not_lt.mp hlt]

/-- A timer that has fired stays so. -/
theorem nextFire_tick_of_none {s : TimerCore} (now : ℤ) (h : s.nextFire = none) : (s.tick now).2.nextFire = none := by
  unfold tick
  split
  · exact h
  · rfl

theorem tick_tick (s : TimerCore) (now : ℤ) : (s.tick now).2.tick now = (false, (s.tick now).2) := by
  unfold tick
  by_cases h : s.fired ∨ now < s.fireAt
  · rw [if_pos h]
    exact if_pos h
  · rw [if_neg h]
    exact if_pos (.inl rfl)

end TimerCore

/-! ### Intervals -/

structure IntervalCore where
  period : ℤ
  next : ℤ
  count : ℤ
  period_pos : 1 ≤ period

namespace IntervalCore

def new (period : ℤ) : IntervalCore where
  period := max period 1
  next := max period 1
  count := 0
  period_pos := one_le_max period

def firesThisTick (s : IntervalCore) (now : ℤ) : ℤ :=
  if now < s.next then 0 else (now - s.next) / s.period + 1

def tick (s : IntervalCore) (now : ℤ) : Bool × IntervalCore :=
  let fires := s.firesThisTick now
  if fires = 0 then (false, s)
  else
    (true,
      { s with
        count := s.count + fires
        next := s.next + fires * s.period })

def nextFire (s : IntervalCore) : Option ℤ :=
  some s.next

section

variable (s : IntervalCore) (now : ℤ)

theorem firesThisTick_eq_zero_iff : s.firesThisTick now = 0 ↔ now < s.next := by
  unfold firesThisTick
  split
  next hlt => exact iff_of_true rfl hlt
  next hle =>
    have hnonneg : 0 ≤ (now - s.next) / s.period := by
      have hpos := s.period_pos
      exact Int.ediv_nonneg (by omega) (by omega)
    exact iff_of_false (by omega) hle

theorem tick_iff :
    (s.tick now).1 = true ↔ ∃ fire, s.nextFire = some fire ∧ fire ≤ now := by
  have hzero := s.firesThisTick_eq_zero_iff now
  unfold tick nextFire
  by_cases hlt : now < s.next
  · simpa [hzero.mpr hlt] using hlt
  · simpa [mt hzero.mp hlt] using hlt

/-- A tick passes every fire up to it. -/
theorem lt_next_tick : now < (s.tick now).2.next := by
  have hzero := s.firesThisTick_eq_zero_iff now
  unfold tick
  dsimp only
  split
  next hnone => exact hzero.mp hnone
  next hsome =>
    have hle : ¬ now < s.next := fun hlt => hsome (hzero.mpr hlt)
    have hpos := s.period_pos
    show now < s.next + s.firesThisTick now * s.period
    rw [firesThisTick, if_neg hle, add_mul, one_mul]
    have hlt := Int.lt_ediv_add_one_mul_self (now - s.next) (b := s.period) (by omega)
    rw [add_mul, one_mul] at hlt
    omega

theorem tick_tick : (s.tick now).2.tick now = (false, (s.tick now).2) := by
  have hlt := s.lt_next_tick now
  generalize (s.tick now).2 = s' at hlt ⊢
  exact if_pos ((s'.firesThisTick_eq_zero_iff now).mpr hlt)

end

end IntervalCore

/-! ### Cron patterns -/

/-- The numbers from 1 to `n` with the residue `o`, if `n` is not negative. -/
def countUpto (n o cycle : ℤ) : ℤ :=
  if o = 0 then n / cycle else if o ≤ n then (n - o) / cycle + 1 else 0

structure CronCore where
  cycle : ℤ
  offsets : List ℤ
  cursor : ℤ
  count : ℤ
  cycle_pos : 1 ≤ cycle
  offsets_sorted : offsets.Pairwise (· ≤ ·)
  offsets_reduced : ∀ o ∈ offsets, 0 ≤ o ∧ o < cycle
  cursor_nonneg : 0 ≤ cursor

namespace CronCore

def new (cycle : ℤ) (offsets : List ℤ) : CronCore where
  cycle := max cycle 1
  offsets := ((offsets.map (· % max cycle 1)).dedup).insertionSort (· ≤ ·)
  cursor := 0
  count := 0
  cycle_pos := one_le_max cycle
  offsets_sorted := pairwise_insertionSort _ _
  offsets_reduced := by
    intro o ho
    rw [mem_insertionSort, mem_dedup] at ho
    obtain ⟨offset, -, rfl⟩ := mem_map.mp ho
    have hpos : 1 ≤ max cycle 1 := le_max_right _ _
    exact ⟨Int.emod_nonneg _ (by omega), Int.emod_lt_of_pos _ (by omega)⟩
  cursor_nonneg := le_refl 0

def matchesIn (s : CronCore) (lo hi : ℤ) : ℤ :=
  (s.offsets.map fun o => countUpto hi o s.cycle - countUpto lo o s.cycle).sum

def tick (s : CronCore) (now : ℤ) : Bool × CronCore :=
  if hle : now ≤ s.cursor then
    (false,
      { s with
        cursor := max s.cursor now
        cursor_nonneg := le_max_of_le_left s.cursor_nonneg })
  else
    let fires := s.matchesIn s.cursor now
    have hnonneg : 0 ≤ now := (s.cursor_nonneg.trans (not_le.mp hle).le)
    if fires = 0 then
      (false,
        { s with
          cursor := now
          cursor_nonneg := hnonneg })
    else
      (true,
        { s with
          cursor := now
          count := s.count + fires
          cursor_nonneg := hnonneg })

/-- The numbers with an offset as their residue, in two cycles from that of `start`. -/
def candidates (s : CronCore) (start : ℤ) : List ℤ :=
  let base := start / s.cycle * s.cycle
  s.offsets.map (base + ·) ++ s.offsets.map (base + s.cycle + ·)

def nextFire (s : CronCore) : Option ℤ :=
  let start := s.cursor + 1
  (s.candidates start).find? fun cand => start ≤ cand

def Matches (s : CronCore) (m : ℤ) : Prop :=
  m % s.cycle ∈ s.offsets

variable {s : CronCore} {m lo hi now : ℤ}

theorem countUpto_eq {n o cycle : ℤ} (hcycle : 1 ≤ cycle) (hoc : o < cycle) (hn : 0 ≤ n) :
    countUpto n o cycle = (n - o) / cycle + if o = 0 then 0 else 1 := by
  unfold countUpto
  split
  next hzero => rw [hzero, sub_zero, add_zero]
  · split
    · rfl
    next hlt =>
      -- `n` is before the first one
      have hneg : (n - o) / cycle = -1 := by
        have hle : -1 ≤ (n - o) / cycle := (Int.le_ediv_iff_mul_le (by omega)).mpr (by omega)
        have hlt : (n - o) / cycle < 0 := Int.ediv_neg_of_neg_of_pos (by omega) (by omega)
        omega
      rw [hneg]
      rfl

theorem count_between {o : ℤ} (ho : o ∈ s.offsets) (hlo : 0 ≤ lo) (hle : lo ≤ hi) :
    countUpto hi o s.cycle - countUpto lo o s.cycle = (hi - o) / s.cycle - (lo - o) / s.cycle := by
  have hlt := (s.offsets_reduced o ho).2
  rw [countUpto_eq s.cycle_pos hlt (hlo.trans hle), countUpto_eq s.cycle_pos hlt hlo]
  omega

theorem sum_ne_zero_iff {l : List ℤ} (h : ∀ a ∈ l, 0 ≤ a) : l.sum ≠ 0 ↔ ∃ a ∈ l, 0 < a := by
  induction l with
  | nil => simp
  | cons a l ih =>
    obtain ⟨ha, hl⟩ := forall_mem_cons.mp h
    have hsum : 0 ≤ l.sum := sum_nonneg hl
    rw [sum_cons]
    constructor
    · intro hne
      by_cases hpos : 0 < a
      · exact ⟨a, mem_cons_self, hpos⟩
      · obtain ⟨b, hb, hpos⟩ := (ih hl).mp (by omega)
        exact ⟨b, mem_cons_of_mem _ hb, hpos⟩
    · rintro ⟨b, hb, hpos⟩
      obtain rfl | hb := mem_cons.mp hb
      · omega
      · have hne := (ih hl).mpr ⟨b, hb, hpos⟩
        omega

/-- Something is counted between two numbers if and only if the pattern fires between them. -/
theorem matchesIn_ne_zero_iff (hlo : 0 ≤ lo) (hle : lo ≤ hi) :
    s.matchesIn lo hi ≠ 0 ↔ ∃ m, lo < m ∧ m ≤ hi ∧ s.Matches m := by
  have hcycle := s.cycle_pos
  have hmono (o : ℤ) : (lo - o) / s.cycle ≤ (hi - o) / s.cycle := Int.ediv_le_ediv (by omega) (by omega)
  have hmap : s.matchesIn lo hi = (s.offsets.map fun o => (hi - o) / s.cycle - (lo - o) / s.cycle).sum := by
    unfold matchesIn
    rw [map_congr_left fun o ho => count_between ho hlo hle]
  rw [hmap, sum_ne_zero_iff]
  · constructor
    · rintro ⟨a, ha, hpos⟩
      obtain ⟨o, ho, rfl⟩ := mem_map.mp ha
      obtain ⟨hnonneg, hlt⟩ := s.offsets_reduced o ho
      obtain ⟨m, hm, hm', rfl⟩ := (residue_between_iff (by omega) hnonneg hlt).mpr (sub_pos.mp hpos)
      exact ⟨m, hm, hm', ho⟩
    · rintro ⟨m, hm, hm', hmatch⟩
      obtain ⟨hnonneg, hlt⟩ := s.offsets_reduced _ hmatch
      refine ⟨_, mem_map_of_mem hmatch, sub_pos.mpr ?_⟩
      exact (residue_between_iff (by omega) hnonneg hlt).mp ⟨m, hm, hm', rfl⟩
  · intro a ha
    obtain ⟨o, -, rfl⟩ := mem_map.mp ha
    have hle := hmono o
    omega

theorem mem_candidates {start : ℤ} : m ∈ s.candidates start ↔
    s.Matches m ∧ (m / s.cycle = start / s.cycle ∨ m / s.cycle = start / s.cycle + 1) := by
  have hcycle := s.cycle_pos
  have hat (q o : ℤ) (ho : o ∈ s.offsets) : (q * s.cycle + o) % s.cycle = o ∧ (q * s.cycle + o) / s.cycle = q := by
    obtain ⟨hnonneg, hlt⟩ := s.offsets_reduced o ho
    rw [mul_comm]
    refine ⟨?_, ?_⟩
    · rw [Int.mul_add_emod_self_left]
      exact Int.emod_eq_of_lt hnonneg hlt
    · rw [Int.mul_add_ediv_left _ _ (by omega), Int.ediv_eq_zero_of_lt hnonneg hlt, add_zero]
  have hsplit : m = m / s.cycle * s.cycle + m % s.cycle := (Int.ediv_mul_add_emod m s.cycle).symm
  unfold candidates Matches
  dsimp only
  rw [mem_append, mem_map, mem_map]
  constructor
  · rintro (⟨o, ho, rfl⟩ | ⟨o, ho, rfl⟩)
    · obtain ⟨hmod, hdiv⟩ := hat (start / s.cycle) o ho
      exact ⟨by rwa [hmod], .inl hdiv⟩
    · obtain ⟨hmod, hdiv⟩ := hat (start / s.cycle + 1) o ho
      rw [add_mul, one_mul] at hmod hdiv
      exact ⟨by rwa [hmod], .inr hdiv⟩
  · rintro ⟨hmatch, hdiv | hdiv⟩
    · exact .inl ⟨m % s.cycle, hmatch, by rw [← hdiv, ← hsplit]⟩
    · refine .inr ⟨m % s.cycle, hmatch, ?_⟩
      rw [hdiv, add_mul, one_mul] at hsplit
      exact hsplit.symm

theorem candidates_sorted (s : CronCore) (start : ℤ) : (s.candidates start).Pairwise (· ≤ ·) := by
  have hmap (base : ℤ) : (s.offsets.map (base + ·)).Pairwise (· ≤ ·) :=
    pairwise_map.mpr (s.offsets_sorted.imp fun hle => by omega)
  refine pairwise_append.mpr ⟨hmap _, hmap _, fun a ha b hb => ?_⟩
  obtain ⟨o, ho, rfl⟩ := mem_map.mp ha
  obtain ⟨o', ho', rfl⟩ := mem_map.mp hb
  have h := s.offsets_reduced o ho
  have h' := s.offsets_reduced o' ho'
  omega

/-- The next fire is the least number after the cursor at which the pattern fires. -/
theorem nextFire_spec {fire : ℤ} (h : s.nextFire = some fire) :
    s.cursor < fire ∧ s.Matches fire ∧ ∀ m, s.cursor < m → s.Matches m → fire ≤ m := by
  have hcycle := s.cycle_pos
  have hfound := find?_some h
  have hmem := mem_candidates.mp (mem_of_find?_eq_some h)
  have hle : s.cursor + 1 ≤ fire := of_decide_eq_true hfound
  refine ⟨by omega, hmem.1, fun m hm hmatch => ?_⟩
  by_cases hnear : m / s.cycle ≤ (s.cursor + 1) / s.cycle + 1
  · have hge : (s.cursor + 1) / s.cycle ≤ m / s.cycle := Int.ediv_le_ediv (by omega) (by omega)
    refine le_of_find?_eq_some (s.candidates_sorted _) h ?_ (decide_eq_true (by omega))
    exact mem_candidates.mpr ⟨hmatch, by omega⟩
  · -- two cycles later than the cursor, and so after the candidates
    have hdiv : fire / s.cycle < m / s.cycle := by omega
    by_contra hlt
    have hmono : m / s.cycle ≤ fire / s.cycle := Int.ediv_le_ediv (by omega) (by omega)
    omega

/-- There is no next fire only if there are no offsets. -/
theorem offsets_of_nextFire (h : s.nextFire = none) : s.offsets = [] := by
  have hcycle := s.cycle_pos
  by_contra hne
  obtain ⟨o, ho⟩ := exists_mem_of_ne_nil _ hne
  obtain ⟨hnonneg, hlt⟩ := s.offsets_reduced o ho
  have hmem : (s.cursor + 1) / s.cycle * s.cycle + s.cycle + o ∈ s.candidates (s.cursor + 1) :=
    mem_append_right _ (mem_map_of_mem ho)
  have hnot := find?_eq_none.mp h _ hmem
  have hafter := Int.lt_ediv_add_one_mul_self (s.cursor + 1) (b := s.cycle) (by omega)
  rw [add_mul, one_mul] at hafter
  exact hnot (decide_eq_true (by omega))

theorem nextFire_eq_none_iff : s.nextFire = none ↔ s.offsets = [] := by
  refine ⟨offsets_of_nextFire, fun hnil => ?_⟩
  unfold nextFire candidates
  rw [hnil]
  rfl

theorem tick_iff (s : CronCore) (now : ℤ) : (s.tick now).1 = true ↔ ∃ fire, s.nextFire = some fire ∧ fire ≤ now := by
  unfold tick
  by_cases hle : now ≤ s.cursor
  · rw [dif_pos hle]
    refine iff_of_false Bool.false_ne_true ?_
    rintro ⟨fire, hfire, hnow⟩
    have hafter := (nextFire_spec hfire).1
    omega
  · rw [dif_neg hle]
    have hcount := matchesIn_ne_zero_iff (s := s) s.cursor_nonneg (not_le.mp hle).le
    by_cases hzero : s.matchesIn s.cursor now = 0
    · rw [if_pos hzero]
      refine iff_of_false Bool.false_ne_true ?_
      rintro ⟨fire, hfire, hnow⟩
      obtain ⟨hafter, hmatch, -⟩ := nextFire_spec hfire
      exact hcount.mpr ⟨fire, hafter, hnow, hmatch⟩ hzero
    · rw [if_neg hzero]
      refine iff_of_true rfl ?_
      obtain ⟨m, hafter, hnow, hmatch⟩ := hcount.mp hzero
      cases hfire : s.nextFire with
      | none =>
        have hnil := offsets_of_nextFire hfire
        unfold Matches at hmatch
        rw [hnil] at hmatch
        cases hmatch
      | some fire => exact ⟨fire, rfl, ((nextFire_spec hfire).2.2 m hafter hmatch).trans hnow⟩

/-- A tick moves the cursor, and keeps the pattern. -/
theorem tick_snd (s : CronCore) (now : ℤ) : (s.tick now).2.cycle = s.cycle ∧
    (s.tick now).2.offsets = s.offsets ∧ now ≤ (s.tick now).2.cursor := by
  unfold tick
  split
  · exact ⟨rfl, rfl, le_max_right _ _⟩
  · dsimp only
    split
    · exact ⟨rfl, rfl, le_refl _⟩
    · exact ⟨rfl, rfl, le_refl _⟩

theorem tick_tick (s : CronCore) (now : ℤ) : ((s.tick now).2.tick now).1 = false ∧
    ((s.tick now).2.tick now).2 = (s.tick now).2 := by
  have hle := (s.tick_snd now).2.2
  generalize (s.tick now).2 = s' at hle ⊢
  unfold tick
  rw [dif_pos hle]
  refine ⟨rfl, ?_⟩
  obtain ⟨cycle, offsets, cursor, count, hcycle, hsorted, hreduced, hcursor⟩ := s'
  have hmax : max cursor now = cursor := max_eq_left hle
  simp only [hmax]

end CronCore

/-! ### Deadlines -/

structure DeadlineCore where
  deadline : ℤ
  timer : TimerCore
  deriving DecidableEq, Repr

namespace DeadlineCore

def new (deadline : ℤ) : DeadlineCore where
  deadline := deadline
  timer := { fireAt := deadline }

def tick (s : DeadlineCore) (now : ℤ) : Bool × DeadlineCore :=
  ((s.timer.tick now).1, { s with timer := (s.timer.tick now).2 })

def nextFire (s : DeadlineCore) : Option ℤ :=
  s.timer.nextFire

end DeadlineCore

end LazilyPy.Temporal

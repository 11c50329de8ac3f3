import LazilyPy.Lib.Chronological
import LazilyPy.Temporal.Cores

/-!
# What periodic sources count

An interval and a cron pattern count the numbers that match up to their last tick, whatever ticks came before it, and
the next fire is the next number that matches.
-/

namespace LazilyPy.Temporal

open List

/-- The count and the next fire after a tick at `n`, where the numbers in `M` match. -/
structure Counts (M : ℤ → Prop) [DecidablePred M] (n count : ℤ) (nextFire : Option ℤ) : Prop where
  count : count = ((Finset.Icc 1 n).filter M).card
  nextFire : ∀ fire, nextFire = some fire ↔ IsLeast {m | n < m ∧ M m} fire

theorem Icc_one_eq (n : ℤ) : Finset.Icc 1 n = Finset.Ioc 0 n := by
  ext m
  rw [Finset.mem_Icc, Finset.mem_Ioc]
  omega

/-! ### Intervals -/

namespace IntervalCore

def run (s : IntervalCore) (ticks : List ℤ) : IntervalCore :=
  ticks.foldl (fun s now => (s.tick now).2) s

theorem run_concat (s : IntervalCore) (ticks : List ℤ) (now : ℤ) :
    s.run (ticks ++ [now]) = ((s.run ticks).tick now).2 :=
  foldl_concat ..

/-- A tick fires exactly if it counts something. -/
theorem tick_iff_count (s : IntervalCore) (now : ℤ) : (s.tick now).1 = true ↔ s.count < (s.tick now).2.count := by
  have hzero := s.firesThisTick_eq_zero_iff now
  unfold tick
  dsimp only
  split
  · exact iff_of_false Bool.false_ne_true (lt_irrefl _)
  next hsome =>
    have hle : ¬ now < s.next := fun hlt => hsome (hzero.mpr hlt)
    have hquot : 0 ≤ (now - s.next) / s.period := by
      have hpos := s.period_pos
      exact Int.ediv_nonneg (by omega) (by omega)
    refine iff_of_true rfl ?_
    show s.count < s.count + s.firesThisTick now
    rw [firesThisTick, if_neg hle]
    omega

/-- The last tick was at `t`. -/
structure At (period : ℤ) (s : IntervalCore) (t : ℤ) : Prop where
  period_eq : s.period = period
  next : s.next = (s.count + 1) * period
  passed : s.count * period ≤ max t 0
  ahead : t < s.next

variable {s : IntervalCore} {period t now : ℤ}

theorem at_new (period : ℤ) (ht : t ≤ 0) : At (max period 1) (new period) t where
  period_eq := rfl
  next := (one_mul _).symm
  passed := by
    show 0 * max period 1 ≤ max t 0
    omega
  ahead := by
    show t < max period 1
    omega

theorem At.tick (h : At period s t) (hle : t ≤ now) : At period (s.tick now).2 now := by
  have hahead := s.lt_next_tick now
  have hperiod := h.period_eq
  have hpos := s.period_pos
  have hzero := s.firesThisTick_eq_zero_iff now
  have hpassed := h.passed
  unfold IntervalCore.tick at hahead ⊢
  dsimp only at hahead ⊢
  split
  next hnone =>
    have hpassed : s.count * period ≤ max now 0 := by omega
    exact ⟨hperiod, h.next, hpassed, hzero.mp hnone⟩
  next hsome =>
    rw [if_neg hsome] at hahead
    have hlate : ¬ now < s.next := fun hlt => hsome (hzero.mpr hlt)
    refine ⟨hperiod, ?_, ?_, hahead⟩
    · show s.next + s.firesThisTick now * s.period = (s.count + s.firesThisTick now + 1) * period
      rw [h.next, hperiod]
      ring
    · show (s.count + s.firesThisTick now) * period ≤ max now 0
      have hdiv := Int.ediv_mul_le (now - s.next) (b := s.period) (by omega)
      have hsplit : (s.count + s.firesThisTick now) * period = s.next + (now - s.next) / s.period * s.period := by
        rw [firesThisTick, if_neg hlate, h.next, hperiod]
        ring
      omega

theorem At.run {ticks : List ℤ} {n : ℤ} (period : ℤ) (h : Chronological id (ticks ++ [n])) :
    At (max period 1) ((new period).run (ticks ++ [n])) n := by
  refine h.induction (motive := fun l t => At (max period 1) ((new period).run l) t) 0 ?_ ?_
  · exact fun t ht => at_new period ht
  · intro l t now hat hle
    rw [run_concat]
    exact hat.tick hle

/-- The multiples of the period are counted. -/
theorem At.counts {n : ℤ} (h : At period s n) (hn : 0 ≤ n) :
    Counts (fun m => m % period = 0) n s.count s.nextFire := by
  have hpos : 0 < period := h.period_eq ▸ s.period_pos
  have hpassed : s.count * period ≤ n := (max_eq_left hn) ▸ h.passed
  have hahead : n < (s.count + 1) * period := h.next ▸ h.ahead
  refine ⟨?_, fun fire => ?_⟩
  · have hle : s.count ≤ n / period := (Int.le_ediv_iff_mul_le hpos).mpr hpassed
    have hlt : n / period < s.count + 1 := (Int.ediv_lt_iff_lt_mul hpos).mpr hahead
    rw [Icc_one_eq, card_residue hpos le_rfl hpos hn, sub_zero, sub_zero, Int.zero_ediv]
    omega
  · have hleast : IsLeast {m | n < m ∧ m % period = 0} s.next := by
      refine ⟨⟨h.ahead, ?_⟩, fun m hm => ?_⟩
      · rw [h.next]
        exact Int.mul_emod_left _ _
      · obtain ⟨hafter, hmod⟩ := hm
        obtain ⟨k, rfl⟩ := Int.dvd_of_emod_eq_zero hmod
        -- a multiple after `n` is not the last one that was counted
        have hk : s.count < k := by
          by_contra hle
          have hmul : k * period ≤ s.count * period := Int.mul_le_mul_of_nonneg_right (by omega) hpos.le
          rw [mul_comm] at hafter
          omega
        rw [h.next, mul_comm period]
        exact Int.mul_le_mul_of_nonneg_right (by omega) hpos.le
    refine ⟨?_, fun hfire => congrArg some (hleast.unique hfire)⟩
    intro heq
    obtain rfl := Option.some.inj heq
    exact hleast

end IntervalCore

/-! ### Cron patterns -/

namespace CronCore

def run (s : CronCore) (ticks : List ℤ) : CronCore :=
  ticks.foldl (fun s now => (s.tick now).2) s

theorem run_concat (s : CronCore) (ticks : List ℤ) (now : ℤ) : s.run (ticks ++ [now]) = ((s.run ticks).tick now).2 :=
  foldl_concat ..

variable {s : CronCore} {cycle t now lo hi : ℤ} {offsets : List ℤ}

theorem nodup_offsets_new (cycle : ℤ) (offsets : List ℤ) : (new cycle offsets).offsets.Nodup :=
  (perm_insertionSort _ _).nodup_iff.mpr (nodup_dedup _)

theorem mem_offsets_new {o : ℤ} : o ∈ (new cycle offsets).offsets ↔ ∃ offset ∈ offsets, offset % max cycle 1 = o := by
  show o ∈ insertionSort _ _ ↔ _
  rw [mem_insertionSort, mem_dedup, mem_map]

theorem matchesIn_eq (hlo : 0 ≤ lo) (hle : lo ≤ hi) :
    s.matchesIn lo hi = (s.offsets.map fun o => (hi - o) / s.cycle - (lo - o) / s.cycle).sum := by
  unfold matchesIn
  rw [map_congr_left fun o ho => count_between ho hlo hle]

/-- What is counted between two numbers are those that match. -/
theorem matchesIn_eq_card (hnodup : s.offsets.Nodup) (hlo : 0 ≤ lo) (hle : lo ≤ hi) :
    s.matchesIn lo hi = ((Finset.Ioc lo hi).filter fun m => m % s.cycle ∈ s.offsets).card := by
  have hcycle := s.cycle_pos
  rw [matchesIn_eq hlo hle, card_residues (by omega) s.offsets_reduced hnodup hle]

theorem matchesIn_nonneg (hlo : 0 ≤ lo) (hle : lo ≤ hi) : 0 ≤ s.matchesIn lo hi := by
  have hcycle := s.cycle_pos
  rw [matchesIn_eq hlo hle]
  refine sum_nonneg fun a ha => ?_
  obtain ⟨o, -, rfl⟩ := mem_map.mp ha
  have hmono : (lo - o) / s.cycle ≤ (hi - o) / s.cycle := Int.ediv_le_ediv (by omega) (by omega)
  omega

/-- A tick fires exactly if it counts something. -/
theorem tick_iff_count (s : CronCore) (now : ℤ) : (s.tick now).1 = true ↔ s.count < (s.tick now).2.count := by
  unfold tick
  split
  · exact iff_of_false Bool.false_ne_true (lt_irrefl _)
  next hlate =>
    have hnonneg := matchesIn_nonneg (s := s) s.cursor_nonneg (not_le.mp hlate).le
    dsimp only
    split
    · exact iff_of_false Bool.false_ne_true (lt_irrefl _)
    next hsome =>
      refine iff_of_true rfl ?_
      show s.count < s.count + s.matchesIn s.cursor now
      omega

/-- The last tick was at `t`. -/
structure At (cycle : ℤ) (offsets : List ℤ) (s : CronCore) (t : ℤ) : Prop where
  cycle_eq : s.cycle = max cycle 1
  offsets_eq : s.offsets = (new cycle offsets).offsets
  cursor : s.cursor = max t 0
  count : s.count = ((Finset.Ioc 0 s.cursor).filter fun m => m % s.cycle ∈ s.offsets).card

theorem at_new (cycle : ℤ) (offsets : List ℤ) (ht : t ≤ 0) : At cycle offsets (new cycle offsets) t where
  cycle_eq := rfl
  offsets_eq := rfl
  cursor := (max_eq_right ht).symm
  count := rfl

theorem At.nodup (h : At cycle offsets s t) : s.offsets.Nodup :=
  h.offsets_eq ▸ nodup_offsets_new cycle offsets

/-- The numbers up to the cursor and those that are passed now. -/
theorem card_add {P : ℤ → Prop} [DecidablePred P] (hlo : 0 ≤ lo) (hle : lo ≤ hi) :
    ((Finset.Ioc 0 lo).filter P).card + ((Finset.Ioc lo hi).filter P).card = ((Finset.Ioc 0 hi).filter P).card := by
  rw [← Finset.Ioc_union_Ioc_eq_Ioc hlo hle, Finset.filter_union, Finset.card_union_of_disjoint]
  refine Finset.disjoint_filter_filter ?_
  refine Finset.disjoint_left.mpr fun m hm hm' => ?_
  rw [Finset.mem_Ioc] at hm hm'
  omega

theorem At.tick (h : At cycle offsets s t) (hle : t ≤ now) : At cycle offsets (s.tick now).2 now := by
  have hcursor := h.cursor
  unfold CronCore.tick
  split
  next hpast =>
    have hsame : max s.cursor now = s.cursor := max_eq_left hpast
    refine ⟨h.cycle_eq, h.offsets_eq, ?_, ?_⟩
    · show max s.cursor now = max now 0
      omega
    · show s.count = (((Finset.Ioc 0 (max s.cursor now)).filter fun m => m % s.cycle ∈ s.offsets).card : ℤ)
      rw [hsame]
      exact h.count
  next hlate =>
    have hbefore := not_le.mp hlate
    have hmax : now = max now 0 := by omega
    have hadd := card_add (P := fun m => m % s.cycle ∈ s.offsets) s.cursor_nonneg hbefore.le
    have hcard := matchesIn_eq_card h.nodup s.cursor_nonneg hbefore.le
    have hcount := h.count
    dsimp only
    split
    next hnone =>
      refine ⟨h.cycle_eq, h.offsets_eq, hmax, ?_⟩
      show s.count = (((Finset.Ioc 0 now).filter fun m => m % s.cycle ∈ s.offsets).card : ℤ)
      omega
    · refine ⟨h.cycle_eq, h.offsets_eq, hmax, ?_⟩
      show s.count + s.matchesIn s.cursor now = (((Finset.Ioc 0 now).filter fun m => m % s.cycle ∈ s.offsets).card : ℤ)
      omega

theorem At.run {ticks : List ℤ} {n : ℤ} (cycle : ℤ) (offsets : List ℤ) (h : Chronological id (ticks ++ [n])) :
    At cycle offsets ((new cycle offsets).run (ticks ++ [n])) n := by
  refine h.induction (motive := fun l t => At cycle offsets ((new cycle offsets).run l) t) 0 ?_ ?_
  · exact fun t ht => at_new cycle offsets ht
  · intro l t now hat hle
    rw [run_concat]
    exact hat.tick hle

theorem At.matches_iff (h : At cycle offsets s t) (m : ℤ) :
    s.Matches m ↔ ∃ offset ∈ offsets, offset % max cycle 1 = m % max cycle 1 := by
  unfold Matches
  rw [h.cycle_eq, h.offsets_eq, mem_offsets_new]

theorem At.nextFire_eq_none_iff (h : At cycle offsets s t) : s.nextFire = none ↔ offsets = [] := by
  rw [CronCore.nextFire_eq_none_iff, h.offsets_eq, eq_nil_iff_forall_not_mem, eq_nil_iff_forall_not_mem]
  constructor
  · exact fun hnone offset hmem => hnone _ (mem_offsets_new.mpr ⟨offset, hmem, rfl⟩)
  · intro hnone o ho
    obtain ⟨offset, hmem, -⟩ := mem_offsets_new.mp ho
    exact hnone offset hmem

/-- The numbers with an offset as their residue are counted. -/
theorem At.counts {n : ℤ} (h : At cycle offsets s n) (hn : 0 ≤ n) :
    Counts (fun m => ∃ offset ∈ offsets, offset % max cycle 1 = m % max cycle 1) n s.count s.nextFire := by
  have hcursor : s.cursor = n := h.cursor.trans (max_eq_left hn)
  have hmatches := h.matches_iff
  unfold Matches at hmatches
  refine ⟨?_, fun fire => ?_⟩
  · rw [Icc_one_eq, h.count, hcursor]
    simp only [hmatches]
  · constructor
    · intro hfire
      obtain ⟨hafter, hmatch, hleast⟩ := nextFire_spec hfire
      refine ⟨⟨hcursor ▸ hafter, (h.matches_iff fire).mp hmatch⟩, fun m hm => ?_⟩
      exact hleast m (hcursor.symm ▸ hm.1) ((h.matches_iff m).mpr hm.2)
    · rintro ⟨⟨hafter, hmatch⟩, hleast⟩
      cases hfire : s.nextFire with
      | none =>
        obtain ⟨offset, hmem, -⟩ := hmatch
        rw [h.nextFire_eq_none_iff.mp hfire] at hmem
        cases hmem
      | some fire' =>
        obtain ⟨hafter', hmatch', hleast'⟩ := nextFire_spec hfire
        have hle := hleast' fire (hcursor.symm ▸ hafter) ((h.matches_iff fire).mpr hmatch)
        have hge := hleast ⟨hcursor ▸ hafter', (h.matches_iff fire').mp hmatch'⟩
        exact congrArg some (le_antisymm hle hge)

end CronCore

/-- After ticks of a clock that does not go back, the last one at `n`: the count is that of the matching numbers up to
`n`, and the next fire is the least one after `n`. A tick fires exactly if the count has grown by it. -/
theorem periodic_counts {ticks : List ℤ} {n : ℤ} (hticks : Chronological id (ticks ++ [n])) (hn : 0 ≤ n) :
    (∀ period : ℤ, Counts (fun m => m % max period 1 = 0) n ((IntervalCore.new period).run (ticks ++ [n])).count
        ((IntervalCore.new period).run (ticks ++ [n])).nextFire ∧
      ∀ before now after, ticks ++ [n] = before ++ now :: after →
        ((((IntervalCore.new period).run before).tick now).1 = true ↔
          ((IntervalCore.new period).run before).count < ((IntervalCore.new period).run (before ++ [now])).count)) ∧
    ∀ (cycle : ℤ) (offsets : List ℤ), Counts (fun m => ∃ offset ∈ offsets, offset % max cycle 1 = m % max cycle 1) n
        ((CronCore.new cycle offsets).run (ticks ++ [n])).count
        ((CronCore.new cycle offsets).run (ticks ++ [n])).nextFire ∧
      (((CronCore.new cycle offsets).run (ticks ++ [n])).nextFire = none ↔ offsets = []) ∧
      ∀ before now after, ticks ++ [n] = before ++ now :: after →
        ((((CronCore.new cycle offsets).run before).tick now).1 = true ↔
          ((CronCore.new cycle offsets).run before).count <
            ((CronCore.new cycle offsets).run (before ++ [now])).count) := by
  refine ⟨fun period => ⟨?_, fun before now _ _ => ?_⟩, fun cycle offsets => ⟨?_, ?_, fun before now _ _ => ?_⟩⟩
  · exact (IntervalCore.At.run period hticks).counts hn
  · rw [IntervalCore.run_concat]
    exact IntervalCore.tick_iff_count _ now
  · exact (CronCore.At.run cycle offsets hticks).counts hn
  · exact (CronCore.At.run cycle offsets hticks).nextFire_eq_none_iff
  · rw [CronCore.run_concat]
    exact CronCore.tick_iff_count _ now

/-- A jump over several numbers that match. -/
theorem periodic_counts_jump :
    ((IntervalCore.new 3).run [2, 10]).count = ((Finset.Icc (1 : ℤ) 10).filter fun m => m % max 3 1 = 0).card ∧
      (((CronCore.new 5 [7, 0]).run [2, 10]).nextFire = none ↔ [(7 : ℤ), 0] = []) := by
  have hticks : Chronological id ([2] ++ [(10 : ℤ)]) := by decide
  obtain ⟨hinterval, hcron⟩ := periodic_counts hticks (by decide)
  exact ⟨(hinterval 3).1.count, (hcron 5 [7, 0]).2.1⟩

end LazilyPy.Temporal

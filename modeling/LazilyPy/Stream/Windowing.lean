import LazilyPy.Lib.Chronological
import LazilyPy.Lib.Loop
import LazilyPy.Lib.Mealy
import LazilyPy.Lib.Merging
import Mathlib.Data.List.ReduceOption

/-!
# Windows over a stream

A window folds the elements that are pushed to it and emits what they have been folded to. What has been emitted,
together with what is still open, are the folds of the segments of the stream.
-/

namespace LazilyPy.Stream

open List
open Option hiding max_eq_left

variable {T : Type}

def mergeInto (merge : T → T → T) : Option T → T → T
  | none, v => v
  | some acc, v => merge acc v

/-- The fold of some elements, `none` if there are none. -/
def foldWindow (merge : T → T → T) (items : List T) : Option T :=
  items.foldl (fun acc v => some (mergeInto merge acc v)) none

theorem foldWindow_concat (merge : T → T → T) (items : List T) (v : T) :
    foldWindow merge (items ++ [v]) = some (mergeInto merge (foldWindow merge items) v) :=
  foldl_concat ..

def foldAll (merge : T → T → T) (segments : List (List T)) : List T :=
  segments.filterMap (foldWindow merge)

theorem foldAll_append (merge : T → T → T) (segments segments' : List (List T)) :
    foldAll merge (segments ++ segments') = foldAll merge segments ++ foldAll merge segments' :=
  filterMap_append ..

theorem foldAll_singleton (merge : T → T → T) (segment : List T) :
    foldAll merge [segment] = (foldWindow merge segment).toList := by
  unfold foldAll
  cases h : foldWindow merge segment with
  | none => rw [filterMap_cons_none h]; rfl
  | some v => rw [filterMap_cons_some h]; rfl

/-! ### Segments and their folds -/

/-- What has been emitted and what is in the accumulator are the folds of the segments, and what is in the accumulator
is that of the open one. -/
structure Conserves (merge : T → T → T) (s : Segments T) (emissions : List T) (acc : Option T) : Prop where
  folds : emissions ++ acc.toList = foldAll merge s.all
  opened : ∀ a, acc = some a → foldWindow merge s.opened = some a

namespace Conserves

variable {merge : T → T → T} {s : Segments T} {emissions : List T} {a : T}

theorem empty (merge : T → T → T) : Conserves merge ⟨[], []⟩ [] none :=
  ⟨rfl, nofun⟩

/-- The closed segments have been emitted. -/
theorem closed (h : Conserves merge s emissions (some a)) : emissions = foldAll merge s.closed := by
  have hfolds := h.folds
  rw [Segments.all, foldAll_append, foldAll_singleton, h.opened a rfl] at hfolds
  exact append_cancel_right hfolds

theorem of_opened (hclosed : emissions = foldAll merge s.closed) (hopened : foldWindow merge s.opened = some a) :
    Conserves merge s emissions (some a) where
  folds := by rw [Segments.all, foldAll_append, foldAll_singleton, hopened, hclosed]
  opened := by
    rintro _ ⟨⟩
    exact hopened

/-- One more element of the open segment. -/
theorem merge_some (h : Conserves merge s emissions (some a)) (v : T) :
    Conserves merge (s.add [v]) emissions (some (merge a v)) := by
  refine of_opened h.closed ?_
  show foldWindow merge (s.opened ++ [v]) = _
  rw [foldWindow_concat, h.opened a rfl]
  rfl

/-- The first element of the open segment. -/
theorem merge_none (h : Conserves merge s emissions none) (hopened : s.opened = []) (v : T) :
    Conserves merge (s.add [v]) emissions (some v) := by
  have hfolds := h.folds
  rw [toList_none, append_nil, Segments.all, foldAll_append, hopened, foldAll_singleton] at hfolds
  refine of_opened (hfolds.trans (append_nil _)) ?_
  show foldWindow merge (s.opened ++ [v]) = _
  rw [hopened]
  rfl

/-- The open segment is emitted. -/
theorem emit (h : Conserves merge s emissions (some a)) : Conserves merge s (emissions ++ [a]) none :=
  ⟨(append_nil _).trans h.folds, nofun⟩

/-- An open segment that has been emitted is closed. -/
theorem cut (h : Conserves merge s emissions none) : Conserves merge s.cut emissions none := by
  refine ⟨?_, nofun⟩
  show _ = foldAll merge (s.all ++ [[]])
  rw [foldAll_append, h.folds]
  exact (append_nil _).symm

end Conserves

theorem emissions_concat (outputs : List (Option T)) (output : Option T) :
    (outputs ++ [output]).reduceOption = outputs.reduceOption ++ output.toList := by
  rw [← concat_eq_append, reduceOption_concat]

/-! ### Tumbling windows of a number of elements -/

structure TumblingCountCore (T : Type) where
  n : ℤ
  acc : Option T
  count : ℤ
  n_pos : 1 ≤ n

namespace TumblingCountCore

def new (n : ℤ) : TumblingCountCore T where
  n := max n 1
  acc := none
  count := 0
  n_pos := one_le_max n

def push (merge : T → T → T) (s : TumblingCountCore T) (v : T) : Option T × TumblingCountCore T :=
  let acc := mergeInto merge s.acc v
  if s.n ≤ s.count + 1 then (some acc, { s with acc := none, count := 0 })
  else (none, { s with acc := some acc, count := s.count + 1 })

/-- The segments have `n` elements each. -/
def AfterEvery (n : ℤ) (before : List T) (_v : T) : Prop :=
  before ≠ [] ∧ n ∣ (before.length : ℤ)

structure Holds (merge : T → T → T) (n : ℤ) (vs : List T) (emissions : List T) (s : TumblingCountCore T) : Prop where
  n_eq : s.n = n
  count : s.count = (vs.length : ℤ) % n
  isSome_acc : s.acc.isSome = true ↔ s.count ≠ 0
  conserves : Conserves merge (segments (AfterEvery n) some vs) emissions s.acc

variable {merge : T → T → T} {n : ℤ} {vs emissions : List T} {s : TumblingCountCore T}

theorem emod_add_one {a n : ℤ} (hn : 1 ≤ n) : (a + 1) % n = if a % n + 1 = n then 0 else a % n + 1 := by
  have hlt := Int.emod_lt_of_pos a (by omega : 0 < n)
  have hnonneg := Int.emod_nonneg a (by omega : n ≠ 0)
  rw [← Int.emod_add_emod]
  split
  next heq => rw [heq, Int.emod_self]
  · exact Int.emod_eq_of_lt (by omega) (by omega)

theorem Holds.n_pos (h : Holds merge n vs emissions s) : 1 ≤ n :=
  h.n_eq ▸ s.n_pos

/-- The accumulator and the segments once the element is in. -/
theorem Holds.merged (h : Holds merge n vs emissions s) (v : T) :
    Conserves merge (segments (AfterEvery n) some (vs ++ [v])) emissions (some (mergeInto merge s.acc v)) := by
  have hcons := h.conserves
  have hcut : AfterEvery n vs v ↔ vs ≠ [] ∧ s.acc = none := by
    rw [← not_isSome_iff_eq_none, h.isSome_acc, not_not, h.count]
    exact and_congr_right fun _ => Int.dvd_iff_emod_eq_zero
  cases hacc : s.acc with
  | some a =>
    have hkeep : ¬ AfterEvery n vs v := fun hc => nomatch hacc.symm.trans (hcut.mp hc).2
    rw [segments_keep hkeep]
    rw [hacc] at hcons
    exact hcons.merge_some v
  | none =>
    rw [hacc] at hcons
    by_cases hnil : vs = []
    · subst hnil
      rw [segments_keep fun hc => hc.1 rfl]
      exact hcons.merge_none rfl v
    · rw [segments_cut (hcut.mpr ⟨hnil, hacc⟩)]
      exact hcons.cut.merge_none rfl v

/-- A push emits exactly if it fills the window. -/
theorem Holds.emits_iff (h : Holds merge n vs emissions s) (v : T) :
    (s.push merge v).1.isSome = true ↔ n ∣ (vs.length : ℤ) + 1 := by
  have hpos := h.n_pos
  have hlt := Int.emod_lt_of_pos (vs.length : ℤ) (by omega : 0 < n)
  have hnonneg := Int.emod_nonneg (vs.length : ℤ) (by omega : n ≠ 0)
  have hn := h.n_eq
  have hcount := h.count
  rw [Int.dvd_iff_emod_eq_zero, emod_add_one hpos]
  unfold push
  dsimp only
  split
  · refine iff_of_true rfl (if_pos ?_)
    omega
  · refine iff_of_false Bool.false_ne_true ?_
    rw [if_neg (by omega)]
    omega

theorem Holds.push (h : Holds merge n vs emissions s) (v : T) :
    Holds merge n (vs ++ [v]) (emissions ++ (s.push merge v).1.toList) (s.push merge v).2 := by
  have hpos := h.n_pos
  have hlt := Int.emod_lt_of_pos (vs.length : ℤ) (by omega : 0 < n)
  have hnonneg := Int.emod_nonneg (vs.length : ℤ) (by omega : n ≠ 0)
  have hn := h.n_eq
  have hcount := h.count
  have hnext := emod_add_one (a := (vs.length : ℤ)) hpos
  have hmerged := h.merged v
  have hlength : ((vs ++ [v]).length : ℤ) = (vs.length : ℤ) + 1 := by simp
  unfold TumblingCountCore.push
  dsimp only
  split
  · refine ⟨hn, ?_, iff_of_false Bool.false_ne_true fun hne => hne rfl, hmerged.emit⟩
    rw [hlength, hnext, if_pos (by omega)]
  · refine ⟨hn, ?_, iff_of_true rfl ?_, ?_⟩
    · show s.count + 1 = _
      rw [hlength, hnext, if_neg (by omega), hcount]
    · show s.count + 1 ≠ 0
      omega
    · rw [toList_none, append_nil]
      exact hmerged

theorem holds_run (merge : T → T → T) (n : ℤ) (vs : List T) :
    Holds merge (max n 1) vs (Mealy.outputs (TumblingCountCore.push merge) (new n) vs).reduceOption
      (Mealy.after (TumblingCountCore.push merge) (new n) vs) := by
  induction vs using reverseRecOn with
  | nil => exact ⟨rfl, (Int.zero_emod _).symm, iff_of_false Bool.false_ne_true fun hne => hne rfl, .empty merge⟩
  | append_singleton vs v ih =>
    rw [Mealy.outputs_concat, Mealy.after_concat, emissions_concat]
    exact ih.push v

end TumblingCountCore

/-! ### Tumbling windows of a period -/

structure TumblingTimeCore (T : Type) where
  period : ℤ
  next : ℤ
  acc : Option T
  period_pos : 1 ≤ period

namespace TumblingTimeCore

def new (period : ℤ) : TumblingTimeCore T where
  period := max period 1
  next := max period 1
  acc := none
  period_pos := one_le_max period

def push (merge : T → T → T) (s : TumblingTimeCore T) (_now : ℤ) (v : T) : TumblingTimeCore T :=
  { s with acc := some (mergeInto merge s.acc v) }

/-- One round of the loop of `tick`: the boundary is moved on as long as it is not after `now`. -/
def advance (period now next : ℤ) : Option ℤ :=
  if next ≤ now then some (next + period) else none

def tick (s : TumblingTimeCore T) (now : ℤ) : Option T × TumblingTimeCore T :=
  if now < s.next then (none, s)
  else
    (s.acc,
      { s with
        next := loop (advance s.period now) (now + 1 - s.next).toNat s.next
        acc := none })

def step (merge : T → T → T) (s : TumblingTimeCore T) : Timed T → Option T × TumblingTimeCore T
  | .push now v => (none, s.push merge now v)
  | .tick now => s.tick now

variable {period now next : ℤ}

/-- A round of the loop brings the boundary closer to being after `now`. -/
theorem advance_lt (hpos : 1 ≤ period) {next' : ℤ} (h : advance period now next = some next') :
    (now + 1 - next').toNat < (now + 1 - next).toNat := by
  unfold advance at h
  split at h
  · cases h
    omega
  · cases h

/-- The loop moves the boundary on to the first one after `now`. -/
theorem loop_advance (hpos : 1 ≤ period) (hle : next ≤ now) :
    ∃ j, 0 ≤ j ∧ loop (advance period now) (now + 1 - next).toNat next = next + j * period ∧
      next + j * period - period ≤ now ∧ now < next + j * period := by
  have hlt : ∀ next next', advance period now next = some next' →
      (now + 1 - next').toNat < (now + 1 - next).toNat := fun _ _ => advance_lt hpos
  have hstops := step_loop hlt (le_refl (now + 1 - next).toNat)
  have hkept : ∃ j, 0 ≤ j ∧ loop (advance period now) (now + 1 - next).toNat next = next + j * period ∧
      next + j * period - period ≤ now := by
    refine loop_invariant (P := fun next' => ∃ j, 0 ≤ j ∧ next' = next + j * period ∧
      next + j * period - period ≤ now) (fun next' next'' hstep hP => ?_) _ ⟨0, le_rfl, ?_, ?_⟩
    · obtain ⟨j, hj, heq, -⟩ := hP
      unfold advance at hstep
      split at hstep
      next hbefore =>
        cases hstep
        have hmore : (j + 1) * period = j * period + period := by rw [add_mul, one_mul]
        exact ⟨j + 1, by omega, by omega, by omega⟩
      · cases hstep
    · rw [zero_mul, add_zero]
    · rw [zero_mul, add_zero]
      omega
  obtain ⟨j, hj, heq, hreached⟩ := hkept
  refine ⟨j, hj, heq, hreached, ?_⟩
  by_contra hnot
  rw [heq] at hstops
  unfold advance at hstops
  rw [if_pos (not_lt.mp hnot)] at hstops
  cases hstops

structure Holds (merge : T → T → T) (period : ℤ) (inputs : List (Timed T)) (emissions : List T)
    (s : TumblingTimeCore T) : Prop where
  period_eq : s.period = period
  next : NextBoundary period inputs s.next
  opened : s.acc = none → (segments (ReachesBoundary period) Timed.elem inputs).opened = []
  conserves : Conserves merge (segments (ReachesBoundary period) Timed.elem inputs) emissions s.acc

variable {merge : T → T → T} {inputs : List (Timed T)} {emissions : List T} {s : TumblingTimeCore T}

theorem Holds.push (h : Holds merge period inputs emissions s) (now : ℤ) (v : T) :
    Holds merge period (inputs ++ [.push now v]) emissions (s.push merge now v) := by
  have hcons := h.conserves
  refine ⟨h.period_eq, h.next.push now v, nofun, ?_⟩
  rw [segments_keep id]
  show Conserves merge _ emissions (some (mergeInto merge s.acc v))
  cases hacc : s.acc with
  | none =>
    rw [hacc] at hcons
    exact hcons.merge_none (h.opened hacc) v
  | some a =>
    rw [hacc] at hcons
    exact hcons.merge_some v

/-- A tick that reaches a boundary emits the fold of the open segment, and another one emits nothing. -/
theorem Holds.tick_eq (h : Holds merge period inputs emissions s) (now : ℤ) :
    (ReachesBoundary period inputs (.tick now) → (s.tick now).1 =
        foldWindow merge (segments (ReachesBoundary period) Timed.elem inputs).opened) ∧
      (¬ ReachesBoundary period inputs (.tick now) → (s.tick now).1 = none) := by
  obtain rfl : s.period = period := h.period_eq
  rw [h.next.reachesBoundary_iff s.period_pos]
  unfold tick
  refine ⟨fun hle => ?_, fun hlt => ?_⟩
  · rw [if_neg (not_lt.mpr hle)]
    show s.acc = _
    cases hacc : s.acc with
    | none => rw [h.opened hacc]; rfl
    | some a => exact (h.conserves.opened a hacc).symm
  · rw [if_pos (not_le.mp hlt)]

theorem Holds.tick (h : Holds merge period inputs emissions s) (now : ℤ) :
    Holds merge period (inputs ++ [.tick now]) (emissions ++ (s.tick now).1.toList) (s.tick now).2 := by
  obtain rfl : s.period = period := h.period_eq
  have hreaches := h.next.reachesBoundary_iff s.period_pos now
  have hcons := h.conserves
  unfold TumblingTimeCore.tick
  split
  next hlt =>
    have hkeep : segments (ReachesBoundary s.period) Timed.elem (inputs ++ [.tick now]) =
        segments (ReachesBoundary s.period) Timed.elem inputs := by
      rw [segments_keep fun hc => absurd (hreaches.mp hc) (not_le.mpr hlt)]
      exact Segments.add_nil _
    refine ⟨rfl, h.next.wait hlt, hkeep ▸ h.opened, ?_⟩
    rw [hkeep, toList_none, append_nil]
    exact hcons
  next hlate =>
    have hle := not_lt.mp hlate
    obtain ⟨j, hj, heq, hreached, hafter⟩ := loop_advance s.period_pos hle
    have hcut : segments (ReachesBoundary s.period) Timed.elem (inputs ++ [.tick now]) =
        (segments (ReachesBoundary s.period) Timed.elem inputs).cut := by
      rw [segments_cut (hreaches.mpr hle)]
      exact Segments.add_nil _
    refine ⟨rfl, heq ▸ h.next.pass hle hj hreached hafter, fun _ => hcut ▸ rfl, ?_⟩
    rw [hcut]
    show Conserves merge _ (emissions ++ s.acc.toList) none
    cases hacc : s.acc with
    | none =>
      rw [hacc] at hcons
      rw [toList_none, append_nil]
      exact hcons.cut
    | some a =>
      rw [hacc] at hcons
      exact hcons.emit.cut

theorem holds_run (merge : T → T → T) (period : ℤ) (inputs : List (Timed T)) :
    Holds merge (max period 1) inputs (Mealy.outputs (TumblingTimeCore.step merge) (new period) inputs).reduceOption
      (Mealy.after (TumblingTimeCore.step merge) (new period) inputs) := by
  induction inputs using reverseRecOn with
  | nil => exact ⟨rfl, nextBoundary_nil _, fun _ => rfl, .empty merge⟩
  | append_singleton inputs input ih =>
    rw [Mealy.outputs_concat, Mealy.after_concat, emissions_concat]
    cases input with
    | push now v =>
      show Holds merge _ _ (_ ++ toList none) _
      rw [toList_none, append_nil]
      exact ih.push now v
    | tick now => exact ih.tick now

end TumblingTimeCore

/-! ### Sliding windows -/

structure SlidingCore (T : Type) where
  size : ℤ
  slide : ℤ
  buffer : List T
  since : ℤ
  size_pos : 1 ≤ size
  slide_pos : 1 ≤ slide

namespace SlidingCore

def new (size slide : ℤ) : SlidingCore T where
  size := max size 1
  slide := max slide 1
  buffer := []
  since := 0
  size_pos := one_le_max size
  slide_pos := one_le_max slide

def push (merge : T → T → T) (s : SlidingCore T) (v : T) : Option T × SlidingCore T :=
  let appended := s.buffer ++ [v]
  let buffer := loop (trim s.size) appended.length appended
  if s.slide ≤ s.since + 1 then (foldWindow merge buffer, { s with buffer := buffer, since := 0 })
  else (none, { s with buffer := buffer, since := s.since + 1 })

variable {merge : T → T → T} {size slide : ℤ} {vs : List T} {s : SlidingCore T}

structure Holds (size slide : ℤ) (vs : List T) (s : SlidingCore T) : Prop where
  size_eq : s.size = size
  slide_eq : s.slide = slide
  buffer : s.buffer = vs.rtake size.toNat
  since : s.since = (vs.length : ℤ) % slide

/-- The buffer once the element is in. -/
theorem Holds.trimmed (h : Holds size slide vs s) (v : T) :
    loop (trim s.size) (s.buffer ++ [v]).length (s.buffer ++ [v]) = (vs ++ [v]).rtake size.toNat := by
  have hsize : 0 ≤ s.size := le_trans zero_le_one s.size_pos
  rw [loop_trim hsize le_rfl, h.buffer, h.size_eq, rtake_concat]

theorem Holds.push (h : Holds size slide vs s) (merge : T → T → T) (v : T) :
    Holds size slide (vs ++ [v]) (s.push merge v).2 := by
  have hpos : 1 ≤ slide := h.slide_eq ▸ s.slide_pos
  have hlt := Int.emod_lt_of_pos (vs.length : ℤ) (by omega : 0 < slide)
  have hslide := h.slide_eq
  have hsince := h.since
  have hnext := TumblingCountCore.emod_add_one (a := (vs.length : ℤ)) hpos
  have hlength : ((vs ++ [v]).length : ℤ) = (vs.length : ℤ) + 1 := by simp
  unfold SlidingCore.push
  dsimp only
  split
  · refine ⟨h.size_eq, h.slide_eq, h.trimmed v, ?_⟩
    rw [hlength, hnext, if_pos (by omega)]
  · refine ⟨h.size_eq, h.slide_eq, h.trimmed v, ?_⟩
    show s.since + 1 = _
    rw [hlength, hnext, if_neg (by omega), hsince]

/-- Every `slide`-th push emits the fold of the latest elements, and another one emits nothing. -/
theorem Holds.push_eq (h : Holds size slide vs s) (v : T) : (s.push merge v).1 =
      if slide ∣ (vs.length : ℤ) + 1 then foldWindow merge ((vs ++ [v]).rtake size.toNat) else none := by
  have hpos : 1 ≤ slide := h.slide_eq ▸ s.slide_pos
  have hlt := Int.emod_lt_of_pos (vs.length : ℤ) (by omega : 0 < slide)
  have hnonneg := Int.emod_nonneg (vs.length : ℤ) (by omega : slide ≠ 0)
  have hslide := h.slide_eq
  have hsince := h.since
  have hnext := TumblingCountCore.emod_add_one (a := (vs.length : ℤ)) hpos
  have hdvd : slide ∣ (vs.length : ℤ) + 1 ↔ s.slide ≤ s.since + 1 := by
    rw [Int.dvd_iff_emod_eq_zero, hnext]
    split
    · omega
    · omega
  unfold SlidingCore.push
  dsimp only
  rw [h.trimmed v]
  by_cases hle : s.slide ≤ s.since + 1
  · rw [if_pos hle, if_pos (hdvd.mpr hle)]
  · rw [if_neg hle, if_neg (mt hdvd.mp hle)]

theorem holds_run (merge : T → T → T) (size slide : ℤ) (vs : List T) :
    Holds (max size 1) (max slide 1) vs (Mealy.after (SlidingCore.push merge) (new size slide) vs) := by
  induction vs using reverseRecOn with
  | nil => exact ⟨rfl, rfl, drop_nil.symm, (Int.zero_emod _).symm⟩
  | append_singleton vs v ih =>
    rw [Mealy.after_concat]
    exact ih.push merge v

end SlidingCore

/-! ### Sessions -/

structure SessionCore (T : Type) where
  gap : ℤ
  acc : Option T
  last : Option ℤ

namespace SessionCore

def new (gap : ℤ) : SessionCore T where
  gap := gap
  acc := none
  last := none

def idle (s : SessionCore T) (now : ℤ) : Bool :=
  match s.last with
  | none => false
  | some last => s.gap < max (now - last) 0 ∧ s.acc.isSome

def push (merge : T → T → T) (s : SessionCore T) (now : ℤ) (v : T) : Option T × SessionCore T :=
  if s.idle now then (s.acc, { s with acc := some v, last := some now })
  else (none, { s with acc := some (mergeInto merge s.acc v), last := some now })

def flush (s : SessionCore T) (now : ℤ) : Option T × SessionCore T :=
  if s.idle now then (s.acc, { s with acc := none }) else (none, s)

def step (merge : T → T → T) (s : SessionCore T) : Timed T → Option T × SessionCore T
  | .push now v => s.push merge now v
  | .tick now => s.flush now

def pushed? (input : Timed T) : Option ℤ :=
  input.push?.map Prod.fst

/-- The element is more than the gap later than the one before it. -/
def Parted (gap : ℤ) (before : List (Timed T)) : Timed T → Prop
  | .push now _ => ∃ last, (before.filterMap pushed?).getLast? = some last ∧ gap < now - last
  | .tick _ => False

/-- What is so of a session after some inputs, the last one at `t`. -/
structure Holds (merge : T → T → T) (gap : ℤ) (inputs : List (Timed T)) (emissions : List T) (s : SessionCore T)
    (t : ℤ) : Prop where
  gap_eq : s.gap = gap
  last : s.last = (inputs.filterMap pushed?).getLast?
  last_le : ∀ last, s.last = some last → last ≤ t
  first : s.last = none → s.acc = none ∧ (segments (Parted gap) Timed.elem inputs).opened = []
  flushed : s.acc = none → ∀ last, s.last = some last → gap < t - last
  conserves : Conserves merge (segments (Parted gap) Timed.elem inputs) emissions s.acc

variable {merge : T → T → T} {gap t now last : ℤ} {inputs : List (Timed T)} {emissions : List T} {s : SessionCore T}

theorem idle_iff (hlast : s.last = some last) (hle : last ≤ now) :
    s.idle now = true ↔ s.gap < now - last ∧ s.acc.isSome = true := by
  unfold idle
  rw [hlast]
  dsimp only
  rw [decide_eq_true_iff, max_eq_left (by omega)]

theorem Holds.parted_iff (h : Holds merge gap inputs emissions s t) (now : ℤ) (v : T) :
    Parted gap inputs (.push now v) ↔ ∃ last, s.last = some last ∧ gap < now - last := by
  rw [h.last]
  rfl

/-- The segments, the emissions and the accumulator once the element is in. -/
theorem Holds.merged (h : Holds merge gap inputs emissions s t) (hle : t ≤ now) (v : T) :
    Conserves merge (segments (Parted gap) Timed.elem (inputs ++ [.push now v]))
      (emissions ++ (s.push merge now v).1.toList) (s.push merge now v).2.acc := by
  have hcons := h.conserves
  have hparted := h.parted_iff now v
  unfold push
  cases hlast : s.last with
  | none =>
    obtain ⟨hacc, hopened⟩ := h.first hlast
    have hkeep : ¬ Parted gap inputs (.push now v) := by
      rw [hparted, hlast]
      rintro ⟨_, ⟨⟩, -⟩
    have hbusy : s.idle now = false := by
      unfold idle
      rw [hlast]
    rw [hacc] at hcons
    rw [segments_keep hkeep, if_neg (Bool.eq_false_iff.mp hbusy), toList_none, append_nil]
    dsimp only
    rw [hacc]
    exact hcons.merge_none hopened v
  | some last =>
    have hbefore := h.last_le last hlast
    have hgap := h.gap_eq
    have hidle := idle_iff hlast (hbefore.trans hle)
    have hcut : Parted gap inputs (.push now v) ↔ gap < now - last := by
      rw [hparted, hlast]
      exact ⟨fun ⟨_, heq, hlt⟩ => (some.inj heq) ▸ hlt, fun hlt => ⟨last, rfl, hlt⟩⟩
    cases hacc : s.acc with
    | none =>
      -- the session has been flushed, and was idle for longer than the gap
      have hflushed := h.flushed hacc last hlast
      have hbusy : ¬ s.idle now = true := fun hi => by
        have hsome := (hidle.mp hi).2
        rw [hacc] at hsome
        cases hsome
      rw [hacc] at hcons
      rw [segments_cut (hcut.mpr (by omega)), if_neg hbusy, toList_none, append_nil]
      exact hcons.cut.merge_none rfl v
    | some a =>
      rw [hacc] at hcons hidle
      by_cases hlt : gap < now - last
      · rw [segments_cut (hcut.mpr hlt), if_pos (hidle.mpr ⟨hgap ▸ hlt, rfl⟩)]
        exact hcons.emit.cut.merge_none rfl v
      · rw [segments_keep (mt hcut.mp hlt), if_neg fun hi => hlt (hgap ▸ (hidle.mp hi).1), toList_none, append_nil]
        exact hcons.merge_some v

theorem acc_push (merge : T → T → T) (s : SessionCore T) (now : ℤ) (v : T) :
    (s.push merge now v).2.gap = s.gap ∧ (s.push merge now v).2.last = some now ∧
      (s.push merge now v).2.acc ≠ none := by
  unfold push
  split
  · exact ⟨rfl, rfl, nofun⟩
  · exact ⟨rfl, rfl, nofun⟩

theorem Holds.push (h : Holds merge gap inputs emissions s t) (hle : t ≤ now) (v : T) :
    Holds merge gap (inputs ++ [.push now v]) (emissions ++ (s.push merge now v).1.toList)
      (s.push merge now v).2 now := by
  have hmerged := h.merged hle v
  obtain ⟨hgap, hlast, hacc⟩ := acc_push merge s now v
  have htimes : (inputs ++ [Timed.push now v]).filterMap pushed? = inputs.filterMap pushed? ++ [now] := by
    rw [filterMap_append]
    rfl
  refine ⟨hgap.trans h.gap_eq, ?_, fun last heq => ?_, fun hnone => ?_, fun hnone => absurd hnone hacc, hmerged⟩
  · rw [hlast, htimes, getLast?_concat]
  · rw [hlast] at heq
    exact (some.inj heq).ge
  · rw [hlast] at hnone
    cases hnone

theorem Holds.flush (h : Holds merge gap inputs emissions s t) (hle : t ≤ now) :
    Holds merge gap (inputs ++ [.tick now]) (emissions ++ (s.flush now).1.toList) (s.flush now).2 now := by
  have htimes : (inputs ++ [Timed.tick now]).filterMap pushed? = inputs.filterMap pushed? := by
    rw [filterMap_append]
    exact append_nil _
  have hkeep : segments (Parted gap) Timed.elem (inputs ++ [.tick now]) =
      segments (Parted gap) Timed.elem inputs := by
    rw [segments_keep id]
    exact Segments.add_nil _
  have hlast := h.last
  have hcons := h.conserves
  have hbefore : ∀ last, s.last = some last → last ≤ now := fun last heq => (h.last_le last heq).trans hle
  rw [← htimes] at hlast
  unfold SessionCore.flush
  split
  next hidle =>
    have hsome : s.last ≠ none := by
      intro hnone
      unfold idle at hidle
      rw [hnone] at hidle
      cases hidle
    refine ⟨h.gap_eq, hlast, hbefore, fun hnone => absurd hnone hsome, fun _ last heq => ?_, ?_⟩
    · have hlt := ((idle_iff (s := s) heq (hbefore last heq)).mp hidle).1
      exact h.gap_eq ▸ hlt
    · rw [hkeep]
      show Conserves merge _ (emissions ++ s.acc.toList) none
      cases hacc : s.acc with
      | none =>
        rw [hacc] at hcons
        rw [toList_none, append_nil]
        exact hcons
      | some a =>
        rw [hacc] at hcons
        exact hcons.emit
  · refine ⟨h.gap_eq, hlast, hbefore, hkeep ▸ h.first, fun hnone last heq => ?_, ?_⟩
    · have hlt := h.flushed hnone last heq
      omega
    · rw [hkeep, toList_none, append_nil]
      exact hcons

theorem holds_run (merge : T → T → T) (gap : ℤ) {inputs : List (Timed T)} {input : Timed T}
    (h : Chronological Timed.time (inputs ++ [input])) :
    Holds merge gap (inputs ++ [input])
      (Mealy.outputs (SessionCore.step merge) (new gap) (inputs ++ [input])).reduceOption
      (Mealy.after (SessionCore.step merge) (new gap) (inputs ++ [input])) input.time := by
  refine h.induction (motive := fun inputs t => Holds merge gap inputs
    (Mealy.outputs (SessionCore.step merge) (new gap) inputs).reduceOption
    (Mealy.after (SessionCore.step merge) (new gap) inputs) t) 0 ?_ ?_
  · exact fun t _ => ⟨rfl, rfl, nofun, fun _ => ⟨rfl, rfl⟩, nofun, .empty merge⟩
  · intro inputs t input ih hle
    rw [Mealy.outputs_concat, Mealy.after_concat, emissions_concat]
    cases input with
    | push now v => exact ih.push hle v
    | tick now => exact ih.flush hle

end SessionCore

/-- For every way of merging: what windows of a number of elements, windows of a period and sessions have emitted,
together with what is in their accumulators, are the folds of the segments of their input. The segments are cut after
every `n` elements, by the ticks that are the first ones not before some boundary, and where the gap between two
elements is exceeded. Every `slide`-th push of a sliding window emits the fold of the latest elements. -/
theorem windows_fold (merge : T → T → T) : (∀ (n : ℤ) (vs : List T),
      (segments (TumblingCountCore.AfterEvery (max n 1)) some vs).all.flatten = vs ∧
        (Mealy.outputs (TumblingCountCore.push merge) (TumblingCountCore.new n) vs).reduceOption ++
            (Mealy.after (TumblingCountCore.push merge) (TumblingCountCore.new n) vs).acc.toList =
          foldAll merge (segments (TumblingCountCore.AfterEvery (max n 1)) some vs).all ∧
        ∀ v, (TumblingCountCore.push merge
            (Mealy.after (TumblingCountCore.push merge) (TumblingCountCore.new n) vs) v).1.isSome = true ↔
          max n 1 ∣ (vs.length : ℤ) + 1) ∧
    (∀ (period : ℤ) (inputs : List (Timed T)),
      (segments (ReachesBoundary (max period 1)) Timed.elem inputs).all.flatten = inputs.filterMap Timed.elem ∧
        (Mealy.outputs (TumblingTimeCore.step merge) (TumblingTimeCore.new period) inputs).reduceOption ++
            (Mealy.after (TumblingTimeCore.step merge) (TumblingTimeCore.new period) inputs).acc.toList =
          foldAll merge (segments (ReachesBoundary (max period 1)) Timed.elem inputs).all ∧
        ∀ now, (ReachesBoundary (max period 1) inputs (.tick now) →
            ((Mealy.after (TumblingTimeCore.step merge) (TumblingTimeCore.new period) inputs).tick now).1 =
              foldWindow merge
              (segments (ReachesBoundary (max period 1)) Timed.elem inputs).opened) ∧
          (¬ ReachesBoundary (max period 1) inputs (.tick now) →
            ((Mealy.after (TumblingTimeCore.step merge) (TumblingTimeCore.new period) inputs).tick now).1 = none)) ∧
    (∀ (size slide : ℤ) (vs : List T) (v : T),
      (SlidingCore.push merge (Mealy.after (SlidingCore.push merge) (SlidingCore.new size slide) vs) v).1 =
        if max slide 1 ∣ (vs.length : ℤ) + 1 then
          foldWindow merge ((vs ++ [v]).rtake (min (max size 1).toNat (vs.length + 1)))
        else none) ∧
    ∀ (gap : ℤ) (inputs : List (Timed T)), Chronological Timed.time inputs →
      (segments (SessionCore.Parted gap) Timed.elem inputs).all.flatten = inputs.filterMap Timed.elem ∧
        (Mealy.outputs (SessionCore.step merge) (SessionCore.new gap) inputs).reduceOption ++
            (Mealy.after (SessionCore.step merge) (SessionCore.new gap) inputs).acc.toList =
          foldAll merge (segments (SessionCore.Parted gap) Timed.elem inputs).all := by
  refine ⟨fun n vs => ⟨?_, ?_, fun v => ?_⟩, fun period inputs => ⟨?_, ?_, fun now => ?_⟩,
    fun size slide vs v => ?_, fun gap inputs h => ⟨?_, ?_⟩⟩
  · exact (flatten_segments vs).trans (filterMap_some ..)
  · exact (TumblingCountCore.holds_run merge n vs).conserves.folds
  · exact (TumblingCountCore.holds_run merge n vs).emits_iff v
  · exact flatten_segments inputs
  · exact (TumblingTimeCore.holds_run merge period inputs).conserves.folds
  · exact (TumblingTimeCore.holds_run merge period inputs).tick_eq now
  · rw [(SlidingCore.holds_run merge size slide vs).push_eq v]
    have hsame : (vs ++ [v]).rtake (min (max size 1).toNat (vs.length + 1)) =
        (vs ++ [v]).rtake (max size 1).toNat := by
      unfold rtake
      rw [length_append, length_singleton]
      congr 1
      omega
    rw [hsame]
  · exact flatten_segments inputs
  · induction inputs using reverseRecOn with
    | nil => rfl
    | append_singleton inputs input _ => exact (SessionCore.holds_run merge gap h).conserves.folds

/-- A flush, and then two elements. -/
theorem windows_fold_flushed : (Mealy.outputs (SessionCore.step (· + ·)) (SessionCore.new 5)
          [.push 0 1, .push 3 2, .tick 9, .push 20 4, .push 25 8]).reduceOption ++
        (Mealy.after (SessionCore.step (· + ·)) (SessionCore.new 5)
          [.push 0 1, .push 3 2, .tick 9, .push 20 4, .push 25 8]).acc.toList =
      foldAll (· + ·) (segments (SessionCore.Parted 5) Timed.elem
        [.push 0 1, .push 3 2, .tick 9, .push 20 4, .push 25 (8 : ℕ)]).all :=
  ((windows_fold (T := ℕ) (· + ·)).2.2.2 5 _ (by decide)).2

end LazilyPy.Stream

import Mathlib.Data.List.Pairwise
import Mathlib.Order.Lattice
import Mathlib.Order.Nat

/-!
# Longest increasing subsequences

For each length, the greatest first value of an increasing subsequence of that length. A new value in front can only
replace the first of these that it is not below, so that they are kept by one search for each value.
-/

variable {α : Type} [LinearOrder α] {s t heads : List α} {v w : α} {L : ℕ}

/-- Some increasing subsequence of this length is above the bound. -/
def Beyond (bound : Option α) (s : List α) (L : ℕ) : Prop :=
  ∃ t : List α, t.Sublist s ∧ t.Pairwise (· < ·) ∧ (∀ a ∈ bound, ∀ w ∈ t, a < w) ∧ t.length = L

/-- Some increasing subsequence of the length `L + 1` starts with the value. -/
def Starts (s : List α) (L : ℕ) (v : α) : Prop :=
  ∃ t : List α, (v :: t).Sublist s ∧ (v :: t).Pairwise (· < ·) ∧ t.length = L

namespace Beyond

open List Option

variable {bound : Option α}

theorem zero (bound : Option α) (s : List α) : Beyond bound s 0 :=
  ⟨[], nil_sublist s, Pairwise.nil, fun _ _ => nofun, rfl⟩

theorem cons (h : Beyond bound s L) (v : α) : Beyond bound (v :: s) L := by
  obtain ⟨t, hsub, hrest⟩ := h
  exact ⟨t, hsub.cons v, hrest⟩

/-- A subsequence that starts with the first value. -/
theorem cons_cons (h : Beyond (some v) s L) (hv : ∀ a ∈ bound, a < v) : Beyond bound (v :: s) (L + 1) := by
  obtain ⟨t, hsub, hinc, habove, rfl⟩ := h
  refine ⟨v :: t, hsub.cons_cons v, pairwise_cons.mpr ⟨habove v rfl, hinc⟩, fun a ha w hw => ?_, rfl⟩
  obtain rfl | hw := mem_cons.mp hw
  · exact hv a ha
  · exact (hv a ha).trans (habove v rfl w hw)

theorem cases_cons (h : Beyond bound (v :: s) L) :
    Beyond bound s L ∨ (∀ a ∈ bound, a < v) ∧ ∃ K, L = K + 1 ∧ Beyond (some v) s K := by
  obtain ⟨t, hsub, hinc, habove, rfl⟩ := h
  cases hsub with
  | cons _ hsub => exact .inl ⟨t, hsub, hinc, habove, rfl⟩
  | cons_cons _ hsub =>
    obtain ⟨hv, hinc⟩ := pairwise_cons.mp hinc
    refine .inr ⟨fun a ha => habove a ha v mem_cons_self, _, rfl, _, hsub, hinc, fun a ha => ?_, rfl⟩
    obtain rfl := some.inj ha
    exact hv

/-- Without its first value, a subsequence is shorter. -/
theorem pred (h : Beyond bound s (L + 1)) : Beyond bound s L := by
  obtain ⟨t, hsub, hinc, habove, hlen⟩ := h
  have htail : t.tail.Sublist t := tail_sublist t
  refine ⟨t.tail, htail.trans hsub, hinc.sublist htail, fun a ha w hw => habove a ha w (htail.subset hw), ?_⟩
  rw [length_tail, hlen, Nat.add_sub_cancel]

theorem of_le (h : Beyond bound s L) {K : ℕ} (hle : K ≤ L) : Beyond bound s K := by
  induction hle with
  | refl => exact h
  | step _ ih => exact ih h.pred

/-- The first value of a subsequence. -/
theorem succ_iff : Beyond bound s (L + 1) ↔ ∃ v, (∀ a ∈ bound, a < v) ∧ Starts s L v := by
  constructor
  · rintro ⟨_ | ⟨v, t⟩, hsub, hinc, habove, hlen⟩
    · cases hlen
    · exact ⟨v, fun a ha => habove a ha v mem_cons_self, t, hsub, hinc, Nat.succ.inj hlen⟩
  · rintro ⟨v, hv, t, hsub, hinc, rfl⟩
    refine ⟨v :: t, hsub, hinc, fun a ha w hw => ?_, rfl⟩
    obtain rfl | hw := mem_cons.mp hw
    · exact hv a ha
    · exact (hv a ha).trans ((pairwise_cons.mp hinc).1 w hw)

end Beyond

section Skip

variable {prev : Option α} {len target : ℕ} (hlen : ∀ L, Beyond (some v) s L ↔ L < len)
  (hreach : ∀ L, Beyond prev (v :: s) L ↔ L ≤ target) (hskip : ¬ (len = target ∧ ∀ a ∈ prev, a < v))

include hlen hreach hskip

/-- Nothing of the missing length starts with a value that is not picked. -/
theorem short_of_skip (hprev : ∀ a ∈ prev, a < v) {K : ℕ} (hK : Beyond (some v) s K) : K + 1 < target := by
  have hlt : K < len := (hlen K).mp hK
  have hlong : Beyond prev (v :: s) (len - 1 + 1) := ((hlen (len - 1)).mpr (by omega)).cons_cons hprev
  have hle := (hreach _).mp hlong
  have hne : len ≠ target := fun heq => hskip ⟨heq, hprev⟩
  omega

/-- So that something of this length is left behind it. -/
theorem beyond_of_skip : Beyond prev s L ↔ L ≤ target := by
  refine ⟨fun hL => (hreach L).mp (hL.cons _), fun hL => ?_⟩
  suffices hmax : Beyond prev s target from hmax.of_le hL
  obtain hmax | ⟨hprev, K, rfl, hK⟩ := ((hreach target).mpr le_rfl).cases_cons
  · exact hmax
  · exact absurd (short_of_skip hlen hreach hskip hprev hK) (lt_irrefl _)

end Skip

theorem starts_cons_iff : Starts (v :: s) L w ↔ Starts s L w ∨ w = v ∧ Beyond (some v) s L := by
  constructor
  · rintro ⟨t, hsub, hinc, hlen⟩
    cases hsub with
    | cons _ hsub => exact .inl ⟨t, hsub, hinc, hlen⟩
    | cons_cons _ hsub =>
      obtain ⟨hv, hinc⟩ := List.pairwise_cons.mp hinc
      refine .inr ⟨rfl, t, hsub, hinc, fun a ha => ?_, hlen⟩
      obtain rfl := Option.some.inj ha
      exact hv
  · rintro (⟨t, hsub, hrest⟩ | ⟨rfl, t, hsub, hinc, habove, hlen⟩)
    · exact ⟨t, hsub.cons v, hrest⟩
    · exact ⟨t, hsub.cons_cons w, List.pairwise_cons.mpr ⟨habove w rfl, hinc⟩, hlen⟩

/-- The greatest first value of the increasing subsequences of each length. -/
structure Heads (s heads : List α) : Prop where
  reached : ∀ L v, heads[L]? = some v → Starts s L v
  greatest : ∀ L v, Starts s L v → ∃ w, heads[L]? = some w ∧ v ≤ w

namespace Heads

open List Option

theorem nil : Heads ([] : List α) [] := by
  refine ⟨nofun, ?_⟩
  rintro L v ⟨t, hsub, -⟩
  cases hsub

section

variable (h : Heads s heads)

include h

/-- The lengths above a value are those of the greatest first values above it. -/
theorem beyond_succ_iff (bound : Option α) :
    Beyond bound s (L + 1) ↔ ∃ w, heads[L]? = some w ∧ ∀ a ∈ bound, a < w := by
  rw [Beyond.succ_iff]
  constructor
  · rintro ⟨v, hv, hstarts⟩
    obtain ⟨w, hw, hle⟩ := h.greatest L v hstarts
    exact ⟨w, hw, fun a ha => (hv a ha).trans_le hle⟩
  · rintro ⟨w, hw, hbound⟩
    exact ⟨w, hbound, h.reached L w hw⟩

theorem longest_iff : Beyond none s L ↔ L ≤ heads.length := by
  cases L with
  | zero => exact ⟨fun _ => Nat.zero_le _, fun _ => Beyond.zero none s⟩
  | succ L =>
    rw [h.beyond_succ_iff]
    constructor
    · rintro ⟨w, hw, -⟩
      exact (List.getElem?_eq_some_iff.mp hw).1
    · intro hlt
      exact ⟨heads[L], getElem?_eq_getElem hlt, nofun⟩

/-- The number of greatest first values above a value is the length of what can follow it. -/
theorem beyond_iff {lo : ℕ} (hlo : ∀ i w, heads[i]? = some w → (i < lo ↔ v < w)) (hle : lo ≤ heads.length) :
    Beyond (some v) s L ↔ L ≤ lo := by
  cases L with
  | zero => exact ⟨fun _ => Nat.zero_le _, fun _ => Beyond.zero (some v) s⟩
  | succ L =>
    rw [h.beyond_succ_iff]
    constructor
    · rintro ⟨w, hw, hv⟩
      exact (hlo L w hw).mpr (hv v rfl)
    · intro hlt
      have hget := getElem?_eq_getElem (Nat.lt_of_lt_of_le hlt hle)
      refine ⟨_, hget, fun a ha => ?_⟩
      obtain rfl := some.inj ha
      exact (hlo L _ hget).mp hlt

/-- A value in front becomes the greatest first value of one length. -/
theorem cons {heads' : List α} {lo : ℕ} (hlo : ∀ i w, heads[i]? = some w → (i < lo ↔ v < w))
    (hle : lo ≤ heads.length) (hself : heads'[lo]? = some v) (hother : ∀ i, i ≠ lo → heads'[i]? = heads[i]?) :
    Heads (v :: s) heads' := by
  have hbeyond : ∀ L, Beyond (some v) s L ↔ L ≤ lo := fun L => h.beyond_iff hlo hle
  constructor
  · intro L w hw
    rw [starts_cons_iff]
    by_cases hL : L = lo
    · subst hL
      obtain rfl := some.inj (hself.symm.trans hw)
      exact .inr ⟨rfl, (hbeyond L).mpr le_rfl⟩
    · exact .inl (h.reached L w (hother L hL ▸ hw))
  · intro L w hw
    by_cases hL : L = lo
    · subst hL
      refine ⟨v, hself, ?_⟩
      obtain hw | ⟨rfl, -⟩ := starts_cons_iff.mp hw
      · -- what was there is not above the value
        obtain ⟨u, hu, hwu⟩ := h.greatest L w hw
        exact hwu.trans (not_lt.mp fun hlt => lt_irrefl L ((hlo L u hu).mpr hlt))
      · exact le_rfl
    · rw [hother L hL]
      obtain hw | ⟨rfl, hw⟩ := starts_cons_iff.mp hw
      · exact h.greatest L w hw
      · have hlt := lt_of_le_of_ne ((hbeyond L).mp hw) hL
        have hget := getElem?_eq_getElem (Nat.lt_of_lt_of_le hlt hle)
        exact ⟨_, hget, ((hlo L _ hget).mp hlt).le⟩

/-- The next one is below. -/
theorem lt_of_succ {u : α} (hu : heads[L]? = some u) (hw : heads[L + 1]? = some w) : w < u := by
  obtain ⟨_ | ⟨x, t⟩, hsub, hinc, hlen⟩ := h.reached (L + 1) w hw
  · cases hlen
  · obtain ⟨hlt, hinc⟩ := pairwise_cons.mp hinc
    have hstarts : Starts s L x := ⟨t, (sublist_cons_self w (x :: t)).trans hsub, hinc, Nat.succ.inj hlen⟩
    obtain ⟨u', hu', hle⟩ := h.greatest L x hstarts
    obtain rfl := some.inj (hu'.symm.trans hu)
    exact (hlt x mem_cons_self).trans_le hle

/-- They decrease with the length. -/
theorem le_of_le {i j : ℕ} (hij : i ≤ j) {u : α} (hu : heads[i]? = some u) (hw : heads[j]? = some w) : w ≤ u := by
  induction hij generalizing w with
  | refl => exact (some.inj (hw.symm.trans hu)).le
  | @step j _ ih =>
    have hlt : j < heads.length := Nat.lt_of_succ_lt (List.getElem?_eq_some_iff.mp hw).1
    have hget := getElem?_eq_getElem hlt
    exact (h.lt_of_succ hget hw).le.trans (ih hget)

end

end Heads

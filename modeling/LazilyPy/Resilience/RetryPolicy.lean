import Mathlib.Algebra.Order.Ring.Nat

/-!
# The retry backoff

At each attempt the base is shifted once more, within 64 bits, and cut at the cap. The shift is within the 64 bits
before it is cut.
-/

namespace LazilyPy.Resilience

def u64Mask : ℕ := 2 ^ 64 - 1

def u32Max : ℕ := 2 ^ 32 - 1

structure RetryPolicyCore where
  base : ℕ
  cap : ℕ
  attempt : ℕ
  deriving DecidableEq, Repr

namespace RetryPolicyCore

def new (base cap : ℕ) : RetryPolicyCore :=
  ⟨base, cap, 0⟩

def delay (s : RetryPolicyCore) (attempt : ℕ) : ℕ :=
  if 64 ≤ attempt then s.cap else min s.cap ((s.base <<< attempt) &&& u64Mask)

def nextDelay (s : RetryPolicyCore) : ℕ × RetryPolicyCore :=
  (s.delay s.attempt, { s with attempt := min (s.attempt + 1) u32Max })

def reset (s : RetryPolicyCore) : RetryPolicyCore :=
  { s with attempt := 0 }

inductive RetryCall where
  | nextDelay
  | reset
  deriving DecidableEq

def call (s : RetryPolicyCore) : RetryCall → RetryPolicyCore
  | .nextDelay => s.nextDelay.2
  | .reset => s.reset

def run (s : RetryPolicyCore) (calls : List RetryCall) : RetryPolicyCore :=
  calls.foldl call s

/-- What the `k`-th call of `next_delay` from here on gives. -/
def nth : ℕ → RetryPolicyCore → ℕ
  | 0, s => s.nextDelay.1
  | k + 1, s => nth k s.nextDelay.2

variable {base cap k : ℕ} {s : RetryPolicyCore}

/-! ## The attempts -/

theorem delay_min_u32Max (s : RetryPolicyCore) (k : ℕ) : s.delay (min k u32Max) = s.delay k := by
  by_cases hk : k ≤ u32Max
  · rw [min_eq_left hk]
  · have hmax : 64 ≤ u32Max := by decide
    have hlarge : 64 ≤ k := by omega
    rw [min_eq_right (by omega), delay, delay, if_pos hmax, if_pos hlarge]

/-- From an attempt on, the `k`-th delay is that of the `k`-th attempt behind it. -/
theorem nth_eq_delay (h : s.attempt ≤ u32Max) (k : ℕ) : nth k s = s.delay (s.attempt + k) := by
  rw [← delay_min_u32Max]
  induction k generalizing s with
  | zero =>
    rw [Nat.add_zero, min_eq_left h]
    rfl
  | succ k ih =>
    have hnext : s.nextDelay.2.attempt ≤ u32Max := min_le_right _ _
    have hdelay : ∀ a, s.nextDelay.2.delay a = s.delay a := fun _ => rfl
    have hattempt : min (s.nextDelay.2.attempt + k) u32Max = min (s.attempt + (k + 1)) u32Max := by
      dsimp only [nextDelay]
      omega
    rw [nth, ih hnext, hdelay, hattempt]

theorem nth_new (base cap k : ℕ) : nth k (new base cap) = (new base cap).delay k := by
  rw [nth_eq_delay (Nat.zero_le _)]
  exact congrArg (new base cap).delay (Nat.zero_add k)

/-- A reset leaves nothing of the calls before it. -/
theorem reset_run (s : RetryPolicyCore) (calls : List RetryCall) : (s.run calls).reset = s.reset := by
  induction calls generalizing s with
  | nil => rfl
  | cons c calls ih =>
    refine (ih (s.call c)).trans ?_
    cases c with
    | nextDelay => rfl
    | reset => rfl

/-! ## The shift within 64 bits -/

theorem delay_of_lt (hk : k < 64) : (new base cap).delay k = min cap (base * 2 ^ k % 2 ^ 64) := by
  have hmask : (base <<< k) &&& u64Mask = base * 2 ^ k % 2 ^ 64 := by
    rw [u64Mask, Nat.and_two_pow_sub_one_eq_mod, Nat.shiftLeft_eq]
  rw [delay, if_neg (not_le.mpr hk)]
  exact congrArg (min cap) hmask

theorem delay_eq_iff_of_lt (hcap : cap < 2 ^ 64) (hk : k < 64) :
    (new base cap).delay k = min cap (base * 2 ^ k) ↔ base * 2 ^ k < 2 ^ 64 ∨ cap ≤ base * 2 ^ k % 2 ^ 64 := by
  rw [delay_of_lt hk]
  generalize base * 2 ^ k = x
  obtain hlt | hge := lt_or_ge x (2 ^ 64)
  · rw [Nat.mod_eq_of_lt hlt]
    exact ⟨fun _ => .inl hlt, fun _ => rfl⟩
  · rw [min_eq_left (hcap.le.trans hge), min_eq_left_iff]
    exact ⟨.inr, fun h => h.resolve_left (not_lt.mpr hge)⟩

/-- From attempt 64 on the delay is the cap. -/
theorem delay_eq_iff_of_le (hcap : cap < 2 ^ 64) (hk : 64 ≤ k) :
    (new base cap).delay k = min cap (base * 2 ^ k) ↔ cap = 0 ∨ 1 ≤ base := by
  have hdelay : (new base cap).delay k = cap := if_pos hk
  rw [hdelay, eq_comm, min_eq_left_iff]
  constructor
  · intro hle
    obtain rfl | hbase := Nat.eq_zero_or_pos base
    · exact .inl (by simpa using hle)
    · exact .inr hbase
  · rintro (rfl | hbase)
    · exact Nat.zero_le _
    · calc cap ≤ 2 ^ 64 := hcap.le
        _ ≤ 2 ^ k := Nat.pow_le_pow_right two_pos hk
        _ ≤ base * 2 ^ k := Nat.le_mul_of_pos_left _ hbase

/-! ## Capped exponential -/

/-- The delays from here on are those of capped exponential backoff. They do not decrease, and come to the cap. -/
structure CappedExponential (s : RetryPolicyCore) : Prop where
  exact : ∀ k, nth k s = min s.cap (s.base * 2 ^ k)
  monotone : 1 ≤ s.base → Monotone fun k => nth k s
  reaches : 1 ≤ s.base → ∃ K, ∀ k, K ≤ k → nth k s = s.cap

theorem CappedExponential.of_exact (h : ∀ k, nth k s = min s.cap (s.base * 2 ^ k)) : CappedExponential s where
  exact := h
  monotone := by
    intro _ j k hjk
    dsimp only
    rw [h, h]
    exact min_le_min_left _ (Nat.mul_le_mul_left _ (Nat.pow_le_pow_right two_pos hjk))
  reaches := by
    refine fun hbase => ⟨s.cap, fun k hk => ?_⟩
    rw [h, min_eq_left_iff]
    calc s.cap ≤ k := hk
      _ ≤ 2 ^ k := Nat.lt_two_pow_self.le
      _ ≤ s.base * 2 ^ k := Nat.le_mul_of_pos_left _ hbase

theorem cappedExponential_new_iff (hcap : cap < 2 ^ 64) : CappedExponential (new base cap) ↔
    cap = 0 ∨ 1 ≤ base ∧ ∀ k < 64, base * 2 ^ k < 2 ^ 64 ∨ cap ≤ base * 2 ^ k % 2 ^ 64 := by
  constructor
  · intro h
    have hdelay : ∀ k, (new base cap).delay k = min cap (base * 2 ^ k) := fun k =>
      (nth_new base cap k).symm.trans (h.exact k)
    obtain hzero | hbase := (delay_eq_iff_of_le hcap le_rfl).mp (hdelay 64)
    · exact .inl hzero
    · exact .inr ⟨hbase, fun k hk => (delay_eq_iff_of_lt hcap hk).mp (hdelay k)⟩
  · refine fun h => .of_exact fun k => (nth_new base cap k).trans ?_
    obtain hk | hk := lt_or_ge k 64
    · refine (delay_eq_iff_of_lt hcap hk).mpr ?_
      obtain rfl | ⟨-, hfits⟩ := h
      · exact .inr (Nat.zero_le _)
      · exact hfits k hk
    · exact (delay_eq_iff_of_le hcap hk).mpr (h.imp_right And.left)

/-- At the start and behind every reset, the backoff is capped exponential if and only if no shift that leaves the 64
bits comes out below the cap. -/
theorem cappedExponential_iff (hcap : cap < 2 ^ 64) (calls : List RetryCall) (hs : s = new base cap ∨
    s = ((new base cap).run calls).reset) : CappedExponential s ↔
    cap = 0 ∨ 1 ≤ base ∧ ∀ k < 64, base * 2 ^ k < 2 ^ 64 ∨ cap ≤ base * 2 ^ k % 2 ^ 64 := by
  obtain rfl | rfl := hs
  · exact cappedExponential_new_iff hcap
  · rw [reset_run]
    exact cappedExponential_new_iff hcap

theorem cappedExponential_iff_one : CappedExponential ((new 1 30000).run [.nextDelay, .nextDelay]).reset :=
  (cappedExponential_iff (by decide) [.nextDelay, .nextDelay] (.inr rfl)).mpr
    (.inr ⟨le_rfl, fun k hk => .inl (by rw [Nat.one_mul]; exact Nat.pow_lt_pow_right one_lt_two hk)⟩)

/-- A base of 100 is shifted out of the 64 bits after 62 attempts. -/
theorem not_cappedExponential_hundred : ¬ CappedExponential (new 100 30000) := by
  intro h
  have hzero := h.exact 62
  rw [nth_new] at hzero
  revert hzero
  decide

end RetryPolicyCore

end LazilyPy.Resilience

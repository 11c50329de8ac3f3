import Mathlib.Data.List.Forall2

/-!
# A queue that is served in turns

Those who come are offered the head of a queue, and take it if it suits them.
-/

namespace Turns

open List

variable {ω ν : Type} (r : ω → ν → Prop)

def Suits (queue : List ω) (v : ν) : Prop :=
  ∃ w ∈ queue.head?, r w v

/-- The first `m` of the queue, in order, each with one of the comers that it suits. -/
def Pairs (queue : List ω) (m : ℕ) (comers : List ν) : Prop :=
  m ≤ queue.length ∧ SublistForall₂ r (queue.take m) comers

theorem sublistForall₂_of_cons {w : ω} {l : List ω} {vs : List ν} (h : SublistForall₂ r (w :: l) vs) :
    SublistForall₂ r l vs := by
  induction vs with
  | nil => cases h
  | cons v vs ih =>
    cases h with
    | cons _ h => exact .cons_right h
    | cons_right h => exact .cons_right (ih h)

variable {r} {queue : List ω} {comers : List ν}

/-- The head may as well go with the first comer that it suits. -/
theorem pairs_cons_iff {w : ω} {v : ν} {m : ℕ} (h : r w v) :
    Pairs r (w :: queue) (m + 1) (v :: comers) ↔ Pairs r queue m comers := by
  rw [Pairs, Pairs, take_succ_cons, length_cons, Nat.add_le_add_iff_right]
  refine and_congr_right fun _ => ⟨fun hp => ?_, .cons h⟩
  cases hp with
  | cons _ hp => exact hp
  | cons_right hp => exact sublistForall₂_of_cons r hp

theorem pairs_skip_iff {w : ω} {v : ν} {m : ℕ} (h : ¬ r w v) :
    Pairs r (w :: queue) m (v :: comers) ↔ Pairs r (w :: queue) m comers := by
  refine and_congr_right fun _ => ⟨fun hp => ?_, .cons_right⟩
  cases m with
  | zero => exact .nil
  | succ m =>
    cases hp with
    | cons hr _ => exact absurd hr h
    | cons_right hp => exact hp

variable (r) [∀ w v, Decidable (r w v)]

def serve (queue : List ω) (v : ν) : List ω :=
  match queue with
  | [] => []
  | w :: ws => if r w v then ws else w :: ws

def served (queue : List ω) (comers : List ν) : List ω :=
  comers.foldl (serve r) queue

variable {r}

/-- What is left of the queue is what is behind the longest part that can be paired. -/
theorem exists_served (queue : List ω) (comers : List ν) :
    ∃ j, served r queue comers = queue.drop j ∧ ∀ m, Pairs r queue m comers ↔ m ≤ j ∧ m ≤ queue.length := by
  induction comers generalizing queue with
  | nil =>
    refine ⟨0, rfl, fun m => ⟨fun hp => ?_, fun hm => ?_⟩⟩
    · obtain ⟨hle, hp⟩ := hp
      cases m with
      | zero => exact ⟨Nat.le_refl 0, hle⟩
      | succ m =>
        cases queue with
        | nil => cases hle
        | cons w queue => cases hp
    · obtain rfl : m = 0 := by omega
      exact ⟨hm.2, .nil⟩
  | cons v comers ih =>
    cases queue with
    | nil =>
      obtain ⟨j, hserved, -⟩ := ih []
      refine ⟨0, by simpa [served, serve] using hserved, fun m => ⟨fun hp => ⟨hp.1, hp.1⟩, fun hm => ?_⟩⟩
      obtain rfl : m = 0 := by omega
      exact ⟨hm.2, .nil⟩
    | cons w queue =>
      by_cases hr : r w v
      · obtain ⟨j, hserved, hpairs⟩ := ih queue
        refine ⟨j + 1, ?_, fun m => ?_⟩
        · rw [served, foldl_cons, serve, if_pos hr, drop_succ_cons]
          exact hserved
        · cases m with
          | zero => exact ⟨fun hp => ⟨Nat.zero_le _, hp.1⟩, fun hm => ⟨hm.2, .nil⟩⟩
          | succ m =>
            rw [pairs_cons_iff hr, hpairs, length_cons]
            omega
      · obtain ⟨j, hserved, hpairs⟩ := ih (w :: queue)
        refine ⟨j, ?_, fun m => (pairs_skip_iff hr).trans (hpairs m)⟩
        rw [served, foldl_cons, serve, if_neg hr]
        exact hserved

/-- The head suits the comer just if more of the queue can be paired with it than without it. -/
theorem suits_iff (v : ν) : Suits r (served r queue comers) v ↔
    ∃ m, Pairs r queue m (comers ++ [v]) ∧ ¬ Pairs r queue m comers := by
  obtain ⟨j, hserved, hpairs⟩ := exists_served (r := r) queue comers
  obtain ⟨j', hserved', hpairs'⟩ := exists_served (r := r) queue (comers ++ [v])
  have hstep : queue.drop j' = serve r (queue.drop j) v := by
    rw [← hserved, ← hserved', served, served, foldl_concat]
  rw [hserved]
  cases hdrop : queue.drop j with
  | nil =>
    have hj : queue.length ≤ j := drop_eq_nil_iff.mp hdrop
    refine ⟨fun h => ?_, ?_⟩
    · obtain ⟨w, hw, -⟩ := h
      cases hw
    · rintro ⟨m, hm, hnot⟩
      exact absurd ((hpairs m).mpr ⟨Nat.le_trans hm.1 hj, hm.1⟩) hnot
  | cons w ws =>
    have hj : j < queue.length := by
      by_contra hge
      rw [drop_eq_nil_iff.mpr (Nat.le_of_not_lt hge)] at hdrop
      cases hdrop
    have hlen : (queue.drop j).length = ws.length + 1 := congrArg length hdrop
    rw [hdrop, serve] at hstep
    have hlen' := congrArg length hstep
    rw [length_drop] at hlen hlen'
    by_cases hr : r w v
    · rw [if_pos hr] at hlen'
      refine ⟨fun _ => ⟨j + 1, (hpairs' _).mpr (by omega), fun hp => ?_⟩, fun _ => ⟨w, rfl, hr⟩⟩
      have hle := ((hpairs _).mp hp).1
      omega
    · rw [if_neg hr, length_cons] at hlen'
      refine ⟨?_, ?_⟩
      · rintro ⟨w', hw', hr'⟩
        obtain rfl := Option.some.inj hw'
        exact absurd hr' hr
      · rintro ⟨m, hm, hnot⟩
        have hle := ((hpairs' m).mp hm)
        exact absurd ((hpairs m).mpr (by omega)) hnot

/-- Those who are left are behind those who have been served. -/
theorem served_suffix (queue : List ω) (comers : List ν) : served r queue comers <:+ queue := by
  obtain ⟨j, hserved, -⟩ := exists_served (r := r) queue comers
  rw [hserved]
  exact drop_suffix j queue

end Turns

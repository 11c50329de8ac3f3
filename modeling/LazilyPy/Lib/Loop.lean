import Mathlib.Data.List.DropRight
import Mathlib.Data.List.Nodup
import Mathlib.Logic.Relation

/-!
# Loops

`loop step` repeats a partial step. A measure that every step lowers says how much fuel is enough.

A queue that is trimmed to a size whenever something has been appended to it holds what has been appended last.

Where there are several steps to take, `Until step stop Q` says that every run from a state, whatever step it takes,
comes to a state at which it stops, and that `Q` holds there.

A loop over keys whose body does something to the key of each element and nothing to the other keys does, to every key,
what the body does for the element of that key.
-/

section Loop

open List

variable {α : Type} {step : α → Option α}

/-- Take steps while there is one, at most `fuel` of them. -/
def loop (step : α → Option α) : ℕ → α → α
  | 0, a => a
  | fuel + 1, a =>
    match step a with
    | none => a
    | some b => loop step fuel b

theorem loop_invariant {P : α → Prop} (h : ∀ a b, step a = some b → P a → P b) (fuel : ℕ) {a : α}
    (ha : P a) : P (loop step fuel a) := by
  induction fuel generalizing a with
  | zero => exact ha
  | succ fuel ih =>
    rw [loop]
    cases hstep : step a with
    | none => exact ha
    | some b => exact ih (h a b hstep ha)

theorem step_loop {μ : α → ℕ} (h : ∀ a b, step a = some b → μ b < μ a) {fuel : ℕ} {a : α}
    (ha : μ a ≤ fuel) : step (loop step fuel a) = none := by
  induction fuel generalizing a with
  | zero =>
    rw [loop]
    cases hstep : step a with
    | none => rfl
    | some b =>
      have hlt := h a b hstep
      omega
  | succ fuel ih =>
    rw [loop]
    cases hstep : step a with
    | none => exact hstep
    | some b =>
      have hlt := h a b hstep
      exact ih (by omega)

/-! ### Trimming a queue -/

/-- One round of trimming: the oldest element goes as long as there are too many. -/
def trim (size : ℤ) : List α → Option (List α)
  | [] => none
  | a :: queue => if size < (a :: queue).length then some queue else none

theorem loop_trim {size : ℤ} (hsize : 0 ≤ size) {fuel : ℕ} {queue : List α} (hfuel : queue.length ≤ fuel) :
    loop (trim size) fuel queue = queue.rtake size.toNat := by
  unfold rtake
  induction fuel generalizing queue with
  | zero =>
    obtain rfl := length_eq_zero_iff.mp (Nat.le_zero.mp hfuel)
    exact drop_nil.symm
  | succ fuel ih =>
    cases queue with
    | nil => exact drop_nil.symm
    | cons a queue =>
      have hlength : (a :: queue).length = queue.length + 1 := rfl
      rw [hlength] at hfuel
      by_cases hlong : size < (a :: queue).length
      · have hdrop : (a :: queue).length - size.toNat = (queue.length - size.toNat) + 1 := by omega
        rw [loop, trim, if_pos hlong, hdrop, drop_succ_cons]
        exact ih (by omega)
      · have hdrop : (a :: queue).length - size.toNat = 0 := by omega
        rw [loop, trim, if_neg hlong, hdrop]
        rfl

/-- One more element after the latest ones. -/
theorem rtake_concat (k : ℕ) (l : List α) (a : α) : (l.rtake k ++ [a]).rtake k = (l ++ [a]).rtake k := by
  unfold rtake
  have hle : l.length - k ≤ l.length := Nat.sub_le _ _
  have hfirst : l.drop (l.length - k) ++ [a] = (l ++ [a]).drop (l.length - k) := (drop_append_of_le_length hle).symm
  rw [hfirst, drop_drop, length_drop, length_append, length_singleton]
  congr 1
  omega

end Loop

/-! ## Runs that come to a stop -/

section Until

variable {α : Type} {step : α → α → Prop} {stop Q Q' : α → Prop} {a b : α}

/-- Every run from a state stops, and `Q` holds of the first state at which it does. -/
inductive Until (step : α → α → Prop) (stop Q : α → Prop) : α → Prop
  | here {a : α} (hstop : stop a) (hQ : Q a) : Until step stop Q a
  | later {a : α} (hgo : ¬ stop a) (hsome : ∃ b, step a b)
    (hnext : ∀ b, step a b → Until step stop Q b) : Until step stop Q a

namespace Until

theorem mono (h : Until step stop Q a) (hQ : ∀ b, Q b → Q' b) : Until step stop Q' a := by
  induction h with
  | here hstop hq => exact .here hstop (hQ _ hq)
  | later hgo hsome _ ih => exact .later hgo hsome ih

theorem of_run (h : Until step stop Q a)
    (hrun : Relation.ReflTransGen (fun a b => ¬ stop a ∧ step a b) a b) (hstop : stop b) : Q b := by
  induction hrun using Relation.ReflTransGen.head_induction_on with
  | refl =>
    cases h with
    | here _ hQ => exact hQ
    | later hgo _ _ => exact absurd hstop hgo
  | head hstep _ ih =>
    cases h with
    | here hstop' _ => exact absurd hstop' hstep.1
    | later _ _ hnext => exact ih (hnext _ hstep.2)

end Until

end Until

/-! ## Loops over keys -/

section Keyed

open List

variable {σ ι κ β : Type} {step : σ → ι → σ} {key : ι → κ} {view : σ → κ → β} {own : ι → β → β}

theorem foldl_keyed_of_not_mem (hother : ∀ s i k, k ≠ key i → view (step s i) k = view s k) {k : κ}
    {l : List ι} (hk : k ∉ l.map key) (s : σ) : view (l.foldl step s) k = view s k := by
  induction l generalizing s with
  | nil => rfl
  | cons i l ih =>
    rw [map_cons, mem_cons, not_or] at hk
    rw [foldl_cons, ih hk.2, hother s i k hk.1]

variable [DecidableEq κ]

/-- A loop over distinct keys, as a key sees it. -/
theorem foldl_keyed (hother : ∀ s i k, k ≠ key i → view (step s i) k = view s k)
    (hself : ∀ s i, view (step s i) (key i) = own i (view s (key i))) {l : List ι}
    (hl : (l.map key).Nodup) (s : σ) (k : κ) :
    view (l.foldl step s) k = (l.find? fun i => key i = k).elim (view s k) fun i => own i (view s k) := by
  induction l generalizing s with
  | nil => rfl
  | cons i l ih =>
    obtain ⟨hi, hl⟩ := nodup_cons.mp hl
    rw [foldl_cons]
    by_cases hk : key i = k
    · subst hk
      rw [foldl_keyed_of_not_mem hother hi, hself, find?_cons_of_pos (by simp)]
      rfl
    · rw [ih hl, hother s i k fun heq => hk heq.symm, find?_cons_of_neg (by simpa using hk)]

/-- A loop over the keys themselves. -/
theorem foldl_nodup {step : σ → κ → σ} {own : β → β} (hother : ∀ s i k, k ≠ i → view (step s i) k = view s k)
    (hself : ∀ s i, view (step s i) i = own (view s i)) {l : List κ} (hl : l.Nodup) (s : σ) (k : κ) :
    view (l.foldl step s) k = if k ∈ l then own (view s k) else view s k := by
  induction l generalizing s with
  | nil => rfl
  | cons i l ih =>
    obtain ⟨hi, hl⟩ := nodup_cons.mp hl
    rw [foldl_cons, ih hl]
    by_cases hk : k = i
    · subst hk
      rw [if_neg hi, if_pos mem_cons_self, hself]
    · rw [hother s i k hk]
      simp only [mem_cons, hk, false_or]

end Keyed

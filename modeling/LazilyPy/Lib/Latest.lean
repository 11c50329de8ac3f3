import Mathlib.Order.Lattice
import LazilyPy.Lib.Table

/-!
# Tables that keep the latest rows

A table that replaces the row of a key only by a later one holds, of all the rows that it has been
given, a latest one of each key.
-/

namespace Table

variable {κ ν β : Type} {key : ν → κ} [DecidableEq κ] [LinearOrder β]

def keepLater (rank : ν → β) (t : Table key) (v : ν) : Table key :=
  match t.get? (key v) with
  | none => t.put v
  | some w => if rank w < rank v then t.put v else t

/-- The table holds, for each key, one of these rows that is as late as any. -/
structure Latest (rank : ν → β) (t : Table key) (log : List ν) : Prop where
  mem : ∀ k w, t.get? k = some w → w ∈ log
  le : ∀ v ∈ log, ∃ w, t.get? (key v) = some w ∧ rank v ≤ rank w

variable {rank : ν → β} {t : Table key}

theorem get?_keepLater_of_ne {v : ν} {k : κ} (h : k ≠ key v) : (t.keepLater rank v).get? k = t.get? k := by
  unfold keepLater
  split
  · rw [get?_put, if_neg h]
  · split
    · rw [get?_put, if_neg h]
    · rfl

/-- What a key has after one more row: that row, or an earlier one that is as late. -/
theorem get?_keepLater_self (rank : ν → β) (t : Table key) (v : ν) : (t.keepLater rank v).get? (key v) = some v ∨
      ∃ w, t.get? (key v) = some w ∧ (t.keepLater rank v).get? (key v) = some w ∧ rank v ≤ rank w := by
  unfold keepLater
  split
  · rw [get?_put, if_pos rfl]
    exact .inl rfl
  · next w hw =>
    split
    · rw [get?_put, if_pos rfl]
      exact .inl rfl
    · next hle => exact .inr ⟨w, hw, hw, not_lt.mp hle⟩

/-- A row is only replaced by a later one. -/
theorem get?_keepLater_ge (rank : ν → β) {v w : ν} {k : κ} (h : t.get? k = some w) :
    ∃ w', (t.keepLater rank v).get? k = some w' ∧ rank w ≤ rank w' := by
  by_cases hk : k = key v
  · subst hk
    unfold keepLater
    rw [h]
    dsimp only
    split
    · next hlt => exact ⟨v, by rw [get?_put, if_pos rfl], hlt.le⟩
    · exact ⟨w, h, le_rfl⟩
  · exact ⟨w, by rw [get?_keepLater_of_ne hk, h], le_rfl⟩

/-- The new row is there if it is later than what its key has had, and an old one unless it is earlier than the new row
of its key. -/
theorem mem_keepLater_iff {v r : ν} : r ∈ (t.keepLater rank v).rows ↔
    r = v ∧ (∀ w, t.get? (key v) = some w → rank w < rank v) ∨ r ∈ t.rows ∧ (key r = key v → rank v ≤ rank r) := by
  unfold keepLater
  cases hget : t.get? (key v) with
  | none =>
    have hnone := get?_eq_none.mp hget
    rw [mem_put]
    refine or_congr (iff_of_eq (by simp)) (and_congr_right fun hr => ?_)
    exact iff_of_true (hnone r hr) fun heq => absurd heq (hnone r hr)
  | some w =>
    have hold : ∀ r ∈ t.rows, key r = key v → r = w := fun r hr heq =>
      eq_of_key_eq hr (mem_of_get? hget) (heq.trans (key_of_get? hget).symm)
    dsimp only
    split
    · next hlt =>
      rw [mem_put]
      refine or_congr (by simp [hlt]) (and_congr_right fun hr => ?_)
      refine ⟨fun hne heq => absurd heq hne, fun hle heq => ?_⟩
      obtain rfl := hold r hr heq
      exact absurd hlt (not_lt.mpr (hle heq))
    · next hle =>
      constructor
      · intro hr
        refine .inr ⟨hr, fun heq => ?_⟩
        obtain rfl := hold r hr heq
        exact not_lt.mp hle
      · rintro (⟨-, hlt⟩ | ⟨hr, -⟩)
        · exact absurd (hlt w rfl) hle
        · exact hr

theorem mem_keepLater {v r : ν} (h : r ∈ (t.keepLater rank v).rows) : r = v ∨ r ∈ t.rows :=
  (mem_keepLater_iff.mp h).imp And.left And.left

theorem latest_empty (rank : ν → β) : (empty key).Latest rank [] :=
  ⟨fun _ _ h => absurd (mem_of_get? h) List.not_mem_nil, fun _ h => absurd h List.not_mem_nil⟩

theorem Latest.keepLater {log : List ν} (h : t.Latest rank log) (v : ν) :
    (t.keepLater rank v).Latest rank (log ++ [v]) := by
  constructor
  · intro k w hw
    have hrow := mem_keepLater (mem_of_get? hw)
    obtain rfl | hold := hrow
    · simp
    · have hkey : key w = k := key_of_get? hw
      exact List.mem_append_left _ (h.mem (key w) w (get?_of_mem hold))
  · intro a ha
    obtain ha | ha := List.mem_append.mp ha
    · obtain ⟨w, hw, hle⟩ := h.le a ha
      obtain ⟨w', hw', hle'⟩ := get?_keepLater_ge rank (v := v) hw
      exact ⟨w', hw', hle.trans hle'⟩
    · obtain rfl := List.mem_singleton.mp ha
      obtain hself | ⟨w, _, hw, hle⟩ := get?_keepLater_self rank t a
      · exact ⟨a, hself, le_rfl⟩
      · exact ⟨w, hw, hle⟩

/-- Where no two rows of a key have one rank, what a key has is the row that is as late as any. -/
theorem Latest.get?_eq_some_iff {log : List ν} (h : t.Latest rank log)
    (hunique : ∀ v ∈ log, ∀ w ∈ log, key v = key w → rank v = rank w → v = w) {k : κ} {v : ν} :
    t.get? k = some v ↔ v ∈ log ∧ key v = k ∧ ∀ w ∈ log, key w = k → rank w ≤ rank v := by
  constructor
  · intro hv
    refine ⟨h.mem k v hv, key_of_get? hv, fun w hw hkey => ?_⟩
    obtain ⟨v', hv', hle⟩ := h.le w hw
    rw [hkey, hv] at hv'
    rwa [Option.some.inj hv']
  · rintro ⟨hv, rfl, hmax⟩
    obtain ⟨w, hw, hle⟩ := h.le v hv
    have hwlog := h.mem _ w hw
    have hkey := key_of_get? hw
    rw [hw, hunique w hwlog v hv hkey (le_antisymm (hmax w hwlog hkey) hle)]

end Table

import LazilyPy.Lossless.Key
import LazilyPy.Sequence.Placement

/-!
# Strictly between

The keys that `key_between` makes for a lossless tree and `_frac_between` for a sequence, from keys that they have made.
In a tree the new key is always between the two. In a sequence it is above the lower one, and it can be above the upper
one too if the upper one extends the lower one.
-/

namespace LazilyPy.Lossless

open List

def WellFormed (f : List ℕ) : Prop :=
  Minted f ∧ ∀ d ∈ f, d < 256

/-- The keys that `key_between` makes. -/
inductive Produced : List ℕ → Prop
  | between {lo hi : Option (List ℕ)} (hlo : ∀ f ∈ lo, Produced f) (hhi : ∀ f ∈ hi, Produced f) :
      Produced (keyBetween lo hi)

variable {lo hi : List ℕ}

theorem byte_keyAbove (h : ∀ d ∈ lo, d < 256) : ∀ d ∈ keyAbove lo, d < 256 := by
  induction lo with
  | nil => simp [keyAbove]
  | cons a lo ih =>
    obtain ⟨ha, hlo⟩ := forall_mem_cons.mp h
    rw [keyAbove]
    split
    · simp only [mem_singleton, forall_eq]
      omega
    · exact forall_mem_cons.mpr ⟨ha, ih hlo⟩

theorem byte_getD (h : ∀ d ∈ lo, d < 256) (i : ℕ) : lo.getD i 0 < 256 := by
  by_cases hi : i < lo.length
  · rw [getD_eq_getElem lo 0 hi]
    exact h _ (getElem_mem hi)
  · rw [getD_eq_default lo 0 (not_lt.mp hi)]
    decide

theorem byte_keyLoop (hlo : ∀ d ∈ lo, d < 256) (hhi : ∀ d ∈ hi, d < 256) (rounds i : ℕ) :
    ∀ d ∈ keyLoop lo hi rounds i, d < 256 := by
  have ha := byte_getD hlo
  have hb := byte_getD hhi
  induction rounds generalizing i with
  | zero => simp [keyLoop]
  | succ rounds ih =>
    rw [keyLoop]
    split
    · have hbi := hb i
      simp only [mem_singleton, forall_eq]
      omega
    · split
      · exact forall_mem_cons.mpr ⟨ha i, byte_keyAbove fun d hd => hlo d (mem_of_mem_drop hd)⟩
      · exact forall_mem_cons.mpr ⟨ha i, ih (i + 1)⟩

theorem wellFormed_keyBetween {lo hi : Option (List ℕ)} (hlo : ∀ f ∈ lo, WellFormed f) (hhi : ∀ f ∈ hi, WellFormed f) :
    WellFormed (keyBetween lo hi) := by
  refine ⟨minted_keyBetween lo hi, ?_⟩
  have hlower : ∀ d ∈ lo.getD [], d < 256 := by
    cases lo with
    | none => exact fun _ => nofun
    | some lo => exact (hlo lo rfl).2
  cases hi with
  | none => exact byte_keyAbove hlower
  | some hi => exact byte_keyLoop hlower (hhi hi rfl).2 _ 0

theorem Produced.wellFormed {f : List ℕ} (h : Produced f) : WellFormed f := by
  induction h with
  | between _ _ ihlo ihhi => exact wellFormed_keyBetween ihlo ihhi

/-- The new key is strictly between the bounds. -/
theorem keyBetween_between {lo hi : Option (List ℕ)} (hhi : ∀ f ∈ hi, WellFormed f) (hlt : ∀ l ∈ lo, ∀ h ∈ hi, l < h) :
    (∀ l ∈ lo, l < keyBetween lo hi) ∧ ∀ h ∈ hi, keyBetween lo hi < h := by
  constructor
  · rintro l rfl
    exact lt_keyBetween l hi
  · rintro h rfl
    have hminted := (hhi h rfl).1
    cases lo with
    | none => exact keyBetween_none_lt hminted
    | some lo => exact keyBetween_lt (hlt lo rfl h rfl) hminted

end LazilyPy.Lossless

namespace LazilyPy.Sequence

open Digits List

def WellFormed (f : List ℕ) : Prop :=
  f ≠ [] ∧ ∀ d ∈ f, 0 < d ∧ d < 256

/-- The lists that stand for the bounds. Without a lower bound it is empty, and without an upper one it is 256. -/
def lower (lo : Option (List ℕ)) : List ℕ :=
  lo.getD []

def upper (hi : Option (List ℕ)) : List ℕ :=
  hi.getD [256]

/-- The keys that `_frac_between` and `_frac_after` make. -/
inductive Generated : List ℕ → Prop
  | between {lo hi : Option (List ℕ)} (hlo : ∀ f ∈ lo, Generated f) (hhi : ∀ f ∈ hi, Generated f) :
      Generated (fracBetween (lower lo) (upper hi))
  | after {lo : Option (List ℕ)} (hlo : ∀ f ∈ lo, Generated f) : Generated (fracAfter (lower lo))

variable {lo hi rest : List ℕ}

/-! ## The loop ends -/

theorem fracLoop_succ {fuel i : ℕ} (hlo : lo.length ≤ i + fuel) (hhi : hi.length ≤ i + fuel) :
    fracLoop lo hi (fuel + 1) i = fracLoop lo hi fuel i := by
  induction fuel generalizing i with
  | zero =>
    rw [Nat.add_zero] at hlo hhi
    have hgap : 1 < hi.getD i 256 - lo.getD i 0 := by
      rw [getD_eq_default lo 0 hlo, getD_eq_default hi 256 hhi]
      decide
    exact if_pos hgap
  | succ fuel ih =>
    rw [fracLoop, ih (i := i + 1) (by omega) (by omega)]
    rfl

/-- However long the loop may go on, it has ended past the ends of both keys. -/
theorem fracLoop_eq_fracBetween {fuel : ℕ} (h : max lo.length hi.length ≤ fuel) :
    fracLoop lo hi fuel 0 = fracBetween lo hi := by
  induction h with
  | refl => rfl
  | @step fuel hfuel ih =>
    have hfuel : max lo.length hi.length ≤ fuel := hfuel
    exact (fracLoop_succ (by omega) (by omega)).trans ih

/-! ## The digits -/

theorem wellFormed_fracBetween {lo hi : Option (List ℕ)} (hlo : ∀ f ∈ lo, WellFormed f) (hhi : ∀ f ∈ hi, WellFormed f) :
    WellFormed (fracBetween (lower lo) (upper hi)) := by
  have hlower : ∀ d ∈ lower lo, 0 < d ∧ d < 256 := by
    cases lo with
    | none => exact fun _ => nofun
    | some lo => exact (hlo lo rfl).2
  have hupper : ∀ j, (upper hi).getD j 256 ≤ 256 := by
    intro j
    by_cases hj : j < (upper hi).length
    · rw [getD_eq_getElem _ _ hj]
      have hmem := getElem_mem hj
      cases hi with
      | none => exact (mem_singleton.mp hmem).le
      | some hi => exact ((hhi hi rfl).2 _ hmem).2.le
    · exact (getD_eq_default _ _ (not_lt.mp hj)).le
  have hlen : (lower lo).length ≤ 0 + max (lower lo).length (upper hi).length := by omega
  have hlen' : (upper hi).length ≤ 0 + max (lower lo).length (upper hi).length := by omega
  obtain ⟨j, -, hgap, heq⟩ := fracLoop_eq hlen hlen'
  rw [fracBetween, heq]
  refine ⟨by simp, fun d hd => ?_⟩
  obtain hd | hd := mem_append.mp hd
  · exact hlower d (mem_of_mem_take hd)
  · rw [mem_singleton] at hd
    have hle := hupper j
    omega

theorem Generated.wellFormed {f : List ℕ} (h : Generated f) : WellFormed f := by
  induction h with
  | between _ _ ihlo ihhi => exact wellFormed_fracBetween ihlo ihhi
  | @after lo _ ih =>
    refine ⟨by simp [fracAfter], fun d hd => ?_⟩
    obtain hd | hd := mem_append.mp hd
    · cases lo with
      | none => cases hd
      | some lo => exact (ih lo rfl).2 d hd
    · obtain rfl := mem_singleton.mp hd
      decide

/-! ## Room below the upper key -/

/-- If the upper key extends the lower one, there is room below what it goes on with. -/
def Room (lo hi : List ℕ) : Prop :=
  ∀ rest, hi = lo ++ rest → RoomBelow rest

theorem fracBetween_lt_iff (h : lo < hi) : fracBetween lo hi < hi ↔ Room lo hi := by
  obtain ⟨rest, rfl⟩ | hparts := prefix_or_parts_of_lt h
  · rw [fracBetween_append, append_lt_append_iff, gap_lt_iff]
    constructor
    · intro hroom rest' heq
      rwa [← append_cancel_left heq]
    · exact fun hroom => hroom rest rfl
  · exact ⟨fun _ rest heq => absurd heq (hparts.ne_append rest), fun _ => fracBetween_lt hparts⟩

/-- The key is well formed and strictly between the two, and every loop that is long enough ends with it. -/
structure StrictlyBetween (lo hi : List ℕ) : Prop where
  wellFormed : WellFormed (fracBetween lo hi)
  above : lo < fracBetween lo hi
  below : fracBetween lo hi < hi
  ends : ∀ fuel, max lo.length hi.length ≤ fuel → fracLoop lo hi fuel 0 = fracBetween lo hi

theorem strictlyBetween_iff {lo hi : Option (List ℕ)} (hlo : ∀ f ∈ lo, WellFormed f) (hhi : ∀ f ∈ hi, WellFormed f)
    (hlt : lower lo < upper hi) : StrictlyBetween (lower lo) (upper hi) ↔ Room (lower lo) (upper hi) := by
  rw [← fracBetween_lt_iff hlt]
  exact ⟨StrictlyBetween.below, fun hbelow => ⟨wellFormed_fracBetween hlo hhi, lt_fracBetween _ _, hbelow,
    fun _ => fracLoop_eq_fracBetween⟩⟩

/-- Keys between keys: in a tree always, and in a sequence if and only if there is room. -/
theorem between_keys_iff {lo hi lo' hi' : Option (List ℕ)} (hlo : ∀ f ∈ lo, Lossless.WellFormed f)
    (hhi : ∀ f ∈ hi, Lossless.WellFormed f) (hlt : ∀ l ∈ lo, ∀ h ∈ hi, l < h) (hlo' : ∀ f ∈ lo', WellFormed f)
    (hhi' : ∀ f ∈ hi', WellFormed f) (hlt' : lower lo' < upper hi') :
    (Lossless.WellFormed (Lossless.keyBetween lo hi) ∧ (∀ l ∈ lo, l < Lossless.keyBetween lo hi) ∧
      ∀ h ∈ hi, Lossless.keyBetween lo hi < h) ∧
    (StrictlyBetween (lower lo') (upper hi') ↔ Room (lower lo') (upper hi')) :=
  ⟨⟨Lossless.wellFormed_keyBetween hlo hhi, Lossless.keyBetween_between hhi hlt⟩, strictlyBetween_iff hlo' hhi' hlt'⟩

theorem between_keys_iff_open : Lossless.keyBetween none (some [1]) < [1] ∧ fracBetween [] [256] < [256] := by
  have hkey : Lossless.WellFormed [1] := ⟨Lossless.minted_singleton (by decide), by decide⟩
  have h := @between_keys_iff none (some [1]) none none (fun _ => nofun)
    (by rintro f ⟨⟩; exact hkey) (fun _ => nofun) (fun _ => nofun) (fun _ => nofun) (by decide)
  refine ⟨h.1.2.2 [1] rfl, (h.2.mpr ?_).below⟩
  rintro rest rfl
  exact ⟨256, [], rfl, .inl (by decide)⟩

/-- After eight keys behind the same one, the next is not below the eighth. -/
theorem not_between_generated : Generated [128] ∧ Generated [128, 1] ∧ [128] < [128, 1] ∧
    ¬ StrictlyBetween [128] [128, 1] := by
  have hlo : Generated [128] := @Generated.after none fun _ => nofun
  have hstep : ∀ d, Generated [128, d] → Generated (fracBetween [128] [128, d]) := fun d h =>
    @Generated.between (some [128]) (some [128, d]) (by rintro f ⟨⟩; exact hlo) (by rintro f ⟨⟩; exact h)
  have hhi : Generated [128, 128] := @Generated.after (some [128]) (by rintro f ⟨⟩; exact hlo)
  refine ⟨hlo, ?_, by decide, fun h => absurd h.below (by decide)⟩
  exact hstep 2 (hstep 4 (hstep 8 (hstep 16 (hstep 32 (hstep 64 (hstep 128 hhi))))))

end LazilyPy.Sequence

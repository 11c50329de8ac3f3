import Mathlib.Algebra.BigOperators.Group.Finset.Basic

/-!
# Walks that take the edges they follow

A walk keeps a stack of nodes. It passes over the nodes that are not live. From a live one it takes the
successors, which the node loses, and puts them on the stack. It comes through what can be reached from the
stack through live nodes.
-/

open List

variable {α : Type} {next next' : α → List α} {live live' : α → Prop} {roots roots' : List α} {a b n : α}

/-- The live nodes that are reached from some nodes, through live nodes. -/
inductive Swept (next : α → List α) (live : α → Prop) (roots : List α) : α → Prop
  | root {a : α} (ha : a ∈ roots) (hlive : live a) : Swept next live roots a
  | next {a b : α} (ha : Swept next live roots a) (hb : b ∈ next a) (hlive : live b) : Swept next live roots b

theorem Swept.alive (h : Swept next live roots a) : live a := by
  cases h with
  | root _ hlive => exact hlive
  | next _ _ hlive => exact hlive

theorem Swept.mono (h : Swept next live roots a) (hroots : ∀ a ∈ roots, live a → Swept next' live' roots' a)
    (hnext : ∀ a b, b ∈ next a → b ∈ next' a) (hlive : ∀ a, live a → live' a) :
    Swept next' live' roots' a := by
  induction h with
  | root ha hl => exact hroots _ ha hl
  | next _ hb hl ih => exact .next ih (hnext _ _ hb) (hlive _ hl)

theorem Swept.of_subset (h : Swept next live roots a) (hroots : roots ⊆ roots') : Swept next live roots' a :=
  h.mono (fun _ ha hl => .root (hroots ha) hl) (fun _ _ hb => hb) fun _ hl => hl

theorem swept_congr (hroots : ∀ a, a ∈ roots ↔ a ∈ roots') : Swept next live roots a ↔ Swept next live roots' a :=
  ⟨fun h => h.of_subset fun _ ha => (hroots _).mp ha, fun h => h.of_subset fun _ ha => (hroots _).mpr ha⟩

theorem not_swept_nil : ¬ Swept next live [] a := by
  intro h
  induction h with
  | root ha _ => cases ha
  | next _ _ _ ih => exact ih

theorem swept_cons_of_dead (hdead : ¬ live n) : Swept next live (n :: roots) a ↔ Swept next live roots a := by
  refine ⟨fun h => h.mono (fun b hb hl => .root ?_ hl) (fun _ _ hb => hb) fun _ hl => hl,
    fun h => h.of_subset (subset_cons_self _ _)⟩
  obtain rfl | hb := mem_cons.mp hb
  · exact absurd hl hdead
  · exact hb

theorem swept_cons_of_live [DecidableEq α] (hlive : live n) : Swept next live (n :: roots) a ↔
    a = n ∨ Swept (Function.update next n []) live (next n ++ roots) a := by
  constructor
  · intro h
    induction h with
    | root ha hl =>
      obtain rfl | ha := mem_cons.mp ha
      · exact .inl rfl
      · exact .inr (.root (mem_append_right _ ha) hl)
    | @next b c _ hc hl ih =>
      by_cases hbn : b = n
      · subst hbn
        exact .inr (.root (mem_append_left _ hc) hl)
      · refine .inr (.next (ih.resolve_left hbn) ?_ hl)
        rwa [Function.update_of_ne hbn]
  · rintro (rfl | h)
    · exact .root mem_cons_self hlive
    · refine h.mono (fun b hb hl => ?_) (fun b c hc => ?_) fun _ hl => hl
      · obtain hb | hb := mem_append.mp hb
        · exact .next (.root mem_cons_self hlive) hb hl
        · exact .root (mem_cons_of_mem _ hb) hl
      · by_cases hbn : b = n
        · rw [hbn, Function.update_self] at hc
          cases hc
        · rwa [Function.update_of_ne hbn] at hc

section

variable (hlive : ∀ a, live' a ↔ live a ∧ a ≠ n) (hsub : ∀ a b, b ∈ next' a → b ∈ next a)

include hlive hsub

/-- A walk from the successors of `n` that never goes through `n` comes as far as any other. -/
theorem swept_without (hsame : ∀ a b, b ∈ next a → b ≠ n → a ≠ n → b ∈ next' a) (hroots : ∀ a ∈ roots, a ∈ next n)
    (hroots' : ∀ a ∈ next n, a ≠ n → a ∈ roots) :
    a = n ∨ Swept next' live' roots a ↔ a = n ∨ Swept next live (next n) a := by
  constructor
  · refine Or.imp id fun h => h.mono (fun b hb hl => .root (hroots b hb) ((hlive b).mp hl).1) hsub ?_
    exact fun b hl => ((hlive b).mp hl).1
  · rintro (rfl | h)
    · exact .inl rfl
    · induction h with
      | @root b hb hl =>
        by_cases hbn : b = n
        · exact .inl hbn
        · exact .inr (.root (hroots' b hb hbn) ((hlive b).mpr ⟨hl, hbn⟩))
      | @next b c _ hc hl ih =>
        by_cases hcn : c = n
        · exact .inl hcn
        · have hlive' : live' c := (hlive c).mpr ⟨hl, hcn⟩
          obtain rfl | hb := ih
          · exact .inr (.root (hroots' c hc hcn) hlive')
          · exact .inr (.next hb (hsame b c hc hcn ((hlive b).mp hb.alive).2) hlive')

/-- A walk from `n` has been through: `n` is not live any more, what it has reached has lost its successors, and
`n` may be nobody's successor. From other nodes then the rest is reached. -/
theorem swept_after (hsame : ∀ a b, b ∈ next a → b ≠ n → a ≠ n → ¬ Swept next live (next n) a → b ∈ next' a) {m : α}
    (hm : live m) (hmn : m ≠ n) :
    (a = n ∨ Swept next live (next n) a) ∨ Swept next' live' (next' m) a ↔
      (a = n ∨ Swept next live (next n) a) ∨ Swept next live (next m) a := by
  constructor
  · rintro (h | h)
    · exact .inl h
    · refine .inr (h.mono (fun b hb hl => .root (hsub _ _ hb) ((hlive _).mp hl).1) hsub ?_)
      exact fun _ hl => ((hlive _).mp hl).1
  · rintro (h | h)
    · exact .inl h
    · -- a node is reached in the same way, unless the walk from `n` has come across
      have hcases : ∀ b c, live c → (b = m ∨ Swept next' live' (next' m) b) → c ∈ next b →
          (c = n ∨ Swept next live (next n) c) ∨ Swept next' live' (next' m) c := by
        intro b c hc hb hcb
        by_cases hcn : c = n
        · exact .inl (.inl hcn)
        · have hbn : b ≠ n := by
            obtain rfl | hb := hb
            · exact hmn
            · exact ((hlive _).mp hb.alive).2
          by_cases hswept : Swept next live (next n) b
          · exact .inl (.inr (.next hswept hcb hc))
          · have hkept : c ∈ next' b := hsame b c hcb hcn hbn hswept
            obtain rfl | hb := hb
            · exact .inr (.root hkept ((hlive _).mpr ⟨hc, hcn⟩))
            · exact .inr (.next hb hkept ((hlive _).mpr ⟨hc, hcn⟩))
      induction h with
      | root ha hl => exact hcases m _ hl (.inl rfl) ha
      | @next b c _ hc hl ih =>
        obtain (rfl | hb) | hb := ih
        · exact .inl (.inr (.root hc hl))
        · exact .inl (.inr (.next hb hc hl))
        · exact hcases b c hl (.inr hb) hc

end

/-! ### How long a walk is -/

def edgesWithin (nodes : Finset α) (next : α → List α) : ℕ :=
  ∑ a ∈ nodes, (next a).length

/-- A step takes the edges that it puts on the stack. -/
theorem edgesWithin_take [DecidableEq α] {nodes : Finset α} (hout : ∀ a ∉ nodes, next a = []) (n : α) :
    edgesWithin nodes (Function.update next n []) + (next n).length = edgesWithin nodes next := by
  unfold edgesWithin
  by_cases hn : n ∈ nodes
  · rw [← Finset.add_sum_erase nodes _ hn, ← Finset.add_sum_erase nodes (fun a => (next a).length) hn,
      Function.update_self]
    have hrest : ∑ a ∈ nodes.erase n, (Function.update next n [] a).length =
        ∑ a ∈ nodes.erase n, (next a).length := by
      refine Finset.sum_congr rfl fun a ha => ?_
      rw [Function.update_of_ne (Finset.ne_of_mem_erase ha)]
    rw [hrest, length_nil]
    omega
  · rw [hout n hn, length_nil, Nat.add_zero]
    refine Finset.sum_congr rfl fun a ha => ?_
    have hne : a ≠ n := fun heq => hn (heq ▸ ha)
    rw [Function.update_of_ne hne]

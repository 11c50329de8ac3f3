import Mathlib.Order.Antichain
import LazilyPy.Lib.Descent

/-!
# Coverings of trees

The nodes of a tree say which sets of their children may be chosen. A covering below a node is a set of
nodes that contains, with each of its nodes, the ones above it and a choice of children that the node
admits. Where a covering is exchanged for others below some of its nodes, it stays one.

The tree is given by a relation: `up s p` if `p` is the parent of `s`.
-/

open Relation

variable {α : Type} {up : α → α → Prop} {ok : α → Set α → Prop}

/-- A set that holds a node, only nodes below it, the parents of those, and for each of its nodes a set
of children that the node admits. -/
structure Fills (up : α → α → Prop) (ok : α → Set α → Prop) (top : α) (E : Set α) : Prop where
  top_mem : top ∈ E
  within : ∀ s ∈ E, ReflTransGen up s top
  up_mem : ∀ s ∈ E, s ≠ top → ∀ p, up s p → p ∈ E
  ok : ∀ s ∈ E, ok s {k | k ∈ E ∧ up k s}

/-- The way up ends where it ends further up. -/
theorem Acc.of_within (hup : Relator.RightUnique up) {s a : α} (ha : Acc (fun p s => up s p) a)
    (h : ReflTransGen up s a) : Acc (fun p s => up s p) s := by
  induction h using ReflTransGen.head_induction_on with
  | refl => exact ha
  | head hsp _ ih => exact Acc.intro _ fun p hp => hup hp hsp ▸ ih

/-- A node is not above its parent. -/
theorem Acc.not_within {s p : α} (hs : Acc (fun p s => up s p) s) (hsp : up s p) : ¬ ReflTransGen up p s :=
  fun h => hs.not_transGen (transGen_swap.mpr (TransGen.head' hsp h))

/-- What is within a node and not the node itself comes to it by way of its parent. -/
theorem Relation.ReflTransGen.of_up (hup : Relator.RightUnique up) {s a p : α}
    (h : ReflTransGen up s a) (hne : s ≠ a) (hp : up s p) : ReflTransGen up p a := by
  obtain rfl | ⟨q, hq, hrest⟩ := ReflTransGen.cases_head h
  · exact absurd rfl hne
  · rwa [hup hp hq]

namespace Fills

variable {a : α} {C : Set α}

/-- A node that admits the choice of no child. -/
theorem singleton (hacc : Acc (fun p s => up s p) a) (hok : ok a ∅) : Fills up ok a {a} where
  top_mem := rfl
  within := by
    rintro s rfl
    exact .refl
  up_mem := fun s hs hne => absurd hs hne
  ok := by
    rintro s rfl
    have hnone : {k | k ∈ ({s} : Set α) ∧ up k s} = ∅ := by
      ext k
      refine ⟨?_, False.elim⟩
      rintro ⟨rfl, hk⟩
      exact hacc.not_within hk .refl
    rwa [hnone]

theorem below (h : Fills up ok a C) (hup : Relator.RightUnique up)
    (hacc : Acc (fun p s => up s p) a) {r : α} (hr : r ∈ C) :
    Fills up ok r {s | s ∈ C ∧ ReflTransGen up s r} where
  top_mem := ⟨hr, .refl⟩
  within := fun s hs => hs.2
  up_mem := by
    rintro s ⟨hs, hsr⟩ hne p hp
    refine ⟨h.up_mem s hs ?_ p hp, hsr.of_up hup hne hp⟩
    rintro rfl
    -- the top of the covering is not below one of its nodes
    exact hne (hacc.antisymm hsr (h.within r hr))
  ok := by
    rintro s ⟨hs, hsr⟩
    have hsame : {k | (k ∈ C ∧ ReflTransGen up k r) ∧ up k s} = {k | k ∈ C ∧ up k s} := by
      ext k
      exact ⟨fun hk => ⟨hk.1.1, hk.2⟩, fun hk => ⟨⟨hk.1, .head hk.2 hsr⟩, hk.2⟩⟩
    show ok s {k | (k ∈ C ∧ ReflTransGen up k r) ∧ up k s}
    rw [hsame]
    exact h.ok s hs

/-- One step up, to a node that admits the choice of one child. -/
theorem step {x p : α} {E : Set α} (h : Fills up ok x E) (hup : Relator.RightUnique up)
    (hacc : Acc (fun p s => up s p) x) (hp : up x p) (hok : ok p {x}) :
    Fills up ok p (insert p E) where
  top_mem := Set.mem_insert p E
  within := by
    rintro s (rfl | hs)
    · exact .refl
    · exact (h.within s hs).tail hp
  up_mem := by
    rintro s (rfl | hs) hne q hq
    · exact absurd rfl hne
    · by_cases hsx : s = x
      · subst hsx
        exact .inl (hup hq hp)
      · exact .inr (h.up_mem s hs hsx q hq)
  ok := by
    have hpE : p ∉ E := fun hpE => hacc.not_within hp (h.within p hpE)
    have hpacc : Acc (fun p s => up s p) p := hacc.inv hp
    rintro s (rfl | hs)
    · have honly : {k | k ∈ insert s E ∧ up k s} = {x} := by
        ext k
        constructor
        · rintro ⟨rfl | hk, hks⟩
          · exact absurd .refl (hpacc.not_within hks)
          · by_contra hne
            exact hpE (h.up_mem k hk hne s hks)
        · rintro rfl
          exact ⟨.inr h.top_mem, hp⟩
      rwa [honly]
    · have hsame : {k | k ∈ insert p E ∧ up k s} = {k | k ∈ E ∧ up k s} := by
        ext k
        refine ⟨?_, fun hk => ⟨.inr hk.1, hk.2⟩⟩
        rintro ⟨rfl | hk, hks⟩
        · exact absurd ((h.within s hs).tail hp) (hpacc.not_within hks)
        · exact ⟨hk, hks⟩
      rw [hsame]
      exact h.ok s hs

/-- All the way up, if every node on it admits the choice of the child from which the way comes. -/
theorem along {x top : α} {E : Set α} (h : Fills up ok x E) (hup : Relator.RightUnique up)
    (hacc : Acc (fun p s => up s p) x) (hx : ReflTransGen up x top)
    (hway : ∀ s p, ReflTransGen up x s → up s p → ReflTransGen up p top → ok p {s}) :
    Fills up ok top {s | s ∈ E ∨ ReflTransGen up x s ∧ ReflTransGen up s top} := by
  induction hx with
  | refl =>
    have hsame : {s | s ∈ E ∨ ReflTransGen up x s ∧ ReflTransGen up s x} = E := by
      ext s
      refine ⟨?_, .inl⟩
      rintro (hs | ⟨hxs, hsx⟩)
      · exact hs
      · exact hacc.antisymm hxs hsx ▸ h.top_mem
    rwa [hsame]
  | @tail y p hxy hyp ih =>
    have hyacc : Acc (fun p s => up s p) y := hacc.of_reach hxy
    have hbelow := ih fun s q hs hsq hqy => hway s q hs hsq (hqy.tail hyp)
    have hstep := hbelow.step hup hyacc hyp (hway y p hxy hyp .refl)
    have hsame : {s | s ∈ E ∨ ReflTransGen up x s ∧ ReflTransGen up s p} =
        insert p {s | s ∈ E ∨ ReflTransGen up x s ∧ ReflTransGen up s y} := by
      ext s
      constructor
      · rintro (hs | ⟨hxs, hsp⟩)
        · exact .inr (.inl hs)
        · obtain rfl | ⟨q, hsq, hqp⟩ := ReflTransGen.cases_tail hsp
          · exact .inl rfl
          · obtain hsy | hys := ReflTransGen.total_of_right_unique hup hxs hxy
            · exact .inr (.inr ⟨hxs, hsy⟩)
            · by_cases hne : y = s
              · exact hne ▸ .inr (.inr ⟨hxy, .refl⟩)
              · have hps : ReflTransGen up p s := hys.of_up hup hne hyp
                exact .inl ((hyacc.inv hyp).antisymm hps hsp).symm
      · rintro (rfl | hs | ⟨hxs, hsy⟩)
        · exact .inr ⟨hxy.tail hyp, .refl⟩
        · exact .inl hs
        · exact .inr ⟨hxs, hsy.tail hyp⟩
    rwa [hsame]

/-- Exchange what is below some nodes, none of which is above another one. -/
theorem replace (h : Fills up ok a C) (hup : Relator.RightUnique up)
    (hacc : Acc (fun p s => up s p) a) {T : Set α} (hT : T ⊆ C)
    (hanti : ∀ t ∈ T, ∀ t' ∈ T, ReflTransGen up t t' → t = t') {F : α → Set α}
    (hF : ∀ t ∈ T, Fills up ok t (F t)) :
    Fills up ok a {s | (s ∈ C ∧ ∀ t ∈ T, ReflTransGen up s t → s = t) ∨ ∃ t ∈ T, s ∈ F t} where
  top_mem := .inl ⟨h.top_mem, fun t ht hat => hacc.antisymm hat (h.within t (hT ht))⟩
  within := by
    rintro s (⟨hs, _⟩ | ⟨t, ht, hs⟩)
    · exact h.within s hs
    · exact ((hF t ht).within s hs).trans (h.within t (hT ht))
  up_mem := by
    -- what a node of the old covering that stays has above it stays as well
    have hstay : ∀ s ∈ C, s ≠ a → (∀ t ∈ T, ReflTransGen up s t → s = t) → ∀ p, up s p →
        p ∈ C ∧ ∀ t ∈ T, ReflTransGen up p t → p = t := by
      intro s hs hne hfree p hp
      refine ⟨h.up_mem s hs hne p hp, fun t ht hpt => ?_⟩
      obtain rfl := hfree t ht (.head hp hpt)
      exact absurd hpt ((Acc.of_within hup hacc (h.within s hs)).not_within hp)
    rintro s (⟨hs, hfree⟩ | ⟨t, ht, hs⟩) hne p hp
    · exact .inl (hstay s hs hne hfree p hp)
    · by_cases hst : s = t
      · subst hst
        exact .inl (hstay s (hT ht) hne (fun t' ht' hst' => hanti s ht t' ht' hst') p hp)
      · exact .inr ⟨t, ht, (hF t ht).up_mem s hs hst p hp⟩
  ok := by
    have hends : ∀ s, ReflTransGen up s a → Acc (fun p s => up s p) s := fun s hs => Acc.of_within hup hacc hs
    intro s hs
    by_cases hin : ∃ t ∈ T, s ∈ F t
    · -- inside a part that has been exchanged, only the new choice counts
      obtain ⟨t, ht, hst⟩ := hin
      have hwithin := (hF t ht).within s hst
      have hsame : {k | ((k ∈ C ∧ ∀ t ∈ T, ReflTransGen up k t → k = t) ∨ ∃ t ∈ T, k ∈ F t) ∧
          up k s} = {k | k ∈ F t ∧ up k s} := by
        ext k
        refine ⟨?_, fun hk => ⟨.inr ⟨t, ht, hk.1⟩, hk.2⟩⟩
        rintro ⟨⟨_, hfree⟩ | ⟨t', ht', hkt'⟩, hks⟩
        · obtain rfl := hfree t ht (.head hks hwithin)
          exact absurd hwithin ((hends k (h.within k (hT ht))).not_within hks)
        · have hk' := (hF t' ht').within k hkt'
          obtain htt | htt := ReflTransGen.total_of_right_unique hup (.head hks hwithin) hk'
          · obtain rfl := hanti t ht t' ht' htt
            exact ⟨hkt', hks⟩
          · obtain rfl := hanti t' ht' t ht htt
            exact ⟨hkt', hks⟩
      show ok s {k | ((k ∈ C ∧ ∀ t ∈ T, ReflTransGen up k t → k = t) ∨ ∃ t ∈ T, k ∈ F t) ∧ up k s}
      rw [hsame]
      exact (hF t ht).ok s hst
    · -- elsewhere the children are the old ones
      obtain ⟨hsC, hfree⟩ : s ∈ C ∧ ∀ t ∈ T, ReflTransGen up s t → s = t := hs.resolve_right hin
      have hout : ∀ t ∈ T, ¬ ReflTransGen up s t := by
        intro t ht hst
        obtain rfl := hfree t ht hst
        exact hin ⟨s, ht, (hF s ht).top_mem⟩
      have hsame : {k | ((k ∈ C ∧ ∀ t ∈ T, ReflTransGen up k t → k = t) ∨ ∃ t ∈ T, k ∈ F t) ∧
          up k s} = {k | k ∈ C ∧ up k s} := by
        ext k
        constructor
        · rintro ⟨⟨hk, _⟩ | ⟨t, ht, hkt⟩, hks⟩
          · exact ⟨hk, hks⟩
          · by_cases hne : k = t
            · exact ⟨hne ▸ hT ht, hks⟩
            · exact absurd (((hF t ht).within k hkt).of_up hup hne hks) (hout t ht)
        · rintro ⟨hk, hks⟩
          refine ⟨.inl ⟨hk, fun t ht hkt => ?_⟩, hks⟩
          by_contra hne
          exact hout t ht (hkt.of_up hup hne hks)
      show ok s {k | ((k ∈ C ∧ ∀ t ∈ T, ReflTransGen up k t → k = t) ∨ ∃ t ∈ T, k ∈ F t) ∧ up k s}
      rw [hsame]
      exact h.ok s hsC

end Fills

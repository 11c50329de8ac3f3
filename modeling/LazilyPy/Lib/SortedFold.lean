import Mathlib.Data.List.Perm.Basic
import Mathlib.Order.Defs.PartialOrder

/-!
# Folds over sorted lists

A fold whose list is sorted before does not depend on the order that the list had, but for elements that
the sort does not tell apart. If these commute, the result is one; and they need commute only from what
the elements before them have come to.
-/

open List

variable {α σ τ : Type} {r : α → α → Prop} [DecidableRel r]

/-- What comes before an element of a sorted list comes first. -/
theorem filter_before_append (htrans : ∀ a b c, r a b → r b c → r a c) {l : List α} (hl : l.Pairwise r) (x : α) :
    l.filter (fun a => ¬ r x a) ++ l.filter (fun a => r x a) = l := by
  induction l with
  | nil => rfl
  | cons a l ih =>
    obtain ⟨ha, hl⟩ := pairwise_cons.mp hl
    by_cases hxa : r x a
    · have hall : ∀ b ∈ l, r x b := fun b hb => htrans x a b hxa (ha b hb)
      have hrest : l.filter (fun a => r x a) = l := by
        simpa using hall
      simpa [hxa, hrest] using hall
    · simpa [hxa] using ih hl

variable {f : σ → α → σ} {m : σ → τ} [Preorder τ]

theorem le_foldl (hle : ∀ z a, m z ≤ m (f z a)) (z : σ) (l : List α) : m z ≤ m (l.foldl f z) := by
  induction l generalizing z with
  | nil => exact le_refl _
  | cons a l ih => exact le_trans (hle z a) (ih (f z a))

omit [DecidableRel r] in
/-- An element that commutes with those before it may come first. -/
theorem foldl_move (hle : ∀ z a, m z ≤ m (f z a)) {u v : List α} {a : α} {z : σ}
    (hcomm : ∀ b ∈ u, ∀ w, m z ≤ m w → f (f w b) a = f (f w a) b) :
    (u ++ a :: v).foldl f z = (u ++ v).foldl f (f z a) := by
  induction u generalizing z with
  | nil => rfl
  | cons b u ih =>
    have hrest := ih (z := f z b) fun c hc w hw =>
      hcomm c (mem_cons_of_mem _ hc) w (le_trans (hle z b) hw)
    rw [cons_append, foldl_cons, hrest, hcomm b mem_cons_self z (le_refl _), cons_append, foldl_cons]

/-- Folds over two sorted lists of the same elements are equal, if elements that are not told apart
commute from where those before them lead. -/
theorem foldl_eq_of_sorted (hrefl : ∀ a, r a a) (htrans : ∀ a b c, r a b → r b c → r a c)
    (hle : ∀ z a, m z ≤ m (f z a)) {l l' : List α} {z : σ} (hp : l.Perm l') (hl : l.Pairwise r)
    (hl' : l'.Pairwise r)
    (hcomm : ∀ a ∈ l, ∀ b ∈ l, r a b → r b a → ∀ w,
      m ((l.filter fun c => ¬ r a c).foldl f z) ≤ m w → f (f w b) a = f (f w a) b) :
    l.foldl f z = l'.foldl f z := by
  induction l generalizing z l' with
  | nil => rw [hp.nil_eq]
  | cons a l ih =>
    obtain ⟨ha, hl⟩ := pairwise_cons.mp hl
    obtain ⟨u, v, rfl⟩ := append_of_mem (hp.subset mem_cons_self)
    obtain ⟨hu, hv, huv⟩ := pairwise_append.mp hl'
    have hrest : l.Perm (u ++ v) := perm_cons a |>.mp (hp.trans perm_middle)
    have hmem : ∀ b ∈ u, b ∈ l := fun b hb => hrest.symm.subset (mem_append_left _ hb)
    -- nothing comes before the first element, so what is tied with it commutes from the start
    have hfirst : ∀ b, r b a → ((a :: l).filter fun c => ¬ r b c) = [] := by
      intro b hba
      refine filter_eq_nil_iff.mpr fun c hc => ?_
      obtain rfl | hc := mem_cons.mp hc
      · simpa using hba
      · simpa using htrans b a c hba (ha c hc)
    rw [foldl_move hle fun b hb w hw => ?_, foldl_cons]
    · refine ih hrest hl ?_ fun b hb c hc hbc hcb w hw => ?_
      · exact pairwise_append.mpr ⟨hu, (pairwise_cons.mp hv).2, fun x hx y hy => huv x hx y (mem_cons_of_mem _ hy)⟩
      · refine hcomm b (mem_cons_of_mem _ hb) c (mem_cons_of_mem _ hc) hbc hcb w ?_
        by_cases hba : r b a
        · rw [hfirst b hba, foldl_nil]
          exact le_trans (hle z a) (le_trans (le_foldl hle _ _) hw)
        · rwa [filter_cons_of_pos (by simpa using hba), foldl_cons]
    · refine hcomm a mem_cons_self b (mem_cons_of_mem _ (hmem b hb)) (ha b (hmem b hb)) (huv b hb a mem_cons_self) w ?_
      rwa [hfirst a (hrefl a), foldl_nil]

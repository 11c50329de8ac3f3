import Mathlib.Data.Finset.Card

/-!
# Searches that remember

A search that follows the successors of a node, and turns back at nodes that it has seen. Over finitely
many nodes it comes through all that can be reached, whether there are cycles or not.
-/

open List

variable {α : Type}

theorem subset_foldl {f : List α → α → List α} (hf : ∀ seen b, seen ⊆ f seen b) (l seen : List α) :
    seen ⊆ l.foldl f seen := by
  induction l generalizing seen with
  | nil => exact Subset.refl _
  | cons b l ih => exact Subset.trans (hf seen b) (ih (f seen b))

variable [DecidableEq α]

def search (next : α → List α) : ℕ → α → List α → List α
  | 0, _, seen => seen
  | n + 1, a, seen =>
    if a ∈ seen then seen else (next a).foldl (fun seen b => search next n b seen) (a :: seen)

variable {next : α → List α} {n : ℕ} {a b : α} {seen : List α}

theorem subset_search (next : α → List α) (n : ℕ) (a : α) (seen : List α) : seen ⊆ search next n a seen := by
  induction n generalizing a seen with
  | zero => exact Subset.refl _
  | succ n ih =>
    rw [search]
    split
    · exact Subset.refl _
    · refine Subset.trans (subset_cons_self a seen) ?_
      exact subset_foldl (fun seen b => ih b seen) _ _

/-- What a search sees can be reached, or it has been seen before. -/
theorem reach_of_mem_search (h : b ∈ search next n a seen) :
    b ∈ seen ∨ Relation.ReflTransGen (fun a b => b ∈ next a) a b := by
  induction n generalizing a seen with
  | zero => exact .inl h
  | succ n ih =>
    rw [search] at h
    split at h
    · exact .inl h
    · have hfold (l : List α) (seen : List α) (hl : ∀ c ∈ l, c ∈ next a)
          (hb : b ∈ l.foldl (fun seen c => search next n c seen) seen) :
          b ∈ seen ∨ Relation.ReflTransGen (fun a b => b ∈ next a) a b := by
        induction l generalizing seen with
        | nil => exact .inl hb
        | cons c l ihl =>
          obtain hb | hb := ihl (search next n c seen) (fun c hc => hl c (mem_cons_of_mem _ hc)) hb
          · exact (ih hb).imp_right fun hreach => .head (hl c mem_cons_self) hreach
          · exact .inr hb
      obtain hb | hb := hfold (next a) (a :: seen) (fun _ hc => hc) h
      · obtain rfl | hb := mem_cons.mp hb
        · exact .inr .refl
        · exact .inl hb
      · exact .inr hb

/-- What a search that is deep enough sees, it also sees the successors of. -/
theorem search_closed {nodes : Finset α} (hclosed : ∀ a ∈ nodes, ∀ b ∈ next a, b ∈ nodes)
    (ha : a ∈ nodes) (hn : (nodes \ seen.toFinset).card < n) :
    a ∈ search next n a seen ∧ ∀ b ∈ search next n a seen, b ∉ seen → ∀ c ∈ next b, c ∈ search next n a seen := by
  induction n generalizing a seen with
  | zero => omega
  | succ n ih =>
    rw [search]
    split
    · next hseen => exact ⟨hseen, fun b hb hnot => absurd hb hnot⟩
    next hnew =>
      -- the search from the successors, one after another
      have hfold (l : List α) (seen : List α) (hl : ∀ c ∈ l, c ∈ nodes) (hcard : (nodes \ seen.toFinset).card < n) :
          (∀ c ∈ l, c ∈ l.foldl (fun seen c => search next n c seen) seen) ∧
            ∀ b ∈ l.foldl (fun seen c => search next n c seen) seen, b ∉ seen →
              ∀ c ∈ next b, c ∈ l.foldl (fun seen c => search next n c seen) seen := by
        induction l generalizing seen with
        | nil => exact ⟨fun _ hc => absurd hc not_mem_nil, fun b hb hnot => absurd hb hnot⟩
        | cons c l ihl =>
          have hmono := subset_search next n c seen
          have hle : (nodes \ (search next n c seen).toFinset).card ≤ (nodes \ seen.toFinset).card := by
            refine Finset.card_le_card (Finset.sdiff_subset_sdiff (Finset.Subset.refl _) ?_)
            intro x hx
            rw [mem_toFinset] at hx ⊢
            exact hmono hx
          obtain ⟨hmem, hnext⟩ := ihl (search next n c seen) (fun c hc => hl c (mem_cons_of_mem _ hc)) (by omega)
          obtain ⟨hself, hstep⟩ := ih (hl c mem_cons_self) hcard
          have hsub : search next n c seen ⊆ l.foldl (fun seen c => search next n c seen) (search next n c seen) :=
            subset_foldl (fun seen c => subset_search next n c seen) _ _
          refine ⟨fun x hx => ?_, fun b hb hnot x hx => ?_⟩
          · obtain rfl | hx := mem_cons.mp hx
            · exact hsub hself
            · exact hmem x hx
          · by_cases hb' : b ∈ search next n c seen
            · exact hsub (hstep b hb' hnot x hx)
            · exact hnext b hb hb' x hx
      have hcard : (nodes \ (a :: seen).toFinset).card < n := by
        have hlt : (nodes \ (a :: seen).toFinset).card < (nodes \ seen.toFinset).card := by
          refine Finset.card_lt_card (Finset.ssubset_iff_of_subset ?_ |>.mpr ⟨a, ?_, ?_⟩)
          · rw [toFinset_cons]
            exact Finset.sdiff_subset_sdiff (Finset.Subset.refl _) (Finset.subset_insert _ _)
          · rw [Finset.mem_sdiff, mem_toFinset]
            exact ⟨ha, hnew⟩
          · simp
        omega
      obtain ⟨hmem, hnext⟩ := hfold (next a) (a :: seen) (hclosed a ha) hcard
      have hsub : a :: seen ⊆ (next a).foldl (fun seen c => search next n c seen) (a :: seen) :=
        subset_foldl (fun seen c => subset_search next n c seen) _ _
      refine ⟨hsub mem_cons_self, fun b hb hnot c hc => ?_⟩
      by_cases hba : b = a
      · rw [hba] at hc
        exact hmem c hc
      · exact hnext b hb (not_mem_cons_of_ne_of_not_mem hba hnot) c hc

/-- A search from a node sees what can be reached. -/
theorem mem_search_iff {nodes : Finset α} (hclosed : ∀ a ∈ nodes, ∀ b ∈ next a, b ∈ nodes)
    (ha : a ∈ nodes) (hn : nodes.card < n) :
    b ∈ search next n a [] ↔ Relation.ReflTransGen (fun a b => b ∈ next a) a b := by
  constructor
  · intro h
    exact (reach_of_mem_search h).resolve_left not_mem_nil
  · intro h
    have hcard : (nodes \ ([] : List α).toFinset).card < n := by
      rwa [toFinset_nil, Finset.sdiff_empty]
    obtain ⟨hself, hstep⟩ := search_closed hclosed ha hcard
    induction h with
    | refl => exact hself
    | tail _ hnext ih => exact hstep _ ih not_mem_nil _ hnext

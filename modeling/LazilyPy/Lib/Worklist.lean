import Mathlib.Data.Finset.Card

/-!
# Searches with a list of work

A search that keeps a stack of the nodes whose successors it has not looked at. Over finitely many nodes
it comes through what can be reached from where it starts, and through no node twice.
-/

open List

variable {α : Type} [DecidableEq α]

/-- Visit a node, unless it has been visited: it goes on the stack. -/
def visitOnce (st : List α × List α) (b : α) : List α × List α :=
  if b ∈ st.2 then st else (b :: st.1, st.2 ++ [b])

/-- What has been visited after at most so many nodes of the stack. -/
def explore (next : α → List α) : ℕ → List α → List α → List α
  | 0, _, visited => visited
  | _ + 1, [], visited => visited
  | n + 1, a :: frontier, visited =>
    let st := (next a).foldl visitOnce (frontier, visited)
    explore next n st.1 st.2

variable {next : α → List α} {n : ℕ} {a b : α} {frontier visited start l : List α}

/-- What is new among some nodes goes on the stack, and it has been visited then. -/
theorem foldl_visitOnce (l frontier visited : List α) : ∃ new : List α,
    l.foldl visitOnce (frontier, visited) = (new.reverse ++ frontier, visited ++ new) ∧
      new.Nodup ∧ (∀ b ∈ new, b ∈ l ∧ b ∉ visited) ∧ ∀ b ∈ l, b ∈ visited ++ new := by
  induction l generalizing frontier visited with
  | nil => exact ⟨[], by simp, nodup_nil, by simp, by simp⟩
  | cons b l ih =>
    rw [foldl_cons, visitOnce]
    split
    next hseen =>
      obtain ⟨new, heq, hnodup, hnew, hall⟩ := ih frontier visited
      refine ⟨new, heq, hnodup, fun c hc => ⟨mem_cons_of_mem _ (hnew c hc).1, (hnew c hc).2⟩, ?_⟩
      rw [forall_mem_cons]
      exact ⟨mem_append_left _ hseen, hall⟩
    next hnot =>
      obtain ⟨new, heq, hnodup, hnew, hall⟩ := ih (b :: frontier) (visited ++ [b])
      refine ⟨b :: new, ?_, ?_, ?_, ?_⟩
      · rw [heq, reverse_cons]
        simp
      · exact nodup_cons.mpr ⟨fun hb => (hnew b hb).2 (by simp), hnodup⟩
      · rw [forall_mem_cons]
        refine ⟨⟨mem_cons_self, hnot⟩, fun c hc => ⟨mem_cons_of_mem _ (hnew c hc).1, ?_⟩⟩
        exact fun hmem => (hnew c hc).2 (mem_append_left _ hmem)
      · rw [append_cons, forall_mem_cons]
        exact ⟨by simp, hall⟩

/-- A search adds to what has been visited. -/
theorem explore_eq_append (next : α → List α) (n : ℕ) (frontier visited : List α) :
    ∃ new, explore next n frontier visited = visited ++ new := by
  induction n generalizing frontier visited with
  | zero => exact ⟨[], by rw [explore, append_nil]⟩
  | succ n ih =>
    cases frontier with
    | nil => exact ⟨[], by rw [explore, append_nil]⟩
    | cons a frontier =>
      obtain ⟨new, heq, -⟩ := foldl_visitOnce (next a) frontier visited
      rw [explore, heq]
      obtain ⟨rest, hrest⟩ := ih (new.reverse ++ frontier) (visited ++ new)
      exact ⟨new ++ rest, by rw [hrest, append_assoc]⟩

theorem nodup_explore (h : visited.Nodup) : (explore next n frontier visited).Nodup := by
  induction n generalizing frontier visited with
  | zero => exact h
  | succ n ih =>
    cases frontier with
    | nil => exact h
    | cons a frontier =>
      obtain ⟨new, heq, hnodup, hnew, -⟩ := foldl_visitOnce (next a) frontier visited
      rw [explore, heq]
      refine ih (h.append hnodup ?_)
      exact fun b hb hb' => (hnew b hb').2 hb

/-- What a search visits can be reached. -/
theorem reach_of_mem_explore (hsub : frontier ⊆ visited) (h : b ∈ explore next n frontier visited) :
    ∃ a ∈ visited, Relation.ReflTransGen (fun a b => b ∈ next a) a b := by
  induction n generalizing frontier visited with
  | zero => exact ⟨b, h, .refl⟩
  | succ n ih =>
    cases frontier with
    | nil => exact ⟨b, h, .refl⟩
    | cons c frontier =>
      obtain ⟨new, heq, -, hnew, -⟩ := foldl_visitOnce (next c) frontier visited
      rw [explore, heq] at h
      have hsub' : new.reverse ++ frontier ⊆ visited ++ new := by
        intro x hx
        obtain hx | hx := mem_append.mp hx
        · exact mem_append_right _ (mem_reverse.mp hx)
        · exact mem_append_left _ (hsub (mem_cons_of_mem _ hx))
      obtain ⟨a, ha, hreach⟩ := ih hsub' h
      obtain ha | ha := mem_append.mp ha
      · exact ⟨a, ha, hreach⟩
      · exact ⟨c, hsub mem_cons_self, .head (hnew a ha).1 hreach⟩

variable {nodes : Finset α}

section

variable (hclosed : ∀ a, ∀ b ∈ next a, b ∈ nodes)

include hclosed

/-- A search that is long enough also visits the successors of what it visits. -/
theorem explore_closed (hvisited : ∀ a ∈ visited, a ∉ frontier → ∀ b ∈ next a, b ∈ visited)
    (hn : (nodes \ visited.toFinset).card + frontier.length < n) (ha : a ∈ explore next n frontier visited)
    (hb : b ∈ next a) : b ∈ explore next n frontier visited := by
  induction n generalizing frontier visited with
  | zero => omega
  | succ n ih =>
    cases frontier with
    | nil => exact hvisited a ha not_mem_nil b hb
    | cons c frontier =>
      obtain ⟨new, heq, hnodup, hnew, hall⟩ := foldl_visitOnce (next c) frontier visited
      rw [explore, heq] at ha ⊢
      refine ih (fun x hx hxf y hy => ?_) ?_ ha
      · rw [mem_append, mem_reverse, not_or] at hxf
        obtain hx | hx := mem_append.mp hx
        · by_cases hxc : x = c
          · exact hall y (hxc ▸ hy)
          · refine mem_append_left _ (hvisited x hx ?_ y hy)
            exact fun hmem => (mem_cons.mp hmem).elim hxc hxf.2
        · exact absurd hx hxf.1
      · -- every node that goes on the stack is one less to visit
        have hsplit : new.toFinset ∪ (nodes \ (visited ++ new).toFinset) ⊆ nodes \ visited.toFinset := by
          intro x hx
          obtain hx | hx := Finset.mem_union.mp hx
          · have hx := hnew x (mem_toFinset.mp hx)
            exact Finset.mem_sdiff.mpr ⟨hclosed c x hx.1, fun hv => hx.2 (mem_toFinset.mp hv)⟩
          · obtain ⟨hnode, hnot⟩ := Finset.mem_sdiff.mp hx
            refine Finset.mem_sdiff.mpr ⟨hnode, fun hv => hnot ?_⟩
            exact mem_toFinset.mpr (mem_append_left _ (mem_toFinset.mp hv))
        have hdisjoint : Disjoint new.toFinset (nodes \ (visited ++ new).toFinset) := by
          refine Finset.disjoint_left.mpr fun x hx hx' => (Finset.mem_sdiff.mp hx').2 ?_
          exact mem_toFinset.mpr (mem_append_right _ (mem_toFinset.mp hx))
        have hcard := Finset.card_le_card hsplit
        rw [Finset.card_union_of_disjoint hdisjoint, toFinset_card_of_nodup hnodup] at hcard
        show (nodes \ (visited ++ new).toFinset).card + (new.reverse ++ frontier).length < n
        rw [length_append, length_reverse]
        rw [length_cons] at hn
        omega

/-- A search that is long enough visits what can be reached from where it starts. -/
theorem mem_explore_iff (hn : nodes.card + start.length < n) : b ∈ explore next n start start ↔
      ∃ a ∈ start, Relation.ReflTransGen (fun a b => b ∈ next a) a b := by
  constructor
  · exact reach_of_mem_explore (Subset.refl _)
  · rintro ⟨a, ha, hreach⟩
    have hcard : (nodes \ start.toFinset).card + start.length < n := by
      have hle : (nodes \ start.toFinset).card ≤ nodes.card := Finset.card_le_card Finset.sdiff_subset
      omega
    induction hreach with
    | refl =>
      obtain ⟨new, heq⟩ := explore_eq_append next n start start
      rw [heq]
      exact mem_append_left _ ha
    | tail _ hnext ih => exact explore_closed hclosed (fun x hx hnot => absurd hx hnot) hcard ih hnext

/-- A search from one node, without the node itself. -/
theorem mem_tail_explore_iff (hn : nodes.card + 1 < n) : b ∈ (explore next n [a] [a]).tail ↔
      b ≠ a ∧ Relation.ReflTransGen (fun a b => b ∈ next a) a b := by
  have hmem : b ∈ explore next n [a] [a] ↔ _ := mem_explore_iff hclosed (by simpa using hn)
  have hnodup : (explore next n [a] [a]).Nodup := nodup_explore (nodup_singleton a)
  obtain ⟨new, heq⟩ := explore_eq_append next n [a] [a]
  rw [heq, singleton_append] at hmem hnodup ⊢
  rw [tail_cons]
  constructor
  · intro hb
    refine ⟨fun hba => (nodup_cons.mp hnodup).1 (hba ▸ hb), ?_⟩
    obtain ⟨x, hx, hreach⟩ := hmem.mp (mem_cons_of_mem _ hb)
    rwa [mem_singleton.mp hx] at hreach
  · rintro ⟨hne, hreach⟩
    exact (mem_cons.mp (hmem.mpr ⟨a, mem_singleton_self a, hreach⟩)).resolve_left hne

end

import Mathlib.Data.Finset.Card
import LazilyPy.Lib.MapM

/-!
# Searches that end

A search that follows the successors of a node ends if no path from it is infinite. Over finitely many
nodes it then ends within as many steps as there are nodes, so this much fuel decides whether it ends.
-/

open List

variable {α : Type}

/-- Every path from a node ends after fewer than this many steps. -/
def Ends (next : α → List α) : ℕ → α → Prop
  | 0, _ => False
  | n + 1, a => ∀ b ∈ next a, Ends next n b

/-- The nodes that a search comes through, each of them before what follows from it. -/
def preorder (next : α → List α) : ℕ → α → Option (List α)
  | 0, _ => none
  | n + 1, a => ((next a).mapM (preorder next n)).map fun l => a :: l.flatten

variable {next : α → List α}

variable {n : ℕ} {a b : α} {r : α → α → Prop} {nodes : Finset α}

theorem preorder_isSome : (preorder next n a).isSome ↔ Ends next n a := by
  induction n generalizing a with
  | zero => simp [preorder, Ends]
  | succ n ih =>
    rw [preorder, Option.isSome_map, mapM_isSome]
    exact forall₂_congr fun b _ => ih

theorem mem_preorder {l : List α} (h : preorder next n a = some l) :
    b ∈ l ↔ Relation.ReflTransGen (fun a b => b ∈ next a) a b := by
  induction n generalizing a l with
  | zero => cases h
  | succ n ih =>
    obtain ⟨ls, hls, rfl⟩ := Option.map_eq_some_iff.mp h
    rw [Relation.ReflTransGen.cases_head_iff, mem_cons, mem_flatten]
    refine or_congr eq_comm ⟨?_, ?_⟩
    · rintro ⟨l, hl, hb⟩
      obtain ⟨c, hc, hcl⟩ := exists_of_mem_mapM hls hl
      exact ⟨c, hc, (ih hcl).mp hb⟩
    · rintro ⟨c, hc, hcb⟩
      obtain ⟨l, hl, hcl⟩ := mem_mapM_of_mem hls hc
      exact ⟨l, hl, (ih hcl).mpr hcb⟩

/-- A search comes through no node twice, if no node is reached from what follows it, nor any node from
two that follow the same. -/
theorem preorder_nodup {l : List α} (h : preorder next n a = some l)
    (hself : ∀ x ∈ l, ∀ c ∈ next x, ¬ Relation.ReflTransGen (fun a b => b ∈ next a) c x)
    (hnext : ∀ x ∈ l, (next x).Pairwise fun c c' =>
      ∀ y, Relation.ReflTransGen (fun a b => b ∈ next a) c y →
        ¬ Relation.ReflTransGen (fun a b => b ∈ next a) c' y) : l.Nodup := by
  induction n generalizing a l with
  | zero => cases h
  | succ n ih =>
    obtain ⟨ls, hls, rfl⟩ := Option.map_eq_some_iff.mp h
    have hmem : ∀ l ∈ ls, ∀ x ∈ l, x ∈ a :: ls.flatten := fun l hl x hx => mem_cons_of_mem _ (mem_flatten_of_mem hl hx)
    refine nodup_cons.mpr ⟨fun ha => ?_, nodup_flatten.mpr ⟨fun l hl => ?_, ?_⟩⟩
    · obtain ⟨l, hl, hal⟩ := mem_flatten.mp ha
      obtain ⟨c, hc, hcl⟩ := exists_of_mem_mapM hls hl
      exact hself a mem_cons_self c hc ((mem_preorder hcl).mp hal)
    · obtain ⟨c, hc, hcl⟩ := exists_of_mem_mapM hls hl
      exact ih hcl (fun x hx => hself x (hmem l hl x hx)) fun x hx => hnext x (hmem l hl x hx)
    · refine pairwise_mapM hls (hnext a mem_cons_self) fun c c' l l' hcc hc hc' y hy hy' => ?_
      exact hcc y ((mem_preorder hc).mp hy) ((mem_preorder hc').mp hy')

theorem Ends.acc (h : Ends next n a) : Acc (fun b a => b ∈ next a) a := by
  induction n generalizing a with
  | zero => exact h.elim
  | succ n ih => exact Acc.intro a fun b hb => ih (h b hb)

/-- A node from which every path ends is not on a cycle. -/
theorem Acc.not_transGen (h : Acc r a) : ¬ Relation.TransGen r a a := by
  induction h with
  | intro a _ ih =>
    intro hcycle
    obtain ⟨b, hab, hrest⟩ := Relation.TransGen.tail'_iff.mp hcycle
    exact ih b hrest (Relation.TransGen.head' hrest hab)

theorem Acc.of_reach (h : Acc (fun b a => r a b) a) (hab : Relation.ReflTransGen r a b) :
    Acc (fun b a => r a b) b := by
  induction hab with
  | refl => exact h
  | tail _ hstep ih => exact ih.inv hstep

/-- Two nodes that can be reached from one another are one, if the paths from it end. -/
theorem Acc.antisymm (h : Acc (fun b a => r a b) a) (hab : Relation.ReflTransGen r a b)
    (hba : Relation.ReflTransGen r b a) : a = b := by
  obtain rfl | hab := Relation.reflTransGen_iff_eq_or_transGen.mp hab
  · rfl
  · have hcycle : Relation.TransGen r a a := hab.trans_left hba
    exact absurd (Relation.transGen_swap.mpr hcycle) h.not_transGen

variable [DecidableEq α]

section

variable (hclosed : ∀ a ∈ nodes, ∀ b ∈ next a, b ∈ nodes)

include hclosed

/-- A search that has come through the nodes of `seen` still has the others ahead of it. -/
theorem ends_of_acc (hacc : Acc (fun b a => b ∈ next a) a) (ha : a ∈ nodes) {seen : Finset α}
    (hseen : ∀ s ∈ seen, Relation.TransGen (fun b a => b ∈ next a) a s) :
    Ends next (nodes \ seen).card a := by
  induction hacc generalizing seen with
  | intro a hacc ih =>
    have hnew : a ∉ seen := fun h => (Acc.intro a hacc).not_transGen (hseen a h)
    have hcard : (nodes \ seen).card = (nodes \ insert a seen).card + 1 := by
      have hsplit : nodes \ seen = insert a (nodes \ insert a seen) := by
        ext b
        by_cases hb : b = a
        · subst hb
          simp [ha, hnew]
        · simp [hb]
      rw [hsplit, Finset.card_insert_of_notMem (by simp)]
    rw [hcard]
    intro b hb
    refine ih b hb (hclosed a ha b hb) fun s hs => ?_
    obtain rfl | hs := Finset.mem_insert.mp hs
    · exact .single hb
    · exact .head hb (hseen s hs)

/-- A search over finitely many nodes ends exactly if it ends within as many steps. -/
theorem acc_iff_ends (ha : a ∈ nodes) :
    Acc (fun b a => b ∈ next a) a ↔ Ends next nodes.card a := by
  constructor
  · intro hacc
    have hends : Ends next (nodes \ ∅).card a :=
      ends_of_acc hclosed hacc ha fun s hs => absurd hs (Finset.notMem_empty s)
    simpa using hends
  · exact Ends.acc

/-- A search over finitely many nodes ends if it cannot come back to a node. -/
theorem ends_of_acyclic (hacyclic : ∀ a, ¬ Relation.TransGen (fun a b => b ∈ next a) a a) (ha : a ∈ nodes)
    {seen : Finset α} (hseen : ∀ s ∈ seen, Relation.TransGen (fun a b => b ∈ next a) s a)
    (hn : (nodes \ seen).card ≤ n) :
    Ends next n a := by
  have hnew : a ∉ seen := fun h => hacyclic a (hseen a h)
  induction n generalizing a seen with
  | zero =>
    have hempty : nodes \ seen = ∅ := Finset.card_eq_zero.mp (by omega)
    exact absurd (Finset.mem_sdiff.mpr ⟨ha, hnew⟩) (by rw [hempty]; exact Finset.notMem_empty a)
  | succ n ih =>
    intro b hb
    have hseen' : ∀ s ∈ insert a seen, Relation.TransGen (fun a b => b ∈ next a) s b := by
      intro s hs
      obtain rfl | hs := Finset.mem_insert.mp hs
      · exact .single hb
      · exact (hseen s hs).tail hb
    have hlt : (nodes \ insert a seen).card < (nodes \ seen).card := by
      refine Finset.card_lt_card ((Finset.ssubset_iff_of_subset ?_).mpr ⟨a, ?_, ?_⟩)
      · exact Finset.sdiff_subset_sdiff (Finset.Subset.refl _) (Finset.subset_insert _ _)
      · exact Finset.mem_sdiff.mpr ⟨ha, hnew⟩
      · simp
    exact ih (hclosed a ha b hb) hseen' (by omega) fun h => hacyclic b (hseen' b h)

end

import Mathlib.Data.List.Forall2
import Mathlib.Order.Bounds.Basic

/-!
# Merging

A merge tree is a way of combining states pairwise. Where an operation maps to the join of a semilattice, what a tree
evaluates to is determined by the set of its leaves: it is their least upper bound.

`mergeAll f l` merges the elements of `l` from the left. When `f` is associative, elements may be merged with one
another before they join the rest.
-/

inductive MergeTree (σ : Type) where
  | leaf (s : σ)
  | node (l r : MergeTree σ)

namespace MergeTree

open List

variable {σ : Type}

def eval (op : σ → σ → σ) : MergeTree σ → σ
  | leaf s => s
  | node l r => op (l.eval op) (r.eval op)

def leaves : MergeTree σ → List σ
  | leaf s => [s]
  | node l r => l.leaves ++ r.leaves

/-- A property of states that merging keeps holds of a tree if it holds of its leaves. -/
theorem eval_induction {op : σ → σ → σ} {p : σ → Prop} (hop : ∀ a b, p a → p b → p (op a b))
    {t : MergeTree σ} (h : ∀ s ∈ t.leaves, p s) : p (t.eval op) := by
  induction t with
  | leaf s => exact h s (mem_singleton_self s)
  | node l r ihl ihr =>
    exact hop _ _ (ihl fun s hs => h s (mem_append_left _ hs)) (ihr fun s hs => h s (mem_append_right _ hs))

variable {β : Type} [SemilatticeSup β] {f : σ → β} {op : σ → σ → σ}

/-- A tree evaluates to the least upper bound of its leaves. -/
theorem isLUB_eval (hop : ∀ a b, f (op a b) = f a ⊔ f b) (t : MergeTree σ) :
    IsLUB (f '' {s | s ∈ t.leaves}) (f (t.eval op)) := by
  induction t with
  | leaf s => simp [leaves, eval]
  | node l r ihl ihr =>
    have hsplit : f '' {s | s ∈ (node l r).leaves} = f '' {s | s ∈ l.leaves} ∪ f '' {s | s ∈ r.leaves} := by
      rw [← Set.image_union]
      congr 1
      ext s
      simp [leaves]
    rw [hsplit, eval, hop]
    exact ihl.union ihr

/-- Trees with the same leaves evaluate to the same join. -/
theorem eval_congr (hop : ∀ a b, f (op a b) = f a ⊔ f b) {t t' : MergeTree σ}
    (h : ∀ s, s ∈ t.leaves ↔ s ∈ t'.leaves) : f (t.eval op) = f (t'.eval op) := by
  refine (isLUB_eval hop t).unique ?_
  have hset : {s | s ∈ t.leaves} = {s | s ∈ t'.leaves} := Set.ext h
  rw [hset]
  exact isLUB_eval hop t'

end MergeTree

/-! ## Lists -/

variable {α : Type} {f : α → α → α}

def mergeOnto (f : α → α → α) : Option α → α → α
  | none, a => a
  | some w, a => f w a

def mergeAll (f : α → α → α) : List α → Option α
  | [] => none
  | a :: l => some (l.foldl f a)

theorem mergeAll_concat (l : List α) (a : α) : mergeAll f (l ++ [a]) = some (mergeOnto f (mergeAll f l) a) := by
  cases l with
  | nil => rfl
  | cons b l => simp [mergeAll, mergeOnto, List.foldl_append]

/-- What is merged into the last element is merged after it. -/
theorem mergeAll_mergeOnto {l : List α} (h : l = [] ∨ Std.Associative f) (o : Option α) (a : α) :
    mergeAll f (l ++ [mergeOnto f o a]) = some (mergeOnto f (mergeAll f (l ++ o.toList)) a) := by
  cases o with
  | none => rw [Option.toList_none, List.append_nil, mergeAll_concat]; rfl
  | some w =>
    rw [Option.toList_some, mergeAll_concat, mergeAll_concat]
    cases hl : mergeAll f l with
    | none => rfl
    | some x =>
      cases h with
      | inl hnil =>
        rw [hnil] at hl
        cases hl
      | inr hassoc => exact congrArg some (hassoc.assoc x w a).symm

theorem mergeAll_append (l l' : List α) (a : α) (h : mergeAll f l = some a) :
    mergeAll f (l ++ l') = some (l'.foldl f a) := by
  cases l with
  | nil => exact nomatch h
  | cons b l =>
    rw [List.cons_append, mergeAll, List.foldl_append]
    rw [Option.some.inj h]

section Associative

open List

variable [Std.Associative f]

theorem foldl_merge (a b : α) (l : List α) : l.foldl f (f a b) = f a (l.foldl f b) := by
  induction l generalizing b with
  | nil => rfl
  | cons c l ih =>
    have hassoc : f (f a b) c = f a (f b c) := Std.Associative.assoc a b c
    rw [foldl_cons, foldl_cons, hassoc, ih]

/-- To merge a list into a value is to merge its elements first. -/
theorem foldl_eq_mergeAll (a : α) (l : List α) : l.foldl f a = (mergeAll f l).elim a (f a) := by
  cases l with
  | nil => rfl
  | cons b l => exact foldl_merge a b l

/-- Groups may be merged first, each one that is not empty to one element. -/
theorem mergeAll_flatten {β : Type} {groups : List (List α)} {rows : List β} {g : β → α}
    (h : Forall₂ (fun group row => mergeAll f group = some (g row)) groups rows) :
    mergeAll f groups.flatten = mergeAll f (rows.map g) := by
  have hfold : ∀ (a : α) {groups : List (List α)} {rows : List β},
      Forall₂ (fun group row => mergeAll f group = some (g row)) groups rows →
      groups.flatten.foldl f a = (rows.map g).foldl f a := by
    intro a groups rows h
    induction h generalizing a with
    | nil => rfl
    | cons hgroup _ ih =>
      rw [flatten_cons, foldl_append, map_cons, foldl_cons, ← ih, foldl_eq_mergeAll a, hgroup]
      rfl
  cases h with
  | nil => rfl
  | cons hgroup hrest =>
    rw [flatten_cons, mergeAll_append _ _ _ hgroup, hfold _ hrest]
    rfl

end Associative

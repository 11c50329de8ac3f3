import Mathlib.Data.List.Perm.Basic

/-!
# Mapping a function that may fail
-/

variable {α β : Type} {f : α → Option β}

theorem mapM_eq_some {l : List α} {l' : List β} :
    l.mapM f = some l' ↔ List.Forall₂ (fun a b => f a = some b) l l' := by
  induction l generalizing l' with
  | nil => simp [eq_comm]
  | cons a l ih =>
    simp only [List.mapM_cons, Option.pure_def, Option.bind_eq_bind, Option.bind_eq_some_iff, Option.some.injEq]
    constructor
    · rintro ⟨b, hb, bs, hbs, rfl⟩
      exact .cons hb (ih.mp hbs)
    · rintro (_ | ⟨hb, hbs⟩)
      exact ⟨_, hb, _, ih.mpr hbs, rfl⟩

theorem mapM_isSome {l : List α} : (l.mapM f).isSome ↔ ∀ a ∈ l, (f a).isSome := by
  induction l with
  | nil => simp
  | cons a l ih =>
    rw [List.forall_mem_cons, ← ih, List.mapM_cons]
    cases f a with
    | none => simp
    | some b => cases l.mapM f <;> simp

/-- Every result is the result of an element. -/
theorem exists_of_mem_mapM {l : List α} {l' : List β} (h : l.mapM f = some l') {b : β}
    (hb : b ∈ l') : ∃ a ∈ l, f a = some b := by
  have hall := mapM_eq_some.mp h
  induction hall with
  | nil => cases hb
  | cons hab hrest ih =>
    obtain rfl | hb := List.mem_cons.mp hb
    · exact ⟨_, List.mem_cons_self, hab⟩
    · obtain ⟨a, ha, heq⟩ := ih (mapM_eq_some.mpr hrest) hb
      exact ⟨a, List.mem_cons_of_mem _ ha, heq⟩

/-- Every element has a result. -/
theorem mem_mapM_of_mem {l : List α} {l' : List β} (h : l.mapM f = some l') {a : α} (ha : a ∈ l) :
    ∃ b ∈ l', f a = some b := by
  have hall := mapM_eq_some.mp h
  induction hall with
  | nil => cases ha
  | cons hab hrest ih =>
    obtain rfl | ha := List.mem_cons.mp ha
    · exact ⟨_, List.mem_cons_self, hab⟩
    · obtain ⟨b, hb, heq⟩ := ih (mapM_eq_some.mpr hrest) ha
      exact ⟨b, List.mem_cons_of_mem _ hb, heq⟩

/-- What holds of any two elements gives what holds of any two results. -/
theorem pairwise_mapM {R : α → α → Prop} {S : β → β → Prop} {l : List α} {l' : List β}
    (h : l.mapM f = some l') (hl : l.Pairwise R)
    (hstep : ∀ a a' b b', R a a' → f a = some b → f a' = some b' → S b b') : l'.Pairwise S := by
  have hall := mapM_eq_some.mp h
  induction hall with
  | nil => exact .nil
  | cons hab hrest ih =>
    obtain ⟨hhead, htail⟩ := List.pairwise_cons.mp hl
    refine List.pairwise_cons.mpr ⟨fun b' hb' => ?_, ih (mapM_eq_some.mpr hrest) htail⟩
    obtain ⟨a', ha', hb'⟩ := exists_of_mem_mapM (mapM_eq_some.mpr hrest) hb'
    exact hstep _ a' _ b' (hhead a' ha') hab hb'

/-- The results of a permutation are a permutation of the results. -/
theorem perm_mapM {l l₁ : List α} {l' : List β} (hp : l.Perm l₁) (h : l.mapM f = some l') :
    ∃ l₁', l₁.mapM f = some l₁' ∧ l'.Perm l₁' := by
  obtain ⟨l₁', hall, hperm⟩ := List.perm_comp_forall₂ hp.symm (mapM_eq_some.mp h)
  exact ⟨l₁', mapM_eq_some.mpr hall, hperm.symm⟩

section

open List

variable {γ : Type} {R : α → γ → Prop} {R' : β → γ → Prop} {S : α → β → Prop} {l : List α}
  {l' : List β} {c c' : List γ}

/-- What holds of every result holds of all of them. -/
theorem forall_mem_of_forall₂ {P : γ → Prop} (h : Forall₂ R l c) (hP : ∀ x a, R x a → P a) : ∀ a ∈ c, P a := by
  induction h with
  | nil => simp
  | cons hx _ ih => exact forall_mem_cons.mpr ⟨hP _ _ hx, ih⟩

section

variable (h : Forall₂ R l c) (h' : Forall₂ R' l' c')
  (hiff : ∀ x ∈ l, ∀ y ∈ l', ∀ a b, R x a → R' y b → (a = b ↔ S x y))

include h h' hiff

/-- The results are the same if the elements are alike in pairs. -/
theorem eq_iff_forall₂ :
    c = c' ↔ Forall₂ S l l' := by
  induction h generalizing l' c' with
  | nil =>
    cases h' with
    | nil => exact ⟨fun _ => .nil, fun _ => rfl⟩
    | cons _ _ => exact ⟨fun heq => (nomatch heq), fun hall => (nomatch hall)⟩
  | @cons x a l c hx _ ih =>
    cases h' with
    | nil => exact ⟨fun heq => (nomatch heq), fun hall => (nomatch hall)⟩
    | @cons y b l' c' hy hrest =>
      have hhead := hiff x mem_cons_self y mem_cons_self a b hx hy
      have htail := ih hrest fun x hx y hy =>
        hiff x (mem_cons_of_mem _ hx) y (mem_cons_of_mem _ hy)
      rw [cons_eq_cons, forall₂_cons, hhead, htail]

/-- The results are a permutation if the elements are alike in pairs, in some order. -/
theorem perm_iff_forall₂ :
    c.Perm c' ↔ ∃ order, l'.Perm order ∧ Forall₂ S l order := by
  have hiffOf {order : List β} (hperm : l'.Perm order) :
      ∀ x ∈ l, ∀ y ∈ order, ∀ a b, R x a → R' y b → (a = b ↔ S x y) :=
    fun x hx y hy => hiff x hx y (hperm.mem_iff.mpr hy)
  constructor
  · intro hperm
    have hcomp : Relation.Comp (Forall₂ R') Perm l' c := ⟨c', h', hperm.symm⟩
    rw [forall₂_comp_perm_eq_perm_comp_forall₂] at hcomp
    obtain ⟨order, horder, hall⟩ := hcomp
    exact ⟨order, horder, (eq_iff_forall₂ h hall (hiffOf horder)).mp rfl⟩
  · rintro ⟨order, horder, hall⟩
    obtain ⟨c'', hc'', hperm⟩ := perm_comp_forall₂ horder.symm h'
    rw [(eq_iff_forall₂ h hc'' (hiffOf horder)).mpr hall]
    exact hperm

end

/-- A relation to which another one of the entries of a list leads. -/
theorem forall₂_imp_of_mem {S' : α → β → Prop} (h : Forall₂ S l l')
    (himp : ∀ x ∈ l, ∀ y, S x y → S' x y) : Forall₂ S' l l' := by
  induction h with
  | nil => exact .nil
  | cons hx _ ih =>
    rw [forall_mem_cons] at himp
    exact .cons (himp.1 _ hx) (ih himp.2)

theorem forall₂_both {S' : α → β → Prop} :
    Forall₂ (fun x y => S x y ∧ S' x y) l l' ↔ Forall₂ S l l' ∧ Forall₂ S' l l' := by
  induction l generalizing l' with
  | nil => cases l' <;> simp
  | cons x l ih =>
    cases l' with
    | nil => simp
    | cons y l' =>
      rw [forall₂_cons, forall₂_cons, forall₂_cons, ih]
      tauto

end

variable {ε : Type} {x : Except ε α} {g : α → Except ε β} {b : β} {e : ε}

theorem except_bind_eq_ok : (x >>= g) = .ok b ↔ ∃ a, x = .ok a ∧ g a = .ok b := by
  cases x with
  | error e => simp [bind, Except.bind]
  | ok a => simp [bind, Except.bind]

theorem except_bind_eq_error : (x >>= g) = .error e ↔ x = .error e ∨ ∃ a, x = .ok a ∧ g a = .error e := by
  cases x with
  | error e => simp [bind, Except.bind]
  | ok a => simp [bind, Except.bind]

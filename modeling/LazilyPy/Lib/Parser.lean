import Mathlib.Data.List.Basic

/-!
# Parsers

A parser reads a value from the front of a list, or fails. What a local parser reads depends only on
the part of the list that it takes, so that it fails on every part of what it takes. A recursive parser
is the fixed point of a layer, in which every recursive call starts from a shorter list.
-/

abbrev Parser (β ε : Type) := StateT (List β) (Except ε)

namespace Parser

open List

variable {β ε α γ : Type} {p q : Parser β ε α} {f g : α → Parser β ε γ} {l m r : List β} {a : α}
  {c : γ} {e : ε} {n k : ℕ}

theorem run_bind_of_ok (h : p.run l = .ok (a, r)) : (p >>= f).run l = (f a).run r := by
  rw [StateT.run_bind, h]
  rfl

theorem run_bind_of_error (h : p.run l = .error e) : (p >>= f).run l = .error e := by
  rw [StateT.run_bind, h]
  rfl

theorem run_bind_eq_ok : (p >>= f).run l = .ok (c, r) ↔ ∃ a m, p.run l = .ok (a, m) ∧ (f a).run m = .ok (c, r) := by
  cases h : p.run l with
  | error e =>
    rw [run_bind_of_error h]
    simp
  | ok am =>
    rw [run_bind_of_ok h]
    constructor
    · exact fun hf => ⟨am.1, am.2, rfl, hf⟩
    · rintro ⟨b, m, heq, hf⟩
      obtain rfl := Except.ok.inj heq
      exact hf

theorem run_bind_eq_error : (p >>= f).run l = .error e ↔
      p.run l = .error e ∨ ∃ a m, p.run l = .ok (a, m) ∧ (f a).run m = .error e := by
  cases h : p.run l with
  | error e' =>
    rw [run_bind_of_error h]
    simp
  | ok am =>
    rw [run_bind_of_ok h]
    constructor
    · exact fun hf => .inr ⟨am.1, am.2, rfl, hf⟩
    · rintro (heq | ⟨b, m, heq, hf⟩)
      · cases heq
      · obtain rfl := Except.ok.inj heq
        exact hf

variable {b : α} {round : α → Parser β ε α}

@[simp] theorem run_pure_eq_ok : (pure b : Parser β ε α).run l = .ok (a, r) ↔ b = a ∧ l = r := by
  rw [StateT.run_pure]
  change Except.ok (b, l) = .ok (a, r) ↔ _
  rw [Except.ok.injEq, Prod.mk.injEq]

/-- What `p` reads depends on the part of the list that it takes. -/
def Local (p : Parser β ε α) : Prop :=
  ∀ l a r, p.run l = .ok (a, r) → ∃ taken, l = taken ++ r ∧ ∀ s, p.run (taken ++ s) = .ok (a, s)

theorem local_pure : Local (pure a : Parser β ε α) := by
  intro l b r h
  obtain ⟨rfl, rfl⟩ := run_pure_eq_ok.mp h
  exact ⟨[], rfl, fun s => rfl⟩

theorem local_throw : Local (throw e : Parser β ε α) :=
  fun _ _ _ h => nomatch h

theorem Local.bind (hp : Local p) (hf : ∀ a, Local (f a)) : Local (p >>= f) := by
  intro l c r h
  obtain ⟨a, m, ha, hc⟩ := run_bind_eq_ok.mp h
  obtain ⟨t₁, rfl, h₁⟩ := hp l a m ha
  obtain ⟨t₂, rfl, h₂⟩ := hf a m c r hc
  refine ⟨t₁ ++ t₂, by simp, fun s => ?_⟩
  rw [append_assoc, run_bind_of_ok (h₁ (t₂ ++ s))]
  exact h₂ s

/-- The rest is no longer than the list. -/
theorem Local.length_le (hp : Local p) (h : p.run l = .ok (a, r)) : r.length ≤ l.length := by
  obtain ⟨taken, rfl, _⟩ := hp l a r h
  simp

/-- More at the end stays in the rest. -/
theorem Local.run_append (hp : Local p) (h : p.run l = .ok (a, r)) (s : List β) :
    p.run (l ++ s) = .ok (a, r ++ s) := by
  obtain ⟨taken, rfl, htaken⟩ := hp l a r h
  rw [append_assoc]
  exact htaken (r ++ s)

/-- Take `count` elements. -/
def take (e : ε) (count : ℕ) : Parser β ε (List β) := fun l =>
  if l.length < count then .error e else .ok (l.take count, l.drop count)

theorem run_take_eq_ok {t : List β} : (take e n : Parser β ε _).run l = .ok (t, r) ↔ l = t ++ r ∧ t.length = n := by
  change (if l.length < n then Except.error e else .ok (l.take n, l.drop n)) = .ok (t, r) ↔ _
  split
  · next hlt =>
    constructor
    · intro h
      cases h
    · rintro ⟨rfl, rfl⟩
      rw [length_append] at hlt
      omega
  · next hle =>
    rw [Except.ok.injEq, Prod.mk.injEq]
    constructor
    · rintro ⟨rfl, rfl⟩
      exact ⟨(take_append_drop n l).symm, length_take_of_le (by omega)⟩
    · rintro ⟨rfl, rfl⟩
      exact ⟨take_left, drop_left⟩

theorem run_take_append (t s : List β) : (take e t.length : Parser β ε _).run (t ++ s) = .ok (t, s) :=
  run_take_eq_ok.mpr ⟨rfl, rfl⟩

theorem local_take : Local (take e n : Parser β ε _) := by
  intro l t r h
  obtain ⟨rfl, rfl⟩ := run_take_eq_ok.mp h
  exact ⟨t, rfl, run_take_append t⟩

/-- Read `n` values. -/
def replicate (p : Parser β ε α) : ℕ → Parser β ε (List α)
  | 0 => pure []
  | n + 1 => do
    let a ← p
    let as ← replicate p n
    pure (a :: as)

theorem Local.replicate (hp : Local p) : Local (p.replicate n) := by
  induction n with
  | zero => exact local_pure
  | succ n ih => exact hp.bind fun a => ih.bind fun as => local_pure

/-- Go through `n` rounds, with an accumulator. -/
def iterate (round : α → Parser β ε α) : ℕ → α → Parser β ε α
  | 0, a => pure a
  | n + 1, a => do
    let b ← round a
    iterate round n b

theorem Local.iterate (h : ∀ a, Local (round a)) : Local (Parser.iterate round n a) := by
  induction n generalizing a with
  | zero => exact local_pure
  | succ n ih => exact (h a).bind fun b => ih

/-- A failure after `k` values is a failure of more of them. -/
theorem run_replicate_error {as : List α} (hrun : (p.replicate k).run l = .ok (as, m))
    (h : p.run m = .error e) (hk : k < n) : (p.replicate n).run l = .error e := by
  obtain ⟨n, rfl⟩ : ∃ n', n = n' + 1 := ⟨n - 1, by omega⟩
  induction k generalizing as l n with
  | zero =>
    obtain ⟨rfl, rfl⟩ := run_pure_eq_ok.mp hrun
    exact run_bind_of_error h
  | succ k ih =>
    obtain ⟨a, l', ha, hrest⟩ := run_bind_eq_ok.mp hrun
    obtain ⟨as', l'', has, hpure⟩ := run_bind_eq_ok.mp hrest
    obtain ⟨-, rfl⟩ := run_pure_eq_ok.mp hpure
    obtain ⟨n, rfl⟩ : ∃ n', n = n' + 1 := ⟨n - 1, by omega⟩
    refine (run_bind_of_ok ha).trans (run_bind_of_error ?_)
    exact ih has n (by omega)

/-- A failure after `k` rounds is a failure of more of them. -/
theorem run_iterate_error (hrun : (Parser.iterate round k a).run l = .ok (b, m)) (h : (round b).run m = .error e)
    (hk : k < n) : (Parser.iterate round n a).run l = .error e := by
  obtain ⟨n, rfl⟩ : ∃ n', n = n' + 1 := ⟨n - 1, by omega⟩
  induction k generalizing a l n with
  | zero =>
    obtain ⟨rfl, rfl⟩ := run_pure_eq_ok.mp hrun
    exact run_bind_of_error h
  | succ k ih =>
    obtain ⟨c, l', hc, hrest⟩ := run_bind_eq_ok.mp hrun
    obtain ⟨n, rfl⟩ : ∃ n', n = n' + 1 := ⟨n - 1, by omega⟩
    exact (run_bind_of_ok hc).trans (ih hrest n (by omega))

/-! ### What is read, and what is raised -/

/-- `P` holds of what is read, and `E` of what is raised. -/
structure Yields (p : Parser β ε α) (P : α → Prop) (E : ε → Prop) : Prop where
  ok : ∀ l a r, p.run l = .ok (a, r) → P a
  error : ∀ l e, p.run l = .error e → E e

variable {P : α → Prop} {R : γ → Prop} {E : ε → Prop}

theorem Yields.pure (h : P a) : (pure a : Parser β ε α).Yields P E where
  ok _ _ _ hrun := (run_pure_eq_ok.mp hrun).1 ▸ h
  error _ _ hrun := nomatch hrun

theorem Yields.throw (h : E e) : (throw e : Parser β ε α).Yields P E where
  ok _ _ _ hrun := nomatch hrun
  error _ _ hrun := Except.error.inj hrun ▸ h

theorem Yields.bind (hp : p.Yields P E) (hf : ∀ a, P a → (f a).Yields R E) : (p >>= f).Yields R E where
  ok l c r hrun := by
    obtain ⟨a, m, ha, hc⟩ := run_bind_eq_ok.mp hrun
    exact (hf a (hp.ok l a m ha)).ok m c r hc
  error l e hrun := by
    obtain he | ⟨a, m, ha, he⟩ := run_bind_eq_error.mp hrun
    · exact hp.error l e he
    · exact (hf a (hp.ok l a m ha)).error m e he

theorem Yields.take (h : E e) : (Parser.take e n : Parser β ε _).Yields (fun t => t.length = n) E where
  ok _ _ _ hrun := (run_take_eq_ok.mp hrun).2
  error l e' hrun := by
    change (if l.length < n then Except.error e else .ok (l.take n, l.drop n)) = .error e' at hrun
    split at hrun
    · exact Except.error.inj hrun ▸ h
    · cases hrun

theorem Yields.replicate (hp : p.Yields P E) :
    (p.replicate n).Yields (fun as => as.length = n ∧ ∀ a ∈ as, P a) E := by
  induction n with
  | zero => exact .pure ⟨rfl, by simp⟩
  | succ n ih =>
    refine hp.bind fun a ha => ih.bind fun as has => .pure ⟨by simp [has.1], ?_⟩
    exact forall_mem_cons.mpr ⟨ha, has.2⟩

/-- What every round keeps holds after them. -/
theorem Yields.iterate {P : ℕ → α → Prop} (h : ∀ k a, P k a → (round a).Yields (P (k + 1)) E) (ha : P k a) :
    (Parser.iterate round n a).Yields (P (k + n)) E := by
  induction n generalizing k a with
  | zero => exact .pure ha
  | succ n ih =>
    refine (h k a ha).bind fun b hb => ?_
    have := ih hb
    rwa [Nat.add_assoc, Nat.add_comm 1 n] at this

/-! ### Recursion -/

/-- The parsers agree on lists shorter than `n`. -/
def AgreeBelow (n : ℕ) (p q : Parser β ε α) : Prop :=
  ∀ l, l.length < n → p.run l = q.run l

theorem AgreeBelow.refl (p : Parser β ε α) : AgreeBelow n p p :=
  fun _ _ => rfl

theorem AgreeBelow.bind (hp : Local p) (hpq : AgreeBelow n p q)
    (hfg : ∀ a, AgreeBelow n (f a) (g a)) : AgreeBelow n (p >>= f) (q >>= g) := by
  intro l hl
  cases h : p.run l with
  | error e => rw [run_bind_of_error h, run_bind_of_error (hpq l hl ▸ h)]
  | ok am =>
    rw [run_bind_of_ok h, run_bind_of_ok (hpq l hl ▸ h)]
    exact hfg am.1 am.2 (Nat.lt_of_le_of_lt (hp.length_le h) hl)

theorem AgreeBelow.replicate (hp : Local p) (h : AgreeBelow n p q) :
    AgreeBelow n (p.replicate k) (q.replicate k) := by
  induction k with
  | zero => exact .refl _
  | succ k ih => exact .bind hp h fun a => .bind hp.replicate ih fun as => .refl _

theorem AgreeBelow.iterate {round' : α → Parser β ε α} (hlocal : ∀ a, Local (round a))
    (h : ∀ a, AgreeBelow n (round a) (round' a)) :
    AgreeBelow n (Parser.iterate round k a) (Parser.iterate round' k a) := by
  induction k generalizing a with
  | zero => exact .refl _
  | succ k ih => exact .bind (hlocal a) (h a) fun b => ih

/-- After an element, parsers that agree on shorter lists agree. -/
theorem AgreeBelow.take_bind {f g : List β → Parser β ε γ} (h : ∀ t, AgreeBelow n (f t) (g t)) :
    AgreeBelow (n + 1) (take e 1 >>= f) (take e 1 >>= g) := by
  intro l hl
  cases hrun : (take e 1 : Parser β ε _).run l with
  | error e => rw [run_bind_of_error hrun, run_bind_of_error hrun]
  | ok am =>
    obtain ⟨t, r⟩ := am
    obtain ⟨rfl, hlen⟩ := run_take_eq_ok.mp hrun
    rw [run_bind_of_ok hrun, run_bind_of_ok hrun]
    refine h t r ?_
    rw [length_append] at hl
    omega

structure Guarded (layer : Parser β ε α → Parser β ε α) : Prop where
  keeps_local : ∀ p, Local p → Local (layer p)
  agree : ∀ n p q, Local p → Local q → AgreeBelow n p q → AgreeBelow (n + 1) (layer p) (layer q)

variable {layer : Parser β ε α → Parser β ε α}

/-- `n` layers. -/
def layers (layer : Parser β ε α → Parser β ε α) (e : ε) : ℕ → Parser β ε α
  | 0 => throw e
  | n + 1 => layer (layers layer e n)

/-- The fixed point of a layer. More layers than there are elements are not needed. -/
def fix (layer : Parser β ε α → Parser β ε α) (e : ε) : Parser β ε α := fun l =>
  layers layer e (l.length + 1) l

theorem Guarded.local_layers (h : Guarded layer) : Local (layers layer e n) := by
  induction n with
  | zero => exact local_throw
  | succ n ih => exact h.keeps_local _ ih

theorem Guarded.agree_layers (h : Guarded layer) (hnk : n ≤ k) :
    AgreeBelow n (layers layer e n) (layers layer e k) := by
  induction n generalizing k with
  | zero => exact fun l hl => absurd hl (Nat.not_lt_zero _)
  | succ n ih =>
    obtain ⟨k, rfl⟩ : ∃ k', k = k' + 1 := ⟨k - 1, by omega⟩
    exact h.agree n _ _ h.local_layers h.local_layers (ih (by omega))

theorem Guarded.agree_fix (h : Guarded layer) : AgreeBelow n (layers layer e n) (fix layer e) := by
  intro l hl
  exact (h.agree_layers (show l.length + 1 ≤ n from hl) l (Nat.lt_succ_self _)).symm

theorem local_fix (h : Guarded layer) : Local (fix layer e) := by
  intro l a r hrun
  have hlayers : (layers layer e (l.length + 1)).run l = .ok (a, r) := hrun
  obtain ⟨taken, rfl, _⟩ := h.local_layers l a r hlayers
  refine ⟨taken, rfl, fun s => ?_⟩
  let n := (taken ++ r).length + (taken ++ s).length + 1
  have hn : (layers layer e n).run (taken ++ r) = .ok (a, r) := by
    rw [h.agree_fix (taken ++ r) (by omega)]
    exact hrun
  obtain ⟨taken', heq, htaken⟩ := h.local_layers (taken ++ r) a r hn
  obtain rfl := append_cancel_right heq
  rw [← h.agree_fix (n := n) (taken ++ s) (by omega)]
  exact htaken s

theorem fix_eq (h : Guarded layer) : fix layer e = layer (fix layer e) := by
  refine StateT.ext fun l => ?_
  change (layers layer e (l.length + 1)).run l = _
  exact h.agree l.length _ _ h.local_layers (local_fix h) h.agree_fix l (Nat.lt_succ_self _)

/-- What a layer keeps holds of the fixed point. -/
theorem Yields.fix (h : E e) (hlayer : ∀ p, p.Yields P E → (layer p).Yields P E) :
    (Parser.fix layer e).Yields P E := by
  have hlayers (n : ℕ) : (layers layer e n).Yields P E := by
    induction n with
    | zero => exact .throw h
    | succ n ih => exact hlayer _ ih
  constructor
  · exact fun l a r hrun => (hlayers _).ok l a r hrun
  · exact fun l e' hrun => (hlayers _).error l e' hrun

end Parser

import LazilyPy.Ingress.Admission

/-!
# What an admission delivers

One admission delivers an envelope and those that waited for it, or nothing. What it delivers it merges
into the window, one after the other, and the cursor moves by one for each.
-/

namespace LazilyPy.Ingress

open List

variable {K T : Type}

def IngressEnvelope.row (e : IngressEnvelope K T) : Pending T :=
  ⟨e.sequence, e.payload, e.stampedAt⟩

/-- The sequences from `first`, `count` of them. -/
def sequences (first : ℤ) : ℕ → List ℤ
  | 0 => []
  | count + 1 => first :: sequences (first + 1) count

def mergeRows (merge : T → T → T) (window : Option T) (rows : List (Pending T)) : Option T :=
  rows.foldl (fun window row => some (mergeOnto merge window row.payload)) window

namespace Scope

variable {policy : IngressPolicy} {merge : T → T → T} {now : ℤ} {s : Scope T} {e : IngressEnvelope K T}

def flushed (merge : T → T → T) : ℕ → Flush T → List (Pending T)
  | 0, _ => []
  | fuel + 1, f =>
    match f.scope.pending.get? f.scope.nextExpected, flushNext merge f with
    | some b, some f' => b :: flushed merge fuel f'
    | _, _ => []

def delivers (policy : IngressPolicy) (merge : T → T → T) (now : ℤ) (s : Scope T)
    (e : IngressEnvelope K T) : List (Pending T) :=
  match (s.decide policy merge now e).2 with
  | .delivered _ _ _ =>
    let f := ((s.base e).room policy).absorb merge e
    e.row :: flushed merge f.scope.pending.rows.length f
  | _ => []

end Scope

/-- A scope delivers some rows, which were pending unless they are `row`: the sequences follow the
cursor one after the other, and the payloads are merged into the window in this order. -/
structure Delivery (merge : T → T → T) (row : Pending T) (rows : List (Pending T)) (s s' : Scope T) : Prop where
  sequences : rows.map Pending.sequence = sequences s.nextExpected rows.length
  cursor : s'.nextExpected = s.nextExpected + rows.length
  window : s'.window = mergeRows merge s.window rows
  pending : ∀ b ∈ s'.pending.rows, b ∈ s.pending.rows ∨ b = row
  mem : ∀ b ∈ rows, b ∈ s.pending.rows ∨ b = row

namespace Delivery

variable {merge : T → T → T} {row : Pending T} {s s₁ s' : Scope T}

theorem nil (hcursor : s'.nextExpected = s.nextExpected)
    (hwindow : s'.window = s.window) (hpending : ∀ b ∈ s'.pending.rows, b ∈ s.pending.rows ∨ b = row) :
    Delivery merge row [] s s' :=
  ⟨rfl, hcursor.trans (add_zero _).symm, hwindow, hpending, forall_mem_nil _⟩

/-- One row is delivered, and then the others. -/
theorem cons {b : Pending T} {rows : List (Pending T)} (hb : b ∈ s.pending.rows ∨ b = row)
    (hseq : b.sequence = s.nextExpected)
    (hcursor : s₁.nextExpected = s.nextExpected + 1)
    (hwindow : s₁.window = some (mergeOnto merge s.window b.payload))
    (hpending : ∀ b ∈ s₁.pending.rows, b ∈ s.pending.rows)
    (h : Delivery merge row rows s₁ s') : Delivery merge row (b :: rows) s s' := by
  refine ⟨?_, ?_, ?_, fun b' hb' => ?_, fun b' hb' => ?_⟩
  · rw [map_cons, h.sequences, length_cons, Ingress.sequences, hseq, hcursor]
  · rw [h.cursor, hcursor, length_cons]
    push_cast
    omega
  · rw [h.window, hwindow]
    rfl
  · exact (h.pending b' hb').imp_left (hpending b')
  · obtain rfl | hb' := mem_cons.mp hb'
    · exact hb
    · exact (h.mem b' hb').imp_left (hpending b')

end Delivery

namespace Scope

variable {policy : IngressPolicy} {merge : T → T → T} {now : ℤ} {s : Scope T}
  {e : IngressEnvelope K T} {row : Pending T}

theorem delivery_flush (merge : T → T → T) (row : Pending T) (fuel : ℕ) (f : Flush T) :
    Delivery merge row (flushed merge fuel f) f.scope (loop (flushNext merge) fuel f).scope := by
  induction fuel generalizing f with
  | zero => exact .nil rfl rfl fun b hb => .inl hb
  | succ fuel ih =>
    rw [loop, flushed]
    cases hnext : flushNext merge f with
    | none =>
      have hnone : (match f.scope.pending.get? f.scope.nextExpected, (none : Option (Flush T)) with
          | some b, some f' => b :: flushed merge fuel f'
          | _, _ => []) = [] := by
        cases f.scope.pending.get? f.scope.nextExpected with
        | none => rfl
        | some b => rfl
      rw [hnone]
      exact .nil rfl rfl fun b hb => .inl hb
    | some f' =>
      obtain ⟨b, hb, hscope⟩ := flushNext_eq_some hnext
      rw [hb]
      refine .cons (.inl (Table.mem_of_get? hb)) (Table.key_of_get? hb) ?_ ?_ (fun b' hb' => ?_) (ih f')
      · rw [hscope]
        rfl
      · rw [hscope]
      · rw [hscope] at hb'
        exact (mem_filter.mp hb').1

theorem delivery_deliver {handoff : Option (ℤ × ℤ)} (hseq : e.sequence = s.nextExpected) :
    Delivery merge e.row (e.row :: flushed merge (s.absorb merge e).scope.pending.rows.length
      (s.absorb merge e)) s (s.deliver merge e handoff).1 := by
  have habsorb : (s.absorb merge e).scope = _ := absorb_scope s e
  refine .cons (.inr rfl) hseq ?_ ?_ (fun b hb => ?_) (delivery_flush merge e.row _ _)
  · rw [habsorb, ← hseq]
    rfl
  · rw [habsorb]
    rfl
  · rw [habsorb] at hb
    exact hb

/-- An admission that takes the envelope in delivers from the scope as the envelope's handoff leaves it.
Where no window is thrown away for want of room, that is all that it does. -/
theorem delivery_decide (policy : IngressPolicy) (merge : T → T → T) (now : ℤ) (s : Scope T)
    (e : IngressEnvelope K T) (hover : policy.overflow ≠ .dropOldest) :
    ((s.decide policy merge now e).2.admitted = false ∧ s.delivers policy merge now e = [] ∧
      ((s.decide policy merge now e).1 = s ∨ (s.decide policy merge now e).1 = s.base e)) ∨
    ((s.decide policy merge now e).2.admitted = true ∧ Delivery merge e.row (s.delivers policy merge now e) (s.base e)
        (s.decide policy merge now e).1) := by
  by_cases hfenced : s.Fenced policy now e
  · obtain ⟨reason, hd⟩ := decide_of_fenced merge hfenced
    rw [delivers, hd]
    exact .inl ⟨rfl, rfl, .inl rfl⟩
  · obtain ⟨handoff, hd⟩ := decide_of_not_fenced merge hfenced
    have hroom : (s.base e).room policy = s.base e := if_neg fun hdrop => hover hdrop.2
    by_cases hp : (s.base e).Parks policy e
    · rw [delivers, hd, order_of_parks hp]
      refine .inr ⟨rfl, .nil rfl rfl fun b hb => ?_⟩
      obtain rfl | hb := Table.mem_put.mp hb
      · exact .inr rfl
      · exact .inl hb.1
    · by_cases hdel : (s.base e).Delivers policy e
      · rw [delivers, hd, order_of_delivers hdel, hroom]
        exact .inr ⟨rfl, delivery_deliver hdel.1⟩
      · rw [delivers, hd]
        obtain ⟨hsame, hrefuse⟩ := order_of_refused hp hdel
        refine .inl ⟨?_, ?_, .inr hsame⟩
        · obtain hblock | ⟨reason, hreason⟩ := hrefuse
          · rw [hblock]
            rfl
          · rw [hreason]
            rfl
        · obtain hblock | ⟨reason, hreason⟩ := hrefuse
          · rw [hblock]
          · rw [hreason]

end Scope

end LazilyPy.Ingress

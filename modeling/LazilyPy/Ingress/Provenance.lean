import LazilyPy.Ingress.Step

/-!
# Where the payloads of a window come from

A window is the fold of the payloads of successive envelopes of one generation. What has been drained
before may be counted in, so that the fold goes back to the first envelope.
-/

namespace LazilyPy.Ingress

open List

variable {K T : Type}

/-- Envelopes with `P` whose sequences follow one another, from `first` up to before `next`. -/
inductive Successive (P : IngressEnvelope K T → Prop) (first : ℤ) : List (IngressEnvelope K T) → ℤ → Prop
  | nil : Successive P first [] first
  | concat {l : List (IngressEnvelope K T)} {next : ℤ} {e : IngressEnvelope K T}
      (h : Successive P first l next) (he : P e) (hseq : e.sequence = next) :
      Successive P first (l ++ [e]) (next + 1)

namespace Successive

variable {P Q : IngressEnvelope K T → Prop} {first next : ℤ} {l : List (IngressEnvelope K T)}

section

variable (h : Successive P first l next)

include h

theorem mono (hPQ : ∀ e, P e → Q e) : Successive Q first l next := by
  induction h with
  | nil => exact .nil
  | concat _ he hseq ih => exact .concat ih (hPQ _ he) hseq

theorem of_mem {e : IngressEnvelope K T} (he : e ∈ l) : P e := by
  induction h with
  | nil => cases he
  | concat _ hP _ ih =>
    obtain he | he := mem_append.mp he
    · exact ih he
    · rw [mem_singleton.mp he]
      exact hP

theorem next_eq : next = first + l.length := by
  induction h with
  | nil => simp
  | concat _ _ _ ih =>
    rw [ih, length_append, length_singleton]
    omega

/-- The sequences, one after the other. -/
theorem map_sequence :
    l.map (·.sequence) = (range l.length).map fun i : ℕ => first + i := by
  induction h with
  | nil => rfl
  | @concat l _ e h _ hseq ih =>
    rw [map_append, ih, length_append, length_singleton, range_succ,
      map_append, map_singleton, map_singleton, hseq, h.next_eq]

end

end Successive

/-- The window of the scope, with what has been drained before it, is the fold of envelopes with `P`
of the scope's generation, from the sequence `first` up to the cursor; what is pending are such
envelopes; and the stamp is the newest of theirs, or that of an earlier one. -/
structure Traced (merge : T → T → T) (P : IngressEnvelope K T → Prop) (drained : List T)
    (first : ℤ) (s : Scope T) : Prop where
  window : ∃ l, Successive (fun e => P e ∧ e.generation = s.generation) first l s.nextExpected ∧
    mergeAll merge (drained ++ s.window.toList) = mergeAll merge (l.map (·.payload)) ∧
    ∀ e ∈ l, e.stampedAt ≤ s.stampedAt
  pending : ∀ b ∈ s.pending.rows, ∃ e, P e ∧ e.generation = s.generation ∧
    e.sequence = b.sequence ∧ e.payload = b.payload ∧ e.stampedAt = b.stampedAt
  stamp : s.stampedAt = 0 ∨ ∃ e, P e ∧ e.stampedAt = s.stampedAt

namespace Traced

variable {merge : T → T → T} {P Q : IngressEnvelope K T → Prop} {drained : List T} {first : ℤ}
  {s s' : Scope T} {e : IngressEnvelope K T} {policy : IngressPolicy} {now : ℤ}

theorem mono (h : Traced merge P drained first s) (hPQ : ∀ e, P e → Q e) : Traced merge Q drained first s := by
  obtain ⟨l, hl, hfold, hstamps⟩ := h.window
  refine ⟨⟨l, hl.mono fun e he => ⟨hPQ e he.1, he.2⟩, hfold, hstamps⟩, fun b hb => ?_, ?_⟩
  · obtain ⟨e, he, hrest⟩ := h.pending b hb
    exact ⟨e, hPQ e he, hrest⟩
  · exact h.stamp.imp id fun ⟨e, he, heq⟩ => ⟨e, hPQ e he, heq⟩

/-- The rest of a scope may change. -/
theorem congr (h : Traced merge P drained first s) (hgen : s'.generation = s.generation)
    (hcursor : s'.deliveredThrough = s.deliveredThrough) (hstamp : s'.stampedAt = s.stampedAt)
    (hpending : s'.pending = s.pending) (hwindow : s'.window = s.window) :
    Traced merge P drained first s' := by
  have hnext : s'.nextExpected = s.nextExpected := by simp only [Scope.nextExpected, hcursor]
  refine ⟨?_, ?_, ?_⟩
  · rw [hgen, hnext, hwindow, hstamp]
    exact h.window
  · rw [hgen, hpending]
    exact h.pending
  · rw [hstamp]
    exact h.stamp

/-- A scope that holds no window, and whose pending envelopes are traced. -/
theorem of_window (hfirst : s.nextExpected = first) (hwindow : s.window = none)
    (hpending : ∀ b ∈ s.pending.rows, ∃ e, P e ∧ e.generation = s.generation ∧
      e.sequence = b.sequence ∧ e.payload = b.payload ∧ e.stampedAt = b.stampedAt)
    (hstamp : s.stampedAt = 0 ∨ ∃ e, P e ∧ e.stampedAt = s.stampedAt) :
    Traced merge P [] first s := by
  refine ⟨⟨[], hfirst ▸ .nil, ?_, forall_mem_nil _⟩, hpending, hstamp⟩
  rw [hwindow]
  rfl

/-- A scope that holds nothing: only its stamp has been there before. -/
theorem of_reset (hfirst : s.nextExpected = first) (hwindow : s.window = none) (hpending : s.pending = .empty _)
    (hstamp : s.stampedAt = 0 ∨ ∃ e, P e ∧ e.stampedAt = s.stampedAt) :
    Traced merge P [] first s := by
  refine of_window hfirst hwindow ?_ hstamp
  rw [hpending]
  exact forall_mem_nil _

theorem new (generation : ℤ) : Traced merge P [] 0 (.new T generation) :=
  of_reset rfl rfl rfl (.inl rfl)

theorem clearWindow (h : Traced merge P drained first s) : Traced merge P [] s.nextExpected s.clearWindow :=
  of_window rfl rfl h.pending h.stamp

theorem handOff (h : Traced merge P drained first s) (generation : ℤ) : Traced merge P [] 0 (s.handOff generation) :=
  of_reset rfl rfl rfl h.stamp

theorem park (h : Traced merge P drained first s) (he : P e) (hgen : e.generation = s.generation) :
    Traced merge P drained first
      { s with pending := s.pending.put ⟨e.sequence, e.payload, e.stampedAt⟩ } := by
  refine ⟨h.window, fun b hb => ?_, h.stamp⟩
  obtain rfl | hb := Table.mem_put.mp hb
  · exact ⟨e, he, hgen, rfl, rfl, rfl⟩
  · exact h.pending b hb.1

/-- The next envelope is merged into the window. -/
theorem next (h : Traced merge P drained first s) (hmerge : drained = [] ∨ Std.Associative merge) (he : P e)
    (hgen : e.generation = s.generation) (hseq : e.sequence = s.nextExpected)
    (hgen' : s'.generation = s.generation)
    (hcursor : s'.deliveredThrough = some s.nextExpected)
    (hwindow : s'.window = some (mergeOnto merge s.window e.payload))
    (hstamp : s'.stampedAt = max s.stampedAt e.stampedAt)
    (hpending : ∀ b ∈ s'.pending.rows, b ∈ s.pending.rows) :
    Traced merge P drained first s' := by
  obtain ⟨l, hl, hfold, hstamps⟩ := h.window
  have hnext : s'.nextExpected = s.nextExpected + 1 := by
    simp only [Scope.nextExpected, hcursor]
  refine ⟨⟨l ++ [e], ?_, ?_, fun e' he' => ?_⟩, fun b hb => ?_, ?_⟩
  · rw [hgen', hnext]
    exact hl.concat ⟨he, hgen⟩ hseq
  · rw [hwindow, Option.toList_some, mergeAll_mergeOnto hmerge, hfold, map_append, map_singleton, mergeAll_concat]
  · rw [hstamp]
    obtain he' | he' := mem_append.mp he'
    · exact le_max_of_le_left (hstamps e' he')
    · rw [mem_singleton.mp he']
      exact le_max_right _ _
  · rw [hgen']
    exact h.pending b (hpending b hb)
  · rw [hstamp]
    obtain hmax | hmax := max_choice s.stampedAt e.stampedAt
    · rw [hmax]
      exact h.stamp
    · rw [hmax]
      exact .inr ⟨e, he, rfl⟩

variable {handoff : Option (ℤ × ℤ)}

theorem deliver (h : Traced merge P drained first s) (hmerge : drained = [] ∨ Std.Associative merge) (he : P e)
    (hgen : e.generation = s.generation) (hseq : e.sequence = s.nextExpected) :
    Traced merge P drained first (s.deliver merge e handoff).1 := by
  refine Scope.deliver_invariant ?_ fun s b hb hs => ?_
  · rw [Scope.absorb_scope]
    exact h.next hmerge he hgen hseq rfl (congrArg some hseq) rfl rfl fun _ hb => hb
  · obtain ⟨e, he, hgen, hseq, hpayload, hstamp⟩ := hs.pending b (Table.mem_of_get? hb)
    have hkey : b.sequence = s.nextExpected := Table.key_of_get? hb
    refine hs.next hmerge he hgen (hseq.trans hkey) rfl rfl ?_ ?_ fun _ hb =>
      (mem_filter.mp hb).1
    · rw [hpayload]
    · rw [hstamp]

/-! ## Admissions -/

/-- An envelope of the scope's generation, where no window is thrown away. -/
theorem order (h : Traced merge P drained first s) (hmerge : drained = [] ∨ Std.Associative merge)
    (hover : policy.overflow ≠ .dropOldest) (he : P e) (hgen : e.generation = s.generation) :
    Traced merge P drained first (s.order policy merge e handoff).1 := by
  refine Scope.order_rule h (fun _ => h.park he hgen) fun hd => ?_
  have hroom : s.room policy = s := if_neg fun hdrop => hover hdrop.2
  rw [hroom]
  exact h.deliver hmerge he hgen hd.1

/-- An envelope of the scope's generation, under any policy. -/
theorem order_any (h : Traced merge P [] first s) (he : P e) (hgen : e.generation = s.generation) :
    ∃ first, Traced merge P [] first (s.order policy merge e handoff).1 := by
  refine Scope.order_rule (P := fun s => ∃ first, Traced merge P [] first s) ⟨first, h⟩
    (fun _ => ⟨first, h.park he hgen⟩) fun hd => ?_
  unfold Scope.room
  split
  · exact ⟨_, h.clearWindow.deliver (.inl rfl) he hgen hd.1⟩
  · exact ⟨first, h.deliver (.inl rfl) he hgen hd.1⟩

/-- Any envelope, under any policy. -/
theorem decide_any (h : Traced merge P [] first s) (he : P e) :
    ∃ first, Traced merge P [] first (s.decide policy merge now e).1 := by
  refine Scope.decide_rule (P := fun s => ∃ first, Traced merge P [] first s) ⟨first, h⟩ fun hfenced handoff => ?_
  unfold Scope.base
  split
  · exact (h.handOff e.generation).order_any he rfl
  · next hlt =>
    have hle : ¬ e.generation < s.generation := fun hstale => hfenced (.inr (.inl hstale))
    exact h.order_any he (by omega)

end Traced

end LazilyPy.Ingress

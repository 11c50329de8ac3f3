import LazilyPy.Ingress.Scope
import LazilyPy.Lib.Merging

/-!
# The admission of an envelope, case by case

An envelope is fenced off, parked ahead of the cursor, delivered, or refused in its turn. Each case
is a condition on the scope and the envelope, with one equation for `Scope.decide`.
-/

namespace LazilyPy.Ingress

namespace Scope

variable {K T : Type} {policy : IngressPolicy} {merge : T → T → T} {now : ℤ}

/-! ## Conditions -/

def Fenced (policy : IngressPolicy) (now : ℤ) (s : Scope T) (e : IngressEnvelope K T) : Prop :=
  s.lifecycle = .closed ∨ e.generation < s.generation ∨ policy.freshnessHorizon < max 0 (now - e.stampedAt)

/-- The scope that the sequence of the envelope is compared with. -/
def base (s : Scope T) (e : IngressEnvelope K T) : Scope T :=
  if s.generation < e.generation then s.handOff e.generation else s

/-- The envelope is ahead of the cursor, and there is room for it. -/
def Parks (policy : IngressPolicy) (s : Scope T) (e : IngressEnvelope K T) : Prop :=
  s.nextExpected < e.sequence ∧ s.pending.get? e.sequence = none ∧ s.pending.rows.length < policy.reorderWindow

def Full (policy : IngressPolicy) (s : Scope T) : Prop :=
  policy.highWater ≤ s.windowDepth ∧ (policy.overflow = .block ∨ policy.overflow = .dropNewest)

def Delivers (policy : IngressPolicy) (s : Scope T) (e : IngressEnvelope K T) : Prop :=
  e.sequence = s.nextExpected ∧ ¬ s.Full policy

/-- The scope once `dropOldest` has made room. -/
def room (policy : IngressPolicy) (s : Scope T) : Scope T :=
  if policy.highWater ≤ s.windowDepth ∧ policy.overflow = .dropOldest then s.clearWindow else s

instance {s : Scope T} {e : IngressEnvelope K T} : Decidable (s.Fenced policy now e) :=
  inferInstanceAs (Decidable (_ ∨ _ ∨ _))

instance {s : Scope T} {e : IngressEnvelope K T} : Decidable (s.Parks policy e) :=
  inferInstanceAs (Decidable (_ ∧ _ ∧ _))

instance {s : Scope T} {e : IngressEnvelope K T} : Decidable (s.Delivers policy e) :=
  inferInstanceAs (Decidable (_ ∧ ¬ (_ ∧ (_ ∨ _))))

/-! ## The decision in each case -/

variable {s : Scope T} {e : IngressEnvelope K T} {handoff : Option (ℤ × ℤ)}

theorem order_of_parks (h : s.Parks policy e) : s.order policy merge e handoff =
      ({ s with pending := s.pending.put ⟨e.sequence, e.payload, e.stampedAt⟩ }, .buffered s.nextExpected) := by
  obtain ⟨hahead, hnew, hroom⟩ := h
  have hlt : ¬ e.sequence < s.nextExpected := by omega
  have hfull : ¬ policy.reorderWindow ≤ s.pending.rows.length := by omega
  simp [order, hlt, hahead, hnew, hfull]

theorem order_of_delivers (h : s.Delivers policy e) :
    s.order policy merge e handoff = (s.room policy).deliver merge e handoff := by
  obtain ⟨hseq, hfull⟩ := h
  have hlt : ¬ e.sequence < s.nextExpected := by omega
  have hgt : ¬ s.nextExpected < e.sequence := by omega
  simp only [order, room, if_neg hlt, if_neg hgt]
  by_cases hw : policy.highWater ≤ s.windowDepth
  · cases ho : policy.overflow with
    | block => exact absurd ⟨hw, .inl ho⟩ hfull
    | dropNewest => exact absurd ⟨hw, .inr ho⟩ hfull
    | dropOldest => simp [hw]
    | conflate => simp [hw]
    | spill => simp [hw]
  · simp [hw]

/-- Refused in its turn: as a duplicate, for want of room, or under backpressure. -/
theorem order_of_refused (hp : ¬ s.Parks policy e) (hd : ¬ s.Delivers policy e) :
    (s.order policy merge e handoff).1 = s ∧ ((s.order policy merge e handoff).2 = .block ∨
        ∃ reason, (s.order policy merge e handoff).2 = .refuse reason) := by
  unfold order
  dsimp only
  split
  · exact ⟨rfl, .inr ⟨_, rfl⟩⟩
  · next hlt =>
    split
    · next hgt =>
      split
      · exact ⟨rfl, .inr ⟨_, rfl⟩⟩
      · next hnew =>
        split
        · exact ⟨rfl, .inr ⟨_, rfl⟩⟩
        · next hroom =>
          refine absurd ⟨hgt, ?_, by omega⟩ hp
          simpa using hnew
    · next hgt =>
      have hseq : e.sequence = s.nextExpected := by omega
      have hfull : s.Full policy := by
        by_contra hfull
        exact hd ⟨hseq, hfull⟩
      obtain ⟨hw, ho⟩ := hfull
      rw [if_pos hw]
      cases ho with
      | inl ho => simp [ho]
      | inr ho => simp [ho]

theorem decide_of_fenced (merge : T → T → T) (h : s.Fenced policy now e) :
    ∃ reason, s.decide policy merge now e = (s, .refuse reason) := by
  unfold decide
  split
  · exact ⟨_, rfl⟩
  · next hclosed =>
    split
    · exact ⟨_, rfl⟩
    · next hstale =>
      split
      · exact ⟨_, rfl⟩
      · next hfresh => exact absurd h (by simp [Fenced, hclosed, hstale, hfresh])

theorem decide_of_not_fenced (merge : T → T → T) (h : ¬ s.Fenced policy now e) :
    ∃ handoff, s.decide policy merge now e = (s.base e).order policy merge e handoff := by
  unfold Fenced at h
  simp only [not_or] at h
  obtain ⟨hclosed, hstale, hfresh⟩ := h
  simp only [decide, base, if_neg hclosed, if_neg hstale, if_neg hfresh]
  split
  · exact ⟨_, rfl⟩
  · exact ⟨_, rfl⟩

/-! ## After a handoff -/

theorem parks_handOff {generation : ℤ} :
    (s.handOff generation).Parks policy e ↔ 0 < e.sequence ∧ policy.reorderWindow ≠ 0 := by
  simp [Parks, handOff, nextExpected, Table.empty, Table.get?, Nat.pos_iff_ne_zero]

theorem delivers_handOff {generation : ℤ} : (s.handOff generation).Delivers policy e ↔ e.sequence = 0 ∧
      ¬ (policy.highWater = 0 ∧ (policy.overflow = .block ∨ policy.overflow = .dropNewest)) := by
  simp [Delivers, Full, handOff, clearWindow, nextExpected]

/-! ## The flush -/

theorem mergeInto_fst (s : Scope T) (payload : T) (stampedAt : ℤ) : (s.mergeInto merge payload stampedAt).1 =
      { s with
        window := some (mergeOnto merge s.window payload)
        windowDepth := s.windowDepth + 1
        stampedAt := max s.stampedAt stampedAt } := by
  unfold mergeInto
  cases s.window with
  | none => rfl
  | some w => rfl

/-- One round of a flush: the pending envelope that is next is merged and leaves `pending`. -/
theorem flushNext_eq_some {f f' : Flush T} (h : flushNext merge f = some f') :
    ∃ b, f.scope.pending.get? f.scope.nextExpected = some b ∧ f'.scope =
        { f.scope with
          pending := f.scope.pending.filter (·.sequence ≠ f.scope.nextExpected)
          window := some (mergeOnto merge f.scope.window b.payload)
          windowDepth := f.scope.windowDepth + 1
          stampedAt := max f.scope.stampedAt b.stampedAt
          deliveredThrough := some f.scope.nextExpected } := by
  unfold flushNext at h
  dsimp only at h
  cases hb : f.scope.pending.get? f.scope.nextExpected with
  | none => simp [hb] at h
  | some b =>
    simp only [hb, Option.some.injEq] at h
    refine ⟨b, rfl, ?_⟩
    rw [← h]
    simp only [mergeInto_fst]

/-- A flush ends because nothing is left to deliver. -/
theorem flushNext_flush (f : Flush T) : flushNext merge (flush merge f) = none := by
  refine step_loop (μ := fun f : Flush T => f.scope.pending.rows.length) (fun f f' h => ?_) le_rfl
  obtain ⟨b, hb, hscope⟩ := flushNext_eq_some h
  rw [hscope]
  refine List.length_filter_lt_length_iff_exists.mpr ⟨b, Table.mem_of_get? hb, ?_⟩
  simp [Table.key_of_get? hb]

/-- What one round keeps, the flush keeps. -/
theorem flush_invariant {P : Scope T → Prop} (h : ∀ s b, s.pending.get? s.nextExpected = some b → P s →
      P { s with
          pending := s.pending.filter (·.sequence ≠ s.nextExpected)
          window := some (mergeOnto merge s.window b.payload)
          windowDepth := s.windowDepth + 1
          stampedAt := max s.stampedAt b.stampedAt
          deliveredThrough := some s.nextExpected })
    {f : Flush T} (hf : P f.scope) : P (flush merge f).scope := by
  refine loop_invariant (P := fun f : Flush T => P f.scope) (fun f f' hnext hp => ?_) _ hf
  obtain ⟨b, hb, hscope⟩ := flushNext_eq_some hnext
  rw [hscope]
  exact h f.scope b hb hp

theorem absorb_scope (s : Scope T) (e : IngressEnvelope K T) : (s.absorb merge e).scope =
      { s with
        window := some (mergeOnto merge s.window e.payload)
        windowDepth := s.windowDepth + 1
        stampedAt := max s.stampedAt e.stampedAt
        deliveredThrough := some e.sequence
        lifecycle := .live
        consecutiveErrors := 0 } := by
  simp only [absorb, mergeInto_fst]

/-- What a delivery keeps: the envelope itself, and each round of the flush. -/
theorem deliver_invariant {P : Scope T → Prop} (habsorb : P (s.absorb merge e).scope)
    (h : ∀ s b, s.pending.get? s.nextExpected = some b → P s →
      P { s with
          pending := s.pending.filter (·.sequence ≠ s.nextExpected)
          window := some (mergeOnto merge s.window b.payload)
          windowDepth := s.windowDepth + 1
          stampedAt := max s.stampedAt b.stampedAt
          deliveredThrough := some s.nextExpected }) :
    P (s.deliver merge e handoff).1 :=
  flush_invariant h habsorb

/-- After a delivery the next sequence is not pending. -/
theorem get?_nextExpected_deliver :
    (s.deliver merge e handoff).1.pending.get? (s.deliver merge e handoff).1.nextExpected = none := by
  have hnone : flushNext merge (flush merge (s.absorb merge e)) = none := flushNext_flush _
  unfold flushNext at hnone
  dsimp only at hnone
  cases hget : (flush merge (s.absorb merge e)).scope.pending.get?
      (flush merge (s.absorb merge e)).scope.nextExpected with
  | none => exact hget
  | some b =>
    rw [hget] at hnone
    cases hnone

/-! ## Rules -/

/-- What parking and delivering keep, the admission of an envelope in its turn keeps. -/
theorem order_rule {P : Scope T → Prop} (hs : P s) (hpark : s.Parks policy e →
      P { s with pending := s.pending.put ⟨e.sequence, e.payload, e.stampedAt⟩ })
    (hdeliver : s.Delivers policy e → P ((s.room policy).deliver merge e handoff).1) :
    P (s.order policy merge e handoff).1 := by
  by_cases hp : s.Parks policy e
  · rw [order_of_parks hp]
    exact hpark hp
  · by_cases hd : s.Delivers policy e
    · rw [order_of_delivers hd]
      exact hdeliver hd
    · rw [(order_of_refused hp hd).1]
      exact hs

/-- An envelope that is not fenced off is admitted in its turn, after the handoff. -/
theorem decide_rule {P : Scope T → Prop} (hs : P s)
    (horder : ¬ s.Fenced policy now e → ∀ handoff, P ((s.base e).order policy merge e handoff).1) :
    P (s.decide policy merge now e).1 := by
  by_cases hfenced : s.Fenced policy now e
  · obtain ⟨reason, hd⟩ := decide_of_fenced merge hfenced
    rw [hd]
    exact hs
  · obtain ⟨handoff, hd⟩ := decide_of_not_fenced merge hfenced
    rw [hd]
    exact horder hfenced handoff

/-! ## What holds of every scope -/

/-- A scope that is opening has delivered nothing, a closed one holds no window, the cursor is not
negative, and what is pending is ahead of it. -/
structure Valid (s : Scope T) : Prop where
  opening : s.lifecycle = .opening → s.deliveredThrough = none
  closed : s.lifecycle = .closed → s.window = none
  cursor : ∀ d, s.deliveredThrough = some d → 0 ≤ d
  ahead : ∀ b ∈ s.pending.rows, s.nextExpected < b.sequence

theorem nextExpected_nonneg (h : s.Valid) : 0 ≤ s.nextExpected := by
  unfold nextExpected
  split
  · exact le_rfl
  · next d hd =>
    have hle := h.cursor d hd
    omega

theorem valid_new (generation : ℤ) : (Scope.new T generation).Valid :=
  ⟨fun _ => rfl, fun _ => rfl, nofun, List.forall_mem_nil _⟩

theorem valid_handOff (s : Scope T) (generation : ℤ) : (s.handOff generation).Valid :=
  ⟨fun _ => rfl, fun _ => rfl, nofun, List.forall_mem_nil _⟩

theorem Valid.clearWindow (h : s.Valid) : s.clearWindow.Valid :=
  ⟨h.opening, fun _ => rfl, h.cursor, h.ahead⟩

theorem Valid.base (h : s.Valid) : (s.base e).Valid := by
  unfold Scope.base
  split
  · exact valid_handOff s e.generation
  · exact h

theorem Valid.room (h : s.Valid) : (s.room policy).Valid := by
  unfold Scope.room
  split
  · exact h.clearWindow
  · exact h

/-- Between the rounds of a flush the cursor may have caught up with what is pending. -/
structure Flushing (s : Scope T) : Prop where
  live : s.lifecycle = .live
  cursor : ∃ d, s.deliveredThrough = some d ∧ 0 ≤ d
  ahead : ∀ b ∈ s.pending.rows, s.nextExpected ≤ b.sequence

theorem Flushing.next (h : s.Flushing) {s' : Scope T} (hlife : s'.lifecycle = s.lifecycle)
    (hcursor : s'.deliveredThrough = some s.nextExpected)
    (hpending : s'.pending = s.pending.filter (·.sequence ≠ s.nextExpected)) : s'.Flushing := by
  obtain ⟨d, hd, hle⟩ := h.cursor
  have hnext : s.nextExpected = d + 1 := by simp [nextExpected, hd]
  have hnext' : s'.nextExpected = s.nextExpected + 1 := by simp [nextExpected, hcursor]
  refine ⟨hlife.trans h.live, ⟨s.nextExpected, hcursor, by omega⟩, fun b hb => ?_⟩
  rw [hpending, Table.filter, List.mem_filter] at hb
  have hahead := h.ahead b hb.1
  have hne : b.sequence ≠ s.nextExpected := by simpa using hb.2
  omega

theorem Valid.deliver (h : s.Valid) (he : e.sequence = s.nextExpected) : (s.deliver merge e handoff).1.Valid := by
  have hnonneg := nextExpected_nonneg h
  have hflushing : (s.deliver merge e handoff).1.Flushing := by
    refine deliver_invariant ?_ fun s b _ hs => hs.next rfl rfl rfl
    rw [absorb_scope]
    refine ⟨rfl, ⟨e.sequence, rfl, by omega⟩, fun b hb => ?_⟩
    have hahead := h.ahead b hb
    show e.sequence + 1 ≤ b.sequence
    omega
  obtain ⟨d, hd, hle⟩ := hflushing.cursor
  refine ⟨fun hopening => ?_, fun hclosed => ?_, fun d' hd' => ?_, fun b hb => ?_⟩
  · exact absurd (hflushing.live.symm.trans hopening) nofun
  · exact absurd (hflushing.live.symm.trans hclosed) nofun
  · rw [hd] at hd'
    obtain rfl : d = d' := Option.some.inj hd'
    exact hle
  · have hne : b.sequence ≠ (s.deliver merge e handoff).1.nextExpected :=
      Table.get?_eq_none.mp get?_nextExpected_deliver b hb
    have hahead := hflushing.ahead b hb
    omega

theorem Valid.decide (h : s.Valid) : (s.decide policy merge now e).1.Valid := by
  refine decide_rule h fun _ handoff => order_rule h.base (fun hp => ?_) fun hd => ?_
  · refine ⟨h.base.opening, h.base.closed, h.base.cursor, fun b hb => ?_⟩
    obtain rfl | hb := Table.mem_put.mp hb
    · exact hp.1
    · exact h.base.ahead b hb.1
  · refine h.base.room.deliver ?_
    rw [hd.1]
    unfold Scope.room
    split
    · rfl
    · rfl

end Scope

end LazilyPy.Ingress

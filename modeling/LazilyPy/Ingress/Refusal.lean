import LazilyPy.Ingress.Step

/-!
# Refused envelopes

A refusal appends a receipt. It leaves every scope as it is, unless the envelope has taken its scope over before
it is refused.
-/

namespace LazilyPy.Ingress

open Option

variable {K T : Type}

def IngressAdmission.refused : IngressAdmission → Bool
  | .dropped _ => true
  | .blocked => true
  | _ => false

namespace Scope

/-- The envelope is of a newer generation, for which there is no place: it is behind the start, ahead of it where
nothing may wait, or at the start where the window takes nothing. -/
def TakenOver (policy : IngressPolicy) (now : ℤ) (s : Scope T) (e : IngressEnvelope K T) : Prop :=
  ¬ s.Fenced policy now e ∧ s.generation < e.generation ∧ (e.sequence < 0 ∨ 0 < e.sequence ∧ policy.reorderWindow = 0 ∨
      e.sequence = 0 ∧ policy.highWater = 0 ∧ (policy.overflow = .block ∨ policy.overflow = .dropNewest))

variable {policy : IngressPolicy} {merge : T → T → T} {now : ℤ} {s : Scope T} {e : IngressEnvelope K T}
  {handoff : Option (ℤ × ℤ)}

/-- An envelope that the scope as it is after the handoff neither parks nor delivers. -/
theorem takenOver_iff : s.TakenOver policy now e ↔ ¬ s.Fenced policy now e ∧ s.generation < e.generation ∧
    ¬ (s.base e).Parks policy e ∧ ¬ (s.base e).Delivers policy e := by
  refine and_congr_right fun _ => and_congr_right fun hlt => ?_
  rw [base, if_pos hlt, parks_handOff, delivers_handOff]
  obtain hneg | hzero | hpos := lt_trichotomy e.sequence 0
  · have hne : e.sequence ≠ 0 := by omega
    have hnpos : ¬ 0 < e.sequence := by omega
    simp [hneg, hne, hnpos]
  · simp only [hzero, lt_irrefl, false_and, false_or, not_false_eq_true, true_and]
    tauto
  · have hne : e.sequence ≠ 0 := by omega
    have hnneg : ¬ e.sequence < 0 := by omega
    simp [hpos, hne, hnneg]

theorem admitted_order (merge : T → T → T) (handoff : Option (ℤ × ℤ)) :
    (s.order policy merge e handoff).2.admitted = true ↔ s.Parks policy e ∨ s.Delivers policy e := by
  by_cases hp : s.Parks policy e
  · rw [order_of_parks hp]
    exact iff_of_true rfl (.inl hp)
  · by_cases hd : s.Delivers policy e
    · rw [order_of_delivers hd]
      exact iff_of_true rfl (.inr hd)
    · have hnot : ¬ (s.Parks policy e ∨ s.Delivers policy e) := not_or.mpr ⟨hp, hd⟩
      refine iff_of_false ?_ hnot
      have hanswer : (s.order policy merge e handoff).2 = .block ∨
          ∃ reason, (s.order policy merge e handoff).2 = .refuse reason := (order_of_refused hp hd).2
      obtain hblock | ⟨reason, hrefuse⟩ := hanswer
      · rw [hblock]
        nofun
      · rw [hrefuse]
        nofun

/-- A decision that does not admit the envelope leaves the scope as it is, or as it is after the handoff. -/
theorem decide_of_not_admitted (h : (s.decide policy merge now e).2.admitted = false) :
    (s.decide policy merge now e).1 = s ∧ ¬ s.TakenOver policy now e ∨
      (s.decide policy merge now e).1 = s.handOff e.generation ∧ s.TakenOver policy now e := by
  by_cases hfenced : s.Fenced policy now e
  · obtain ⟨reason, hd⟩ := decide_of_fenced merge hfenced
    rw [hd]
    exact .inl ⟨rfl, fun hover => hover.1 hfenced⟩
  · obtain ⟨handoff, hd⟩ := decide_of_not_fenced merge hfenced
    rw [hd] at h ⊢
    have hnot : ¬ ((s.base e).Parks policy e ∨ (s.base e).Delivers policy e) := by
      rw [← admitted_order merge handoff, h]
      nofun
    obtain ⟨hp, hdel⟩ := not_or.mp hnot
    rw [(order_of_refused hp hdel).1]
    by_cases hlt : s.generation < e.generation
    · refine .inr ⟨if_pos hlt, takenOver_iff.mpr ⟨hfenced, hlt, hp, hdel⟩⟩
    · exact .inl ⟨if_neg hlt, fun hover => hlt hover.2.1⟩

/-- An envelope that takes a scope over in vain is not admitted. -/
theorem TakenOver.not_admitted (merge : T → T → T) (h : s.TakenOver policy now e) :
    (s.decide policy merge now e).2.admitted = false := by
  obtain ⟨hfenced, -, hp, hd⟩ := takenOver_iff.mp h
  obtain ⟨handoff, heq⟩ := decide_of_not_fenced merge hfenced
  rw [heq, ← Bool.not_eq_true, admitted_order]
  exact not_or.mpr ⟨hp, hd⟩

end Scope

variable [DecidableEq K]

structure Untouched (c c' : IngressCore K T) : Prop where
  scopes : ∀ key, c'.scope? key = c.scope? key
  receipts : ∃ r, c'.receipts = evict c.policy.receiptCapacity (c.receipts ++ [r])
  policy : c'.policy = c.policy
  merge : c'.merge = c.merge
  observedNow : c'.observedNow = c.observedNow

variable {c : IngressCore K T} {e : IngressEnvelope K T} {s : Scope T}

/-- What a decision makes of the core. -/
theorem refused_admitEnvelope (c : IngressCore K T) (e : IngressEnvelope K T) :
    (c.admitEnvelope e).2.2.refused = !(((c.scope? e.key).getD (.new T e.generation)).decide c.policy
      c.merge.merge c.observedNow e).2.admitted := by
  rw [IngressCore.admitEnvelope]
  dsimp only
  split
  next hd => rw [hd]; rfl
  next hd => rw [hd]; rfl
  next hd => rw [hd]; rfl
  next _ conflated handoff hd =>
    rw [hd]
    cases handoff with
    | some fences => rfl
    | none =>
      cases conflated with
      | true => rfl
      | false => rfl

/-- A refusal appends a receipt. -/
theorem receipts_of_refused (h : (c.admitEnvelope e).2.2.refused = true) :
    ∃ r, (c.admitEnvelope e).1.receipts = evict c.policy.receiptCapacity (c.receipts ++ [r]) := by
  have hlog (p : Prop) [Decidable p] (s : Scope T) (r : IngressReceipt K) :
      ∃ r', ((if p then c else c.setScope e.key s).pushReceipt r).1.receipts =
        evict c.policy.receiptCapacity (c.receipts ++ [r']) := by
    split
    · exact ⟨_, rfl⟩
    · exact ⟨_, rfl⟩
  rw [refused_admitEnvelope] at h
  rw [IngressCore.admitEnvelope]
  dsimp only
  split
  next reason hd => exact hlog _ _ _
  next hd => exact hlog _ _ _
  next gap hd =>
    rw [hd] at h
    cases h
  next hd =>
    rw [hd] at h
    cases h

/-- The scope of the key after a refusal. -/
theorem scope?_of_refused (h : (c.admitEnvelope e).2.2.refused = true) :
    (c.admitEnvelope e).1.scope? e.key = (c.scope? e.key).map fun s =>
      (s.decide c.policy c.merge.merge c.observedNow e).1 := by
  have hkey : (Op.admitEnvelope e).key? = some e.key := rfl
  have hacts := c.acts_step hkey
  refine (hacts.scope? e.key).trans ?_
  rw [if_pos rfl]
  rw [refused_admitEnvelope] at h
  rw [Op.act]
  cases hs : c.scope? e.key with
  | none =>
    rw [hs] at h
    exact if_pos ⟨rfl, by simpa using h⟩
  | some s =>
    dsimp only
    rw [if_neg fun hand => by cases hand.1]
    rfl

/-- Whatever the core and the policy, a refused envelope changes nothing but the receipts exactly if it does not
take over a scope that is known. -/
theorem refused_untouched_iff (c : IngressCore K T) (e : IngressEnvelope K T) :
    ((c.admitEnvelope e).2.2.refused = true → Untouched c (c.admitEnvelope e).1) ↔
      ¬ ∃ s, c.scope? e.key = some s ∧ s.TakenOver c.policy c.observedNow e := by
  constructor
  · rintro h ⟨s, hs, hover⟩
    have hnot := hover.not_admitted c.merge.merge
    have hrefused : (c.admitEnvelope e).2.2.refused = true := by
      rw [refused_admitEnvelope, hs, getD_some, hnot]
      rfl
    have hscope := (h hrefused).scopes e.key
    rw [scope?_of_refused hrefused, hs, map_some] at hscope
    have hsame := some.inj hscope
    obtain ⟨-, hcontra⟩ | ⟨hhandOff, -⟩ := Scope.decide_of_not_admitted hnot
    · exact hcontra hover
    · have hgeneration : (s.handOff e.generation).generation = s.generation := by
        rw [← hhandOff, hsame]
      have hlt := hover.2.1
      rw [← hgeneration] at hlt
      exact lt_irrefl _ hlt
  · intro hover hrefused
    obtain ⟨hpolicy, hmerge⟩ := c.config_step (.admitEnvelope e)
    have hadmit : (Op.admitEnvelope e).key? = some e.key := rfl
    have hacts := c.acts_step hadmit
    refine ⟨fun key => ?_, receipts_of_refused hrefused, hpolicy, hmerge, hacts.observedNow⟩
    by_cases hkey : key = e.key
    · subst hkey
      rw [scope?_of_refused hrefused]
      cases hs : c.scope? e.key with
      | none => rfl
      | some s =>
        rw [refused_admitEnvelope, hs, getD_some, Bool.not_eq_true'] at hrefused
        obtain ⟨hsame, -⟩ | ⟨-, hcontra⟩ := Scope.decide_of_not_admitted hrefused
        · rw [map_some, hsame]
        · exact absurd ⟨s, hs, hcontra⟩ hover
    · exact (hacts.scope? key).trans (if_neg hkey)

/-- Where nothing may wait, an envelope of a newer generation that is ahead of the start is dropped. The scope has
its generation all the same. -/
theorem refused_touches :
    ∃ c : IngressCore ℕ ℕ, IngressCore.new ℕ { reorderWindow := 0 } { merge := (· + ·) } = .ok c ∧
      ((c.after [.admitEnvelope ⟨0, 1, 0, 0, 5⟩]).admitEnvelope ⟨0, 2, 1, 0, 7⟩).2.2.refused = true ∧
        ¬ Untouched (c.after [.admitEnvelope ⟨0, 1, 0, 0, 5⟩])
          ((c.after [.admitEnvelope ⟨0, 1, 0, 0, 5⟩]).admitEnvelope ⟨0, 2, 1, 0, 7⟩).1 := by
  refine ⟨_, rfl, by decide, fun h => ?_⟩
  have hgeneration := congrArg (Option.map Scope.generation) (h.scopes 0)
  revert hgeneration
  decide

end LazilyPy.Ingress

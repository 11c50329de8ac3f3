import LazilyPy.Ingress.Step
import LazilyPy.Lib.Throughout

/-!
# Suspended scopes

`suspend` keeps the cursor and the window, and answers what a reconnect has to ask for. An admission does not ask
whether the scope is suspended.
-/

namespace LazilyPy.Ingress

open List
open Option hiding sequence

variable {K T : Type}

namespace Scope

/-- The scope is suspended with the cursor that it had, and with the window that it had unless it has been
emptied. -/
structure Halted (s s' : Scope T) : Prop where
  lifecycle : s'.lifecycle = .suspended
  cursor : s'.deliveredThrough = s.deliveredThrough
  window : s'.window = s.window ∨ s'.window = none

/-- The envelope is fenced off, or it is not delivered and does not reset the cursor. -/
def Passes (policy : IngressPolicy) (now : ℤ) (s : Scope T) (e : IngressEnvelope K T) : Prop :=
  s.Fenced policy now e ∨ ¬ (s.base e).Delivers policy e ∧ (e.generation ≤ s.generation ∨ s.deliveredThrough = none)

variable {policy : IngressPolicy} {merge : T → T → T} {now : ℤ} {s s₀ s₁ : Scope T} {e : IngressEnvelope K T}

theorem Halted.refl (h : s.lifecycle = .suspended) : s.Halted s :=
  ⟨h, rfl, .inl rfl⟩

/-- One more change that delivers nothing. -/
theorem Halted.trans (h : s₀.Halted s) (hlife : s₁.lifecycle = s.lifecycle)
    (hcursor : s₁.deliveredThrough = s.deliveredThrough) (hwindow : s₁.window = s.window ∨ s₁.window = none) :
    s₀.Halted s₁ := by
  refine ⟨hlife.trans h.lifecycle, hcursor.trans h.cursor, ?_⟩
  obtain hsame | hnone := hwindow
  · rw [hsame]
    exact h.window
  · exact .inr hnone

/-- A delivery makes the scope live. -/
theorem lifecycle_deliver {handoff : Option (ℤ × ℤ)} : (s.deliver merge e handoff).1.lifecycle = .live := by
  refine deliver_invariant (P := fun s' => s'.lifecycle = .live) ?_ fun _ _ _ h => h
  rw [absorb_scope]

/-- An envelope that is not delivered leaves of the scope what its handoff leaves, but for what waits. -/
theorem decide_of_not_delivers (merge : T → T → T) (hfenced : ¬ s.Fenced policy now e)
    (hdelivers : ¬ (s.base e).Delivers policy e) :
    ∃ pending, (s.decide policy merge now e).1 = { s.base e with pending := pending } := by
  obtain ⟨handoff, hd⟩ := decide_of_not_fenced merge hfenced
  rw [hd]
  by_cases hparks : (s.base e).Parks policy e
  · rw [order_of_parks hparks]
    exact ⟨_, rfl⟩
  · rw [(order_of_refused hparks hdelivers).1]
    exact ⟨_, rfl⟩

theorem lifecycle_base : (s.base e).lifecycle = s.lifecycle := by
  rw [base]
  split
  · rfl
  · rfl

theorem window_base : (s.base e).window = s.window ∨ (s.base e).window = none := by
  rw [base]
  split
  · exact .inr rfl
  · exact .inl rfl

theorem deliveredThrough_base : (s.base e).deliveredThrough = s.deliveredThrough ↔
    e.generation ≤ s.generation ∨ s.deliveredThrough = none := by
  rw [base]
  split
  · next hlt =>
    rw [or_iff_right (not_le.mpr hlt)]
    exact eq_comm
  · next hnot => exact iff_of_true rfl (.inl (not_lt.mp hnot))

/-- A halted scope is halted after an admission exactly if the envelope passes. -/
theorem halted_decide_iff (merge : T → T → T) (h : s₀.Halted s) :
    s₀.Halted (s.decide policy merge now e).1 ↔ s.Passes policy now e := by
  by_cases hfenced : s.Fenced policy now e
  · obtain ⟨reason, hd⟩ := decide_of_fenced merge hfenced
    rw [hd]
    exact iff_of_true h (.inl hfenced)
  rw [Passes, or_iff_right hfenced]
  by_cases hdelivers : (s.base e).Delivers policy e
  · obtain ⟨handoff, hd⟩ := decide_of_not_fenced merge hfenced
    rw [hd, order_of_delivers hdelivers]
    refine iff_of_false (fun hafter => ?_) fun hpass => hpass.1 hdelivers
    exact absurd (lifecycle_deliver.symm.trans hafter.lifecycle) nofun
  · obtain ⟨pending, hd⟩ := decide_of_not_delivers merge hfenced hdelivers
    rw [hd, and_iff_right hdelivers, ← deliveredThrough_base]
    constructor
    · intro hafter
      exact hafter.cursor.trans h.cursor.symm
    · intro hcursor
      exact h.trans lifecycle_base hcursor window_base

/-- An envelope that passes leaves the generation alone, or nothing has been delivered yet. -/
theorem generation_decide (merge : T → T → T) (hpass : s.Passes policy now e) :
    (s.decide policy merge now e).1.generation = s.generation ∨ s.deliveredThrough = none := by
  by_cases hfenced : s.Fenced policy now e
  · obtain ⟨reason, hd⟩ := decide_of_fenced merge hfenced
    rw [hd]
    exact .inl rfl
  obtain ⟨hdelivers, hgeneration⟩ := hpass.resolve_left hfenced
  obtain ⟨pending, hd⟩ := decide_of_not_delivers merge hfenced hdelivers
  refine hgeneration.imp_left fun hle => ?_
  rw [hd, base, if_neg (not_lt.mpr hle)]

end Scope

theorem Scope.liveOrOpening_ne_suspended {s : Scope T} : s.liveOrOpening ≠ .suspended := by
  rw [Scope.liveOrOpening]
  split
  · nofun
  · nofun

/-! ## One operation -/

def Op.Idle (key : K) : Op K T → Prop
  | .open k _ => k ≠ key
  | .reconnect k _ => k ≠ key
  | .close k => k ≠ key
  | _ => True

/-- What an idle operation makes of a halted scope is halted exactly if an envelope that it admits passes. The
generation stays while something has been delivered. -/
theorem Op.halted_act_iff {policy : IngressPolicy} (merge : T → T → T) (now : ℤ) {s₀ s : Scope T} {key : K}
    {op : Op K T} (h : s₀.Halted s) (hidle : op.Idle key) (hkey : op.key? = some key) :
    ∃ s', (op.act policy merge now (some s)).1 = some s' ∧
      (s₀.Halted s' ↔ ∀ e, op = .admitEnvelope e → s.Passes policy now e) ∧
      (s₀.Halted s' → s'.generation = s.generation ∨ s₀.deliveredThrough = none) := by
  cases op with
  | «open» k generation => exact absurd (some.inj hkey) hidle
  | reconnect k generation => exact absurd (some.inj hkey) hidle
  | close k => exact absurd (some.inj hkey) hidle
  | tick now' => cases hkey
  | suspend k =>
    have hsuspended : s.lifecycle = .suspended ∨ s.lifecycle = .closed := .inl h.lifecycle
    exact ⟨s, congrArg Prod.fst (if_pos hsuspended), iff_of_true h (by simp), fun _ => .inl rfl⟩
  | fail k error => exact ⟨s.fail, rfl, iff_of_true (h.trans rfl rfl (.inl rfl)) (by simp), fun _ => .inl rfl⟩
  | drain k =>
    rw [act]
    split
    · exact ⟨s, rfl, iff_of_true h (by simp), fun _ => .inl rfl⟩
    · exact ⟨s.clearWindow, rfl, iff_of_true (h.trans rfl rfl (.inr rfl)) (by simp), fun _ => .inl rfl⟩
  | admitEnvelope e =>
    have hact : ((Op.admitEnvelope e).act policy merge now (some s)).1 = some (s.decide policy merge now e).1 := by
      have hkept : ¬ ((some s).isNone = true ∧ ¬ (s.decide policy merge now e).2.admitted = true) :=
        fun hnone => by cases hnone.1
      dsimp only [act, getD_some]
      exact if_neg hkept
    refine ⟨(s.decide policy merge now e).1, hact, ?_, fun hafter => ?_⟩
    · rw [Scope.halted_decide_iff merge h]
      constructor
      · rintro hpass e' heq
        cases heq
        exact hpass
      · exact fun hpass => hpass e rfl
    · rw [← h.cursor]
      exact Scope.generation_decide merge ((Scope.halted_decide_iff merge h).mp hafter)

variable [DecidableEq K]

namespace IngressCore

def Halted (c : IngressCore K T) (key : K) (s₀ : Scope T) : Prop :=
  ∃ s, c.scope? key = some s ∧ s₀.Halted s

/-- An envelope that the operation admits to the scope of the key passes. -/
def Passes (c : IngressCore K T) (key : K) (op : Op K T) : Prop :=
  ∀ e s, op = .admitEnvelope e → e.key = key → c.scope? key = some s → s.Passes c.policy c.observedNow e

/-- The scope has been brought back, and is to go on from the sequence. -/
def Resumes (c : IngressCore K T) (key : K) (sequence : ℤ) : Prop :=
  ∃ s, c.scope? key = some s ∧ s.lifecycle ≠ .suspended ∧ s.nextExpected = sequence

end IngressCore

variable {c : IngressCore K T} {key : K} {op : Op K T} {s₀ s : Scope T}

/-- An idle operation keeps the scope halted exactly if an envelope that it admits passes. -/
theorem halted_step (hs : c.scope? key = some s) (h : s₀.Halted s) (hidle : op.Idle key) :
    ∃ s', (c.step op).core.scope? key = some s' ∧ (s₀.Halted s' ↔ c.Passes key op) ∧
      (s₀.Halted s' → s'.generation = s.generation ∨ s₀.deliveredThrough = none) := by
  rw [IngressCore.scope?_step]
  by_cases hkey : op.key? = some key
  · rw [if_pos hkey, hs]
    obtain ⟨s', hact, hiff, hgeneration⟩ := op.halted_act_iff c.merge.merge c.observedNow h hidle hkey
    refine ⟨s', hact, hiff.trans ⟨fun hpass e s₁ he _ hs₁ => ?_, fun hpass e he => ?_⟩, hgeneration⟩
    · obtain rfl := some.inj (hs.symm.trans hs₁)
      exact hpass e he
    · subst he
      exact hpass e s rfl (some.inj hkey) hs
  · rw [if_neg hkey]
    refine ⟨s, hs, iff_of_true h fun e s₁ he hek _ => ?_, fun _ => .inl rfl⟩
    subst he
    exact absurd (congrArg some hek) hkey

/-! ## A run -/

/-- Through the whole run the scope is halted, and whichever way it is brought back then, it goes on from the first
sequence that had not been delivered. -/
structure Rests (c : IngressCore K T) (key : K) (s : Scope T) (ops : List (Op K T)) (generation : ℤ) : Prop where
  halted : ∀ before after, ops = before ++ after → (c.after before).Halted key s
  opened : ((c.after ops).step (.open key generation)).core.Resumes key s.nextExpected
  reconnected : ((c.after ops).step (.reconnect key generation)).core.Resumes key s.nextExpected

/-- What holds of a run in which every envelope for the scope passes. -/
theorem halted_after {ops : List (Op K T)} (hs : c.scope? key = some s) (hsuspended : s.lifecycle = .suspended)
    (hidle : ∀ op ∈ ops, op.Idle key) (h : Throughout (fun before op => (c.after before).Passes key op) ops) :
    ∃ s', (c.after ops).scope? key = some s' ∧ s.Halted s' ∧
      (s'.generation = s.generation ∨ s.deliveredThrough = none) := by
  induction ops using reverseRecOn with
  | nil => exact ⟨s, hs, .refl hsuspended, .inl rfl⟩
  | append_singleton ops op ih =>
    obtain ⟨hthrough, hop⟩ := throughout_concat.mp h
    obtain ⟨s', hs', hhalted, hgeneration⟩ := ih (fun op hmem => hidle op (mem_append_left _ hmem)) hthrough
    have hidle' := hidle op (mem_append_right _ (mem_singleton_self _))
    obtain ⟨s'', hs'', hiff, hsame⟩ := halted_step hs' hhalted hidle'
    have hhalted' := hiff.mpr hop
    rw [IngressCore.after_concat]
    refine ⟨s'', hs'', hhalted', ?_⟩
    obtain heq | hnone := hsame hhalted'
    · rw [heq]
      exact hgeneration
    · exact .inr hnone

/-- Where a suspended scope goes on once it is brought back: at its cursor, or at the start of a newer
generation. -/
theorem resumes_iff (hs : c.scope? key = some s) (hsuspended : s.lifecycle = .suspended) {op : Op K T}
    {generation : ℤ} (hop : op = .open key generation ∨ op = .reconnect key generation) (sequence : ℤ) :
    (c.step op).core.Resumes key sequence ↔ (if s.generation < generation then 0 else s.nextExpected) = sequence := by
  have hstep : ∃ s', (c.step op).core.scope? key = some s' ∧ s'.lifecycle ≠ .suspended ∧
      s'.nextExpected = if s.generation < generation then 0 else s.nextExpected := by
    have hkey : op.key? = some key := by
      obtain rfl | rfl := hop
      · rfl
      · rfl
    rw [IngressCore.scope?_step, if_pos hkey, hs]
    obtain rfl | rfl := hop
    · refine ⟨(s.reopen generation).1, rfl, ?_⟩
      have hclosed : s.lifecycle ≠ .closed := by
        rw [hsuspended]
        nofun
      rw [Scope.reopen, if_neg hclosed]
      split
      · exact ⟨Scope.liveOrOpening_ne_suspended, rfl⟩
      · exact ⟨Scope.liveOrOpening_ne_suspended, rfl⟩
    · refine ⟨(s.reconnect generation).1, rfl, ?_⟩
      rw [Scope.reconnect]
      dsimp only
      split
      · exact ⟨Scope.liveOrOpening_ne_suspended, rfl⟩
      · exact ⟨Scope.liveOrOpening_ne_suspended, rfl⟩
  obtain ⟨s', hs', hlife, hnext⟩ := hstep
  rw [← hnext]
  constructor
  · rintro ⟨s'', hs'', -, hsequence⟩
    obtain rfl := some.inj (hs'.symm.trans hs'')
    exact hsequence
  · exact fun hsequence => ⟨s', hs', hlife, hsequence⟩

/-- The scope goes on from the sequence that it was halted at exactly if the generation is not newer, or nothing had
been delivered. -/
theorem resumes_halted_iff {s' : Scope T} (hvalid : s.Valid) (hs' : c.scope? key = some s') (h : s.Halted s')
    {op : Op K T} {generation : ℤ} (hop : op = .open key generation ∨ op = .reconnect key generation) :
    (c.step op).core.Resumes key s.nextExpected ↔ generation ≤ s'.generation ∨ s.deliveredThrough = none := by
  have hnext : s'.nextExpected = s.nextExpected := by rw [Scope.nextExpected, h.cursor, Scope.nextExpected]
  rw [resumes_iff hs' h.lifecycle hop, hnext]
  split
  · next hlt =>
    rw [or_iff_right (not_le.mpr hlt), Scope.nextExpected]
    cases hd : s.deliveredThrough with
    | none => exact iff_of_true rfl rfl
    | some d =>
      have hcursor := hvalid.cursor d hd
      refine iff_of_false (fun heq => ?_) (by simp)
      have hd' : 0 = d + 1 := heq
      omega
  · next hnot => exact iff_of_true rfl (.inl (not_lt.mp hnot))

/-- What a suspend has asked for. -/
theorem eq_of_suspend {c₁ : IngressCore K T} {change : IngressChange K} {request : ReplayRequest}
    (h : c₁.suspend key = (c, change, some request)) (hs : c.scope? key = some s) :
    request = ⟨s.generation, s.nextExpected⟩ := by
  rw [IngressCore.suspend] at h
  cases hs₁ : c₁.scope? key with
  | none =>
    rw [hs₁] at h
    cases h
  | some s₁ =>
    rw [hs₁] at h
    dsimp only at h
    split at h
    · cases h
    · cases h
      rw [IngressCore.scope?_setScope, if_pos rfl] at hs
      cases hs
      rfl

/-- Over any run that neither brings a suspended scope back nor closes it: the scope stays suspended with nothing
delivered, and goes on from the sequence that the suspend has asked for, exactly if every envelope for it passes
and it is brought back at its generation. -/
theorem rests_iff (hreachable : Reachable c) (hs : c.scope? key = some s) (hsuspended : s.lifecycle = .suspended)
    {ops : List (Op K T)} (hidle : ∀ op ∈ ops, op.Idle key) (generation : ℤ) :
    (∀ (c₁ : IngressCore K T) change request, c₁.suspend key = (c, change, some request) →
      request = ⟨s.generation, s.nextExpected⟩) ∧
    (Rests c key s ops generation ↔ Throughout (fun before op => (c.after before).Passes key op) ops ∧
      (generation ≤ s.generation ∨ s.deliveredThrough = none)) := by
  have hvalid : s.Valid := IngressCore.valid_of_reachable hreachable hs
  refine ⟨fun c₁ change request hsuspend => eq_of_suspend hsuspend hs, fun hrests => ?_, ?_⟩
  · have hpasses : Throughout (fun before op => (c.after before).Passes key op) ops := by
      intro before op after hsplit
      obtain ⟨s', hs', hhalted⟩ := hrests.halted before (op :: after) hsplit
      obtain ⟨s'', hs'', hhalted''⟩ := hrests.halted (before ++ [op]) after (by simp [hsplit])
      have hmem : op ∈ ops := by simp [hsplit]
      obtain ⟨s₁, hs₁, hiff, -⟩ := halted_step hs' hhalted (hidle op hmem)
      rw [IngressCore.after_concat] at hs''
      obtain rfl := some.inj (hs₁.symm.trans hs'')
      exact hiff.mp hhalted''
    refine ⟨hpasses, ?_⟩
    obtain ⟨s', hs', hhalted, hgeneration⟩ := halted_after hs hsuspended hidle hpasses
    obtain hsame | hnone := hgeneration
    · rw [← hsame]
      exact (resumes_halted_iff hvalid hs' hhalted (.inl rfl)).mp hrests.opened
    · exact .inr hnone
  · rintro ⟨hpasses, hgeneration⟩
    obtain ⟨s', hs', hhalted, hsame⟩ := halted_after hs hsuspended hidle hpasses
    have hresume : generation ≤ s'.generation ∨ s.deliveredThrough = none := by
      obtain heq | hnone := hsame
      · rw [heq]
        exact hgeneration
      · exact .inr hnone
    refine ⟨fun before after hsplit => ?_, ?_, ?_⟩
    · have hbefore := (hsplit ▸ hpasses : Throughout _ (before ++ after)).of_append
      have hidle' : ∀ op ∈ before, op.Idle key := fun op hmem =>
        hidle op (hsplit ▸ mem_append_left after hmem)
      obtain ⟨s₁, hs₁, hhalted₁, -⟩ := halted_after hs hsuspended hidle' hbefore
      exact ⟨s₁, hs₁, hhalted₁⟩
    · exact (resumes_halted_iff hvalid hs' hhalted (.inl rfl)).mpr hresume
    · exact (resumes_halted_iff hvalid hs' hhalted (.inr rfl)).mpr hresume

def suspending : List (Op ℕ ℕ) :=
  [.admitEnvelope ⟨0, 1, 0, 0, 5⟩, .suspend 0]

theorem rests_iff_drained : ∃ (c₀ : IngressCore ℕ ℕ) (s : Scope ℕ),
    IngressCore.new ℕ {} { merge := (· + ·) } = .ok c₀ ∧ (c₀.after suspending).scope? 0 = some s ∧
      (∀ (c₁ : IngressCore ℕ ℕ) change request, c₁.suspend 0 = (c₀.after suspending, change, some request) →
        request = ⟨s.generation, s.nextExpected⟩) ∧
      (Rests (c₀.after suspending) 0 s [.drain 0, .admitEnvelope ⟨0, 1, 2, 0, 7⟩] 1 ↔
        Throughout (fun before op => ((c₀.after suspending).after before).Passes 0 op)
          [.drain 0, .admitEnvelope ⟨0, 1, 2, 0, 7⟩] ∧ (1 ≤ s.generation ∨ s.deliveredThrough = none)) := by
  have hnew : ∃ c, IngressCore.new ℕ {} { merge := ((· + ·) : ℕ → ℕ → ℕ) } = .ok c ∧
      ∃ s, (c.after suspending).scope? 0 = some s ∧ s.lifecycle = .suspended := ⟨_, rfl, _, rfl, rfl⟩
  obtain ⟨c₀, hc, s, hs, hsuspended⟩ := hnew
  have hidle : ∀ op ∈ [Op.drain 0, .admitEnvelope (⟨0, 1, 2, 0, 7⟩ : IngressEnvelope ℕ ℕ)], op.Idle 0 := by
    intro op hop
    obtain rfl | hop := mem_cons.mp hop
    · trivial
    · obtain rfl := mem_singleton.mp hop
      trivial
  exact ⟨c₀, s, hc, hs, rests_iff (IngressCore.reachable_after hc suspending) hs hsuspended hidle 1⟩

/-- The next envelope is delivered to the suspended scope, which is live with it. -/
theorem not_always_rests :
    ¬ ∀ (c : IngressCore ℕ ℕ) (key : ℕ) (s : Scope ℕ) (ops : List (Op ℕ ℕ)), Reachable c → c.scope? key = some s →
      s.lifecycle = .suspended → (∀ op ∈ ops, op.Idle key) → Rests c key s ops s.generation := by
  intro h
  have hnew : ∃ c, IngressCore.new ℕ {} { merge := ((· + ·) : ℕ → ℕ → ℕ) } = .ok c ∧
      ∃ s, (c.after suspending).scope? 0 = some s ∧ s.lifecycle = .suspended ∧
        ∃ s', ((c.after suspending).after [.admitEnvelope ⟨0, 1, 1, 0, 7⟩]).scope? 0 = some s' ∧
          s'.lifecycle = .live := ⟨_, rfl, _, rfl, rfl, _, rfl, rfl⟩
  obtain ⟨c₀, hc, s, hs, hsuspended, s', hs', hlive⟩ := hnew
  have hidle : ∀ op ∈ [Op.admitEnvelope (⟨0, 1, 1, 0, 7⟩ : IngressEnvelope ℕ ℕ)], op.Idle 0 := by
    intro op hop
    obtain rfl := mem_singleton.mp hop
    trivial
  have hrests := h _ 0 s _ (IngressCore.reachable_after hc suspending) hs hsuspended hidle
  obtain ⟨s'', hs'', hhalted⟩ := hrests.halted _ [] (append_nil _).symm
  obtain rfl := some.inj (hs'.symm.trans hs'')
  exact absurd (hlive.symm.trans hhalted.lifecycle) nofun

end LazilyPy.Ingress

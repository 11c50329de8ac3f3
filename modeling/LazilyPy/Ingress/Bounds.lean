import LazilyPy.Ingress.Step
import LazilyPy.Lib.Throughout

/-!
# The bounds of a scope

The reorder buffer takes an envelope only while there is room in it. The window is looked at once for each
admission, before the envelope is merged and before the flush behind it: what a flush adds is not looked at.
-/

namespace LazilyPy.Ingress

open List

variable {K T : Type}

def Overflow.bounding : Overflow → Bool
  | .block => true
  | .dropNewest => true
  | .dropOldest => true
  | .conflate => false
  | .spill => false

namespace Scope

/-- The reorder buffer is no longer than its window and ahead of the cursor, and the window is no deeper than its
high water. -/
structure WithinBounds (policy : IngressPolicy) (s : Scope T) : Prop where
  buffer : s.pending.rows.length ≤ policy.reorderWindow
  ahead : ∀ b ∈ s.pending.rows, s.nextExpected < b.sequence
  depth : policy.overflow.bounding = true → s.windowDepth ≤ policy.highWater

/-- As many envelopes as the window takes after `sequence` and its payload do not all wait. -/
def HasRoom (policy : IngressPolicy) (s : Scope T) (sequence : ℤ) : Prop :=
  ∃ k < policy.highWater - s.windowDepth, s.pending.get? (sequence + 1 + k) = none

/-- If the admission delivers the envelope, then there is room for the flush behind it. -/
def Fits (policy : IngressPolicy) (now : ℤ) (s : Scope T) (e : IngressEnvelope K T) : Prop :=
  policy.overflow.bounding = true → ¬ s.Fenced policy now e → (s.base e).Delivers policy e →
    ((s.base e).room policy).HasRoom policy e.sequence

variable {policy : IngressPolicy} {merge : T → T → T} {now : ℤ} {s s' : Scope T} {e : IngressEnvelope K T}
  {handoff : Option (ℤ × ℤ)}

/-! ## A delivery -/

/-- A delivery merges the envelope and the `n` envelopes that wait one after the other behind it. -/
theorem deliver_depth (merge : T → T → T) (s : Scope T) (e : IngressEnvelope K T) (handoff : Option (ℤ × ℤ)) :
    ∃ n : ℕ, (s.deliver merge e handoff).1.windowDepth = s.windowDepth + 1 + n ∧
      s.pending.get? (e.sequence + 1 + n) = none ∧ ∀ k < n, s.pending.get? (e.sequence + 1 + k) ≠ none := by
  let Flushed (s' : Scope T) : Prop := ∃ n : ℕ, s'.windowDepth = s.windowDepth + 1 + n ∧
    s'.nextExpected = e.sequence + 1 + n ∧ (∀ k < n, s.pending.get? (e.sequence + 1 + k) ≠ none) ∧
      ∀ k ≥ n, s'.pending.get? (e.sequence + 1 + k) = s.pending.get? (e.sequence + 1 + k)
  have hflushed : Flushed (s.deliver merge e handoff).1 := by
    refine deliver_invariant ?_ fun s' b hb ⟨n, hdepth, hnext, hwaited, hkept⟩ => ?_
    · rw [absorb_scope]
      exact ⟨0, rfl, (add_zero _).symm, nofun, fun _ _ => rfl⟩
    · refine ⟨n + 1, ?_, ?_, fun k hk => ?_, fun k hk => ?_⟩
      · show s'.windowDepth + 1 = _
        omega
      · show s'.nextExpected + 1 = _
        push_cast
        omega
      · obtain hlt | rfl := Nat.lt_succ_iff_lt_or_eq.mp hk
        · exact hwaited k hlt
        · rw [← hkept k le_rfl, ← hnext, hb]
          nofun
      · have hne : e.sequence + 1 + (k : ℤ) ≠ s'.nextExpected := by omega
        rw [← hkept k (by omega)]
        show (s'.pending.filter _).get? _ = _
        rw [Table.get?_filter]
        cases hget : s'.pending.get? (e.sequence + 1 + k) with
        | none => rfl
        | some b' => simp [Option.filter, Table.key_of_get? hget, hne]
  obtain ⟨n, hdepth, hnext, hwaited, hkept⟩ := hflushed
  refine ⟨n, hdepth, ?_, hwaited⟩
  rw [← hkept n le_rfl, ← hnext]
  exact get?_nextExpected_deliver

/-- The window is within its high water after a delivery exactly if there was room. -/
theorem deliver_le_iff : (s.deliver merge e handoff).1.windowDepth ≤ policy.highWater ↔
    s.HasRoom policy e.sequence := by
  obtain ⟨n, hdepth, hend, hwaited⟩ := s.deliver_depth merge e handoff
  rw [hdepth]
  constructor
  · intro hle
    exact ⟨n, by omega, hend⟩
  · rintro ⟨k, hk, hnone⟩
    have hle : n ≤ k := by
      by_contra hlt
      exact hwaited k (by omega) hnone
    omega

theorem length_deliver : (s.deliver merge e handoff).1.pending.rows.length ≤ s.pending.rows.length := by
  refine deliver_invariant (P := fun s' => s'.pending.rows.length ≤ s.pending.rows.length) ?_ fun s' b _ h => ?_
  · rw [absorb_scope]
  · exact (length_filter_le _ _).trans h

/-! ## An admission -/

theorem admitted_of_delivers (hfenced : ¬ s.Fenced policy now e) (hdelivers : (s.base e).Delivers policy e) :
    (s.decide policy merge now e).2.admitted = true := by
  obtain ⟨handoff, hd⟩ := decide_of_not_fenced merge hfenced
  rw [hd, order_of_delivers hdelivers]
  rfl

/-- A scope with no more in its buffer and in its window. -/
theorem WithinBounds.of_le (h : s.WithinBounds policy) (hvalid : s'.Valid)
    (hbuffer : s'.pending.rows.length ≤ s.pending.rows.length) (hdepth : s'.windowDepth ≤ s.windowDepth) :
    s'.WithinBounds policy :=
  ⟨hbuffer.trans h.buffer, hvalid.ahead, fun hbounding => hdepth.trans (h.depth hbounding)⟩

theorem withinBounds_new (generation : ℤ) : (Scope.new T generation).WithinBounds policy :=
  ⟨Nat.zero_le _, forall_mem_nil _, fun _ => Nat.zero_le _⟩

theorem withinBounds_getD {o : Option (Scope T)} (h : ∀ s, o = some s → s.WithinBounds policy) (generation : ℤ) :
    (o.getD (.new T generation)).WithinBounds policy := by
  cases o with
  | none => exact withinBounds_new generation
  | some s => exact h s rfl

theorem WithinBounds.base (h : s.WithinBounds policy) (hvalid : s.Valid) : (s.base e).WithinBounds policy := by
  refine h.of_le hvalid.base ?_ ?_
  · rw [Scope.base]
    split
    · exact Nat.zero_le _
    · exact le_rfl
  · rw [Scope.base]
    split
    · exact Nat.zero_le _
    · exact le_rfl

theorem length_room : (s.room policy).pending.rows.length = s.pending.rows.length := by
  rw [room]
  split
  · rfl
  · rfl

/-- An admission stays within the bounds exactly if there is room for what it delivers. -/
theorem withinBounds_decide (merge : T → T → T) (h : s.WithinBounds policy) (hvalid : s.Valid) :
    (s.decide policy merge now e).1.WithinBounds policy ↔ s.Fits policy now e := by
  by_cases hfenced : s.Fenced policy now e
  · obtain ⟨reason, hd⟩ := decide_of_fenced merge hfenced
    rw [hd]
    exact iff_of_true h fun _ hnot => absurd hfenced hnot
  obtain ⟨handoff, hd⟩ := decide_of_not_fenced merge hfenced
  have hafter : (s.decide policy merge now e).1.Valid := hvalid.decide
  have hbase : (s.base e).WithinBounds policy := h.base hvalid
  by_cases hdelivers : (s.base e).Delivers policy e
  · rw [hd, order_of_delivers hdelivers] at hafter ⊢
    constructor
    · intro hbounds hbounding _ _
      exact deliver_le_iff.mp (hbounds.depth hbounding)
    · intro hfits
      refine ⟨?_, hafter.ahead, fun hbounding => deliver_le_iff.mpr (hfits hbounding hfenced hdelivers)⟩
      exact length_deliver.trans (length_room.trans_le hbase.buffer)
  · refine iff_of_true ?_ fun _ _ hdel => absurd hdel hdelivers
    rw [hd] at hafter ⊢
    by_cases hparks : (s.base e).Parks policy e
    · rw [order_of_parks hparks] at hafter ⊢
      refine ⟨?_, hafter.ahead, hbase.depth⟩
      have hnew : e.sequence ∉ (s.base e).pending.rows.map Pending.sequence := by
        simpa [Table.get?_eq_none] using hparks.2.1
      show ((s.base e).pending.put _).rows.length ≤ _
      rw [Table.rows_put_of_notMem hnew, length_append]
      exact hparks.2.2
    · rw [(order_of_refused hparks hdelivers).1]
      exact hbase

end Scope

/-! ## The operations -/

/-- What an operation other than an admission makes of a scope is within the bounds again. -/
theorem Op.withinBounds_act {policy : IngressPolicy} {merge : T → T → T} {now : ℤ} {o : Option (Scope T)}
    {op : Op K T} {s' : Scope T} (hvalid : ∀ s, o = some s → s.Valid)
    (h : ∀ s, o = some s → s.WithinBounds policy)
    (hs' : (op.act policy merge now o).1 = some s')
    (hfits : ∀ e, op = .admitEnvelope e → (o.getD (.new T e.generation)).Fits policy now e) :
    s'.WithinBounds policy := by
  have hvalid' : s'.Valid := op.valid_act hvalid hs'
  cases op.acted hs' with
  | same hs _ => exact h _ hs
  | new _ => exact Scope.withinBounds_new _
  | @reopen _ generation s hs =>
    refine (h s hs).of_le hvalid' ?_ ?_
    · rw [Scope.reopen]
      dsimp only
      split
      · exact Nat.zero_le _
      · split
        · exact Nat.zero_le _
        · exact le_rfl
    · rw [Scope.reopen]
      dsimp only
      split
      · exact Nat.zero_le _
      · split
        · exact le_rfl
        · exact le_rfl
  | suspend hs => exact (h _ hs).of_le hvalid' le_rfl le_rfl
  | @reconnect _ generation =>
    refine (Scope.withinBounds_getD h generation).of_le hvalid' ?_ ?_
    · rw [Scope.reconnect]
      dsimp only
      split
      · exact Nat.zero_le _
      · exact le_rfl
    · rw [Scope.reconnect]
      dsimp only
      split
      · exact Nat.zero_le _
      · exact le_rfl
  | close hs => exact (h _ hs).of_le hvalid' (Nat.zero_le _) (Nat.zero_le _)
  | fail => exact (Scope.withinBounds_getD h 0).of_le hvalid' le_rfl le_rfl
  | drain hs _ => exact (h _ hs).of_le hvalid' le_rfl (Nat.zero_le _)
  | @decide e _ =>
    exact (Scope.withinBounds_decide merge (Scope.withinBounds_getD h _) (Scope.valid_getD hvalid _)).mpr (hfits e rfl)

variable [DecidableEq K] {c c₀ : IngressCore K T} {ops : List (Op K T)}

def IngressCore.WithinBounds (c : IngressCore K T) : Prop :=
  ∀ key s, c.scope? key = some s → s.WithinBounds c.policy

/-- An envelope that the operation delivers finds room for all that is delivered with it. -/
def IngressCore.Fits (c : IngressCore K T) : Op K T → Prop
  | .admitEnvelope e => ((c.scope? e.key).getD (.new T e.generation)).Fits c.policy c.observedNow e
  | _ => True

/-- From scopes that are within their bounds, an operation leads to such scopes exactly if it fits. -/
theorem withinBounds_step (hvalid : ∀ key s, c.scope? key = some s → s.Valid) (h : c.WithinBounds) (op : Op K T) :
    (c.step op).core.WithinBounds ↔ c.Fits op := by
  have hpolicy : (c.step op).core.policy = c.policy := (c.config_step op).1
  constructor
  · intro hstep
    cases op with
    | admitEnvelope e =>
      intro hbounding hfenced hdelivers
      have hscope : (c.step (.admitEnvelope e)).core.scope? e.key =
          some (((c.scope? e.key).getD (.new T e.generation)).decide c.policy c.merge.merge c.observedNow e).1 := by
        rw [IngressCore.scope?_step]
        refine (if_pos rfl).trans (if_neg fun hand => hand.2 ?_)
        exact Scope.admitted_of_delivers hfenced hdelivers
      have hbounds := hstep e.key _ hscope
      rw [hpolicy] at hbounds
      have hbefore := Scope.withinBounds_getD (h e.key) e.generation
      have hvalid' := Scope.valid_getD (hvalid e.key) e.generation
      exact (Scope.withinBounds_decide _ hbefore hvalid').mp hbounds hbounding hfenced hdelivers
    | _ => trivial
  · intro hfits key s hs
    rw [hpolicy]
    rw [IngressCore.scope?_step] at hs
    split at hs
    · next hkey =>
      refine op.withinBounds_act (hvalid key) (h key) hs fun e he => ?_
      subst he
      obtain rfl := Option.some.inj hkey
      exact hfits
    · exact h key s hs

/-- At every moment of every run the bounds hold exactly if each envelope that is delivered finds room for all that
is delivered with it. -/
theorem withinBounds_iff {policy : IngressPolicy} {merge : MergePolicy T}
    (hnew : IngressCore.new K policy merge = .ok c₀) (ops : List (Op K T)) :
    (∀ before after, ops = before ++ after → (c₀.after before).WithinBounds) ↔
      Throughout (fun before op => (c₀.after before).Fits op) ops := by
  have hvalid (before : List (Op K T)) key s (hs : (c₀.after before).scope? key = some s) : s.Valid :=
    IngressCore.valid_of_reachable (IngressCore.reachable_after hnew before) hs
  constructor
  · intro h before op after hsplit
    have hstep := h (before ++ [op]) after (by rw [hsplit, append_assoc, singleton_append])
    rw [IngressCore.after_concat] at hstep
    exact (withinBounds_step (hvalid before) (h before (op :: after) hsplit) op).mp hstep
  · intro h before after hsplit
    have hbefore := (hsplit ▸ h : Throughout _ (before ++ after)).of_append
    clear hsplit
    induction before using reverseRecOn with
    | nil =>
      intro key s hs
      rw [IngressCore.after, IngressCore.scope?_new hnew] at hs
      cases hs
    | append_singleton before op ih =>
      obtain ⟨hthrough, hop⟩ := throughout_concat.mp hbefore
      rw [IngressCore.after_concat]
      exact (withinBounds_step (hvalid before) (ih hthrough) op).mpr hop

def twoWaiting : List (Op ℕ ℕ) :=
  [.admitEnvelope ⟨0, 1, 1, 0, 7⟩, .admitEnvelope ⟨0, 1, 0, 0, 5⟩]

theorem withinBounds_iff_two : ∃ c : IngressCore ℕ ℕ,
      IngressCore.new ℕ { highWater := 2, overflow := .block } { merge := (· + ·) } = .ok c ∧
        ((∀ before after, twoWaiting = before ++ after → (c.after before).WithinBounds) ↔
          Throughout (fun before op => (c.after before).Fits op) twoWaiting) := by
  have hnew : ∃ c, IngressCore.new ℕ { highWater := 2, overflow := .block } { merge := ((· + ·) : ℕ → ℕ → ℕ) } =
    .ok c :=
    ⟨_, rfl⟩
  obtain ⟨c, hc⟩ := hnew
  exact ⟨c, hc, withinBounds_iff hc twoWaiting⟩

/-- With room for one payload, the envelope at the start and the one that waits behind it are both delivered. -/
theorem not_always_withinBounds :
    ¬ ∀ (policy : IngressPolicy) (merge : MergePolicy ℕ) (c₀ : IngressCore ℕ ℕ) (ops : List (Op ℕ ℕ)),
      1 ≤ policy.highWater → IngressCore.new ℕ policy merge = .ok c₀ → (c₀.after ops).WithinBounds := by
  intro h
  have hbounds := h { highWater := 1, overflow := .block } { merge := (· + ·) } _ twoWaiting le_rfl rfl 0 _ rfl
  have hdepth := hbounds.depth rfl
  revert hdepth
  decide

end LazilyPy.Ingress

import LazilyPy.Lib.Chronological
import Mathlib.Data.List.Basic

/-!
# Leases

A lease is held by one peer until it expires. Each grant has a greater fence than the grants before it. That a lease has
expired is only seen by the next operation that looks at it.
-/

namespace LazilyPy.Coordination

open List

structure LeaseCore (P : Type) where
  holder : Option P := none
  expiry : ℤ := 0
  fence : ℕ := 0
  deriving DecidableEq

variable {P : Type}

namespace LeaseCore

def isExpired (s : LeaseCore P) (now : ℤ) : Bool :=
  s.holder.isSome && s.expiry ≤ now

def isHeld (s : LeaseCore P) (now : ℤ) : Bool :=
  s.holder.isSome && !s.isExpired now

/-- The holder, as long as the lease is held. -/
def holderAt (s : LeaseCore P) (now : ℤ) : Option P :=
  if s.isHeld now then s.holder else none

def acquire [DecidableEq P] (s : LeaseCore P) (peer : P) (now ttl : ℤ) : Option ℕ × LeaseCore P :=
  if s.holder.isNone || s.isExpired now then
    (some (s.fence + 1), ⟨some peer, now + ttl, s.fence + 1⟩)
  else if s.holder = some peer then (some s.fence, { s with expiry := now + ttl })
  else (none, s)

def renew [DecidableEq P] (s : LeaseCore P) (peer : P) (now ttl : ℤ) : Bool × LeaseCore P :=
  if s.isHeld now && s.holder = some peer then (true, { s with expiry := now + ttl }) else (false, s)

def release [DecidableEq P] (s : LeaseCore P) (peer : P) : LeaseCore P :=
  if s.holder = some peer then { s with holder := none } else s

def tick (s : LeaseCore P) (now : ℤ) : Bool × LeaseCore P :=
  if s.isExpired now then (true, { s with holder := none }) else (false, s)

/-- The lease has no holder or is expired, or it is held by a peer before its expiry. -/
theorem free_or_held (s : LeaseCore P) (now : ℤ) :
    ((s.holder = none ∨ s.expiry ≤ now) ∧ (s.holder.isNone || s.isExpired now) = true ∧ s.isHeld now = false) ∨
    ∃ p, s.holder = some p ∧ now < s.expiry ∧ (s.holder.isNone || s.isExpired now) = false ∧ s.isHeld now = true := by
  cases hholder : s.holder with
  | none => exact .inl ⟨.inl rfl, rfl, by rw [isHeld, hholder]; rfl⟩
  | some p =>
    by_cases hexpired : s.expiry ≤ now
    · exact .inl ⟨.inr hexpired, by simp [isExpired, hholder, hexpired], by simp [isHeld, isExpired, hholder, hexpired]⟩
    · refine .inr ⟨p, rfl, not_le.mp hexpired, ?_, ?_⟩
      · simp [isExpired, hexpired]
      · simp [isHeld, isExpired, hholder, hexpired]

end LeaseCore

/-! ## Tenures -/

/-- What a peer does, or the clock, at a reading of the clock. -/
inductive LeaseOp (P : Type) where
  | acquire (peer : P) (now ttl : ℤ)
  | renew (peer : P) (now ttl : ℤ)
  | release (peer : P) (now : ℤ)
  | tick (now : ℤ)

namespace LeaseOp

def time : LeaseOp P → ℤ
  | acquire _ now _ => now
  | renew _ now _ => now
  | release _ now => now
  | tick now => now

def ttl : LeaseOp P → ℤ
  | acquire _ _ ttl => ttl
  | renew _ _ ttl => ttl
  | _ => 0

end LeaseOp

/-- A grant to a peer. It ends at its expiry, or when it is released before. -/
structure Tenure (P : Type) where
  peer : P
  fence : ℕ
  start : ℤ
  stop : ℤ
  deriving DecidableEq

/-- The lease, with its tenures as the results of the operations tell them, the last one at the end. -/
structure Leases (P : Type) where
  core : LeaseCore P := {}
  tenures : List (Tenure P) := []

namespace Leases

/-- The last tenure goes on to another end. -/
def extend (tenures : List (Tenure P)) (stop : ℤ) : List (Tenure P) :=
  tenures.dropLast ++ (tenures.getLast?.map fun t => { t with stop }).toList

/-- A fence that the last tenure has already renews it. -/
def granted (tenures : List (Tenure P)) (peer : P) (fence : ℕ) (now stop : ℤ) : List (Tenure P) :=
  if tenures.getLast?.any (·.fence = fence) then extend tenures stop else tenures ++ [⟨peer, fence, now, stop⟩]

/-- If the last tenure is that of the peer, it does not go on. -/
def released [DecidableEq P] (tenures : List (Tenure P)) (peer : P) (now : ℤ) : List (Tenure P) :=
  match tenures.getLast? with
  | some t => if t.peer = peer then extend tenures (min t.stop now) else tenures
  | none => tenures

def step [DecidableEq P] (w : Leases P) : LeaseOp P → Leases P
  | .acquire peer now ttl =>
    let (fence, core) := w.core.acquire peer now ttl
    ⟨core, match fence with
      | some fence => granted w.tenures peer fence now (now + ttl)
      | none => w.tenures⟩
  | .renew peer now ttl =>
    let (renewed, core) := w.core.renew peer now ttl
    ⟨core, if renewed then extend w.tenures (now + ttl) else w.tenures⟩
  | .release peer now => ⟨w.core.release peer, released w.tenures peer now⟩
  | .tick now => ⟨(w.core.tick now).2, w.tenures⟩

def run [DecidableEq P] (ops : List (LeaseOp P)) : Leases P :=
  ops.foldl step {}

variable {w : Leases P} {t : Tenure P} {before : List (Tenure P)} {now now' stop : ℤ} {peer : P}

theorem extend_concat : extend (before ++ [t]) stop = before ++ [{ t with stop }] := by
  simp [extend]

/-- Tenures stand in their order, the last one is that of the holder, and without a holder all are over. -/
structure Sound (now : ℤ) (w : Leases P) : Prop where
  apart : w.tenures.Pairwise fun t t' => t.stop ≤ t'.start ∧ t.fence < t'.fence
  proper : ∀ t ∈ w.tenures, t.start ≤ t.stop ∧ t.start ≤ now ∧ t.fence ≤ w.core.fence
  held : ∀ p, w.core.holder = some p →
    ∃ before t, w.tenures = before ++ [t] ∧ t.peer = p ∧ t.stop = w.core.expiry ∧ t.fence = w.core.fence
  free : w.core.holder = none → ∀ t ∈ w.tenures, t.stop ≤ now

theorem Sound.mono (h : Sound now w) (hle : now ≤ now') : Sound now' w where
  apart := h.apart
  proper t ht := ⟨(h.proper t ht).1, (h.proper t ht).2.1.trans hle, (h.proper t ht).2.2⟩
  held := h.held
  free hnone t ht := (h.free hnone t ht).trans hle

/-- All tenures but the last are over. -/
theorem Sound.stop_le (h : Sound now w) (heq : w.tenures = before ++ [t]) : ∀ t' ∈ before, t'.stop ≤ now := by
  intro t' ht'
  have hapart := h.apart
  rw [heq, pairwise_append] at hapart
  have hstart := (h.proper t (heq ▸ by simp)).2.1
  exact (hapart.2.2 t' ht' t (by simp)).1.trans hstart

theorem Sound.over (h : Sound now w) (hfree : w.core.holder = none ∨ w.core.expiry ≤ now) :
    ∀ t ∈ w.tenures, t.stop ≤ now := by
  cases hholder : w.core.holder with
  | none => exact h.free hholder
  | some p =>
    have hexpired : w.core.expiry ≤ now := by
      obtain hnone | hexpired := hfree
      · rw [hnone] at hholder
        cases hholder
      · exact hexpired
    obtain ⟨before, t, heq, -, hstop, -⟩ := h.held p hholder
    rw [heq]
    refine forall_mem_append.mpr ⟨h.stop_le heq, ?_⟩
    simpa [hstop] using hexpired

/-- The last tenure goes on, or is over before. -/
theorem Sound.extend (h : Sound now w) (heq : w.tenures = before ++ [t]) {core : LeaseCore P}
    (hfence : core.fence = w.core.fence) (hstart : t.start ≤ stop)
    (hheld : ∀ p, core.holder = some p → t.peer = p ∧ stop = core.expiry ∧ t.fence = core.fence)
    (hfree : core.holder = none → stop ≤ now) : Sound now ⟨core, before ++ [{ t with stop }]⟩ where
  apart := by
    have hapart := h.apart
    rw [heq, pairwise_append] at hapart
    refine pairwise_append.mpr ⟨hapart.1, pairwise_singleton _ _, fun t' ht' u hu => ?_⟩
    obtain rfl := mem_singleton.mp hu
    exact hapart.2.2 t' ht' t (by simp)
  proper := by
    have hproper := h.proper
    rw [heq] at hproper
    obtain ⟨hbefore, ht⟩ := forall_mem_append.mp hproper
    rw [hfence]
    refine forall_mem_append.mpr ⟨hbefore, ?_⟩
    have hlast := ht t (by simp)
    simpa using ⟨hstart, hlast.2⟩
  held p hp := by
    obtain ⟨hpeer, hstop, hf⟩ := hheld p hp
    exact ⟨before, _, rfl, hpeer, hstop, hf⟩
  free hnone := by
    refine forall_mem_append.mpr ⟨h.stop_le heq, ?_⟩
    simpa using hfree hnone

/-- What goes on at a reading of the clock is not one of the tenures that have ended. -/
theorem mem_renewed {tenures : List (Tenure P)} (heq : tenures = before ++ [t]) (hlt : now < t.stop) {t' : Tenure P}
    (ht' : t' ∈ tenures) (hle : t'.stop ≤ now) : t' ∈ before ++ [{ t with stop }] := by
  rw [heq] at ht'
  obtain ht' | ht' := mem_append.mp ht'
  · exact mem_append_left _ ht'
  · obtain rfl := mem_singleton.mp ht'
    exact absurd hlt (not_lt.mpr hle)

variable [DecidableEq P]

/-- A grant comes when all tenures are over, and a renewal while the last one goes on. -/
theorem Sound.acquire (h : Sound now w) (peer : P) {ttl : ℤ} (httl : 0 ≤ ttl) :
    Sound now (w.step (.acquire peer now ttl)) ∧ ∀ f, (w.core.acquire peer now ttl).1 = some f →
      ((∀ t ∈ w.tenures, t.stop ≤ now ∧ t.fence < f) ∧
        (w.step (.acquire peer now ttl)).tenures = w.tenures ++ [⟨peer, f, now, now + ttl⟩]) ∨
      ∃ before t, w.tenures = before ++ [t] ∧ t.peer = peer ∧ t.fence = f ∧ now < t.stop ∧
        (w.step (.acquire peer now ttl)).tenures = before ++ [{ t with stop := now + ttl }] := by
  obtain ⟨hfree, hacquire, -⟩ | ⟨p, hholder, hexpiry, hacquire, -⟩ := w.core.free_or_held now
  · have hresult : w.core.acquire peer now ttl =
        (some (w.core.fence + 1), ⟨some peer, now + ttl, w.core.fence + 1⟩) := by rw [LeaseCore.acquire, hacquire]; rfl
    have hlast : w.tenures.getLast?.any (·.fence = w.core.fence + 1) = false := by
      rw [Option.any_eq_false]
      intro t ht
      have hle := (h.proper t (mem_of_getLast? ht)).2.2
      have hne : t.fence ≠ w.core.fence + 1 := by omega
      simpa using hne
    have hstep : w.step (.acquire peer now ttl) =
        ⟨⟨some peer, now + ttl, w.core.fence + 1⟩, w.tenures ++ [⟨peer, w.core.fence + 1, now, now + ttl⟩]⟩ := by
      simp only [step, hresult, granted, hlast, if_false, Bool.false_eq_true]
    have hover := h.over hfree
    rw [hstep, hresult]
    refine ⟨⟨?_, ?_, fun p hp => ?_, nofun⟩, fun f hf => .inl ?_⟩
    · refine pairwise_append.mpr ⟨h.apart, pairwise_singleton _ _, fun t ht u hu => ?_⟩
      obtain rfl := mem_singleton.mp hu
      exact ⟨hover t ht, Nat.lt_succ_of_le (h.proper t ht).2.2⟩
    · refine forall_mem_append.mpr ⟨fun t ht => ?_, ?_⟩
      · exact ⟨(h.proper t ht).1, (h.proper t ht).2.1, (h.proper t ht).2.2.trans (Nat.le_succ _)⟩
      · simpa using httl
    · exact ⟨w.tenures, _, rfl, Option.some.inj hp, rfl, rfl⟩
    · obtain rfl : w.core.fence + 1 = f := Option.some.inj hf
      exact ⟨fun t ht => ⟨hover t ht, Nat.lt_succ_of_le (h.proper t ht).2.2⟩, rfl⟩
  · by_cases hpeer : p = peer
    · subst hpeer
      obtain ⟨before, t, heq, rfl, hstop, hfence⟩ := h.held p hholder
      have hresult : w.core.acquire t.peer now ttl = (some w.core.fence, { w.core with expiry := now + ttl }) := by
        rw [LeaseCore.acquire, hacquire, if_neg Bool.false_ne_true, if_pos hholder]
      have hstep : w.step (.acquire t.peer now ttl) =
          ⟨{ w.core with expiry := now + ttl }, before ++ [{ t with stop := now + ttl }]⟩ := by
        have hlast : (before ++ [t]).getLast?.any (·.fence = w.core.fence) = true := by simp [hfence]
        simp only [step, hresult, granted, heq, hlast, if_true, extend_concat]
      have hstart : t.start ≤ now + ttl := by
        have hlast := (h.proper t (heq ▸ by simp)).2.1
        omega
      rw [hstep, hresult]
      refine ⟨h.extend heq rfl hstart (fun q hq => ?_) fun hnone => ?_, fun f hf => .inr ?_⟩
      · exact ⟨Option.some.inj (hholder.symm.trans hq), rfl, hfence⟩
      · cases hholder.symm.trans hnone
      · obtain rfl : w.core.fence = f := Option.some.inj hf
        exact ⟨before, t, heq, rfl, hfence, hstop ▸ hexpiry, rfl⟩
    · have hresult : w.core.acquire peer now ttl = (none, w.core) := by
        rw [LeaseCore.acquire, hacquire, if_neg Bool.false_ne_true,
          if_neg fun heq => hpeer (Option.some.inj (hholder.symm.trans heq))]
      have hstep : w.step (.acquire peer now ttl) = w := by simp only [step, hresult]
      rw [hstep, hresult]
      exact ⟨h, fun _ => nofun⟩

theorem Sound.renew (h : Sound now w) (peer : P) {ttl : ℤ} (httl : 0 ≤ ttl) :
    Sound now (w.step (.renew peer now ttl)) ∧ ((w.core.renew peer now ttl).1 = true →
      ∃ before t, w.tenures = before ++ [t] ∧ t.peer = peer ∧ now < t.stop ∧
        (w.core.renew peer now ttl).2.fence = t.fence ∧
        (w.step (.renew peer now ttl)).tenures = before ++ [{ t with stop := now + ttl }]) ∧
      ((w.core.renew peer now ttl).1 = false → w.step (.renew peer now ttl) = w) := by
  by_cases hrenew : (w.core.isHeld now && w.core.holder = some peer) = true
  · have hresult : w.core.renew peer now ttl = (true, { w.core with expiry := now + ttl }) := by
      rw [LeaseCore.renew, if_pos hrenew]
    rw [Bool.and_eq_true, decide_eq_true_eq] at hrenew
    obtain ⟨hheld, hholder⟩ := hrenew
    obtain ⟨before, t, heq, rfl, hstop, hfence⟩ := h.held peer hholder
    have hexpiry : now < w.core.expiry := by
      obtain ⟨-, -, hnot⟩ | ⟨-, -, hlt, -⟩ := w.core.free_or_held now
      · rw [hnot] at hheld
        cases hheld
      · exact hlt
    have hstep : w.step (.renew t.peer now ttl) =
        ⟨{ w.core with expiry := now + ttl }, before ++ [{ t with stop := now + ttl }]⟩ := by
      simp only [step, hresult, heq, if_true, extend_concat]
    have hstart : t.start ≤ now + ttl := by
      have hlast := (h.proper t (heq ▸ by simp)).2.1
      omega
    rw [hstep, hresult]
    refine ⟨h.extend heq rfl hstart (fun q hq => ?_) fun hnone => ?_, fun _ => ?_, nofun⟩
    · exact ⟨Option.some.inj (hholder.symm.trans hq), rfl, hfence⟩
    · cases hholder.symm.trans hnone
    · exact ⟨before, t, heq, rfl, hstop ▸ hexpiry, hfence.symm, rfl⟩
  · have hresult : w.core.renew peer now ttl = (false, w.core) := by rw [LeaseCore.renew, if_neg hrenew]
    have hstep : w.step (.renew peer now ttl) = w := by
      simp only [step, hresult, if_false, Bool.false_eq_true]
    rw [hstep, hresult]
    exact ⟨h, nofun, fun _ => rfl⟩

theorem Sound.release (h : Sound now w) (peer : P) : Sound now (w.step (.release peer now)) ∧
    ∀ t ∈ w.tenures, t.stop ≤ now → t ∈ (w.step (.release peer now)).tenures := by
  rw [step, released]
  by_cases hholder : w.core.holder = some peer
  · obtain ⟨before, t, heq, rfl, hstop, hfence⟩ := h.held peer hholder
    have hcore : w.core.release t.peer = { w.core with holder := none } := if_pos hholder
    have hlast := h.proper t (heq ▸ by simp)
    rw [heq, hcore]
    simp only [getLast?_append, getLast?_singleton, Option.some_or, if_true, extend_concat]
    refine ⟨h.extend heq rfl (le_min hlast.1 hlast.2.1) nofun fun _ => min_le_right _ _, fun t' ht' hle => ?_⟩
    · obtain ht' | ht' := mem_append.mp ht'
      · exact mem_append_left _ ht'
      · obtain rfl := mem_singleton.mp ht'
        rw [min_eq_left hle]
        exact mem_append_right _ (by simp)
  · have hcore : w.core.release peer = w.core := if_neg hholder
    -- a tenure of the peer is over already
    have hsame : (match w.tenures.getLast? with
        | some t => if t.peer = peer then Leases.extend w.tenures (min t.stop now) else w.tenures
        | none => w.tenures) = w.tenures := by
      obtain hnil | ⟨before, t, heq⟩ := eq_nil_or_concat w.tenures
      · rw [hnil]
        rfl
      · rw [concat_eq_append] at heq
        rw [heq]
        simp only [getLast?_append, getLast?_singleton, Option.some_or, extend_concat]
        split
        · next hpeer =>
          have hstop : t.stop ≤ now := by
            cases hcase : w.core.holder with
            | none => exact h.free hcase t (heq ▸ by simp)
            | some p =>
              obtain ⟨before', t', heq', hp, -⟩ := h.held p hcase
              obtain rfl : t = t' := by simpa using (append_inj' (heq.symm.trans heq') rfl).2
              exact absurd (hcase.trans (congrArg some (hp.symm.trans hpeer))) hholder
          rw [min_eq_left hstop]
        · rfl
    rw [hcore, hsame]
    exact ⟨h, fun t ht _ => ht⟩

theorem Sound.tick (h : Sound now w) : Sound now (w.step (.tick now)) := by
  rw [step, LeaseCore.tick]
  split
  · next hexpired =>
    have hle : w.core.expiry ≤ now := by
      rw [LeaseCore.isExpired, Bool.and_eq_true, decide_eq_true_eq] at hexpired
      exact hexpired.2
    exact ⟨h.apart, h.proper, nofun, fun _ => h.over (.inr hle)⟩
  · exact h

/-- What an operation at its reading of the clock does to the tenures. -/
structure Fenced (w : Leases P) (op : LeaseOp P) : Prop where
  /-- A fence that is given is for a new tenure after the end of all, and above them, or for the one that goes on. -/
  acquired : ∀ peer now ttl f, op = .acquire peer now ttl → (w.core.acquire peer now ttl).1 = some f →
    ((∀ t ∈ w.tenures, t.stop ≤ now ∧ t.fence < f) ∧ (w.step op).tenures = w.tenures ++ [⟨peer, f, now, now + ttl⟩]) ∨
    ∃ before t, w.tenures = before ++ [t] ∧ t.peer = peer ∧ t.fence = f ∧ now < t.stop ∧
      (w.step op).tenures = before ++ [{ t with stop := now + ttl }]
  /-- Only the peer of a tenure that goes on renews it, and it keeps its fence. -/
  renewed : ∀ peer now ttl, op = .renew peer now ttl → (w.core.renew peer now ttl).1 = true →
    ∃ before t, w.tenures = before ++ [t] ∧ t.peer = peer ∧ now < t.stop ∧
      (w.core.renew peer now ttl).2.fence = t.fence ∧ (w.step op).tenures = before ++ [{ t with stop := now + ttl }]
  /-- A tenure that has ended stays as it is. -/
  ended : ∀ t ∈ w.tenures, t.stop ≤ op.time → t ∈ (w.step op).tenures

theorem Sound.step (op : LeaseOp P) (h : Sound op.time w) (httl : 0 ≤ op.ttl) :
    Sound op.time (w.step op) ∧ Fenced w op := by
  cases op with
  | acquire peer now ttl =>
    have h : Sound now w := h
    have httl : 0 ≤ ttl := httl
    obtain ⟨hsound, hacquired⟩ := h.acquire peer httl
    refine ⟨hsound, ⟨fun peer now ttl f hop hf => ?_, nofun, fun t ht hle => ?_⟩⟩
    · cases hop
      exact hacquired f hf
    · cases hf : (w.core.acquire peer now ttl).1 with
      | none =>
        simp only [Leases.step, hf]
        exact ht
      | some f =>
        obtain ⟨-, heq⟩ | ⟨before, t', hsplit, -, -, hlt, heq⟩ := hacquired f hf
        · rw [heq]
          exact mem_append_left _ ht
        · rw [heq]
          exact mem_renewed hsplit hlt ht hle
  | renew peer now ttl =>
    have h : Sound now w := h
    have httl : 0 ≤ ttl := httl
    obtain ⟨hsound, hrenewed, hrefused⟩ := h.renew peer httl
    refine ⟨hsound, ⟨nofun, fun peer now ttl hop hrenew => ?_, fun t ht hle => ?_⟩⟩
    · cases hop
      exact hrenewed hrenew
    · cases hrenew : (w.core.renew peer now ttl).1 with
      | false =>
        rw [hrefused hrenew]
        exact ht
      | true =>
        obtain ⟨before, t', hsplit, -, hlt, -, heq⟩ := hrenewed hrenew
        rw [heq]
        exact mem_renewed hsplit hlt ht hle
  | release peer now =>
    have h : Sound now w := h
    exact ⟨(h.release peer).1, nofun, nofun, (h.release peer).2⟩
  | tick now =>
    have h : Sound now w := h
    exact ⟨h.tick, nofun, nofun, fun t ht _ => ht⟩

theorem run_concat (ops : List (LeaseOp P)) (op : LeaseOp P) : run (ops ++ [op]) = (run ops).step op :=
  foldl_concat ..

theorem sound_run {ops : List (LeaseOp P)} (hclock : Chronological LeaseOp.time ops) (httl : ∀ op ∈ ops, 0 ≤ op.ttl)
    (hnow : ∀ op ∈ ops, op.time ≤ now) : Sound now (run ops) := by
  induction ops using reverseRecOn generalizing now with
  | nil => exact ⟨Pairwise.nil, nofun, nofun, fun _ => nofun⟩
  | append_singleton ops op ih =>
    obtain ⟨hclock, hlast⟩ := chronological_concat.mp hclock
    obtain ⟨httl, hop⟩ := forall_mem_append.mp httl
    rw [run_concat]
    exact ((ih hclock httl hlast).step op (hop op (by simp))).1.mono (hnow op (by simp))

end Leases

theorem Leases.Sound.holderAt_iff {now : ℤ} {w : Leases P} {p : P} (h : w.Sound now) :
    w.core.holderAt now = some p ↔ ∃ t ∈ w.tenures, t.peer = p ∧ now < t.stop := by
  rw [LeaseCore.holderAt]
  obtain ⟨hfree, -, hnot⟩ | ⟨q, hholder, hexpiry, -, hheld⟩ := w.core.free_or_held now
  · rw [hnot, if_neg Bool.false_ne_true]
    refine iff_of_false (Option.some_ne_none p).symm ?_
    rintro ⟨t, ht, -, hlt⟩
    exact absurd (h.over hfree t ht) (not_le.mpr hlt)
  · obtain ⟨before, t, heq, rfl, hstop, -⟩ := h.held q hholder
    rw [if_pos hheld, hholder, Option.some.injEq, heq]
    refine ⟨fun hp => ⟨t, by simp, hp, hstop ▸ hexpiry⟩, ?_⟩
    rintro ⟨t', ht', rfl, hlt⟩
    obtain ht' | ht' := mem_append.mp ht'
    · exact absurd (h.stop_le heq t' ht') (not_le.mpr hlt)
    · rw [mem_singleton.mp ht']

/-- In every run the live holder is the peer of the tenure that goes on, and without one there is none. -/
theorem holder_iff_tenure [DecidableEq P] {ops : List (LeaseOp P)} (hclock : Chronological LeaseOp.time ops)
    (httl : ∀ op ∈ ops, 0 ≤ op.ttl) {now : ℤ} (hnow : ∀ op ∈ ops, op.time ≤ now) (p : P) :
    (Leases.run ops).core.holderAt now = some p ↔ ∃ t ∈ (Leases.run ops).tenures, t.peer = p ∧ now < t.stop :=
  (Leases.sound_run hclock httl hnow).holderAt_iff

/-- Between the grant and its expiry, which no one has noticed yet. -/
theorem holder_iff_tenure_expired : (Leases.run [.acquire 1 0 10]).core.holderAt 9 = some 1 ∧
    (Leases.run [.acquire 1 0 10]).core.holderAt 10 ≠ some 1 := by
  constructor
  · exact (@holder_iff_tenure ℕ _ [.acquire 1 0 10] (by decide) (by decide) 9 (by decide) 1).mpr (by decide)
  · exact (@holder_iff_tenure ℕ _ [.acquire 1 0 10] (by decide) (by decide) 10 (by decide) 1).not.mpr (by decide)

/-! ## The lock -/

/-- A lock over a lease, with what is shown of it. -/
structure LockCell (P : Type) where
  core : LeaseCore P := {}
  isLocked : Bool := false

inductive LockOp (P : Type) where
  | acquire (peer : P) (now ttl : ℤ)
  | release (peer : P) (now : ℤ)
  | tick (now : ℤ)

/-- What a lock has its lease do. -/
def LockOp.lease : LockOp P → LeaseOp P
  | acquire peer now ttl => .acquire peer now ttl
  | release peer now => .release peer now
  | tick now => .tick now

namespace LockCell

def refresh (core : LeaseCore P) (now : ℤ) : LockCell P :=
  ⟨core, core.isHeld now⟩

def step [DecidableEq P] (l : LockCell P) : LockOp P → LockCell P
  | .acquire peer now ttl => refresh (l.core.acquire peer now ttl).2 now
  | .release peer now => refresh (l.core.release peer) now
  | .tick now => refresh (l.core.tick now).2 now

def run [DecidableEq P] (ops : List (LockOp P)) : LockCell P :=
  ops.foldl step {}

/-- Whether the fence is the current one. -/
def validate (l : LockCell P) (fence : ℕ) : Bool :=
  l.core.fence = fence

theorem core_run [DecidableEq P] (ops : List (LockOp P)) :
    (run ops).core = (Leases.run (ops.map LockOp.lease)).core := by
  induction ops using reverseRecOn with
  | nil => rfl
  | append_singleton ops op ih =>
    have hrun : run (ops ++ [op]) = (run ops).step op := foldl_concat ..
    rw [hrun, map_append, map_singleton, Leases.run_concat]
    cases op with
    | acquire peer now ttl => simp only [step, refresh, LockOp.lease, Leases.step, ih]
    | release peer now => simp only [step, refresh, LockOp.lease, Leases.step, ih]
    | tick now => simp only [step, refresh, LockOp.lease, Leases.step, ih]

end LockCell

/-- In every run the tenures follow each other with growing fences, every operation keeps to them, and the fence of a
tenure before the last is no longer that of the lock. -/
theorem tenures_disjoint_and_fenced [DecidableEq P] {ops : List (LeaseOp P)} (hclock : Chronological LeaseOp.time ops)
    (httl : ∀ op ∈ ops, 0 ≤ op.ttl) {lockOps : List (LockOp P)}
    (hlockClock : Chronological LeaseOp.time (lockOps.map LockOp.lease))
    (hlockTtl : ∀ op ∈ lockOps.map LockOp.lease, 0 ≤ op.ttl) :
    (Leases.run ops).tenures.Pairwise (fun t t' => t.stop ≤ t'.start ∧ t.fence < t'.fence) ∧
      (∀ before op after, ops = before ++ op :: after → (Leases.run before).Fenced op) ∧
      ∀ before t t' after, (Leases.run (lockOps.map LockOp.lease)).tenures = before ++ t :: t' :: after →
        (LockCell.run lockOps).validate t.fence = false := by
  have hlast : ∀ {l : List (LeaseOp P)}, ∃ now, ∀ op ∈ l, op.time ≤ now := by
    intro l
    refine ⟨(l.map LeaseOp.time).foldr max 0, fun op hop => ?_⟩
    induction l with
    | nil => cases hop
    | cons a l ih =>
      obtain rfl | hop := mem_cons.mp hop
      · exact le_max_left _ _
      · exact (ih hop).trans (le_max_right _ _)
  obtain ⟨now, hnow⟩ := hlast (l := ops)
  refine ⟨(Leases.sound_run hclock httl hnow).apart, ?_, ?_⟩
  · rintro before op after rfl
    have hsplit : before ++ op :: after = (before ++ [op]) ++ after := by simp
    have hbefore : Chronological LeaseOp.time (before ++ [op]) := by
      rw [hsplit] at hclock
      exact (pairwise_append.mp hclock).1
    obtain ⟨hclock, hlast⟩ := chronological_concat.mp hbefore
    have hsound := Leases.sound_run hclock (fun op hop => httl op (mem_append_left _ hop)) hlast
    exact (hsound.step op (httl op (by simp))).2
  · intro before t t' after heq
    obtain ⟨now, hnow⟩ := hlast (l := lockOps.map LockOp.lease)
    have hsound := Leases.sound_run hlockClock hlockTtl hnow
    have hapart := hsound.apart
    rw [heq] at hapart
    have hfence := (hsound.proper t' (heq ▸ by simp)).2.2
    have hlt : t.fence < t'.fence :=
      ((pairwise_cons.mp (pairwise_append.mp hapart).2.1).1 t' mem_cons_self).2
    rw [LockCell.validate, LockCell.core_run, decide_eq_false_iff_not]
    omega

/-- A peer that comes back after its lease has expired, and one that takes over. -/
theorem tenures_disjoint_and_fenced_expired : (LockCell.run [.acquire 1 0 10, .acquire 2 10 5]).validate 1 = false := by
  have h := @tenures_disjoint_and_fenced ℕ _ [.acquire 1 0 10, .renew 1 12 5, .acquire 2 12 5] (by decide) (by decide)
    [.acquire 1 0 10, .acquire 2 10 5] (by decide) (by decide)
  exact h.2.2 [] ⟨1, 1, 0, 10⟩ ⟨2, 2, 10, 15⟩ [] rfl

end LazilyPy.Coordination

import LazilyPy.Ingress.Step

/-!
# The change flags every reader that shows something else

A shell reads again only the readers that a change flags. An operation is sound when no other reader
shows anything new. `suspend`, `close`, `tick`, `fail` and `drain` always are. `open`, `reconnect`
and `admit` are not on a few branches, and `Unflagged` says on which.
-/

namespace LazilyPy.Ingress

open Option hiding or_self
open Scope (base bufferedChange clearWindow handOff liveOrOpening order_of_parks order_of_refused reopen stamp view)
open IngressScopeChange (all creation readinessOnly retryOnly union valueOnly)

variable {K T : Type}

/-! ## Readings -/

structure Readings (T : Type) where
  value : Option T
  readiness : IngressReadiness
  authority : Option IngressAuthority
  retry : Option IngressRetry

def readings (policy : IngressPolicy) (now : ℤ) : Option (Scope T) → Readings T
  | none => ⟨none, .unknown, none, none⟩
  | some s =>
    ⟨s.window, (s.view now policy).readiness, (s.view now policy).authority, (s.view now policy).retry⟩

structure IngressScopeChange.Covers (m : IngressScopeChange) (r r' : Readings T) : Prop where
  value : r'.value ≠ r.value → m.value = true
  readiness : r'.readiness ≠ r.readiness → m.readiness = true
  authority : r'.authority ≠ r.authority → m.authority = true
  retry : r'.retry ≠ r.retry → m.retry = true

/-- The change flags every reader of `key` that shows something else at `c'` than at `c`. -/
structure Covered [DecidableEq K] (change : IngressChange K) (key : K) (c c' : IngressCore K T) : Prop where
  value : c'.peek key ≠ c.peek key → change.Flags key (·.value)
  readiness : c'.readiness key ≠ c.readiness key → change.Flags key (·.readiness)
  authority : c'.authority key ≠ c.authority key → change.Flags key (·.authority)
  retry : c'.retry key ≠ c.retry key → change.Flags key (·.retry)

/-- The change that the operation returns flags every reader that shows something else. -/
def Sound [DecidableEq K] (c : IngressCore K T) (op : Op K T) : Prop :=
  ∀ key, Covered (c.step op).change key c (c.step op).core

/-! ## The branches that leave a reader out -/

namespace Scope

/-- `open` forgets the errors of a closed scope, or takes back what a scope has delivered, without a
word about its retry; and without one about its readiness where the scope is live. -/
def ReopenUnflagged (s : Scope T) (generation : ℤ) : Prop :=
  s.lifecycle = .closed ∧ s.consecutiveErrors ≠ 0 ∨
    s.lifecycle ≠ .closed ∧ s.generation < generation ∧ s.deliveredThrough ≠ none ∧
      (s.lifecycle = .live ∨ s.consecutiveErrors ≠ 0)

/-- `reconnect` gives a closed scope its authority back, at the generation that it had. -/
def ReconnectUnflagged (s : Scope T) (generation : ℤ) : Prop :=
  s.lifecycle = .closed ∧ generation ≤ s.generation

/-- The envelope takes the scope over and is then refused, or it waits while the scope retries. -/
def AdmitUnflagged (policy : IngressPolicy) (now : ℤ) (s : Scope T) (e : IngressEnvelope K T) : Prop :=
  ¬ s.Fenced policy now e ∧ s.generation < e.generation ∧ (e.sequence < 0 ∨ 0 < e.sequence ∧
        (policy.reorderWindow = 0 ∨ s.deliveredThrough ≠ none ∧ s.consecutiveErrors ≠ 0) ∨
      e.sequence = 0 ∧ policy.highWater = 0 ∧ (policy.overflow = .block ∨ policy.overflow = .dropNewest))

end Scope

def Unflagged [DecidableEq K] (c : IngressCore K T) : Op K T → Prop
  | .open key generation => ∃ s, c.scope? key = some s ∧ s.ReopenUnflagged generation
  | .reconnect key generation => ∃ s, c.scope? key = some s ∧ s.ReconnectUnflagged generation
  | .admitEnvelope e => ∃ s, c.scope? e.key = some s ∧ s.AdmitUnflagged c.policy c.observedNow e
  | _ => False

/-! ## When a reading stays -/

section View

variable {policy : IngressPolicy} {now : ℤ} {s s' : Scope T}

theorem authority_of_closed (h : s.lifecycle = .closed) : (readings policy now (some s)).authority = none :=
  if_pos h

theorem authority_of_ne (h : s.lifecycle ≠ .closed) :
    (readings policy now (some s)).authority = some ⟨s.generation, s.deliveredThrough, s.stampedAt⟩ :=
  if_neg h

theorem retry_of_ne (h : s.consecutiveErrors ≠ 0) :
    ∃ backoff, (readings policy now (some s)).retry = some ⟨s.consecutiveErrors, backoff, s.nextExpected⟩ :=
  ⟨_, if_neg h⟩

theorem retry_eq_none : (readings policy now (some s)).retry = none ↔ s.consecutiveErrors = 0 := by
  constructor
  · intro h
    by_contra hne
    obtain ⟨backoff, hsome⟩ : ∃ backoff, (readings policy now (some s)).retry = some ⟨_, backoff, _⟩ := retry_of_ne hne
    rw [h] at hsome
    cases hsome
  · intro h
    exact if_pos h

theorem readiness_congr (hlife : s'.lifecycle = s.lifecycle)
    (hcursor : s'.deliveredThrough = s.deliveredThrough) (hstamp : s'.stampedAt = s.stampedAt) :
    (readings policy now (some s')).readiness = (readings policy now (some s)).readiness := by
  simp only [readings, ScopeView.readiness, ScopeView.isFresh, view, hlife, hcursor, hstamp]
  rfl

/-- What has delivered nothing is warming, unless it is suspended or closed. -/
theorem readiness_warming (hlife : s.lifecycle = .opening ∨ s.lifecycle = .live)
    (hcursor : s.deliveredThrough = none) : (readings policy now (some s)).readiness = .warming := by
  cases hlife with
  | inl hlife => simp [readings, ScopeView.readiness, view, hlife]
  | inr hlife => simp [readings, ScopeView.readiness, view, hlife, hcursor]

theorem readiness_live_ne_warming (hlife : s.lifecycle = .live)
    (hcursor : s.deliveredThrough ≠ none) : (readings policy now (some s)).readiness ≠ .warming := by
  obtain ⟨d, hd⟩ := ne_none_iff_exists'.mp hcursor
  simp only [readings, ScopeView.readiness, view, hlife, hd]
  split
  · nofun
  · nofun

theorem authority_congr (hlife : s'.lifecycle = .closed ↔ s.lifecycle = .closed)
    (hgen : s'.generation = s.generation) (hcursor : s'.deliveredThrough = s.deliveredThrough)
    (hstamp : s'.stampedAt = s.stampedAt) :
    (readings policy now (some s')).authority = (readings policy now (some s)).authority := by
  by_cases hclosed : s.lifecycle = .closed
  · rw [authority_of_closed hclosed, authority_of_closed (hlife.mpr hclosed)]
  · rw [authority_of_ne hclosed, authority_of_ne fun h => hclosed (hlife.mp h), hgen, hcursor, hstamp]

/-- A scope that is handed over shows its new generation. -/
theorem authority_ne (hlife : s'.lifecycle ≠ .closed) (hgen : s.generation ≠ s'.generation) :
    (readings policy now (some s')).authority ≠ (readings policy now (some s)).authority := by
  rw [authority_of_ne hlife]
  by_cases hclosed : s.lifecycle = .closed
  · rw [authority_of_closed hclosed]
    nofun
  · rw [authority_of_ne hclosed]
    intro heq
    simp only [some.injEq, IngressAuthority.mk.injEq] at heq
    exact hgen heq.1.symm

theorem retry_congr (herrors : s'.consecutiveErrors = s.consecutiveErrors)
    (hcursor : s'.deliveredThrough = s.deliveredThrough ∨ s.consecutiveErrors = 0) :
    (readings policy now (some s')).retry = (readings policy now (some s)).retry := by
  cases hcursor with
  | inl hcursor =>
    simp only [readings, ScopeView.retry, ScopeView.resumeFrom, view, herrors, hcursor]
    rfl
  | inr hzero => rw [retry_eq_none.mpr hzero, retry_eq_none.mpr (herrors.trans hzero)]

/-- With errors outstanding the retry shows where the cursor is. -/
theorem retry_ne (hv : s.Valid) (herrors : s'.consecutiveErrors = s.consecutiveErrors)
    (hzero : s.consecutiveErrors ≠ 0) (hcursor : s.deliveredThrough ≠ none)
    (hcursor' : s'.deliveredThrough = none) :
    (readings policy now (some s')).retry ≠ (readings policy now (some s)).retry := by
  obtain ⟨d, hd⟩ := ne_none_iff_exists'.mp hcursor
  have hle := hv.cursor d hd
  obtain ⟨backoff, hs⟩ := retry_of_ne (s := s) hzero
  obtain ⟨backoff', hs'⟩ := retry_of_ne (s := s') (herrors ▸ hzero)
  rw [hs, hs']
  intro heq
  have hnext : s'.nextExpected = s.nextExpected := by
    injection heq with heq
    exact congrArg IngressRetry.resumeFrom heq
  simp only [Scope.nextExpected, hd, hcursor'] at hnext
  omega

end View

/-! ## One scope -/

section Local

variable {policy : IngressPolicy} {merge : T → T → T} {now generation : ℤ} {s s' : Scope T} {m : IngressScopeChange}

variable {r : Readings T} {handoff : Option (ℤ × ℤ)}

theorem covers_refl : m.Covers r r :=
  ⟨fun h => absurd rfl h, fun h => absurd rfl h, fun h => absurd rfl h, fun h => absurd rfl h⟩

theorem covers_all {r' : Readings T} : all.Covers r r' :=
  ⟨fun _ => rfl, fun _ => rfl, fun _ => rfl, fun _ => rfl⟩

theorem liveOrOpening_cases (s : Scope T) : s.liveOrOpening = .opening ∨ s.liveOrOpening = .live := by
  unfold liveOrOpening
  split
  · exact .inr rfl
  · exact .inl rfl

/-- A closed scope that is opened starts anew. -/
theorem covers_reopen_closed (hv : s.Valid) (hclosed : s.lifecycle = .closed) :
    (s.reopen generation).2.Covers (readings policy now (some s))
      (readings policy now (some (s.reopen generation).1)) ↔ s.consecutiveErrors = 0 := by
  have hreopen : s.reopen generation = (.new T generation, { readiness := true, authority := true }) := by
    simp [reopen, hclosed, Scope.new]
  rw [hreopen]
  have hretry : (readings policy now (some (Scope.new T generation))).retry = none := retry_eq_none.mpr rfl
  constructor
  · intro h
    by_contra herrors
    have hne : (readings policy now (some s)).retry ≠ none := fun heq => herrors (retry_eq_none.mp heq)
    exact absurd (h.retry fun heq => hne (heq.symm.trans hretry)) nofun
  · intro herrors
    refine ⟨fun h => absurd ?_ h, fun _ => rfl, fun _ => rfl, fun h => absurd ?_ h⟩
    · exact (hv.closed hclosed).symm
    · exact hretry.trans (retry_eq_none.mpr herrors).symm

/-- A scope that is opened at a higher generation keeps its window, and forgets its cursor. -/
theorem covers_reopen_lt (hv : s.Valid) (hclosed : s.lifecycle ≠ .closed) (hlt : s.generation < generation) :
    (s.reopen generation).2.Covers (readings policy now (some s)) (readings policy now (some (s.reopen generation).1)) ↔
      (s.deliveredThrough ≠ none → s.lifecycle ≠ .live ∧ s.consecutiveErrors = 0) := by
  have hne : s.generation ≠ generation := by omega
  have hreopen : s.reopen generation =
      ({ s with
          lifecycle := s.liveOrOpening
          generation := generation
          deliveredThrough := none
          pending := .empty _ },
        { readiness := s.lifecycle ≠ s.liveOrOpening, authority := true }) := by
    simp [reopen, hclosed, hlt, hne]
  rw [hreopen]
  constructor
  · intro h hcursor
    constructor
    · -- A live scope stays live, and is warming again.
      intro hlive
      have hstays : s.lifecycle = s.liveOrOpening := by
        rw [hlive, liveOrOpening, if_pos (isSome_iff_ne_none.mpr hcursor)]
      have hflag := h.readiness (by
        show (readings policy now (some _)).readiness ≠ (readings policy now (some s)).readiness
        rw [readiness_warming (liveOrOpening_cases s) rfl]
        exact (readiness_live_ne_warming hlive hcursor).symm)
      simp [hstays] at hflag
    · by_contra herrors
      exact absurd (h.retry (retry_ne hv rfl herrors hcursor rfl)) nofun
  · intro h
    refine ⟨fun h => absurd rfl h, fun hne => ?_, fun _ => rfl, fun hne => absurd ?_ hne⟩
    · -- Where the lifecycle stays, nothing had been delivered.
      by_contra hflag
      have hstays : s.lifecycle = s.liveOrOpening := by simpa using hflag
      have hcursor : s.deliveredThrough = none := by
        by_contra hcursor
        have hlive : s.lifecycle = .live := by
          rw [hstays, liveOrOpening, if_pos (isSome_iff_ne_none.mpr hcursor)]
        exact (h hcursor).1 hlive
      refine hne ?_
      show (readings policy now (some _)).readiness = (readings policy now (some s)).readiness
      rw [readiness_warming (liveOrOpening_cases s) rfl, readiness_warming (hstays ▸ liveOrOpening_cases s) hcursor]
    · refine retry_congr rfl ?_
      by_cases hcursor : s.deliveredThrough = none
      · exact .inl hcursor.symm
      · exact .inr (h hcursor).2

/-- A scope that is opened again at its own generation is live or opening again. -/
theorem covers_reopen_le (hclosed : s.lifecycle ≠ .closed) (hle : generation ≤ s.generation) :
    (s.reopen generation).2.Covers (readings policy now (some s))
      (readings policy now (some (s.reopen generation).1)) := by
  have hlt : ¬ s.generation < generation := by omega
  have hreopen : s.reopen generation = ({ s with lifecycle := s.liveOrOpening },
        if s.lifecycle ≠ s.liveOrOpening then { readiness := true, authority := true } else {}) := by
    simp only [reopen, if_neg hclosed, if_neg hlt]
    by_cases hstays : s.lifecycle = s.liveOrOpening
    · simp [← hstays]
    · simp [hstays]
  rw [hreopen]
  refine ⟨fun h => absurd rfl h, fun hne => ?_, fun hne => absurd ?_ hne, fun hne => absurd ?_ hne⟩
  · by_cases hstays : s.lifecycle = s.liveOrOpening
    · refine absurd ?_ hne
      exact readiness_congr hstays.symm rfl rfl
    · simp [hstays]
  · exact authority_congr (iff_of_false Scope.liveOrOpening_ne_closed hclosed) rfl rfl rfl
  · exact retry_congr rfl (.inl rfl)

theorem covers_reopen (hv : s.Valid) : (s.reopen generation).2.Covers (readings policy now (some s))
      (readings policy now (some (s.reopen generation).1)) ↔ ¬ s.ReopenUnflagged generation := by
  unfold Scope.ReopenUnflagged
  by_cases hclosed : s.lifecycle = .closed
  · rw [covers_reopen_closed hv hclosed]
    simp [hclosed]
  · by_cases hlt : s.generation < generation
    · rw [covers_reopen_lt hv hclosed hlt]
      simp only [hclosed, hlt, false_and, false_or, not_false_eq_true, true_and, ne_eq, not_and, not_or, not_not]
    · have hle : generation ≤ s.generation := by omega
      simp only [covers_reopen_le hclosed hle, hclosed, hlt, false_and, and_false, or_false, not_false_eq_true]

theorem pos_of_retry_ne (herrors : s'.consecutiveErrors = 0)
    (hne : (readings policy now (some s')).retry ≠ (readings policy now (some s)).retry) : 0 < s.consecutiveErrors := by
  refine Nat.pos_of_ne_zero fun hzero => hne ?_
  rw [retry_eq_none.mpr hzero, retry_eq_none.mpr herrors]

theorem covers_reconnect_lt (hv : s.Valid) (hlt : s.generation < generation) :
    (s.reconnect generation).2.Covers (readings policy now (some s))
      (readings policy now (some (s.reconnect generation).1)) := by
  have hreconnect : s.reconnect generation =
      ({ s with
          lifecycle := .opening
          generation := generation
          deliveredThrough := none
          pending := .empty _
          window := none
          windowDepth := 0
          consecutiveErrors := 0 },
        { value := s.window.isSome
          readiness := s.lifecycle ≠ .opening
          authority := true
          retry := 0 < s.consecutiveErrors }) := by
    simp [Scope.reconnect, hlt, liveOrOpening, handOff, clearWindow]
  rw [hreconnect]
  refine ⟨fun hne => ?_, fun hne => ?_, fun _ => rfl, fun hne => ?_⟩
  · exact isSome_iff_ne_none.mpr (Ne.symm hne)
  · by_contra hflag
    have hopening : s.lifecycle = .opening := by simpa using hflag
    refine hne ?_
    show (readings policy now (some _)).readiness = (readings policy now (some s)).readiness
    rw [readiness_warming (.inl rfl) rfl, readiness_warming (.inl hopening) (hv.opening hopening)]
  · have hpos := pos_of_retry_ne rfl hne
    simpa using hpos

/-- At its own generation a scope is flagged for what it is brought back from, but for the authority
that a closed one did not claim. -/
theorem covers_reconnect_le (hle : generation ≤ s.generation) :
    (s.reconnect generation).2.Covers (readings policy now (some s))
      (readings policy now (some (s.reconnect generation).1)) ↔ s.lifecycle ≠ .closed := by
  have hlt : ¬ s.generation < generation := by omega
  have hreconnect : s.reconnect generation = ({ s with lifecycle := s.liveOrOpening, consecutiveErrors := 0 },
        { readiness := s.lifecycle ≠ s.liveOrOpening, retry := 0 < s.consecutiveErrors }) := by
    simp [Scope.reconnect, hlt]
  rw [hreconnect]
  constructor
  · intro h hclosed
    refine absurd (h.authority ?_) nofun
    show (readings policy now (some _)).authority ≠ (readings policy now (some s)).authority
    rw [authority_of_closed hclosed, authority_of_ne Scope.liveOrOpening_ne_closed]
    nofun
  · intro hclosed
    refine ⟨fun hne => absurd rfl hne, fun hne => ?_, fun hne => absurd ?_ hne, fun hne => ?_⟩
    · by_contra hflag
      have hstays : s.lifecycle = s.liveOrOpening := by simpa using hflag
      exact hne (readiness_congr hstays.symm rfl rfl)
    · exact authority_congr (iff_of_false Scope.liveOrOpening_ne_closed hclosed) rfl rfl rfl
    · have hpos := pos_of_retry_ne rfl hne
      simpa using hpos

theorem covers_reconnect (hv : s.Valid) : (s.reconnect generation).2.Covers (readings policy now (some s))
        (readings policy now (some (s.reconnect generation).1)) ↔
      ¬ s.ReconnectUnflagged generation := by
  unfold Scope.ReconnectUnflagged
  by_cases hlt : s.generation < generation
  · have hle : ¬ generation ≤ s.generation := by omega
    simp only [covers_reconnect_lt hv hlt, hle, and_false, not_false_eq_true]
  · have hle : generation ≤ s.generation := by omega
    rw [covers_reconnect_le hle]
    simp only [hle, and_true, ne_eq]

/-- A scope that comes into being shows that it is warming, and what it claims. -/
theorem covers_creation (hwindow : s.window = none) (herrors : s.consecutiveErrors = 0) :
    creation.Covers (readings policy now none) (readings policy now (some s)) :=
  ⟨fun hne => absurd hwindow hne, fun _ => rfl, fun _ => rfl, fun hne => absurd (retry_eq_none.mpr herrors) hne⟩

theorem covers_union_left {r' : Readings T} (h : m.Covers r r') (m' : IngressScopeChange) :
    (m'.union m).Covers r r' := by
  refine ⟨fun hne => ?_, fun hne => ?_, fun hne => ?_, fun hne => ?_⟩
  · simp [union, h.value hne]
  · simp [union, h.readiness hne]
  · simp [union, h.authority hne]
  · simp [union, h.retry hne]

theorem covers_suspend (hclosed : s.lifecycle ≠ .closed) : readinessOnly.Covers (readings policy now (some s))
      (readings policy now (some { s with lifecycle := .suspended })) := by
  refine ⟨fun hne => absurd rfl hne, fun _ => rfl, fun hne => absurd ?_ hne, fun hne => absurd ?_ hne⟩
  · exact authority_congr (iff_of_false nofun hclosed) rfl rfl rfl
  · exact retry_congr rfl (.inl rfl)

theorem covers_close : s.close.2.Covers (readings policy now (some s)) (readings policy now (some s.close.1)) := by
  refine ⟨fun hne => ?_, fun _ => rfl, fun _ => rfl, fun hne => ?_⟩
  · exact isSome_iff_ne_none.mpr (Ne.symm hne)
  · have hpos := pos_of_retry_ne rfl hne
    simpa [Scope.close] using hpos

theorem covers_fail : retryOnly.Covers (readings policy now (some s))
      (readings policy now (some s.fail)) := by
  refine ⟨fun hne => absurd rfl hne, fun hne => absurd ?_ hne, fun hne => absurd ?_ hne, fun _ => rfl⟩
  · exact readiness_congr rfl rfl rfl
  · exact authority_congr Iff.rfl rfl rfl rfl

theorem covers_drain : valueOnly.Covers (readings policy now (some s))
      (readings policy now (some s.clearWindow)) := by
  refine ⟨fun _ => rfl, fun hne => absurd ?_ hne, fun hne => absurd ?_ hne, fun hne => absurd ?_ hne⟩
  · exact readiness_congr rfl rfl rfl
  · exact authority_congr Iff.rfl rfl rfl rfl
  · exact retry_congr rfl (.inl rfl)

/-! ## The admission of an envelope -/

variable {e : IngressEnvelope K T}

/-- The change of a decision that took the envelope in at once. -/
theorem change_of_delivers {o : Option (Scope T)} (h : s'.Delivers policy e) :
    (s'.order policy merge e handoff).2.change o s (s'.order policy merge e handoff).1 = .all := by
  rw [Scope.order_of_delivers h]
  rfl

theorem change_of_refused {o : Option (Scope T)} (hp : ¬ s'.Parks policy e) (hd : ¬ s'.Delivers policy e) :
    (s'.order policy merge e handoff).2.change o s (s'.order policy merge e handoff).1 = {} := by
  have hrefused : (s'.order policy merge e handoff).2 = .block ∨
      ∃ reason, (s'.order policy merge e handoff).2 = .refuse reason :=
    (order_of_refused hp hd).2
  obtain hblock | ⟨reason, hrefuse⟩ := hrefused
  · rw [hblock]
    rfl
  · rw [hrefuse]
    rfl

/-- An envelope that is parked at a handoff: the readers are flagged but for the retry. -/
theorem covers_park_handOff (hv : s.Valid) (hlt : s.generation < generation)
    {pending : Table (Pending.sequence (T := T))} :
    (s.bufferedChange { s.handOff generation with pending := pending }).Covers
        (readings policy now (some s))
        (readings policy now (some { s.handOff generation with pending := pending })) ↔
      (s.deliveredThrough = none ∨ s.consecutiveErrors = 0) := by
  constructor
  · intro h
    by_contra hneither
    rw [not_or] at hneither
    exact absurd (h.retry (retry_ne hv rfl hneither.2 hneither.1 rfl)) nofun
  · intro h
    refine ⟨fun hne => ?_, fun hne => ?_, fun _ => ?_, fun hne => absurd ?_ hne⟩
    · have hsome : s.window.isSome := isSome_iff_ne_none.mpr (Ne.symm hne)
      simp [bufferedChange, stamp, handOff, clearWindow, hsome]
    · by_contra hflag
      have hcursor : s.deliveredThrough = none := by
        simpa [bufferedChange, stamp, handOff, clearWindow] using hflag
      exact hne (readiness_congr rfl hcursor.symm rfl)
    · have hgen : s.generation ≠ generation := by omega
      simp [bufferedChange, stamp, handOff, clearWindow, hgen]
    · exact retry_congr rfl (h.imp Eq.symm id)

/-- Under its own generation an envelope moves no reader that is not flagged. -/
theorem covers_order : ((s.order policy merge e handoff).2.change (some s) s (s.order policy merge e handoff).1).Covers
      (readings policy now (some s))
      (readings policy now (some (s.order policy merge e handoff).1)) := by
  by_cases hd : s.Delivers policy e
  · rw [change_of_delivers hd]
    exact covers_all
  · by_cases hp : s.Parks policy e
    · rw [order_of_parks hp]
      refine ⟨fun hne => absurd rfl hne, fun hne => absurd ?_ hne, fun hne => absurd ?_ hne, fun hne => absurd ?_ hne⟩
      · exact readiness_congr rfl rfl rfl
      · exact authority_congr Iff.rfl rfl rfl rfl
      · exact retry_congr rfl (.inl rfl)
    · rw [(order_of_refused hp hd).1]
      exact covers_refl

/-- An envelope of a newer generation that is not fenced off. -/
theorem covers_order_handOff (hv : s.Valid) (hclosed : s.lifecycle ≠ .closed) (hlt : s.generation < generation) :
    (((s.handOff generation).order policy merge e handoff).2.change (some s) s
        ((s.handOff generation).order policy merge e handoff).1).Covers
      (readings policy now (some s))
      (readings policy now (some ((s.handOff generation).order policy merge e handoff).1)) ↔
    (s.handOff generation).Delivers policy e ∨ (s.handOff generation).Parks policy e ∧
        (s.deliveredThrough = none ∨ s.consecutiveErrors = 0) := by
  by_cases hd : (s.handOff generation).Delivers policy e
  · rw [change_of_delivers hd]
    simp only [covers_all, hd, true_or]
  · by_cases hp : (s.handOff generation).Parks policy e
    · rw [order_of_parks hp]
      simp only [hp, hd, true_and, false_or]
      exact covers_park_handOff hv hlt
    · -- The scope has been reset, and nothing says so.
      rw [change_of_refused hp hd, (order_of_refused hp hd).1]
      simp only [hp, hd, false_and, or_self, iff_false]
      intro h
      have hgen : s.generation ≠ generation := by omega
      exact absurd (h.authority (authority_ne hclosed hgen)) nofun

theorem admitUnflagged_iff (hclosed : ¬ s.Fenced policy now e) (hlt : s.generation < e.generation) :
    s.AdmitUnflagged policy now e ↔ ¬ ((s.handOff e.generation).Delivers policy e ∨
        (s.handOff e.generation).Parks policy e ∧ (s.deliveredThrough = none ∨ s.consecutiveErrors = 0)) := by
  rw [Scope.parks_handOff, Scope.delivers_handOff]
  unfold Scope.AdmitUnflagged
  obtain hneg | hzero | hpos := lt_trichotomy e.sequence 0
  · have hne : e.sequence ≠ 0 := by omega
    have hnpos : ¬ 0 < e.sequence := by omega
    simp [hclosed, hlt, hneg, hne, hnpos]
  · simp only [hclosed, hlt, hzero, lt_irrefl, not_false_eq_true, true_and, false_and, false_or, or_false]
    tauto
  · have hne : e.sequence ≠ 0 := by omega
    have hnneg : ¬ e.sequence < 0 := by omega
    simp only [hclosed, hlt, hpos, hne, hnneg, not_false_eq_true, true_and, false_and, false_or, or_false]
    tauto

theorem covers_admitEnvelope (hv : s.Valid) :
    ((s.decide policy merge now e).2.change (some s) s (s.decide policy merge now e).1).Covers
      (readings policy now (some s)) (readings policy now (some (s.decide policy merge now e).1)) ↔
    ¬ s.AdmitUnflagged policy now e := by
  by_cases hfenced : s.Fenced policy now e
  · obtain ⟨reason, hd⟩ := Scope.decide_of_fenced merge hfenced
    rw [hd]
    exact iff_of_true covers_refl fun h => h.1 hfenced
  · obtain ⟨handoff, hd⟩ := Scope.decide_of_not_fenced merge hfenced
    rw [hd]
    by_cases hlt : s.generation < e.generation
    · have hclosed : s.lifecycle ≠ .closed := fun h => hfenced (.inl h)
      rw [base, if_pos hlt, covers_order_handOff hv hclosed hlt, admitUnflagged_iff hfenced hlt, not_not]
    · rw [base, if_neg hlt]
      exact iff_of_true covers_order fun h => hlt h.2.1

/-- A key that was not known before is flagged when its scope comes into being. -/
theorem covers_admitEnvelope_new (e : IngressEnvelope K T) :
    (((Scope.new T e.generation).decide policy merge now e).2.change none (.new T e.generation)
        ((Scope.new T e.generation).decide policy merge now e).1).Covers
      (readings policy now none)
      (readings policy now (if ¬ ((Scope.new T e.generation).decide policy merge now e).2.admitted then none
        else some ((Scope.new T e.generation).decide policy merge now e).1)) := by
  by_cases hfenced : (Scope.new T e.generation).Fenced policy now e
  · obtain ⟨reason, hd⟩ := Scope.decide_of_fenced merge hfenced
    rw [hd]
    exact covers_refl
  · obtain ⟨handoff, hd⟩ := Scope.decide_of_not_fenced merge hfenced
    have hbase : (Scope.new T e.generation).base e = .new T e.generation := if_neg (lt_irrefl _)
    rw [hd, hbase]
    by_cases hdel : (Scope.new T e.generation).Delivers policy e
    · rw [change_of_delivers hdel]
      exact covers_all
    · by_cases hp : (Scope.new T e.generation).Parks policy e
      · rw [order_of_parks hp]
        exact covers_creation rfl rfl
      · have hadmitted : ((Scope.new T e.generation).order policy merge e handoff).2.admitted = false := by
          obtain hblock | ⟨reason, hrefuse⟩ := (order_of_refused hp hdel).2
          · rw [hblock]
            rfl
          · rw [hrefuse]
            rfl
        rw [change_of_refused hp hdel, if_pos (by simp [hadmitted])]
        exact covers_refl

end Local

/-! ## Every operation -/

/-- A fold that marks some rows marks all of these, and keeps what was marked before. -/
theorem mem_scopes_foldl {α : Type} {p : α → Prop} [DecidablePred p] {f : α → K}
    {rows : List α} {change : IngressChange K} {entry : K × IngressScopeChange}
    (h : entry ∈ change.scopes ∨ ∃ row ∈ rows, p row ∧ entry = (f row, .readinessOnly)) :
    entry ∈ (rows.foldl (fun change row => if p row then change.mark (f row) .readinessOnly else change)
      change).scopes := by
  induction rows generalizing change with
  | nil => simpa using h
  | cons row rows ih =>
    refine ih ?_
    obtain hmem | ⟨row', hrow', hp, rfl⟩ := h
    · refine .inl ?_
      dsimp only
      split
      · exact List.mem_append_left _ hmem
      · exact hmem
    · obtain rfl | hrow' := List.mem_cons.mp hrow'
      · refine .inl ?_
        dsimp only
        rw [if_pos hp]
        exact List.mem_append_right _ (List.mem_singleton_self _)
      · exact .inr ⟨row', hrow', hp, rfl⟩

variable [DecidableEq K] {c : IngressCore K T} {key : K} {op : Op K T}

theorem readings_eq (c : IngressCore K T) (key : K) : readings c.policy c.observedNow (c.scope? key) =
      ⟨c.peek key, c.readiness key, c.authority key, c.retry key⟩ := by
  unfold IngressCore.peek IngressCore.readiness IngressCore.authority IngressCore.retry IngressCore.view
  cases c.scope? key with
  | none => rfl
  | some s => rfl

/-- An operation on a key is sound when its mark covers what has changed there. -/
theorem sound_iff_covers (hop : op.key? = some key) : Sound c op ↔
      (op.act c.policy c.merge.merge c.observedNow (c.scope? key)).2.Covers
        (readings c.policy c.observedNow (c.scope? key))
        (readings c.policy c.observedNow
          (op.act c.policy c.merge.merge c.observedNow (c.scope? key)).1) := by
  have hacts := c.acts_step hop
  have hafter : ∀ j, readings c.policy c.observedNow ((c.step op).core.scope? j) =
      ⟨(c.step op).core.peek j, (c.step op).core.readiness j, (c.step op).core.authority j,
        (c.step op).core.retry j⟩ := by
    intro j
    rw [← readings_eq, hacts.policy, hacts.observedNow]
  have hkey := hafter key
  rw [hacts.scope? key, if_pos rfl] at hkey
  rw [hkey, readings_eq]
  constructor
  · intro h
    exact ⟨fun hne => ((hacts.flags rfl).mp ((h key).value hne)).2,
      fun hne => ((hacts.flags rfl).mp ((h key).readiness hne)).2,
      fun hne => ((hacts.flags rfl).mp ((h key).authority hne)).2,
      fun hne => ((hacts.flags rfl).mp ((h key).retry hne)).2⟩
  · intro h j
    by_cases hj : j = key
    · subst hj
      exact ⟨fun hne => (hacts.flags rfl).mpr ⟨rfl, h.value hne⟩,
        fun hne => (hacts.flags rfl).mpr ⟨rfl, h.readiness hne⟩,
        fun hne => (hacts.flags rfl).mpr ⟨rfl, h.authority hne⟩,
        fun hne => (hacts.flags rfl).mpr ⟨rfl, h.retry hne⟩⟩
    · have hother := hafter j
      rw [hacts.scope? j, if_neg hj, readings_eq, Readings.mk.injEq] at hother
      obtain ⟨hvalue, hreadiness, hauthority, hretry⟩ := hother
      exact ⟨fun hne => absurd hvalue.symm hne, fun hne => absurd hreadiness.symm hne,
        fun hne => absurd hauthority.symm hne, fun hne => absurd hretry.symm hne⟩

/-- Time moves the readiness of a scope, and nothing else. -/
theorem sound_tick (c : IngressCore K T) (now : ℤ) : Sound c (.tick now) := by
  intro key
  by_cases hnow : now = c.observedNow
  · have hstep : (c.step (.tick now)).core = c := by simp [IngressCore.step, IngressCore.tick, hnow]
    rw [hstep]
    exact ⟨fun hne => absurd rfl hne, fun hne => absurd rfl hne, fun hne => absurd rfl hne, fun hne => absurd rfl hne⟩
  · have hcore : (c.step (.tick now)).core = { c with observedNow := now } := by
      simp [IngressCore.step, IngressCore.tick, hnow]
    have hbefore := readings_eq c key
    have hafter := readings_eq { c with observedNow := now } key
    rw [hcore]
    cases hs : c.scope? key with
    | none =>
      have hs' : ({ c with observedNow := now } : IngressCore K T).scope? key = none := hs
      rw [hs] at hbefore
      rw [hs'] at hafter
      have heq := hafter.symm.trans hbefore
      rw [Readings.mk.injEq] at heq
      obtain ⟨hvalue, hreadiness, hauthority, hretry⟩ := heq
      exact ⟨fun hne => absurd hvalue hne, fun hne => absurd hreadiness hne,
        fun hne => absurd hauthority hne, fun hne => absurd hretry hne⟩
    | some s =>
      have hs' : ({ c with observedNow := now } : IngressCore K T).scope? key = some s := hs
      rw [hs] at hbefore
      rw [hs'] at hafter
      simp only [readings, Readings.mk.injEq] at hbefore hafter
      obtain ⟨hvalue, hreadiness, hauthority, hretry⟩ := hbefore
      obtain ⟨hvalue', hreadiness', hauthority', hretry'⟩ := hafter
      refine ⟨fun hne => absurd ?_ hne, fun hne => ?_, fun hne => absurd ?_ hne, fun hne => absurd ?_ hne⟩
      · rw [← hvalue, ← hvalue']
      · refine ⟨(key, .readinessOnly), ?_, rfl, rfl⟩
        simp only [IngressCore.step, IngressCore.tick, if_neg hnow]
        rw [← hreadiness, ← hreadiness'] at hne
        obtain ⟨row, hrow, hsnd⟩ := map_eq_some_iff.mp hs
        refine mem_scopes_foldl (.inr ⟨row, Table.mem_of_get? hrow, ?_, ?_⟩)
        · rw [hsnd]
          exact hne.symm
        · rw [Table.key_of_get? hrow]
      · rw [← hauthority, ← hauthority']
        rfl
      · rw [← hretry, ← hretry']
        rfl

/-- An operation on a reachable core flags every reader that shows something else, exactly when it
takes none of the branches that leave one out. -/
theorem sound_iff (h : Reachable c) (op : Op K T) : Sound c op ↔ ¬ Unflagged c op := by
  have hvalid : ∀ key s, c.scope? key = some s → s.Valid :=
    fun key s hs => IngressCore.valid_of_reachable h hs
  cases op with
  | tick now => exact iff_of_true (sound_tick c now) id
  | «open» key generation =>
    rw [sound_iff_covers rfl]
    dsimp only [Op.act, Unflagged]
    cases hs : c.scope? key with
    | none => exact iff_of_true (covers_creation rfl rfl) nofun
    | some s =>
      dsimp only
      rw [covers_reopen (hvalid key s hs)]
      simp
  | suspend key =>
    rw [sound_iff_covers rfl]
    refine iff_of_true ?_ id
    dsimp only [Op.act]
    cases hs : c.scope? key with
    | none => exact covers_refl
    | some s =>
      dsimp only
      split
      · exact covers_refl
      · next hneither => exact covers_suspend fun hclosed => hneither (.inr hclosed)
  | reconnect key generation =>
    rw [sound_iff_covers rfl]
    dsimp only [Op.act, Unflagged]
    cases hs : c.scope? key with
    | none =>
      refine iff_of_true (covers_union_left (covers_creation ?_ rfl) _) nofun
      simp [Scope.reconnect, Scope.new]
    | some s =>
      simp only [isNone_some, Bool.false_eq_true, if_false, getD_some]
      rw [covers_reconnect (hvalid key s hs)]
      simp
  | close key =>
    rw [sound_iff_covers rfl]
    refine iff_of_true ?_ id
    dsimp only [Op.act]
    cases hs : c.scope? key with
    | none => exact covers_refl
    | some s =>
      dsimp only
      split
      · exact covers_refl
      · exact covers_close
  | fail key error =>
    rw [sound_iff_covers rfl]
    refine iff_of_true ?_ id
    dsimp only [Op.act]
    cases hs : c.scope? key with
    | none =>
      exact ⟨fun hne => absurd rfl hne, fun _ => rfl, fun _ => rfl, fun _ => rfl⟩
    | some s => exact covers_fail
  | drain key =>
    rw [sound_iff_covers rfl]
    refine iff_of_true ?_ id
    dsimp only [Op.act]
    cases hs : c.scope? key with
    | none => exact covers_refl
    | some s =>
      dsimp only
      split
      · exact covers_refl
      · exact covers_drain
  | admitEnvelope e =>
    rw [sound_iff_covers rfl]
    dsimp only [Op.act, Unflagged]
    cases hs : c.scope? e.key with
    | none =>
      refine iff_of_true ?_ nofun
      simpa using covers_admitEnvelope_new e
    | some s =>
      simpa using covers_admitEnvelope (hvalid e.key s hs)

/-- A live scope that is opened at a higher generation is warming again, and no flag says so. -/
theorem not_sound_open : ∃ c : IngressCore ℕ ℕ, IngressCore.new ℕ {} { merge := (· + ·) } = .ok c ∧
      ¬ Sound (c.after [.open 0 1, .admitEnvelope ⟨0, 1, 0, 0, 5⟩]) (.open 0 2) := by
  refine ⟨_, rfl, fun h => ?_⟩
  have hflag := (h 0).readiness (by decide)
  revert hflag
  decide

theorem sound_iff_suspend : ∃ c : IngressCore ℕ ℕ, IngressCore.new ℕ {} { merge := (· + ·) } = .ok c ∧
      Sound (c.after [.open 0 1, .admitEnvelope ⟨0, 1, 0, 0, 5⟩]) (.suspend 0) := by
  obtain ⟨c, hc⟩ : ∃ c : IngressCore ℕ ℕ, IngressCore.new ℕ {} { merge := (· + ·) } = .ok c := ⟨_, rfl⟩
  exact ⟨c, hc, (sound_iff (IngressCore.reachable_after hc _) (.suspend 0)).mpr id⟩

end LazilyPy.Ingress

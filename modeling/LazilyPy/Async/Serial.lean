import LazilyPy.Async.Effect
import Mathlib.Data.List.Nodup

/-!
# Bodies and cleanups one at a time

As long as a flush is left alone, an effect runs one thing at a time, starts every cleanup once, and
loses no invalidation.
-/

namespace LazilyPy.Async.Effect

open List Option Function

variable {log : List Event} {event : Event} {owes owes' : ℕ → Prop} {next c : ℕ}

/-! ### What has been seen -/

def Event.started? : Event → Option ℕ
  | cleanupStart c => some c
  | _ => none

def Unanswered (log : List Event) : Prop :=
  ∃ before after, log = before ++ .invalidated :: after ∧ .bodyStart ∉ after

/-- Before a body starts, the cleanups that have been returned have been started. -/
def CleanupFirst (before : List Event) (event : Event) : Prop :=
  event = .bodyStart → ∀ c, .bodyEnd (some c) ∈ before → .cleanupStart c ∈ before

theorem unanswered_concat :
    Unanswered (log ++ [event]) ↔ event = .invalidated ∨ event ≠ .bodyStart ∧ Unanswered log := by
  constructor
  · rintro ⟨before, after, heq, hafter⟩
    obtain rfl | ⟨after, last, rfl⟩ := eq_nil_or_concat after
    · obtain ⟨-, hevent⟩ := append_inj' heq rfl
      exact .inl (singleton_inj.mp hevent)
    · rw [concat_eq_append, ← cons_append, ← append_assoc] at heq
      obtain ⟨rfl, hevent⟩ := append_inj' heq rfl
      obtain rfl := singleton_inj.mp hevent
      rw [concat_eq_append, mem_append, not_or] at hafter
      refine .inr ⟨fun h => hafter.2 (by simp [h]), before, after, rfl, hafter.1⟩
  · rintro (rfl | ⟨hne, before, after, rfl, hafter⟩)
    · exact ⟨log, [], rfl, not_mem_nil⟩
    · refine ⟨before, after ++ [event], by rw [append_assoc, cons_append], ?_⟩
      rw [mem_append, mem_singleton, not_or]
      exact ⟨hafter, fun h => hne h.symm⟩

/-- The cleanups that have been returned, each of which is owed or has been started once. -/
structure Ledger (owes : ℕ → Prop) (next : ℕ) (log : List Event) : Prop where
  returned : ∀ c, .bodyEnd (some c) ∈ log → c < next
  started : ∀ c, .cleanupStart c ∈ log → c < next
  owed : ∀ c, .bodyEnd (some c) ∈ log → .cleanupStart c ∈ log ∨ owes c
  unstarted : ∀ c, owes c → c < next ∧ .cleanupStart c ∉ log
  nodup : (log.filterMap Event.started?).Nodup
  first : Throughout CleanupFirst log

namespace Ledger

theorem init : Ledger (fun _ => False) 0 [] where
  returned _ h := nomatch h
  started _ h := nomatch h
  owed _ h := nomatch h
  unstarted _ h := h.elim
  nodup := nodup_nil
  first := throughout_nil

theorem congr (h : Ledger owes next log) (howes : ∀ c, owes' c ↔ owes c) : Ledger owes' next log := by
  obtain rfl : owes' = owes := by
    funext c
    exact propext (howes c)
  exact h

/-- What neither returns nor starts a cleanup. -/
theorem see (h : Ledger owes next log) (hreturn : ∀ c, event ≠ .bodyEnd (some c))
    (hstart : ∀ c, event ≠ .cleanupStart c) (hfirst : CleanupFirst log event) :
    Ledger owes next (log ++ [event]) := by
  have hreturned (c : ℕ) : Event.bodyEnd (some c) ∈ log ++ [event] ↔ .bodyEnd (some c) ∈ log := by
    rw [mem_append, mem_singleton]
    exact or_iff_left fun h => hreturn c h.symm
  have hstarted (c : ℕ) : Event.cleanupStart c ∈ log ++ [event] ↔ .cleanupStart c ∈ log := by
    rw [mem_append, mem_singleton]
    exact or_iff_left fun h => hstart c h.symm
  have hnone : event.started? = none := by
    cases event with
    | cleanupStart c => exact absurd rfl (hstart c)
    | _ => rfl
  refine ⟨fun c hc => ?_, fun c hc => ?_, fun c hc => ?_, fun c hc => ?_, ?_, ?_⟩
  · exact h.returned c ((hreturned c).mp hc)
  · exact h.started c ((hstarted c).mp hc)
  · rw [hstarted]
    exact h.owed c ((hreturned c).mp hc)
  · rw [hstarted]
    exact h.unstarted c hc
  · rw [filterMap_append, filterMap_cons_none hnone, filterMap_nil, append_nil]
    exact h.nodup
  · exact throughout_concat.mpr ⟨h.first, hfirst⟩

theorem bodyStart (h : Ledger owes next log) (hpaid : ∀ c, ¬ owes c) : Ledger owes next (log ++ [.bodyStart]) :=
  h.see (fun _ => nofun) (fun _ => nofun) fun _ c hc => (h.owed c hc).resolve_right (hpaid c)

theorem bodyEnd (h : Ledger owes next log) :
    Ledger (fun c => owes c ∨ c = next) (next + 1) (log ++ [.bodyEnd (some next)]) := by
  have hstarted (c : ℕ) : Event.cleanupStart c ∈ log ++ [.bodyEnd (some next)] ↔ .cleanupStart c ∈ log := by
    rw [mem_append, mem_singleton]
    exact or_iff_left nofun
  refine ⟨fun c hc => ?_, fun c hc => ?_, fun c hc => ?_, fun c hc => ?_, ?_, ?_⟩
  · rw [mem_append, mem_singleton] at hc
    obtain hc | hc := hc
    · exact Nat.lt_succ_of_lt (h.returned c hc)
    · cases hc
      exact Nat.lt_succ_self _
  · exact Nat.lt_succ_of_lt (h.started c ((hstarted c).mp hc))
  · rw [hstarted]
    rw [mem_append, mem_singleton] at hc
    obtain hc | hc := hc
    · exact (h.owed c hc).imp_right .inl
    · cases hc
      exact .inr (.inr rfl)
  · rw [hstarted]
    obtain hc | rfl := hc
    · obtain ⟨hlt, hnot⟩ := h.unstarted c hc
      exact ⟨Nat.lt_succ_of_lt hlt, hnot⟩
    · exact ⟨Nat.lt_succ_self _, fun hc => Nat.lt_irrefl _ (h.started _ hc)⟩
  · rw [filterMap_append, filterMap_cons_none rfl, filterMap_nil, append_nil]
    exact h.nodup
  · exact throughout_concat.mpr ⟨h.first, nofun⟩

theorem cleanupStart (h : Ledger owes next log) (hc : owes c) :
    Ledger (fun c' => owes c' ∧ c' ≠ c) next (log ++ [.cleanupStart c]) := by
  obtain ⟨hlt, hnot⟩ := h.unstarted c hc
  refine ⟨fun c' hc' => ?_, fun c' hc' => ?_, fun c' hc' => ?_, fun c' hc' => ?_, ?_, ?_⟩
  · rw [mem_append, mem_singleton] at hc'
    exact h.returned c' (hc'.resolve_right nofun)
  · rw [mem_append, mem_singleton] at hc'
    obtain hc' | hc' := hc'
    · exact h.started c' hc'
    · cases hc'
      exact hlt
  · rw [mem_append, mem_singleton] at hc' ⊢
    obtain hc' | howes := h.owed c' (hc'.resolve_right nofun)
    · exact .inl (.inl hc')
    · by_cases heq : c' = c
      · exact .inl (.inr (by rw [heq]))
      · exact .inr ⟨howes, heq⟩
  · obtain ⟨hlt', hnot'⟩ := h.unstarted c' hc'.1
    refine ⟨hlt', fun hmem => ?_⟩
    rw [mem_append, mem_singleton] at hmem
    obtain hmem | hmem := hmem
    · exact hnot' hmem
    · cases hmem
      exact hc'.2 rfl
  · rw [filterMap_append, filterMap_cons_some (show Event.started? (.cleanupStart c) = some c from rfl), filterMap_nil]
    refine Nodup.append h.nodup (nodup_singleton _) ?_
    rw [disjoint_singleton]
    intro hmem
    obtain ⟨event, hevent, hstarted⟩ := mem_filterMap.mp hmem
    cases event with
    | cleanupStart c' =>
      cases hstarted
      exact hnot hevent
    | _ => cases hstarted
  · exact throughout_concat.mpr ⟨h.first, nofun⟩

end Ledger

/-! ### What is in progress -/

namespace AsyncEffect

variable {s : AsyncEffect} {k t : ℕ}

/-- A body or a cleanup that has started and not ended, by the coroutine or the task that runs it. -/
inductive Activity
  | body (flush : ℕ)
  | releasing (flush : ℕ)
  | cleaning (dispose : ℕ)
  | task (task : ℕ)

def Active (s : AsyncEffect) : Activity → Prop
  | .body k => s.flushes k = some .body
  | .releasing k => ∃ c, s.flushes k = some (.releasing c)
  | .cleaning k => ∃ c, s.disposes k = some (.cleaning c)
  | .task t => ∃ c, s.tasks t = some (.running c)

def Owes (s : AsyncEffect) (c : ℕ) : Prop :=
  s.cleanup = some c ∨ ∃ t, s.tasks t = some (.created c)

structure Placed (s : AsyncEffect) : Prop where
  single : ∀ k k' p p', s.flushes k = some p → s.flushes k' = some p' → k = k'
  numbered : ∀ k p, s.flushes k = some p → k < s.nextFlush
  retained : ∀ c, s.cleanup = some c → s.state ≠ .disposed ∧ ∀ k, s.flushes k = none
  current : ∀ t, s.cleanupTask = some t → ∃ k, s.flushes k = some (.cleaning t)
  unfinished : ∀ t c, s.tasks t = some (.created c) ∨ s.tasks t = some (.running c) →
    ∃ k, s.flushes k = some (.cleaning t)
  releasing : ∀ k c, s.flushes k = some (.releasing c) → s.state = .disposed
  waiting : ∀ k t, s.disposes k = some (.waiting t) → s.state = .disposed
  cleaning : ∀ k c, s.disposes k = some (.cleaning c) → s.state = .disposed ∧ ∀ k', s.flushes k' = none
  lone : ∀ k k' c c', s.disposes k = some (.cleaning c) → s.disposes k' = some (.cleaning c') → k = k'

structure Sound (s : AsyncEffect) : Prop where
  placed : s.Placed
  ledger : Ledger s.Owes s.nextCleanup s.log

/-- An invalidation is queued, or held by a flush that has not started its body, or a body has started
since. -/
def Kept (s : AsyncEffect) : Prop :=
  s.state ≠ .disposed → Unanswered s.log → s.pending ∨ ∃ k t, s.flushes k = some (.cleaning t)

theorem sound_init : ({} : AsyncEffect).Sound where
  placed := by
    constructor
    all_goals simp
  ledger := Ledger.init.congr fun c => by simp [Owes]

variable {p : FlushPoint}

theorem flushes_flushAt_iff {point : Option FlushPoint} (halone : ∀ k, s.flushes k = none) {k' : ℕ} :
    update s.flushes k point k' = some p ↔ k' = k ∧ point = some p := by
  by_cases hk : k' = k
  · rw [hk, update_self]
    exact (and_iff_right rfl).symm
  · rw [update_of_ne hk, halone]
    exact iff_of_false nofun fun h => hk h.1

/-- Where no flush is in progress, no task is unfinished. -/
theorem Placed.quiet (h : s.Placed) (halone : ∀ k, s.flushes k = none) (t c : ℕ) :
    s.tasks t ≠ some (.created c) ∧ s.tasks t ≠ some (.running c) := by
  rw [← not_or]
  intro htask
  obtain ⟨k, hk⟩ := h.unfinished t c htask
  rw [halone] at hk
  cases hk

theorem Placed.cleanupTask_eq_none (h : s.Placed) (halone : ∀ k t, s.flushes k ≠ some (.cleaning t)) :
    s.cleanupTask = none := by
  by_contra hsome
  obtain ⟨t, ht⟩ := ne_none_iff_exists'.mp hsome
  obtain ⟨k, hk⟩ := h.current t ht
  exact halone k t hk

theorem Sound.invalidate (h : s.Sound) : s.invalidate.Sound := by
  rw [AsyncEffect.invalidate]
  split
  · exact h
  next hstate =>
    have hp := h.placed
    refine ⟨⟨hp.single, hp.numbered, fun c hc => ⟨?_, (hp.retained c hc).2⟩, hp.current,
      hp.unfinished, fun k c hk => ?_, fun k t hk => ?_, fun k c hk => ?_, hp.lone⟩, ?_⟩
    · show (if s.state = EffectState.cleanupRunning then _ else _) ≠ _
      split
      · nofun
      · nofun
    · exact absurd (hp.releasing k c hk) hstate
    · exact absurd (hp.waiting k t hk) hstate
    · exact absurd (hp.cleaning k c hk).1 hstate
    · exact h.ledger.see (fun _ => nofun) (fun _ => nofun) nofun

theorem Sound.startBody (h : s.Sound) (hk : k < s.nextFlush) (hstate : s.state ≠ .disposed)
    (hcleanup : s.cleanup = none) (halone : ∀ k, s.flushes k = none) : (s.startBody k).Sound := by
  have hp := h.placed
  have hquiet := hp.quiet halone
  have hcurrent := hp.cleanupTask_eq_none fun k t hk => by simp [halone] at hk
  refine ⟨⟨?_, ?_, fun c hc => ?_, fun t ht => ?_, fun t c ht => ?_, fun k' c hk' => ?_, hp.waiting,
    fun k' c hk' => ?_, hp.lone⟩, ?_⟩
  · intro k₁ k₂ p₁ p₂ h₁ h₂
    exact ((flushes_flushAt_iff halone).mp h₁).1.trans ((flushes_flushAt_iff halone).mp h₂).1.symm
  · intro k' p hk'
    rw [((flushes_flushAt_iff halone).mp hk').1]
    exact hk
  · exact absurd (hcleanup.symm.trans hc) nofun
  · exact absurd (hcurrent.symm.trans ht) nofun
  · exact absurd ht (not_or.mpr (hquiet t c))
  · exact absurd ((flushes_flushAt_iff halone).mp hk').2 nofun
  · exact absurd (hp.cleaning k' c hk').1 hstate
  · refine h.ledger.bodyStart fun c howes => ?_
    obtain hc | ⟨t, ht⟩ := howes
    · rw [hcleanup] at hc
      cases hc
    · exact (hquiet t c).1 ht

theorem Sound.startCleanup (h : s.Sound) (hk : k < s.nextFlush) (hcleanup : s.cleanup = some c)
    (halone : ∀ k, s.flushes k = none) : (s.startCleanup k c).Sound := by
  have hp := h.placed
  have hquiet := hp.quiet halone
  have hstate := (hp.retained c hcleanup).1
  have htask (t c' : ℕ) (ht : (s.startCleanup k c).tasks t = some (.created c') ∨
      (s.startCleanup k c).tasks t = some (.running c')) : t = s.nextTask ∧ c' = c := by
    by_cases heq : t = s.nextTask
    · refine ⟨heq, ?_⟩
      rw [heq] at ht
      simpa [AsyncEffect.startCleanup, flushAt, setTask, eq_comm] using ht
    · have hsame : (s.startCleanup k c).tasks t = s.tasks t := update_of_ne heq _ _
      rw [hsame] at ht
      exact absurd ht (not_or.mpr (hquiet t c'))
  have hcleaning : (s.startCleanup k c).flushes k = some (.cleaning s.nextTask) := update_self ..
  refine ⟨⟨?_, ?_, nofun, fun t ht => ⟨k, ?_⟩, fun t c' ht => ⟨k, ?_⟩, fun k' c' hk' => ?_,
    fun k' t hk' => ?_, fun k' c' hk' => ?_, hp.lone⟩, ?_⟩
  · intro k₁ k₂ p₁ p₂ h₁ h₂
    exact ((flushes_flushAt_iff halone).mp h₁).1.trans ((flushes_flushAt_iff halone).mp h₂).1.symm
  · intro k' p hk'
    rw [((flushes_flushAt_iff halone).mp hk').1]
    exact hk
  · rw [hcleaning, some.inj ht]
  · rw [hcleaning, (htask t c' ht).1]
  · exact absurd ((flushes_flushAt_iff halone).mp hk').2 nofun
  · exact absurd (hp.waiting k' t hk') hstate
  · exact absurd (hp.cleaning k' c' hk').1 hstate
  · refine h.ledger.congr fun c' => ?_
    have hcreated : (s.startCleanup k c).tasks s.nextTask = some (.created c) := update_self ..
    constructor
    · rintro (hnone | ⟨t, ht⟩)
      · cases hnone
      · rw [(htask t c' (.inl ht)).2]
        exact .inl hcleanup
    · rintro (hc | ⟨t, ht⟩)
      · obtain rfl := some.inj (hcleanup.symm.trans hc)
        exact .inr ⟨s.nextTask, hcreated⟩
      · exact absurd ht (hquiet t c').1

theorem Placed.alone (h : s.Placed) (hk : s.flushes k = some p) (k' : ℕ) :
    (s.flushAt k none).flushes k' = none := by
  by_cases heq : k' = k
  · rw [heq]
    exact update_self ..
  · by_contra hne
    obtain ⟨p', hp'⟩ := ne_none_iff_exists'.mp hne
    have hsame : (s.flushAt k none).flushes k' = s.flushes k' := update_of_ne heq _ _
    exact heq (h.single k' k p' p (hsame.symm.trans hp') hk)

/-- A flush returns. -/
theorem Placed.flushAt_none (hp : s.Placed) (hk : s.flushes k = some p) (hcurrent : s.cleanupTask = none)
    (hdone : ∀ t, p = .cleaning t → s.tasks t = some .done) :
    (s.flushAt k none).Placed := by
  have halone := hp.alone hk
  refine ⟨fun k₁ _ p₁ _ h₁ => ?_, fun k' p' hk' => ?_, fun c hc => ?_, fun t ht => ?_,
    fun t c ht => ?_, fun k' c hk' => ?_, hp.waiting,
    fun k' c hk' => ⟨(hp.cleaning k' c hk').1, halone⟩, hp.lone⟩
  · exact absurd ((halone k₁).symm.trans h₁) nofun
  · exact absurd ((halone k').symm.trans hk') nofun
  · exact ⟨(hp.retained c hc).1, halone⟩
  · exact absurd (hcurrent.symm.trans ht) nofun
  · obtain ⟨k', hk'⟩ := hp.unfinished t c ht
    obtain rfl := hp.single k k' _ _ hk hk'
    have hfinished := hdone t (some.inj (hk.symm.trans hk'))
    obtain ht | ht := ht
    · exact absurd (hfinished.symm.trans ht) nofun
    · exact absurd (hfinished.symm.trans ht) nofun
  · exact absurd ((halone k').symm.trans hk') nofun

/-- Where a flush is in progress, no cleanup is retained. -/
theorem Placed.cleanup_eq_none (h : s.Placed) (hk : s.flushes k = some p) : s.cleanup = none := by
  by_contra hsome
  obtain ⟨c, hc⟩ := ne_none_iff_exists'.mp hsome
  rw [(h.retained c hc).2] at hk
  cases hk

/-- While a body or the last cleanup of a flush is in progress, there is no task of a cleanup. -/
theorem Placed.not_cleaning (h : s.Placed) (hk : s.flushes k = some p) (hp : ∀ t, p ≠ .cleaning t) (k' t : ℕ) :
    s.flushes k' ≠ some (.cleaning t) := by
  intro hk'
  obtain rfl := h.single k k' _ _ hk hk'
  exact hp t (some.inj (hk.symm.trans hk'))

theorem Sound.fire (h : s.Sound) (hk : k < s.nextFlush) (halone : ∀ k, s.flushes k = none) : (s.fire k).Sound := by
  have hsame : s.flushAt k none = s := by
    have hupdate : update s.flushes k none = s.flushes := by
      rw [← halone k, update_eq_self]
    rw [flushAt, hupdate]
  rw [AsyncEffect.fire]
  split
  · next hfire =>
    have hs : { s with pending := false }.Sound := ⟨{ h.placed with }, h.ledger⟩
    dsimp only
    split
    · next c hcleanup => exact hs.startCleanup hk hcleanup halone
    · next hcleanup => exact hs.startBody hk hfire.2 hcleanup halone
  · rw [hsame]
    exact h

/-- The start of a body answers all invalidations. -/
theorem kept_startBody : (s.startBody k).Kept := by
  intro _ hunanswered
  obtain hevent | ⟨hne, -⟩ := unanswered_concat.mp hunanswered
  · cases hevent
  · exact absurd rfl hne

theorem kept_fire (hkept : s.state ≠ .disposed → Unanswered s.log → s.pending) : (s.fire k).Kept := by
  rw [AsyncEffect.fire]
  split
  · dsimp only
    split
    · exact fun _ _ => .inr ⟨k, s.nextTask, update_self ..⟩
    · exact kept_startBody
  · next hstop =>
    intro hstate hunanswered
    exact absurd ⟨hkept hstate hunanswered, hstate⟩ hstop

theorem fire_flushAt (point : Option FlushPoint) : (s.flushAt k point).fire k = s.fire k := by
  unfold AsyncEffect.fire AsyncEffect.startBody AsyncEffect.startCleanup flushAt setTask see
  simp only [update_idem]

theorem Sound.resumeFlush (h : s.Sound) (k : ℕ) : (s.resumeFlush k).Sound := by
  rw [AsyncEffect.resumeFlush]
  split
  · next t hk =>
    split
    · next hdone =>
      have hs : { s with cleanupTask := none }.Sound :=
        ⟨{ h.placed with current := nofun }, h.ledger⟩
      have hcleanup := h.placed.cleanup_eq_none hk
      have halone := hs.placed.alone hk
      have hreturned : ({ s with cleanupTask := none }.flushAt k none).Sound := by
        refine ⟨hs.placed.flushAt_none hk rfl fun t' heq => ?_, hs.ledger⟩
        cases heq
        exact hdone
      dsimp only
      split
      · exact hreturned
      next hstate =>
        have hbody := hreturned.startBody (h.placed.numbered k _ hk) hstate hcleanup halone
        unfold AsyncEffect.startBody flushAt at hbody ⊢
        simpa only [update_idem] using hbody
    · exact h
  · exact h

theorem kept_resumeFlush (hkept : s.Kept) (k : ℕ) : (s.resumeFlush k).Kept := by
  rw [AsyncEffect.resumeFlush]
  split
  · split
    · dsimp only
      split
      · next hstate => exact fun hne => absurd hstate hne
      · exact kept_startBody
    · exact hkept
  · exact hkept

theorem Sound.fire_of_flushAt (h : (s.flushAt k none).Sound) (hk : k < s.nextFlush)
    (halone : ∀ k', (s.flushAt k none).flushes k' = none) : (s.fire k).Sound := by
  rw [← fire_flushAt none]
  exact h.fire hk halone

theorem Sound.keepCleanup {cleanup : Option ℕ} (hp : s.Placed) (hk : s.flushes k = some .body)
    (hledger : Ledger (fun c => s.Owes c ∨ cleanup = some c) s.nextCleanup s.log)
    (hnew : ∀ c, cleanup = some c → ¬ s.Owes c) : (s.keepCleanup k cleanup).Sound := by
  have hcleanup := hp.cleanup_eq_none hk
  have hcurrent := hp.cleanupTask_eq_none (hp.not_cleaning hk nofun)
  have hr := hp.flushAt_none hk hcurrent nofun
  have halone := hp.alone hk
  have howes (c : ℕ) : s.Owes c ↔ ∃ t, s.tasks t = some (.created c) := by
    rw [Owes, hcleanup]
    exact or_iff_right nofun
  unfold AsyncEffect.keepCleanup
  split
  · next hstate =>
    split
    · next c =>
      have hat (k' : ℕ) (p : FlushPoint)
          (h : update s.flushes k (some (.releasing c)) k' = some p) : k' = k := by
        rw [← update_idem (α := ℕ) (v := none)] at h
        exact ((flushes_flushAt_iff halone).mp h).1
      refine ⟨⟨fun k₁ k₂ p₁ p₂ h₁ h₂ => (hat k₁ p₁ h₁).trans (hat k₂ p₂ h₂).symm,
        fun k' p hk' => ?_, nofun, fun t ht => ?_, fun t c ht => ?_, fun _ _ _ => hstate,
        fun _ _ _ => hstate, fun k' c hk' => ?_, hp.lone⟩, ?_⟩
      · rw [hat k' p hk']
        exact hp.numbered k _ hk
      · exact absurd (hcurrent.symm.trans ht) nofun
      · exact absurd ht (not_or.mpr (hr.quiet halone t c))
      · rw [(hp.cleaning k' c hk').2] at hk
        cases hk
      · refine (hledger.cleanupStart (.inr rfl)).congr fun c' => ?_
        constructor
        · intro h
          obtain ⟨t, ht⟩ := h.resolve_left nofun
          have hc' := (howes c').mpr ⟨t, ht⟩
          exact ⟨.inl hc', fun heq => hnew c rfl (heq ▸ hc')⟩
        · rintro ⟨hc' | hc', hne⟩
          · exact .inr ((howes c').mp hc')
          · exact absurd (some.inj hc').symm hne
    · refine ⟨{ hr with retained := nofun }, hledger.congr fun c => ?_⟩
      rw [howes]
      exact or_comm
  · next hstate =>
    refine Sound.fire_of_flushAt ⟨⟨hr.single, hr.numbered, fun c _ => ⟨?_, halone⟩, hr.current,
      hr.unfinished, fun k c hk => ?_, fun k t hk => ?_, fun k c hk => ?_, hr.lone⟩, ?_⟩
      (hp.numbered k _ hk) halone
    · show (if s.pending then EffectState.scheduled else _) ≠ _
      split
      · nofun
      · nofun
    · exact absurd ((halone k).symm.trans hk) nofun
    · exact absurd (hr.waiting k t hk) hstate
    · exact absurd (hr.cleaning k c hk).1 hstate
    · refine hledger.congr fun c => ?_
      rw [howes, or_comm]
      rfl

theorem kept_see (hkept : s.Kept) {event : Event} (hevent : event ≠ .invalidated) : (s.see event).Kept :=
  fun hstate hunanswered => hkept hstate ((unanswered_concat.mp hunanswered).resolve_left hevent).2

theorem Sound.endBody (h : s.Sound) (k : ℕ) (returns : Bool) : (s.endBody k returns).Sound := by
  unfold AsyncEffect.endBody
  split
  · next hk =>
    split
    · refine Sound.keepCleanup { h.placed with } hk (h.ledger.bodyEnd.congr fun c => ?_) ?_
      · exact or_congr_right (by rw [some.injEq, eq_comm])
      · intro c hc howes
        obtain rfl := some.inj hc
        exact Nat.lt_irrefl _ (h.ledger.unstarted _ howes).1
    · have hledger : Ledger s.Owes s.nextCleanup (s.log ++ [.bodyEnd none]) := h.ledger.see nofun nofun nofun
      exact Sound.keepCleanup { h.placed with } hk (hledger.congr fun c => or_iff_left nofun) nofun
  · exact h

theorem kept_keepCleanup {cleanup : Option ℕ}
    (hkept : s.state ≠ .disposed → Unanswered s.log → s.pending) : (s.keepCleanup k cleanup).Kept := by
  unfold AsyncEffect.keepCleanup
  split
  · next hstate =>
    split
    · exact fun hne => absurd hstate hne
    · exact fun hne => absurd hstate hne
  · next hstate => exact kept_fire fun _ => hkept hstate

theorem kept_endBody (h : s.Sound) (hkept : s.Kept) (k : ℕ) (returns : Bool) : (s.endBody k returns).Kept := by
  unfold AsyncEffect.endBody
  split
  · next hk =>
    have hpending (hstate : s.state ≠ .disposed) (hunanswered : Unanswered s.log) : s.pending := by
      refine (hkept hstate hunanswered).resolve_right ?_
      rintro ⟨k', t, hk'⟩
      exact h.placed.not_cleaning hk nofun k' t hk'
    split
    · exact kept_keepCleanup fun hstate hunanswered =>
        hpending hstate ((unanswered_concat.mp hunanswered).resolve_left nofun).2
    · exact kept_keepCleanup fun hstate hunanswered =>
        hpending hstate ((unanswered_concat.mp hunanswered).resolve_left nofun).2
  · exact hkept

theorem Sound.endRelease (h : s.Sound) (k : ℕ) : (s.endRelease k).Sound := by
  unfold AsyncEffect.endRelease
  split
  · next c hk =>
    have hp := h.placed
    have hcurrent := hp.cleanupTask_eq_none (hp.not_cleaning hk nofun)
    exact ⟨{ hp.flushAt_none hk hcurrent nofun with }, h.ledger.see nofun nofun nofun⟩
  · exact h

theorem kept_endRelease (h : s.Sound) (hkept : s.Kept) (k : ℕ) : (s.endRelease k).Kept := by
  unfold AsyncEffect.endRelease
  split
  · next c hk => exact fun hne => absurd (h.placed.releasing k c hk) hne
  · exact hkept

theorem Sound.disposeAt (h : s.Sound) (hstate : s.state = .disposed) (k : ℕ)
    {point : Option DisposePoint} (hpoint : ∀ c, point ≠ some (.cleaning c)) :
    (s.disposeAt k point).Sound := by
  have hp := h.placed
  have hold (k' c : ℕ) (hk' : update s.disposes k point k' = some (.cleaning c)) :
      s.disposes k' = some (.cleaning c) := by
    by_cases heq : k' = k
    · rw [heq, update_self] at hk'
      exact absurd hk' (hpoint c)
    · rwa [update_of_ne heq] at hk'
  exact ⟨{ hp with
    waiting := fun _ _ _ => hstate
    cleaning := fun k' c hk' => hp.cleaning k' c (hold k' c hk')
    lone := fun k₁ k₂ c₁ c₂ h₁ h₂ => hp.lone k₁ k₂ c₁ c₂ (hold k₁ c₁ h₁) (hold k₂ c₂ h₂) }, h.ledger⟩

theorem Sound.finishDispose (h : s.Sound) (hstate : s.state = .disposed) (k : ℕ) : (s.finishDispose k).Sound := by
  unfold AsyncEffect.finishDispose
  split
  · next c hc => exact absurd hstate (h.placed.retained c hc).1
  · exact h.disposeAt hstate k nofun

theorem Sound.clearTask (h : s.Sound) : { s with cleanupTask := none }.Sound :=
  ⟨{ h.placed with current := nofun }, h.ledger⟩

/-- An effect without a retained cleanup is disposed of. -/
theorem Sound.setDisposed (h : s.Sound) (hcleanup : s.cleanup = none) (n : ℕ) :
    { s with state := .disposed, pending := false, nextDispose := n }.Sound :=
  ⟨{ h.placed with
    retained := fun _ hc => absurd (hcleanup.symm.trans hc) nofun
    releasing := fun _ _ _ => rfl
    waiting := fun _ _ _ => rfl
    cleaning := fun k _ hk => ⟨rfl, (h.placed.cleaning k _ hk).2⟩ }, h.ledger⟩

theorem Sound.dispose (h : s.Sound) : s.dispose.Sound := by
  have hp := h.placed
  unfold AsyncEffect.dispose
  dsimp only
  split
  · next t ht =>
    obtain ⟨k, hk⟩ := hp.current t ht
    have hs := h.setDisposed (hp.cleanup_eq_none hk) (s.nextDispose + 1)
    split
    · exact hs.clearTask.finishDispose rfl _
    · exact hs.disposeAt rfl _ nofun
  · unfold AsyncEffect.finishDispose
    split
    · next c hc =>
      obtain ⟨hstate, halone⟩ := hp.retained c hc
      have hquiet := hp.quiet halone
      have hdisposes (k' c' : ℕ) (hk' : update s.disposes s.nextDispose (some (.cleaning c)) k' =
            some (.cleaning c')) : k' = s.nextDispose := by
        by_contra hne
        rw [update_of_ne hne] at hk'
        exact hstate (hp.cleaning k' c' hk').1
      refine ⟨{ hp with
        retained := nofun
        releasing := fun _ _ _ => rfl
        waiting := fun _ _ _ => rfl
        cleaning := fun _ _ _ => ⟨rfl, halone⟩
        lone := fun k₁ k₂ c₁ c₂ h₁ h₂ => (hdisposes k₁ c₁ h₁).trans (hdisposes k₂ c₂ h₂).symm },
        (h.ledger.cleanupStart (.inl hc)).congr fun c' => ?_⟩
      refine iff_of_false ?_ ?_
      · rintro (hnone | ⟨t, ht⟩)
        · cases hnone
        · exact (hquiet t c').1 ht
      · rintro ⟨hc' | ⟨t, ht⟩, hne⟩
        · exact hne (some.inj (hc'.symm.trans hc))
        · exact (hquiet t c').1 ht
    · next hc => exact (h.setDisposed hc _).disposeAt rfl _ nofun

theorem state_finishDispose (k : ℕ) : (s.finishDispose k).state = s.state := by
  unfold AsyncEffect.finishDispose
  split
  · rfl
  · rfl

theorem state_dispose : s.dispose.state = .disposed := by
  unfold AsyncEffect.dispose
  dsimp only
  split
  · split
    · exact state_finishDispose _
    · rfl
  · exact state_finishDispose _

theorem Sound.resumeDispose (h : s.Sound) (k : ℕ) : (s.resumeDispose k).Sound := by
  unfold AsyncEffect.resumeDispose
  split
  · next t hk =>
    split
    · exact h.clearTask.finishDispose (h.placed.waiting k t hk) k
    · exact h
  · exact h

theorem kept_resumeDispose (h : s.Sound) (hkept : s.Kept) (k : ℕ) : (s.resumeDispose k).Kept := by
  unfold AsyncEffect.resumeDispose
  split
  · next t hk =>
    split
    · intro hne
      rw [state_finishDispose] at hne
      exact absurd (h.placed.waiting k t hk) hne
    · exact hkept
  · exact hkept

theorem Sound.endCleaning (h : s.Sound) (k : ℕ) : (s.endCleaning k).Sound := by
  unfold AsyncEffect.endCleaning
  split
  · next c hk =>
    have hs : (s.disposeAt k none).Sound := h.disposeAt (h.placed.cleaning k c hk).1 k nofun
    exact ⟨{ hs.placed with }, hs.ledger.see nofun nofun nofun⟩
  · exact h

theorem kept_endCleaning (hkept : s.Kept) (k : ℕ) : (s.endCleaning k).Kept := by
  unfold AsyncEffect.endCleaning
  split
  · exact kept_see hkept nofun
  · exact hkept

theorem tasks_setTask_of_ne {t' : ℕ} (task : TaskState) (hne : t' ≠ t) : (s.setTask t task).tasks t' = s.tasks t' :=
  update_of_ne hne _ _

theorem tasks_setTask_self (task : TaskState) : (s.setTask t task).tasks t = some task :=
  update_self ..

theorem Sound.beginTask (h : s.Sound) (t : ℕ) : (s.beginTask t).Sound := by
  unfold AsyncEffect.beginTask
  split
  · next c ht =>
    have hp := h.placed
    obtain ⟨k, hk⟩ := hp.unfinished t c (.inl ht)
    have hother (t' c' : ℕ) (ht' : s.tasks t' = some (.created c')) : t' = t := by
      obtain ⟨k', hk'⟩ := hp.unfinished t' c' (.inl ht')
      obtain rfl := hp.single k k' _ _ hk hk'
      exact FlushPoint.cleaning.inj (some.inj (hk'.symm.trans hk))
    refine ⟨{ hp with unfinished := fun t' c' ht' => ?_ },
      (h.ledger.cleanupStart (.inr ⟨t, ht⟩)).congr fun c' => iff_of_false ?_ ?_⟩
    · by_cases heq : t' = t
      · exact ⟨k, heq ▸ hk⟩
      · exact hp.unfinished t' c' (tasks_setTask_of_ne (.running c) heq ▸ ht')
    · rintro (hc' | ⟨t', ht'⟩)
      · exact absurd ((hp.cleanup_eq_none hk).symm.trans hc') nofun
      · by_cases heq : t' = t
        · obtain rfl := heq
          have hrunning : (s.setTask t' (.running c)).tasks t' = some (.running c) := tasks_setTask_self _
          exact absurd (hrunning.symm.trans ht') nofun
        · exact heq (hother t' c' ((tasks_setTask_of_ne (.running c) heq).symm.trans ht'))
    · rintro ⟨hc' | ⟨t', ht'⟩, hne⟩
      · exact absurd ((hp.cleanup_eq_none hk).symm.trans hc') nofun
      · obtain rfl := hother t' c' ht'
        exact hne (TaskState.created.inj (some.inj (ht'.symm.trans ht)))
  · exact h

theorem Sound.endTask (h : s.Sound) (t : ℕ) : (s.endTask t).Sound := by
  unfold AsyncEffect.endTask
  split
  · next c ht =>
    have hp := h.placed
    have hsame (t' : ℕ) (task : TaskState) (htask : task ≠ .done)
        (ht' : (s.setTask t .done).tasks t' = some task) : s.tasks t' = some task := by
      by_cases heq : t' = t
      · rw [heq, tasks_setTask_self] at ht'
        exact absurd (some.inj ht').symm htask
      · rwa [tasks_setTask_of_ne _ heq] at ht'
    have hledger : Ledger s.Owes s.nextCleanup (s.log ++ [.cleanupEnd c]) := h.ledger.see nofun nofun nofun
    refine ⟨{ hp with unfinished := fun t' c' ht' => ?_ }, hledger.congr fun c' => or_congr_right ?_⟩
    · exact hp.unfinished t' c' (ht'.imp (hsame t' _ nofun) (hsame t' _ nofun))
    · refine exists_congr fun t' => ⟨hsame t' _ nofun, fun ht' => ?_⟩
      have heq : t' ≠ t := by
        rintro rfl
        exact absurd (ht'.symm.trans ht) nofun
      exact (tasks_setTask_of_ne _ heq).trans ht'
  · exact h

theorem kept_beginTask (hkept : s.Kept) (t : ℕ) : (s.beginTask t).Kept := by
  unfold AsyncEffect.beginTask
  split
  · exact kept_see hkept nofun
  · exact hkept

theorem kept_endTask (hkept : s.Kept) (t : ℕ) : (s.endTask t).Kept := by
  unfold AsyncEffect.endTask
  split
  · exact kept_see hkept nofun
  · exact hkept

theorem kept_invalidate (hkept : s.Kept) : s.invalidate.Kept := by
  unfold AsyncEffect.invalidate
  split
  · exact hkept
  · exact fun _ _ => .inl rfl

/-- A flush returns at once if nothing is pending. -/
theorem Placed.flush_eq (h : s.Placed) (hstop : ¬ (s.pending ∧ s.state ≠ .disposed)) :
    s.flush = { s with nextFlush := s.nextFlush + 1 } := by
  have hnone : s.flushes s.nextFlush = none := by
    by_contra hsome
    obtain ⟨p, hp⟩ := ne_none_iff_exists'.mp hsome
    exact Nat.lt_irrefl _ (h.numbered _ p hp)
  have hupdate : update s.flushes s.nextFlush none = s.flushes := by
    rw [← hnone, update_eq_self]
  rw [AsyncEffect.flush, AsyncEffect.fire, if_neg hstop, flushAt, hupdate]

theorem Sound.flush (h : s.Sound) (hkept : s.Kept)
    (halone : s.pending → s.state ≠ .disposed → ∀ k, s.flushes k = none) :
    s.flush.Sound ∧ s.flush.Kept := by
  have hs : { s with nextFlush := s.nextFlush + 1 }.Sound :=
    ⟨{ h.placed with
      numbered := fun k p hk => Nat.lt_succ_of_lt (h.placed.numbered k p hk) }, h.ledger⟩
  by_cases hfire : s.pending ∧ s.state ≠ .disposed
  · exact ⟨hs.fire (Nat.lt_succ_self _) (halone hfire.1 hfire.2), kept_fire fun _ _ => hfire.1⟩
  · rw [h.placed.flush_eq hfire]
    exact ⟨hs, hkept⟩

/-- What a turn preserves. -/
theorem sound_turn (h : s.Sound) (hkept : s.Kept) (next : Turn)
    (halone : next = .flush → s.pending → s.state ≠ .disposed → ∀ k, s.flushes k = none) :
    (s.turn next).Sound ∧ (s.turn next).Kept := by
  cases next with
  | invalidate => exact ⟨h.invalidate, kept_invalidate hkept⟩
  | flush => exact h.flush hkept (halone rfl)
  | dispose => exact ⟨h.dispose, fun hne => absurd state_dispose hne⟩
  | beginTask t => exact ⟨h.beginTask t, kept_beginTask hkept t⟩
  | endTask t => exact ⟨h.endTask t, kept_endTask hkept t⟩
  | resumeFlush k => exact ⟨h.resumeFlush k, kept_resumeFlush hkept k⟩
  | endBody k returns => exact ⟨h.endBody k returns, kept_endBody h hkept k returns⟩
  | endRelease k => exact ⟨h.endRelease k, kept_endRelease h hkept k⟩
  | resumeDispose k => exact ⟨h.resumeDispose k, kept_resumeDispose h hkept k⟩
  | endCleaning k => exact ⟨h.endCleaning k, kept_endCleaning hkept k⟩

/-- The invariant of every run in which flushes are left alone. -/
theorem sound_run {turns : List Turn} (halone : Throughout Alone turns) : (run turns).Sound ∧ (run turns).Kept := by
  induction turns using reverseRecOn with
  | nil => exact ⟨sound_init, fun _ ⟨before, _, heq, _⟩ => by cases before <;> cases heq⟩
  | append_singleton turns next ih =>
    obtain ⟨hbefore, hnext⟩ := throughout_concat.mp halone
    obtain ⟨h, hkept⟩ := ih hbefore
    rw [run_concat]
    exact sound_turn h hkept next hnext

/-! ### One at a time -/

structure Serial (s : AsyncEffect) : Prop where
  one : ∀ a a', s.Active a → s.Active a' → a = a'
  once : (s.log.filterMap Event.started?).Nodup
  first : ∀ before after c, s.log = before ++ .bodyStart :: after → .bodyEnd (some c) ∈ before →
    .cleanupStart c ∈ before
  disposed : s.state = .disposed → (∀ k, s.flushes k = none) → ∀ c, .bodyEnd (some c) ∈ s.log → .cleanupStart c ∈ s.log
  kept : s.state ≠ .disposed → ∀ before after, s.log = before ++ .invalidated :: after →
    s.pending ∨ (∃ k t, s.flushes k = some (.cleaning t)) ∨ .bodyStart ∈ after

/-- What can be in progress while the flush `k` is at a point. -/
def activityAt (k : ℕ) : FlushPoint → Activity
  | .cleaning t => .task t
  | .body => .body k
  | .releasing _ => .releasing k

/-- What is in progress belongs to a flush, or it is the cleanup of a dispose. -/
theorem Placed.active_cases (h : s.Placed) {a : Activity} (ha : s.Active a) :
    (∃ k p, s.flushes k = some p ∧ a = activityAt k p) ∨
      ∃ k c, s.disposes k = some (.cleaning c) ∧ a = .cleaning k := by
  cases a with
  | body k => exact .inl ⟨k, .body, ha, rfl⟩
  | releasing k =>
    obtain ⟨c, hc⟩ := ha
    exact .inl ⟨k, .releasing c, hc, rfl⟩
  | cleaning k =>
    obtain ⟨c, hc⟩ := ha
    exact .inr ⟨k, c, hc, rfl⟩
  | task t =>
    obtain ⟨c, hc⟩ := ha
    obtain ⟨k, hk⟩ := h.unfinished t c (.inr hc)
    exact .inl ⟨k, .cleaning t, hk, rfl⟩

theorem Placed.one (h : s.Placed) {a a' : Activity} (ha : s.Active a) (ha' : s.Active a') : a = a' := by
  obtain ⟨k, p, hk, rfl⟩ | ⟨k, c, hk, rfl⟩ := h.active_cases ha
  · obtain ⟨k', p', hk', rfl⟩ | ⟨k', c', hk', rfl⟩ := h.active_cases ha'
    · obtain rfl := h.single k k' p p' hk hk'
      rw [some.inj (hk.symm.trans hk')]
    · rw [(h.cleaning k' c' hk').2] at hk
      cases hk
  · obtain ⟨k', p', hk', rfl⟩ | ⟨k', c', hk', rfl⟩ := h.active_cases ha'
    · rw [(h.cleaning k c hk).2] at hk'
      cases hk'
    · rw [h.lone k k' c c' hk hk']

/-- An effect is serial in every run in which flushes are left alone. -/
theorem effect_serial {turns : List Turn} (halone : Throughout Alone turns) : (run turns).Serial := by
  obtain ⟨h, hkept⟩ := sound_run halone
  refine ⟨fun a a' => h.placed.one, h.ledger.nodup, fun before after c heq => ?_,
    fun hstate hnone c hc => ?_, fun hstate before after heq => ?_⟩
  · exact h.ledger.first before _ after heq rfl c
  · refine (h.ledger.owed c hc).resolve_right ?_
    rintro (hc | ⟨t, ht⟩)
    · exact (h.placed.retained c hc).1 hstate
    · exact (h.placed.quiet hnone t c).1 ht
  · by_cases hafter : .bodyStart ∈ after
    · exact .inr (.inr hafter)
    · exact (hkept hstate ⟨before, after, heq, hafter⟩).imp_right .inl

theorem effect_serial_once : (run [.invalidate, .flush]).Serial :=
  effect_serial (show Throughout Alone (([] ++ [.invalidate]) ++ [.flush]) from
    throughout_concat.mpr ⟨throughout_concat.mpr ⟨throughout_nil, nofun⟩, fun _ _ _ _ => rfl⟩)

/-- A flush that is called while the body of another one is in progress starts a second body. -/
theorem effect_overlaps : ¬ (run [.invalidate, .flush, .invalidate, .flush]).Serial := by
  intro h
  have heq := h.one (.body 0) (.body 1) rfl rfl
  cases heq

end AsyncEffect

end LazilyPy.Async.Effect

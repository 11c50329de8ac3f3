import LazilyPy.Durable.Core

/-!
# No update is lost

The latest accepted revision of a key is desired, in flight or durable, whatever operations come in
whatever order.
-/

namespace LazilyPy.Durable

open List Table
open LatestDurableKeyState (inflight_release key_recover key_release retained supersedes)
open Option hiding max_eq_right

variable {K V : Type}

/-- The revision is the desired one, or else the one in flight, or else its epoch is durable. -/
def LatestDurableKeyState.Holds (entry : LatestDurableKeyState K V) (r : LatestDurableRevision V) : Prop :=
  match entry.desired, entry.inflight with
  | some desired, _ => desired = r
  | none, some inflight => inflight.revision = r
  | none, none => entry.durableThrough = some r.epoch

/-- The invariant of one key, for the revisions of it that have been accepted. -/
structure Conserved (generation : ℤ) (entry : LatestDurableKeyState K V)
    (accepted : List (LatestDurableRevision V)) : Prop where
  increasing : accepted.Pairwise fun r r' => r.epoch < r'.epoch
  latest : ∀ r, accepted.getLast? = some r → entry.Holds r
  durable_lt_inflight : ∀ durable inflight, entry.durableThrough = some durable →
    entry.inflight = some inflight → durable < inflight.epoch
  durable_lt_desired : ∀ durable desired, entry.durableThrough = some durable →
    entry.desired = some desired → durable < desired.epoch
  inflight_lt_desired : ∀ inflight desired, entry.inflight = some inflight →
    entry.desired = some desired → inflight.epoch < desired.epoch
  token : ∀ inflight, entry.inflight = some inflight → inflight.generation = generation ∧ inflight.key = entry.key

def Answer.Quiet : Answer K V → Prop
  | .upsert .unchanged | .upsert (.staleEpoch _) => True
  | .claim .empty | .claim .busy | .claim (.staleGeneration _) => True
  | .ack (.unchanged _) | .ack .unknownEpoch | .ack (.staleGeneration _) => True
  | .failure .unknownEpoch | .failure (.staleGeneration _) => True
  | .reconnect (.unchanged _) | .reconnect (.staleGeneration _) => True
  | _ => False

variable [DecidableEq K]

def LatestDurableProjectionCore.row (core : LatestDurableProjectionCore K V) (key : K) : LatestDurableKeyState K V :=
  (core.state key).getD { key }

/-- The authority, and the revisions that it has accepted, each with its key. -/
structure Ledger (K V : Type) where
  core : LatestDurableProjectionCore K V
  accepted : List (K × LatestDurableRevision V) := []

namespace Ledger

def acceptedOf (ledger : Ledger K V) (key : K) : List (LatestDurableRevision V) :=
  (ledger.accepted.filter fun r => r.1 = key).map Prod.snd

def step [BEq V] (ledger : Ledger K V) (op : Op K V) : Ledger K V :=
  match Durable.step ledger.core op with
  | .error _ => ledger
  | .ok (core, _, answer) =>
    match op, answer with
    | .upsertDesired key epoch value, .upsert .accepted =>
      { core, accepted := ledger.accepted ++ [(key, ⟨epoch, value⟩)] }
    | _, _ => { ledger with core }

def run [BEq V] (generation : ℤ) (ops : List (Op K V)) : Ledger K V :=
  ops.foldl step { core := { generation } }

theorem run_concat [BEq V] (generation : ℤ) (ops : List (Op K V)) (op : Op K V) :
    run generation (ops ++ [op]) = (run generation ops).step op := by
  simp [run, foldl_append]

end Ledger

/-! ## What an operation can do -/

inductive Transition (core : LatestDurableProjectionCore K V) :
    Op K V → LatestDurableProjectionCore K V → LatestDurableChange → Answer K V → Prop
  | same {op : Op K V} {answer : Answer K V} (haccepted : answer ≠ .upsert .accepted) :
    Transition core op core {} answer
  | accepted {key : K} {epoch : ℤ} {value : V}
    (hdurable : ∀ durable, (core.row key).durableThrough = some durable → durable < epoch)
    (hretained : ∀ r ∈ (core.row key).retained, r.epoch < epoch) :
    Transition core (.upsertDesired key epoch value)
      { core with entries := core.entries.put { core.row key with desired := some ⟨epoch, value⟩ } }
      ⟨true⟩ (.upsert .accepted)
  | claimed {key : K} {entry : LatestDurableKeyState K V} {desired : LatestDurableRevision V}
    (hstate : core.state key = some entry) (hinflight : entry.inflight = none)
    (hdesired : entry.desired = some desired) {answer : LatestDurableClaim K V} :
    Transition core (.claim key core.generation)
      { core with entries := core.entries.put { entry with
          desired := none
          inflight := some ⟨core.generation, key, desired.epoch, desired.value⟩ } }
      ⟨true⟩ (.claim answer)
  | acked {key : K} {entry : LatestDurableKeyState K V} {inflight : LatestDurableEnvelope K V}
    (hstate : core.state key = some entry) (hinflight : entry.inflight = some inflight)
    {answer : LatestDurableAck} :
    Transition core (.ackApplied key core.generation inflight.epoch)
      { core with entries := core.entries.put { entry with
          inflight := none
          durableThrough := some (entry.durableThrough.elim inflight.epoch (max · inflight.epoch)) } }
      ⟨true⟩ (.ack answer)
  | failed {key : K} {entry : LatestDurableKeyState K V} {inflight : LatestDurableEnvelope K V}
    (hstate : core.state key = some entry) (hinflight : entry.inflight = some inflight)
    {answer : LatestDurableFailure} :
    Transition core (.failRetryable key core.generation inflight.epoch)
      { core with entries := core.entries.put (entry.release inflight) } ⟨true⟩ (.failure answer)
  | reconnected {generation : ℤ} (hnewer : core.generation < generation)
    {answer : LatestDurableReconnect} :
    Transition core (.reconnect generation)
      { generation
        entries := core.entries.map LatestDurableKeyState.recover key_recover }
      ⟨true⟩ (.reconnect answer)

section

variable {core core' : LatestDurableProjectionCore K V} {change : LatestDurableChange}
  {answer : Answer K V} {op : Op K V} {key : K}

theorem map_eq_ok {α β : Type} {x : Except String α} {f : α → β} {b : β} (h : x.map f = .ok b) :
    ∃ a, x = .ok a ∧ f a = b := by
  cases x with
  | error e => exact nomatch h
  | ok a => exact ⟨a, rfl, Except.ok.inj h⟩

/-- A new key has nothing that could refuse a revision. -/
theorem refused_of_none (hnone : core.state key = none) :
    (core.row key).durableThrough = none ∧ (core.row key).retained = [] := by
  rw [LatestDurableProjectionCore.row, hnone]
  exact ⟨rfl, rfl⟩

theorem transition_of_upsert [BEq V] {epoch : ℤ} {value : V} {answer : LatestDurableUpsert}
    (h : core.upsertDesired key epoch value = .ok (core', change, answer)) :
    Transition core (.upsertDesired key epoch value) core' change (.upsert answer) := by
  obtain ⟨_, hbody⟩ := requireEpoch_bind.mp h
  replace h := Except.ok.inj hbody
  clear hbody
  rw [← LatestDurableProjectionCore.row] at h
  -- where the row is new nothing is retained, so the revision is accepted
  have hold : (core.row key).durableThrough ≠ none ∨ (core.row key).retained ≠ [] →
      (if (core.state key).isNone then { core with entries := core.entries.put (core.row key) }
        else core) = core := by
    intro hsome
    rw [if_neg]
    intro hnone
    obtain ⟨hdurable, hretained⟩ := refused_of_none (isNone_iff_eq_none.mp hnone)
    exact hsome.elim (fun hne => hne hdurable) fun hne => hne hretained
  split at h
  · next durable hfilter =>
    obtain ⟨hdurable, _⟩ := filter_eq_some_iff.mp hfilter
    have hcore := hold (.inl (by simp [hdurable]))
    rw [hcore] at h
    obtain ⟨rfl, rfl, rfl⟩ := h
    exact .same (by simp)
  · next hfilter =>
    have hdurable : ∀ durable, (core.row key).durableThrough = some durable → durable < epoch := by
      intro durable hdurable
      rw [hdurable] at hfilter
      simpa [Option.filter] using hfilter
    split at h
    · next hnone =>
      have hempty : (core.row key).retained = [] := by
        by_contra hne
        rw [List.maxOn?_eq_some_maxOn hne] at hnone
        cases hnone
      obtain ⟨rfl, rfl, rfl⟩ := h
      refine .accepted hdurable fun r hr => ?_
      rw [hempty] at hr
      exact absurd hr not_mem_nil
    · next newest hnewest =>
      have hmem := List.maxOn?_mem hnewest
      have hcore := hold (.inr (ne_nil_of_mem hmem))
      rw [hcore] at h
      split at h
      · obtain ⟨rfl, rfl, rfl⟩ := h
        exact .same (by simp)
      · next hge =>
        split at h
        · obtain ⟨rfl, rfl, rfl⟩ := h
          refine .same ?_
          split
          · simp
          · simp
        · next hne =>
          obtain ⟨rfl, rfl, rfl⟩ := h
          refine .accepted hdurable fun r hr => ?_
          have hle := List.le_apply_get_maxOn?_of_mem (f := LatestDurableRevision.epoch) hr
          simp only [hnewest, get_some] at hle
          omega

theorem transition_of_claim {generation : ℤ} {answer : LatestDurableClaim K V}
    (h : core.claim key generation = .ok (core', change, answer)) :
    Transition core (.claim key generation) core' change (.claim answer) := by
  obtain ⟨_, hbody⟩ := requireEpoch_bind.mp h
  replace h := Except.ok.inj hbody
  clear hbody
  split at h
  · obtain ⟨rfl, rfl, rfl⟩ := h
    exact .same (by simp)
  · next hgeneration =>
    obtain rfl := not_not.mp hgeneration
    split at h
    · obtain ⟨rfl, rfl, rfl⟩ := h
      exact .same (by simp)
    · next entry hstate =>
      split at h
      · obtain ⟨rfl, rfl, rfl⟩ := h
        exact .same (by simp)
      · next hinflight =>
        split at h
        · obtain ⟨rfl, rfl, rfl⟩ := h
          exact .same (by simp)
        · next desired hdesired =>
          obtain ⟨rfl, rfl, rfl⟩ := h
          exact .claimed hstate (by simpa using hinflight) hdesired

theorem transition_of_ack {generation epoch : ℤ} {answer : LatestDurableAck}
    (h : core.ackApplied key generation epoch = .ok (core', change, answer)) :
    Transition core (.ackApplied key generation epoch) core' change (.ack answer) := by
  obtain ⟨_, hrest⟩ := requireEpoch_bind.mp h
  obtain ⟨_, hbody⟩ := requireEpoch_bind.mp hrest
  replace h := Except.ok.inj hbody
  clear hrest hbody
  split at h
  · obtain ⟨rfl, rfl, rfl⟩ := h
    exact .same (by simp)
  · next hgeneration =>
    obtain rfl := not_not.mp hgeneration
    split at h
    · obtain ⟨rfl, rfl, rfl⟩ := h
      exact .same (by simp)
    · next entry hstate =>
      split at h
      · split at h
        · obtain ⟨rfl, rfl, rfl⟩ := h
          exact .same (by simp)
        · obtain ⟨rfl, rfl, rfl⟩ := h
          exact .same (by simp)
      · next hinflight =>
        obtain ⟨inflight, hsome, rfl⟩ : ∃ inflight, entry.inflight = some inflight ∧ inflight.epoch = epoch := by
          simpa [Option.all_eq_false] using hinflight
        obtain ⟨rfl, rfl, rfl⟩ := h
        exact .acked hstate hsome

theorem transition_of_fail {generation epoch : ℤ} {answer : LatestDurableFailure}
    (h : core.failRetryable key generation epoch = .ok (core', change, answer)) :
    Transition core (.failRetryable key generation epoch) core' change (.failure answer) := by
  obtain ⟨_, hrest⟩ := requireEpoch_bind.mp h
  obtain ⟨_, hbody⟩ := requireEpoch_bind.mp hrest
  replace h := Except.ok.inj hbody
  clear hrest hbody
  split at h
  · obtain ⟨rfl, rfl, rfl⟩ := h
    exact .same (by simp)
  · next hgeneration =>
    obtain rfl := not_not.mp hgeneration
    split at h
    · obtain ⟨rfl, rfl, rfl⟩ := h
      exact .same (by simp)
    · next entry hstate =>
      split at h
      · obtain ⟨rfl, rfl, rfl⟩ := h
        exact .same (by simp)
      · next inflight hfilter =>
        obtain ⟨hinflight, hepoch⟩ := filter_eq_some_iff.mp hfilter
        obtain rfl : inflight.epoch = epoch := by simpa using hepoch
        obtain ⟨rfl, rfl, rfl⟩ := h
        exact .failed hstate hinflight

theorem transition_of_reconnect {generation : ℤ} {answer : LatestDurableReconnect}
    (h : core.reconnect generation = .ok (core', change, answer)) :
    Transition core (.reconnect generation) core' change (.reconnect answer) := by
  obtain ⟨_, hbody⟩ := requireEpoch_bind.mp h
  replace h := Except.ok.inj hbody
  clear hbody
  split at h
  · obtain ⟨rfl, rfl, rfl⟩ := h
    exact .same (by simp)
  · next hge =>
    split at h
    · obtain ⟨rfl, rfl, rfl⟩ := h
      exact .same (by simp)
    · next hne =>
      obtain ⟨rfl, rfl, rfl⟩ := h
      exact .reconnected (by omega)

theorem transition_of_step [BEq V] (h : step core op = .ok (core', change, answer)) :
    Transition core op core' change answer := by
  cases op with
  | upsertDesired key epoch value =>
    obtain ⟨⟨_, _, _⟩, hok, heq⟩ := map_eq_ok h
    obtain ⟨rfl, rfl, rfl⟩ := heq
    exact transition_of_upsert hok
  | claim key generation =>
    obtain ⟨⟨_, _, _⟩, hok, heq⟩ := map_eq_ok h
    obtain ⟨rfl, rfl, rfl⟩ := heq
    exact transition_of_claim hok
  | ackApplied key generation epoch =>
    obtain ⟨⟨_, _, _⟩, hok, heq⟩ := map_eq_ok h
    obtain ⟨rfl, rfl, rfl⟩ := heq
    exact transition_of_ack hok
  | failRetryable key generation epoch =>
    obtain ⟨⟨_, _, _⟩, hok, heq⟩ := map_eq_ok h
    obtain ⟨rfl, rfl, rfl⟩ := heq
    exact transition_of_fail hok
  | reconnect generation =>
    obtain ⟨⟨_, _, _⟩, hok, heq⟩ := map_eq_ok h
    obtain ⟨rfl, rfl, rfl⟩ := heq
    exact transition_of_reconnect hok

/-! ## The change flag -/

theorem key_row (core : LatestDurableProjectionCore K V) (key : K) : (core.row key).key = key := by
  unfold LatestDurableProjectionCore.row
  cases hstate : core.state key with
  | none => rfl
  | some entry => exact key_of_get? hstate

theorem row_of_state {entry : LatestDurableKeyState K V} (h : core.state key = some entry) :
    core.row key = entry := by
  rw [LatestDurableProjectionCore.row, h]
  rfl

section

variable (core : LatestDurableProjectionCore K V) (entry : LatestDurableKeyState K V) (key : K)

theorem state_put :
    LatestDurableProjectionCore.state { core with entries := core.entries.put entry } key =
      if key = entry.key then some entry else core.state key :=
  get?_put core.entries entry key

theorem row_put :
    LatestDurableProjectionCore.row { core with entries := core.entries.put entry } key =
      if key = entry.key then entry else core.row key := by
  rw [LatestDurableProjectionCore.row, state_put]
  split
  · rfl
  · rfl

end

/-- A snapshot has the states of all keys. -/
theorem state_of_snapshot (h : core'.snapshot = core.snapshot) (key : K) : core'.state key = core.state key := by
  have hrows : core'.entries.rows = core.entries.rows := congrArg LatestDurableSnapshot.entries h
  unfold LatestDurableProjectionCore.state get?
  rw [hrows]

/-- The change flag is set exactly if the snapshot has changed. -/
theorem Transition.flag_iff (h : Transition core op core' change answer) :
    change.state = true ↔ core'.snapshot ≠ core.snapshot := by
  cases h with
  | same haccepted => exact iff_of_false (by simp) (not_not.mpr rfl)
  | @accepted key epoch value hdurable hretained =>
    refine iff_of_true rfl fun heq => ?_
    have hstate := state_of_snapshot heq key
    rw [state_put, if_pos (key_row core key).symm] at hstate
    have hdesired := congrArg LatestDurableKeyState.desired (row_of_state hstate.symm)
    have hlt := hretained ⟨epoch, value⟩ (by simp [retained, hdesired])
    exact lt_irrefl _ hlt
  | @claimed key entry desired hstate hinflight hdesired =>
    refine iff_of_true rfl fun heq => ?_
    have hnow := state_of_snapshot heq key
    rw [state_put, if_pos (key_of_get? hstate).symm, hstate] at hnow
    have hsome := congrArg LatestDurableKeyState.inflight (some.inj hnow)
    rw [hinflight] at hsome
    exact nomatch hsome
  | @acked key entry inflight hstate hinflight =>
    refine iff_of_true rfl fun heq => ?_
    have hnow := state_of_snapshot heq key
    rw [state_put, if_pos (key_of_get? hstate).symm, hstate] at hnow
    have hnone := congrArg LatestDurableKeyState.inflight (some.inj hnow)
    rw [hinflight] at hnone
    exact nomatch hnone
  | @failed key entry inflight hstate hinflight =>
    refine iff_of_true rfl fun heq => ?_
    have hnow := state_of_snapshot heq key
    rw [state_put, if_pos (by simpa using (key_of_get? hstate).symm), hstate] at hnow
    have hnone := congrArg LatestDurableKeyState.inflight (some.inj hnow)
    rw [hinflight, inflight_release] at hnone
    exact nomatch hnone
  | reconnected hnewer =>
    refine iff_of_true rfl fun heq => ?_
    exact hnewer.ne' (congrArg LatestDurableSnapshot.generation heq)

end

/-! ## The invariant of a key -/

namespace Conserved

variable {generation : ℤ} {entry : LatestDurableKeyState K V}
  {accepted : List (LatestDurableRevision V)} {r : LatestDurableRevision V}

omit [DecidableEq K]

theorem init (generation : ℤ) (key : K) : Conserved (V := V) generation { key } [] where
  increasing := .nil
  latest _ h := nomatch h
  durable_lt_inflight _ _ h := nomatch h
  durable_lt_desired _ _ h := nomatch h
  inflight_lt_desired _ _ h := nomatch h
  token _ h := nomatch h

section

variable (h : Conserved generation entry accepted)
  (hdurable : ∀ durable, entry.durableThrough = some durable → durable < r.epoch)
  (hretained : ∀ r' ∈ entry.retained, r'.epoch < r.epoch)

include h hdurable hretained

/-- What is newer than all that is retained or durable is newer than all that has been accepted. -/
theorem lt_of_newer : ∀ r' ∈ accepted, r'.epoch < r.epoch := by
  intro r' hr'
  obtain ⟨before, last, rfl⟩ := eq_nil_or_concat accepted |>.resolve_left (ne_nil_of_mem hr')
  rw [concat_eq_append] at h hr'
  have hholds := h.latest last (by simp)
  have hlast : last.epoch < r.epoch := by
    unfold LatestDurableKeyState.Holds at hholds
    unfold retained at hretained
    cases hdesired : entry.desired with
    | some desired =>
      rw [hdesired] at hholds
      exact hholds ▸ hretained desired (by simp [hdesired])
    | none =>
      cases hinflight : entry.inflight with
      | some inflight =>
        rw [hdesired, hinflight] at hholds
        exact hholds ▸ hretained inflight.revision (by simp [hinflight])
      | none =>
        rw [hdesired, hinflight] at hholds
        exact hdurable _ hholds
  obtain hbefore | hsame := mem_append.mp hr'
  · have hlt := (pairwise_append.mp h.increasing).2.2 r' hbefore last (by simp)
    exact hlt.trans hlast
  · exact mem_singleton.mp hsame ▸ hlast

theorem accept :
    Conserved generation { entry with desired := some r } (accepted ++ [r]) := by
  refine ⟨?_, ?_, h.durable_lt_inflight, ?_, ?_, h.token⟩
  · refine pairwise_append.mpr ⟨h.increasing, pairwise_singleton _ _, fun r' hr' r'' hr'' => ?_⟩
    obtain rfl := mem_singleton.mp hr''
    exact h.lt_of_newer hdurable hretained r' hr'
  · intro r' hlast
    rw [getLast?_concat] at hlast
    exact some.inj hlast
  · intro durable desired hd hsome
    obtain rfl : r = desired := some.inj hsome
    exact hdurable durable hd
  · intro inflight desired hi hsome
    obtain rfl : r = desired := some.inj hsome
    have hin : inflight.revision ∈ entry.retained := by
      have hinflight : entry.inflight = some inflight := hi
      simp [retained, hinflight]
    exact hretained inflight.revision hin

end

theorem claim {desired : LatestDurableRevision V} (h : Conserved generation entry accepted)
    (hdesired : entry.desired = some desired) :
    Conserved generation { entry with
      desired := none
      inflight := some ⟨generation, entry.key, desired.epoch, desired.value⟩ } accepted := by
  refine ⟨h.increasing, fun r hlast => ?_, ?_, (fun _ _ _ hnone => nomatch hnone), ?_, ?_⟩
  · have hholds := h.latest r hlast
    rw [LatestDurableKeyState.Holds, hdesired] at hholds
    exact hholds
  · intro durable inflight hdurable hsome
    obtain rfl := some.inj hsome
    exact h.durable_lt_desired durable desired hdurable hdesired
  · intro inflight desired' _ hnone
    exact nomatch hnone
  · intro inflight hsome
    obtain rfl := some.inj hsome
    exact ⟨rfl, rfl⟩

/-- The attempt is later than what is durable, so its epoch becomes the durable one. -/
theorem ack {inflight : LatestDurableEnvelope K V} (h : Conserved generation entry accepted)
    (hinflight : entry.inflight = some inflight) :
    Conserved generation { entry with
      inflight := none
      durableThrough := some (entry.durableThrough.elim inflight.epoch (max · inflight.epoch)) }
      accepted := by
  have hdurable : entry.durableThrough.elim inflight.epoch (max · inflight.epoch) = inflight.epoch := by
    cases hd : entry.durableThrough with
    | none => rfl
    | some durable => exact max_eq_right (h.durable_lt_inflight durable inflight hd hinflight).le
  rw [hdurable]
  refine ⟨h.increasing, fun r hlast => ?_, ?_, ?_, (fun _ _ hnone => nomatch hnone), (fun _ hnone => nomatch hnone)⟩
  · have hholds := h.latest r hlast
    unfold LatestDurableKeyState.Holds at hholds ⊢
    cases hdesired : entry.desired with
    | some desired =>
      rw [hdesired] at hholds
      exact hholds
    | none =>
      rw [hdesired, hinflight] at hholds
      exact congrArg some (congrArg LatestDurableRevision.epoch hholds)
  · intro durable inflight' _ hnone
    exact nomatch hnone
  · intro durable desired hsome hdesired
    obtain rfl := some.inj hsome
    exact h.inflight_lt_desired inflight desired hinflight hdesired

/-- The attempt is given up, perhaps for another generation. -/
theorem release {inflight : LatestDurableEnvelope K V} (h : Conserved generation entry accepted)
    (hinflight : entry.inflight = some inflight) (generation' : ℤ) :
    Conserved generation' (entry.release inflight) accepted := by
  cases hdesired : entry.desired with
  | some desired =>
    have hlt := h.inflight_lt_desired inflight desired hinflight hdesired
    have hrelease : entry.release inflight = { entry with inflight := none } := by
      simp [LatestDurableKeyState.release, supersedes, hdesired, hlt]
    rw [hrelease]
    refine ⟨h.increasing, fun r hlast => ?_, ?_, h.durable_lt_desired, (fun _ _ hnone => nomatch hnone),
      (fun _ hnone => nomatch hnone)⟩
    · have hholds := h.latest r hlast
      unfold LatestDurableKeyState.Holds at hholds ⊢
      rw [hdesired] at hholds ⊢
      exact hholds
    · intro durable inflight' _ hnone
      exact nomatch hnone
  | none =>
    have hrelease : entry.release inflight = { entry with inflight := none, desired := some inflight.revision } := by
      simp [LatestDurableKeyState.release, supersedes, hdesired]
    rw [hrelease]
    refine ⟨h.increasing, fun r hlast => ?_, ?_, ?_, (fun _ _ hnone => nomatch hnone), (fun _ hnone => nomatch hnone)⟩
    · have hholds := h.latest r hlast
      rw [LatestDurableKeyState.Holds, hdesired, hinflight] at hholds
      exact hholds
    · intro durable inflight' _ hnone
      exact nomatch hnone
    · intro durable desired hdurable hsome
      obtain rfl := some.inj hsome
      exact h.durable_lt_inflight durable inflight hdurable hinflight

theorem recover (h : Conserved generation entry accepted) (generation' : ℤ) :
    Conserved generation' entry.recover accepted := by
  unfold LatestDurableKeyState.recover
  cases hinflight : entry.inflight with
  | none =>
    refine ⟨h.increasing, h.latest, h.durable_lt_inflight, h.durable_lt_desired, h.inflight_lt_desired,
      fun inflight hsome => ?_⟩
    exact nomatch hinflight.symm.trans hsome
  | some inflight => exact h.release hinflight generation'

end Conserved

/-! ## Runs -/

namespace Ledger

variable {ledger : Ledger K V}

theorem acceptedOf_concat (ledger : Ledger K V) (core : LatestDurableProjectionCore K V) (key key' : K)
    (r : LatestDurableRevision V) :
    acceptedOf { core, accepted := ledger.accepted ++ [(key, r)] } key' =
      if key' = key then ledger.acceptedOf key' ++ [r] else ledger.acceptedOf key' := by
  unfold acceptedOf
  rw [filter_append, map_append]
  by_cases hkey : key' = key
  · simp [hkey]
  · simp [hkey, Ne.symm hkey]

def Valid (ledger : Ledger K V) : Prop :=
  ∀ key, Conserved ledger.core.generation (ledger.core.row key) (ledger.acceptedOf key)

/-- The row of one key is replaced, and nothing is accepted. -/
theorem Valid.put (h : ledger.Valid) {key : K} {entry entry' : LatestDurableKeyState K V}
    (hstate : ledger.core.state key = some entry) (hkey : entry'.key = entry.key)
    (hentry : Conserved ledger.core.generation entry (ledger.acceptedOf key) →
      Conserved ledger.core.generation entry' (ledger.acceptedOf key)) :
    Valid { ledger with core := { ledger.core with entries := ledger.core.entries.put entry' } } := by
  intro k
  rw [row_put, hkey, key_of_get? hstate]
  split
  · next heq =>
    subst heq
    exact hentry (row_of_state hstate ▸ h k)
  · exact h k

theorem Valid.step [BEq V] (h : ledger.Valid) (op : Op K V) : (ledger.step op).Valid := by
  unfold Ledger.step
  split
  · exact h
  · next core change answer hstep =>
    have htransition := transition_of_step hstep
    cases htransition with
    | same haccepted =>
      split
      · next hanswer => exact absurd rfl haccepted
      · exact h
    | @accepted key epoch value hdurable hretained =>
      intro k
      have haccepted := acceptedOf_concat ledger { ledger.core with
        entries := ledger.core.entries.put { ledger.core.row key with desired := some ⟨epoch, value⟩ } }
        key k ⟨epoch, value⟩
      dsimp only at haccepted ⊢
      rw [haccepted, row_put, key_row]
      split
      · next heq =>
        subst heq
        have hvalid := (h k).accept hdurable hretained (r := ⟨epoch, value⟩)
        rw [key_row] at hvalid
        exact hvalid
      · exact h k
    | claimed hstate hinflight hdesired =>
      refine h.put hstate rfl fun hentry => ?_
      have hclaimed := hentry.claim hdesired
      rw [key_of_get? hstate] at hclaimed
      exact key_of_get? hstate ▸ hclaimed
    | acked hstate hinflight => exact h.put hstate rfl fun hentry => hentry.ack hinflight
    | failed hstate hinflight =>
      exact h.put hstate key_release fun hentry => hentry.release hinflight _
    | reconnected hnewer =>
      intro k
      have hrow : LatestDurableProjectionCore.row { ledger.core with
          entries := ledger.core.entries.map LatestDurableKeyState.recover
            key_recover } k = (ledger.core.row k).recover := by
        unfold LatestDurableProjectionCore.row LatestDurableProjectionCore.state
        rw [get?_map]
        cases ledger.core.entries.get? k with
        | none => rfl
        | some entry => rfl
      exact hrow ▸ (h k).recover _

theorem valid_run [BEq V] (generation : ℤ) (ops : List (Op K V)) : (run generation ops).Valid := by
  induction ops using reverseRecOn with
  | nil => exact Conserved.init generation
  | append_singleton ops op ih => exact run_concat generation ops op ▸ ih.step op

end Ledger

/-- In every run the latest accepted revision of each key is desired, in flight or durable, and each
further operation that is answered says by its flag whether it has changed anything. -/
theorem loses_no_update [BEq V] (generation : ℤ) (ops : List (Op K V)) :
    (∀ key, Conserved (Ledger.run generation ops).core.generation
      ((Ledger.run generation ops).core.row key) ((Ledger.run generation ops).acceptedOf key)) ∧
    ∀ op core change answer, step (Ledger.run generation ops).core op = .ok (core, change, answer) →
      (answer.Quiet → change.state = false → ∀ key, core.state key = (Ledger.run generation ops).core.state key) ∧
      (change.state = true ↔ core.snapshot ≠ (Ledger.run generation ops).core.snapshot) := by
  refine ⟨Ledger.valid_run generation ops, fun op core change answer hstep => ?_⟩
  have hflag := (transition_of_step hstep).flag_iff
  refine ⟨fun _ hunset => state_of_snapshot ?_, hflag⟩
  by_contra hchanged
  rw [hflag.mpr hchanged] at hunset
  exact nomatch hunset

end LazilyPy.Durable

import LazilyPy.Topic.Suffix

/-!
# Snapshots of topics

Whether a topic can be restored from its snapshot, and whether the two behave alike from then on.
-/

namespace LazilyPy.Topic

open List

variable {T : Type}

def outcomes (t : TopicCell T) : List (TopicOp T) → List (Outcome T)
  | [] => []
  | op :: rest => (t.apply op).1 :: outcomes (t.apply op).2 rest

/-- The snapshot can be restored, to a topic with the same log and the same subscriptions for which
`later` returns the same. -/
def Restores (t : TopicCell T) (later : List (TopicOp T)) : Prop :=
  ∃ restored, TopicCell.new (some t.snapshot) = .ok restored ∧
    restored.baseOffset = t.baseOffset ∧ restored.elements = t.elements ∧
    restored.subscription = t.subscription ∧ outcomes restored later = outcomes t later

structure TopicCell.Accepts (t : TopicCell T) (saved : TopicSubscriptionSnapshot) : Prop where
  lower : t.baseOffset ≤ saved.cursor
  upper : saved.cursor ≤ t.tailOffset
  connected : saved.durability = .ephemeral → saved.connected = true

/-! ## Restoring -/

theorem checkSaved_eq_ok {t : TopicCell T} {saved : TopicSubscriptionSnapshot} :
    t.checkSaved saved = .ok () ↔ t.Accepts saved := by
  unfold TopicCell.checkSaved
  split
  · next hout => exact iff_of_false (fun h => nomatch h) fun h => hout ⟨h.lower, h.upper⟩
  · next hin =>
    obtain ⟨hlower, hupper⟩ := not_not.mp hin
    split
    · next hgone =>
      refine iff_of_false (fun h => by cases h) fun h => ?_
      simp [h.connected hgone.1] at hgone
    · next hkept =>
      refine iff_of_true rfl ⟨hlower, hupper, fun hephemeral => ?_⟩
      by_contra hoff
      exact hkept ⟨hephemeral, by simpa using hoff⟩

/-- The saved subscriptions are restored exactly if all of them are accepted. -/
theorem addSaved_eq_ok {t restored : TopicCell T} {saved : List TopicSubscriptionSnapshot} :
    t.addSaved saved = .ok restored ↔ (∀ s ∈ saved, t.Accepts s) ∧
      restored = { t with subscriptions := t.subscriptions.putAll saved } := by
  induction saved generalizing t with
  | nil => simp [TopicCell.addSaved, Table.putAll, eq_comm]
  | cons s saved ih =>
    have hsame : ∀ s', TopicCell.Accepts { t with subscriptions := t.subscriptions.put s } s' ↔
        t.Accepts s' := fun s' => ⟨fun h => ⟨h.lower, h.upper, h.connected⟩,
      fun h => ⟨h.lower, h.upper, h.connected⟩⟩
    rw [TopicCell.addSaved]
    cases hcheck : t.checkSaved s with
    | error e =>
      refine iff_of_false (fun h => by cases h) fun h => ?_
      rw [checkSaved_eq_ok.mpr (h.1 s mem_cons_self)] at hcheck
      cases hcheck
    | ok _ =>
      have haccepts := checkSaved_eq_ok.mp hcheck
      dsimp only
      rw [ih]
      simp only [hsame, forall_mem_cons, haccepts, true_and]
      rfl

/-- A topic whose subscriptions are all accepted is restored. -/
theorem new_snapshot {t restored : TopicCell T} (hbase : 0 ≤ t.baseOffset) :
    TopicCell.new (some t.snapshot) = .ok restored ↔ (∀ s ∈ t.subscriptions.rows, t.Accepts s) ∧
      restored = {
        baseOffset := t.baseOffset
        elements := t.elements
        subscriptions := (Table.empty _).putAll t.snapshot.subscriptions } := by
  have hmem : ∀ s, s ∈ t.snapshot.subscriptions ↔ s ∈ t.subscriptions.rows := fun s =>
    mem_insertionSort _
  have hsame : ∀ s, TopicCell.Accepts { baseOffset := t.baseOffset, elements := t.elements } s ↔
      t.Accepts s := fun s => ⟨fun h => ⟨h.lower, h.upper, h.connected⟩,
    fun h => ⟨h.lower, h.upper, h.connected⟩⟩
  show (if t.baseOffset < 0 then _ else TopicCell.addSaved _ _) = Except.ok restored ↔ _
  rw [if_neg (not_lt.mpr hbase), addSaved_eq_ok]
  simp only [hmem]
  exact and_congr_left' (forall₂_congr fun s _ => hsame s)

/-! ## The same behaviour -/

structure Same (t u : TopicCell T) : Prop where
  base : t.baseOffset = u.baseOffset
  elements : t.elements = u.elements
  subscription : t.subscription = u.subscription

/-- The least element of a list depends on its elements alone. -/
theorem min?_congr {l l' : List ℤ} (h : ∀ a, a ∈ l ↔ a ∈ l') : l.min? = l'.min? := by
  refine Option.ext fun a => ?_
  rw [min?_eq_some_iff, min?_eq_some_iff]
  simp only [h]

namespace Same

variable {t u : TopicCell T}

theorem tailOffset (h : Same t u) : t.tailOffset = u.tailOffset := by
  rw [TopicCell.tailOffset, TopicCell.tailOffset, h.base, h.elements]

theorem readUntracked (h : Same t u) (sid : String) : t.readUntracked sid = u.readUntracked sid := by
  unfold TopicCell.readUntracked
  rw [h.subscription, h.elements, h.base]

theorem mem_rows (h : Same t u) (sub : TopicSubscriptionSnapshot) :
    sub ∈ t.subscriptions.rows ↔ sub ∈ u.subscriptions.rows :=
  (Table.perm_of_get?_eq fun k => congrFun h.subscription k).mem_iff

theorem frontier (h : Same t u) : t.frontier = u.frontier := by
  rw [TopicCell.frontier, TopicCell.frontier, h.tailOffset, min?_congr fun a => ?_]
  simp only [mem_map, mem_filter, h.mem_rows]

theorem passes (h : Same t u) (op : TopicOp T) : t.Passes op ↔ u.Passes op := by
  cases op with
  | gc => simp only [TopicCell.Passes, h.mem_rows, h.tailOffset]
  | publish value | subscribe sid durability | readStream sid | read sid | advance sid count
  | disconnect sid | reconnect sid => exact Iff.rfl

/-- The same subscription is put in both. -/
theorem put (h : Same t u) (new : TopicSubscriptionSnapshot) (ids : List String) :
    Same (TopicCell.resetReaders ids { t with subscriptions := t.subscriptions.put new })
      (TopicCell.resetReaders ids { u with subscriptions := u.subscriptions.put new }) := by
  refine ⟨h.base, h.elements, ?_⟩
  funext sid
  show (t.subscriptions.put new).get? sid = (u.subscriptions.put new).get? sid
  rw [Table.get?_put, Table.get?_put]
  split
  · rfl
  · exact congrFun h.subscription sid

theorem remove (h : Same t u) (sid : String) (ids : List String) : Same (TopicCell.resetReaders ids
        { t with subscriptions := t.subscriptions.filter (·.subscriberId ≠ sid) })
      (TopicCell.resetReaders ids
        { u with subscriptions := u.subscriptions.filter (·.subscriberId ≠ sid) }) := by
  refine ⟨h.base, h.elements, ?_⟩
  funext sid'
  show (t.subscriptions.filter _).get? sid' = (u.subscriptions.filter _).get? sid'
  rw [Table.get?_filter, Table.get?_filter]
  exact congrArg _ (congrFun h.subscription sid')

/-- Where readers are fresh, an operation returns the same, and leaves the same. -/
theorem apply (h : Same t u) (hfresh : ∀ sid, (t.readers sid).Fresh (t.readUntracked sid))
    (hfresh' : ∀ sid, (u.readers sid).Fresh (u.readUntracked sid)) (op : TopicOp T) :
    (t.apply op).1 = (u.apply op).1 ∧ Same (t.apply op).2 (u.apply op).2 := by
  have hstream : ∀ sid, (t.readStream sid).1 = (u.readStream sid).1 := by
    intro sid
    have hread : (t.readStream sid).1 = t.readUntracked sid := (hfresh sid).value_read
    have hread' : (u.readStream sid).1 = u.readUntracked sid := (hfresh' sid).value_read
    rw [hread, hread', h.readUntracked]
  cases op with
  | publish value =>
    refine ⟨congrArg Outcome.offset h.tailOffset, h.base, ?_, h.subscription⟩
    exact congrArg (· ++ [value]) h.elements
  | subscribe sid durability =>
    simp only [TopicCell.apply, TopicCell.subscribe, ← h.subscription, ← h.tailOffset]
    cases t.subscription sid with
    | none => exact ⟨rfl, h.put _ _⟩
    | some existing =>
      dsimp only
      split
      · exact ⟨rfl, h⟩
      · split
        · exact ⟨rfl, h⟩
        · exact ⟨rfl, h.put _ _⟩
  | readStream sid => exact ⟨congrArg Outcome.stream (hstream sid), h.base, h.elements, h.subscription⟩
  | read sid =>
    exact ⟨congrArg (fun l => Outcome.value (head? l)) (hstream sid), h.base, h.elements, h.subscription⟩
  | advance sid count =>
    simp only [TopicCell.apply, TopicCell.advance, ← h.subscription, ← h.tailOffset, ← h.elements, ← h.base]
    split
    · exact ⟨rfl, h⟩
    · split
      · exact ⟨rfl, h⟩
      · cases t.subscription sid with
        | none => exact ⟨rfl, h⟩
        | some sub =>
          dsimp only
          split
          · exact ⟨rfl, h⟩
          · split
            · exact ⟨rfl, h⟩
            · split
              · exact ⟨rfl, h⟩
              · exact ⟨rfl, rfl, rfl, (h.put _ []).subscription⟩
  | disconnect sid =>
    simp only [TopicCell.apply, TopicCell.disconnect, ← h.subscription]
    cases t.subscription sid with
    | none => exact ⟨rfl, h⟩
    | some sub =>
      dsimp only
      split
      · split
        · exact ⟨rfl, h.remove _ _⟩
        · exact ⟨rfl, h.put _ _⟩
      · exact ⟨rfl, h⟩
  | reconnect sid =>
    simp only [TopicCell.apply, TopicCell.reconnect, ← h.subscription]
    cases t.subscription sid with
    | none => exact ⟨rfl, h⟩
    | some sub =>
      dsimp only
      split
      · exact ⟨rfl, h⟩
      · split
        · exact ⟨rfl, h⟩
        · exact ⟨rfl, h.put _ _⟩
  | gc =>
    simp only [TopicCell.apply, TopicCell.gc, ← h.frontier, ← h.base, ← h.elements]
    split
    · exact ⟨rfl, rfl, rfl, h.subscription⟩
    · exact ⟨rfl, rfl, rfl, h.subscription⟩

end Same

/-! ## Runs -/

/-- Two topics with the same log and the same subscriptions behave alike as long as no trim passes a
cursor. -/
theorem outcomes_eq {h h' : History T} (hv : h.Valid) (hv' : h'.Valid) (hsame : Same h'.topic h.topic)
    {later : List (TopicOp T)}
    (hlater : Throughout (fun before op => ¬ (before.foldl History.step h).topic.Passes op) later) :
    outcomes h'.topic later = outcomes h.topic later := by
  induction later generalizing h h' with
  | nil => rfl
  | cons op later ih =>
    have hop : ¬ h.topic.Passes op := hlater [] op later rfl
    obtain ⟨hreturn, hnext⟩ := hsame.apply hv'.fresh hv.fresh op
    refine congrArg₂ cons hreturn ?_
    have hv'next : (h'.step op).Valid := hv'.step fun hpasses => hop ((hsame.passes op).mp hpasses)
    refine ih (hv.step hop) hv'next hnext fun before a after heq => ?_
    exact hlater (op :: before) a after (congrArg (op :: ·) heq)

namespace History

variable {h : History T}

theorem Valid.accepts (hv : h.Valid) : ∀ sub ∈ h.topic.subscriptions.rows, h.topic.Accepts sub := by
  intro sub hsub
  obtain ⟨hlower, hupper⟩ := hv.cursor sub hsub
  exact ⟨hlower, hv.tailOffset_eq ▸ hupper, hv.connected sub hsub⟩

/-- A topic of a valid history is restored, and behaves alike as long as no trim passes a cursor. -/
theorem Valid.restores (hv : h.Valid) {later : List (TopicOp T)}
    (hlater : Throughout (fun before op => ¬ (before.foldl History.step h).topic.Passes op) later) :
    Restores h.topic later := by
  have hperm : h.topic.snapshot.subscriptions.Perm h.topic.subscriptions.rows := perm_insertionSort _ _
  have hlookup := Table.get?_putAll_of_perm hperm
  let restored : TopicCell T := {
    baseOffset := h.topic.baseOffset
    elements := h.topic.elements
    subscriptions := (Table.empty _).putAll h.topic.snapshot.subscriptions }
  have hsame : Same restored h.topic := ⟨rfl, rfl, funext hlookup⟩
  have hrows := hsame.mem_rows
  have hvalid : Valid { h with topic := restored } :=
    ⟨hv.base_nonneg, hv.base_le, hv.retained, fun sub hsub => hv.cursor sub ((hrows sub).mp hsub),
      fun sub hsub => hv.connected sub ((hrows sub).mp hsub), fun _ => Reader.fresh_default,
      fun sub hsub => hv.delivered sub ((hrows sub).mp hsub)⟩
  exact ⟨restored, (new_snapshot hv.base_nonneg).mpr ⟨hv.accepts, rfl⟩, rfl, rfl, funext hlookup,
    outcomes_eq hv hvalid hsame hlater⟩

/-- A topic with a cursor that a trim has passed cannot be restored. -/
theorem Valid.not_restores_of_passes (hv : h.Valid) {op : TopicOp T} (hpasses : h.topic.Passes op)
    (later : List (TopicOp T)) : ¬ Restores (h.step op).topic later := by
  rintro ⟨restored, hrestored, _⟩
  cases op with
  | gc =>
    obtain ⟨sub, hsub, _, hunread, hdurable⟩ := hpasses
    rw [hv.step_gc] at hrestored
    have hbase := hv.base_nonneg.trans hv.frontier_bounds.1
    have haccepts := ((new_snapshot hbase).mp hrestored).1 sub hsub
    exact absurd haccepts.lower (not_le.mpr (lt_frontier hunread hdurable))
  | publish value | subscribe sid durability | readStream sid | read sid | advance sid count
  | disconnect sid | reconnect sid => exact hpasses

/-- If the snapshot can be restored at every moment, then no trim passes a cursor. -/
theorem throughout_of_restores {ops : List (TopicOp T)}
    (h : ∀ before, before <+: ops → ∃ later, Restores (run before).topic later) :
    Throughout (fun before op => ¬ (run before).topic.Passes op) ops := by
  induction ops using reverseRecOn with
  | nil => exact throughout_nil
  | append_singleton ops op ih =>
    have hbefore := ih fun before hinit => h before (hinit.trans (prefix_append _ _))
    refine throughout_concat.mpr ⟨hbefore, fun hpasses => ?_⟩
    obtain ⟨later, hrestores⟩ := h (ops ++ [op]) prefix_rfl
    rw [run_concat] at hrestores
    exact (valid_run hbefore).not_restores_of_passes hpasses later hrestores

end History

/-- At every moment of a run the snapshot can be restored, to a topic with the same log and the same
subscriptions that behaves alike in the rest of the run, if and only if no trim passes the cursor of an
ephemeral subscriber. -/
theorem restores_iff (ops : List (TopicOp T)) :
    (∀ before later, before ++ later = ops → Restores (History.run before).topic later) ↔
      Throughout (fun before op => ¬ (History.run before).topic.Passes op) ops := by
  constructor
  · intro h
    exact History.throughout_of_restores fun before ⟨later, heq⟩ => ⟨later, h before later heq⟩
  · rintro h before later rfl
    refine (History.valid_run h.of_append).restores fun mid op after heq => ?_
    have hop : ¬ (History.run (before ++ mid)).topic.Passes op :=
      h (before ++ mid) op after (by rw [heq, append_assoc])
    rwa [History.run_append] at hop

theorem not_always_restores : ¬ ∀ ops : List (TopicOp ℕ),
    ∃ restored, TopicCell.new (some (History.run ops).topic.snapshot) = .ok restored := by
  intro h
  obtain ⟨restored, hrestored⟩ := h overtaken
  have hfails : TopicCell.new (some (History.run overtaken).topic.snapshot) =
      .error (.valueError "topic subscription cursor is outside the retained log") := rfl
  exact nomatch hfails.symm.trans hrestored

end LazilyPy.Topic

import LazilyPy.Lib.Throughout
import LazilyPy.Mirror.StateMirror

/-!
# Replicas that follow a mirror

A replica starts from a snapshot of a mirror, with whatever is pending then, and applies the deltas that
the mirror flushes.
-/

namespace LazilyPy.Mirror

open List Table

namespace MirrorOp

def IsFlush (op : MirrorOp) : Prop :=
  op = .flushDelta ∨ op = .flushAndBump

end MirrorOp

namespace StateMirror

variable {s m : StateMirror} {n node : NodeId} {r : Replica} {op : MirrorOp} {entry : MirrorEntry}
  {payload : List UInt8} {before after : List MirrorOp}

def Steady (m : StateMirror) (before : List MirrorOp) (n : NodeId) : Prop :=
  ∀ earlier later, before = earlier ++ later → (∀ op ∈ later, ¬ op.IsFlush) →
    (m.run earlier).state n = (m.run before).state n

/-- If the call is a flush that returns, what it leaves out has not changed since the last one. -/
def Spares (m : StateMirror) (before : List MirrorOp) (op : MirrorOp) : Prop :=
  (m.run before).flushed op ≠ none → ∀ n, (m.run before).Suppresses n → m.Steady before n

/-- If the call is a flush that returns, a replica that started from a snapshot at any point before holds
the states of the snapshot after it. -/
def Reconstructs (m : StateMirror) (before : List MirrorOp) (op : MirrorOp) : Prop :=
  (m.run before).flushed op ≠ none → ∀ earlier later, before = earlier ++ later →
    Replica.run (m.run earlier) (m.run earlier).snapshot.image (later ++ [op]) = (m.run (before ++ [op])).snapshot.image

/-! ### One call -/

def Open (s : StateMirror) : Prop :=
  s.epoch + 1 ≤ u64Max

theorem flushed_of_isFlush (hs : s.Sound) (hop : op.IsFlush) (hopen : s.Open) :
    s.flushed op = some ⟨s.epoch, s.epoch + 1, s.flushOps.1⟩ := by
  have hnext : Delta.next s.epoch s.flushOps.1 = some ⟨s.epoch, s.epoch + 1, s.flushOps.1⟩ := by
    have hepoch := hs.epoch
    unfold Open at hopen
    exact if_pos (by omega)
  obtain rfl | rfl := hop
  · exact hnext
  · show (flushAndBump s).1 = _
    unfold flushAndBump flushDelta
    rw [hnext]

theorem flushed_eq_none (hop : ¬ op.IsFlush) : s.flushed op = none := by
  cases op with
  | flushDelta => exact absurd (.inl rfl) hop
  | flushAndBump => exact absurd (.inr rfl) hop
  | publishCell node payload => rfl
  | invalidateSlot node payload => rfl
  | snapshot => rfl
  | bumpEpoch => rfl

theorem open_of_flushed (h : s.flushed op ≠ none) : op.IsFlush ∧ s.Open := by
  have hop : op.IsFlush := by
    by_contra hop
    exact h (flushed_eq_none hop)
  refine ⟨hop, ?_⟩
  by_contra hopen
  have hnext : Delta.next s.epoch s.flushOps.1 = none := if_neg fun hfits => hopen hfits.2.2
  refine h ?_
  obtain rfl | rfl := hop
  · exact hnext
  · show (flushAndBump s).1 = _
    unfold flushAndBump flushDelta
    rw [hnext]

/-- What a flush leaves, but for the epoch. -/
theorem step_of_isFlush (hop : op.IsFlush) : ∃ epoch, s.epoch ≤ epoch ∧
    s.step op = { s.flushDelta.2 with epoch := epoch } := by
  obtain rfl | rfl := hop
  · exact ⟨s.epoch, le_rfl, rfl⟩
  · show ∃ epoch, s.epoch ≤ epoch ∧ (flushAndBump s).2 = _
    unfold flushAndBump flushDelta
    split
    next delta s' heq =>
      obtain ⟨-, rfl⟩ := Prod.mk.inj heq
      exact ⟨s.epoch + 1, by omega, rfl⟩
    next s' heq =>
      obtain ⟨-, rfl⟩ := Prod.mk.inj heq
      exact ⟨s.epoch, le_rfl, rfl⟩

theorem epoch_le_step (s : StateMirror) (op : MirrorOp) : s.epoch ≤ (s.step op).epoch := by
  by_cases hop : op.IsFlush
  · obtain ⟨epoch, hle, hstep⟩ := step_of_isFlush (s := s) hop
    rw [hstep]
    exact hle
  · cases op with
    | flushDelta => exact absurd (.inl rfl) hop
    | flushAndBump => exact absurd (.inr rfl) hop
    | publishCell node payload =>
      show _ ≤ ((s.publishCell node payload).getD s).epoch
      unfold publishCell
      split
      · exact le_rfl
      · exact le_rfl
    | invalidateSlot node payload =>
      show _ ≤ ((s.invalidateSlot node payload).getD s).epoch
      unfold invalidateSlot
      split
      · exact le_rfl
      · exact le_rfl
    | snapshot => exact le_rfl
    | bumpEpoch =>
      show s.epoch ≤ s.epoch + 1
      omega

/-- A flush changes no state. -/
theorem state_step_of_isFlush (hs : s.Sound) (hop : op.IsFlush) : (s.step op).state = s.state := by
  obtain ⟨epoch, -, hstep⟩ := step_of_isFlush (s := s) hop
  funext n
  have hpayload := congrArg (Option.map fun p => p.elim NodeState.opaqueState .payload) (payload_flushOps hs n)
  rw [Option.map_map, Option.map_map] at hpayload
  rw [hstep]
  exact hpayload

/-- A call that is no flush changes the state of a node only if something is pending for it. -/
theorem state_step_of_not_pending (hop : ¬ op.IsFlush) (hn : ¬ (s.step op).Pending n) :
    (s.step op).state n = s.state n := by
  cases op with
  | flushDelta => exact absurd (.inl rfl) hop
  | flushAndBump => exact absurd (.inr rfl) hop
  | publishCell node payload =>
    show ((s.publishCell node payload).getD s).state n = _
    have hpending : ¬ ((s.publishCell node payload).getD s).Pending n := hn
    unfold publishCell at hpending ⊢
    split at hpending
    · rfl
    next entry hentry =>
      have hkey : entry.node = node := key_of_get? hentry
      have hne : n ≠ node := by
        rintro rfl
        refine hpending (.inl ?_)
        show ((s.pendingCellSets.put (n, payload)).get? n).isSome
        rw [get?_put, if_pos rfl]
        rfl
      show ((s.nodes.put _).get? n).map _ = _
      rw [get?_put, if_neg fun heq => hne (heq.trans hkey)]
      rfl
  | invalidateSlot node payload =>
    show ((s.invalidateSlot node payload).getD s).state n = _
    have hpending : ¬ ((s.invalidateSlot node payload).getD s).Pending n := hn
    unfold invalidateSlot at hpending ⊢
    split at hpending
    · rfl
    next entry hentry =>
      have hkey : entry.node = node := key_of_get? hentry
      have hne : n ≠ node := by
        rintro rfl
        exact hpending (.inr mem_insert_self)
      show ((s.nodes.put _).get? n).map _ = _
      rw [get?_put, if_neg fun heq => hne (heq.trans hkey)]
      rfl
  | snapshot => rfl
  | bumpEpoch => rfl

/-- What is pending stays so until the next flush. -/
theorem Pending.step (hn : s.Pending n) (hop : ¬ op.IsFlush) : (s.step op).Pending n := by
  cases op with
  | flushDelta => exact absurd (.inl rfl) hop
  | flushAndBump => exact absurd (.inr rfl) hop
  | publishCell node payload =>
    show ((s.publishCell node payload).getD s).Pending n
    unfold publishCell
    split
    · exact hn
    · refine hn.imp_left fun hcell => ?_
      show ((s.pendingCellSets.put (node, payload)).get? n).isSome
      rw [get?_put]
      split
      · rfl
      · exact hcell
  | invalidateSlot node payload =>
    show ((s.invalidateSlot node payload).getD s).Pending n
    unfold invalidateSlot
    split
    · exact hn
    · exact hn.imp_right mem_insert_of_mem
  | snapshot => exact hn
  | bumpEpoch => exact hn

theorem Sound.step (hs : s.Sound) (op : MirrorOp) : (s.step op).Sound := by
  have hepoch := hs.epoch.trans (epoch_le_step s op)
  by_cases hop : op.IsFlush
  · obtain ⟨epoch, -, hstep⟩ := step_of_isFlush (s := s) hop
    rw [hstep] at hepoch ⊢
    exact ⟨hepoch, nodup_nil, nofun, nofun⟩
  · cases op with
    | flushDelta => exact absurd (.inl rfl) hop
    | flushAndBump => exact absurd (.inr rfl) hop
    | publishCell node payload =>
      show ((s.publishCell node payload).getD s).Sound
      unfold publishCell
      split
      · exact hs
      next entry hentry =>
        have hkey : entry.node = node := key_of_get? hentry
        refine ⟨hs.epoch, hs.nodup, fun n hn => ?_, fun n p hp => ?_⟩
        · show ((s.nodes.put _).get? n).isSome
          rw [get?_put]
          split
          · rfl
          · exact hs.slots n hn
        · have hp : (s.pendingCellSets.put (node, payload)).get? n = some p := hp
          show ∃ e, (s.nodes.put { entry with payload := some payload }).get? n = some e ∧ _
          rw [get?_put] at hp ⊢
          by_cases hn : n = node
          · rw [if_pos hn] at hp
            obtain rfl := Option.some.inj hp
            exact ⟨_, if_pos (hn.trans hkey.symm), fun _ => rfl⟩
          · rw [if_neg hn] at hp
            rw [if_neg fun heq => hn (heq.trans hkey)]
            exact hs.cells n p hp
    | invalidateSlot node payload =>
      show ((s.invalidateSlot node payload).getD s).Sound
      unfold invalidateSlot
      split
      · exact hs
      next entry hentry =>
        have hkey : entry.node = node := key_of_get? hentry
        refine ⟨hs.epoch, hs.nodup.insert, fun n hn => ?_, fun n p hp => ?_⟩
        · show ((s.nodes.put _).get? n).isSome
          rw [get?_put]
          split
          · rfl
          next hne =>
            refine hs.slots n ((mem_insert_iff.mp hn).resolve_left fun heq => hne ?_)
            exact heq.trans hkey.symm
        · obtain ⟨e, he, hpayload⟩ := hs.cells n p hp
          show ∃ e, (s.nodes.put { entry with payload := payload.or entry.payload }).get? n = some e ∧ _
          rw [get?_put]
          by_cases hn : n = node
          · refine ⟨_, if_pos (hn.trans hkey.symm), fun hnot => absurd ?_ hnot⟩
            rw [hn]
            exact mem_insert_self
          · refine ⟨e, (if_neg fun heq => hn (heq.trans hkey)).trans he, fun hnot => hpayload ?_⟩
            exact fun hmem => hnot (mem_insert_of_mem hmem)
    | snapshot => exact hs
    | bumpEpoch => exact ⟨hepoch, hs.nodup, hs.slots, hs.cells⟩

theorem Sound.run (hs : s.Sound) (ops : List MirrorOp) : (s.run ops).Sound := by
  induction ops using reverseRecOn with
  | nil => exact hs
  | append_singleton ops op ih =>
    rw [run_concat]
    exact ih.step op

theorem sound_of (registrations : List Registration) : (of registrations).Sound := by
  have hregister (s : StateMirror) (h : s.epoch = 0 ∧ s.pendingCellSets = .empty _ ∧
      s.pendingInvalidations = []) (registration : Registration) :
      (s.register registration).epoch = 0 ∧ (s.register registration).pendingCellSets = .empty _ ∧
        (s.register registration).pendingInvalidations = [] := by
    have htrack (kind : MirrorKind) (node : NodeId) (typeTag : String)
        (payload : Option (List UInt8)) : (s.track kind node typeTag payload).epoch = 0 ∧
          (s.track kind node typeTag payload).pendingCellSets = .empty _ ∧
          (s.track kind node typeTag payload).pendingInvalidations = [] := by
      unfold track
      split
      · exact h
      · exact h
    cases registration with
    | trackCell node typeTag payload => exact htrack .cell node typeTag payload
    | trackSlot node typeTag payload => exact htrack .slot node typeTag payload
    | addEdge dependent dependency => exact h
  have hall : (of registrations).epoch = 0 ∧ (of registrations).pendingCellSets = .empty _ ∧
      (of registrations).pendingInvalidations = [] := by
    induction registrations using reverseRecOn with
    | nil => exact ⟨rfl, rfl, rfl⟩
    | append_singleton registrations registration ih =>
      unfold of
      rw [foldl_concat]
      exact hregister _ ih registration
  obtain ⟨hepoch, hcells, hslots⟩ := hall
  refine ⟨hepoch.ge, hslots ▸ nodup_nil, fun n hn => ?_, fun n p hp => ?_⟩
  · rw [hslots] at hn
    cases hn
  · rw [hcells] at hp
    cases hp

/-! ### Runs -/

theorem run_append (s : StateMirror) (ops ops' : List MirrorOp) : s.run (ops ++ ops') = (s.run ops).run ops' :=
  foldl_append ..

/-- A replica that follows calls none of which is a flush stays as it is. -/
theorem run_of_no_flush (s : StateMirror) (r : Replica) {ops : List MirrorOp}
    (hops : ∀ op ∈ ops, ¬ op.IsFlush) : Replica.run s r ops = r := by
  induction ops generalizing s with
  | nil => rfl
  | cons op ops ih =>
    have hfollow : r.follow s op = r := by
      rw [Replica.follow, flushed_eq_none (hops op mem_cons_self)]
      rfl
    show Replica.run (s.step op) (r.follow s op) ops = r
    rw [hfollow]
    exact ih (s.step op) fun op hop => hops op (mem_cons_of_mem _ hop)

/-- What a replica holds of a node: its state, or one that it has had since the last flush, if something
is pending for it. -/
def Holds (m : StateMirror) (before : List MirrorOp) (r : Replica) (n : NodeId) : Prop :=
  r n = (m.run before).state n ∨ (m.run before).Pending n ∧
    ∃ earlier later, before = earlier ++ later ∧ (∀ op ∈ later, ¬ op.IsFlush) ∧ r n = (m.run earlier).state n

theorem Holds.step (h : Holds m before r n) (hop : ¬ op.IsFlush) : Holds m (before ++ [op]) r n := by
  unfold Holds at h ⊢
  rw [run_concat]
  obtain hsame | ⟨hpending, earlier, later, rfl, hlater, hheld⟩ := h
  · by_cases hpending : ((m.run before).step op).Pending n
    · refine .inr ⟨hpending, before, [op], rfl, fun op' hop' => ?_, hsame⟩
      rw [mem_singleton.mp hop']
      exact hop
    · exact .inl (hsame.trans (state_step_of_not_pending hop hpending).symm)
  · refine .inr ⟨hpending.step hop, earlier, later ++ [op], by rw [append_assoc], ?_, hheld⟩
    intro op' hop'
    obtain hop' | hop' := mem_append.mp hop'
    · exact hlater op' hop'
    · rw [mem_singleton.mp hop']
      exact hop

/-- After a flush that returns, and leaves out nothing that is new, the replica holds the states. -/
theorem Holds.flush (hs : (m.run before).Sound) (hspares : m.Spares before op)
    (hflushed : (m.run before).flushed op ≠ none) (h : ∀ n, Holds m before r n) :
    r.follow (m.run before) op = (m.run (before ++ [op])).state := by
  obtain ⟨hop, hopen⟩ := open_of_flushed hflushed
  rw [run_concat, state_step_of_isFlush hs hop]
  funext n
  rw [Replica.follow, flushed_of_isFlush hs hop hopen]
  show r.replay (m.run before).flushOps.1 n = _
  by_cases hpending : (m.run before).Pending n
  · by_cases hsuppressed : (m.run before).Suppresses n
    · rw [replay_of_suppresses hs r hsuppressed]
      obtain hsame | ⟨-, earlier, later, heq, hlater, hheld⟩ := h n
      · exact hsame
      · exact hheld.trans (hspares hflushed n hsuppressed earlier later heq hlater)
    · exact replay_of_pending hs r hpending hsuppressed
  · rw [replay_of_not_pending hs r hpending]
    exact (h n).resolve_right fun hor => hpending hor.1

/-- A replica that has started from a snapshot, as long as every flush has returned. -/
theorem holds_run (hm : m.Sound) (earlier later : List MirrorOp)
    (hspares : Throughout m.Spares (earlier ++ later)) (hopen : (m.run (earlier ++ later)).Open)
    (n : NodeId) :
    Holds m (earlier ++ later) (Replica.run (m.run earlier) (m.run earlier).snapshot.image later) n := by
  induction later using reverseRecOn generalizing n with
  | nil =>
    rw [append_nil]
    exact .inl (congrFun (image_snapshot _) n)
  | append_singleton later op ih =>
    rw [← append_assoc] at hspares hopen ⊢
    obtain ⟨hbefore, hlast⟩ := throughout_concat.mp hspares
    have hopen' : (m.run (earlier ++ later)).Open := by
      rw [run_concat] at hopen
      have hle := epoch_le_step (m.run (earlier ++ later)) op
      unfold Open at hopen ⊢
      omega
    have hheld := ih hbefore hopen'
    have hs := hm.run (earlier ++ later)
    rw [Replica.run_concat, ← run_append]
    by_cases hop : op.IsFlush
    · have hflushed : (m.run (earlier ++ later)).flushed op ≠ none := by
        rw [flushed_of_isFlush hs hop hopen']
        exact Option.some_ne_none _
      exact .inl (congrFun (Holds.flush hs hlast hflushed hheld) n)
    · rw [Replica.follow, flushed_eq_none hop]
      exact (hheld n).step hop

/-- Every replica holds the states of the snapshot after every flush, if and only if no flush takes a
payload for one that has been published although it has changed since the last flush. -/
theorem mirror_reconstructs_iff (registrations : List Registration) (ops : List MirrorOp) :
    Throughout (of registrations).Reconstructs ops ↔ Throughout (of registrations).Spares ops := by
  have hm := sound_of registrations
  generalize of registrations = m at hm
  constructor
  · intro h before op after heq hflushed n hsuppressed earlier later hbefore hlater
    obtain ⟨hop, hopen⟩ := open_of_flushed hflushed
    have hs := hm.run before
    -- a replica that starts there is left with the state that it has started with
    have hall := congrFun (h before op after heq hflushed earlier later hbefore) n
    rw [Replica.run_concat, ← run_append, ← hbefore, run_of_no_flush _ _ hlater, Replica.follow,
      flushed_of_isFlush hs hop hopen, image_snapshot, image_snapshot, run_concat,
      state_step_of_isFlush hs hop] at hall
    rw [← hall]
    exact (replay_of_suppresses hs _ hsuppressed).symm
  · intro h before op after heq hflushed earlier later hbefore
    obtain ⟨hop, hopen⟩ := open_of_flushed hflushed
    have hs := hm.run before
    have hspares : Throughout m.Spares before := by
      rw [heq] at h
      exact h.of_append
    subst hbefore
    rw [Replica.run_concat, ← run_append, image_snapshot (m.run (earlier ++ later ++ [op]))]
    exact Holds.flush hs (h _ op after heq) hflushed (holds_run hm earlier later hspares hopen)

def twiceInEpoch : List MirrorOp :=
  [.publishCell 1 [1], .flushDelta, .publishCell 1 [2], .flushDelta]

theorem mirror_stays_behind : ¬ ∀ (registrations : List Registration) (ops : List MirrorOp),
    Throughout (of registrations).Reconstructs ops := by
  intro h
  have hlast := h [.trackCell 1 "int" (some [0])] twiceInEpoch
    [.publishCell 1 [1], .flushDelta, .publishCell 1 [2]] .flushDelta [] rfl (by decide) []
    [.publishCell 1 [1], .flushDelta, .publishCell 1 [2]] rfl
  exact absurd (congrFun hlast 1) (by decide)

end StateMirror

end LazilyPy.Mirror

import LazilyPy.Ingress.Step

/-!
# The receipt log

One bounded log holds the receipts of all channels. A receipt that is appended to a full log drops
the oldest one, which may belong to another channel.
-/

namespace LazilyPy.Ingress

open List Option IngressChange

variable {K T α : Type}

/-! ## Eviction -/

theorem evict_eq_drop (capacity : ℕ) (log : List α) : evict capacity log = log.drop (log.length - capacity) := by
  induction log with
  | nil => simp [evict]
  | cons r log ih =>
    rw [evict]
    split
    · next h =>
      have hlen : (r :: log).length - capacity = log.length - capacity + 1 := by
        rw [length_cons] at h ⊢
        omega
      rw [ih, hlen, drop_succ_cons]
    · next h =>
      have hlen : (r :: log).length - capacity = 0 := by omega
      rw [hlen, drop_zero]

/-- A log that is not full takes one more. -/
theorem evict_concat_of_lt {capacity : ℕ} {log : List α} (h : log.length < capacity) (r : α) :
    evict capacity (log ++ [r]) = log ++ [r] := by
  have hlen : (log ++ [r]).length - capacity = 0 := by
    rw [length_append, length_singleton]
    omega
  rw [evict_eq_drop, hlen, drop_zero]

/-- A full log gives up its oldest entry for one more. -/
theorem evict_concat_of_eq {oldest : α} {log : List α} (r : α) :
    evict (oldest :: log).length (oldest :: log ++ [r]) = log ++ [r] := by
  have hlen : (oldest :: log ++ [r]).length - (oldest :: log).length = 1 := by
    rw [length_append, length_singleton]
    omega
  rw [evict_eq_drop, hlen]
  rfl

/-! ## What an operation does to the log -/

/-- From `c` to `c'` a receipt is appended to this channel, which the change flags; or none is. -/
inductive Logs (c : IngressCore K T) : Option IngressReceiptChannel → IngressCore K T → IngressChange K → Prop
  | same {c' : IngressCore K T} {change : IngressChange K} (hlog : c'.receipts = c.receipts)
      (hnext : c'.nextReceiptOffset = c.nextReceiptOffset) (hpolicy : c'.policy = c.policy)
      (hflags : ∀ channel, change.flagsChannel channel = false) : Logs c none c' change
  | push {c' : IngressCore K T} {change : IngressChange K} (r : IngressReceipt K)
      (hoffset : r.offset = c.nextReceiptOffset)
      (hlog : c'.receipts = evict c.policy.receiptCapacity (c.receipts ++ [r]))
      (hnext : c'.nextReceiptOffset = c.nextReceiptOffset + 1) (hpolicy : c'.policy = c.policy)
      (hflags : ∀ channel, change.flagsChannel channel = true ↔ channel = r.channel) :
      Logs c (some r.channel) c' change

namespace Logs

variable {c c' : IngressCore K T} {key : K} {change : IngressChange K}

theorem refl : Logs c none c {} :=
  .same rfl rfl rfl fun _ => flagsChannel_empty

/-- A receipt is appended once the scopes have been seen to. -/
theorem pushReceipt (h : Logs c none c' change) (r : IngressReceipt K) :
    Logs c (some r.channel) (c'.pushReceipt r).1 (change.markChannel (c'.pushReceipt r).2) := by
  cases h with
  | same hlog hnext hpolicy hflags =>
    refine .push { r with offset := c.nextReceiptOffset } rfl ?_ ?_ hpolicy fun channel => ?_
    · simp only [IngressCore.pushReceipt, hlog, hnext, hpolicy]
    · simp only [IngressCore.pushReceipt, hnext]
    · rw [flagsChannel_markChannel]
      simp only [hflags, Bool.false_eq_true, or_false]
      rfl

/-- Marking scopes, as a tick does, flags no channel. -/
theorem flagsChannel_foldl {p : α → Prop} [DecidablePred p] {f : α → K} {m : IngressScopeChange}
    {rows : List α} {channel : IngressReceiptChannel} :
    (rows.foldl (fun change row => if p row then change.mark (f row) m else change)
      change).flagsChannel channel = change.flagsChannel channel := by
  induction rows generalizing change with
  | nil => rfl
  | cons row rows ih =>
    rw [foldl_cons, ih]
    split
    · exact flagsChannel_mark
    · rfl

end Logs

variable {c c' : IngressCore K T}

/-! ## Offsets -/

structure LogValid (c : IngressCore K T) : Prop where
  bounded : c.receipts.length ≤ c.policy.receiptCapacity
  sorted : c.receipts.Pairwise fun r r' => r.offset < r'.offset
  below : ∀ r ∈ c.receipts, r.offset < c.nextReceiptOffset

theorem LogValid.logs {o : Option IngressReceiptChannel} {change : IngressChange K}
    (h : LogValid c) (hlogs : Logs c o c' change) : LogValid c' := by
  cases hlogs with
  | same hlog hnext hpolicy _ =>
    refine ⟨?_, ?_, ?_⟩
    · rw [hlog, hpolicy]
      exact h.bounded
    · rw [hlog]
      exact h.sorted
    · rw [hlog, hnext]
      exact h.below
  | push r hoffset hlog hnext hpolicy _ =>
    rw [evict_eq_drop] at hlog
    refine ⟨?_, ?_, fun r' hr' => ?_⟩
    · rw [hlog, hpolicy, length_drop]
      omega
    · rw [hlog]
      refine Pairwise.sublist (drop_sublist _ _) ?_
      refine pairwise_append.mpr ⟨h.sorted, pairwise_singleton _ _, ?_⟩
      intro a ha b hb
      obtain rfl := mem_singleton.mp hb
      rw [hoffset]
      exact h.below a ha
    · rw [hlog] at hr'
      rw [hnext]
      obtain hold | hnew := mem_append.mp (mem_of_mem_drop hr')
      · exact Nat.lt_succ_of_lt (h.below r' hold)
      · rw [mem_singleton.mp hnew, hoffset]
        exact Nat.lt_succ_self _

theorem logValid_new {policy : IngressPolicy} {merge : MergePolicy T}
    (h : IngressCore.new K policy merge = .ok c) : LogValid c := by
  have hreceipts := (IngressCore.fresh_of_new h).receipts
  refine ⟨?_, ?_, ?_⟩
  all_goals rw [hreceipts]
  · exact Nat.zero_le _
  · exact .nil
  · exact forall_mem_nil _

/-- The log holds the newest of all receipts, in their order. -/
def Newest (c : IngressCore K T) : Prop :=
  c.receipts.map IngressReceipt.offset =
    (range c.nextReceiptOffset).drop (c.nextReceiptOffset - c.policy.receiptCapacity)

theorem Newest.logs {o : Option IngressReceiptChannel} {change : IngressChange K}
    (h : Newest c) (hlogs : Logs c o c' change) : Newest c' := by
  cases hlogs with
  | same hlog hnext hpolicy _ =>
    rw [Newest, hlog, hnext, hpolicy]
    exact h
  | push r hoffset hlog hnext hpolicy _ =>
    have hlen : c.receipts.length = c.nextReceiptOffset - (c.nextReceiptOffset - c.policy.receiptCapacity) := by
      simpa using congrArg length h
    rw [Newest, hlog, hnext, hpolicy, evict_eq_drop, map_drop, map_append, h, map_singleton, hoffset, range_succ,
      ← drop_append_of_le_length, ← range_succ, drop_drop, length_append, hlen, length_singleton]
    · congr 1
      omega
    · simp

theorem newest_new {policy : IngressPolicy} {merge : MergePolicy T}
    (h : IngressCore.new K policy merge = .ok c) : Newest c := by
  unfold IngressCore.new at h
  split at h
  · split at h
    · obtain rfl := Except.ok.inj h
      simp [Newest]
    · cases h
  · cases h

/-! ## Appending one receipt -/

/-- A receipt that is appended to a log with room moves the readers of its own channel only. -/
theorem filter_concat_of_ne {log : List (IngressReceipt K)} {r : IngressReceipt K}
    {channel : IngressReceiptChannel} (h : channel ≠ r.channel) :
    (log ++ [r]).filter (·.channel = channel) = log.filter (·.channel = channel) := by
  simp [filter_append, h.symm]

theorem receiptsSound_iff_of_push {r : IngressReceipt K} (h : LogValid c) {change : IngressChange K}
    (hlog : c'.receipts = evict c.policy.receiptCapacity (c.receipts ++ [r]))
    (hflags : ∀ channel, change.flagsChannel channel = true ↔ channel = r.channel) :
    (∀ channel, c'.receiptsOn channel ≠ c.receiptsOn channel → change.flagsChannel channel = true) ↔
      (c.receipts.length = c.policy.receiptCapacity → ∀ oldest ∈ c.receipts.head?, oldest.channel = r.channel) := by
  simp only [hflags, IngressCore.receiptsOn, hlog]
  by_cases hlen : c.receipts.length = c.policy.receiptCapacity
  · cases hreceipts : c.receipts with
    | nil =>
      rw [hreceipts] at hlen
      exact absurd hlen.symm c.retaining
    | cons oldest log =>
      rw [← hlen, hreceipts, evict_concat_of_eq]
      simp only [head?_cons, mem_def, some.injEq, forall_eq', forall_const]
      constructor
      · intro hsound
        by_contra hne
        -- The receipts of its channel have lost the oldest one.
        refine hne (hsound oldest.channel fun heq => ?_)
        rw [filter_concat_of_ne hne, filter_cons_of_pos (by simp)] at heq
        have hlength := congrArg length heq
        rw [length_cons] at hlength
        omega
      · intro holdest channel
        contrapose!
        intro hne
        rw [filter_concat_of_ne hne, filter_cons_of_neg]
        simpa [holdest] using hne.symm
  · have hlt : c.receipts.length < c.policy.receiptCapacity := lt_of_le_of_ne h.bounded hlen
    rw [evict_concat_of_lt hlt]
    refine iff_of_true (fun channel => ?_) fun heq => absurd heq hlen
    contrapose!
    exact fun hne => filter_concat_of_ne hne

variable [DecidableEq K]

/-- The channel that an operation appends a receipt to, if to any. -/
def Op.appends (c : IngressCore K T) : Op K T → Option IngressReceiptChannel
  | .fail _ _ => some .error
  | .admitEnvelope e =>
    let s := (c.scope? e.key).getD (.new T e.generation)
    if s.Fenced c.policy c.observedNow e then some .dropped
    else if (s.base e).Parks c.policy e then none
    else if (s.base e).Delivers c.policy e then some .accepted
    else some .dropped
  | _ => none

/-- The operation appends to a full log whose oldest receipt belongs to another channel. -/
def Evicts (c : IngressCore K T) (op : Op K T) : Prop :=
  ∃ channel, op.appends c = some channel ∧ c.receipts.length = c.policy.receiptCapacity ∧
    ∃ oldest ∈ c.receipts.head?, oldest.channel ≠ channel

/-- The change that the operation returns flags every channel whose receipts have changed. -/
def ReceiptsSound (c : IngressCore K T) (op : Op K T) : Prop :=
  ∀ channel, (c.step op).core.receiptsOn channel ≠ c.receiptsOn channel → (c.step op).change.flagsChannel channel = true

/-- The offsets of the log at `c'` increase, and a receipt that was not in the log at `c` has a
greater offset than all that were. -/
structure Increasing (c c' : IngressCore K T) : Prop where
  sorted : c'.receipts.Pairwise fun r r' => r.offset < r'.offset
  later : ∀ r ∈ c.receipts, ∀ r' ∈ c'.receipts, r' ∈ c.receipts ∨ r.offset < r'.offset

/-! ## Every operation -/

theorem Logs.mark (c : IngressCore K T) (key : K) (s : Scope T) (m : IngressScopeChange) :
    Logs c none (c.setScope key s) (({} : IngressChange K).mark key m) :=
  .same rfl rfl rfl fun _ => flagsChannel_mark.trans flagsChannel_empty

/-- The scope is put away or not; no receipt has been appended yet. -/
theorem Logs.stored {key : K} {s : Scope T} {p : Prop} [Decidable p] {change : IngressChange K}
    (hflags : ∀ channel, change.flagsChannel channel = false) :
    Logs c none (if p then c else c.setScope key s) change := by
  split
  · exact .same rfl rfl rfl hflags
  · exact .same rfl rfl rfl hflags

def Decision.channel? : Decision → Option IngressReceiptChannel
  | .refuse _ => some .dropped
  | .block => some .dropped
  | .buffered _ => none
  | .delivered _ _ _ => some .accepted

theorem Op.appends_admitEnvelope (e : IngressEnvelope K T) : (Op.admitEnvelope e).appends c =
      (((c.scope? e.key).getD (.new T e.generation)).decide c.policy c.merge.merge c.observedNow
        e).2.channel? := by
  simp only [Op.appends]
  generalize (c.scope? e.key).getD (.new T e.generation) = s
  split
  · next hfenced =>
    obtain ⟨reason, hd⟩ := Scope.decide_of_fenced c.merge.merge hfenced
    rw [hd]
    rfl
  · next hfenced =>
    obtain ⟨handoff, hd⟩ := Scope.decide_of_not_fenced c.merge.merge hfenced
    rw [hd]
    split
    · next hp =>
      rw [Scope.order_of_parks hp]
      rfl
    · next hp =>
      split
      · next hdel =>
        rw [Scope.order_of_delivers hdel]
        rfl
      · next hdel =>
        obtain hblock | ⟨reason, hrefuse⟩ := (Scope.order_of_refused hp hdel).2
        · rw [hblock]
          rfl
        · rw [hrefuse]
          rfl

theorem logs_step (c : IngressCore K T) (op : Op K T) :
    Logs c (op.appends c) (c.step op).core (c.step op).change := by
  cases op with
  | «open» key generation =>
    simp only [IngressCore.step, IngressCore.open, Op.appends]
    cases c.scope? key with
    | none =>
      dsimp only
      exact .mark c key _ _
    | some s =>
      dsimp only
      exact .mark c key _ _
  | suspend key =>
    simp only [IngressCore.step, IngressCore.suspend, Op.appends]
    cases c.scope? key with
    | none => exact .refl
    | some s =>
      dsimp only
      split
      · exact .refl
      · dsimp only
        exact .mark c key _ _
  | reconnect key generation => exact .mark c key _ _
  | close key =>
    simp only [IngressCore.step, IngressCore.close, Op.appends]
    cases c.scope? key with
    | none => exact .refl
    | some s =>
      dsimp only
      split
      · exact .refl
      · dsimp only
        exact .mark c key _ _
  | tick now =>
    simp only [IngressCore.step, IngressCore.tick, Op.appends]
    split
    · exact .refl
    · exact .same rfl rfl rfl fun channel =>
        Logs.flagsChannel_foldl.trans flagsChannel_empty
  | fail key error =>
    simp only [IngressCore.step, IngressCore.fail, Op.appends]
    exact (Logs.mark c key _ _).pushReceipt ⟨0, key, _, none, .error error⟩
  | drain key =>
    simp only [IngressCore.step, IngressCore.drain, Op.appends]
    cases c.scope? key with
    | none => exact .refl
    | some s =>
      dsimp only
      cases s.window with
      | none => exact .refl
      | some value =>
        dsimp only
        exact .mark c key _ _
  | admitEnvelope e =>
    rw [Op.appends_admitEnvelope]
    simp only [IngressCore.step, IngressCore.admitEnvelope]
    generalize ((c.scope? e.key).getD (.new T e.generation)).decide c.policy c.merge.merge c.observedNow e = d
    obtain ⟨s, decision⟩ := d
    cases decision with
    | refuse reason =>
      exact (Logs.stored fun _ => flagsChannel_empty).pushReceipt ⟨0, e.key, _, some e.sequence, .dropped reason⟩
    | block =>
      exact (Logs.stored fun _ => flagsChannel_empty).pushReceipt ⟨0, e.key, _, some e.sequence, .dropped .backpressure⟩
    | buffered gapFrom =>
      exact .stored fun _ =>
        flagsChannel_mark.trans flagsChannel_empty
    | delivered deliveredThrough conflated handoff =>
      have hmark : ∀ channel, (({} : IngressChange K).mark e.key .all).flagsChannel channel = false :=
        fun _ => flagsChannel_mark.trans flagsChannel_empty
      cases handoff with
      | none =>
        exact (Logs.stored hmark).pushReceipt ⟨0, e.key, _, some e.sequence, .accepted deliveredThrough conflated⟩
      | some fences =>
        exact (Logs.stored hmark).pushReceipt ⟨0, e.key, _, some e.sequence, .accepted deliveredThrough conflated⟩

/-! ## Runs -/

variable {history : List (Op K T × Reply T)}

theorem LogValid.run (h : LogValid c) (hrun : Run c history c') : LogValid c' := by
  induction hrun with
  | nil => exact h
  | concat op _ ih => exact ih.logs (logs_step _ op)

theorem logValid_of_reachable (h : Reachable c) : LogValid c := by
  obtain ⟨policy, merge, c₀, history, hnew, hrun⟩ := h
  exact (logValid_new hnew).run hrun

/-- What comes into the log comes with an offset that has not been used. -/
theorem mem_or_le_of_run (hrun : Run c history c') : c.nextReceiptOffset ≤ c'.nextReceiptOffset ∧
      ∀ r ∈ c'.receipts, r ∈ c.receipts ∨ c.nextReceiptOffset ≤ r.offset := by
  induction hrun with
  | nil => exact ⟨le_rfl, fun r hr => .inl hr⟩
  | @concat _ d op _ ih =>
    obtain ⟨hle, hmem⟩ := ih
    have hlogs := logs_step d op
    generalize op.appends d = o at hlogs
    cases hlogs with
    | same hlog hnext _ _ =>
      rw [hlog, hnext]
      exact ⟨hle, hmem⟩
    | push r hoffset hlog hnext _ _ =>
      rw [hlog, hnext, evict_eq_drop]
      refine ⟨by omega, fun r' hr' => ?_⟩
      obtain hold | hnew := mem_append.mp (mem_of_mem_drop hr')
      · exact hmem r' hold
      · rw [mem_singleton.mp hnew, hoffset]
        exact .inr hle

theorem increasing_of_run (h : LogValid c) (hrun : Run c history c') : Increasing c c' := by
  refine ⟨(h.run hrun).sorted, fun r hr r' hr' => ?_⟩
  have hbelow := h.below r hr
  obtain hold | hle := (mem_or_le_of_run hrun).2 r' hr'
  · exact .inl hold
  · exact .inr (by omega)

/-! ## When the change flags enough -/

/-- On a reachable core every channel whose receipts have changed is flagged, unless the operation
drops a receipt of another channel; and over every run the offsets increase. -/
theorem receipts_sound_iff (h : Reachable c) (op : Op K T) : (ReceiptsSound c op ↔ ¬ Evicts c op) ∧
      ∀ history c', Run c history c' → Increasing c c' := by
  have hvalid := logValid_of_reachable h
  refine ⟨?_, fun history c' hrun => increasing_of_run hvalid hrun⟩
  unfold ReceiptsSound Evicts
  have hlogs := logs_step c op
  generalize op.appends c = o at hlogs
  cases hlogs with
  | same hlog _ _ _ =>
    simp [IngressCore.receiptsOn, hlog]
  | push r _ hlog _ _ hflags =>
    rw [receiptsSound_iff_of_push hvalid hlog hflags]
    simp only [some.injEq, exists_eq_left', not_and, not_exists, ne_eq, not_not]

/-- In a log of one receipt, an accepted envelope drops the error that was there, and only the
readers of the accepted receipts are flagged. -/
theorem not_receiptsSound_evicting : ∃ c : IngressCore ℕ ℕ,
      IngressCore.new ℕ { receiptCapacity := 1 } { merge := (· + ·) } = .ok c ∧
        ¬ ReceiptsSound (c.after [.fail 0 .transportClosed]) (.admitEnvelope ⟨0, 0, 0, 0, 5⟩) := by
  refine ⟨_, rfl, fun h => ?_⟩
  have hflag := h .error (by decide)
  revert hflag
  decide

theorem receipts_sound_iff_fail : ∃ c : IngressCore ℕ ℕ,
      IngressCore.new ℕ { receiptCapacity := 1 } { merge := (· + ·) } = .ok c ∧
        ReceiptsSound (c.after [.fail 0 .transportClosed]) (.fail 0 .decodeFailed) := by
  obtain ⟨c, hnew, hnot⟩ : ∃ c : IngressCore ℕ ℕ,
      IngressCore.new ℕ { receiptCapacity := 1 } { merge := (· + ·) } = .ok c ∧
        ¬ Evicts (c.after [.fail 0 .transportClosed]) (.fail 0 .decodeFailed) := by
    refine ⟨_, rfl, ?_⟩
    rintro ⟨channel, hchannel, _, oldest, holdest, hne⟩
    obtain rfl : .error = channel := some.inj hchannel
    obtain rfl := some.inj holdest
    exact hne rfl
  exact ⟨c, hnew, (receipts_sound_iff (IngressCore.reachable_after hnew _) _).1.mpr hnot⟩

/-! ## What is kept -/

/-- The receipts that a reachable core keeps are the newest of all that it has recorded: it records them at the offsets
0, 1, 2 and so on, and keeps as many of the last ones as it may. -/
theorem receipts_newest (h : Reachable c) : Newest c := by
  obtain ⟨policy, merge, c₀, history, hnew, hrun⟩ := h
  induction hrun with
  | nil => exact newest_new hnew
  | concat op _ ih => exact ih.logs (logs_step _ op)

def failures : List (Op ℕ ℕ) :=
  [.fail 0 .transportClosed, .fail 1 .decodeFailed, .fail 0 .decodeFailed]

/-- Of three receipts a log of two keeps the last ones. -/
theorem receipts_newest_fail : ∃ c : IngressCore ℕ ℕ,
    IngressCore.new ℕ { receiptCapacity := 2 } { merge := (· + ·) } = .ok c ∧
      (c.after failures).nextReceiptOffset = 3 ∧ Newest (c.after failures) := by
  obtain ⟨c, hnew, hnext⟩ : ∃ c : IngressCore ℕ ℕ,
      IngressCore.new ℕ { receiptCapacity := 2 } { merge := (· + ·) } = .ok c ∧
        (c.after failures).nextReceiptOffset = 3 := ⟨_, rfl, rfl⟩
  exact ⟨c, hnew, hnext, receipts_newest (IngressCore.reachable_after hnew _)⟩

end LazilyPy.Ingress

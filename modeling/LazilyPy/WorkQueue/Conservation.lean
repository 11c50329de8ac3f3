import LazilyPy.WorkQueue.Cell

/-!
# Conservation of work

Every item that has been pushed is in exactly one of four places, whatever workers do and whatever
their clocks say.
-/

namespace LazilyPy.WorkQueue

open List

variable {T : Type}

/-- The item that is delivered, with the number of its deliveries. -/
def WorkQueueDelivery.item (d : WorkQueueDelivery T) : WorkQueueItem T :=
  ⟨d.itemId, d.value, d.attempt⟩

def WorkQueueDeadLetter.item (l : WorkQueueDeadLetter T) : WorkQueueItem T :=
  ⟨l.itemId, l.value, l.attempts⟩

def WorkQueueItem.pushed (i : WorkQueueItem T) : ℤ × T :=
  (i.itemId, i.value)

/-- A queue, the items that have been pushed, and the deliveries that have been claimed, acknowledged,
and failed by a worker or by their deadlines. -/
structure History (T : Type) where
  queue : WorkQueueCell T
  pushed : List (ℤ × T) := []
  claimed : List (WorkQueueDelivery T) := []
  acked : List (WorkQueueDelivery T) := []
  failed : List (WorkQueueDelivery T) := []

namespace History

/-- An operation, with what it returns and with the deliveries in flight before it. -/
def step (h : History T) (op : WorkQueueOp T) : History T :=
  match op, h.queue.apply op with
  | .push value, (.itemId itemId, queue) => { h with queue, pushed := h.pushed ++ [(itemId, value)] }
  | .claim _ _, (.delivery (some d), queue) => { h with queue, claimed := h.claimed ++ [d] }
  | .ack _ deliveryId, (.resolved true, queue) =>
    { h with queue, acked := h.acked ++ (h.queue.inFlight.get? deliveryId).toList }
  | .nack _ deliveryId, (.resolved true, queue) =>
    { h with queue, failed := h.failed ++ (h.queue.inFlight.get? deliveryId).toList }
  | .reapExpired now, (.count _, queue) =>
    { h with queue, failed := h.failed ++ (h.queue.expired now).filterMap h.queue.inFlight.get? }
  | _, (_, queue) => { h with queue }

def run (settings : Settings) (ops : List (WorkQueueOp T)) : History T :=
  ops.foldl step { queue := { settings } }

theorem run_concat (settings : Settings) (ops : List (WorkQueueOp T)) (op : WorkQueueOp T) :
    run settings (ops ++ [op]) = (run settings ops).step op := by
  simp [run, foldl_append]

/-- The items in flight, pending, dead-lettered and acknowledged. -/
def items (h : History T) : List (WorkQueueItem T) :=
  h.queue.inFlight.rows.map (·.item) ++ (h.queue.pending ++ (h.queue.deadLetters.map (·.item) ++ h.acked.map (·.item)))

def attemptsOf (h : History T) (itemId : ℤ) : ℕ :=
  h.claimed.countP (·.itemId = itemId)

def deliveries (h : History T) : List (WorkQueueDelivery T) :=
  h.queue.inFlight.rows ++ (h.acked ++ h.failed)

/-- An item is dead-lettered exactly if its last allowed delivery has failed. -/
def DeadLettered (maxDeliveries : ℤ) (deadLetters : List (WorkQueueDeadLetter T))
    (failed : List (WorkQueueDelivery T)) : Prop :=
  ∀ itemId, itemId ∈ deadLetters.map (·.itemId) ↔ ∃ d ∈ failed, d.itemId = itemId ∧ d.attempt = maxDeliveries

/-- The delivery id is unknown, acknowledged or failed, or of a delivery to another worker. -/
def Foreign (h : History T) (worker : String) (deliveryId : ℤ) : Prop :=
  deliveryId ∉ h.claimed.map (·.deliveryId) ∨ deliveryId ∈ (h.acked ++ h.failed).map (·.deliveryId) ∨
    ∃ d ∈ h.claimed, d.deliveryId = deliveryId ∧ d.worker ≠ worker

/-- Ids are not reused, every item that has been pushed is in exactly one place, with the number of
its deliveries, at most one of which is live, foreign answers change nothing, and readers read the true
counts. -/
structure Conserves (settings : Settings) (h : History T) : Prop where
  item_ids : (h.pushed.map Prod.fst).Nodup
  delivery_ids : (h.claimed.map (·.deliveryId)).Nodup
  one_place : (h.items.map (·.pushed)).Perm h.pushed
  one_delivery : (h.queue.inFlight.rows.map (·.itemId)).Nodup
  attempts : ∀ i ∈ h.items, i.attempts = h.attemptsOf i.itemId
  attempts_le : ∀ itemId, h.attemptsOf itemId ≤ settings.maxDeliveries
  dead_iff : DeadLettered settings.maxDeliveries h.queue.deadLetters h.failed
  foreign : ∀ worker deliveryId, h.Foreign worker deliveryId →
    h.queue.ack worker deliveryId = (false, h.queue) ∧ h.queue.nack worker deliveryId = (false, h.queue)
  pendingLen : h.queue.pendingLen.1 = h.queue.pending.length
  isEmpty : h.queue.isEmpty.1 = h.queue.pending.isEmpty
  inFlightLen : h.queue.inFlightLen.1 = h.queue.inFlight.rows.length
  deadLetterLen : h.queue.deadLetterLen.1 = h.queue.deadLetters.length

structure Sound (settings : Settings) (h : History T) : Prop where
  settings_eq : h.queue.settings = settings
  items : (h.items.map (·.pushed)).Perm h.pushed
  pushed_nodup : (h.pushed.map Prod.fst).Nodup
  pushed_lt : ∀ p ∈ h.pushed, p.1 < h.queue.nextItemId
  deliveries : h.deliveries.Perm h.claimed
  claimed_nodup : (h.claimed.map (·.deliveryId)).Nodup
  claimed_lt : ∀ d ∈ h.claimed, d.deliveryId < h.queue.nextDeliveryId
  claimed_pushed : ∀ d ∈ h.claimed, d.item.pushed ∈ h.pushed
  attempts : ∀ i ∈ h.items, i.attempts = h.attemptsOf i.itemId
  attempts_le : ∀ i ∈ h.items, i.attempts ≤ settings.maxDeliveries
  attempts_lt : ∀ i ∈ h.queue.pending, i.attempts < settings.maxDeliveries
  dead : DeadLettered settings.maxDeliveries h.queue.deadLetters h.failed

end History

/-! ## Moves -/

/-- What leaves the one part and joins the other one stays in the whole. -/
theorem perm_moved {α : Type} {l l' r r' : List α} {a : α} (hleave : l.Perm (a :: l'))
    (hjoin : r'.Perm (a :: r)) : (l' ++ r').Perm (l ++ r) :=
  calc
    (l' ++ r').Perm (l' ++ a :: r) := hjoin.append_left l'
    Perm _ (a :: (l' ++ r)) := perm_middle
    Perm _ (l ++ r) := (hleave.append_right r).symm

namespace History

theorem attemptsOf_concat (h : History T) (d : WorkQueueDelivery T) (itemId : ℤ) :
    attemptsOf { h with claimed := h.claimed ++ [d] } itemId =
      h.attemptsOf itemId + if d.itemId = itemId then 1 else 0 := by
  simp [attemptsOf, countP_append, countP_singleton]

namespace DeadLettered

variable {maxDeliveries : ℤ} {deadLetters : List (WorkQueueDeadLetter T)}
  {failed : List (WorkQueueDelivery T)} {d : WorkQueueDelivery T}

/-- The last delivery that is allowed fails. -/
theorem last (hdead : DeadLettered maxDeliveries deadLetters failed) (letter : WorkQueueDeadLetter T)
    (hletter : letter.itemId = d.itemId) (hlast : d.attempt = maxDeliveries) :
    DeadLettered maxDeliveries (deadLetters ++ [letter]) (failed ++ [d]) := by
  intro itemId
  rw [map_append, mem_append, hdead itemId, map_singleton, mem_singleton, hletter]
  constructor
  · rintro (⟨other, hother, hthat⟩ | rfl)
    · exact ⟨other, mem_append_left _ hother, hthat⟩
    · exact ⟨d, mem_append_right _ (mem_singleton_self d), rfl, hlast⟩
  · rintro ⟨other, hother, hid, hattempt⟩
    obtain hother | heq := mem_append.mp hother
    · exact .inl ⟨other, hother, hid, hattempt⟩
    · exact .inr (mem_singleton.mp heq ▸ hid.symm)

/-- An earlier delivery fails. -/
theorem again (hdead : DeadLettered maxDeliveries deadLetters failed) (hearlier : d.attempt ≠ maxDeliveries) :
    DeadLettered maxDeliveries deadLetters (failed ++ [d]) := by
  intro itemId
  rw [hdead itemId]
  constructor
  · rintro ⟨other, hother, hthat⟩
    exact ⟨other, mem_append_left _ hother, hthat⟩
  · rintro ⟨other, hother, hid, hattempt⟩
    obtain hother | heq := mem_append.mp hother
    · exact ⟨other, hother, hid, hattempt⟩
    · exact absurd (mem_singleton.mp heq ▸ hattempt) hearlier

end DeadLettered

namespace Sound

variable {settings : Settings} {h : History T} {d : WorkQueueDelivery T} {deliveryId : ℤ}

theorem init (settings : Settings) : Sound settings ({ queue := { settings } } : History T) where
  settings_eq := rfl
  items := .nil
  pushed_nodup := nodup_nil
  pushed_lt _ hp := absurd hp not_mem_nil
  deliveries := .nil
  claimed_nodup := nodup_nil
  claimed_lt _ hd := absurd hd not_mem_nil
  claimed_pushed _ hd := absurd hd not_mem_nil
  attempts _ hi := absurd hi not_mem_nil
  attempts_le _ hi := absurd hi not_mem_nil
  attempts_lt _ hi := absurd hi not_mem_nil
  dead itemId := by simp

/-- The readers do not matter. -/
theorem withReaders (hs : h.Sound settings) (readers : WorkQueueReaderHandles) :
    Sound settings { h with queue := { h.queue with readers } } :=
  ⟨hs.settings_eq, hs.items, hs.pushed_nodup, hs.pushed_lt, hs.deliveries, hs.claimed_nodup,
    hs.claimed_lt, hs.claimed_pushed, hs.attempts, hs.attempts_le, hs.attempts_lt, hs.dead⟩

/-- An item is in no two places. -/
theorem ids_nodup (hs : h.Sound settings) : (h.items.map (·.itemId)).Nodup := by
  have hids : h.items.map (·.itemId) = (h.items.map (·.pushed)).map Prod.fst := by
    rw [map_map]
    rfl
  rw [hids]
  exact (hs.items.map Prod.fst).nodup_iff.mpr hs.pushed_nodup

theorem attempts_of_live (hs : h.Sound settings) (hlive : d ∈ h.queue.inFlight.rows) :
    d.attempt ≤ settings.maxDeliveries :=
  hs.attempts_le d.item (mem_append_left _ (mem_map_of_mem hlive))

/-- An item that has not been pushed has not been delivered. -/
theorem attemptsOf_next (hs : h.Sound settings) : h.attemptsOf h.queue.nextItemId = 0 := by
  refine countP_eq_zero.mpr fun d hd heq => ?_
  have hlt := hs.pushed_lt _ (hs.claimed_pushed d hd)
  have hid : d.itemId = h.queue.nextItemId := by simpa using heq
  exact absurd hid (ne_of_lt hlt)

theorem push (hs : h.Sound settings) (value : T) : (h.step (.push value)).Sound settings := by
  have hitems : (h.step (.push value)).items.Perm
      ({ itemId := h.queue.nextItemId, value } :: h.items) := by
    show (_ ++ (h.queue.pending ++ [_] ++ _)).Perm _
    rw [append_assoc, singleton_append, ← append_assoc]
    exact perm_middle.trans (.of_eq (by rw [append_assoc]; rfl))
  have hnew : h.queue.nextItemId ∉ h.pushed.map Prod.fst := by
    intro hin
    obtain ⟨p, hp, heq⟩ := mem_map.mp hin
    exact absurd heq (ne_of_lt (hs.pushed_lt p hp))
  have hmax := settings.max_pos
  refine ⟨hs.settings_eq, ?_, ?_, fun p hp => ?_, hs.deliveries, hs.claimed_nodup, hs.claimed_lt,
    fun d hd => mem_append_left _ (hs.claimed_pushed d hd), fun i hi => ?_, fun i hi => ?_,
    fun i hi => ?_, hs.dead⟩
  · exact (hitems.map _).trans ((hs.items.cons _).trans (perm_append_singleton _ _).symm)
  · show ((h.pushed ++ [_]).map Prod.fst).Nodup
    rw [map_append, map_singleton]
    exact hs.pushed_nodup.append (nodup_singleton _) (disjoint_singleton.mpr hnew)
  · show p.1 < h.queue.nextItemId + 1
    obtain hold | heq := mem_append.mp hp
    · have hlt := hs.pushed_lt p hold
      omega
    · rw [mem_singleton.mp heq]
      exact lt_add_one _
  · obtain rfl | hold := mem_cons.mp (hitems.mem_iff.mp hi)
    · show (0 : ℤ) = (h.attemptsOf h.queue.nextItemId : ℕ)
      rw [hs.attemptsOf_next, Nat.cast_zero]
    · exact hs.attempts i hold
  · obtain rfl | hold := mem_cons.mp (hitems.mem_iff.mp hi)
    · show (0 : ℤ) ≤ _
      omega
    · exact hs.attempts_le i hold
  · obtain hold | heq := mem_append.mp hi
    · exact hs.attempts_lt i hold
    · rw [mem_singleton.mp heq]
      show (0 : ℤ) < _
      omega

section

variable (hs : h.Sound settings)

include hs

theorem claimed_of_live (hlive : d ∈ h.queue.inFlight.rows) : d ∈ h.claimed :=
  hs.deliveries.mem_iff.mp (mem_append_left _ hlive)

/-- The next delivery id has not been used. -/
theorem unused (hid : d.deliveryId = h.queue.nextDeliveryId) :
    d.deliveryId ∉ h.claimed.map (·.deliveryId) := by
  intro hin
  obtain ⟨other, hother, heq⟩ := mem_map.mp hin
  exact absurd (heq.trans hid) (ne_of_lt (hs.claimed_lt other hother))

theorem rows_put (hid : d.deliveryId = h.queue.nextDeliveryId) :
    (h.queue.inFlight.put d).rows = h.queue.inFlight.rows ++ [d] := by
  refine Table.rows_put_of_notMem fun hin => hs.unused hid ?_
  obtain ⟨other, hother, heq⟩ := mem_map.mp hin
  exact heq ▸ mem_map_of_mem (hs.claimed_of_live hother)

/-- The other items have other ids. -/
theorem itemId_ne {item : WorkQueueItem T} {others : List (WorkQueueItem T)} (hperm : h.items.Perm (item :: others)) :
    ∀ i ∈ others, i ∈ h.items ∧ item.itemId ≠ i.itemId := by
  intro i hi
  have hnodup := (hperm.map (·.itemId)).nodup_iff.mp hs.ids_nodup
  refine ⟨hperm.mem_iff.mpr (mem_cons_of_mem _ hi), fun heq => ?_⟩
  have hsame : item.itemId ∈ others.map (·.itemId) := heq ▸ mem_map_of_mem hi
  exact (nodup_cons.mp hnodup).1 hsame

/-- A pending item becomes a delivery with a new id. -/
theorem handed {item : WorkQueueItem T} {rest : List (WorkQueueItem T)} (hpending : h.queue.pending = item :: rest)
    (hid : d.deliveryId = h.queue.nextDeliveryId) (hitem : d.item = { item with attempts := item.attempts + 1 }) :
    Sound settings { h with
      queue := { h.queue with
        pending := rest
        nextDeliveryId := h.queue.nextDeliveryId + 1
        inFlight := h.queue.inFlight.put d }
      claimed := h.claimed ++ [d] } := by
  have hitemId : d.itemId = item.itemId := congrArg WorkQueueItem.itemId hitem
  have hpushed : d.item.pushed = item.pushed := by
    rw [hitem]
    rfl
  have hrows := hs.rows_put hid
  let others := h.queue.inFlight.rows.map (·.item) ++
    (rest ++ (h.queue.deadLetters.map (·.item) ++ h.acked.map (·.item)))
  have hold : h.items.Perm (item :: others) := by
    rw [History.items, hpending]
    exact perm_middle
  have hnew : ((h.queue.inFlight.put d).rows.map (·.item) ++
      (rest ++ (h.queue.deadLetters.map (·.item) ++ h.acked.map (·.item)))).Perm
        (d.item :: others) := by
    rw [hrows, map_append, map_singleton, append_assoc]
    exact perm_middle
  have hin : item ∈ h.items := hold.mem_iff.mpr mem_cons_self
  have hother := hs.itemId_ne hold
  refine ⟨hs.settings_eq, ?_, hs.pushed_nodup, hs.pushed_lt, ?_, ?_, fun other hother => ?_,
    fun other hother => ?_, fun i hi => ?_, fun i hi => ?_, fun i hi => ?_, hs.dead⟩
  · -- the item is where the delivery is, and as it has been pushed
    have hitems := (hold.map (·.pushed)).symm.trans hs.items
    rw [map_cons, ← hpushed] at hitems
    exact (hnew.map _).trans hitems
  · show ((h.queue.inFlight.put d).rows ++ _).Perm _
    rw [hrows, append_assoc]
    exact (perm_middle.trans (hs.deliveries.cons d)).trans (perm_append_singleton _ _).symm
  · show ((h.claimed ++ [d]).map _).Nodup
    rw [map_append, map_singleton]
    exact hs.claimed_nodup.append (nodup_singleton _) (disjoint_singleton.mpr (hs.unused hid))
  · show other.deliveryId < h.queue.nextDeliveryId + 1
    obtain hbefore | heq := mem_append.mp hother
    · have hlt := hs.claimed_lt other hbefore
      omega
    · rw [mem_singleton.mp heq, hid]
      exact lt_add_one _
  · obtain hbefore | heq := mem_append.mp hother
    · exact hs.claimed_pushed other hbefore
    · rw [mem_singleton.mp heq, hpushed]
      exact hs.items.mem_iff.mp (mem_map_of_mem hin)
  · -- one more delivery of this item, and of no other one
    show i.attempts = (attemptsOf { h with claimed := h.claimed ++ [d] } i.itemId : ℕ)
    rw [attemptsOf_concat]
    obtain rfl | hi := mem_cons.mp (hnew.mem_iff.mp hi)
    · have hcount := hs.attempts item hin
      rw [hitem]
      simp only [hitemId, if_true]
      omega
    · obtain ⟨hi, hne⟩ := hother i hi
      rw [hitemId, if_neg hne, Nat.add_zero]
      exact hs.attempts i hi
  · obtain rfl | hi := mem_cons.mp (hnew.mem_iff.mp hi)
    · have hlt := hs.attempts_lt item (hpending ▸ mem_cons_self)
      rw [hitem]
      exact hlt
    · exact hs.attempts_le i (hother i hi).1
  · exact hs.attempts_lt i (hpending ▸ mem_cons_of_mem item hi)

end

/-- The item that has waited longest is handed to a worker. -/
theorem claim (hs : h.Sound settings) (worker : String) (now : ℤ) : (h.step (.claim worker now)).Sound settings := by
  simp only [step, WorkQueueCell.apply, WorkQueueCell.claim]
  by_cases hnow : now < 0
  · rwa [if_pos hnow]
  · rw [if_neg hnow]
    cases hpending : h.queue.pending with
    | nil => exact hs
    | cons item rest => exact (hs.handed hpending rfl rfl).withReaders _

/-- A delivery leaves what is in flight. Its item joins another place, with as many deliveries. -/
theorem move (hs : h.Sound settings) (hlive : h.queue.inFlight.get? deliveryId = some d)
    (pending : List (WorkQueueItem T)) (deadLetters : List (WorkQueueDeadLetter T))
    (acked failed : List (WorkQueueDelivery T))
    (hjoin : (pending ++ (deadLetters.map (·.item) ++ acked.map (·.item))).Perm (d.item ::
      (h.queue.pending ++ (h.queue.deadLetters.map (·.item) ++ h.acked.map (·.item)))))
    (hresolved : (acked ++ failed).Perm (d :: (h.acked ++ h.failed)))
    (hpending : ∀ i ∈ pending, i.attempts < settings.maxDeliveries)
    (hdead : DeadLettered settings.maxDeliveries deadLetters failed) :
    Sound settings { h with
      queue := { h.queue.remove deliveryId with pending, deadLetters }
      acked
      failed } := by
  have hleave : h.queue.inFlight.rows.Perm (d :: (h.queue.remove deliveryId).inFlight.rows) :=
    Table.rows_perm_of_get? hlive
  have hitems : (((h.queue.remove deliveryId).inFlight.rows.map (·.item)) ++
      (pending ++ (deadLetters.map (·.item) ++ acked.map (·.item)))).Perm h.items :=
    perm_moved (hleave.map (·.item)) hjoin
  exact ⟨hs.settings_eq, (hitems.map _).trans hs.items, hs.pushed_nodup, hs.pushed_lt,
    (perm_moved hleave hresolved).trans hs.deliveries, hs.claimed_nodup, hs.claimed_lt,
    hs.claimed_pushed, fun i hi => hs.attempts i (hitems.mem_iff.mp hi),
    fun i hi => hs.attempts_le i (hitems.mem_iff.mp hi), hpending, hdead⟩

theorem ack (hs : h.Sound settings) (worker : String) (deliveryId : ℤ) :
    (h.step (.ack worker deliveryId)).Sound settings := by
  cases hlive : h.queue.inFlight.get? deliveryId with
  | none =>
    simp only [step, WorkQueueCell.apply, WorkQueueCell.ack, hlive]
    exact hs
  | some d =>
    by_cases hworker : d.worker ≠ worker
    · simp only [step, WorkQueueCell.apply, WorkQueueCell.ack, hlive, if_pos hworker]
      exact hs
    · simp only [step, WorkQueueCell.apply, WorkQueueCell.ack, hlive, if_neg hworker, Option.toList_some]
      refine (hs.move hlive _ _ (h.acked ++ [d]) _ ?_ ?_ hs.attempts_lt hs.dead).withReaders _
      · rw [map_append, map_singleton, ← append_assoc, ← append_assoc, ← append_assoc]
        exact perm_append_singleton _ _
      · rw [append_assoc]
        exact perm_middle

/-- A delivery that fails leaves what is in flight. Its item waits again, or is given up if this has been
the last delivery that is allowed. -/
theorem fail (hs : h.Sound settings) (hlive : h.queue.inFlight.get? deliveryId = some d)
    (reason : WorkQueueDeadLetterReason) : Sound settings { h with
      queue := (h.queue.remove deliveryId).fail d reason
      failed := h.failed ++ [d] } := by
  have hle := hs.attempts_of_live (Table.mem_of_get? hlive)
  have hresolved : (h.acked ++ (h.failed ++ [d])).Perm (d :: (h.acked ++ h.failed)) := by
    rw [← append_assoc]
    exact perm_append_singleton _ _
  have hmax : (h.queue.remove deliveryId).settings.maxDeliveries = settings.maxDeliveries :=
    congrArg Settings.maxDeliveries hs.settings_eq
  unfold WorkQueueCell.fail
  split
  · next hlast =>
    have hlast : d.attempt = settings.maxDeliveries := le_antisymm hle (hmax ▸ hlast)
    refine hs.move hlive h.queue.pending (h.queue.deadLetters ++ [_]) _ _ ?_ hresolved hs.attempts_lt
      (hs.dead.last ⟨d.itemId, d.value, d.attempt, reason⟩ rfl hlast)
    rw [map_append, map_singleton, append_assoc, ← append_assoc h.queue.pending, ← append_assoc h.queue.pending]
    exact perm_middle
  · next hagain =>
    have hagain : d.attempt < settings.maxDeliveries := not_le.mp (hmax ▸ hagain)
    refine hs.move hlive (h.queue.pending ++ [d.item]) _ _ _ ?_ hresolved (fun i hi => ?_)
      (hs.dead.again (ne_of_lt hagain))
    · rw [append_assoc]
      exact perm_middle
    · obtain hi | heq := mem_append.mp hi
      · exact hs.attempts_lt i hi
      · rw [mem_singleton.mp heq]
        exact hagain

theorem nack (hs : h.Sound settings) (worker : String) (deliveryId : ℤ) :
    (h.step (.nack worker deliveryId)).Sound settings := by
  cases hlive : h.queue.inFlight.get? deliveryId with
  | none =>
    simp only [step, WorkQueueCell.apply, WorkQueueCell.nack, hlive]
    exact hs
  | some d =>
    by_cases hworker : d.worker ≠ worker
    · simp only [step, WorkQueueCell.apply, WorkQueueCell.nack, hlive, if_pos hworker]
      exact hs
    · simp only [step, WorkQueueCell.apply, WorkQueueCell.nack, hlive, if_neg hworker, Option.toList_some]
      exact (hs.fail hlive .nack).withReaders _

/-- Deliveries in flight fail one after the other, none of which is missing. -/
theorem failAll (hs : h.Sound settings) {ids : List ℤ} (hnodup : ids.Nodup)
    (hlive : ∀ deliveryId ∈ ids, deliveryId ∈ h.queue.inFlight.rows.map (·.deliveryId)) :
    ∃ q, h.queue.failAll ids = some q ∧ Sound settings { h with
      queue := q
      failed := h.failed ++ ids.filterMap h.queue.inFlight.get? } := by
  induction ids generalizing h with
  | nil => exact ⟨h.queue, rfl, by simpa using hs⟩
  | cons deliveryId ids ih =>
    obtain ⟨hnot, hrest⟩ := nodup_cons.mp hnodup
    obtain ⟨d, hin, rfl⟩ := mem_map.mp (hlive deliveryId mem_cons_self)
    have hget : h.queue.inFlight.get? d.deliveryId = some d := Table.get?_of_mem hin
    have hsame : ∀ other ∈ ids, ((h.queue.remove d.deliveryId).fail d .expired).inFlight.get? other =
        h.queue.inFlight.get? other := by
      intro other hother
      have hne : other ≠ d.deliveryId := fun heq => hnot (heq ▸ hother)
      rw [WorkQueueCell.inFlight_fail, WorkQueueCell.get?_remove hne]
    -- the ids are distinct, so what is left to fail is still in flight
    have hstill : ∀ other ∈ ids, other ∈
        ((h.queue.remove d.deliveryId).fail d .expired).inFlight.rows.map (·.deliveryId) := by
      intro other hother
      obtain ⟨d', hin', rfl⟩ := mem_map.mp (hlive other (mem_cons_of_mem _ hother))
      have hget' := (hsame d'.deliveryId hother).trans (Table.get?_of_mem hin')
      exact mem_map_of_mem (Table.mem_of_get? hget')
    obtain ⟨q, hq, hsound⟩ := ih (hs.fail hget .expired) hrest hstill
    refine ⟨q, ?_, ?_⟩
    · rw [WorkQueueCell.failAll, hget]
      exact hq
    · rw [filterMap_cons_some hget]
      rw [filterMap_congr hsame, append_assoc] at hsound
      exact hsound

theorem reapExpired (hs : h.Sound settings) (now : ℤ) : (h.step (.reapExpired now)).Sound settings := by
  by_cases hnow : now < 0
  · simp only [step, WorkQueueCell.apply, WorkQueueCell.reapExpired, if_pos hnow]
    exact hs
  · have hperm : (h.queue.expired now).Perm ((h.queue.inFlight.rows.filter (·.deadline < now)).map (·.deliveryId)) :=
      perm_insertionSort _ _
    have hsub : ((h.queue.inFlight.rows.filter (·.deadline < now)).map (·.deliveryId)).Sublist
        (h.queue.inFlight.rows.map (·.deliveryId)) := filter_sublist.map _
    have hnodup := hperm.nodup_iff.mpr (h.queue.inFlight.nodup.sublist hsub)
    obtain ⟨q, hq, hsound⟩ := hs.failAll hnodup fun deliveryId hin =>
      hsub.subset (hperm.mem_iff.mp hin)
    by_cases hnone : h.queue.expired now = []
    · have hfailed : h.failed ++ (h.queue.expired now).filterMap h.queue.inFlight.get? = h.failed := by
        rw [hnone, filterMap_nil, append_nil]
      simp only [step, WorkQueueCell.apply, WorkQueueCell.reapExpired, if_neg hnow, if_pos hnone, hfailed]
      exact hs
    · simp only [step, WorkQueueCell.apply, WorkQueueCell.reapExpired, if_neg hnow, if_neg hnone, hq]
      exact hsound.withReaders _

/-- The invariant, operation by operation. -/
theorem step (hs : h.Sound settings) (op : WorkQueueOp T) : (h.step op).Sound settings := by
  cases op with
  | push value => exact hs.push value
  | claim worker now => exact hs.claim worker now
  | ack worker deliveryId => exact hs.ack worker deliveryId
  | nack worker deliveryId => exact hs.nack worker deliveryId
  | reapExpired now => exact hs.reapExpired now
  | pendingLen | isEmpty | inFlightLen | deadLetterLen => exact hs.withReaders _

/-! ## What follows -/

section

variable (hs : h.Sound settings)

include hs

/-- An item that has been delivered has been pushed, and so is in one of the places. -/
theorem attemptsOf_le (itemId : ℤ) : h.attemptsOf itemId ≤ settings.maxDeliveries := by
  by_cases hdelivered : ∃ d ∈ h.claimed, d.itemId = itemId
  · obtain ⟨d, hd, rfl⟩ := hdelivered
    obtain ⟨i, hi, heq⟩ := mem_map.mp (hs.items.mem_iff.mpr (hs.claimed_pushed d hd))
    have hid : i.itemId = d.itemId := congrArg Prod.fst heq
    have hcount := hs.attempts i hi
    have hle := hs.attempts_le i hi
    rwa [hcount, hid] at hle
  · have hzero : h.attemptsOf itemId = 0 := by
      refine countP_eq_zero.mpr fun d hd heq => hdelivered ⟨d, hd, by simpa using heq⟩
    have hmax := settings.max_pos
    rw [hzero]
    omega

/-- Resolved deliveries are no longer in flight. -/
theorem not_live {worker : String} (hforeign : h.Foreign worker deliveryId)
    (hlive : h.queue.inFlight.get? deliveryId = some d) : d.worker ≠ worker := by
  obtain ⟨hin, rfl⟩ := Table.get?_eq_some.mp hlive
  have hclaimed := hs.claimed_of_live hin
  obtain hunknown | hresolved | ⟨other, hother, hid, hworker⟩ := hforeign
  · exact absurd (mem_map_of_mem hclaimed) hunknown
  · have hnodup := (hs.deliveries.map (·.deliveryId)).nodup_iff.mpr hs.claimed_nodup
    rw [History.deliveries, map_append] at hnodup
    exact absurd hresolved (disjoint_of_nodup_append hnodup (mem_map_of_mem hin))
  · have heq := inj_on_of_nodup_map hs.claimed_nodup hother hclaimed hid
    exact heq ▸ hworker

theorem foreign (worker : String) (deliveryId : ℤ) (hforeign : h.Foreign worker deliveryId) :
    h.queue.ack worker deliveryId = (false, h.queue) ∧ h.queue.nack worker deliveryId = (false, h.queue) := by
  unfold WorkQueueCell.ack WorkQueueCell.nack
  cases hlive : h.queue.inFlight.get? deliveryId with
  | none => exact ⟨rfl, rfl⟩
  | some d =>
    have hworker := hs.not_live hforeign hlive
    exact ⟨if_pos hworker, if_pos hworker⟩

theorem one_delivery : (h.queue.inFlight.rows.map (·.itemId)).Nodup := by
  have hnodup := hs.ids_nodup
  rw [History.items, map_append, map_map] at hnodup
  exact hnodup.of_append_left

theorem conserves (hfresh : h.queue.ReadersFresh) : h.Conserves settings where
  item_ids := hs.pushed_nodup
  delivery_ids := hs.claimed_nodup
  one_place := hs.items
  one_delivery := hs.one_delivery
  attempts := hs.attempts
  attempts_le := hs.attemptsOf_le
  dead_iff := hs.dead
  foreign := hs.foreign
  pendingLen := hfresh.pendingLen.value_read
  isEmpty := hfresh.isEmpty.value_read
  inFlightLen := hfresh.inFlightLen.value_read
  deadLetterLen := hfresh.deadLetterLen.value_read

end

end Sound

/-! ## Runs -/

theorem queue_step (h : History T) (op : WorkQueueOp T) : (h.step op).queue = (h.queue.apply op).2 := by
  unfold step
  split <;> next heq => rw [heq]

theorem sound_run (settings : Settings) (ops : List (WorkQueueOp T)) :
    (run settings ops).Sound settings ∧ (run settings ops).queue.ReadersFresh := by
  induction ops using reverseRecOn with
  | nil =>
    exact ⟨.init settings, Reader.fresh_default, Reader.fresh_default, Reader.fresh_default, Reader.fresh_default⟩
  | append_singleton ops op ih =>
    rw [run_concat]
    exact ⟨ih.1.step op, queue_step _ op ▸ ih.2.apply op⟩

end History

/-- Work is conserved in every run, whatever workers do and whatever their clocks say. -/
theorem conserves_run (settings : Settings) (ops : List (WorkQueueOp T)) :
    (History.run settings ops).Conserves settings :=
  have hrun := History.sound_run settings ops
  hrun.1.conserves hrun.2

end LazilyPy.WorkQueue

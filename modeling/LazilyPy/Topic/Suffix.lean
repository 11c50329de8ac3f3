import LazilyPy.Lib.Throughout
import LazilyPy.Topic.Cell

/-!
# What subscribers see

The unread view of a subscriber against all that has been published.
-/

namespace LazilyPy.Topic

open List

variable {T : Type}

structure Delivery (T : Type) where
  subscriberId : String
  start : ℤ
  handed : List T := []

structure History (T : Type) where
  topic : TopicCell T := {}
  log : List T := []
  deliveries : Table Delivery.subscriberId (ν := Delivery T) := .empty _

namespace History

/-- An operation. An advance hands the value that it returns and, where it consumes several, the unread
ones after that. -/
def step (h : History T) (op : TopicOp T) : History T where
  topic := (h.topic.apply op).2
  log := match op with
    | .publish value => h.log ++ [value]
    | _ => h.log
  deliveries := match op, (h.topic.apply op).1 with
    | .subscribe sid _, .subscribed .subscribed => h.deliveries.put ⟨sid, h.topic.tailOffset, []⟩
    | .advance sid count, .value (some value) =>
      match h.deliveries.get? sid with
      | none => h.deliveries
      | some d => h.deliveries.put { d with
          handed := d.handed ++ value :: ((h.topic.readUntracked sid).take count.toNat).tail }
    | _, _ => h.deliveries

def run (ops : List (TopicOp T)) : History T :=
  ops.foldl step {}

theorem run_append (ops ops' : List (TopicOp T)) : run (ops ++ ops') = ops'.foldl step (run ops) :=
  foldl_append

theorem run_concat (ops : List (TopicOp T)) (op : TopicOp T) : run (ops ++ [op]) = (run ops).step op :=
  run_append ops [op]

/-- The values from `start` up to `stop`. -/
def between (log : List T) (start stop : ℤ) : List T :=
  (log.drop start.toNat).take (stop - start).toNat

/-- Connected subscribers see what has been published from their cursors on, whether through their
readers or not, and all subscribers have been handed what comes before. -/
structure SeesSuffix (h : History T) : Prop where
  view : ∀ sub ∈ h.topic.subscriptions.rows, sub.connected = true →
    h.topic.readUntracked sub.subscriberId = h.log.drop sub.cursor.toNat ∧
      (h.topic.readStream sub.subscriberId).1 = h.log.drop sub.cursor.toNat
  handed : ∀ sub ∈ h.topic.subscriptions.rows, ∃ d, h.deliveries.get? sub.subscriberId = some d ∧
    0 ≤ d.start ∧ d.start ≤ sub.cursor ∧ d.handed = between h.log d.start sub.cursor

end History

/-- The operation trims the log past the cursor of an ephemeral subscriber: there is a value that this
one has not read and all durable ones have. -/
def TopicCell.Passes (t : TopicCell T) : TopicOp T → Prop
  | .gc => ∃ sub ∈ t.subscriptions.rows, sub.durability = .ephemeral ∧ sub.cursor < t.tailOffset ∧
      ∀ other ∈ t.subscriptions.rows, other.durability = .durable → sub.cursor < other.cursor
  | _ => False

/-! ## Views -/

theorem length_pySlice_le (l : List T) (start : ℤ) : (pySlice l start).length ≤ l.length := by
  unfold pySlice
  split
  · rw [length_drop]
    exact Nat.sub_le _ _
  · rw [length_drop]
    exact Nat.sub_le _ _

section

variable {t t' : TopicCell T} {log : List T} {sub : TopicSubscriptionSnapshot} {sid : String}

theorem readUntracked_of_none (hnone : t.subscription sid = none) : t.readUntracked sid = [] := by
  rw [TopicCell.readUntracked, hnone]

theorem readUntracked_of_subscription (hsub : t.subscription sid = some sub) : t.readUntracked sid =
      if sub.connected then pySlice t.elements (sub.cursor - t.baseOffset) else [] := by
  rw [TopicCell.readUntracked, hsub]

theorem subscription_of_mem (hsub : sub ∈ t.subscriptions.rows) : t.subscription sub.subscriberId = some sub :=
  Table.get?_of_mem hsub

/-- A subscriber that the log has not passed sees what has been published from its cursor on. -/
theorem readUntracked_eq (hbase : 0 ≤ t.baseOffset) (hretained : t.elements = log.drop t.baseOffset.toNat)
    (hsub : t.subscription sid = some sub) (hcursor : t.baseOffset ≤ sub.cursor) :
    t.readUntracked sid = if sub.connected then log.drop sub.cursor.toNat else [] := by
  have hslice : pySlice t.elements (sub.cursor - t.baseOffset) = log.drop sub.cursor.toNat := by
    have hoffset : t.baseOffset.toNat + (sub.cursor - t.baseOffset).toNat = sub.cursor.toNat := by omega
    rw [pySlice, if_pos (by omega), hretained, drop_drop, hoffset]
  rw [readUntracked_of_subscription hsub, hslice]

/-- The value at the cursor is the first one that has not been read. -/
theorem drop_of_pyIndex {value : T} (hbase : 0 ≤ t.baseOffset)
    (hretained : t.elements = log.drop t.baseOffset.toNat) (hcursor : t.baseOffset ≤ sub.cursor)
    (hvalue : pyIndex t.elements (sub.cursor - t.baseOffset) = some value) :
    log.drop sub.cursor.toNat = value :: (log.drop sub.cursor.toNat).tail := by
  have hget : (log.drop sub.cursor.toNat)[0]? = some value := by
    rw [pyIndex, if_pos (by omega), hretained, getElem?_drop] at hvalue
    rw [getElem?_drop, ← hvalue]
    congr 1
    omega
  cases hdrop : log.drop sub.cursor.toNat with
  | nil => simp [hdrop] at hget
  | cons first rest => simpa [hdrop] using hget

/-- The value that is returned and the ones consumed after it are as many unread ones. -/
theorem cons_tail_take {l : List T} {value : T} {count : ℤ} (hfirst : l = value :: l.tail)
    (hcount : 0 < count) : value :: (l.take count.toNat).tail = l.take count.toNat := by
  obtain ⟨n, hn⟩ : ∃ n, count.toNat = n + 1 := ⟨count.toNat - 1, by omega⟩
  rw [hfirst, hn]
  rfl

/-- Readers that are reset where the view changes stay fresh. -/
theorem fresh_resetReaders (t' : TopicCell T)
    (hfresh : ∀ sid, (t.readers sid).Fresh (t.readUntracked sid)) (hreaders : t'.readers = t.readers)
    {ids : List String}
    (hsame : ∀ sid ∉ ids, t'.readUntracked sid = t.readUntracked sid) (sid : String) :
    ((t'.resetReaders ids).readers sid).Fresh ((t'.resetReaders ids).readUntracked sid) := by
  show ((t'.readers sid).resetIf (sid ∈ ids)).Fresh (t'.readUntracked sid)
  rw [hreaders]
  exact (hfresh sid).resetIf fun hnot => hsame sid hnot

/-- The log is trimmed up to the least durable cursor, or up to its end. -/
theorem frontier_cases (t : TopicCell T) :
    (∃ sub ∈ t.subscriptions.rows, sub.durability = .durable ∧ t.frontier = sub.cursor) ∨
      t.frontier = t.tailOffset := by
  unfold TopicCell.frontier
  cases hmin : ((t.subscriptions.rows.filter (·.durability = .durable)).map (·.cursor)).min? with
  | none => exact .inr rfl
  | some least =>
    obtain ⟨sub, hsub, hcursor⟩ := mem_map.mp (min?_eq_some_iff.mp hmin).1
    obtain ⟨hin, hdurable⟩ := mem_filter.mp hsub
    exact .inl ⟨sub, hin, by simpa using hdurable, hcursor.symm⟩

theorem frontier_le_of_durable (hsub : sub ∈ t.subscriptions.rows) (hdurable : sub.durability = .durable) :
    t.frontier ≤ sub.cursor := by
  have hin : sub.cursor ∈ (t.subscriptions.rows.filter (·.durability = .durable)).map (·.cursor) :=
    mem_map_of_mem (mem_filter.mpr ⟨hsub, by simpa using hdurable⟩)
  unfold TopicCell.frontier
  cases hmin : ((t.subscriptions.rows.filter (·.durability = .durable)).map (·.cursor)).min? with
  | none =>
    rw [min?_eq_none_iff.mp hmin] at hin
    exact absurd hin not_mem_nil
  | some least => exact (min?_eq_some_iff.mp hmin).2 _ hin

/-- What all durable subscribers have read is trimmed. -/
theorem lt_frontier {cursor : ℤ} (htail : cursor < t.tailOffset)
    (hdurable : ∀ other ∈ t.subscriptions.rows, other.durability = .durable → cursor < other.cursor) :
    cursor < t.frontier := by
  obtain ⟨other, hother, hdurability, heq⟩ | heq := frontier_cases t
  · exact heq ▸ hdurable other hother hdurability
  · exact heq ▸ htail

end

/-! ## Ranges of the log -/

namespace History

theorem between_self (log : List T) (start : ℤ) : between log start start = [] := by
  simp [between]

/-- What is published later does not change what has been handed. -/
theorem between_append {log : List T} {start stop : ℤ} (hstart : 0 ≤ start) (hle : start ≤ stop)
    (hstop : stop ≤ log.length) (value : T) :
    between (log ++ [value]) start stop = between log start stop := by
  unfold between
  rw [drop_append_of_le_length (by omega), take_append_of_le_length]
  rw [length_drop]
  omega

/-- Two ranges that meet are one. -/
theorem between_trans {log : List T} {start mid : ℤ} {count : ℕ} (hstart : 0 ≤ start)
    (hmid : start ≤ mid) : between log start mid ++ (log.drop mid.toNat).take count =
      between log start (mid + count) := by
  unfold between
  have hdrop : log.drop mid.toNat = (log.drop start.toNat).drop (mid - start).toNat := by
    rw [drop_drop]
    congr 1
    omega
  have hcount : (mid + count - start).toNat = (mid - start).toNat + count := by omega
  rw [hdrop, hcount, take_add]

/-! ## The invariant -/

/-- The log from the base on is retained, no cursor is outside of it, readers are fresh, and deliveries
are complete. -/
structure Valid (h : History T) : Prop where
  base_nonneg : 0 ≤ h.topic.baseOffset
  base_le : h.topic.baseOffset ≤ h.log.length
  retained : h.topic.elements = h.log.drop h.topic.baseOffset.toNat
  cursor : ∀ sub ∈ h.topic.subscriptions.rows, h.topic.baseOffset ≤ sub.cursor ∧ sub.cursor ≤ h.log.length
  connected : ∀ sub ∈ h.topic.subscriptions.rows, sub.durability = .ephemeral → sub.connected = true
  fresh : ∀ sid, (h.topic.readers sid).Fresh (h.topic.readUntracked sid)
  delivered : ∀ sub ∈ h.topic.subscriptions.rows, ∃ d, h.deliveries.get? sub.subscriberId = some d ∧
    0 ≤ d.start ∧ d.start ≤ sub.cursor ∧ d.handed = between h.log d.start sub.cursor

namespace Valid

variable {h : History T} {sub : TopicSubscriptionSnapshot} {sid : String}

theorem init : ({} : History T).Valid where
  base_nonneg := le_rfl
  base_le := le_rfl
  retained := rfl
  cursor _ hsub := absurd hsub not_mem_nil
  connected _ hsub := absurd hsub not_mem_nil
  fresh _ := Reader.fresh_default
  delivered _ hsub := absurd hsub not_mem_nil

theorem tailOffset_eq (hv : h.Valid) : h.topic.tailOffset = h.log.length := by
  have hbase := hv.base_nonneg
  have hle := hv.base_le
  rw [TopicCell.tailOffset, hv.retained, length_drop]
  omega

/-- One subscription is added or replaced, and its reader is reset. -/
theorem put (hv : h.Valid) (new : TopicSubscriptionSnapshot)
    {deliveries : Table Delivery.subscriberId (ν := Delivery T)}
    (hcursor : h.topic.baseOffset ≤ new.cursor ∧ new.cursor ≤ h.log.length)
    (hconnected : new.durability = .ephemeral → new.connected = true)
    (hothers : ∀ k, k ≠ new.subscriberId → deliveries.get? k = h.deliveries.get? k)
    (hdelivered : ∃ d, deliveries.get? new.subscriberId = some d ∧ 0 ≤ d.start ∧
      d.start ≤ new.cursor ∧ d.handed = between h.log d.start new.cursor) :
    Valid { h with
      topic := TopicCell.resetReaders [new.subscriberId]
        { h.topic with subscriptions := h.topic.subscriptions.put new }
      deliveries } := by
  refine ⟨hv.base_nonneg, hv.base_le, hv.retained, fun sub hsub => ?_, fun sub hsub => ?_, ?_, fun sub hsub => ?_⟩
  · obtain rfl | ⟨hold, _⟩ := Table.mem_put.mp hsub
    · exact hcursor
    · exact hv.cursor sub hold
  · obtain rfl | ⟨hold, _⟩ := Table.mem_put.mp hsub
    · exact hconnected
    · exact hv.connected sub hold
  · refine fresh_resetReaders { h.topic with subscriptions := h.topic.subscriptions.put new } hv.fresh
      rfl fun sid hsid => ?_
    have hne : sid ≠ new.subscriberId := by simpa using hsid
    unfold TopicCell.readUntracked TopicCell.subscription
    rw [Table.get?_put, if_neg hne]
  · obtain rfl | ⟨hold, hne⟩ := Table.mem_put.mp hsub
    · exact hdelivered
    · show ∃ d, deliveries.get? sub.subscriberId = some d ∧ _
      rw [hothers sub.subscriberId hne]
      exact hv.delivered sub hold

/-- A subscription is connected or disconnected where it is. -/
theorem setConnected (hv : h.Valid) (hsub : h.topic.subscription sid = some sub) {connected : Bool}
    (hconnected : sub.durability = .ephemeral → connected = true) :
    Valid { h with
      topic := TopicCell.resetReaders [sid]
        { h.topic with subscriptions := h.topic.subscriptions.put { sub with connected } } } := by
  obtain ⟨hin, rfl⟩ := Table.get?_eq_some.mp hsub
  exact hv.put { sub with connected } (hv.cursor sub hin) hconnected (fun _ _ => rfl)
    (hv.delivered sub hin)

theorem subscribe (hv : h.Valid) (sid : String) (durability : TopicDurability) :
    (h.step (.subscribe sid durability)).Valid := by
  cases hsub : h.topic.subscription sid with
  | none =>
    simp only [step, TopicCell.apply, TopicCell.subscribe, hsub]
    have hbase := hv.base_le
    refine hv.put ⟨sid, h.topic.tailOffset, durability, true⟩ ?_ (fun _ => rfl) (fun k hk => ?_) ?_
    · rw [hv.tailOffset_eq]
      exact ⟨hbase, le_rfl⟩
    · rw [Table.get?_put, if_neg hk]
    · refine ⟨⟨sid, h.topic.tailOffset, []⟩, ?_, ?_, le_rfl, (between_self _ _).symm⟩
      · rw [Table.get?_put, if_pos rfl]
      · rw [hv.tailOffset_eq]
        exact Int.natCast_nonneg _
  | some existing =>
    simp only [step, TopicCell.apply, TopicCell.subscribe, hsub]
    split
    · exact hv
    · split
      · exact hv
      · exact hv.setConnected hsub fun _ => rfl

theorem reconnect (hv : h.Valid) (sid : String) : (h.step (.reconnect sid)).Valid := by
  simp only [step, TopicCell.apply, TopicCell.reconnect]
  cases hsub : h.topic.subscription sid with
  | none => exact hv
  | some sub =>
    dsimp only
    split
    · exact hv
    · next hdurable =>
      split
      · exact hv
      · exact hv.setConnected hsub fun _ => rfl

theorem disconnect (hv : h.Valid) (sid : String) : (h.step (.disconnect sid)).Valid := by
  simp only [step, TopicCell.apply, TopicCell.disconnect]
  cases hsub : h.topic.subscription sid with
  | none => exact hv
  | some sub =>
    dsimp only
    split
    · split
      · -- an ephemeral subscription is removed
        have hin : ∀ other ∈ (h.topic.subscriptions.filter (·.subscriberId ≠ sid)).rows,
            other ∈ h.topic.subscriptions.rows := fun other hother => (mem_filter.mp hother).1
        refine ⟨hv.base_nonneg, hv.base_le, hv.retained, fun other hother => hv.cursor other (hin _ hother),
          fun other hother => hv.connected other (hin _ hother), ?_,
          fun other hother => hv.delivered other (hin _ hother)⟩
        refine fresh_resetReaders
          { h.topic with subscriptions := h.topic.subscriptions.filter (·.subscriberId ≠ sid) } hv.fresh rfl
          fun sid' hsid' => ?_
        have hne : sid' ≠ sid := by simpa using hsid'
        have hlookup : (h.topic.subscriptions.filter (·.subscriberId ≠ sid)).get? sid' =
            h.topic.subscriptions.get? sid' := by
          rw [Table.get?_filter]
          cases hother : h.topic.subscriptions.get? sid' with
          | none => rfl
          | some other =>
            have hid : other.subscriberId = sid' := Table.key_of_get? hother
            simp [Option.filter, hid, hne]
        unfold TopicCell.readUntracked TopicCell.subscription
        rw [hlookup]
      · next hdurable =>
        exact hv.setConnected hsub fun hephemeral => absurd hephemeral hdurable
    · exact hv

theorem publish (hv : h.Valid) (value : T) : (h.step (.publish value)).Valid := by
  have hbase := hv.base_nonneg
  have hle := hv.base_le
  refine ⟨hbase, ?_, ?_, fun sub hsub => ?_, hv.connected, ?_, fun sub hsub => ?_⟩
  · show h.topic.baseOffset ≤ (h.log ++ [value]).length
    rw [length_append]
    push_cast
    omega
  · show h.topic.elements ++ [value] = (h.log ++ [value]).drop h.topic.baseOffset.toNat
    rw [hv.retained, drop_append_of_le_length (by omega)]
  · obtain ⟨hcursor, hlength⟩ := hv.cursor sub hsub
    refine ⟨hcursor, hlength.trans ?_⟩
    show (h.log.length : ℤ) ≤ (h.log ++ [value]).length
    rw [length_append]
    push_cast
    omega
  · -- the readers of connected subscribers are reset, and the other ones read nothing
    refine fresh_resetReaders { h.topic with elements := h.topic.elements ++ [value] } hv.fresh rfl
      fun sid hsid => ?_
    cases hsub : h.topic.subscription sid with
    | none =>
      rw [readUntracked_of_none hsub]
      exact readUntracked_of_none hsub
    | some sub =>
      obtain ⟨hin, rfl⟩ := Table.get?_eq_some.mp hsub
      have hoff : ¬ sub.connected = true := fun hon =>
        hsid (mem_map_of_mem (mem_filter.mpr ⟨hin, hon⟩))
      rw [readUntracked_of_subscription hsub, if_neg hoff]
      have hview := readUntracked_of_subscription
        (t := { h.topic with elements := h.topic.elements ++ [value] }) hsub
      exact hview.trans (if_neg hoff)
  · obtain ⟨d, hd, hstart, hstop, hhanded⟩ := hv.delivered sub hsub
    refine ⟨d, hd, hstart, hstop, ?_⟩
    show d.handed = between (h.log ++ [value]) d.start sub.cursor
    rw [between_append hstart hstop (hv.cursor sub hsub).2, hhanded]

/-- A read keeps what it has read. -/
theorem readStream (hv : h.Valid) (sid : String) : Valid { h with topic := (h.topic.readStream sid).2 } := by
  refine ⟨hv.base_nonneg, hv.base_le, hv.retained, hv.cursor, hv.connected, fun sid' => ?_, hv.delivered⟩
  show (if sid' = sid then _ else h.topic.readers sid').Fresh (h.topic.readUntracked sid')
  split
  · next heq => exact heq ▸ (hv.fresh sid').read
  · exact hv.fresh sid'

theorem view (hv : h.Valid) (hsub : sub ∈ h.topic.subscriptions.rows) : h.topic.readUntracked sub.subscriberId =
      if sub.connected then h.log.drop sub.cursor.toNat else [] :=
  readUntracked_eq hv.base_nonneg hv.retained (subscription_of_mem hsub) (hv.cursor sub hsub).1

theorem advance (hv : h.Valid) (sid : String) (count : ℤ) : (h.step (.advance sid count)).Valid := by
  simp only [step, TopicCell.apply, TopicCell.advance]
  by_cases hneg : count < 0
  · rw [if_pos hneg]
    exact hv
  by_cases hzero : count = 0
  · rw [if_neg hneg, if_pos hzero]
    exact hv
  rw [if_neg hneg, if_neg hzero]
  cases hsub : h.topic.subscription sid with
  | none => exact hv
  | some sub =>
    obtain ⟨hin, rfl⟩ := Table.get?_eq_some.mp hsub
    obtain ⟨hcursor, hlength⟩ := hv.cursor sub hin
    obtain ⟨d, hd, hstart, hstop, hhanded⟩ := hv.delivered sub hin
    have hbase := hv.base_nonneg
    have htail := hv.tailOffset_eq
    dsimp only
    split
    · exact hv
    · next hunread =>
      obtain ⟨hconnected, hbefore⟩ := not_or.mp hunread
      have hview := hv.view hin
      rw [if_pos (by simpa using hconnected)] at hview
      split
      · exact hv
      · next value hvalue =>
        split
        · exact hv
        · next hfits =>
          have hfirst := drop_of_pyIndex hbase hv.retained hcursor hvalue
          have hpositive : 0 < count := by omega
          have htake := cons_tail_take hfirst hpositive
          simp only [hd, hview]
          have hkey : d.subscriberId = sub.subscriberId := Table.key_of_get? hd
          have hcount : (count.toNat : ℤ) = count := by omega
          refine hv.put { sub with cursor := sub.cursor + count } ⟨?_, ?_⟩ (hv.connected sub hin)
            (fun k hk => ?_) ⟨{ d with handed := d.handed ++ value ::
              ((h.log.drop sub.cursor.toNat).take count.toNat).tail }, ?_, hstart, ?_, ?_⟩
          · show h.topic.baseOffset ≤ sub.cursor + count
            omega
          · show sub.cursor + count ≤ h.log.length
            omega
          · rw [Table.get?_put, if_neg (by simpa [hkey] using hk)]
          · rw [Table.get?_put, if_pos hkey.symm]
          · show d.start ≤ sub.cursor + count
            omega
          · show d.handed ++ _ = between h.log d.start (sub.cursor + count)
            rw [htake, hhanded, between_trans hstart hstop, hcount]

/-- The log is trimmed to a place in it. -/
theorem frontier_bounds (hv : h.Valid) : h.topic.baseOffset ≤ h.topic.frontier ∧ h.topic.frontier ≤ h.log.length := by
  obtain ⟨sub, hsub, _, heq⟩ | heq := frontier_cases h.topic
  · rw [heq]
    exact hv.cursor sub hsub
  · rw [heq, hv.tailOffset_eq]
    exact ⟨hv.base_le, le_rfl⟩

def trimmed (t : TopicCell T) : TopicCell T :=
  { t with elements := t.elements.drop (t.frontier - t.baseOffset).toNat, baseOffset := t.frontier }

/-- As many values are retained as a trim removes, so it does not fail. -/
theorem step_gc (hv : h.Valid) : h.step .gc = { h with topic := trimmed h.topic } := by
  have hle := hv.frontier_bounds.2
  have htail := hv.tailOffset_eq
  rw [TopicCell.tailOffset] at htail
  have hfits : h.topic.frontier - h.topic.baseOffset ≤ h.topic.elements.length := by omega
  simp only [step, TopicCell.apply, TopicCell.gc, if_pos hfits, trimmed]

/-- The log is trimmed. All cursors are at the new base or behind it, so no view changes. -/
theorem gc (hv : h.Valid) (hpasses : ¬ h.topic.Passes .gc) : (h.step .gc).Valid := by
  have hfrontier : ∀ sub ∈ h.topic.subscriptions.rows, h.topic.frontier ≤ sub.cursor := by
    intro sub hsub
    cases hdurability : sub.durability with
    | durable => exact frontier_le_of_durable hsub hdurability
    | ephemeral =>
      by_contra hlt
      have hlt : sub.cursor < h.topic.frontier := not_le.mp hlt
      have htail : h.topic.frontier ≤ h.topic.tailOffset := hv.tailOffset_eq ▸ hv.frontier_bounds.2
      exact hpasses ⟨sub, hsub, hdurability, hlt.trans_le htail, fun other hother hdurable =>
        hlt.trans_le (frontier_le_of_durable hother hdurable)⟩
  have hbase := hv.base_nonneg
  obtain ⟨hge, hle⟩ := hv.frontier_bounds
  have hretained : h.topic.elements.drop (h.topic.frontier - h.topic.baseOffset).toNat =
      h.log.drop h.topic.frontier.toNat := by
    rw [hv.retained, drop_drop]
    congr 1
    omega
  rw [hv.step_gc]
  refine ⟨hbase.trans hge, hle, hretained, fun sub hsub => ⟨hfrontier sub hsub, (hv.cursor sub hsub).2⟩,
    hv.connected, fun sid => ?_, hv.delivered⟩
  have hsame : (trimmed h.topic).readUntracked sid = h.topic.readUntracked sid := by
    cases hsub : h.topic.subscription sid with
    | none =>
      rw [readUntracked_of_none hsub]
      exact readUntracked_of_none hsub
    | some sub =>
      have hin := Table.mem_of_get? hsub
      rw [readUntracked_eq hbase hv.retained hsub (hv.cursor sub hin).1]
      exact readUntracked_eq (hbase.trans hge) hretained hsub (hfrontier sub hin)
  rw [hsame]
  exact hv.fresh sid

/-- An operation keeps the invariant, unless it passes the cursor of an ephemeral subscriber. -/
theorem step (hv : h.Valid) {op : TopicOp T} (hpasses : ¬ h.topic.Passes op) : (h.step op).Valid := by
  cases op with
  | publish value => exact hv.publish value
  | subscribe sid durability => exact hv.subscribe sid durability
  | readStream sid => exact hv.readStream sid
  | read sid => exact hv.readStream sid
  | advance sid count => exact hv.advance sid count
  | disconnect sid => exact hv.disconnect sid
  | reconnect sid => exact hv.reconnect sid
  | gc => exact hv.gc hpasses

theorem seesSuffix (hv : h.Valid) : h.SeesSuffix := by
  refine ⟨fun sub hsub hconnected => ?_, hv.delivered⟩
  have hview := hv.view hsub
  rw [if_pos hconnected] at hview
  refine ⟨hview, ?_⟩
  rw [← hview]
  exact (hv.fresh sub.subscriberId).value_read

end Valid

/-! ## Runs -/

/-- In every run in which no trim passes a cursor. -/
theorem valid_run {ops : List (TopicOp T)}
    (h : Throughout (fun before op => ¬ (run before).topic.Passes op) ops) : (run ops).Valid := by
  induction ops using reverseRecOn with
  | nil => exact .init
  | append_singleton ops op ih =>
    obtain ⟨hbefore, hop⟩ := throughout_concat.mp h
    exact run_concat ops op ▸ (ih hbefore).step hop

/-- A subscriber that a trim has passed sees fewer values than it has not read. -/
theorem not_seesSuffix_of_passes {h : History T} (hv : h.Valid) {op : TopicOp T}
    (hpasses : h.topic.Passes op) : ¬ (h.step op).SeesSuffix := by
  intro hsees
  cases op with
  | gc =>
    obtain ⟨sub, hsub, hephemeral, hunread, hdurable⟩ := hpasses
    have hlt := lt_frontier hunread hdurable
    have hconnected := hv.connected sub hsub hephemeral
    obtain ⟨hcursor, hlength⟩ := hv.cursor sub hsub
    obtain ⟨hge, hle⟩ := hv.frontier_bounds
    have hbase := hv.base_nonneg
    rw [hv.step_gc] at hsees
    have hview : (Valid.trimmed h.topic).readUntracked sub.subscriberId = h.log.drop sub.cursor.toNat :=
      (hsees.view sub hsub hconnected).1
    have hsub' : sub ∈ (Valid.trimmed h.topic).subscriptions.rows := hsub
    rw [readUntracked_of_subscription (subscription_of_mem hsub'), if_pos hconnected] at hview
    -- the retained log is shorter than what has not been read
    have hslice := length_pySlice_le (Valid.trimmed h.topic).elements (sub.cursor - (Valid.trimmed h.topic).baseOffset)
    have htail := hv.tailOffset_eq
    rw [TopicCell.tailOffset] at htail
    rw [hview, length_drop, Valid.trimmed, length_drop] at hslice
    omega
  | publish value | subscribe sid durability | readStream sid | read sid | advance sid count
  | disconnect sid | reconnect sid => exact hpasses

end History

/-- At every moment of a run the connected subscribers see what has been published from their cursors on,
and all have been handed what comes before, if and only if no trim passes the cursor of an ephemeral
subscriber. -/
theorem seesSuffix_iff (ops : List (TopicOp T)) : (∀ before, before <+: ops → (History.run before).SeesSuffix) ↔
      Throughout (fun before op => ¬ (History.run before).topic.Passes op) ops := by
  constructor
  · intro h
    induction ops using reverseRecOn with
    | nil => exact throughout_nil
    | append_singleton ops op ih =>
      have hbefore := ih fun before hinit => h before (hinit.trans (prefix_append _ _))
      refine throughout_concat.mpr ⟨hbefore, fun hpasses => ?_⟩
      have hsees := h (ops ++ [op]) prefix_rfl
      rw [History.run_concat] at hsees
      exact History.not_seesSuffix_of_passes (History.valid_run hbefore) hpasses hsees
  · rintro h before ⟨after, rfl⟩
    exact (History.valid_run h.of_append).seesSuffix

/-- An ephemeral subscriber that has not read when the log is trimmed. -/
def overtaken : List (TopicOp ℕ) :=
  [.subscribe "viewer" .ephemeral, .publish 1, .gc]

theorem not_always_seesSuffix : ¬ ∀ ops : List (TopicOp ℕ), (History.run ops).SeesSuffix := by
  intro h
  have hview := (h overtaken).view ⟨"viewer", 0, .ephemeral, true⟩ (by decide) rfl
  revert hview
  decide

end LazilyPy.Topic

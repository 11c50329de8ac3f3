import LazilyPy.Collection.SourceMap

/-!
# Slots that read a map

An operation touches the sources of what it changes, and an answer that a slot has got from a source stays what it is
until the source is touched. A `get` of an absent key has no source: it is the one read that may be out of date.
-/

namespace LazilyPy.Collection

open List Option Function

namespace SourceMap

variable {κ ν ρ : Type}

/-! ## Touching -/

/-- The dependents of some sources have left them and have lost their values. -/
structure Touched (nodes : List Node) (m m' : SourceMap κ ν ρ) : Prop where
  parents : ∀ n, m'.parents n = if n ∈ nodes then [] else m.parents n
  cache : ∀ i, m'.cache i = if ∃ n ∈ nodes, i ∈ m.parents n then none else m.cache i
  told : m'.told = m.told
  asked : m'.asked = m.asked

variable {m m' m'' : SourceMap κ ν ρ} {nodes nodes' : List Node}

theorem touched_nil (m : SourceMap κ ν ρ) : Touched [] m m where
  parents n := by simp
  cache i := by simp
  told := rfl
  asked := rfl

theorem touched_touch (m : SourceMap κ ν ρ) (n : Node) : Touched [n] m (m.touch n) where
  parents n' := by
    show update m.parents n [] n' = _
    rw [update_apply]
    simp only [mem_singleton]
  cache i := by
    show dropCached (m.parents n) m.cache i = _
    rw [dropCached_apply]
    simp only [mem_singleton, exists_eq_left]
  told := rfl
  asked := rfl

theorem Touched.trans (h : Touched nodes m m') (h' : Touched nodes' m' m'') : Touched (nodes ++ nodes') m m'' where
  parents n := by
    rw [h'.parents, h.parents]
    by_cases hn : n ∈ nodes
    · simp [hn]
    · simp [hn]
  cache i := by
    have hstill : (∃ n ∈ nodes ++ nodes', i ∈ m.parents n) ↔
        (∃ n ∈ nodes', i ∈ m'.parents n) ∨ ∃ n ∈ nodes, i ∈ m.parents n := by
      constructor
      · rintro ⟨n, hn, hi⟩
        by_cases hn' : n ∈ nodes
        · exact .inr ⟨n, hn', hi⟩
        · refine .inl ⟨n, (mem_append.mp hn).resolve_left hn', ?_⟩
          rwa [h.parents, if_neg hn']
      · rintro (⟨n, hn, hi⟩ | ⟨n, hn, hi⟩)
        · rw [h.parents] at hi
          split at hi
          · cases hi
          · exact ⟨n, mem_append_right _ hn, hi⟩
        · exact ⟨n, mem_append_left _ hn, hi⟩
    rw [h'.cache, h.cache]
    by_cases hnodes' : ∃ n ∈ nodes', i ∈ m'.parents n
    · rw [if_pos hnodes', if_pos (hstill.mpr (.inl hnodes'))]
    · rw [if_neg hnodes']
      exact if_congr (by rw [hstill, or_iff_right hnodes']) rfl rfl
  told := h'.told.trans h.told
  asked := h'.asked.trans h.asked

/-- A source without dependents has none after it. -/
theorem Touched.unread (t : Touched nodes m m') {n : Node} (h : m.parents n = []) : m'.parents n = [] := by
  rw [t.parents, h, ite_self]

/-- The signals among some sources have been bumped, and nothing else has changed but for the dependents. -/
structure Bumped (nodes : List Node) (m m' : SourceMap κ ν ρ) : Prop extends Touched nodes m m' where
  keyed : m'.keyed = m.keyed
  cells : m'.cells = m.cells
  version : m'.version = m.version + if .membership ∈ nodes then 1 else 0
  orderVersion : m'.orderVersion = m.orderVersion + if .order ∈ nodes then 1 else 0
  membership : m'.membershipSignal = ⟨m'.version, false⟩
  order : m'.orderSignal = ⟨m'.orderVersion, false⟩

theorem Bumped.of_touched (t : Touched nodes m m') (hkeyed : m'.keyed = m.keyed) (hcells : m'.cells = m.cells)
    (hversion : m'.version = m.version + if .membership ∈ nodes then 1 else 0)
    (horderVersion : m'.orderVersion = m.orderVersion + if .order ∈ nodes then 1 else 0)
    (hmembership : m'.membershipSignal = ⟨m'.version, false⟩)
    (horder : m'.orderSignal = ⟨m'.orderVersion, false⟩) : Bumped nodes m m' :=
  { t with
    keyed := hkeyed
    cells := hcells
    version := hversion
    orderVersion := horderVersion
    membership := hmembership
    order := horder }

section Bumps

variable (hmembership : m.membershipSignal = ⟨m.version, false⟩) (horder : m.orderSignal = ⟨m.orderVersion, false⟩)

include hmembership horder

theorem bumped_nil : Bumped [] m m :=
  .of_touched (touched_nil m) rfl rfl (by simp) (by simp) hmembership horder

theorem bumped_cell (handle : ℕ) : Bumped [.cell handle] m (m.touch (.cell handle)) :=
  .of_touched (touched_touch m _) rfl rfl (by simp [touch]) (by simp [touch]) hmembership horder

theorem bumped_bumpOrder : Bumped [.order] m m.bumpOrder := by
  have heq : m.bumpOrder = { m.touch .order with
      orderVersion := m.orderVersion + 1
      orderSignal := ⟨m.orderVersion + 1, false⟩ } := by
    simp [bumpOrder, horder, Source.write, touch]
  have htouched := touched_touch m .order
  rw [heq]
  exact .of_touched ⟨htouched.1, htouched.2, htouched.3, htouched.4⟩ rfl rfl (by simp [touch]) (by simp) hmembership rfl

theorem bumped_bumpMembership : Bumped [.membership, .order] m m.bumpMembership := by
  have heq : m.bumpMembership = { m.touch .membership with
      version := m.version + 1
      membershipSignal := ⟨m.version + 1, false⟩ }.bumpOrder := by
    simp [bumpMembership, hmembership, Source.write, touch]
  have htouched := touched_touch m .membership
  rw [heq]
  generalize hm' : ({ m.touch .membership with
      version := m.version + 1
      membershipSignal := ⟨m.version + 1, false⟩ } : SourceMap κ ν ρ) = m'
  have hbumped : Bumped [.order] m' m'.bumpOrder := by
    subst hm'
    exact bumped_bumpOrder rfl horder
  subst hm'
  have hfirst : Touched [.membership] m { m.touch .membership with
      version := m.version + 1
      membershipSignal := ⟨m.version + 1, false⟩ } := ⟨htouched.1, htouched.2, htouched.3, htouched.4⟩
  exact .of_touched (hfirst.trans hbumped.toTouched) hbumped.keyed hbumped.cells hbumped.version hbumped.orderVersion
    hbumped.membership hbumped.order

end Bumps

variable {handle : ℕ} {key : κ} {absent : List κ}

/-- A cell has been touched before the signals. -/
theorem Bumped.after_cell (b : Bumped nodes (m.touch (.cell handle)) m') : Bumped (.cell handle :: nodes) m m' :=
  .of_touched ((touched_touch m _).trans b.toTouched) b.keyed b.cells (by simpa [touch] using b.version)
    (by simpa [touch] using b.orderVersion) b.membership b.order

variable [DecidableEq κ]

/-! ## Operations -/

/-- Every key has a live cell of its own, and the signals hold their versions. A cell that there is not yet has no
dependents. -/
structure Formed (m : SourceMap κ ν ρ) : Prop where
  lockstep : m.keyed.Lockstep
  live : ∀ key handle, m.keyed.get key = some handle → ∃ value, m.cells[handle]? = some ⟨value, false⟩
  apart : ∀ key key' handle, m.keyed.get key = some handle → m.keyed.get key' = some handle → key = key'
  membership : m.membershipSignal = ⟨m.version, false⟩
  order : m.orderSignal = ⟨m.orderVersion, false⟩
  unread : ∀ handle, m.cells.length ≤ handle → m.parents (.cell handle) = []

def Regrouped (m m' : SourceMap κ ν ρ) : Prop :=
  ∃ key, ¬(key ∈ m'.keyed.order ↔ key ∈ m.keyed.order)

/-- An operation touches the sources of what it changes. What is behind another source stays, and a key gets no cell
that has been there before. -/
structure Turn (nodes : List Node) (m m' : SourceMap κ ν ρ) : Prop extends Touched nodes m m' where
  formed : m'.Formed
  version : m'.version = m.version + if .membership ∈ nodes then 1 else 0
  orderVersion : m'.orderVersion = m.orderVersion + if .order ∈ nodes then 1 else 0
  regrouped : .membership ∈ nodes ↔ Regrouped m m'
  reordered : .order ∈ nodes ↔ m'.keyed.order ≠ m.keyed.order
  stays : ∀ key handle, m.keyed.get key = some handle → .cell handle ∉ nodes →
    m'.keyed.get key = some handle ∧ m'.cells[handle]? = m.cells[handle]?
  fresh : ∀ key handle, m'.keyed.get key = some handle → m.keyed.get key = some handle ∨ m.cells.length ≤ handle

section

variable (h : m.Formed)

include h

/-- Keys and cells have been replaced before the signals are bumped. -/
theorem Turn.of_bumped {keyed : KeyedOrder κ ℕ} {cells : List (Source ν)}
    (b : Bumped nodes { m with keyed, cells } m') (hlockstep : keyed.Lockstep)
    (hlength : m.cells.length ≤ cells.length)
    (hlive : ∀ key handle, keyed.get key = some handle → ∃ value, cells[handle]? = some ⟨value, false⟩)
    (hapart : ∀ key key' handle, keyed.get key = some handle → keyed.get key' = some handle → key = key')
    (hregrouped : .membership ∈ nodes ↔ ∃ key, ¬(key ∈ keyed.order ↔ key ∈ m.keyed.order))
    (hreordered : .order ∈ nodes ↔ keyed.order ≠ m.keyed.order)
    (hstays : ∀ key handle, m.keyed.get key = some handle → .cell handle ∉ nodes → keyed.get key = some handle ∧
    cells[handle]? = m.cells[handle]?)
    (hfresh : ∀ key handle, keyed.get key = some handle → m.keyed.get key = some handle ∨ m.cells.length ≤ handle) :
    Turn nodes m m' := by
  obtain ⟨t, hkeyed, hcells, hversion, horderVersion, hmembership, horder⟩ := b
  have htouched : Touched nodes m m' := ⟨t.1, t.2, t.3, t.4⟩
  refine ⟨htouched, ⟨?_, ?_, ?_, hmembership, horder, fun handle hle => ?_⟩, hversion, horderVersion, ?_, ?_, ?_, ?_⟩
  · rwa [hkeyed]
  · rwa [hkeyed, hcells]
  · rwa [hkeyed]
  · rw [hcells] at hle
    exact htouched.unread (h.unread handle (hlength.trans hle))
  · rwa [Regrouped, hkeyed]
  · rwa [hkeyed]
  · rwa [hkeyed, hcells]
  · rwa [hkeyed]

theorem turn_nil : Turn [] m m :=
  .of_bumped h (bumped_nil h.membership h.order) h.lockstep le_rfl h.live h.apart (by simp) (by simp)
    (fun _ _ hget _ => ⟨hget, rfl⟩) fun _ _ => .inl

theorem turn_setCell [DecidableEq ν] (hget : m.keyed.get key = some handle) (value : ν) :
    ∃ nodes, Turn nodes m (m.setCell handle value) ∧ ∀ n ∈ nodes, n = .cell handle := by
  obtain ⟨old, hold⟩ := h.live key handle hget
  obtain ⟨hlt, hcell⟩ := List.getElem?_eq_some_iff.mp hold
  by_cases hsame : value = old
  · have heq : m.setCell handle value = m := by
      subst hsame
      have hcells : m.cells.set handle ⟨value, false⟩ = m.cells := by
        rw [← hcell, set_getElem_self]
      simp [setCell, hold, Source.write, hcells]
    rw [heq]
    exact ⟨[], turn_nil h, nofun⟩
  · have heq : m.setCell handle value =
        { m with cells := m.cells.set handle ⟨value, false⟩ }.touch (.cell handle) := by
      simp [setCell, hold, Source.write, hsame]
    rw [heq]
    refine ⟨[.cell handle], ?_, fun _ => mem_singleton.mp⟩
    have hbumped := bumped_cell (m := { m with cells := m.cells.set handle ⟨value, false⟩ }) h.membership h.order
      handle
    refine .of_bumped h hbumped h.lockstep (by simp) (fun k hd hk => ?_) h.apart (by simp) (by simp)
      (fun k hd hk hnot => ⟨hk, ?_⟩) fun _ _ => .inl
    · by_cases hhd : hd = handle
      · exact ⟨value, by simp [hhd, hlt]⟩
      · obtain ⟨v, hv⟩ := h.live k hd hk
        exact ⟨v, by rwa [getElem?_set_ne (Ne.symm hhd)]⟩
    · have hne : handle ≠ hd := fun heq => hnot (by simp [heq])
      exact getElem?_set_ne hne

theorem turn_mintWith (hget : m.keyed.get key = none) (compute : Unit → ν) :
    Turn [.membership, .order] m (m.mintWith key compute).2 := by
  have hinsert := KeyedOrder.get_insert hget m.cells.length
  have hinserted := KeyedOrder.order_insert hget m.cells.length
  have hnot : key ∉ m.keyed.order := fun hmem => h.lockstep.mem_iff.mp hmem hget
  have hlt : ∀ k hd, m.keyed.get k = some hd → hd < m.cells.length := fun k hd hk => by
    obtain ⟨v, hv⟩ := h.live k hd hk
    exact (List.getElem?_eq_some_iff.mp hv).1
  have heq : (m.mintWith key compute).2 = { m with
      keyed := (m.keyed.insert key m.cells.length).2
      cells := m.cells ++ [(⟨compute (), false⟩ : Source ν)] }.bumpMembership := by
    have hchanged : (m.keyed.insert key m.cells.length).1.2.changed = true := by
      rw [KeyedOrder.insert, hget]
      rfl
    simp only [mintWith, hget, mint, hchanged, if_true]
  rw [heq]
  refine .of_bumped h (bumped_bumpMembership h.membership h.order) (h.lockstep.insert key _) (by simp)
    (fun k hd hk => ?_) (fun k k' hd hk hk' => ?_) ?_ ?_ (fun k hd hk _ => ⟨?_, ?_⟩) fun k hd hk => ?_
  · rw [hinsert] at hk
    split at hk
    · cases hk
      exact ⟨compute (), by simp⟩
    · obtain ⟨v, hv⟩ := h.live k hd hk
      exact ⟨v, by rwa [getElem?_append_left (hlt k hd hk)]⟩
  · rw [hinsert] at hk hk'
    split at hk <;> split at hk'
    · simp_all
    · cases hk
      exact absurd (hlt _ _ hk') (lt_irrefl _)
    · cases hk'
      exact absurd (hlt _ _ hk) (lt_irrefl _)
    · exact h.apart k k' hd hk hk'
  · refine iff_of_true (by simp) ⟨key, ?_⟩
    rw [hinserted]
    simpa using hnot
  · rw [hinserted]
    simp
  · rw [hinsert, if_neg]
    · exact hk
    · rintro rfl
      rw [hget] at hk
      cases hk
  · exact getElem?_append_left (hlt k hd hk)
  · rw [hinsert] at hk
    split at hk
    · cases hk
      exact .inr le_rfl
    · exact .inl hk

theorem turn_remove (hget : m.keyed.get key = some handle) :
    Turn [.cell handle, .membership, .order] m (m.remove key).2 := by
  obtain ⟨value, hcell⟩ := h.live key handle hget
  have hremove := m.keyed.get_remove key
  have hremoved : (m.keyed.remove key).2.order = m.keyed.order.filter (· ≠ key) := by
    rw [KeyedOrder.remove, hget]
  have hmem : key ∈ m.keyed.order := h.lockstep.mem_iff.mpr (by simp [hget])
  have heq : (m.remove key).2 = ({ m with
      keyed := (m.keyed.remove key).2
      cells := m.cells.set handle ⟨value, true⟩ }.touch (.cell handle)).bumpMembership := by
    have hchanged : (m.keyed.remove key).1 = (some handle, .removed) := by
      rw [KeyedOrder.remove, hget]
    rw [remove]
    simp [hchanged, MapMutation.changed, disposeCell, hcell]
  rw [heq]
  have hbumped := Bumped.after_cell (bumped_bumpMembership (m := { m with
      keyed := (m.keyed.remove key).2
      cells := m.cells.set handle ⟨value, true⟩ }.touch (.cell handle)) h.membership h.order)
  refine .of_bumped h hbumped (h.lockstep.remove key) (by simp) (fun k hd hk => ?_) (fun k k' hd hk hk' => ?_) ?_ ?_
    (fun k hd hk hnot => ?_) fun k hd hk => ?_
  · rw [hremove] at hk
    split at hk
    · cases hk
    · next hne =>
      obtain ⟨v, hv⟩ := h.live k hd hk
      have hhd : handle ≠ hd := fun heq => hne (h.apart k key hd hk (heq ▸ hget))
      exact ⟨v, by rwa [getElem?_set_ne hhd]⟩
  · rw [hremove] at hk hk'
    split at hk <;> split at hk'
    · cases hk
    · cases hk
    · cases hk'
    · exact h.apart k k' hd hk hk'
  · refine iff_of_true (by simp) ⟨key, ?_⟩
    rw [hremoved]
    simpa using hmem
  · refine iff_of_true (by simp) fun heq => ?_
    rw [hremoved] at heq
    rw [← heq] at hmem
    simp at hmem
  · have hhd : handle ≠ hd := fun heq => hnot (by simp [heq])
    refine ⟨?_, getElem?_set_ne hhd⟩
    rw [hremove, if_neg]
    · exact hk
    · rintro rfl
      exact hhd (some.inj (hget.symm.trans hk))
  · rw [hremove] at hk
    split at hk
    · cases hk
    · exact .inl hk

/-- A move that keeps the handles, and that reports whether the order has changed. -/
theorem turn_applyMove {move : MapMove × KeyedOrder κ ℕ} (hlockstep : move.2.Lockstep)
    (hget : ∀ key, move.2.get key = m.keyed.get key)
    (hchanged : move.1.changed = true ↔ move.2.order ≠ m.keyed.order) :
    ∃ nodes, Turn nodes m (m.applyMove move).2 ∧ ∀ n ∈ nodes, n = .order := by
  have hsame : ∀ key, key ∈ move.2.order ↔ key ∈ m.keyed.order := fun key => by
    rw [hlockstep.mem_iff, h.lockstep.mem_iff, hget]
  have hturn : ∀ {nodes m'}, Bumped nodes { m with keyed := move.2 } m' → .membership ∉ nodes →
      (.order ∈ nodes ↔ move.1.changed = true) → Turn nodes m m' := fun b hnot hiff => by
    refine .of_bumped h b hlockstep le_rfl ?_ ?_ ?_ ?_ ?_ ?_
    · simpa only [hget] using h.live
    · simpa only [hget] using h.apart
    · refine iff_of_false hnot ?_
      rintro ⟨key, hkey⟩
      exact hkey (hsame key)
    · rw [hiff, hchanged]
    · exact fun k hd hk _ => ⟨(hget k).trans hk, rfl⟩
    · exact fun k hd hk => .inl ((hget k).symm.trans hk)
  obtain ⟨outcome, keyed⟩ := move
  cases outcome with
  | missing => exact ⟨[], hturn (bumped_nil h.membership h.order) (by simp) (by simp [MapMove.changed]), (by simp)⟩
  | unchanged => exact ⟨[], hturn (bumped_nil h.membership h.order) (by simp) (by simp [MapMove.changed]), (by simp)⟩
  | reordered =>
    exact ⟨[.order], hturn (bumped_bumpOrder h.membership h.order) (by simp) (by simp [MapMove.changed]),
      fun _ => mem_singleton.mp⟩

def Op.target : Op κ ν → Option κ
  | .set key _ | .entry key _ | .remove key => some key
  | .moveTo _ _ | .moveBefore _ _ | .moveAfter _ _ => none

theorem perform_turn [DecidableEq ν] (op : Op κ ν) : ∃ nodes, Turn nodes m (m.perform op) ∧
      ∀ handle, .cell handle ∈ nodes → ∃ key, op.target = some key ∧ m.keyed.get key = some handle := by
  have hmint : ∀ key compute, m.keyed.get key = none → op.target = some key →
      ∃ nodes, Turn nodes m (m.mintWith key compute).2 ∧
        ∀ handle, .cell handle ∈ nodes → ∃ key, op.target = some key ∧ m.keyed.get key = some handle :=
    fun key compute hget _ => ⟨_, turn_mintWith h hget compute, fun handle hmem => by simp at hmem⟩
  have hmove : ∀ move : MapMove × KeyedOrder κ ℕ, move.2.Lockstep → (∀ key, move.2.get key = m.keyed.get key) →
      (move.1.changed = true ↔ move.2.order ≠ m.keyed.order) →
      ∃ nodes, Turn nodes m (m.applyMove move).2 ∧
        ∀ handle, .cell handle ∈ nodes → ∃ key, op.target = some key ∧ m.keyed.get key = some handle :=
    fun move hlockstep hget hchanged => by
      obtain ⟨nodes, hturn, honly⟩ := turn_applyMove h hlockstep hget hchanged
      exact ⟨nodes, hturn, fun handle hmem => by cases honly _ hmem⟩
  cases op with
  | set key value =>
    rw [perform, set]
    cases hget : m.keyed.get key with
    | none =>
      simp only [entryWith, hget]
      exact hmint key _ hget rfl
    | some handle =>
      obtain ⟨nodes, hturn, honly⟩ := turn_setCell h hget value
      exact ⟨nodes, hturn, fun hd hmem => ⟨key, rfl, by cases honly _ hmem; exact hget⟩⟩
  | entry key default =>
    rw [perform, entry, entryWith]
    cases hget : m.keyed.get key with
    | none => exact hmint key _ hget rfl
    | some handle => exact ⟨[], turn_nil h, (by simp)⟩
  | remove key =>
    rw [perform]
    cases hget : m.keyed.get key with
    | none =>
      have heq : (m.remove key).2 = m := by
        rw [remove, KeyedOrder.remove, hget]
      rw [heq]
      exact ⟨[], turn_nil h, (by simp)⟩
    | some handle =>
      refine ⟨_, turn_remove h hget, fun hd hmem => ⟨key, rfl, ?_⟩⟩
      obtain rfl : hd = handle := by simpa using hmem
      exact hget
  | moveTo key index =>
    exact hmove _ (h.lockstep.moveTo key index) (KeyedOrder.get_moveTo _ key index)
      (KeyedOrder.changed_perform h.lockstep (.moveTo key index))
  | moveBefore key anchor =>
    exact hmove _ (h.lockstep.perform (.moveBefore key anchor)) (KeyedOrder.get_moveBefore _ key anchor)
      (KeyedOrder.changed_perform h.lockstep (.moveBefore key anchor))
  | moveAfter key anchor =>
    exact hmove _ (h.lockstep.perform (.moveAfter key anchor)) (KeyedOrder.get_moveAfter _ key anchor)
      (KeyedOrder.changed_perform h.lockstep (.moveAfter key anchor))

end

/-! ## What the slots hold -/

def source (m : SourceMap κ ν ρ) : Query κ → Option Node
  | .get key => (m.keyed.get key).map .cell
  | .containsKey _ | .len => some .membership
  | .keys => some .order

def Alert (m : SourceMap κ ν ρ) (i : ℕ) : Prop :=
  i ∈ m.parents .membership ∨ i ∈ m.parents .order

/-- What a slot has been told is so, and it depends on the source of it. Or it has been told that a key is absent, and
that is so at least as long as it depends on a signal. -/
def Stands (m : SourceMap κ ν ρ) (i : ℕ) (e : Sigma (Answer κ ν)) : Prop :=
  (∃ n, m.source e.1 = some n ∧ i ∈ m.parents n ∧ m.view e.1 = e.2) ∨
    ∃ key, e = ⟨.get key, none⟩ ∧ (m.Alert i → m.keyed.get key = none)

def Remembers (m : SourceMap κ ν ρ) (body : Body κ ν ρ) (i : ℕ) (value : ρ) : Prop :=
  ∃ w, body.outcome w = some value ∧ m.told i = body.transcript w ∧ ∀ e ∈ m.told i, m.Stands i e

def Booked (m : SourceMap κ ν ρ) : Prop :=
  ∀ i q n, m.source q = some n → i ∈ m.parents n → ∃ q' ∈ m.asked i, m.source q' = some n

structure Sound (body : ℕ → Body κ ν ρ) (m : SourceMap κ ν ρ) : Prop where
  formed : m.Formed
  booked : m.Booked
  remembers : ∀ i value, m.cache i = some value → m.Remembers (body i) i value

namespace Turn

/-- Where the membership signal is not bumped, the keys are the same. -/
theorem mem_iff (t : Turn nodes m m') (hn : .membership ∉ nodes) (key : κ) :
    key ∈ m'.keyed.order ↔ key ∈ m.keyed.order := by
  by_contra hdiff
  exact hn (t.regrouped.mpr ⟨key, hdiff⟩)

theorem order_of_membership (t : Turn nodes m m') (hn : .membership ∈ nodes) : .order ∈ nodes := by
  obtain ⟨key, hdiff⟩ := t.regrouped.mp hn
  exact t.reordered.mpr fun heq => hdiff (by rw [heq])

/-- What is behind a source that is not touched is the same. -/
theorem source (t : Turn nodes m m') (h : m.Formed) {q : Query κ} {n : Node} (hq : m.source q = some n)
    (hn : n ∉ nodes) : m'.source q = some n ∧ m'.view q = m.view q := by
  cases q with
  | get key =>
    obtain ⟨handle, hget, rfl⟩ := map_eq_some_iff.mp hq
    obtain ⟨hget', hcell⟩ := t.stays key handle hget hn
    refine ⟨by simp [SourceMap.source, hget'], ?_⟩
    show (m'.keyed.get key).bind (fun handle => m'.cells[handle]?.map Source.value) =
      (m.keyed.get key).bind fun handle => m.cells[handle]?.map Source.value
    rw [hget, hget']
    exact congrArg (Option.map Source.value) hcell
  | containsKey key =>
    cases hq
    refine ⟨rfl, Bool.eq_iff_iff.mpr ?_⟩
    rw [view, view, ← t.formed.lockstep.keys, ← h.lockstep.keys]
    exact t.mem_iff hn key
  | len =>
    cases hq
    have hperm := (perm_ext_iff_of_nodup t.formed.lockstep.nodup h.lockstep.nodup).mpr (t.mem_iff hn)
    exact ⟨rfl, hperm.length_eq⟩
  | keys =>
    cases hq
    exact ⟨rfl, not_not.mp fun hne => hn (t.reordered.mpr hne)⟩

theorem stands (t : Turn nodes m m') (h : m.Formed) {i : ℕ} (hkept : ∀ n ∈ nodes, i ∉ m.parents n)
    {e : Sigma (Answer κ ν)} (hs : m.Stands i e) : m'.Stands i e := by
  have hparents : ∀ n, i ∈ m'.parents n → n ∉ nodes ∧ i ∈ m.parents n := fun n hi => by
    rw [t.parents] at hi
    split at hi
    · cases hi
    · next hn => exact ⟨hn, hi⟩
  obtain ⟨n, hsource, hi, hview⟩ | ⟨key, rfl, habsent⟩ := hs
  · have hn : n ∉ nodes := fun hn => hkept n hn hi
    obtain ⟨hsource', hview'⟩ := t.source h hsource hn
    refine .inl ⟨n, hsource', ?_, hview'.trans hview⟩
    rwa [t.parents, if_neg hn]
  · refine .inr ⟨key, rfl, fun halert => ?_⟩
    have hold : m.Alert i := halert.imp (fun hi => (hparents _ hi).2) fun hi => (hparents _ hi).2
    have hn : .membership ∉ nodes := by
      obtain hi | hi := halert
      · exact (hparents _ hi).1
      · exact fun hn => (hparents _ hi).1 (t.order_of_membership hn)
    have hnot : key ∉ m.keyed.order := fun hmem => h.lockstep.mem_iff.mp hmem (habsent hold)
    rw [← t.mem_iff hn, t.formed.lockstep.mem_iff, not_not] at hnot
    exact hnot

theorem booked (t : Turn nodes m m') (h : m.Formed) (hb : m.Booked) : m'.Booked := by
  intro i q n hq hi
  rw [t.parents] at hi
  split at hi
  · cases hi
  next hn =>
  have hsource : ∃ q, m.source q = some n := by
    cases q with
    | get key =>
      obtain ⟨handle, hget, rfl⟩ := map_eq_some_iff.mp hq
      obtain hget | hle := t.fresh key handle hget
      · exact ⟨.get key, by simp [SourceMap.source, hget]⟩
      · rw [h.unread handle hle] at hi
        cases hi
    | containsKey key => exact ⟨.len, hq⟩
    | len => exact ⟨.len, hq⟩
    | keys => exact ⟨.keys, hq⟩
  obtain ⟨q, hq⟩ := hsource
  obtain ⟨q', hmem, hq'⟩ := hb i q n hq hi
  exact ⟨q', t.asked ▸ hmem, (t.source h hq' hn).1⟩

end Turn

theorem Sound.perform [DecidableEq ν] {body : ℕ → Body κ ν ρ} (hs : Sound body m) (op : Op κ ν) :
    Sound body (m.perform op) := by
  obtain ⟨nodes, t, -⟩ := perform_turn hs.formed op
  refine ⟨t.formed, t.booked hs.formed hs.booked, fun i value hvalue => ?_⟩
  rw [t.cache] at hvalue
  split at hvalue
  · cases hvalue
  next hkept =>
  obtain ⟨w, houtcome, htold, hstands⟩ := hs.remembers i value hvalue
  have hkept : ∀ n ∈ nodes, i ∉ m.parents n := fun n hn hi => hkept ⟨n, hn, hi⟩
  rw [Remembers, t.told]
  exact ⟨w, houtcome, htold, fun e he => t.stands hs.formed hkept (hstands e he)⟩

/-! ## A call of a slot -/

/-- Keys and cells are the same, so the readers give the same. -/
theorem view_congr (hkeyed : m'.keyed = m.keyed) (hcells : m'.cells = m.cells) : m'.view = m.view := by
  funext q
  cases q with
  | get key =>
    show (m'.keyed.get key).bind (fun handle => m'.cells[handle]?.map Source.value) =
      (m.keyed.get key).bind fun handle => m.cells[handle]?.map Source.value
    rw [hkeyed, hcells]
  | containsKey key => exact congrArg (KeyedOrder.contains · key) hkeyed
  | len => exact congrArg KeyedOrder.length hkeyed
  | keys => exact congrArg KeyedOrder.order hkeyed

theorem source_congr (hkeyed : m'.keyed = m.keyed) (q : Query κ) : m'.source q = m.source q := by
  cases q with
  | get key => rw [source, source, hkeyed]
  | containsKey _ | len | keys => rfl

theorem view_of_absent (h : m.keyed.get key = none) : m.view (.get key) = (none : Option ν) := by
  show (m.keyed.get key).bind _ = none
  rw [h, bind_none]

/-- A reader gives what is there, and subscribes the slot to the source of it. -/
theorem reader_eq (h : m.Formed) (i : ℕ) (q : Query κ) :
    reader i q m = (some (m.view q), (m.source q).elim m (m.subscribe · i)) := by
  cases q with
  | get key =>
    show m.get key i = (some ((m.keyed.get key).bind fun handle => m.cells[handle]?.map Source.value),
      ((m.keyed.get key).map Node.cell).elim m (m.subscribe · i))
    rw [get]
    cases hget : m.keyed.get key with
    | none => rfl
    | some handle =>
      obtain ⟨value, hcell⟩ := h.live key handle hget
      simp [hcell, Source.read]
  | containsKey key =>
    show m.containsKey key i = (some (m.keyed.contains key), m.subscribe .membership i)
    simp [containsKey, h.membership, Source.read]
  | len =>
    show m.len i = (some m.keyed.length, m.subscribe .membership i)
    simp [len, h.membership, Source.read]
  | keys =>
    show m.keys i = (some m.keyed.order, m.subscribe .order i)
    simp [keys, h.order, Source.read]

omit [DecidableEq κ] in
theorem mem_parents_subscribe {n n' : Node} {i j : ℕ} :
    j ∈ (m.subscribe n i).parents n' ↔ j ∈ m.parents n' ∨ n = n' ∧ j = i := by
  show j ∈ update m.parents n _ n' ↔ _
  rw [update_apply]
  by_cases hn : n' = n
  · subst hn
    by_cases hi : i ∈ m.parents n'
    · simp only [hi, if_true, true_and]
      exact ⟨.inl, fun hj => hj.elim id fun heq => heq ▸ hi⟩
    · simp [hi, or_comm]
  · simp [hn, Ne.symm hn]

structure Consulted (i : ℕ) (q : Query κ) (m m' : SourceMap κ ν ρ) : Prop where
  keyed : m'.keyed = m.keyed
  cells : m'.cells = m.cells
  membershipSignal : m'.membershipSignal = m.membershipSignal ∧ m'.version = m.version
  orderSignal : m'.orderSignal = m.orderSignal ∧ m'.orderVersion = m.orderVersion
  cache : m'.cache = m.cache
  parents : ∀ n j, j ∈ m'.parents n ↔ j ∈ m.parents n ∨ m.source q = some n ∧ j = i
  told : m'.told = update m.told i (m.told i ++ [⟨q, m.view q⟩])
  asked : m'.asked = update m.asked i (m.asked i ++ [q])

theorem consult_spec (h : m.Formed) (i : ℕ) (q : Query κ) :
    (consult i q m).1 = some (m.view q) ∧ Consulted i q m (consult i q m).2 := by
  rw [consult, reader_eq h]
  cases hq : m.source q with
  | none => exact ⟨rfl, rfl, rfl, ⟨rfl, rfl⟩, ⟨rfl, rfl⟩, rfl, fun n j => by simp [hq], rfl, rfl⟩
  | some n =>
    refine ⟨rfl, rfl, rfl, ⟨rfl, rfl⟩, ⟨rfl, rfl⟩, rfl, fun n' j => ?_, rfl, rfl⟩
    rw [hq, some.injEq]
    exact mem_parents_subscribe

namespace Consulted

variable {i : ℕ} {q : Query κ}

theorem formed (c : Consulted i q m m') (h : m.Formed) : m'.Formed where
  lockstep := c.keyed ▸ h.lockstep
  live := by
    rw [c.keyed, c.cells]
    exact h.live
  apart := c.keyed ▸ h.apart
  membership := by
    rw [c.membershipSignal.1, c.membershipSignal.2]
    exact h.membership
  order := by
    rw [c.orderSignal.1, c.orderSignal.2]
    exact h.order
  unread handle hle := by
    rw [c.cells] at hle
    refine eq_nil_iff_forall_not_mem.mpr fun j hj => ?_
    obtain hj | ⟨hq, -⟩ := (c.parents _ j).mp hj
    · rw [h.unread handle hle] at hj
      cases hj
    · cases q with
      | get key =>
        obtain ⟨handle', hget, heq⟩ := map_eq_some_iff.mp hq
        cases heq
        obtain ⟨value, hcell⟩ := h.live key handle hget
        exact absurd (List.getElem?_eq_some_iff.mp hcell).1 (not_lt.mpr hle)
      | containsKey _ | len | keys => cases hq

theorem mem_asked (c : Consulted i q m m') {j : ℕ} {q' : Query κ} (hmem : q' ∈ m.asked j) : q' ∈ m'.asked j := by
  rw [c.asked, update_apply]
  split
  · next heq => exact mem_append_left _ (heq ▸ hmem)
  · exact hmem

theorem booked (c : Consulted i q m m') (hb : m.Booked) : m'.Booked := by
  intro j q' n hq' hj
  rw [source_congr c.keyed] at hq'
  obtain hj | ⟨hq, rfl⟩ := (c.parents n j).mp hj
  · obtain ⟨q'', hmem, hq''⟩ := hb j q' n hq' hj
    exact ⟨q'', c.mem_asked hmem, (source_congr c.keyed q'').trans hq''⟩
  · refine ⟨q, ?_, (source_congr c.keyed q).trans hq⟩
    rw [c.asked, update_self]
    exact mem_append_right _ (mem_singleton_self q)

end Consulted

/-- In the middle of an evaluation of the slot `i`, that has been told some entries so far. -/
structure Reading (m : SourceMap κ ν ρ) (i : ℕ) (entries : List (Sigma (Answer κ ν))) (s : SourceMap κ ν ρ) :
    Prop where
  formed : s.Formed
  booked : s.Booked
  keyed : s.keyed = m.keyed
  cells : s.cells = m.cells
  cache : s.cache = m.cache
  others : ∀ n j, j ≠ i → (j ∈ s.parents n ↔ j ∈ m.parents n)
  told : s.told = update m.told i entries
  stands : ∀ e ∈ entries, m.view e.1 = e.2 ∧ ∀ n, m.source e.1 = some n → i ∈ s.parents n

theorem Reading.consult {i : ℕ} {entries : List (Sigma (Answer κ ν))} {s : SourceMap κ ν ρ}
    (hr : Reading m i entries s) (q : Query κ) : (consult i q s).1 = some (m.view q) ∧
      Reading m i (entries ++ [⟨q, m.view q⟩]) (consult i q s).2 := by
  obtain ⟨hanswer, c⟩ := consult_spec hr.formed i q
  have hview : s.view = m.view := view_congr hr.keyed hr.cells
  refine ⟨by rw [hanswer, hview], c.formed hr.formed, c.booked hr.booked, c.keyed.trans hr.keyed,
    c.cells.trans hr.cells, c.cache.trans hr.cache, fun n j hj => ?_, ?_, fun e he => ?_⟩
  · rw [c.parents, hr.others n j hj, or_iff_left fun h => hj h.2]
  · rw [c.told, hr.told, update_self, update_idem, hview]
  · obtain he | he := mem_append.mp he
    · exact ⟨(hr.stands e he).1, fun n hn => (c.parents n i).mpr (.inl ((hr.stands e he).2 n hn))⟩
    · obtain rfl := mem_singleton.mp he
      refine ⟨rfl, fun n hn => (c.parents n i).mpr (.inr ⟨?_, rfl⟩)⟩
      rw [source_congr hr.keyed]
      exact hn

/-- A slot without a value evaluates its callable on what is there. -/
theorem call_of_empty (h : m.Formed) (hb : m.Booked) {i : ℕ} (hempty : m.cache i = none) (body : Body κ ν ρ) :
    ∃ s, Reading m i (body.transcript m.view) s ∧ m.call body i =
        (body.outcome m.view, { s with cache := update s.cache i (body.outcome m.view) }) := by
  have hstart : Reading m i [] { m with told := update m.told i [] } :=
    ⟨⟨h.lockstep, h.live, h.apart, h.membership, h.order, h.unread⟩, hb, rfl, rfl, rfl, fun _ _ _ => Iff.rfl, rfl,
      fun _ he => by cases he⟩
  obtain ⟨houtcome, hreading⟩ := Inquiry.exec_rule (fun q _ _ hr => hr.consult q) body hstart
  refine ⟨_, hreading, ?_⟩
  rw [call, hempty]
  simp only [houtcome]

theorem Reading.sound {body : ℕ → Body κ ν ρ} (hs : Sound body m) {i : ℕ} {s : SourceMap κ ν ρ}
    (hr : Reading m i ((body i).transcript m.view) s) :
    Sound body { s with cache := update s.cache i ((body i).outcome m.view) } := by
  have hview : s.view = m.view := view_congr hr.keyed hr.cells
  obtain ⟨hf, hb⟩ := hr.formed, hr.booked
  refine ⟨⟨hf.lockstep, hf.live, hf.apart, hf.membership, hf.order, hf.unread⟩, hb, fun j value hvalue => ?_⟩
  by_cases hj : j = i
  · subst hj
    refine ⟨m.view, by simpa using hvalue, by rw [hr.told, update_self], fun e he => ?_⟩
    rw [hr.told, update_self] at he
    obtain ⟨hagrees, hsource⟩ := hr.stands e he
    obtain ⟨q, a⟩ := e
    have hsame : s.source q = m.source q := source_congr hr.keyed q
    cases hq : m.source q with
    | some n => exact .inl ⟨n, hsame.trans hq, hsource n hq, (congrFun hview q).trans hagrees⟩
    | none =>
      -- Only a `get` of an absent key has no source.
      cases q with
      | get key =>
        have hget : m.keyed.get key = none := map_eq_none_iff.mp hq
        obtain rfl := (view_of_absent hget).symm.trans hagrees
        exact .inr ⟨key, rfl, fun _ => hr.keyed ▸ hget⟩
      | containsKey _ | len | keys => cases hq
  · have hvalue : update s.cache i _ j = some value := hvalue
    rw [update_of_ne hj, hr.cache] at hvalue
    obtain ⟨w, houtcome, htold, hstands⟩ := hs.remembers j value hvalue
    have hsame : s.told j = m.told j := by rw [hr.told, update_of_ne hj]
    refine ⟨w, houtcome, hsame.trans htold, fun e he => ?_⟩
    obtain ⟨n, hsource, hi, hagrees⟩ | ⟨key, rfl, habsent⟩ := hstands e (hsame ▸ he)
    · exact .inl ⟨n, (source_congr hr.keyed _).trans hsource, (hr.others n j hj).mpr hi,
        (congrFun hview e.1).trans hagrees⟩
    · exact .inr ⟨key, rfl, fun halert => hr.keyed ▸ habsent (halert.imp (hr.others _ j hj).mp (hr.others _ j hj).mp)⟩

theorem Sound.call {body : ℕ → Body κ ν ρ} (hs : Sound body m) (i : ℕ) : Sound body (m.call (body i) i).2 := by
  cases hcache : m.cache i with
  | some value =>
    have heq : (m.call (body i) i).2 = m := by
      rw [SourceMap.call, hcache]
    rwa [heq]
  | none =>
    obtain ⟨s, hr, heq⟩ := call_of_empty hs.formed hs.booked hcache (body i)
    rw [heq]
    exact hr.sound hs

theorem sound_run [DecidableEq ν] (body : ℕ → Body κ ν ρ) (acts : List (Act κ ν)) : Sound body (run body acts) := by
  induction acts using reverseRecOn with
  | nil =>
    refine ⟨⟨KeyedOrder.lockstep_empty, nofun, nofun, rfl, rfl, fun _ _ => rfl⟩, fun _ _ _ _ hi => ?_, nofun⟩
    cases hi
  | append_singleton acts act ih =>
    rw [run, foldl_append]
    cases act with
    | op op => exact ih.perform op
    | call i => exact ih.call i

/-! ## Coherence -/

/-- The key of a `get` that has found no entry. -/
def absentKey : Sigma (Answer κ ν) → Option κ
  | ⟨.get key, a⟩ =>
    match (show Option ν from a) with
    | none => some key
    | some _ => none
  | _ => none

/-- The keys that a slot with a value has found absent by `get`. -/
def missed (m : SourceMap κ ν ρ) (i : ℕ) : List κ :=
  if (m.cache i).isSome then (m.told i).filterMap absentKey else []

/-- The contents, without some keys for a `get`. -/
def viewWithout (m : SourceMap κ ν ρ) (absent : List κ) : (q : Query κ) → Answer κ ν q
  | .get key => if key ∈ absent then (none : Option ν) else m.view (.get key)
  | q => m.view q

/-- The slot has read the key set or the order in its latest evaluation. -/
def Surveys (m : SourceMap κ ν ρ) (i : ℕ) : Prop :=
  ∃ e ∈ m.told i, ∀ key, e.1 ≠ .get key

omit [DecidableEq κ] in
theorem absentKey_eq_some_iff {e : Sigma (Answer κ ν)} : absentKey e = some key ↔ e = ⟨.get key, none⟩ := by
  constructor
  · intro h
    obtain ⟨q, a⟩ := e
    cases q with
    | get key' =>
      cases a with
      | none =>
        cases h
        rfl
      | some _ => cases h
    | containsKey _ | len | keys => cases h
  · rintro rfl
    rfl

omit [DecidableEq κ] in
theorem mem_missed {i : ℕ} {value : ρ} (hvalue : m.cache i = some value) :
    key ∈ m.missed i ↔ ⟨.get key, none⟩ ∈ m.told i := by
  simp [missed, hvalue, absentKey_eq_some_iff]

theorem viewWithout_of_mem (h : key ∈ absent) : m.viewWithout absent (.get key) = (none : Option ν) :=
  if_pos h

theorem viewWithout_of_notMem (h : key ∉ absent) : m.viewWithout absent (.get key) = m.view (.get key) :=
  if_neg h

theorem viewWithout_of_absent (h : ∀ key ∈ absent, m.keyed.get key = none) :
    m.viewWithout absent = m.view := by
  funext q
  cases q with
  | get key =>
    by_cases hkey : key ∈ absent
    · exact (viewWithout_of_mem hkey).trans (view_of_absent (h key hkey)).symm
    · exact viewWithout_of_notMem hkey
  | containsKey _ | len | keys => rfl

namespace Sound

variable {body : ℕ → Body κ ν ρ} {i : ℕ}

/-- A slot returns what its callable gives on the contents, where the keys that it has found absent still are. -/
theorem call_fst (hs : Sound body m) (i : ℕ) :
    (m.call (body i) i).1 = (body i).outcome (m.viewWithout (m.missed i)) := by
  cases hcache : m.cache i with
  | none =>
    obtain ⟨s, -, heq⟩ := call_of_empty hs.formed hs.booked hcache (body i)
    have hmissed : m.missed i = [] := by simp [missed, hcache]
    rw [heq, hmissed, viewWithout_of_absent fun _ hkey => by cases hkey]
  | some value =>
    obtain ⟨w, houtcome, htold, hstands⟩ := hs.remembers i value hcache
    have hagrees : Inquiry.Agrees (m.viewWithout (m.missed i)) ((body i).transcript w) := fun e he => by
      have hw : w e.1 = e.2 := Inquiry.agrees_transcript w (body i) e he
      rw [← htold] at he
      obtain ⟨n, -, -, hview⟩ | ⟨key, rfl, -⟩ := hstands e he
      · obtain ⟨q, a⟩ := e
        cases q with
        | get key =>
          by_cases hkey : key ∈ m.missed i
          · have hnone : w (.get key) = none := by
              have hentry := (mem_missed hcache).mp hkey
              rw [htold] at hentry
              exact Inquiry.agrees_transcript w (body i) _ hentry
            exact (viewWithout_of_mem hkey).trans (hnone.symm.trans hw)
          · exact (viewWithout_of_notMem hkey).trans hview
        | containsKey _ | len | keys => exact hview
      · exact viewWithout_of_mem ((mem_missed hcache).mpr he)
    rw [SourceMap.call, hcache, Inquiry.outcome_of_agrees hagrees, houtcome]

/-- If the latest evaluation has read the key set or the order, then what it has found absent is. -/
theorem absent_of_surveys (hs : Sound body m) (h : m.Surveys i) {key : κ} (hkey : key ∈ m.missed i) :
    m.keyed.get key = none := by
  cases hcache : m.cache i with
  | none => simp [missed, hcache] at hkey
  | some value =>
    obtain ⟨w, -, htold, hstands⟩ := hs.remembers i value hcache
    have halert : m.Alert i := by
      obtain ⟨⟨q, a⟩, he, hne⟩ := h
      obtain ⟨n, hsource, hi, -⟩ | ⟨key', heq, -⟩ := hstands _ he
      · cases q with
        | get key' => exact absurd rfl (hne key')
        | containsKey _ | len =>
          cases hsource
          exact .inl hi
        | keys =>
          cases hsource
          exact .inr hi
      · exact absurd (congrArg Sigma.fst heq) (hne key')
    obtain ⟨n, hsource, -, hview⟩ | ⟨key', heq, habsent⟩ := hstands _ ((mem_missed hcache).mp hkey)
    · obtain ⟨handle, hget, -⟩ := map_eq_some_iff.mp hsource
      obtain ⟨v, hcell⟩ := hs.formed.live key handle hget
      have hfound : m.view (.get key) = some v := by
        show (m.keyed.get key).bind _ = some v
        rw [hget, bind_some, hcell]
        rfl
      cases hfound.symm.trans hview
    · cases heq
      exact habsent halert

theorem untouched [DecidableEq ν] (hs : Sound body m) (op : Op κ ν)
    (hget : ∀ key, op.target = some key → .get key ∉ m.asked i)
    (hregrouped : Regrouped m (m.perform op) → .len ∉ m.asked i ∧ ∀ key, .containsKey key ∉ m.asked i)
    (hreordered : (m.perform op).keyed.order ≠ m.keyed.order → .keys ∉ m.asked i) :
    (m.perform op).cache i = m.cache i := by
  obtain ⟨nodes, t, htarget⟩ := perform_turn hs.formed op
  rw [t.cache, if_neg]
  rintro ⟨n, hn, hi⟩
  cases n with
  | cell handle =>
    obtain ⟨key, hop, hkey⟩ := htarget handle hn
    obtain ⟨q, hq, hsource⟩ := hs.booked i (.get key) (.cell handle) (by simp [source, hkey]) hi
    cases q with
    | get key' =>
      obtain ⟨handle', hkey', heq⟩ := map_eq_some_iff.mp hsource
      cases heq
      obtain rfl := hs.formed.apart key' key handle hkey' hkey
      exact hget key' hop hq
    | containsKey _ | len | keys => cases hsource
  | membership =>
    obtain ⟨hlen, hcontains⟩ := hregrouped (t.regrouped.mp hn)
    obtain ⟨q, hq, hsource⟩ := hs.booked i .len .membership rfl hi
    cases q with
    | get key => simp [source] at hsource
    | containsKey key => exact hcontains key hq
    | len => exact hlen hq
    | keys => cases hsource
  | order =>
    obtain ⟨q, hq, hsource⟩ := hs.booked i .keys .order rfl hi
    cases q with
    | get key => simp [source] at hsource
    | containsKey _ | len => cases hsource
    | keys => exact hreordered (t.reordered.mp hn) hq

end Sound

/-- The membership signal is bumped by the operations that change the set of the keys, and the order signal by those
that change the order. A slot returns what its callable gives on the contents in which the keys that its latest
evaluation has found absent by `get` still are, which are the contents if they still are indeed, or if that evaluation
has read the key set or the order, too. An operation leaves the value of a slot that has read nothing of what it
changes. -/
structure Coherent [DecidableEq ν] (body : ℕ → Body κ ν ρ) (m : SourceMap κ ν ρ) : Prop where
  membership : ∀ op, (m.perform op).membershipSignal.value ≠ m.membershipSignal.value ↔ Regrouped m (m.perform op)
  order : ∀ op, (m.perform op).orderSignal.value ≠ m.orderSignal.value ↔ (m.perform op).keyed.order ≠ m.keyed.order
  returned : ∀ i, (m.call (body i) i).1 = (body i).outcome (m.viewWithout (m.missed i))
  current : ∀ i, m.Surveys i ∨ (∀ key ∈ m.missed i, key ∉ m.keyed.order) →
    (m.call (body i) i).1 = (body i).outcome m.view
  untouched : ∀ op i, (∀ key, op.target = some key → .get key ∉ m.asked i) →
    (Regrouped m (m.perform op) → .len ∉ m.asked i ∧ ∀ key, .containsKey key ∉ m.asked i) →
    ((m.perform op).keyed.order ≠ m.keyed.order → .keys ∉ m.asked i) → (m.perform op).cache i = m.cache i

theorem readers_coherent [DecidableEq ν] (body : ℕ → Body κ ν ρ) (acts : List (Act κ ν)) :
    Coherent body (run body acts) := by
  have hs := sound_run body acts
  refine ⟨fun op => ?_, fun op => ?_, hs.call_fst, fun i hi => ?_, fun op i => hs.untouched op⟩
  · obtain ⟨nodes, t, -⟩ := perform_turn hs.formed op
    rw [t.formed.membership, hs.formed.membership, ← t.regrouped, t.version]
    by_cases hn : Node.membership ∈ nodes
    · simp [hn]
    · simp [hn]
  · obtain ⟨nodes, t, -⟩ := perform_turn hs.formed op
    rw [t.formed.order, hs.formed.order, ← t.reordered, t.orderVersion]
    by_cases hn : Node.order ∈ nodes
    · simp [hn]
    · simp [hn]
  · have habsent : ∀ key ∈ (run body acts).missed i, (run body acts).keyed.get key = none := fun key hkey => by
      obtain hi | hi := hi
      · exact hs.absent_of_surveys hi hkey
      · exact not_not.mp fun hne => hi key hkey (hs.formed.lockstep.mem_iff.mpr hne)
    rw [hs.call_fst, viewWithout_of_absent habsent]

/-- A slot that has got an absent key still returns nothing when the key has an entry. -/
theorem returned_of_inserted : ¬∀ (body : ℕ → Body ℕ ℕ (Option ℕ)) (acts : List (Act ℕ ℕ)) (i : ℕ),
    ((run body acts).call (body i) i).1 = (body i).outcome (run body acts).view := by
  intro h
  have hcall := h (fun _ => .ask (.get 0) .ret) [.call 0, .op (.set 0 1)] 0
  revert hcall
  decide +kernel

end SourceMap

end LazilyPy.Collection

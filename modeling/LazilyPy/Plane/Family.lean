import LazilyPy.Plane.History

/-!
# Families

Which value a plane reports for a key of a family. The entries stand under the nodes of the operations
that wrote them, but the value is read under the node that the key is bound to, which is the node of
the first operation for the key after the family was registered.
-/

namespace LazilyPy.Plane

open CrdtPlaneRuntime List Option

/-! ## Bindings -/

def nodeFor (path : String) : Event → Option ℤ
  | .registered _ => none
  | .claimed path' node => if path' = path then some node else none
  | .ingested e => if e.key.map NodeKey.path = some path then some e.node else none

/-- The node under which a path is mentioned first after its family has been registered. -/
def opener (path : String) (events : List Event) : Option ℤ :=
  (events.dropWhile (· ≠ .registered (namespaceOf path))).findSome? (nodeFor path)

theorem opener_concat (path : String) (events : List Event) (event : Event) :
    opener path (events ++ [event]) = (opener path events).or
      (if .registered (namespaceOf path) ∈ events then nodeFor path event else none) := by
  induction events with
  | nil =>
    by_cases hev : event = .registered (namespaceOf path)
    · subst hev
      simp [opener, nodeFor]
    · simp [opener, hev]
  | cons a events ih =>
    by_cases ha : a = .registered (namespaceOf path)
    · subst ha
      have hkept : ∀ l, opener path (.registered (namespaceOf path) :: l) =
          (Event.registered (namespaceOf path) :: l).findSome? (nodeFor path) := by
        intro l
        simp [opener]
      rw [cons_append, hkept, hkept, ← cons_append, findSome?_append]
      simp
    -- before the registration nothing is bound
    · have hdrop : ∀ l, opener path (a :: l) = opener path l := by
        intro l
        simp [opener, ha]
      rw [cons_append, hdrop, hdrop, ih]
      simp [Ne.symm ha]

/-- What materializing binds: the path, if it was not bound and its family is registered. -/
theorem keyToNode_materialize (path : String) (node : Option ℤ) (p : CrdtPlaneRuntime) (path' : String) :
    ((p.materializeFamilyEntry path node).2.keyToNode.get? path').map Prod.snd =
      ((p.keyToNode.get? path').map Prod.snd).or (if path' = path ∧ namespaceOf path ∈ p.families
          then some (p.materializeFamilyEntry path node).1 else none) := by
  have hmint : ((p.nodeOrMint node).2.keyToNode, (p.nodeOrMint node).2.families) = (p.keyToNode, p.families) := by
    cases node <;> rfl
  obtain ⟨hkeys, hfam⟩ := Prod.mk.inj hmint
  unfold materializeFamilyEntry
  split
  · next hget =>
    by_cases hpath : path' = path
    · subst hpath
      simp [hget]
    · simp [hpath]
  · next hget =>
    dsimp only
    rw [hfam]
    split
    · next hreg =>
      dsimp only [bindPath]
      rw [Table.get?_put, hkeys]
      by_cases hpath : path' = path
      · subst hpath
        simp [hget, hreg]
      · simp [hpath]
    · next hreg =>
      rw [hkeys]
      simp [hreg]

/-- An unbound path is given the node that the caller supplies. -/
theorem materialize_fst (path : String) (node : ℤ) (p : CrdtPlaneRuntime)
    (h : p.keyToNode.get? path = none) : (p.materializeFamilyEntry path (some node)).1 = node := by
  by_cases hreg : namespaceOf path ∈ p.families
  · simp [materializeFamilyEntry, h, nodeOrMint, hreg]
  · simp [materializeFamilyEntry, h, nodeOrMint, hreg]

namespace History

/-- Families are those that have been registered, and paths are bound to the nodes of their openers. -/
structure Bound (h : History) : Prop where
  families : ∀ ns, ns ∈ h.plane.families ↔ .registered ns ∈ h.events
  keyToNode : ∀ path, (h.plane.keyToNode.get? path).map Prod.snd = opener path h.events

theorem Bound.move {h h' : History} (hb : h.Bound) (hm : Move h h') : h'.Bound := by
  cases hm with
  | registered ns =>
    refine ⟨fun ns' => ?_, fun path => ?_⟩
    · have hmem : ns' ∈ (h.plane.registerFamilyLww ns).families ↔ ns' ∈ h.plane.families ∨ ns' = ns := by
        simp only [registerFamilyLww]
        split
        · next hns => exact ⟨.inl, fun hor => hor.elim (fun hin => hin) fun heq => heq ▸ hns⟩
        · simp
      simp only [hmem, hb.families, mem_append, mem_singleton, Event.registered.injEq]
    · rw [opener_concat, ← hb.keyToNode]
      simp [nodeFor, registerFamilyLww]
  | claimed path =>
    refine ⟨fun ns => ?_, fun path' => ?_⟩
    · simp [hb.families]
    · dsimp only
      rw [keyToNode_materialize, opener_concat, hb.keyToNode]
      simp only [hb.families]
      congr 1
      by_cases hpath : path' = path
      · subst hpath
        simp [nodeFor]
      · simp [nodeFor, hpath, Ne.symm hpath]
  | ticked n => exact ⟨hb.families, hb.keyToNode⟩
  | ingested op hnew =>
    refine ⟨fun ns => ?_, fun path' => ?_⟩
    · simp [hb.families]
    · rw [opener_concat, ← hb.keyToNode]
      dsimp only [ingest]
      cases hkey : op.key with
      | none => simp [nodeFor, CrdtOp.entry, hkey]
      | some key =>
        dsimp only
        rw [keyToNode_materialize]
        simp only [hb.families]
        -- an existing binding wins, otherwise the node of the operation is bound
        cases hget : h.plane.keyToNode.get? path' with
        | some bound => simp
        | none =>
          by_cases hpath : path' = key.path
          · subst hpath
            have hnode := materialize_fst key.path op.node
              { h.plane with applied := (op.node, op.stamp) :: h.plane.applied } hget
            simp [nodeFor, CrdtOp.entry, hkey, hnode]
          · simp [nodeFor, CrdtOp.entry, hkey, hpath, Ne.symm hpath]
  | observed frontier => exact ⟨hb.families, hb.keyToNode⟩

theorem bound_run (selfPeer : ℤ) (actions : List Action) : (run selfPeer actions).Bound := by
  refine run_induction ⟨fun ns => ?_, fun path => ?_⟩ (fun _ _ hb hm => hb.move hm) actions
  · simp
  · rfl

end History

/-! ## What a plane reports -/

def Wins (log : List PlaneEntry) (path : String) (e : PlaneEntry) : Prop :=
  e ∈ log ∧ e.key.map NodeKey.path = some path ∧ ∀ e' ∈ log, e'.key.map NodeKey.path = some path → e'.stamp ≤ e.stamp

/-- Whatever is written has a greatest stamp. -/
theorem exists_wins {log : List PlaneEntry} {path : String} {e : PlaneEntry} (he : e ∈ log)
    (hpath : e.key.map NodeKey.path = some path) : ∃ e', Wins log path e' := by
  have hne : (log.filter fun e => e.key.map NodeKey.path = some path) ≠ [] :=
    ne_nil_of_mem (mem_filter.mpr ⟨he, by simpa using hpath⟩)
  obtain ⟨e', he'⟩ := ne_none_iff_exists'.mp fun h =>
    hne (argmax_eq_none (f := PlaneEntry.stamp).mp h)
  obtain ⟨hmem, hpath'⟩ := mem_filter.mp (argmax_mem he')
  refine ⟨e', hmem, by simpa using hpath', fun e'' hmem' hpath'' => ?_⟩
  exact le_of_mem_argmax (mem_filter.mpr ⟨hmem', by simpa using hpath''⟩) he'

namespace History

/-- The plane reports the value of the greatest stamp, or nothing where nothing has been written. -/
def Reports (h : History) (ns keySuffix : String) : Prop :=
  (∀ e, Wins h.log (familyPath ns keySuffix) e → h.plane.familyValueLww ns keySuffix = some e.truth) ∧
  ((∀ e ∈ h.log, e.key.map NodeKey.path ≠ some (familyPath ns keySuffix)) → h.plane.familyValueLww ns keySuffix = none)

/-- Nothing has been written for the path, or the last write for it under the node of its opener has the
value of what wins. -/
def BindsWinner (h : History) (path : String) : Prop :=
  (∀ e ∈ h.log, e.key.map NodeKey.path ≠ some path) ∨
    ∃ node, opener path h.events = some node ∧ ∃ w ∈ h.log, w.entryKey = (node, some path) ∧
      (∀ e ∈ h.log, e.entryKey = (node, some path) → e.stamp ≤ w.stamp) ∧
      ∀ e, Wins h.log path e → w.truth = e.truth

/-- A value is what the table has under the bound node. -/
theorem familyValueLww_eq (p : CrdtPlaneRuntime) (ns keySuffix : String) : p.familyValueLww ns keySuffix =
      ((p.keyToNode.get? (familyPath ns keySuffix)).map Prod.snd).bind fun node =>
        (p.entries.get? (node, some (familyPath ns keySuffix))).map PlaneEntry.truth := by
  have hfind : ∀ node, (p.entries.rows.find? fun e =>
      e.node = node ∧ e.key.map NodeKey.path = some (familyPath ns keySuffix)) =
        p.entries.get? (node, some (familyPath ns keySuffix)) := by
    intro node
    unfold Table.get?
    congr 1
    funext e
    simp [PlaneEntry.entryKey]
  unfold familyValueLww
  dsimp only
  split
  · next h => simp [h]
  · next node h =>
    rw [hfind, h]
    rfl

/-- A plane reports what wins exactly if the opener of the path binds it. -/
theorem mem_reported_iff {h : History} (hv : h.Valid) (hb : h.Bound) (ns keySuffix : String) :
    h.Reports ns keySuffix ↔ h.BindsWinner (familyPath ns keySuffix) := by
  have hvalue := familyValueLww_eq h.plane ns keySuffix
  rw [hb.keyToNode] at hvalue
  unfold Reports
  rw [hvalue]
  generalize familyPath ns keySuffix = path
  constructor
  · rintro ⟨hwins, _⟩
    by_cases hnone : ∀ e ∈ h.log, e.key.map NodeKey.path ≠ some path
    · exact .inl hnone
    · push Not at hnone
      obtain ⟨e, he, hpath⟩ := hnone
      obtain ⟨e', he'⟩ := exists_wins he hpath
      obtain ⟨node, hnode, hentry⟩ := bind_eq_some_iff.mp (hwins e' he')
      obtain ⟨w, hw, _⟩ := map_eq_some_iff.mp hentry
      -- what is reported is the latest write under the bound node
      refine .inr ⟨node, hnode, w, hv.latest.mem _ w hw, Table.key_of_get? hw, ?_, fun f hf => ?_⟩
      · intro f hf hkey
        obtain ⟨w', hw', hle⟩ := hv.latest.le f hf
        rw [hkey, hw] at hw'
        obtain rfl := some.inj hw'
        exact hle
      · have hf' := hwins f hf
        rw [hnode] at hf'
        simpa [hw] using hf'
  · rintro (hnone | ⟨node, hnode, w, hw, hkey, hlast, htruth⟩)
    · refine ⟨fun e he => absurd he.2.1 (hnone e he.1), fun _ => ?_⟩
      rw [bind_eq_none_iff]
      intro node _
      rw [map_eq_none_iff, eq_none_iff_forall_ne_some]
      intro e he
      have hkey : e.entryKey = (node, some path) := Table.key_of_get? he
      exact hnone e (hv.latest.mem _ e he) (Prod.mk.inj hkey).2
    · obtain ⟨w', hw', hle⟩ := hv.latest.le w hw
      rw [hkey] at hw'
      have hmem := hv.latest.mem _ w' hw'
      have hkey' : w'.entryKey = (node, some path) := Table.key_of_get? hw'
      -- under one node there is one write with the greatest stamp
      obtain rfl : w = w' := by
        refine hv.unique w hw w' hmem ?_ (le_antisymm hle (hlast w' hmem hkey'))
        exact (Prod.mk.inj (hkey.trans hkey'.symm)).1
      constructor
      · intro e he
        simp [hnode, hw', htruth e he]
      · intro hnone
        exact absurd (Prod.mk.inj hkey).2 (hnone w hw)

end History

open History

/-- Two planes that have ingested the same operations report the same value for a family entry, and it
is the value of the greatest stamp, if and only if on either plane the last write under the node of the
opener has the value of what wins. -/
theorem family_converges_iff {peerA peerB : ℤ} {actionsA actionsB : List Action}
    (hsame : ∀ e, e ∈ (run peerA actionsA).log ↔ e ∈ (run peerB actionsB).log)
    (ns keySuffix : String) :
    ((run peerA actionsA).plane.familyValueLww ns keySuffix = (run peerB actionsB).plane.familyValueLww ns keySuffix ∧
      (run peerA actionsA).Reports ns keySuffix) ↔
    (run peerA actionsA).BindsWinner (familyPath ns keySuffix) ∧
      (run peerB actionsB).BindsWinner (familyPath ns keySuffix) := by
  rw [← mem_reported_iff (valid_run peerA actionsA) (bound_run peerA actionsA),
    ← mem_reported_iff (valid_run peerB actionsB) (bound_run peerB actionsB)]
  generalize run peerA actionsA = a at hsame ⊢
  generalize run peerB actionsB = b at hsame ⊢
  have hwins : ∀ e, Wins a.log (familyPath ns keySuffix) e ↔ Wins b.log (familyPath ns keySuffix) e := by
    intro e
    simp only [Wins, hsame]
  constructor
  · rintro ⟨heq, ha⟩
    refine ⟨ha, ?_⟩
    constructor
    · intro e he
      rw [← heq]
      exact ha.1 e ((hwins e).mpr he)
    · intro hnone
      rw [← heq]
      exact ha.2 fun e he => hnone e ((hsame e).mp he)
  · rintro ⟨ha, hb⟩
    refine ⟨?_, ha⟩
    by_cases hnone : ∀ e ∈ a.log, e.key.map NodeKey.path ≠ some (familyPath ns keySuffix)
    · rw [ha.2 hnone, hb.2 fun e he => hnone e ((hsame e).mpr he)]
    · push Not at hnone
      obtain ⟨e, he, hpath⟩ := hnone
      obtain ⟨e', he'⟩ := exists_wins he hpath
      rw [ha.1 e' he', hb.1 e' ((hwins e').mp he')]

/-! ## Two pairs of planes -/

def origin : List Action :=
  [.registerFamilyLww "live", .familySetLww "live" "k" true 1]

def target : List Action :=
  [.registerFamilyLww "live", .applyFrame ⟨[(1, ⟨1, 1, 1⟩)], [⟨2 ^ 48, some ⟨"live/k"⟩, ⟨1, 1, 1⟩, .inline [1]⟩]⟩]

/-- Peers 1 and 2 write the same key under nodes of their own, and exchange what they have written. -/
def mintsFirst : List Action :=
  [.registerFamilyLww "live", .familySetLww "live" "k" true 1,
    .applyOps [⟨2 ^ 48, some ⟨"live/x"⟩, ⟨2, 1, 2⟩, .inline [1]⟩,
      ⟨2 ^ 48 + 1, some ⟨"live/k"⟩, ⟨2, 2, 2⟩, .inline [0]⟩]]

def mintsSecond : List Action :=
  [.registerFamilyLww "live", .familySetLww "live" "x" true 2, .familySetLww "live" "k" false 2,
    .apply ⟨2 ^ 48, some ⟨"live/k"⟩, ⟨1, 1, 1⟩, .inline [1]⟩]

theorem family_converges_target :
    (run 1 origin).plane.familyValueLww "live" "k" = (run 2 target).plane.familyValueLww "live" "k" ∧
      (run 1 origin).Reports "live" "k" := by
  have hlog : (run 1 origin).log = [⟨2 ^ 48, some ⟨"live/k"⟩, ⟨1, 1, 1⟩, [1]⟩] := by decide
  have hlog' : (run 2 target).log = [⟨2 ^ 48, some ⟨"live/k"⟩, ⟨1, 1, 1⟩, [1]⟩] := by decide
  have hbinds : ∀ h : History, h.log = [⟨2 ^ 48, some ⟨"live/k"⟩, ⟨1, 1, 1⟩, [1]⟩] →
      opener "live/k" h.events = some (2 ^ 48) → h.BindsWinner "live/k" := by
    intro h hlog hopener
    refine .inr ⟨2 ^ 48, hopener, ⟨2 ^ 48, some ⟨"live/k"⟩, ⟨1, 1, 1⟩, [1]⟩, ?_⟩
    simp [hlog, Wins, PlaneEntry.entryKey]
  refine (family_converges_iff (fun e => by rw [hlog, hlog']) "live" "k").mpr ⟨?_, ?_⟩
  · exact hbinds _ hlog (by decide)
  · exact hbinds _ hlog' (by decide)

theorem family_diverges : ¬ ∀ (peerA peerB : ℤ) (actionsA actionsB : List Action) (ns keySuffix : String),
    .registered ns ∈ (run peerA actionsA).events → .registered ns ∈ (run peerB actionsB).events →
    (∀ e, e ∈ (run peerA actionsA).log ↔ e ∈ (run peerB actionsB).log) →
      (run peerA actionsA).plane.familyValueLww ns keySuffix =
        (run peerB actionsB).plane.familyValueLww ns keySuffix := by
  intro h
  have hall : (∀ e ∈ (run 1 mintsFirst).log, e ∈ (run 2 mintsSecond).log) ∧
      ∀ e ∈ (run 2 mintsSecond).log, e ∈ (run 1 mintsFirst).log := by
    decide
  have heq := h 1 2 mintsFirst mintsSecond "live" "k" (by decide) (by decide)
    fun e => ⟨hall.1 e, hall.2 e⟩
  revert heq
  decide

end LazilyPy.Plane

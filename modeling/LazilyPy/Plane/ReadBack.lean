import Mathlib.Data.List.TakeWhile
import LazilyPy.Plane.Family
import LazilyPy.Plane.Winners

/-!
# Reading a family write back

A local write of a family entry is stamped with the caller's clock and a local counter, neither of which has been moved
past the stamps that the plane has ingested.
-/

namespace LazilyPy.Plane

open CrdtPlaneRuntime List Option Table

def CrdtPlaneRuntime.nextStamp (p : CrdtPlaneRuntime) (now : ℤ) : Stamp :=
  ⟨now, p.localLogical + 1, p.selfPeer⟩

def CrdtPlaneRuntime.boundNode (p : CrdtPlaneRuntime) (path : String) : Option ℤ :=
  (p.keyToNode.get? path).map Prod.snd

/-- The namespace has no slash and the path is a key, no operation of the node that the path is bound to has the stamp
of the write, and every entry for the path has the value already, or stands under that node with a smaller stamp. -/
structure CrdtPlaneRuntime.Prevails (p : CrdtPlaneRuntime) (ns keySuffix : String) (value : Bool) (now : ℤ) : Prop where
  ns_ok : '/' ∉ ns.toList
  key_ok : ∃ key, NodeKey.new (familyPath ns keySuffix) = .ok key
  fresh : ∀ node, p.boundNode (familyPath ns keySuffix) = some node → (node, p.nextStamp now) ∉ p.applied
  entries : ∀ e ∈ p.entries.rows, e.key.map NodeKey.path = some (familyPath ns keySuffix) →
    e.truth = value ∨ p.boundNode (familyPath ns keySuffix) = some e.node ∧ e.stamp < p.nextStamp now

namespace History

/-- After the write the plane reports the value, as long as no other operation for the path is ingested. -/
def ReadsBack (h : History) (ns keySuffix : String) (value : Bool) (now : ℤ) : Prop :=
  let h := h.step (.familySetLww ns keySuffix value now)
  ∀ later, (∀ e ∈ (h.after later).log, e.key.map NodeKey.path = some (familyPath ns keySuffix) → e ∈ h.log) →
    (h.after later).plane.familyValueLww ns keySuffix = some value

/-- The write returns an operation, and every plane of the family that has ingested this one and those that had been
ingested here reports the value. -/
def Spreads (h : History) (ns keySuffix : String) (value : Bool) (now : ℤ) : Prop :=
  ∃ op, (h.plane.familySetLww ns keySuffix value now).1 = .ok (some op) ∧
    ∀ peer actions, (∀ e, e ∈ (run peer (.registerFamilyLww ns :: actions)).log ↔ e ∈ h.log ∨ e = op.entry) →
      (run peer (.registerFamilyLww ns :: actions)).plane.familyValueLww ns keySuffix = some value

variable {h h' : History} {path ns keySuffix : String} {value : Bool} {now : ℤ} {op : CrdtOp}

/-! ### Bindings and entries -/

variable {node : ℤ} {key : NodeKey}

theorem opener_move (hm : Move h h') (hnode : opener path h.events = some node) :
    opener path h'.events = some node := by
  have hconcat : ∀ event, opener path (h.events ++ [event]) = some node := by
    intro event
    rw [opener_concat, hnode, some_or]
  cases hm with
  | registered ns => exact hconcat _
  | claimed path' => exact hconcat _
  | ticked n => exact hnode
  | ingested op hnew => exact hconcat _
  | observed frontier => exact hnode

/-- Of the operations of a node and key that are the same, the winner is the same. -/
theorem get?_congr (hv : h.Valid) (hv' : h'.Valid) {k : ℤ × Option String}
    (hsame : ∀ e, e.entryKey = k → (e ∈ h.log ↔ e ∈ h'.log)) : h.plane.entries.get? k = h'.plane.entries.get? k := by
  have hunique : ∀ {h : History}, h.Valid → ∀ v ∈ h.log, ∀ w ∈ h.log, v.entryKey = w.entryKey → v.stamp = w.stamp →
    v = w :=
    fun hv v hmem w hmem' hkey => hv.unique v hmem w hmem' (congrArg Prod.fst hkey)
  refine ext fun e => ?_
  rw [hv.latest.get?_eq_some_iff (hunique hv), hv'.latest.get?_eq_some_iff (hunique hv')]
  constructor
  · rintro ⟨he, hkey, hmax⟩
    exact ⟨(hsame e hkey).mp he, hkey, fun w hw hwkey => hmax w ((hsame w hwkey).mpr hw) hwkey⟩
  · rintro ⟨he, hkey, hmax⟩
    exact ⟨(hsame e hkey).mpr he, hkey, fun w hw hwkey => hmax w ((hsame w hwkey).mp hw) hwkey⟩

/-- The node of an applied operation is that of an entry. -/
theorem Valid.mem_nodes (hv : h.Valid) {stamp : Stamp} (happlied : (node, stamp) ∈ h.plane.applied) :
    node ∈ h.plane.nodes := by
  obtain ⟨e, he, rfl, -⟩ := (hv.applied node stamp).mp happlied
  obtain ⟨w, hw, -⟩ := hv.latest.le e he
  have hkey : w.entryKey = e.entryKey := key_of_get? hw
  exact List.mem_map.mpr ⟨w, mem_of_get? hw, congrArg Prod.fst hkey⟩

/-- A path is looked up, or a node that no entry has is minted for it. -/
theorem materialize_none_cases (path : String) (p : CrdtPlaneRuntime) :
    p.boundNode path = some (p.materializeFamilyEntry path none).1 ∨
      p.boundNode path = none ∧ (p.materializeFamilyEntry path none).1 ∉ p.nodes := by
  unfold boundNode materializeFamilyEntry
  cases hget : p.keyToNode.get? path with
  | some bound => exact .inl rfl
  | none =>
    refine .inr ⟨rfl, ?_⟩
    dsimp only
    split
    · exact p.mintFamilyNode_unused
    · exact p.mintFamilyNode_unused

def Anchored (h : History) : Prop :=
  ∀ path node, (∃ key, NodeKey.new path = .ok key) → opener path h.events = some node →
    ∃ e ∈ h.log, e.entryKey = (node, some path)

theorem nodeFor_claimed {path' : String} {node' : ℤ} :
    nodeFor path (.claimed path' node') = some node ↔ path' = path ∧ node' = node := by
  unfold nodeFor
  simp

theorem nodeFor_ingested {e : PlaneEntry} :
    nodeFor path (.ingested e) = some node ↔ e.entryKey = (node, some path) := by
  unfold nodeFor PlaneEntry.entryKey
  simp [and_comm]

theorem Anchored.concat (ha : h.Anchored) {event : Event} {p : CrdtPlaneRuntime}
    (hevent : ∀ path node, (∃ key, NodeKey.new path = .ok key) → opener path h.events = none →
      .registered (namespaceOf path) ∈ h.events → nodeFor path event = some node →
        ∃ e ∈ written (h.events ++ [event]), e.entryKey = (node, some path)) :
    Anchored ⟨p, h.events ++ [event]⟩ := by
  intro path node hkey hnode
  replace hnode : opener path (h.events ++ [event]) = some node := hnode
  rw [opener_concat] at hnode
  cases hopener : opener path h.events with
  | some node' =>
    rw [hopener, some_or] at hnode
    obtain ⟨e, he, heq⟩ := ha path node' hkey hopener
    refine ⟨e, ?_, by rw [heq, some.inj hnode]⟩
    show e ∈ written (h.events ++ [event])
    unfold written
    rw [filterMap_append]
    exact mem_append_left _ he
  | none =>
    rw [hopener, none_or] at hnode
    split at hnode
    next hregistered => exact hevent path node hkey hopener hregistered hnode
    · cases hnode

theorem Anchored.apply (ha : h.Anchored) (op : CrdtOp) : (h.apply op).Anchored := by
  unfold History.apply CrdtPlaneRuntime.apply
  split
  · exact ha
  · refine ha.concat fun path node _ _ _ hnode => ⟨op.entry, by simp, ?_⟩
    exact nodeFor_ingested.mp hnode

theorem Anchored.applyOps (ha : h.Anchored) (ops : List CrdtOp) : (h.applyOps ops).Anchored := by
  unfold History.applyOps
  induction ops generalizing h with
  | nil => exact ha
  | cons op ops ih => exact ih (ha.apply op)

theorem key_of_new (hkey : NodeKey.new path = .ok key) : key = ⟨path⟩ := by
  unfold NodeKey.new at hkey
  dsimp only at hkey
  split at hkey
  · cases hkey
  split at hkey
  · cases hkey
  split at hkey
  · cases hkey
  split at hkey
  · cases hkey
  · cases hkey
    rfl

/-! ### The write -/

def claimed (h : History) (path : String) : History :=
  let r := h.plane.materializeFamilyEntry path none
  ⟨{ r.2 with localLogical := r.2.localLogical + 1 }, h.events ++ [.claimed path r.1]⟩

def writeOp (p : CrdtPlaneRuntime) (ns keySuffix : String) (value : Bool) (now : ℤ) : CrdtOp :=
  let r := p.materializeFamilyEntry (familyPath ns keySuffix) none
  ⟨r.1, some ⟨familyPath ns keySuffix⟩, r.2.nextStamp now, .inline [if value then 1 else 0]⟩

def afterWrite (h : History) (ns keySuffix : String) (value : Bool) (now : ℤ) : History :=
  (h.claimed (familyPath ns keySuffix)).apply (writeOp h.plane ns keySuffix value now)

section

variable (p : CrdtPlaneRuntime) (ns keySuffix : String) (value : Bool) (now : ℤ)

@[simp] theorem stamp_writeOp :
    (writeOp p ns keySuffix value now).stamp = p.nextStamp now := by
  unfold writeOp nextStamp
  dsimp only
  rw [localLogical_materialize, selfPeer_materialize]

theorem truth_writeOp :
    (writeOp p ns keySuffix value now).entry.truth = value := by
  cases value <;> rfl

end

theorem applied_claimed (h : History) (path : String) : (h.claimed path).plane.applied = h.plane.applied :=
  applied_materialize ..

theorem entries_claimed (h : History) (path : String) : (h.claimed path).plane.entries = h.plane.entries :=
  entries_materialize ..

theorem step_familySetLww (hkey : NodeKey.new (familyPath ns keySuffix) = .ok key) :
    h.step (.familySetLww ns keySuffix value now) = h.afterWrite ns keySuffix value now := by
  unfold step
  dsimp only
  rw [hkey, key_of_new hkey]
  rfl

theorem familySetLww_fst (hkey : NodeKey.new (familyPath ns keySuffix) = .ok key) :
    (h.plane.familySetLww ns keySuffix value now).1 =
      .ok (if ((writeOp h.plane ns keySuffix value now).node, h.plane.nextStamp now) ∈ h.plane.applied then none
        else some (writeOp h.plane ns keySuffix value now)) := by
  have happly : (h.plane.familySetLww ns keySuffix value now).1 =
      .ok (if ((h.claimed (familyPath ns keySuffix)).plane.apply (writeOp h.plane ns keySuffix value now)).1 then
        some (writeOp h.plane ns keySuffix value now) else none) := by
    unfold familySetLww
    dsimp only
    rw [hkey, key_of_new hkey]
    rfl
  rw [happly]
  unfold CrdtPlaneRuntime.apply
  rw [applied_claimed, stamp_writeOp]
  split
  · rfl
  · rfl

section Fresh

variable (hfresh : ((writeOp h.plane ns keySuffix value now).node, h.plane.nextStamp now) ∉ h.plane.applied)

include hfresh

/-- What a write does if its operation is new. -/
theorem afterWrite_eq : h.afterWrite ns keySuffix value now =
    ⟨(h.claimed (familyPath ns keySuffix)).plane.ingest (writeOp h.plane ns keySuffix value now),
      (h.claimed (familyPath ns keySuffix)).events ++ [.ingested (writeOp h.plane ns keySuffix value now).entry]⟩ := by
  unfold afterWrite History.apply CrdtPlaneRuntime.apply
  rw [applied_claimed, stamp_writeOp, if_neg hfresh]
  rfl

theorem events_afterWrite : (h.afterWrite ns keySuffix value now).events =
      h.events ++ [.claimed (familyPath ns keySuffix) (writeOp h.plane ns keySuffix value now).node] ++
        [.ingested (writeOp h.plane ns keySuffix value now).entry] := by
  rw [afterWrite_eq hfresh]
  rfl

theorem log_afterWrite : (h.afterWrite ns keySuffix value now).log =
      h.log ++ [(writeOp h.plane ns keySuffix value now).entry] := by
  unfold log
  rw [events_afterWrite hfresh, written_ingested, written_claimed]

theorem entries_afterWrite : (h.afterWrite ns keySuffix value now).plane.entries =
      h.plane.entries.keepLater PlaneEntry.stamp (writeOp h.plane ns keySuffix value now).entry := by
  rw [afterWrite_eq hfresh, entries_ingest, entries_claimed]

end Fresh

/-- The node of a write is the one that the path is bound to, or one that is new. -/
theorem node_writeOp (hv : h.Valid) (ns keySuffix : String) (value : Bool) (now : ℤ) :
    h.plane.boundNode (familyPath ns keySuffix) = some (writeOp h.plane ns keySuffix value now).node ∨
      h.plane.boundNode (familyPath ns keySuffix) = none ∧
        (writeOp h.plane ns keySuffix value now).node ∉ h.plane.nodes ∧
        ((writeOp h.plane ns keySuffix value now).node, h.plane.nextStamp now) ∉ h.plane.applied := by
  obtain hbound | ⟨hnone, hnew⟩ := materialize_none_cases (familyPath ns keySuffix) h.plane
  · exact .inl hbound
  · exact .inr ⟨hnone, hnew, fun happlied => hnew (hv.mem_nodes happlied)⟩

theorem Anchored.step (ha : h.Anchored) (hv : h.Valid) (hb : h.Bound) (a : Action) : (h.step a).Anchored := by
  cases a with
  | registerFamilyLww ns => exact ha.concat nofun
  | apply op => exact ha.apply op
  | applyOps ops => exact ha.applyOps ops
  | applyFrame frame => exact ha.applyOps frame.ops
  | familySetLww ns keySuffix value now =>
    cases hkey : NodeKey.new (familyPath ns keySuffix) with
    | error e =>
      have hstep : h.step (.familySetLww ns keySuffix value now) = h.claimed (familyPath ns keySuffix) := by
        unfold History.step
        dsimp only
        rw [hkey]
        rfl
      rw [hstep]
      rintro path node ⟨key, hkey'⟩ hnode
      refine ha.concat ?_ path node ⟨key, hkey'⟩ hnode
      rintro path node ⟨key, hkey'⟩ - - hnode
      obtain ⟨rfl, -⟩ := nodeFor_claimed.mp hnode
      cases hkey.symm.trans hkey'
    | ok key =>
      rw [step_familySetLww hkey]
      obtain hbound | ⟨hnone, -, hfresh⟩ := node_writeOp hv ns keySuffix value now
      · refine Anchored.apply (ha.concat fun path node _ hopener _ hnode => ?_) _
        obtain ⟨rfl, -⟩ := nodeFor_claimed.mp hnode
        cases hbound.symm.trans ((hb.keyToNode _).trans hopener)
      · intro path node hkey' hnode
        rw [log_afterWrite hfresh]
        rw [events_afterWrite hfresh, opener_concat, opener_concat, or_eq_some_iff, or_eq_some_iff] at hnode
        -- the node comes from before, from the lookup, or from the operation itself
        obtain ((hopener | ⟨-, hclaim⟩) | ⟨-, hingest⟩) := hnode
        · obtain ⟨e, he, heq⟩ := ha path node hkey' hopener
          exact ⟨e, mem_append_left _ he, heq⟩
        · split at hclaim
          · obtain ⟨rfl, rfl⟩ := nodeFor_claimed.mp hclaim
            exact ⟨_, mem_append_right _ (mem_singleton_self _), rfl⟩
          · cases hclaim
        · split at hingest
          · exact ⟨_, mem_append_right _ (mem_singleton_self _), nodeFor_ingested.mp hingest⟩
          · cases hingest

theorem anchored_run (selfPeer : ℤ) (actions : List Action) : (run selfPeer actions).Anchored := by
  induction actions using reverseRecOn with
  | nil => exact nofun
  | append_singleton actions a ih =>
    have hstep : run selfPeer (actions ++ [a]) = (run selfPeer actions).step a := foldl_concat ..
    rw [hstep]
    exact ih.step (valid_run ..) (bound_run ..) a

theorem after_run (selfPeer : ℤ) (actions later : List Action) :
    (run selfPeer actions).after later = run selfPeer (actions ++ later) :=
  (foldl_append ..).symm

theorem opener_after (hnode : opener path h.events = some node) (later : List Action) :
    opener path (h.after later).events = some node :=
  after_induction (P := fun h => opener path h.events = some node) hnode (fun _ _ hn hm => opener_move hm hn) later

theorem mem_log_after {e : PlaneEntry} (he : e ∈ h.log) (later : List Action) : e ∈ (h.after later).log := by
  refine after_induction (P := fun h => e ∈ h.log) he (fun h h' hmem hm => ?_) later
  have hconcat : ∀ event, e ∈ written (h.events ++ [event]) := by
    intro event
    unfold written
    rw [filterMap_append]
    exact mem_append_left _ hmem
  cases hm with
  | registered ns => exact hconcat _
  | claimed path' => exact hconcat _
  | ticked n => exact hmem
  | ingested op hnew => exact hconcat _
  | observed frontier => exact hmem

/-- A plane reports a value that all its entries for the path have. -/
theorem value_of_entries (hv : h.Valid) (hb : h.Bound) (ha : h.Anchored)
    (hkey : ∃ key, NodeKey.new (familyPath ns keySuffix) = .ok key)
    (hnode : opener (familyPath ns keySuffix) h.events = some node)
    (hentries : ∀ e ∈ h.plane.entries.rows, e.key.map NodeKey.path = some (familyPath ns keySuffix) → e.truth = value) :
    h.plane.familyValueLww ns keySuffix = some value := by
  obtain ⟨e, he, hentry⟩ := ha _ node hkey hnode
  obtain ⟨w, hw, -⟩ := hv.latest.le e he
  have hwkey : w.entryKey = e.entryKey := key_of_get? hw
  rw [hentry] at hw hwkey
  rw [familyValueLww_eq, hb.keyToNode, hnode, bind_some, hw, map_some]
  exact congrArg some (hentries w (mem_of_get? hw) (congrArg Prod.snd hwkey))

/-! ### Namespaces -/

theorem toList_familyPath (ns keySuffix : String) :
    (familyPath ns keySuffix).toList = ns.toList ++ '/' :: keySuffix.toList := by
  unfold familyPath
  rw [String.toList_append, String.toList_append, append_assoc]
  rfl

/-- The namespace of a family's path is the family's, unless it has a slash itself. -/
theorem namespaceOf_familyPath (ns keySuffix : String) :
    namespaceOf (familyPath ns keySuffix) = ns ↔ '/' ∉ ns.toList := by
  unfold namespaceOf
  rw [toList_familyPath]
  constructor
  · intro heq hslash
    rw [← heq, String.toList_ofList] at hslash
    simpa using mem_takeWhile_imp hslash
  · intro hslash
    rw [takeWhile_append_of_pos fun c hc => decide_eq_true (ne_of_mem_of_not_mem hc hslash)]
    simp

theorem opener_eq_none {events : List Event} (h : .registered (namespaceOf path) ∉ events) :
    opener path events = none := by
  have hdrop : events.dropWhile (· ≠ .registered (namespaceOf path)) = [] := by
    refine dropWhile_eq_nil_iff.mpr fun event hevent => ?_
    exact decide_eq_true fun heq => h (heq ▸ hevent)
  unfold opener
  rw [hdrop]
  rfl

/-! ### Planes that are brought the same operations -/

/-- A family is registered, and what some entries publish is ingested. -/
def republish (ns : String) (es : List PlaneEntry) : List Action :=
  .registerFamilyLww ns :: es.map fun e => .apply e.toOp

theorem mem_log_republish {es : List PlaneEntry}
    (hunique : ∀ e ∈ es, ∀ e' ∈ es, e.node = e'.node → e.stamp = e'.stamp → e = e') (ns : String) (e : PlaneEntry) :
    e ∈ (run 0 (republish ns es)).log ↔ e ∈ es := by
  have hcalls : republish ns es =
      (Delivery.registerFamilyLww ns :: es.map fun e => Delivery.apply e.toOp).map Delivery.call := by
    unfold republish
    rw [map_cons, List.map_map]
    rfl
  rw [hcalls]
  obtain ⟨happlied, hlog⟩ := log_run 0 (.registerFamilyLww ns :: es.map fun e => .apply e.toOp)
  have hmem : ∀ e ∈ (run 0 ((Delivery.registerFamilyLww ns :: es.map fun e => Delivery.apply e.toOp).map
      Delivery.call)).log, e ∈ es := by
    intro e he
    obtain ⟨d, hd, op, hop, rfl⟩ := hlog e he
    obtain rfl | hd := mem_cons.mp hd
    · cases hop
    · obtain ⟨e', he', rfl⟩ := List.mem_map.mp hd
      obtain rfl := mem_singleton.mp hop
      exact he'
  refine ⟨hmem e, fun he => ?_⟩
  have hdelivered := happlied e.toOp ⟨.apply e.toOp, mem_cons_of_mem _ (List.mem_map_of_mem he), mem_singleton_self _⟩
  obtain ⟨e', he', hnode, hstamp⟩ := ((valid_run 0 _).applied _ _).mp hdelivered
  rwa [← hunique e' (hmem e' he') e he hnode hstamp]

theorem registered_republish {ns ns' : String} {es : List PlaneEntry}
    (h : .registered ns' ∈ (run 0 (republish ns es)).events) : ns' = ns := by
  induction es using reverseRecOn with
  | nil => simpa [republish, run, History.step] using h
  | append_singleton es e ih =>
    have hrun : run 0 (republish ns (es ++ [e])) = (run 0 (republish ns es)).apply e.toOp := by
      unfold republish run
      rw [map_append, ← cons_append, foldl_append]
      rfl
    rw [hrun] at h
    unfold History.apply at h
    dsimp only at h
    split at h
    · refine ih ((mem_append.mp h).resolve_right fun hmem => ?_)
      cases mem_singleton.mp hmem
    · exact ih h

/-- The path is bound to the node of the operation that comes first. -/
theorem opener_republish {e : PlaneEntry} (es : List PlaneEntry) (hns : namespaceOf path = ns)
    (hpath : e.key.map NodeKey.path = some path) :
    opener path (run 0 (republish ns (e :: es))).events = some e.node := by
  have hfirst : opener path (run 0 (republish ns [e])).events = some e.node := by
    show opener path [.registered ns, .ingested e] = some e.node
    unfold opener
    rw [dropWhile_cons_of_neg (by simp [hns])]
    rw [findSome?_cons, findSome?_cons]
    simp [nodeFor, hpath]
  exact opener_after hfirst (es.map fun e => .apply e.toOp)

/-! ### Reading back -/

/-- If the write prevails, everything that the plane then holds for the path has the value. -/
theorem truth_of_prevails (hv : h.Valid) (hp : h.plane.Prevails ns keySuffix value now)
    (hfresh : ((writeOp h.plane ns keySuffix value now).node, h.plane.nextStamp now) ∉ h.plane.applied) {e : PlaneEntry}
    (he : e ∈ (h.afterWrite ns keySuffix value now).plane.entries.rows)
    (hpath : e.key.map NodeKey.path = some (familyPath ns keySuffix)) : e.truth = value := by
  rw [entries_afterWrite hfresh] at he
  obtain ⟨rfl, -⟩ | ⟨hold, hle⟩ := mem_keepLater_iff.mp he
  · exact truth_writeOp ..
  obtain htruth | ⟨hbound, hlt⟩ := hp.entries e hold hpath
  · exact htruth
  -- an entry with a smaller stamp under this node has been replaced
  · obtain hnode | ⟨hnone, -⟩ := node_writeOp hv ns keySuffix value now
    · have hkey : e.entryKey = (writeOp h.plane ns keySuffix value now).entry.entryKey := by
        have hsame := some.inj (hbound.symm.trans hnode)
        unfold PlaneEntry.entryKey
        rw [hpath, hsame]
        rfl
      have hstamp := hle hkey
      replace hstamp : (writeOp h.plane ns keySuffix value now).stamp ≤ e.stamp := hstamp
      rw [stamp_writeOp] at hstamp
      exact absurd hlt (not_lt.mpr hstamp)
    · cases hbound.symm.trans hnone

theorem node_fresh (hv : h.Valid) (hp : h.plane.Prevails ns keySuffix value now) :
    ((writeOp h.plane ns keySuffix value now).node, h.plane.nextStamp now) ∉ h.plane.applied := by
  obtain hnode | ⟨-, -, hfresh⟩ := node_writeOp hv ns keySuffix value now
  · exact hp.fresh _ hnode
  · exact hfresh

/-- A path of a registered family is bound after a write. -/
theorem opener_afterWrite (hns : .registered (namespaceOf (familyPath ns keySuffix)) ∈ h.events)
    (hfresh : ((writeOp h.plane ns keySuffix value now).node, h.plane.nextStamp now) ∉ h.plane.applied) :
    ∃ node, opener (familyPath ns keySuffix)
      (h.afterWrite ns keySuffix value now).events = some node := by
  rw [events_afterWrite hfresh, opener_concat, opener_concat, if_pos hns, nodeFor_claimed.mpr ⟨rfl, rfl⟩]
  cases opener (familyPath ns keySuffix) h.events with
  | none => exact ⟨_, rfl⟩
  | some node => exact ⟨node, rfl⟩

/-- A plane with the same operations for the path, and with the path bound, reports the value. -/
theorem value_of_prevails (hv : h.Valid) (hp : h.plane.Prevails ns keySuffix value now)
    (hvalid : (h.step (.familySetLww ns keySuffix value now)).Valid) (hv' : h'.Valid) (hb' : h'.Bound)
    (ha' : h'.Anchored) (hbound : ∃ node, opener (familyPath ns keySuffix) h'.events = some node)
    (hsame : ∀ e, e.key.map NodeKey.path = some (familyPath ns keySuffix) →
      (e ∈ h'.log ↔ e ∈ (h.step (.familySetLww ns keySuffix value now)).log)) :
    h'.plane.familyValueLww ns keySuffix = some value := by
  obtain ⟨key, hkey⟩ := hp.key_ok
  obtain ⟨node, hnode⟩ := hbound
  refine value_of_entries hv' hb' ha' ⟨key, hkey⟩ hnode fun e he hpath => ?_
  have hget : _ = h'.plane.entries.get? e.entryKey := get?_congr hvalid hv' fun e' hentry =>
    (hsame e' ((congrArg Prod.snd hentry).trans hpath)).symm
  rw [get?_of_mem he] at hget
  refine truth_of_prevails hv hp (node_fresh hv hp) ?_ hpath
  rw [← step_familySetLww hkey]
  exact mem_of_get? hget

/-- A path of which there is an operation is bound, if its family has been registered at the beginning. -/
theorem opener_of_mem_log (hns : namespaceOf path = ns) {peer : ℤ} {actions : List Action} {e : PlaneEntry}
    (he : e ∈ (run peer (.registerFamilyLww ns :: actions)).log) (hpath : e.key.map NodeKey.path = some path) :
    ∃ node, opener path (run peer (.registerFamilyLww ns :: actions)).events = some node := by
  subst hns
  have hinv := after_induction (h := run peer [.registerFamilyLww (namespaceOf path)])
    (P := fun h => .registered (namespaceOf path) ∈ h.events ∧
      ∀ e ∈ h.log, e.key.map NodeKey.path = some path → ∃ node, opener path h.events = some node)
    ⟨mem_singleton_self _, nofun⟩ ?_ actions
  · exact hinv.2 e he hpath
  rintro h h' ⟨hregistered, hlog⟩ hm
  have hkeep : ∀ event, ∀ e ∈ h.log, e.key.map NodeKey.path = some path →
      ∃ node, opener path (h.events ++ [event]) = some node := by
    intro event e he hpath
    obtain ⟨node, hnode⟩ := hlog e he hpath
    exact ⟨node, by rw [opener_concat, hnode, some_or]⟩
  cases hm with
  | registered ns =>
    refine ⟨mem_append_left _ hregistered, fun e he => hkeep _ e ?_⟩
    unfold log at he
    rwa [written_registered] at he
  | claimed path' =>
    refine ⟨mem_append_left _ hregistered, fun e he => hkeep _ e ?_⟩
    unfold log at he
    rwa [written_claimed] at he
  | ticked n => exact ⟨hregistered, hlog⟩
  | ingested op hnew =>
    refine ⟨mem_append_left _ hregistered, fun e he hpath => ?_⟩
    unfold log at he
    rw [written_ingested] at he
    obtain he | he := mem_append.mp he
    · exact hkeep _ e he hpath
    · obtain rfl := mem_singleton.mp he
      have hnode : nodeFor path (.ingested op.entry) = some op.entry.node := nodeFor_ingested.mpr (by
        unfold PlaneEntry.entryKey
        rw [hpath])
      dsimp only
      rw [opener_concat, if_pos hregistered, hnode]
      cases opener path h.events with
      | none => exact ⟨_, rfl⟩
      | some node => exact ⟨node, rfl⟩
  | observed frontier => exact ⟨hregistered, hlog⟩

end History

open History

variable {selfPeer : ℤ} {actions : List Action} {ns keySuffix : String} {value : Bool} {now : ℤ}

theorem run_concat (selfPeer : ℤ) (actions : List Action) (a : Action) :
    run selfPeer (actions ++ [a]) = (run selfPeer actions).step a :=
  foldl_concat ..

/-- A write that prevails is read back and spreads. -/
theorem readsBack_of_prevails (hregistered : .registered ns ∈ (run selfPeer actions).events)
    (hp : (run selfPeer actions).plane.Prevails ns keySuffix value now) :
    (run selfPeer actions).ReadsBack ns keySuffix value now ∧
    (run selfPeer actions).Spreads ns keySuffix value now := by
  obtain ⟨key, hkey⟩ := hp.key_ok
  have hv := valid_run selfPeer actions
  have hfresh := node_fresh hv hp
  have hnamespace := (namespaceOf_familyPath ns keySuffix).mpr hp.ns_ok
  have hstep : (run selfPeer actions).step (.familySetLww ns keySuffix value now) =
      (run selfPeer actions).afterWrite ns keySuffix value now := step_familySetLww hkey
  have hvalid := valid_run selfPeer (actions ++ [.familySetLww ns keySuffix value now])
  rw [run_concat] at hvalid
  constructor
  · intro later hlater
    have hlater_run := after_run selfPeer (actions ++ [.familySetLww ns keySuffix value now]) later
    rw [run_concat] at hlater_run
    obtain ⟨node, hnode⟩ := opener_afterWrite (by rwa [hnamespace]) hfresh
    have hbound := opener_after hnode later
    rw [← hstep, hlater_run] at hbound
    rw [hlater_run] at hlater ⊢
    refine value_of_prevails hv hp hvalid (valid_run ..) (bound_run ..)
      (anchored_run _ _) ⟨node, hbound⟩ fun e hpath => ?_
    refine ⟨fun he => hlater e he hpath, fun he => ?_⟩
    rw [← hlater_run]
    exact mem_log_after he later
  · refine ⟨writeOp (run selfPeer actions).plane ns keySuffix value now, ?_, fun peer actions' hsame => ?_⟩
    · rw [familySetLww_fst hkey, if_neg hfresh]
    · have hlog : ((run selfPeer actions).step (.familySetLww ns keySuffix value now)).log =
          (run selfPeer actions).log ++ [(writeOp (run selfPeer actions).plane ns keySuffix value now).entry] := by
        rw [hstep, log_afterWrite hfresh]
      have hbound := opener_of_mem_log hnamespace ((hsame _).mpr (.inr rfl)) rfl
      refine value_of_prevails hv hp hvalid (valid_run ..) (bound_run ..) (anchored_run _ _) hbound fun e _ => ?_
      rw [hsame, hlog, mem_append, mem_singleton]

/-! ### What a write that does not prevail meets -/

namespace History

variable {h : History} {e : PlaneEntry}

/-- A value is that of the entry under the node that the path is bound to. -/
theorem value_of_entry (hb : h.Bound) (he : e ∈ h.plane.entries.rows)
    (hpath : e.key.map NodeKey.path = some (familyPath ns keySuffix))
    (hnode : opener (familyPath ns keySuffix) h.events = some e.node) :
    h.plane.familyValueLww ns keySuffix = some e.truth := by
  have hentry : e.entryKey = (e.node, some (familyPath ns keySuffix)) := congrArg (e.node, ·) hpath
  rw [familyValueLww_eq, hb.keyToNode, hnode, bind_some, ← hentry, get?_of_mem he]
  rfl

section Fresh

variable (hfresh : ((writeOp h.plane ns keySuffix value now).node, h.plane.nextStamp now) ∉ h.plane.applied)

include hfresh

/-- The write leaves an entry where it is, unless it has the same node and key and a greater stamp. -/
theorem mem_rows_afterWrite (he : e ∈ h.plane.entries.rows)
    (hle : e.entryKey = (writeOp h.plane ns keySuffix value now).entry.entryKey → h.plane.nextStamp now ≤ e.stamp) :
    e ∈ (h.afterWrite ns keySuffix value now).plane.entries.rows := by
  rw [entries_afterWrite hfresh]
  refine mem_keepLater_iff.mpr (.inr ⟨he, fun hkey => ?_⟩)
  rw [← stamp_writeOp h.plane ns keySuffix value now] at hle
  exact hle hkey

/-- An entry that is bound and not earlier than the write is what is reported. -/
theorem truth_of_bound (hb : h.Bound) (hb' : (h.afterWrite ns keySuffix value now).Bound)
    (hnow : (h.afterWrite ns keySuffix value now).plane.familyValueLww ns keySuffix = some value)
    (he : e ∈ h.plane.entries.rows) (hpath : e.key.map NodeKey.path = some (familyPath ns keySuffix))
    (hnode : h.plane.boundNode (familyPath ns keySuffix) = some e.node) (hle : h.plane.nextStamp now ≤ e.stamp) :
    e.truth = value := by
  have hopener : opener (familyPath ns keySuffix) h.events = some e.node := (hb.keyToNode _).symm.trans hnode
  have hvalue := value_of_entry hb' (mem_rows_afterWrite hfresh he fun _ => hle) hpath (by
    rw [events_afterWrite hfresh, opener_concat, opener_concat, hopener, some_or, some_or])
  exact some.inj (hvalue.symm.trans hnow)

/-- The write does not touch an entry under a node that the path is not bound to. -/
theorem mem_rows_of_not_bound (hv : h.Valid) (he : e ∈ h.plane.entries.rows)
    (hnode : h.plane.boundNode (familyPath ns keySuffix) ≠ some e.node) :
    e ∈ (h.afterWrite ns keySuffix value now).plane.entries.rows := by
  refine mem_rows_afterWrite hfresh he fun hkey => ?_
  have hsame : e.node = (writeOp h.plane ns keySuffix value now).node := congrArg Prod.fst hkey
  obtain hbound | ⟨-, hnew, -⟩ := node_writeOp hv ns keySuffix value now
  · exact absurd (hsame ▸ hbound) hnode
  · exact absurd (List.mem_map.mpr ⟨e, he, hsame⟩) hnew

end Fresh

/-- A plane that is brought what another one has, with an entry that it has for the path first, reports the value of
this entry. -/
theorem value_republish {h' : History} (hv : h'.Valid) (hns : '/' ∉ ns.toList) (he : e ∈ h'.plane.entries.rows)
    (hpath : e.key.map NodeKey.path = some (familyPath ns keySuffix))
    (hlog : ∀ e', e' ∈ (run 0 (republish ns (e :: h'.log))).log ↔ e' ∈ h'.log) :
    (run 0 (republish ns (e :: h'.log))).plane.familyValueLww ns keySuffix = some e.truth := by
  have hnode := opener_republish h'.log ((namespaceOf_familyPath ns keySuffix).mpr hns) hpath
  have hget : (run 0 (republish ns (e :: h'.log))).plane.entries.get? e.entryKey = h'.plane.entries.get? e.entryKey :=
    get?_congr (valid_run 0 _) hv fun e' _ => hlog e'
  rw [get?_of_mem he] at hget
  exact value_of_entry (bound_run 0 _) (mem_of_get? hget) hpath hnode

end History

/-- What stands in the way of a write keeps it from being read back or from spreading. -/
theorem prevails_of_readsBack (hback : (run selfPeer actions).ReadsBack ns keySuffix value now)
    (hspreads : (run selfPeer actions).Spreads ns keySuffix value now) :
    (run selfPeer actions).plane.Prevails ns keySuffix value now := by
  have hv := valid_run selfPeer actions
  have hb := bound_run selfPeer actions
  have hv' := valid_run selfPeer (actions ++ [.familySetLww ns keySuffix value now])
  have hb' := bound_run selfPeer (actions ++ [.familySetLww ns keySuffix value now])
  have hnow : (run selfPeer (actions ++ [.familySetLww ns keySuffix value now])).plane.familyValueLww ns keySuffix =
      some value := by
    rw [run_concat]
    exact hback [] fun e he _ => he
  rw [run_concat] at hv' hb' hnow
  obtain ⟨op, hop, hall⟩ := hspreads
  cases hkey : NodeKey.new (familyPath ns keySuffix) with
  | error e =>
    unfold familySetLww at hop
    dsimp only at hop
    rw [hkey] at hop
    cases hop
  | ok key =>
    rw [familySetLww_fst hkey] at hop
    rw [step_familySetLww hkey] at hv' hb' hnow
    split at hop
    next => cases hop
    next hfresh =>
    cases hop
    have hlog : ∀ e, e ∈ ((run selfPeer actions).afterWrite ns keySuffix value now).log ↔
      e ∈ (run selfPeer actions).log ∨
        e = (writeOp (run selfPeer actions).plane ns keySuffix value now).entry := by
      intro e
      rw [log_afterWrite hfresh, mem_append, mem_singleton]
    -- the planes that are brought the same operations in some order
    have hplanes : ∀ es, (∀ e, e ∈ es ↔ e ∈ ((run selfPeer actions).afterWrite ns keySuffix value now).log) →
        (∀ e, e ∈ (run 0 (republish ns es)).log ↔ e ∈ es) ∧
          (run 0 (republish ns es)).plane.familyValueLww ns keySuffix = some value := by
      intro es hes
      have hmem := mem_log_republish (fun e he e' he' => hv'.unique e ((hes e).mp he) e' ((hes e').mp he')) ns
      exact ⟨hmem, hall 0 _ fun e => (hmem e).trans ((hes e).trans (hlog e))⟩
    have hns : '/' ∉ ns.toList := by
      intro hslash
      obtain ⟨-, hvalue⟩ := hplanes _ fun e => Iff.rfl
      rw [familyValueLww_eq, (bound_run 0 _).keyToNode, opener_eq_none fun hregistered =>
        (namespaceOf_familyPath ns keySuffix).mp (registered_republish hregistered) hslash] at hvalue
      cases hvalue
    refine ⟨hns, ⟨key, hkey⟩, fun node hnode => ?_, fun e he hpath => ?_⟩
    · obtain hsame | ⟨hnone, -⟩ := node_writeOp hv ns keySuffix value now
      · rwa [some.inj (hnode.symm.trans hsame)]
      · cases hnode.symm.trans hnone
    · by_cases hnode : (run selfPeer actions).plane.boundNode (familyPath ns keySuffix) = some e.node
      · obtain hlt | hle := lt_or_ge e.stamp ((run selfPeer actions).plane.nextStamp now)
        · exact .inr ⟨hnode, hlt⟩
        · exact .inl (truth_of_bound hfresh hb hb' hnow he hpath hnode hle)
      · have hmem := mem_rows_of_not_bound hfresh hv he hnode
        have hold : e ∈ ((run selfPeer actions).afterWrite ns keySuffix value now).log :=
          hv'.latest.mem _ e (get?_of_mem hmem)
        obtain ⟨hsame, hvalue⟩ := hplanes (e :: ((run selfPeer actions).afterWrite ns keySuffix value now).log)
          fun e' => ⟨fun he' => (mem_cons.mp he').elim (fun heq => heq ▸ hold) id, mem_cons_of_mem e⟩
        refine .inl (some.inj ((value_republish hv' hns hmem hpath fun e' => (hsame e').trans ?_).symm.trans hvalue))
        exact ⟨fun he' => (mem_cons.mp he').elim (fun heq => heq ▸ hold) id, mem_cons_of_mem e⟩

/-- A write of a registered family is read back, and spreads, if and only if it prevails. -/
theorem family_write_iff (hregistered : .registered ns ∈ (run selfPeer actions).events) :
    ((run selfPeer actions).ReadsBack ns keySuffix value now ∧ (run selfPeer actions).Spreads ns keySuffix value now) ↔
      (run selfPeer actions).plane.Prevails ns keySuffix value now :=
  ⟨fun h => prevails_of_readsBack h.1 h.2, readsBack_of_prevails hregistered⟩

def remoteOp (wall : ℤ) : CrdtOp :=
  ⟨7, some ⟨"live/k"⟩, ⟨wall, 1, 2⟩, .inline [1]⟩

/-- A write at 10 over an operation at 5. -/
theorem family_write_later : (run 1 [.registerFamilyLww "live", .apply (remoteOp 5)]).ReadsBack "live" "k" false 10 ∧
      (run 1 [.registerFamilyLww "live", .apply (remoteOp 5)]).Spreads "live" "k" false 10 := by
  refine (family_write_iff (mem_cons_self ..)).mpr ⟨by decide, ⟨⟨"live/k"⟩, by decide⟩, ?_, by decide⟩
  rintro node ⟨⟩
  decide

def Action.ops : Action → List CrdtOp
  | .apply op => [op]
  | .applyOps ops => ops
  | .applyFrame frame => frame.ops
  | .registerFamilyLww _ => []
  | .familySetLww _ _ _ _ => []

def Action.localTime : Action → Option ℤ
  | .familySetLww _ _ _ now => some now
  | _ => none

/-- A write at 10 over an operation at 20. -/
theorem family_write_overruled : ¬ ∀ (selfPeer : ℤ) (actions : List Action) (ns keySuffix : String) (value : Bool)
    (now : ℤ), .registered ns ∈ (run selfPeer actions).events →
      (∀ a ∈ actions, ∀ op ∈ a.ops, op.stamp.peer ≠ selfPeer) →
      (actions.filterMap Action.localTime ++ [now]).Pairwise (· ≤ ·) →
      (run selfPeer actions).ReadsBack ns keySuffix value now ∧
        (run selfPeer actions).Spreads ns keySuffix value now := by
  intro h
  obtain ⟨hback, -⟩ := h 1 [.registerFamilyLww "live", .apply (remoteOp 20)] "live" "k" false 10 (mem_cons_self ..)
    (by decide) (by decide)
  have hvalue := hback [] fun e he _ => he
  revert hvalue
  decide

/-- A path that is bound to a node stays bound to it, whatever is registered, written or ingested later. -/
theorem boundNode_persists {path : String} {node : ℤ} (h : (run selfPeer actions).plane.boundNode path = some node)
    (later : List Action) : (run selfPeer (actions ++ later)).plane.boundNode path = some node := by
  have hopener : opener path (run selfPeer actions).events = some node :=
    ((bound_run selfPeer actions).keyToNode path).symm.trans h
  have hlater := opener_after hopener later
  rw [after_run] at hlater
  exact ((bound_run selfPeer (actions ++ later)).keyToNode path).trans hlater

/-- A later operation for the same key under another node does not move it. -/
theorem boundNode_persists_rival : (run 1 [.registerFamilyLww "live", .apply (remoteOp 5),
    .apply { remoteOp 20 with node := 8 }]).plane.boundNode "live/k" = some 7 :=
  @boundNode_persists 1 [.registerFamilyLww "live", .apply (remoteOp 5)] "live/k" 7 (by decide) [_]

end LazilyPy.Plane

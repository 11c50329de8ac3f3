import LazilyPy.Lib.Throughout
import LazilyPy.Sequence.SeqCrdt

/-!
# Replicas of a sequence

Any number of replicas that edit their sequences and merge one another, and whether a copy of older state can
undo a local operation.
-/

namespace LazilyPy.Sequence

open List Option Function

variable {V : Type}

namespace SeqCrdt

structure Valid (s : SeqCrdt V) : Prop where
  passed : ∀ id e, s.get? id = some e → ∀ r, s.clock.Passed (e.stamp r)
  started : s.clock.Passed zeroStamp
  tombstoned : ∀ id e, s.get? id = some e → e.Tombstoned

theorem get?_new (peer : ℤ) (id : String) : ({ peer } : SeqCrdt V).get? id = none :=
  rfl

theorem valid_new (peer : ℤ) : ({ peer } : SeqCrdt V).Valid where
  passed id e he := by simp [get?_new] at he
  started := by
    show (0 : ℤ) < 0 ∨ (0 : ℤ) = 0 ∧ (0 : ℤ) ≤ 0
    omega
  tombstoned id e he := by simp [get?_new] at he

def place (now : ℤ) (e : SeqElement V) (s : SeqCrdt V) : SeqCrdt V :=
  { s with clock := s.clock.send now, elements := s.elements.put e }

def nextStamp (now : ℤ) (s : SeqCrdt V) : Stamp :=
  (s.clock.send now).stamp s.peer

/-- The stamps that a local operation has minted, judging by the clock. -/
def minted (s : SeqCrdt V) (op : LocalOp V) : List Stamp :=
  if (s.perform op).clock = s.clock then [] else [(s.perform op).clock.stamp s.peer]

/-- The element that a local operation puts somewhere, with the key of its place. -/
def placed? (s : SeqCrdt V) : LocalOp V → Option (String × List ℕ)
  | .insertBack id _ _ => some (id, s.backFrac)
  | .insertFront id _ _ => some (id, s.frontFrac)
  | .moveAfter id anchor _ => (s.afterFrac anchor).map (id, ·)
  | .setValue _ _ _ | .remove _ _ => none

/-- The operation inserts an element that the replica holds as removed. -/
def Reinserts (s : SeqCrdt V) : LocalOp V → Prop
  | .insertBack id _ _ | .insertFront id _ _ => ∃ e, s.get? id = some e ∧ e.deleted = true
  | _ => False

/-- What a local operation writes: each register is stamped anew, kept, or an untouched tombstone. -/
structure Rewrites (s : SeqCrdt V) (op : LocalOp V) (now : ℤ) (e' : SeqElement V) : Prop where
  minted : ∃ r, e'.stamp r = s.nextStamp now
  registers : ∀ r, e'.stamp r = s.nextStamp now ∨ (∃ e, s.get? e'.id = some e ∧ e'.stamp r = e.stamp r ∧ e'.Same e r) ∨
    r = .deleted ∧ e'.deletedStamp = zeroStamp
  tombstoned : e'.Tombstoned
  placed : e'.positionStamp = s.nextStamp now → ∃ frac, s.placed? op = some (e'.id, frac) ∧ e'.position = ⟨frac, s.peer⟩
  revived : s.Reinserts op ↔ ∃ e, s.get? e'.id = some e ∧ e.deleted = true ∧ e'.deleted = false

theorem get?_place (now : ℤ) (e : SeqElement V) (s : SeqCrdt V) (id : String) :
    (s.place now e).get? id = if id = e.id then some e else s.get? id :=
  Table.get?_put _ _ _

section Perform

variable {s : SeqCrdt V}

variable {e e' : SeqElement V} {op : LocalOp V}

/-- The stamp that is minted next is later than everything that the replica holds. -/
theorem Valid.lt_nextStamp (hv : s.Valid) {id : String} (he : s.get? id = some e) (r : Register) (now : ℤ) :
    e.stamp r < s.nextStamp now :=
  (hv.passed id e he r).lt_send now s.peer

theorem Valid.zero_lt_nextStamp (hv : s.Valid) (now : ℤ) : zeroStamp < s.nextStamp now :=
  hv.started.lt_send now s.peer

/-- A write that leaves the replica as it is mints nothing; any other one mints the next stamp. -/
theorem minted_of_eq (h : s.perform op = s) : s.minted op = [] := by
  unfold minted
  rw [h, if_pos rfl]

theorem minted_of_place {now : ℤ} (h : s.perform op = s.place now e') : s.minted op = [s.nextStamp now] := by
  have hne : s.clock.send now ≠ s.clock := by
    intro heq
    have hlt := (s.clock.passed_send now s.peer).lt_send now s.peer
    rw [heq, heq] at hlt
    exact lt_irrefl _ hlt
  unfold minted
  rw [h]
  exact if_neg hne

theorem rewrites_insertAt {id : String} {frac : List ℕ} (hplaced : s.placed? op = some (id, frac))
    (hre : s.Reinserts op ↔ ∃ e, s.get? id = some e ∧ e.deleted = true) (value : V) (now : ℤ) :
    s.Rewrites op now { id, value, valueStamp := s.nextStamp now, position := ⟨frac, s.peer⟩,
                        positionStamp := s.nextStamp now } where
  minted := ⟨.value, rfl⟩
  registers r := by
    cases r with
    | value => exact .inl rfl
    | position => exact .inl rfl
    | deleted => exact .inr (.inr ⟨rfl, rfl⟩)
  tombstoned := ⟨by simp, le_rfl⟩
  placed _ := ⟨frac, hplaced, rfl⟩
  revived := by simpa using hre

/-- An element of which one register is written again. -/
theorem rewrites_reassign (hv : s.Valid) {now : ℤ} (he : s.get? e'.id = some e) (r : Register)
    (hr : e'.stamp r = s.nextStamp now) (hkept : ∀ r', r' ≠ r → e'.stamp r' = e.stamp r' ∧ e'.Same e r')
    (hdeleted : r = .deleted → e'.deleted = true)
    (hplaced : r = .position → ∃ frac, s.placed? op = some (e'.id, frac) ∧ e'.position = ⟨frac, s.peer⟩)
    (hre : ¬ s.Reinserts op) : s.Rewrites op now e' where
  minted := ⟨r, hr⟩
  registers r' := by
    by_cases h : r' = r
    · exact .inl (h ▸ hr)
    · exact .inr (.inl ⟨e, he, hkept r' h⟩)
  tombstoned := by
    by_cases h : r = .deleted
    · subst h
      have hlt : zeroStamp < e'.deletedStamp := by
        rw [show e'.deletedStamp = s.nextStamp now from hr]
        exact hv.zero_lt_nextStamp now
      exact ⟨iff_of_true (hdeleted rfl) hlt.ne', hlt.le⟩
    · obtain ⟨hstamp, hsame⟩ := hkept .deleted (Ne.symm h)
      have htomb := hv.tombstoned _ e he
      have hs : e'.deletedStamp = e.deletedStamp := hstamp
      have hd : e'.deleted = e.deleted := hsame
      exact ⟨by rw [hs, hd]; exact htomb.deleted, by rw [hs]; exact htomb.le⟩
  placed hpos := by
    by_cases h : r = .position
    · exact hplaced h
    · have hlt : e.positionStamp < s.nextStamp now := hv.lt_nextStamp he .position now
      have hold : e'.positionStamp = e.positionStamp := (hkept .position (Ne.symm h)).1
      exact absurd (hold.symm.trans hpos) hlt.ne
  revived := by
    refine iff_of_false hre ?_
    rintro ⟨a, ha, hdead, hlive⟩
    obtain rfl : e = a := some.inj (he.symm.trans ha)
    by_cases h : r = .deleted
    · rw [hdeleted h] at hlive
      cases hlive
    · have hd : e'.deleted = e.deleted := (hkept .deleted (Ne.symm h)).2
      rw [hd, hdead] at hlive
      cases hlive

/-- A reassignment finds no element, or writes one. -/
theorem reassign_cases (s : SeqCrdt V) (id : String) (now : ℤ)
    (f : Stamp → SeqElement V → SeqElement V) : s.reassign id now f = s ∨
      ∃ e, s.get? id = some e ∧ s.reassign id now f = s.place now (f (s.nextStamp now) e) := by
  unfold reassign
  split
  · exact .inl rfl
  · next e he => exact .inr ⟨e, he, rfl⟩

/-- A local operation finds nothing to do, or writes one element under a new stamp. -/
theorem perform_cases (hv : s.Valid) (op : LocalOp V) : s.perform op = s ∧ ¬ s.Reinserts op ∨
      ∃ now e', s.perform op = s.place now e' ∧ s.Rewrites op now e' := by
  cases op with
  | insertBack id value now =>
    exact .inr ⟨now, _, rfl, rewrites_insertAt rfl Iff.rfl value now⟩
  | insertFront id value now =>
    exact .inr ⟨now, _, rfl, rewrites_insertAt rfl Iff.rfl value now⟩
  | moveAfter id anchor now =>
    cases hfrac : s.afterFrac anchor with
    | none => exact .inl ⟨by simp [perform, hfrac], fun h => h⟩
    | some frac =>
      simp only [perform, hfrac]
      obtain heq | ⟨e, he, heq⟩ := reassign_cases s id now fun stamp e =>
        if e.positionStamp < stamp then
          { e with position := ⟨frac, s.peer⟩, positionStamp := stamp }
        else e
      · exact .inl ⟨heq, fun h => h⟩
      · have hlt : e.positionStamp < s.nextStamp now := hv.lt_nextStamp he .position now
        have hid : e.id = id := Table.key_of_get? he
        rw [if_pos hlt] at heq
        refine .inr ⟨now, _, heq, rewrites_reassign hv (by rw [← hid] at he; exact he) .position rfl
          ?_ (by simp) (fun _ => ⟨frac, by simp [placed?, hfrac, hid], rfl⟩) fun h => h⟩
        rintro (_ | _ | _) hr
        · exact ⟨rfl, rfl⟩
        · exact absurd rfl hr
        · exact ⟨rfl, rfl⟩
  | setValue id value now =>
    simp only [perform]
    obtain heq | ⟨e, he, heq⟩ := reassign_cases s id now fun stamp e =>
      if e.valueStamp < stamp then { e with value, valueStamp := stamp } else e
    · exact .inl ⟨heq, fun h => h⟩
    · have hlt : e.valueStamp < s.nextStamp now := hv.lt_nextStamp he .value now
      have hid : e.id = id := Table.key_of_get? he
      rw [if_pos hlt] at heq
      refine .inr ⟨now, _, heq, rewrites_reassign hv (by rw [← hid] at he; exact he) .value rfl
        ?_ (by simp) (by simp) fun h => h⟩
      rintro (_ | _ | _) hr
      · exact absurd rfl hr
      · exact ⟨rfl, rfl⟩
      · exact ⟨rfl, rfl⟩
  | remove id now =>
    simp only [perform]
    obtain heq | ⟨e, he, heq⟩ := reassign_cases s id now fun stamp e =>
      if e.deletedStamp < stamp then { e with deleted := true, deletedStamp := stamp } else e
    · exact .inl ⟨heq, fun h => h⟩
    · have hlt : e.deletedStamp < s.nextStamp now := hv.lt_nextStamp he .deleted now
      have hid : e.id = id := Table.key_of_get? he
      rw [if_pos hlt] at heq
      refine .inr ⟨now, _, heq, rewrites_reassign hv (by rw [← hid] at he; exact he) .deleted rfl
        ?_ (fun _ => rfl) (by simp) fun h => h⟩
      rintro (_ | _ | _) hr
      · exact ⟨rfl, rfl⟩
      · exact ⟨rfl, rfl⟩
      · exact absurd rfl hr

/-- A tombstone that has been stamped later is still there. -/
theorem deleted_of_le (he : e.Tombstoned) (he' : e'.Tombstoned) (hle : e.deletedStamp ≤ e'.deletedStamp)
    (hdead : e.deleted = true) : e'.deleted = true := by
  have hlt : zeroStamp < e.deletedStamp := lt_of_le_of_ne he.le (he.deleted.mp hdead).symm
  exact he'.deleted.mpr (hlt.trans_le hle).ne'

/-- A write that does not re-insert moves no register back. -/
theorem Rewrites.le (hv : s.Valid) {now : ℤ} (hw : s.Rewrites op now e') (hre : ¬ s.Reinserts op) :
    s.Le (s.place now e') := by
  intro id e he
  rw [get?_place]
  split
  · next hid =>
    subst hid
    refine ⟨e', rfl, fun r => ?_⟩
    obtain hr | ⟨a, ha, hr, _⟩ | ⟨rfl, hr⟩ := hw.registers r
    · rw [hr]
      exact (hv.lt_nextStamp he r now).le
    · obtain rfl : e = a := some.inj (he.symm.trans ha)
      exact hr.ge
    · -- the tombstone is reset, but there was none
      have hzero : e.deletedStamp = zeroStamp := by
        by_contra hne
        have hdead : e.deleted = true := (hv.tombstoned _ e he).deleted.mpr hne
        have hlive : e'.deleted = false := by
          rw [← Bool.not_eq_true, hw.tombstoned.deleted, not_not]
          exact hr
        exact hre (hw.revived.mpr ⟨e, he, hdead, hlive⟩)
      exact (hzero.trans hr.symm).le
  · exact ⟨e, he, fun _ => le_rfl⟩

/-- A re-insertion loses a tombstone. -/
theorem Rewrites.not_le (hv : s.Valid) {now : ℤ} (hw : s.Rewrites op now e') (hre : s.Reinserts op) :
    ¬ s.Le (s.place now e') := by
  intro hle
  obtain ⟨e, he, hdead, hlive⟩ := hw.revived.mp hre
  obtain ⟨a, ha, hstamp⟩ := hle _ e he
  rw [get?_place, if_pos rfl] at ha
  obtain rfl := some.inj ha
  have hdead' := deleted_of_le (hv.tombstoned _ e he) hw.tombstoned (hstamp .deleted) hdead
  rw [hlive] at hdead'
  cases hdead'

/-- A local operation moves a register back exactly if it re-inserts. -/
theorem le_perform_iff (hv : s.Valid) (op : LocalOp V) : s.Le (s.perform op) ↔ ¬ s.Reinserts op := by
  obtain ⟨heq, hre⟩ | ⟨now, e', heq, hw⟩ := perform_cases hv op
  · rw [heq]
    exact iff_of_true (Le.refl s) hre
  · rw [heq]
    exact ⟨fun hle hre => hw.not_le hv hre hle, hw.le hv⟩

theorem peer_perform (s : SeqCrdt V) (op : LocalOp V) : (s.perform op).peer = s.peer := by
  have hreassign : ∀ id now f, (s.reassign id now f).peer = s.peer := by
    intro id now f
    obtain heq | ⟨e, _, heq⟩ := reassign_cases s id now f
    · rw [heq]
    · rw [heq]
      rfl
  cases op with
  | insertBack id value now => rfl
  | insertFront id value now => rfl
  | moveAfter id anchor now =>
    simp only [perform]
    split
    · rfl
    · exact hreassign _ _ _
  | setValue id value now => exact hreassign _ _ _
  | remove id now => exact hreassign _ _ _

theorem valid_perform (hv : s.Valid) (op : LocalOp V) : (s.perform op).Valid := by
  obtain ⟨heq, _⟩ | ⟨now, e', heq, hw⟩ := perform_cases hv op
  · rw [heq]
    exact hv
  · rw [heq]
    refine ⟨fun id e he r => ?_, hv.started.send now, fun id e he => ?_⟩
    · rw [get?_place] at he
      split at he
      · obtain rfl := some.inj he
        obtain hr | ⟨a, ha, hr, _⟩ | ⟨rfl, hr⟩ := hw.registers r
        · rw [hr]
          exact s.clock.passed_send now s.peer
        · rw [hr]
          exact (hv.passed _ a ha r).send now
        · rw [show e'.stamp .deleted = zeroStamp from hr]
          exact hv.started.send now
      · exact (hv.passed id e he r).send now
    · rw [get?_place] at he
      split at he
      · obtain rfl := some.inj he
        exact hw.tombstoned
      · exact hv.tombstoned id e he

end Perform

section Merge

variable {s t : SeqCrdt V} {now : Option ℤ}

theorem passed_recvAll {l : List (SeqElement V)} {c : SeqClock} {now : ℤ} {st : Stamp}
    (h : c.Passed st ∨ ∃ e ∈ l, ∃ r, e.stamp r = st) :
    (l.foldl (fun c e => c.recv e.maxStamp now) c).Passed st := by
  induction l generalizing c with
  | nil => simpa using h
  | cons a l ih =>
    refine ih ?_
    obtain h | ⟨e, he, r, rfl⟩ := h
    · exact .inl (h.recv _ _)
    · obtain rfl | he := mem_cons.mp he
      · exact .inl ((c.passed_recv e.maxStamp now).of_le (e.stamp_le_maxStamp r))
      · exact .inr ⟨e, he, r, rfl⟩

/-- Each register of a merge is held by one of the two sides. -/
theorem merge_cases (hs : s.Valid) (ht : t.Valid) {id : String} {e : SeqElement V}
    (he : (s.merge t now).2.get? id = some e) (r : Register) :
    (∃ a, s.get? id = some a ∧ e.stamp r = a.stamp r ∧ e.Same a r) ∨
      ∃ a, t.get? id = some a ∧ e.stamp r = a.stamp r ∧ e.Same a r := by
  rw [get?_merge] at he
  cases hto : t.get? id with
  | none =>
    rw [hto] at he
    exact .inl ⟨e, he, rfl, e.same_refl r⟩
  | some o =>
    cases hsa : s.get? id with
    | none =>
      rw [hto, hsa] at he
      obtain rfl : o = e := some.inj he
      exact .inr ⟨o, rfl, rfl, o.same_refl r⟩
    | some a =>
      rw [hto, hsa] at he
      obtain rfl : a.merged o = e := some.inj he
      exact (SeqElement.same_merged (hs.tombstoned id a hsa) (ht.tombstoned id o hto) r).imp
        (fun h => ⟨a, rfl, h⟩) fun h => ⟨o, rfl, h⟩

theorem valid_merge (hs : s.Valid) (ht : t.Valid) (now : Option ℤ) : (s.merge t now).2.Valid := by
  refine ⟨fun id e he r => ?_, passed_recvAll (.inl hs.started), fun id e he => ?_⟩
  · obtain ⟨a, ha, hstamp, _⟩ | ⟨a, ha, hstamp, _⟩ := merge_cases hs ht he r
    · rw [hstamp]
      exact passed_recvAll (.inl (hs.passed id a ha r))
    · exact passed_recvAll (.inr ⟨a, Table.mem_of_get? ha, r, hstamp.symm⟩)
  · have hof : ∀ a : SeqElement V, a.Tombstoned → e.deletedStamp = a.deletedStamp →
        e.deleted = a.deleted → e.Tombstoned := by
      intro a ha hstamp hdeleted
      exact ⟨by rw [hstamp, hdeleted]; exact ha.deleted, by rw [hstamp]; exact ha.le⟩
    obtain ⟨a, ha, hstamp, hsame⟩ | ⟨a, ha, hstamp, hsame⟩ := merge_cases hs ht he .deleted
    · exact hof a (hs.tombstoned id a ha) hstamp hsame
    · exact hof a (ht.tombstoned id a ha) hstamp hsame

end Merge

end SeqCrdt

/-! ## Runs -/

/-- What a replica does: it performs a local operation, or merges another replica. -/
inductive Op (ι V : Type) where
  | perform (i : ι) (op : LocalOp V)
  | merge (i j : ι) (now : Option ℤ)

/-- The replicas, the stamps of the local operations that each of them has, and the states that each of
them has held or merged. -/
structure World (ι V : Type) where
  replica : ι → SeqCrdt V
  seen : ι → List Stamp
  held : ι → List (SeqCrdt V)

namespace World

variable {ι : Type}

def init (peerOf : ι → ℤ) : World ι V where
  replica i := { peer := peerOf i }
  seen _ := []
  held _ := []

/-- The operation inserts an element that its replica holds as removed. -/
def Reinserts (w : World ι V) : Op ι V → Prop
  | .perform i op => (w.replica i).Reinserts op
  | .merge _ _ _ => False

variable [DecidableEq ι]

def step (w : World ι V) : Op ι V → World ι V
  | .perform i op =>
    { replica := update w.replica i ((w.replica i).perform op)
      seen := update w.seen i ((w.replica i).minted op ++ w.seen i)
      held := update w.held i (w.replica i :: w.held i) }
  | .merge i j now =>
    { replica := update w.replica i ((w.replica i).merge (w.replica j) now).2
      seen := update w.seen i (w.seen i ++ w.seen j)
      held := update w.held i
        (w.replica i :: w.replica j :: (w.held i ++ w.held j)) }

def run (peerOf : ι → ℤ) (ops : List (Op ι V)) : World ι V :=
  ops.foldl step (init peerOf)

theorem run_concat (peerOf : ι → ℤ) (ops : List (Op ι V)) (op : Op ι V) :
    run peerOf (ops ++ [op]) = (run peerOf ops).step op := by
  simp [run, foldl_append]

/-- Every replica is valid in every run. -/
theorem valid_run (peerOf : ι → ℤ) (ops : List (Op ι V)) (i : ι) : ((run peerOf ops).replica i).Valid := by
  induction ops using reverseRecOn generalizing i with
  | nil => exact SeqCrdt.valid_new (peerOf i)
  | append_singleton ops op ih =>
    rw [run_concat]
    cases op with
    | perform k op =>
      by_cases hi : i = k
      · subst hi
        simpa [step] using SeqCrdt.valid_perform (ih i) op
      · simpa [step, hi] using ih i
    | merge k j now =>
      by_cases hi : i = k
      · subst hi
        simpa [step] using SeqCrdt.valid_merge (ih i) (ih j) now
      · simpa [step, hi] using ih i

end World

end LazilyPy.Sequence

namespace LazilyPy.Sequence

open List Function

/-! ### Local operations and older state -/

variable {ι V : Type}

/-- Merging `t` into the replica reports no change and makes none. -/
def SeqCrdt.Absorbs (s t : SeqCrdt V) : Prop :=
  ∀ now, (s.merge t now).1 = false ∧ ∀ id, (s.merge t now).2.get? id = s.get? id

theorem SeqCrdt.absorbs_iff {s t : SeqCrdt V} : s.Absorbs t ↔ t.Le s := by
  constructor
  · intro h
    exact SeqCrdt.merge_changed.mp (h none).1
  · intro h now
    exact ⟨SeqCrdt.merge_changed.mpr h, SeqCrdt.get?_merge_of_le h now⟩

namespace World

variable [DecidableEq ι]

/-- After a local operation the replica absorbs every state that it has held or merged. -/
def Inflates (w : World ι V) : Op ι V → Prop
  | .perform i op => ∀ t ∈ (w.step (.perform i op)).held i, ((w.step (.perform i op)).replica i).Absorbs t
  | .merge _ _ _ => True

/-- No replica has moved back behind a state that it has held or merged. -/
def Grown (w : World ι V) : Prop :=
  ∀ i, ∀ t ∈ w.held i, t.Le (w.replica i)

section Step

variable {w : World ι V}

/-- Of a replica that has not moved back, exactly a re-insertion can be undone. -/
theorem inflates_iff_of_grown (hv : ∀ i, (w.replica i).Valid) (hg : w.Grown) (op : Op ι V) :
    w.Inflates op ↔ ¬ w.Reinserts op := by
  cases op with
  | perform i op =>
    have hle := SeqCrdt.le_perform_iff (hv i) op
    have hinfl : w.Inflates (.perform i op) ↔ ∀ t ∈ w.replica i :: w.held i, t.Le ((w.replica i).perform op) := by
      simp only [Inflates, step, update_self, SeqCrdt.absorbs_iff]
    have hre : w.Reinserts (.perform i op) ↔ (w.replica i).Reinserts op := Iff.rfl
    rw [hinfl, hre, ← hle, forall_mem_cons]
    exact ⟨And.left, fun h => ⟨h, fun t ht => (hg i t ht).trans h⟩⟩
  | merge i j now => exact iff_of_true trivial fun h => h

theorem grown_step (hv : ∀ i, (w.replica i).Valid) (hg : w.Grown) {op : Op ι V}
    (hre : ¬ w.Reinserts op) : (w.step op).Grown := by
  intro k t ht
  cases op with
  | perform i op =>
    have hle := (SeqCrdt.le_perform_iff (hv i) op).mpr hre
    by_cases hk : k = i
    · subst hk
      simp only [step, update_self, mem_cons] at ht ⊢
      obtain rfl | ht := ht
      · exact hle
      · exact (hg k t ht).trans hle
    · simp only [step, update_of_ne hk] at ht ⊢
      exact hg k t ht
  | merge i j now =>
    by_cases hk : k = i
    · subst hk
      have hleft := SeqCrdt.le_merge_left (w.replica k) (w.replica j) now
      have hright := SeqCrdt.le_merge_right (w.replica k) (w.replica j) now
      simp only [step, update_self, mem_cons, mem_append] at ht ⊢
      -- the two sides of the merge, and what either has held before
      obtain rfl | rfl | ht | ht := ht
      · exact hleft
      · exact hright
      · exact (hg k t ht).trans hleft
      · exact (hg j t ht).trans hright
    · simp only [step, update_of_ne hk] at ht ⊢
      exact hg k t ht

end Step

/-- A run in which nothing re-inserts moves no replica back. -/
theorem grown_run {peerOf : ι → ℤ} {ops : List (Op ι V)}
    (h : Throughout (fun before op => ¬ (run peerOf before).Reinserts op) ops) :
    (run peerOf ops).Grown := by
  induction ops using reverseRecOn with
  | nil => exact fun i t ht => absurd ht not_mem_nil
  | append_singleton ops op ih =>
    obtain ⟨hbefore, hop⟩ := throughout_concat.mp h
    rw [run_concat]
    exact grown_step (valid_run peerOf ops) (ih hbefore) hop

/-- Every local operation of a run leaves its replica with what absorbs every state that the replica
has held or merged, if and only if no operation inserts an element that its replica holds as removed. -/
theorem inflates_iff (peerOf : ι → ℤ) (ops : List (Op ι V)) :
    Throughout (fun before op => (run peerOf before).Inflates op) ops ↔
      Throughout (fun before op => ¬ (run peerOf before).Reinserts op) ops := by
  induction ops using reverseRecOn with
  | nil => exact iff_of_true throughout_nil throughout_nil
  | append_singleton ops op ih =>
    rw [throughout_concat, throughout_concat, ih]
    refine and_congr_right fun hbefore => ?_
    exact inflates_iff_of_grown (valid_run peerOf ops) (grown_run hbefore) op

/-- Replica 0 inserts an element, removes it and inserts it again. -/
def reinserting : List (Op ℕ ℕ) :=
  [.perform 0 (.insertBack "x" 10 1), .perform 0 (.remove "x" 2), .perform 0 (.insertBack "x" 11 3)]

/-- A copy of the state before the re-insertion removes the element again. -/
theorem reinsertion_undone : ¬ ∀ (peerOf : ℕ → ℤ) (ops : List (Op ℕ ℕ)),
    Throughout (fun before op => (run peerOf before).Inflates op) ops := by
  intro h
  have hinfl := h Int.ofNat reinserting [.perform 0 (.insertBack "x" 10 1), .perform 0 (.remove "x" 2)]
    _ [] rfl
  have hmerge := (hinfl _ mem_cons_self none).1
  revert hmerge
  decide

end World

end LazilyPy.Sequence

import LazilyPy.Sequence.Replicas

/-!
# Convergence of sequences

When replicas with the same local operations hold the same sequence.
-/

namespace LazilyPy.Sequence

open List Option Function

variable {ι V : Type}

/-- The operation puts a live element where the replica holds another live one. -/
def SeqCrdt.Crowds (s : SeqCrdt V) (op : LocalOp V) : Prop :=
  ∃ p ∈ s.placed? op, (∀ e ∈ s.get? p.1, e.deleted = false) ∧
    ∃ f ∈ s.elements.rows, f.id ≠ p.1 ∧ f.deleted = false ∧ f.position = ⟨p.2, s.peer⟩

/-- What is put down without crowding is in a place of its own. -/
theorem SeqCrdt.Rewrites.apart {s : SeqCrdt V} {op : LocalOp V} {now : ℤ}
    {e' : SeqElement V} (hw : s.Rewrites op now e') (hre : ¬ s.Reinserts op)
    (hcrowd : ¬ s.Crowds op) (hs : e'.positionStamp = s.nextStamp now) :
    e'.position.peer = s.peer ∧ (e'.deleted = true ∨ ∀ x e, x ≠ e'.id → s.get? x = some e →
      e.position = e'.position → e.deleted = true) := by
  obtain ⟨frac, hplaced, hpos⟩ := hw.placed hs
  refine ⟨by rw [hpos], ?_⟩
  by_cases hdead : ∃ e, s.get? e'.id = some e ∧ e.deleted = true
  · -- what has gone stays gone when it is moved
    obtain ⟨e, he, hdead⟩ := hdead
    refine .inl ?_
    by_contra hlive
    exact hre (hw.revived.mpr ⟨e, he, hdead, by simpa using hlive⟩)
  · refine .inr fun x e hx he hsame => ?_
    by_contra hlive
    refine hcrowd ⟨_, hplaced, fun a ha => ?_, e, Table.mem_of_get? he, ?_, ?_, ?_⟩
    · by_contra hgone
      exact hdead ⟨a, ha, by simpa using hgone⟩
    · rwa [show e.id = x from Table.key_of_get? he]
    · simpa using hlive
    · rw [hsame, hpos]

namespace World

/-- Replicas that have the same local operations hold the same elements in the same order. -/
def Converges (w : World ι V) : Prop :=
  ∀ i j, (∀ s, s ∈ w.seen i ↔ s ∈ w.seen j) → (w.replica i).order = (w.replica j).order ∧
      ∀ id, (w.replica i).get? id = (w.replica j).get? id

/-- The operation puts a live element where its replica holds another live one. -/
def Crowds (w : World ι V) : Op ι V → Prop
  | .perform i op => (w.replica i).Crowds op
  | .merge _ _ _ => False

/-- What holds while nothing re-inserts or crowds. Whoever has an operation has what it wrote, or
something later; and where two elements meet in one place, whoever has the later one has seen the
other one go. -/
structure Causal (peerOf : ι → ℤ) (w : World ι V) : Prop where
  valid : ∀ i, (w.replica i).Valid
  peer : ∀ i, (w.replica i).peer = peerOf i
  issued : ∀ i, ∀ s ∈ w.seen i, zeroStamp < s ∧ ∃ k, s.peer = peerOf k ∧ s ∈ w.seen k
  covered : ∀ i, ∀ s ∈ w.seen i, ∃ id e r, (w.replica i).get? id = some e ∧ s ≤ e.stamp r
  stamped : ∀ i id e, (w.replica i).get? id = some e →
    ∀ r, e.stamp r ∈ w.seen i ∨ r = .deleted ∧ e.deletedStamp = zeroStamp
  agree : ∀ i j id e f, (w.replica i).get? id = some e → (w.replica j).get? id = some f →
    ∀ r, e.stamp r = f.stamp r → e.Same f r
  owner : ∀ i j x y e f, (w.replica i).get? x = some e → (w.replica j).get? y = some f →
    e.positionStamp = f.positionStamp → x = y
  dominates : ∀ i j id f r, (w.replica j).get? id = some f → f.stamp r ∈ w.seen i →
    ∃ e, (w.replica i).get? id = some e ∧ f.stamp r ≤ e.stamp r
  own : ∀ i id e, (w.replica i).get? id = some e → e.positionStamp.peer = e.position.peer
  apart : ∀ i j x y e f, x ≠ y → (w.replica i).get? x = some e → (w.replica j).get? y = some f →
    e.position = f.position → e.positionStamp < f.positionStamp → f.deleted = true ∨
      ∃ a, (w.replica j).get? x = some a ∧ (a.deleted = true ∨ e.positionStamp < a.positionStamp)

/-! ## What the invariant says -/

section Converge

variable {peerOf : ι → ℤ} {w : World ι V} {i j : ι}

/-- Whoever has the operations of a replica has its elements. -/
theorem Causal.get?_of_seen (hc : w.Causal peerOf) (hseen : ∀ s, s ∈ w.seen i ↔ s ∈ w.seen j)
    {id : String} {e : SeqElement V} (he : (w.replica i).get? id = some e) :
    (w.replica j).get? id = some e := by
  have hvalue : e.valueStamp ∈ w.seen i := (hc.stamped i id e he .value).resolve_right fun h => nomatch h.1
  obtain ⟨f, hf, _⟩ := hc.dominates j i id e .value he ((hseen _).mp hvalue)
  have hle : ∀ {i j : ι} {e f : SeqElement V}, (∀ s, s ∈ w.seen i → s ∈ w.seen j) →
      (w.replica i).get? id = some e → (w.replica j).get? id = some f →
      ∀ r, e.stamp r ≤ f.stamp r := by
    intro i j e f hsub he hf r
    obtain hr | ⟨rfl, hzero⟩ := hc.stamped i id e he r
    · obtain ⟨a, ha, hle⟩ := hc.dominates j i id e r he (hsub _ hr)
      obtain rfl : f = a := some.inj (hf.symm.trans ha)
      exact hle
    · show e.deletedStamp ≤ f.deletedStamp
      rw [hzero]
      exact ((hc.valid j).tombstoned id f hf).le
  have hstamp : ∀ r, e.stamp r = f.stamp r := fun r =>
    (hle (fun s => (hseen s).mp) he hf r).antisymm (hle (fun s => (hseen s).mpr) hf he r)
  have hid : e.id = f.id := (Table.key_of_get? he).trans (Table.key_of_get? hf).symm
  rw [hf, SeqElement.eq_of_same hid hstamp fun r => hc.agree i j id e f he hf r (hstamp r)]

/-- Live elements are in different places. -/
theorem Causal.position_ne (hc : w.Causal peerOf) {x y : String} {e f : SeqElement V} (hne : x ≠ y)
    (he : (w.replica i).get? x = some e) (hf : (w.replica i).get? y = some f)
    (hlive : e.deleted = false) (hlive' : f.deleted = false) : e.position ≠ f.position := by
  -- whichever of the two was placed last, its replica had seen the other one go
  have hlt : ∀ {x y : String} {e f : SeqElement V}, x ≠ y → (w.replica i).get? x = some e →
      (w.replica i).get? y = some f → e.deleted = false → f.deleted = false →
      e.position = f.position → ¬ e.positionStamp < f.positionStamp := by
    intro x y e f hne he hf hlive hlive' hpos hlt
    obtain hdead | ⟨a, ha, hdead | hlater⟩ := hc.apart i i x y e f hne he hf hpos hlt
    · rw [hlive'] at hdead
      cases hdead
    · obtain rfl : e = a := some.inj (he.symm.trans ha)
      rw [hlive] at hdead
      cases hdead
    · obtain rfl : e = a := some.inj (he.symm.trans ha)
      exact lt_irrefl _ hlater
  intro hpos
  obtain hless | heq | hless := lt_trichotomy e.positionStamp f.positionStamp
  · exact hlt hne he hf hlive hlive' hpos hless
  · exact hne (hc.owner i i x y e f he hf heq)
  · exact hlt hne.symm hf he hlive' hlive hpos.symm hless

/-- Under the invariant replicas with the same operations hold the same sequence. -/
theorem converges_of_causal (hc : w.Causal peerOf) : w.Converges := by
  intro i j hseen
  have hget : ∀ id, (w.replica i).get? id = (w.replica j).get? id := by
    intro id
    refine ext fun e => ?_
    exact ⟨hc.get?_of_seen hseen, hc.get?_of_seen fun s => (hseen s).symm⟩
  refine ⟨?_, hget⟩
  have hrows : (w.replica i).elements.rows.Perm (w.replica j).elements.rows := Table.perm_of_get?_eq hget
  -- the same live elements, sorted by keys that differ, are in the same order
  have hperm : (w.replica i).orderedAlive.Perm (w.replica j).orderedAlive := by
    refine (perm_insertionSort _ _).trans (.trans ?_ (perm_insertionSort _ _).symm)
    exact hrows.filter _
  have hsorted : ∀ k, (w.replica k).orderedAlive.Pairwise fun a b => a.position ≤ b.position := by
    intro k
    have htotal : Std.Total fun a b : SeqElement V => a.position ≤ b.position :=
      ⟨fun a b => le_total a.position b.position⟩
    have htrans : IsTrans (SeqElement V) fun a b => a.position ≤ b.position := ⟨fun a b c => le_trans⟩
    exact pairwise_insertionSort _ _
  have hmem : ∀ {k} {e : SeqElement V}, e ∈ (w.replica k).orderedAlive →
      (w.replica k).get? e.id = some e ∧ e.deleted = false := by
    intro k e he
    have he' := (mem_insertionSort _).mp he
    exact ⟨Table.get?_of_mem (mem_filter.mp he').1, by simpa using (mem_filter.mp he').2⟩
  have heq : (w.replica i).orderedAlive = (w.replica j).orderedAlive := by
    refine hperm.eq_of_pairwise (fun a b ha hb hab hba => ?_) (hsorted i) (hsorted j)
    obtain ⟨ha, hlive⟩ := hmem ha
    obtain ⟨hb, hlive'⟩ := hmem hb
    rw [← hget] at hb
    by_cases hid : a.id = b.id
    · rw [hid, hb] at ha
      exact (some.inj ha).symm
    · exact absurd (le_antisymm hab hba) (hc.position_ne hid ha hb hlive hlive')
  unfold SeqCrdt.order
  rw [heq]

end Converge

/-! ## Steps -/

/-- After the step replica `j` has all that replica `i` had before it. -/
structure Feeds (w w' : World ι V) (i j : ι) : Prop where
  le : (w.replica i).Le (w'.replica j)
  seen : ∀ s ∈ w.seen i, s ∈ w'.seen j

/-- What a step does. Each register afterwards is minted by the step, is taken over from a replica, or
is an untouched tombstone; what is minted is new, and is in a place of its own. -/
structure Advance (peerOf : ι → ℤ) (minted : ι → String → Stamp → Prop) (w w' : World ι V) : Prop where
  valid : ∀ j, (w'.replica j).Valid
  peer : ∀ j, (w'.replica j).peer = peerOf j
  keeps : ∀ j, w.Feeds w' j j
  register : ∀ j id f, (w'.replica j).get? id = some f → ∀ r, minted j id (f.stamp r) ∨
    (∃ i a, w.Feeds w' i j ∧ (w.replica i).get? id = some a ∧ f.stamp r = a.stamp r ∧ f.Same a r) ∨
      r = .deleted ∧ f.deletedStamp = zeroStamp
  seen : ∀ j, ∀ s ∈ w'.seen j, (∃ id, minted j id s) ∨ ∃ i, w.Feeds w' i j ∧ s ∈ w.seen i
  fresh : ∀ j id s, minted j id s → s.peer = peerOf j ∧ zeroStamp < s ∧ ∀ t ∈ w.seen j, t < s
  held : ∀ j id s, minted j id s → s ∈ w'.seen j ∧ ∃ e r, (w'.replica j).get? id = some e ∧ e.stamp r = s
  unique : ∀ i j x y s t, minted i x s → minted j y t → i = j ∧ x = y ∧ s = t
  placed : ∀ j id f, (w'.replica j).get? id = some f → minted j id f.positionStamp →
    f.position.peer = peerOf j ∧ (f.deleted = true ∨ ∀ x e, x ≠ id →
      (w.replica j).get? x = some e → e.position = f.position → e.deleted = true)

section Step

variable {peerOf : ι → ℤ} {w w' : World ι V} {minted : ι → String → Stamp → Prop}

/-- What has been seen under a peer has been seen by its replica. -/
theorem Causal.mem_seen_own (hinj : Injective peerOf) (hc : w.Causal peerOf) {i j : ι}
    {s : Stamp} (hs : s ∈ w.seen i) (hpeer : s.peer = peerOf j) : s ∈ w.seen j := by
  obtain ⟨_, k, hk, hmem⟩ := hc.issued i s hs
  rwa [hinj (hk.symm.trans hpeer)] at hmem

variable {id : String} {f : SeqElement V}

/-- Nobody has seen what a step mints before the step. -/
theorem Advance.notMem_seen (hinj : Injective peerOf) (hc : w.Causal peerOf)
    (ha : Advance peerOf minted w w') {i j : ι} {s : Stamp} (h : minted j id s) :
    s ∉ w.seen i := by
  intro hs
  obtain ⟨hpeer, _, hlt⟩ := ha.fresh j id s h
  exact lt_irrefl s (hlt s (hc.mem_seen_own hinj hs hpeer))

/-- No register holds what a step mints before the step. -/
theorem Advance.stamp_ne (hinj : Injective peerOf) (hc : w.Causal peerOf) (ha : Advance peerOf minted w w')
    {i j : ι} {x : String} {a : SeqElement V} (hget : (w.replica i).get? x = some a) (r : Register) :
    ¬ minted j id (a.stamp r) := by
  intro h
  obtain hseen | ⟨rfl, hzero⟩ := hc.stamped i x a hget r
  · exact ha.notMem_seen hinj hc h hseen
  · exact (ha.fresh j id _ h).2.1.ne' hzero

/-- A place is minted by the step, or taken over. -/
theorem Advance.position (ha : Advance peerOf minted w w') {j : ι} (hf : (w'.replica j).get? id = some f) :
    minted j id f.positionStamp ∨ ∃ i a, w.Feeds w' i j ∧ (w.replica i).get? id = some a ∧
        f.positionStamp = a.positionStamp ∧ f.position = a.position := by
  obtain h | h | ⟨h, _⟩ := ha.register j id f hf .position
  · exact .inl h
  · exact .inr h
  · cases h

/-- An element that has gone before the step has gone after it. -/
theorem Advance.deleted (hc : w.Causal peerOf) (ha : Advance peerOf minted w w') {i j : ι} (hfeeds : w.Feeds w' i j)
    {a : SeqElement V} (hget : (w.replica i).get? id = some a) (hf : (w'.replica j).get? id = some f)
    (hdead : a.deleted = true) : f.deleted = true := by
  obtain ⟨b, hb, hle⟩ := hfeeds.le id a hget
  obtain rfl : f = b := some.inj (hf.symm.trans hb)
  exact SeqCrdt.deleted_of_le ((hc.valid i).tombstoned id a hget) ((ha.valid j).tombstoned id f hf) (hle .deleted) hdead

theorem Advance.dominates (hinj : Injective peerOf) (hc : w.Causal peerOf)
    (ha : Advance peerOf minted w w') {i j : ι} {r : Register} (hf : (w'.replica j).get? id = some f)
    (hseen : f.stamp r ∈ w'.seen i) :
    ∃ e, (w'.replica i).get? id = some e ∧ f.stamp r ≤ e.stamp r := by
  obtain hmint | ⟨k, a, _, hget, hstamp, _⟩ | ⟨rfl, hzero⟩ := ha.register j id f hf r
  · obtain ⟨x, hmint'⟩ | ⟨k, _, hs⟩ := ha.seen i _ hseen
    · obtain ⟨rfl, _, _⟩ := ha.unique i j x id _ _ hmint' hmint
      exact ⟨f, hf, le_rfl⟩
    · exact absurd hs (ha.notMem_seen hinj hc hmint)
  · rw [hstamp] at hseen ⊢
    obtain ⟨x, hmint⟩ | ⟨l, hfeeds, hs⟩ := ha.seen i _ hseen
    · exact absurd hmint (ha.stamp_ne hinj hc hget r)
    · obtain ⟨e, he, hle⟩ := hc.dominates l k id a r hget hs
      obtain ⟨e', he', hle'⟩ := hfeeds.le id e he
      exact ⟨e', he', hle.trans (hle' r)⟩
  · obtain ⟨x, hmint⟩ | ⟨l, _, hs⟩ := ha.seen i _ hseen
    · exact absurd hzero (ha.fresh i x _ hmint).2.1.ne'
    · exact absurd hzero (hc.issued l _ hs).1.ne'

theorem Advance.apart (hinj : Injective peerOf) (hc : w.Causal peerOf) (ha : Advance peerOf minted w w')
    {i j : ι} {x y : String} {e : SeqElement V} (hne : x ≠ y) (he : (w'.replica i).get? x = some e)
    (hf : (w'.replica j).get? y = some f) (hpos : e.position = f.position) (hlt : e.positionStamp < f.positionStamp) :
    f.deleted = true ∨ ∃ a, (w'.replica j).get? x = some a ∧
      (a.deleted = true ∨ e.positionStamp < a.positionStamp) := by
  obtain hmint | ⟨k, b, hfeeds, hb, hbstamp, hbpos⟩ := ha.position hf
  · obtain hmint' | ⟨k, a, _, hget, hastamp, hapos⟩ := ha.position he
    · exact absurd (ha.unique i j x y _ _ hmint' hmint).2.1 hne
    · -- the replica that puts `f` there minted the place of `e`, so it still has `x`
      obtain ⟨hpeer, hplaced⟩ := ha.placed j y f hf hmint
      have hseen : a.positionStamp ∈ w.seen k := (hc.stamped k x a hget .position).resolve_right fun h => nomatch h.1
      have hown : a.positionStamp.peer = peerOf j := by
        rw [hc.own k x a hget, ← hapos, hpos, hpeer]
      obtain ⟨b, hb, hle⟩ := hc.dominates j k x a .position hget (hc.mem_seen_own hinj hseen hown)
      obtain ⟨b', hb', hle'⟩ := (ha.keeps j).le x b hb
      obtain hdead | hother := hplaced
      · exact .inl hdead
      · refine .inr ⟨b', hb', ?_⟩
        obtain hlater | heq := hle.lt_or_eq
        · exact .inr (hastamp ▸ hlater.trans_le (hle' .position))
        · have hsame : a.position = b.position := hc.agree k j x a b hget hb .position heq
          have hdead := hother x b hne hb (by rw [← hsame, ← hapos, hpos])
          exact .inl (ha.deleted hc (ha.keeps j) hb hb' hdead)
  · obtain hmint' | ⟨l, a, _, hget, hastamp, hapos⟩ := ha.position he
    · -- what `i` mints is later than the place of `f`, which is its own as well
      obtain ⟨hpeer, _⟩ := ha.placed i x e he hmint'
      have hseen : b.positionStamp ∈ w.seen k := (hc.stamped k y b hb .position).resolve_right fun h => nomatch h.1
      have hown : b.positionStamp.peer = peerOf i := by
        rw [hc.own k y b hb, ← hbpos, ← hpos, hpeer]
      have hless := (ha.fresh i x _ hmint').2.2 _ (hc.mem_seen_own hinj hseen hown)
      rw [hbstamp] at hlt
      exact absurd hlt hless.not_gt
    · rw [hastamp, hbstamp] at hlt
      obtain hdead | ⟨c, hcget, hc'⟩ := hc.apart l k x y a b hne hget hb (by rw [← hapos, hpos, hbpos]) hlt
      · exact .inl (ha.deleted hc hfeeds hb hf hdead)
      · obtain ⟨c', hcget', hle⟩ := hfeeds.le x c hcget
        refine .inr ⟨c', hcget', ?_⟩
        obtain hdead | hlater := hc'
        · exact .inl (ha.deleted hc hfeeds hcget hcget' hdead)
        · rw [hastamp]
          exact .inr (hlater.trans_le (hle .position))

/-- A step keeps the invariant. -/
theorem Causal.advance (hinj : Injective peerOf) (hc : w.Causal peerOf)
    (ha : Advance peerOf minted w w') : w'.Causal peerOf where
  valid := ha.valid
  peer := ha.peer
  issued i s hs := by
    obtain ⟨x, hmint⟩ | ⟨k, _, hs⟩ := ha.seen i s hs
    · obtain ⟨hpeer, hpos, _⟩ := ha.fresh i x s hmint
      exact ⟨hpos, i, hpeer, hs⟩
    · obtain ⟨hpos, l, hpeer, hmem⟩ := hc.issued k s hs
      exact ⟨hpos, l, hpeer, (ha.keeps l).seen s hmem⟩
  covered i s hs := by
    obtain ⟨x, hmint⟩ | ⟨k, hfeeds, hs⟩ := ha.seen i s hs
    · obtain ⟨e, r, he, hr⟩ := (ha.held i x s hmint).2
      exact ⟨x, e, r, he, hr.ge⟩
    · obtain ⟨id, e, r, he, hle⟩ := hc.covered k s hs
      obtain ⟨e', he', hle'⟩ := hfeeds.le id e he
      exact ⟨id, e', r, he', hle.trans (hle' r)⟩
  stamped i id e he r := by
    obtain hmint | ⟨k, a, hfeeds, hget, hstamp, _⟩ | h := ha.register i id e he r
    · exact .inl (ha.held i id _ hmint).1
    · obtain hs | ⟨rfl, hzero⟩ := hc.stamped k id a hget r
      · exact .inl (hstamp ▸ hfeeds.seen _ hs)
      · exact .inr ⟨rfl, hstamp.trans hzero⟩
    · exact .inr h
  agree i j id e f he hf r hr := by
    by_cases hdeleted : r = .deleted
    · subst hdeleted
      have htomb := ((ha.valid i).tombstoned id e he).deleted
      rw [show e.deletedStamp = f.deletedStamp from hr, ← ((ha.valid j).tombstoned id f hf).deleted] at htomb
      exact Bool.eq_iff_iff.mpr htomb
    obtain hmint | ⟨k, a, _, hget, hstamp, hsame⟩ | ⟨h, _⟩ := ha.register i id e he r
    · obtain hmint' | ⟨l, b, _, hb, hstamp', _⟩ | ⟨h, _⟩ := ha.register j id f hf r
      · obtain ⟨rfl, _, _⟩ := ha.unique i j id id _ _ hmint hmint'
        obtain rfl : e = f := some.inj (he.symm.trans hf)
        exact e.same_refl r
      · rw [hr, hstamp'] at hmint
        exact absurd hmint (ha.stamp_ne hinj hc hb r)
      · exact absurd h hdeleted
    · obtain hmint' | ⟨l, b, _, hb, hstamp', hsame'⟩ | ⟨h, _⟩ := ha.register j id f hf r
      · rw [← hr, hstamp] at hmint'
        exact absurd hmint' (ha.stamp_ne hinj hc hget r)
      · have hab := hc.agree k l id a b hget hb r (hstamp.symm.trans (hr.trans hstamp'))
        exact (hsame.trans hab).trans hsame'.symm
      · exact absurd h hdeleted
    · exact absurd h hdeleted
  owner i j x y e f he hf heq := by
    obtain hmint | ⟨k, a, _, hget, hstamp, _⟩ := ha.position he
    · obtain hmint' | ⟨l, b, _, hb, hstamp', _⟩ := ha.position hf
      · exact (ha.unique i j x y _ _ hmint hmint').2.1
      · rw [heq, hstamp'] at hmint
        exact absurd hmint (ha.stamp_ne hinj hc hb .position)
    · obtain hmint' | ⟨l, b, _, hb, hstamp', _⟩ := ha.position hf
      · rw [← heq, hstamp] at hmint'
        exact absurd hmint' (ha.stamp_ne hinj hc hget .position)
      · exact hc.owner k l x y a b hget hb (hstamp.symm.trans (heq.trans hstamp'))
  dominates i j id f r hf hseen := ha.dominates hinj hc hf hseen
  own i id e he := by
    obtain hmint | ⟨k, a, _, hget, hstamp, hpos⟩ := ha.position he
    · rw [(ha.fresh i id _ hmint).1, (ha.placed i id e he hmint).1]
    · rw [hstamp, hpos]
      exact hc.own k id a hget
  apart i j x y e f hne he hf hpos hlt := ha.apart hinj hc hne he hf hpos hlt

/-- The step changes replica `i` alone, which keeps what it has. -/
structure Changes (peerOf : ι → ℤ) (w w' : World ι V) (i : ι) : Prop where
  replica : ∀ k, k ≠ i → w'.replica k = w.replica k
  seen : ∀ k, k ≠ i → w'.seen k = w.seen k
  valid : (w'.replica i).Valid
  peer : (w'.replica i).peer = peerOf i
  feeds : w.Feeds w' i i

theorem Changes.keeps {i : ι} (h : Changes peerOf w w' i) (k : ι) : w.Feeds w' k k := by
  by_cases hk : k = i
  · subst hk
    exact h.feeds
  · exact ⟨(h.replica k hk).symm ▸ SeqCrdt.Le.refl _, fun s hs => by rwa [h.seen k hk]⟩

/-- Where one replica changes, what that replica takes over and mints is all there is to say. -/
theorem Changes.advance {i : ι} (h : Changes peerOf w w' i) (hc : w.Causal peerOf) (mint : String → Stamp → Prop)
    (hregister : ∀ id f, (w'.replica i).get? id = some f → ∀ r, mint id (f.stamp r) ∨
      (∃ k a, w.Feeds w' k i ∧ (w.replica k).get? id = some a ∧ f.stamp r = a.stamp r ∧ f.Same a r) ∨
        r = .deleted ∧ f.deletedStamp = zeroStamp)
    (hseen : ∀ s ∈ w'.seen i, (∃ id, mint id s) ∨ ∃ k, w.Feeds w' k i ∧ s ∈ w.seen k)
    (hfresh : ∀ id s, mint id s → s.peer = peerOf i ∧ zeroStamp < s ∧ ∀ t ∈ w.seen i, t < s)
    (hheld : ∀ id s, mint id s → s ∈ w'.seen i ∧ ∃ e r, (w'.replica i).get? id = some e ∧ e.stamp r = s)
    (hunique : ∀ x y s t, mint x s → mint y t → x = y ∧ s = t)
    (hplaced : ∀ id f, (w'.replica i).get? id = some f → mint id f.positionStamp →
      f.position.peer = peerOf i ∧ (f.deleted = true ∨ ∀ x e, x ≠ id →
        (w.replica i).get? x = some e → e.position = f.position → e.deleted = true)) :
    Advance peerOf (fun k id s => k = i ∧ mint id s) w w' where
  valid k := by
    by_cases hk : k = i
    · exact hk ▸ h.valid
    · exact h.replica k hk ▸ hc.valid k
  peer k := by
    by_cases hk : k = i
    · exact hk ▸ h.peer
    · rw [h.replica k hk, hc.peer]
  keeps := h.keeps
  register k id f hf r := by
    by_cases hk : k = i
    · subst hk
      exact (hregister id f hf r).imp_left fun hmint => ⟨rfl, hmint⟩
    · rw [h.replica k hk] at hf
      exact .inr (.inl ⟨k, f, h.keeps k, hf, rfl, f.same_refl r⟩)
  seen k s hs := by
    by_cases hk : k = i
    · subst hk
      exact (hseen s hs).imp_left fun ⟨id, hmint⟩ => ⟨id, rfl, hmint⟩
    · rw [h.seen k hk] at hs
      exact .inr ⟨k, h.keeps k, hs⟩
  fresh := by
    rintro k id s ⟨rfl, hmint⟩
    exact hfresh id s hmint
  held := by
    rintro k id s ⟨rfl, hmint⟩
    exact hheld id s hmint
  unique := by
    rintro k l x y s t ⟨rfl, hx⟩ ⟨rfl, hy⟩
    exact ⟨rfl, hunique x y s t hx hy⟩
  placed := by
    rintro k id f hf ⟨rfl, hmint⟩
    exact hplaced id f hf hmint

end Step

section Run

variable [DecidableEq ι] {peerOf : ι → ℤ} {w : World ι V}

omit [DecidableEq ι] in
/-- What a replica mints next is later than its operations. -/
theorem Causal.lt_nextStamp (hc : w.Causal peerOf) {i : ι} {s : Stamp} (hs : s ∈ w.seen i) (now : ℤ) :
    s < (w.replica i).nextStamp now := by
  obtain ⟨id, e, r, he, hle⟩ := hc.covered i s hs
  exact hle.trans_lt ((hc.valid i).lt_nextStamp he r now)

theorem changes_merge (hc : w.Causal peerOf) (i j : ι) (now : Option ℤ) :
    Changes peerOf w (w.step (.merge i j now)) i where
  replica k hk := by simp [step, hk]
  seen k hk := by simp [step, hk]
  valid := by simpa [step] using SeqCrdt.valid_merge (hc.valid i) (hc.valid j) now
  peer := by
    rw [← hc.peer i]
    simp [step, SeqCrdt.merge]
  feeds :=
    { le := by simpa [step] using SeqCrdt.le_merge_left _ _ now
      seen := fun s hs => by simp [step, hs] }

/-- A merge takes over, and mints nothing. -/
theorem advance_merge (hc : w.Causal peerOf) (i j : ι) (now : Option ℤ) :
    ∃ minted, Advance peerOf minted w (w.step (.merge i j now)) := by
  have hself : (w.step (.merge i j now)).replica i = ((w.replica i).merge (w.replica j) now).2 := by
    simp [step]
  have hseen : (w.step (.merge i j now)).seen i = w.seen i ++ w.seen j := by
    simp [step]
  have hkeeps := (changes_merge hc i j now).feeds
  have hfeeds : w.Feeds (w.step (.merge i j now)) j i := by
    refine ⟨?_, fun s hs => hseen ▸ mem_append_right _ hs⟩
    rw [hself]
    exact SeqCrdt.le_merge_right _ _ _
  refine ⟨_, (changes_merge hc i j now).advance hc (fun _ _ => False)
    (fun id f hf r => .inr (.inl ?_)) (fun s hs => .inr ?_) (fun _ _ h => h.elim)
    (fun _ _ h => h.elim) (fun _ _ _ _ h => h.elim) fun _ _ _ h => h.elim⟩
  · rw [hself] at hf
    obtain ⟨a, ha⟩ | ⟨a, ha⟩ := SeqCrdt.merge_cases (hc.valid i) (hc.valid j) hf r
    · exact ⟨i, a, hkeeps, ha⟩
    · exact ⟨j, a, hfeeds, ha⟩
  · rw [hseen] at hs
    obtain hs | hs := mem_append.mp hs
    · exact ⟨i, hkeeps, hs⟩
    · exact ⟨j, hfeeds, hs⟩

theorem changes_perform (hc : w.Causal peerOf) (i : ι) (op : LocalOp V) (hre : ¬ (w.replica i).Reinserts op) :
    Changes peerOf w (w.step (.perform i op)) i where
  replica k hk := by simp [step, hk]
  seen k hk := by simp [step, hk]
  valid := by simpa [step] using SeqCrdt.valid_perform (hc.valid i) op
  peer := by simpa [step, SeqCrdt.peer_perform] using hc.peer i
  feeds :=
    { le := by simpa [step] using (SeqCrdt.le_perform_iff (hc.valid i) op).mpr hre
      seen := fun s hs => by simp [step, hs] }

/-- A local operation finds nothing to do, or mints one stamp for one element. -/
theorem advance_perform (hc : w.Causal peerOf) (i : ι) (op : LocalOp V)
    (hre : ¬ (w.replica i).Reinserts op) (hcrowd : ¬ (w.replica i).Crowds op) :
    ∃ minted, Advance peerOf minted w (w.step (.perform i op)) := by
  have hv := hc.valid i
  have hself : (w.step (.perform i op)).replica i = (w.replica i).perform op := by
    simp [step]
  have hseen : (w.step (.perform i op)).seen i = (w.replica i).minted op ++ w.seen i := by
    simp [step]
  have hkeeps := (changes_perform hc i op hre).feeds
  obtain ⟨heq, _⟩ | ⟨now, e', heq, hw⟩ := SeqCrdt.perform_cases hv op
  · -- nothing is written, so nothing is minted
    refine ⟨_, (changes_perform hc i op hre).advance hc (fun _ _ => False)
      (fun id f hf r => .inr (.inl ⟨i, f, hkeeps, ?_, rfl, f.same_refl r⟩))
      (fun s hs => .inr ⟨i, hkeeps, ?_⟩) (fun _ _ h => h.elim) (fun _ _ h => h.elim)
      (fun _ _ _ _ h => h.elim) fun _ _ _ h => h.elim⟩
    · rwa [hself, heq] at hf
    · rwa [hseen, SeqCrdt.minted_of_eq heq] at hs
  · have hminted : (w.replica i).minted op = [(w.replica i).nextStamp now] := SeqCrdt.minted_of_place heq
    have hget : ∀ id, ((w.step (.perform i op)).replica i).get? id =
        if id = e'.id then some e' else (w.replica i).get? id := by
      intro id
      rw [hself, heq, SeqCrdt.get?_place]
    have hnew := (hget e'.id).trans (if_pos rfl)
    -- one element is written, under one new stamp
    refine ⟨_, (changes_perform hc i op hre).advance hc (fun id s => id = e'.id ∧ s = (w.replica i).nextStamp now)
      (fun id f hf r => ?_) (fun s hs => ?_) ?_ ?_ ?_ ?_⟩
    · rw [hget] at hf
      split at hf
      · next hid =>
        obtain rfl := some.inj hf
        obtain hr | ⟨a, ha⟩ | hr := hw.registers r
        · exact .inl ⟨hid, hr⟩
        · exact .inr (.inl ⟨i, a, hkeeps, hid ▸ ha⟩)
        · exact .inr (.inr hr)
      · exact .inr (.inl ⟨i, f, hkeeps, hf, rfl, f.same_refl r⟩)
    · rw [hseen, hminted] at hs
      obtain rfl | hs := mem_cons.mp hs
      · exact .inl ⟨e'.id, rfl, rfl⟩
      · exact .inr ⟨i, hkeeps, hs⟩
    · rintro id s ⟨rfl, rfl⟩
      exact ⟨hc.peer i, hv.zero_lt_nextStamp now, fun t ht => hc.lt_nextStamp ht now⟩
    · rintro id s ⟨rfl, rfl⟩
      obtain ⟨r, hr⟩ := hw.minted
      exact ⟨by simp [hseen, hminted], e', r, hnew, hr⟩
    · rintro x y s t ⟨rfl, rfl⟩ ⟨rfl, rfl⟩
      exact ⟨rfl, rfl⟩
    · rintro id f hf ⟨rfl, hs⟩
      obtain rfl : e' = f := some.inj (hnew.symm.trans hf)
      rw [← hc.peer i]
      exact hw.apart hre hcrowd hs

omit [DecidableEq ι] in
theorem causal_init (peerOf : ι → ℤ) : (init peerOf : World ι V).Causal peerOf := by
  have hnone : ∀ i id e, ((init peerOf : World ι V).replica i).get? id ≠ some e := fun _ _ _ h => some_ne_none _ h.symm
  have hnil : ∀ i s, s ∉ (init peerOf : World ι V).seen i := fun _ _ => not_mem_nil
  exact
    { valid := fun i => ⟨fun id e he => absurd he (hnone i id e), .inr ⟨rfl, le_rfl⟩,
        fun id e he => absurd he (hnone i id e)⟩
      peer := fun _ => rfl
      issued := fun i s hs => absurd hs (hnil i s)
      covered := fun i s hs => absurd hs (hnil i s)
      stamped := fun i id e he => absurd he (hnone i id e)
      agree := fun i _ id e _ he => absurd he (hnone i id e)
      owner := fun i _ x _ e _ he => absurd he (hnone i x e)
      dominates := fun _ j id f _ hf => absurd hf (hnone j id f)
      own := fun i id e he => absurd he (hnone i id e)
      apart := fun i _ x _ e _ _ he => absurd he (hnone i x e) }

/-- What holds in every run in which nothing re-inserts or crowds. -/
theorem causal_run (hinj : Injective peerOf) {ops : List (Op ι V)}
    (h : Throughout (fun before op => ¬ (run peerOf before).Reinserts op ∧
      ¬ (run peerOf before).Crowds op) ops) : (run peerOf ops).Causal peerOf := by
  induction ops using reverseRecOn with
  | nil => exact causal_init peerOf
  | append_singleton ops op ih =>
    obtain ⟨hbefore, hre, hcrowd⟩ := throughout_concat.mp h
    have hc := ih hbefore
    rw [run_concat]
    cases op with
    | perform i op =>
      obtain ⟨minted, ha⟩ := advance_perform hc i op hre hcrowd
      exact hc.advance hinj ha
    | merge i j now =>
      obtain ⟨minted, ha⟩ := advance_merge hc i j now
      exact hc.advance hinj ha

/-- In every run over replicas with distinct peers in which no operation inserts an element that its
replica holds as removed, or puts a live element where its replica holds another live one, replicas
that have the same local operations hold the same elements in the same order. -/
theorem converges_run (hinj : Injective peerOf) {ops : List (Op ι V)}
    (h : Throughout (fun before op => ¬ (run peerOf before).Reinserts op ∧
      ¬ (run peerOf before).Crowds op) ops) : (run peerOf ops).Converges :=
  converges_of_causal (causal_run hinj h)

end Run

/-! ## Runs over two replicas -/

def inserting : List (Op ℕ ℕ) :=
  [.perform 0 (.insertBack "x" 10 1), .perform 1 (.insertFront "y" 11 1), .merge 0 1 none,
    .perform 0 (.remove "y" 2), .merge 1 0 none]

/-- Replica 0 inserts an element that it has removed, while replica 1 has seen the removal. -/
def reviving : List (Op ℕ ℕ) :=
  [.perform 0 (.insertBack "x" 10 1), .perform 0 (.remove "x" 2), .merge 1 0 none,
    .perform 0 (.insertBack "x" 11 3), .merge 1 0 none]

/-- Replica 0 inserts in front until the keys run out and the ninth element has the key of the first.
Replica 1 has had an element of that name before. -/
def crowding : List (Op ℕ ℕ) :=
  .perform 1 (.insertBack "i" 10 0) ::
    (["a", "b", "c", "d", "e", "f", "g", "h", "i"].map fun id => .perform 0 (.insertFront id 10 1)) ++
    [.merge 1 0 none, .merge 0 1 none]

instance (s : SeqCrdt ℕ) : (op : LocalOp ℕ) → Decidable (s.Reinserts op)
  | .insertBack id _ _ | .insertFront id _ _ =>
    inferInstanceAs (Decidable (∃ e ∈ s.get? id, e.deleted = true))
  | .moveAfter _ _ _ | .setValue _ _ _ | .remove _ _ => inferInstanceAs (Decidable False)

instance (s : SeqCrdt ℕ) (op : LocalOp ℕ) : Decidable (s.Crowds op) :=
  inferInstanceAs (Decidable (∃ p ∈ s.placed? op, (∀ e ∈ s.get? p.1, e.deleted = false) ∧
    ∃ f ∈ s.elements.rows, f.id ≠ p.1 ∧ f.deleted = false ∧ f.position = ⟨p.2, s.peer⟩))

instance (w : World ℕ ℕ) : (op : Op ℕ ℕ) → Decidable (w.Reinserts op)
  | .perform i op => inferInstanceAs (Decidable ((w.replica i).Reinserts op))
  | .merge _ _ _ => inferInstanceAs (Decidable False)

instance (w : World ℕ ℕ) : (op : Op ℕ ℕ) → Decidable (w.Crowds op)
  | .perform i op => inferInstanceAs (Decidable ((w.replica i).Crowds op))
  | .merge _ _ _ => inferInstanceAs (Decidable False)

theorem converges_inserting : (run Int.ofNat inserting).Converges :=
  converges_run (fun _ _ => Int.ofNat.inj) (by decide)

theorem not_converges {w : World ℕ ℕ} {i j : ℕ} (hsub : ∀ s ∈ w.seen i, s ∈ w.seen j)
    (hsup : ∀ s ∈ w.seen j, s ∈ w.seen i) (horder : (w.replica i).order ≠ (w.replica j).order) :
    ¬ w.Converges :=
  fun h => horder (h i j fun s => ⟨hsub s, hsup s⟩).1

/-- Neither condition can be left out. -/
theorem not_always_converges : (¬ ∀ (peerOf : ℕ → ℤ) (ops : List (Op ℕ ℕ)), Injective peerOf →
      Throughout (fun before op => ¬ (run peerOf before).Crowds op) ops → (run peerOf ops).Converges) ∧
    ¬ ∀ (peerOf : ℕ → ℤ) (ops : List (Op ℕ ℕ)), Injective peerOf →
      Throughout (fun before op => ¬ (run peerOf before).Reinserts op) ops → (run peerOf ops).Converges := by
  constructor
  · intro h
    have hdiv : ¬ (run Int.ofNat reviving).Converges :=
      not_converges (i := 0) (j := 1) (by decide) (by decide) (by decide)
    exact hdiv (h Int.ofNat reviving (fun _ _ => Int.ofNat.inj) (by decide))
  · intro h
    have hdiv : ¬ (run Int.ofNat crowding).Converges :=
      not_converges (i := 0) (j := 1) (by decide) (by decide) (by decide)
    exact hdiv (h Int.ofNat crowding (fun _ _ => Int.ofNat.inj) (by decide))

end World

end LazilyPy.Sequence

import LazilyPy.Lossless.Peers
import LazilyPy.Text.Splice

/-!
# Edits of leaves

An edit replaces a range of bytes of one leaf's text, if the range starts and ends between characters. The operation
that it records makes the same text at every replica that has the same elements in that leaf.
-/

namespace LazilyPy.Lossless

open List Option Function

open Text (TextCrdt TextOp OpId)
open Text.TextCrdt (Counts Edited)

/-! ## Byte offsets -/

def utf8Len (text : List Char) : ℕ :=
  (text.map Char.utf8Size).sum

/-- The first `index` characters end at the byte. -/
def Boundary (text : List Char) (byte : ℤ) (index : ℕ) : Prop :=
  index ≤ text.length ∧ byte = utf8Len (text.take index)

instance (text : List Char) (byte : ℤ) (index : ℕ) : Decidable (Boundary text byte index) :=
  inferInstanceAs (Decidable (_ ∧ _))

theorem byteToChar_eq_some_iff {text : List Char} {byte : ℤ} {index : ℕ} :
    byteToChar text byte = some index ↔ Boundary text byte index := by
  induction text generalizing byte index with
  | nil =>
    rw [byteToChar]
    constructor
    · intro h
      split at h
      · next hzero =>
        obtain rfl := some.inj h
        exact ⟨le_rfl, hzero⟩
      · cases h
    · rintro ⟨hle, hbyte⟩
      obtain rfl := Nat.le_zero.mp hle
      exact if_pos hbyte
  | cons c text ih =>
    have hsize := c.utf8Size_pos
    rw [byteToChar]
    cases index with
    | zero =>
      constructor
      · intro h
        split at h
        · next hzero => exact ⟨Nat.zero_le _, hzero⟩
        · split at h
          · cases h
          · obtain ⟨k, -, hk⟩ := map_eq_some_iff.mp h
            cases hk
      · rintro ⟨-, hbyte⟩
        exact if_pos hbyte
    | succ index =>
      have hlen : (utf8Len ((c :: text).take (index + 1)) : ℤ) = c.utf8Size + utf8Len (text.take index) := by
        rw [take_succ_cons, utf8Len, map_cons, sum_cons, Nat.cast_add]
        rfl
      have hboundary : Boundary (c :: text) byte (index + 1) ↔ Boundary text (byte - c.utf8Size) index := by
        rw [Boundary, Boundary, hlen, length_cons]
        omega
      rw [hboundary, ← ih]
      constructor
      · intro h
        split at h
        · cases h
        · split at h
          · cases h
          · obtain ⟨k, hk, heq⟩ := map_eq_some_iff.mp h
            rwa [Nat.succ.inj heq] at hk
      · intro h
        obtain ⟨-, hbyte⟩ := ih.mp h
        rw [if_neg (by omega), if_neg (by omega), h]
        rfl

namespace LosslessTreeCrdt

variable {s s' u : LosslessTreeCrdt} {node : TreeOpId} {r : NodeRecord} {kind : LeafKind} {t : TextCrdt Char}

/-! ## The text that an edit makes -/

theorem text_deleteRun {start count : ℕ} (hle : start + count ≤ t.text.length) :
    (deleteRun t start count).text = t.text.take start ++ t.text.drop (start + count) := by
  induction count generalizing t with
  | zero => rw [deleteRun, Nat.add_zero, take_append_drop]
  | succ count ih =>
    have hlt : start < t.text.length := by omega
    have hone : (t.delete start).2.text = t.text.eraseIdx start :=
      (t.text_delete (Int.natCast_nonneg start) (Int.ofNat_lt.mpr hlt)).2
    have hlength : start + count ≤ (t.delete start).2.text.length := by
      rw [hone, length_eraseIdx_of_lt hlt]
      omega
    rw [deleteRun, ih hlength, hone, eraseIdx_eq_take_drop_succ]
    have htake : (t.text.take start).length = start := by rw [length_take]; omega
    rw [take_append_of_le_length (by omega), take_take, min_self, drop_append, htake,
      drop_eq_nil_of_le (by omega), nil_append, drop_drop]
    congr 2
    omega

/-- The text with the characters from `start` to `stop` replaced. Where these are the other way round, nothing is
deleted. -/
def replaced (text : List Char) (start stop : ℕ) (insert : List Char) : List Char :=
  text.take start ++ insert ++ text.drop (max start stop)

theorem text_edited (s : LosslessTreeCrdt) {start stop : ℕ} (hstart : start ≤ t.text.length)
    (hstop : stop ≤ t.text.length) (insert : List Char) :
    (s.edited t start stop insert).text = replaced t.text start stop insert := by
  have hfork : (t.fork s.peer).text = t.text := by
    rw [TextCrdt.text, TextCrdt.text, TextCrdt.visible_eq, TextCrdt.visible_eq]
    rfl
  have hmax : start + (stop - start) = max start stop := by omega
  have hdeleted : (deleteRun (t.fork s.peer) start (stop - start)).text =
      t.text.take start ++ t.text.drop (max start stop) := by
    rw [text_deleteRun (by rw [hfork]; omega), hfork, hmax]
  have htake : (t.text.take start).length = start := by rw [length_take]; omega
  rw [edited, TextCrdt.text_insertStr, hdeleted, Int.toNat_natCast, Text.spliced, replaced]
  rw [take_append_of_le_length htake.ge, take_take, min_self, drop_append_of_le_length htake.ge,
    drop_of_length_le htake.le, nil_append]

/-! ## The operation -/

/-- An edit that is applied adds its delta to the text of the leaf, and changes no other node. -/
theorem get?_commitLocal_leafEdit (hr : s.get? node = some r) (hbody : r.body = .leaf kind t) (id prev : TreeOpId)
    (ops : List (TextOp Char)) :
    (s.commitLocal ⟨id, .leafEdit node prev ops⟩).get? node =
        some { r with body := .leaf kind (t.applyDelta ops).2, textHead := id } ∧
      ∀ q, q ≠ node → (s.commitLocal ⟨id, .leafEdit node prev ops⟩).get? q = s.get? q := by
  constructor
  · refine (get?_modify_self (fun r => ?_) hr).trans (congrArg some ?_)
    · dsimp only
      split
      · rfl
      · rfl
    · dsimp only
      rw [hbody]
  · refine fun q hq => get?_modify_of_ne (fun r => ?_) hq
    dsimp only
    split
    · rfl
    · rfl

theorem leafText_eq (hr : s.get? node = some r) (hbody : r.body = .leaf kind t) :
    s.leafText node = .ok (r, t.text) := by
  rw [leafText, hr]
  dsimp only
  rw [hbody]

def Editable (s : LosslessTreeCrdt) (node : TreeOpId) (atByte deleteBytes : ℤ) : Prop :=
  ∃ r kind t start stop, s.get? node = some r ∧ r.body = .leaf kind t ∧ Boundary t.text atByte start ∧
    Boundary t.text (atByte + deleteBytes) stop

theorem editLeaf_error {atByte deleteBytes : ℤ} (insert : List Char) (h : ¬ s.Editable node atByte deleteBytes) :
    ∃ message, s.editLeaf node atByte deleteBytes insert = .error message := by
  cases hs' : s.editLeaf node atByte deleteBytes insert with
  | error message => exact ⟨message, rfl⟩
  | ok s' =>
    obtain ⟨r, kind, t, start, stop, hr, hbody, hstart, hstop, -⟩ := editLeaf_ok hs'
    exact absurd ⟨r, kind, t, start, stop, hr, hbody, byteToChar_eq_some_iff.mp hstart,
      byteToChar_eq_some_iff.mp hstop⟩ h

/-- `s'` has the leaf's text from `start` to `stop` replaced, and all else as it was, by an operation that does the same
wherever the elements of the leaf are the same. -/
structure Edits (s s' : LosslessTreeCrdt) (node : TreeOpId) (start stop : ℕ) (insert : List Char)
    (t : TextCrdt Char) : Prop where
  text : ∃ r, s'.leafText node = .ok (r, replaced t.text start stop insert)
  others : ∀ q, q ≠ node → s'.get? q = s.get? q
  replicates : ∃ op, s'.log = s.log ++ [op] ∧ ∀ (u : LosslessTreeCrdt) (r : NodeRecord) (kind : LeafKind)
    (t' : TextCrdt Char), u.get? node = some r → r.body = .leaf kind t' → (∀ i, t'.get? i = t.get? i) →
      ∃ r', (u.commitLocal op).leafText node = .ok (r', replaced t.text start stop insert)

theorem editLeaf_exact {atByte deleteBytes : ℤ} (insert : List Char) {start stop : ℕ} (hr : s.get? node = some r)
    (hbody : r.body = .leaf kind t) (hstart : Boundary t.text atByte start)
    (hstop : Boundary t.text (atByte + deleteBytes) stop) (hcounts : Counts s.peer t) :
    ∃ s', s.editLeaf node atByte deleteBytes insert = .ok s' ∧ s.Edits s' node start stop insert t := by
  let made := s.edited t start stop insert
  let delta := made.deltaSince (t.fork s.peer).versionVector
  let write : NodeRecord → NodeRecord := fun r => { r with body := .leaf kind made }
  let s₁ := s.modify node write
  have htext : made.text = replaced t.text start stop insert := s.text_edited hstart.1 hstop.1 insert
  have hok : s.editLeaf node atByte deleteBytes insert = .ok (s₁.commitNext (.leafEdit node r.textHead delta)) := by
    rw [editLeaf, leafText_eq hr hbody]
    dsimp only [bind, Except.bind]
    rw [byteToChar_eq_some_iff.mpr hstart, byteToChar_eq_some_iff.mpr hstop, hbody]
    rfl
  have hwrite : s₁.get? node = some (write r) := get?_modify_self (f := write) (fun _ => rfl) hr
  obtain ⟨hself, hothers⟩ := get?_commitLocal_leafEdit (s := { s₁ with counter := s₁.counter + 1 }) hwrite rfl
    s₁.nextOpId r.textHead delta
  have htextOf : ∀ {u : LosslessTreeCrdt} {r : NodeRecord} {kind : LeafKind} {t' : TextCrdt Char},
      u.get? node = some r → r.body = .leaf kind t' → (∀ i, t'.get? i = made.get? i) →
      ∃ r', u.leafText node = .ok (r', replaced t.text start stop insert) := by
    intro u r kind t' hr hbody hsame
    rw [leafText_eq hr hbody, ← htext, TextCrdt.text_congr hsame]
    exact ⟨r, rfl⟩
  refine ⟨_, hok, ?_, fun q hq => ?_, ⟨s.nextOpId, .leafEdit node r.textHead delta⟩, ?_, ?_⟩
  · -- the delta changes nothing in the text that it has been made from
    exact htextOf hself rfl (made.get?_applyDelta_self (Text.TextCrdt.unseen (t.fork s.peer).versionVector))
  · exact (hothers q hq).trans (get?_modify_of_ne (f := write) (fun _ => rfl) hq)
  · obtain ⟨nodes, heq⟩ := (onlyNodes_modify : s.OnlyNodes s₁).commitNext (.leafEdit node r.textHead delta)
    rw [heq]
    rfl
  · intro u r' kind' t' hr' hbody' hsame
    have hget := (get?_commitLocal_leafEdit hr' hbody' s.nextOpId r.textHead delta).1
    exact htextOf hget rfl ((s.edited_edited t start stop insert).delta_complete hcounts hsame)

end LosslessTreeCrdt

/-- Every edit in a run either raises, where its range is not one of bytes between characters of a leaf, or replaces the
range, and makes the same text at every replica that has the elements of the leaf. -/
theorem Runs.edit_exact {ι : Type} [DecidableEq ι] {peerOf : ι → ℤ} {w : ι → LosslessTreeCrdt}
    (hinj : Injective peerOf) (h : Runs peerOf w) (i : ι) (node : TreeOpId) (atByte deleteBytes : ℤ)
    (insert : List Char) :
    (¬ (w i).Editable node atByte deleteBytes ∧
      ∃ message, (w i).editLeaf node atByte deleteBytes insert = .error message) ∨
    ∃ r kind t start stop s', (w i).get? node = some r ∧ r.body = .leaf kind t ∧ Boundary t.text atByte start ∧
      Boundary t.text (atByte + deleteBytes) stop ∧ (w i).editLeaf node atByte deleteBytes insert = .ok s' ∧
      (w i).Edits s' node start stop insert t := by
  by_cases heditable : (w i).Editable node atByte deleteBytes
  · obtain ⟨r, kind, t, start, stop, hr, hbody, hstart, hstop⟩ := heditable
    have hcounts := (((h.sound hinj).kept i).texts r (Table.mem_of_get? hr) kind t hbody).1
    obtain ⟨s', hok, hedits⟩ := LosslessTreeCrdt.editLeaf_exact insert hr hbody hstart hstop hcounts
    exact .inr ⟨r, kind, t, start, stop, s', hr, hbody, hstart, hstop, hok, hedits⟩
  · exact .inl ⟨heditable, LosslessTreeCrdt.editLeaf_error insert heditable⟩

def oneLeaf : LosslessTreeCrdt :=
  (LosslessTreeCrdt.new 1).commitNext (.createNode ⟨1, 1⟩ ROOT ⟨[128], 1⟩ (.leaf .raw ['a', 'é', 'b']))

theorem runs_oneLeaf : Runs (fun _ : Unit => 1) fun _ => oneLeaf := by
  have hcreate : (LosslessTreeCrdt.new 1).createNode ROOT none (.leaf .raw ['a', 'é', 'b']) = .ok (⟨1, 1⟩, oneLeaf) :=
    rfl
  have hworld : update (fun _ : Unit => LosslessTreeCrdt.new 1) () oneLeaf = fun _ => oneLeaf :=
    funext fun _ => update_self ..
  rw [← hworld]
  exact .single (.act () (.createNode hcreate))

/-- The second character has two bytes. -/
theorem Runs.edit_exact_oneLeaf : ∃ s' r, oneLeaf.editLeaf ⟨1, 1⟩ 1 2 ['x'] = .ok s' ∧
    s'.leafText ⟨1, 1⟩ = .ok (r, ['a', 'x', 'b']) := by
  obtain ⟨hnot, -⟩ | ⟨r, kind, t, start, stop, s', hr, hbody, hstart, hstop, hok, hedits⟩ :=
    Runs.edit_exact (fun _ _ _ => rfl) runs_oneLeaf () ⟨1, 1⟩ 1 2 ['x']
  · exact absurd ⟨_, _, _, 1, 2, rfl, rfl, by decide, by decide⟩ hnot
  · obtain rfl := some.inj ((rfl : oneLeaf.get? ⟨1, 1⟩ = _).symm.trans hr)
    obtain ⟨-, rfl⟩ := NodeBody.leaf.inj hbody
    obtain ⟨r, htext⟩ := hedits.text
    rw [TextCrdt.text_seed] at hstart hstop htext
    have hone : byteToChar ['a', 'é', 'b'] 1 = some 1 := by decide
    have htwo : byteToChar ['a', 'é', 'b'] (1 + 2) = some 2 := by decide
    obtain rfl := some.inj (hone.symm.trans (byteToChar_eq_some_iff.mpr hstart))
    obtain rfl := some.inj (htwo.symm.trans (byteToChar_eq_some_iff.mpr hstop))
    exact ⟨s', r, hok, htext⟩

end LazilyPy.Lossless

import LazilyPy.Lib.StableSort
import LazilyPy.Sequence.Digits
import LazilyPy.Sequence.Replicas

/-!
# Where elements land

An insertion at the back always comes last. An insertion at the front and a move behind an anchor look for a key
below a neighbour, and do not always find one.
-/

namespace LazilyPy.Sequence

open Digits List Option

variable {V : Type}

namespace Position

variable {p q : Position}

theorem lt_iff : p < q ↔ p.frac < q.frac ∨ p.frac = q.frac ∧ p.peer < q.peer :=
  Prod.Lex.toLex_lt_toLex

theorem frac_le (h : p ≤ q) : p.frac ≤ q.frac := by
  obtain rfl | hlt := h.eq_or_lt
  · exact le_rfl
  · obtain hfrac | ⟨hfrac, -⟩ := lt_iff.mp hlt
    · exact hfrac.le
    · exact hfrac.le

end Position

/-! ## Room between the keys -/

/-- The key is not so low that nothing is found below it: it starts above one, or with a one, and the next digit
above one is two or three. -/
def RoomBelow (f : List ℕ) : Prop :=
  ∃ d rest, f = d :: rest ∧ (1 < d ∨ d = 1 ∧ (rest.find? (1 < ·) = some 2 ∨ rest.find? (1 < ·) = some 3))

theorem singleton_lt_cons {a d : ℕ} {rest : List ℕ} : [a] < d :: rest ↔ a < d ∨ a = d ∧ rest ≠ [] := by
  rw [cons_lt_cons_iff]
  refine or_congr_right (and_congr_right fun _ => ?_)
  cases rest with
  | nil => simp
  | cons e rest => simp

theorem gap_pos (rest : List ℕ) : 0 < gap rest := by
  rw [gap]
  cases hfind : rest.find? (1 < ·) with
  | none => decide
  | some d =>
    have hd : 1 < d := by simpa using find?_some hfind
    rw [getD_some]
    omega

theorem gap_cons {d : ℕ} {rest : List ℕ} : gap (d :: rest) = if 1 < d then d / 2 else gap rest := by
  rw [gap, find?_cons]
  by_cases hd : 1 < d
  · simp [hd]
  · simp [hd, gap]

/-- There is room exactly if the digit in the gap goes below the key. -/
theorem gap_lt_iff {f : List ℕ} : [gap f] < f ↔ RoomBelow f := by
  cases f with
  | nil =>
    refine iff_of_false (not_lt_nil _) ?_
    rintro ⟨d, rest, hf, -⟩
    cases hf
  | cons d rest =>
    have hroom : RoomBelow (d :: rest) ↔
        1 < d ∨ d = 1 ∧ (rest.find? (1 < ·) = some 2 ∨ rest.find? (1 < ·) = some 3) := by
      constructor
      · rintro ⟨d', rest', hf, h⟩
        cases hf
        exact h
      · exact fun h => ⟨d, rest, rfl, h⟩
    rw [hroom, singleton_lt_cons, gap_cons]
    have hpos := gap_pos rest
    by_cases hd : 1 < d
    · rw [if_pos hd]
      exact iff_of_true (.inl (by omega)) (.inl hd)
    · rw [if_neg hd, or_iff_right (by omega), or_iff_right hd]
      rw [gap] at hpos ⊢
      cases hfind : rest.find? (1 < ·) with
      | none =>
        refine iff_of_false (fun h => ?_) fun h => ?_
        · have hd' : 128 = d := h.1
          omega
        · simp at h
      | some e =>
        have he : 1 < e := by simpa using find?_some hfind
        have hne : rest ≠ [] := by
          rintro rfl
          cases hfind
        simp only [getD_some, some.injEq, ne_eq, hne, not_false_eq_true, and_true]
        omega

theorem gap_ne (f : List ℕ) : [gap f] ≠ f := by
  cases f with
  | nil => exact cons_ne_nil _ _
  | cons d rest =>
    intro h
    obtain ⟨hd, rfl⟩ := cons_eq_cons.mp h
    rw [gap_cons] at hd
    split at hd
    · omega
    · have hgap : gap [] = 128 := rfl
      omega

namespace SeqCrdt

/-! ## Operations that place an element -/

def fork (s : SeqCrdt V) (peer : ℤ) : SeqCrdt V :=
  { s with peer }

inductive Reached : SeqCrdt V → Prop
  | new (peer : ℤ) : Reached { peer }
  | perform {s : SeqCrdt V} (h : Reached s) (op : LocalOp V) : Reached (s.perform op)
  | merge {s t : SeqCrdt V} (h : Reached s) (h' : Reached t) (now : Option ℤ) : Reached (s.merge t now).2
  | fork {s : SeqCrdt V} (h : Reached s) (peer : ℤ) : Reached (s.fork peer)

theorem Reached.valid {s : SeqCrdt V} (h : s.Reached) : s.Valid := by
  induction h with
  | new peer => exact valid_new peer
  | perform _ op ih => exact valid_perform ih op
  | merge _ _ now ih ih' => exact valid_merge ih ih' now
  | fork _ peer ih => exact ⟨ih.passed, ih.started, ih.tombstoned⟩

/-- The operation places an element: a new one, or a live one behind another one that is live. -/
def Asked (s : SeqCrdt V) : LocalOp V → Prop
  | .insertBack id _ _ => s.get? id = none
  | .insertFront id _ _ => s.get? id = none
  | .moveAfter id anchor _ => id ∈ s.order ∧ anchor ∈ s.order ∧ id ≠ anchor
  | .setValue _ _ _ => False
  | .remove _ _ => False

/-- The element is where it has been asked to, and the others are in the order that they had. -/
def Lands (s : SeqCrdt V) : LocalOp V → Prop
  | .insertBack id value now => (s.perform (.insertBack id value now)).order = s.order ++ [id]
  | .insertFront id value now => (s.perform (.insertFront id value now)).order = id :: s.order
  | .moveAfter id anchor now =>
    (s.perform (.moveAfter id anchor now)).order = behind anchor id (s.order.filter (· ≠ id))
  | .setValue _ _ _ => True
  | .remove _ _ => True

def successors (s : SeqCrdt V) (anchor : String) : List (SeqElement V) :=
  (s.orderedAlive.dropWhile fun e => e.id ≠ anchor).tail

/-- The digit that goes behind the anchor's key comes before what the key of `n'` goes on with, where the next key
goes on with `rest`. Of equal keys the smaller peer comes first, and of equal positions the element that stands
first. -/
def Precedes (s : SeqCrdt V) (id : String) (rest rest' : List ℕ) (n' : SeqElement V) : Prop :=
  [gap rest] < rest' ∨ [gap rest] = rest' ∧ (s.peer < n'.position.peer ∨
    s.peer = n'.position.peer ∧ [id, n'.id].Sublist (s.elements.rows.map SeqElement.id))

/-- There is room for the element. At the front: below the first key. Behind an anchor whose key is a prefix of the
next key and of the key of the next other element: before the latter. -/
def Roomy (s : SeqCrdt V) : LocalOp V → Prop
  | .insertBack _ _ _ => True
  | .insertFront _ _ _ => ∀ e ∈ s.orderedAlive.head?, RoomBelow e.position.frac
  | .moveAfter id anchor _ => ∀ a n n' rest rest', s.get? anchor = some a → (s.successors anchor).head? = some n →
      ((s.successors anchor).filter (·.id ≠ id)).head? = some n' → n.position.frac = a.position.frac ++ rest →
      n'.position.frac = a.position.frac ++ rest' → s.Precedes id rest rest' n'
  | .setValue _ _ _ => True
  | .remove _ _ => True

/-! ## The order with one element put somewhere -/

section Order

variable {s : SeqCrdt V} {x a b : SeqElement V} {A B : List (SeqElement V)}

def alive (s : SeqCrdt V) : List (SeqElement V) :=
  s.elements.rows.filter fun e => !e.deleted

theorem nodup_alive (s : SeqCrdt V) : (s.alive.map SeqElement.id).Nodup :=
  s.elements.nodup.sublist (filter_sublist.map SeqElement.id)

theorem mem_alive : a ∈ s.alive ↔ a ∈ s.elements.rows ∧ a.deleted = false := by
  rw [alive, mem_filter, Bool.not_eq_true']

theorem mem_orderedAlive : a ∈ s.orderedAlive ↔ a ∈ s.alive :=
  mem_insertionSort _

theorem before_alive_iff (ha : a ∈ s.alive) (hb : b ∈ s.alive) :
    Before SeqElement.position s.alive a b ↔ a.position < b.position ∨
      a.position = b.position ∧ [a.id, b.id].Sublist (s.elements.rows.map SeqElement.id) := by
  refine or_congr_right (and_congr_right fun _ => ?_)
  rw [pair_map_iff s.elements.nodup (mem_alive.mp ha).1 (mem_alive.mp hb).1]
  refine ⟨fun h => h.trans filter_sublist, fun h => pair_filter ?_ ?_ h⟩
  · rw [(mem_alive.mp ha).2]
    rfl
  · rw [(mem_alive.mp hb).2]
    rfl

/-- Where an element goes whose row is put among the rows of `s`. -/
theorem order_put_iff {s' : SeqCrdt V} (hx : x ∈ s'.alive)
    (hothers : s'.elements.rows.filter (fun e => e.id ≠ x.id) = s.elements.rows.filter fun e => e.id ≠ x.id)
    (hsplit : s.orderedAlive.filter (fun e => e.id ≠ x.id) = A ++ B) :
    s'.order = A.map SeqElement.id ++ x.id :: B.map SeqElement.id ↔
      (∀ a ∈ A.getLast?, Before SeqElement.position s'.alive a x) ∧
        ∀ b ∈ B.head?, Before SeqElement.position s'.alive x b := by
  refine map_sortBy_eq_iff s'.nodup_alive hx ?_
  have hrows : s'.alive.filter (fun e => e.id ≠ x.id) = s.alive.filter fun e => e.id ≠ x.id := by
    rw [alive, filter_comm, hothers, filter_comm, alive]
  refine (congrArg (sortBy SeqElement.position) hrows).trans ?_
  rw [sortBy_filter (.of_map _ s.nodup_alive)]
  exact hsplit

end Order

/-! ## Insertions -/

section Insert

variable {s : SeqCrdt V} {id : String}

theorem id_ne_of_get?_none (hnone : s.get? id = none) {a : SeqElement V} (ha : a ∈ s.elements.rows) : a.id ≠ id :=
  Table.get?_eq_none.mp hnone a ha

section

variable (hnone : s.get? id = none) (value : V)

include hnone

/-- An insertion of a new element adds its row at the end. -/
theorem rows_insertAt (frac : List ℕ) (now : ℤ) : ∃ x, x.id = id ∧ x.position = ⟨frac, s.peer⟩ ∧ x.deleted = false ∧
      (s.insertAt id value frac now).elements.rows = s.elements.rows ++ [x] := by
  refine ⟨_, rfl, rfl, rfl, Table.rows_put_of_notMem ?_⟩
  rw [List.mem_map]
  rintro ⟨a, ha, hid⟩
  exact id_ne_of_get?_none hnone ha hid

/-- Where a new element goes. -/
theorem order_insertAt_iff (frac : List ℕ) (now : ℤ) {A B : List (SeqElement V)} (hsplit : s.orderedAlive = A ++ B) :
    (s.insertAt id value frac now).order = A.map SeqElement.id ++ id :: B.map SeqElement.id ↔
      (∀ a ∈ A.getLast?, a.position ≤ ⟨frac, s.peer⟩) ∧ ∀ b ∈ B.head?, ⟨frac, s.peer⟩ < b.position := by
  obtain ⟨x, rfl, hposition, hlive, hrows⟩ := rows_insertAt hnone value frac now
  have hne : ∀ a ∈ s.elements.rows, a.id ≠ x.id := fun a ha => id_ne_of_get?_none hnone ha
  have hkeep : s.elements.rows.filter (fun e => e.id ≠ x.id) = s.elements.rows :=
    filter_eq_self.mpr fun a ha => decide_eq_true (hne a ha)
  have hkeep' : s.orderedAlive.filter (fun e => e.id ≠ x.id) = s.orderedAlive :=
    filter_eq_self.mpr fun a ha => decide_eq_true (hne a (mem_alive.mp (mem_orderedAlive.mp ha)).1)
  have hx : x ∈ (s.insertAt x.id value frac now).alive := by
    rw [mem_alive, hrows]
    exact ⟨mem_append_right _ (mem_singleton_self x), hlive⟩
  have hmem : ∀ a ∈ A ++ B, a ∈ s.elements.rows ∧ a ∈ (s.insertAt x.id value frac now).alive := by
    intro a ha
    have halive := mem_alive.mp (mem_orderedAlive.mp (hsplit ▸ ha))
    rw [mem_alive, hrows]
    exact ⟨halive.1, mem_append_left _ halive.1, halive.2⟩
  have hnodup : ((s.elements.rows ++ [x]).map SeqElement.id).Nodup := hrows ▸ Table.nodup _
  rw [order_put_iff hx (by rw [hrows, filter_append, hkeep]; simp) (hkeep'.trans hsplit)]
  refine and_congr (forall₂_congr fun a ha => ?_) (forall₂_congr fun b hb => ?_)
  · have ha' := hmem a (mem_append_left B (mem_of_getLast? ha))
    rw [before_alive_iff ha'.2 hx, hposition, le_iff_lt_or_eq]
    refine or_congr_right (and_iff_left ?_)
    rw [hrows, pair_map_iff hnodup (mem_append_left _ ha'.1) (by simp)]
    exact (singleton_sublist.mpr ha'.1).append (Sublist.refl [x])
  · have hb' := hmem b (mem_append_right A (mem_of_head? hb))
    rw [before_alive_iff hx hb'.2, hposition]
    refine or_iff_left fun htie => ?_
    have hpair := htie.2
    rw [hrows, pair_map_iff hnodup (by simp) (mem_append_left _ hb'.1)] at hpair
    exact not_mem_nil (mem_right_of_pair (.of_map _ hnodup) hpair)

theorem lands_insertBack (now : ℤ) :
    (s.perform (.insertBack id value now)).order = s.order ++ [id] := by
  refine (order_insertAt_iff hnone value s.backFrac now (append_nil s.orderedAlive).symm).mpr
    ⟨fun a ha => ?_, fun b hb => absurd hb (not_mem_none b)⟩
  rw [mem_def] at ha
  rw [backFrac, ha]
  exact (Position.lt_iff.mpr (.inl (lt_append _ (cons_ne_nil 128 [])))).le

theorem lands_insertFront_iff (now : ℤ) : (s.perform (.insertFront id value now)).order = id :: s.order ↔
      ∀ e ∈ s.orderedAlive.head?, RoomBelow e.position.frac := by
  refine (order_insertAt_iff hnone value s.frontFrac now (nil_append s.orderedAlive).symm).trans ?_
  have hfirst : ∀ e ∈ ([] : List (SeqElement V)).getLast?, e.position ≤ ⟨s.frontFrac, s.peer⟩ :=
    fun e he => absurd he (not_mem_none e)
  rw [and_iff_right hfirst]
  refine forall₂_congr fun e he => ?_
  rw [mem_def] at he
  have hfrac : fracBetween [] e.position.frac = [gap e.position.frac] := fracBetween_append [] _
  rw [Position.lt_iff, frontFrac, he]
  dsimp only
  rw [hfrac, gap_lt_iff]
  exact or_iff_left fun htie => gap_ne _ htie.1

end

end Insert

/-! ## Moves -/

/-- Where the key between two keys goes among those at or above the upper one. -/
theorem fracBetween_before_iff {lo hi : List ℕ} {peer : ℤ} {q : Position} {p : Prop} (hle : lo ≤ hi)
    (hle' : hi ≤ q.frac) :
    (⟨fracBetween lo hi, peer⟩ < q ∨ ⟨fracBetween lo hi, peer⟩ = q ∧ p) ↔
      ∀ rest rest', hi = lo ++ rest → q.frac = lo ++ rest' →
        [gap rest] < rest' ∨ [gap rest] = rest' ∧ (peer < q.peer ∨ peer = q.peer ∧ p) := by
  obtain ⟨rest, rfl⟩ | hparts := prefix_or_parts hle
  · have hfrac : fracBetween lo (lo ++ rest) = lo ++ [gap rest] := fracBetween_append lo rest
    rw [hfrac, Position.lt_iff, Position.ext_iff]
    dsimp only
    obtain ⟨rest', hrest'⟩ | hparts' := prefix_or_parts (hle.trans hle')
    · rw [hrest', append_lt_append_iff, append_cancel_left_eq]
      constructor
      · intro h r r' hr hr'
        obtain rfl := append_cancel_left hr
        obtain rfl := append_cancel_left hr'
        tauto
      · intro h
        have h' := h rest rest' rfl rfl
        tauto
    · refine iff_of_true (.inl (.inl (hparts'.append_lt _))) fun r r' _ hr' => ?_
      exact absurd hr' (hparts'.ne_append r')
  · refine iff_of_true (.inl (Position.lt_iff.mpr (.inl ?_))) fun r r' hr _ => absurd hr (hparts.ne_append r)
    exact (fracBetween_lt hparts).trans_le hle'

section Move

variable {s : SeqCrdt V} {id anchor : String}

/-- A move writes the row of the element anew, where it stands. -/
theorem rows_moveAfter (hs : s.Valid) {e : SeqElement V} (he : s.get? id = some e) {frac : List ℕ}
    (hfrac : s.afterFrac anchor = some frac) (now : ℤ) :
    ∃ x, x.id = id ∧ x.position = ⟨frac, s.peer⟩ ∧ x.deleted = e.deleted ∧
      (s.perform (.moveAfter id anchor now)).elements.rows =
        s.elements.rows.map fun r => if r.id = id then x else r := by
  obtain ⟨herow, rfl⟩ := Table.get?_eq_some.mp he
  have hlt : e.positionStamp < s.nextStamp now := hs.lt_nextStamp he .position now
  have hlt' : e.positionStamp < (s.clock.send now).stamp s.peer := hlt
  let x : SeqElement V := { e with position := ⟨frac, s.peer⟩, positionStamp := s.nextStamp now }
  have hmem : x.id ∈ s.elements.rows.map SeqElement.id := List.mem_map.mpr ⟨e, herow, rfl⟩
  refine ⟨x, rfl, rfl, rfl, Eq.trans ?_ (Table.rows_put_of_mem hmem)⟩
  simp only [perform, hfrac, reassign, he, if_pos hlt']
  rfl

/-- The key of an element that is moved behind `a` is above that of `a`, and between it and that of the next one. -/
theorem afterFrac_eq {a : SeqElement V} {P Q : List (SeqElement V)} (hsplit : s.orderedAlive = P ++ a :: Q)
    (hdrop : (P ++ a :: Q).dropWhile (fun e => e.id ≠ anchor) = a :: Q) :
    ∃ frac, s.afterFrac anchor = some frac ∧ a.position.frac < frac ∧
      ∀ n ∈ Q.head?, frac = fracBetween a.position.frac n.position.frac := by
  rw [afterFrac, hsplit, hdrop]
  cases Q with
  | nil => exact ⟨_, rfl, lt_append _ (cons_ne_nil 128 []), fun n hn => absurd hn (not_mem_none n)⟩
  | cons n Q =>
    refine ⟨_, rfl, lt_fracBetween _ _, fun n' hn' => ?_⟩
    obtain rfl := some.inj hn'
    rfl

section Rewritten

variable {s' : SeqCrdt V} {x b e : SeqElement V}
variable (hrows : s'.elements.rows = s.elements.rows.map fun r => if r.id = x.id then x else r)

include hrows

theorem names_of_rewritten : s'.elements.rows.map SeqElement.id = s.elements.rows.map SeqElement.id := by
  rw [hrows, List.map_map]
  refine map_congr_left fun r _ => ?_
  by_cases hr : r.id = x.id
  · simp [hr]
  · simp [hr]

/-- The other rows are where they were. -/
theorem others_of_rewritten :
    s'.elements.rows.filter (fun e => e.id ≠ x.id) = s.elements.rows.filter fun e => e.id ≠ x.id := by
  rw [hrows]
  generalize s.elements.rows = rows
  induction rows with
  | nil => rfl
  | cons r rows ih =>
    by_cases hr : r.id = x.id
    · simpa [hr] using ih
    · simpa [hr] using ih

theorem alive_of_rewritten (hb : b ∈ s.alive) (hid : b.id ≠ x.id) : b ∈ s'.alive := by
  obtain ⟨hrow, hlive⟩ := mem_alive.mp hb
  refine mem_alive.mpr ⟨?_, hlive⟩
  rw [hrows]
  exact List.mem_map.mpr ⟨b, hrow, if_neg hid⟩

theorem self_alive_of_rewritten (he : e ∈ s.alive) (hid : e.id = x.id) (hdeleted : x.deleted = e.deleted) :
    x ∈ s'.alive := by
  obtain ⟨hrow, hlive⟩ := mem_alive.mp he
  refine mem_alive.mpr ⟨?_, hdeleted.trans hlive⟩
  rw [hrows]
  exact List.mem_map.mpr ⟨e, hrow, if_pos hid⟩

end Rewritten

/-- Where a move puts the element. -/
theorem lands_moveAfter_iff (hs : s.Valid) (hid : id ∈ s.order) (hanchor : anchor ∈ s.order) (hne : id ≠ anchor)
    (now : ℤ) : (s.perform (.moveAfter id anchor now)).order = behind anchor id (s.order.filter (· ≠ id)) ↔
      s.Roomy (.moveAfter id anchor now) := by
  have hnodup : (s.orderedAlive.map SeqElement.id).Nodup := ((perm_insertionSort _ _).map _).nodup_iff.mpr s.nodup_alive
  obtain ⟨P, a, Q, hsplit, haid, hothers⟩ := split_at_name hnodup hanchor
  obtain ⟨e, he, heid⟩ := List.mem_map.mp hid
  have hdrop : (P ++ a :: Q).dropWhile (fun e => e.id ≠ anchor) = a :: Q :=
    dropWhile_at_name haid fun e he => hothers e (mem_append_left Q he)
  have hsucc : s.successors anchor = Q := by rw [successors, hsplit, hdrop, tail_cons]
  have hmem : ∀ b ∈ P ++ a :: Q, b ∈ s.alive := fun b hb => mem_orderedAlive.mp (hsplit ▸ hb)
  have hget : ∀ b ∈ s.alive, s.get? b.id = some b := fun b hb => Table.get?_of_mem (mem_alive.mp hb).1
  have ha : a ∈ s.alive := hmem a (mem_append_right P mem_cons_self)
  have heget : s.get? id = some e := heid ▸ hget e (mem_orderedAlive.mp he)
  have haget : s.get? anchor = some a := haid ▸ hget a ha
  have haid' : a.id ≠ id := fun heq => hne (heq.symm.trans haid)
  obtain ⟨frac, hafter, hlt, hbetween⟩ := afterFrac_eq hsplit hdrop
  obtain ⟨x, rfl, hposition, hdeleted, hrows⟩ := rows_moveAfter hs heget hafter now
  generalize s.perform (.moveAfter x.id anchor now) = s' at hrows ⊢
  have hx : x ∈ s'.alive := self_alive_of_rewritten hrows (mem_orderedAlive.mp he) heid hdeleted
  have hfilter : s.orderedAlive.filter (fun e => e.id ≠ x.id) =
      (P.filter (fun e => e.id ≠ x.id) ++ [a]) ++ Q.filter fun e => e.id ≠ x.id := by
    rw [hsplit, filter_append, filter_cons_of_pos (by simpa using haid')]
    simp
  have hbehind : behind anchor x.id (s.order.filter (· ≠ x.id)) =
      (P.filter (fun e => e.id ≠ x.id) ++ [a]).map SeqElement.id ++
        x.id :: (Q.filter fun e => e.id ≠ x.id).map SeqElement.id := by
    rw [order, hsplit, ← haid]
    exact behind_others haid' fun b hb => haid ▸ hothers b hb
  rw [hbehind, order_put_iff hx (others_of_rewritten hrows) hfilter]
  have hlast : ∀ b ∈ (P.filter (fun e => e.id ≠ x.id) ++ [a]).getLast?, Before SeqElement.position s'.alive b x := by
    intro b hb
    rw [getLast?_concat, mem_some_iff] at hb
    subst hb
    exact .inl (Position.lt_iff.mpr (.inl (hposition ▸ hlt)))
  rw [and_iff_right hlast]
  have hsorted : (P ++ a :: Q).Pairwise fun b c => b.position ≤ c.position := by
    rw [← hsplit]
    exact (pairwise_sortBy SeqElement.position s.alive).imp Before.le
  obtain ⟨-, haQ, -⟩ := pairwise_append.mp hsorted
  rw [pairwise_cons] at haQ
  -- The next element that is not moved itself, and the one whose key has been the upper one.
  have hnext : ∀ n n', Q.head? = some n → (Q.filter fun e => e.id ≠ x.id).head? = some n' →
      (Before SeqElement.position s'.alive x n' ↔
        ∀ rest rest', n.position.frac = a.position.frac ++ rest → n'.position.frac = a.position.frac ++ rest' →
          s.Precedes x.id rest rest' n') := by
    intro n n' hn hn'
    obtain ⟨hn'Q, hn'id⟩ := mem_filter.mp (mem_of_head? hn')
    have hn'alive := alive_of_rewritten hrows
      (hmem n' (mem_append_right P (mem_cons_of_mem a hn'Q))) (by simpa using hn'id)
    have hle : a.position ≤ n.position := haQ.1 n (mem_of_head? hn)
    have hle' : n.position ≤ n'.position := by
      cases Q with
      | nil => cases hn
      | cons q Q =>
        obtain rfl := some.inj hn
        obtain rfl | hin := mem_cons.mp hn'Q
        · exact le_rfl
        · exact (pairwise_cons.mp haQ.2).1 n' hin
    rw [before_alive_iff hx hn'alive, hposition, names_of_rewritten hrows, hbetween n hn]
    exact fracBetween_before_iff (Position.frac_le hle) (Position.frac_le hle')
  constructor
  · intro h a' n n' rest rest' ha' hn hn'
    obtain rfl := some.inj (haget.symm.trans ha')
    rw [hsucc] at hn hn'
    exact (hnext n n' hn hn').mp (h n' hn') rest rest'
  · intro h n' hn'
    have hn : ∃ n, Q.head? = some n := by
      cases Q with
      | nil => cases hn'
      | cons q Q => exact ⟨q, rfl⟩
    obtain ⟨n, hn⟩ := hn
    refine (hnext n n' hn hn').mpr fun rest rest' => h a n n' rest rest' haget ?_ ?_
    · rw [hsucc]
      exact hn
    · rw [hsucc]
      exact hn'

end Move

/-- On every replica that is reached, an operation puts its element where it is asked to, with the others in their
order, exactly if there is room for it. -/
theorem lands_iff {s : SeqCrdt V} (hs : s.Reached) {op : LocalOp V} (hasked : s.Asked op) :
    s.Lands op ↔ s.Roomy op := by
  cases op with
  | insertBack id value now => exact iff_of_true (lands_insertBack hasked value now) trivial
  | insertFront id value now => exact lands_insertFront_iff hasked value now
  | moveAfter id anchor now =>
    obtain ⟨hid, hanchor, hne⟩ := hasked
    exact lands_moveAfter_iff hs.valid hid hanchor hne now
  | setValue id value now => exact hasked.elim
  | remove id now => exact hasked.elim

/-- Two replicas have put an element at the same place, and one of them has put another one behind. -/
def mingled : SeqCrdt ℕ :=
  (((({ peer := 0 } : SeqCrdt ℕ).perform (.insertBack "x" 1 1)).perform (.insertBack "z" 2 2)).merge
    (({ peer := 1 } : SeqCrdt ℕ).perform (.insertBack "y" 3 1)) none).2

theorem reached_mingled : mingled.Reached :=
  .merge (.perform (.perform (.new 0) _) _) (.perform (.new 1) _) none

theorem lands_iff_mingled : mingled.Lands (.insertFront "w" 4 3) ↔ mingled.Roomy (.insertFront "w" 4 3) := by
  have hasked : mingled.Asked (.insertFront "w" 4 3) := by
    show mingled.get? "w" = none
    decide
  exact lands_iff reached_mingled hasked

/-- Behind the first of two elements with equal keys there is no key that is before the second one. -/
theorem not_always_lands : ¬ ∀ (s : SeqCrdt ℕ) (op : LocalOp ℕ), s.Reached → s.Asked op → s.Lands op := by
  intro h
  have hasked : mingled.Asked (.moveAfter "z" "x" 3) := by
    refine ⟨?_, ?_, ?_⟩
    · decide
    · decide
    · decide
  have hlands : (mingled.perform (.moveAfter "z" "x" 3)).order = behind "x" "z" (mingled.order.filter (· ≠ "z")) :=
    h mingled _ reached_mingled hasked
  revert hlands
  decide

end SeqCrdt

end LazilyPy.Sequence

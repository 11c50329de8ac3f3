import LazilyPy.Text.Crdt

/-!
# Local edits as splices

What is inserted is newer than all that a replica holds, so that it comes right behind its origin, before everything
else that has been inserted there. What is deleted leaves the order as it is.
-/

namespace LazilyPy.Text

open List Option

variable {α : Type} {rows : List (TextElement α)} {e x : TextElement α}

/-! ## No element comes twice -/

/-- `e` is `c`, or has been inserted behind it, at any distance. -/
inductive Under (rows : List (TextElement α)) (c : TextElement α) : TextElement α → Prop
  | refl : Under rows c c
  | step {e e' : TextElement α} (he : e ∈ rows) (h : Under rows c e) (horigin : e'.origin = some e.id) :
      Under rows c e'

theorem Under.counter_le {c : TextElement α} (h : Under rows c e) : c.id.counter ≤ e.id.counter := by
  induction h with
  | refl => exact le_rfl
  | step _ _ horigin ih => exact ih.trans (TextElement.older _ _ horigin).le

/-- An element is not below two siblings. -/
theorem Under.sibling_eq (hnodup : (rows.map TextElement.id).Nodup) {c c' : TextElement α} (h : Under rows c e)
    (h' : Under rows c' e) (horigin : c.origin = c'.origin) : c = c' := by
  have hbelow : ∀ {c c' e : TextElement α}, Under rows c' e → c.origin = c'.origin → c.origin ≠ some e.id := by
    intro c c' e hunder heq hid
    have hlt := c'.older e.id (heq ▸ hid)
    exact absurd hunder.counter_le (Nat.not_le_of_lt hlt)
  induction h with
  | refl =>
    cases h' with
    | refl => rfl
    | step _ hunder hid => exact absurd hid (hbelow hunder horigin)
  | step he hunder hid ih =>
    cases h' with
    | refl => exact absurd hid (hbelow hunder horigin.symm)
    | step he' hunder' hid' =>
      obtain rfl := inj_on_of_nodup_map hnodup he he' (some.inj (hid.symm.trans hid'))
      exact ih hunder'

theorem under_of_mem_visit {n : ℕ} {c : TextElement α} (h : e ∈ visit rows n (some c.id)) (hc : c ∈ rows) :
    Under rows c e := by
  have hgeneral : ∀ {n : ℕ} {e a : TextElement α}, e ∈ visit rows n (some a.id) → a ∈ rows → Under rows c a →
      Under rows c e := by
    intro n
    induction n with
    | zero => exact fun h _ _ => absurd h not_mem_nil
    | succ n ih =>
      intro e a h ha hunder
      obtain ⟨child, hchild, he⟩ := mem_flatMap.mp h
      obtain ⟨hmem, horigin⟩ := mem_childrenOf.mp hchild
      have hstep := Under.step ha hunder horigin
      obtain rfl | he := mem_cons.mp he
      · exact hstep
      · exact ih he hmem hstep
  exact hgeneral h hc .refl

theorem nodup_visit (hnodup : (rows.map TextElement.id).Nodup) (n : ℕ) (o : Option OpId) :
    (visit rows n o).Nodup := by
  induction n generalizing o with
  | zero => exact nodup_nil
  | succ n ih =>
    have hchildren : (childrenOf rows o).Nodup :=
      (perm_insertionSort _ _).nodup_iff.mpr ((Nodup.of_map _ hnodup).filter _)
    refine nodup_flatMap.mpr ⟨fun child hchild => ?_, ?_⟩
    · refine nodup_cons.mpr ⟨fun hmem => ?_, ih _⟩
      -- what comes below an element is younger
      obtain ⟨e, he, horigin⟩ : ∃ e ∈ rows, Under rows e child ∧ e.origin = some child.id := by
        cases n with
        | zero => exact absurd hmem not_mem_nil
        | succ n =>
          obtain ⟨e, he, hin⟩ := mem_flatMap.mp hmem
          obtain ⟨hrow, horigin⟩ := mem_childrenOf.mp he
          obtain rfl | hin := mem_cons.mp hin
          · exact ⟨_, hrow, .refl, horigin⟩
          · exact ⟨e, hrow, under_of_mem_visit hin hrow, horigin⟩
      exact absurd horigin.1.counter_le (Nat.not_le_of_lt (e.older _ horigin.2))
    · refine hchildren.pairwise_of_forall_ne fun c hc c' hc' hne => ?_
      intro e he he'
      obtain ⟨hrow, horigin⟩ := mem_childrenOf.mp hc
      obtain ⟨hrow', horigin'⟩ := mem_childrenOf.mp hc'
      have hunder : ∀ {c : TextElement α}, c ∈ rows → e ∈ c :: visit rows n (some c.id) → Under rows c e := by
        intro c hc he
        obtain rfl | he := mem_cons.mp he
        · exact .refl
        · exact under_of_mem_visit he hc
      exact hne ((hunder hrow he).sibling_eq hnodup (hunder hrow' he') (horigin.trans horigin'.symm))

theorem nodup_order (hnodup : (rows.map TextElement.id).Nodup) : ((order rows).map TextElement.id).Nodup :=
  (nodup_visit hnodup _ _).map_on fun _ he _ he' hid =>
    inj_on_of_nodup_map hnodup (mem_of_mem_order he) (mem_of_mem_order he') hid

/-! ## The newest element -/

def behind (x e : TextElement α) : List (TextElement α) :=
  e :: if x.origin = some e.id then [x] else []

section Newest

variable (hnew : ∀ e ∈ rows, e.id.counter < x.id.counter) (hnodup : (rows.map TextElement.id).Nodup)

include hnew hnodup

/-- The newest sibling comes first. -/
theorem childrenOf_concat (o : Option OpId) :
    childrenOf (rows ++ [x]) o = (if x.origin = o then [x] else []) ++ childrenOf rows o := by
  have hids : ((rows ++ [x]).map TextElement.id).Nodup := by
    rw [map_append]
    refine nodup_append'.mpr ⟨hnodup, nodup_singleton _, fun i hi hx => ?_⟩
    obtain ⟨e, he, rfl⟩ := List.mem_map.mp hi
    have hlt := hnew e he
    rw [mem_singleton.mp hx] at hlt
    exact lt_irrefl _ hlt
  have hperm : (childrenOf (rows ++ [x]) o).Perm ((if x.origin = o then [x] else []) ++ childrenOf rows o) := by
    refine (perm_insertionSort _ _).trans ?_
    rw [filter_append]
    refine perm_append_comm.trans (Perm.append ?_ (perm_insertionSort _ _).symm)
    by_cases ho : x.origin = o
    · simp [ho]
    · simp [ho]
  have hsorted : ((if x.origin = o then [x] else []) ++ childrenOf rows o).Pairwise Precedes := by
    split
    · refine pairwise_cons.mpr ⟨fun e he => ?_, pairwise_insertionSort _ _⟩
      exact (Dot.lt_iff.mpr (.inl (hnew e (mem_childrenOf.mp he).1))).le
    · exact pairwise_insertionSort _ _
  refine hperm.eq_of_pairwise ?_ (pairwise_insertionSort _ _) hsorted
  intro a b ha hb hab hba
  have hb := hperm.mem_iff.mpr hb
  exact inj_on_of_nodup_map hids (mem_childrenOf.mp ha).1 (mem_childrenOf.mp hb).1 (le_antisymm hba hab)

theorem visit_concat {n : ℕ} {o : Option OpId} (hn : x.id.counter ≤ n + originCounter o) :
    visit (rows ++ [x]) n o = (if x.origin = o then [x] else []) ++ (visit rows n o).flatMap (behind x) := by
  have hleaf : ∀ e ∈ rows ++ [x], e.origin ≠ some x.id := by
    intro e he horigin
    have hlt := e.older x.id horigin
    obtain he | he := mem_append.mp he
    · exact absurd (hnew e he) (Nat.lt_asymm hlt)
    · rw [mem_singleton.mp he] at hlt
      exact lt_irrefl _ hlt
  induction n generalizing o with
  | zero =>
    have horigin : x.origin ≠ o := by
      rintro rfl
      have hmem : x ∈ childrenOf [x] x.origin := mem_childrenOf.mpr ⟨mem_singleton_self x, rfl⟩
      have hlt := originCounter_lt hmem
      omega
    rw [if_neg horigin]
    rfl
  | succ n ih =>
    have hbelow : (childrenOf rows o).flatMap (fun c => c :: visit (rows ++ [x]) n (some c.id)) =
        (childrenOf rows o).flatMap fun c => (c :: visit rows n (some c.id)).flatMap (behind x) := by
      refine flatMap_congr fun c hc => ?_
      have hlt := originCounter_lt hc
      have hdepth : x.id.counter ≤ n + originCounter (some c.id) := by
        simp only [originCounter]
        omega
      rw [ih hdepth, flatMap_cons, behind, cons_append]
    rw [visit, visit, childrenOf_concat hnew hnodup, flatMap_append, hbelow, flatMap_assoc]
    refine congrArg (· ++ _) ?_
    split
    · rw [flatMap_singleton, visit_leaf hleaf]
    · rfl

/-- A new element comes right behind its origin. -/
theorem order_concat : order (rows ++ [x]) =
    (if x.origin = none then [x] else []) ++ (order rows).flatMap (behind x) := by
  have hspan : span (rows ++ [x]) = x.id.counter := by
    refine le_antisymm (span_le fun e he => ?_) (counter_le_span mem_concat_self)
    obtain he | he := mem_append.mp he
    · exact (hnew e he).le
    · rw [mem_singleton.mp he]
  have hdepth : visit rows x.id.counter none = order rows := by
    obtain ⟨m, hm⟩ := Nat.exists_eq_add_of_le (span_le fun e he => (hnew e he).le)
    rw [hm]
    exact visit_add (Nat.le_add_right _ _) m
  rw [order, hspan, visit_concat hnew hnodup (Nat.le_add_right _ _), hdepth]

end Newest

/-! ## What the replica shows -/

/-- The text with `chars` inserted before the index, or at its end. -/
def spliced (text : List α) (index : ℕ) (chars : List α) : List α :=
  text.take index ++ chars ++ text.drop index

namespace TextCrdt

variable {t : TextCrdt α}

theorem nodup_visible (t : TextCrdt α) : (t.visible.map TextElement.id).Nodup := by
  rw [visible_eq]
  exact (nodup_order t.byId.nodup).sublist (filter_sublist.map _)

theorem nextId_notMem (t : TextCrdt α) : t.nextId ∉ t.byId.rows.map TextElement.id := by
  intro hmem
  obtain ⟨e, he, hid⟩ := List.mem_map.mp hmem
  have hle := t.counted e he
  rw [hid] at hle
  exact absurd hle (Nat.not_succ_le_self _)

variable {A B : List (TextElement α)}

/-- A live element in a row of live elements. -/
theorem flatMap_behind (hnodup : ((A ++ B).map TextElement.id).Nodup)
    (horigin : x.origin = (A.getLast?).map TextElement.id) :
    (if x.origin = none then [x] else []) ++ (A ++ B).flatMap (behind x) = A ++ x :: B := by
  have hother : ∀ {l : List (TextElement α)}, (∀ e ∈ l, x.origin ≠ some e.id) → l.flatMap (behind x) = l := by
    intro l hl
    have hsingle : l.flatMap (behind x) = l.flatMap fun e => [e] :=
      flatMap_congr fun e he => by rw [behind, if_neg (hl e he)]
    rw [hsingle, flatMap_singleton']
  induction A using reverseRecOn with
  | nil =>
    have hnone : x.origin = none := horigin
    have hall : ∀ e ∈ B, x.origin ≠ some e.id := fun e _ heq => nomatch hnone.symm.trans heq
    rw [if_pos hnone, nil_append, hother hall]
    rfl
  | append_singleton A v _ =>
    rw [getLast?_concat, map_some] at horigin
    rw [append_assoc, map_append] at hnodup
    obtain ⟨-, hrest, hdisjoint⟩ := nodup_append'.mp hnodup
    have hleft : ∀ e ∈ A, x.origin ≠ some e.id := by
      intro e he heq
      rw [horigin] at heq
      refine hdisjoint (List.mem_map_of_mem he) ?_
      rw [← some.inj heq]
      exact mem_cons_self
    have hright : ∀ e ∈ B, x.origin ≠ some e.id := by
      intro e he heq
      rw [horigin] at heq
      refine (nodup_cons.mp hrest).1 ?_
      rw [some.inj heq]
      exact List.mem_map_of_mem he
    have hsome : x.origin ≠ none := fun heq => nomatch horigin.symm.trans heq
    rw [if_neg hsome, nil_append, flatMap_append, flatMap_append, hother hleft, hother hright,
      flatMap_singleton, behind, if_pos horigin]
    simp

/-- Behind the elements `A` that the replica shows, a new one is shown. -/
theorem visible_place (hvisible : t.visible = A ++ B) (ch : α) {origin : Option OpId}
    (horigin : origin = (A.getLast?).map TextElement.id) (hle : ∀ o, origin = some o → o.counter ≤ t.counter) :
    ∃ x, x.id = t.nextId ∧ x.ch = ch ∧ (t.place ch origin hle).visible = A ++ x :: B := by
  obtain ⟨x, hid, hch, hxorigin, hlive, hrows⟩ : ∃ x : TextElement α, x.id = t.nextId ∧ x.ch = ch ∧
      x.origin = origin ∧ x.deleted = false ∧ (t.place ch origin hle).byId.rows = t.byId.rows ++ [x] :=
    ⟨_, rfl, rfl, rfl, rfl, Table.rows_put_of_notMem t.nextId_notMem⟩
  have hnew : ∀ e ∈ t.byId.rows, e.id.counter < x.id.counter := by
    intro e he
    rw [hid]
    exact Nat.lt_succ_of_le (t.counted e he)
  refine ⟨x, hid, hch, ?_⟩
  have horiginLive : ∀ e ∈ t.byId.rows, x.origin = some e.id → e.deleted = false := by
    intro e he heq
    rw [hxorigin, horigin] at heq
    obtain ⟨v, hv, hid⟩ := map_eq_some_iff.mp heq
    have hshown : v ∈ t.visible := hvisible ▸ mem_append_left B (mem_of_getLast? hv)
    obtain rfl := Table.eq_of_key_eq (t.mem_of_mem_visible hshown) he hid
    exact t.deleted_of_mem_visible hshown
  -- so nothing is shown behind an element that is not
  have hfilter : ∀ l : List (TextElement α), (∀ e ∈ l, e ∈ t.byId.rows) →
      (l.flatMap (behind x)).filter (fun e => !e.deleted) = (l.filter fun e => !e.deleted).flatMap (behind x) := by
    intro l hl
    induction l with
    | nil => rfl
    | cons e l ih =>
      have hrest := ih fun e' he' => hl e' (mem_cons_of_mem e he')
      rw [flatMap_cons, filter_append, hrest, filter_cons]
      cases hdeleted : e.deleted with
      | true =>
        have hnot : x.origin ≠ some e.id := by
          intro heq
          rw [horiginLive e (hl e mem_cons_self) heq] at hdeleted
          cases hdeleted
        simp [behind, hnot, hdeleted]
      | false =>
        have hboth : (behind x e).filter (fun e => !e.deleted) = behind x e := by
          rw [behind]
          split
          · simp [hdeleted, hlive]
          · simp [hdeleted]
        rw [hboth]
        rfl
  rw [visible_eq, hrows, order_concat hnew t.byId.nodup, filter_append, hfilter _ fun e => mem_of_mem_order,
    ← visible_eq, hvisible]
  have hnodup := t.nodup_visible
  rw [hvisible] at hnodup
  have hfirst : (if x.origin = none then [x] else []).filter (fun e => !e.deleted) =
      if x.origin = none then [x] else [] := by
    split
    · simp [hlive]
    · rfl
  rw [hfirst]
  exact flatMap_behind hnodup (hxorigin.trans horigin)

/-- The text with characters behind the elements `A`. -/
theorem text_placeAll (hvisible : t.visible = A ++ B) {origin : Option OpId}
    (horigin : origin = (A.getLast?).map TextElement.id) (hle : ∀ o, origin = some o → o.counter ≤ t.counter)
    (chars : List α) : (t.placeAll origin hle chars).2.text =
      A.map TextElement.ch ++ chars ++ B.map TextElement.ch := by
  induction chars generalizing t A origin with
  | nil => rw [append_nil, ← map_append, ← hvisible, placeAll, text]
  | cons ch chars ih =>
    obtain ⟨x, hid, rfl, hplace⟩ := visible_place hvisible ch horigin hle
    have hsplit : (t.place x.ch origin hle).visible = (A ++ [x]) ++ B := by rw [hplace]; simp
    have hlast : some t.nextId = ((A ++ [x]).getLast?).map TextElement.id := by
      rw [getLast?_concat, map_some, hid]
    rw [placeAll]
    refine (ih hsplit hlast _).trans ?_
    simp

theorem length_text (t : TextCrdt α) : t.text.length = t.visible.length :=
  length_map _

/-- The origin of an index is the element before it. -/
theorem indexToOrigin_eq (t : TextCrdt α) (index : ℤ) :
    (t.indexToOrigin index).1 = ((t.visible.take index.toNat).getLast?).map TextElement.id := by
  rw [indexToOrigin]
  split
  · next hle => rw [Int.toNat_of_nonpos hle]; rfl
  · next hpos =>
    split
    · next hlong =>
      rw [take_of_length_le (by omega)]
    · next hshort =>
      have hlt : index.toNat - 1 < t.visible.length := by omega
      have hindex : (index - 1).toNat = index.toNat - 1 := by omega
      rw [hindex, getLast?_take, if_neg (by omega), getElem?_eq_getElem hlt, some_or]

theorem text_insertStr (t : TextCrdt α) (index : ℤ) (chars : List α) :
    (t.insertStr index chars).2.text = spliced t.text index.toNat chars := by
  have hplaced := text_placeAll (take_append_drop index.toNat t.visible).symm (t.indexToOrigin_eq index)
    (t.indexToOrigin_counter index) chars
  have hcache : (t.insertStr index chars).2.text =
      (t.placeAll (t.indexToOrigin index).1 (t.indexToOrigin_counter index) chars).2.text := by
    rw [text, text, visible_eq, visible_eq]
    rfl
  rw [hcache, hplaced, spliced, text, map_take, map_drop]

theorem text_insert (t : TextCrdt α) (index : ℤ) (ch : α) :
    ∃ t', t.insert index [ch] = .ok (t.nextId, t') ∧ t'.text = spliced t.text index.toNat [ch] :=
  ⟨_, rfl, t.text_insertStr index [ch]⟩

theorem visible_tombstone {target : TextElement α} (hmem : target ∈ t.byId.rows)
    (hvisible : t.visible = A ++ target :: B) :
    (t.tombstone target hmem).text = A.map TextElement.ch ++ B.map TextElement.ch := by
  let mark (e : TextElement α) : TextElement α := if e.id = target.id then e.delete t.nextId t.nextId_pos else e
  have hmark : ∀ e, (mark e).id = e.id ∧ (mark e).origin = e.origin ∧ (mark e).ch = e.ch := by
    intro e
    dsimp only [mark]
    split
    · exact ⟨rfl, rfl, rfl⟩
    · exact ⟨rfl, rfl, rfl⟩
  have hdeleted : ∀ e, (!(mark e).deleted) = (!e.deleted && decide (e.id ≠ target.id)) := by
    intro e
    dsimp only [mark]
    split
    · next heq => simp [heq, TextElement.delete]
    · next hne => simp [hne]
  have hrows : (t.tombstone target hmem).byId.rows = t.byId.rows.map mark := rows_put_delete hmem _ _
  have hshown : (t.tombstone target hmem).visible = ((A ++ B).map mark) := by
    rw [visible_eq, hrows, order_map (fun e => (hmark e).1) fun e => (hmark e).2.1, List.filter_map]
    refine congrArg (map mark) ?_
    have hboth : (order t.byId.rows).filter ((fun e => !e.deleted) ∘ mark) =
        t.visible.filter fun e => e.id ≠ target.id := by
      rw [visible_eq, List.filter_filter]
      refine filter_congr fun e _ => ?_
      rw [Function.comp_apply, hdeleted, Bool.and_comm]
    have hnodup := t.nodup_visible
    rw [hvisible, map_append, map_cons] at hnodup
    have hothers : ∀ e ∈ A ++ B, e.id ≠ target.id := by
      intro e he heq
      have hnot := (nodup_middle.mp hnodup)
      refine (nodup_cons.mp hnot).1 ?_
      rw [← heq, ← map_append]
      exact List.mem_map_of_mem he
    rw [hboth, hvisible, filter_append, filter_cons_of_neg (by simp), ← filter_append]
    exact filter_eq_self.mpr fun e he => by simpa using hothers e he
  rw [text, hshown, List.map_map, ← map_append]
  exact map_congr_left fun e _ => (hmark e).2.2

theorem visible_read (t : TextCrdt α) : t.visibleOrdered.2.visible = t.visible := by
  rw [visible_eq, visible_eq, visibleOrdered_byId]

/-- A deletion of a character that is there. -/
theorem text_delete (t : TextCrdt α) {index : ℤ} (hnonneg : 0 ≤ index) (hlt : index < t.text.length) :
    (t.delete index).1 = some t.nextId ∧ (t.delete index).2.text = t.text.eraseIdx index.toNat := by
  rw [length_text] at hlt
  have hindex : index.toNat < t.visible.length := by omega
  rw [delete, if_neg (by omega)]
  split
  · next hnone => exact absurd (List.getElem?_eq_none_iff.mp hnone) (Nat.not_le_of_lt hindex)
  · next target hget =>
    refine ⟨rfl, ?_⟩
    obtain ⟨_, rfl⟩ := List.getElem?_eq_some_iff.mp hget
    have hsplit : t.visibleOrdered.2.visible = t.visible.take index.toNat ++
        t.visible[index.toNat] :: t.visible.drop (index.toNat + 1) := by
      rw [visible_read, getElem_cons_drop, take_append_drop]
    rw [visible_tombstone _ hsplit, eraseIdx_eq_take_drop_succ, text, map_take, map_drop]

end TextCrdt

end LazilyPy.Text

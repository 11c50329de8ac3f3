import LazilyPy.Text.Crdt

/-!
# Seeded text

A replica that is built from a text has one element for each character, and each of them comes after the one before.
It shows that text.
-/

namespace LazilyPy.Text

open List Option

variable {α : Type} {rows l : List (TextElement α)} {origin : Option OpId} {e x : TextElement α}

/-- From `origin` on, the elements of `l` come one after the other, and there are no others. -/
inductive Chain (rows : List (TextElement α)) : Option OpId → List (TextElement α) → Prop
  | nil {origin : Option OpId} (h : ∀ e ∈ rows, e.origin ≠ origin) : Chain rows origin []
  | cons {origin : Option OpId} {e : TextElement α} {l : List (TextElement α)}
      (h : rows.filter (fun e => e.origin = origin) = [e]) (hl : Chain rows (some e.id) l) : Chain rows origin (e :: l)

namespace Chain

theorem visit (h : Chain rows origin l) {n : ℕ} (hn : l.length ≤ n) : Text.visit rows n origin = l := by
  induction h generalizing n with
  | @nil origin h =>
    have hnone : childrenOf rows origin = [] := by
      rw [childrenOf, filter_eq_nil_iff.mpr fun e he => by simpa using h e he]
      rfl
    cases n with
    | zero => rfl
    | succ n => rw [Text.visit, hnone, flatMap_nil]
  | @cons origin e l h _ ih =>
    have hone : childrenOf rows origin = [e] := by
      rw [childrenOf, h]
      rfl
    cases n with
    | zero => cases hn
    | succ n => rw [Text.visit, hone, flatMap_singleton, ih (Nat.le_of_succ_le_succ hn)]

/-- What comes after an element is younger. -/
theorem lt {o : OpId} (h : Chain rows origin l) (horigin : origin = some o) : ∀ y ∈ l, o.counter < y.id.counter := by
  induction h generalizing o with
  | nil => nofun
  | @cons origin e l h _ ih =>
    have he : e ∈ rows.filter fun e => e.origin = origin := h ▸ mem_singleton_self e
    have hlt : o.counter < e.id.counter := by
      refine e.older o ?_
      rw [← horigin]
      simpa using (mem_filter.mp he).2
    intro y hy
    obtain rfl | hy := mem_cons.mp hy
    · exact hlt
    · exact hlt.trans (ih rfl y hy)

/-- One more element at the end of the chain. -/
theorem concat (h : Chain rows origin l) (hid : ∀ e ∈ rows ++ [x], e.origin ≠ some x.id)
    (horigin : x.origin = ((l.getLast?).map TextElement.id).or origin) : Chain (rows ++ [x]) origin (l ++ [x]) := by
  induction h with
  | @nil origin h =>
    refine .cons ?_ (.nil hid)
    have hnone : rows.filter (fun e => e.origin = origin) = [] :=
      filter_eq_nil_iff.mpr fun e he => by simpa using h e he
    have hx : x.origin = origin := horigin
    rw [filter_append, hnone]
    simp [hx]
  | @cons origin e l h hl ih =>
    rw [getLast?_cons, map_some, some_or] at horigin
    refine .cons ?_ (ih ?_)
    · have hx : x.origin ≠ origin := by
        rw [horigin]
        intro heq
        have hmem : l.getLast?.getD e ∈ e :: l := by
          cases hlast : l.getLast? with
          | none => exact mem_cons_self
          | some y => exact mem_cons_of_mem e (mem_of_getLast? hlast)
        exact lt_irrefl _ ((Chain.cons h hl).lt heq.symm _ hmem)
      rw [filter_append, h]
      simp [hx]
    · rw [horigin]
      cases l.getLast? with
      | none => rfl
      | some y => rfl

end Chain

namespace TextCrdt

variable {t : TextCrdt α}

/-- A replica with one element for each character of a text, none of which is deleted. -/
structure Spells (t : TextCrdt α) (chars : List α) : Prop where
  chain : Chain t.byId.rows none t.byId.rows
  chars : t.byId.rows.map TextElement.ch = chars
  alive : ∀ e ∈ t.byId.rows, e.deleted = false

variable {chars : List α}

theorem Spells.text (h : t.Spells chars) : t.text = chars := by
  have horder : order t.byId.rows = t.byId.rows := by
    have hle : span t.byId.rows ≤ span t.byId.rows + originCounter none := Nat.le_add_right _ _
    rw [order, ← visit_add hle t.byId.rows.length]
    exact h.chain.visit (Nat.le_add_left _ _)
  have halive : t.byId.rows.filter (fun e => !e.deleted) = t.byId.rows := by
    refine filter_eq_self.mpr fun e he => ?_
    rw [h.alive e he]
    rfl
  rw [TextCrdt.text, visible_eq, horder, halive, h.chars]

/-- One more character. -/
theorem Spells.place (h : t.Spells chars) (ch : α) {origin : Option OpId}
    (horigin : origin = (t.byId.rows.getLast?).map TextElement.id)
    (hle : ∀ o, origin = some o → o.counter ≤ t.counter) :
    (t.place ch origin hle).Spells (chars ++ [ch]) ∧
      ((t.place ch origin hle).byId.rows.getLast?).map TextElement.id = some t.nextId := by
  have hfresh : t.nextId ∉ t.byId.rows.map TextElement.id := by
    intro hmem
    obtain ⟨e, he, hid⟩ := List.mem_map.mp hmem
    have hcounted := t.counted e he
    rw [hid] at hcounted
    exact absurd hcounted (Nat.not_succ_le_self _)
  have hput : ∃ x : TextElement α, x.id = t.nextId ∧ x.ch = ch ∧ x.origin = origin ∧ x.deleted = false ∧
      (t.place ch origin hle).byId.rows = t.byId.rows ++ [x] :=
    ⟨_, rfl, rfl, rfl, rfl, Table.rows_put_of_notMem hfresh⟩
  obtain ⟨x, hid, hch, hxorigin, hlive, hrows⟩ := hput
  have hchain : Chain (t.byId.rows ++ [x]) none (t.byId.rows ++ [x]) := by
    refine h.chain.concat (fun e he horig => ?_) ?_
    · -- No element is inserted after one that is not older.
      have hlt := e.older x.id horig
      obtain he | he := mem_append.mp he
      · have hcounted := t.counted e he
        rw [hid] at hlt
        exact absurd (hlt.trans_le hcounted) (Nat.not_succ_lt_self)
      · rw [mem_singleton.mp he] at hlt
        exact lt_irrefl _ hlt
    · rw [hxorigin, horigin, or_none]
  refine ⟨⟨?_, ?_, ?_⟩, ?_⟩
  · rw [hrows]
    exact hchain
  · rw [hrows, map_append, h.chars, map_singleton, hch]
  · intro e he
    rw [hrows] at he
    obtain he | he := mem_append.mp he
    · exact h.alive e he
    · rw [mem_singleton.mp he]
      exact hlive
  · rw [hrows, getLast?_concat, map_some, hid]

theorem Spells.placeAll (h : t.Spells chars) {origin : Option OpId}
    (horigin : origin = (t.byId.rows.getLast?).map TextElement.id)
    (hle : ∀ o, origin = some o → o.counter ≤ t.counter) (more : List α) :
    (t.placeAll origin hle more).2.Spells (chars ++ more) := by
  induction more generalizing t chars origin with
  | nil => rwa [append_nil]
  | cons ch more ih =>
    obtain ⟨hplace, hlast⟩ := h.place ch horigin hle
    have hrest := ih hplace hlast.symm fun _ ho => (some.inj ho) ▸ le_rfl
    rw [append_assoc, singleton_append] at hrest
    exact hrest

theorem spells_seed (peer : ℤ) (chars : List α) : (seed peer chars).Spells chars := by
  have hempty : (empty α peer).Spells [] := ⟨.nil nofun, rfl, nofun⟩
  have hseed := hempty.placeAll rfl nofun chars
  exact ⟨hseed.chain, hseed.chars, hseed.alive⟩

/-- A seeded replica shows its text. -/
theorem text_seed (peer : ℤ) (chars : List α) : (seed peer chars).text = chars :=
  (spells_seed peer chars).text

end TextCrdt

end LazilyPy.Text

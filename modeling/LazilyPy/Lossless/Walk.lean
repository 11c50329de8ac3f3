import LazilyPy.Lossless.Reached

/-!
# Changes under one parent

Where all changes are under one parent, the document shows them exactly if it comes to the children of that parent.
-/

/-- Lists of parts of the same lengths are equal exactly if the parts are. -/
theorem flatMap_eq_iff {α β : Type} {l : List α} {f g : α → List β} (hlen : ∀ a ∈ l, (f a).length = (g a).length) :
    l.flatMap f = l.flatMap g ↔ ∀ a ∈ l, f a = g a := by
  induction l with
  | nil => exact iff_of_true rfl nofun
  | cons a l ih =>
    have hrest := ih fun b hb => hlen b (List.mem_cons_of_mem a hb)
    rw [List.flatMap_cons, List.flatMap_cons, List.forall_mem_cons, ← hrest]
    constructor
    · exact fun h => List.append_inj h (hlen a List.mem_cons_self)
    · rintro ⟨ha, hl⟩
      rw [ha, hl]

namespace LazilyPy.Lossless

namespace LosslessTreeCrdt

variable {s s' : LosslessTreeCrdt} {parent q : TreeOpId} {changed : List TreeOpId}

/-! ## Walks, element by element -/

def IsElement (s : LosslessTreeCrdt) (node : TreeOpId) : Prop :=
  ∃ r kind, s.get? node = some r ∧ r.body = .element kind

theorem walk_element (h : s.Grounded) (hq : s.IsElement q) : s.walk q = (s.children q).flatMap s.walk := by
  obtain ⟨r, kind, hr, hbody⟩ := hq
  rw [walk_eq h, hr]
  dsimp only
  rw [hbody]

theorem walk_leaf (h : s.Grounded) {r : NodeRecord} {kind : LeafKind} {t : Text.TextCrdt Char}
    (hr : s.get? q = some r) (hbody : r.body = .leaf kind t) : s.walk q = t.text := by
  rw [walk_eq h, hr]
  dsimp only
  rw [hbody]

/-- What is no element has no part in the order of the children. -/
theorem walk_congr (h : s.Grounded) (h' : s'.Grounded) (hget : s'.get? q = s.get? q) (hq : ¬ s.IsElement q) :
    s'.walk q = s.walk q := by
  rw [walk_eq h, walk_eq h', hget]
  cases hr : s.get? q with
  | none => rfl
  | some r =>
    dsimp only
    cases hbody : r.body with
    | leaf kind text => rfl
    | element kind => exact absurd ⟨r, kind, hr, hbody⟩ hq

/-- What holds of a node if it holds of its children holds of all nodes: children are younger. -/
theorem Grounded.induction_children (h : s.Grounded) {motive : TreeOpId → Prop}
    (hstep : ∀ q, (∀ child ∈ s.children q, motive child) → motive q) (q : TreeOpId) : motive q := by
  have hdepth : ∀ n (q : TreeOpId), s.counter < n + q.counter → motive q := by
    intro n
    induction n with
    | zero =>
      intro q hq
      refine hstep q fun child hchild => ?_
      have hlt := h.lt_of_mem_children hchild
      obtain ⟨r, hr, rfl, -⟩ := mem_children hchild
      have hle := (h.nodes r hr).counted
      omega
    | succ n ih =>
      intro q hq
      refine hstep q fun child hchild => ih child ?_
      have hlt := h.lt_of_mem_children hchild
      omega
  exact hdepth (s.counter + 1) q (by omega)

/-! ## What a walk comes to -/

/-- The walk of `q` comes to the children of `parent`. -/
inductive Shows (s : LosslessTreeCrdt) (parent : TreeOpId) : TreeOpId → Prop
  | here (h : s.IsElement parent) : Shows s parent parent
  | under {q child : TreeOpId} (h : s.IsElement q) (hchild : child ∈ s.children q) (hshows : Shows s parent child) :
      Shows s parent q

theorem Shows.isElement (h : s.Shows parent q) : s.IsElement q := by
  cases h with
  | here h => exact h
  | under h _ _ => exact h

theorem Shows.isElement_parent (h : s.Shows parent q) : s.IsElement parent := by
  induction h with
  | here h => exact h
  | under _ _ _ ih => exact ih

theorem Shows.le (hs : s.Grounded) (h : s.Shows parent q) : q.counter ≤ parent.counter := by
  induction h with
  | here _ => exact le_rfl
  | under _ hchild _ ih => exact (hs.lt_of_mem_children hchild).le.trans ih

/-- No walk from a child comes back to the parent. -/
theorem not_shows_of_mem_children (hs : s.Grounded) (hq : q ∈ s.children parent) : ¬ s.Shows parent q := fun h =>
  absurd (h.le hs) (not_le.mpr (hs.lt_of_mem_children hq))

theorem shows_iff (hne : q ≠ parent) (hq : s.IsElement q) :
    s.Shows parent q ↔ ∃ child ∈ s.children q, s.Shows parent child := by
  constructor
  · intro h
    cases h with
    | here _ => exact absurd rfl hne
    | under _ hchild hshows => exact ⟨_, hchild, hshows⟩
  · rintro ⟨child, hchild, hshows⟩
    exact .under hq hchild hshows

/-! ## Changes under one parent -/

/-- The nodes that have changed are under one parent. The others are as they were, and so are their children. -/
structure Within (s s' : LosslessTreeCrdt) (parent : TreeOpId) (changed : List TreeOpId) : Prop where
  get : ∀ q, q ∉ changed → s'.get? q = s.get? q
  children : ∀ q, q ≠ parent → s'.children q = s.children q
  under : ∀ q, ∀ child ∈ s.children q, child ∈ changed → q = parent
  younger : ∀ node ∈ changed, parent.counter < node.counter

namespace Within

theorem parent_notMem (h : s.Within s' parent changed) : parent ∉ changed := fun hin =>
  lt_irrefl _ (h.younger parent hin)

theorem isElement_iff (h : s.Within s' parent changed) (hq : q ∉ changed) : s'.IsElement q ↔ s.IsElement q := by
  rw [IsElement, IsElement, h.get q hq]

section

variable (h : s.Within s' parent changed) (hs : s.Grounded) (hs' : s'.Grounded)

include h hs hs'

theorem walk_of_not_shows (q : TreeOpId) :
    q ∉ changed → ¬ s.Shows parent q → s'.walk q = s.walk q := by
  induction q using hs.induction_children with
  | hstep q ih =>
    intro hq hshows
    by_cases helement : s.IsElement q
    · have hne : q ≠ parent := by
        rintro rfl
        exact hshows (.here helement)
      rw [walk_element hs helement, walk_element hs' ((h.isElement_iff hq).mpr helement), h.children q hne]
      refine List.flatMap_congr fun child hchild => ih child hchild (fun hin => ?_) fun hin => ?_
      · exact hne (h.under q child hchild hin)
      · exact hshows (.under helement hchild hin)
    · exact walk_congr hs hs' (h.get q hq) helement

/-- A child of the parent that has not changed. -/
theorem walk_child {child : TreeOpId} (hchild : child ∈ s.children parent) (hnot : child ∉ changed) :
    s'.walk child = s.walk child :=
  h.walk_of_not_shows hs hs' child hnot (not_shows_of_mem_children hs hchild)

theorem walk_iff (hlength : (s'.walk parent).length = (s.walk parent).length) (q : TreeOpId) : q ∉ changed →
      (s'.walk q).length = (s.walk q).length ∧
        (s'.walk q = s.walk q ↔ (s.Shows parent q → s'.walk parent = s.walk parent)) := by
  induction q using hs.induction_children with
  | hstep q ih =>
    intro hq
    by_cases hshows : s.Shows parent q
    · by_cases hne : q = parent
      · subst hne
        exact ⟨hlength, fun heq _ => heq, fun heq => heq hshows⟩
      · have helement := hshows.isElement
        have hchild : ∀ child ∈ s.children q, child ∉ changed :=
          fun child hchild hin => hne (h.under q child hchild hin)
        have hlengths : ∀ child ∈ s.children q, (s'.walk child).length = (s.walk child).length :=
          fun child hmem => (ih child hmem (hchild child hmem)).1
        rw [walk_element hs helement, walk_element hs' ((h.isElement_iff hq).mpr helement), h.children q hne,
          flatMap_eq_iff hlengths]
        refine ⟨?_, fun heq _ => ?_, fun heq child hmem => ?_⟩
        · rw [List.length_flatMap, List.length_flatMap, List.map_congr_left hlengths]
        · obtain ⟨child, hmem, hshown⟩ := (shows_iff hne helement).mp hshows
          exact (ih child hmem (hchild child hmem)).2.mp (heq child hmem) hshown
        · exact (ih child hmem (hchild child hmem)).2.mpr fun _ => heq hshows
    · have heq := h.walk_of_not_shows hs hs' q hq hshows
      exact ⟨congrArg List.length heq, iff_of_true heq fun hin => absurd hin hshows⟩

/-- The document is as it was exactly if it does not come to the children of the parent, or if what they show is as it
was. -/
theorem render_iff (hlength : (s'.walk parent).length = (s.walk parent).length) :
    s'.render = s.render ↔ (s.Shows parent ROOT → s'.walk parent = s.walk parent) := by
  refine (h.walk_iff hs hs' hlength ROOT fun hin => ?_).2
  exact Nat.not_lt_zero _ (h.younger ROOT hin)

end

end Within

end LosslessTreeCrdt

end LazilyPy.Lossless

import Mathlib.Order.WithBot
import Mathlib.Order.MinMax
import LazilyPy.Text.Crdt

/-!
# Merging is a join

What a replica knows of an id is a point of a lattice: nothing, the element, or the element
with a delete id, of which the smaller is above the greater. Merging two replicas takes the
join of what they know of every id.
-/

namespace LazilyPy.Text

open Table TextElement

variable {α : Type}

/-- What can be known of an id, the less first: nothing, an element, a deleted element. -/
abbrev Status :=
  WithBot (WithTop OpId)ᵒᵈ

/-- What a delete id says: none is the least, and the smaller are above the greater. -/
def deletion : Option OpId → (WithTop OpId)ᵒᵈ
  | none => OrderDual.toDual ⊤
  | some d => OrderDual.toDual (d : WithTop OpId)

theorem deletion_merge (a b : Option OpId) : deletion (Option.merge min a b) = deletion a ⊔ deletion b := by
  cases a with
  | none => cases b <;> simp [deletion]
  | some d =>
    cases b with
    | none => simp [deletion]
    | some d' => simp [deletion, ← toDual_inf]

theorem deletion_injective : Function.Injective deletion := by
  intro a b h
  cases a with
  | none =>
    cases b with
    | none => rfl
    | some d => exact absurd (OrderDual.toDual.injective h).symm WithTop.coe_ne_top
  | some d =>
    cases b with
    | none => exact absurd (OrderDual.toDual.injective h) WithTop.coe_ne_top
    | some d' => exact congrArg some (WithTop.coe_injective (OrderDual.toDual.injective h))

/-- A delete id after a join has been there before. -/
theorem TextElement.deleteId_of_join {e o : TextElement α} {d : OpId} (h : (e.join o).deleteId = some d) :
    e.deleteId = some d ∨ o.deleteId = some d := by
  rw [join_deleteId] at h
  cases he : e.deleteId with
  | none => exact .inr (by simpa [he] using h)
  | some d₀ =>
    cases ho : o.deleteId with
    | none => exact .inl (by simpa [he, ho] using h)
    | some d' =>
      have hmin : min d₀ d' = d := by simpa [he, ho] using h
      obtain heq | heq := min_choice d₀ d'
      · exact .inl (by rw [← hmin, heq])
      · exact .inr (by rw [← hmin, heq])

namespace TextCrdt

def status (t : TextCrdt α) (i : OpId) : Status :=
  (t.get? i).elim ⊥ fun e => (deletion e.deleteId : Status)

/-! ## The elements of a merged replica -/

theorem observe_get? (acc : Table (TextElement.id (α := α)) × Bool) (op : TextOp α) (i : OpId) :
    (observe acc op).1.get? i = if i = op.id then some ((acc.1.get? op.id).elim op fun e => e.join op)
      else acc.1.get? i := by
  unfold observe
  cases hget : acc.1.get? op.id with
  | none => simp [get?_put]
  | some e =>
    have hid : e.id = op.id := key_of_get? hget
    dsimp only
    split
    · next habsorb =>
      have hjoin : e.join op = e := by simp [join, habsorb]
      by_cases hi : i = op.id
      · subst hi
        simp [hget, hjoin]
      · simp [hi]
    · next joined habsorb =>
      have hjoin : e.join op = joined := by simp [join, habsorb]
      have hkey : joined.id = op.id := by rw [← hjoin, join_id, hid]
      simp [get?_put, hkey, hjoin]

/-- Observing the elements of a table joins the two tables. -/
theorem foldl_observe_get? {ops : List (TextOp α)} (h : (ops.map TextElement.id).Nodup)
    (acc : Table (TextElement.id (α := α)) × Bool) (i : OpId) :
    (ops.foldl observe acc).1.get? i =
      Option.merge join (acc.1.get? i) (ops.find? fun e => e.id = i) := by
  induction ops generalizing acc with
  | nil => simp
  | cons op ops ih =>
    obtain ⟨hnew, hrest⟩ := List.nodup_cons.mp h
    rw [List.foldl_cons, ih hrest, observe_get?]
    by_cases hi : i = op.id
    · subst hi
      have hnone : ops.find? (fun e => e.id = op.id) = none := by
        refine List.find?_eq_none.mpr fun e he heq => hnew ?_
        exact List.mem_map.mpr ⟨e, he, by simpa using heq⟩
      cases hget : acc.1.get? op.id <;> simp [hnone]
    · have hne : ¬ op.id = i := fun heq => hi heq.symm
      simp [hi, hne]

theorem get?_applyDelta (t : TextCrdt α) (ops : Table (TextElement.id (α := α))) (i : OpId) :
    (t.applyDelta ops.rows).2.get? i = Option.merge join (t.get? i) (ops.get? i) :=
  foldl_observe_get? ops.nodup (t.byId, false) i

theorem get?_merge (t other : TextCrdt α) (i : OpId) :
    (t.merge other).get? i = Option.merge join (t.get? i) (other.get? i) :=
  get?_applyDelta t other.byId i

/-- Merging joins what is known of each id. -/
theorem status_merge (t other : TextCrdt α) : (t.merge other).status = t.status ⊔ other.status := by
  funext i
  rw [Pi.sup_apply, status, get?_merge]
  cases ht : t.get? i with
  | none => cases ho : other.get? i <;> simp [status, ht, ho]
  | some e =>
    cases ho : other.get? i with
    | none => simp [status, ht, ho]
    | some o =>
      simp [status, ht, ho, join_deleteId, deletion_merge]

/-! ## Replicas that agree -/

/-- The replicas have the same character and origin behind every id that both hold. -/
def Agree (t t' : TextCrdt α) : Prop :=
  ∀ e ∈ t.byId.rows, ∀ e' ∈ t'.byId.rows, e.id = e'.id → e.ch = e'.ch ∧ e.origin = e'.origin

variable {t t' : TextCrdt α}

theorem Agree.symm (h : Agree t t') : Agree t' t := by
  intro e he e' he' hid
  obtain ⟨hch, horigin⟩ := h e' he' e he hid.symm
  exact ⟨hch.symm, horigin.symm⟩

/-- Where an element comes from after others have been observed. -/
theorem mem_applyDelta {ops : Table (TextElement.id (α := α))} {e : TextElement α}
    (h : e ∈ (t.applyDelta ops.rows).2.byId.rows) :
    ∃ e₀, (e₀ ∈ t.byId.rows ∨ e₀ ∈ ops.rows) ∧ e₀.id = e.id ∧ e₀.ch = e.ch ∧ e₀.origin = e.origin := by
  have hget : Option.merge join (t.get? e.id) (ops.get? e.id) = some e :=
    (get?_applyDelta t ops e.id).symm.trans (get?_of_mem h)
  cases ht : t.get? e.id with
  | none =>
    obtain ⟨o, ho, rfl⟩ : ∃ o, ops.get? e.id = some o ∧ o = e := by simpa [ht] using hget
    exact ⟨o, .inr (mem_of_get? ho), rfl, rfl, rfl⟩
  | some e₀ =>
    refine ⟨e₀, .inl (mem_of_get? ht), key_of_get? ht, ?_⟩
    cases ho : ops.get? e.id with
    | none =>
      obtain rfl : e₀ = e := by simpa [ht, ho] using hget
      exact ⟨rfl, rfl⟩
    | some o =>
      obtain rfl : e₀.join o = e := by simpa [ht, ho] using hget
      exact ⟨(join_ch e₀ o).symm, (join_origin e₀ o).symm⟩

/-- Where a delete id comes from after others have been observed. -/
theorem deleteId_applyDelta {ops : Table (TextElement.id (α := α))} {e : TextElement α}
    (h : e ∈ (t.applyDelta ops.rows).2.byId.rows) {d : OpId} (hd : e.deleteId = some d) :
    ∃ e₀, (e₀ ∈ t.byId.rows ∨ e₀ ∈ ops.rows) ∧ e₀.id = e.id ∧ e₀.deleteId = some d := by
  have hget : Option.merge join (t.get? e.id) (ops.get? e.id) = some e :=
    (get?_applyDelta t ops e.id).symm.trans (get?_of_mem h)
  cases ht : t.get? e.id with
  | none =>
    obtain ⟨o, ho, rfl⟩ : ∃ o, ops.get? e.id = some o ∧ o = e := by simpa [ht] using hget
    exact ⟨o, .inr (mem_of_get? ho), rfl, hd⟩
  | some e₀ =>
    have hid₀ : e₀.id = e.id := key_of_get? ht
    cases ho : ops.get? e.id with
    | none =>
      obtain rfl : e₀ = e := by simpa [ht, ho] using hget
      exact ⟨e₀, .inl (mem_of_get? ht), rfl, hd⟩
    | some o =>
      have hid : o.id = e.id := key_of_get? ho
      obtain rfl : e₀.join o = e := by simpa [ht, ho] using hget
      obtain hfrom | hfrom := TextElement.deleteId_of_join hd
      · exact ⟨e₀, .inl (mem_of_get? ht), hid₀, hfrom⟩
      · exact ⟨o, .inr (mem_of_get? ho), hid, hfrom⟩

theorem Agree.merge {other : TextCrdt α} (h : Agree t t') (h' : Agree other t') : Agree (t.merge other) t' := by
  intro e he e' he' hid
  obtain ⟨e₀, hfrom, hid₀, hch, horigin⟩ := mem_applyDelta he
  rw [← hch, ← horigin]
  rcases hfrom with hfrom | hfrom
  · exact h e₀ hfrom e' he' (hid₀.trans hid)
  · exact h' e₀ hfrom e' he' (hid₀.trans hid)

/-- Replicas that agree and know the same hold the same elements. -/
theorem Agree.get?_eq (h : Agree t t') (hs : t.status = t'.status) (i : OpId) : t.get? i = t'.get? i := by
  have hi := congrFun hs i
  cases ht : t.get? i with
  | none =>
    cases ht' : t'.get? i with
    | none => rfl
    | some e' => simp [status, ht, ht'] at hi
  | some e =>
    cases ht' : t'.get? i with
    | none => simp [status, ht, ht'] at hi
    | some e' =>
      have hid : e.id = e'.id := (key_of_get? ht).trans (key_of_get? ht').symm
      obtain ⟨hch, horigin⟩ := h e (mem_of_get? ht) e' (mem_of_get? ht') hid
      have hd : e.deleteId = e'.deleteId := by
        refine deletion_injective (WithBot.coe_injective ?_)
        simpa [status, ht, ht'] using hi
      rw [eq_of_deleteId_eq hid hch horigin hd]

/-- The text is a function of the elements. -/
theorem text_congr (h : ∀ i, t.get? i = t'.get? i) : t.text = t'.text := by
  rw [text, text, visible_eq, visible_eq, order_perm (perm_of_get?_eq h) t.byId.nodup]

end TextCrdt

end LazilyPy.Text

import LazilyPy.Text.Causal

/-!
# Delta sync

What `delta_since` leaves out, by the version vector of the receiver, is what the receiver
would not learn anything from.
-/

namespace LazilyPy.Text

open List

variable {α : Type}

namespace TextCrdt

/-! ## The version vector -/

theorem le_vvStep (peer : ℤ) (c : ℕ) (e : TextElement α) : c ≤ vvStep peer c e := by
  unfold vvStep
  dsimp only
  split <;> split <;> (try split) <;> omega

theorem id_le_vvStep (c : ℕ) (e : TextElement α) : e.id.counter ≤ vvStep e.id.peer c e := by
  unfold vvStep
  simp only [if_true]
  split <;> (try split) <;> omega

theorem deleteId_le_vvStep (c : ℕ) {e : TextElement α} {d : OpId} (h : e.deleteId = some d) :
    d.counter ≤ vvStep d.peer c e := by
  simp [vvStep, h]

theorem vvStep_cases (peer : ℤ) (c : ℕ) (e : TextElement α) : vvStep peer c e = c ∨
    ∃ d, (e.id = d ∨ e.deleteId = some d) ∧ d.peer = peer ∧ d.counter = vvStep peer c e := by
  have hid : (if e.id.peer = peer then max c e.id.counter else c) = c ∨
      e.id.peer = peer ∧ (if e.id.peer = peer then max c e.id.counter else c) = e.id.counter := by
    split
    · next hpeer => exact (max_choice c e.id.counter).imp id fun hmax => ⟨hpeer, hmax⟩
    · exact .inl rfl
  unfold vvStep
  dsimp only
  cases hd : e.deleteId with
  | none => exact hid.imp id fun ⟨hpeer, heq⟩ => ⟨e.id, .inl rfl, hpeer, heq.symm⟩
  | some d =>
    dsimp only
    split
    · next hpeer =>
      rcases max_choice (if e.id.peer = peer then max c e.id.counter else c) d.counter with heq | heq
      · rw [heq]
        exact hid.imp id fun ⟨hpeer, heq⟩ => ⟨e.id, .inl rfl, hpeer, heq.symm⟩
      · exact .inr ⟨d, .inr rfl, hpeer, heq.symm⟩
    · exact hid.imp id fun ⟨hpeer, heq⟩ => ⟨e.id, .inl rfl, hpeer, heq.symm⟩

theorem le_foldl_vvStep (peer : ℤ) (rows : List (TextElement α)) (c : ℕ) : c ≤ rows.foldl (vvStep peer) c := by
  induction rows generalizing c with
  | nil => exact le_rfl
  | cons e rows ih => exact (le_vvStep peer c e).trans (ih _)

/-- The vector covers every operation that the replica knows. -/
theorem Mentions.le_versionVector {t : TextCrdt α} {d : OpId} (h : t.Mentions d) :
    d.counter ≤ t.versionVector d.peer := by
  obtain ⟨e, he, hd⟩ := h
  suffices hfold : ∀ (rows : List (TextElement α)) c, e ∈ rows →
      d.counter ≤ rows.foldl (vvStep d.peer) c from hfold _ 0 he
  intro rows
  induction rows with
  | nil => exact fun _ he => absurd he not_mem_nil
  | cons r rows ih =>
    intro c he
    rcases mem_cons.mp he with rfl | he
    · refine le_trans ?_ (le_foldl_vvStep d.peer rows _)
      rcases hd with rfl | hd
      · exact id_le_vvStep c e
      · exact deleteId_le_vvStep c hd
    · exact ih _ he

/-- The vector names the newest operation of a peer that the replica knows. -/
theorem exists_versionVector {t : TextCrdt α} {peer : ℤ} (h : 0 < t.versionVector peer) :
    ∃ d, t.Mentions d ∧ d.peer = peer ∧ d.counter = t.versionVector peer := by
  suffices hfold : ∀ (rows : List (TextElement α)) c, rows.foldl (vvStep peer) c = c ∨
      ∃ e ∈ rows, ∃ d, (e.id = d ∨ e.deleteId = some d) ∧ d.peer = peer ∧ d.counter = rows.foldl (vvStep peer) c by
    rcases hfold t.byId.rows 0 with hzero | ⟨e, he, d, hd, hpeer, hcounter⟩
    · exact absurd hzero h.ne'
    · exact ⟨d, ⟨e, he, hd⟩, hpeer, hcounter⟩
  intro rows
  induction rows with
  | nil => exact fun _ => .inl rfl
  | cons r rows ih =>
    intro c
    rcases ih (vvStep peer c r) with hsame | ⟨e, he, d, hd⟩
    · rw [foldl_cons, hsame]
      rcases vvStep_cases peer c r with hsame | ⟨d, hd⟩
      · exact .inl hsame
      · exact .inr ⟨r, mem_cons_self, d, hd⟩
    · exact .inr ⟨e, mem_cons_of_mem r he, d, hd⟩

/-! ## What a delta leaves out -/

theorem unseen_eq_false {vv : ℤ → ℕ} {e : TextElement α} : unseen vv e = false ↔
    e.id.counter ≤ vv e.id.peer ∧ ∀ d, e.deleteId = some d → d.counter ≤ vv d.peer := by
  have hmarked := e.marked
  unfold unseen
  cases hd : e.deleteId with
  | none => simp
  | some d => simp [hmarked, hd]

/-- Ops from which nothing is learnt may be left out. -/
theorem foldl_observe_filter {ops : List (TextOp α)} (hnodup : (ops.map TextElement.id).Nodup)
    (p : TextElement α → Bool) (acc : Table (TextElement.id (α := α)) × Bool)
    (h : ∀ op ∈ ops, p op = false → ∃ e, acc.1.get? op.id = some e ∧ e.absorb op = none) :
    (ops.filter p).foldl observe acc = ops.foldl observe acc := by
  induction ops generalizing acc with
  | nil => rfl
  | cons op ops ih =>
    obtain ⟨hnew, hrest⟩ := nodup_cons.mp hnodup
    by_cases hp : p op = true
    · rw [filter_cons_of_pos hp, foldl_cons, foldl_cons]
      refine ih hrest _ fun op' hop' hp' => ?_
      obtain ⟨e, he, habsorb⟩ := h op' (mem_cons_of_mem op hop') hp'
      have hne : op'.id ≠ op.id := fun heq => hnew (heq ▸ mem_map_of_mem hop')
      exact ⟨e, by rw [observe_get?, if_neg hne, he], habsorb⟩
    · obtain ⟨e, he, habsorb⟩ := h op mem_cons_self (by simpa using hp)
      have hsame : observe acc op = acc := by simp [observe, he, habsorb]
      rw [filter_cons_of_neg hp, foldl_cons, hsame]
      exact ih hrest acc fun op' hop' => h op' (mem_cons_of_mem op hop')

end TextCrdt

namespace Causal

variable {ι : Type} {peerOf : ι → ℤ} {X : OpId → Prop} {R : ι → TextCrdt α} {L : TextCrdt α → Prop} {s t : TextCrdt α}

section

variable (h : Causal peerOf X R L) (hs : L s) (ht : L t)

include h hs ht

/-- What a delta leaves out, the receiver knows. -/
theorem known_of_seen {e : TextElement α} (he : e ∈ s.byId.rows) (hseen : TextCrdt.unseen t.versionVector e = false) :
    X e.id ∨ t.Present e.id ∧ ∀ d, e.deleteId = some d → t.Buried e.id d := by
  obtain ⟨hid, hdelete⟩ := TextCrdt.unseen_eq_false.mp hseen
  obtain ⟨d, hd, hpeer, hcounter⟩ := TextCrdt.exists_versionVector (e.minted.trans_le hid)
  rcases h.inserts t s ht hs d hd e he hpeer.symm (hcounter.symm ▸ hid) with hx | hpresent
  · exact .inl hx
  by_cases hx : X e.id
  · exact .inl hx
  refine .inr ⟨hpresent, fun d' hd' => ?_⟩
  have hpos : 0 < t.versionVector d'.peer := (e.stamped d' hd').trans_le (hdelete d' hd')
  obtain ⟨d, hd, hpeer, hcounter⟩ := TextCrdt.exists_versionVector hpos
  exact (h.deletes t s ht hs d hd e he d' hd' hpeer.symm (hcounter.symm ▸ hdelete d' hd')).resolve_left hx

/-- A receiver for which a delta carries nothing new knows everything that its sender knows. -/
theorem covers_of_unchanged (hsame : (t.applyDelta (s.deltaSince t.versionVector)).1 = false) : t.Covers X s := by
  intro e he
  by_cases hseen : TextCrdt.unseen t.versionVector e = true
  · obtain ⟨e', he', habsorb⟩ := (TextCrdt.foldl_observe_unchanged hsame).2 e (mem_filter.mpr ⟨he, hseen⟩)
    obtain ⟨hmem, hid⟩ := Table.get?_eq_some.mp he'
    refine .inr ⟨⟨e', hmem, hid⟩, fun d hd => ⟨e', hmem, hid, ?_⟩⟩
    exact TextElement.known_of_absorb_eq_none habsorb hd
  · exact h.known_of_seen hs ht he (by simpa using hseen)

/-- Two replicas that know the same hold the same elements, up to the ids in `X`. -/
theorem mem_of_covers (hts : t.Covers X s) (hst : s.Covers X t) {e : TextElement α} (he : e ∈ s.byId.rows)
    (hx : ¬ X e.id) :
    e ∈ t.byId.rows := by
  obtain ⟨⟨e', he', hid⟩, hburied⟩ := (hts e he).resolve_left hx
  obtain ⟨hch, horigin⟩ := h.agree s t hs ht e he e' he' hid.symm
  have hd : e.deleteId = e'.deleteId := by
    -- each of the two delete ids is at most the other
    have hback : ∀ d, e'.deleteId = some d → ∃ d', e.deleteId = some d' ∧ d' ≤ d := by
      intro d hd
      obtain ⟨e₁, he₁, hid₁, hd₁⟩ := ((hst e' he').resolve_left (hid.symm ▸ hx)).2 d hd
      rwa [Table.eq_of_key_eq he he₁ (hid.symm.trans hid₁.symm)]
    cases hde : e.deleteId with
    | none =>
      cases hde' : e'.deleteId with
      | none => rfl
      | some d =>
        obtain ⟨d', hd', _⟩ := hback d hde'
        rw [hde] at hd'
        cases hd'
    | some d =>
      obtain ⟨e₁, he₁, hid₁, d₁, hd₁, hle⟩ := hburied d hde
      obtain rfl := Table.eq_of_key_eq he' he₁ (hid.trans hid₁.symm)
      obtain ⟨d₂, hd₂, hle₂⟩ := hback d₁ hd₁
      obtain rfl : d = d₂ := Option.some.inj (hde.symm.trans hd₂)
      rw [hd₁, le_antisymm hle hle₂]
  rwa [TextElement.eq_of_deleteId_eq hid.symm hch horigin hd]

/-- A delta carries everything that its sender knows. -/
theorem covers_delta :
    (t.applyDelta (s.deltaSince t.versionVector)).2.Covers X s := by
  intro e he
  have hkept : (t.applyDelta (s.deltaSince t.versionVector)).2.Covers X t :=
    t.covers_applyDelta (s.byId.filter (TextCrdt.unseen t.versionVector))
  by_cases hseen : TextCrdt.unseen t.versionVector e = true
  · exact .inr (t.observed (s.byId.filter (TextCrdt.unseen t.versionVector)) (mem_filter.mpr ⟨he, hseen⟩))
  · rcases h.known_of_seen hs ht he (by simpa using hseen) with hx | ⟨hpresent, hburied⟩
    · exact .inl hx
    by_cases hx : X e.id
    · exact .inl hx
    · exact .inr ⟨(hpresent.covers hkept).resolve_left hx, fun d hd => ((hburied d hd).covers hkept).resolve_left hx⟩

end

/-- Applying a delta is merging the whole state. -/
theorem applyDelta_eq_merge (h : Causal peerOf (fun _ => False) R L) (hs : L s) (ht : L t) :
    (t.applyDelta (s.deltaSince t.versionVector)).2 = t.merge s := by
  have hfold : (s.deltaSince t.versionVector).foldl TextCrdt.observe (t.byId, false) =
      s.byId.rows.foldl TextCrdt.observe (t.byId, false) := by
    refine TextCrdt.foldl_observe_filter s.byId.nodup _ _ fun e he hseen => ?_
    obtain ⟨⟨e₀, he₀, hid⟩, hburied⟩ := (h.known_of_seen hs ht he hseen).resolve_left id
    refine ⟨e₀, Table.get?_eq_some.mpr ⟨he₀, hid⟩, TextElement.absorb_eq_none fun d hd => ?_⟩
    obtain ⟨e₁, he₁, hid₁, hd₁⟩ := hburied d hd
    rwa [Table.eq_of_key_eq he₀ he₁ (hid.trans hid₁.symm)]
  have hfun : t.applyDelta (s.deltaSince t.versionVector) = t.applyDelta s.byId.rows := by
    simp only [TextCrdt.applyDelta, hfold]
  rw [TextCrdt.merge, hfun]

end Causal

end LazilyPy.Text

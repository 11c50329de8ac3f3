import LazilyPy.Text.Join

/-!
# Causal replicas

A version vector stands for a set of operations only because every replica knows of each peer
a prefix of what that peer has done. `Causal` says so for any set of states that may still be
merged from, up to the ids that garbage collection has removed.
-/

namespace LazilyPy.Text

open Function Table
open TextElement (join_deleteId join_id)

variable {α : Type}

namespace TextCrdt

def Present (t : TextCrdt α) (i : OpId) : Prop :=
  ∃ e ∈ t.byId.rows, e.id = i

/-- The replica knows the insertion or the deletion with this id. -/
def Mentions (t : TextCrdt α) (d : OpId) : Prop :=
  ∃ e ∈ t.byId.rows, e.id = d ∨ e.deleteId = some d

/-- The replica holds the element as deleted, by `d` or an earlier deletion. -/
def Buried (t : TextCrdt α) (i d : OpId) : Prop :=
  ∃ e ∈ t.byId.rows, e.id = i ∧ ∃ d', e.deleteId = some d' ∧ d' ≤ d

/-- The replica `t` knows what `s` knows, up to the ids in `X`. -/
def Covers (X : OpId → Prop) (t s : TextCrdt α) : Prop :=
  ∀ e ∈ s.byId.rows, X e.id ∨ t.Present e.id ∧ ∀ d, e.deleteId = some d → t.Buried e.id d

theorem Buried.mono {t : TextCrdt α} {i d d' : OpId} (h : t.Buried i d) (hd : d ≤ d') : t.Buried i d' := by
  obtain ⟨e, he, hid, d₀, hd₀, hle⟩ := h
  exact ⟨e, he, hid, d₀, hd₀, hle.trans hd⟩

theorem Buried.covers {X : OpId → Prop} {t s : TextCrdt α} {i d : OpId} (h : s.Buried i d)
    (hc : t.Covers X s) : X i ∨ t.Buried i d := by
  obtain ⟨e, he, rfl, d₀, hd₀, hle⟩ := h
  exact (hc e he).imp id fun hknown => (hknown.2 d₀ hd₀).mono hle

theorem Present.covers {X : OpId → Prop} {t s : TextCrdt α} {i : OpId} (h : s.Present i)
    (hc : t.Covers X s) : X i ∨ t.Present i := by
  obtain ⟨e, he, rfl⟩ := h
  exact (hc e he).imp id And.left

end TextCrdt

/-! ## The invariant -/

variable {ι : Type}

/-- The invariant of the replicas `R`, of the states `L` that may be merged from and of the ids
`X` that have been collected. -/
structure Causal (peerOf : ι → ℤ) (X : OpId → Prop) (R : ι → TextCrdt α) (L : TextCrdt α → Prop) : Prop where
  current : ∀ i, L (R i)
  peer : ∀ i, (R i).peer = peerOf i
  /-- Nothing that a peer has issued is newer than its counter. -/
  bound : ∀ s, L s → ∀ d, s.Mentions d → ∀ i, peerOf i = d.peer → d.counter ≤ (R i).counter
  agree : ∀ s t, L s → L t → s.Agree t
  /-- Who knows an operation of a peer holds everything that the peer inserted before. -/
  inserts : ∀ s t, L s → L t → ∀ d, s.Mentions d → ∀ e ∈ t.byId.rows, e.id.peer = d.peer →
    e.id.counter ≤ d.counter → X e.id ∨ s.Present e.id
  /-- Who knows an operation of a peer holds as deleted what the peer deleted before. -/
  deletes : ∀ s t, L s → L t → ∀ d, s.Mentions d → ∀ e ∈ t.byId.rows, ∀ d', e.deleteId = some d' →
    d'.peer = d.peer → d'.counter ≤ d.counter → X e.id ∨ s.Buried e.id d'
  /-- A replica holds what its peer inserted. -/
  ownInserts : ∀ t, L t → ∀ e ∈ t.byId.rows, ∀ i, e.id.peer = peerOf i → X e.id ∨ (R i).Present e.id
  /-- A replica holds as deleted what its peer deleted. -/
  ownDeletes : ∀ t, L t → ∀ e ∈ t.byId.rows, ∀ d, e.deleteId = some d → ∀ i, d.peer = peerOf i →
    X e.id ∨ (R i).Buried e.id d

/-- A new state of the replica `i`: what it contains is known to some state that it covers, or it
is newer than anything that its peer has issued. -/
structure Fresh (peerOf : ι → ℤ) (X : OpId → Prop) (R : ι → TextCrdt α) (L : TextCrdt α → Prop)
    (i : ι) (t : TextCrdt α) : Prop where
  peer : t.peer = peerOf i
  counter : (R i).counter ≤ t.counter
  covers : t.Covers X (R i)
  mention : ∀ d, t.Mentions d → (∃ s, L s ∧ s.Mentions d ∧ t.Covers X s) ∨
    d.peer = peerOf i ∧ (R i).counter < d.counter ∧ d.counter ≤ t.counter
  element : ∀ e ∈ t.byId.rows, (∃ s, L s ∧ ∃ e₀ ∈ s.byId.rows, e₀.id = e.id ∧ e₀.ch = e.ch ∧ e₀.origin = e.origin) ∨
      e.id.peer = peerOf i ∧ (R i).counter < e.id.counter
  deletion : ∀ e ∈ t.byId.rows, ∀ d, e.deleteId = some d →
    (∃ s, L s ∧ ∃ e₀ ∈ s.byId.rows, e₀.id = e.id ∧ e₀.deleteId = some d) ∨ d.peer = peerOf i ∧ (R i).counter < d.counter

namespace Causal

variable {peerOf : ι → ℤ} {X X' : OpId → Prop} {R : ι → TextCrdt α} {L L' : TextCrdt α → Prop}

/-- Fewer states, and more collected ids. -/
theorem mono (h : Causal peerOf X R L) (hX : ∀ i, X i → X' i) (hL : ∀ s, L' s → L s)
    (hcurrent : ∀ i, L' (R i)) : Causal peerOf X' R L' where
  current := hcurrent
  peer := h.peer
  bound s hs := h.bound s (hL s hs)
  agree s t hs ht := h.agree s t (hL s hs) (hL t ht)
  inserts s t hs ht d hd e he hp hc := (h.inserts s t (hL s hs) (hL t ht) d hd e he hp hc).imp (hX _) id
  deletes s t hs ht d hd e he d' hd' hp hc :=
    (h.deletes s t (hL s hs) (hL t ht) d hd e he d' hd' hp hc).imp (hX _) id
  ownInserts t ht e he i hp := (h.ownInserts t (hL t ht) e he i hp).imp (hX _) id
  ownDeletes t ht e he d hd i hp := (h.ownDeletes t (hL t ht) e he d hd i hp).imp (hX _) id

variable {i : ι} {t : TextCrdt α}

/-- Empty replicas. -/
theorem init (peerOf : ι → ℤ) : Causal peerOf X (fun i => TextCrdt.empty α (peerOf i))
      (fun s => ∃ i, s = TextCrdt.empty α (peerOf i)) where
  current i := ⟨i, rfl⟩
  peer i := rfl
  bound := by
    rintro _ ⟨i, rfl⟩ d ⟨e, he, _⟩
    cases he
  agree := by
    rintro _ _ ⟨i, rfl⟩ _ e he
    cases he
  inserts := by
    rintro _ _ _ ⟨i, rfl⟩ d _ e he
    cases he
  deletes := by
    rintro _ _ _ ⟨i, rfl⟩ d _ e he
    cases he
  ownInserts := by
    rintro _ ⟨i, rfl⟩ e he
    cases he
  ownDeletes := by
    rintro _ ⟨i, rfl⟩ e he
    cases he

section Update

variable (hinj : Injective peerOf) (h : Causal peerOf X R L) (hf : Fresh peerOf X R L i t)

include h hf

variable {s : TextCrdt α} {d : OpId} {e : TextElement α}

theorem agree_fresh (hs : L s) : t.Agree s := by
  intro e he e' he' hid
  rcases hf.element e he with ⟨s₀, hs₀, e₀, he₀, hid₀, hch, horigin⟩ | ⟨hpeer, hnew⟩
  · rw [← hch, ← horigin]
    exact h.agree s₀ s hs₀ hs e₀ he₀ e' he' (hid₀.trans hid)
  · have hold : e'.id.counter ≤ (R i).counter := h.bound s hs e'.id ⟨e', he', .inl rfl⟩ i (by rw [← hid, hpeer])
    rw [← hid] at hold
    omega

/-- What a new state knows of a peer, it knows with everything before. -/
theorem inserts_fresh (hs : L s) (hd : t.Mentions d) (he : e ∈ s.byId.rows) (hpeer : e.id.peer = d.peer)
    (hcounter : e.id.counter ≤ d.counter) : X e.id ∨ t.Present e.id := by
  rcases hf.mention d hd with ⟨s₀, hs₀, hsd, hcov⟩ | ⟨hown, _, _⟩
  · rcases h.inserts s₀ s hs₀ hs d hsd e he hpeer hcounter with hx | hpresent
    · exact .inl hx
    · exact hpresent.covers hcov
  · rcases h.ownInserts s hs e he i (hpeer.trans hown) with hx | hpresent
    · exact .inl hx
    · exact hpresent.covers hf.covers

theorem deletes_fresh (hs : L s) (hd : t.Mentions d) (he : e ∈ s.byId.rows) {d' : OpId} (hd' : e.deleteId = some d')
    (hpeer : d'.peer = d.peer) (hcounter : d'.counter ≤ d.counter) :
    X e.id ∨ t.Buried e.id d' := by
  rcases hf.mention d hd with ⟨s₀, hs₀, hsd, hcov⟩ | ⟨hown, _, _⟩
  · rcases h.deletes s₀ s hs₀ hs d hsd e he d' hd' hpeer hcounter with hx | hburied
    · exact .inl hx
    · exact hburied.covers hcov
  · rcases h.ownDeletes s hs e he d' hd' i (hpeer.trans hown) with hx | hburied
    · exact .inl hx
    · exact hburied.covers hf.covers

/-- An old state that knows of a peer what a new state holds, holds it. -/
theorem inserts_old (hs : L s) (hd : s.Mentions d) (he : e ∈ t.byId.rows) (hpeer : e.id.peer = d.peer)
    (hcounter : e.id.counter ≤ d.counter) : X e.id ∨ s.Present e.id := by
  rcases hf.element e he with ⟨s₀, hs₀, e₀, he₀, hid₀, _⟩ | ⟨hown, hnew⟩
  · rw [← hid₀] at hpeer hcounter ⊢
    exact h.inserts s s₀ hs hs₀ d hd e₀ he₀ hpeer hcounter
  · have hold := h.bound s hs d hd i (hown.symm.trans hpeer)
    omega

theorem deletes_old (hs : L s) (hd : s.Mentions d) (he : e ∈ t.byId.rows) {d' : OpId} (hd' : e.deleteId = some d')
    (hpeer : d'.peer = d.peer) (hcounter : d'.counter ≤ d.counter) :
    X e.id ∨ s.Buried e.id d' := by
  rcases hf.deletion e he d' hd' with ⟨s₀, hs₀, e₀, he₀, hid₀, hd₀⟩ | ⟨hown, hnew⟩
  · rw [← hid₀]
    exact h.deletes s s₀ hs hs₀ d hd e₀ he₀ d' hd₀ hpeer hcounter
  · have hold := h.bound s hs d hd i (hown.symm.trans hpeer)
    omega

variable [DecidableEq ι]

theorem bound_fresh (hinj : Injective peerOf) (hd : t.Mentions d) {j : ι} (hj : peerOf j = d.peer) :
    d.counter ≤ (Function.update R i t j).counter := by
  have hle : (R j).counter ≤ (Function.update R i t j).counter := by
    by_cases hji : j = i
    · subst hji
      simpa using hf.counter
    · simp [hji]
  rcases hf.mention d hd with ⟨s, hs, hsd, _⟩ | ⟨hpeer, _, hcounter⟩
  · exact (h.bound s hs d hsd j hj).trans hle
  · obtain rfl : j = i := hinj (hj.trans hpeer)
    simpa using hcounter

include hinj

/-- A replica moves to a new state. -/
theorem update : Causal peerOf X (Function.update R i t) (fun s => s = t ∨ L s) where
  current j := by
    by_cases hji : j = i
    · subst hji
      exact .inl (by simp)
    · exact .inr (by simpa [hji] using h.current j)
  peer j := by
    by_cases hji : j = i
    · subst hji
      simpa using hf.peer
    · simpa [hji] using h.peer j
  bound := by
    rintro s (rfl | hs) d hd j hj
    · exact h.bound_fresh hf hinj hd hj
    · refine (h.bound s hs d hd j hj).trans ?_
      by_cases hji : j = i
      · subst hji
        simpa using hf.counter
      · simp [hji]
  agree := by
    rintro s s' (rfl | hs) (rfl | hs')
    · intro e he e' he' hid
      rw [eq_of_key_eq he he' hid]
      exact ⟨rfl, rfl⟩
    · exact h.agree_fresh hf hs'
    · exact (h.agree_fresh hf hs).symm
    · exact h.agree s s' hs hs'
  inserts := by
    rintro s s' (rfl | hs) (rfl | hs') d hd e he hpeer hcounter
    · exact .inr ⟨e, he, rfl⟩
    · exact h.inserts_fresh hf hs' hd he hpeer hcounter
    · exact h.inserts_old hf hs hd he hpeer hcounter
    · exact h.inserts s s' hs hs' d hd e he hpeer hcounter
  deletes := by
    rintro s s' (rfl | hs) (rfl | hs') d hd e he d' hd' hpeer hcounter
    · exact .inr ⟨e, he, rfl, d', hd', le_rfl⟩
    · exact h.deletes_fresh hf hs' hd he hd' hpeer hcounter
    · exact h.deletes_old hf hs hd he hd' hpeer hcounter
    · exact h.deletes s s' hs hs' d hd e he d' hd' hpeer hcounter
  ownInserts := by
    rintro s hs e he j hj
    by_cases hji : j = i
    · subst hji
      rw [update_self]
      rcases hs with rfl | hs
      · exact .inr ⟨e, he, rfl⟩
      · rcases h.ownInserts s hs e he j hj with hx | hpresent
        · exact .inl hx
        · exact hpresent.covers hf.covers
    · rw [update_of_ne hji]
      rcases hs with rfl | hs
      · rcases hf.element e he with ⟨s₀, hs₀, e₀, he₀, hid₀, _⟩ | ⟨hown, _⟩
        · rw [← hid₀] at hj ⊢
          exact h.ownInserts s₀ hs₀ e₀ he₀ j hj
        · exact absurd (hinj (hj.symm.trans hown)) hji
      · exact h.ownInserts s hs e he j hj
  ownDeletes := by
    rintro s hs e he d hd j hj
    by_cases hji : j = i
    · subst hji
      rw [update_self]
      rcases hs with rfl | hs
      · exact .inr ⟨e, he, rfl, d, hd, le_rfl⟩
      · rcases h.ownDeletes s hs e he d hd j hj with hx | hburied
        · exact .inl hx
        · exact hburied.covers hf.covers
    · rw [update_of_ne hji]
      rcases hs with rfl | hs
      · rcases hf.deletion e he d hd with ⟨s₀, hs₀, e₀, he₀, hid₀, hd₀⟩ | ⟨hown, _⟩
        · rw [← hid₀]
          exact h.ownDeletes s₀ hs₀ e₀ he₀ d hd₀ j hj
        · exact absurd (hinj (hj.symm.trans hown)) hji
      · exact h.ownDeletes s hs e he d hd j hj

end Update

end Causal

/-! ## New states -/

namespace TextCrdt

variable {X : OpId → Prop} (t : TextCrdt α)

/-- Observing elements keeps what is known. -/
theorem covers_applyDelta (ops : Table (TextElement.id (α := α))) : (t.applyDelta ops.rows).2.Covers X t := by
  intro e he
  have hget := get?_applyDelta t ops e.id
  have ht : t.get? e.id = some e := get?_of_mem he
  rw [ht] at hget
  right
  cases ho : ops.get? e.id with
  | none =>
    have hmem := mem_of_get? (hget.trans (by simp [ho] : _ = some e))
    exact ⟨⟨e, hmem, rfl⟩, fun d hd => ⟨e, hmem, rfl, d, hd, le_rfl⟩⟩
  | some o =>
    have hmem := mem_of_get? (hget.trans (by simp [ho] : _ = some (e.join o)))
    refine ⟨⟨_, hmem, join_id e o⟩, fun d hd => ?_⟩
    cases hdo : o.deleteId with
    | none => exact ⟨_, hmem, join_id e o, d, by simp [join_deleteId, hd, hdo], le_rfl⟩
    | some d' => exact ⟨_, hmem, join_id e o, min d d',
        by simp [join_deleteId, hd, hdo], min_le_left d d'⟩

/-- What has been observed is known. -/
theorem observed (ops : Table (TextElement.id (α := α))) {o : TextElement α} (h : o ∈ ops.rows) :
    (t.applyDelta ops.rows).2.Present o.id ∧ ∀ d, o.deleteId = some d → (t.applyDelta ops.rows).2.Buried o.id d := by
  have hget := get?_applyDelta t ops o.id
  have ho : ops.get? o.id = some o := get?_of_mem h
  rw [ho] at hget
  cases ht : t.get? o.id with
  | none =>
    have hmem := mem_of_get? (hget.trans (by simp [ht] : _ = some o))
    exact ⟨⟨o, hmem, rfl⟩, fun d hd => ⟨o, hmem, rfl, d, hd, le_rfl⟩⟩
  | some e =>
    have hid : (e.join o).id = o.id := (join_id e o).trans (key_of_get? ht)
    have hmem := mem_of_get? (hget.trans (by simp [ht] : _ = some (e.join o)))
    refine ⟨⟨_, hmem, hid⟩, fun d hd => ?_⟩
    cases hde : e.deleteId with
    | none => exact ⟨_, hmem, hid, d, by simp [join_deleteId, hd, hde], le_rfl⟩
    | some d' => exact ⟨_, hmem, hid, min d' d, by simp [join_deleteId, hd, hde], min_le_right d' d⟩

theorem covers_merge (other : TextCrdt α) : (t.merge other).Covers X other :=
  fun _ he => .inr (t.observed other.byId he)

end TextCrdt

namespace Fresh

variable {peerOf : ι → ℤ} {X : OpId → Prop} {R : ι → TextCrdt α} {L : TextCrdt α → Prop} {i : ι} {t : TextCrdt α}

/-- A state with the same elements. -/
theorem of_rows (h : Causal peerOf X R L) (hpeer : t.peer = (R i).peer)
    (hcounter : (R i).counter ≤ t.counter) (hrows : t.byId.rows = (R i).byId.rows) :
    Fresh peerOf X R L i t where
  peer := hpeer.trans (h.peer i)
  counter := hcounter
  covers e he :=
    .inr ⟨⟨e, hrows ▸ he, rfl⟩, fun d hd => ⟨e, hrows ▸ he, rfl, d, hd, le_rfl⟩⟩
  mention := by
    rintro d ⟨e, he, hd⟩
    exact .inl ⟨R i, h.current i, ⟨e, hrows ▸ he, hd⟩, fun e he =>
      .inr ⟨⟨e, hrows ▸ he, rfl⟩, fun d hd => ⟨e, hrows ▸ he, rfl, d, hd, le_rfl⟩⟩⟩
  element e he := .inl ⟨R i, h.current i, e, hrows ▸ he, rfl, rfl, rfl⟩
  deletion e he d hd := .inl ⟨R i, h.current i, e, hrows ▸ he, rfl, hd⟩

/-- A new element. -/
theorem place (h : Causal peerOf X R L) (ch : α) (o : Option OpId) (ho : ∀ x, o = some x → x.counter ≤ (R i).counter) :
    Fresh peerOf X R L i ((R i).place ch o ho) := by
  have hpeer : (R i).nextId.peer = peerOf i := h.peer i
  have hold : ∀ e ∈ (R i).byId.rows, e ∈ ((R i).place ch o ho).byId.rows := by
    intro e he
    refine mem_put.mpr (.inr ⟨he, fun hid => ?_⟩)
    have hle := (R i).counted e he
    rw [hid] at hle
    exact absurd hle (Nat.not_succ_le_self _)
  have hcovers : ((R i).place ch o ho).Covers X (R i) := fun e he =>
    .inr ⟨⟨e, hold e he, rfl⟩, fun d hd => ⟨e, hold e he, rfl, d, hd, le_rfl⟩⟩
  refine ⟨h.peer i, Nat.le_succ _, hcovers, ?_, ?_, ?_⟩
  · rintro d ⟨e, he, hd⟩
    rcases mem_put.mp he with rfl | ⟨he, _⟩
    · obtain rfl : (R i).nextId = d := by simpa using hd
      exact .inr ⟨hpeer, Nat.lt_succ_self _, le_rfl⟩
    · exact .inl ⟨R i, h.current i, ⟨e, he, hd⟩, hcovers⟩
  · intro e he
    rcases mem_put.mp he with rfl | ⟨he, _⟩
    · exact .inr ⟨hpeer, Nat.lt_succ_self _⟩
    · exact .inl ⟨R i, h.current i, e, he, rfl, rfl, rfl⟩
  · intro e he d hd
    rcases mem_put.mp he with rfl | ⟨he, _⟩
    · cases hd
    · exact .inl ⟨R i, h.current i, e, he, rfl, hd⟩

/-- A new tombstone. -/
theorem tombstone (h : Causal peerOf X R L) {target : TextElement α}
    (hmem : target ∈ (R i).byId.rows) (hlive : target.deleteId = none) :
    Fresh peerOf X R L i ((R i).tombstone target hmem) := by
  have hpeer : (R i).nextId.peer = peerOf i := h.peer i
  have hcovers : ((R i).tombstone target hmem).Covers X (R i) := by
    intro e he
    right
    by_cases hid : e.id = target.id
    · obtain rfl := eq_of_key_eq he hmem hid
      exact ⟨⟨_, mem_put.mpr (.inl rfl), rfl⟩, fun d hd => by simp [hlive] at hd⟩
    · have he' : e ∈ ((R i).tombstone target hmem).byId.rows := mem_put.mpr (.inr ⟨he, hid⟩)
      exact ⟨⟨e, he', rfl⟩, fun d hd => ⟨e, he', rfl, d, hd, le_rfl⟩⟩
  refine ⟨h.peer i, Nat.le_succ _, hcovers, ?_, ?_, ?_⟩
  · rintro d ⟨e, he, hd⟩
    rcases mem_put.mp he with rfl | ⟨he, _⟩
    · rcases hd with hid | hd
      · exact .inl ⟨R i, h.current i, ⟨target, hmem, .inl hid⟩, hcovers⟩
      · obtain rfl : (R i).nextId = d := Option.some.inj hd
        exact .inr ⟨hpeer, Nat.lt_succ_self _, le_rfl⟩
    · exact .inl ⟨R i, h.current i, ⟨e, he, hd⟩, hcovers⟩
  · intro e he
    rcases mem_put.mp he with rfl | ⟨he, _⟩
    · exact .inl ⟨R i, h.current i, target, hmem, rfl, rfl, rfl⟩
    · exact .inl ⟨R i, h.current i, e, he, rfl, rfl, rfl⟩
  · intro e he d hd
    rcases mem_put.mp he with rfl | ⟨he, _⟩
    · obtain rfl : (R i).nextId = d := Option.some.inj hd
      exact .inr ⟨hpeer, Nat.lt_succ_self _⟩
    · exact .inl ⟨R i, h.current i, e, he, rfl, hd⟩

/-- Elements of another state, after which everything that it knows is known. -/
theorem applyDelta (h : Causal peerOf X R L) {s : TextCrdt α} (hs : L s)
    {ops : Table (TextElement.id (α := α))} (hops : ∀ e ∈ ops.rows, e ∈ s.byId.rows)
    (hcov : ((R i).applyDelta ops.rows).2.Covers X s) :
    Fresh peerOf X R L i ((R i).applyDelta ops.rows).2 := by
  have hown := (R i).covers_applyDelta (X := X) ops
  refine ⟨h.peer i, TextCrdt.le_advance _ _, hown, ?_, ?_, ?_⟩
  · rintro d ⟨e, he, hid | hd⟩
    · obtain ⟨e₀, hfrom, hid₀, _⟩ := TextCrdt.mem_applyDelta he
      rcases hfrom with hfrom | hfrom
      · exact .inl ⟨R i, h.current i, ⟨e₀, hfrom, .inl (hid₀.trans hid)⟩, hown⟩
      · exact .inl ⟨s, hs, ⟨e₀, hops e₀ hfrom, .inl (hid₀.trans hid)⟩, hcov⟩
    · obtain ⟨e₀, hfrom, _, hd₀⟩ := TextCrdt.deleteId_applyDelta he hd
      rcases hfrom with hfrom | hfrom
      · exact .inl ⟨R i, h.current i, ⟨e₀, hfrom, .inr hd₀⟩, hown⟩
      · exact .inl ⟨s, hs, ⟨e₀, hops e₀ hfrom, .inr hd₀⟩, hcov⟩
  · intro e he
    obtain ⟨e₀, hfrom, hfields⟩ := TextCrdt.mem_applyDelta he
    rcases hfrom with hfrom | hfrom
    · exact .inl ⟨R i, h.current i, e₀, hfrom, hfields⟩
    · exact .inl ⟨s, hs, e₀, hops e₀ hfrom, hfields⟩
  · intro e he d hd
    obtain ⟨e₀, hfrom, hfields⟩ := TextCrdt.deleteId_applyDelta he hd
    rcases hfrom with hfrom | hfrom
    · exact .inl ⟨R i, h.current i, e₀, hfrom, hfields⟩
    · exact .inl ⟨s, hs, e₀, hops e₀ hfrom, hfields⟩

end Fresh

end LazilyPy.Text

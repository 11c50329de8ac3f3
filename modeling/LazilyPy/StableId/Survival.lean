import LazilyPy.StableId.Align

/-!
# What survives an alignment

The matches are a partition whatever the blocks are. That a reordered list is aligned as unchanged, and that distinct
keys lead to distinct keys, takes blocks that their keys tell apart.
-/

namespace LazilyPy.StableId

open List Option Turns

/-- Every new block is matched or inserted, every old one matched, with one new one only, or removed. -/
structure Partitions (old new : List Block) (a : Alignment) : Prop where
  every : a.matching.length = new.length
  injective : ∀ (i j : ℕ) (m m' : Match) (o : ℕ), a.matching[i]? = some m → a.matching[j]? = some m' → m.old? = some o →
    m'.old? = some o → i = j
  matched : ∀ m ∈ a.matching, ∀ o, m.old? = some o → o < old.length
  removed : a.removed.Nodup ∧ ∀ o, o ∈ a.removed ↔ o < old.length ∧ ∀ m ∈ a.matching, m.old? ≠ some o

section

variable (digest : String → String) (old new : List Block)

structure Survives : Prop where
  partitions : Partitions old new (align digest old new)
  unchanged : new.Perm old → ∀ m ∈ (align digest old new).matching, ∃ o, m = .same o
  distinct : (keysOf digest old).Nodup → (assignStableKeys digest old new).Nodup

/-- The new block is left over by the keys, and with it, more of the old blocks that are left over can be paired, in
order, with new ones that are similar to them. -/
def Reworded (i : ℕ) : Prop :=
  ¬ First (keysOf digest new) (keysOf digest old) i ∧
    ∃ m, Pairs (Similar old new) (leftOver (keysOf digest old) (keysOf digest new) old.length) m
        (leftOver (keysOf digest new) (keysOf digest old) (i + 1)) ∧
      ¬ Pairs (Similar old new) (leftOver (keysOf digest old) (keysOf digest new) old.length) m
        (leftOver (keysOf digest new) (keysOf digest old) i)

/-- Old blocks that are reordered have distinct keys. Where old keys are distinct, of two new blocks with one key one
is reworded. -/
structure Distinguishable : Prop where
  reordered : new.Perm old → (keysOf digest old).Nodup
  twins : (keysOf digest old).Nodup → ∀ i j k, i ≠ j → (keysOf digest new)[i]? = some k →
    (keysOf digest new)[j]? = some k → Reworded digest old new i ∨ Reworded digest old new j

end

variable {digest : String → String} {old new : List Block} {i j o : ℕ} {m m' : Match} {k : String}

/-! ## The old blocks that are offered -/

theorem leftOver_succ (keys others : List String) (i : ℕ) : leftOver keys others (i + 1) =
    if First keys others i then leftOver keys others i else leftOver keys others i ++ [i] := by
  rw [leftOver, leftOver, range_succ, filter_append, filter_singleton]
  split
  · next h => rw [decide_eq_false (not_not.mpr h), cond_false, append_nil]
  · next h => rw [decide_eq_true h, cond_true]

theorem offered_succ (i : ℕ) : offered digest old new (i + 1) =
    if First (keysOf digest new) (keysOf digest old) i then offered digest old new i
    else serve (Similar old new) (offered digest old new i) i := by
  rw [offered, leftOver_succ]
  split
  · rfl
  · exact foldl_concat _ _ _ _

/-- A new block is offered what those before it have left. -/
theorem offered_suffix (h : i ≤ j) : offered digest old new j <:+ offered digest old new i := by
  induction j, h using Nat.le_induction with
  | base => exact suffix_refl _
  | succ j _ ih =>
    rw [offered_succ]
    split
    · exact ih
    · exact (served_suffix (r := Similar old new) (offered digest old new j) [j]).trans ih

theorem offered_spec (h : o ∈ offered digest old new i) :
    o < old.length ∧ ¬ First (keysOf digest old) (keysOf digest new) o := by
  have hmem := (served_suffix _ _).subset h
  simpa [leftOver] using hmem

theorem nodup_offered (i : ℕ) : (offered digest old new i).Nodup :=
  (nodup_range.filter _).sublist (served_suffix _ _).sublist

theorem suits_iff_reworded (h : ¬ First (keysOf digest new) (keysOf digest old) i) :
    Suits (Similar old new) (offered digest old new i) i ↔ Reworded digest old new i := by
  rw [offered, suits_iff, Reworded, leftOver_succ, if_neg h]
  exact (and_iff_right h).symm

/-- A new block that is matched by similarity takes the first of what it is offered. -/
theorem edited_spec (h : (align digest old new).matching[i]? = some (.edited o)) :
    Reworded digest old new i ∧ offered digest old new i = o :: offered digest old new (i + 1) := by
  obtain ⟨k, -, -, -, heq⟩ | ⟨hnot, ⟨o', ho', hsimilar, heq⟩ | ⟨-, heq⟩⟩ := match_cases h
  · cases heq
  · obtain rfl := Match.edited.inj heq
    refine ⟨(suits_iff_reworded hnot).mp ⟨o, ho', hsimilar⟩, ?_⟩
    obtain ⟨rest, hrest⟩ := head?_eq_some_iff.mp ho'
    rw [offered_succ, if_neg hnot, hrest, serve, if_pos hsimilar]
  · cases heq

/-! ## The partition -/

theorem getElem?_keysOf (blocks : List Block) (i : ℕ) :
    (keysOf digest blocks)[i]? = (blocks[i]?).map (blockKey digest) :=
  getElem?_map

theorem key_lt (hk : (keysOf digest new)[i]? = some k) : i < new.length := by
  have hlt := (List.getElem?_eq_some_iff.mp hk).1
  rwa [keysOf, length_map] at hlt

/-- The first new block of a key that there is among the old ones. -/
theorem same_idxOf (hk : k ∈ keysOf digest new) (hold : k ∈ keysOf digest old) :
    (align digest old new).matching[(keysOf digest new).idxOf k]? = some (.same ((keysOf digest old).idxOf k)) := by
  have hget : (keysOf digest new)[(keysOf digest new).idxOf k]? = some k := getElem?_idxOf hk
  obtain ⟨m, hm⟩ : ∃ m, (align digest old new).matching[(keysOf digest new).idxOf k]? = some m :=
    ⟨_, getElem?_eq_getElem (length_matching ▸ key_lt hget)⟩
  rw [hm]
  obtain ⟨k', hk', -, -, rfl⟩ | ⟨hnot, -⟩ := match_cases hm
  · rw [some.inj (hget.symm.trans hk')]
  · exact absurd (first_idxOf hk hold) hnot

theorem old?_ne_of_lt (hlt : i < j) (h : (align digest old new).matching[i]? = some m)
    (h' : (align digest old new).matching[j]? = some m') (ho : m.old? = some o) : m'.old? ≠ some o := by
  intro ho'
  obtain ⟨k, hk, hold, hi, rfl⟩ | ⟨-, ⟨o₁, ho₁, -, rfl⟩ | ⟨-, rfl⟩⟩ := match_cases h
  · obtain rfl := some.inj ho
    obtain ⟨k', hk', hold', hj, rfl⟩ | ⟨-, ⟨o₂, ho₂, -, rfl⟩ | ⟨-, rfl⟩⟩ := match_cases h'
    · have hkeys : k' = k := (idxOf_inj hold').mp (some.inj ho')
      rw [← hi, ← hj, hkeys] at hlt
      exact lt_irrefl _ hlt
    · obtain rfl := some.inj ho'
      exact (offered_spec (mem_of_mem_head? ho₂)).2 (first_idxOf hold (mem_of_getElem? hk))
    · cases ho'
  · obtain rfl := some.inj ho
    obtain ⟨k', hk', hold', hj, rfl⟩ | ⟨-, ⟨o₂, ho₂, -, rfl⟩ | ⟨-, rfl⟩⟩ := match_cases h'
    · obtain rfl := some.inj ho'
      exact (offered_spec (mem_of_mem_head? ho₁)).2 (first_idxOf hold' (mem_of_getElem? hk'))
    · obtain rfl := some.inj ho'
      -- what the earlier one took is not offered again
      have hnodup := @nodup_offered digest old new i
      rw [(edited_spec h).2, nodup_cons] at hnodup
      exact hnodup.1 ((offered_suffix hlt).subset (mem_of_mem_head? ho₂))
    · cases ho'
  · cases ho

theorem mem_matching (h : m ∈ (align digest old new).matching) :
    ∃ i : ℕ, (align digest old new).matching[i]? = some m :=
  mem_iff_getElem?.mp h

theorem matched_lt (h : m ∈ (align digest old new).matching) (ho : m.old? = some o) : o < old.length := by
  obtain ⟨i, hi⟩ := mem_matching h
  obtain ⟨k, -, hold, -, rfl⟩ | ⟨-, ⟨o', ho', -, rfl⟩ | ⟨-, rfl⟩⟩ := match_cases hi
  · obtain rfl := some.inj ho
    exact (length_map _) ▸ idxOf_lt_length_of_mem hold
  · obtain rfl := some.inj ho
    exact (offered_spec (mem_of_mem_head? ho')).1
  · cases ho

/-- What the passes have matched in the end. -/
theorem mem_matchedOld : o ∈ (similarPass old new (keyPass (keysOf digest old) (keysOf digest new))).matchedOld ↔
    ∃ m ∈ (align digest old new).matching, m.old? = some o := by
  have hturned := turned_foldl old new (keyPass (keysOf digest old) (keysOf digest new))
    ((range old.length).filter fun o => o ∉ (keyPass (keysOf digest old) (keysOf digest new)).matchedOld)
    new.length
  rw [similarPass, hturned.matchedOld, (keyed_keyPass _ _).matchedOld]
  constructor
  · rintro (⟨k, hk, hold, rfl⟩ | ⟨i, -, -, hedited⟩)
    · exact ⟨_, mem_of_getElem? (same_idxOf hk hold), rfl⟩
    · exact ⟨_, mem_of_getElem? hedited, rfl⟩
  · rintro ⟨m, hm, ho⟩
    obtain ⟨i, hi⟩ := mem_matching hm
    have hlt : i < new.length := @length_matching digest old new ▸ (List.getElem?_eq_some_iff.mp hi).1
    obtain ⟨k, hk, hold, -, rfl⟩ | ⟨hnot, ⟨o', -, -, rfl⟩ | ⟨-, rfl⟩⟩ := match_cases hi
    · exact .inl ⟨k, mem_of_getElem? hk, hold, some.inj ho⟩
    · obtain rfl := some.inj ho
      exact .inr ⟨i, hlt, by rw [getD_keyPass, if_neg hnot], hi⟩
    · cases ho

theorem partitions_align (digest : String → String) (old new : List Block) :
    Partitions old new (align digest old new) where
  every := length_matching
  injective := by
    intro i j m m' o h h' ho ho'
    obtain hlt | heq | hlt := Nat.lt_trichotomy i j
    · exact absurd ho' (old?_ne_of_lt hlt h h' ho)
    · exact heq
    · exact absurd ho (old?_ne_of_lt hlt h' h ho')
  matched := fun m hm o ho => matched_lt hm ho
  removed := by
    refine ⟨nodup_range.filter _, fun o => ?_⟩
    rw [align, mem_filter, mem_range, decide_eq_true_iff, mem_matchedOld]
    exact and_congr_right fun _ => by simp only [not_exists, not_and, ne_eq]; rfl

/-! ## Reordered blocks -/

/-- Blocks that are reordered are all aligned as unchanged just if their keys are distinct. -/
theorem all_same_iff (hperm : new.Perm old) :
    (∀ m ∈ (align digest old new).matching, ∃ o, m = .same o) ↔ (keysOf digest old).Nodup := by
  have hkeys : (keysOf digest new).Perm (keysOf digest old) := hperm.map _
  have hsome : ∀ {i k}, (keysOf digest new)[i]? = some k → ∃ m, (align digest old new).matching[i]? = some m :=
    fun hk => ⟨_, getElem?_eq_getElem (length_matching ▸ key_lt hk)⟩
  constructor
  · intro h
    have hfirst : ∀ {i k}, (keysOf digest new)[i]? = some k → (keysOf digest new).idxOf k = i := by
      intro i k hk
      obtain ⟨m, hm⟩ := hsome hk
      obtain ⟨k', hk', -, hidx, -⟩ | ⟨-, ⟨o, -, -, rfl⟩ | ⟨-, rfl⟩⟩ := match_cases hm
      · rwa [some.inj (hk.symm.trans hk')]
      · obtain ⟨o', ho'⟩ := h _ (mem_of_getElem? hm)
        cases ho'
      · obtain ⟨o', ho'⟩ := h _ (mem_of_getElem? hm)
        cases ho'
    refine hkeys.nodup_iff.mp (nodup_iff_getElem?_ne_getElem?.mpr fun i j hlt hj heq => ?_)
    have hk := getElem?_eq_getElem hj
    have hij := (hfirst (heq.trans hk)).symm.trans (hfirst hk)
    omega
  · intro hnodup m hm
    obtain ⟨i, hi⟩ := mem_matching hm
    obtain ⟨k, -, -, -, rfl⟩ | ⟨hnot, -⟩ := match_cases hi
    · exact ⟨_, rfl⟩
    · have hlt : i < (keysOf digest new).length := by
        rw [keysOf, length_map]
        exact @length_matching digest old new ▸ (List.getElem?_eq_some_iff.mp hi).1
      refine absurd ((first_iff (getElem?_eq_getElem hlt)).mpr ⟨?_, ?_⟩) hnot
      · exact hkeys.subset (getElem_mem hlt)
      · exact (hkeys.nodup_iff.mpr hnodup).idxOf_getElem i hlt

/-! ## The keys of the new blocks -/

theorem length_assignStableKeys : (assignStableKeys digest old new).length = new.length := by
  rw [assignStableKeys, length_zipWith, length_matching, min_self]

/-- A new block that is reworded inherits the key of an old one, and any other one has its own key. -/
theorem assigned_cases (hk : (keysOf digest new)[i]? = some k) :
    (¬ Reworded digest old new i ∧ (assignStableKeys digest old new)[i]? = some k) ∨
      ∃ o k', (align digest old new).matching[i]? = some (.edited o) ∧ (keysOf digest old)[o]? = some k' ∧
        (assignStableKeys digest old new)[i]? = some k' := by
  have hlt := key_lt hk
  obtain ⟨m, hm⟩ : ∃ m, (align digest old new).matching[i]? = some m := ⟨_, getElem?_eq_getElem (length_matching ▸ hlt)⟩
  have hnew : new[i]? = some new[i] := getElem?_eq_getElem hlt
  have hown : blockKey digest new[i] = k := by
    rw [getElem?_keysOf, hnew] at hk
    exact some.inj hk
  rw [assignStableKeys, getElem?_zipWith, hm, hnew]
  obtain ⟨k', hk', hold, hidx, rfl⟩ | ⟨hnot, ⟨o, ho, -, rfl⟩ | ⟨hsuits, rfl⟩⟩ := match_cases hm
  · refine .inl ⟨fun hr => hr.1 ((first_iff hk').mpr ⟨hold, hidx⟩), ?_⟩
    have hget : (keysOf digest old)[(keysOf digest old).idxOf k']? = some k' := getElem?_idxOf hold
    dsimp only
    rw [← getElem?_keysOf, hget, some.inj (hk.symm.trans hk')]
    rfl
  · have holt : o < (keysOf digest old).length := by
      rw [keysOf, length_map]
      exact (offered_spec (mem_of_mem_head? ho)).1
    have hget := getElem?_eq_getElem holt
    refine .inr ⟨o, _, rfl, hget, ?_⟩
    dsimp only
    rw [← getElem?_keysOf, hget]
    rfl
  · refine .inl ⟨fun hr => hsuits ((suits_iff_reworded hnot).mpr hr), ?_⟩
    rw [← hown]

/-- Where the old keys are distinct, a key is inherited only if no other new block has it. -/
theorem inherited_ne (hnodup : (keysOf digest old).Nodup) (h : (align digest old new).matching[i]? = some (.edited o))
    (ho : (keysOf digest old)[o]? = some k) : k ∉ keysOf digest new := by
  intro hk
  have hmem : o ∈ offered digest old new i := (edited_spec h).2 ▸ mem_cons_self
  refine (offered_spec hmem).2 ((first_iff ho).mpr ⟨hk, ?_⟩)
  obtain ⟨hlt, rfl⟩ := List.getElem?_eq_some_iff.mp ho
  exact hnodup.idxOf_getElem o hlt

theorem assigned_nodup_iff (hnodup : (keysOf digest old).Nodup) : (assignStableKeys digest old new).Nodup ↔
    ∀ i j k, i ≠ j → (keysOf digest new)[i]? = some k → (keysOf digest new)[j]? = some k →
      Reworded digest old new i ∨ Reworded digest old new j := by
  constructor
  · intro h i j k hne hi hj
    by_contra hnot
    rw [not_or] at hnot
    obtain ⟨-, hi'⟩ | ⟨o, k', ho, -, -⟩ := assigned_cases hi
    · obtain ⟨-, hj'⟩ | ⟨o, k', ho, -, -⟩ := assigned_cases hj
      · have hlt : i < (assignStableKeys digest old new).length := (List.getElem?_eq_some_iff.mp hi').1
        exact hne ((getElem?_inj hlt h).mp (hi'.trans hj'.symm))
      · exact hnot.2 (edited_spec ho).1
    · exact hnot.1 (edited_spec ho).1
  · intro h
    refine nodup_iff_getElem?_ne_getElem?.mpr fun i j hlt hj heq => ?_
    rw [length_assignStableKeys] at hj
    have hkey : ∀ {i}, i < new.length → ∃ k, (keysOf digest new)[i]? = some k := fun hi =>
      ⟨_, getElem?_eq_getElem (by rwa [keysOf, length_map])⟩
    obtain ⟨ki, hki⟩ := hkey (hlt.trans hj)
    obtain ⟨kj, hkj⟩ := hkey hj
    obtain ⟨hri, hi'⟩ | ⟨o, k, ho, hok, hi'⟩ := assigned_cases hki
    · obtain ⟨hrj, hj'⟩ | ⟨o, k, ho, hok, hj'⟩ := assigned_cases hkj
      · obtain rfl := some.inj (hi'.symm.trans (heq.trans hj'))
        exact (h i j ki (ne_of_lt hlt) hki hkj).elim hri hrj
      · obtain rfl := some.inj (hi'.symm.trans (heq.trans hj'))
        exact inherited_ne hnodup ho hok (mem_of_getElem? hki)
    · obtain ⟨hrj, hj'⟩ | ⟨o', k', ho', hok', hj'⟩ := assigned_cases hkj
      · obtain rfl := some.inj (hi'.symm.trans (heq.trans hj'))
        exact inherited_ne hnodup ho hok (mem_of_getElem? hkj)
      · obtain rfl := some.inj (hi'.symm.trans (heq.trans hj'))
        have holt := (List.getElem?_eq_some_iff.mp hok).1
        obtain rfl := (getElem?_inj holt hnodup).mp (hok.trans hok'.symm)
        exact old?_ne_of_lt hlt ho ho' rfl rfl

theorem survives_iff (digest : String → String) (old new : List Block) :
    Survives digest old new ↔ Distinguishable digest old new :=
  ⟨fun h => ⟨fun hperm => (all_same_iff hperm).mp (h.unchanged hperm),
      fun hnodup => (assigned_nodup_iff hnodup).mp (h.distinct hnodup)⟩,
    fun h => ⟨partitions_align digest old new, fun hperm => (all_same_iff hperm).mpr (h.reordered hperm),
      fun hnodup => (assigned_nodup_iff hnodup).mpr (h.twins hnodup)⟩⟩

/-- Of two equal blocks, the second one is aligned with itself as edited. -/
theorem survives_repeated : ¬ ∀ (digest : String → String) (old new : List Block), Survives digest old new := by
  intro h
  have hmatch : (align id [⟨none, "x"⟩, ⟨none, "x"⟩] [⟨none, "x"⟩, ⟨none, "x"⟩]).matching = [.same 0, .edited 1] := by
    decide +kernel
  obtain ⟨o, ho⟩ := (h id [⟨none, "x"⟩, ⟨none, "x"⟩] [⟨none, "x"⟩, ⟨none, "x"⟩]).unchanged (Perm.refl _)
    (.edited 1) (by rw [hmatch]; simp)
  cases ho

end LazilyPy.StableId

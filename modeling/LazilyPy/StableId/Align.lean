import Mathlib.Data.Rat.Defs
import LazilyPy.Lib.Common
import LazilyPy.Lib.Table
import LazilyPy.Lib.Turns

/-!
# Alignment

The whitespace-normalized text of a block has words, and two blocks have some of them in common. Blocks get their
keys from an anchor or from their text. New blocks are matched with old ones by key first, and what is left over by
similarity.

The table of `word_lcs_len` is kept row by row. A row is for the words of one text so far, and its entries are for the
beginnings of the other text.
-/

namespace LazilyPy.StableId

open List

/-! ## Words -/

/-- The characters at which `str.split` and `str.strip` cut. -/
def isSpace (c : Char) : Bool :=
  let n := c.toNat
  (9 ≤ n ∧ n ≤ 13) ∨ (28 ≤ n ∧ n ≤ 32) ∨ n = 0x85 ∨ n = 0xA0 ∨ n = 0x1680 ∨ (0x2000 ≤ n ∧ n ≤ 0x200A) ∨
    n = 0x2028 ∨ n = 0x2029 ∨ n = 0x202F ∨ n = 0x205F ∨ n = 0x3000

def split (text : String) : List (List Char) :=
  (text.toList.splitOnP isSpace).filter (· ≠ [])

def normalizeWs (text : String) : String :=
  String.ofList ([' '].intercalate (split text))

def words (text : String) : List (List Char) :=
  if text.toList.all isSpace then [] else (normalizeWs text).toList.splitOn ' '

/-- The rest of a row of the table, from the entry on its left and the row above. -/
def lcsRow {β : Type} [DecidableEq β] (x : β) : List β → List ℕ → ℕ → List ℕ
  | y :: ys, p :: q :: prev, left =>
    let entry := if x = y then p + 1 else max left q
    entry :: lcsRow x ys (q :: prev) entry
  | _, _, _ => []

/-- The rows of the table, one for each word of `wa`. -/
def lcsRows {β : Type} [DecidableEq β] (wa wb : List β) : List ℕ :=
  wa.foldl (fun prev x => 0 :: lcsRow x wb prev 0) (replicate (wb.length + 1) 0)

def wordLcsLen (a b : String) : ℕ :=
  let wa := words a
  let wb := words b
  if wa = [] ∨ wb = [] then 0
  else if wa.length < wb.length then (lcsRows wb wa).getD wa.length 0
  else (lcsRows wa wb).getD wb.length 0

def similarity (a b : String) : ℚ :=
  let denom := (words a).length + (words b).length
  if denom = 0 then 1 else (2 * wordLcsLen a b : ℚ) / denom

def editSimilarityMin : ℚ := 1 / 2

example : wordLcsLen "a  b\tc d" " b x d " = 2 := by decide

/-! ## Blocks -/

structure Block where
  anchor : Option String
  text : String
  deriving DecidableEq

def blockKey (digest : String → String) (block : Block) : String :=
  let content := "c:" ++ digest (normalizeWs block.text)
  match block.anchor with
  | some anchor => if anchor = "" then content else "a:" ++ anchor
  | none => content

/-- `[block_key(b) for b in blocks]`. -/
def keysOf (digest : String → String) (blocks : List Block) : List String :=
  blocks.map (blockKey digest)

inductive Match where
  | same (old : ℕ)
  | edited (old : ℕ)
  | inserted
  deriving DecidableEq

def Match.old? : Match → Option ℕ
  | same old => some old
  | edited old => some old
  | inserted => none

structure Alignment where
  /-- For every new block, what it is. -/
  matching : List Match
  removed : List ℕ
  deriving DecidableEq

/-! ## The first pass -/

/-- What the first pass keeps. The blocks that it leaves over have no match yet. -/
structure KeyPass where
  matchedOld : List ℕ := []
  oldByKey : Table (Prod.fst : String × ℕ → String) := .empty _
  matching : List (Option Match) := []

def scan (oldKeys : List String) (matchedOld : List ℕ) (k : String) : Option ℕ :=
  (range oldKeys.length).find? fun cand => cand ∉ matchedOld ∧ oldKeys[cand]? = some k

def keyStep (oldKeys : List String) (pass : KeyPass) (k : String) : KeyPass :=
  let (oi, oldByKey) := match pass.oldByKey.get? k with
    | some (_, oi) => (some oi, pass.oldByKey)
    | none => match scan oldKeys pass.matchedOld k with
      | some oi => (some oi, pass.oldByKey.put (k, oi))
      | none => (none, pass.oldByKey)
  match oi with
  | some oi =>
    if oi ∈ pass.matchedOld then ⟨pass.matchedOld, oldByKey, pass.matching ++ [none]⟩
    else ⟨oi :: pass.matchedOld, oldByKey, pass.matching ++ [some (.same oi)]⟩
  | none => ⟨pass.matchedOld, oldByKey, pass.matching ++ [none]⟩

def keyPass (oldKeys newKeys : List String) : KeyPass :=
  newKeys.foldl (keyStep oldKeys) {}

/-! ## The second pass -/

def textAt (blocks : List Block) (i : ℕ) : String :=
  (blocks[i]?).elim "" Block.text

def Similar (old new : List Block) (oi ni : ℕ) : Prop :=
  editSimilarityMin ≤ similarity (textAt new ni) (textAt old oi)

instance (old new : List Block) (oi ni : ℕ) : Decidable (Similar old new oi ni) :=
  inferInstanceAs (Decidable (editSimilarityMin ≤ similarity (textAt new ni) (textAt old oi)))

structure SimilarPass where
  uoIter : List ℕ
  matchedOld : List ℕ
  matching : List Match := []

def similarStep (old new : List Block) (keyed : List (Option Match)) (pass : SimilarPass) (ni : ℕ) : SimilarPass :=
  match keyed.getD ni none with
  | some m => { pass with matching := pass.matching ++ [m] }
  | none =>
    match pass.uoIter with
    | oi :: rest =>
      if Similar old new oi ni then ⟨rest, oi :: pass.matchedOld, pass.matching ++ [.edited oi]⟩
      -- the old block goes back to the front
      else ⟨oi :: rest, pass.matchedOld, pass.matching ++ [.inserted]⟩
    | [] => ⟨[], pass.matchedOld, pass.matching ++ [.inserted]⟩

def similarPass (old new : List Block) (keyed : KeyPass) : SimilarPass :=
  (range new.length).foldl (similarStep old new keyed.matching)
    { uoIter := (range old.length).filter (· ∉ keyed.matchedOld), matchedOld := keyed.matchedOld }

def align (digest : String → String) (old new : List Block) : Alignment :=
  let keyed := keyPass (keysOf digest old) (keysOf digest new)
  let pass := similarPass old new keyed
  { matching := pass.matching, removed := (range old.length).filter (· ∉ pass.matchedOld) }

def assignStableKeys (digest : String → String) (old new : List Block) : List String :=
  zipWith
    (fun block m => match m with
      | .inserted => blockKey digest block
      | .same oi => ((old[oi]?).map (blockKey digest)).getD ""
      | .edited oi => ((old[oi]?).map (blockKey digest)).getD "")
    new (align digest old new).matching

/-! ## What each block is matched with -/

/-- The block is the first one of its key, and the other side has the key. -/
def First (keys others : List String) (i : ℕ) : Prop :=
  ∃ k, keys[i]? = some k ∧ k ∈ others ∧ k ∉ keys.take i

instance (keys others : List String) (i : ℕ) : Decidable (First keys others i) :=
  match h : keys[i]? with
  | none => .isFalse fun ⟨_, hk, _⟩ => nomatch h.symm.trans hk
  | some k => decidable_of_iff (k ∈ others ∧ k ∉ keys.take i) (by simp [First, h])

/-- What the first pass leaves over of the first `n` blocks of a side. -/
def leftOver (keys others : List String) (n : ℕ) : List ℕ :=
  (range n).filter fun i => ¬ First keys others i

section FirstPass

variable {oldKeys newKeys keys others : List String} {k : String} {i : ℕ}

theorem idxOf_le (h : keys[i]? = some k) : k ∈ keys ∧ keys.idxOf k ≤ i := by
  have hk := mem_of_getElem? h
  refine ⟨hk, Nat.lt_succ_iff.mp ((mem_take_iff_idxOf_lt hk).mp ?_)⟩
  rw [take_add_one, h]
  exact mem_append_right _ (mem_singleton_self k)

theorem first_iff (h : keys[i]? = some k) : First keys others i ↔ k ∈ others ∧ keys.idxOf k = i := by
  obtain ⟨hk, hle⟩ := idxOf_le h
  have htake := mem_take_iff_idxOf_lt (n := i) hk
  constructor
  · rintro ⟨k', hk', hmem, hnot⟩
    obtain rfl := Option.some.inj (h.symm.trans hk')
    rw [htake] at hnot
    exact ⟨hmem, by omega⟩
  · rintro ⟨hmem, heq⟩
    refine ⟨k, h, hmem, ?_⟩
    rw [htake]
    omega

theorem first_idxOf (hk : k ∈ keys) (hmem : k ∈ others) : First keys others (keys.idxOf k) :=
  (first_iff (getElem?_idxOf hk)).mpr ⟨hmem, rfl⟩

/-- Where no index with the key has a match, the scan finds the first one. -/
theorem scan_eq {matchedOld : List ℕ} (hfree : ∀ o ∈ matchedOld, oldKeys[o]? ≠ some k) :
    scan oldKeys matchedOld k = if k ∈ oldKeys then some (oldKeys.idxOf k) else none := by
  rw [scan]
  split
  · next hk =>
    have hget : oldKeys[oldKeys.idxOf k]? = some k := getElem?_idxOf hk
    refine find?_range_eq_some.mpr ⟨?_, mem_range.mpr (idxOf_lt_length_of_mem hk), fun j hj => ?_⟩
    · exact decide_eq_true ⟨fun hin => hfree _ hin hget, hget⟩
    · rw [Bool.not_eq_true', decide_eq_false_iff_not]
      rintro ⟨-, hj'⟩
      have hle := (idxOf_le hj').2
      omega
  · next hk =>
    refine find?_eq_none.mpr fun o _ => ?_
    rw [decide_eq_true_iff]
    exact fun h => hk (mem_of_getElem? h.2)

/-- After a first pass over these keys, the first ones of each key that there is among the old ones are matched with
the first old ones of the key. -/
structure Keyed (oldKeys newKeys : List String) (pass : KeyPass) : Prop where
  matchedOld : ∀ o, o ∈ pass.matchedOld ↔ ∃ k ∈ newKeys, k ∈ oldKeys ∧ oldKeys.idxOf k = o
  oldByKey : ∀ k, pass.oldByKey.get? k = if k ∈ newKeys ∧ k ∈ oldKeys then some (k, oldKeys.idxOf k) else none
  length : pass.matching.length = newKeys.length
  matching : ∀ i k, newKeys[i]? = some k → pass.matching[i]? =
    some (if First newKeys oldKeys i then some (.same (oldKeys.idxOf k)) else none)

theorem first_append_iff (hi : i < newKeys.length) : First (newKeys ++ [k]) oldKeys i ↔ First newKeys oldKeys i := by
  rw [First, First, getElem?_append_left hi, take_append_of_le_length hi.le]

theorem first_concat_iff : First (newKeys ++ [k]) oldKeys newKeys.length ↔ k ∈ oldKeys ∧ k ∉ newKeys := by
  rw [First, getElem?_concat_length, take_left]
  simp

/-- What one more key adds to the matches, according to what it is. -/
theorem Keyed.matching_concat {pass : KeyPass} (h : Keyed oldKeys newKeys pass) {m : Option Match}
    (hm : m = if k ∈ oldKeys ∧ k ∉ newKeys then some (.same (oldKeys.idxOf k)) else none) (i : ℕ) (k' : String)
    (hk' : (newKeys ++ [k])[i]? = some k') : (pass.matching ++ [m])[i]? =
      some (if First (newKeys ++ [k]) oldKeys i then some (.same (oldKeys.idxOf k')) else none) := by
  obtain hi | rfl | hi := Nat.lt_trichotomy i newKeys.length
  · rw [getElem?_append_left hi] at hk'
    rw [getElem?_append_left (h.length ▸ hi), h.matching i k' hk']
    simp only [first_append_iff hi]
  · rw [getElem?_concat_length] at hk'
    obtain rfl := Option.some.inj hk'
    rw [← h.length, getElem?_concat_length, hm, h.length]
    simp only [first_concat_iff]
  · rw [getElem?_eq_none (by rw [length_append, length_singleton]; omega)] at hk'
    cases hk'

/-- A key that is in the cache finds its old block matched, so only the first one of a key gets a match. -/
theorem Keyed.keyStep_eq {pass : KeyPass} (h : Keyed oldKeys newKeys pass) (k : String) : keyStep oldKeys pass k =
    if k ∈ oldKeys ∧ k ∉ newKeys then ⟨oldKeys.idxOf k :: pass.matchedOld, pass.oldByKey.put (k, oldKeys.idxOf k),
      pass.matching ++ [some (.same (oldKeys.idxOf k))]⟩
    else ⟨pass.matchedOld, pass.oldByKey, pass.matching ++ [none]⟩ := by
  by_cases hold : k ∈ oldKeys ∧ k ∈ newKeys
  · have hcache : pass.oldByKey.get? k = some (k, oldKeys.idxOf k) := by rw [h.oldByKey, if_pos hold.symm]
    have hmatched : oldKeys.idxOf k ∈ pass.matchedOld := (h.matchedOld _).mpr ⟨k, hold.2, hold.1, rfl⟩
    rw [if_neg fun hnew => hnew.2 hold.2, keyStep, hcache]
    exact if_pos hmatched
  · have hcache : pass.oldByKey.get? k = none := by rw [h.oldByKey, if_neg fun hin => hold hin.symm]
    have hfree : k ∈ oldKeys → ∀ o ∈ pass.matchedOld, oldKeys[o]? ≠ some k := by
      intro hk o ho hget
      obtain ⟨k', hk', hmem, rfl⟩ := (h.matchedOld o).mp ho
      rw [getElem?_idxOf hmem] at hget
      exact hold ⟨hk, Option.some.inj hget ▸ hk'⟩
    by_cases hk : k ∈ oldKeys
    · have hmatched : oldKeys.idxOf k ∉ pass.matchedOld := fun hin => hfree hk _ hin (getElem?_idxOf hk)
      rw [if_pos ⟨hk, fun hnew => hold ⟨hk, hnew⟩⟩, keyStep, hcache]
      simp only [scan_eq (hfree hk), if_pos hk, if_neg hmatched]
    · have hscan : scan oldKeys pass.matchedOld k = none := by
        rw [scan_eq fun o _ hget => hk (mem_of_getElem? hget), if_neg hk]
      rw [if_neg fun hin => hk hin.1, keyStep, hcache]
      simp only [hscan]

theorem Keyed.step {pass : KeyPass} (h : Keyed oldKeys newKeys pass) (k : String) :
    Keyed oldKeys (newKeys ++ [k]) (keyStep oldKeys pass k) := by
  have hlength : ∀ m, (pass.matching ++ [m]).length = (newKeys ++ [k]).length := by
    intro m
    rw [length_append, length_append, h.length]
    rfl
  rw [h.keyStep_eq]
  split
  · next hk =>
    refine ⟨fun o => ?_, fun k' => ?_, hlength _, h.matching_concat (if_pos hk).symm⟩
    · rw [mem_cons, h.matchedOld]
      constructor
      · rintro (rfl | ⟨k', hk', hmatch⟩)
        · exact ⟨k, mem_concat_self, hk.1, rfl⟩
        · exact ⟨k', mem_append_left _ hk', hmatch⟩
      · rintro ⟨k', hk', hmem, rfl⟩
        obtain hk' | hk' := mem_append.mp hk'
        · exact .inr ⟨k', hk', hmem, rfl⟩
        · exact .inl (congrArg oldKeys.idxOf (mem_singleton.mp hk'))
    · rw [Table.get?_put]
      by_cases heq : k' = k
      · subst heq
        rw [if_pos rfl, if_pos ⟨mem_concat_self, hk.1⟩]
      · rw [if_neg heq, h.oldByKey]
        simp [heq]
  · next hk =>
    -- a key that is not new to the pass, or that no old block has
    have hmem : k ∈ oldKeys → k ∈ newKeys := fun hold => by_contra fun hnew => hk ⟨hold, hnew⟩
    refine ⟨fun o => ?_, fun k' => ?_, hlength _, h.matching_concat (if_neg hk).symm⟩
    · rw [h.matchedOld]
      constructor
      · rintro ⟨k', hk', hmatch⟩
        exact ⟨k', mem_append_left _ hk', hmatch⟩
      · rintro ⟨k', hk', hold, rfl⟩
        obtain hk' | hk' := mem_append.mp hk'
        · exact ⟨k', hk', hold, rfl⟩
        · obtain rfl := mem_singleton.mp hk'
          exact ⟨k', hmem hold, hold, rfl⟩
    · rw [h.oldByKey]
      by_cases heq : k' = k
      · subst heq
        simp only [mem_concat_self, true_and]
        exact if_congr (and_iff_right_of_imp hmem) rfl rfl
      · simp [heq]

theorem keyed_keyPass (oldKeys newKeys : List String) : Keyed oldKeys newKeys (keyPass oldKeys newKeys) := by
  induction newKeys using reverseRecOn with
  | nil => exact ⟨fun o => by simp [keyPass], fun k => by simp [keyPass]; rfl, rfl, nofun⟩
  | append_singleton newKeys k ih =>
    rw [keyPass, foldl_concat]
    exact ih.step k

end FirstPass

section SecondPass

variable {old new : List Block} {keyed : List (Option Match)} {free : List ℕ}

/-- The new blocks before `n` that the first pass has left over. -/
def waiting (keyed : List (Option Match)) (n : ℕ) : List ℕ :=
  (range n).filter fun i => keyed.getD i none = none

/-- What a new block is, with the old ones that are left when its turn comes. -/
def found (old new : List Block) (keyed : List (Option Match)) (queue : List ℕ) (i : ℕ) : Match :=
  match keyed.getD i none with
  | some m => m
  | none =>
    match queue with
    | o :: _ => if Similar old new o i then .edited o else .inserted
    | [] => .inserted

theorem similarStep_spec (pass : SimilarPass) (i : ℕ) : (similarStep old new keyed pass i).uoIter =
        (if keyed.getD i none = none then Turns.serve (Similar old new) pass.uoIter i else pass.uoIter) ∧
      (similarStep old new keyed pass i).matching = pass.matching ++ [found old new keyed pass.uoIter i] ∧
      ∀ o, o ∈ (similarStep old new keyed pass i).matchedOld ↔ o ∈ pass.matchedOld ∨
        keyed.getD i none = none ∧ found old new keyed pass.uoIter i = .edited o := by
  obtain ⟨uoIter, matchedOld, matching⟩ := pass
  simp only [similarStep, found]
  cases keyed.getD i none with
  | some m => exact ⟨rfl, rfl, fun o => by simp⟩
  | none =>
    cases uoIter with
    | nil => exact ⟨rfl, rfl, fun o => by simp⟩
    | cons oi rest =>
      by_cases hsimilar : Similar old new oi i
      · refine ⟨?_, ?_, fun o => ?_⟩
        · simp [Turns.serve, hsimilar]
        · simp [hsimilar]
        · simp [hsimilar, or_comm, eq_comm]
      · refine ⟨?_, ?_, fun o => ?_⟩
        · simp [Turns.serve, hsimilar]
        · simp [hsimilar]
        · simp [hsimilar]

theorem waiting_succ (keyed : List (Option Match)) (n : ℕ) :
    waiting keyed (n + 1) = if keyed.getD n none = none then waiting keyed n ++ [n] else waiting keyed n := by
  rw [waiting, waiting, range_succ, filter_append]
  split
  · next h => rw [filter_singleton, decide_eq_true h, cond_true]
  · next h => rw [filter_singleton, decide_eq_false h, cond_false, append_nil]

/-- The old blocks that are left when the turn of a new one comes. -/
def left (old new : List Block) (keyed : List (Option Match)) (free : List ℕ) (n : ℕ) : List ℕ :=
  Turns.served (Similar old new) free (waiting keyed n)

theorem left_succ (old new : List Block) (keyed : List (Option Match)) (free : List ℕ) (n : ℕ) :
    left old new keyed free (n + 1) = if keyed.getD n none = none
      then Turns.serve (Similar old new) (left old new keyed free n) n else left old new keyed free n := by
  rw [left, waiting_succ]
  split
  · exact foldl_concat _ _ _ _
  · rfl

/-- After the second pass has been through `n` new blocks. -/
structure Turned (old new : List Block) (keyed : KeyPass) (free : List ℕ) (n : ℕ) (pass : SimilarPass) : Prop where
  uoIter : pass.uoIter = left old new keyed.matching free n
  length : pass.matching.length = n
  matching : ∀ i < n, pass.matching[i]? = some (found old new keyed.matching (left old new keyed.matching free i) i)
  matchedOld : ∀ o, o ∈ pass.matchedOld ↔ o ∈ keyed.matchedOld ∨
    ∃ i < n, keyed.matching.getD i none = none ∧ pass.matching[i]? = some (.edited o)

theorem turned_foldl (old new : List Block) (keyed : KeyPass) (free : List ℕ) (n : ℕ) :
    Turned old new keyed free n ((range n).foldl (similarStep old new keyed.matching)
      { uoIter := free, matchedOld := keyed.matchedOld }) := by
  induction n with
  | zero => exact ⟨rfl, rfl, fun i hi => absurd hi (Nat.not_lt_zero i), fun o => by simp⟩
  | succ n ih =>
    rw [range_succ, foldl_concat]
    generalize (range n).foldl _ _ = pass at ih
    obtain ⟨huo, hmatching, hmatched⟩ := @similarStep_spec old new keyed.matching pass n
    have hold : ∀ i < n, (similarStep old new keyed.matching pass n).matching[i]? = pass.matching[i]? := by
      intro i hi
      rw [hmatching, getElem?_append_left (ih.length ▸ hi)]
    have hlast : (similarStep old new keyed.matching pass n).matching[n]? =
        some (found old new keyed.matching (left old new keyed.matching free n) n) := by
      have hconcat := getElem?_concat_length (l := pass.matching) (a := found old new keyed.matching pass.uoIter n)
      rwa [ih.length, ← hmatching, ih.uoIter] at hconcat
    refine ⟨?_, ?_, fun i hi => ?_, fun o => ?_⟩
    · rw [huo, left_succ, ih.uoIter]
    · rw [hmatching, length_append, ih.length]
      rfl
    · obtain hi | rfl := Nat.lt_succ_iff_lt_or_eq.mp hi
      · rw [hold i hi, ih.matching i hi]
      · exact hlast
    · rw [hmatched, ih.matchedOld, or_assoc]
      refine or_congr_right ⟨?_, ?_⟩
      · rintro (⟨i, hi, hnone, hedited⟩ | ⟨hnone, hedited⟩)
        · exact ⟨i, hi.trans (Nat.lt_succ_self n), hnone, (hold i hi).trans hedited⟩
        · exact ⟨n, Nat.lt_succ_self n, hnone, hlast.trans (congrArg some (ih.uoIter ▸ hedited))⟩
      · rintro ⟨i, hi, hnone, hedited⟩
        obtain hi | rfl := Nat.lt_succ_iff_lt_or_eq.mp hi
        · exact .inl ⟨i, hi, hnone, (hold i hi).symm.trans hedited⟩
        · exact .inr ⟨hnone, ih.uoIter ▸ Option.some.inj (hlast.symm.trans hedited)⟩

end SecondPass

/-! ## The alignment -/

section Align

variable (digest : String → String) (old new : List Block)

/-- The old blocks that are left when the turn of a new one comes. -/
def offered (i : ℕ) : List ℕ :=
  Turns.served (Similar old new) (leftOver (keysOf digest old) (keysOf digest new) old.length)
    (leftOver (keysOf digest new) (keysOf digest old) i)

variable {digest old new}

theorem free_keyPass (oldKeys newKeys : List String) :
    (range oldKeys.length).filter (fun o => decide (o ∉ (keyPass oldKeys newKeys).matchedOld)) =
      leftOver oldKeys newKeys oldKeys.length := by
  refine filter_congr fun o ho => decide_eq_decide.mpr (not_congr ?_)
  have hget := getElem?_eq_getElem (mem_range.mp ho)
  rw [(keyed_keyPass _ _).matchedOld, first_iff hget]
  constructor
  · rintro ⟨k, hk, hold, rfl⟩
    have heq := Option.some.inj ((getElem?_idxOf hold).symm.trans hget)
    rw [← heq]
    exact ⟨hk, rfl⟩
  · rintro ⟨hk, heq⟩
    exact ⟨_, hk, mem_of_getElem? hget, heq⟩

/-- What the first pass says of each new block. -/
theorem getD_keyPass (oldKeys newKeys : List String) (i : ℕ) : (keyPass oldKeys newKeys).matching.getD i none =
      if First newKeys oldKeys i then some (.same (oldKeys.idxOf (newKeys.getD i ""))) else none := by
  have hkeyed := keyed_keyPass oldKeys newKeys
  rw [getD_eq_getElem?_getD, getD_eq_getElem?_getD]
  cases hk : newKeys[i]? with
  | none =>
    have hlen : (keyPass oldKeys newKeys).matching.length ≤ i := hkeyed.length ▸ List.getElem?_eq_none_iff.mp hk
    rw [getElem?_eq_none hlen, if_neg]
    · rfl
    · rintro ⟨k, hk', -⟩
      rw [hk] at hk'
      cases hk'
  | some k =>
    rw [hkeyed.matching i k hk]
    rfl

theorem waiting_keyPass (oldKeys newKeys : List String) (n : ℕ) :
    waiting (keyPass oldKeys newKeys).matching n = leftOver newKeys oldKeys n := by
  refine filter_congr fun i _ => decide_eq_decide.mpr ?_
  rw [getD_keyPass]
  split
  · next h => simp [h]
  · next h => simp [h]

theorem length_matching : (align digest old new).matching.length = new.length :=
  (turned_foldl _ _ _ _ _).length

theorem matching_align {i : ℕ} (hi : i < new.length) : (align digest old new).matching[i]? =
    some (found old new (keyPass (keysOf digest old) (keysOf digest new)).matching (offered digest old new i) i) := by
  have hfree := free_keyPass (keysOf digest old) (keysOf digest new)
  rw [show (keysOf digest old).length = old.length from length_map _] at hfree
  refine ((turned_foldl old new _ _ new.length).matching i hi).trans ?_
  rw [left, waiting_keyPass, offered, hfree]

/-- A new block has the key of an old one, or is similar to the old one that it is offered, or is inserted. -/
theorem match_cases {i : ℕ} {m : Match} (h : (align digest old new).matching[i]? = some m) :
    (∃ k, (keysOf digest new)[i]? = some k ∧ k ∈ keysOf digest old ∧ (keysOf digest new).idxOf k = i ∧
        m = .same ((keysOf digest old).idxOf k)) ∨
      ¬ First (keysOf digest new) (keysOf digest old) i ∧
        ((∃ o, (offered digest old new i).head? = some o ∧ Similar old new o i ∧ m = .edited o) ∨
          ¬ Turns.Suits (Similar old new) (offered digest old new i) i ∧ m = .inserted) := by
  have hi : i < new.length := @length_matching digest old new ▸ (List.getElem?_eq_some_iff.mp h).1
  rw [matching_align hi] at h
  obtain rfl := Option.some.inj h
  rw [found.eq_def, getD_keyPass]
  by_cases hfirst : First (keysOf digest new) (keysOf digest old) i
  · obtain ⟨k, hk, hold, hnot⟩ := hfirst
    refine .inl ⟨k, hk, hold, ((first_iff hk).mp ⟨k, hk, hold, hnot⟩).2, ?_⟩
    rw [if_pos ⟨k, hk, hold, hnot⟩, getD_eq_getElem?_getD, hk]
    rfl
  · refine .inr ⟨hfirst, ?_⟩
    rw [if_neg hfirst]
    cases hoffered : offered digest old new i with
    | nil =>
      refine .inr ⟨?_, rfl⟩
      rintro ⟨o, ho, -⟩
      cases ho
    | cons o rest =>
      by_cases hsimilar : Similar old new o i
      · exact .inl ⟨o, rfl, hsimilar, if_pos hsimilar⟩
      · refine .inr ⟨?_, if_neg hsimilar⟩
        rintro ⟨o', ho', hsimilar'⟩
        obtain rfl := Option.some.inj ho'
        exact hsimilar hsimilar'

end Align

/-! ### Words in common -/

section Table

variable {β : Type} {s t ys : List β} {x : β} {row : List ℕ} {left : ℕ}

/-- The entries of a row from the words `t` on, each for one word more. -/
inductive LcsRow (s : List β) : List β → List β → List ℕ → Prop
  | last {t : List β} {n : ℕ} (h : IsGreatest (commonLengths s t) n) : LcsRow s t [] [n]
  | cons {t ys : List β} {y : β} {n : ℕ} {row : List ℕ} (h : IsGreatest (commonLengths s t) n)
      (hrow : LcsRow s (t ++ [y]) ys row) : LcsRow s t (y :: ys) (n :: row)

theorem lcsRow_replicate (t ys : List β) : LcsRow [] t ys (replicate (ys.length + 1) 0) := by
  induction ys generalizing t with
  | nil => exact .last (isGreatest_commonLengths_nil t)
  | cons y ys ih => exact .cons (isGreatest_commonLengths_nil t) (ih _)

/-- The last entry is for the whole text. -/
theorem LcsRow.getD (h : LcsRow s t ys row) : IsGreatest (commonLengths s (t ++ ys)) (row.getD ys.length 0) := by
  induction h with
  | last h =>
    rw [append_nil]
    exact h
  | cons h hrow ih =>
    rw [append_assoc] at ih
    exact ih

variable [DecidableEq β]

/-- A row from the one above, which has one word less. -/
theorem LcsRow.step (h : LcsRow s t ys row) (hleft : IsGreatest (commonLengths (s ++ [x]) t) left) :
    LcsRow (s ++ [x]) t ys (left :: lcsRow x ys row left) := by
  induction h generalizing left with
  | last h => exact .last hleft
  | @cons t ys y p row hp hrow ih =>
    have hentry : ∀ q row', row = q :: row' → IsGreatest (commonLengths (s ++ [x]) (t ++ [y]))
        (if x = y then p + 1 else max left q) := by
      rintro q row' rfl
      split
      · next heq =>
        subst heq
        exact hp.concat_self x
      · next hne =>
        have hq : IsGreatest (commonLengths s (t ++ [y])) q := by
          cases hrow with
          | last hq => exact hq
          | cons hq _ => exact hq
        exact hleft.concat_of_ne hne hq
    cases row with
    | nil => cases hrow
    | cons q row =>
      rw [lcsRow]
      exact .cons hleft (ih (hentry q row rfl))

theorem lcsRow_lcsRows (wa wb : List β) : LcsRow wa [] wb (lcsRows wa wb) := by
  suffices hfold : ∀ rest s row, LcsRow s [] wb row →
      LcsRow (s ++ rest) [] wb (rest.foldl (fun prev x => 0 :: lcsRow x wb prev 0) row) from
    hfold wa [] _ (lcsRow_replicate [] wb)
  intro rest
  induction rest with
  | nil =>
    intro s row h
    rwa [append_nil]
  | cons x rest ih =>
    intro s row h
    have hleft : IsGreatest (commonLengths (s ++ [x]) []) 0 := by
      rw [commonLengths_comm]
      exact isGreatest_commonLengths_nil _
    have hrest := ih (s ++ [x]) _ (h.step hleft)
    rwa [append_assoc] at hrest

theorem isGreatest_lcsRows (wa wb : List β) : IsGreatest (commonLengths wa wb) ((lcsRows wa wb).getD wb.length 0) :=
  (lcsRow_lcsRows wa wb).getD

end Table

theorem isGreatest_wordLcsLen (a b : String) : IsGreatest (commonLengths (words a) (words b)) (wordLcsLen a b) := by
  rw [wordLcsLen]
  split
  · next hnil =>
    obtain hnil | hnil := hnil
    · rw [hnil]
      exact isGreatest_commonLengths_nil _
    · rw [hnil, commonLengths_comm]
      exact isGreatest_commonLengths_nil _
  · split
    · -- the texts have changed places
      rw [commonLengths_comm]
      exact isGreatest_lcsRows _ _
    · exact isGreatest_lcsRows _ _

theorem wordLcsLen_exact (a b : String) :
    IsGreatest (commonLengths (words a) (words b)) (wordLcsLen a b) ∧ wordLcsLen a b = wordLcsLen b a ∧
      wordLcsLen a b ≤ (words a).length ∧ wordLcsLen a b ≤ (words b).length := by
  have h := isGreatest_wordLcsLen a b
  have hswap := isGreatest_wordLcsLen b a
  rw [commonLengths_comm] at hswap
  exact ⟨h, h.unique hswap, le_length_of_mem_commonLengths h.1⟩

end LazilyPy.StableId

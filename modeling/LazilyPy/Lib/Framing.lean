import Mathlib.Data.List.Basic
import Mathlib.Data.List.Flatten
import Mathlib.Data.Set.Basic

/-!
# Words that can be told apart in a row

In a prefix-free set no word is the beginning of another, so that a row of its words has one reading.
Frames, which carry a tag and the length of their body in decimal, are prefix-free.
-/

namespace Framing

open List

variable {β : Type} {C D : Set (List β)} {l l' : List (List β)} {a b r s : List β} {n m : ℕ}
  {body body' : List UInt8} {tag tag' : UInt8}

structure PrefixFree (C : Set (List β)) : Prop where
  nil_notMem : [] ∉ C
  append_inj : ∀ a ∈ C, ∀ b ∈ C, ∀ r s, a ++ r = b ++ s → a = b ∧ r = s

/-- Pairs of words are prefix-free. -/
theorem PrefixFree.pair (hC : PrefixFree C) (hD : PrefixFree D) : PrefixFree {w | ∃ a ∈ C, ∃ b ∈ D, w = a ++ b} where
  nil_notMem := by
    rintro ⟨a, ha, b, hb, heq⟩
    obtain ⟨rfl, -⟩ := append_eq_nil_iff.mp heq.symm
    exact hC.nil_notMem ha
  append_inj := by
    rintro _ ⟨a, ha, b, hb, rfl⟩ _ ⟨a', ha', b', hb', rfl⟩ r s h
    rw [append_assoc, append_assoc] at h
    obtain ⟨rfl, hrest⟩ := hC.append_inj a ha a' ha' _ _ h
    obtain ⟨rfl, rfl⟩ := hD.append_inj b hb b' hb' _ _ hrest
    exact ⟨rfl, rfl⟩

/-- A row of words has one reading. -/
theorem PrefixFree.flatten_inj (hC : PrefixFree C) (hl : ∀ w ∈ l, w ∈ C) (hl' : ∀ w ∈ l', w ∈ C)
    (h : l.flatten = l'.flatten) : l = l' := by
  induction l generalizing l' with
  | nil =>
    cases l' with
    | nil => rfl
    | cons b l' =>
      obtain ⟨rfl, -⟩ := append_eq_nil_iff.mp h.symm
      exact absurd (hl' [] mem_cons_self) hC.nil_notMem
  | cons a l ih =>
    cases l' with
    | nil =>
      obtain ⟨rfl, -⟩ := append_eq_nil_iff.mp h
      exact absurd (hl [] mem_cons_self) hC.nil_notMem
    | cons b l' =>
      obtain ⟨ha, hwords⟩ := forall_mem_cons.mp hl
      obtain ⟨hb, hwords'⟩ := forall_mem_cons.mp hl'
      obtain ⟨rfl, hrest⟩ := hC.append_inj a ha b hb l.flatten l'.flatten h
      rw [ih hwords hwords' hrest]

/-! ### Decimal numbers -/

def ascii (cs : List Char) : List UInt8 :=
  cs.map Char.toUInt8

theorem toNat_toUInt8 {c : Char} (h : c.toNat < 256) : c.toUInt8.toNat = c.toNat := by
  change c.val.toUInt8.toNat = c.val.toNat
  rw [UInt32.toNat_toUInt8]
  exact Nat.mod_eq_of_lt h

theorem ascii_inj {cs ds : List Char} (hc : ∀ c ∈ cs, c.toNat < 256) (hd : ∀ d ∈ ds, d.toNat < 256)
    (h : ascii cs = ascii ds) : cs = ds := by
  induction cs generalizing ds with
  | nil => exact (map_eq_nil_iff.mp h.symm).symm
  | cons c cs ih =>
    cases ds with
    | nil => cases h
    | cons d ds =>
      obtain ⟨hc, hcs⟩ := forall_mem_cons.mp hc
      obtain ⟨hd, hds⟩ := forall_mem_cons.mp hd
      obtain ⟨hhead, htail⟩ := cons_eq_cons.mp h
      have hnat : c.toNat = d.toNat := by
        rw [← toNat_toUInt8 hc, ← toNat_toUInt8 hd, hhead]
      rw [ih hcs hds htail, Char.toNat_inj.mp hnat]

theorem toNat_of_mem_toDigits {c : Char} (h : c ∈ Nat.toDigits 10 n) : 48 ≤ c.toNat ∧ c.toNat ≤ 57 :=
  Char.isDigit_iff_toNat.mp (Nat.isDigit_of_mem_toDigits (by decide) (by decide) h)

theorem toDigits_inj (h : Nat.toDigits 10 n = Nat.toDigits 10 m) : n = m := by
  rw [← Nat.ofDigitChars_ten_toDigits (n := n), h, Nat.ofDigitChars_ten_toDigits]

def decimal (n : ℕ) : List UInt8 :=
  ascii (Nat.toDigits 10 n)

theorem decimal_inj (h : decimal n = decimal m) : n = m := by
  refine toDigits_inj (ascii_inj (fun c hc => ?_) (fun c hc => ?_) h)
  · have := toNat_of_mem_toDigits hc
    omega
  · have := toNat_of_mem_toDigits hc
    omega

theorem toNat_of_mem_decimal {digit : UInt8} (h : digit ∈ decimal n) : 48 ≤ digit.toNat ∧ digit.toNat ≤ 57 := by
  obtain ⟨c, hc, rfl⟩ := mem_map.mp h
  have hdigit := toNat_of_mem_toDigits hc
  rwa [toNat_toUInt8 (by omega)]

/-- What comes before the first `b` is determined, where it has no `b`. -/
theorem append_cons_inj {b : β} (ha : b ∉ a) {a' : List β} (ha' : b ∉ a')
    (h : a ++ b :: r = a' ++ b :: s) : a = a' ∧ r = s := by
  induction a generalizing a' with
  | nil =>
    cases a' with
    | nil => exact ⟨rfl, (cons_eq_cons.mp h).2⟩
    | cons x a' => exact absurd ((cons_eq_cons.mp h).1 ▸ mem_cons_self) ha'
  | cons x a ih =>
    cases a' with
    | nil => exact absurd ((cons_eq_cons.mp h).1 ▸ mem_cons_self) ha
    | cons y a' =>
      obtain ⟨rfl, htail⟩ := cons_eq_cons.mp h
      have hnot := not_mem_of_not_mem_cons ha
      obtain ⟨rfl, hrest⟩ := ih hnot (not_mem_of_not_mem_cons ha') htail
      exact ⟨rfl, hrest⟩

/-! ### Frames -/

def colon : UInt8 := 58

theorem colon_notMem_decimal : colon ∉ decimal n := by
  intro h
  have hdigit := toNat_of_mem_decimal h
  exact absurd hdigit.2 (by decide)

def frame (tag : UInt8) (body : List UInt8) : List UInt8 :=
  tag :: (decimal body.length ++ colon :: body)

/-- A frame has one reading. -/
theorem frame_append_inj {r s : List UInt8} (h : frame tag body ++ r = frame tag' body' ++ s) :
    tag = tag' ∧ body = body' ∧ r = s := by
  obtain ⟨rfl, hrest⟩ := cons_eq_cons.mp h
  change decimal body.length ++ colon :: body ++ r = decimal body'.length ++ colon :: body' ++ s at hrest
  rw [append_assoc, append_assoc, cons_append, cons_append] at hrest
  obtain ⟨hlen, hbody⟩ := append_cons_inj colon_notMem_decimal colon_notMem_decimal hrest
  obtain ⟨rfl, rfl⟩ := append_inj hbody (decimal_inj hlen)
  exact ⟨rfl, rfl, rfl⟩

theorem frame_inj (h : frame tag body = frame tag' body') : tag = tag' ∧ body = body' := by
  have happend : frame tag body ++ [] = frame tag' body' ++ [] := by rw [h]
  obtain ⟨htag, hbody, -⟩ := frame_append_inj happend
  exact ⟨htag, hbody⟩

def frames : Set (List UInt8) :=
  {w | ∃ tag body, w = frame tag body}

theorem frame_mem_frames : frame tag body ∈ frames :=
  ⟨tag, body, rfl⟩

theorem prefixFree_frames : PrefixFree frames where
  nil_notMem := by
    rintro ⟨tag, body, h⟩
    cases h
  append_inj := by
    rintro _ ⟨tag, body, rfl⟩ _ ⟨tag', body', rfl⟩ r s h
    obtain ⟨rfl, rfl, rfl⟩ := frame_append_inj h
    exact ⟨rfl, rfl⟩

/-! ### Collections that are not ordered -/

def sortWords (l : List (List UInt8)) : List (List UInt8) :=
  l.mergeSort fun a b => a ≤ b

theorem sortWords_perm (l : List (List UInt8)) : (sortWords l).Perm l :=
  mergeSort_perm l _

theorem pairwise_sortWords (l : List (List UInt8)) : (sortWords l).Pairwise (· ≤ ·) := by
  have hsorted : (sortWords l).Pairwise fun a b => decide (a ≤ b) = true := pairwise_mergeSort
      (fun a b c hab hbc => by simpa using List.le_trans (by simpa using hab) (by simpa using hbc))
      (fun a b => by simpa using List.le_total a b) l
  exact hsorted.imp of_decide_eq_true

/-- Sorting forgets the order, and nothing else. -/
theorem sortWords_eq_iff {l l' : List (List UInt8)} : sortWords l = sortWords l' ↔ l.Perm l' := by
  constructor
  · intro h
    exact (sortWords_perm l).symm.trans (h ▸ sortWords_perm l')
  · intro h
    have hperm := (sortWords_perm l).trans (h.trans (sortWords_perm l').symm)
    exact hperm.eq_of_pairwise (fun a b _ _ hab hba => List.le_antisymm hab hba)
      (pairwise_sortWords l) (pairwise_sortWords l')

end Framing

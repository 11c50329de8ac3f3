import Mathlib.Data.List.Basic
import Mathlib.Data.List.Induction

/-!
# Buffers

A buffer of fixed length, of which slices are read and overwritten.
-/

namespace Buffer

open List Option

variable {β : Type} {l new new' : List β} {offset start length i : ℕ}

def slice (l : List β) (start length : ℕ) : List β :=
  (l.drop start).take length

def overwrite (l : List β) (offset : ℕ) (new : List β) : List β :=
  l.take offset ++ new ++ l.drop (offset + new.length)

theorem length_overwrite (h : offset + new.length ≤ l.length) : (overwrite l offset new).length = l.length := by
  rw [overwrite, length_append, length_append, length_take, length_drop]
  omega

theorem length_slice (h : start + length ≤ l.length) : (slice l start length).length = length := by
  rw [slice, length_take, length_drop]
  omega

theorem getElem?_slice : (slice l start length)[i]? = if i < length then l[start + i]? else none := by
  rw [slice, getElem?_take, getElem?_drop]

section

variable (h : offset + new.length ≤ l.length)

include h

theorem getElem?_overwrite : (overwrite l offset new)[i]? =
      if offset ≤ i ∧ i < offset + new.length then new[i - offset]? else l[i]? := by
  have htake : (l.take offset).length = offset := length_take_of_le (by omega)
  rw [overwrite, append_assoc]
  by_cases hlow : i < offset
  · rw [getElem?_append_left (by omega), getElem?_take_of_lt hlow, if_neg (by omega)]
  · rw [getElem?_append_right (by omega), htake]
    by_cases hhigh : i < offset + new.length
    · rw [getElem?_append_left (by omega), if_pos (by omega)]
    · rw [getElem?_append_right (by omega), getElem?_drop, if_neg (by omega)]
      congr 1
      omega

/-- Outside of what was written nothing changes. -/
theorem getElem?_overwrite_of_outside (hi : i < offset ∨ offset + new.length ≤ i) :
    (overwrite l offset new)[i]? = l[i]? := by
  rw [getElem?_overwrite h, if_neg (by omega)]

theorem slice_overwrite_self :
    slice (overwrite l offset new) offset new.length = new := by
  ext1 i
  rw [getElem?_slice, getElem?_overwrite h]
  split
  · rw [if_pos (by omega)]
    congr 1
    omega
  · rw [getElem?_eq_none (by omega)]

theorem slice_overwrite_of_disjoint (hdisjoint : start + length ≤ offset ∨ offset + new.length ≤ start) :
    slice (overwrite l offset new) start length = slice l start length := by
  ext1 i
  rw [getElem?_slice, getElem?_slice]
  split
  · exact getElem?_overwrite_of_outside h (by omega)
  · rfl

end

/-- Two parts in a row are one. -/
theorem overwrite_append (h : offset + (new ++ new').length ≤ l.length) :
    overwrite (overwrite l offset new) (offset + new.length) new' = overwrite l offset (new ++ new') := by
  rw [length_append] at h
  have hlen := length_overwrite (show offset + new.length ≤ l.length by omega)
  ext1 i
  rw [getElem?_overwrite (by omega), getElem?_overwrite (by omega),
    getElem?_overwrite (by rw [length_append]; omega), length_append]
  by_cases hlow : i < offset + new.length
  · rw [if_neg (by omega)]
    by_cases hi : offset ≤ i
    · rw [if_pos (by omega), if_pos (by omega), getElem?_append_left (by omega)]
    · rw [if_neg (by omega), if_neg (by omega)]
  · by_cases hhigh : i < offset + new.length + new'.length
    · rw [if_pos (by omega), if_pos (by omega), getElem?_append_right (by omega)]
      congr 1
      omega
    · rw [if_neg (by omega), if_neg (by omega), if_neg (by omega)]

/-- Two slices in a row. -/
theorem slice_append (first second : ℕ) :
    slice l start (first + second) = slice l start first ++ slice l (start + first) second := by
  rw [slice, slice, slice, take_add, drop_drop]

/-! ### Patches -/

structure Patch (β : Type) where
  offset : ℕ
  bytes : List β

variable {p q : Patch β} {patches : List (Patch β)}

namespace Patch

def Fits (l : List β) (p : Patch β) : Prop :=
  p.offset + p.bytes.length ≤ l.length

def get? (p : Patch β) (i : ℕ) : Option β :=
  if p.offset ≤ i then p.bytes[i - p.offset]? else none

def Apart (p q : Patch β) : Prop :=
  p.offset + p.bytes.length ≤ q.offset ∨ q.offset + q.bytes.length ≤ p.offset

theorem get?_add (p : Patch β) (i : ℕ) : p.get? (p.offset + i) = p.bytes[i]? := by
  rw [get?, if_pos (by omega), Nat.add_sub_cancel_left]

end Patch

def patched (l : List β) (patches : List (Patch β)) : List β :=
  patches.foldl (fun l p => overwrite l p.offset p.bytes) l

def lastAt (patches : List (Patch β)) (i : ℕ) : Option β :=
  patches.foldl (fun last p => (p.get? i).or last) none

theorem getElem?_overwrite_patch (h : p.Fits l) : (overwrite l p.offset p.bytes)[i]? = (p.get? i).or l[i]? := by
  rw [getElem?_overwrite h, Patch.get?]
  by_cases hlow : p.offset ≤ i
  · by_cases hhigh : i < p.offset + p.bytes.length
    · have hsome : p.bytes[i - p.offset]? = some _ := getElem?_eq_getElem (by omega)
      rw [if_pos ⟨hlow, hhigh⟩, if_pos hlow, hsome, some_or]
    · have hnone : p.bytes[i - p.offset]? = none := getElem?_eq_none (by omega)
      rw [if_neg (by omega), if_pos hlow, hnone, none_or]
  · rw [if_neg hlow, if_neg (by omega), none_or]

theorem patched_concat (l : List β) (patches : List (Patch β)) (p : Patch β) :
    patched l (patches ++ [p]) = overwrite (patched l patches) p.offset p.bytes :=
  foldl_concat ..

theorem lastAt_concat (patches : List (Patch β)) (p : Patch β) (i : ℕ) :
    lastAt (patches ++ [p]) i = (p.get? i).or (lastAt patches i) :=
  foldl_concat ..

theorem length_patched (h : ∀ p ∈ patches, p.Fits l) : (patched l patches).length = l.length := by
  induction patches using reverseRecOn with
  | nil => rfl
  | append_singleton patches p ih =>
    have hinit := ih fun q hq => h q (mem_append_left _ hq)
    have hp := h p (by simp)
    rw [patched_concat, length_overwrite (hinit ▸ hp), hinit]

theorem getElem?_patched (h : ∀ p ∈ patches, p.Fits l) : (patched l patches)[i]? = (lastAt patches i).or l[i]? := by
  induction patches using reverseRecOn with
  | nil => rfl
  | append_singleton patches p ih =>
    have hinit : ∀ q ∈ patches, q.Fits l := fun q hq => h q (mem_append_left _ hq)
    have hp : p.Fits (patched l patches) := by
      rw [Patch.Fits, length_patched hinit]
      exact h p (by simp)
    rw [patched_concat, getElem?_overwrite_patch hp, ih hinit, lastAt_concat, Option.or_assoc]

/-- Where there is a patch, there is a last one. -/
theorem lastAt_isSome (hp : p ∈ patches) (hi : i < p.bytes.length) : (lastAt patches (p.offset + i)).isSome := by
  induction patches using reverseRecOn with
  | nil => cases hp
  | append_singleton patches q ih =>
    rw [lastAt_concat, isSome_or]
    obtain hp | hp := mem_append.mp hp
    · rw [ih hp, Bool.or_true]
    · obtain rfl := mem_singleton.mp hp
      rw [Patch.get?_add, getElem?_eq_getElem hi]
      rfl

/-- A patch is read back if it is the last one at each of its indices, or what is put there is the
same. -/
theorem slice_patched_eq_iff (h : ∀ p ∈ patches, p.Fits l) (hp : p ∈ patches) :
    slice (patched l patches) p.offset p.bytes.length = p.bytes ↔
      ∀ i < p.bytes.length, lastAt patches (p.offset + i) = p.bytes[i]? := by
  have hget (i : ℕ) (hi : i < p.bytes.length) :
      (slice (patched l patches) p.offset p.bytes.length)[i]? = lastAt patches (p.offset + i) := by
    rw [getElem?_slice, if_pos hi, getElem?_patched h, or_of_isSome (lastAt_isSome hp hi)]
  constructor
  · intro heq i hi
    rw [← hget i hi, heq]
  · intro hlast
    ext1 i
    by_cases hi : i < p.bytes.length
    · rw [hget i hi, hlast i hi]
    · rw [getElem?_slice, if_neg hi, getElem?_eq_none (by omega)]

end Buffer

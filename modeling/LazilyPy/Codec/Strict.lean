import LazilyPy.Codec.RoundTrip

/-!
# The decoder is strict

Whatever the bytes are, they are read as the value tree of a frame, or refused by the codec.
-/

namespace LazilyPy.Codec

open List
open Parser (Yields run_bind_of_error run_bind_of_ok)

open Bytes (Format ofUtf8? utf8)

variable {value : WireValue} {data part more rest : List UInt8} {format : Format} {size : ℕ}

/-- The sizes that an arm can have, and the fields that it reads. -/
def Size.Bounded : Size → Prop
  | .inTag size => size < 2 ^ 32
  | .field width format => width = format.size ∧ format.signed = false ∧ width ≤ 4

instance : DecidablePred Size.Bounded
  | .inTag size => inferInstanceAs (Decidable (size < 2 ^ 32))
  | .field _ _ => inferInstanceAs (Decidable (_ ∧ _ ∧ _))

structure Fields (k : ℕ) (items : List (String × WireValue)) : Prop where
  length_le : items.length ≤ k
  nodup : (items.map Prod.fst).Nodup
  key : ∀ item ∈ items, item.1.utf8ByteSize < 2 ^ 32
  member : ∀ item ∈ items, Tree item.2

theorem Fields.putRows {k : ℕ} {items : List (String × WireValue)} (h : Fields k items)
    {item : String × WireValue} (hkey : item.1.utf8ByteSize < 2 ^ 32) (hmember : Tree item.2) :
    Fields (k + 1) (Table.putRows Prod.fst items item) := by
  have hmem : ∀ row ∈ Table.putRows Prod.fst items item, row = item ∨ row ∈ items := by
    intro row hrow
    obtain heq | ⟨hrow, -⟩ := Table.mem_put (t := ⟨items, h.nodup⟩) |>.mp hrow
    · exact .inl heq
    · exact .inr hrow
  refine ⟨?_, Table.nodup_putRows h.nodup item, fun row hrow => ?_, fun row hrow => ?_⟩
  · have hlen := h.length_le
    unfold Table.putRows
    split
    · rw [length_map]
      omega
    · rw [length_append, length_singleton]
      omega
  · obtain rfl | hrow := hmem row hrow
    · exact hkey
    · exact h.key row hrow
  · obtain rfl | hrow := hmem row hrow
    · exact hmember
    · exact h.member row hrow

section

variable {unpack : Reader WireValue}

def Arm.Sound : Arm → Prop
  | .int value => -2 ^ 63 ≤ value ∧ value < 2 ^ 64
  | .number width format => width = format.size ∧ width ≤ 8
  | .str source => source.Bounded
  | .array source => source.Bounded
  | .map source => source.Bounded
  | _ => True

instance : DecidablePred Arm.Sound
  | .int _ => inferInstanceAs (Decidable (_ ∧ _))
  | .number _ _ => inferInstanceAs (Decidable (_ ∧ _))
  | .str source => inferInstanceAs (Decidable source.Bounded)
  | .array source => inferInstanceAs (Decidable source.Bounded)
  | .map source => inferInstanceAs (Decidable source.Bounded)
  | .nil => .isTrue trivial
  | .bool _ => .isTrue trivial
  | .bin => .isTrue trivial
  | .float => .isTrue trivial
  | .unsupported => .isTrue trivial

end

theorem msgpackUnpack_of_run (h : unpack.run data = .ok (value, rest)) :
    msgpackUnpack data = if rest = [] then .ok value else .error (.codec .trailing) := by
  rw [msgpackUnpack, h]
  rfl

/-- The decoder of `data` comes to a value at `rest`. -/
inductive ValueAt (rest : List UInt8) : List UInt8 → Prop
  | self : ValueAt rest rest
  | element {tag : UInt8} {body start next : List UInt8} {source : Size} {size k : ℕ}
      {elements : List WireValue} (harm : arm tag.toNat = .array source)
      (hsize : (readSize source).run body = .ok (size, start)) (hk : k < size)
      (helements : (unpackArray unpack k).run start = .ok (elements, next))
      (h : ValueAt rest next) : ValueAt rest (tag :: body)
  | key {tag : UInt8} {body start next : List UInt8} {source : Size} {size k : ℕ}
      {items : List (String × WireValue)} (harm : arm tag.toNat = .map source)
      (hsize : (readSize source).run body = .ok (size, start)) (hk : k < size)
      (hitems : (unpackMap unpack k).run start = .ok (items, next))
      (h : ValueAt rest next) : ValueAt rest (tag :: body)
  | member {tag : UInt8} {body start next last : List UInt8} {source : Size} {size k : ℕ}
      {items : List (String × WireValue)} {key : String} (harm : arm tag.toNat = .map source)
      (hsize : (readSize source).run body = .ok (size, start)) (hk : k < size)
      (hitems : (unpackMap unpack k).run start = .ok (items, next))
      (hkey : unpack.run next = .ok (.str key, last))
      (h : ValueAt rest last) : ValueAt rest (tag :: body)

/-- A failure at any depth is a failure. -/
theorem ValueAt.error {raised : Raised} (h : ValueAt rest data)
    (herror : unpack.run rest = .error raised) : unpack.run data = .error raised := by
  induction h with
  | self => exact herror
  | element harm hsize hk helements _ ih =>
    rw [run_unpack_cons, harm]
    refine (run_bind_of_ok hsize).trans (run_bind_of_error ?_)
    exact Parser.run_replicate_error helements ih hk
  | key harm hsize hk hitems _ ih =>
    rw [run_unpack_cons, harm]
    refine (run_bind_of_ok hsize).trans (run_bind_of_error ?_)
    exact Parser.run_iterate_error hitems (run_bind_of_error ih) hk
  | member harm hsize hk hitems hkey _ ih =>
    rw [run_unpack_cons, harm]
    refine (run_bind_of_ok hsize).trans (run_bind_of_error ?_)
    refine Parser.run_iterate_error hitems ?_ hk
    exact (run_bind_of_ok hkey).trans (run_bind_of_error ih)

end LazilyPy.Codec

import Mathlib.Tactic.Positivity

/-!
# Numbers and texts as bytes

Fixed-width fields, unsigned and in two's complement, in either byte order, and UTF-8.
-/

namespace Bytes

open List Option

variable {width n m : ℕ} {l : List UInt8} {s t : String}

def littleEndian : ℕ → ℕ → List UInt8
  | 0, _ => []
  | width + 1, n => UInt8.ofNat (n % 256) :: littleEndian width (n / 256)

def ofLittleEndian : List UInt8 → ℕ
  | [] => 0
  | byte :: l => byte.toNat + 256 * ofLittleEndian l

@[simp] theorem length_littleEndian : (littleEndian width n).length = width := by
  induction width generalizing n with
  | zero => rfl
  | succ width ih => rw [littleEndian, length_cons, ih]

theorem ofLittleEndian_littleEndian (h : n < 256 ^ width) : ofLittleEndian (littleEndian width n) = n := by
  induction width generalizing n with
  | zero =>
    have hzero : n = 0 := by simpa using h
    rw [hzero]
    rfl
  | succ width ih =>
    have hdiv : n / 256 < 256 ^ width := by
      refine Nat.div_lt_of_lt_mul ?_
      rwa [Nat.pow_succ, Nat.mul_comm] at h
    have hbyte : (UInt8.ofNat (n % 256)).toNat = n % 256 := UInt8.toNat_ofNat_of_lt' (Nat.mod_lt n (by decide))
    rw [littleEndian, ofLittleEndian, ih hdiv, hbyte]
    exact Nat.mod_add_div n 256

theorem ofLittleEndian_lt (l : List UInt8) : ofLittleEndian l < 256 ^ l.length := by
  induction l with
  | nil => decide
  | cons byte l ih =>
    have hbyte : byte.toNat < 256 := byte.toNat_lt
    rw [ofLittleEndian, length_cons, Nat.pow_succ]
    omega

/-- Fields of given widths in a row, each with its least significant byte first. -/
def packRow : List ℕ → List ℕ → Option (List UInt8)
  | width :: widths, n :: values =>
    if n < 256 ^ width then (packRow widths values).map (littleEndian width n ++ ·) else none
  | [], [] => some []
  | _, _ => none

def unpackRow : List ℕ → List UInt8 → List ℕ
  | [], _ => []
  | width :: widths, l => ofLittleEndian (l.take width) :: unpackRow widths (l.drop width)

theorem length_packRow {widths values : List ℕ} (h : packRow widths values = some l) : l.length = widths.sum := by
  induction widths generalizing values l with
  | nil =>
    cases values with
    | nil =>
      cases h
      rfl
    | cons n values => cases h
  | cons width widths ih =>
    cases values with
    | nil => cases h
    | cons n values =>
      rw [packRow] at h
      split at h
      · obtain ⟨tail, htail, rfl⟩ := map_eq_some_iff.mp h
        rw [length_append, length_littleEndian, ih htail, sum_cons]
      · cases h

/-- A row of fields reads back. -/
theorem unpackRow_packRow {widths values : List ℕ} (h : packRow widths values = some l) :
    unpackRow widths l = values := by
  induction widths generalizing values l with
  | nil =>
    cases values with
    | nil => rfl
    | cons n values => cases h
  | cons width widths ih =>
    cases values with
    | nil => cases h
    | cons n values =>
      rw [packRow] at h
      split at h
      · next hlt =>
        obtain ⟨tail, htail, rfl⟩ := map_eq_some_iff.mp h
        rw [unpackRow, take_left' length_littleEndian, drop_left' length_littleEndian,
          ofLittleEndian_littleEndian hlt, ih htail]
      · cases h

/-- Bytes are those of their number. -/
theorem littleEndian_ofLittleEndian (l : List UInt8) : littleEndian l.length (ofLittleEndian l) = l := by
  induction l with
  | nil => rfl
  | cons byte l ih =>
    have hbyte : byte.toNat < 256 := byte.toNat_lt
    have hmod : (byte.toNat + 256 * ofLittleEndian l) % 256 = byte.toNat := by omega
    have hdiv : (byte.toNat + 256 * ofLittleEndian l) / 256 = ofLittleEndian l := by omega
    rw [length_cons, ofLittleEndian, littleEndian, hmod, hdiv, ih, UInt8.ofNat_toNat]

/-- Bytes are those of the numbers that are read from them. -/
theorem packRow_unpackRow {widths : List ℕ} (h : l.length = widths.sum) :
    packRow widths (unpackRow widths l) = some l := by
  induction widths generalizing l with
  | nil => rw [eq_nil_of_length_eq_zero h, unpackRow, packRow]
  | cons width widths ih =>
    rw [sum_cons] at h
    have htake : (l.take width).length = width := length_take_of_le (by omega)
    have hlt := ofLittleEndian_lt (l.take width)
    rw [htake] at hlt
    have htail := ih (l := l.drop width) (by rw [length_drop]; omega)
    have hhead := littleEndian_ofLittleEndian (l.take width)
    rw [htake] at hhead
    rw [unpackRow, packRow, if_pos hlt, htail, map_some, hhead, take_append_drop]

def bigEndian (width n : ℕ) : List UInt8 :=
  (littleEndian width n).reverse

def ofBigEndian (l : List UInt8) : ℕ :=
  ofLittleEndian l.reverse

@[simp] theorem length_bigEndian : (bigEndian width n).length = width := by
  simp [bigEndian]

theorem ofBigEndian_bigEndian (h : n < 256 ^ width) : ofBigEndian (bigEndian width n) = n := by
  rw [ofBigEndian, bigEndian, reverse_reverse, ofLittleEndian_littleEndian h]

/-- The number that a field of `width` bytes holds in two's complement. -/
def ofTwosComplement (width n : ℕ) : ℤ :=
  if 2 * n < 256 ^ width then n else n - 256 ^ width

/-- The field of `width` bytes that holds a number in two's complement. -/
def twosComplement (width : ℕ) (z : ℤ) : ℕ :=
  (if 0 ≤ z then z else z + 256 ^ width).toNat

theorem twosComplement_lt {z : ℤ} (hlow : -256 ^ width ≤ 2 * z) (hhigh : 2 * z < 256 ^ width) :
    twosComplement width z < 256 ^ width := by
  have hpos : (0 : ℤ) < 256 ^ width := by positivity
  rw [twosComplement, Int.toNat_lt]
  · push_cast
    split <;> omega
  · split <;> omega

theorem ofTwosComplement_twosComplement {z : ℤ} (hlow : -256 ^ width ≤ 2 * z)
    (hhigh : 2 * z < 256 ^ width) : ofTwosComplement width (twosComplement width z) = z := by
  have hpos : (0 : ℤ) < 256 ^ width := by positivity
  have hcast : ((256 ^ width : ℕ) : ℤ) = 256 ^ width := by push_cast; rfl
  unfold ofTwosComplement twosComplement
  split <;> split <;> omega

structure Format where
  size : ℕ
  signed : Bool
  deriving DecidableEq, Repr

namespace Format

def Fits (format : Format) (z : ℤ) : Prop :=
  if format.signed then -256 ^ format.size ≤ 2 * z ∧ 2 * z < 256 ^ format.size
  else 0 ≤ z ∧ z < 256 ^ format.size

instance (format : Format) (z : ℤ) : Decidable (format.Fits z) :=
  inferInstanceAs (Decidable (ite _ _ _))

def pack (format : Format) (z : ℤ) : Option (List UInt8) :=
  if format.Fits z then some (bigEndian format.size (twosComplement format.size z)) else none

def unpack (format : Format) (l : List UInt8) : Option ℤ :=
  if l.length = format.size then
    some (if format.signed then ofTwosComplement format.size (ofBigEndian l) else ofBigEndian l)
  else none

variable {format : Format} {z : ℤ}

theorem pack_eq_some (h : format.Fits z) :
    format.pack z = some (bigEndian format.size (twosComplement format.size z)) :=
  if_pos h

theorem unpack_pack (h : format.Fits z) :
    format.unpack (bigEndian format.size (twosComplement format.size z)) = some z := by
  rw [unpack, if_pos length_bigEndian]
  unfold Fits at h
  split at h
  · next hsigned =>
    rw [if_pos hsigned, ofBigEndian_bigEndian (twosComplement_lt h.1 h.2), ofTwosComplement_twosComplement h.1 h.2]
  · next hunsigned =>
    have hcomplement : twosComplement format.size z = z.toNat := by
      rw [twosComplement, if_pos h.1]
    have hlt : z.toNat < 256 ^ format.size := by
      rw [Int.toNat_lt h.1]
      push_cast
      exact h.2
    rw [if_neg hunsigned, hcomplement, ofBigEndian_bigEndian hlt, Int.toNat_of_nonneg h.1]

end Format

def utf8 (s : String) : List UInt8 :=
  s.toByteArray.data.toList

def ofUtf8? (l : List UInt8) : Option String :=
  String.fromUTF8? ⟨l.toArray⟩

@[simp] theorem length_utf8 : (utf8 s).length = s.utf8ByteSize :=
  rfl

theorem utf8_injective : Function.Injective utf8 := by
  intro s t h
  refine String.toByteArray_inj.mp (ByteArray.ext ?_)
  exact Array.toList_inj.mp h

theorem ofUtf8?_eq_some : ofUtf8? l = some s ↔ l = utf8 s := by
  unfold ofUtf8? String.fromUTF8? utf8
  constructor
  · intro h
    split at h
    · cases h
      rfl
    · cases h
  · rintro rfl
    split
    · rfl
    · next hvalid => exact absurd s.isValidUTF8 hvalid

@[simp] theorem ofUtf8?_utf8 : ofUtf8? (utf8 s) = some s :=
  ofUtf8?_eq_some.mpr rfl

end Bytes

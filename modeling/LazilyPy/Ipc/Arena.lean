import LazilyPy.Lib.Buffer
import LazilyPy.Lib.Bytes

/-!
# The blob arena

A buffer in which blobs are written one after another, each behind a header, and from the start again
where the end is reached. A descriptor tells where a blob is, and what its header has to say.
-/

namespace LazilyPy.Ipc

open List

open Buffer (slice overwrite)
open Bytes (littleEndian packRow unpackRow)

def headerLen : ℕ := 40
def magic : ℕ := 0x4C5A5348
def version : ℕ := 1
def fnvOffsetBasis : ℕ := 0xCBF29CE484222325
def fnvPrime : ℕ := 0x00000100000001B3
def u64Mask : ℕ := 2 ^ 64 - 1
def minCapacity : ℕ := headerLen + 1

inductive BlobBackendKind
  | shm | arrow | inProcess
  deriving DecidableEq, Repr

structure ShmBlobRef where
  offset : ℤ
  len : ℤ
  generation : ℤ
  epoch : ℤ
  checksum : ℤ
  backend : BlobBackendKind := .shm
  deriving DecidableEq, Repr

def ShmBlobRef.Apart (d d' : ShmBlobRef) : Prop :=
  d.offset + (headerLen + d.len) ≤ d'.offset ∨ d'.offset + (headerLen + d'.len) ≤ d.offset

inductive HeaderField
  | magic | version | headerLen | generation | epoch | len | checksum | offset
  deriving DecidableEq, Repr

inductive ShmBlobArenaError
  | capacityTooSmall (capacity minCapacity : ℕ)
  | tooLarge (length maxLength : ℕ)
  | descriptorOutOfBounds (offset length : ℤ) (capacity : ℕ)
  | descriptorMismatch (field : HeaderField)
  | checksumMismatch (expected : ℤ) (actual : ℕ)
  | generationOverflow
  | closed
  deriving DecidableEq, Repr

/-- An exception: of the arena, or of a field that a number does not fit. -/
inductive Raised
  | arena (error : ShmBlobArenaError)
  | struct
  deriving DecidableEq, Repr

def fnv1a64 (payload : List UInt8) : ℕ :=
  payload.foldl (fun hash byte => ((hash ^^^ byte.toNat) * fnvPrime) &&& u64Mask) fnvOffsetBasis

structure Blob where
  offset : ℕ
  generation : ℕ
  epoch : ℕ
  payload : List UInt8
  deriving DecidableEq

namespace Blob

def descriptor (blob : Blob) : ShmBlobRef where
  offset := blob.offset
  len := blob.payload.length
  generation := blob.generation
  epoch := blob.epoch
  checksum := fnv1a64 blob.payload

def size (blob : Blob) : ℕ :=
  headerLen + blob.payload.length

def widths : List ℕ :=
  [4, 2, 2, 8, 8, 8, 8]

def header (blob : Blob) : Option (List UInt8) :=
  packRow widths [magic, version, headerLen, blob.generation, blob.epoch, blob.payload.length, fnv1a64 blob.payload]

def torn (blob : Blob) : List UInt8 :=
  littleEndian 4 magic ++ littleEndian 2 version ++ littleEndian 2 headerLen ++
    littleEndian 8 blob.generation ++ replicate 24 0

end Blob

structure ShmBlobArena where
  buffer : List UInt8
  writeOffset : ℕ
  nextGeneration : ℕ
  deriving DecidableEq

/-- The bytes of a `bytearray`, which are fewer than `2 ^ 63`. -/
def Bytearray := { bytes : List UInt8 // bytes.length < 2 ^ 63 }

namespace ShmBlobArena

def new (buffer : Bytearray) : Except Raised ShmBlobArena :=
  if buffer.val.length < minCapacity then
    .error (.arena (.capacityTooSmall buffer.val.length minCapacity))
  else .ok { buffer := buffer.val, writeOffset := 0, nextGeneration := 1 }

def capacity (s : ShmBlobArena) : ℕ :=
  s.buffer.length

def maxBlobLen (s : ShmBlobArena) : ℕ :=
  s.capacity - headerLen

/-- Where the next blob of `size` bytes goes. -/
def place (size : ℕ) (s : ShmBlobArena) : ℕ :=
  if s.capacity < s.writeOffset + size then 0 else s.writeOffset

def writeBlob (epoch : ℕ) (payload : List UInt8) (s : ShmBlobArena) : Except Raised ShmBlobRef × ShmBlobArena :=
  if s.maxBlobLen < payload.length then
    (.error (.arena (.tooLarge payload.length s.maxBlobLen)), s)
  else
    let size := headerLen + payload.length
    let offset := s.place size
    if s.nextGeneration = u64Mask then
      (.error (.arena .generationOverflow), { s with writeOffset := offset })
    else
      let blob : Blob := ⟨offset, s.nextGeneration, epoch, payload⟩
      match blob.header with
      | none => (.error .struct,
          { buffer := overwrite s.buffer offset blob.torn
            writeOffset := offset
            nextGeneration := s.nextGeneration + 1 })
      | some header => (.ok blob.descriptor,
          { buffer := overwrite (overwrite s.buffer offset header) (offset + headerLen) payload
            writeOffset := if offset + size = s.capacity then 0 else offset + size
            nextGeneration := s.nextGeneration + 1 })

/-- Read the header at `offset`. -/
def readBlobHeader (buffer : List UInt8) (offset : ℕ) : Except Raised ShmBlobRef :=
  let raw := slice buffer offset headerLen
  if raw.length < headerLen then .error .struct
  else
    match unpackRow Blob.widths raw with
    | [magic', version', headerLen', generation, epoch, length, checksum] =>
      if magic' ≠ magic then .error (.arena (.descriptorMismatch .magic))
      else if version' ≠ version then .error (.arena (.descriptorMismatch .version))
      else if headerLen' ≠ headerLen then .error (.arena (.descriptorMismatch .headerLen))
      else .ok
        { offset := offset
          len := length
          generation := generation
          epoch := epoch
          checksum := checksum }
    | _ => .error .struct

def blobMismatchField (actual expected : ShmBlobRef) : HeaderField :=
  if actual.generation ≠ expected.generation then .generation
  else if actual.epoch ≠ expected.epoch then .epoch
  else if actual.len ≠ expected.len then .len
  else if actual.checksum ≠ expected.checksum then .checksum
  else .offset

def readBlob (descriptor : ShmBlobRef) (s : ShmBlobArena) : Except Raised (List UInt8) :=
  let outOfBounds : ShmBlobArenaError := .descriptorOutOfBounds descriptor.offset descriptor.len s.capacity
  if descriptor.offset < 0 ∨ descriptor.len < 0 then .error (.arena outOfBounds)
  else
    let size : ℤ := headerLen + descriptor.len
    if s.capacity < descriptor.offset ∨ s.capacity < size ∨ s.capacity - size < descriptor.offset then
      .error (.arena outOfBounds)
    else
      match readBlobHeader s.buffer descriptor.offset.toNat with
      | .error raised => .error raised
      | .ok header =>
        let header := { header with backend := descriptor.backend }
        if header ≠ descriptor then
          .error (.arena (.descriptorMismatch (blobMismatchField header descriptor)))
        else
          let payload := slice s.buffer (descriptor.offset.toNat + headerLen) descriptor.len.toNat
          if fnv1a64 payload ≠ descriptor.checksum then
            .error (.arena (.checksumMismatch descriptor.checksum (fnv1a64 payload)))
          else .ok payload

structure Valid (s : ShmBlobArena) : Prop where
  minCapacity_le : minCapacity ≤ s.capacity
  capacity_lt : s.capacity < 2 ^ 63
  writeOffset_lt : s.writeOffset < s.capacity
  generation_le : s.nextGeneration ≤ u64Mask

variable {s : ShmBlobArena} {epoch : ℕ} {payload : List UInt8} {blob blob' : Blob}
  {header : List UInt8} {backend : BlobBackendKind}

theorem fnv1a64_le (payload : List UInt8) : fnv1a64 payload ≤ u64Mask := by
  induction payload using reverseRecOn with
  | nil => decide
  | append_singleton payload byte _ =>
    rw [fnv1a64, foldl_concat]
    exact Nat.and_le_right

def nextBlob (epoch : ℕ) (payload : List UInt8) (s : ShmBlobArena) : Blob :=
  ⟨s.place (headerLen + payload.length), s.nextGeneration, epoch, payload⟩

theorem place_le {size : ℕ} (hsize : size ≤ s.capacity) : s.place size + size ≤ s.capacity := by
  unfold place
  split
  · omega
  · omega

/-- A header has its length. -/
theorem length_header (h : blob.header = some header) : header.length = headerLen :=
  Bytes.length_packRow h

/-- A header is there if its numbers fit. -/
theorem header_isSome (blob : Blob) (hgeneration : blob.generation < 2 ^ 64) (hepoch : blob.epoch < 2 ^ 64)
    (hlen : blob.payload.length < 2 ^ 64) : ∃ header, blob.header = some header := by
  have hchecksum : fnv1a64 blob.payload < 256 ^ 8 := Nat.lt_of_le_of_lt (fnv1a64_le blob.payload) (by decide)
  unfold Blob.header Blob.widths
  simp only [packRow]
  rw [if_pos (by decide), if_pos (by decide), if_pos (by decide), if_pos (by omega),
    if_pos (by omega), if_pos (by omega), if_pos hchecksum]
  exact ⟨_, rfl⟩

theorem header_eq_none (hepoch : 2 ^ 64 ≤ blob.epoch) : blob.header = none := by
  unfold Blob.header Blob.widths
  simp only [packRow]
  rw [if_pos (by decide), if_pos (by decide), if_pos (by decide)]
  split
  · rw [if_neg (by omega)]
    rfl
  · rfl

def Holds (blob : Blob) (s : ShmBlobArena) : Prop :=
  ∃ header, blob.header = some header ∧ blob.offset + blob.size ≤ s.capacity ∧
    slice s.buffer blob.offset blob.size = header ++ blob.payload

/-- What a write does: nothing, or it puts the next blob into the buffer. -/
theorem writeBlob_cases (hs : s.Valid) (epoch : ℕ) (payload : List UInt8) :
    (∃ error, (s.writeBlob epoch payload).1 = .error (.arena error) ∧ (s.writeBlob epoch payload).2.buffer = s.buffer) ∨
    (∃ header, (s.nextBlob epoch payload).header = some header ∧
      (s.nextBlob epoch payload).offset + (s.nextBlob epoch payload).size ≤ s.capacity ∧
      (s.writeBlob epoch payload).1 = .ok (s.nextBlob epoch payload).descriptor ∧
      (s.writeBlob epoch payload).2.buffer = overwrite s.buffer (s.nextBlob epoch payload).offset (header ++ payload)) ∨
    (2 ^ 64 ≤ epoch ∧ (s.writeBlob epoch payload).1 = .error .struct) := by
  by_cases hlarge : s.maxBlobLen < payload.length
  · refine .inl ⟨.tooLarge payload.length s.maxBlobLen, ?_⟩
    rw [writeBlob, if_pos hlarge]
    exact ⟨rfl, rfl⟩
  have hmin := hs.minCapacity_le
  have hsize : headerLen + payload.length ≤ s.capacity := by
    unfold maxBlobLen at hlarge
    unfold minCapacity at hmin
    omega
  have hplace := place_le hsize
  by_cases hgeneration : s.nextGeneration = u64Mask
  · refine .inl ⟨.generationOverflow, ?_⟩
    rw [writeBlob, if_neg hlarge, if_pos hgeneration]
    exact ⟨rfl, rfl⟩
  refine .inr ?_
  cases hheader : (s.nextBlob epoch payload).header with
  | some header =>
    refine .inl ⟨header, rfl, hplace, ?_⟩
    have hlen := length_header hheader
    simp only [nextBlob] at hheader
    rw [writeBlob, if_neg hlarge, if_neg hgeneration]
    simp only [hheader, nextBlob, true_and]
    rw [← hlen]
    refine Buffer.overwrite_append ?_
    rw [length_append, hlen]
    exact hplace
  | none =>
    refine .inr ⟨?_, ?_⟩
    · by_contra hepoch
      have hle := hs.generation_le
      have hcapacity := hs.capacity_lt
      have hmask : u64Mask < 2 ^ 64 := by decide
      obtain ⟨header, hsome⟩ := header_isSome (s.nextBlob epoch payload)
        (show s.nextGeneration < 2 ^ 64 by omega) (show epoch < 2 ^ 64 by omega)
        (show payload.length < 2 ^ 64 by omega)
      rw [hheader] at hsome
      cases hsome
    · simp only [nextBlob] at hheader
      rw [writeBlob, if_neg hlarge, if_neg hgeneration]
      simp only [hheader]

theorem Valid.new {buffer : Bytearray} (h : ShmBlobArena.new buffer = .ok s) : s.Valid := by
  unfold ShmBlobArena.new at h
  split at h
  · cases h
  · next hmin =>
    cases h
    have hpos : 0 < minCapacity := by decide
    exact ⟨by simpa [capacity] using hmin, buffer.property,
      show 0 < buffer.val.length by omega, show 1 ≤ u64Mask by decide⟩

/-- A write keeps the length of the buffer. -/
theorem capacity_writeBlob (hs : s.Valid) (epoch : ℕ) (payload : List UInt8) :
    (s.writeBlob epoch payload).2.capacity = s.capacity := by
  unfold writeBlob
  split
  · rfl
  next hlarge =>
    have hmin := hs.minCapacity_le
    have hsize : headerLen + payload.length ≤ s.capacity := by
      unfold maxBlobLen at hlarge
      unfold minCapacity at hmin
      omega
    have hplace := place_le hsize
    simp only
    split
    · rfl
    split
    · refine Buffer.length_overwrite ?_
      have htorn (blob : Blob) : blob.torn.length = headerLen := by
        simp [Blob.torn, headerLen]
      rw [htorn]
      unfold capacity at hplace
      omega
    · next header hheader =>
      have hlen := length_header hheader
      rw [← hlen] at hplace ⊢
      unfold capacity at hplace ⊢
      rw [Buffer.length_overwrite, Buffer.length_overwrite]
      · omega
      · rw [Buffer.length_overwrite (by omega)]
        omega

theorem Valid.writeBlob (hs : s.Valid) (epoch : ℕ) (payload : List UInt8) : (s.writeBlob epoch payload).2.Valid := by
  have hcapacity := capacity_writeBlob hs epoch payload
  have hmin := hs.minCapacity_le
  refine ⟨hcapacity ▸ hs.minCapacity_le, hcapacity ▸ hs.capacity_lt, hcapacity ▸ ?_, ?_⟩
  · have hoffset := hs.writeOffset_lt
    unfold ShmBlobArena.writeBlob
    split
    · exact hoffset
    next hlarge =>
      have hpos : 0 < minCapacity := by decide
      have hsize : headerLen + payload.length ≤ s.capacity := by
        unfold maxBlobLen at hlarge
        unfold minCapacity at hmin
        omega
      have hplace := place_le hsize
      have hlt : s.place (headerLen + payload.length) < s.capacity := by
        unfold place
        split <;> omega
      simp only
      split
      · exact hlt
      split
      · exact hlt
      · simp only
        split
        · omega
        · omega
  · have hgeneration := hs.generation_le
    unfold ShmBlobArena.writeBlob
    split
    · exact hgeneration
    simp only
    split
    · exact hgeneration
    next hne =>
      split
      · exact Nat.lt_of_le_of_ne hgeneration hne
      · exact Nat.lt_of_le_of_ne hgeneration hne

/-! ### Reads -/

/-- What a read returns: the bytes where the descriptor says, of its checksum, or an error of the
arena. -/
theorem readBlob_cases (d : ShmBlobRef) (s : ShmBlobArena) :
    (∃ bytes, s.readBlob d = .ok bytes ∧ 0 ≤ d.offset ∧ 0 ≤ d.len ∧ d.offset + headerLen + d.len ≤ s.capacity ∧
      bytes = slice s.buffer (d.offset.toNat + headerLen) d.len.toNat ∧
      bytes.length = d.len ∧ fnv1a64 bytes = d.checksum) ∨
    ∃ error, s.readBlob d = .error (.arena error) := by
  unfold readBlob
  simp only
  split
  · exact .inr ⟨_, rfl⟩
  split
  · exact .inr ⟨_, rfl⟩
  next hneg hbounds =>
    have hlen : (headerLen : ℤ) = 40 := rfl
    have hheader : (slice s.buffer d.offset.toNat headerLen).length = headerLen := by
      refine Buffer.length_slice ?_
      change d.offset.toNat + headerLen ≤ s.capacity
      omega
    have hread : (∃ error, readBlobHeader s.buffer d.offset.toNat = .error (.arena error)) ∨
        ∃ header, readBlobHeader s.buffer d.offset.toNat = .ok header := by
      unfold readBlobHeader
      simp only
      rw [if_neg (by omega)]
      simp only [Blob.widths, unpackRow]
      split
      · exact .inl ⟨_, rfl⟩
      split
      · exact .inl ⟨_, rfl⟩
      split
      · exact .inl ⟨_, rfl⟩
      · exact .inr ⟨_, rfl⟩
    obtain ⟨error, herror⟩ | ⟨header, hok⟩ := hread
    · rw [herror]
      exact .inr ⟨error, rfl⟩
    rw [hok]
    simp only
    split
    · exact .inr ⟨_, rfl⟩
    split
    · exact .inr ⟨_, rfl⟩
    next hchecksum =>
      refine .inl ⟨_, rfl, by omega, by omega, by omega, rfl, ?_, not_not.mp hchecksum⟩
      rw [Buffer.length_slice]
      · omega
      · change d.offset.toNat + headerLen + d.len.toNat ≤ s.capacity
        omega

theorem readBlobHeader_of_header {offset : ℕ} (hheader : blob.header = some header)
    (h : slice s.buffer offset headerLen = header) :
    readBlobHeader s.buffer offset = .ok { blob.descriptor with offset := offset } := by
  have hlen := length_header hheader
  have hrow := Bytes.unpackRow_packRow hheader
  unfold readBlobHeader
  simp only
  rw [h, if_neg (by omega), hrow]
  rfl

theorem readBlob_eq_ok {d head : ShmBlobRef} (hoffset : 0 ≤ d.offset) (hlen : 0 ≤ d.len)
    (hbounds : d.offset + headerLen + d.len ≤ s.capacity)
    (hread : readBlobHeader s.buffer d.offset.toNat = .ok head)
    (heq : { head with backend := d.backend } = d)
    (hchecksum : fnv1a64 (slice s.buffer (d.offset.toNat + headerLen) d.len.toNat) = d.checksum) :
    s.readBlob d = .ok (slice s.buffer (d.offset.toNat + headerLen) d.len.toNat) := by
  unfold readBlob
  simp only
  rw [if_neg (by omega), if_neg (by omega), hread]
  simp only
  rw [if_neg (not_not.mpr heq), if_neg (not_not.mpr hchecksum)]

/-- A blob that is in the buffer is read. -/
theorem readBlob_of_holds (h : Holds blob s) (backend : BlobBackendKind) :
    s.readBlob { blob.descriptor with backend := backend } = .ok blob.payload := by
  obtain ⟨header, hheader, hbounds, hslice⟩ := h
  have hlen := length_header hheader
  rw [Blob.size, Buffer.slice_append] at hslice
  rw [Blob.size] at hbounds
  have hfirst : (slice s.buffer blob.offset headerLen).length = header.length := by
    rw [hlen]
    refine Buffer.length_slice ?_
    change blob.offset + headerLen ≤ s.capacity
    omega
  obtain ⟨hraw, hpayload⟩ := append_inj hslice hfirst
  have hread := readBlobHeader_of_header hheader hraw
  have hok : s.readBlob { blob.descriptor with backend := backend } =
      .ok (slice s.buffer (blob.offset + headerLen) blob.payload.length) :=
    readBlob_eq_ok (Int.natCast_nonneg _) (Int.natCast_nonneg _)
      (show (blob.offset : ℤ) + headerLen + blob.payload.length ≤ s.capacity by omega) hread rfl
      (congrArg (fun bytes => (fnv1a64 bytes : ℤ)) hpayload)
  rw [hok, hpayload]

/-- A read that returns has read a header that matches. -/
theorem readBlobHeader_of_readBlob {d : ShmBlobRef} {bytes : List UInt8} (h : s.readBlob d = .ok bytes) :
    ∃ head, readBlobHeader s.buffer d.offset.toNat = .ok head ∧ { head with backend := d.backend } = d ∧
      bytes = slice s.buffer (d.offset.toNat + headerLen) d.len.toNat := by
  unfold readBlob at h
  simp only at h
  split at h
  · cases h
  split at h
  · cases h
  split at h
  · cases h
  next head hread =>
    split at h
    · cases h
    next heq =>
      split at h
      · cases h
      · exact ⟨head, hread, not_not.mp heq, (Except.ok.inj h).symm⟩

/-- The header that is read tells the bytes that are there. -/
theorem header_of_readBlobHeader {buffer : List UInt8} {head : ShmBlobRef}
    (hroom : blob.offset + headerLen ≤ buffer.length)
    (h : readBlobHeader buffer blob.offset = .ok head)
    (hmatch : { head with backend := backend } = { blob.descriptor with backend := backend }) :
    blob.header = some (slice buffer blob.offset headerLen) := by
  have hlen : (slice buffer blob.offset headerLen).length = headerLen := Buffer.length_slice hroom
  have hpack : packRow Blob.widths (unpackRow Blob.widths (slice buffer blob.offset headerLen)) =
      some (slice buffer blob.offset headerLen) := Bytes.packRow_unpackRow hlen
  unfold readBlobHeader at h
  simp only at h
  rw [if_neg (by omega)] at h
  split at h
  next magic' version' headerLen' generation epoch length checksum hrow =>
    split at h
    · cases h
    next hmagic =>
      split at h
      · cases h
      next hversion =>
        split at h
        · cases h
        next hheaderLen =>
          obtain rfl := Except.ok.inj h
          simp only [Blob.descriptor, ShmBlobRef.mk.injEq, Int.ofNat_inj] at hmatch
          obtain ⟨-, hlength, hgeneration, hepoch, hchecksum, -⟩ := hmatch
          rw [hrow, not_not.mp hmagic, not_not.mp hversion, not_not.mp hheaderLen, hgeneration,
            hepoch, hlength, hchecksum] at hpack
          exact hpack
  · cases h

/-- A blob is read back just if it is in the buffer. -/
theorem readBlob_iff_holds (hheader : blob.header = some header)
    (hroom : blob.offset + blob.size ≤ s.capacity) (backend : BlobBackendKind) :
    s.readBlob { blob.descriptor with backend := backend } = .ok blob.payload ↔ Holds blob s := by
  constructor
  · intro h
    obtain ⟨head, hread, heq, hpayload⟩ := readBlobHeader_of_readBlob h
    have hsize : blob.size = headerLen + blob.payload.length := rfl
    have hfirst : blob.offset + headerLen ≤ s.buffer.length := by
      change blob.offset + headerLen ≤ s.capacity
      omega
    refine ⟨header, hheader, hroom, ?_⟩
    rw [hsize, Buffer.slice_append, ← Option.some.inj (hheader.symm.trans (header_of_readBlobHeader hfirst hread heq))]
    exact congrArg (header ++ ·) hpayload.symm
  · intro h
    exact readBlob_of_holds h backend

/-- What a write puts into the buffer is there. -/
theorem holds_of_write (hheader : blob.header = some header)
    (hbounds : blob.offset + blob.size ≤ s.capacity) {s' : ShmBlobArena}
    (hbuffer : s'.buffer = overwrite s.buffer blob.offset (header ++ blob.payload)) :
    Holds blob s' := by
  have hlen := length_header hheader
  have hsize : (header ++ blob.payload).length = blob.size := by
    rw [length_append, hlen, Blob.size]
  have hroom : blob.offset + (header ++ blob.payload).length ≤ s.buffer.length := by
    rw [hsize]
    exact hbounds
  refine ⟨header, hheader, ?_, ?_⟩
  · rw [capacity, hbuffer, Buffer.length_overwrite hroom]
    exact hbounds
  · rw [hbuffer, ← hsize]
    exact Buffer.slice_overwrite_self hroom

/-- A write elsewhere leaves a blob in the buffer. -/
theorem Holds.of_write (h : Holds blob s) (hheader : blob'.header = some header)
    (hbounds : blob'.offset + blob'.size ≤ s.capacity)
    (happart : blob.descriptor.Apart blob'.descriptor)
    {s' : ShmBlobArena}
    (hbuffer : s'.buffer = overwrite s.buffer blob'.offset (header ++ blob'.payload)) :
    Holds blob s' := by
  obtain ⟨own, hown, hroom, hslice⟩ := h
  have hsize : (header ++ blob'.payload).length = blob'.size := by
    rw [length_append, length_header hheader, Blob.size]
  have hroom' : blob'.offset + (header ++ blob'.payload).length ≤ s.buffer.length := by
    rw [hsize]
    exact hbounds
  refine ⟨own, hown, ?_, ?_⟩
  · rw [capacity, hbuffer, Buffer.length_overwrite hroom']
    exact hroom
  · rw [hbuffer, Buffer.slice_overwrite_of_disjoint hroom', hslice]
    rw [hsize]
    have hpayload : blob.size = headerLen + blob.payload.length := rfl
    have hpayload' : blob'.size = headerLen + blob'.payload.length := rfl
    obtain h | h := happart
    · left
      change (blob.offset : ℤ) + (headerLen + blob.payload.length) ≤ blob'.offset at h
      omega
    · right
      change (blob'.offset : ℤ) + (headerLen + blob'.payload.length) ≤ blob.offset at h
      omega

end ShmBlobArena

end LazilyPy.Ipc

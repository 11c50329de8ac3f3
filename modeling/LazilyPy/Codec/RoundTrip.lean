import LazilyPy.Codec.Msgpack
import LazilyPy.Lib.MapM

/-!
# What is packed reads back
-/

namespace LazilyPy.Codec

open List Parser

open Bytes (Format bigEndian twosComplement utf8)

inductive Tree : WireValue → Prop
  | none : Tree .none
  | bool (value : Bool) : Tree (.bool value)
  | int {value : ℤ} (hlow : -2 ^ 63 ≤ value) (hhigh : value < 2 ^ 64) : Tree (.int value)
  | str {value : String} (hsize : value.utf8ByteSize < 2 ^ 32) : Tree (.str value)
  | list {elements : List WireValue} (hsize : elements.length < 2 ^ 32)
      (helements : ∀ element ∈ elements, Tree element) : Tree (.list elements)
  | dict {items : List (String × WireValue)} (hsize : items.length < 2 ^ 32)
      (hkeys : (items.map Prod.fst).Nodup)
      (hkey : ∀ item ∈ items, item.1.utf8ByteSize < 2 ^ 32)
      (hmember : ∀ item ∈ items, Tree item.2) : Tree (namedFields items)

variable {value : WireValue} {size n : ℕ} {raw rest header : List UInt8} {format : Format} {z : ℤ}
  {tag : UInt8} {kind : Arm} {sized : Size → Arm} {tooLong : MsgpackCodecError}
  {packed : Packed}

/-! ### Fields -/

theorem append_eq_ok (hn : n < 256) : append n = .ok [UInt8.ofNat n] :=
  if_pos hn

theorem appendField_eq_ok (hfits : format.Fits z) :
    appendField tag format z = .ok (tag :: bigEndian format.size (twosComplement format.size z)) := by
  rw [appendField, structPack, Bytes.Format.pack_eq_some hfits]
  rfl

/-- A field of a format reads back. -/
theorem run_uint (hfits : format.Fits z) (rest : List UInt8) :
    (uint format.size format).run (bigEndian format.size (twosComplement format.size z) ++ rest) = .ok (z, rest) := by
  have htake := run_take_append (e := Raised.codec .truncated)
    (bigEndian format.size (twosComplement format.size z)) rest
  rw [Bytes.length_bigEndian] at htake
  refine (run_bind_of_ok htake).trans ?_
  rw [Bytes.Format.unpack_pack hfits]
  rfl

/-- What follows an appended byte is read as the byte says. -/
theorem run_unpack_append (hn : n < 256) (rest : List UInt8) :
    unpack.run ([UInt8.ofNat n] ++ rest) = (unpackArm unpack n (arm n)).run rest := by
  have htag : (UInt8.ofNat n).toNat = n := UInt8.toNat_ofNat_of_lt' hn
  rw [singleton_append, run_unpack_cons, htag]

theorem fits_unsigned (n width : ℕ) (h : n < 256 ^ width) : (Format.mk width false).Fits n :=
  ⟨Int.natCast_nonneg n, by exact_mod_cast h⟩

theorem fits_signed (z : ℤ) (width : ℕ) (hlow : -256 ^ width ≤ 2 * z)
    (hhigh : 2 * z < 256 ^ width) : (Format.mk width true).Fits z :=
  ⟨hlow, hhigh⟩

/-! ### Integers -/

def ReadsInt (packed : Packed) (z : ℤ) : Prop :=
  ∃ raw, packed = .ok raw ∧ ∀ rest, unpack.run (raw ++ rest) = .ok (.int z, rest)

theorem readsInt_append (hn : n < 256) (harm : arm n = .int z) : ReadsInt (append n) z := by
  refine ⟨_, append_eq_ok hn, fun rest => ?_⟩
  rw [run_unpack_append hn, harm]
  rfl

theorem readsInt_appendField (hfits : format.Fits z)
    (harm : arm tag.toNat = .number format.size format) : ReadsInt (appendField tag format z) z := by
  refine ⟨_, appendField_eq_ok hfits, fun rest => ?_⟩
  rw [cons_append, run_unpack_cons, harm]
  exact run_bind_of_ok (run_uint hfits rest)

theorem readsInt_packUint (hn : n < 2 ^ 64) : ReadsInt (packUint n) n := by
  unfold packUint
  split
  · next h => exact readsInt_append (by omega) (if_pos (by omega))
  split
  · next h => exact readsInt_appendField (fits_unsigned n 1 (by omega)) rfl
  split
  · next h => exact readsInt_appendField (fits_unsigned n 2 (by omega)) rfl
  split
  · next h => exact readsInt_appendField (fits_unsigned n 4 (by omega)) rfl
  split
  · next h => exact readsInt_appendField (fits_unsigned n 8 (by omega)) rfl
  · omega

/-- The tags of small negative integers. -/
theorem arm_negative : ∀ n < 0x20, 0xE0 ||| n < 256 ∧ arm (0xE0 ||| n) = .int (n - 0x20) := by
  decide

theorem readsInt_packInt (hlow : -2 ^ 63 ≤ z) (hhigh : z < 2 ^ 64) : ReadsInt (packInt z) z := by
  unfold packInt
  split
  · next h =>
    have hreads := readsInt_packUint (n := z.toNat) (by omega)
    rwa [Int.toNat_of_nonneg h] at hreads
  split
  · next h =>
    obtain ⟨hlt, harm⟩ := arm_negative (z + 0x20).toNat (by omega)
    refine readsInt_append hlt (harm.trans ?_)
    rw [Int.toNat_of_nonneg (by omega), Int.add_sub_cancel]
  split
  · next h => exact readsInt_appendField (fits_signed z 1 (by omega) (by omega)) rfl
  split
  · next h => exact readsInt_appendField (fits_signed z 2 (by omega) (by omega)) rfl
  split
  · next h => exact readsInt_appendField (fits_signed z 4 (by omega) (by omega)) rfl
  split
  · next h => exact readsInt_appendField (fits_signed z 8 (by omega) (by omega)) rfl
  · omega

/-! ### Sizes -/

def ReadsSize (packed : Packed) (sized : Size → Arm) (size : ℕ) : Prop :=
  ∃ raw, packed = .ok raw ∧ ∀ rest, ∃ tag source body,
    unpack.run (raw ++ rest) = (unpackArm unpack tag (sized source)).run body ∧
      (readSize source).run body = .ok (size, rest)

theorem readsSize_append (hn : n < 256) (harm : arm n = sized (.inTag size)) : ReadsSize (append n) sized size := by
  refine ⟨_, append_eq_ok hn, fun rest => ⟨n, .inTag size, rest, ?_, rfl⟩⟩
  rw [run_unpack_append hn, harm]

theorem readsSize_appendField (hfits : format.Fits size) (harm : arm tag.toNat = sized (.field format.size format)) :
    ReadsSize (appendField tag format size) sized size := by
  refine ⟨_, appendField_eq_ok hfits, fun rest => ⟨tag.toNat, .field format.size format,
    bigEndian format.size (twosComplement format.size size) ++ rest, ?_, ?_⟩⟩
  · rw [cons_append, run_unpack_cons, harm]
  · exact run_bind_of_ok (run_uint hfits rest)

/-- The tags of short texts. -/
theorem arm_str : ∀ n < 0x20, 0xA0 ||| n < 256 ∧ arm (0xA0 ||| n) = .str (.inTag n) := by
  decide

theorem readsSize_packStrHeader (hsize : size < 2 ^ 32) : ReadsSize (packStrHeader size) .str size := by
  unfold packStrHeader
  split
  · next h =>
    obtain ⟨hlt, harm⟩ := arm_str size h
    exact readsSize_append hlt harm
  split
  · next h => exact readsSize_appendField (fits_unsigned size 1 (by omega)) rfl
  split
  · next h => exact readsSize_appendField (fits_unsigned size 2 (by omega)) rfl
  split
  · next h => exact readsSize_appendField (fits_unsigned size 4 (by omega)) rfl
  · omega

/-- The tags of a container. -/
theorem readsSize_packHeader {short : ℕ} {tag16 tag32 : UInt8}
    (hshort : ∀ n < 0x10, short ||| n < 256 ∧ arm (short ||| n) = sized (.inTag n))
    (h16 : arm tag16.toNat = sized (.field 2 fmtH)) (h32 : arm tag32.toNat = sized (.field 4 fmtI))
    (hsize : size < 2 ^ 32) : ReadsSize (packHeader short tag16 tag32 tooLong size) sized size := by
  unfold packHeader
  split
  · next h =>
    obtain ⟨hlt, harm⟩ := hshort size h
    exact readsSize_append hlt harm
  split
  · next h => exact readsSize_appendField (fits_unsigned size 2 (by omega)) h16
  split
  · next h => exact readsSize_appendField (fits_unsigned size 4 (by omega)) h32
  · omega

theorem readsSize_packArrayHeader (hsize : size < 2 ^ 32) : ReadsSize (packArrayHeader size) .array size :=
  readsSize_packHeader (by decide) rfl rfl hsize

theorem readsSize_packMapHeader (hsize : size < 2 ^ 32) : ReadsSize (packMapHeader size) .map size :=
  readsSize_packHeader (by decide) rfl rfl hsize

/-! ### Values -/

def ReadsBack (value : WireValue) : Prop :=
  ∃ raw, pack value = .ok raw ∧ ∀ rest, unpack.run (raw ++ rest) = .ok (value, rest)

theorem run_unpackStr (value : String) (rest : List UInt8) :
    (unpackStr (utf8 value).length).run (utf8 value ++ rest) = .ok (value, rest) := by
  refine (run_bind_of_ok (run_take_append (utf8 value) rest)).trans ?_
  rw [decode, Bytes.ofUtf8?_utf8]
  rfl

theorem readsBack_str {value : String} (hsize : value.utf8ByteSize < 2 ^ 32) : ReadsBack (.str value) := by
  obtain ⟨header, hheader, hreads⟩ := readsSize_packStrHeader hsize
  refine ⟨header ++ utf8 value, ?_, fun rest => ?_⟩
  · rw [pack, packStr, Bytes.length_utf8, hheader]
    rfl
  · obtain ⟨tag, source, body, hrun, hsource⟩ := hreads (utf8 value ++ rest)
    rw [append_assoc, hrun]
    refine (run_bind_of_ok hsource).trans ?_
    exact run_bind_of_ok (run_unpackStr value rest)

theorem readsBack_elements {elements : List WireValue} (h : ∀ element ∈ elements, ReadsBack element) :
    ∃ raw, packElements elements = .ok raw ∧
      ∀ rest, (unpackArray unpack elements.length).run (raw ++ rest) = .ok (elements, rest) := by
  induction elements with
  | nil => exact ⟨[], rfl, fun rest => rfl⟩
  | cons element elements ih =>
    obtain ⟨⟨first, hfirst, hreadsFirst⟩, htail⟩ := forall_mem_cons.mp h
    obtain ⟨body, hbody, hreads⟩ := ih htail
    refine ⟨first ++ body, ?_, fun rest => ?_⟩
    · rw [packElements, hfirst, hbody]
      rfl
    · rw [append_assoc]
      refine (run_bind_of_ok (hreadsFirst (body ++ rest))).trans ?_
      exact run_bind_of_ok (hreads rest)

/-- An item with a new key goes to the end. -/
theorem putRows_of_notMem {out : List (String × WireValue)} {item : String × WireValue}
    (h : item.1 ∉ out.map Prod.fst) : Table.putRows Prod.fst out item = out ++ [item] :=
  if_neg h

theorem readsBack_items {items out : List (String × WireValue)} (hkeys : ((out ++ items).map Prod.fst).Nodup)
    (hkey : ∀ item ∈ items, item.1.utf8ByteSize < 2 ^ 32)
    (hmember : ∀ item ∈ items, ReadsBack item.2) :
    ∃ raw, packItems (items.map fun item => (.str item.1, item.2)) = .ok raw ∧
      ∀ rest, (Parser.iterate (unpackItem unpack) items.length out).run (raw ++ rest) = .ok (out ++ items, rest) := by
  induction items generalizing out with
  | nil => exact ⟨[], rfl, fun rest => by rw [append_nil]; rfl⟩
  | cons item items ih =>
    obtain ⟨hkeyItem, hkeyTail⟩ := forall_mem_cons.mp hkey
    obtain ⟨⟨second, hsecond, hreadsSecond⟩, hmemberTail⟩ := forall_mem_cons.mp hmember
    obtain ⟨first, hfirst, hreadsFirst⟩ := readsBack_str hkeyItem
    rw [pack] at hfirst
    have hnew : item.1 ∉ out.map Prod.fst := by
      rw [map_append, map_cons, nodup_append'] at hkeys
      exact fun hmem => hkeys.2.2 hmem mem_cons_self
    have hassoc : out ++ item :: items = (out ++ [item]) ++ items := by simp
    obtain ⟨body, hbody, hreads⟩ := ih (hassoc ▸ hkeys) hkeyTail hmemberTail
    refine ⟨first ++ (second ++ body), ?_, fun rest => ?_⟩
    · rw [map_cons, packItems, hfirst, hsecond, hbody]
      rfl
    · have hround : (unpackItem unpack out).run (first ++ (second ++ (body ++ rest))) =
          .ok (out ++ [item], body ++ rest) := by
        refine (run_bind_of_ok (hreadsFirst _)).trans ?_
        refine (run_bind_of_ok (hreadsSecond _)).trans ?_
        rw [putRows_of_notMem hnew]
        rfl
      rw [append_assoc, append_assoc]
      refine (run_bind_of_ok hround).trans ?_
      rw [hassoc]
      exact hreads rest

theorem unpack_pack (h : Tree value) : ReadsBack value := by
  induction h with
  | none => exact ⟨_, append_eq_ok (by decide), fun rest => run_unpack_append (by decide) rest⟩
  | bool value =>
    cases value with
    | false => exact ⟨_, append_eq_ok (by decide), fun rest => run_unpack_append (by decide) rest⟩
    | true => exact ⟨_, append_eq_ok (by decide), fun rest => run_unpack_append (by decide) rest⟩
  | int hlow hhigh => exact readsInt_packInt hlow hhigh
  | str hsize => exact readsBack_str hsize
  | @list elements hsize helements ih =>
    obtain ⟨header, hheader, hreadsHeader⟩ := readsSize_packArrayHeader hsize
    obtain ⟨body, hbody, hreads⟩ := readsBack_elements ih
    refine ⟨header ++ body, ?_, fun rest => ?_⟩
    · rw [pack, hheader, hbody]
      rfl
    · obtain ⟨tag, source, start, hrun, hsource⟩ := hreadsHeader (body ++ rest)
      rw [append_assoc, hrun]
      refine (run_bind_of_ok hsource).trans ?_
      exact run_bind_of_ok (hreads rest)
  | @dict items hsize hkeys hkey hmember ih =>
    obtain ⟨header, hheader, hreadsHeader⟩ := readsSize_packMapHeader hsize
    have hnodup : (([] ++ items).map Prod.fst).Nodup := hkeys
    obtain ⟨body, hbody, hreads⟩ := readsBack_items hnodup hkey ih
    refine ⟨header ++ body, ?_, fun rest => ?_⟩
    · rw [namedFields, pack, length_map, hheader, hbody]
      rfl
    · obtain ⟨tag, source, start, hrun, hsource⟩ := hreadsHeader (body ++ rest)
      rw [append_assoc, hrun]
      refine (run_bind_of_ok hsource).trans ?_
      exact run_bind_of_ok (hreads rest)

/-! ### What is refused -/

inductive Within (part : WireValue) : WireValue → Prop
  | self : Within part part
  | element {elements : List WireValue} {element : WireValue} (hmem : element ∈ elements)
      (h : Within part element) : Within part (.list elements)
  | component {elements : List WireValue} {element : WireValue} (hmem : element ∈ elements)
      (h : Within part element) : Within part (.tuple elements)
  | key {items : List (WireValue × WireValue)} {item : WireValue × WireValue} (hmem : item ∈ items)
      (h : Within part item.1) : Within part (.dict items)
  | member {items : List (WireValue × WireValue)} {item : WireValue × WireValue} (hmem : item ∈ items)
      (h : Within part item.2) : Within part (.dict items)

theorem packUint_of_le (h : 2 ^ 64 ≤ n) : packUint n = .error (.codec (.integerOutOfRange n)) := by
  unfold packUint
  rw [if_neg (by omega), if_neg (by omega), if_neg (by omega), if_neg (by omega), if_neg (by omega)]

theorem packInt_of_outOfRange (h : ¬ (-2 ^ 63 ≤ z ∧ z < 2 ^ 64)) :
    packInt z = .error (.codec (.integerOutOfRange z)) := by
  unfold packInt
  split
  · next hpos => rw [packUint_of_le (by omega), Int.toNat_of_nonneg hpos]
  · rw [if_neg (by omega), if_neg (by omega), if_neg (by omega), if_neg (by omega), if_neg (by omega)]

theorem packStrHeader_of_le (h : 2 ^ 32 ≤ size) : packStrHeader size = .error (.codec .stringTooLong) := by
  unfold packStrHeader
  rw [if_neg (by omega), if_neg (by omega), if_neg (by omega), if_neg (by omega)]

theorem packHeader_of_le {short : ℕ} {tag16 tag32 : UInt8} (h : 2 ^ 32 ≤ size) :
    packHeader short tag16 tag32 tooLong size = .error (.codec tooLong) := by
  unfold packHeader
  rw [if_neg (by omega), if_neg (by omega), if_neg (by omega)]

def Settles (packed : Packed) : Prop :=
  ∀ raised, packed = .error raised → ∃ error, raised = .codec error

theorem settles_ok (h : packed = .ok raw) : Settles packed :=
  fun _ heq => nomatch h.symm.trans heq

theorem settles_codec {error : MsgpackCodecError} (h : packed = .error (.codec error)) : Settles packed :=
  fun _ heq => ⟨error, Except.error.inj (heq.symm.trans h)⟩

theorem settles_packInt (z : ℤ) : Settles (packInt z) := by
  by_cases h : -2 ^ 63 ≤ z ∧ z < 2 ^ 64
  · obtain ⟨raw, hraw, _⟩ := readsInt_packInt h.1 h.2
    exact settles_ok hraw
  · exact settles_codec (packInt_of_outOfRange h)

theorem settles_packStr (value : String) : Settles (packStr value) := by
  by_cases h : value.utf8ByteSize < 2 ^ 32
  · obtain ⟨raw, hraw, _⟩ := readsBack_str h
    rw [pack] at hraw
    exact settles_ok hraw
  · refine settles_codec (?_ : packStr value = .error (.codec .stringTooLong))
    rw [packStr, Bytes.length_utf8, packStrHeader_of_le (by omega)]
    rfl

theorem settles_packArrayHeader (size : ℕ) : Settles (packArrayHeader size) := by
  by_cases h : size < 2 ^ 32
  · obtain ⟨raw, hraw, _⟩ := readsSize_packArrayHeader h
    exact settles_ok hraw
  · exact settles_codec (packHeader_of_le (by omega))

theorem settles_packMapHeader (size : ℕ) : Settles (packMapHeader size) := by
  by_cases h : size < 2 ^ 32
  · obtain ⟨raw, hraw, _⟩ := readsSize_packMapHeader h
    exact settles_ok hraw
  · exact settles_codec (packHeader_of_le (by omega))

mutual

/-- What is raised is of the codec, unless a text has a lone surrogate. -/
theorem codec_of_pack : ∀ (value : WireValue) {raised : Raised}, pack value = .error raised →
    ¬ Within .surrogates value → ∃ error, raised = .codec error
  | .none, _, h, _ => nomatch h
  | .bool false, _, h, _ => nomatch h
  | .bool true, _, h, _ => nomatch h
  | .int value, _, h, _ => settles_packInt value _ h
  | .str value, _, h, _ => settles_packStr value _ h
  | .surrogates, _, _, hnot => absurd .self hnot
  | .bytes _, _, h, _ => ⟨.bin, (Except.error.inj h).symm⟩
  | .float _, _, h, _ => ⟨.float, (Except.error.inj h).symm⟩
  | .other typeName, _, h, _ => ⟨.unsupported typeName, (Except.error.inj h).symm⟩
  | .list elements, _, h, hnot => by
    rw [pack] at h
    obtain h | ⟨header, -, h⟩ := except_bind_eq_error.mp h
    · exact settles_packArrayHeader elements.length _ h
    obtain h | ⟨body, -, h⟩ := except_bind_eq_error.mp h
    · exact codec_of_packElements elements h fun _ hmem hwithin => hnot (.element hmem hwithin)
    · cases h
  | .tuple elements, _, h, hnot => by
    rw [pack] at h
    obtain h | ⟨header, -, h⟩ := except_bind_eq_error.mp h
    · exact settles_packArrayHeader elements.length _ h
    obtain h | ⟨body, -, h⟩ := except_bind_eq_error.mp h
    · exact codec_of_packElements elements h fun _ hmem hwithin => hnot (.component hmem hwithin)
    · cases h
  | .dict items, _, h, hnot => by
    rw [pack] at h
    obtain h | ⟨header, -, h⟩ := except_bind_eq_error.mp h
    · exact settles_packMapHeader items.length _ h
    obtain h | ⟨body, -, h⟩ := except_bind_eq_error.mp h
    · exact codec_of_packItems items h fun _ hmem =>
        ⟨fun hwithin => hnot (.key hmem hwithin), fun hwithin => hnot (.member hmem hwithin)⟩
    · cases h

theorem codec_of_packElements : ∀ (elements : List WireValue) {raised : Raised},
    packElements elements = .error raised →
    (∀ element ∈ elements, ¬ Within .surrogates element) → ∃ error, raised = .codec error
  | [], _, h, _ => nomatch h
  | element :: elements, _, h, hnot => by
    rw [packElements] at h
    obtain ⟨hhead, htail⟩ := forall_mem_cons.mp hnot
    obtain h | ⟨first, -, h⟩ := except_bind_eq_error.mp h
    · exact codec_of_pack element h hhead
    obtain h | ⟨rest, -, h⟩ := except_bind_eq_error.mp h
    · exact codec_of_packElements elements h htail
    · cases h

theorem codec_of_packItems : ∀ (items : List (WireValue × WireValue)) {raised : Raised},
    packItems items = .error raised →
    (∀ item ∈ items, ¬ Within .surrogates item.1 ∧ ¬ Within .surrogates item.2) →
    ∃ error, raised = .codec error
  | [], _, h, _ => nomatch h
  | (key, member) :: items, _, h, hnot => by
    obtain ⟨⟨hkey, hmember⟩, htail⟩ := forall_mem_cons.mp hnot
    cases key with
    | str key =>
      rw [packItems] at h
      obtain h | ⟨first, -, h⟩ := except_bind_eq_error.mp h
      · exact settles_packStr key _ h
      obtain h | ⟨second, -, h⟩ := except_bind_eq_error.mp h
      · exact codec_of_pack member h hmember
      obtain h | ⟨rest, -, h⟩ := except_bind_eq_error.mp h
      · exact codec_of_packItems items h htail
      · cases h
    | surrogates => exact absurd .self hkey
    | _ => exact ⟨.stringKeys _, (Except.error.inj h).symm⟩

end

end LazilyPy.Codec

import LazilyPy.Lib.Bytes
import LazilyPy.Lib.Parser
import LazilyPy.Lib.Table

/-!
# The binary codec

A serializer for value trees. Lengths and integers come in classes, a tag for each. A frame has neither
byte strings nor floating point numbers, and the keys of its maps are texts.
-/

namespace LazilyPy.Codec

open Bytes (Format bigEndian ofUtf8? utf8)
open Parser (AgreeBelow Local local_pure local_take local_throw)

/-- A value. A `str` is a text, or has a lone surrogate. -/
inductive WireValue
  | none
  | bool (value : Bool)
  | int (value : ℤ)
  | str (value : String)
  | surrogates
  | bytes (raw : List UInt8)
  | list (elements : List WireValue)
  | tuple (elements : List WireValue)
  | dict (items : List (WireValue × WireValue))
  | float (bits : UInt64)
  | other (typeName : String)

inductive MsgpackCodecError
  | integerOutOfRange (value : ℤ)
  | stringTooLong
  | arrayTooLong
  | mapTooLong
  | bin
  | stringKeys (key : WireValue)
  | float
  | unsupported (typeName : String)
  | truncated
  | utf8
  | unsupportedTag (tag : ℕ)
  | trailing

inductive Raised
  | codec (error : MsgpackCodecError)
  | unicodeEncode
  | unicodeDecode
  | struct
  | byteRange
  | index

/-! ### Encode -/

abbrev Packed := Except Raised (List UInt8)

def fmtB : Format := ⟨1, false⟩
def fmtH : Format := ⟨2, false⟩
def fmtI : Format := ⟨4, false⟩
def fmtQ : Format := ⟨8, false⟩
def fmtb : Format := ⟨1, true⟩
def fmth : Format := ⟨2, true⟩
def fmti : Format := ⟨4, true⟩
def fmtq : Format := ⟨8, true⟩

def structPack (format : Format) (value : ℤ) : Packed :=
  match format.pack value with
  | some raw => .ok raw
  | none => .error .struct

def append (value : ℕ) : Packed :=
  if value < 256 then .ok [UInt8.ofNat value] else .error .byteRange

def appendField (tag : UInt8) (format : Format) (value : ℤ) : Packed := do
  let field ← structPack format value
  return tag :: field

def packUint (value : ℕ) : Packed :=
  if value < 0x80 then append value
  else if value ≤ 0xFF then appendField 0xCC fmtB value
  else if value ≤ 0xFFFF then appendField 0xCD fmtH value
  else if value ≤ 0xFFFFFFFF then appendField 0xCE fmtI value
  else if value ≤ 0xFFFFFFFFFFFFFFFF then appendField 0xCF fmtQ value
  else .error (.codec (.integerOutOfRange value))

def packInt (value : ℤ) : Packed :=
  if 0 ≤ value then packUint value.toNat
  else if -0x20 ≤ value then append (0xE0 ||| (value + 0x20).toNat)
  else if -0x80 ≤ value then appendField 0xD0 fmtb value
  else if -0x8000 ≤ value then appendField 0xD1 fmth value
  else if -0x80000000 ≤ value then appendField 0xD2 fmti value
  else if -0x8000000000000000 ≤ value then appendField 0xD3 fmtq value
  else .error (.codec (.integerOutOfRange value))

def packStrHeader (size : ℕ) : Packed :=
  if size < 0x20 then append (0xA0 ||| size)
  else if size ≤ 0xFF then appendField 0xD9 fmtB size
  else if size ≤ 0xFFFF then appendField 0xDA fmtH size
  else if size ≤ 0xFFFFFFFF then appendField 0xDB fmtI size
  else .error (.codec .stringTooLong)

def packStr (value : String) : Packed := do
  let raw := utf8 value
  let header ← packStrHeader raw.length
  return header ++ raw

def packHeader (short : ℕ) (tag16 tag32 : UInt8) (tooLong : MsgpackCodecError) (size : ℕ) : Packed :=
  if size < 0x10 then append (short ||| size)
  else if size ≤ 0xFFFF then appendField tag16 fmtH size
  else if size ≤ 0xFFFFFFFF then appendField tag32 fmtI size
  else .error (.codec tooLong)

def packArrayHeader : ℕ → Packed :=
  packHeader 0x90 0xDC 0xDD .arrayTooLong

def packMapHeader : ℕ → Packed :=
  packHeader 0x80 0xDE 0xDF .mapTooLong

mutual

def pack : WireValue → Packed
  | .none => append 0xC0
  | .bool value => append (if value then 0xC3 else 0xC2)
  | .int value => packInt value
  | .str value => packStr value
  | .surrogates => .error .unicodeEncode
  | .bytes _ => .error (.codec .bin)
  | .list elements => do
    let header ← packArrayHeader elements.length
    let body ← packElements elements
    return header ++ body
  | .tuple elements => do
    let header ← packArrayHeader elements.length
    let body ← packElements elements
    return header ++ body
  | .dict items => do
    let header ← packMapHeader items.length
    let body ← packItems items
    return header ++ body
  | .float _ => .error (.codec .float)
  | .other typeName => .error (.codec (.unsupported typeName))

def packElements : List WireValue → Packed
  | [] => .ok []
  | element :: elements => do
    let first ← pack element
    let rest ← packElements elements
    return first ++ rest

def packItems : List (WireValue × WireValue) → Packed
  | [] => .ok []
  | (.str key, member) :: items => do
    let first ← packStr key
    let second ← pack member
    let rest ← packItems items
    return first ++ (second ++ rest)
  | (.surrogates, _) :: _ => .error .unicodeEncode
  | (key, _) :: _ => .error (.codec (.stringKeys key))

end

def msgpackPack (value : WireValue) : Packed :=
  pack value

/-! ### Decode -/

abbrev Reader := Parser UInt8 Raised

def take (count : ℕ) : Reader (List UInt8) :=
  Parser.take (.codec .truncated) count

def byte : Reader ℕ := do
  let chunk ← take 1
  match chunk with
  | [] => throw .index
  | first :: _ => pure first.toNat

def uint (width : ℕ) (format : Format) : Reader ℤ := do
  let chunk ← take width
  match format.unpack chunk with
  | some value => pure value
  | none => throw .struct

inductive Size
  | inTag (size : ℕ)
  | field (width : ℕ) (format : Format)
  deriving DecidableEq

inductive Arm
  | int (value : ℤ)
  | nil
  | bool (value : Bool)
  | number (width : ℕ) (format : Format)
  | str (size : Size)
  | array (size : Size)
  | map (size : Size)
  | bin
  | float
  | unsupported
  deriving DecidableEq

def arm (tag : ℕ) : Arm :=
  if tag ≤ 0x7F then .int tag
  else if 0xE0 ≤ tag then .int (tag - 0x100)
  else if 0x80 ≤ tag ∧ tag ≤ 0x8F then .map (.inTag (tag &&& 0x0F))
  else if 0x90 ≤ tag ∧ tag ≤ 0x9F then .array (.inTag (tag &&& 0x0F))
  else if 0xA0 ≤ tag ∧ tag ≤ 0xBF then .str (.inTag (tag &&& 0x1F))
  else if tag = 0xC0 then .nil
  else if tag = 0xC2 then .bool false
  else if tag = 0xC3 then .bool true
  else if tag ∈ [0xC4, 0xC5, 0xC6] then .bin
  else if tag ∈ [0xCA, 0xCB] then .float
  else if tag = 0xCC then .number 1 fmtB
  else if tag = 0xCD then .number 2 fmtH
  else if tag = 0xCE then .number 4 fmtI
  else if tag = 0xCF then .number 8 fmtQ
  else if tag = 0xD0 then .number 1 fmtb
  else if tag = 0xD1 then .number 2 fmth
  else if tag = 0xD2 then .number 4 fmti
  else if tag = 0xD3 then .number 8 fmtq
  else if tag = 0xD9 then .str (.field 1 fmtB)
  else if tag = 0xDA then .str (.field 2 fmtH)
  else if tag = 0xDB then .str (.field 4 fmtI)
  else if tag = 0xDC then .array (.field 2 fmtH)
  else if tag = 0xDD then .array (.field 4 fmtI)
  else if tag = 0xDE then .map (.field 2 fmtH)
  else if tag = 0xDF then .map (.field 4 fmtI)
  else .unsupported

def readSize : Size → Reader ℕ
  | .inTag size => pure size
  | .field width format => do
    let size ← uint width format
    return size.toNat

def decode (raw : List UInt8) : Except Raised String :=
  match ofUtf8? raw with
  | some value => .ok value
  | none => .error .unicodeDecode

def unpackStr (size : ℕ) : Reader String := do
  let raw ← take size
  match decode raw with
  | .ok value => pure value
  | .error .unicodeDecode => throw (.codec .utf8)
  | .error error => throw error

def unpackArray (unpack : Reader WireValue) (size : ℕ) : Reader (List WireValue) :=
  Parser.replicate unpack size

def unpackItem (unpack : Reader WireValue) (out : List (String × WireValue)) :
    Reader (List (String × WireValue)) := do
  let key ← unpack
  match key with
  | .str key =>
    let member ← unpack
    return Table.putRows Prod.fst out (key, member)
  | key => throw (.codec (.stringKeys key))

def unpackMap (unpack : Reader WireValue) (size : ℕ) : Reader (List (String × WireValue)) :=
  Parser.iterate (unpackItem unpack) size []

def namedFields (items : List (String × WireValue)) : WireValue :=
  .dict (items.map fun item => (.str item.1, item.2))

/-- What follows a tag. The elements are read with `unpack`. -/
def unpackArm (unpack : Reader WireValue) (tag : ℕ) : Arm → Reader WireValue
  | .int value => pure (.int value)
  | .nil => pure .none
  | .bool value => pure (.bool value)
  | .number width format => do
    let value ← uint width format
    return .int value
  | .str size => do
    let size ← readSize size
    let value ← unpackStr size
    return .str value
  | .array size => do
    let size ← readSize size
    let elements ← unpackArray unpack size
    return .list elements
  | .map size => do
    let size ← readSize size
    let items ← unpackMap unpack size
    return namedFields items
  | .bin => throw (.codec .bin)
  | .float => throw (.codec .float)
  | .unsupported => throw (.codec (.unsupportedTag tag))

/-- Read a value, whose elements are read with `unpack`. -/
def unpackWith (unpack : Reader WireValue) : Reader WireValue := do
  let tag ← byte
  unpackArm unpack tag (arm tag)

def unpack : Reader WireValue :=
  Parser.fix unpackWith (.codec .truncated)

def msgpackUnpack (data : List UInt8) : Except Raised WireValue := do
  let (value, rest) ← unpack.run data
  if rest = [] then .ok value else .error (.codec .trailing)

/-! ### The decoder is a local parser -/

theorem local_byte : (byte).Local := by
  refine local_take.bind fun chunk => ?_
  cases chunk with
  | nil => exact local_throw
  | cons first _ => exact local_pure

theorem local_uint (width : ℕ) (format : Format) : (uint width format).Local := by
  refine local_take.bind fun chunk => ?_
  cases format.unpack chunk with
  | none => exact local_throw
  | some value => exact local_pure

theorem local_readSize (size : Size) : (readSize size).Local := by
  cases size with
  | inTag size => exact local_pure
  | field width format => exact (local_uint width format).bind fun size => local_pure

theorem local_unpackStr (size : ℕ) : (unpackStr size).Local := by
  refine local_take.bind fun raw => ?_
  cases decode raw with
  | ok value => exact local_pure
  | error error => cases error <;> exact local_throw

variable {unpack unpack' : Reader WireValue} {n : ℕ}

theorem local_unpackItem (hlocal : unpack.Local) (out : List (String × WireValue)) :
    (unpackItem unpack out).Local := by
  refine hlocal.bind fun key => ?_
  cases key with
  | str key => exact hlocal.bind fun member => local_pure
  | _ => exact local_throw

theorem local_unpackArm (hlocal : unpack.Local) (tag : ℕ) (kind : Arm) : (unpackArm unpack tag kind).Local := by
  cases kind with
  | int value => exact local_pure
  | nil => exact local_pure
  | bool value => exact local_pure
  | number width format => exact (local_uint width format).bind fun value => local_pure
  | str size =>
    exact (local_readSize size).bind fun size =>
      (local_unpackStr size).bind fun value => local_pure
  | array size =>
    exact (local_readSize size).bind fun size =>
      hlocal.replicate.bind fun elements => local_pure
  | map size =>
    exact (local_readSize size).bind fun size =>
      (Local.iterate (local_unpackItem hlocal)).bind fun items => local_pure
  | bin => exact local_throw
  | float => exact local_throw
  | unsupported => exact local_throw

theorem agree_unpackItem (hlocal : unpack.Local) (h : AgreeBelow n unpack unpack') (out : List (String × WireValue)) :
    AgreeBelow n (unpackItem unpack out) (unpackItem unpack' out) := by
  refine .bind hlocal h fun key => ?_
  cases key with
  | str key => exact .bind hlocal h fun member => .refl _
  | _ => exact .refl _

theorem agree_unpackArm (hlocal : unpack.Local) (h : AgreeBelow n unpack unpack') (tag : ℕ)
    (kind : Arm) : AgreeBelow n (unpackArm unpack tag kind) (unpackArm unpack' tag kind) := by
  cases kind with
  | array size =>
    exact .bind (local_readSize size) (.refl _) fun size =>
      .bind hlocal.replicate (.replicate hlocal h) fun elements => .refl _
  | map size =>
    exact .bind (local_readSize size) (.refl _) fun size =>
      .bind (Local.iterate (local_unpackItem hlocal))
        (.iterate (local_unpackItem hlocal) (agree_unpackItem hlocal h)) fun items => .refl _
  | _ => exact .refl _

/-- The elements start after the tag. -/
theorem guarded_unpackWith : Parser.Guarded unpackWith where
  keeps_local _ hlocal := local_byte.bind fun tag => local_unpackArm hlocal tag (arm tag)
  agree n p q hp _ h := by
    unfold unpackWith byte
    rw [bind_assoc, bind_assoc]
    refine AgreeBelow.take_bind fun chunk => ?_
    cases chunk with
    | nil => exact .refl _
    | cons first _ => exact agree_unpackArm hp h first.toNat (arm first.toNat)

theorem unpack_eq : Codec.unpack = unpackWith Codec.unpack :=
  Parser.fix_eq guarded_unpackWith

theorem run_byte_cons (first : UInt8) (rest : List UInt8) : byte.run (first :: rest) = .ok (first.toNat, rest) :=
  Parser.run_bind_of_ok (Parser.run_take_append [first] rest)

/-- Reading a value is reading a tag and what follows it. -/
theorem run_unpack_cons (first : UInt8) (rest : List UInt8) : Codec.unpack.run (first :: rest) =
      (unpackArm Codec.unpack first.toNat (arm first.toNat)).run rest := by
  conv_lhs => rw [unpack_eq]
  exact Parser.run_bind_of_ok (run_byte_cons first rest)

end LazilyPy.Codec

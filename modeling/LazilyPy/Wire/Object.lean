import LazilyPy.Codec.RoundTrip
import LazilyPy.Plane.Basic
import Mathlib.Data.ENat.Basic

/-!
# Objects on the wire

A frame is a tree of objects, arrays, texts, integers and nulls. Some readers refuse whatever they do not
expect, and others take a field as it is.
-/

namespace LazilyPy.Wire

open List

open Codec (WireValue namedFields Tree)

inductive Raised
  | expected (name what : String) (value : WireValue)
  | missingField (name field : String)
  | unknownField (name : String) (field : Option String)
  | unknownVariant (name : String) (tag : WireValue)
  | unknownUnitVariant (name value : String)
  | malformed (value : WireValue)
  | range (name : String) (value : ℤ)
  | noVariant
  | nodeKey (error : Plane.NodeKeyError)
  | blobBackend (token : WireValue)
  | key (name : String)
  | index
  | type
  /-- A field of another type, that the source keeps as it is. No message has one. -/
  | untyped
  | json
  | codec (raised : Codec.Raised)

abbrev Decoded (α : Type) :=
  Except Raised α

def u64Max : ℤ := 2 ^ 64 - 1

def IsU64 (value : ℤ) : Prop :=
  0 ≤ value ∧ value ≤ u64Max

instance (value : ℤ) : Decidable (IsU64 value) :=
  inferInstanceAs (Decidable (_ ∧ _))

/-! ### Parts of a value -/

def isText (key : String) : WireValue → Bool
  | .str value => value = key
  | _ => false

def lookup (items : List (WireValue × WireValue)) (key : String) : Option WireValue :=
  (items.find? fun item => isText key item.1).map Prod.snd

/-- `d[key]` -/
def item (d : WireValue) (key : String) : Decoded WireValue :=
  match d with
  | .dict items =>
    match lookup items key with
    | some value => .ok value
    | none => .error (.key key)
  | _ => .error .type

/-- `d.get(key)`. There is nothing where the member is null. -/
def getGiven (d : WireValue) (key : String) : Decoded (Option WireValue) :=
  match d with
  | .dict items =>
    match lookup items key with
    | some .none => .ok none
    | member => .ok member
  | _ => .error .type

def iter : WireValue → Decoded (List WireValue)
  | .list elements => .ok elements
  | .tuple elements => .ok elements
  | .dict items => .ok (items.map Prod.fst)
  | .str value => .ok (value.toList.map fun c => .str (String.singleton c))
  | .bytes raw => .ok (raw.map fun byte => .int byte.toNat)
  | _ => .error .type

/-- `d.get(key, [])`, iterated over. -/
def getList (d : WireValue) (key : String) : Decoded (List WireValue) :=
  match d with
  | .dict items =>
    match lookup items key with
    | some value => iter value
    | none => .ok []
  | _ => .error .type

/-- `entry[i]` -/
def index (entry : WireValue) (i : ℕ) : Decoded WireValue :=
  match entry with
  | .dict _ => .error .type
  | entry => do
    let elements ← iter entry
    match elements[i]? with
    | some element => .ok element
    | none => .error .index

def asInt : WireValue → Decoded ℤ
  | .int value => .ok value
  | _ => .error .untyped

def asStr : WireValue → Decoded String
  | .str value => .ok value
  | _ => .error .untyped

/-- `int(value)`, where the value is not a text. -/
def toInt : WireValue → Decoded ℤ
  | .int value => .ok value
  | .bool value => .ok (if value then 1 else 0)
  | .str _ => .error .untyped
  | .float _ => .error .untyped
  | _ => .error .type

def intItem (d : WireValue) (key : String) : Decoded ℤ := do
  let value ← item d key
  asInt value

/-! ### Strict readers -/

def unknown (items : List (WireValue × WireValue)) (fields : List String) : List WireValue :=
  (items.map Prod.fst).filter fun key => ! fields.any fun field => isText field key

def text? : WireValue → Option String
  | .str value => some value
  | _ => none

/-- An object with all of the required fields, and with no others but the optional ones. -/
def wireObjectOpt (name : String) (value : WireValue) (required optional : List String) : Decoded WireValue :=
  match value with
  | .dict items =>
    match required.find? fun key => (lookup items key).isNone with
    | some key => .error (.missingField name key)
    | none =>
      match unknown items (required ++ optional) with
      | [] => .ok value
      | keys => .error (.unknownField name (keys.filterMap text?).mergeSort.head?)
  | _ => .error (.expected name "an object" value)

def wireObject (name : String) (value : WireValue) (fields : List String) : Decoded WireValue :=
  wireObjectOpt name value fields []

def wireStr (name : String) : WireValue → Decoded String
  | .str value => .ok value
  | value => .error (.expected name "a string" value)

def wireU64 (name : String) : WireValue → Decoded ℤ
  | .int value => .ok value
  | value => .error (.expected name "an unsigned integer" value)

def byte? : WireValue → Option UInt8
  | .int value => if 0 ≤ value ∧ value ≤ 255 then some (UInt8.ofNat value.toNat) else none
  | _ => none

def wireBytes (name : String) (value : WireValue) : Decoded (List UInt8) :=
  match value with
  | .list elements =>
    match elements.mapM byte? with
    | some raw => .ok raw
    | none => .error (.expected name "an array of bytes (0..=255)" value)
  | _ => .error (.expected name "an array of bytes (0..=255)" value)

def wireList (name : String) : WireValue → Decoded (List WireValue)
  | .list elements => .ok elements
  | value => .error (.expected name "an array" value)

def checkU64 (name : String) (value : ℤ) : Decoded Unit :=
  if IsU64 value then .ok () else .error (.range name value)

def variant? : WireValue → Option (WireValue × WireValue)
  | .dict [(tag, body)] => some (tag, body)
  | _ => none

/-! ### What is written -/

def bytesToWire (data : List UInt8) : WireValue :=
  .list (data.map fun byte => .int byte.toNat)

def tagged (tag : String) (body : WireValue) : WireValue :=
  namedFields [(tag, body)]

variable {limit : ℕ∞} {z : ℤ} {key name tag : String} {body : WireValue}

/-- The trees that are written. The sizes of texts, arrays and objects are below the limit. -/
inductive Frame (limit : ℕ∞) : WireValue → Prop
  | none : Frame limit .none
  | int {value : ℤ} (h : IsU64 value) : Frame limit (.int value)
  | str {value : String} (hsize : value.utf8ByteSize < limit) : Frame limit (.str value)
  | list {elements : List WireValue} (hsize : elements.length < limit)
      (helements : ∀ element ∈ elements, Frame limit element) : Frame limit (.list elements)
  | dict {items : List (String × WireValue)} (hsize : items.length < limit)
      (hkeys : (items.map Prod.fst).Nodup)
      (hkey : ∀ item ∈ items, item.1.utf8ByteSize < limit)
      (hmember : ∀ item ∈ items, Frame limit item.2) : Frame limit (namedFields items)

/-- What has small sizes is packed. -/
theorem Frame.tree {value : WireValue} (h : Frame (2 ^ 32) value) : Tree value := by
  induction h with
  | none => exact .none
  | int h =>
    obtain ⟨hlow, hhigh⟩ := h
    have hmax : u64Max = 2 ^ 64 - 1 := rfl
    exact .int (by omega) (by omega)
  | str hsize => exact .str (by exact_mod_cast hsize)
  | list hsize _ ih => exact .list (by exact_mod_cast hsize) ih
  | dict hsize hkeys hkey _ ih =>
    exact .dict (by exact_mod_cast hsize) hkeys (fun item hitem => by exact_mod_cast hkey item hitem) ih

theorem frame_bytesToWire {data : List UInt8} (hsize : data.length < limit) : Frame limit (bytesToWire data) := by
  refine .list (by rwa [length_map]) fun element helement => ?_
  obtain ⟨byte, -, rfl⟩ := mem_map.mp helement
  have hlt := byte.toNat_lt
  have hmax : u64Max = 2 ^ 64 - 1 := rfl
  exact .int ⟨by omega, by omega⟩

/-! ### What is read back -/

@[simp] theorem lookup_namedFields (items : List (String × WireValue)) (key : String) :
    lookup (items.map fun item => (.str item.1, item.2)) key =
      (items.find? fun item => item.1 = key).map Prod.snd := by
  rw [lookup, find?_map, Option.map_map]
  rfl

@[simp] theorem getGiven_namedFields (items : List (String × WireValue)) (key : String) :
    getGiven (namedFields items) key = match (items.find? fun item => item.1 = key).map Prod.snd with
      | some .none => .ok none
      | member => .ok member := by
  simp only [getGiven, namedFields, lookup_namedFields]

/-- Fields that are all required or optional, with all of the required ones among them. -/
theorem wireObjectOpt_namedFields {items : List (String × WireValue)} {required optional : List String}
    (hrequired : ∀ key ∈ required, key ∈ items.map Prod.fst)
    (hfields : ∀ key ∈ items.map Prod.fst, key ∈ required ++ optional) :
    wireObjectOpt name (namedFields items) required optional = .ok (namedFields items) := by
  have hmissing : (required.find? fun key =>
      (lookup (items.map fun item => (.str item.1, item.2)) key).isNone) = none := by
    rw [find?_eq_none]
    intro key hkey
    obtain ⟨item, hitem, rfl⟩ := mem_map.mp (hrequired key hkey)
    rw [lookup_namedFields, Option.isNone_map, Option.isNone_iff_eq_none, find?_eq_none]
    exact fun hno => hno item hitem (decide_eq_true rfl)
  have hunknown : unknown (items.map fun item => (.str item.1, item.2)) (required ++ optional) = [] := by
    rw [unknown, filter_eq_nil_iff]
    intro key hkey
    rw [map_map] at hkey
    obtain ⟨item, hitem, rfl⟩ := mem_map.mp hkey
    have hany : ((required ++ optional).any fun field => isText field (.str item.1)) = true :=
      any_eq_true.mpr ⟨item.1, hfields _ (mem_map_of_mem hitem), decide_eq_true rfl⟩
    rw [Function.comp_apply, hany]
    exact Bool.false_ne_true
  simp only [wireObjectOpt, namedFields, hmissing, hunknown]

theorem byte?_toNat (byte : UInt8) : byte? (.int byte.toNat) = some byte := by
  have hlt := byte.toNat_lt
  rw [byte?, if_pos ⟨by omega, by omega⟩, Int.toNat_natCast, UInt8.ofNat_toNat]

/-- An array reads back if its elements do. -/
theorem mapM_map {α : Type} {toWire : α → WireValue} {fromWire : WireValue → Decoded α} {l : List α}
    (h : ∀ a ∈ l, fromWire (toWire a) = .ok a) : (l.map toWire).mapM fromWire = .ok l := by
  induction l with
  | nil => rfl
  | cons a l ih =>
    rw [forall_mem_cons] at h
    rw [map_cons, mapM_cons, h.1, ih h.2]
    rfl

theorem wireBytes_bytesToWire (name : String) (data : List UInt8) : wireBytes name (bytesToWire data) = .ok data := by
  have hmap : (data.map fun byte => WireValue.int byte.toNat).mapM byte? = some data := by
    rw [mapM_eq_some, forall₂_map_left_iff]
    exact forall₂_same.mpr fun byte _ => byte?_toNat byte
  simp only [wireBytes, bytesToWire, hmap]

end LazilyPy.Wire

import LazilyPy.Lib.Bytes
import LazilyPy.Lib.MapM
import LazilyPy.Replay.Float

/-!
# Canonical bytes

The bytes of an observed value. What has parts is framed, with its tag and its length, and what has no
order is sorted by its bytes.
-/

namespace LazilyPy.Replay

open List

open Bytes (utf8)
open Framing (ascii frame sortWords)

structure ClassName where
  module : String
  qualname : String
  deriving DecidableEq, Repr

inductive SequenceKind
  | list
  | tuple
  | other (cls : ClassName)
  deriving DecidableEq, Repr

inductive Value
  | none
  | bool (value : Bool)
  | enum (cls : ClassName) (value : Value)
  | int (value : ℤ)
  | float (value : Double)
  | str (value : String)
  | bytes (value : List UInt8)
  | dataclass (cls : ClassName) (fields : List (String × Value))
  | mapping (entries : List (Value × Value))
  | set (members : List Value)
  | sequence (kind : SequenceKind) (items : List Value)
  | other (cls : ClassName)

inductive Segment
  | field (name : String)
  | key
  | entry (key : Value)
  | member
  | index (index : ℕ)

structure ReplayEncodingError where
  path : List Segment
  cls : ClassName

abbrev Code := List UInt8

def tagged (tag : Char) (body : Code) : Code :=
  frame tag.toUInt8 body

mutual

def canonical (path : List Segment) : Value → Except ReplayEncodingError Code
  | .none => .ok (ascii ['n', '0', ':'])
  | .bool true => .ok (ascii ['b', '1', ':', '1'])
  | .bool false => .ok (ascii ['b', '1', ':', '0'])
  | .enum cls value => do
    let inner ← canonical (path ++ [.field "value"]) value
    return tagged 'e' (tagged 's' (utf8 cls.qualname) ++ inner)
  | .int value => .ok (tagged 'i' (ascii (intText value)))
  | .float value => .ok (tagged 'f' (ascii value.hex))
  | .str value => .ok (tagged 's' (utf8 value))
  | .bytes value => .ok (tagged 'y' value)
  | .dataclass cls fields => do
    let body ← canonicalFields path fields
    return tagged 'd' (tagged 's' (utf8 cls.qualname) ++ body.flatten)
  | .mapping entries => do
    let entries ← canonicalEntries path entries
    return tagged 'm' (sortWords entries).flatten
  | .set members => do
    let members ← canonicalItems (fun _ => path ++ [.member]) 0 members
    return tagged 't' (sortWords members).flatten
  | .sequence _ items => do
    let items ← canonicalItems (fun index => path ++ [.index index]) 0 items
    return tagged 'l' items.flatten
  | .other cls => .error ⟨path, cls⟩

def canonicalFields (path : List Segment) : List (String × Value) → Except ReplayEncodingError (List Code)
  | [] => .ok []
  | (name, value) :: fields => do
    let first ← canonical (path ++ [.field name]) value
    let rest ← canonicalFields path fields
    return (tagged 's' (utf8 name) ++ first) :: rest

def canonicalEntries (path : List Segment) : List (Value × Value) → Except ReplayEncodingError (List Code)
  | [] => .ok []
  | (key, item) :: entries => do
    let first ← canonical (path ++ [.key]) key
    let second ← canonical (path ++ [.entry key]) item
    let rest ← canonicalEntries path entries
    return (first ++ second) :: rest

def canonicalItems (path : ℕ → List Segment) (index : ℕ) : List Value → Except ReplayEncodingError (List Code)
  | [] => .ok []
  | item :: items => do
    let first ← canonical (path index) item
    let rest ← canonicalItems path (index + 1) items
    return first :: rest

end

def canonicalBytes (value : Value) : Except ReplayEncodingError Code :=
  canonical [] value

/-- Values are equal up to the order in which mappings and sets are enumerated, and the kind of
sequences. Classes are compared with `same`. -/
inductive Alike (same : ClassName → ClassName → Prop) : Value → Value → Prop
  | none : Alike same .none .none
  | bool (value : Bool) : Alike same (.bool value) (.bool value)
  | enum {cls cls' : ClassName} {value value' : Value} (hcls : same cls cls')
      (hvalue : Alike same value value') : Alike same (.enum cls value) (.enum cls' value')
  | int (value : ℤ) : Alike same (.int value) (.int value)
  | float (value : Double) : Alike same (.float value) (.float value)
  | str (value : String) : Alike same (.str value) (.str value)
  | bytes (value : List UInt8) : Alike same (.bytes value) (.bytes value)
  | dataclass {cls cls' : ClassName} {fields fields' : List (String × Value)} (hcls : same cls cls')
      (hnames : fields.map Prod.fst = fields'.map Prod.fst)
      (hvalues : Forall₂ (fun f g => Alike same f.2 g.2) fields fields') :
      Alike same (.dataclass cls fields) (.dataclass cls' fields')
  | mapping {entries entries' order : List (Value × Value)} (hperm : entries'.Perm order)
      (hkeys : Forall₂ (fun e f => Alike same e.1 f.1) entries order)
      (hvalues : Forall₂ (fun e f => Alike same e.2 f.2) entries order) :
      Alike same (.mapping entries) (.mapping entries')
  | set {members members' order : List Value} (hperm : members'.Perm order)
      (hmembers : Forall₂ (Alike same) members order) :
      Alike same (.set members) (.set members')
  | sequence {kind kind' : SequenceKind} {items items' : List Value}
      (hitems : Forall₂ (Alike same) items items') :
      Alike same (.sequence kind items) (.sequence kind' items')

/-- Induction on values. -/
theorem Value.induct {P : Value → Prop} (none : P .none) (bool : ∀ value, P (.bool value))
    (enum : ∀ cls value, P value → P (.enum cls value)) (int : ∀ value, P (.int value))
    (float : ∀ value, P (.float value)) (str : ∀ value, P (.str value))
    (bytes : ∀ value, P (.bytes value))
    (dataclass : ∀ cls fields, (∀ f ∈ fields, P f.2) → P (.dataclass cls fields))
    (mapping : ∀ entries, (∀ e ∈ entries, P e.1 ∧ P e.2) → P (.mapping entries))
    (set : ∀ members, (∀ m ∈ members, P m) → P (.set members))
    (sequence : ∀ kind items, (∀ m ∈ items, P m) → P (.sequence kind items))
    (other : ∀ cls, P (.other cls)) (v : Value) : P v := by
  refine @Value.rec P (fun l => ∀ f ∈ l, P f.2) (fun l => ∀ e ∈ l, P e.1 ∧ P e.2)
    (fun l => ∀ m ∈ l, P m) (fun f => P f.2) (fun e => P e.1 ∧ P e.2) none bool enum int float str
    bytes dataclass mapping set sequence other ?_ ?_ ?_ ?_ ?_ ?_ ?_ ?_ v
  · simp
  · exact fun f l hf hl => forall_mem_cons.mpr ⟨hf, hl⟩
  · simp
  · exact fun e l he hl => forall_mem_cons.mpr ⟨he, hl⟩
  · simp
  · exact fun m l hm hl => forall_mem_cons.mpr ⟨hm, hl⟩
  · exact fun _ _ h => h
  · exact fun _ _ h h' => ⟨h, h'⟩

inductive Within (part : Value) : Value → Prop
  | self : Within part part
  | enum {cls : ClassName} {value : Value} (h : Within part value) : Within part (.enum cls value)
  | field {cls : ClassName} {fields : List (String × Value)} {f : String × Value}
      (hmem : f ∈ fields) (h : Within part f.2) : Within part (.dataclass cls fields)
  | key {entries : List (Value × Value)} {e : Value × Value} (hmem : e ∈ entries)
      (h : Within part e.1) : Within part (.mapping entries)
  | entry {entries : List (Value × Value)} {e : Value × Value} (hmem : e ∈ entries)
      (h : Within part e.2) : Within part (.mapping entries)
  | member {members : List Value} {m : Value} (hmem : m ∈ members) (h : Within part m) : Within part (.set members)
  | item {kind : SequenceKind} {items : List Value} {m : Value} (hmem : m ∈ items)
      (h : Within part m) : Within part (.sequence kind items)

/-! ### Codes -/

/-- `code` is the code of the value, wherever it is. -/
def Codes (v : Value) (code : Code) : Prop :=
  ∃ path, canonical path v = .ok code

def tag : Value → Char
  | .none => 'n'
  | .bool _ => 'b'
  | .enum _ _ => 'e'
  | .int _ => 'i'
  | .float _ => 'f'
  | .str _ => 's'
  | .bytes _ => 'y'
  | .dataclass _ _ => 'd'
  | .mapping _ => 'm'
  | .set _ => 't'
  | .sequence _ _ => 'l'
  | .other _ => 'o'

variable {v w : Value} {a b : Code} {cls cls' : ClassName} {same : ClassName → ClassName → Prop} {path : List Segment}

variable {codes : List Code}

theorem forall₂_canonicalFields {fields : List (String × Value)} (h : canonicalFields path fields = .ok codes) :
    Forall₂ (fun f code => ∃ c, Codes f.2 c ∧ code = tagged 's' (utf8 f.1) ++ c)
      fields codes := by
  induction fields generalizing codes with
  | nil =>
    cases h
    exact .nil
  | cons f fields ih =>
    obtain ⟨name, value⟩ := f
    rw [canonicalFields] at h
    obtain ⟨first, hfirst, hrest⟩ := except_bind_eq_ok.mp h
    obtain ⟨rest, htail, hcodes⟩ := except_bind_eq_ok.mp hrest
    cases hcodes
    exact .cons ⟨first, ⟨_, hfirst⟩, rfl⟩ (ih htail)

theorem forall₂_canonicalEntries {entries : List (Value × Value)} (h : canonicalEntries path entries = .ok codes) :
    Forall₂ (fun e code => ∃ c d, Codes e.1 c ∧ Codes e.2 d ∧ code = c ++ d)
      entries codes := by
  induction entries generalizing codes with
  | nil =>
    cases h
    exact .nil
  | cons e entries ih =>
    obtain ⟨key, item⟩ := e
    rw [canonicalEntries] at h
    obtain ⟨first, hfirst, hrest⟩ := except_bind_eq_ok.mp h
    obtain ⟨second, hsecond, hrest⟩ := except_bind_eq_ok.mp hrest
    obtain ⟨rest, htail, hcodes⟩ := except_bind_eq_ok.mp hrest
    cases hcodes
    exact .cons ⟨first, second, ⟨_, hfirst⟩, ⟨_, hsecond⟩, rfl⟩ (ih htail)

theorem forall₂_canonicalItems {paths : ℕ → List Segment} {n : ℕ} {items : List Value}
    (h : canonicalItems paths n items = .ok codes) :
    Forall₂ Codes items codes := by
  induction items generalizing codes n with
  | nil =>
    cases h
    exact .nil
  | cons item items ih =>
    rw [canonicalItems] at h
    obtain ⟨first, hfirst, hrest⟩ := except_bind_eq_ok.mp h
    obtain ⟨rest, htail, hcodes⟩ := except_bind_eq_ok.mp hrest
    cases hcodes
    exact .cons ⟨_, hfirst⟩ (ih htail)

theorem Codes.enum (h : Codes (.enum cls v) a) :
    ∃ c, Codes v c ∧ a = tagged 'e' (tagged 's' (utf8 cls.qualname) ++ c) := by
  obtain ⟨path, h⟩ := h
  rw [canonical] at h
  obtain ⟨inner, hinner, hcode⟩ := except_bind_eq_ok.mp h
  cases hcode
  exact ⟨inner, ⟨_, hinner⟩, rfl⟩

theorem Codes.dataclass {fields : List (String × Value)} (h : Codes (.dataclass cls fields) a) :
    ∃ codes, Forall₂ (fun f code => ∃ c, Codes f.2 c ∧ code = tagged 's' (utf8 f.1) ++ c)
      fields codes ∧ a = tagged 'd' (tagged 's' (utf8 cls.qualname) ++ codes.flatten) := by
  obtain ⟨path, h⟩ := h
  rw [canonical] at h
  obtain ⟨codes, hcodes, hcode⟩ := except_bind_eq_ok.mp h
  cases hcode
  exact ⟨codes, forall₂_canonicalFields hcodes, rfl⟩

theorem Codes.mapping {entries : List (Value × Value)} (h : Codes (.mapping entries) a) :
    ∃ codes, Forall₂ (fun e code => ∃ c d, Codes e.1 c ∧ Codes e.2 d ∧ code = c ++ d)
      entries codes ∧ a = tagged 'm' (sortWords codes).flatten := by
  obtain ⟨path, h⟩ := h
  rw [canonical] at h
  obtain ⟨codes, hcodes, hcode⟩ := except_bind_eq_ok.mp h
  cases hcode
  exact ⟨codes, forall₂_canonicalEntries hcodes, rfl⟩

theorem Codes.set {members : List Value} (h : Codes (.set members) a) :
    ∃ codes, Forall₂ Codes members codes ∧ a = tagged 't' (sortWords codes).flatten := by
  obtain ⟨path, h⟩ := h
  rw [canonical] at h
  obtain ⟨codes, hcodes, hcode⟩ := except_bind_eq_ok.mp h
  cases hcode
  exact ⟨codes, forall₂_canonicalItems hcodes, rfl⟩

theorem Codes.sequence {kind : SequenceKind} {items : List Value} (h : Codes (.sequence kind items) a) :
    ∃ codes, Forall₂ Codes items codes ∧ a = tagged 'l' codes.flatten := by
  obtain ⟨path, h⟩ := h
  rw [canonical] at h
  obtain ⟨codes, hcodes, hcode⟩ := except_bind_eq_ok.mp h
  cases hcode
  exact ⟨codes, forall₂_canonicalItems hcodes, rfl⟩

/-- A code is one frame, with the tag of its value. -/
theorem Codes.tag (h : Codes v a) : ∃ body, a = tagged (tag v) body := by
  cases v with
  | none =>
    obtain ⟨path, h⟩ := h
    cases h
    exact ⟨[], by decide⟩
  | bool value =>
    obtain ⟨path, h⟩ := h
    cases value with
    | false =>
      cases h
      exact ⟨ascii ['0'], by decide⟩
    | true =>
      cases h
      exact ⟨ascii ['1'], by decide⟩
  | enum cls value =>
    obtain ⟨c, -, rfl⟩ := h.enum
    exact ⟨_, rfl⟩
  | int value =>
    obtain ⟨path, h⟩ := h
    cases h
    exact ⟨_, rfl⟩
  | float value =>
    obtain ⟨path, h⟩ := h
    cases h
    exact ⟨_, rfl⟩
  | str value =>
    obtain ⟨path, h⟩ := h
    cases h
    exact ⟨_, rfl⟩
  | bytes value =>
    obtain ⟨path, h⟩ := h
    cases h
    exact ⟨_, rfl⟩
  | dataclass cls fields =>
    obtain ⟨codes, -, rfl⟩ := h.dataclass
    exact ⟨_, rfl⟩
  | mapping entries =>
    obtain ⟨codes, -, rfl⟩ := h.mapping
    exact ⟨_, rfl⟩
  | set members =>
    obtain ⟨codes, -, rfl⟩ := h.set
    exact ⟨_, rfl⟩
  | sequence kind items =>
    obtain ⟨codes, -, rfl⟩ := h.sequence
    exact ⟨_, rfl⟩
  | other cls =>
    obtain ⟨path, h⟩ := h
    cases h

theorem Codes.mem_frames (h : Codes v a) : a ∈ Framing.frames := by
  obtain ⟨body, rfl⟩ := h.tag
  exact Framing.frame_mem_frames

end LazilyPy.Replay

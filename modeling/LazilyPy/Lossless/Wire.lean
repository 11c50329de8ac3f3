import LazilyPy.Lossless.Tree
import LazilyPy.Replay.Float
import LazilyPy.Wire.Object
import Mathlib.Data.Finset.Sort

/-!
# Updates and frontiers on the wire

An update is an array of operations, each an object with one key that tells its kind. A frontier is an object with a
member for each peer.
-/

namespace LazilyPy.Lossless

open Codec (WireValue namedFields)
open Replay (intText)
open Text (OpId TextOp)
open Wire

/-! ## Integers and ids -/

/-- A counter, a digit or an index. No replica sends a negative one. -/
def natFromWire (value : WireValue) : Decoded ℕ := do
  let z ← toInt value
  if z < 0 then .error .untyped else .ok z.toNat

/-- `int(value)` of a decimal text. Texts with whitespace, signs or underscores, that `int` reads too, are none that
`str` writes. -/
def intOfText (text : List Char) : Option ℤ :=
  match text with
  | [] => none
  | '-' :: digits => if digits ≠ [] ∧ digits.all Char.isDigit then some (-(Nat.ofDigitChars 10 digits 0 : ℕ)) else none
  | digits => if digits.all Char.isDigit then some (Nat.ofDigitChars 10 digits 0 : ℕ) else none

def idToDict (id : Dot) : WireValue :=
  namedFields [("counter", .int id.counter), ("peer", .int id.peer)]

def idFromDict (d : WireValue) : Decoded Dot := do
  let counter ← natFromWire (← item d "counter")
  let peer ← toInt (← item d "peer")
  return ⟨counter, peer⟩

def sortToDict (sort : SortKey) : WireValue :=
  namedFields [("frac", .list (sort.frac.map fun digit : ℕ => .int digit)), ("peer", .int sort.peer)]

def sortFromDict (d : WireValue) : Decoded SortKey := do
  let frac ← (← iter (← item d "frac")).mapM natFromWire
  let peer ← toInt (← item d "peer")
  return ⟨frac, peer⟩

/-! ## Seeds and texts -/

def LeafKind.value : LeafKind → String
  | token => "Token"
  | trivia => "Trivia"
  | raw => "Raw"
  | error => "Error"

def LeafKind.fromWire (value : WireValue) : Decoded LeafKind := do
  match ← asStr value with
  | "Token" => .ok token
  | "Trivia" => .ok trivia
  | "Raw" => .ok raw
  | "Error" => .ok error
  | value => .error (.unknownUnitVariant "leaf kind" value)

/-- `key in d`. -/
def hasKey (d : WireValue) (key : String) : Bool :=
  match d with
  | .dict items => (lookup items key).isSome
  | _ => false

def seedWire : NodeSeed → WireValue
  | .element kind => tagged "Element" (namedFields [("kind", .str kind)])
  | .leaf kind text =>
    tagged "Leaf" (namedFields [("kind", .str kind.value), ("text", .str (String.ofList text))])

def seedFromWire (d : WireValue) : Decoded NodeSeed :=
  if hasKey d "Element" then do
    let kind ← asStr (← item (← item d "Element") "kind")
    return .element kind
  else if hasKey d "Leaf" then do
    let body ← item d "Leaf"
    let kind ← LeafKind.fromWire (← item body "kind")
    let text ← asStr (← item body "text")
    return .leaf kind text.toList
  else .error (.malformed d)

def originToDict : Option OpId → WireValue
  | none => .none
  | some origin => idToDict origin

def originFromDict (d : WireValue) : Decoded (Option OpId) :=
  match d with
  | .none => .ok none
  | d => some <$> idFromDict d

def textOpToDict (op : TextOp Char) : WireValue :=
  namedFields [("id", idToDict op.id), ("ch", .str (String.singleton op.ch)), ("origin", originToDict op.origin),
    ("deleted", originToDict (if op.deleted then op.deleteId else none))]

/-- `d.get(key)`, with nothing where there is no member. -/
def getOrNone (d : WireValue) (key : String) : Decoded WireValue := do
  return (← getGiven d key).getD .none

def charFromWire (value : WireValue) : Decoded Char := do
  match (← asStr value).toList with
  | [c] => .ok c
  | _ => .error .untyped

/-- An operation of a text is read with what every replica keeps. -/
def textOpFromDict (d : WireValue) : Decoded (TextOp Char) := do
  let deleteId ← originFromDict (← getOrNone d "deleted")
  let id ← idFromDict (← item d "id")
  let ch ← charFromWire (← item d "ch")
  let origin ← originFromDict (← getOrNone d "origin")
  if h : 0 < id.counter ∧ (∀ o, origin = some o → o.counter < id.counter) ∧ ∀ x, deleteId = some x → 0 < x.counter then
    return ⟨id, ch, origin, deleteId.isSome, deleteId, h.1, h.2.1, rfl, h.2.2⟩
  else .error .untyped

/-! ## Operations -/

def kindToDict : TreeOpKind → WireValue
  | .createNode id parent sort seed =>
    tagged "CreateNode" (namedFields [("id", idToDict id), ("parent", idToDict parent), ("sort", sortToDict sort),
      ("seed", seedWire seed)])
  | .tombstone node => tagged "Tombstone" (namedFields [("node", idToDict node)])
  | .reorder node sort => tagged "Reorder" (namedFields [("node", idToDict node), ("sort", sortToDict sort)])
  | .leafEdit node prev ops =>
    tagged "LeafEdit" (namedFields [("node", idToDict node), ("prev", idToDict prev),
      ("ops", .list (ops.map textOpToDict))])
  | .splitLeaf node newNode sort atChar prev =>
    tagged "SplitLeaf" (namedFields [("node", idToDict node), ("new", idToDict newNode), ("sort", sortToDict sort),
      ("at_char", .int atChar), ("prev", idToDict prev)])
  | .mergeLeaves left right prevLeft prevRight =>
    tagged "MergeLeaves" (namedFields [("left", idToDict left), ("right", idToDict right),
      ("prev_left", idToDict prevLeft), ("prev_right", idToDict prevRight)])

def idItem (d : WireValue) (key : String) : Decoded Dot := do
  idFromDict (← item d key)

def kindFromDict (d : WireValue) : Decoded TreeOpKind :=
  if hasKey d "CreateNode" then do
    let b ← item d "CreateNode"
    let id ← idItem b "id"
    let parent ← idItem b "parent"
    let sort ← sortFromDict (← item b "sort")
    let seed ← seedFromWire (← item b "seed")
    return .createNode id parent sort seed
  else if hasKey d "Tombstone" then do
    let node ← idItem (← item d "Tombstone") "node"
    return .tombstone node
  else if hasKey d "Reorder" then do
    let b ← item d "Reorder"
    let node ← idItem b "node"
    let sort ← sortFromDict (← item b "sort")
    return .reorder node sort
  else if hasKey d "LeafEdit" then do
    let b ← item d "LeafEdit"
    let node ← idItem b "node"
    let prev ← idItem b "prev"
    let ops ← (← iter (← item b "ops")).mapM textOpFromDict
    return .leafEdit node prev ops
  else if hasKey d "SplitLeaf" then do
    let b ← item d "SplitLeaf"
    let node ← idItem b "node"
    let newNode ← idItem b "new"
    let sort ← sortFromDict (← item b "sort")
    let atChar ← natFromWire (← item b "at_char")
    let prev ← idItem b "prev"
    return .splitLeaf node newNode sort atChar prev
  else if hasKey d "MergeLeaves" then do
    let b ← item d "MergeLeaves"
    let left ← idItem b "left"
    let right ← idItem b "right"
    let prevLeft ← idItem b "prev_left"
    let prevRight ← idItem b "prev_right"
    return .mergeLeaves left right prevLeft prevRight
  else .error (.malformed d)

def treeOpToDict (op : TreeOp) : WireValue :=
  namedFields [("id", idToDict op.id), ("kind", kindToDict op.kind)]

def treeOpFromDict (d : WireValue) : Decoded TreeOp := do
  let id ← idItem d "id"
  let kind ← kindFromDict (← item d "kind")
  return ⟨id, kind⟩

def treeUpdateToWire (ops : List TreeOp) : WireValue :=
  namedFields [("ops", .list (ops.map treeOpToDict))]

def treeUpdateFromWire (d : WireValue) : Decoded (List TreeOp) := do
  (← getList d "ops").mapM treeOpFromDict

/-! ## Frontiers -/

def rangeToDict (r : DotRange) : WireValue :=
  namedFields [("contiguous", .int r.contiguous), ("sparse", .list ((r.sparse.sort (· ≤ ·)).map fun c : ℕ => .int c))]

def rangeFromDict (d : WireValue) : Decoded DotRange := do
  let contiguous ← natFromWire (← item d "contiguous")
  let sparse ← (← getList d "sparse").mapM natFromWire
  -- runs behind the prefix are taken into it
  return loop DotRange.extend sparse.toFinset.card ⟨contiguous, sparse.toFinset⟩

/-- `str(peer)`. -/
def peerKey (peer : ℤ) : String :=
  String.ofList (intText peer)

def peerFromKey (key : WireValue) : Decoded ℤ :=
  match key with
  | .str text => match intOfText text.toList with
    | some peer => .ok peer
    | none => .error .untyped
  | key => toInt key

def frontierToWire (f : TreeVersionFrontier) : WireValue :=
  namedFields [("dots", namedFields (f.dots.rows.map fun row => (peerKey row.1, rangeToDict row.2)))]

def frontierEntry (f : TreeVersionFrontier) (entry : WireValue × WireValue) : Decoded TreeVersionFrontier := do
  let peer ← peerFromKey entry.1
  let r ← rangeFromDict entry.2
  return ⟨f.dots.put (peer, r)⟩

def frontierFromWire (d : WireValue) : Decoded TreeVersionFrontier :=
  match d with
  | .dict members =>
    match lookup members "dots" with
    | some (.dict items) => items.foldlM frontierEntry {}
    | some _ => .error .type
    | none => .ok {}
  | _ => .error .type

/-! ## What is read back -/

theorem natFromWire_int (n : ℕ) : natFromWire (.int n) = .ok n := by
  show (if (n : ℤ) < 0 then Except.error Raised.untyped else .ok (n : ℤ).toNat) = _
  rw [if_neg (by omega), Int.toNat_natCast]

theorem idFromDict_toDict (id : Dot) : idFromDict (idToDict id) = .ok id := by
  show (natFromWire (.int id.counter) >>= fun counter => Except.ok (Dot.mk counter id.peer)) = _
  rw [natFromWire_int]
  rfl

theorem mapM_natFromWire (digits : List ℕ) :
    (digits.map fun digit : ℕ => WireValue.int digit).mapM natFromWire = .ok digits :=
  mapM_map fun digit _ => natFromWire_int digit

theorem sortFromDict_toDict (sort : SortKey) : sortFromDict (sortToDict sort) = .ok sort := by
  show ((sort.frac.map fun digit : ℕ => WireValue.int digit).mapM natFromWire >>= fun frac =>
    Except.ok (SortKey.mk frac sort.peer)) = _
  rw [mapM_natFromWire]
  rfl

theorem LeafKind.fromWire_value (kind : LeafKind) : LeafKind.fromWire (.str kind.value) = .ok kind := by
  cases kind <;> rfl

theorem seedFromWire_seedWire (seed : NodeSeed) : seedFromWire (seedWire seed) = .ok seed := by
  cases seed with
  | element kind => rfl
  | leaf kind text =>
    show (LeafKind.fromWire (.str kind.value) >>= fun kind =>
      Except.ok (NodeSeed.leaf kind (String.ofList text).toList)) = _
    rw [LeafKind.fromWire_value, String.toList_ofList]
    rfl

theorem originFromDict_toDict (origin : Option OpId) : originFromDict (originToDict origin) = .ok origin := by
  cases origin with
  | none => rfl
  | some origin =>
    show some <$> idFromDict (idToDict origin) = _
    rw [idFromDict_toDict]
    rfl

theorem charFromWire_singleton (c : Char) : charFromWire (.str (String.singleton c)) = .ok c := by
  show (match (String.singleton c).toList with | [c] => Except.ok c | _ => .error Raised.untyped) = _
  rw [String.toList_singleton]

/-- A null member and one that is not there are the same. -/
theorem getOrNone_originToDict {items : List (String × WireValue)} {key : String} {origin : Option OpId}
    (h : (items.find? fun item => item.1 = key).map Prod.snd = some (originToDict origin)) :
    getOrNone (namedFields items) key = .ok (originToDict origin) := by
  rw [getOrNone, getGiven_namedFields, h]
  cases origin <;> rfl

theorem textOpFromDict_toDict (op : TextOp Char) : textOpFromDict (textOpToDict op) = .ok op := by
  obtain ⟨id, ch, origin, deleted, deleteId, hminted, holder, hmarked, hstamped⟩ := op
  subst hmarked
  have hdeleted : (if deleteId.isSome then deleteId else none) = deleteId := by cases deleteId <;> rfl
  simp only [textOpToDict, hdeleted]
  generalize hd : namedFields [("id", idToDict id), ("ch", .str (String.singleton ch)),
    ("origin", originToDict origin), ("deleted", originToDict deleteId)] = d
  have hid : item d "id" = .ok (idToDict id) := hd ▸ rfl
  have hch : item d "ch" = .ok (.str (String.singleton ch)) := hd ▸ rfl
  have horigin : getOrNone d "origin" = .ok (originToDict origin) := hd ▸ getOrNone_originToDict rfl
  have hdelete : getOrNone d "deleted" = .ok (originToDict deleteId) := hd ▸ getOrNone_originToDict rfl
  simp only [textOpFromDict, hid, hch, horigin, hdelete, bind, Except.bind, idFromDict_toDict, originFromDict_toDict,
    charFromWire_singleton]
  rw [dif_pos ⟨hminted, holder, hstamped⟩]
  rfl

theorem kindFromDict_toDict (kind : TreeOpKind) : kindFromDict (kindToDict kind) = .ok kind := by
  cases kind with
  | createNode id parent sort seed =>
    show (idFromDict (idToDict id) >>= fun id => idFromDict (idToDict parent) >>= fun parent =>
      sortFromDict (sortToDict sort) >>= fun sort => seedFromWire (seedWire seed) >>= fun seed =>
        Except.ok (TreeOpKind.createNode id parent sort seed)) = _
    rw [idFromDict_toDict, idFromDict_toDict, sortFromDict_toDict, seedFromWire_seedWire]
    rfl
  | tombstone node =>
    show (idFromDict (idToDict node) >>= fun node => Except.ok (TreeOpKind.tombstone node)) = _
    rw [idFromDict_toDict]
    rfl
  | reorder node sort =>
    show (idFromDict (idToDict node) >>= fun node => sortFromDict (sortToDict sort) >>= fun sort =>
      Except.ok (TreeOpKind.reorder node sort)) = _
    rw [idFromDict_toDict, sortFromDict_toDict]
    rfl
  | leafEdit node prev ops =>
    have hops : (ops.map textOpToDict).mapM textOpFromDict = .ok ops := mapM_map fun op _ => textOpFromDict_toDict op
    show (idFromDict (idToDict node) >>= fun node => idFromDict (idToDict prev) >>= fun prev =>
      (ops.map textOpToDict).mapM textOpFromDict >>= fun ops => Except.ok (TreeOpKind.leafEdit node prev ops)) = _
    rw [idFromDict_toDict, idFromDict_toDict, hops]
    rfl
  | splitLeaf node newNode sort atChar prev =>
    show (idFromDict (idToDict node) >>= fun node => idFromDict (idToDict newNode) >>= fun newNode =>
      sortFromDict (sortToDict sort) >>= fun sort => natFromWire (.int atChar) >>= fun atChar =>
        idFromDict (idToDict prev) >>= fun prev =>
          Except.ok (TreeOpKind.splitLeaf node newNode sort atChar prev)) = _
    rw [idFromDict_toDict, idFromDict_toDict, sortFromDict_toDict, natFromWire_int, idFromDict_toDict]
    rfl
  | mergeLeaves left right prevLeft prevRight =>
    show (idFromDict (idToDict left) >>= fun left => idFromDict (idToDict right) >>= fun right =>
      idFromDict (idToDict prevLeft) >>= fun prevLeft => idFromDict (idToDict prevRight) >>= fun prevRight =>
        Except.ok (TreeOpKind.mergeLeaves left right prevLeft prevRight)) = _
    rw [idFromDict_toDict, idFromDict_toDict, idFromDict_toDict, idFromDict_toDict]
    rfl

theorem treeOpFromDict_toDict (op : TreeOp) : treeOpFromDict (treeOpToDict op) = .ok op := by
  show (idFromDict (idToDict op.id) >>= fun id => kindFromDict (kindToDict op.kind) >>= fun kind =>
    Except.ok (TreeOp.mk id kind)) = _
  rw [idFromDict_toDict, kindFromDict_toDict]
  rfl

theorem treeUpdateFromWire_toWire (ops : List TreeOp) : treeUpdateFromWire (treeUpdateToWire ops) = .ok ops := by
  have hops : (ops.map treeOpToDict).mapM treeOpFromDict = .ok ops := mapM_map fun op _ => treeOpFromDict_toDict op
  show (ops.map treeOpToDict).mapM treeOpFromDict = _
  exact hops

/-- What a replica sends is read as it was sent. -/
theorem diff_survives (s : LosslessTreeCrdt) (their : TreeVersionFrontier) :
    treeUpdateFromWire (treeUpdateToWire (s.diff their)) = .ok (s.diff their) :=
  treeUpdateFromWire_toWire _

/-! ## Frontiers are read back -/

theorem intOfText_intText (z : ℤ) : intOfText (intText z) = some z := by
  have hdigits : ∀ n, (Nat.toDigits 10 n).all Char.isDigit = true := fun n =>
    List.all_eq_true.mpr fun c hc => Nat.isDigit_of_mem_toDigits (by decide) (by decide) hc
  have hvalue : ∀ n, Nat.ofDigitChars 10 (Nat.toDigits 10 n) 0 = n := fun n => Nat.ofDigitChars_ten_toDigits
  have hne : ∀ n, Nat.toDigits 10 n ≠ [] := fun n => Nat.toDigits_ne_nil
  rw [intText]
  split
  · next hneg =>
    rw [intOfText, if_pos ⟨hne _, hdigits _⟩, hvalue]
    exact congrArg some (by omega)
  · next hpos =>
    have hnot := Replay.minus_notMem_toDigits z.natAbs
    have hd := hdigits z.natAbs
    have hv := hvalue z.natAbs
    cases htext : Nat.toDigits 10 z.natAbs with
    | nil => exact absurd htext (hne _)
    | cons c digits =>
      rw [htext] at hnot hd hv
      have hsign : ∀ rest, c :: digits ≠ '-' :: rest := fun rest heq => hnot (heq ▸ List.mem_cons_self)
      rw [intOfText.eq_3 _ (by simp) hsign, if_pos hd, hv]
      exact congrArg some (by omega)

theorem peerFromKey_peerKey (peer : ℤ) : peerFromKey (.str (peerKey peer)) = .ok peer := by
  rw [peerFromKey, peerKey, String.toList_ofList, intOfText_intText]

theorem loop_of_none {α : Type} {step : α → Option α} {a : α} (h : step a = none) (fuel : ℕ) :
    loop step fuel a = a := by
  cases fuel with
  | zero => rfl
  | succ fuel => rw [loop, h]

theorem rangeFromDict_toDict {r : DotRange} (h : r.extend = none) : rangeFromDict (rangeToDict r) = .ok r := by
  show (natFromWire (.int r.contiguous) >>= fun contiguous =>
    ((r.sparse.sort (· ≤ ·)).map fun c : ℕ => WireValue.int c).mapM natFromWire >>= fun sparse =>
      Except.ok (loop DotRange.extend sparse.toFinset.card ⟨contiguous, sparse.toFinset⟩)) = _
  rw [natFromWire_int, mapM_natFromWire]
  show Except.ok (loop DotRange.extend _ (DotRange.mk r.contiguous (r.sparse.sort (· ≤ ·)).toFinset)) = _
  rw [Finset.sort_toFinset, loop_of_none h]

theorem foldlM_frontierEntry {rows : List (ℤ × DotRange)} (h : ∀ row ∈ rows, row.2.extend = none)
    (f : TreeVersionFrontier) :
    (rows.map fun row => (WireValue.str (peerKey row.1), rangeToDict row.2)).foldlM frontierEntry f =
      .ok ⟨f.dots.putAll rows⟩ := by
  induction rows generalizing f with
  | nil => rfl
  | cons row rows ih =>
    rw [List.forall_mem_cons] at h
    have hentry : frontierEntry f (.str (peerKey row.1), rangeToDict row.2) = .ok ⟨f.dots.put row⟩ := by
      rw [frontierEntry, peerFromKey_peerKey, rangeFromDict_toDict h.1]
      rfl
    rw [List.map_cons, List.foldlM_cons, hentry]
    exact ih h.2 _

/-- A frontier is read with the ranges that it was written with. -/
theorem frontierFromWire_toWire {f : TreeVersionFrontier} (h : ∀ row ∈ f.dots.rows, row.2.extend = none) :
    ∃ g, frontierFromWire (frontierToWire f) = .ok g ∧ ∀ peer, g.dots.get? peer = f.dots.get? peer := by
  refine ⟨⟨(Table.empty _).putAll f.dots.rows⟩, ?_, fun peer => Table.get?_putAll_of_perm (List.Perm.refl _) peer⟩
  show ((f.dots.rows.map fun row => (peerKey row.1, rangeToDict row.2)).map
    fun item => (WireValue.str item.1, item.2)).foldlM frontierEntry {} = _
  rw [List.map_map]
  exact foldlM_frontierEntry h {}

end LazilyPy.Lossless

import LazilyPy.Chart.Basic

/-!
# Parsing charts

The declarative form of a chart is a tree of objects. Parsing names the first thing that is wrong with
it. What it accepts has one root and names only declared states: these are fields of `ChartDef`.
-/

namespace LazilyPy.Chart

inductive Value where
  | null
  | bool (b : Bool)
  | num (n : ℤ)
  | str (s : String)
  | list (items : List Value)
  | dict (fields : List (String × Value))

namespace Value

def field (fields : List (String × Value)) (name : String) : Option Value :=
  match fields.lookup name with
  | some null => none
  | v => v

end Value

def Kind.name : Kind → String
  | .atomic => "atomic"
  | .compound => "compound"
  | .parallel => "parallel"
  | .history => "history"
  | .final => "final"

inductive ChartError where
  | notObject (label : String)
  | notArray (label : String)
  | notAction (label : String)
  | noTarget (label : String)
  | exprGuard (label : String)
  | notGuard (label : String)
  | notInternal (label : String)
  | notString (state field : String)
  | run (state : String)
  | unknownKind (state : String) (kind : Value)
  | notBoolean (state field : String)
  | unknownHistory (state history : String)
  | contradicts (state declared : String) (structural : Kind)
  | noInitial
  | undeclaredInitial (target : String)
  | undeclaredField (state field target : String)
  | undeclaredTarget (state event target : String)
  | twoRoots
  | noRoot

/-- The message, where `show'` is how a value is formatted. -/
def ChartError.message (show' : Value → String) : ChartError → String
  | notObject label => s!"{label} must be an object"
  | notArray label => s!"{label} must be an array of strings"
  | notAction label => s!"{label} actions must be strings"
  | noTarget label => s!"{label} requires a string `target`"
  | exprGuard label => label ++ ": context-expression `\x7bexpr: ...\x7d` guards are not " ++
      "supported (rejecting explicitly per spec)"
  | notGuard label => s!"{label}: guard must be a string"
  | notInternal label => s!"{label}: internal must be a boolean"
  | notString state field => s!"state {state}: {field} must be a string"
  | run state => s!"state {state} uses `run` actions, which are not supported " ++ "(rejecting explicitly per spec)"
  | unknownKind state kind => "state " ++ state ++ ": unknown state kind `" ++ show' kind ++ "`"
  | notBoolean state field => s!"state {state}: {field} must be a boolean"
  | unknownHistory state history => s!"state {state}: unknown history kind `{history}`"
  | contradicts state declared structural =>
    s!"state {state}: declared kind `{declared}` contradicts structural kind `" ++ structural.name ++ "`"
  | noInitial => "chart.initial is required"
  | undeclaredInitial target => s!"chart.initial names undeclared state `{target}`"
  | undeclaredField state field target =>
    s!"state {state}: {field} names undeclared state `{target}`"
  | undeclaredTarget state event target =>
    s!"state {state}: transition {event} targets undeclared state `{target}`"
  | twoRoots => "chart has more than one root (parent-less state)"
  | noRoot => "chart has no root (parent-less state)"

/-! ## States -/

def asObject (label : String) : Value → Except ChartError (List (String × Value))
  | .dict fields => .ok fields
  | _ => .error (.notObject label)

def parseAction (label : String) : Value → Except ChartError String
  | .str s => .ok s
  | _ => .error (.notAction label)

def parseActionList (label : String) : Option Value → Except ChartError (List String)
  | none => .ok []
  | some (.list items) => items.mapM (parseAction label)
  | some _ => .error (.notArray label)

def parseGuard (label : String) : Option Value → Except ChartError (Option String)
  | none => .ok none
  | some (.str guard) => .ok (some guard)
  | some (.dict fields) =>
    .error (if (fields.lookup "expr").isSome then .exprGuard label else .notGuard label)
  | some _ => .error (.notGuard label)

def parseTransition (id event : String) (raw : Value) : Except ChartError Transition :=
  let label := s!"transition {id}.{event}"
  match raw with
  | .str target => .ok { target }
  | _ => do
    let obj ← asObject label raw
    let target ← match Value.field obj "target" with
      | some (.str target) => .ok target
      | _ => .error (.noTarget label)
    let guard ← parseGuard label (Value.field obj "guard")
    let internal ← match Value.field obj "internal" with
      | none => .ok false
      | some (.bool b) => .ok b
      | some _ => .error (.notInternal label)
    let action ← parseActionList s!"{label} action" (Value.field obj "action")
    return { target, guard, action, internal }

def optionalString (obj : List (String × Value)) (id name : String) : Except ChartError (Option String) :=
  match Value.field obj name with
  | none => .ok none
  | some (.str s) => .ok (some s)
  | some _ => .error (.notString id name)

def parseKind (id : String) : Option Value → Except ChartError (Option String)
  | none => .ok none
  | some (.str name) =>
    if name ∈ ["atomic", "compound", "parallel", "history", "final"] then .ok (some name)
    else .error (.unknownKind id (.str name))
  | some v => .error (.unknownKind id v)

def parseHistory (id : String) : Option String → Except ChartError (Option HistoryKind)
  | none => .ok none
  | some name =>
    if name = "shallow" then .ok (some .shallow)
    else if name = "deep" then .ok (some .deep)
    else .error (.unknownHistory id name)

def inferKind (history : Option HistoryKind) (parallel : Bool) (initial : Option String) : Kind :=
  if history.isSome then .history
  else if parallel then .parallel
  else if initial.isSome then .compound
  else .atomic

theorem inferKind_compound {history : Option HistoryKind} {parallel : Bool} {initial : Option String}
    (h : inferKind history parallel initial = .compound) : initial ≠ none := by
  unfold inferKind at h
  split at h
  · cases h
  · split at h
    · cases h
    · split at h
      · next hi => exact Option.isSome_iff_ne_none.mp hi
      · cases h

/-- The kind of a state: the structural one, unless it is declared final. -/
def settleKind (id : String) (declared : Option String) (inferred : Kind) :
    Except ChartError {k : Kind // k = .compound → inferred = .compound} :=
  match declared with
  | none => .ok ⟨inferred, fun h => h⟩
  | some name =>
    -- `final` is the one kind that no structural marker implies
    if name = "final" then
      if inferred = .atomic then .ok ⟨.final, nofun⟩ else .error (.contradicts id name inferred)
    else if name = inferred.name then .ok ⟨inferred, fun h => h⟩
    else .error (.contradicts id name inferred)

def parseTransitions (id : String) :
    Option Value → Except ChartError (Table (Prod.fst : String × Transition → String))
  | none => .ok (.empty _)
  | some raw => do
    let on ← asObject s!"state {id}.on" raw
    on.foldlM (fun t entry => (parseTransition id entry.1 entry.2).map fun tr => t.put (entry.1, tr)) (.empty _)

def parseState (id : String) (raw : Value) : Except ChartError StateDef := do
  let obj ← asObject s!"state {id}" raw
  let parent ← optionalString obj id "parent"
  let initial ← optionalString obj id "initial"
  let default ← optionalString obj id "default"
  -- `run` actions are rejected, not ignored
  if (Value.field obj "run").isSome then throw (.run id)
  let declared ← parseKind id (Value.field obj "kind")
  let rawHistory ← optionalString obj id "history"
  let parallel ← match Value.field obj "parallel" with
    | none => .ok false
    | some (.bool b) => .ok b
    | some _ => .error (.notBoolean id "parallel")
  let history ← parseHistory id rawHistory
  let kind ← settleKind id declared (inferKind history parallel initial)
  let transitions ← parseTransitions id (Value.field obj "on")
  let entry ← parseActionList s!"state {id} entry" (Value.field obj "entry")
  let exit ← parseActionList s!"state {id} exit" (Value.field obj "exit")
  return { id, parent, kind := kind.1, history, initial, default, transitions, entry, exit,
           compound := fun h => inferKind_compound (kind.2 h) }

/-! ## Charts -/

def undeclared (ids : List String) (d : StateDef) : Option ChartError :=
  ([("parent", d.parent), ("initial", d.initial), ("default", d.default)].findSome? fun f =>
    f.2.bind fun target =>
      if target ∈ ids then none else some (.undeclaredField d.id f.1 target)).or
  (d.transitions.rows.findSome? fun t =>
    if t.2.target ∈ ids then none else some (.undeclaredTarget d.id t.1 t.2.target))

theorem declared_of_undeclared {ids : List String} {d : StateDef} (h : undeclared ids d = none) :
    ∀ r ∈ d.references, r ∈ ids := by
  obtain ⟨hfields, htransitions⟩ := Option.or_eq_none_iff.mp h
  rw [List.findSome?_eq_none_iff] at hfields htransitions
  have hfield : ∀ f ∈ [("parent", d.parent), ("initial", d.initial), ("default", d.default)],
      ∀ r, f.2 = some r → r ∈ ids := by
    intro f hf r hr
    by_contra hnot
    simpa [hr, hnot] using hfields f hf
  intro r hr
  simp only [StateDef.references, List.mem_append, Option.mem_toList, List.mem_map] at hr
  obtain ((hr | hr) | hr) | ⟨t, ht, rfl⟩ := hr
  · exact hfield ("parent", d.parent) (by simp) r hr
  · exact hfield ("initial", d.initial) (by simp) r hr
  · exact hfield ("default", d.default) (by simp) r hr
  · by_contra hnot
    simpa [hnot] using htransitions t ht

def findRoot (rows : List StateDef) : Except ChartError
    {root : String // (∃ d ∈ rows, d.id = root ∧ d.parent = none) ∧
      ∀ d ∈ rows, d.parent = none → d.id = root} :=
  match h : rows.filter fun d => d.parent = none with
  | [] => .error .noRoot
  | _ :: _ :: _ => .error .twoRoots
  | [r] => .ok ⟨r.id, by
      have hmem : ∀ d, d ∈ rows ∧ d.parent = none ↔ d = r := by
        intro d
        have hd : d ∈ rows.filter (fun d => d.parent = none) ↔ d = r := by
          rw [h, List.mem_singleton]
        simpa using hd
      refine ⟨⟨r, ((hmem r).mpr rfl).1, rfl, ((hmem r).mpr rfl).2⟩, fun d hd hp => ?_⟩
      rw [(hmem d).mp ⟨hd, hp⟩]⟩

/-- The first reference of a chart that is not declared, or the proof that there is none. -/
def checkDeclared (states : Table StateDef.id) : Except ChartError
    (PLift (∀ d ∈ states.rows, ∀ r ∈ d.references, r ∈ states.rows.map StateDef.id)) :=
  match h : states.rows.findSome? (undeclared (states.rows.map StateDef.id)) with
  | some e => .error e
  | none => .ok ⟨fun d hd => declared_of_undeclared (List.findSome?_eq_none_iff.mp h d hd)⟩

def fromChart (value : Value) : Except ChartError ChartDef := do
  let obj ← asObject "chart" value
  let topInitial ← match Value.field obj "initial" with
    | some (.str s) => .ok s
    | _ => .error .noInitial
  let statesMap ← asObject "chart.states" ((Value.field obj "states").getD .null)
  let states ← statesMap.foldlM (fun (t : Table StateDef.id) entry =>
    (parseState entry.1 entry.2).map t.put) (.empty _)
  if topInitial ∉ states.rows.map StateDef.id then throw (.undeclaredInitial topInitial)
  let declared ← checkDeclared states
  let root ← findRoot states.rows
  return ⟨states, root.1, root.2.1, root.2.2, declared.1⟩

/-- A chart is accepted and has a property, if running the parser and the test says so. -/
theorem accepted_of_test {value : Value} {test : ChartDef → Bool}
    (h : (match fromChart value with | .ok defn => test defn | .error _ => false) = true) :
    ∃ defn, fromChart value = .ok defn ∧ test defn := by
  cases hchart : fromChart value with
  | error e => simp [hchart] at h
  | ok defn => exact ⟨defn, rfl, by simpa [hchart] using h⟩

end LazilyPy.Chart

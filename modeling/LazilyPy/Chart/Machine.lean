import Mathlib.Data.List.ReduceOption
import LazilyPy.Chart.Basic

/-!
# The state chart

An event selects, for every active leaf, the innermost transition of its ancestors that is enabled. The
candidates are taken from the innermost source on, unless what one of them exits has been exited
already. Sets have no order: the order in which a set is walked is an input of the step.
-/

namespace LazilyPy.Chart

/-- What a history state has recorded: one child, or the active states of its region. -/
inductive Recording where
  | child (id : String)
  | deepSet (states : Finset String)
  deriving DecidableEq

abbrev History := String → Option Recording

structure StateChart where
  config : Finset String
  history : History
  lastActions : List String

/-- An enabled transition of an active leaf, with the state that declares it. -/
structure Candidate where
  source : String
  transition : Transition
  leaf : String
  deriving DecidableEq

structure Plan where
  exit : Finset String := ∅
  enter : Finset String := ∅
  taken : List Candidate := []
  deriving DecidableEq

/-- An event, the guards that hold, and the order in which sets are walked. -/
structure Input where
  event : String
  guards : String → Bool
  walk : Finset String → List String

/-- Take a candidate, unless what it exits has been exited already. -/
def Plan.accept (p : Plan) (x : Candidate × Finset String × Finset String) : Plan :=
  if x.2.1 ∩ p.exit ≠ ∅ then p
  else ⟨p.exit ∪ x.2.1, p.enter ∪ x.2.2, p.taken ++ [x.1]⟩

namespace ChartDef

variable (defn : ChartDef)

/-! ## History -/

def truthy (s : Option String) : Option String :=
  s.filter (· ≠ "")

def regionOf (hist : String) : String :=
  (truthy ((defn.get? hist).bind StateDef.parent)).getD defn.root

def startOf (hist region : String) : Option String :=
  (truthy ((defn.get? hist).bind StateDef.default)).or ((defn.get? region).bind StateDef.initial)

def recordRegion (region hist : String) (config : Finset String) (history : History) : Option History :=
  match defn.get? hist with
  | none => some history
  | some d =>
    if d.kind ≠ .history then some history
    -- a history state without a kind of history records deeply
    else if d.history = some .shallow then
      match (defn.children region).find? fun kid => kid ∈ config ∧ defn.kind kid ≠ some .history with
      | some kid => some (Function.update history hist (some (.child kid)))
      | none => some history
    else (defn.properDescendants config region).map fun below =>
      Function.update history hist (some (.deepSet below))

/-- Record what is active in each region that is left and has a history state. -/
def recordAll (regions : List String) (config : Finset String) (history : History) : Option History :=
  regions.foldlM (fun history region =>
    match defn.historyChildOf region with
    | some hist => defn.recordRegion region hist config history
    | none => some history) history

def restoreViaHistory (history : History) (hist region : String) : Option (Finset String) :=
  match history hist with
  | none =>
    match defn.startOf hist region with
    | none => some ∅
    | some start =>
      (defn.pathBelow region start).bind fun path =>
        (defn.enterSubtree start).map fun sub => path.toFinset ∪ sub.toFinset
  | some (.child kid) => (defn.enterSubtree kid).map fun sub => insert kid sub.toFinset
  -- what was active is entered as it was, without any default entry
  | some (.deepSet states) => some states

/-! ## Transitions -/

def isInternal (source : String) (t : Transition) : Option Bool :=
  if t.internal then
    if t.target = source then some true else defn.isProperDescendant t.target source
  else some false

def domain (c : Candidate) : Option String :=
  (defn.isInternal c.source c.transition).bind fun internal =>
    if internal then some c.source else defn.lca c.leaf c.transition.target

def enters (top target : String) (history : History) : Option (Finset String) :=
  if defn.kind target = some .history then
    -- the history state itself is never entered
    (defn.pathBelow top (defn.regionOf target)).bind fun path =>
      (defn.restoreViaHistory history target (defn.regionOf target)).map fun below =>
        path.toFinset ∪ below
  else
    -- the target is entered by default even where it is `top` itself
    (defn.pathBelow top target).bind fun path =>
      (defn.enterSubtree target).map fun sub => path.toFinset ∪ sub.toFinset

def computeExitEnter (c : Candidate) (config : Finset String) (history : History) :
    Option (Finset String × Finset String) :=
  (defn.domain c).bind fun top => (defn.properDescendants config top).bind fun exit =>
    (defn.enters top c.transition.target history).map fun enter => (exit, enter)

/-- The guard admits the transition; a guard that is not supplied does not. -/
def guardPasses (guards : String → Bool) (t : Transition) : Bool :=
  t.guard.all guards

/-- The innermost enabled transition of a leaf and its ancestors. -/
def candidate (event : String) (guards : String → Bool) (leaf : String) : Option (Option Candidate) :=
  (defn.ancestorsInclusive leaf).map fun chain => chain.findSome? fun anc =>
    (defn.get? anc).bind fun d => (d.transitions.get? event).bind fun t =>
      if guardPasses guards t.2 then some ⟨anc, t.2, leaf⟩ else none

/-- The candidates of the active leaves, in the order in which the active states are walked. -/
def candidates (i : Input) (config : Finset String) : Option (List Candidate) :=
  (((i.walk config).filter defn.isLeaf).mapM (defn.candidate i.event i.guards)).map List.reduceOption

/-- Candidates of deeper sources come first, then those of sources that are declared first. -/
def Before (c c' : Candidate) : Prop :=
  defn.depthOf c'.source < defn.depthOf c.source ∨
    defn.depthOf c'.source = defn.depthOf c.source ∧ defn.order c.source ≤ defn.order c'.source

instance : DecidableRel defn.Before :=
  fun c c' => inferInstanceAs (Decidable (defn.depthOf c'.source < defn.depthOf c.source ∨
    defn.depthOf c'.source = defn.depthOf c.source ∧ defn.order c.source ≤ defn.order c'.source))

/-- The candidates in the order in which they are tried, each with what it exits and enters. -/
def offers (i : Input) (st : StateChart) : Option (List (Candidate × Finset String × Finset String)) :=
  (defn.candidates i st.config).bind fun cs => (cs.insertionSort defn.Before).mapM fun c =>
    (defn.computeExitEnter c st.config st.history).map fun sets => (c, sets)

def plan (i : Input) (st : StateChart) : Option Plan :=
  (defn.offers i st).map fun l => l.foldl Plan.accept {}

/-! ## Actions -/

/-- States in the order in which their exit actions run: the deepest first, then by id. -/
def exitOrder (states : Finset String) : List String :=
  (defn.ids.filter (· ∈ states)).insertionSort fun a b =>
    defn.depthOf b < defn.depthOf a ∨ defn.depthOf b = defn.depthOf a ∧ a ≤ b

def entryOrder (states : Finset String) : List String :=
  (defn.ids.filter (· ∈ states)).insertionSort fun a b =>
    defn.depthOf a < defn.depthOf b ∨ defn.depthOf a = defn.depthOf b ∧ a ≤ b

def entryActions (states : List String) : List String :=
  states.flatMap fun s => ((defn.get? s).map StateDef.entry).getD []

def exitActions (states : List String) : List String :=
  states.flatMap fun s => ((defn.get? s).map StateDef.exit).getD []

/-- Exit actions, then those of the transitions, then entry actions. -/
def actionsOf (p : Plan) : List String :=
  defn.exitActions (defn.exitOrder p.exit) ++ p.taken.flatMap (fun c => c.transition.action) ++
    defn.entryActions (defn.entryOrder p.enter)

/-! ## Runs -/

def new : Option StateChart :=
  (defn.enterSubtree defn.root).map fun entered =>
    ⟨entered.toFinset, fun _ => none, defn.entryActions entered⟩

def send (i : Input) (st : StateChart) : Option (Bool × StateChart) :=
  (defn.plan i st).bind fun p =>
    -- no candidate, or only candidates in conflict with each other
    if p.taken = [] then some (false, { st with lastActions := [] })
    else (defn.recordAll (i.walk p.exit) st.config st.history).map fun history =>
      (true, ⟨(st.config \ p.exit) ∪ p.enter, history, defn.actionsOf p⟩)

def run (inputs : List Input) : Option StateChart :=
  inputs.foldl (fun st i => st.bind fun st => (defn.send i st).map Prod.snd) defn.new

theorem run_concat (inputs : List Input) (i : Input) : defn.run (inputs ++ [i]) =
    (defn.run inputs).bind fun st => (defn.send i st).map Prod.snd := by
  simp [run, List.foldl_append]

end ChartDef

end LazilyPy.Chart

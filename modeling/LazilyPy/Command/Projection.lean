import LazilyPy.Lib.Table
import Mathlib.Algebra.Group.Int.Defs
import Mathlib.Data.Finset.Insert
import Mathlib.Data.List.Sort

/-!
# The command projection

The reducer of the command plane. Frames, terminal receipts and whole images are folded into one entry
for each command.
-/

namespace LazilyPy.Command

open List

inductive CommandStatus where
  | submitted | accepted | running | applied | rejected | cancelled | superseded | timedOut
  deriving DecidableEq, Repr

inductive CommandEventKind where
  | observed | accepted | started | progress | cancelled | superseded | timedOut
  deriving DecidableEq, Repr

inductive ReceiptOutcome where
  | observed | accepted | applied | rejected
  deriving DecidableEq, Repr

def ReceiptOutcome.isTerminal : ReceiptOutcome → Bool
  | .observed | .accepted => false
  | .applied | .rejected => true

structure CommandSubmit where
  commandId : String
  authorityGeneration : ℤ
  deriving DecidableEq

structure CommandEvent where
  eventId : String
  commandId : String
  kind : CommandEventKind
  generation : ℤ
  deriving DecidableEq

structure CommandCancel where
  commandId : String
  causationId : String
  authorityGeneration : ℤ
  deriving DecidableEq

/-- A receipt of the command `causationId`. Its constructor rejects empty ids and generations that are
no 64-bit number. -/
structure CausalReceipt where
  receiptId : String
  causationId : String
  generation : ℤ
  outcome : ReceiptOutcome
  reason : Option String := none
  receiptId_ne : receiptId ≠ "" := by decide
  causationId_ne : causationId ≠ "" := by decide
  generation_bounds : 0 ≤ generation ∧ generation ≤ 2 ^ 64 - 1 := by decide
  deriving DecidableEq

theorem one_bounds : (0 : ℤ) ≤ 1 ∧ (1 : ℤ) ≤ 2 ^ 64 - 1 := by
  decide

structure CommandProjectionEntry where
  commandId : String
  status : CommandStatus
  terminal : Bool
  generation : ℤ
  reason : Option String := none
  terminalReceiptId : Option String := none
  lastEventId : Option String := none
  deriving DecidableEq

structure CommandProjectionImage where
  generation : ℤ
  commands : List CommandProjectionEntry

structure CommandMessage where
  submit : Option CommandSubmit := none
  cancel : Option CommandCancel := none
  events : Option (List CommandEvent) := none
  projection : Option CommandProjectionImage := none

structure StaleGeneration where
  expected : ℤ
  actual : ℤ
  deriving DecidableEq

structure TerminalConflict where
  commandId : String
  existing : CommandStatus
  incoming : CommandStatus
  deriving DecidableEq

inductive CommandApplyStatus where
  | recorded | duplicate | unknown | staleGeneration | terminalConflict
  deriving DecidableEq, Repr

def terminalStatusOf (outcome : ReceiptOutcome) (reason : Option String) : CommandStatus :=
  match outcome with
  | .applied => .applied
  | .rejected =>
    if reason = some "cancelled" then .cancelled
    else if reason = some "superseded" then .superseded
    else if reason = some "timed_out" then .timedOut
    else .rejected
  | .observed | .accepted => .accepted

def progressStatusOf : CommandEventKind → Option CommandStatus
  | .observed | .accepted => some .accepted
  | .started | .progress => some .running
  | .cancelled | .superseded | .timedOut => none

def phaseRank : CommandStatus → ℕ
  | .submitted => 0
  | .accepted => 1
  | .running => 2
  | _ => 3

namespace CommandProjectionEntry

/-- A command that is not terminal advances to `nxt`, never back. -/
def advance (entry : CommandProjectionEntry) (nxt : CommandStatus) : CommandProjectionEntry :=
  if entry.terminal = false ∧ phaseRank entry.status ≤ phaseRank nxt then { entry with status := nxt }
  else entry

def progress (entry : CommandProjectionEntry) (event : CommandEvent) : CommandProjectionEntry :=
  let entry := { entry with lastEventId := some event.eventId }
  match progressStatusOf event.kind with
  | some nxt => entry.advance nxt
  | none => entry

def complete (entry : CommandProjectionEntry) (receipt : CausalReceipt) : CommandProjectionEntry :=
  { entry with
    terminal := true
    status := terminalStatusOf receipt.outcome receipt.reason
    reason := receipt.reason
    terminalReceiptId := some receipt.receiptId }

section

variable {entry : CommandProjectionEntry} {nxt : CommandStatus} {event : CommandEvent}

/-- A terminal command does not advance. -/
theorem advance_of_terminal (h : entry.terminal = true) : entry.advance nxt = entry :=
  if_neg fun hadvance => by simp [h] at hadvance

/-- Advancing changes the status alone. -/
theorem advance_eq : entry.advance nxt = { entry with status := (entry.advance nxt).status } := by
  unfold advance
  split
  · rfl
  · rfl

/-- An event changes the status and the last event. -/
theorem progress_eq : entry.progress event =
    { entry with status := (entry.progress event).status, lastEventId := some event.eventId } := by
  unfold progress
  dsimp only
  split
  · rw [advance_eq]
  · rfl

theorem status_progress_of_terminal (h : entry.terminal = true) : (entry.progress event).status = entry.status := by
  unfold progress
  dsimp only
  split
  · rw [advance_of_terminal (by exact h)]
  · rfl

end

end CommandProjectionEntry

structure CommandProjection where
  generation : ℤ := 0
  entries : Table CommandProjectionEntry.commandId := .empty _
  seenEventIds : Finset String := ∅
  seenReceiptIds : Finset String := ∅
  seenCancelIds : Finset String := ∅
  conflicts : Finset String := ∅
  lastStale : Option StaleGeneration := none
  lastConflict : Option TerminalConflict := none

inductive CallState where
  | pending
  | resolved (entry : CommandProjectionEntry)
  | conflict
  deriving DecidableEq

inductive CallStateKind where
  | pending | resolved | conflict
  deriving DecidableEq, Repr

def CallState.kind : CallState → CallStateKind
  | .pending => .pending
  | .resolved _ => .resolved
  | .conflict => .conflict

namespace CommandProjection

def entry (p : CommandProjection) (commandId : String) : Option CommandProjectionEntry :=
  p.entries.get? commandId

def submit (p : CommandProjection) (submit : CommandSubmit) : CommandApplyStatus × CommandProjection :=
  match p.entry submit.commandId with
  | some _ => (.duplicate, p)
  | none => (.recorded, { p with
      generation := max p.generation submit.authorityGeneration
      entries := p.entries.put {
        commandId := submit.commandId
        status := .submitted
        terminal := false
        generation := submit.authorityGeneration } })

/-- The guards that events, cancels and receipts share: an id that has not been `seen`, a command that is
known, and its generation. -/
def guarded (p : CommandProjection) (seen : Prop) [Decidable seen] (commandId : String) (generation : ℤ)
    (body : CommandProjectionEntry → CommandApplyStatus × CommandProjection) :
    CommandApplyStatus × CommandProjection :=
  if seen then (.duplicate, p)
  else match p.entry commandId with
  | none => (.unknown, p)
  | some entry =>
    if generation ≠ entry.generation then
      (.staleGeneration, { p with lastStale := some ⟨entry.generation, generation⟩ })
    else body entry

def event (p : CommandProjection) (event : CommandEvent) : CommandApplyStatus × CommandProjection :=
  p.guarded (event.eventId ∈ p.seenEventIds) event.commandId event.generation fun entry =>
    (.recorded, { p with
      seenEventIds := insert event.eventId p.seenEventIds
      entries := p.entries.put (entry.progress event) })

def cancel (p : CommandProjection) (cancel : CommandCancel) : CommandApplyStatus × CommandProjection :=
  p.guarded (cancel.causationId ∈ p.seenCancelIds) cancel.commandId cancel.authorityGeneration fun _ =>
    (.recorded, { p with seenCancelIds := insert cancel.causationId p.seenCancelIds })

def observeReceipt (p : CommandProjection) (receipt : CausalReceipt) : CommandApplyStatus × CommandProjection :=
  p.guarded (receipt.receiptId ∈ p.seenReceiptIds) receipt.causationId receipt.generation fun entry =>
    let seen := insert receipt.receiptId p.seenReceiptIds
    if receipt.outcome.isTerminal = false then
      (.recorded, { p with seenReceiptIds := seen, entries := p.entries.put (entry.advance .accepted) })
    else
      let incoming := terminalStatusOf receipt.outcome receipt.reason
      if entry.terminal then
        if entry.status = incoming then (.recorded, { p with seenReceiptIds := seen })
        -- the id of a receipt that conflicts is not noted
        else (.terminalConflict, { p with
          conflicts := insert receipt.causationId p.conflicts
          lastConflict := some ⟨receipt.causationId, entry.status, incoming⟩ })
      else (.recorded, { p with
        seenReceiptIds := seen
        entries := p.entries.put (entry.complete receipt) })

/-- An entry of an image takes the place of the one that is there. -/
def applyEntry (p : CommandProjection) (entry : CommandProjectionEntry) : CommandProjection :=
  { p with
    entries := p.entries.put entry
    seenEventIds := entry.lastEventId.elim p.seenEventIds (insert · p.seenEventIds)
    seenReceiptIds := entry.terminalReceiptId.elim p.seenReceiptIds (insert · p.seenReceiptIds) }

def applyProjection (p : CommandProjection) (image : CommandProjectionImage) :
    CommandApplyStatus × CommandProjection :=
  (.recorded, image.commands.foldl applyEntry { p with generation := max p.generation image.generation })

def applyMessage (p : CommandProjection) (message : CommandMessage) : CommandApplyStatus × CommandProjection :=
  match message with
  | ⟨some submit, _, _, _⟩ => p.submit submit
  | ⟨none, some cancel, _, _⟩ => p.cancel cancel
  | ⟨none, none, some events, _⟩ => events.foldl (fun acc e => acc.2.event e) (.unknown, p)
  | ⟨none, none, none, some image⟩ => p.applyProjection image
  | ⟨none, none, none, none⟩ => (.unknown, p)

def terminalFor (p : CommandProjection) (commandId : String) : Option CommandProjectionEntry :=
  (p.entry commandId).filter (·.terminal)

/-- The projection as a wire image, in the order of the command ids. -/
def toImage (p : CommandProjection) : CommandProjectionImage where
  generation := p.generation
  commands := p.entries.rows.insertionSort fun a b => a.commandId ≤ b.commandId

def pollCall (p : CommandProjection) (commandId : String) : CallState :=
  if commandId ∈ p.conflicts then .conflict
  else match p.terminalFor commandId with
  | some terminal => .resolved terminal
  | none => .pending

end CommandProjection

inductive Frame where
  | submit (submit : CommandSubmit)
  | event (event : CommandEvent)
  | cancel (cancel : CommandCancel)
  | receipt (receipt : CausalReceipt)
  deriving DecidableEq

def completed : Frame :=
  .receipt { receiptId := "r1", causationId := "c1", generation := 1, outcome := .applied }

def refused : Frame :=
  .receipt { receiptId := "r2", causationId := "c1", generation := 1, outcome := .rejected }

inductive Input where
  | frame (frame : Frame)
  | image (image : CommandProjectionImage)

def CommandMessage.inputs : CommandMessage → List Input
  | ⟨some submit, _, _, _⟩ => [.frame (.submit submit)]
  | ⟨none, some cancel, _, _⟩ => [.frame (.cancel cancel)]
  | ⟨none, none, some events, _⟩ => events.map fun e => .frame (.event e)
  | ⟨none, none, none, some image⟩ => [.image image]
  | ⟨none, none, none, none⟩ => []

namespace CommandProjection

def foldFrame (p : CommandProjection) : Frame → CommandApplyStatus × CommandProjection
  | .submit submit => p.submit submit
  | .event event => p.event event
  | .cancel cancel => p.cancel cancel
  | .receipt receipt => p.observeReceipt receipt

def fold (p : CommandProjection) : Input → CommandApplyStatus × CommandProjection
  | .frame frame => p.foldFrame frame
  | .image image => p.applyProjection image

/-- The id of the frame has been seen. A submit has the id of its command. -/
def Seen (p : CommandProjection) : Frame → Prop
  | .submit s => p.entry s.commandId ≠ none
  | .event e => e.eventId ∈ p.seenEventIds
  | .cancel c => c.causationId ∈ p.seenCancelIds
  | .receipt r => r.receiptId ∈ p.seenReceiptIds

/-- The status of a command, whether it is terminal, and the kind of the answer to a call. -/
def view (p : CommandProjection) (id : String) : Option (CommandStatus × Bool) × CallStateKind :=
  ((p.entry id).map fun entry => (entry.status, entry.terminal), (p.pollCall id).kind)

def foldAll (p : CommandProjection) (inputs : List Input) : CommandProjection :=
  inputs.foldl (fun p input => (p.fold input).2) p

def foldFrames (p : CommandProjection) (frames : List Frame) : CommandProjection :=
  frames.foldl (fun p frame => (p.foldFrame frame).2) p

variable {p : CommandProjection}

theorem foldAll_append (inputs inputs' : List Input) :
    p.foldAll (inputs ++ inputs') = (p.foldAll inputs).foldAll inputs' :=
  foldl_append

theorem foldAll_concat (inputs : List Input) (input : Input) :
    p.foldAll (inputs ++ [input]) = ((p.foldAll inputs).fold input).2 :=
  foldAll_append inputs [input]

theorem foldFrames_concat (frames : List Frame) (frame : Frame) :
    p.foldFrames (frames ++ [frame]) = ((p.foldFrames frames).foldFrame frame).2 := by
  simp [foldFrames, foldl_append]

/-! ## Guards -/

/-- What holds of the three ways in which the guards answer, and of the body, holds. -/
theorem guarded_cases {motive : CommandApplyStatus × CommandProjection → Prop} {seen : Prop}
    [Decidable seen] {commandId : String} {generation : ℤ}
    {body : CommandProjectionEntry → CommandApplyStatus × CommandProjection}
    (hseen : seen → motive (.duplicate, p))
    (hunknown : ¬ seen → p.entry commandId = none → motive (.unknown, p))
    (hstale : ¬ seen → ∀ entry, p.entry commandId = some entry → generation ≠ entry.generation →
      motive (.staleGeneration, { p with lastStale := some ⟨entry.generation, generation⟩ }))
    (hbody : ¬ seen → ∀ entry, p.entry commandId = some entry → generation = entry.generation → motive (body entry)) :
    motive (p.guarded seen commandId generation body) := by
  unfold guarded
  split
  · next h => exact hseen h
  · next h =>
    split
    · next hnone => exact hunknown h hnone
    · next entry hentry =>
      split
      · next hne => exact hstale h entry hentry hne
      · next heq => exact hbody h entry hentry (not_not.mp heq)

/-! ## Messages -/

/-! ## Images -/

section

variable (commands : List CommandProjectionEntry)

theorem entries_foldl_applyEntry :
    (commands.foldl applyEntry p).entries = p.entries.putAll commands := by
  induction commands generalizing p with
  | nil => rfl
  | cons entry commands ih => exact ih

theorem mem_seenEventIds_foldl_applyEntry (id : String) : id ∈ (commands.foldl applyEntry p).seenEventIds ↔
      id ∈ p.seenEventIds ∨ ∃ entry ∈ commands, entry.lastEventId = some id := by
  induction commands generalizing p with
  | nil => simp
  | cons entry commands ih =>
    have hone : id ∈ (p.applyEntry entry).seenEventIds ↔ id ∈ p.seenEventIds ∨ entry.lastEventId = some id := by
      unfold applyEntry
      cases entry.lastEventId with
      | none => simp
      | some last => simp [or_comm, eq_comm]
    rw [foldl_cons, ih, hone]
    simp only [mem_cons, exists_eq_or_imp, or_assoc]

theorem mem_seenReceiptIds_foldl_applyEntry (id : String) : id ∈ (commands.foldl applyEntry p).seenReceiptIds ↔
      id ∈ p.seenReceiptIds ∨ ∃ entry ∈ commands, entry.terminalReceiptId = some id := by
  induction commands generalizing p with
  | nil => simp
  | cons entry commands ih =>
    have hone : id ∈ (p.applyEntry entry).seenReceiptIds ↔
        id ∈ p.seenReceiptIds ∨ entry.terminalReceiptId = some id := by
      unfold applyEntry
      cases entry.terminalReceiptId with
      | none => simp
      | some last => simp [or_comm, eq_comm]
    rw [foldl_cons, ih, hone]
    simp only [mem_cons, exists_eq_or_imp, or_assoc]

theorem conflicts_foldl_applyEntry :
    (commands.foldl applyEntry p).conflicts = p.conflicts := by
  induction commands generalizing p with
  | nil => rfl
  | cons entry commands ih => exact ih

theorem seenCancelIds_foldl_applyEntry :
    (commands.foldl applyEntry p).seenCancelIds = p.seenCancelIds := by
  induction commands generalizing p with
  | nil => rfl
  | cons entry commands ih => exact ih

end

end CommandProjection

/-- The entry that an image has for a command: its last one, as later entries replace earlier ones. -/
def CommandProjectionImage.entry (image : CommandProjectionImage) (commandId : String) :
    Option CommandProjectionEntry :=
  image.commands.reverse.find? fun entry => entry.commandId = commandId

/-- What an image has an entry for is as the image says. -/
theorem CommandProjection.entry_applyProjection (p : CommandProjection)
    (image : CommandProjectionImage) (commandId : String) :
    (p.applyProjection image).2.entry commandId = (image.entry commandId).or (p.entry commandId) := by
  unfold applyProjection entry
  rw [entries_foldl_applyEntry, Table.get?_putAll]
  rfl

def run (inputs : List Input) : CommandProjection :=
  ({} : CommandProjection).foldAll inputs

theorem run_concat (inputs : List Input) (input : Input) : run (inputs ++ [input]) = ((run inputs).fold input).2 :=
  CommandProjection.foldAll_concat inputs input

theorem commandId_of_entry {p : CommandProjection} {id : String} {entry : CommandProjectionEntry}
    (h : p.entry id = some entry) : entry.commandId = id :=
  Table.key_of_get? h

end LazilyPy.Command

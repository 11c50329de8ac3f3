import LazilyPy.Command.Projection
import LazilyPy.Lib.Throughout

/-!
# Terminal commands

Whether a command that is terminal stays as its terminal receipt has made it.
-/

namespace LazilyPy.Command

open Option CommandProjectionEntry
open CommandProjection (entry_applyProjection guarded_cases pollCall terminalFor)

def CommandProjectionEntry.outcome (entry : CommandProjectionEntry) :
    Bool × CommandStatus × Option String × Option String :=
  (entry.terminal, entry.status, entry.reason, entry.terminalReceiptId)

/-- What is terminal in `p` is terminal in `later`, with the same outcome. -/
def Kept (p later : CommandProjection) : Prop :=
  ∀ id entry, p.terminalFor id = some entry →
    ∃ entry', later.terminalFor id = some entry' ∧ entry'.outcome = entry.outcome

/-- A call for a command that is terminal in `p` is not pending in `later`, and has no other status. -/
def Answered (p later : CommandProjection) : Prop :=
  ∀ id entry, p.terminalFor id = some entry → later.pollCall id ≠ .pending ∧
    ∀ entry', later.pollCall id = .resolved entry' → entry'.status = entry.status

/-- What is terminal at some moment of a run is the same at every later one. -/
def Stable (inputs : List Input) : Prop :=
  ∀ before later, before <+: later → later <+: inputs →
    Kept (run before) (run later) ∧ Answered (run before) (run later)

/-- An image has the outcome that is there for every command that is terminal. -/
def Agrees (p : CommandProjection) : Input → Prop
  | .frame _ => True
  | .image image => ∀ id entry entry', p.terminalFor id = some entry → image.entry id = some entry' →
      entry'.outcome = entry.outcome

variable {p later : CommandProjection}

theorem terminalFor_eq_some {id : String} {entry : CommandProjectionEntry} :
    p.terminalFor id = some entry ↔ p.entry id = some entry ∧ entry.terminal = true :=
  filter_eq_some_iff

namespace Kept

theorem refl (p : CommandProjection) : Kept p p :=
  fun _ entry h => ⟨entry, h, rfl⟩

theorem trans {q : CommandProjection} (h : Kept p q) (h' : Kept q later) : Kept p later := by
  intro id entry hentry
  obtain ⟨entry', hentry', hout⟩ := h id entry hentry
  obtain ⟨entry'', hentry'', hout'⟩ := h' id entry' hentry'
  exact ⟨entry'', hentry'', hout'.trans hout⟩

/-- The same entries. -/
theorem of_entries (h : later.entries = p.entries) : Kept p later := by
  intro id entry hentry
  rw [terminalFor, CommandProjection.entry, ← h] at hentry
  exact ⟨entry, hentry, rfl⟩

/-- One entry is replaced. If it is terminal its outcome stays. -/
theorem of_put {entry : CommandProjectionEntry} (entry' : CommandProjectionEntry)
    (hentry : p.entry entry'.commandId = some entry)
    (hout : entry.terminal = true → entry'.outcome = entry.outcome)
    (hlater : later.entries = p.entries.put entry') : Kept p later := by
  intro id old hold
  obtain ⟨hold, hterminal⟩ := terminalFor_eq_some.mp hold
  have hlookup : later.entry id = if id = entry'.commandId then some entry' else p.entry id := by
    rw [CommandProjection.entry, hlater, Table.get?_put]
    rfl
  by_cases hid : id = entry'.commandId
  · subst hid
    obtain rfl : entry = old := some.inj (hentry.symm.trans hold)
    have hsame := hout hterminal
    have hkeeps : entry'.terminal = true := (congrArg Prod.fst hsame).trans hterminal
    exact ⟨entry', terminalFor_eq_some.mpr ⟨by rw [hlookup, if_pos rfl], hkeeps⟩, hsame⟩
  · exact ⟨old, terminalFor_eq_some.mpr ⟨by rw [hlookup, if_neg hid, hold], hterminal⟩, rfl⟩

/-- A call resolves to what is terminal. -/
theorem answered (h : Kept p later) : Answered p later := by
  intro id entry hentry
  obtain ⟨entry', hentry', hout⟩ := h id entry hentry
  have hstatus : entry'.status = entry.status := congrArg (·.2.1) hout
  unfold pollCall
  rw [hentry']
  split
  · exact ⟨by simp, by simp⟩
  · refine ⟨by simp, ?_⟩
    rintro entry'' heq
    obtain rfl : entry' = entry'' := CallState.resolved.inj heq
    exact hstatus

end Kept

/-! ## Frames -/

theorem kept_submit (submit : CommandSubmit) : Kept p (p.submit submit).2 := by
  unfold CommandProjection.submit
  split
  · exact .refl p
  · next hnone =>
    rintro id entry hentry
    obtain ⟨hentry, hterminal⟩ := terminalFor_eq_some.mp hentry
    refine ⟨entry, terminalFor_eq_some.mpr ⟨?_, hterminal⟩, rfl⟩
    have hne : id ≠ submit.commandId := by
      rintro rfl
      rw [hnone] at hentry
      exact nomatch hentry
    rw [CommandProjection.entry, Table.get?_put, if_neg hne]
    exact hentry

theorem kept_event (event : CommandEvent) : Kept p (p.event event).2 := by
  refine guarded_cases (motive := fun answer => Kept p answer.2)
    (fun _ => .refl p) (fun _ _ => .refl p) (fun _ _ _ _ => .of_entries rfl) fun _ entry hentry _ => ?_
  have hown : p.entry entry.commandId = some entry := commandId_of_entry hentry ▸ hentry
  have hprogress : p.entry (entry.progress event).commandId = some entry := by
    rw [progress_eq]
    exact hown
  refine .of_put (entry.progress event) hprogress (fun hterminal => ?_) rfl
  rw [progress_eq, status_progress_of_terminal hterminal]
  rfl

theorem kept_cancel (cancel : CommandCancel) : Kept p (p.cancel cancel).2 :=
  guarded_cases (motive := fun answer => Kept p answer.2)
    (fun _ => .refl p) (fun _ _ => .refl p) (fun _ _ _ _ => .of_entries rfl) fun _ _ _ _ => .of_entries rfl

theorem kept_observeReceipt (receipt : CausalReceipt) : Kept p (p.observeReceipt receipt).2 := by
  refine guarded_cases (motive := fun answer => Kept p answer.2)
    (fun _ => .refl p) (fun _ _ => .refl p) (fun _ _ _ _ => .of_entries rfl) fun _ entry hentry _ => ?_
  have hown : p.entry entry.commandId = some entry := commandId_of_entry hentry ▸ hentry
  dsimp only
  split
  · have hadvance : p.entry (entry.advance .accepted).commandId = some entry := by
      rw [advance_eq]
      exact hown
    refine .of_put (entry.advance .accepted) hadvance (fun hterminal => ?_) rfl
    rw [advance_of_terminal hterminal]
  · split
    · split
      · exact .of_entries rfl
      · exact .of_entries rfl
    · next hnot =>
      exact .of_put (entry.complete receipt) hown (fun hterminal => absurd hterminal hnot) rfl

/-- Frames and receipts keep what is terminal. -/
theorem kept_foldFrame (frame : Frame) : Kept p (p.foldFrame frame).2 := by
  cases frame with
  | submit submit => exact kept_submit submit
  | event event => exact kept_event event
  | cancel cancel => exact kept_cancel cancel
  | receipt receipt => exact kept_observeReceipt receipt

/-! ## Images -/

/-- An image keeps what is terminal exactly if it agrees with it. -/
theorem kept_applyProjection {image : CommandProjectionImage} :
    Kept p (p.applyProjection image).2 ↔ Agrees p (.image image) := by
  constructor
  · rintro h id entry entry' hentry hentry'
    obtain ⟨now, hnow, hout⟩ := h id entry hentry
    have hlookup := (terminalFor_eq_some.mp hnow).1
    rw [entry_applyProjection, hentry', some_or] at hlookup
    rw [some.inj hlookup]
    exact hout
  · rintro h id entry hentry
    obtain ⟨hold, hterminal⟩ := terminalFor_eq_some.mp hentry
    cases hentry' : image.entry id with
    | none =>
      refine ⟨entry, terminalFor_eq_some.mpr ⟨?_, hterminal⟩, rfl⟩
      rw [entry_applyProjection, hentry', none_or, hold]
    | some entry' =>
      have hout := h id entry entry' hentry hentry'
      refine ⟨entry', terminalFor_eq_some.mpr ⟨?_, (congrArg Prod.fst hout).trans hterminal⟩, hout⟩
      rw [entry_applyProjection, hentry', some_or]

theorem kept_fold {input : Input} : Kept p (p.fold input).2 ↔ Agrees p input := by
  cases input with
  | frame frame => exact iff_of_true (kept_foldFrame frame) trivial
  | image image => exact kept_applyProjection

/-! ## Runs -/

/-- Where all images agree, what is terminal is kept from any moment on. -/
theorem kept_run {before after : List Input}
    (h : Throughout (fun before input => Agrees (run before) input) (before ++ after)) :
    Kept (run before) (run (before ++ after)) := by
  induction after using List.reverseRecOn with
  | nil => simpa using Kept.refl (run before)
  | append_singleton after input ih =>
    rw [← List.append_assoc] at h ⊢
    obtain ⟨hbefore, hinput⟩ := throughout_concat.mp h
    rw [run_concat]
    exact (ih hbefore).trans (kept_fold.mpr hinput)

/-- Commands that are terminal are stable if and only if every image that is folded agrees with what is
terminal by then. -/
theorem stable_iff (inputs : List Input) :
    Stable inputs ↔ Throughout (fun before input => Agrees (run before) input) inputs := by
  constructor
  · rintro h before input after rfl
    have hkept := (h before (before ++ [input]) (List.prefix_append _ _) (by simp)).1
    rw [run_concat] at hkept
    exact kept_fold.mp hkept
  · rintro h before later ⟨middle, rfl⟩ ⟨rest, rfl⟩
    have hkept := kept_run h.of_append
    exact ⟨hkept, hkept.answered⟩

def applied : List Input :=
  [.frame (.submit ⟨"c1", 1⟩), .frame completed]

/-- An image that the authority has taken before the receipt opens the command again. -/
theorem not_always_stable : ¬ ∀ authority inputs : List Input,
    (∀ image, Input.image image ∈ inputs → ∃ n, image = (run (authority.take n)).toImage) → Stable inputs := by
  intro h
  have hstable := h applied (applied ++ [.image (run (applied.take 1)).toImage]) (by
    intro image hin
    refine ⟨1, ?_⟩
    simpa [applied] using hin)
  have hanswered := (hstable applied _ (List.prefix_append _ _) List.prefix_rfl).2
  have hpoll := (hanswered "c1" ⟨"c1", .applied, true, 1, none, some "r1", none⟩ (by decide)).1
  exact hpoll (by decide)

end LazilyPy.Command

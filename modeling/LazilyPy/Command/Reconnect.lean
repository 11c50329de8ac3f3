import LazilyPy.Command.Projection
import LazilyPy.Lib.Throughout
import Mathlib.Data.Finset.Basic

/-!
# Reconnecting

A fresh projection that has folded the image of another one. The image has the entries, each with the
last event and the terminal receipt of its command, but not the other ids that have been seen, and not
the conflicts.
-/

namespace LazilyPy.Command

open List
open CommandProjection (Seen conflicts_foldl_applyEntry foldFrames_concat guarded_cases pollCall terminalFor)

structure Lost where
  events : Finset String
  receipts : Finset String
  cancels : Finset String

def Lost.Has (lost : Lost) : Frame → Prop
  | .submit _ => False
  | .event e => e.eventId ∈ lost.events
  | .cancel c => c.causationId ∈ lost.cancels
  | .receipt r => r.receiptId ∈ lost.receipts

namespace CommandProjection

def reconnect (p : CommandProjection) : CommandProjection :=
  (({} : CommandProjection).applyProjection p.toImage).2

def lost (p : CommandProjection) : Lost where
  events := p.seenEventIds.filter fun id => ∀ e ∈ p.entries.rows, e.lastEventId ≠ some id
  receipts := p.seenReceiptIds.filter fun id => ∀ e ∈ p.entries.rows, e.terminalReceiptId ≠ some id
  cancels := p.seenCancelIds

end CommandProjection

/-- Frame by frame the same answers, and the same views after each frame. -/
def Transparent (p q : CommandProjection) (frames : List Frame) : Prop :=
  Throughout (fun before frame => ((p.foldFrames before).foldFrame frame).1 =
    ((q.foldFrames before).foldFrame frame).1) frames ∧
  ∀ before, before <+: frames → (p.foldFrames before).view = (q.foldFrames before).view

variable {p q : CommandProjection}

/-! ## Duplicates -/

theorem duplicate_guarded {seen : Prop} [Decidable seen] {commandId : String} {generation : ℤ}
    {body : CommandProjectionEntry → CommandApplyStatus × CommandProjection}
    (hbody : ∀ entry, (body entry).1 ≠ .duplicate) :
    (p.guarded seen commandId generation body).1 = .duplicate ↔ seen :=
  guarded_cases (motive := fun answer => answer.1 = .duplicate ↔ seen)
    (fun h => iff_of_true rfl h) (fun h _ => iff_of_false (by simp) h)
    (fun h _ _ _ => iff_of_false (by simp) h) fun h entry _ _ => iff_of_false (hbody entry) h

/-- A frame is a duplicate exactly if its id has been seen. -/
theorem duplicate_iff (frame : Frame) : (p.foldFrame frame).1 = .duplicate ↔ p.Seen frame := by
  cases frame with
  | submit s =>
    simp only [CommandProjection.foldFrame, CommandProjection.submit, Seen]
    cases p.entry s.commandId with
    | none => simp
    | some entry => simp
  | event e => exact duplicate_guarded fun _ => by simp
  | cancel c => exact duplicate_guarded fun _ => by simp
  | receipt r =>
    refine duplicate_guarded fun entry => ?_
    dsimp only
    split
    · simp
    · split
      · split
        · simp
        · simp
      · simp

/-! ## Simulation -/

/-- `q` is as `p`, but has not seen the ids that have been lost. -/
structure Sim (lost : Lost) (p q : CommandProjection) : Prop where
  entry : ∀ id, p.entry id = q.entry id
  conflicts : p.conflicts = q.conflicts
  events : q.seenEventIds = p.seenEventIds \ lost.events
  receipts : q.seenReceiptIds = p.seenReceiptIds \ lost.receipts
  cancels : q.seenCancelIds = p.seenCancelIds \ lost.cancels
  seen : lost.events ⊆ p.seenEventIds ∧ lost.receipts ⊆ p.seenReceiptIds ∧ lost.cancels ⊆ p.seenCancelIds

namespace Sim

variable {lost : Lost}

theorem view (h : Sim lost p q) : p.view = q.view := by
  funext id
  have hpoll : p.pollCall id = q.pollCall id := by
    unfold pollCall terminalFor
    rw [h.entry, h.conflicts]
  unfold CommandProjection.view
  rw [h.entry, hpoll]

theorem entry_put (h : Sim lost p q) (new : CommandProjectionEntry) (id : String) :
    (p.entries.put new).get? id = (q.entries.put new).get? id := by
  rw [Table.get?_put, Table.get?_put]
  split
  · rfl
  · exact h.entry id

/-- An id that has not been lost has been seen by both or by none. -/
theorem seen_iff (h : Sim lost p q) {frame : Frame} (hlost : ¬ lost.Has frame) : p.Seen frame ↔ q.Seen frame := by
  cases frame with
  | submit s => simp only [Seen, h.entry]
  | event e =>
    simp only [Seen, h.events, Finset.mem_sdiff]
    exact (and_iff_left hlost).symm
  | cancel c =>
    simp only [Seen, h.cancels, Finset.mem_sdiff]
    exact (and_iff_left hlost).symm
  | receipt r =>
    simp only [Seen, h.receipts, Finset.mem_sdiff]
    exact (and_iff_left hlost).symm

/-- An id that has been lost has been seen by `p` alone. -/
theorem seen_of_lost (h : Sim lost p q) {frame : Frame} (hlost : lost.Has frame) : p.Seen frame ∧ ¬ q.Seen frame := by
  obtain ⟨hevents, hreceipts, hcancels⟩ := h.seen
  cases frame with
  | submit s => exact hlost.elim
  | event e =>
    refine ⟨hevents hlost, fun hseen => ?_⟩
    rw [Seen, h.events] at hseen
    exact (Finset.mem_sdiff.mp hseen).2 hlost
  | cancel c =>
    refine ⟨hcancels hlost, fun hseen => ?_⟩
    rw [Seen, h.cancels] at hseen
    exact (Finset.mem_sdiff.mp hseen).2 hlost
  | receipt r =>
    refine ⟨hreceipts hlost, fun hseen => ?_⟩
    rw [Seen, h.receipts] at hseen
    exact (Finset.mem_sdiff.mp hseen).2 hlost

/-- The guards answer alike, and so do the bodies. -/
theorem guarded (h : Sim lost p q) {seen seen' : Prop} [Decidable seen] [Decidable seen']
    (hseen : seen ↔ seen') {commandId : String} {generation : ℤ}
    {body body' : CommandProjectionEntry → CommandApplyStatus × CommandProjection}
    (hbody : ∀ entry, (body entry).1 = (body' entry).1 ∧ Sim lost (body entry).2 (body' entry).2) :
    (p.guarded seen commandId generation body).1 = (q.guarded seen' commandId generation body').1 ∧
      Sim lost (p.guarded seen commandId generation body).2
        (q.guarded seen' commandId generation body').2 := by
  unfold CommandProjection.guarded
  rw [← h.entry commandId]
  by_cases hs : seen
  · rw [if_pos hs, if_pos (hseen.mp hs)]
    exact ⟨rfl, h⟩
  · rw [if_neg hs, if_neg fun hs' => hs (hseen.mpr hs')]
    cases p.entry commandId with
    | none => exact ⟨rfl, h⟩
    | some entry =>
      dsimp only
      split
      · exact ⟨rfl, ⟨h.entry, h.conflicts, h.events, h.receipts, h.cancels, h.seen⟩⟩
      · exact hbody entry

theorem insert_sdiff {s t : Finset String} {gone : Finset String} {id : String} (h : t = s \ gone)
    (hid : id ∉ gone) : insert id t = insert id s \ gone := by
  rw [h, Finset.insert_sdiff_of_notMem _ hid]

/-- A frame whose id has not been lost gets the same answer, and changes both alike. -/
theorem foldFrame (h : Sim lost p q) {frame : Frame} (hlost : ¬ lost.Has frame) :
    (p.foldFrame frame).1 = (q.foldFrame frame).1 ∧ Sim lost (p.foldFrame frame).2 (q.foldFrame frame).2 := by
  obtain ⟨hevents, hreceipts, hcancels⟩ := h.seen
  cases frame with
  | submit s =>
    simp only [CommandProjection.foldFrame, CommandProjection.submit, ← h.entry]
    cases p.entry s.commandId with
    | some entry => exact ⟨rfl, h⟩
    | none =>
      exact ⟨rfl, ⟨h.entry_put _, h.conflicts, h.events, h.receipts, h.cancels, h.seen⟩⟩
  | event e =>
    have hseen : e.eventId ∈ p.seenEventIds ↔ e.eventId ∈ q.seenEventIds := h.seen_iff hlost
    refine h.guarded hseen fun entry => ⟨rfl, ?_⟩
    exact ⟨h.entry_put _, h.conflicts, insert_sdiff h.events hlost, h.receipts, h.cancels,
      hevents.trans (Finset.subset_insert _ _), hreceipts, hcancels⟩
  | cancel c =>
    have hseen : c.causationId ∈ p.seenCancelIds ↔ c.causationId ∈ q.seenCancelIds := h.seen_iff hlost
    refine h.guarded hseen fun entry => ⟨rfl, ?_⟩
    exact ⟨h.entry, h.conflicts, h.events, h.receipts, insert_sdiff h.cancels hlost,
      hevents, hreceipts, hcancels.trans (Finset.subset_insert _ _)⟩
  | receipt r =>
    have hseen : r.receiptId ∈ p.seenReceiptIds ↔ r.receiptId ∈ q.seenReceiptIds := h.seen_iff hlost
    have hmore := hreceipts.trans (Finset.subset_insert r.receiptId p.seenReceiptIds)
    have hids := insert_sdiff h.receipts hlost
    refine h.guarded hseen fun entry => ?_
    dsimp only
    split
    · exact ⟨rfl, ⟨h.entry_put _, h.conflicts, h.events, hids, h.cancels, hevents, hmore, hcancels⟩⟩
    · split
      · split
        · exact ⟨rfl, ⟨h.entry, h.conflicts, h.events, hids, h.cancels, hevents, hmore, hcancels⟩⟩
        · have hconflicts := congrArg (insert r.causationId) h.conflicts
          exact ⟨rfl, ⟨h.entry, hconflicts, h.events, h.receipts, h.cancels, h.seen⟩⟩
      · exact ⟨rfl, ⟨h.entry_put _, h.conflicts, h.events, hids, h.cancels, hevents, hmore, hcancels⟩⟩

/-- Frames whose ids have not been lost. -/
theorem foldFrames (h : Sim lost p q) {frames : List Frame} (hlost : ∀ f ∈ frames, ¬ lost.Has f) :
    Sim lost (p.foldFrames frames) (q.foldFrames frames) := by
  induction frames using reverseRecOn with
  | nil => exact h
  | append_singleton frames frame ih =>
    rw [foldFrames_concat, foldFrames_concat]
    have hbefore := ih fun f hf => hlost f (mem_append_left _ hf)
    exact (hbefore.foldFrame (hlost frame (by simp))).2

end Sim

/-! ## Images of reachable projections -/

structure Named (p : CommandProjection) : Prop where
  events : ∀ e ∈ p.entries.rows, ∀ id, e.lastEventId = some id → id ∈ p.seenEventIds
  receipts : ∀ e ∈ p.entries.rows, ∀ id, e.terminalReceiptId = some id → id ∈ p.seenReceiptIds

namespace Named

/-- An entry that is put names ids that are seen by then. -/
theorem put (h : Named p) {new : CommandProjectionEntry} (hentries : q.entries = p.entries.put new)
    (hevents : p.seenEventIds ⊆ q.seenEventIds) (hreceipts : p.seenReceiptIds ⊆ q.seenReceiptIds)
    (hevent : ∀ id, new.lastEventId = some id → id ∈ q.seenEventIds)
    (hreceipt : ∀ id, new.terminalReceiptId = some id → id ∈ q.seenReceiptIds) : Named q := by
  constructor
  · intro e he
    rw [hentries] at he
    obtain rfl | ⟨he, _⟩ := Table.mem_put.mp he
    · exact hevent
    · exact fun id hid => hevents (h.events e he id hid)
  · intro e he
    rw [hentries] at he
    obtain rfl | ⟨he, _⟩ := Table.mem_put.mp he
    · exact hreceipt
    · exact fun id hid => hreceipts (h.receipts e he id hid)

/-- The entries stay as they are. -/
theorem mono (h : Named p) (hentries : q.entries = p.entries)
    (hevents : p.seenEventIds ⊆ q.seenEventIds) (hreceipts : p.seenReceiptIds ⊆ q.seenReceiptIds) :
    Named q :=
  ⟨fun e he id hid => hevents (h.events e (hentries ▸ he) id hid),
    fun e he id hid => hreceipts (h.receipts e (hentries ▸ he) id hid)⟩

theorem submit (h : Named p) (s : CommandSubmit) : Named (p.submit s).2 := by
  unfold CommandProjection.submit
  split
  · exact h
  · exact h.put rfl subset_rfl subset_rfl (fun id hid => nomatch hid) fun id hid => nomatch hid

theorem event (h : Named p) (e : CommandEvent) : Named (p.event e).2 := by
  refine guarded_cases (motive := fun answer => Named answer.2) (fun _ => h)
    (fun _ _ => h) (fun _ _ _ _ => h.mono rfl subset_rfl subset_rfl) fun _ entry hentry _ => ?_
  refine h.put rfl (Finset.subset_insert _ _) subset_rfl ?_ ?_
  · intro id hid
    rw [CommandProjectionEntry.progress_eq] at hid
    exact Option.some.inj hid ▸ Finset.mem_insert_self _ _
  · intro id hid
    rw [CommandProjectionEntry.progress_eq] at hid
    exact h.receipts entry (Table.mem_of_get? hentry) id hid

theorem cancel (h : Named p) (c : CommandCancel) : Named (p.cancel c).2 :=
  guarded_cases (motive := fun answer => Named answer.2) (fun _ => h) (fun _ _ => h)
    (fun _ _ _ _ => h.mono rfl subset_rfl subset_rfl) fun _ _ _ _ => h.mono rfl subset_rfl subset_rfl

theorem observeReceipt (h : Named p) (r : CausalReceipt) : Named (p.observeReceipt r).2 := by
  refine guarded_cases (motive := fun answer => Named answer.2) (fun _ => h)
    (fun _ _ => h) (fun _ _ _ _ => h.mono rfl subset_rfl subset_rfl) fun _ entry hentry _ => ?_
  have hin : entry ∈ p.entries.rows := Table.mem_of_get? hentry
  have hmore : p.seenReceiptIds ⊆ insert r.receiptId p.seenReceiptIds := Finset.subset_insert _ _
  dsimp only
  split
  · refine h.put rfl subset_rfl hmore ?_ ?_
    · rw [CommandProjectionEntry.advance_eq]
      exact h.events entry hin
    · rw [CommandProjectionEntry.advance_eq]
      exact fun id hid => hmore (h.receipts entry hin id hid)
  · split
    · split
      · exact h.mono rfl subset_rfl hmore
      · exact h.mono rfl subset_rfl subset_rfl
    · refine h.put rfl subset_rfl hmore (h.events entry hin) fun id hid => ?_
      exact Option.some.inj hid ▸ Finset.mem_insert_self _ _

theorem applyEntry (h : Named p) (entry : CommandProjectionEntry) : Named (p.applyEntry entry) := by
  refine h.put rfl ?_ ?_ ?_ ?_
  · unfold CommandProjection.applyEntry
    cases entry.lastEventId with
    | none => exact subset_rfl
    | some id => exact Finset.subset_insert _ _
  · unfold CommandProjection.applyEntry
    cases entry.terminalReceiptId with
    | none => exact subset_rfl
    | some id => exact Finset.subset_insert _ _
  · intro id hid
    simp [CommandProjection.applyEntry, hid]
  · intro id hid
    simp [CommandProjection.applyEntry, hid]

theorem applyProjection (h : Named p) (image : CommandProjectionImage) : Named (p.applyProjection image).2 := by
  have hstart : Named { p with generation := max p.generation image.generation } :=
    h.mono rfl subset_rfl subset_rfl
  show Named (image.commands.foldl CommandProjection.applyEntry _)
  generalize image.commands = commands
  induction commands using reverseRecOn with
  | nil => exact hstart
  | append_singleton commands entry ih =>
    rw [foldl_append]
    exact ih.applyEntry entry

end Named

theorem named_run (inputs : List Input) : Named (run inputs) := by
  induction inputs using reverseRecOn with
  | nil => exact ⟨fun e he => absurd he not_mem_nil, fun e he => absurd he not_mem_nil⟩
  | append_singleton inputs input ih =>
    rw [run_concat]
    cases input with
    | frame frame =>
      cases frame with
      | submit s => exact ih.submit s
      | event e => exact ih.event e
      | cancel c => exact ih.cancel c
      | receipt r => exact ih.observeReceipt r
    | image image => exact ih.applyProjection image

/-- In every run the events and the receipts that the entries name are recognized when they come again. -/
theorem named_ids_seen (inputs : List Input) :
    (∀ e ∈ (run inputs).entries.rows, ∀ id, e.lastEventId = some id → id ∈ (run inputs).seenEventIds) ∧
      ∀ e ∈ (run inputs).entries.rows, ∀ id, e.terminalReceiptId = some id → id ∈ (run inputs).seenReceiptIds :=
  ⟨(named_run inputs).events, (named_run inputs).receipts⟩

theorem toImage_perm (p : CommandProjection) : p.toImage.commands.Perm p.entries.rows :=
  perm_insertionSort _ _

theorem mem_toImage {e : CommandProjectionEntry} : e ∈ p.toImage.commands ↔ e ∈ p.entries.rows :=
  (toImage_perm p).mem_iff

/-- An image has the entries. -/
theorem entry_reconnect (id : String) : p.reconnect.entry id = p.entry id := by
  unfold CommandProjection.reconnect CommandProjection.applyProjection CommandProjection.entry
  rw [CommandProjection.entries_foldl_applyEntry]
  exact Table.get?_putAll_of_perm (toImage_perm p) id

/-- Without conflicts, a fresh projection that has folded the image is as the original one, but for the
ids that the image does not name. -/
theorem sim_reconnect (h : Named p) (hconflicts : p.conflicts = ∅) : Sim p.lost p p.reconnect := by
  refine ⟨fun id => (entry_reconnect id).symm, ?_, ?_, ?_, ?_, Finset.filter_subset _ _,
    Finset.filter_subset _ _, subset_rfl⟩
  · rw [CommandProjection.reconnect, CommandProjection.applyProjection, conflicts_foldl_applyEntry, hconflicts]
  · ext id
    rw [CommandProjection.reconnect, CommandProjection.applyProjection,
      CommandProjection.mem_seenEventIds_foldl_applyEntry]
    simp only [mem_toImage, CommandProjection.lost, Finset.mem_sdiff, Finset.mem_filter, Finset.notMem_empty, false_or]
    constructor
    · rintro ⟨e, he, hid⟩
      exact ⟨h.events e he id hid, fun hlost => hlost.2 e he hid⟩
    · rintro ⟨hseen, hnot⟩
      by_contra hnone
      exact hnot ⟨hseen, fun e he hid => hnone ⟨e, he, hid⟩⟩
  · ext id
    rw [CommandProjection.reconnect, CommandProjection.applyProjection,
      CommandProjection.mem_seenReceiptIds_foldl_applyEntry]
    simp only [mem_toImage, CommandProjection.lost, Finset.mem_sdiff, Finset.mem_filter, Finset.notMem_empty, false_or]
    constructor
    · rintro ⟨e, he, hid⟩
      exact ⟨h.receipts e he id hid, fun hlost => hlost.2 e he hid⟩
    · rintro ⟨hseen, hnot⟩
      by_contra hnone
      exact hnot ⟨hseen, fun e he hid => hnone ⟨e, he, hid⟩⟩
  · rw [CommandProjection.reconnect, CommandProjection.applyProjection,
      CommandProjection.seenCancelIds_foldl_applyEntry]
    exact (Finset.sdiff_self _).symm

/-! ## Transparency -/

/-- A conflict is answered as such by the original projection alone. -/
theorem conflicts_of_view (h : p.view = p.reconnect.view) : p.conflicts = ∅ := by
  rw [Finset.eq_empty_iff_forall_notMem]
  intro id hid
  have hkind := congrArg Prod.snd (congrFun h id)
  have hnone : p.reconnect.conflicts = ∅ := conflicts_foldl_applyEntry p.toImage.commands
  simp only [CommandProjection.view, pollCall, hid, if_true, hnone, Finset.notMem_empty, if_false] at hkind
  revert hkind
  cases p.reconnect.terminalFor id with
  | none => simp [CallState.kind]
  | some e => simp [CallState.kind]

/-- Whatever has been folded before, a reconnect cannot be noticed by the frames that follow if and only
if there is no conflict and no frame repeats an id that has been seen and that the image does not
name. -/
theorem transparent_iff (inputs : List Input) (frames : List Frame) :
    Transparent (run inputs) (run inputs).reconnect frames ↔
      (run inputs).conflicts = ∅ ∧ ∀ f ∈ frames, ¬ (run inputs).lost.Has f := by
  constructor
  · rintro ⟨hanswers, hviews⟩
    have hconflicts := conflicts_of_view (hviews [] nil_prefix)
    have hsim := sim_reconnect (named_run inputs) hconflicts
    refine ⟨hconflicts, ?_⟩
    clear hviews
    induction frames using reverseRecOn with
    | nil => exact fun f hf => absurd hf not_mem_nil
    | append_singleton frames frame ih =>
      obtain ⟨hbefore, hsame⟩ := throughout_concat.mp hanswers
      have hnone := ih hbefore
      intro f hf hlost
      obtain hf | hf := mem_append.mp hf
      · exact hnone f hf hlost
      · -- the first frame whose id has been lost is a duplicate for the original projection alone
        obtain rfl := mem_singleton.mp hf
        obtain ⟨hseen, hnew⟩ := (hsim.foldFrames hnone).seen_of_lost hlost
        exact hnew ((duplicate_iff f).mp (hsame ▸ (duplicate_iff f).mpr hseen))
  · rintro ⟨hconflicts, hlost⟩
    have hsim := sim_reconnect (named_run inputs) hconflicts
    constructor
    · rintro before frame after rfl
      have hbefore := hsim.foldFrames fun f hf => hlost f (mem_append_left _ hf)
      exact (hbefore.foldFrame (hlost frame (by simp))).1
    · rintro before ⟨after, rfl⟩
      exact (hsim.foldFrames fun f hf => hlost f (mem_append_left _ hf)).view

def conflicting : List Input :=
  [.frame (.submit ⟨"c1", 1⟩), .frame completed, .frame refused]

/-- A call that is in conflict is resolved after a reconnect. -/
theorem not_always_transparent : ¬ ∀ (inputs : List Input) (frames : List Frame),
    Transparent (run inputs) (run inputs).reconnect frames := by
  intro h
  have hviews := (h conflicting []).2 [] nil_prefix
  have hkind : ((run conflicting).view "c1").2 = ((run conflicting).reconnect.view "c1").2 :=
    congrArg Prod.snd (congrFun hviews "c1")
  revert hkind
  decide

end LazilyPy.Command

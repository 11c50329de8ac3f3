import LazilyPy.Command.Projection

/-!
# Frames in any order

What a command comes to depends on which frames arrive, not on the order in which they do, nor on how
often.
-/

namespace LazilyPy.Command

open List Option
open CommandProjection (Seen guarded_cases pollCall terminalFor view)

namespace Frame

/-- The frame, not a submit, is one of the command `id`. -/
def Of (id : String) : Frame → Prop
  | .submit _ => False
  | .event e => e.commandId = id
  | .cancel c => c.commandId = id
  | .receipt r => r.causationId = id

def SameId : Frame → Frame → Prop
  | .event e, .event e' => e.eventId = e'.eventId
  | .cancel c, .cancel c' => c.causationId = c'.causationId
  | .receipt r, .receipt r' => r.receiptId = r'.receiptId
  | _, _ => False

def verdict (generation : ℤ) : Frame → Option CommandStatus
  | .receipt r =>
    if r.generation = generation ∧ r.outcome.isTerminal = true then
      some (terminalStatusOf r.outcome r.reason)
    else none
  | _ => none

/-- The status to which an event, or a receipt that is not terminal, makes a command of this generation
advance. -/
def progress (generation : ℤ) : Frame → Option CommandStatus
  | .event e => if e.generation = generation then progressStatusOf e.kind else none
  | .receipt r =>
    if r.generation = generation ∧ r.outcome.isTerminal = false then some .accepted else none
  | _ => none

theorem progress_eq_some {generation : ℤ} {f : Frame} {nxt : CommandStatus}
    (h : f.progress generation = some nxt) : nxt = .accepted ∨ nxt = .running := by
  cases f with
  | submit s => exact nomatch h
  | cancel c => exact nomatch h
  | event e =>
    simp only [progress] at h
    split at h
    · revert h
      cases e.kind <;> simp +contextual [progressStatusOf, eq_comm]
    · exact nomatch h
  | receipt r =>
    simp only [progress] at h
    split at h
    · exact .inl (some.inj h).symm
    · exact nomatch h

end Frame

def DistinctIds (frames : List Frame) : Prop :=
  ∀ f ∈ frames, ∀ g ∈ frames, f.SameId g → f = g

def Agreed (generation : ℤ) (frames : List Frame) : Prop :=
  ∀ f ∈ frames, ∀ g ∈ frames, ∀ status status', f.verdict generation = some status →
    g.verdict generation = some status' → status = status'

/-- The status to which these frames make a command advance that is not terminal. -/
structure Progressed (generation : ℤ) (frames : List Frame) (status : CommandStatus) : Prop where
  upper : ∀ f ∈ frames, ∀ nxt, f.progress generation = some nxt → phaseRank nxt ≤ phaseRank status
  attained : status = .submitted ∨ ∃ f ∈ frames, f.progress generation = some status

structure Folded (generation : ℤ) (frames : List Frame) (entry : CommandProjectionEntry) : Prop where
  generation_eq : entry.generation = generation
  terminal : entry.terminal = true → ∃ f ∈ frames, f.verdict generation = some entry.status
  nonterminal : entry.terminal = false →
    (∀ f ∈ frames, f.verdict generation = none) ∧ Progressed generation frames entry.status

/-- What a projection has come to for the command of `submit`. -/
structure Summary (submit : CommandSubmit) (frames : List Frame) (p : CommandProjection) : Prop where
  entry : ∃ entry, p.entry submit.commandId = some entry ∧ Folded submit.authorityGeneration frames entry
  conflicts : submit.commandId ∉ p.conflicts ↔ Agreed submit.authorityGeneration frames
  seen : ∀ f : Frame, f.Of submit.commandId → p.Seen f → ∃ g ∈ frames, f.SameId g

section

variable {generation : ℤ} {frames frames' : List Frame} {f : Frame} {entry : CommandProjectionEntry}
  {status nxt : CommandStatus}

/-! ## Verdicts -/

theorem Agreed.congr (h : ∀ f, f ∈ frames ↔ f ∈ frames') : Agreed generation frames ↔ Agreed generation frames' := by
  simp only [Agreed, h]

theorem agreed_concat_of_none (hf : f.verdict generation = none) :
    Agreed generation (frames ++ [f]) ↔ Agreed generation frames := by
  constructor
  · intro h g hg g' hg'
    exact h g (mem_append_left _ hg) g' (mem_append_left _ hg')
  · intro h g hg g' hg' status status' hv hv'
    obtain hg | hg := mem_append.mp hg
    · obtain hg' | hg' := mem_append.mp hg'
      · exact h g hg g' hg' status status' hv hv'
      · rw [mem_singleton.mp hg', hf] at hv'
        exact nomatch hv'
    · rw [mem_singleton.mp hg, hf] at hv
      exact nomatch hv

theorem agreed_concat_of_some (hf : f.verdict generation = some status) :
    Agreed generation (frames ++ [f]) ↔ Agreed generation frames ∧
      ∀ g ∈ frames, ∀ status', g.verdict generation = some status' → status' = status := by
  constructor
  · intro h
    constructor
    · intro g hg g' hg'
      exact h g (mem_append_left _ hg) g' (mem_append_left _ hg')
    · intro g hg status' hv
      exact h g (mem_append_left _ hg) f (by simp) status' status hv hf
  · rintro ⟨h, hone⟩ g hg g' hg' s s' hv hv'
    have heq : ∀ g ∈ frames ++ [f], ∀ s, g.verdict generation = some s → s = status := by
      intro g hg s hv
      obtain hg | hg := mem_append.mp hg
      · exact hone g hg s hv
      · rw [mem_singleton.mp hg, hf] at hv
        exact (some.inj hv).symm
    rw [heq g hg s hv, heq g' hg' s' hv']

/-! ## Progress -/

section

variable (h : Progressed generation frames status)

include h

theorem Progressed.concat_of_none (hf : f.progress generation = none) :
    Progressed generation (frames ++ [f]) status := by
  constructor
  · intro g hg nxt hnxt
    obtain hg | hg := mem_append.mp hg
    · exact h.upper g hg nxt hnxt
    · rw [mem_singleton.mp hg, hf] at hnxt
      exact nomatch hnxt
  · refine h.attained.imp_right fun ⟨g, hg, hv⟩ => ⟨g, mem_append_left _ hg, hv⟩

/-- A frame makes its command advance, unless another one has made it advance further. -/
theorem Progressed.concat_of_some (hf : f.progress generation = some nxt) : Progressed generation (frames ++ [f])
      (if phaseRank status ≤ phaseRank nxt then nxt else status) := by
  have hupper : ∀ s, phaseRank status ≤ phaseRank s → phaseRank nxt ≤ phaseRank s →
      ∀ g ∈ frames ++ [f], ∀ nxt, g.progress generation = some nxt → phaseRank nxt ≤ phaseRank s := by
    intro s hstatus hnxt g hg nxt' hnxt'
    obtain hg | hg := mem_append.mp hg
    · exact (h.upper g hg nxt' hnxt').trans hstatus
    · rw [mem_singleton.mp hg, hf] at hnxt'
      exact some.inj hnxt' ▸ hnxt
  split
  · next hle =>
    exact ⟨hupper nxt hle le_rfl, .inr ⟨f, by simp, hf⟩⟩
  · next hlt =>
    refine ⟨hupper status le_rfl (Nat.le_of_not_le hlt), ?_⟩
    exact h.attained.imp_right fun ⟨g, hg, hv⟩ => ⟨g, mem_append_left _ hg, hv⟩

/-- The same frames make a command advance to one status. -/
theorem Progressed.unique (h' : Progressed generation frames nxt) : status = nxt := by
  have hrank : ∀ {s s' : CommandStatus}, Progressed generation frames s →
      Progressed generation frames s' → phaseRank s ≤ phaseRank s' := by
    intro s s' hs hs'
    obtain rfl | ⟨f, hf, hv⟩ := hs.attained
    · exact Nat.zero_le _
    · exact hs'.upper f hf s hv
  have heq := le_antisymm (hrank h h') (hrank h' h)
  have hcases : ∀ {s}, Progressed generation frames s → s = .submitted ∨ s = .accepted ∨ s = .running :=
    fun hs => hs.attained.imp_right fun ⟨_, _, hv⟩ => Frame.progress_eq_some hv
  obtain rfl | rfl | rfl := hcases h <;> obtain rfl | rfl | rfl := hcases h' <;>
    first | rfl | exact absurd heq (by decide)

end

/-! ## Entries -/

namespace Folded

theorem congr (h : Folded generation frames entry) (hsame : ∀ f, f ∈ frames ↔ f ∈ frames') :
    Folded generation frames' entry := by
  refine ⟨h.generation_eq, fun hterminal => ?_, fun hnot => ?_⟩
  · obtain ⟨f, hf, hv⟩ := h.terminal hterminal
    exact ⟨f, (hsame f).mp hf, hv⟩
  · obtain ⟨hnone, hprogressed⟩ := h.nonterminal hnot
    refine ⟨fun f hf => hnone f ((hsame f).mpr hf), ?_, ?_⟩
    · exact fun f hf => hprogressed.upper f ((hsame f).mpr hf)
    · exact hprogressed.attained.imp_right fun ⟨f, hf, hv⟩ => ⟨f, (hsame f).mp hf, hv⟩

/-- A command that is terminal stays so. -/
theorem concat_of_terminal (h : Folded generation frames entry) (hterminal : entry.terminal = true) :
    Folded generation (frames ++ [f]) entry := by
  refine ⟨h.generation_eq, fun _ => ?_, fun hnot => by simp [hterminal] at hnot⟩
  obtain ⟨g, hg, hv⟩ := h.terminal hterminal
  exact ⟨g, mem_append_left _ hg, hv⟩

theorem none_concat (h : ∀ g ∈ frames, g.verdict generation = none)
    (hf : f.verdict generation = none) : ∀ g ∈ frames ++ [f], g.verdict generation = none := by
  intro g hg
  obtain hg | hg := mem_append.mp hg
  · exact h g hg
  · exact mem_singleton.mp hg ▸ hf

/-- A frame that has nothing to say about the generation of the command. -/
theorem concat_of_none (h : Folded generation frames entry) (hverdict : f.verdict generation = none)
    (hprogress : f.progress generation = none) : Folded generation (frames ++ [f]) entry := by
  cases hterminal : entry.terminal with
  | true => exact h.concat_of_terminal hterminal
  | false =>
    obtain ⟨hnone, hprogressed⟩ := h.nonterminal hterminal
    refine ⟨h.generation_eq, fun hterminal' => by simp [hterminal] at hterminal', fun _ => ?_⟩
    exact ⟨none_concat hnone hverdict, hprogressed.concat_of_none hprogress⟩

/-- A frame that makes its command advance. -/
theorem advance (h : Folded generation frames entry) (hverdict : f.verdict generation = none)
    (hprogress : f.progress generation = some nxt) :
    Folded generation (frames ++ [f]) (entry.advance nxt) := by
  cases hterminal : entry.terminal with
  | true =>
    rw [CommandProjectionEntry.advance_of_terminal hterminal]
    exact h.concat_of_terminal hterminal
  | false =>
    obtain ⟨hnone, hprogressed⟩ := h.nonterminal hterminal
    have hstatus : (entry.advance nxt).status =
        if phaseRank entry.status ≤ phaseRank nxt then nxt else entry.status := by
      simp only [CommandProjectionEntry.advance, hterminal, true_and]
      split
      · rfl
      · rfl
    rw [CommandProjectionEntry.advance_eq]
    refine ⟨h.generation_eq, fun hterminal' => by simp [hterminal] at hterminal', fun _ => ?_⟩
    refine ⟨none_concat hnone hverdict, ?_⟩
    rw [hstatus]
    exact hprogressed.concat_of_some hprogress

/-- The first terminal receipt. -/
theorem complete {r : CausalReceipt} (h : Folded generation frames entry)
    (hverdict : f.verdict generation = some (terminalStatusOf r.outcome r.reason)) :
    Folded generation (frames ++ [f]) (entry.complete r) :=
  ⟨h.generation_eq, fun _ => ⟨f, by simp, hverdict⟩, fun hnot => nomatch hnot⟩

/-- The last event of a command is of no account. -/
theorem lastEvent (h : Folded generation frames entry) (last : Option String) :
    Folded generation frames { entry with lastEventId := last } :=
  ⟨h.generation_eq, h.terminal, h.nonterminal⟩

end Folded

end

/-! ## Projections -/

namespace Summary

variable {submit : CommandSubmit} {frames frames' : List Frame} {f : Frame} {p q : CommandProjection}

theorem congr (h : Summary submit frames p) (hsame : ∀ f, f ∈ frames ↔ f ∈ frames') : Summary submit frames' p := by
  refine ⟨?_, h.conflicts.trans (Agreed.congr hsame), fun f hf hseen => ?_⟩
  · obtain ⟨entry, hentry, hfolded⟩ := h.entry
    exact ⟨entry, hentry, hfolded.congr hsame⟩
  · obtain ⟨g, hg, hid⟩ := h.seen f hf hseen
    exact ⟨g, (hsame g).mp hg, hid⟩

/-- After the submit. -/
theorem init (submit : CommandSubmit) : Summary submit [] (({} : CommandProjection).submit submit).2 := by
  refine ⟨⟨_, Table.get?_put _ _ _ |>.trans (if_pos rfl), rfl, (nomatch ·), fun _ => ?_⟩, ?_, ?_⟩
  · exact ⟨fun f hf => absurd hf not_mem_nil, fun f hf => absurd hf not_mem_nil, .inl rfl⟩
  · refine iff_of_true ?_ fun f hf => absurd hf not_mem_nil
    exact Finset.notMem_empty _
  · intro f hf hseen
    cases f with
    | submit s => exact hf.elim
    | event e => exact absurd hseen (Finset.notMem_empty _)
    | cancel c => exact absurd hseen (Finset.notMem_empty _)
    | receipt r => exact absurd hseen (Finset.notMem_empty _)

/-- A frame that leaves the conflicts as they are. -/
theorem extend (h : Summary submit frames p) {entry : CommandProjectionEntry}
    (hentry : q.entry submit.commandId = some entry)
    (hfolded : Folded submit.authorityGeneration (frames ++ [f]) entry)
    (hconflicts : q.conflicts = p.conflicts)
    (hagreed : Agreed submit.authorityGeneration (frames ++ [f]) ↔ Agreed submit.authorityGeneration frames)
    (hseen : ∀ g : Frame, q.Seen g → g.Of submit.commandId → p.Seen g ∨ g.SameId f) :
    Summary submit (frames ++ [f]) q := by
  refine ⟨⟨entry, hentry, hfolded⟩, ?_, fun g hg hq => ?_⟩
  · rw [hconflicts, h.conflicts, hagreed]
  · obtain hp | hid := hseen g hq hg
    · obtain ⟨g', hg', hid⟩ := h.seen g hg hp
      exact ⟨g', mem_append_left _ hg', hid⟩
    · exact ⟨f, by simp, hid⟩

/-- A frame that has been seen before. -/
theorem duplicate (h : Summary submit frames p) (hof : f.Of submit.commandId)
    (hdistinct : ∀ g ∈ frames, f.SameId g → f = g) (hseen : p.Seen f) :
    Summary submit (frames ++ [f]) p := by
  obtain ⟨g, hg, hid⟩ := h.seen f hof hseen
  obtain rfl := hdistinct g hg hid
  refine h.congr fun g => ⟨mem_append_left _, fun hin => ?_⟩
  obtain hin | hin := mem_append.mp hin
  · exact hin
  · exact mem_singleton.mp hin ▸ hg

/-- A frame that leaves the entry and the conflicts as they are, and has nothing to say. -/
theorem silent (h : Summary submit frames p) (hentry : q.entry = p.entry) (hconflicts : q.conflicts = p.conflicts)
    (hverdict : f.verdict submit.authorityGeneration = none)
    (hprogress : f.progress submit.authorityGeneration = none)
    (hseen : ∀ g : Frame, q.Seen g → g.Of submit.commandId → p.Seen g ∨ g.SameId f) :
    Summary submit (frames ++ [f]) q := by
  obtain ⟨entry, hin, hfolded⟩ := h.entry
  exact h.extend (hentry ▸ hin) (hfolded.concat_of_none hverdict hprogress) hconflicts
    (agreed_concat_of_none hverdict) hseen

theorem event {e : CommandEvent} (h : Summary submit frames p) (hof : e.commandId = submit.commandId)
    (hdistinct : ∀ g ∈ frames, (Frame.event e).SameId g → Frame.event e = g) :
    Summary submit (frames ++ [.event e]) (p.event e).2 := by
  obtain ⟨entry, hentry, hfolded⟩ := h.entry
  have hid := commandId_of_entry hentry
  have hverdict : (Frame.event e).verdict submit.authorityGeneration = none := rfl
  refine guarded_cases (motive := fun answer => Summary submit (frames ++ [.event e]) answer.2)
    (fun hseen : e.eventId ∈ p.seenEventIds => h.duplicate (f := .event e) hof hdistinct hseen)
    (fun _ hnone => ?_) (fun _ found hfound hne => ?_)
    fun _ found hfound heq => ?_
  · rw [hof, hentry] at hnone
    exact nomatch hnone
  · rw [hof, hentry] at hfound
    obtain rfl := some.inj hfound
    rw [hfolded.generation_eq] at hne
    exact h.silent rfl rfl hverdict (if_neg hne) fun g hg _ => .inl hg
  · rw [hof, hentry] at hfound
    obtain rfl := some.inj hfound
    have hput : (p.entries.put (entry.progress e)).get? submit.commandId = some (entry.progress e) := by
      have hid : (entry.progress e).commandId = submit.commandId := by
        rw [CommandProjectionEntry.progress_eq]
        exact hid
      rw [Table.get?_put, if_pos hid.symm]
    have hprogress : (Frame.event e).progress submit.authorityGeneration = progressStatusOf e.kind :=
      if_pos (heq.trans hfolded.generation_eq)
    have hlast := hfolded.lastEvent (some e.eventId)
    refine h.extend hput ?_ rfl (agreed_concat_of_none hverdict) fun g hg hgof => ?_
    · unfold CommandProjectionEntry.progress
      dsimp only
      split
      · next nxt hnxt => exact hlast.advance hverdict (hprogress.trans hnxt)
      · next hnxt => exact hlast.concat_of_none hverdict (hprogress.trans hnxt)
    · cases g with
      | submit s => exact hgof.elim
      | event e' => exact (Finset.mem_insert.mp hg).symm
      | cancel c => exact .inl hg
      | receipt r => exact .inl hg

theorem cancel {c : CommandCancel} (h : Summary submit frames p) (hof : c.commandId = submit.commandId)
    (hdistinct : ∀ g ∈ frames, (Frame.cancel c).SameId g → Frame.cancel c = g) :
    Summary submit (frames ++ [.cancel c]) (p.cancel c).2 := by
  obtain ⟨entry, hentry, _⟩ := h.entry
  refine guarded_cases (motive := fun answer => Summary submit (frames ++ [.cancel c]) answer.2)
    (fun hseen : c.causationId ∈ p.seenCancelIds => h.duplicate (f := .cancel c) hof hdistinct hseen)
    (fun _ hnone => ?_) (fun _ _ _ _ => ?_) fun _ _ _ _ => ?_
  · rw [hof, hentry] at hnone
    exact nomatch hnone
  · exact h.silent rfl rfl rfl rfl fun g hg _ => .inl hg
  · refine h.silent rfl rfl rfl rfl fun g hg hgof => ?_
    cases g with
    | submit s => exact hgof.elim
    | event e => exact .inl hg
    | cancel c' => exact (Finset.mem_insert.mp hg).symm
    | receipt r => exact .inl hg

/-- Of the frames of the command only the receipt is new. -/
theorem seen_of_receipt {r : CausalReceipt} (hevents : q.seenEventIds = p.seenEventIds)
    (hreceipts : q.seenReceiptIds = insert r.receiptId p.seenReceiptIds)
    (hcancels : q.seenCancelIds = p.seenCancelIds) (g : Frame) (hg : q.Seen g)
    (hof : g.Of submit.commandId) : p.Seen g ∨ g.SameId (.receipt r) := by
  cases g with
  | submit s => exact hof.elim
  | event e =>
    rw [Seen, hevents] at hg
    exact .inl hg
  | cancel c =>
    rw [Seen, hcancels] at hg
    exact .inl hg
  | receipt r' =>
    rw [Seen, hreceipts] at hg
    exact (Finset.mem_insert.mp hg).symm

/-- A terminal receipt that gives another status than the one that is there. -/
theorem conflicting (h : Summary submit frames p) {entry : CommandProjectionEntry}
    {status : CommandStatus} (hentry : p.entry submit.commandId = some entry)
    (hfolded : Folded submit.authorityGeneration frames entry) (hterminal : entry.terminal = true)
    (hverdict : f.verdict submit.authorityGeneration = some status) (hdiffer : entry.status ≠ status)
    (conflict : Option TerminalConflict) : Summary submit (frames ++ [f]) { p with
      conflicts := insert submit.commandId p.conflicts
      lastConflict := conflict } := by
  obtain ⟨g, hg, hgverdict⟩ := hfolded.terminal hterminal
  refine ⟨⟨entry, hentry, hfolded.concat_of_terminal hterminal⟩, ?_, fun g' hg' hseen => ?_⟩
  · refine iff_of_false (not_not.mpr (Finset.mem_insert_self _ _)) fun hall => ?_
    exact hdiffer (((agreed_concat_of_some hverdict).mp hall).2 g hg _ hgverdict)
  · obtain ⟨g'', hg'', hsame⟩ := h.seen g' hg' hseen
    exact ⟨g'', mem_append_left _ hg'', hsame⟩


theorem receipt {r : CausalReceipt} (h : Summary submit frames p) (hof : r.causationId = submit.commandId)
    (hdistinct : ∀ g ∈ frames, (Frame.receipt r).SameId g → Frame.receipt r = g) :
    Summary submit (frames ++ [.receipt r]) (p.observeReceipt r).2 := by
  obtain ⟨entry, hentry, hfolded⟩ := h.entry
  have hid := commandId_of_entry hentry
  refine guarded_cases (motive := fun answer => Summary submit (frames ++ [.receipt r]) answer.2)
    (fun hseen : r.receiptId ∈ p.seenReceiptIds => h.duplicate (f := .receipt r) hof hdistinct hseen)
    (fun _ hnone => ?_) (fun _ found hfound hne => ?_)
    fun _ found hfound heq => ?_
  · rw [hof, hentry] at hnone
    exact nomatch hnone
  · rw [hof, hentry] at hfound
    obtain rfl := some.inj hfound
    rw [hfolded.generation_eq] at hne
    exact h.silent rfl rfl (if_neg fun hr => hne hr.1) (if_neg fun hr => hne hr.1) fun g hg _ => .inl hg
  · rw [hof, hentry] at hfound
    obtain rfl := some.inj hfound
    have hgeneration : r.generation = submit.authorityGeneration := heq.trans hfolded.generation_eq
    dsimp only
    split
    · next hopen =>
      have hverdict : (Frame.receipt r).verdict submit.authorityGeneration = none :=
        if_neg fun hr => by simp [hopen] at hr
      have hprogress : (Frame.receipt r).progress submit.authorityGeneration = some .accepted :=
        if_pos ⟨hgeneration, hopen⟩
      refine h.extend ?_ (hfolded.advance hverdict hprogress) rfl (agreed_concat_of_none hverdict)
        (seen_of_receipt rfl rfl rfl)
      rw [CommandProjection.entry, Table.get?_put, if_pos]
      rw [CommandProjectionEntry.advance_eq]
      exact hid.symm
    · next hterminates =>
      have hverdict : (Frame.receipt r).verdict submit.authorityGeneration =
          some (terminalStatusOf r.outcome r.reason) :=
        if_pos ⟨hgeneration, by simpa using hterminates⟩
      have hagreed : Agreed _ (frames ++ [_]) ↔ _ := agreed_concat_of_some hverdict
      split
      · next hterminal =>
        obtain ⟨g, hg, hgverdict⟩ := hfolded.terminal hterminal
        split
        · next hsame =>
          -- the status that is there is the one of some receipt before
          refine h.extend hentry (hfolded.concat_of_terminal hterminal) rfl ?_ (seen_of_receipt rfl rfl rfl)
          rw [hagreed]
          refine and_iff_left_of_imp fun hall g' hg' status hv => ?_
          exact (hall g' hg' g hg status _ hv hgverdict).trans hsame
        · next hdiffer =>
          rw [hof]
          exact h.conflicting hentry hfolded hterminal hverdict hdiffer _
      · next hopen =>
        have hnone := (hfolded.nonterminal (by simpa using hopen)).1
        refine h.extend ?_ (hfolded.complete hverdict) rfl ?_ (seen_of_receipt rfl rfl rfl)
        · rw [CommandProjection.entry, Table.get?_put, if_pos]
          exact hid.symm
        · rw [hagreed]
          refine and_iff_left fun g hg status hv => ?_
          rw [hnone g hg] at hv
          exact nomatch hv

/-- One more frame of the command. -/
theorem foldFrame (h : Summary submit frames p) (hof : f.Of submit.commandId)
    (hdistinct : ∀ g ∈ frames, f.SameId g → f = g) :
    Summary submit (frames ++ [f]) (p.foldFrame f).2 := by
  cases f with
  | submit s => exact hof.elim
  | event e => exact h.event hof hdistinct
  | cancel c => exact h.cancel hof hdistinct
  | receipt r => exact h.receipt hof hdistinct

/-- The status of a command, whether it is terminal, and what a call for it comes to follow from the
frames. -/
theorem view_eq (h : Summary submit frames p) (h' : Summary submit frames q)
    (hagreed : Agreed submit.authorityGeneration frames) :
    p.view submit.commandId = q.view submit.commandId := by
  obtain ⟨e, he, hfolded⟩ := h.entry
  obtain ⟨e', he', hfolded'⟩ := h'.entry
  have hstatus : e.terminal = e'.terminal ∧ e.status = e'.status := by
    cases ht : e.terminal with
    | true =>
      obtain ⟨f, hf, hv⟩ := hfolded.terminal ht
      cases ht' : e'.terminal with
      | true =>
        obtain ⟨f', hf', hv'⟩ := hfolded'.terminal ht'
        exact ⟨rfl, hagreed f hf f' hf' _ _ hv hv'⟩
      | false =>
        rw [(hfolded'.nonterminal ht').1 f hf] at hv
        exact nomatch hv
    | false =>
      obtain ⟨hnone, hprogressed⟩ := hfolded.nonterminal ht
      cases ht' : e'.terminal with
      | true =>
        obtain ⟨f, hf, hv⟩ := hfolded'.terminal ht'
        rw [hnone f hf] at hv
        exact nomatch hv
      | false => exact ⟨rfl, hprogressed.unique (hfolded'.nonterminal ht').2⟩
  unfold view pollCall terminalFor
  rw [if_neg (h.conflicts.mpr hagreed), if_neg (h'.conflicts.mpr hagreed), he, he']
  obtain ⟨hterminal, hsame⟩ := hstatus
  simp only [map_some, hsame, hterminal, filter_some]
  cases e'.terminal with
  | true => rfl
  | false => rfl

end Summary

/-- A fresh projection after a submit and some frames of its command. -/
def afterSubmit (submit : CommandSubmit) (frames : List Frame) : CommandProjection :=
  (({} : CommandProjection).submit submit).2.foldFrames frames

theorem summary_afterSubmit {submit : CommandSubmit} {frames : List Frame}
    (hof : ∀ f ∈ frames, f.Of submit.commandId) (hdistinct : DistinctIds frames) :
    Summary submit frames (afterSubmit submit frames) := by
  induction frames using reverseRecOn with
  | nil => exact .init submit
  | append_singleton frames f ih =>
    rw [afterSubmit, CommandProjection.foldFrames_concat]
    have hbefore := ih (fun g hg => hof g (mem_append_left _ hg))
      fun g hg g' hg' => hdistinct g (mem_append_left _ hg) g' (mem_append_left _ hg')
    exact hbefore.foldFrame (hof f (by simp)) fun g hg =>
      hdistinct f (by simp) g (mem_append_left _ hg)

/-- Two deliveries of the same frames of a command, in any orders and with any duplicates, come to the
same status, terminal flag and kind of call, where its terminal receipts give one status. Where two of
them give different ones, every delivery comes to a conflict. -/
theorem outcome_independent (submit : CommandSubmit) (frames frames' : List Frame)
    (hof : ∀ f ∈ frames, f.Of submit.commandId) (hdistinct : DistinctIds frames)
    (hsame : ∀ f, f ∈ frames ↔ f ∈ frames') :
    (Agreed submit.authorityGeneration frames → (afterSubmit submit frames).view submit.commandId =
        (afterSubmit submit frames').view submit.commandId) ∧
    (¬ Agreed submit.authorityGeneration frames →
      (afterSubmit submit frames').pollCall submit.commandId = .conflict) := by
  have h := summary_afterSubmit hof hdistinct
  have h' : Summary submit frames (afterSubmit submit frames') := by
    refine (summary_afterSubmit (fun f hf => hof f ((hsame f).mpr hf)) fun f hf g hg => ?_).congr
      fun f => (hsame f).symm
    exact hdistinct f ((hsame f).mpr hf) g ((hsame g).mpr hg)
  refine ⟨h.view_eq h', fun hagreed => ?_⟩
  exact if_pos (not_not.mp fun hnot => hagreed (h'.conflicts.mp hnot))

def started : Frame := .event ⟨"e1", "c1", .started, 1⟩

/-- A command that starts after it has been applied, and one that is refused before it is applied. -/
theorem outcome_independent_late : (afterSubmit ⟨"c1", 1⟩ [started, completed]).view "c1" =
      (afterSubmit ⟨"c1", 1⟩ [completed, started, completed]).view "c1" ∧
    (afterSubmit ⟨"c1", 1⟩ [refused, completed]).pollCall "c1" = .conflict := by
  constructor
  · refine (outcome_independent ⟨"c1", 1⟩ [started, completed] [completed, started, completed] ?_ ?_
      ?_).1 ?_
    · simp [started, completed, Frame.Of]
    · simp [DistinctIds, started, completed, Frame.SameId]
    · intro f
      simp only [mem_cons, not_mem_nil]
      tauto
    · simp [Agreed, started, completed, Frame.verdict]
  · refine (outcome_independent ⟨"c1", 1⟩ [completed, refused] [refused, completed] ?_ ?_ ?_).2 ?_
    · simp [completed, refused, Frame.Of]
    · simp [DistinctIds, completed, refused, Frame.SameId]
    · intro f
      simp only [mem_cons, not_mem_nil]
      tauto
    · intro hagreed
      have heq := hagreed completed (by simp) refused (by simp) .applied .rejected (by decide) (by decide)
      exact nomatch heq

end LazilyPy.Command

import LazilyPy.Command.Projection

/-!
# The receipts of one causation

Receipts of one causation are folded into its outcome. The first terminal receipt of the current generation decides it,
and one with another outcome that comes later is in conflict with it. What can be read does not depend on which one has
come first.
-/

namespace LazilyPy.Command

open List Option

inductive ReceiptApplyResult where
  | recorded | duplicate | staleGeneration | terminalConflict
  deriving DecidableEq, Repr

structure ReceiptProjection where
  causationId : String
  currentGeneration : ℤ
  seen : Finset String := ∅
  terminal : Option ReceiptOutcome := none
  recorded : List CausalReceipt := []
  stale : List CausalReceipt := []
  conflicts : List CausalReceipt := []

namespace ReceiptProjection

def new (causationId : String) (currentGeneration : ℤ) : Except String ReceiptProjection :=
  if causationId = "" then .error "causation_id must be a non-empty string"
  else if currentGeneration < 0 then
    .error ("current_generation must be >= 0, got " ++ toString currentGeneration)
  else .ok { causationId, currentGeneration }

def apply (p : ReceiptProjection) (receipt : CausalReceipt) : ReceiptApplyResult × ReceiptProjection :=
  if receipt.receiptId ∈ p.seen then (.duplicate, p)
  else
    let p := { p with seen := insert receipt.receiptId p.seen }
    if receipt.generation ≠ p.currentGeneration then
      (.staleGeneration, { p with stale := p.stale ++ [receipt] })
    else if receipt.outcome.isTerminal then
      match p.terminal with
      | none => (.recorded, { p with terminal := some receipt.outcome, recorded := p.recorded ++ [receipt] })
      | some outcome =>
        if outcome = receipt.outcome then (.recorded, { p with recorded := p.recorded ++ [receipt] })
        else (.terminalConflict, { p with conflicts := p.conflicts ++ [receipt] })
    else (.recorded, { p with recorded := p.recorded ++ [receipt] })

def applyAll (p : ReceiptProjection) (receipts : List CausalReceipt) : ReceiptProjection :=
  receipts.foldl (fun p receipt => (p.apply receipt).2) p

/-- The generation that is given, or else the latest one of the receipts. -/
def authority (matching : List CausalReceipt) (currentGeneration : Option ℤ) : ℤ :=
  currentGeneration.getD ((matching.map CausalReceipt.generation).max?.getD 0)

def fromReceipts (causationId : String) (receipts : List CausalReceipt) (currentGeneration : Option ℤ) :
    Except String ReceiptProjection := do
  let matching := receipts.filter (·.causationId = causationId)
  let projection ← new causationId (authority matching currentGeneration)
  return projection.applyAll matching

def isTerminal (p : ReceiptProjection) : Bool :=
  p.terminal.isSome

def inConflict (p : ReceiptProjection) : Bool :=
  !p.conflicts.isEmpty

def staleReceiptIds (p : ReceiptProjection) : List String :=
  p.stale.map CausalReceipt.receiptId

variable {p p' : ReceiptProjection} {l l' : List CausalReceipt} {r : CausalReceipt} {g : ℤ}

/-- A receipt that can decide the outcome. -/
def Decides (g : ℤ) (r : CausalReceipt) : Prop :=
  r.generation = g ∧ r.outcome.isTerminal = true

/-- What has been folded in, whatever the order. Only which of the terminal outcomes is the first one is left open. -/
structure Folded (g : ℤ) (l : List CausalReceipt) (p : ReceiptProjection) : Prop where
  current : p.currentGeneration = g
  seen : ∀ id, id ∈ p.seen ↔ ∃ r ∈ l, r.receiptId = id
  stale : ∀ r, r ∈ p.stale ↔ r ∈ l ∧ r.generation ≠ g
  decided : ∀ outcome, p.terminal = some outcome → ∃ r ∈ l, Decides g r ∧ r.outcome = outcome
  undecided : p.terminal = none → ∀ r ∈ l, ¬ Decides g r
  conflicts : ∀ r, r ∈ p.conflicts ↔ r ∈ l ∧ Decides g r ∧ p.terminal ≠ some r.outcome

theorem Folded.congr (h : Folded g l p) (hmem : ∀ r, r ∈ l ↔ r ∈ l') : Folded g l' p where
  current := h.current
  seen := by simpa only [← hmem] using h.seen
  stale := by simpa only [← hmem] using h.stale
  decided := by simpa only [← hmem] using h.decided
  undecided := by simpa only [← hmem] using h.undecided
  conflicts := by simpa only [← hmem] using h.conflicts

theorem folded_new {causationId : String} (h : new causationId g = .ok p) : Folded g [] p := by
  rw [new] at h
  split at h
  · cases h
  · split at h
    · cases h
    · cases h
      exact ⟨rfl, by simp, by simp, nofun, fun _ _ => nofun, by simp⟩

/-- A receipt is added to a list of those that have a property. -/
theorem mem_concat_iff {q : List CausalReceipt} {P : CausalReceipt → Prop} (hq : ∀ r, r ∈ q ↔ r ∈ l ∧ P r) (hr : P r)
    (r' : CausalReceipt) : r' ∈ q ++ [r] ↔ r' ∈ l ++ [r] ∧ P r' := by
  by_cases heq : r' = r
  · simp [heq, hr]
  · simp [heq, hq]

theorem mem_iff_concat {q : List CausalReceipt} {P : CausalReceipt → Prop} (hq : ∀ r, r ∈ q ↔ r ∈ l ∧ P r) (hr : ¬ P r)
    (r' : CausalReceipt) : r' ∈ q ↔ r' ∈ l ++ [r] ∧ P r' := by
  by_cases heq : r' = r
  · simp [heq, hq, hr]
  · simp [heq, hq]

theorem Folded.decided_concat (h : Folded g l p) {o : ReceiptOutcome} (ho : p.terminal = some o) :
    ∃ r' ∈ l ++ [r], Decides g r' ∧ r'.outcome = o := by
  obtain ⟨r', hr', hd⟩ := h.decided o ho
  exact ⟨r', mem_append_left _ hr', hd⟩

/-- A receipt that cannot decide is heard. -/
theorem Folded.concat (h : Folded g l p) (hnot : ¬ Decides g r) (hcurrent : p'.currentGeneration = p.currentGeneration)
    (hterminal : p'.terminal = p.terminal) (hconflicts : p'.conflicts = p.conflicts)
    (hseen : ∀ id, id ∈ p'.seen ↔ ∃ r' ∈ l ++ [r], r'.receiptId = id)
    (hstale : ∀ r', r' ∈ p'.stale ↔ r' ∈ l ++ [r] ∧ r'.generation ≠ g) : Folded g (l ++ [r]) p' where
  current := hcurrent.trans h.current
  seen := hseen
  stale := hstale
  decided o ho := h.decided_concat (hterminal.symm.trans ho)
  undecided hn := forall_mem_append.mpr ⟨h.undecided (hterminal.symm.trans hn), by simpa using hnot⟩
  conflicts := by
    rw [hterminal, hconflicts]
    exact mem_iff_concat h.conflicts fun hd => hnot hd.1

theorem Folded.apply (h : Folded g l p) (hid : ∀ r' ∈ l, r'.receiptId = r.receiptId → r' = r) :
    Folded g (l ++ [r]) (p.apply r).2 := by
  have hseen : ∀ id, id ∈ insert r.receiptId p.seen ↔ ∃ r' ∈ l ++ [r], r'.receiptId = id := by
    intro id
    simp [h.seen, or_comm, eq_comm]
  rw [ReceiptProjection.apply]
  split
  · -- it has come before
    next hdup =>
    obtain ⟨r', hr', heq⟩ := (h.seen _).mp hdup
    obtain rfl := hid r' hr' heq
    refine h.congr fun r => ?_
    simp only [mem_append, mem_singleton, iff_self_or]
    rintro rfl
    exact hr'
  · dsimp only
    split
    · next hgen =>
      rw [h.current] at hgen
      exact h.concat (fun hd => hgen hd.1) rfl rfl rfl hseen (mem_concat_iff h.stale hgen)
    · next hgen =>
      rw [h.current, not_not] at hgen
      have hstale := mem_iff_concat h.stale (not_not.mpr hgen)
      split
      · next hterminal =>
        have hd : Decides g r := ⟨hgen, hterminal⟩
        split
        · next hnone =>
          refine ⟨h.current, hseen, hstale, fun o ho => ?_, nofun, fun r' => ?_⟩
          · exact ⟨r, by simp, hd, some.inj ho⟩
          · simp only [h.conflicts, mem_append, mem_singleton]
            constructor
            · rintro ⟨hr', hd', -⟩
              exact absurd hd' (h.undecided hnone r' hr')
            · rintro ⟨hr' | rfl, hd', hne⟩
              · exact absurd hd' (h.undecided hnone r' hr')
              · exact absurd rfl hne
        · next outcome hsome =>
          have hundecided : p.terminal = none → ∀ r' ∈ l ++ [r], ¬ Decides g r' := by
            intro hn
            rw [hsome] at hn
            cases hn
          split
          · next heq =>
            exact ⟨h.current, hseen, hstale, fun o ho => h.decided_concat ho, hundecided,
              mem_iff_concat h.conflicts fun hc => hc.2 (hsome.trans (congrArg some heq))⟩
          · next hne =>
            exact ⟨h.current, hseen, hstale, fun o ho => h.decided_concat ho, hundecided,
              mem_concat_iff h.conflicts ⟨hd, fun heq => hne (some.inj (hsome.symm.trans heq))⟩⟩
      · next hterminal => exact h.concat (fun hd => hterminal hd.2) rfl rfl rfl hseen hstale

theorem Folded.applyAll (h : Folded g l p) (hid : ∀ r ∈ l ++ l', ∀ r' ∈ l ++ l', r.receiptId = r'.receiptId → r = r') :
    Folded g (l ++ l') (p.applyAll l') := by
  induction l' generalizing l p with
  | nil => rwa [append_nil]
  | cons r l' ih =>
    have hstep := h.apply (r := r) fun r' hr' => hid r' (by simp [hr']) r (by simp)
    rw [append_cons] at hid ⊢
    exact ih hstep hid

/-! ## What is read -/

theorem Folded.isTerminal_iff (h : Folded g l p) : p.isTerminal = true ↔ ∃ r ∈ l, Decides g r := by
  rw [isTerminal]
  cases hterminal : p.terminal with
  | none => simpa using h.undecided hterminal
  | some outcome =>
    obtain ⟨r, hr, hd, -⟩ := h.decided outcome hterminal
    exact ⟨fun _ => ⟨r, hr, hd⟩, fun _ => rfl⟩

/-- There is a conflict if and only if two receipts decide for different outcomes. -/
theorem Folded.inConflict_iff (h : Folded g l p) : p.inConflict = true ↔
    ∃ r ∈ l, ∃ r' ∈ l, Decides g r ∧ Decides g r' ∧ r.outcome ≠ r'.outcome := by
  have hex : p.inConflict = true ↔ ∃ r, r ∈ p.conflicts := by
    rw [inConflict, Bool.not_eq_true', isEmpty_eq_false_iff_exists_mem]
  rw [hex]
  constructor
  · rintro ⟨r, hr⟩
    obtain ⟨hr, hd, hne⟩ := (h.conflicts r).mp hr
    cases hterminal : p.terminal with
    | none => exact absurd hd (h.undecided hterminal r hr)
    | some outcome =>
      obtain ⟨r', hr', hd', rfl⟩ := h.decided outcome hterminal
      exact ⟨r, hr, r', hr', hd, hd', fun heq => hne (hterminal.trans (congrArg some heq.symm))⟩
  · rintro ⟨r, hr, r', hr', hd, hd', hne⟩
    by_cases hfirst : p.terminal = some r.outcome
    · exact ⟨r', (h.conflicts r').mpr ⟨hr', hd', fun heq => hne (some.inj (hfirst.symm.trans heq))⟩⟩
    · exact ⟨r, (h.conflicts r).mpr ⟨hr, hd, hfirst⟩⟩

/-- Without a conflict the outcome is that of every receipt that decides. -/
theorem Folded.terminal_eq_some_iff (h : Folded g l p) (hconflict : p.inConflict = false) {outcome : ReceiptOutcome} :
    p.terminal = some outcome ↔ ∃ r ∈ l, Decides g r ∧ r.outcome = outcome := by
  refine ⟨h.decided outcome, ?_⟩
  rintro ⟨r, hr, hd, rfl⟩
  cases hterminal : p.terminal with
  | none => exact absurd hd (h.undecided hterminal r hr)
  | some outcome =>
    obtain ⟨r', hr', hd', rfl⟩ := h.decided outcome hterminal
    by_contra hne
    have htrue := h.inConflict_iff.mpr ⟨r, hr, r', hr', hd, hd', fun heq => hne (congrArg some heq.symm)⟩
    rw [htrue] at hconflict
    cases hconflict

/-! ## Any order -/

theorem authority_congr (hmem : ∀ r, r ∈ l ↔ r ∈ l') (generation : Option ℤ) :
    authority l generation = authority l' generation := by
  have hmax : (l.map CausalReceipt.generation).max? = (l'.map CausalReceipt.generation).max? := by
    refine ext fun a => ?_
    rw [max?_eq_some_iff, max?_eq_some_iff]
    simp only [List.mem_map, hmem]
  rw [authority, authority, hmax]

/-- The same receipts in another order, and as often as may be, give a projection that reads the same. -/
theorem fromReceipts_any_order {causationId : String} {generation : Option ℤ}
    (hids : ∀ r ∈ l, ∀ r' ∈ l, r.receiptId = r'.receiptId → r = r') (hmem : ∀ r, r ∈ l ↔ r ∈ l')
    (h : fromReceipts causationId l generation = .ok p) :
    ∃ p', fromReceipts causationId l' generation = .ok p' ∧ p'.isTerminal = p.isTerminal ∧
      p'.inConflict = p.inConflict ∧ (∀ id, id ∈ p'.staleReceiptIds ↔ id ∈ p.staleReceiptIds) ∧
      (p.inConflict = false → p'.terminal = p.terminal) ∧
      (p.inConflict = true ↔ ∃ r ∈ l, ∃ r' ∈ l, (r.causationId = causationId ∧ r'.causationId = causationId) ∧
        Decides p.currentGeneration r ∧ Decides p.currentGeneration r' ∧ r.outcome ≠ r'.outcome) := by
  have hfilter : ∀ r, r ∈ l.filter (·.causationId = causationId) ↔ r ∈ l'.filter (·.causationId = causationId) := by
    intro r
    rw [mem_filter, mem_filter, hmem]
  have hgen := authority_congr hfilter generation
  rw [fromReceipts] at h
  cases hnew : new causationId (authority (l.filter (·.causationId = causationId)) generation) with
  | error e =>
    rw [hnew] at h
    cases h
  | ok fresh =>
    rw [hnew] at h
    obtain rfl : fresh.applyAll _ = p := Except.ok.inj h
    have hids' : ∀ r ∈ l.filter (·.causationId = causationId), ∀ r' ∈ l.filter (·.causationId = causationId),
        r.receiptId = r'.receiptId → r = r' := fun r hr r' hr' =>
      hids r (mem_of_mem_filter hr) r' (mem_of_mem_filter hr')
    have hfold := (folded_new hnew).applyAll hids'
    have hfold' : Folded _ _ (fresh.applyAll (l'.filter (·.causationId = causationId))) :=
      (folded_new hnew).applyAll (by simpa only [nil_append, ← hfilter] using hids')
    rw [nil_append] at hfold hfold'
    replace hfold' := hfold'.congr fun r => (hfilter r).symm
    refine ⟨fresh.applyAll (l'.filter (·.causationId = causationId)), ?_, ?_, ?_, fun id => ?_, fun hconflict => ?_, ?_⟩
    · rw [fromReceipts, ← hgen, hnew]
      rfl
    · exact Bool.eq_iff_iff.mpr (hfold'.isTerminal_iff.trans hfold.isTerminal_iff.symm)
    · exact Bool.eq_iff_iff.mpr (hfold'.inConflict_iff.trans hfold.inConflict_iff.symm)
    · simp only [staleReceiptIds, List.mem_map, hfold.stale, hfold'.stale]
    · have hsame := Bool.eq_iff_iff.mpr (hfold'.inConflict_iff.trans hfold.inConflict_iff.symm)
      refine ext fun outcome => ?_
      rw [hfold'.terminal_eq_some_iff (hsame.trans hconflict), hfold.terminal_eq_some_iff hconflict]
    · rw [hfold.inConflict_iff, hfold.current]
      simp only [mem_filter, decide_eq_true_eq]
      constructor
      · rintro ⟨r, ⟨hr, hid⟩, r', ⟨hr', hid'⟩, hrest⟩
        exact ⟨r, hr, r', hr', ⟨hid, hid'⟩, hrest⟩
      · rintro ⟨r, hr, r', hr', ⟨hid, hid'⟩, hrest⟩
        exact ⟨r, ⟨hr, hid⟩, r', ⟨hr', hid'⟩, hrest⟩

def appliedReceipt : CausalReceipt where
  receiptId := "a"
  causationId := "c"
  generation := 1
  generation_bounds := one_bounds
  outcome := .applied

def rejectedReceipt : CausalReceipt where
  receiptId := "b"
  causationId := "c"
  generation := 1
  generation_bounds := one_bounds
  outcome := .rejected

/-- Two receipts with different outcomes, and then one of them first and again. -/
theorem fromReceipts_any_order_conflict :
    ∃ p', fromReceipts "c" [rejectedReceipt, appliedReceipt, rejectedReceipt] none = .ok p' ∧ p'.inConflict = true := by
  have hmem : ∀ r, r ∈ [appliedReceipt, rejectedReceipt] ↔ r ∈ [rejectedReceipt, appliedReceipt, rejectedReceipt] := by
    simp [or_comm]
  have h : fromReceipts "c" [appliedReceipt, rejectedReceipt] none = .ok _ := rfl
  obtain ⟨p', hp', -, hconflict, -⟩ := fromReceipts_any_order (by decide) hmem h
  exact ⟨p', hp', hconflict.trans rfl⟩

end ReceiptProjection

end LazilyPy.Command

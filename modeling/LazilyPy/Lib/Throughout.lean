import Mathlib.Data.List.Chain

/-!
# Properties of every moment of a history

A history is a list that grows at its end. `Throughout P` says of every entry that `P` holds of what came before it and
of the entry itself. The comings and goings of one thing are a history of marks, true when it comes and false when it
goes. They alternate if it comes first, and again only after it has gone.
-/

section Throughout

open List

/-- `P` holds of every entry and of what came before it. -/
def Throughout {α : Type} (P : List α → α → Prop) (l : List α) : Prop :=
  ∀ before a after, l = before ++ a :: after → P before a

variable {α : Type} {P Q : List α → α → Prop}

theorem throughout_congr {l : List α} (h : ∀ before a, P before a ↔ Q before a) : Throughout P l ↔ Throughout Q l := by
  unfold Throughout
  simp only [h]

theorem throughout_nil : Throughout P [] := by
  intro before a after h
  cases before <;> cases h

theorem throughout_concat {l : List α} {a : α} : Throughout P (l ++ [a]) ↔ Throughout P l ∧ P l a := by
  constructor
  · intro h
    refine ⟨fun before b after hl => ?_, h l a [] rfl⟩
    exact h before b (after ++ [a]) (by rw [hl, append_assoc, cons_append])
  · rintro ⟨hl, ha⟩ before b after heq
    rcases eq_nil_or_concat after with rfl | ⟨after, c, rfl⟩
    · obtain ⟨rfl, hab⟩ := append_inj' heq rfl
      obtain rfl : a = b := by simpa using hab
      exact ha
    · have hsplit : l ++ [a] = (before ++ b :: after) ++ [c] := by
        rw [heq, concat_eq_append, append_assoc, cons_append]
      exact hl before b after (append_inj' hsplit rfl).1

theorem Throughout.of_append {l l' : List α} (h : Throughout P (l ++ l')) : Throughout P l := by
  rintro before a after rfl
  exact h before a (after ++ l') (by simp)

/-- Entries at which `P` holds whatever came before. -/
theorem Throughout.append {l l' : List α} (h : Throughout P l)
    (h' : ∀ a ∈ l', ∀ before, P before a) : Throughout P (l ++ l') := by
  induction l' using reverseRecOn with
  | nil => rwa [append_nil]
  | append_singleton l' a ih =>
    rw [← append_assoc]
    refine throughout_concat.mpr ⟨ih fun b hb => h' b (mem_append_left _ hb), ?_⟩
    exact h' a (mem_append_right _ (mem_singleton_self a)) _

theorem throughout_iff_get {l : List α} : Throughout P l ↔ ∀ i : Fin l.length, P (l.take i) (l.get i) := by
  constructor
  · intro h i
    refine h (l.take i) (l.get i) (l.drop (i + 1)) ?_
    rw [get_eq_getElem, getElem_cons_drop, take_append_drop]
  · rintro h before a after rfl
    have hi : before.length < (before ++ a :: after).length := by simp
    simpa using h ⟨before.length, hi⟩

instance [∀ before a, Decidable (P before a)] (l : List α) : Decidable (Throughout P l) :=
  decidable_of_iff _ throughout_iff_get.symm

end Throughout

/-! ### Alternation -/

section Alternation

open List

def Alternating (marks : List Bool) : Prop :=
  (false :: marks).IsChain (· ≠ ·)

def present (marks : List Bool) : Bool :=
  marks.getLast?.getD false

def visit (goes comes : Bool) : List Bool :=
  (if goes then [false] else []) ++ if comes then [true] else []

variable {marks : List Bool} {goes comes : Bool}

theorem present_visit : present (marks ++ visit goes comes) = (comes || present marks && !goes) := by
  cases goes <;> cases comes <;> simp [present, visit]

theorem alternating_append {new : List Bool} : Alternating (marks ++ new) ↔
    Alternating marks ∧ (present marks :: new).IsChain (· ≠ ·) := by
  have hlast : (false :: marks).getLast? = some (present marks) := by
    rw [getLast?_cons]
    rfl
  show (false :: (marks ++ new)).IsChain (· ≠ ·) ↔ (false :: marks).IsChain (· ≠ ·) ∧ _
  rw [← cons_append, isChain_append, hlast, isChain_cons (x := present marks), and_comm (a := new.IsChain _)]
  simp only [Option.mem_def, Option.some.injEq, forall_eq']

/-- What goes only when it is there alternates exactly if it comes only when it is not there or has gone
before. -/
theorem alternating_visit (h : goes → present marks) : Alternating (marks ++ visit goes comes) ↔
    Alternating marks ∧ (comes → present marks → goes) := by
  rw [alternating_append]
  refine and_congr_right fun _ => ?_
  cases hpresent : present marks
  · have hgoes : goes = false := by
      cases goes
      · rfl
      · simp [hpresent] at h
    cases comes <;> simp [visit, hgoes]
  · cases goes <;> cases comes <;> simp [visit]

end Alternation

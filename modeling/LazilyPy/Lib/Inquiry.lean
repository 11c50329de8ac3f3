import Mathlib.Data.List.Basic

/-!
# Inquiries

A computation that asks questions one after the other, where an answer may decide what is asked next. Its outcome
depends on the answers to the questions that it asks and on nothing else. When it runs on a state that answers, and
that may change with every question, an invariant of the questions asked so far holds at the end.
-/

/-- A computation with questions `Q` and their answers. It gives a result, or it raises. -/
inductive Inquiry (Q : Type) (A : Q → Type) (ρ : Type) where
  | ret (r : ρ)
  | raise
  | ask (q : Q) (next : A q → Inquiry Q A ρ)

namespace Inquiry

variable {Q ρ σ : Type} {A : Q → Type}

def outcome (w : (q : Q) → A q) : Inquiry Q A ρ → Option ρ
  | .ret r => some r
  | .raise => none
  | .ask q next => (next (w q)).outcome w

def transcript (w : (q : Q) → A q) : Inquiry Q A ρ → List (Sigma A)
  | .ret _ | .raise => []
  | .ask q next => ⟨q, w q⟩ :: (next (w q)).transcript w

/-- The answers of a transcript are the ones that `w` gives. -/
def Agrees (w : (q : Q) → A q) (entries : List (Sigma A)) : Prop :=
  ∀ e ∈ entries, w e.1 = e.2

theorem agrees_transcript (w : (q : Q) → A q) (t : Inquiry Q A ρ) : Agrees w (t.transcript w) := by
  induction t with
  | ret | raise => exact fun _ he => by cases he
  | ask q next ih =>
    intro e he
    obtain rfl | he := List.mem_cons.mp he
    · rfl
    · exact ih (w q) e he

theorem outcome_of_agrees {w w' : (q : Q) → A q} {t : Inquiry Q A ρ} (h : Agrees w' (t.transcript w)) :
    t.outcome w' = t.outcome w := by
  induction t with
  | ret | raise => rfl
  | ask q next ih =>
    obtain ⟨hq, hrest⟩ := List.forall_mem_cons.mp h
    have hq : w' q = w q := hq
    rw [outcome, outcome, hq]
    exact ih (w q) hrest

/-- The run on a state: each question is answered by the state that the questions before have left, or raises. -/
def exec (answer : (q : Q) → σ → Option (A q) × σ) : Inquiry Q A ρ → σ → Option ρ × σ
  | .ret r, s => (some r, s)
  | .raise, s => (none, s)
  | .ask q next, s =>
    match answer q s with
    | (some a, s) => (next a).exec answer s
    | (none, s) => (none, s)

/-- If every question is answered as `w` answers it, the outcome is that of `w`, and what holds of the questions
asked so far holds of all of them at the end. -/
theorem exec_rule {answer : (q : Q) → σ → Option (A q) × σ} {w : (q : Q) → A q} {I : List (Sigma A) → σ → Prop}
    (hanswer : ∀ q entries s, I entries s → (answer q s).1 = some (w q) ∧ I (entries ++ [⟨q, w q⟩]) (answer q s).2)
    (t : Inquiry Q A ρ) {entries : List (Sigma A)} {s : σ} (hI : I entries s) :
    (t.exec answer s).1 = t.outcome w ∧ I (entries ++ t.transcript w) (t.exec answer s).2 := by
  induction t generalizing entries s with
  | ret r => exact ⟨rfl, by rwa [transcript, List.append_nil]⟩
  | raise => exact ⟨rfl, by rwa [transcript, List.append_nil]⟩
  | ask q next ih =>
    obtain ⟨hsome, hnext⟩ := hanswer q entries s hI
    have hexec : (ask q next).exec answer s = (next (w q)).exec answer (answer q s).2 := by
      rw [exec]
      generalize answer q s = answered at hsome
      obtain ⟨o, s'⟩ := answered
      obtain rfl : o = some (w q) := hsome
      rfl
    rw [hexec, outcome, transcript, List.append_cons]
    exact ih (w q) hnext

end Inquiry

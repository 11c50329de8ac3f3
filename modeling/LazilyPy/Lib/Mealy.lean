import Mathlib.Data.List.Basic
import Mathlib.Data.List.Induction

/-!
# Streams and machines

Some events of a stream bring an element, and some cut it. The elements between two cuts are a segment, and the last
segment is open. A machine is a step that takes a state and an input to an output and the next state, so that it
takes a stream to another one. Outputs may be missing, and some may be final: these are latched in the state, and then
they are the only ones.
-/

/-! ### Segments -/

structure Segments (T : Type) where
  closed : List (List T)
  opened : List T

namespace Segments

open List

variable {T : Type}

def all (s : Segments T) : List (List T) :=
  s.closed ++ [s.opened]

def cut (s : Segments T) : Segments T where
  closed := s.all
  opened := []

def add (s : Segments T) (elems : List T) : Segments T where
  closed := s.closed
  opened := s.opened ++ elems

@[simp] theorem add_nil (s : Segments T) : s.add [] = s :=
  congrArg (Segments.mk s.closed) (append_nil _)

theorem flatten_all (s : Segments T) : s.all.flatten = s.closed.flatten ++ s.opened := by
  rw [all, flatten_append, flatten_singleton]

theorem flatten_all_cut (s : Segments T) : s.cut.all.flatten = s.all.flatten := by
  rw [flatten_all s.cut, cut, append_nil]

theorem flatten_all_add (s : Segments T) (elems : List T) : (s.add elems).all.flatten = s.all.flatten ++ elems := by
  rw [flatten_all, flatten_all, add, append_assoc]

end Segments

variable {ε T : Type}

open Classical in
noncomputable def segmentsRev (cuts : List ε → ε → Prop) (elem : ε → Option T) : List ε → Segments T
  | [] => ⟨[], []⟩
  | e :: before =>
    let s := segmentsRev cuts elem before
    (if cuts before.reverse e then s.cut else s).add (elem e).toList

/-- The segments of some events. An event `e` that comes after the events `before` closes the open segment if it
cuts there, and then adds its element, if it has one. -/
noncomputable def segments (cuts : List ε → ε → Prop) (elem : ε → Option T) (events : List ε) : Segments T :=
  segmentsRev cuts elem events.reverse

section

open List

variable {cuts : List ε → ε → Prop} {elem : ε → Option T} {events : List ε} {e : ε}

theorem segments_cut (h : cuts events e) :
    segments cuts elem (events ++ [e]) = (segments cuts elem events).cut.add (elem e).toList := by
  unfold segments
  rw [reverse_append, reverse_singleton, singleton_append, segmentsRev, reverse_reverse]
  rw [if_pos h]

theorem segments_keep (h : ¬ cuts events e) :
    segments cuts elem (events ++ [e]) = (segments cuts elem events).add (elem e).toList := by
  unfold segments
  rw [reverse_append, reverse_singleton, singleton_append, segmentsRev, reverse_reverse]
  rw [if_neg h]

theorem flatten_segments (events : List ε) : (segments cuts elem events).all.flatten = events.filterMap elem := by
  induction events using reverseRecOn with
  | nil => rfl
  | append_singleton events e ih =>
    have hlast : [e].filterMap elem = (elem e).toList := by
      cases h : elem e with
      | none => rw [filterMap_cons_none h]; rfl
      | some v => rw [filterMap_cons_some h]; rfl
    rw [filterMap_append, hlast, ← ih]
    by_cases h : cuts events e
    · rw [segments_cut h, Segments.flatten_all_add, Segments.flatten_all_cut]
    · rw [segments_keep h, Segments.flatten_all_add]

end

/-! ### Machines that answer every input -/

namespace Mealy

open List

variable {σ α ω : Type} {step : σ → α → ω × σ} {s : σ}

def after (step : σ → α → ω × σ) (s : σ) (inputs : List α) : σ :=
  inputs.foldl (fun s a => (step s a).2) s

def outputs (step : σ → α → ω × σ) (s : σ) : List α → List ω
  | [] => []
  | a :: inputs => (step s a).1 :: outputs step (step s a).2 inputs

theorem after_concat (inputs : List α) (a : α) : after step s (inputs ++ [a]) = (step (after step s inputs) a).2 :=
  foldl_concat ..

theorem outputs_append (inputs inputs' : List α) :
    outputs step s (inputs ++ inputs') = outputs step s inputs ++ outputs step (after step s inputs) inputs' := by
  induction inputs generalizing s with
  | nil => rfl
  | cons a inputs ih =>
    rw [cons_append, outputs, ih, outputs, cons_append]
    rfl

theorem outputs_concat (inputs : List α) (a : α) :
    outputs step s (inputs ++ [a]) = outputs step s inputs ++ [(step (after step s inputs) a).1] :=
  outputs_append inputs [a]

/-! ### Outputs that may be missing -/

section Optional

variable {step : σ → α → Option ω × σ}

/-- The inputs that something has been put out for, with what it was. -/
def emissions (step : σ → α → Option ω × σ) (s : σ) : List α → List (α × ω)
  | [] => []
  | a :: inputs => ((step s a).1.map (a, ·)).toList ++ emissions step (step s a).2 inputs

/-- The inputs after the last one that something has been put out for. -/
def since (step : σ → α → Option ω × σ) (s : σ) (inputs : List α) : List α :=
  (inputs.foldl (fun r a => ((step r.1 a).2, if (step r.1 a).1.isSome then [] else r.2 ++ [a])) (s, [])).2

theorem emissions_concat (inputs : List α) (a : α) : emissions step s (inputs ++ [a]) =
      emissions step s inputs ++ ((step (after step s inputs) a).1.map (a, ·)).toList := by
  induction inputs generalizing s with
  | nil => exact append_nil _
  | cons b inputs ih =>
    rw [cons_append, emissions, ih, emissions, append_assoc]
    rfl

theorem since_concat (inputs : List α) (a : α) : since step s (inputs ++ [a]) =
      if (step (after step s inputs) a).1.isSome then [] else since step s inputs ++ [a] := by
  have hfst : ∀ (inputs : List α) (s : σ) (l : List α),
      (inputs.foldl (fun r a => ((step r.1 a).2, if (step r.1 a).1.isSome then [] else r.2 ++ [a])) (s, l)).1 =
        after step s inputs := by
    intro inputs
    induction inputs with
    | nil => exact fun _ _ => rfl
    | cons b inputs ih => exact fun s l => ih _ _
  unfold since
  rw [foldl_concat, hfst]

end Optional

end Mealy

/-! ### Latches -/

/-- What is latched stays, and is the only output. Final outputs are latched. -/
structure Latching {σ α ω : Type} (step : σ → α → Option ω × σ) (latched : σ → Option ω) (Final : ω → Prop) : Prop where
  keeps : ∀ s a o, latched s = some o → latched (step s a).2 = some o
  only : ∀ s a o, latched s = some o → ∀ o', (step s a).1 = some o' → o' = o
  latches : ∀ s a o, (step s a).1 = some o → Final o → latched (step s a).2 = some o

namespace Latching

open Mealy List

variable {σ α ω : Type} {step : σ → α → Option ω × σ} {latched : σ → Option ω} {Final : ω → Prop} {s : σ} {o o' : ω}

theorem after_of_latched (h : Latching step latched Final) (hs : latched s = some o) (inputs : List α) :
    latched (after step s inputs) = some o := by
  induction inputs generalizing s with
  | nil => exact hs
  | cons a inputs ih => exact ih (h.keeps s a o hs)

variable {inputs : List α}

theorem eq_of_latched (h : Latching step latched Final) (hs : latched s = some o)
    (ho' : some o' ∈ outputs step s inputs) : o' = o := by
  induction inputs generalizing s with
  | nil => cases ho'
  | cons a inputs ih =>
    obtain heq | ho' := mem_cons.mp ho'
    · exact h.only s a o hs o' heq.symm
    · exact ih (h.keeps s a o hs) ho'

/-- After a final output every other one is the same. -/
theorem absorbing (h : Latching step latched Final) {a : α} (ho : (step s a).1 = some o) (hfinal : Final o)
    (ho' : some o' ∈ outputs step (step s a).2 inputs) : o' = o :=
  h.eq_of_latched (h.latches s a o ho hfinal) ho'

/-- As long as nothing is latched, no output has been final. -/
theorem not_final_of_after (h : Latching step latched Final) (hnone : latched (after step s inputs) = none)
    (ho : some o ∈ outputs step s inputs) : ¬ Final o := by
  intro hfinal
  induction inputs generalizing s with
  | nil => cases ho
  | cons a inputs ih =>
    obtain heq | ho := mem_cons.mp ho
    · have hlatched := h.after_of_latched (h.latches s a o heq.symm hfinal) inputs
      rw [Mealy.after, foldl_cons] at hnone
      rw [Mealy.after, hnone] at hlatched
      cases hlatched
    · exact ih hnone ho

end Latching

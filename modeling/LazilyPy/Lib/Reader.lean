import Mathlib.Data.Option.Basic

/-!
# Cached readers

A reader keeps what it has computed until it is reset. It is fresh while what it keeps is what it would
compute.
-/

structure Reader (α : Type) where
  cached : Option α := none
  deriving DecidableEq

namespace Reader

variable {α : Type} {r : Reader α} {v w : α}

def read (r : Reader α) (compute : α) : α × Reader α :=
  match r.cached with
  | some a => (a, r)
  | none => (compute, ⟨some compute⟩)

def reset (_ : Reader α) : Reader α := {}

def resetIf (changed : Prop) [Decidable changed] (r : Reader α) : Reader α :=
  if changed then r.reset else r

/-- What is kept is `v`. -/
def Fresh (r : Reader α) (v : α) : Prop :=
  ∀ a, r.cached = some a → a = v

theorem fresh_reset : r.reset.Fresh v :=
  fun _ h => nomatch h

theorem fresh_default : ({} : Reader α).Fresh v :=
  fun _ h => nomatch h

theorem Fresh.value_read (h : r.Fresh v) : (r.read v).1 = v := by
  unfold read
  cases hcached : r.cached with
  | none => rfl
  | some a => exact h a hcached

theorem Fresh.read (h : r.Fresh v) : (r.read v).2.Fresh v := by
  unfold Reader.read
  cases hcached : r.cached with
  | none => exact fun a ha => (Option.some.inj ha).symm
  | some a => exact h

/-- A reader that is reset where the value changes stays fresh. -/
theorem Fresh.resetIf (h : r.Fresh v) {changed : Prop} [Decidable changed]
    (hchanged : ¬ changed → w = v) : (r.resetIf changed).Fresh w := by
  unfold Reader.resetIf
  split
  · exact fresh_reset
  · next hsame => exact hchanged hsame ▸ h

end Reader

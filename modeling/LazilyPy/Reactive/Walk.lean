import LazilyPy.Lib.Sweep
import LazilyPy.Lib.Loop
import LazilyPy.Reactive.Reliance

/-!
# The walk of a disposal

What `dispose` does in a graph without a `Computed`, from any heap and over any call stack, up to the moment at
which it returns: the node is marked, and the walk over its dependents drops the values that it comes across. No
callable and no body runs. The cleanup of an effect is user code; one that leaves the graph alone and does not
raise changes nothing.
-/

namespace LazilyPy.Reactive

open List Function

variable {V : Type}

/-! ## Walks -/

def Heap.Alive (h : Heap V) (n : Node) : Prop :=
  h.disposed n = false

/-- The walk over `roots` has taken `h` to `h'`. -/
structure Walked (h : Heap V) (roots : List Node) (h' : Heap V) : Prop where
  dropped : ∀ i, Swept h.parents h.Alive roots (.slot i) → h'.cache (.slot i) = none
  kept : ∀ m, ¬ Swept h.parents h.Alive roots m → h'.cache m = h.cache m
  subset : ∀ a, h'.parents a ⊆ h.parents a
  parents : ∀ a, ¬ Swept h.parents h.Alive roots a → h'.parents a = h.parents a
  disposed : h'.disposed = h.disposed
  runs : h'.runs = h.runs
  cleanup : h'.cleanup = h.cleanup

theorem walked_nil (h : Heap V) : Walked h [] h where
  dropped := fun _ hs => absurd hs not_swept_nil
  kept := fun _ _ => rfl
  subset := fun _ => Subset.refl _
  parents := fun _ _ => rfl
  disposed := rfl
  runs := rfl
  cleanup := rfl

variable {h h' : Heap V} {n : Node} {rest : List Node}

theorem Walked.skip (hw : Walked h rest h') (hdead : h.disposed n = true) : Walked h (n :: rest) h' := by
  have hsame : ∀ m, Swept h.parents h.Alive (n :: rest) m ↔ Swept h.parents h.Alive rest m :=
    fun m => swept_cons_of_dead (by simp [Heap.Alive, hdead])
  exact ⟨fun i hs => hw.dropped i ((hsame _).mp hs), fun m hs => hw.kept m fun h => hs ((hsame m).mpr h),
    hw.subset, fun a hs => hw.parents a fun h => hs ((hsame a).mpr h), hw.disposed, hw.runs, hw.cleanup⟩

theorem parents_visit (hn : n.isPlain = true) :
    ((h.clearParents n).dropCached n).parents = update h.parents n [] := by
  cases n with
  | slot i | effect i => rfl
  | _ => cases hn

/-- A live dependent loses its own dependents and its value. -/
theorem Walked.visit {ord : Enum} (hord : ord.Lawful) (hn : n.isPlain = true) (hlive : h.disposed n = false)
    (hw : Walked ((h.clearParents n).dropCached n) (ord (some n) (h.parents n) ++ rest) h') :
    Walked h (n :: rest) h' := by
  have hparents := parents_visit (h := h) hn
  have halive : h.Alive n := hlive
  have hdisposed : ((h.clearParents n).dropCached n).disposed = h.disposed := by
    cases n with
    | slot i | effect i => rfl
    | _ => cases hn
  have hruns : ((h.clearParents n).dropCached n).runs = h.runs := by
    cases n with
    | slot i | effect i => rfl
    | _ => cases hn
  have hcleanup : ((h.clearParents n).dropCached n).cleanup = h.cleanup := by
    cases n with
    | slot i | effect i => rfl
    | _ => cases hn
  have hself : ∀ i, Node.slot i = n → ((h.clearParents n).dropCached n).cache n = none := by
    rintro i rfl
    exact update_self _ _ _
  have hcache : ∀ m, m ≠ n → ((h.clearParents n).dropCached n).cache m = h.cache m := by
    intro m hm
    cases n with
    | slot i => exact update_of_ne hm _ _
    | effect e => rfl
    | _ => cases hn
  generalize (h.clearParents n).dropCached n = h₁ at hw hparents hdisposed hruns hcleanup hself hcache
  -- what is left to reach once `n` has been visited
  have hswept : ∀ m, Swept h.parents h.Alive (n :: rest) m ↔
      m = n ∨ Swept h₁.parents h₁.Alive (ord (some n) (h.parents n) ++ rest) m := by
    intro m
    have hroots : ∀ a, a ∈ h.parents n ++ rest ↔ a ∈ ord (some n) (h.parents n) ++ rest := by
      intro a
      simp only [mem_append, (hord _ _).mem_iff]
    have hsame : h₁.Alive = h.Alive := by
      funext a
      simp only [Heap.Alive, hdisposed]
    rw [swept_cons_of_live halive, hparents, hsame, swept_congr hroots]
  refine ⟨fun i hs => ?_, fun m hs => ?_, fun a => ?_, fun a hs => ?_, hw.disposed.trans hdisposed,
    hw.runs.trans hruns, hw.cleanup.trans hcleanup⟩
  · by_cases hagain : Swept h₁.parents h₁.Alive (ord (some n) (h.parents n) ++ rest) (.slot i)
    · exact hw.dropped i hagain
    · obtain rfl := ((hswept _).mp hs).resolve_right hagain
      exact (hw.kept _ hagain).trans (hself i rfl)
  · have hm : m ≠ n := fun heq => hs ((hswept m).mpr (.inl heq))
    exact (hw.kept m fun h => hs ((hswept m).mpr (.inr h))).trans (hcache m hm)
  · refine Subset.trans (hw.subset a) ?_
    rw [hparents]
    by_cases ha : a = n
    · simp [ha]
    · rw [update_of_ne ha]
      exact Subset.refl _
  · have ha : a ≠ n := fun heq => hs ((hswept a).mpr (.inl heq))
    refine (hw.parents a fun h => hs ((hswept a).mpr (.inr h))).trans ?_
    rw [hparents, update_of_ne ha]

variable [DecidableEq V] {G : Graph V} {Q : Config V → Prop} {st st₀ : List (Frame V)}

def Tick (G : Graph V) (c c' : Config V) : Prop :=
  ∃ ord : Enum, ord.Lawful ∧ step G ord c = some c'

omit [DecidableEq V] in
/-- A call has returned to `st`. -/
def Config.ReturnedTo (st : List (Frame V)) (c : Config V) : Prop :=
  c.stack = st ∧ ∃ cl, c.ctl = .returned cl

/-- A statement that has not returned, under whatever enumeration. -/
theorem until_of_step {c : Config V} (hgo : ¬ c.ReturnedTo st₀) (f : Enum → Config V)
    (hf : ∀ ord, step G ord c = some (f ord))
    (hnext : ∀ ord, ord.Lawful → Until (Tick G) (Config.ReturnedTo st₀) Q (f ord)) :
    Until (Tick G) (Config.ReturnedTo st₀) Q c := by
  refine .later hgo ⟨_, .stored, Enum.stored_lawful, hf _⟩ ?_
  rintro c' ⟨ord, hord, hs⟩
  rw [hf] at hs
  cases hs
  exact hnext ord hord

/-- Every walk ends. Each visit takes as many edges as it puts nodes on the stack. -/
theorem until_dirty {nodes : Finset Node} (hh : PlainHeap h) {ns : List Node}
    (hout : ∀ a ∉ nodes, h.parents a = []) (hns : ∀ n ∈ ns, n.isPlain = true) {size : ℕ}
    (hsize : edgesWithin nodes h.parents + ns.length ≤ size)
    (hdone : ∀ h', PlainHeap h' → Walked h ns h' → Until (Tick G) (Config.ReturnedTo st₀) Q ⟨h', .returned none, st⟩) :
    Until (Tick G) (Config.ReturnedTo st₀) Q ⟨h, .dirty ns, st⟩ := by
  have hgo : ∀ {h ns}, ¬ (⟨h, .dirty ns, st⟩ : Config V).ReturnedTo st₀ := by
    rintro h ns ⟨-, cl, hcl⟩
    cases hcl
  induction size generalizing h ns with
  | zero =>
    obtain rfl : ns = [] := length_eq_zero_iff.mp (by omega)
    exact until_of_step hgo (fun _ => _) (fun _ => rfl) fun _ _ => hdone h hh (walked_nil h)
  | succ size ih =>
    cases ns with
    | nil => exact until_of_step hgo (fun _ => _) (fun _ => rfl) fun _ _ => hdone h hh (walked_nil h)
    | cons n rest =>
      refine until_of_step hgo (fun ord => stepDirty ord h st (n :: rest)) (fun _ => rfl) fun ord hord => ?_
      obtain ⟨hn, hrest⟩ := forall_mem_cons.mp hns
      rw [length_cons] at hsize
      by_cases hdead : h.disposed n = true
      · have hstep : stepDirty ord h st (n :: rest) = ⟨h, .dirty rest, st⟩ := if_pos hdead
        rw [hstep]
        exact ih hh hout hrest (by omega) fun h' hh' hw => hdone h' hh' (hw.skip hdead)
      · have hlive : h.disposed n = false := by simpa using hdead
        have hstep : stepDirty ord h st (n :: rest) = ⟨(h.clearParents n).dropCached n,
            .dirty (ord (some n) (h.parents n) ++ rest), st⟩ := if_neg hdead
        have hnext : ∀ m ∈ ord (some n) (h.parents n) ++ rest, m.isPlain = true := fun m hm =>
          (mem_append.mp hm).elim (fun hm => hh.parents n m ((hord _ _).mem_iff.mp hm)) (hrest m)
        have htaken := edgesWithin_take hout n
        have hlength := (hord (some n) (h.parents n)).length_eq
        rw [hstep]
        refine ih ((hh.clearParents n).dropCached hn) (fun a ha => ?_) hnext ?_ fun h' hh' hw =>
          hdone h' hh' (hw.visit hord hn hlive)
        · rw [parents_visit hn]
          by_cases han : a = n
          · rw [han, update_self]
          · rw [update_of_ne han, hout a ha]
        · rw [parents_visit hn, length_append]
          omega

/-! ## Cleanups -/

omit [DecidableEq V] in
def Code.Silent : Code V → Prop
  | .done | .doneWith _ | .raise => True
  | .attempt b k => b.Silent ∧ k.Silent
  | _ => False

omit [DecidableEq V] in
def Code.Harmless : Code V → Prop
  | .done | .doneWith _ => True
  | .attempt b k => b.Silent ∧ k.Harmless
  | _ => False

omit [DecidableEq V] in
/-- Below a frame, no call to `st₀` has returned. -/
theorem not_returnedTo {f : Frame V} (hlen : st₀.length ≤ st.length) {t : Ctl V} :
    ¬ (⟨h, t, f :: st⟩ : Config V).ReturnedTo st₀ := by
  rintro ⟨rfl, -⟩
  rw [length_cons] at hlen
  omega

variable {r : Option Node} {code : Code V}

omit [DecidableEq V] in
theorem not_returnedTo_exec :
    ¬ (⟨h, .exec r code, st⟩ : Config V).ReturnedTo st₀ := by
  rintro ⟨-, cl, hcl⟩
  cases hcl

theorem until_silent (hcode : code.Silent) (hlen : st₀.length < st.length)
    (hret : ∀ cl, Until (Tick G) (Config.ReturnedTo st₀) Q ⟨h, .returned cl, st⟩)
    (hraised : Until (Tick G) (Config.ReturnedTo st₀) Q ⟨h, .raised, st⟩) :
    Until (Tick G) (Config.ReturnedTo st₀) Q ⟨h, .exec r code, st⟩ := by
  induction code generalizing st with
  | done | doneWith c =>
    exact until_of_step not_returnedTo_exec (fun _ => _) (fun _ => rfl) fun _ _ => hret _
  | raise => exact until_of_step not_returnedTo_exec (fun _ => _) (fun _ => rfl) fun _ _ => hraised
  | attempt b k ihb ihk =>
    have hnext := ihk hcode.2 hlen hret hraised
    refine until_of_step not_returnedTo_exec (fun _ => _) (fun _ => rfl) fun _ _ => ?_
    refine ihb hcode.1 (Nat.lt_succ_of_lt hlen) (fun cl => ?_) ?_
    · exact until_of_step (not_returnedTo hlen.le) (fun _ => _) (fun _ => rfl) fun _ _ => hnext
    · exact until_of_step (not_returnedTo hlen.le) (fun _ => _) (fun _ => rfl) fun _ _ => hnext
  | _ => cases hcode

theorem until_harmless (hcode : code.Harmless) (hlen : st₀.length ≤ st.length)
    (hret : ∀ cl, Until (Tick G) (Config.ReturnedTo st₀) Q ⟨h, .returned cl, st⟩) :
    Until (Tick G) (Config.ReturnedTo st₀) Q ⟨h, .exec r code, st⟩ := by
  induction code with
  | done | doneWith c =>
    exact until_of_step not_returnedTo_exec (fun _ => _) (fun _ => rfl) fun _ _ => hret _
  | attempt b k ihb ihk =>
    have hnext := ihk hcode.2
    refine until_of_step not_returnedTo_exec (fun _ => _) (fun _ => rfl) fun _ _ => ?_
    refine until_silent hcode.1 (Nat.lt_succ_of_le hlen) (fun cl => ?_) ?_
    · exact until_of_step (not_returnedTo hlen) (fun _ => _) (fun _ => rfl) fun _ _ => hnext
    · exact until_of_step (not_returnedTo hlen) (fun _ => _) (fun _ => rfl) fun _ _ => hnext
  | _ => cases hcode

/-! ## The disposal of a node -/

omit [DecidableEq V] in
/-- The disposal of `n` reaches the node. -/
def Gone (h : Heap V) (n m : Node) : Prop :=
  h.disposed n = false ∧ (m = n ∨ Swept h.parents h.Alive (h.parents n) m)

/-- The disposal of `n` has taken `h` to `h'`. -/
structure Torn (n : Node) (h h' : Heap V) : Prop where
  idle : h.disposed n = true → h' = h
  dropped : ∀ i, Gone h n (.slot i) → h'.cache (.slot i) = none
  kept : ∀ m, ¬ Gone h n m → h'.cache m = h.cache m
  disposed : ∀ m, h'.disposed m = true ↔ h.disposed m = true ∨ m = n
  subset : ∀ a, h'.parents a ⊆ h.parents a
  parents : ∀ a b, b ∈ h.parents a → b ≠ n → ¬ Gone h n a → b ∈ h'.parents a
  runs : h'.runs = h.runs
  cleanup : ∀ m c, h'.cleanup m = some c → h.cleanup m = some c

omit [DecidableEq V] in
/-- A node that is disposed already. -/
theorem torn_self (hdead : h.disposed n = true) : Torn n h h where
  idle := fun _ => rfl
  dropped := fun i hg => by simp [Gone, hdead] at hg
  kept := fun _ _ => rfl
  disposed := fun m => ⟨.inl, fun hm => hm.elim id fun heq => heq ▸ hdead⟩
  subset := fun _ => Subset.refl _
  parents := fun _ _ hb _ _ => hb
  runs := rfl
  cleanup := fun _ _ hc => hc

omit [DecidableEq V] in
/-- The node is marked and detached, and the walk over its dependents has been through. -/
theorem torn_of_walked {h₁ : Heap V} {roots : List Node} (hw : Walked h₁ roots h') (hlive : h.disposed n = false)
    (hdisposed : h₁.disposed = update h.disposed n true)
    (hsub : ∀ a, h₁.parents a ⊆ h.parents a)
    (hsame : ∀ a b, b ∈ h.parents a → b ≠ n → a ≠ n → b ∈ h₁.parents a)
    (hself : ∀ i, Node.slot i = n → h₁.cache n = none) (hcache : ∀ m, m ≠ n → h₁.cache m = h.cache m)
    (hruns : h₁.runs = h.runs) (hcleanup : ∀ m c, h₁.cleanup m = some c → h.cleanup m = some c)
    (hroots : ∀ a ∈ roots, a ∈ h.parents n) (hroots' : ∀ a ∈ h.parents n, a ≠ n → a ∈ roots) :
    Torn n h h' := by
  have halive : ∀ a, h₁.Alive a ↔ h.Alive a ∧ a ≠ n := by
    intro a
    simp only [Heap.Alive, hdisposed]
    by_cases ha : a = n
    · simp [ha]
    · simp [ha]
  have hgone : ∀ m, Gone h n m ↔ m = n ∨ Swept h₁.parents h₁.Alive roots m := fun m =>
    ⟨fun hg => (swept_without halive (fun a b hb => hsub a hb) hsame hroots hroots').mpr hg.2,
      fun hs => ⟨hlive, (swept_without halive (fun a b hb => hsub a hb) hsame hroots hroots').mp hs⟩⟩
  have hself' : ¬ Swept h₁.parents h₁.Alive roots n := fun hs => ((halive n).mp hs.alive).2 rfl
  refine ⟨fun hdead => ?_, fun i hg => ?_, fun m hg => ?_, fun m => ?_,
    fun a => Subset.trans (hw.subset a) (hsub a), fun a b hb hbn hg => ?_, hw.runs.trans hruns, ?_⟩
  · rw [hlive] at hdead
    cases hdead
  · obtain rfl | hs := (hgone _).mp hg
    · exact (hw.kept _ hself').trans (hself i rfl)
    · exact hw.dropped i hs
  · rw [hgone, not_or] at hg
    exact (hw.kept m hg.2).trans (hcache m hg.1)
  · rw [hw.disposed, hdisposed]
    by_cases hm : m = n
    · simp [hm]
    · simp [hm]
  · rw [hgone, not_or] at hg
    rw [hw.parents a hg.2]
    exact hsame a b hb hbn hg.1
  · rw [hw.cleanup]
    exact hcleanup

end LazilyPy.Reactive

import LazilyPy.Ingress.Fence

/-!
# In order, and exactly once

While a scope is not closed and keeps its generation, and no window is thrown away, what has been
drained and what is left in the window are together the fold of the payloads of the sequences from 0
up to the cursor.
-/

namespace LazilyPy.Ingress

open List Option

variable {K T : Type}

namespace Scope

variable {policy : IngressPolicy} {merge : T → T → T} {now : ℤ} {s : Scope T} {e : IngressEnvelope K T}

theorem generation_order {handoff : Option (ℤ × ℤ)} :
    (s.order policy merge e handoff).1.generation = s.generation := by
  refine order_rule (P := fun s' => s'.generation = s.generation) rfl (fun _ => rfl) fun _ => ?_
  refine deliver_invariant (P := fun s' => s'.generation = s.generation) ?_ fun s' b _ h => h
  rw [absorb_scope]
  unfold room
  split
  · rfl
  · rfl

/-- An admission does not close a scope. -/
theorem decide_ne_closed (h : s.lifecycle ≠ .closed) : (s.decide policy merge now e).1.lifecycle ≠ .closed := by
  refine decide_rule (P := fun s => s.lifecycle ≠ .closed) h fun _ handoff => ?_
  have hbase : (s.base e).lifecycle ≠ .closed := by
    unfold base
    split
    · exact h
    · exact h
  refine order_rule (P := fun s => s.lifecycle ≠ .closed) hbase (fun _ => hbase) fun _ => ?_
  refine deliver_invariant (P := fun s => s.lifecycle ≠ .closed) ?_ fun s b _ h => h
  rw [absorb_scope]
  nofun

/-- An admission that keeps the generation takes no scope over. -/
theorem decide_of_generation_eq (h : (s.decide policy merge now e).1.generation = s.generation)
    (hfenced : ¬ s.Fenced policy now e) : e.generation = s.generation := by
  obtain ⟨handoff, hd⟩ := decide_of_not_fenced merge hfenced
  rw [hd, generation_order] at h
  have hle : ¬ e.generation < s.generation := fun hstale => hfenced (.inr (.inl hstale))
  unfold base at h
  split at h
  · exact h
  · omega

end Scope

structure InOrder (merge : T → T → T) (P : IngressEnvelope K T → Prop) (drained : List T) (s : Scope T) : Prop where
  open_ : s.lifecycle ≠ .closed
  traced : Traced merge P drained 0 s

namespace InOrder

variable {policy : IngressPolicy} {merge : T → T → T} {now : ℤ} {s : Scope T}
  {e : IngressEnvelope K T} {P : IngressEnvelope K T → Prop} {drained : List T} {generation : ℤ}

theorem new (generation : ℤ) : InOrder merge P [] (.new T generation) :=
  ⟨nofun, .new generation⟩

theorem reopen (h : InOrder merge P drained s) (hsame : (s.reopen generation).1.generation = s.generation) :
    InOrder merge P drained (s.reopen generation).1 := by
  unfold Scope.reopen at hsame ⊢
  dsimp only at hsame ⊢
  rw [if_neg h.open_] at hsame ⊢
  split
  · next hlt =>
    rw [if_pos hlt] at hsame
    dsimp only at hsame
    omega
  · exact ⟨Scope.liveOrOpening_ne_closed, h.traced.congr rfl rfl rfl rfl rfl⟩

theorem reconnect (h : InOrder merge P drained s) (hsame : (s.reconnect generation).1.generation = s.generation) :
    InOrder merge P drained (s.reconnect generation).1 := by
  unfold Scope.reconnect at hsame ⊢
  dsimp only at hsame ⊢
  split
  · next hlt =>
    rw [if_pos hlt] at hsame
    dsimp only [Scope.handOff] at hsame
    omega
  · exact ⟨Scope.liveOrOpening_ne_closed, h.traced.congr rfl rfl rfl rfl rfl⟩

theorem suspend (h : InOrder merge P drained s) : InOrder merge P drained { s with lifecycle := .suspended } :=
  ⟨nofun, h.traced.congr rfl rfl rfl rfl rfl⟩

theorem fail (h : InOrder merge P drained s) : InOrder merge P drained s.fail :=
  ⟨h.open_, h.traced.congr rfl rfl rfl rfl rfl⟩

/-- A value goes from the window to what has been drained. -/
theorem drain (h : InOrder merge P drained s) {v : T} (hv : s.window = some v) :
    InOrder merge P (drained ++ [v]) s.clearWindow := by
  obtain ⟨l, hl, hfold, hstamps⟩ := h.traced.window
  refine ⟨h.open_, ⟨l, hl, ?_, hstamps⟩, h.traced.pending, h.traced.stamp⟩
  rw [← hfold, hv]
  exact congrArg (mergeAll merge) (append_nil _)

theorem decide (h : InOrder merge P drained s) (hassoc : Std.Associative merge)
    (hover : policy.overflow ≠ .dropOldest) (he : P e)
    (hsame : (s.decide policy merge now e).1.generation = s.generation) :
    InOrder merge P drained (s.decide policy merge now e).1 := by
  refine ⟨Scope.decide_ne_closed h.open_, ?_⟩
  refine Scope.decide_rule h.traced fun hfenced handoff => ?_
  have hgen := Scope.decide_of_generation_eq hsame hfenced
  have hbase : s.base e = s := if_neg (by omega)
  rw [hbase]
  exact h.traced.order (.inr hassoc) hover he hgen

theorem getD {o : Option (Scope T)} (h : ∀ s ∈ o, InOrder merge P drained s)
    (hnone : o = none → drained = []) (generation : ℤ) :
    InOrder merge P drained (o.getD (.new T generation)) := by
  cases o with
  | none => exact hnone rfl ▸ .new generation
  | some s => exact h s rfl

end InOrder

/-- The envelope that makes a scope known is of its generation. -/
theorem Scope.generation_decide_new {policy : IngressPolicy} {merge : T → T → T} {now : ℤ} {e : IngressEnvelope K T} :
    ((Scope.new T e.generation).decide policy merge now e).1.generation = e.generation := by
  refine decide_rule (P := fun s => s.generation = e.generation) rfl fun _ handoff => ?_
  rw [generation_order]
  exact congrArg Scope.generation (if_neg (lt_irrefl _))

/-! ## One operation -/

def Op.drains (s : Option (Scope T)) : Op K T → List T
  | .drain _ => (s.bind Scope.window).toList
  | _ => []

variable {o : Option (Scope T)}

/-- Only a drain drains, and only from a window. -/
theorem Op.drains_of_window (op : Op K T) (h : ∀ key, op = .drain key → o.bind Scope.window = none) :
    op.drains o = [] := by
  cases op with
  | drain key => rw [drains, h key rfl, toList_none]
  | _ => rfl

theorem Op.drains_none (op : Op K T) : op.drains none = [] :=
  op.drains_of_window fun _ _ => rfl

/-- No operation makes a key unknown again. -/
theorem Op.eq_none_of_act {policy : IngressPolicy} {merge : T → T → T} {now : ℤ} (op : Op K T)
    (h : (op.act policy merge now o).1 = none) :
    o = none := by
  cases o with
  | none => rfl
  | some s =>
    exfalso
    cases op with
    | «open» key generation => cases h
    | suspend key =>
      dsimp only [act] at h
      split at h
      · cases h
      · cases h
    | reconnect key generation => cases h
    | close key =>
      dsimp only [act] at h
      split at h
      · cases h
      · cases h
    | tick now' => cases h
    | fail key error => cases h
    | drain key =>
      dsimp only [act] at h
      split at h
      · cases h
      · cases h
    | admitEnvelope e => simp [act] at h

/-- An operation that neither closes the scope of its key nor changes its generation keeps it in
order. -/
theorem inOrder_act {policy : IngressPolicy} {merge : T → T → T} {now : ℤ} {P : IngressEnvelope K T → Prop}
    {drained : List T} (hassoc : Std.Associative merge) (hover : policy.overflow ≠ .dropOldest)
    (h : ∀ s ∈ o, InOrder merge P drained s) (hnone : o = none → drained = []) (op : Op K T)
    (hoffered : ∀ e, op = .admitEnvelope e → P e) (hclose : ∀ key, op ≠ .close key)
    (hsame : ∀ s ∈ o, ∀ s' ∈ (op.act policy merge now o).1, s'.generation = s.generation) :
    ∀ s' ∈ (op.act policy merge now o).1, InOrder merge P (drained ++ op.drains o) s' := by
  intro s' hs'
  cases op.acted hs' with
  | same hs hdrain =>
    rw [op.drains_of_window fun key hop => by rw [hs, bind_some, hdrain key hop], append_nil]
    exact h s' hs
  | new hunknown =>
    rw [hnone hunknown]
    exact .new _
  | reopen hs =>
    show InOrder merge P (drained ++ []) _
    rw [append_nil]
    exact (h _ hs).reopen (hsame _ hs _ hs')
  | suspend hs =>
    show InOrder merge P (drained ++ []) _
    rw [append_nil]
    exact (h _ hs).suspend
  | reconnect =>
    show InOrder merge P (drained ++ []) _
    rw [append_nil]
    refine (InOrder.getD h hnone _).reconnect ?_
    cases o with
    | none => simp [Scope.reconnect, Scope.new]
    | some s => exact hsame s rfl _ rfl
  | close _ => exact absurd rfl (hclose _)
  | fail =>
    show InOrder merge P (drained ++ []) _
    rw [append_nil]
    exact (InOrder.getD h hnone 0).fail
  | drain hs hvalue =>
    rw [Op.drains, hs, bind_some, hvalue, toList_some]
    exact (h _ hs).drain hvalue
  | decide _ =>
    show InOrder merge P (drained ++ []) _
    rw [append_nil]
    refine (InOrder.getD h hnone _).decide hassoc hover (hoffered _ rfl) ?_
    cases o with
    | none => exact Scope.generation_decide_new
    | some s => exact hsame s rfl _ hs'

/-! ## Runs -/

def drainedValues [DecidableEq K] (key : K) (history : List (Op K T × Reply T)) : List T :=
  history.filterMap fun
    | (.drain k, .drained value) => if k = key then value else none
    | _ => none

variable [DecidableEq K]

/-- The operation does not close the scope of the key, and does not change its generation. -/
def Steady (key : K) (c : IngressCore K T) (op : Op K T) : Prop :=
  op ≠ .close key ∧ ∀ s s', c.scope? key = some s → (c.step op).core.scope? key = some s' → s'.generation = s.generation

variable {c c₀ : IngressCore K T} {history : List (Op K T × Reply T)} {key : K}

/-- What an operation answers to a drain of the key is what it takes from the window. -/
theorem drainedValues_concat (c : IngressCore K T) (op : Op K T) :
    drainedValues key (history ++ [(op, (c.step op).reply)]) = drainedValues key history ++
        if op.key? = some key then op.drains (c.scope? key) else [] := by
  unfold drainedValues
  rw [filterMap_append]
  refine congrArg (_ ++ ·) ?_
  cases op with
  | drain k =>
    by_cases hk : k = key
    · subst hk
      simp only [Op.key?, Op.drains, if_true, IngressCore.step, IngressCore.drain, filterMap_cons, filterMap_nil]
      cases c.scope? k with
      | none => rfl
      | some s =>
        dsimp only [bind_some]
        cases s.window with
        | none => rfl
        | some v => rfl
    · have hkey : ¬ some k = some key := fun heq => hk (some.inj heq)
      simp [Op.key?, IngressCore.step, hk]
  | _ => simp [Op.drains, IngressCore.step]

/-- What holds of the key after a run whose operations are steady for it. -/
theorem inOrder_run (hassoc : Std.Associative c₀.merge.merge)
    (hover : c₀.policy.overflow ≠ .dropOldest) (h₀ : c₀.scope? key = none)
    (hrun : RunWhere (Steady key) c₀ history c) :
    (c.scope? key = none → drainedValues key history = []) ∧ ∀ s, c.scope? key = some s →
        InOrder c₀.merge.merge (Admitted history key) (drainedValues key history) s := by
  induction hrun with
  | nil =>
    refine ⟨fun _ => rfl, fun s hs => ?_⟩
    rw [h₀] at hs
    cases hs
  | @concat history c op hrun hop ih =>
    obtain ⟨hnone, hsome⟩ := ih
    obtain ⟨hpolicy, hmerge⟩ := IngressCore.config_run hrun
    have hsome' : ∀ s ∈ c.scope? key, InOrder c₀.merge.merge
        (Admitted (history ++ [(op, (c.step op).reply)]) key) (drainedValues key history) s :=
      fun s hs => ⟨(hsome s hs).open_, (hsome s hs).traced.mono fun e he => he.append⟩
    rw [IngressCore.scope?_step, drainedValues_concat, hpolicy, hmerge]
    by_cases hkey : op.key? = some key
    · rw [if_pos hkey, if_pos hkey]
      have hstep := IngressCore.scope?_step c op key
      rw [if_pos hkey, hpolicy, hmerge] at hstep
      constructor
      · intro hafter
        have hbefore := op.eq_none_of_act hafter
        rw [hnone hbefore, hbefore, op.drains_none]
        rfl
      · refine inOrder_act hassoc hover hsome' hnone op (fun e he => admitted_step hkey he) ?_ ?_
        · rintro k rfl
          exact hop.1 (congrArg Op.close (some.inj hkey))
        · intro s hs s' hs'
          exact hop.2 s s' hs (hstep.trans hs')
    · rw [if_neg hkey, if_neg hkey, append_nil]
      exact ⟨hnone, hsome'⟩

/-- For an associative merge, under `block` or `conflate`, over every run that neither closes the
scope of the key nor changes its generation: what has been drained, followed by the window, is the
fold of the payloads of the sequences from 0 up to the cursor, each once and in order. -/
theorem exactly_once {policy : IngressPolicy} {merge : MergePolicy T} {s : Scope T}
    (hnew : IngressCore.new K policy merge = .ok c₀)
    (hover : policy.overflow = .block ∨ policy.overflow = .conflate)
    (hassoc : Std.Associative merge.merge) (hrun : RunWhere (Steady key) c₀ history c)
    (hs : c.scope? key = some s) :
    ∃ l : List (IngressEnvelope K T), (∀ e ∈ l, Admitted history key e ∧ e.generation = s.generation) ∧
        l.map (·.sequence) = (range s.nextExpected.toNat).map (fun i : ℕ => (i : ℤ)) ∧
          mergeAll merge.merge (drainedValues key history ++ s.window.toList) =
            mergeAll merge.merge (l.map (·.payload)) := by
  have hfresh := IngressCore.fresh_of_new hnew
  have hover' : c₀.policy.overflow ≠ .dropOldest := by
    rw [hfresh.policy]
    obtain hover | hover := hover
    · rw [hover]
      nofun
    · rw [hover]
      nofun
  have hassoc' : Std.Associative c₀.merge.merge := by rwa [hfresh.merge]
  have hinOrder := (inOrder_run hassoc' hover' (IngressCore.scope?_new hnew) hrun).2 s hs
  obtain ⟨l, hl, hfold, _⟩ := hinOrder.traced.window
  rw [hfresh.merge] at hfold
  refine ⟨l, fun e he => hl.of_mem he, ?_, hfold⟩
  have hlength : s.nextExpected.toNat = l.length := by
    have hnext := hl.next_eq
    omega
  rw [hl.map_sequence, hlength]
  simp

theorem exactly_once_admitted : ∃ (c₀ c : IngressCore ℕ ℕ) (history : List (Op ℕ ℕ × Reply ℕ)) (s : Scope ℕ),
      IngressCore.new ℕ {} { merge := (· + ·) } = .ok c₀ ∧ c.scope? 0 = some s ∧
        s.window = some 5 ∧ ∃ l : List (IngressEnvelope ℕ ℕ),
          (∀ e ∈ l, Admitted history 0 e ∧ e.generation = s.generation) ∧
            l.map (·.sequence) = (range s.nextExpected.toNat).map (fun i : ℕ => (i : ℤ)) ∧
              mergeAll (· + ·) (drainedValues 0 history ++ s.window.toList) =
                mergeAll (· + ·) (l.map (·.payload)) := by
  obtain ⟨c₀, hnew, s, hs, hwindow⟩ : ∃ c₀ : IngressCore ℕ ℕ, IngressCore.new ℕ {} { merge := (· + ·) } = .ok c₀ ∧
        ∃ s, (c₀.step (.admitEnvelope ⟨0, 1, 0, 0, 5⟩)).core.scope? 0 = some s ∧ s.window = some 5 :=
    ⟨_, rfl, _, rfl, rfl⟩
  have hsteady : Steady 0 c₀ (.admitEnvelope ⟨0, 1, 0, 0, 5⟩) := by
    refine ⟨nofun, fun s s' hbefore => ?_⟩
    rw [IngressCore.scope?_new hnew] at hbefore
    cases hbefore
  have hassoc : Std.Associative fun a b : ℕ => a + b := ⟨Nat.add_assoc⟩
  exact ⟨c₀, _, _, s, hnew, hs, hwindow, exactly_once hnew (.inr rfl) hassoc (RunWhere.nil.concat _ hsteady) hs⟩

end LazilyPy.Ingress

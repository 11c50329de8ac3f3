import LazilyPy.Ingress.Provenance

/-!
# The generation fence

A window, the pending envelopes and a drained value each come from envelopes of one generation. The
stamp of a scope is the newest of all its generations.
-/

namespace LazilyPy.Ingress

open List

variable {K T : Type}

/-- An envelope of the key that an operation of the history has offered. -/
def Admitted (history : List (Op K T × Reply T)) (key : K) (e : IngressEnvelope K T) : Prop :=
  e.key = key ∧ ∃ reply, (.admitEnvelope e, reply) ∈ history

theorem Admitted.append {history l : List (Op K T × Reply T)} {key : K} {e : IngressEnvelope K T}
    (h : Admitted history key e) : Admitted (history ++ l) key e := by
  obtain ⟨hkey, reply, hmem⟩ := h
  exact ⟨hkey, reply, mem_append_left l hmem⟩

/-- What an operation admits is in the history from then on. -/
theorem admitted_step {history : List (Op K T × Reply T)} {op : Op K T} {key : K}
    {e : IngressEnvelope K T} {reply : Reply T}
    (hkey : op.key? = some key) (hop : op = .admitEnvelope e) :
    Admitted (history ++ [(op, reply)]) key e := by
  subst hop
  exact ⟨Option.some.inj hkey, reply, mem_append_right _ (mem_singleton_self _)⟩

/-- The value is the fold of the payloads of envelopes with `P` of this generation, each of which
comes later in its sequence than the one before. -/
def OfGeneration (merge : T → T → T) (P : IngressEnvelope K T → Prop) (generation : ℤ) (v : T) : Prop :=
  ∃ l : List (IngressEnvelope K T), (∀ e ∈ l, P e ∧ e.generation = generation) ∧
    l.Pairwise (·.sequence < ·.sequence) ∧ mergeAll merge (l.map (·.payload)) = some v

theorem Successive.pairwise {P : IngressEnvelope K T → Prop} {first next : ℤ}
    {l : List (IngressEnvelope K T)} (h : Successive P first l next) :
    l.Pairwise (·.sequence < ·.sequence) ∧ ∀ e ∈ l, e.sequence < next := by
  induction h with
  | nil => exact ⟨.nil, forall_mem_nil _⟩
  | @concat l next e _ _ hseq ih =>
    obtain ⟨hpair, hlt⟩ := ih
    constructor
    · refine pairwise_append.mpr ⟨hpair, pairwise_singleton _ _, fun a ha b hb => ?_⟩
      rw [mem_singleton.mp hb, hseq]
      exact hlt a ha
    · intro a ha
      obtain ha | ha := mem_append.mp ha
      · have halt := hlt a ha
        omega
      · rw [mem_singleton.mp ha]
        omega

/-- What a traced scope holds in its window is of its generation. -/
theorem Traced.ofGeneration {merge : T → T → T} {P : IngressEnvelope K T → Prop} {first : ℤ}
    {s : Scope T} (h : Traced merge P [] first s) {v : T} (hv : s.window = some v) :
    OfGeneration merge (fun e => P e ∧ e.stampedAt ≤ s.stampedAt) s.generation v := by
  obtain ⟨l, hl, hfold, hstamps⟩ := h.window
  refine ⟨l, fun e he => ?_, hl.pairwise.1, ?_⟩
  · obtain ⟨hP, hgen⟩ := hl.of_mem he
    exact ⟨⟨hP, hstamps e he⟩, hgen⟩
  · rw [← hfold, hv]
    rfl

/-! ## One operation -/

/-- The operation does not raise, by an `open`, the generation of a scope that holds a window and is
not closed. -/
def Op.Clears (s : Option (Scope T)) : Op K T → Prop
  | .open _ generation => ∀ scope ∈ s, scope.lifecycle ≠ .closed → scope.generation < generation → scope.window = none
  | _ => True

section Act

variable {merge : T → T → T} {P : IngressEnvelope K T → Prop} {policy : IngressPolicy} {now : ℤ}
  {first : ℤ} {s : Scope T}

theorem traced_reopen (h : Traced merge P [] first s) (generation : ℤ)
    (hclears : s.lifecycle ≠ .closed → s.generation < generation → s.window = none) :
    ∃ first, Traced merge P [] first (s.reopen generation).1 := by
  unfold Scope.reopen
  dsimp only
  split
  · exact ⟨0, .new generation⟩
  · next hclosed =>
    split
    · next hlt => exact ⟨0, .of_reset rfl (hclears hclosed hlt) rfl h.stamp⟩
    · exact ⟨first, h.congr rfl rfl rfl rfl rfl⟩

theorem traced_reconnect (h : Traced merge P [] first s) (generation : ℤ) :
    ∃ first, Traced merge P [] first (s.reconnect generation).1 := by
  unfold Scope.reconnect
  dsimp only
  split
  · exact ⟨0, .of_reset rfl rfl rfl h.stamp⟩
  · exact ⟨first, h.congr rfl rfl rfl rfl rfl⟩

theorem traced_getD {o : Option (Scope T)} (h : ∀ s ∈ o, ∃ first, Traced merge P [] first s) (generation : ℤ) :
    ∃ first, Traced merge P [] first (o.getD (.new T generation)) := by
  cases o with
  | none => exact ⟨0, .new generation⟩
  | some s => exact h s rfl

/-- An operation keeps the scope of its key traced. -/
theorem traced_act {o : Option (Scope T)} (h : ∀ s ∈ o, ∃ first, Traced merge P [] first s)
    (op : Op K T) (hoffered : ∀ e, op = .admitEnvelope e → P e) (hclears : op.Clears o) :
    ∀ s' ∈ (op.act policy merge now o).1, ∃ first, Traced merge P [] first s' := by
  intro s' hs'
  cases op.acted hs' with
  | same hs _ => exact h s' hs
  | new _ => exact ⟨0, .new _⟩
  | reopen hs =>
    obtain ⟨first, htraced⟩ := h _ hs
    exact traced_reopen htraced _ (hclears _ hs)
  | suspend hs =>
    obtain ⟨first, htraced⟩ := h _ hs
    exact ⟨first, htraced.congr rfl rfl rfl rfl rfl⟩
  | reconnect =>
    obtain ⟨first, htraced⟩ := traced_getD h _
    exact traced_reconnect htraced _
  | close hs =>
    obtain ⟨first, htraced⟩ := h _ hs
    exact ⟨_, .of_reset rfl rfl rfl htraced.stamp⟩
  | fail =>
    obtain ⟨first, htraced⟩ := traced_getD h 0
    exact ⟨first, htraced.congr rfl rfl rfl rfl rfl⟩
  | drain hs _ =>
    obtain ⟨first, htraced⟩ := h _ hs
    exact ⟨_, htraced.clearWindow⟩
  | decide _ =>
    obtain ⟨first, htraced⟩ := traced_getD h _
    exact htraced.decide_any (hoffered _ rfl)

end Act

/-! ## Runs -/

variable [DecidableEq K]

/-- The operation opens a scope that is not closed at a higher generation, while the scope holds a
window that has not been drained. -/
def KeepsWindow (c : IngressCore K T) (op : Op K T) : Prop :=
  ∃ key generation s, op = .open key generation ∧ c.scope? key = some s ∧
    s.lifecycle ≠ .closed ∧ s.generation < generation ∧ s.window ≠ none

variable {c c₀ : IngressCore K T} {history : List (Op K T × Reply T)}

theorem clears_of_not_keepsWindow {op : Op K T} {key : K} (h : ¬ KeepsWindow c op)
    (hkey : op.key? = some key) : op.Clears (c.scope? key) := by
  cases op with
  | «open» k generation =>
    obtain rfl : k = key := Option.some.inj hkey
    intro s hs hclosed hlt
    by_contra hwindow
    exact h ⟨k, generation, s, rfl, hs, hclosed, hlt, hwindow⟩
  | _ => trivial

theorem window_of_drained {key : K} {v : T} (h : (c.step (.drain key)).reply = .drained (some v)) :
    ∃ s, c.scope? key = some s ∧ s.window = some v := by
  simp only [IngressCore.step, IngressCore.drain, Reply.drained.injEq] at h
  cases hs : c.scope? key with
  | none => simp [hs] at h
  | some s =>
    cases hw : s.window with
    | none => simp [hs, hw] at h
    | some w =>
      simp only [hs, hw, Option.some.injEq] at h
      exact ⟨s, rfl, by rw [hw, h]⟩

theorem traced_run (hrun : RunWhere (fun c op => ¬ KeepsWindow c op) c₀ history c) (h₀ : ∀ key, c₀.scope? key = none) :
    (∀ key s, c.scope? key = some s → ∃ first, Traced c₀.merge.merge (Admitted history key) [] first s) ∧
    ∀ key v, (.drain key, .drained (some v)) ∈ history →
      ∃ generation, OfGeneration c₀.merge.merge (Admitted history key) generation v := by
  induction hrun with
  | nil =>
    refine ⟨fun key s hs => ?_, fun key v hmem => absurd hmem not_mem_nil⟩
    rw [h₀] at hs
    cases hs
  | @concat history c op hrun hop ih =>
    obtain ⟨htraced, hdrained⟩ := ih
    refine ⟨fun key s hs => ?_, fun key v hmem => ?_⟩
    · have hbefore : ∀ s ∈ c.scope? key, ∃ first, Traced c₀.merge.merge
          (Admitted (history ++ [(op, (c.step op).reply)]) key) [] first s := by
        intro s hs
        obtain ⟨first, h⟩ := htraced key s hs
        exact ⟨first, h.mono fun e he => he.append⟩
      rw [IngressCore.scope?_step] at hs
      split at hs
      · next hkey =>
        rw [(IngressCore.config_run hrun).2] at hs
        exact traced_act hbefore op (fun e he => admitted_step hkey he) (clears_of_not_keepsWindow hop hkey) s hs
      · exact hbefore s hs
    · obtain hmem | hmem := mem_append.mp hmem
      · obtain ⟨generation, l, hl, hpair, hfold⟩ := hdrained key v hmem
        exact ⟨generation, l, fun e he => ⟨(hl e he).1.append, (hl e he).2⟩, hpair, hfold⟩
      · -- What is drained now is the window that has been traced up to here.
        obtain ⟨hop', hreply⟩ := Prod.mk.inj (mem_singleton.mp hmem)
        rw [← hop'] at hreply
        obtain ⟨s, hs, hwindow⟩ := window_of_drained hreply.symm
        obtain ⟨first, h⟩ := htraced key s hs
        obtain ⟨l, hl, hpair, hfold⟩ := h.ofGeneration hwindow
        exact ⟨s.generation, l, fun e he => ⟨(hl e he).1.1.append, (hl e he).2⟩, hpair, hfold⟩

end LazilyPy.Ingress

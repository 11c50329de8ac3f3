import LazilyPy.Ingress.Admission
import LazilyPy.Ingress.Core

/-!
# What an operation does to one scope

Every operation but `tick` is about one key. It turns the scope of that key into another one, marks
that key, and leaves the other scopes alone.
-/

namespace LazilyPy.Ingress

open Option

variable {K T : Type}

def Op.key? : Op K T → Option K
  | .open key _ => some key
  | .suspend key => some key
  | .reconnect key _ => some key
  | .close key => some key
  | .tick _ => none
  | .fail key _ => some key
  | .drain key => some key
  | .admitEnvelope e => some e.key

def Decision.change (s : Option (Scope T)) (before after : Scope T) : Decision → IngressScopeChange
  | .refuse _ => {}
  | .block => {}
  | .buffered _ => if s.isNone then .creation else before.bufferedChange after
  | .delivered _ _ _ => .all

/-- The scope after an operation on its key, and the mark that the key gets. -/
def Op.act (policy : IngressPolicy) (merge : T → T → T) (now : ℤ) (s : Option (Scope T)) :
    Op K T → Option (Scope T) × IngressScopeChange
  | .open _ generation =>
    match s with
    | none => (some (.new T generation), .creation)
    | some s => (some (s.reopen generation).1, (s.reopen generation).2)
  | .suspend _ =>
    match s with
    | none => (none, {})
    | some s =>
      if s.lifecycle = .suspended ∨ s.lifecycle = .closed then (some s, {})
      else (some { s with lifecycle := .suspended }, .readinessOnly)
  | .reconnect _ generation =>
    let r := (s.getD (.new T generation)).reconnect generation
    (some r.1, if s.isNone then r.2.union .creation else r.2)
  | .close _ =>
    match s with
    | none => (none, {})
    | some s => if s.lifecycle = .closed then (some s, {}) else (some s.close.1, s.close.2)
  | .tick _ => (s, {})
  | .fail _ _ =>
    (some (s.getD (.new T 0)).fail, if s.isNone then IngressScopeChange.retryOnly.union .creation else .retryOnly)
  | .drain _ =>
    match s with
    | none => (none, {})
    | some s => if s.window.isNone then (some s, {}) else (some s.clearWindow, .valueOnly)
  | .admitEnvelope e =>
    let before := s.getD (.new T e.generation)
    let decided := before.decide policy merge now e
    (if s.isNone ∧ ¬ decided.2.admitted then none else some decided.1, decided.2.change s before decided.1)

/-! ## Every scope is valid -/

namespace Scope

variable {s : Scope T}

theorem eq_none_of_liveOrOpening (h : s.liveOrOpening = .opening) : s.deliveredThrough = none := by
  unfold liveOrOpening at h
  split at h
  · exact absurd h nofun
  · next hsome => simpa using hsome

theorem liveOrOpening_ne_closed : s.liveOrOpening ≠ .closed := by
  unfold liveOrOpening
  split
  · nofun
  · nofun

/-- A scope that is brought back. -/
theorem Valid.resume (h : s.Valid) (errors : ℕ) :
    { s with lifecycle := s.liveOrOpening, consecutiveErrors := errors : Scope T }.Valid :=
  ⟨eq_none_of_liveOrOpening, fun hc => absurd hc liveOrOpening_ne_closed, h.cursor, h.ahead⟩

theorem Valid.reopen (h : s.Valid) (generation : ℤ) : (s.reopen generation).1.Valid := by
  unfold Scope.reopen
  dsimp only
  split
  · exact valid_new generation
  · split
    · exact ⟨fun _ => rfl, fun hc => absurd hc liveOrOpening_ne_closed, nofun, List.forall_mem_nil _⟩
    · exact h.resume s.consecutiveErrors

theorem Valid.reconnect (h : s.Valid) (generation : ℤ) : (s.reconnect generation).1.Valid := by
  unfold Scope.reconnect
  dsimp only
  split
  · exact (valid_handOff s generation).resume 0
  · exact h.resume 0

theorem valid_close (h : s.Valid) : s.close.1.Valid :=
  ⟨nofun, fun _ => rfl, h.cursor, List.forall_mem_nil _⟩

theorem Valid.fail (h : s.Valid) : s.fail.Valid :=
  ⟨h.opening, h.closed, h.cursor, h.ahead⟩

theorem Valid.suspend (h : s.Valid) : { s with lifecycle := .suspended : Scope T }.Valid :=
  ⟨nofun, nofun, h.cursor, h.ahead⟩

theorem valid_getD {o : Option (Scope T)} (h : ∀ s, o = some s → s.Valid) (generation : ℤ) :
    (o.getD (.new T generation)).Valid := by
  cases o with
  | none => exact valid_new generation
  | some s => exact h s rfl

end Scope

inductive Acted (policy : IngressPolicy) (merge : T → T → T) (now : ℤ) (o : Option (Scope T)) :
    Op K T → Scope T → Prop
  | same {op : Op K T} {s : Scope T} (hs : o = some s)
      (hdrain : ∀ key, op = .drain key → s.window = none) : Acted policy merge now o op s
  | new {key : K} {generation : ℤ} (hnone : o = none) :
      Acted policy merge now o (.open key generation) (.new T generation)
  | reopen {key : K} {generation : ℤ} {s : Scope T} (hs : o = some s) :
      Acted policy merge now o (.open key generation) (s.reopen generation).1
  | suspend {key : K} {s : Scope T} (hs : o = some s) :
      Acted policy merge now o (.suspend key) { s with lifecycle := .suspended }
  | reconnect {key : K} {generation : ℤ} : Acted policy merge now o (.reconnect key generation)
        ((o.getD (.new T generation)).reconnect generation).1
  | close {key : K} {s : Scope T} (hs : o = some s) : Acted policy merge now o (.close key) s.close.1
  | fail {key : K} {error : IngressError} : Acted policy merge now o (.fail key error) (o.getD (.new T 0)).fail
  | drain {key : K} {s : Scope T} {value : T} (hs : o = some s) (hvalue : s.window = some value) :
      Acted policy merge now o (.drain key) s.clearWindow
  | decide {e : IngressEnvelope K T}
      (hkept : ¬ (o.isNone ∧ ¬ ((o.getD (.new T e.generation)).decide policy merge now e).2.admitted)) :
      Acted policy merge now o (.admitEnvelope e) ((o.getD (.new T e.generation)).decide policy merge now e).1

variable {policy : IngressPolicy}

theorem Op.acted {merge : T → T → T} {now : ℤ} {o : Option (Scope T)} {op : Op K T} {s' : Scope T}
    (h : (op.act policy merge now o).1 = some s') :
    Acted policy merge now o op s' := by
  cases op with
  | «open» key generation =>
    cases o with
    | none => exact some.inj h ▸ .new rfl
    | some s => exact some.inj h ▸ .reopen rfl
  | suspend key =>
    cases o with
    | none => cases h
    | some s =>
      dsimp only [act] at h
      split at h
      · exact .same h nofun
      · exact some.inj h ▸ .suspend rfl
  | reconnect key generation => exact some.inj h ▸ .reconnect
  | close key =>
    cases o with
    | none => cases h
    | some s =>
      dsimp only [act] at h
      split at h
      · exact .same h nofun
      · exact some.inj h ▸ .close rfl
  | tick now' => exact .same h nofun
  | fail key error => exact some.inj h ▸ .fail
  | drain key =>
    cases o with
    | none => cases h
    | some s =>
      dsimp only [act] at h
      split at h
      · next hnone =>
        obtain rfl := some.inj h
        exact .same rfl fun _ _ => isNone_iff_eq_none.mp hnone
      · next hsome =>
        obtain ⟨value, hvalue⟩ := ne_none_iff_exists'.mp fun hw : s.window = none =>
          hsome (isNone_iff_eq_none.mpr hw)
        exact some.inj h ▸ .drain rfl hvalue
  | admitEnvelope e =>
    dsimp only [act] at h
    split at h
    · cases h
    · next hkept => exact some.inj h ▸ .decide hkept

theorem Op.valid_act {merge : T → T → T} {now : ℤ} {o : Option (Scope T)} (h : ∀ s, o = some s → s.Valid)
    (op : Op K T) {s' : Scope T} (hs' : (op.act policy merge now o).1 = some s') : s'.Valid := by
  cases op.acted hs' with
  | same hs _ => exact h _ hs
  | new _ => exact Scope.valid_new _
  | reopen hs => exact (h _ hs).reopen _
  | suspend hs => exact (h _ hs).suspend
  | reconnect => exact (Scope.valid_getD h _).reconnect _
  | close hs => exact Scope.valid_close (h _ hs)
  | fail => exact (Scope.valid_getD h 0).fail
  | drain hs _ => exact (h _ hs).clearWindow
  | decide _ => exact (Scope.valid_getD h _).decide

/-- A core that has just been built: no scope is known and no receipt has been recorded. -/
structure IngressCore.Fresh (policy : IngressPolicy) (merge : MergePolicy T) (c : IngressCore K T) : Prop where
  policy : c.policy = policy
  merge : c.merge = merge
  scopes : c.scopes = .empty _
  receipts : c.receipts = []

theorem IngressCore.fresh_of_new {merge : MergePolicy T} {c : IngressCore K T}
    (h : IngressCore.new K policy merge = .ok c) : c.Fresh policy merge := by
  unfold IngressCore.new at h
  split at h
  · split at h
    · obtain rfl := Except.ok.inj h
      exact ⟨rfl, rfl, rfl, rfl⟩
    · cases h
  · cases h

/-! ## The change -/

namespace IngressChange

theorem flags_mark {key j : K} {m : IngressScopeChange} {reader : IngressScopeChange → Bool}
    (hreader : reader {} = false) :
    (({} : IngressChange K).mark key m).Flags j reader ↔ j = key ∧ reader m = true := by
  unfold Flags mark
  split
  · next hempty =>
    obtain rfl : m = {} := by
      obtain ⟨v, r, a, t⟩ := m
      simpa [IngressScopeChange.isEmpty, and_assoc] using hempty
    simp [hreader]
  · simp only [List.nil_append, List.mem_singleton, exists_eq_left]
    exact and_congr_left' eq_comm

variable {channel : IngressReceiptChannel}

theorem flagsChannel_empty :
    ({} : IngressChange K).flagsChannel channel = false := by
  cases channel <;> rfl

theorem flagsChannel_mark {change : IngressChange K} {key : K} {m : IngressScopeChange} :
    (change.mark key m).flagsChannel channel = change.flagsChannel channel := by
  unfold mark
  split
  · rfl
  · cases channel <;> rfl

theorem flagsChannel_markChannel {change : IngressChange K} {channel' : IngressReceiptChannel} :
    (change.markChannel channel').flagsChannel channel = true ↔
      channel = channel' ∨ change.flagsChannel channel = true := by
  cases channel' <;> cases channel <;> simp [markChannel, flagsChannel]

end IngressChange

variable [DecidableEq K]

namespace IngressCore

variable {c : IngressCore K T} {key j : K} {s : Scope T}

@[simp] theorem scope?_setScope : (c.setScope key s).scope? j = if j = key then some s else c.scope? j := by
  simp only [scope?, setScope, Table.get?_put]
  split
  · rfl
  · rfl

end IngressCore

/-! ## The operations on the scopes -/

/-- From `c` to `c'` the scope of `key` and its mark become those of `o`, and nothing else that the
scopes are read with changes. -/
structure Acts (c : IngressCore K T) (key : K) (o : Option (Scope T) × IngressScopeChange)
    (c' : IngressCore K T) (change : IngressChange K) : Prop where
  scope? : ∀ j, c'.scope? j = if j = key then o.1 else c.scope? j
  scopes : change.scopes = (({} : IngressChange K).mark key o.2).scopes
  policy : c'.policy = c.policy
  merge : c'.merge = c.merge
  observedNow : c'.observedNow = c.observedNow

namespace Acts

variable {c c' : IngressCore K T} {key : K} {o : Option (Scope T) × IngressScopeChange}
  {change : IngressChange K} {s : Scope T} {m : IngressScopeChange}

theorem same (h : c.scope? key = o.1) (hmark : o.2 = {}) : Acts c key o c {} := by
  refine ⟨fun j => ?_, by rw [hmark]; rfl, rfl, rfl, rfl⟩
  split
  · next hj => rw [hj, h]
  · rfl

theorem put : Acts c key (some s, m) (c.setScope key s) (({} : IngressChange K).mark key m) :=
  ⟨fun _ => IngressCore.scope?_setScope, rfl, rfl, rfl, rfl⟩

/-- A scope that is put away only if the envelope was admitted or the scope was there before. -/
theorem stored {admitted : Bool} (hm : ¬ admitted → m = {}) :
    Acts c key (if (c.scope? key).isNone ∧ ¬ admitted then none else some s, m)
      (if (c.scope? key).isNone ∧ ¬ admitted then c else c.setScope key s)
      (({} : IngressChange K).mark key m) := by
  split
  · next h =>
    rw [hm h.2]
    exact .same (isNone_iff_eq_none.mp h.1) rfl
  · exact .put

theorem push (h : Acts c key o c' change) (r : IngressReceipt K) (channel : IngressReceiptChannel) :
    Acts c key o (c'.pushReceipt r).1 (change.markChannel channel) := by
  refine ⟨h.scope?, ?_, h.policy, h.merge, h.observedNow⟩
  cases channel with
  | accepted => exact h.scopes
  | dropped => exact h.scopes
  | error => exact h.scopes

theorem flags (h : Acts c key o c' change) {j : K} {reader : IngressScopeChange → Bool}
    (hreader : reader {} = false) : change.Flags j reader ↔ j = key ∧ reader o.2 = true := by
  rw [← IngressChange.flags_mark hreader]
  simp only [IngressChange.Flags, h.scopes]

end Acts

/-- Every operation but `tick` is `Op.act` on the scope of its key. -/
theorem IngressCore.acts_step (c : IngressCore K T) {op : Op K T} {key : K} (hop : op.key? = some key) :
    Acts c key (op.act c.policy c.merge.merge c.observedNow (c.scope? key)) (c.step op).core
      (c.step op).change := by
  cases op with
  | tick now => cases hop
  | «open» k generation =>
    obtain rfl : k = key := some.inj hop
    simp only [step, IngressCore.open, Op.act]
    cases c.scope? k with
    | none => exact .put
    | some s => exact .put
  | suspend k =>
    obtain rfl : k = key := some.inj hop
    simp only [step, suspend, Op.act]
    cases hs : c.scope? k with
    | none => exact .same hs rfl
    | some s =>
      dsimp only
      split
      · exact .same hs rfl
      · exact .put
  | reconnect k generation =>
    obtain rfl : k = key := some.inj hop
    exact .put
  | close k =>
    obtain rfl : k = key := some.inj hop
    simp only [step, close, Op.act]
    cases hs : c.scope? k with
    | none => exact .same hs rfl
    | some s =>
      dsimp only
      split
      · exact .same hs rfl
      · exact .put
  | fail k error =>
    obtain rfl : k = key := some.inj hop
    simp only [step, IngressCore.fail, Op.act]
    refine Acts.push ?_ _ _
    exact .put
  | drain k =>
    obtain rfl : k = key := some.inj hop
    simp only [step, drain, Op.act]
    cases hs : c.scope? k with
    | none => exact .same hs rfl
    | some s =>
      dsimp only
      cases hw : s.window with
      | none => exact .same hs rfl
      | some value => exact .put
  | admitEnvelope e =>
    obtain rfl : e.key = key := some.inj hop
    simp only [step, admitEnvelope, Op.act]
    generalize hd : ((c.scope? e.key).getD (.new T e.generation)).decide c.policy c.merge.merge c.observedNow e = d
    obtain ⟨s', decision⟩ := d
    cases decision with
    | refuse reason =>
      dsimp only
      refine Acts.push ?_ _ _
      exact .stored fun _ => rfl
    | block =>
      dsimp only
      refine Acts.push ?_ _ _
      exact .stored fun _ => rfl
    | buffered gapFrom => exact .stored fun h => absurd rfl h
    | delivered deliveredThrough conflated handoff =>
      cases handoff with
      | none =>
        dsimp only
        refine Acts.push ?_ _ _
        exact .stored fun h => absurd rfl h
      | some fences =>
        dsimp only
        refine Acts.push ?_ _ _
        exact .stored fun h => absurd rfl h

namespace IngressCore

variable {c c₀ : IngressCore K T} {key : K} {history : List (Op K T × Reply T)}

theorem scope?_tick (c : IngressCore K T) (now : ℤ) (key : K) :
    (c.step (.tick now)).core.scope? key = c.scope? key := by
  simp only [step, tick]
  split
  · rfl
  · rfl

/-- The scope of a key after an operation. -/
theorem scope?_step (c : IngressCore K T) (op : Op K T) (key : K) : (c.step op).core.scope? key =
      if op.key? = some key then
        (op.act c.policy c.merge.merge c.observedNow (c.scope? key)).1
      else c.scope? key := by
  cases hop : op.key? with
  | none =>
    cases op with
    | tick now => simpa using scope?_tick c now key
    | _ => cases hop
  | some k =>
    rw [(c.acts_step hop).scope? key]
    by_cases hk : key = k
    · rw [if_pos hk, if_pos (congrArg some hk.symm), hk]
    · rw [if_neg hk, if_neg fun h => hk (some.inj h).symm]

theorem scope?_new {policy : IngressPolicy} {merge : MergePolicy T}
    (h : IngressCore.new K policy merge = .ok c) : c.scope? key = none := by
  simp only [scope?, (fresh_of_new h).scopes]
  rfl

/-- No operation touches the policy and the merge. -/
theorem config_step (c : IngressCore K T) (op : Op K T) :
    (c.step op).core.policy = c.policy ∧ (c.step op).core.merge = c.merge := by
  cases hop : op.key? with
  | some key => exact ⟨(c.acts_step hop).policy, (c.acts_step hop).merge⟩
  | none =>
    cases op with
    | tick now =>
      simp only [step, tick]
      split
      · exact ⟨rfl, rfl⟩
      · exact ⟨rfl, rfl⟩
    | _ => cases hop

theorem config_run {P : IngressCore K T → Op K T → Prop} (h : RunWhere P c₀ history c) :
    c.policy = c₀.policy ∧ c.merge = c₀.merge := by
  induction h with
  | nil => exact ⟨rfl, rfl⟩
  | @concat _ c op _ _ ih =>
    obtain ⟨hpolicy, hmerge⟩ := c.config_step op
    exact ⟨hpolicy.trans ih.1, hmerge.trans ih.2⟩

theorem valid_of_run (h : Run c₀ history c) (h₀ : ∀ key, c₀.scope? key = none) {s : Scope T}
    (hs : c.scope? key = some s) : s.Valid := by
  induction h generalizing s with
  | nil => rw [h₀] at hs; cases hs
  | concat op h ih =>
    rw [scope?_step] at hs
    split at hs
    · exact op.valid_act (fun s hs => ih hs) hs
    · exact ih hs

theorem valid_of_reachable (h : Reachable c) {s : Scope T} (hs : c.scope? key = some s) : s.Valid := by
  obtain ⟨policy, merge, c₀, history, hnew, hrun⟩ := h
  exact valid_of_run hrun (fun key => scope?_new hnew) hs

end IngressCore

end LazilyPy.Ingress

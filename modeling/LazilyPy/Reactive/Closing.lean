import LazilyPy.Reactive.Cleanups
import LazilyPy.Reactive.Teardown

/-!
# Closing a scope

`TeardownScope.close` gives up what the scope owns before it disposes of it. What it has not come to when an
exception leaves it stays alive, and no later call of `close` finds it. The disposal of a `Computed` always raises,
and so may the cleanup of an effect.
-/

namespace LazilyPy.Reactive

open List Option Function

variable {V : Type}

/-! ## Calls of `close` -/

def Node.Adoptable : Node → Prop
  | .memo _ | .puller _ _ => False
  | _ => True

/-- A `Computed` is lazy again and has no puller, any other node has been disposed of. -/
def Heap.TornDown (h : Heap V) : Node → Prop
  | .computed i => h.eager i = false ∧ h.puller i = none
  | n => h.disposed n = true

/-- What `close` runs for the members that are left. -/
def closing (rest : List Node) : Code V :=
  rest.foldr disposeNode .done

namespace TeardownScope

/-- `close` is called so many times, each time in a `try` block. -/
def closes (k : Code V) : ℕ → TeardownScope → Code V
  | 0, _ => k
  | n + 1, s => .attempt s.close.2 (closes k n (s.close (V := V)).1)

/-- Where the exception of a member's disposal leaves `close`: its cleanup has raised, or it is a `Computed`. -/
inductive LeavesOff (r : Option Node) (base : List (Frame V)) (rest : List Node) (c : Config V) : Prop
  | raised (hctl : c.ctl = .raised) (hstack : c.stack = .andThen r (closing rest) :: base) : LeavesOff r base rest c
  | computed (hrest : ∃ i rest', rest = .computed i :: rest') (hctl : c.ctl = .exec r (closing rest))
      (hstack : c.stack = base) : LeavesOff r base rest c

/-- What has not been disposed of when an exception leaves `close` has been torn down before. -/
def Spares (s : TeardownScope) (r : Option Node) (base : List (Frame V)) (c : Config V) : Prop :=
  ∀ rest, rest <:+ s.owned.reverse → LeavesOff r base rest c → ∀ n ∈ rest, c.heap.TornDown n

/-- Every effect that the scope owns hands back one cleanup at a time. -/
def HandsBackOnce (s : TeardownScope) (c : Config V) : Prop :=
  ∀ e, .effect e ∈ s.owned → Reactive.HandsBackOnce e c

theorem close_of_armed {s : TeardownScope} (harmed : s.armed = true) :
    s.close = ({ s with owned := [] }, (closing s.owned.reverse : Code V)) :=
  if_pos harmed

/-- Once it has been closed, a scope has nothing left to close. -/
theorem closes_closed (k : Code V) (n : ℕ) {s : TeardownScope} (harmed : s.armed = true) :
    closes k (n + 1) { s with owned := [] } = .attempt .done (closes k n { s with owned := [] }) := by
  have hclosed : ({ s with owned := [] } : TeardownScope).close (V := V) = ({ s with owned := [] }, .done) :=
    close_of_armed harmed
  rw [closes, hclosed]

theorem sizeOf_lt_closes (k : Code V) (n : ℕ) (s : TeardownScope) : sizeOf k < sizeOf (s.closes k (n + 1)) := by
  have hlt : ∀ body rest : Code V, sizeOf rest < sizeOf (Code.attempt body rest) := by
    intro body rest
    rw [Code.attempt.sizeOf_spec]
    omega
  induction n generalizing s with
  | zero => exact hlt _ k
  | succ n ih => exact (ih _).trans (hlt _ _)

end TeardownScope

/-! ## One member -/

section Member

variable {G : Graph V} {ord : Enum} {h : Heap V} {st : List (Frame V)} {c c' : Config V} {r : Option Node}
  {k : Code V} {n : Node}

theorem disposed_finalCleanup (e : Node) : (finalCleanup h st e).heap.disposed = h.disposed := by
  unfold finalCleanup
  split
  · rfl
  · rfl

theorem disposed_disposeEffect (e : Node) : (disposeEffect ord h st e).heap.disposed e = true := by
  simp only [disposeEffect]
  split
  · next hdead => exact hdead
  · have hretired : ((h.retire e).clearParents e).disposed e = true := update_self _ _ _
    split
    · rw [disposed_finalCleanup]
      exact hretired
    · split
      · exact hretired
      · rw [disposed_finalCleanup]
        exact hretired

variable [DecidableEq V]

/-- The disposal of a member marks it before anything else runs. -/
theorem disposed_disposeNode (ord : Enum) (h : Heap V) (st : List (Frame V)) (r : Option Node) (k : Code V)
    (hn : n.Disposable) : (stepExec ord h st r (disposeNode n k)).heap.disposed n = true ∧
    .andThen r k :: st <:+ (stepExec ord h st r (disposeNode n k)).stack := by
  cases n with
  | source i =>
    refine ⟨?_, (steady_dispose ord h _ _).flows.stack⟩
    simp only [disposeNode, stepExec, dispose]
    split
    · next hdead => exact hdead
    · exact update_self _ _ _
  | slot i =>
    refine ⟨?_, (steady_dispose ord h _ _).flows.stack⟩
    simp only [disposeNode, stepExec, dispose]
    split
    · next hdead => exact hdead
    · exact update_self _ _ _
  | effect e => exact ⟨disposed_disposeEffect _, (steady_disposeEffect ord h _ _).flows.stack⟩
  | _ => cases hn

/-- Code that waits for a statement waits until the statement returns or raises. -/
theorem step_andThen {above : List (Frame V)} (hstack : c.stack = above ++ .andThen r k :: st)
    (hs : step G ord c = some c') :
    (∃ above', c'.stack = above' ++ .andThen r k :: st) ∨ c'.ctl = .exec r k ∧ c'.stack = st ∧ c'.heap = c.heap ∨
      c.ctl = .raised ∧ c.stack = .andThen r k :: st ∧ c'.ctl = .raised ∧ c'.stack = st ∧ c'.heap = c.heap := by
  cases above with
  | cons f above =>
    obtain hsuffix | ⟨f', st', hstack', hsuffix⟩ := suffix_step hs
    · obtain ⟨pushed, hpushed⟩ := hstack ▸ hsuffix
      exact .inl ⟨pushed ++ f :: above, by rw [← hpushed, append_assoc]⟩
    · obtain ⟨-, rfl⟩ := cons.inj (hstack.symm.trans hstack')
      obtain ⟨pushed, hpushed⟩ := hsuffix
      exact .inl ⟨pushed ++ above, hpushed.symm.trans (append_assoc pushed above _).symm⟩
  | nil =>
    have hstays : .andThen r k :: st <:+ c'.stack → ∃ above', c'.stack = above' ++ .andThen r k :: st := by
      rintro ⟨pushed, hpushed⟩
      exact ⟨pushed, hpushed.symm⟩
    obtain ⟨h, t, st'⟩ := c
    cases hstack
    cases t with
    | exec r' code =>
      cases hs
      exact .inl (hstays (suffix_exec h _ r' code))
    | get d =>
      cases hs
      exact .inl (hstays (inert_getRef G h _ d).steady.flows.stack)
    | eval n t =>
      cases hs
      exact .inl (hstays (inert_eval h _ n t).steady.flows.stack)
    | call e =>
      cases hs
      exact .inl (hstays (steady_callEffect G h _ e).flows.stack)
    | dirty ns =>
      cases hs
      exact .inl (hstays (inert_stepDirty ord h _ ns).steady.flows.stack)
    | returned cl =>
      cases hs
      exact .inr (.inl ⟨rfl, rfl, rfl⟩)
    | raised =>
      cases hs
      exact .inr (.inr ⟨rfl, rfl, rfl, rfl, rfl⟩)
    | value v => cases hs
    | loop => cases hs

end Member

/-! ## The calls of `close` -/

/-- The client goes on with `k`. -/
def Config.At (r : Option Node) (k : Code V) (st : List (Frame V)) (c : Config V) : Prop :=
  c.ctl = .exec r k ∧ c.stack = st

namespace TeardownScope

section Run

variable {s : TeardownScope} {r : Option Node} {k : Code V} {n : ℕ} {st : List (Frame V)}

/-- What waits for the first call of `close`. -/
def base (s : TeardownScope) (r : Option Node) (k : Code V) (n : ℕ) (st : List (Frame V)) : List (Frame V) :=
  .attempt r (closes k n { s with owned := [] }) :: st

/-- The disposals have come to `rest`, and those of the members before it have begun. -/
structure Reaches (s : TeardownScope) (h : Heap V) (rest : List Node) : Prop where
  suffix : rest <:+ s.owned.reverse
  gone : ∀ m ∈ s.owned, m ∈ rest ∨ m.Disposable ∧ h.disposed m = true

/-- Where `n + 1` calls of `close` stand: before the first one, at a member's turn, in a member's disposal, or past
the first one, which leaves no member alive. -/
inductive Stands (s : TeardownScope) (r : Option Node) (k : Code V) (n : ℕ) (st : List (Frame V)) (c : Config V) : Prop
  | first (hat : c.At r (closes k (n + 1) s) st) : Stands s r k n st c
  | turn (rest : List Node) (hreaches : s.Reaches c.heap rest) (hat : c.At r (closing rest) (s.base r k n st)) :
    Stands s r k n st c
  | disposal (rest : List Node) (above : List (Frame V)) (hreaches : s.Reaches c.heap rest)
      (hstack : c.stack = above ++ .andThen r (closing rest) :: s.base r k n st) : Stands s r k n st c
  | called (m : ℕ) (htorn : ∀ m ∈ s.owned, c.heap.TornDown m) (hat : c.At r (closes k m { s with owned := [] }) st) :
    Stands s r k n st c
  | again (m : ℕ) (htorn : ∀ m ∈ s.owned, c.heap.TornDown m)
      (hctl : c.ctl = .exec r .done ∨ c.ctl = .raised ∨ ∃ cl, c.ctl = .returned cl)
      (hstack : c.stack = s.base r k m st) : Stands s r k n st c

theorem tornDown_of_disposed {h : Heap V} {m : Node} (hm : m.Disposable) (hdead : h.disposed m = true) :
    h.TornDown m := by
  cases m with
  | source i | slot i | effect e => exact hdead
  | _ => cases hm

variable {rest : List Node}

/-- What `LeavesOff` speaks of leaves no member alive. -/
theorem Reaches.tornDown {h : Heap V} (hr : s.Reaches h rest) (hrest : ∀ m ∈ rest, h.TornDown m) :
    ∀ m ∈ s.owned, h.TornDown m := by
  intro m hm
  obtain hlater | ⟨hkind, hdead⟩ := hr.gone m hm
  · exact hrest m hlater
  · exact tornDown_of_disposed hkind hdead

theorem Reaches.mono {h h' : Heap V} (hr : s.Reaches h rest)
    (hremains : ∀ m, h.disposed m = true → h'.disposed m = true) : s.Reaches h' rest :=
  ⟨hr.suffix, fun m hm => (hr.gone m hm).imp_right fun ⟨hkind, hdead⟩ => ⟨hkind, hremains m hdead⟩⟩

variable [DecidableEq V] {G : Graph V} {ord : Enum} {c c' : Config V}

/-- The turn of a member that is no `Computed`. -/
theorem Reaches.next {m : Node} (hr : s.Reaches c.heap (m :: rest)) (hkind : m.Disposable) (hord : ord.Lawful)
    (hat : c.At r (closing (m :: rest)) st) (hs : step G ord c = some c') :
    s.Reaches c'.heap rest ∧ ∃ above, c'.stack = above ++ .andThen r (closing rest) :: st := by
  have hremains := (moves_step hord hs).moves.remains
  obtain ⟨h, t, st'⟩ := c
  obtain ⟨hctl, hstack⟩ := hat
  cases hctl
  cases hstack
  cases hs
  obtain ⟨hdead, pushed, hpushed⟩ := disposed_disposeNode ord h st' r (closing rest) hkind
  refine ⟨⟨(suffix_cons m rest).trans hr.suffix, fun m' hm' => ?_⟩, pushed, hpushed.symm⟩
  obtain hlater | ⟨hkind', hdead'⟩ := hr.gone m' hm'
  · obtain rfl | hlater := mem_cons.mp hlater
    · exact .inr ⟨hkind, hdead⟩
    · exact .inl hlater
  · exact .inr ⟨hkind', hremains m' hdead'⟩

/-- One step of the calls, up to the moment when the client goes on. -/
theorem stands_step (harmed : s.armed = true) (hkinds : ∀ m ∈ s.owned, m.Adoptable) (hc : s.Stands r k n st c)
    (hbefore : ¬ c.At r k st) (hspares : s.Spares r (s.base r k n st) c) (hord : ord.Lawful)
    (hs : step G ord c = some c') : s.Stands r k n st c' := by
  cases hc with
  | first hat =>
    obtain ⟨h, t, st'⟩ := c
    obtain ⟨hctl, hstack⟩ := hat
    cases hctl
    cases hstack
    rw [closes, close_of_armed harmed] at hs
    cases hs
    exact .turn s.owned.reverse ⟨suffix_refl _, fun m hm => .inl (mem_reverse.mpr hm)⟩ ⟨rfl, rfl⟩
  | turn rest hreaches hat =>
    cases rest with
    | nil =>
      have htorn := hreaches.tornDown (fun m hm => nomatch hm)
      obtain ⟨h, t, st'⟩ := c
      obtain ⟨hctl, hstack⟩ := hat
      cases hctl
      cases hs
      exact .again n htorn (.inr (.inr ⟨_, rfl⟩)) hstack
    | cons m rest =>
      have hkind : m.Adoptable := hkinds m (mem_reverse.mp (hreaches.suffix.subset mem_cons_self))
      cases m with
      | source i | slot i | effect e =>
        obtain ⟨hnext, above, hstack⟩ := hreaches.next trivial hord hat hs
        exact .disposal rest above hnext hstack
      | computed i =>
        -- its disposal raises
        have htorn := hreaches.tornDown (hspares _ hreaches.suffix (.computed ⟨i, rest, rfl⟩ hat.1 hat.2))
        obtain ⟨h, t, st'⟩ := c
        obtain ⟨hctl, hstack⟩ := hat
        cases hctl
        cases hs
        exact .again n htorn (.inr (.inl rfl)) hstack
      | _ => cases hkind
  | disposal rest above hreaches hstack =>
    obtain ⟨above', habove⟩ | ⟨hctl', hstack', -⟩ | ⟨hctl, htop, hctl', hstack', hheap⟩ := step_andThen hstack hs
    · exact .disposal rest above' (hreaches.mono (moves_step hord hs).moves.remains) habove
    · exact .turn rest (hreaches.mono (moves_step hord hs).moves.remains) ⟨hctl', hstack'⟩
    · have htorn := hreaches.tornDown (hspares _ hreaches.suffix (.raised hctl htop))
      exact .again n (hheap ▸ htorn) (.inr (.inl hctl')) hstack'
  | called m htorn hat =>
    cases m with
    | zero => exact absurd hat hbefore
    | succ m =>
      obtain ⟨h, t, st'⟩ := c
      obtain ⟨hctl, hstack⟩ := hat
      cases hctl
      cases hstack
      rw [closes_closed k m harmed] at hs
      cases hs
      exact .again m htorn (.inl rfl) rfl
  | again m htorn hctl hstack =>
    obtain ⟨h, t, st'⟩ := c
    cases hstack
    obtain hctl | hctl | ⟨cl, hctl⟩ := hctl
    · cases hctl
      cases hs
      exact .again m htorn (.inr (.inr ⟨_, rfl⟩)) rfl
    · cases hctl
      cases hs
      exact .called m htorn ⟨rfl, rfl⟩
    · cases hctl
      cases hs
      exact .called m htorn ⟨rfl, rfl⟩

omit [DecidableEq V] in
theorem Stands.not_idle (hc : s.Stands r k n st c) : ¬ c.Idle := by
  have hexec : ∀ {r code st}, c.At r code st → ¬ c.Idle := by
    rintro r code st ⟨hctl, -⟩ ⟨-, hraised | ⟨cl, hreturned⟩⟩
    · cases hctl.symm.trans hraised
    · cases hctl.symm.trans hreturned
  cases hc with
  | first hat => exact hexec hat
  | turn rest hreaches hat => exact hexec hat
  | disposal rest above hreaches hstack =>
    rintro ⟨hempty, -⟩
    cases (append_eq_nil_iff.mp (hstack.symm.trans hempty)).2
  | called m htorn hat => exact hexec hat
  | again m htorn hctl hstack =>
    rintro ⟨hempty, -⟩
    cases hstack.symm.trans hempty

omit [DecidableEq V] in
/-- When the client goes on, no member is alive. -/
theorem Stands.tornDown (hc : s.Stands r k n st c) (hat : c.At r k st) : ∀ m ∈ s.owned, c.heap.TornDown m := by
  obtain ⟨hctl, hstack⟩ := hat
  have hbase : ∀ above, st ≠ above ++ s.base r k n st := by
    intro above heq
    have hlength := congrArg length heq
    rw [length_append, base, length_cons] at hlength
    omega
  cases hc with
  | first hat =>
    have hlt := sizeOf_lt_closes k n s
    obtain ⟨-, hcode⟩ := Ctl.exec.inj (hctl.symm.trans hat.1)
    have hsize : sizeOf k = sizeOf (closes k (n + 1) s) := congrArg sizeOf hcode
    omega
  | turn rest hreaches hat => exact absurd (hstack.symm.trans hat.2) (hbase [])
  | disposal rest above hreaches hstack' =>
    refine absurd (hstack.symm.trans hstack') ?_
    rw [← singleton_append, ← append_assoc]
    exact hbase _
  | called m htorn hat => exact htorn
  | again m htorn hctl hstack' => exact htorn

variable {x y : Logged V} {ok : Config V → Prop}

theorem stands_run (harmed : s.armed = true) (hkinds : ∀ m ∈ s.owned, m.Adoptable)
    (hok : ∀ c, ok c → ¬ c.At r k st ∧ s.Spares r (s.base r k n st) c) (hrun : x.Run G ok y)
    (hx : s.Stands r k n st x.config) : s.Stands r k n st y.config := by
  induction hrun with
  | refl => exact hx
  | @tail y z _ hstep ih =>
    obtain ⟨hc, hs, -⟩ := hstep
    obtain ⟨hbefore, hspares⟩ := hok _ hc
    generalize z.config = c' at hs
    cases hs with
    | tick ord hord hs => exact stands_step harmed hkinds ih hbefore hspares hord hs
    | issue code hidle _ => exact absurd hidle ih.not_idle

/-- However often `close` has been called, every member has been torn down and every cleanup that a member has handed
back has been started once, as long as an exception that leaves `close` spares no member that is alive, and no member
hands back a cleanup while another one waits or after its disposal. -/
theorem close_releases (harmed : s.armed = true) (hkinds : ∀ m ∈ s.owned, m.Adoptable) {σ : ℕ → V}
    (hbefore : (Logged.init σ).Run G s.HandsBackOnce x) (hat : x.config.At r (closes k (n + 1) s) st)
    (hrun : x.Run G (fun c => ¬ c.At r k st ∧ s.Spares r (s.base r k n st) c ∧ s.HandsBackOnce c) y)
    (hend : y.config.At r k st) :
    (∀ m ∈ s.owned, y.config.heap.TornDown m) ∧ ∀ e, .effect e ∈ s.owned → ∀ count ∈ y.starts e, count = 1 := by
  have htorn : ∀ m ∈ s.owned, y.config.heap.TornDown m :=
    (stands_run harmed hkinds (fun c hc => ⟨hc.1, hc.2.1⟩) hrun (.first hat)).tornDown hend
  refine ⟨htorn, fun e he => ?_⟩
  obtain ⟨htallied, hwalk⟩ :=
    tallied_run (fun c hc => hc e he) hbefore (tallied_init e σ) (.inl fun _ hm => by cases hm)
  obtain ⟨htallied, hwalk⟩ := tallied_run (fun c hc => hc.2.2 e he) hrun htallied hwalk
  refine htallied.started ((htallied.dead (htorn _ he)).resolve_right ?_)
  -- no walk is in progress where the client goes on
  rintro ⟨st', hstack⟩
  obtain hnone | ⟨e', st'', -, -, ⟨ns, hdirty⟩ | hreturned⟩ := hwalk
  · exact hnone _ (hstack ▸ mem_cons_self)
  · cases hend.1.symm.trans hdirty
  · cases hend.1.symm.trans hreturned

end Run

end TeardownScope

/-! ## A cleanup that raises -/

theorem Code.within_true (code : Code V) : code.Within fun _ => True := by
  induction code with
  | done | raise => trivial
  | doneWith c ih => exact ih
  | read d k ih => exact ⟨trivial, ih⟩
  | batch b k ihb ih | attempt b k ihb ih => exact ⟨trivial, ihb, ih⟩
  | write _ _ k ih | call _ k ih | eager _ k ih | lazy _ k ih | dispose _ k ih | disposeEffect _ k ih =>
    exact ⟨trivial, ih⟩

/-- A run has a log. -/
theorem Logged.run_of_run [DecidableEq V] {G : Graph V} {ok : Config V → Prop} {c c' : Config V}
    (h : Reactive.Run G (fun _ => True) ok c c') (starts : ℕ → List ℕ) :
    ∃ starts', Logged.Run G ok ⟨c, starts⟩ ⟨c', starts'⟩ := by
  induction h with
  | refl => exact ⟨starts, .refl⟩
  | @tail c₁ c₂ _ hstep ih =>
    obtain ⟨starts', hrun⟩ := ih
    refine ⟨(⟨c₁, starts'⟩ : Logged V).note c₂, .tail hrun ⟨hstep.1, hstep.2, rfl⟩⟩

/-- Effect 0 reads source 0 and hands back a cleanup that raises. -/
def raisingCleanup : Graph ℕ where
  slotBody _ := .ret 0
  computedBody _ := .ret 0
  changed _ := none
  effectBody _ _ := .read (.source 0) fun _ => .doneWith .raise
  unset := 0

def hasClosed (c : Config ℕ) : Bool :=
  match c.ctl, c.stack with
  | .exec none .done, [] => true
  | _, _ => false

/-- Effect 0 hands back its first cleanup, and it is the last statement that raises. -/
def sparesCheck (c : Config ℕ) : Bool :=
  match c.ctl, c.stack with
  | .returned _, .effect _ :: _ => (c.heap.cleanup (.effect 0)).isNone && !c.heap.disposed (.effect 0)
  | .raised, .andThen _ .done :: _ => true
  | .raised, .andThen _ _ :: _ => false
  | _, _ => true

def effectFirst : TeardownScope where
  owned := [.effect 0, .source 0]
  armed := true

def effectLast : TeardownScope where
  owned := [.source 0, .effect 0]
  armed := true

def closingTwice (s : TeardownScope) : Option (Config ℕ) :=
  (session raisingCleanup .stored sparesCheck 10 [.call 0 .done] (Config.init fun _ => 0)).map fun c =>
    c.issue (s.closes .done 2)

def closedTwice (s : TeardownScope) (check : Config ℕ → Bool) : Option (Config ℕ) :=
  (closingTwice s).bind (playUntil raisingCleanup .stored (fun c => !hasClosed c && check c) hasClosed 30)

theorem handsBackOnce_of_check {s : TeardownScope} (hs : ∀ e, .effect e ∈ s.owned → e = 0) {c : Config ℕ}
    (h : sparesCheck c = true) : s.HandsBackOnce c := by
  rintro e he cl ⟨hctl, st, hstack⟩
  obtain rfl := hs e he
  simp only [sparesCheck, hctl, hstack, Bool.and_eq_true, isNone_iff_eq_none, Bool.not_eq_true'] at h
  exact ⟨h.1, fun _ => h.2⟩

theorem not_at_of_not_hasClosed {c : Config ℕ} (h : (!hasClosed c) = true) : ¬ c.At none .done [] := by
  rintro ⟨hctl, hstack⟩
  simp [hasClosed, hctl, hstack] at h

theorem spares_of_check {base : List (Frame ℕ)} {c : Config ℕ} (h : sparesCheck c = true) :
    effectFirst.Spares none base c := by
  intro rest hrest hleaves m hm
  have hcases : rest = [.source 0, .effect 0] ∨ rest = [.effect 0] ∨ rest = [] := by
    simpa [effectFirst, suffix_cons_iff] using hrest
  cases hleaves with
  | raised hctl hstack =>
    obtain rfl | rfl | rfl := hcases
    · simp [sparesCheck, hctl, hstack, closing, disposeNode] at h
    · simp [sparesCheck, hctl, hstack, closing, disposeNode] at h
    · cases hm
  | computed hcomputed hctl hstack =>
    obtain ⟨i, rest', rfl⟩ := hcomputed
    simp at hcases

/-- The client closes the scope between two calls. -/
theorem run_closingTwice {s : TeardownScope} (hs : ∀ e, .effect e ∈ s.owned → e = 0) {c : Config ℕ}
    (h : closingTwice s = some c) (hidle : ∀ c, session raisingCleanup .stored sparesCheck 10 [.call 0 .done]
      (Config.init fun _ => 0) = some c → c.isIdle = true ∧ sparesCheck c = true) :
    Run raisingCleanup (fun _ => True) s.HandsBackOnce (Config.init fun _ => 0) c := by
  obtain ⟨c₀, hsession, rfl⟩ := map_eq_some_iff.mp h
  obtain ⟨hidle, hcheck⟩ := hidle c₀ hsession
  exact .tail (run_of_session Enum.stored_lawful (fun c hc => handsBackOnce_of_check hs hc)
    (fun code _ => code.within_true) hsession)
    ⟨handsBackOnce_of_check hs hcheck, .issue _ (Config.isIdle_idle hidle) (Code.within_true _)⟩

theorem run_closedTwice {s : TeardownScope} {check : Config ℕ → Bool} {ok : Config ℕ → Prop}
    (hok : ∀ c, check c = true → ¬ c.At none .done [] → ok c) {c c' : Config ℕ} (h : closingTwice s = some c)
    (h' : closedTwice s check = some c') : Run raisingCleanup (fun _ => True) ok c c' := by
  rw [closedTwice, h, bind_some] at h'
  refine run_of_playUntil Enum.stored_lawful (fun c hc => ?_) h'
  rw [Bool.and_eq_true] at hc
  exact hok c hc.2 (not_at_of_not_hasClosed hc.1)

/-- The effect is the last member to be disposed of. -/
theorem close_releases_raising : ∃ x y : Logged ℕ,
    (Logged.init fun _ => 0).Run raisingCleanup effectFirst.HandsBackOnce x ∧
      x.config.At none (effectFirst.closes .done 2) [] ∧ y.config.At none .done [] ∧
      (∀ m ∈ effectFirst.owned, y.config.heap.TornDown m) ∧
      ∀ e, .effect e ∈ effectFirst.owned → ∀ count ∈ y.starts e, count = 1 := by
  have heffects : ∀ e, .effect e ∈ effectFirst.owned → e = 0 := by simp [effectFirst]
  have hkinds : ∀ m ∈ effectFirst.owned, m.Adoptable := by simp [effectFirst, Node.Adoptable]
  have hclosing : closingTwice effectFirst = some ((closingTwice effectFirst).get rfl) := (some_get rfl).symm
  have hclosed : closedTwice effectFirst sparesCheck = some ((closedTwice effectFirst sparesCheck).get rfl) :=
    (some_get rfl).symm
  have hidle : ∀ c, session raisingCleanup .stored sparesCheck 10 [.call 0 .done] (Config.init fun _ => 0) = some c →
      c.isIdle = true ∧ sparesCheck c = true := by
    intro c hc
    cases hc
    exact ⟨rfl, rfl⟩
  obtain ⟨starts, hbefore⟩ := Logged.run_of_run (run_closingTwice heffects hclosing hidle) fun _ => []
  have hok : ∀ c, sparesCheck c = true → ¬ c.At none .done [] → ¬ c.At none .done [] ∧
      effectFirst.Spares none (effectFirst.base none .done 1 []) c ∧ effectFirst.HandsBackOnce c :=
    fun c hc hnot => ⟨hnot, spares_of_check hc, handsBackOnce_of_check heffects hc⟩
  obtain ⟨starts', hrun⟩ := Logged.run_of_run (run_closedTwice hok hclosing hclosed) starts
  have hat : ((closingTwice effectFirst).get rfl).At none (effectFirst.closes .done 2) [] := ⟨rfl, rfl⟩
  have hend : ((closedTwice effectFirst sparesCheck).get rfl).At none .done [] := ⟨rfl, rfl⟩
  exact ⟨_, _, hbefore, hat, hend, TeardownScope.close_releases rfl hkinds hbefore hat hrun hend⟩

/-- The effect is disposed of first, and its cleanup raises. Its source stays alive. -/
theorem close_leaves_alive : ¬ ∀ (G : Graph ℕ) (s : TeardownScope) (σ : ℕ → ℕ) (x y : Logged ℕ) (r : Option Node)
    (k : Code ℕ) (n : ℕ) (st : List (Frame ℕ)), s.armed = true → (∀ m ∈ s.owned, m.Adoptable) →
      (Logged.init σ).Run G (fun _ => True) x → x.config.At r (s.closes k (n + 1)) st →
      x.Run G (fun c => ¬ c.At r k st) y → y.config.At r k st → ∀ m ∈ s.owned, y.config.heap.TornDown m := by
  intro h
  have hclosing : closingTwice effectLast = some ((closingTwice effectLast).get rfl) := (some_get rfl).symm
  have hclosed : closedTwice effectLast (fun _ => true) = some ((closedTwice effectLast (fun _ => true)).get rfl) :=
    (some_get rfl).symm
  have hkinds : ∀ m ∈ effectLast.owned, m.Adoptable := by simp [effectLast, Node.Adoptable]
  have hidle : ∀ c, session raisingCleanup .stored sparesCheck 10 [.call 0 .done] (Config.init fun _ => 0) = some c →
      c.isIdle = true ∧ sparesCheck c = true := by
    intro c hc
    cases hc
    exact ⟨rfl, rfl⟩
  have heffects : ∀ e, .effect e ∈ effectLast.owned → e = 0 := by simp [effectLast]
  have hbefore : Run raisingCleanup (fun _ => True) (fun _ => True) (Config.init fun _ => 0)
      ((closingTwice effectLast).get rfl) :=
    Relation.ReflTransGen.mono (fun _ _ hs => ⟨trivial, hs.2⟩) _ _ (run_closingTwice heffects hclosing hidle)
  obtain ⟨starts, hbefore⟩ := Logged.run_of_run hbefore fun _ => []
  obtain ⟨starts', hrun⟩ := Logged.run_of_run (run_closedTwice (fun c _ hnot => hnot) hclosing hclosed) starts
  have htorn := h raisingCleanup effectLast _ _ _ none .done 1 [] rfl hkinds hbefore ⟨rfl, rfl⟩ hrun ⟨rfl, rfl⟩
  have halive : ((closedTwice effectLast fun _ => true).get rfl).heap.disposed (.source 0) = false := by decide
  exact Bool.false_ne_true (halive.symm.trans (htorn (.source 0) (by simp [effectLast])))

end LazilyPy.Reactive

import LazilyPy.Reactive.Frontier
import LazilyPy.Reactive.Sources

/-!
# Batches of a thread-safe context

A thread-safe context queues the writes of a batch, and applies them when the outermost batch is left.
It touches the cells that changed one after another, inside a batch of its own.
-/

namespace LazilyPy.Reactive

open List Option Function

variable {V : Type}

/-- The enumerations a run may use: enough of them that sets with the same elements may be enumerated
alike. -/
structure Enumerations where
  allowed : Enum → Prop
  exists_allowed : ∃ ord, allowed ord
  lawful : ∀ ord, allowed ord → ord.Lawful
  alike : ∀ ord, allowed ord → ∀ l l' : List Node, l.Perm l' → ∃ ord', allowed ord' ∧ ord' none l' = ord none l

def Enumerations.all : Enumerations where
  allowed := Enum.Lawful
  exists_allowed := ⟨Enum.stored, Enum.stored_lawful⟩
  lawful _ h := h
  alike := by
    intro ord hord l l' hperm
    refine ⟨fun o m => if o = none ∧ m = l' then ord none l else m, fun o m => ?_, by simp⟩
    show (if o = none ∧ m = l' then ord none l else m).Perm m
    split
    · next heq => exact heq.2 ▸ (hord none l).trans hperm
    · exact .refl _

def Enumerations.fixed (ord : Enum) (hord : ord.Lawful)
    (hset : ∀ o (l l' : List Node), l.Perm l' → ord o l = ord o l') : Enumerations where
  allowed := (· = ord)
  exists_allowed := ⟨ord, rfl⟩
  lawful := by
    rintro _ rfl
    exact hord
  alike := by
    rintro _ rfl l l' hperm
    exact ⟨_, rfl, (hset none l l' hperm).symm⟩

/-- Client code over a thread-safe context: writes of sources, and batches. -/
inductive TsCode (V : Type) where
  | done
  | set (i : ℕ) (v : V) (k : TsCode V)
  | batch (body k : TsCode V)

def TsCode.writes : TsCode V → List (ℕ × V)
  | .done => []
  | .set i v k => (i, v) :: k.writes
  | .batch body k => body.writes ++ k.writes

/-- The state of a thread-safe context: its depth, and the writes that it has queued. -/
structure ThreadSafeContext (V : Type) where
  depth : ℕ
  pending : List (ℕ × V)

structure TsState (V : Type) where
  context : ThreadSafeContext V
  config : Config V

/-! ### What changes -/

def Changes (σ : ℕ → V) (writes : List (ℕ × V)) (i : ℕ) : Prop :=
  ∃ before v after, writes = before ++ (i, v) :: after ∧ v ≠ written σ before i

section Changed

variable {σ : ℕ → V} {writes : List (ℕ × V)} {i j : ℕ} {v : V}

theorem not_changes_nil : ¬ Changes σ [] i := by
  rintro ⟨before, v, after, heq, -⟩
  simp at heq

theorem changes_cons : Changes σ ((j, v) :: writes) i ↔
      i = j ∧ v ≠ σ i ∨ Changes (update σ j v) writes i := by
  constructor
  · rintro ⟨before, w, after, heq, hne⟩
    cases before with
    | nil =>
      obtain ⟨hw, -⟩ := cons.inj heq
      obtain ⟨rfl, rfl⟩ := Prod.mk.inj hw
      exact .inl ⟨rfl, hne⟩
    | cons w' before =>
      obtain ⟨rfl, rfl⟩ := cons.inj heq
      exact .inr ⟨before, w, after, rfl, hne⟩
  · rintro (⟨rfl, hne⟩ | ⟨before, w, after, rfl, hne⟩)
    · exact ⟨[], v, writes, rfl, hne⟩
    · exact ⟨(j, v) :: before, w, after, rfl, hne⟩

/-- What a source holds in the end is up to what it held. -/
theorem written_congr {σ' : ℕ → V} (heq : σ i = σ' i) (writes : List (ℕ × V)) :
    written σ writes i = written σ' writes i := by
  induction writes generalizing σ σ' with
  | nil => exact heq
  | cons w writes ih =>
    refine ih ?_
    show update σ w.1 w.2 i = update σ' w.1 w.2 i
    by_cases hw : i = w.1
    · rw [hw, update_self, update_self]
    · rw [update_of_ne hw, update_of_ne hw, heq]

theorem changes_congr {σ' : ℕ → V} (heq : σ i = σ' i) : Changes σ writes i ↔ Changes σ' writes i := by
  simp only [Changes, written_congr heq]

/-- What a source holds in the end, and whether it changes, is up to the writes of it. -/
theorem written_filter (σ : ℕ → V) (writes : List (ℕ × V)) (i : ℕ) :
    written σ (writes.filter fun w => w.1 = i) i = written σ writes i ∧
      (Changes σ (writes.filter fun w => w.1 = i) i ↔ Changes σ writes i) := by
  induction writes generalizing σ with
  | nil => exact ⟨rfl, Iff.rfl⟩
  | cons w writes ih =>
    obtain ⟨j, v⟩ := w
    obtain ⟨hwritten, hchanges⟩ := ih (update σ j v)
    by_cases hj : j = i
    · subst hj
      rw [filter_cons_of_pos (by simp), changes_cons, changes_cons, hchanges]
      exact ⟨hwritten, Iff.rfl⟩
    · -- a write of another source
      have heq : update σ j v i = σ i := update_of_ne (Ne.symm hj) v σ
      have hne : ¬ (i = j ∧ v ≠ σ i) := fun h => hj h.1.symm
      rw [filter_cons_of_neg (by simpa using hj), changes_cons, or_iff_right hne, ← hchanges, changes_congr heq]
      exact ⟨(written_congr heq _).symm.trans hwritten, Iff.rfl⟩

theorem written_eq_of_filter {writes' : List (ℕ × V)}
    (h : ∀ i, (writes'.filter fun w => w.1 = i) = writes.filter fun w => w.1 = i) :
    written σ writes' = written σ writes := by
  funext i
  rw [← (written_filter σ writes' i).1, ← (written_filter σ writes i).1, h]

theorem changes_iff_of_filter {writes' : List (ℕ × V)}
    (h : ∀ i, (writes'.filter fun w => w.1 = i) = writes.filter fun w => w.1 = i) :
    Changes σ writes' i ↔ Changes σ writes i := by
  rw [← (written_filter σ writes' i).2, ← (written_filter σ writes i).2, h]

end Changed

/-! ### Runs -/

variable [DecidableEq V]

/-- Phase 1 of `_flush`: the values are applied, and the cells that changed are noted once. -/
def applyPending : List (ℕ × V) → (ℕ → V) → List ℕ → (ℕ → V) × List ℕ
  | [], σ, changed => (σ, changed)
  | (i, v) :: pending, σ, changed =>
    applyPending pending (update σ i v) (if v ≠ σ i ∧ i ∉ changed then changed ++ [i] else changed)

/-- `Source.touch`. -/
def touchSource (ord : Enum) (h : Heap V) (st : List (Frame V)) (i : ℕ) : Config V :=
  if h.disposed (.source i) then ⟨h, .returned none, st⟩ else touch ord h st (.source i)

def Plays (E : Enumerations) (G : Graph V) : Config V → Config V → Prop :=
  Relation.ReflTransGen fun c c' => ∃ ord, E.allowed ord ∧ step G ord c = some c'

/-- The cells are touched one after another, on the stack `st`. -/
inductive Touching (E : Enumerations) (G : Graph V) (st : List (Frame V)) : List ℕ → Config V → Heap V → Prop
  | ended (h : Heap V) : Touching E G st [] ⟨h, .returned none, st⟩ h
  | touch {ord : Enum} {i : ℕ} {cells : List ℕ} {h h' : Heap V} : E.allowed ord →
    Touching E G st cells (touchSource ord h st i) h' →
    Touching E G st (i :: cells) ⟨h, .returned none, st⟩ h'
  | tick {ord : Enum} {cells : List ℕ} {c c' : Config V} {h' : Heap V} : c.stack ≠ st →
    E.allowed ord → step G ord c = some c' → Touching E G st cells c' h' →
    Touching E G st cells c h'

/-- The graph when `_sync_batch` has been entered. -/
def Heap.entered (σ : ℕ → V) (h : Heap V) : Heap V :=
  { h with value := σ, depth := h.depth + 1 }

def Flush (E : Enumerations) (G : Graph V) (pending : List (ℕ × V)) (c c' : Config V) : Prop :=
  ∃ h, Touching E G (.batch :: belowBatch) (applyPending pending c.heap.value []).2
      ⟨c.heap.entered (applyPending pending c.heap.value []).1, .returned none, .batch :: belowBatch⟩ h ∧
    Plays E G ⟨h, .returned none, .batch :: belowBatch⟩ c' ∧ c'.Idle

inductive TsRun (E : Enumerations) (G : Graph V) : TsCode V → TsState V → TsState V → Prop
  | done (s : TsState V) : TsRun E G .done s s
  /-- Outside a batch, a write is applied at once. -/
  | set {s s' : TsState V} {i : ℕ} {v : V} {k : TsCode V} {c : Config V} : s.context.depth = 0 →
    Plays E G (s.config.issue (.write i v .done)) c → c.Idle → c.ctl ≠ .raised →
    TsRun E G k ⟨s.context, c⟩ s' → TsRun E G (.set i v k) s s'
  | setRaises {s : TsState V} {i : ℕ} {v : V} {k : TsCode V} {c : Config V} : s.context.depth = 0 →
    Plays E G (s.config.issue (.write i v .done)) c → c.Idle → c.ctl = .raised →
    TsRun E G (.set i v k) s ⟨s.context, c⟩
  /-- Inside a batch, it is queued. -/
  | queue {s s' : TsState V} {i : ℕ} {v : V} {k : TsCode V} : s.context.depth ≠ 0 →
    TsRun E G k ⟨{ s.context with pending := s.context.pending ++ [(i, v)] }, s.config⟩ s' →
    TsRun E G (.set i v k) s s'
  /-- An inner batch is left. -/
  | inner {s s₁ s' : TsState V} {body k : TsCode V} :
    TsRun E G body ⟨{ s.context with depth := s.context.depth + 1 }, s.config⟩ s₁ →
    s₁.context.depth - 1 ≠ 0 →
    TsRun E G k ⟨{ s₁.context with depth := s₁.context.depth - 1 }, s₁.config⟩ s' →
    TsRun E G (.batch body k) s s'
  /-- The outermost batch is left. -/
  | outer {s s₁ s' : TsState V} {body k : TsCode V} {c : Config V} :
    TsRun E G body ⟨{ s.context with depth := s.context.depth + 1 }, s.config⟩ s₁ →
    s₁.context.depth - 1 = 0 → Flush E G s₁.context.pending s₁.config c → c.ctl ≠ .raised →
    TsRun E G k ⟨⟨s₁.context.depth - 1, []⟩, c⟩ s' → TsRun E G (.batch body k) s s'
  | outerRaises {s s₁ : TsState V} {body k : TsCode V} {c : Config V} :
    TsRun E G body ⟨{ s.context with depth := s.context.depth + 1 }, s.config⟩ s₁ →
    s₁.context.depth - 1 = 0 → Flush E G s₁.context.pending s₁.config c → c.ctl = .raised →
    TsRun E G (.batch body k) s ⟨⟨s₁.context.depth - 1, []⟩, c⟩

/-! ### The queue -/

section Queue

variable {E : Enumerations} {G : Graph V}

/-- Inside a batch the writes are queued, at any nesting. -/
theorem tsRun_queue {code : TsCode V} {s s' : TsState V} (hdepth : s.context.depth ≠ 0) : TsRun E G code s s' ↔
      s' = ⟨{ s.context with pending := s.context.pending ++ code.writes }, s.config⟩ := by
  induction code generalizing s s' with
  | done =>
    rw [TsCode.writes, append_nil]
    constructor
    · rintro ⟨⟩
      rfl
    · rintro rfl
      exact .done s
  | set i v k ih =>
    have hk := @ih ⟨{ s.context with pending := s.context.pending ++ [(i, v)] }, s.config⟩ s' hdepth
    rw [append_assoc] at hk
    refine Iff.trans ?_ hk
    constructor
    · intro hrun
      cases hrun with
      | set hzero => exact absurd hzero hdepth
      | setRaises hzero => exact absurd hzero hdepth
      | queue _ hrest => exact hrest
    · exact .queue hdepth
  | batch body k ihbody ihk =>
    have hbody {s₁} := @ihbody ⟨{ s.context with depth := s.context.depth + 1 }, s.config⟩ s₁
      (Nat.succ_ne_zero _)
    have hk := @ihk ⟨{ s.context with pending := s.context.pending ++ body.writes }, s.config⟩ s'
      hdepth
    rw [append_assoc] at hk
    refine Iff.trans ?_ hk
    constructor
    · intro hrun
      cases hrun with
      | inner hb _ hrest =>
        obtain rfl := hbody.mp hb
        exact hrest
      | outer hb hzero =>
        obtain rfl := hbody.mp hb
        exact absurd hzero hdepth
      | outerRaises hb hzero =>
        obtain rfl := hbody.mp hb
        exact absurd hzero hdepth
    · exact fun hrest => .inner (hbody.mpr rfl) hdepth hrest

/-- A batch of a fresh context is the flush of its writes. -/
theorem tsRun_batch {body : TsCode V} {c₀ : Config V} {s : TsState V} :
    TsRun E G (.batch body .done) ⟨⟨0, []⟩, c₀⟩ s ↔ ∃ c, s = ⟨⟨0, []⟩, c⟩ ∧ Flush E G body.writes c₀ c := by
  have hbody {s₁} := @tsRun_queue V _ E G body ⟨⟨1, []⟩, c₀⟩ s₁ Nat.one_ne_zero
  constructor
  · intro hrun
    cases hrun with
    | inner hb hne =>
      obtain rfl := hbody.mp hb
      exact absurd rfl hne
    | outer hb _ hflush _ hrest =>
      obtain rfl := hbody.mp hb
      cases hrest
      exact ⟨_, rfl, hflush⟩
    | outerRaises hb _ hflush _ =>
      obtain rfl := hbody.mp hb
      exact ⟨_, rfl, hflush⟩
  · rintro ⟨c, rfl, hflush⟩
    have hb := hbody.mpr (Eq.refl _)
    by_cases hraised : c.ctl = .raised
    · exact @TsRun.outerRaises V _ E G ⟨⟨0, []⟩, c₀⟩ _ body .done c hb rfl hflush hraised
    · exact @TsRun.outer V _ E G ⟨⟨0, []⟩, c₀⟩ _ _ body .done c hb rfl hflush hraised (.done _)

end Queue

/-! ### The cells that are touched -/

theorem applyPending_fst (writes : List (ℕ × V)) (σ : ℕ → V) (changed : List ℕ) :
    (applyPending writes σ changed).1 = written σ writes := by
  induction writes generalizing σ changed with
  | nil => rfl
  | cons w writes ih => exact ih _ _

/-- The cells that are touched are those that some write changed, each once. -/
theorem applyPending_snd (writes : List (ℕ × V)) (σ : ℕ → V) {changed : List ℕ}
    (hnodup : changed.Nodup) : (applyPending writes σ changed).2.Nodup ∧
      ∀ i, i ∈ (applyPending writes σ changed).2 ↔ i ∈ changed ∨ Changes σ writes i := by
  induction writes generalizing σ changed with
  | nil => exact ⟨hnodup, fun i => by simp [applyPending, not_changes_nil]⟩
  | cons w writes ih =>
    obtain ⟨j, v⟩ := w
    rw [applyPending]
    split
    · next hnew =>
      have hnodup' : (changed ++ [j]).Nodup := nodup_append'.mpr ⟨hnodup, nodup_singleton j, by simpa using hnew.2⟩
      obtain ⟨hnd, hmem⟩ := ih (update σ j v) hnodup'
      refine ⟨hnd, fun i => ?_⟩
      rw [hmem, changes_cons, mem_append, mem_singleton]
      constructor
      · rintro ((hi | rfl) | hi)
        · exact .inl hi
        · exact .inr (.inl ⟨rfl, hnew.1⟩)
        · exact .inr (.inr hi)
      · rintro (hi | ⟨rfl, -⟩ | hi)
        · exact .inl (.inl hi)
        · exact .inl (.inr rfl)
        · exact .inr hi
    · next hold =>
      obtain ⟨hnd, hmem⟩ := ih (update σ j v) hnodup
      refine ⟨hnd, fun i => ?_⟩
      rw [hmem, changes_cons]
      constructor
      · exact Or.imp id .inr
      · rintro (hi | ⟨rfl, hne⟩ | hi)
        · exact .inl hi
        · by_contra hnot
          exact hold ⟨hne, fun hi => hnot (.inl hi)⟩
        · exact .inr hi

/-! ### The wave -/

section Wave

variable {E : Enumerations} {G : Graph V} {ord : Enum} {h₀ h : Heap V} {cells : Set Node}
  {seen : Finset Node} {st : List (Frame V)} {c c' c₁ : Config V}

/-- Where every enumeration leads to one configuration, a run goes on from there. -/
theorem plays_iff (hc : ¬ c.Idle) (hidle : c₁.Idle) (hs : ∀ ord, step G ord c = some c') :
    Plays E G c c₁ ↔ Plays E G c' c₁ := by
  constructor
  · intro hplays
    rcases hplays.cases_head with rfl | ⟨c'', ⟨ord, -, hstep⟩, hrest⟩
    · exact absurd hidle hc
    · rw [hs] at hstep
      obtain rfl := some.inj hstep
      exact hrest
  · intro hplays
    obtain ⟨ord, hord⟩ := E.exists_allowed
    exact .head ⟨ord, hord, hs ord⟩ hplays

/-- A turn of the drain loop inside a batch: the wave is over, or a node is visited. -/
theorem loop_cases (hdepth : 0 < h₀.depth) (hs : FrontierSwept h₀ cells seen h)
    (hstep : step G ord ⟨h, .loop, .drain :: st⟩ = some c') :
    h.work = [] ∧ c' = ⟨{ h with active := false }, .returned none, st⟩ ∨ ∃ n rest, h.work = n :: rest ∧
        c' = ⟨({ h with work := rest } : Heap V).visit ord n, .loop, .drain :: st⟩ := by
  simp only [step, stepLoop] at hstep
  split at hstep
  · next hwork => exact .inl ⟨hwork, (some.inj hstep).symm⟩
  · next n rest hwork =>
    refine .inr ⟨n, rest, hwork, (some.inj hstep).symm.trans ?_⟩
    refine invalidate_in_batch (h := { h with work := rest }) ?_ _ n
    exact hs.depth ▸ hdepth

/-- A run that starts in the drain loop comes to where the wave is over. -/
theorem waveEnds_of_plays (hdepth : 0 < h₀.depth) (hs : FrontierSwept h₀ cells seen h)
    (hplays : Plays E G ⟨h, .loop, .drain :: st⟩ c₁) (hidle : c₁.Idle) :
    ∃ h', WaveEnds h₀ cells h.pendingCells h' ∧ Plays E G ⟨h', .returned none, st⟩ c₁ := by
  obtain ⟨c, hc⟩ : ∃ c : Config V, c = ⟨h, .loop, .drain :: st⟩ := ⟨_, rfl⟩
  rw [← hc] at hplays
  induction hplays using Relation.ReflTransGen.head_induction_on generalizing h seen with
  | refl => exact absurd (hc ▸ hidle) not_idle_cons
  | head hstep hrest ih =>
    obtain ⟨ord, hord, hstep⟩ := hstep
    subst hc
    obtain ⟨hwork, rfl⟩ | ⟨n, rest, hwork, rfl⟩ := loop_cases hdepth hs hstep
    · exact ⟨_, ⟨⟨seen, hs.recell h.pendingCells false⟩, hwork, rfl, rfl⟩, hrest⟩
    · obtain ⟨h', hends, hplays⟩ := ih (hs.visit (E.lawful ord hord) hwork) rfl
      rw [visit_pendingCells] at hends
      exact ⟨h', hends, hplays⟩

/-- Steps before the stack is `st`. -/
def Above (E : Enumerations) (G : Graph V) (st : List (Frame V)) : Config V → Config V → Prop :=
  Relation.ReflTransGen fun c c' => c.stack ≠ st ∧ ∃ ord, E.allowed ord ∧ step G ord c = some c'

theorem Above.plays (ha : Above E G st c c') : Plays E G c c' :=
  Relation.ReflTransGen.mono (fun _ _ hs => hs.2) _ _ ha

theorem Above.touching (ha : Above E G st c c') {cells : List ℕ} {h' : Heap V}
    (ht : Touching E G st cells c' h') : Touching E G st cells c h' := by
  induction ha using Relation.ReflTransGen.head_induction_on with
  | refl => exact ht
  | head hstep _ ih =>
    obtain ⟨hst, ord, hord, hs⟩ := hstep
    exact .tick hst hord hs ih

/-- A wave over finitely many nodes ends. -/
theorem exists_waveEnds (hdepth : 0 < h₀.depth) (hs : FrontierSwept h₀ cells seen h) {nodes : Finset Node}
    (hnodes : ∀ m, InWave h₀ cells m → m ∈ nodes) (G : Graph V) (st : List (Frame V)) :
    ∃ h', WaveEnds h₀ cells h.pendingCells h' ∧ Above E G st ⟨h, .loop, .drain :: st⟩ ⟨h', .returned none, st⟩ := by
  obtain ⟨ord, hord⟩ := E.exists_allowed
  have hst : (Frame.drain :: st : List (Frame V)) ≠ st := by simp
  induction hk : h.work.length + unseen h₀ nodes seen using Nat.strong_induction_on
    generalizing h seen with
  | _ k ih =>
    obtain ⟨c', hstep⟩ : ∃ c', step G ord ⟨h, .loop, .drain :: st⟩ = some c' := by
      simp only [step, stepLoop]
      split
      · exact ⟨_, rfl⟩
      · exact ⟨_, rfl⟩
    obtain ⟨hwork, rfl⟩ | ⟨n, rest, hwork, rfl⟩ := loop_cases hdepth hs hstep
    · exact ⟨_, ⟨⟨seen, hs.recell h.pendingCells false⟩, hwork, rfl, rfl⟩, .single ⟨hst, ord, hord, hstep⟩⟩
    · have hn := hnodes n (hs.reached n (.inr (hwork ▸ mem_cons_self)))
      have hlt := hs.measure_lt (E.lawful ord hord) hwork hn
      obtain ⟨h', hends, habove⟩ := ih _ (hk ▸ hlt) (hs.visit (E.lawful ord hord) hwork) rfl
      rw [visit_pendingCells] at hends
      exact ⟨h', hends, .head ⟨hst, ord, hord, hstep⟩ habove⟩

end Wave

/-! ### The flush -/

section Flushes

variable {E : Enumerations} {G : Graph V} {h₀ h : Heap V} {touched : Set Node} {seen : Finset Node} {c₁ : Config V}

def Outcome (E : Enumerations) (G : Graph V) (h₀ : Heap V) (touched : Set Node) (c₁ : Config V) : Prop :=
  ∃ h ord, WaveEnds h₀ touched [] h ∧ E.allowed ord ∧
    Plays E G (nextRerun { h with pendingEffects := [] } belowBatch false
      (ord none h.pendingEffects)) c₁ ∧ c₁.Idle

theorem Outcome.exists_nodes (ho : Outcome E G h₀ touched c₁) :
    ∃ nodes : Finset Node, ∀ m, InWave h₀ touched m → m ∈ nodes := by
  obtain ⟨_, _, hends, _⟩ := ho
  exact hends.exists_nodes

/-- The end of the outermost batch: the cells that are pending are touched as well. -/
theorem endBatch_iff (hdepth : h₀.depth = 1) (hs : FrontierSwept h₀ touched seen h)
    (hcells : ∀ n ∈ h.pendingCells, n.isEffect = false) :
    Plays E G ⟨h, .returned none, .batch :: belowBatch⟩ c₁ ∧ c₁.Idle ↔
      Outcome E G h₀ (touched ∪ liveCells h₀ h.pendingCells) c₁ := by
  have hpos : 0 < h₀.depth := by omega
  have hend : ∀ ord, step G ord ⟨h, .returned none, .batch :: belowBatch⟩ =
      some ⟨h.flushTouch ord, .loop, .drain :: .flushed false :: belowBatch⟩ := by
    intro ord
    simp [step, stepReturned, endBatch, hs.depth, hdepth]
  constructor
  · rintro ⟨hplays, hidle⟩
    rcases hplays.cases_head with rfl | ⟨_, ⟨ord, hord, hstep⟩, hrest⟩
    · exact absurd hidle not_idle_cons
    rw [hend] at hstep
    obtain rfl := some.inj hstep
    obtain ⟨h', hends, hrest⟩ := waveEnds_of_plays hpos (hs.flushTouch (E.lawful ord hord) hcells) hrest hidle
    rw [flushTouch_pendingCells] at hends
    rcases hrest.cases_head with rfl | ⟨_, ⟨ord', hord', hstep'⟩, hrest⟩
    · exact absurd hidle not_idle_cons
    obtain rfl := some.inj hstep'
    exact ⟨h', ord', hends, hord', hrest, hidle⟩
  · rintro ⟨h', ord', hends', hord', hrest, hidle⟩
    obtain ⟨ord, hord⟩ := E.exists_allowed
    obtain ⟨nodes, hnodes⟩ := hends'.exists_nodes
    obtain ⟨h'', hends, habove⟩ := exists_waveEnds (E := E) hpos
      (hs.flushTouch (E.lawful ord hord) hcells) hnodes G (.flushed false :: belowBatch)
    rw [flushTouch_pendingCells] at hends
    -- the effects are rerun in the same order
    obtain ⟨heq, hperm⟩ := hends'.unique hends
    obtain ⟨ord'', hord'', halike⟩ := E.alike ord' hord' _ _ hperm
    refine ⟨.head ⟨ord, hord, hend ord⟩ (habove.plays.trans (.head ⟨ord'', hord'', rfl⟩ ?_)), hidle⟩
    rw [halike, ← heq]
    exact hrest

end Flushes

/-! ### Touching one cell after another -/

section Touches

variable {E : Enumerations} {G : Graph V} {ord : Enum} {h₀ h h' : Heap V} {touched : Set Node}
  {seen : Finset Node} {st : List (Frame V)} {cells : List ℕ} {c : Config V}

def liveSources (h₀ : Heap V) (cells : List ℕ) : Set Node :=
  liveCells h₀ (cells.map .source)

/-- Where the touches stand: between two of them, or in the wave of one. -/
inductive Sweeping (h₀ : Heap V) (touched : Set Node) (pending : List Node) (st : List (Frame V)) : Config V → Prop
  | between {seen : Finset Node} {h : Heap V} (hs : FrontierSwept h₀ touched seen h)
    (hpending : h.pendingCells = pending) : Sweeping h₀ touched pending st ⟨h, .returned none, st⟩
  | within {seen : Finset Node} {h : Heap V} (hs : FrontierSwept h₀ touched seen h)
    (hpending : h.pendingCells = pending) :
    Sweeping h₀ touched pending st ⟨h, .loop, .drain :: st⟩

variable {pending : List Node}

omit [DecidableEq V] in
/-- A touch of one cell. -/
theorem sweeping_touch {i : ℕ} (hord : ord.Lawful) (hs : FrontierSwept h₀ touched seen h)
    (hpending : h.pendingCells = pending) :
    Sweeping h₀ (touched ∪ liveSources h₀ [i]) pending st (touchSource ord h st i) := by
  rw [touchSource]
  split
  · next hd =>
    have hset : touched ∪ liveSources h₀ [i] = touched := by
      rw [liveSources, map_singleton, liveCells_cons_dead (hs.disposed ▸ hd)]
      simp [liveCells]
    rw [hset]
    exact .between hs hpending
  · next hd =>
    have hset : touched ∪ liveSources h₀ [i] = insert (.source i) touched := by
      have hlive : h₀.disposed (.source i) = false := by simpa [hs.disposed] using hd
      rw [liveSources, map_singleton, liveCells_cons_live hlive]
      simp [liveCells]
    rw [hset]
    have htouch := hs.touch (n := .source i) hord fun hq => by cases hq.1
    rw [touch]
    split
    · next hnil =>
      have hsame : h.pushParents ord (.source i) = h := by
        have hempty : ord (some (.source i)) [] = [] := (hord _ []).eq_nil
        have hupdate : update h.parents (.source i) [] = h.parents := update_eq_self_iff.mpr hnil.symm
        rw [Heap.pushParents, hnil, hempty, hupdate, nil_append]
      rw [hsame] at htouch
      exact .between htouch hpending
    · rw [drainResets]
      split
      · exact .between htouch hpending
      · exact .within (htouch.recell _ true) hpending

omit [DecidableEq V] in
theorem liveSources_cons (i : ℕ) (cells : List ℕ) (touched : Set Node) :
    touched ∪ liveSources h₀ [i] ∪ liveSources h₀ cells = touched ∪ liveSources h₀ (i :: cells) := by
  rw [Set.union_assoc, liveSources, liveSources, liveSources, ← liveCells_append, ← map_append, singleton_append]

/-- What the touches of some cells come to. -/
theorem swept_of_touching (hdepth : 0 < h₀.depth) (ht : Touching E G st cells c h')
    (hc : Sweeping h₀ touched pending st c) :
    ∃ seen, FrontierSwept h₀ (touched ∪ liveSources h₀ cells) seen h' ∧ h'.pendingCells = pending := by
  induction ht generalizing touched with
  | ended h =>
    cases hc with
    | between hs hpending => exact ⟨_, by simpa [liveSources, liveCells] using hs, hpending⟩
  | @touch ord i cells h _ hord _ ih =>
    rw [← liveSources_cons]
    cases hc with
    | between hs hpending => exact ih (sweeping_touch (E.lawful ord hord) hs hpending)
  | @tick ord _ _ _ _ hst hord hstep _ ih =>
    cases hc with
    | between => exact absurd rfl hst
    | within hs hpending =>
      obtain ⟨-, rfl⟩ | ⟨n, rest, hwork, rfl⟩ := loop_cases hdepth hs hstep
      · exact ih (.between (hs.recell _ false) hpending)
      · exact ih (.within (hs.visit (E.lawful ord hord) hwork) ((visit_pendingCells _ _ _).trans hpending))

/-- The touches of some cells come to an end, if the waves come to finitely many nodes. -/
theorem exists_touching (hdepth : 0 < h₀.depth) {nodes : Finset Node}
    (hnodes : ∀ m, InWave h₀ (touched ∪ liveSources h₀ cells) m → m ∈ nodes) (hs : FrontierSwept h₀ touched seen h)
    (hpending : h.pendingCells = pending) :
    ∃ h', Touching E G st cells ⟨h, .returned none, st⟩ h' := by
  obtain ⟨ord, hord⟩ := E.exists_allowed
  induction cells generalizing h touched seen with
  | nil => exact ⟨h, .ended h⟩
  | cons i cells ih =>
    rw [← liveSources_cons] at hnodes
    have htouch : Sweeping h₀ (touched ∪ liveSources h₀ [i]) pending st (touchSource ord h st i) :=
      sweeping_touch (E.lawful ord hord) hs hpending
    obtain ⟨c, hc⟩ : ∃ c, touchSource ord h st i = c := ⟨_, rfl⟩
    rw [hc] at htouch
    cases htouch with
    | between hs' hpending' =>
      obtain ⟨h', ht⟩ := ih hnodes hs' hpending'
      exact ⟨h', .touch hord (hc ▸ ht)⟩
    | within hs' hpending' =>
      obtain ⟨h'', hends, habove⟩ := exists_waveEnds (E := E) hdepth hs'
        (fun m hm => hnodes m (hm.mono Set.subset_union_left)) G st
      obtain ⟨_, hs''⟩ := hends.swept
      obtain ⟨h', ht⟩ := ih hnodes hs'' (hends.pendingCells.trans hpending')
      exact ⟨h', .touch hord (hc ▸ habove.touching ht)⟩

end Touches

/-! ### Both batches -/

section Batches

variable {E : Enumerations} {G : Graph V} {h : Heap V} {st : List (Frame V)} {c₀ c₁ : Config V}

/-- Inside a batch, the writes change the sources, and those that changed are pending. -/
theorem plays_writing (hdepth : 0 < h.depth) (writes : List (ℕ × V))
    (hlive : ∀ w ∈ writes, h.disposed (.source w.1) = false) (E : Enumerations) (G : Graph V)
    (f : Frame V) (st : List (Frame V)) :
    ∃ pending, (∀ n, n ∈ pending ↔ n ∈ h.pendingCells ∨ ∃ i, n = .source i ∧ Changes h.value writes i) ∧
      ∀ c₁, c₁.Idle → (Plays E G ⟨h, .exec none (writing writes), f :: st⟩ c₁ ↔
        Plays E G ⟨{ h with value := written h.value writes, pendingCells := pending },
          .returned none, f :: st⟩ c₁) := by
  induction writes generalizing h with
  | nil =>
    refine ⟨h.pendingCells, fun n => by simp [not_changes_nil], fun c₁ hidle => ?_⟩
    exact plays_iff not_idle_cons hidle fun _ => rfl
  | cons w writes ih =>
    obtain ⟨i, v⟩ := w
    rw [forall_mem_cons] at hlive
    obtain ⟨hi, hlive⟩ := hlive
    -- the heap once the first value has been written
    obtain ⟨h', hset, hvalue, hcells, hsame⟩ : ∃ h' : Heap V,
        (∀ ord st, setSource ord h st i v = ⟨h', .returned none, st⟩) ∧
        h'.value = update h.value i v ∧
        (∀ n, n ∈ h'.pendingCells ↔ n ∈ h.pendingCells ∨ n = .source i ∧ v ≠ h.value i) ∧
        h' = { h with value := h'.value, pendingCells := h'.pendingCells } := by
      by_cases heq : v = h.value i
      · refine ⟨h.setValue i v, fun ord st => ?_, rfl, fun n => by simp [Heap.setValue, heq], rfl⟩
        rw [setSource, if_neg (by simpa using hi), if_pos heq]
      · refine ⟨(h.setValue i v).addPendingCell (.source i), fun ord st => ?_, rfl, fun n => ?_, rfl⟩
        · rw [setSource, if_neg (by simpa using hi), if_neg heq, if_pos hdepth]
        · rw [Heap.addPendingCell, mem_insertNode]
          simp [Heap.setValue, heq, or_comm]
    have hdepth' : 0 < h'.depth := by rwa [hsame]
    have hlive' : ∀ w ∈ writes, h'.disposed (.source w.1) = false := by rwa [hsame]
    obtain ⟨pending, hpending, hplays⟩ := ih hdepth' hlive'
    refine ⟨pending, fun n => ?_, fun c₁ hidle => ?_⟩
    · rw [hpending, hcells, hvalue]
      simp only [changes_cons]
      constructor
      · rintro ((hn | ⟨rfl, hne⟩) | ⟨j, rfl, hj⟩)
        · exact .inl hn
        · exact .inr ⟨i, rfl, .inl ⟨rfl, hne⟩⟩
        · exact .inr ⟨j, rfl, .inr hj⟩
      · rintro (hn | ⟨j, rfl, ⟨rfl, hne⟩ | hj⟩)
        · exact .inl (.inl hn)
        · exact .inl (.inr ⟨rfl, hne⟩)
        · exact .inr ⟨j, rfl, hj⟩
    · have hwrite : Plays E G ⟨h, .exec none (writing ((i, v) :: writes)), f :: st⟩ c₁ ↔
          Plays E G ⟨h', .returned none, .andThen none (writing writes) :: f :: st⟩ c₁ :=
        plays_iff not_idle_cons hidle fun ord => congrArg some (hset ord _)
      have hreturn : Plays E G ⟨h', .returned none, .andThen none (writing writes) :: f :: st⟩ c₁ ↔
          Plays E G ⟨h', .exec none (writing writes), f :: st⟩ c₁ :=
        plays_iff not_idle_cons hidle fun _ => rfl
      rw [hwrite, hreturn, hplays c₁ hidle, hvalue, hsame]
      rfl

def Heap.applied (writes : List (ℕ × V)) (h : Heap V) : Heap V :=
  h.entered (written h.value writes)

/-- The cells that a batch with these writes touches, and those that had been left pending. -/
def batchCells (writes : List (ℕ × V)) (h : Heap V) : Set Node :=
  {n | h.disposed n = false ∧ (n ∈ h.pendingCells ∨ ∃ i, n = .source i ∧ Changes h.value writes i)}

/-- The plain batch. -/
theorem batch_iff (hidle₀ : c₀.Idle) (hdepth : c₀.heap.depth = 0)
    (hcells : ∀ n ∈ c₀.heap.pendingCells, n.isEffect = false) {writes : List (ℕ × V)}
    (hlive : ∀ w ∈ writes, c₀.heap.disposed (.source w.1) = false) :
    Plays E G (c₀.issue (.batch (writing writes) .done)) c₁ ∧ c₁.Idle ↔
      Outcome E G (c₀.heap.applied writes) (batchCells writes c₀.heap) c₁ := by
  have hbusy : ¬ (c₀.issue (.batch (writing writes) .done)).Idle := by
    rintro ⟨_, hctl | ⟨cl, hctl⟩⟩
    · cases hctl
    · cases hctl
  have henter (hidle : c₁.Idle) : Plays E G (c₀.issue (.batch (writing writes) .done)) c₁ ↔
      Plays E G ⟨{ c₀.heap with depth := c₀.heap.depth + 1 }, .exec none (writing writes),
        .batch :: belowBatch⟩ c₁ := by
    refine plays_iff hbusy hidle fun ord => ?_
    rw [step, Config.issue, hidle₀.1]
    rfl
  have hpos : 0 < ({ c₀.heap with depth := c₀.heap.depth + 1 } : Heap V).depth :=
    Nat.succ_pos c₀.heap.depth
  obtain ⟨pending, hpending, hwrites⟩ := plays_writing hpos writes hlive E G .batch belowBatch
  have hset : ∅ ∪ liveCells (c₀.heap.applied writes) pending = batchCells writes c₀.heap := by
    ext n
    simp only [Set.empty_union, liveCells, batchCells, Set.mem_ofPred_eq, hpending]
    exact and_comm
  have heffects : ∀ n ∈ pending, n.isEffect = false := by
    intro n hn
    obtain hn | ⟨i, rfl, -⟩ := (hpending n).mp hn
    · exact hcells n hn
    · rfl
  have hs := (FrontierSwept.init (c₀.heap.applied writes)).recell pending c₀.heap.active
  rw [← hset, ← endBatch_iff (congrArg (· + 1) hdepth) hs heffects]
  exact and_congr_left fun hidle => (henter hidle).trans (hwrites c₁ hidle)

/-- The batch of a thread-safe context. -/
theorem flush_iff (hdepth : c₀.heap.depth = 0)
    (hcells : ∀ n ∈ c₀.heap.pendingCells, n.isEffect = false) {writes : List (ℕ × V)} :
    Flush E G writes c₀ c₁ ↔ Outcome E G (c₀.heap.applied writes) (batchCells writes c₀.heap) c₁ := by
  have hone : (c₀.heap.applied writes).depth = 1 := congrArg (· + 1) hdepth
  have hpos : 0 < (c₀.heap.applied writes).depth := by omega
  have hset : ∅ ∪ liveSources (c₀.heap.applied writes) (applyPending writes c₀.heap.value []).2 ∪
      liveCells (c₀.heap.applied writes) c₀.heap.pendingCells = batchCells writes c₀.heap := by
    have hmem := (applyPending_snd writes c₀.heap.value nodup_nil).2
    ext n
    simp only [Set.empty_union, liveSources, liveCells, batchCells, Set.mem_union,
      Set.mem_ofPred_eq, List.mem_map, hmem, not_mem_nil, false_or]
    constructor
    · rintro (⟨⟨i, hi, rfl⟩, hd⟩ | ⟨hn, hd⟩)
      · exact ⟨hd, .inr ⟨i, rfl, hi⟩⟩
      · exact ⟨hd, .inl hn⟩
    · rintro ⟨hd, hn | ⟨i, rfl, hi⟩⟩
      · exact .inr ⟨hn, hd⟩
      · exact .inl ⟨⟨i, hi, rfl⟩, hd⟩
  have hstart : Sweeping (c₀.heap.applied writes) ∅ c₀.heap.pendingCells
      (.batch :: belowBatch : List (Frame V)) ⟨c₀.heap.applied writes, .returned none,
        .batch :: belowBatch⟩ := .between (FrontierSwept.init _) rfl
  -- what is left to do once the cells have been touched
  have hend {h : Heap V} (ht : Touching E G (.batch :: belowBatch)
      (applyPending writes c₀.heap.value []).2 ⟨c₀.heap.applied writes, .returned none, .batch :: belowBatch⟩ h) :
      Plays E G ⟨h, .returned none, .batch :: belowBatch⟩ c₁ ∧ c₁.Idle ↔
        Outcome E G (c₀.heap.applied writes) (batchCells writes c₀.heap) c₁ := by
    obtain ⟨seen, hs, hpending⟩ := swept_of_touching hpos ht hstart
    rw [endBatch_iff hone hs (hpending ▸ hcells), hpending, hset]
  rw [Flush, applyPending_fst]
  constructor
  · rintro ⟨h, ht, hplays, hidle⟩
    exact (hend ht).mp ⟨hplays, hidle⟩
  · intro houtcome
    obtain ⟨nodes, hnodes⟩ := houtcome.exists_nodes
    have hsub : ∅ ∪ liveSources (c₀.heap.applied writes) (applyPending writes c₀.heap.value []).2 ⊆
        batchCells writes c₀.heap := hset ▸ Set.subset_union_left
    obtain ⟨h, ht⟩ : ∃ h, Touching E G (.batch :: belowBatch)
        (applyPending writes c₀.heap.value []).2 ⟨c₀.heap.applied writes, .returned none, .batch :: belowBatch⟩ h :=
      exists_touching hpos (fun m hm => hnodes m (hm.mono hsub)) (FrontierSwept.init _) rfl
    exact ⟨h, ht, (hend ht).mpr houtcome⟩

/-- Only sources are pending. -/
theorem pendingCells_run {S : Instr → Prop} {ok : Config V → Prop} {σ : ℕ → V}
    (hreach : Run G S ok (Config.init σ) c₀) : ∀ n ∈ c₀.heap.pendingCells, n.isEffect = false := by
  induction hreach with
  | refl => exact fun n hn => absurd hn not_mem_nil
  | @tail c c' _ hstep ih =>
    cases hstep.2 with
    | issue => exact ih
    | tick ord _ hs =>
      cases boundary_step hs with
      | quiet hsame => exact hsame.cells ▸ ih
      | defer _ _ _ _ _ _ _ _ _ hcells =>
        rw [hcells]
        intro n hn
        obtain rfl | hn := mem_insertNode.mp hn
        · rfl
        · exact ih n hn
      | enqueue _ _ _ _ _ _ _ _ _ hcells => exact hcells ▸ ih
      | «open» _ _ _ _ _ hcells => exact hcells ▸ ih
      | close _ _ _ _ hcells => exact hcells ▸ ih
      | flush _ _ _ _ _ hcells =>
        rw [hcells]
        exact fun n hn => absurd hn not_mem_nil
      | next _ _ _ _ _ _ _ hcells => exact hcells ▸ ih
      | leave _ _ _ _ _ hcells => exact hcells ▸ ih
      | unwind f st hctl hst hscope =>
        obtain ⟨h, t, stack⟩ := c
        obtain rfl : t = .raised := hctl
        obtain rfl : stack = f :: st := hst
        obtain ⟨b, rfl⟩ | ⟨b, rest, rfl⟩ := hscope <;>
        · cases hs
          exact ih

/-- A batch of a thread-safe context, of any nesting, ends in the configurations in which the plain batch
of its writes ends. It touches each cell that a write changes once, and how it ends is up to the order of
the writes to each source. -/
theorem batch_refines (E : Enumerations) (G : Graph V) {σ : ℕ → V}
    (hreach : Run G (fun _ => True) (fun _ => True) (Config.init σ) c₀) (hidle : c₀.Idle)
    (hdepth : c₀.heap.depth = 0) (body : TsCode V)
    (hlive : ∀ w ∈ body.writes, c₀.heap.disposed (.source w.1) = false) :
    (∀ s, TsRun E G (.batch body .done) ⟨⟨0, []⟩, c₀⟩ s ↔ ∃ c₁, s = ⟨⟨0, []⟩, c₁⟩ ∧
        Plays E G (c₀.issue (.batch (writing body.writes) .done)) c₁ ∧ c₁.Idle) ∧
    ((applyPending body.writes c₀.heap.value []).2.Nodup ∧ ∀ i, i ∈ (applyPending body.writes c₀.heap.value []).2 ↔
        Changes c₀.heap.value body.writes i) ∧
    ∀ body' : TsCode V, (∀ i, (body'.writes.filter fun w => w.1 = i) = body.writes.filter fun w => w.1 = i) →
      ∀ s, TsRun E G (.batch body' .done) ⟨⟨0, []⟩, c₀⟩ s ↔ TsRun E G (.batch body .done) ⟨⟨0, []⟩, c₀⟩ s := by
  have hcells := pendingCells_run hreach
  refine ⟨fun s => ?_, ?_, fun body' hsame s => ?_⟩
  · rw [tsRun_batch]
    refine exists_congr fun c₁ => and_congr_right fun _ => ?_
    rw [flush_iff hdepth hcells, batch_iff hidle hdepth hcells hlive]
  · obtain ⟨hnodup, hmem⟩ := applyPending_snd body.writes c₀.heap.value nodup_nil
    exact ⟨hnodup, fun i => by simpa using hmem i⟩
  · have happlied : c₀.heap.applied body'.writes = c₀.heap.applied body.writes := by
      rw [Heap.applied, Heap.applied, written_eq_of_filter hsame]
    have htouched : batchCells body'.writes c₀.heap = batchCells body.writes c₀.heap := by
      ext n
      simp only [batchCells, changes_iff_of_filter hsame]
    rw [tsRun_batch, tsRun_batch]
    simp only [flush_iff hdepth hcells, happlied, htouched]

end Batches

def watched : Option (Config ℕ) :=
  session (watching fun _ => .done) .stored (fun _ => true) 20 [.call 0 .done] (Config.init fun _ => 0)

/-- Source 0 is written twice, and holds what it held before. Source 1 is written in an inner batch. -/
def returning : TsCode ℕ :=
  .set 0 5 (.batch (.set 1 3 .done) (.set 0 0 .done))

/-- Source 0 is touched all the same, and the effect runs again. -/
theorem batch_refines_returning : ∃ c₀ c₁, watched = some c₀ ∧
    TsRun .all (watching fun _ => .done) (.batch returning .done) ⟨⟨0, []⟩, c₀⟩ ⟨⟨0, []⟩, c₁⟩ ∧
    c₁.heap.value 0 = 0 ∧ c₁.heap.value 1 = 3 ∧ c₁.heap.runs (.effect 0) = 2 := by
  have hsession : watched = some (watched.get rfl) := (some_get _).symm
  have hreach : Run (watching fun _ => .done) (fun _ => True) (fun _ => True)
      (Config.init fun _ => 0) (watched.get rfl) :=
    run_of_session Enum.stored_lawful (fun _ _ => trivial) (by simp [Code.Within]) hsession
  obtain ⟨hbatch, -⟩ := batch_refines .all (watching fun _ => .done) hreach
    (Config.isIdle_idle rfl) rfl returning (by decide)
  obtain ⟨c₁, hplay⟩ : ∃ c₁, playUntil (watching fun _ => .done) .stored (fun _ => true) Config.isIdle 60
      ((watched.get rfl).issue (.batch (writing returning.writes) .done)) = some c₁ := ⟨_, rfl⟩
  have hticks : Ticks (watching fun _ => .done) (fun _ => True)
      ((watched.get rfl).issue (.batch (writing returning.writes) .done)) c₁ :=
    ticks_of_playUntil Enum.stored_lawful (fun _ _ => trivial) hplay
  have hplays : Plays .all (watching fun _ => .done)
      ((watched.get rfl).issue (.batch (writing returning.writes) .done)) c₁ :=
    Relation.ReflTransGen.mono (fun _ _ hs => hs.2) _ _ hticks
  obtain rfl := some.inj hplay
  exact ⟨_, _, hsession, (hbatch _).mpr ⟨_, rfl, hplays, Config.isIdle_idle rfl⟩, rfl, rfl, rfl⟩

end LazilyPy.Reactive

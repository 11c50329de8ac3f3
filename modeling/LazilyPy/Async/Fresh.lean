import LazilyPy.Async.Edges
import LazilyPy.Async.Order

/-!
# What computeds stand on

A computed that is resolved, or whose body is on its way to resolve it, has an edge from everything that
it has read, and what it has read still holds unless it is queued in a batch.
-/

namespace LazilyPy.Async.Context

open List Function

variable {I V R : Type}

/-! ### Evaluation from scratch -/

/-- A body reads sources and awaits computeds, and it does not raise. -/
inductive Body.Plain : Body I V R → Prop
  | ret (r : R) : Plain (.ret r)
  | get {id : I} {k : Reply V → Body I V R} (h : ∀ v, Plain (k (.value v))) : Plain (.get id k)
  | getAsync {id : I} {k : Reply V → Body I V R} (h : ∀ v, Plain (k (.value v))) : Plain (.getAsync id k)
  | suspend {rest : Body I V R} (h : Plain rest) : Plain (.suspend rest)

/-- What a body returns over these sources, with the computeds that it awaits evaluated likewise. -/
inductive Evaluates (P : Program I V) (value : I → V) : Body I V V → V → Prop
  | ret (v : V) : Evaluates P value (.ret v) v
  | get {id : I} {k : Reply V → Body I V V} {v : V} (h : Evaluates P value (k (.value (value id))) v) :
      Evaluates P value (.get id k) v
  | getAsync {id : I} {k : Reply V → Body I V V} {w v : V} (hw : Evaluates P value (P.compute id) w)
      (h : Evaluates P value (k (.value w)) v) : Evaluates P value (.getAsync id k) v
  | suspend {rest : Body I V V} {v : V} (h : Evaluates P value rest v) : Evaluates P value (.suspend rest) v

theorem Evaluates.unique {P : Program I V} {value : I → V} {body : Body I V V} {v v' : V}
    (h : Evaluates P value body v) (h' : Evaluates P value body v') : v = v' := by
  induction h generalizing v' with
  | ret v =>
    cases h'
    rfl
  | get _ ih =>
    cases h' with
    | get h' => exact ih h'
  | getAsync _ _ ihw ih =>
    cases h' with
    | getAsync hw' h' =>
      obtain rfl := ihw hw'
      exact ih h'
  | suspend _ ih =>
    cases h' with
    | suspend h' => exact ih h'

inductive Comes : Body I V V → List (Handle I × V) → Body I V V → Prop
  | refl (b : Body I V V) : Comes b [] b
  | get {id : I} {k : Reply V → Body I V V} {v : V} {log : List (Handle I × V)} {b : Body I V V}
      (h : Comes (k (.value v)) log b) : Comes (.get id k) ((.source id, v) :: log) b
  | getAsync {id : I} {k : Reply V → Body I V V} {v : V} {log : List (Handle I × V)} {b : Body I V V}
      (h : Comes (k (.value v)) log b) : Comes (.getAsync id k) ((.computed id, v) :: log) b
  | suspend {rest b : Body I V V} {log : List (Handle I × V)} (h : Comes rest log b) : Comes (.suspend rest) log b

variable {a b c : Body I V V} {log log' : List (Handle I × V)}

theorem Comes.trans (h : Comes a log b) (h' : Comes b log' c) : Comes a (log ++ log') c := by
  induction h with
  | refl b => exact h'
  | get _ ih => exact .get (ih h')
  | getAsync _ ih => exact .getAsync (ih h')
  | suspend _ ih => exact .suspend (ih h')

theorem Comes.plain (h : Comes a log b) (ha : a.Plain) : b.Plain := by
  induction h with
  | refl b => exact ha
  | get _ ih =>
    cases ha with
    | get ha => exact ih (ha _)
  | getAsync _ ih =>
    cases ha with
    | getAsync ha => exact ih (ha _)
  | suspend _ ih =>
    cases ha with
    | suspend ha => exact ih ha

def Phase.rest : Phase I V R → Body I V R
  | .suspended rest => rest
  | .waiting id _ k => .getAsync id k

def Stop.rest : Stop I V R → Body I V R
  | .returned r => .ret r
  | .raised => .raise
  | .stopped phase => phase.rest

def Program.Exact (P : Program I V) : Prop :=
  ∀ id eq, P.eq id = some eq → ∀ a b, eq a b = true → a = b

theorem Program.guarded_eq_some {P : Program I V} {id : I} {prior : Option V} {v old : V}
    (h : P.guarded id prior v = some old) : ∃ eq, P.eq id = some eq ∧ eq old v = true := by
  cases heq : P.eq id with
  | none => simp [guarded, heq] at h
  | some eq =>
    cases prior with
    | none => simp [guarded, heq] at h
    | some old' =>
      obtain ⟨hequal, rfl⟩ : eq old' v = true ∧ old' = old := by simpa [guarded, heq] using h
      exact ⟨eq, rfl, hequal⟩

namespace AsyncContext

variable {s s' s₁ : AsyncContext I V} {n m id : I} {fut : ℕ} {P : Program I V} {rank : I → ℕ}
  {Q Q' : List (Handle I)} {e : Handle I × V}

/-! ### What has been read -/

def Holds (s : AsyncContext I V) : Handle I × V → Prop
  | (.source id, v) => s.value id = v
  | (.computed id, v) => (s.slot id).slot.state = .resolved ∧ (s.slot id).slot.value = some v
  | (.effect _, _) => False

/-- What a computed has read has an edge to it, and holds or is queued. The ranks of computeds grow with
what they read. -/
def Backed (rank : I → ℕ) (Q : List (Handle I)) (s : AsyncContext I V) (n : I) (log : List (Handle I × V)) : Prop :=
  ∀ e ∈ log, (e.1, .computed n) ∈ s.dependents ∧ (e.1 ∈ Q ∨ s.Holds e) ∧
    (∀ id, e.1 ≠ .effect id) ∧ ∀ id, e.1 = .computed id → rank id < rank n

/-- The body of a computed has come this far, on what still holds. -/
def Based (P : Program I V) (rank : I → ℕ) (Q : List (Handle I)) (s : AsyncContext I V) (n : I)
    (b : Body I V V) : Prop :=
  ∃ log, Comes (P.compute n) log b ∧ Backed rank Q s n log

def Tracked (s : AsyncContext I V) (n : I) : Phase I V V → Prop
  | .suspended _ => True
  | .waiting id _ _ => (.computed id, .computed n) ∈ s.dependents

def Standing (P : Program I V) (rank : I → ℕ) (Q : List (Handle I)) (s : AsyncContext I V) (n : I) (fut : ℕ) : Prop :=
  ∃ prior phase, s.runs n fut = some ⟨prior, phase⟩ ∧ Based P rank Q s n phase.rest ∧ s.Tracked n phase

structure Fresh (P : Program I V) (rank : I → ℕ) (Q : List (Handle I)) (s : AsyncContext I V) (n : I) : Prop where
  valid : (s.slot n).Valid
  ordered : (s.slot n).Ordered
  calm : (s.slot n).Calm
  current : ∀ fut, (s.slot n).Current fut → Standing P rank Q s n fut
  resolved : (s.slot n).slot.state = .resolved → ∃ v, (s.slot n).slot.value = some v ∧ Based P rank Q s n (.ret v)
  queued : .computed n ∈ Q → (s.slot n).slot.future = none

structure Sound (P : Program I V) (rank : I → ℕ) (Q : List (Handle I)) (s : AsyncContext I V) : Prop where
  linked : s.Linked
  sources : ∀ id, s.disposed (.source id) = false
  computeds : ∀ id, s.disposed (.computed id) = false
  fresh : ∀ n, Fresh P rank Q s n

theorem sound_init (P : Program I V) (value : I → V) :
    Sound P (fun _ => 0) [] ({ value := value } : AsyncContext I V) where
  linked _ _ := iff_of_false not_mem_nil not_mem_nil
  sources _ := rfl
  computeds _ := rfl
  fresh _ := {
    valid := Runtime.valid_init
    ordered := Runtime.ordered_init
    calm := Runtime.calm_init
    current := fun _ h => nomatch h.1
    resolved := nofun
    queued := nofun }

theorem Backed.mono (h : Backed rank Q s n log)
    (hedge : ∀ d, (d, .computed n) ∈ s.dependents → (d, .computed n) ∈ s'.dependents)
    (hholds : ∀ e, (e.1, .computed n) ∈ s.dependents → e.1 ∈ Q ∨ s.Holds e → e.1 ∈ Q' ∨ s'.Holds e) :
    Backed rank Q' s' n log := by
  intro e he
  obtain ⟨hmem, hheld, hrest⟩ := h e he
  exact ⟨hedge e.1 hmem, hholds e hmem hheld, hrest⟩

theorem Tracked.mono {phase : Phase I V V} (h : s.Tracked n phase)
    (hedge : ∀ d, (d, .computed n) ∈ s.dependents → (d, .computed n) ∈ s'.dependents) :
    s'.Tracked n phase := by
  cases phase with
  | suspended rest => trivial
  | waiting id future k => exact hedge _ h

/-- A computed stays fresh if nothing that it stands on goes away. -/
theorem Fresh.mono (h : Fresh P rank Q s n) (hslot : s'.slot n = s.slot n) (hruns : s'.runs n = s.runs n)
    (hedge : ∀ d, (d, .computed n) ∈ s.dependents → (d, .computed n) ∈ s'.dependents)
    (hholds : ∀ e, (e.1, .computed n) ∈ s.dependents → e.1 ∈ Q ∨ s.Holds e → e.1 ∈ Q' ∨ s'.Holds e)
    (hqueued : .computed n ∈ Q' → (s.slot n).slot.future = none) : Fresh P rank Q' s' n where
  valid := hslot ▸ h.valid
  ordered := hslot ▸ h.ordered
  calm := hslot ▸ h.calm
  current fut hfut := by
    rw [hslot] at hfut
    obtain ⟨prior, phase, hrun, ⟨log, hcomes, hbacked⟩, htracked⟩ := h.current fut hfut
    exact ⟨prior, phase, hruns ▸ hrun, ⟨log, hcomes, hbacked.mono hedge hholds⟩, htracked.mono hedge⟩
  resolved hresolved := by
    rw [hslot] at hresolved ⊢
    obtain ⟨v, hv, log, hcomes, hbacked⟩ := h.resolved hresolved
    exact ⟨v, hv, log, hcomes, hbacked.mono hedge hholds⟩
  queued hmem := by
    rw [hslot]
    exact hqueued hmem

structure FreshBut (P : Program I V) (rank : I → ℕ) (Q : List (Handle I)) (s : AsyncContext I V) (n : I)
    (fut : ℕ) : Prop where
  valid : (s.slot n).Valid
  ordered : (s.slot n).Ordered
  calm : (s.slot n).Calm
  current : ∀ fut' ≠ fut, (s.slot n).Current fut' → Standing P rank Q s n fut'
  resolved : (s.slot n).slot.state = .resolved → ∃ v, (s.slot n).slot.value = some v ∧ Based P rank Q s n (.ret v)
  queued : .computed n ∈ Q → (s.slot n).slot.future = none

theorem Fresh.but (h : Fresh P rank Q s n) (fut : ℕ) : FreshBut P rank Q s n fut :=
  ⟨h.valid, h.ordered, h.calm, fun fut' _ => h.current fut', h.resolved, h.queued⟩

theorem Based.mono {b : Body I V V} (h : Based P rank Q s n b) (hdependents : s'.dependents = s.dependents)
    (hholds : ∀ e, s.Holds e → s'.Holds e) : Based P rank Q s' n b := by
  obtain ⟨log, hcomes, hbacked⟩ := h
  refine ⟨log, hcomes, hbacked.mono (fun d hd => ?_) fun e _ hor => hor.imp_right (hholds e)⟩
  rwa [hdependents]

/-- What has been read holds as long as no slot that is resolved changes. -/
theorem Holds.of_slot (h : s.Holds e) (hvalue : s'.value = s.value)
    (hslot : ∀ m, (s.slot m).slot.state = .resolved → (s'.slot m).slot = (s.slot m).slot) :
    s'.Holds e := by
  obtain ⟨d, v⟩ := e
  cases d with
  | source id =>
    show s'.value id = v
    rw [hvalue]
    exact h
  | computed id =>
    show (s'.slot id).slot.state = .resolved ∧ (s'.slot id).slot.value = some v
    rw [hslot id h.1]
    exact h
  | effect id => exact h

theorem current_computing (hv : (s.slot n).Valid) (hfut : (s.slot n).Current fut) :
    (s.slot n).slot.state = .computing := by
  obtain ⟨hfuture, d, hd, rfl, -⟩ := hfut
  exact (hv.current d hd hfuture).1

/-- The run of a future is done, and it is not the current one. -/
theorem fresh_stale (h : FreshBut P rank Q s n fut) (hstale : ¬ (s.slot n).Current fut)
    (hslot : s'.slot n = s.slot n ∨ (∃ d ∈ (s.slot n).drives, d.future = fut ∧ d.rev ≠ none) ∧
      s'.slot n = ((s.slot n).resolve fut (.result none)).finish fut)
    (hruns : ∀ fut' ≠ fut, s'.runs n fut' = s.runs n fut')
    (hdependents : s'.dependents = s.dependents) (hholds : ∀ e, s.Holds e → s'.Holds e) :
    Fresh P rank Q s' n := by
  have hstanding (fut' : ℕ) (hfut : (s.slot n).Current fut') : Standing P rank Q s' n fut' := by
    have hne : fut' ≠ fut := by
      rintro rfl
      exact hstale hfut
    obtain ⟨prior, phase, hrun, hbased, htracked⟩ := h.current fut' hne hfut
    refine ⟨prior, phase, (hruns fut' hne).trans hrun, hbased.mono hdependents hholds, htracked.mono fun d hd => ?_⟩
    rwa [hdependents]
  obtain heq | ⟨⟨d, hd, rfl, hrev⟩, heq⟩ := hslot
  · refine ⟨heq ▸ h.valid, heq ▸ h.ordered, heq ▸ h.calm, fun fut' hfut => ?_, fun hresolved => ?_, fun hmem => ?_⟩
    · exact hstanding fut' (heq ▸ hfut)
    · rw [heq] at hresolved ⊢
      obtain ⟨v, hv, hbased⟩ := h.resolved hresolved
      exact ⟨v, hv, hbased.mono hdependents hholds⟩
    · rw [heq]
      exact h.queued hmem
  · have hinner : (s'.slot n).slot = (s.slot n).slot := by
      rw [heq]
      exact Runtime.slot_resolve d.future (.result none)
    refine ⟨?_, ?_, ?_, fun fut' hfut => hstanding fut' ?_, fun hresolved => ?_, fun hmem => ?_⟩
    · rw [heq]
      exact (h.valid.resolve _ _).finish _
    · rw [heq, Runtime.finish_resolve]
      exact (h.ordered.finish h.valid hd hrev rfl h.ordered.empty h.ordered.resolved).resolve _ _
    · rw [heq]
      have hcalm := h.calm.resolve d.future none
      exact ⟨hcalm.state, hcalm.futures⟩
    · obtain ⟨hfuture, c, hc, hcfut, hcrev⟩ := hfut
      rw [hinner] at hfuture
      rw [heq] at hc
      have hc := mem_of_mem_filter hc
      rw [Runtime.drives_resolve] at hc
      exact ⟨hfuture, c, hc, hcfut, hcrev⟩
    · rw [hinner] at hresolved ⊢
      obtain ⟨v, hv, hbased⟩ := h.resolved hresolved
      exact ⟨v, hv, hbased.mono hdependents hholds⟩
    · rw [hinner]
      exact h.queued hmem

/-- A slot without a future stands on nothing. -/
theorem Fresh.cleared (h : Fresh P rank Q s n) {x : AsyncSlot V Unit}
    (hslot : s'.slot n = { s.slot n with slot := x }) (hvalid : Runtime.Valid { s.slot n with slot := x })
    (hfuture : x.future = none) (hresolved : x.state ≠ .resolved) (herror : x.state ≠ .error) :
    Fresh P rank Q' s' n where
  valid := hslot ▸ hvalid
  ordered := hslot ▸ h.ordered.clear hfuture hresolved
  calm := hslot ▸ ⟨herror, h.calm.futures⟩
  current fut hfut := by
    rw [hslot] at hfut
    exact nomatch hfuture.symm.trans hfut.1
  resolved h := by
    rw [hslot] at h
    exact absurd h hresolved
  queued _ := by rw [hslot, hfuture]

/-! ### Steps that concern one computed -/

/-- A step that concerns one computed only, which is not resolved or keeps its slot. -/
structure Locally (n : I) (s s' : AsyncContext I V) : Prop where
  value : s'.value = s.value
  sources : ∀ id, s'.disposed (.source id) = s.disposed (.source id)
  computeds : ∀ id, s'.disposed (.computed id) = s.disposed (.computed id)
  linked : s.Linked → s'.Linked
  slot : ∀ m ≠ n, s'.slot m = s.slot m
  runs : ∀ m ≠ n, s'.runs m = s.runs m
  edges : ∀ m ≠ n, ∀ d, (d, .computed m) ∈ s.dependents → (d, .computed m) ∈ s'.dependents
  held : (s.slot n).slot.state = .resolved → (s'.slot n).slot = (s.slot n).slot
  depth : s'.depth = s.depth
  batchQueue : s'.batchQueue = s.batchQueue

theorem Locally.trans (h : Locally n s s₁) (h' : Locally n s₁ s') : Locally n s s' where
  value := h'.value.trans h.value
  sources id := (h'.sources id).trans (h.sources id)
  computeds id := (h'.computeds id).trans (h.computeds id)
  linked hs := h'.linked (h.linked hs)
  slot m hm := (h'.slot m hm).trans (h.slot m hm)
  runs m hm := (h'.runs m hm).trans (h.runs m hm)
  edges m hm d hd := h'.edges m hm d (h.edges m hm d hd)
  held hresolved := by
    have heq := h.held hresolved
    rw [← heq]
    exact h'.held (by rw [heq]; exact hresolved)
  depth := h'.depth.trans h.depth
  batchQueue := h'.batchQueue.trans h.batchQueue

theorem Locally.holds (h : Locally n s s') (he : s.Holds e) : s'.Holds e := by
  refine he.of_slot h.value fun m hm => ?_
  by_cases hmn : m = n
  · rw [hmn] at hm ⊢
    exact h.held hm
  · rw [h.slot m hmn]

theorem Sound.locally (h : Sound P rank Q s) (hstep : Locally n s s') (hn : Fresh P rank Q s' n) :
    Sound P rank Q s' where
  linked := hstep.linked h.linked
  sources id := (hstep.sources id).trans (h.sources id)
  computeds id := (hstep.computeds id).trans (h.computeds id)
  fresh m := by
    by_cases hm : m = n
    · rw [hm]
      exact hn
    · refine (h.fresh m).mono (hstep.slot m hm) (hstep.runs m hm) (hstep.edges m hm) ?_ (h.fresh m).queued
      exact fun e _ hor => hor.imp_right hstep.holds

theorem locally_advances (hstep : Advances (.computed n) s s') : Locally n s s' := by
  refine ⟨hstep.value, fun id => ?_, fun id => ?_, hstep.linked, fun m _ => ?_, fun m _ => ?_,
    fun m _ d hd => hstep.subset hd, fun _ => ?_, ?_, ?_⟩
  all_goals rw [hstep.rest]

structure Quiet (s s' : AsyncContext I V) : Prop where
  value : s'.value = s.value
  sources : ∀ id, s'.disposed (.source id) = s.disposed (.source id)
  computeds : ∀ id, s'.disposed (.computed id) = s.disposed (.computed id)
  linked : s.Linked → s'.Linked
  slot : s'.slot = s.slot
  runs : s'.runs = s.runs
  edges : ∀ m d, (d, .computed m) ∈ s.dependents → (d, .computed m) ∈ s'.dependents
  depth : s'.depth = s.depth
  batchQueue : s'.batchQueue = s.batchQueue

theorem Quiet.refl (s : AsyncContext I V) : Quiet s s :=
  ⟨rfl, fun _ => rfl, fun _ => rfl, fun hs => hs, rfl, rfl, fun _ _ h => h, rfl, rfl⟩

theorem Quiet.trans (h : Quiet s s₁) (h' : Quiet s₁ s') : Quiet s s' where
  value := h'.value.trans h.value
  sources id := (h'.sources id).trans (h.sources id)
  computeds id := (h'.computeds id).trans (h.computeds id)
  linked hs := h'.linked (h.linked hs)
  slot := h'.slot.trans h.slot
  runs := h'.runs.trans h.runs
  edges m d hd := h'.edges m d (h.edges m d hd)
  depth := h'.depth.trans h.depth
  batchQueue := h'.batchQueue.trans h.batchQueue

theorem quiet_advances (hstep : Advances (.effect id) s s') : Quiet s s' := by
  refine ⟨hstep.value, fun id => ?_, fun id => ?_, hstep.linked, hstep.slot, hstep.runs,
    fun m d hd => hstep.subset hd, ?_, ?_⟩
  · rw [hstep.disposed]
  · rw [hstep.disposed]
  · rw [hstep.rest]
  · rw [hstep.rest]

theorem quiet_setDisposer (k : ℕ) (disposer : I × Disposing) (s : AsyncContext I V) :
    Quiet s (s.setDisposer k disposer) :=
  ⟨rfl, fun _ => rfl, fun _ => rfl, fun h => h, rfl, rfl, fun _ _ h => h, rfl, rfl⟩

theorem Sound.quiet (h : Sound P rank Q s) (hstep : Quiet s s') : Sound P rank Q s' where
  linked := hstep.linked h.linked
  sources id := (hstep.sources id).trans (h.sources id)
  computeds id := (hstep.computeds id).trans (h.computeds id)
  fresh m := by
    refine (h.fresh m).mono (congrFun hstep.slot m) (congrFun hstep.runs m) (hstep.edges m) ?_ (h.fresh m).queued
    exact fun e _ hor => hor.imp_right fun he => he.of_slot hstep.value fun m _ => by rw [hstep.slot]

/-- The queue may be taken in any order, and its entries any number of times. -/
theorem Sound.congr_queue (h : Sound P rank Q s) (hQ : ∀ h, h ∈ Q ↔ h ∈ Q') : Sound P rank Q' s where
  linked := h.linked
  sources := h.sources
  computeds := h.computeds
  fresh m := by
    refine (h.fresh m).mono rfl rfl (fun _ hd => hd) (fun e _ hor => ?_) fun hmem => ?_
    · exact hor.imp_left (hQ e.1).mp
    · exact (h.fresh m).queued ((hQ _).mpr hmem)

theorem Sound.setQueue (h : Sound P rank Q s) (d : ℕ) (q : List (Handle I)) :
    Sound P rank Q { s with depth := d, batchQueue := q } where
  linked := h.linked
  sources := h.sources
  computeds := h.computeds
  fresh m := (h.fresh m).mono rfl rfl (fun _ hd => hd) (fun _ _ hor => hor) (h.fresh m).queued

/-- The rank of a computed that is not resolved may be raised, as nothing stands on it. -/
theorem Sound.raise [DecidableEq I] (h : Sound P rank [] s) (hn : (s.slot n).slot.state ≠ .resolved)
    {r : ℕ} (hr : rank n ≤ r) : Sound P (update rank n r) [] s where
  linked := h.linked
  sources := h.sources
  computeds := h.computeds
  fresh m := by
    have hbacked {log : List (Handle I × V)} (hb : Backed rank [] s m log) :
        Backed (update rank n r) [] s m log := by
      intro e he
      obtain ⟨hmem, hheld, hkind, hrank⟩ := hb e he
      refine ⟨hmem, hheld, hkind, fun id hid => ?_⟩
      have hne : id ≠ n := by
        rintro rfl
        obtain ⟨d, v⟩ := e
        obtain rfl : d = .computed id := hid
        exact hn (hheld.resolve_left not_mem_nil).1
      have hlt := hrank id hid
      rw [update_of_ne hne]
      by_cases hm : m = n
      · rw [hm, update_self]
        rw [hm] at hlt
        omega
      · rwa [update_of_ne hm]
    have hfresh := h.fresh m
    refine ⟨hfresh.valid, hfresh.ordered, hfresh.calm, fun fut hfut => ?_, fun hresolved => ?_, hfresh.queued⟩
    · obtain ⟨prior, phase, hrun, ⟨log, hcomes, hb⟩, htracked⟩ := hfresh.current fut hfut
      exact ⟨prior, phase, hrun, ⟨log, hcomes, hbacked hb⟩, htracked⟩
    · obtain ⟨v, hv, log, hcomes, hb⟩ := hfresh.resolved hresolved
      exact ⟨v, hv, log, hcomes, hbacked hb⟩

structure Good (P : Program I V) (s : AsyncContext I V) : Prop where
  sound : ∃ rank, Sound P rank s.batchQueue s
  idle : s.depth = 0 → s.batchQueue = []
  queue : ∀ h ∈ s.batchQueue, ∀ id, h ≠ .effect id

theorem Good.quiet (hs : Good P s) (hstep : Quiet s s') : Good P s' := by
  obtain ⟨rank, hsound⟩ := hs.sound
  refine ⟨⟨rank, ?_⟩, fun hdepth => ?_, ?_⟩
  · rw [hstep.batchQueue]
    exact hsound.quiet hstep
  · rw [hstep.batchQueue]
    exact hs.idle (hstep.depth.symm.trans hdepth)
  · rw [hstep.batchQueue]
    exact hs.queue

/-! ### What a computed that is resolved evaluates to -/

/-- What a computed that is resolved has is the value of its body from scratch. -/
theorem Sound.evaluates (h : Sound P rank [] s) (hresolved : (s.slot n).slot.state = .resolved) :
    ∃ v, (s.slot n).slot.value = some v ∧ Evaluates P s.value (P.compute n) v := by
  induction hrank : rank n using Nat.strong_induction_on generalizing n with
  | h r ih =>
    obtain ⟨v, hv, log, hcomes, hbacked⟩ := (h.fresh n).resolved hresolved
    refine ⟨v, hv, ?_⟩
    generalize P.compute n = body at hcomes
    generalize hret : Body.ret v = rest at hcomes
    induction hcomes with
    | refl b =>
      rw [← hret]
      exact .ret v
    | @get id k w log b _ ihc =>
      obtain ⟨-, hheld, -⟩ := hbacked _ mem_cons_self
      obtain rfl : s.value id = w := hheld.resolve_left not_mem_nil
      exact .get (ihc (fun e he => hbacked e (mem_cons_of_mem _ he)) hret)
    | @getAsync id k w log b _ ihc =>
      obtain ⟨-, hheld, -, hlt⟩ := hbacked _ mem_cons_self
      obtain ⟨hstate, hw⟩ := hheld.resolve_left not_mem_nil
      obtain ⟨w', hw', hevaluates⟩ := ih (rank id) (hrank ▸ hlt id rfl) hstate rfl
      obtain rfl := Option.some.inj (hw.symm.trans hw')
      exact .getAsync hevaluates (ihc (fun e he => hbacked e (mem_cons_of_mem _ he)) hret)
    | suspend _ ihc => exact .suspend (ihc hbacked hret)

/-! ### Bodies -/

variable [DecidableEq I]

/-- How far a plain body comes up to what it awaits, and what it reads on the way. -/
theorem comes_advance {body : Body I V V} (hplain : body.Plain) (hlinked : s.Linked)
    (hsources : ∀ id, s.disposed (.source id) = false)
    (hcomputeds : ∀ id, s.disposed (.computed id) = false) :
    ∃ log, Comes body log (advance (.computed n) body s).1.rest ∧ (∀ e ∈ log, ∃ id, e = (.source id, s.value id) ∧
        (.source id, .computed n) ∈ (advance (.computed n) body s).2.dependents) ∧
      ∀ phase, (advance (.computed n) body s).1 = .stopped phase →
        (advance (.computed n) body s).2.Tracked n phase := by
  induction hplain generalizing s with
  | ret v => exact ⟨[], .refl _, nofun, nofun⟩
  | @get id k _ ih =>
    rw [advance, readSource, if_neg (by rw [hsources id]; exact Bool.false_ne_true)]
    have hstep := advances_track (.computed n) (.source id) s
    obtain ⟨log, hcomes, hlog, htracked⟩ := ih (s.value id) (hlinked.track (.computed n) (.source id))
      (by rw [hstep.disposed]; exact hsources) (by rw [hstep.disposed]; exact hcomputeds)
    refine ⟨(.source id, s.value id) :: log, .get hcomes, ?_, htracked⟩
    rw [forall_mem_cons]
    constructor
    · refine ⟨id, rfl, ?_⟩
      exact (advances (.computed n) (k (.value (s.value id))) _).subset
        (mem_dependents_track hlinked (.computed n) (.source id))
    · rw [hstep.value] at hlog
      exact hlog
  | @getAsync id k _ ih =>
    rw [advance, if_neg (by rw [hcomputeds id]; exact Bool.false_ne_true)]
    refine ⟨[], .refl _, nofun, ?_⟩
    rintro phase ⟨⟩
    exact mem_dependents_track hlinked (.computed n) (.computed id)
  | suspend _ ih =>
    refine ⟨[], .suspend (.refl _), nofun, ?_⟩
    rintro phase ⟨⟩
    trivial

end AsyncContext

end LazilyPy.Async.Context

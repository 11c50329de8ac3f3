import LazilyPy.Reactive.Flush

/-!
# Exceptions that leave nothing undone

An exception unwinds the call stack. A drain that it leaves keeps what is on its work-stack, and an effect whose
puller, cleanup or turn in a flush it takes is not rerun. As long as no exception takes any of this along, the
invariant of the machine comes through, and once the client has the exception every cached value is the
from-scratch value.
-/

namespace LazilyPy.Reactive

open List Option

variable {V : Type}

def Frame.Reads : Frame V → Prop
  | .inSlot _ _ _ | .inCode _ _ _ | .pull _ _ => True
  | _ => False

/-- The invariant while an exception propagates: reads are given up at the top of the stack, and nothing below
them waits for a value. -/
structure Thrown (G : Graph V) (S : Instr → Prop) (h : Heap V) (st : List (Frame V)) : Prop where
  heap : HeapInv G (Config.Queued ⟨h, .returned none, st⟩) (Config.Pulling ⟨h, .returned none, st⟩) h
  reading : ∃ reads rest, st = reads ++ rest ∧ (∀ f ∈ reads, f.Reads) ∧ Settled S h rest
  orderly : Orderly S h st

inductive Stands (G : Graph V) (S : Instr → Prop) (c : Config V) : Prop
  | runs (hi : Inv G S c) : Stands G S c
  | thrown (hctl : c.ctl = .raised) (ht : Thrown G S c.heap c.stack) : Stands G S c

/-- What an exception must not take along: entries of the work-stack, the pull of an eager computed, an effect
whose cleanup is running, and effects that wait for their turn in a flush. The other conditions are those of
`Calm`. -/
structure Lossless (c : Config V) : Prop where
  wellFounded : ∀ d, c.ctl = .get d → ¬ Evaluating d.object c.stack
  lazySafe : ∀ r i code k, c.ctl = .exec r (.lazy i code) → c.heap.eager i = true →
    c.heap.puller i = some k → ∀ m w, (.computed i, w) ∈ c.heap.reads m → c.Queued m ∨
      m ∈ c.heap.parents (.memo i) ∧ ¬ c.Queued (.puller i k)
  notReentered : ∀ m rest, c.ctl = .loop → c.heap.work = m :: rest → m.isEffect = true →
    c.heap.disposed m = false → c.heap.running m = false
  work : ∀ st, c.ctl = .raised → c.stack = .drain :: st → c.heap.work = []
  pull : ∀ p i st, c.ctl = .raised → c.stack ≠ .pull p i :: st
  cleanup : ∀ e st, c.ctl = .raised → c.stack ≠ .cleanup e :: st
  rerun : ∀ b es st, c.ctl = .raised → c.stack = .rerun b es :: st → es = []

theorem Lossless.calm {c : Config V} (hl : Lossless c) (hquiet : c.ctl ≠ .raised) : Calm c :=
  ⟨hquiet, hl.wellFounded, hl.lazySafe, hl.notReentered⟩

section Throwing

variable {G : Graph V} {S : Instr → Prop} {h : Heap V} {st : List (Frame V)}

variable {cl : Option (Code V)} {ord : Enum} {f : Frame V} {c' c : Config V}

/-- With no read in progress an exception is as good as a return. -/
theorem thrown_of_inv (hi : Inv G S ⟨h, .returned cl, st⟩) : Thrown G S h st :=
  ⟨hi.heap.recontrol nofun rfl rfl, ⟨[], st, rfl, nofun, hi.fits.2⟩, hi.orderly⟩

theorem Thrown.inv (ht : Thrown G S h st) (hst : Settled S h st) : Inv G S ⟨h, .returned none, st⟩ :=
  ⟨ht.heap, ⟨nofun, hst⟩, ht.orderly⟩

/-- A stack that waits for a value has its reads at the top. -/
theorem Waits.reading {d : Ref} (hw : Waits G S h st d) :
    ∃ reads rest, st = reads ++ rest ∧ (∀ f ∈ reads, f.Reads) ∧ Settled S h rest := by
  induction st generalizing d with
  | nil => cases hw
  | cons f st ih =>
    cases f with
    | inSlot m d' k =>
      obtain ⟨-, -, -, -, ⟨d₂, -, hw⟩ | ⟨i, k', st', -, rfl, -, hst⟩⟩ := hw
      · obtain ⟨reads, rest, rfl, hreads, hrest⟩ := ih hw
        exact ⟨_ :: reads, rest, rfl, forall_mem_cons.mpr ⟨trivial, hreads⟩, hrest⟩
      · refine ⟨[_, _], _, rfl, ?_, Settled.cons trivial hst⟩
        exact forall_mem_cons.mpr ⟨trivial, forall_mem_cons.mpr ⟨trivial, nofun⟩⟩
    | inCode r d' k =>
      obtain ⟨-, -, -, -, hst⟩ := hw
      exact ⟨[_], st, rfl, forall_mem_cons.mpr ⟨trivial, nofun⟩, hst⟩
    | _ => cases hw

theorem Awaits.reading {n : Node} (hw : Awaits G S h n st) :
    ∃ reads rest, st = reads ++ rest ∧ (∀ f ∈ reads, f.Reads) ∧ Settled S h rest := by
  obtain ⟨-, ⟨d, -, hw⟩ | ⟨i, k, st', -, rfl, -, hst⟩⟩ := hw
  · exact hw.reading
  · exact ⟨[_], _, rfl, forall_mem_cons.mpr ⟨trivial, nofun⟩, Settled.cons trivial hst⟩

theorem thrown_exec {r : Option Node} (hi : Inv G S ⟨h, .exec r .raise, st⟩) : Thrown G S h st :=
  ⟨hi.heap.recontrol nofun rfl rfl, ⟨[], st, rfl, nofun, hi.fits.2.2⟩, hi.orderly⟩

theorem thrown_eval {n : Node} (hi : Inv G S ⟨h, .eval n .raise, st⟩) : Thrown G S h st :=
  ⟨hi.heap.recontrol nofun rfl rfl, hi.fits.2.reading, hi.orderly⟩

/-- The exception that a batch has held back goes on. -/
theorem thrown_endBatch (hi : Inv G S ⟨h, .returned none, st⟩) (hdepth : h.depth ≠ 1) :
    Thrown G S (endBatch ord h st true).heap st := by
  have hend : endBatch ord h st true = ⟨{ h with depth := h.depth - 1 }, .raised, st⟩ := if_neg hdepth
  rw [hend]
  exact thrown_of_inv ⟨{ hi.heap with }, ⟨nofun, hi.fits.2.mono fun _ => id⟩,
    hi.orderly.called, hi.orderly.within, hi.orderly.pending, hi.orderly.busy, hi.orderly.active⟩

/-- The exception leaves a frame. -/
theorem thrown_pop (ht : Thrown G S h (f :: st)) (hf : ∀ m, ¬ f.Owes m) (hpull : ∀ p i, f ≠ .pull p i)
    (hdrain : f ≠ .drain) : Thrown G S h st := by
  refine ⟨ht.heap.pop hf hpull, ?_, ht.orderly.pop hdrain⟩
  obtain ⟨reads, rest, heq, hreads, hrest⟩ := ht.reading
  cases reads with
  | nil =>
    obtain rfl : f :: st = rest := heq
    exact ⟨[], st, rfl, nofun, hrest.tail⟩
  | cons f' reads =>
    obtain ⟨rfl, rfl⟩ := cons.inj heq
    exact ⟨reads, rest, rfl, fun f hf => hreads f (mem_cons_of_mem _ hf), hrest⟩

theorem Thrown.settled (ht : Thrown G S h (f :: st)) (hf : ¬ f.Reads) : Settled S h (f :: st) := by
  obtain ⟨reads, rest, heq, hreads, hrest⟩ := ht.reading
  cases reads with
  | nil =>
    obtain rfl : f :: st = rest := heq
    exact hrest
  | cons f' reads =>
    obtain ⟨rfl, -⟩ := cons.inj heq
    exact absurd (hreads f mem_cons_self) hf

/-- An exception leaves a drain that has nothing left to do. -/
theorem thrown_drain (ht : Thrown G S h (.drain :: st)) (hwork : h.work = []) :
    Thrown G S { h with active := false } st := by
  have hst := (ht.settled id).tail
  have hheap := ht.heap.pop nofun nofun
  refine ⟨{ hheap with }, ⟨[], st, rfl, nofun, hst.mono fun _ => id⟩,
    ht.orderly.called, ht.orderly.within, ht.orderly.pending, fun hne => absurd hwork hne, nofun⟩

/-- An exception reaches the frame below it. -/
theorem stands_raised (hG : S .call → ∀ i r, (G.effectBody i r).Within S) (hord : ord.Lawful) (ht : Thrown G S h st)
    (hl : Lossless ⟨h, .raised, st⟩) (hs : stepRaised ord h st = some c') : Stands G S c' := by
  cases st with
  | nil => cases hs
  | cons f st =>
    cases f with
    | inSlot n d k | inCode r d k | andThen r k | flushed b =>
      cases hs
      exact .thrown rfl (thrown_pop ht nofun nofun nofun)
    | pull p i => exact absurd rfl (hl.pull p i st rfl)
    | cleanup e => exact absurd rfl (hl.cleanup e st rfl)
    | rearmed i | rearmSlot i | disposing e => exact (ht.settled id _ mem_cons_self).elim
    | drain =>
      cases hs
      exact .thrown rfl (thrown_drain ht (hl.work st rfl rfl))
    | effect e =>
      cases hs
      have hpop := thrown_pop ht nofun nofun nofun
      obtain ⟨reads, rest, heq, hreads, hrest⟩ := hpop.reading
      exact .thrown rfl ⟨{ hpop.heap with }, ⟨reads, rest, heq, hreads, hrest.mono fun _ => id⟩,
        hpop.orderly.called, hpop.orderly.within, hpop.orderly.pending, hpop.orderly.busy, hpop.orderly.active⟩
    | rerun b es =>
      cases hs
      obtain rfl := hl.rerun b es st rfl rfl
      refine .thrown rfl (thrown_pop ht ?_ nofun nofun)
      intro m hm
      cases hm
    | attempt r k =>
      cases hs
      exact .runs (inv_returned hG hord (ht.inv (ht.settled id)) rfl nofun)
    | batch =>
      cases hs
      have hpop := thrown_pop ht nofun nofun nofun
      have hst := (ht.settled id).tail
      by_cases hdepth : h.depth = 1
      · refine .runs (inv_endBatch hord hpop.heap hst hpop.orderly ?_)
        simp [endBatch, hdepth]
      · have hend : endBatch ord h st true = ⟨{ h with depth := h.depth - 1 }, .raised, st⟩ :=
          if_neg hdepth
        have hthrown : Thrown G S (endBatch ord h st true).heap st := thrown_endBatch (hpop.inv hst) hdepth
        rw [hend] at hthrown ⊢
        exact .thrown rfl hthrown

/-- A frame that owes no more is put in the place of another. -/
theorem Inv.swap {f' : Frame V} (hi : Inv G S ⟨h, .returned cl, f :: st⟩) (howes : ∀ m, f.Owes m → f'.Owes m)
    (hf' : f'.Settled S h) (hdrain : f ≠ .drain) :
    Inv G S ⟨h, .returned cl, f' :: st⟩ := by
  have hst : Settled S h (f :: st) := hi.fits.2
  have hreturned : ∀ e, (.returned cl : Ctl V) ≠ .call e := nofun
  refine ⟨hi.heap.mono (fun m hm => ?_) fun i hp => absurd hp (hst.not_pulling hreturned i),
    ⟨hi.fits.1, Settled.cons hf' hst.tail⟩, (hi.orderly.pop hdrain).push f'⟩
  refine hm.imp_right fun hm => ⟨hm.1, hm.2.imp_right fun hm => hm.imp_right ?_⟩
  rintro ⟨f₁, hf₁, ho⟩
  obtain rfl | hf₁ := mem_cons.mp hf₁
  · exact ⟨f', mem_cons_self, howes m ho⟩
  · exact ⟨f₁, mem_cons_of_mem _ hf₁, ho⟩

/-- A flush goes on raising once its last effect is through. -/
theorem nextRerun_raised {b : Bool} {es : List Node} (hr : (nextRerun h st b es).ctl = .raised) :
    b = true ∧ es = [] := by
  cases es with
  | nil =>
    cases b with
    | true => exact ⟨rfl, rfl⟩
    | false => cases hr
  | cons e rest =>
    simp only [nextRerun] at hr
    split at hr
    · cases hr
    · split at hr <;> cases hr

theorem thrown_returned (hG : S .call → ∀ i r, (G.effectBody i r).Within S) (hord : ord.Lawful)
    (hi : Inv G S ⟨h, .returned cl, st⟩) (hs : stepReturned G ord h cl st = some c') (hr : c'.ctl = .raised) :
    Thrown G S c'.heap c'.stack := by
  have hst : Settled S h st := hi.fits.2
  cases st with
  | nil => cases hs
  | cons f st =>
    cases f with
    | flushed b =>
      cases hs
      obtain ⟨rfl, hnil⟩ := nextRerun_raised hr
      rw [hnil]
      have hi' : Inv G S ⟨h, .returned cl, .flushed false :: st⟩ := hi.swap (fun _ ho => ho.elim) trivial (by simp)
      have hnext : stepReturned G ord h cl (.flushed false :: st) =
          some ⟨{ h with pendingEffects := [], depth := h.depth - 1 }, .returned none, st⟩ := by
        simp only [stepReturned, hnil, nextRerun, Bool.false_eq_true, if_false]
      exact thrown_of_inv (inv_returned hG hord hi' hnext (by simp))
    | rerun b es =>
      cases hs
      obtain ⟨rfl, rfl⟩ := nextRerun_raised hr
      have hi' : Inv G S ⟨h, .returned cl, .rerun false [] :: st⟩ :=
        hi.swap (fun _ ho => ho) (fun _ he => by cases he) (by simp)
      exact thrown_of_inv (inv_returned hG hord hi' rfl (by simp))
    | batch =>
      cases hs
      simp only [endBatch] at hr
      split at hr <;> cases hr
    | cleanup e =>
      cases hs
      obtain ⟨⟨i, rfl⟩, -⟩ := hst _ mem_cons_self
      cases hr
    | rearmed i | disposing e => exact (hst _ mem_cons_self).elim
    | andThen r c | drain | effect e | attempt r k =>
      cases hs
      cases hr
    | _ => cases hs

variable [DecidableEq V]

section

variable (hS : ¬ S .dispose) (hG : S .call → ∀ i r, (G.effectBody i r).Within S) (hord : ord.Lawful)

include hS hG hord

/-- A step raises, or it keeps the invariant. -/
theorem stands_of_inv (hi : Inv G S c) (hl : Lossless c) (hs : step G ord c = some c') : Stands G S c' := by
  have hquiet : c.ctl ≠ .raised := by
    intro hctl
    have hfits := hi.fits
    rw [hctl] at hfits
    exact hfits
  have hcalm := hl.calm hquiet
  by_cases hr : c'.ctl = .raised
  · have hnot : ¬ Inv G S c' := by
      intro hi'
      have hfits := hi'.fits
      rw [hr] at hfits
      exact hfits
    obtain ⟨h, t, st⟩ := c
    cases t with
    | exec r code =>
      cases hs
      by_cases hcode : code = .raise
      · subst hcode
        exact .thrown rfl (thrown_exec hi)
      · exact absurd (inv_exec hS hord hi hcalm hcode) hnot
    | eval n t =>
      cases hs
      by_cases ht : t = .raise
      · subst ht
        exact .thrown rfl (thrown_eval hi)
      · exact absurd (inv_eval hi ht) hnot
    | returned cl => exact .thrown hr (thrown_returned hG hord hi hs hr)
    | get d =>
      cases hs
      exact absurd (inv_get hi (hcalm.wellFounded d rfl)) hnot
    | value v => exact absurd (inv_value hord hi hs) hnot
    | call e =>
      cases hs
      exact absurd (inv_call hG hi) hnot
    | loop => exact absurd (inv_loop hord hi hcalm hs) hnot
    | dirty ns => exact hi.fits.elim
    | raised => exact absurd rfl hquiet
  · exact .runs (inv_step hS hG hord hi hcalm hs hr)

theorem stands_step (hc : Stands G S c) (hl : Lossless c) (hs : step G ord c = some c') : Stands G S c' := by
  obtain hi | ⟨hctl, ht⟩ := hc
  · exact stands_of_inv hS hG hord hi hl hs
  · obtain ⟨h, t, st⟩ := c
    cases hctl
    exact stands_raised hG hord ht hl hs

end

omit [DecidableEq V] in
/-- Between two calls, an exception makes no difference. -/
theorem Stands.idle (hc : Stands G S c) (hidle : c.Idle) : Inv G S ⟨c.heap, .returned none, []⟩ := by
  obtain ⟨h, t, st⟩ := c
  obtain ⟨rfl, hctl⟩ := hidle
  obtain hi | ⟨-, ht⟩ := hc
  · obtain rfl | ⟨cl, rfl⟩ := hctl
    · exact hi.fits.elim
    · exact (thrown_of_inv hi).inv nofun
  · exact ht.inv nofun

omit [DecidableEq V] in
theorem Stands.issue (hc : Stands G S c) (hidle : c.Idle) {code : Code V} (hcode : code.Within S) :
    Stands G S (c.issue code) := by
  have hissued := inv_issue (hc.idle hidle) ⟨rfl, .inr ⟨none, rfl⟩⟩ hcode
  have heq : c.issue code = Config.issue ⟨c.heap, .returned none, []⟩ code := by
    simp only [Config.issue, hidle.1]
  exact .runs (heq ▸ hissued)

theorem stands_run (hS : ¬ S .dispose) (hG : S .call → ∀ i r, (G.effectBody i r).Within S) {σ : ℕ → V}
    (hrun : Run G S Lossless (Config.init σ) c) : Stands G S c := by
  induction hrun with
  | refl => exact .runs (inv_init σ)
  | tail _ hstep ih =>
    cases hstep.2 with
    | tick ord hord hs => exact stands_step hS hG hord ih hstep.1 hs
    | issue code hidle hcode => exact ih.issue hidle hcode

end Throwing

/-! ## An effect that raises -/

/-- The definition of `d` names `d'`, directly or through others. -/
def Graph.DependsOn (G : Graph V) : Ref → Ref → Prop :=
  Relation.TransGen fun d d' => (G.callable d.object).Mentions d'

end LazilyPy.Reactive

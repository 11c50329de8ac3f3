import LazilyPy.Replay.Injective

/-!
# Fingerprints

A graph is rebuilt from a log of events and observed at checkpoints. Its fingerprint has the digests of
what is observed.
-/

namespace LazilyPy.Replay

open List

variable {v w : Value} {a b : Code} {nan : Double}

structure ReplayEvent where
  seq : ℤ
  name : String
  payload : Value

structure ReplayGraph (σ : Type) where
  build : σ
  apply : ReplayEvent → σ → σ
  observe : σ → List (String × Value)

structure Sample where
  seq : ℤ
  observed : List (String × Value)

def initialSeq : ℤ := -1

/-- The samples of the events from `index` on, of `total`. -/
def driveFrom {σ : Type} (graph : ReplayGraph σ) (stride total : ℕ) : ℕ → σ → List ReplayEvent → List Sample
  | _, _, [] => []
  | index, state, event :: log =>
    let state := graph.apply event state
    let rest := driveFrom graph stride total (index + 1) state log
    if (index + 1) % stride = 0 ∨ index + 1 = total then ⟨event.seq, graph.observe state⟩ :: rest
    else rest

def drive {σ : Type} (graph : ReplayGraph σ) (stride : ℕ) (log : List ReplayEvent) : List Sample :=
  ⟨initialSeq, graph.observe graph.build⟩ :: driveFrom graph stride log.length 0 graph.build log

structure ReplayCheckpoint where
  seq : ℤ
  cells : List (String × String)
  deriving DecidableEq

structure ReplayFingerprint where
  logDigest : String
  stride : ℕ
  checkpoints : List ReplayCheckpoint
  deriving DecidableEq

section

variable (digest : Code → String)

def cellDigests : List (String × Value) → Except ReplayEncodingError (List (String × String))
  | [] => .ok []
  | (label, value) :: observed => do
    let code ← canonicalBytes value
    let rest ← cellDigests observed
    return (label, digest code) :: rest

def cellLe (c d : String × String) : Bool :=
  c.1 < d.1 ∨ c.1 = d.1 ∧ c.2 ≤ d.2

def ReplayCheckpoint.of (sample : Sample) : Except ReplayEncodingError ReplayCheckpoint := do
  let cells ← cellDigests digest sample.observed
  return ⟨sample.seq, cells.mergeSort cellLe⟩

def checkpoints : List Sample → Except ReplayEncodingError (List ReplayCheckpoint)
  | [] => .ok []
  | sample :: samples => do
    let first ← ReplayCheckpoint.of digest sample
    let rest ← checkpoints samples
    return first :: rest

/-- The fingerprint of a replay of a log, whose digest is `logDigest`. -/
def record {σ : Type} (graph : ReplayGraph σ) (stride : ℕ) (logDigest : String)
    (log : List ReplayEvent) : Except ReplayEncodingError ReplayFingerprint := do
  let checkpoints ← checkpoints digest (drive graph stride log)
  return ⟨logDigest, stride, checkpoints⟩

end

variable {digest : Code → String} {observed observed' : List (String × Value)}
  {samples samples' : List Sample} {cells : List (String × String)}

theorem mem_cellDigests (h : cellDigests digest observed = .ok cells) {cell : String × String} : cell ∈ cells ↔
      ∃ label value code, (label, value) ∈ observed ∧ canonicalBytes value = .ok code ∧
        cell = (label, digest code) := by
  induction observed generalizing cells with
  | nil =>
    cases h
    simp
  | cons first observed ih =>
    obtain ⟨label, value⟩ := first
    rw [cellDigests] at h
    obtain ⟨code, hcode, hrest⟩ := except_bind_eq_ok.mp h
    obtain ⟨rest, htail, hcells⟩ := except_bind_eq_ok.mp hrest
    cases hcells
    rw [mem_cons, ih htail]
    constructor
    · rintro (rfl | ⟨label, value, code, hmem, hvalue, rfl⟩)
      · exact ⟨label, value, code, mem_cons_self, hcode, rfl⟩
      · exact ⟨label, value, code, mem_cons_of_mem _ hmem, hvalue, rfl⟩
    · rintro ⟨label', value', code', hmem, hvalue, rfl⟩
      obtain heq | hmem := mem_cons.mp hmem
      · cases heq
        rw [hcode] at hvalue
        cases hvalue
        exact .inl rfl
      · exact .inr ⟨label', value', code', hmem, hvalue, rfl⟩

theorem canonicalBytes_of_cellDigests (h : cellDigests digest observed = .ok cells)
    {cell : String × Value} (hmem : cell ∈ observed) :
    ∃ code, canonicalBytes cell.2 = .ok code := by
  induction observed generalizing cells with
  | nil => cases hmem
  | cons first observed ih =>
    rw [cellDigests] at h
    obtain ⟨code, hcode, hrest⟩ := except_bind_eq_ok.mp h
    obtain ⟨rest, htail, -⟩ := except_bind_eq_ok.mp hrest
    obtain rfl | hmem := mem_cons.mp hmem
    · exact ⟨code, hcode⟩
    · exact ih htail hmem

/-- Whatever is observed in the one is observed in the other, and alike. -/
def Covers (observed observed' : List (String × Value)) : Prop :=
  ∀ label value, (label, value) ∈ observed → ∃ value', (label, value') ∈ observed' ∧ Alike SameName value value'

structure Agree (sample sample' : Sample) : Prop where
  seq : sample.seq = sample'.seq
  covers : Covers sample.observed sample'.observed
  covered : Covers sample'.observed sample.observed

def observedCodes (samples : List Sample) : Set Code :=
  {code | ∃ sample ∈ samples, ∃ cell ∈ sample.observed, canonicalBytes cell.2 = .ok code}

theorem canonical_eq_iff (hv : canonicalBytes v = .ok a) (hw : canonicalBytes w = .ok b)
    (hnv : Nans nan v) (hnw : Nans nan w) : a = b ↔ Alike SameName v w :=
  determines nan v w a b ⟨_, hv⟩ ⟨_, hw⟩ hnv hnw

theorem covers_of_cellDigests {S : Set Code} {cells' : List (String × String)}
    (h : cellDigests digest observed = .ok cells) (h' : cellDigests digest observed' = .ok cells')
    (hsub : ∀ cell ∈ cells, cell ∈ cells') (hfree : Set.InjOn digest S)
    (hS : ∀ cell ∈ observed, ∀ code, canonicalBytes cell.2 = .ok code → code ∈ S)
    (hS' : ∀ cell ∈ observed', ∀ code, canonicalBytes cell.2 = .ok code → code ∈ S)
    (hnan : ∀ cell ∈ observed, Nans nan cell.2) (hnan' : ∀ cell ∈ observed', Nans nan cell.2) :
    Covers observed observed' := by
  intro label value hmem
  obtain ⟨code, hcode⟩ := canonicalBytes_of_cellDigests h hmem
  have hcell := hsub _ ((mem_cellDigests h).mpr ⟨label, value, code, hmem, hcode, rfl⟩)
  obtain ⟨label', value', code', hmem', hcode', heq⟩ := (mem_cellDigests h').mp hcell
  obtain ⟨rfl, hdigest⟩ := Prod.mk.inj heq
  have hcodes := hfree (hS _ hmem code hcode) (hS' _ hmem' code' hcode') hdigest
  exact ⟨value', hmem', (canonical_eq_iff hcode hcode' (hnan _ hmem) (hnan' _ hmem')).mp hcodes⟩

section

variable {S : Set Code} {sample sample' : Sample} {checkpoint : ReplayCheckpoint} {result : List ReplayCheckpoint}

theorem agree_of_checkpoint (h : ReplayCheckpoint.of digest sample = .ok checkpoint)
    (h' : ReplayCheckpoint.of digest sample' = .ok checkpoint) (hfree : Set.InjOn digest S)
    (hS : ∀ cell ∈ sample.observed, ∀ code, canonicalBytes cell.2 = .ok code → code ∈ S)
    (hS' : ∀ cell ∈ sample'.observed, ∀ code, canonicalBytes cell.2 = .ok code → code ∈ S)
    (hnan : ∀ cell ∈ sample.observed, Nans nan cell.2)
    (hnan' : ∀ cell ∈ sample'.observed, Nans nan cell.2) : Agree sample sample' := by
  obtain ⟨cells, hcells, heq⟩ := except_bind_eq_ok.mp h
  obtain ⟨cells', hcells', heq'⟩ := except_bind_eq_ok.mp h'
  obtain rfl := Except.ok.inj heq
  obtain ⟨hseq, hsorted⟩ := ReplayCheckpoint.mk.inj (Except.ok.inj heq')
  have hperm : cells.Perm cells' := (mergeSort_perm cells cellLe).symm.trans (hsorted ▸ mergeSort_perm cells' cellLe)
  refine ⟨hseq.symm, ?_, ?_⟩
  · exact covers_of_cellDigests hcells hcells' (fun _ => hperm.mem_iff.mp) hfree hS hS' hnan hnan'
  · exact covers_of_cellDigests hcells' hcells (fun _ => hperm.mem_iff.mpr) hfree hS' hS hnan' hnan

/-- Equal checkpoints are of samples that agree. -/
theorem agree_of_checkpoints (h : checkpoints digest samples = .ok result)
    (h' : checkpoints digest samples' = .ok result) (hfree : Set.InjOn digest S)
    (hS : observedCodes samples ⊆ S) (hS' : observedCodes samples' ⊆ S)
    (hnan : ∀ sample ∈ samples, ∀ cell ∈ sample.observed, Nans nan cell.2)
    (hnan' : ∀ sample ∈ samples', ∀ cell ∈ sample.observed, Nans nan cell.2) :
    Forall₂ Agree samples samples' := by
  induction samples generalizing samples' result with
  | nil =>
    cases h
    cases samples' with
    | nil => exact .nil
    | cons sample' samples' =>
      obtain ⟨first, -, hrest⟩ := except_bind_eq_ok.mp h'
      obtain ⟨rest, -, heq⟩ := except_bind_eq_ok.mp hrest
      cases heq
  | cons sample samples ih =>
    obtain ⟨first, hfirst, hrest⟩ := except_bind_eq_ok.mp h
    obtain ⟨rest, htail, heq⟩ := except_bind_eq_ok.mp hrest
    cases heq
    cases samples' with
    | nil => cases h'
    | cons sample' samples' =>
      obtain ⟨first', hfirst', hrest'⟩ := except_bind_eq_ok.mp h'
      obtain ⟨rest', htail', heq'⟩ := except_bind_eq_ok.mp hrest'
      cases heq'
      refine .cons ?_ (ih htail htail' ?_ ?_ ?_ ?_)
      · exact agree_of_checkpoint hfirst hfirst' hfree
          (fun cell hcell code hcode => hS ⟨sample, mem_cons_self, cell, hcell, hcode⟩)
          (fun cell hcell code hcode => hS' ⟨sample', mem_cons_self, cell, hcell, hcode⟩)
          (hnan sample mem_cons_self) (hnan' sample' mem_cons_self)
      · rintro code ⟨s, hs, hrest⟩
        exact hS ⟨s, mem_cons_of_mem _ hs, hrest⟩
      · rintro code ⟨s, hs, hrest⟩
        exact hS' ⟨s, mem_cons_of_mem _ hs, hrest⟩
      · exact fun s hs => hnan s (mem_cons_of_mem _ hs)
      · exact fun s hs => hnan' s (mem_cons_of_mem _ hs)

end

/-- The fingerprints of two replays are equal only if they observed the same. -/
theorem agree_of_record {σ σ' : Type} {graph : ReplayGraph σ} {graph' : ReplayGraph σ'}
    {stride stride' : ℕ} {logDigest logDigest' : String} {log log' : List ReplayEvent}
    {fingerprint : ReplayFingerprint}
    (h : record digest graph stride logDigest log = .ok fingerprint)
    (h' : record digest graph' stride' logDigest' log' = .ok fingerprint)
    (hfree : Set.InjOn digest (observedCodes (drive graph stride log) ∪ observedCodes (drive graph' stride' log')))
    (hnan : ∀ sample ∈ drive graph stride log, ∀ cell ∈ sample.observed, Nans nan cell.2)
    (hnan' : ∀ sample ∈ drive graph' stride' log', ∀ cell ∈ sample.observed, Nans nan cell.2) :
    Forall₂ Agree (drive graph stride log) (drive graph' stride' log') := by
  obtain ⟨result, hresult, heq⟩ := except_bind_eq_ok.mp h
  obtain ⟨result', hresult', heq'⟩ := except_bind_eq_ok.mp h'
  obtain rfl := Except.ok.inj heq
  obtain ⟨-, -, rfl⟩ := ReplayFingerprint.mk.inj (Except.ok.inj heq')
  exact agree_of_checkpoints hresult hresult' hfree Set.subset_union_left Set.subset_union_right hnan hnan'

/-- Supported values have one code iff they are alike, and replays have one fingerprint only if they
observed the same. -/
theorem canonicalBytes_eq_iff (nan : Double) (digest : Code → String) :
    (∀ x y : Value, Supported x → Supported y → Nans nan x → Nans nan y →
      ∃ a b, canonicalBytes x = .ok a ∧ canonicalBytes y = .ok b ∧ (a = b ↔ Alike SameName x y)) ∧
    (∀ (σ σ' : Type) (graph : ReplayGraph σ) (graph' : ReplayGraph σ') (stride stride' : ℕ)
      (logDigest logDigest' : String) (log log' : List ReplayEvent)
      (fingerprint : ReplayFingerprint),
      record digest graph stride logDigest log = .ok fingerprint →
      record digest graph' stride' logDigest' log' = .ok fingerprint →
      Set.InjOn digest
        (observedCodes (drive graph stride log) ∪ observedCodes (drive graph' stride' log')) →
      (∀ sample ∈ drive graph stride log, ∀ cell ∈ sample.observed, Nans nan cell.2) →
      (∀ sample ∈ drive graph' stride' log', ∀ cell ∈ sample.observed, Nans nan cell.2) →
      Forall₂ Agree (drive graph stride log) (drive graph' stride' log')) := by
  constructor
  · intro x y hx hy hnx hny
    obtain ⟨a, ha⟩ := canonical_ok hx []
    obtain ⟨b, hb⟩ := canonical_ok hy []
    exact ⟨a, b, ha, hb, canonical_eq_iff ha hb hnx hny⟩
  · intro σ σ' graph graph' stride stride' logDigest logDigest' log log' fingerprint h h' hfree hnan
      hnan'
    exact agree_of_record h h' hfree hnan hnan'

/-- Two members, of classes with one name in different modules, have one code. -/
theorem canonicalBytes_same_name : (∃ code, canonicalBytes (.enum ⟨"billing", "Status"⟩ (.int 1)) = .ok code ∧
      canonicalBytes (.enum ⟨"shipping", "Status"⟩ (.int 1)) = .ok code) ∧
    ¬ Alike Eq (.enum ⟨"billing", "Status"⟩ (.int 1)) (.enum ⟨"shipping", "Status"⟩ (.int 1)) := by
  refine ⟨⟨_, rfl, rfl⟩, ?_⟩
  intro h
  cases h with
  | enum hcls _ => exact absurd hcls (by decide)

end LazilyPy.Replay

import Mathlib.Data.String.Basic
import LazilyPy.Lib.Common
import LazilyPy.Lib.Table
import LazilyPy.Replay.Fingerprint

/-!
# Verification of a replay

A fingerprint is compared with that of a fresh replay, cell by cell and checkpoint by checkpoint. The
events at which the checkpoints were taken are not compared.
-/

namespace LazilyPy.Replay

open List Option Framing

abbrev Cells := Table (Prod.fst : String × String → String)

def ReplayCheckpoint.asDict (checkpoint : ReplayCheckpoint) : Cells :=
  (Table.empty Prod.fst).putAll checkpoint.cells

def ReplayCheckpoint.digest? (checkpoint : ReplayCheckpoint) (label : String) : Option String :=
  (checkpoint.asDict.get? label).map Prod.snd

inductive DivergenceKind
  | missing
  | unexpected
  | value
  deriving DecidableEq

structure ReplayDivergence where
  seq : ℤ
  label : String
  kind : DivergenceKind
  expected : Option String
  actual : Option String
  preview : Option String
  deriving DecidableEq

inductive ReplayProofError
  | encoding (error : ReplayEncodingError)
  | logMismatch (expectedDigest actualDigest : String)
  | strideMismatch (expectedStride actualStride : ℕ)
  | divergence (divergences : List ReplayDivergence)
  | checkpointCount (expected actual : ℕ)

def previewLimit : ℕ := 120

section

variable (repr : Value → String)

def preview (value : Value) : String :=
  let text := repr value
  if text.length > previewLimit then String.ofList (text.toList.take (previewLimit - 1)) ++ "…"
  else text

def divergence (want got : ReplayCheckpoint) (sampled : List (String × Value)) (label : String) :
    Option ReplayDivergence :=
  let wantDigest := want.digest? label
  let gotDigest := got.digest? label
  if wantDigest = gotDigest then none
  else some {
    seq := want.seq
    label := label
    kind := if gotDigest = none then .missing else if wantDigest = none then .unexpected else .value
    expected := wantDigest
    actual := gotDigest
    preview := (sampled.lookup label).map (preview repr) }

def labels (want got : ReplayCheckpoint) : List String :=
  (want.asDict.rows.map Prod.fst ∪ got.asDict.rows.map Prod.fst).mergeSort

def compareCells (want got : ReplayCheckpoint) (sampled : List (String × Value)) : List ReplayDivergence :=
  (labels want got).filterMap (divergence repr want got sampled)

def compareFrom : List ReplayCheckpoint → List ReplayCheckpoint → List Sample → List ReplayDivergence
  | want :: wants, got :: gots, samples =>
    let sampled := (samples.head?.map Sample.observed).getD []
    match compareCells repr want got sampled with
    | [] => compareFrom wants gots samples.tail
    | divergences => divergences
  | _, _, _ => []

def compare (expected actual : ReplayFingerprint) (samples : List Sample) :
    Except ReplayProofError (List ReplayDivergence) :=
  let divergences := compareFrom repr expected.checkpoints actual.checkpoints samples
  if expected.checkpoints.length ≠ actual.checkpoints.length ∧ divergences = [] then
    .error (.checkpointCount expected.checkpoints.length actual.checkpoints.length)
  else .ok divergences

def revalidate (fingerprint replayed : ReplayFingerprint) : Except ReplayProofError Unit :=
  if fingerprint.logDigest ≠ replayed.logDigest then
    .error (.logMismatch fingerprint.logDigest replayed.logDigest)
  else if fingerprint.stride ≠ replayed.stride then
    .error (.strideMismatch fingerprint.stride replayed.stride)
  else .ok ()

def verify {σ : Type} (digest : Code → String) (graph : ReplayGraph σ) (stride : ℕ)
    (logDigest : String) (log : List ReplayEvent) (fingerprint : ReplayFingerprint) :
    Except ReplayProofError ReplayFingerprint :=
  match record digest graph stride logDigest log with
  | .error error => .error (.encoding error)
  | .ok replayed => do
    revalidate fingerprint replayed
    let divergences ← compare repr fingerprint replayed (drive graph stride log)
    if divergences = [] then return replayed
    else .error (.divergence divergences)

end

/-! ### Stored fingerprints -/

structure WireCheckpoint where
  seq : ℤ
  cells : Cells

structure Wire where
  schemaVersion : Option ℤ
  logDigest : String
  stride : ℤ
  checkpoints : List WireCheckpoint

inductive WireError
  | schemaVersion (version : Option ℤ)
  | stride (stride : ℤ)
  | noCheckpoints
  deriving DecidableEq

def wireSchemaVersion : ℤ := 1

def toWire (fingerprint : ReplayFingerprint) : Wire where
  schemaVersion := some wireSchemaVersion
  logDigest := fingerprint.logDigest
  stride := fingerprint.stride
  checkpoints := fingerprint.checkpoints.map fun checkpoint => ⟨checkpoint.seq, checkpoint.asDict⟩

def fromWire (wire : Wire) : Except WireError ReplayFingerprint :=
  if wire.schemaVersion ≠ some wireSchemaVersion then .error (.schemaVersion wire.schemaVersion)
  else if wire.stride < 1 then .error (.stride wire.stride)
  else if wire.checkpoints = [] then .error .noCheckpoints
  else .ok {
    logDigest := wire.logDigest
    stride := wire.stride.toNat
    checkpoints := wire.checkpoints.map fun checkpoint =>
      ⟨checkpoint.seq, checkpoint.cells.rows.mergeSort cellLe⟩ }

def ReplayGraph.Labelled {σ : Type} (graph : ReplayGraph σ) : Prop :=
  ∀ state, ((graph.observe state).map Prod.fst).Nodup

def Recorded (digest : Code → String) (fingerprint : ReplayFingerprint) : Prop :=
  ∃ (σ : Type) (graph : ReplayGraph σ) (stride : ℕ) (logDigest : String) (log : List ReplayEvent),
    graph.Labelled ∧ 1 ≤ stride ∧ record digest graph stride logDigest log = .ok fingerprint

def Obtained (digest : Code → String) (fingerprint : ReplayFingerprint) : Prop :=
  Recorded digest fingerprint ∨ ∃ wire, fromWire wire = .ok fingerprint

/-! ### Cells -/

section

variable {checkpoint want got : ReplayCheckpoint} {cells cells' : List (String × String)}

structure CellsSorted (cells : List (String × String)) : Prop where
  sorted : cells.Pairwise fun c d => cellLe c d
  distinct : (cells.map Prod.fst).Nodup

theorem cellLe_iff {c d : String × String} : cellLe c d ↔ c.1 < d.1 ∨ c.1 = d.1 ∧ c.2 ≤ d.2 := by
  simp [cellLe]

theorem cellLe_trans (c d e : String × String) (h : cellLe c d) (h' : cellLe d e) : cellLe c e := by
  rw [cellLe_iff] at *
  obtain hlt | ⟨heq, hle⟩ := h
  · obtain hlt' | ⟨heq', -⟩ := h'
    · exact .inl (hlt.trans hlt')
    · exact .inl (heq' ▸ hlt)
  · obtain hlt' | ⟨heq', hle'⟩ := h'
    · exact .inl (heq ▸ hlt')
    · exact .inr ⟨heq.trans heq', hle.trans hle'⟩

theorem cellLe_total (c d : String × String) : cellLe c d || cellLe d c := by
  rw [Bool.or_eq_true, cellLe_iff, cellLe_iff]
  obtain hlt | heq | hlt := lt_trichotomy c.1 d.1
  · exact .inl (.inl hlt)
  · exact (le_total c.2 d.2).imp (fun hle => .inr ⟨heq, hle⟩) fun hle => .inr ⟨heq.symm, hle⟩
  · exact .inr (.inl hlt)

theorem cellLe_antisymm {c d : String × String} (h : cellLe c d) (h' : cellLe d c) : c = d := by
  rw [cellLe_iff] at *
  obtain hlt | ⟨heq, hle⟩ := h
  · obtain hlt' | ⟨heq', -⟩ := h'
    · exact absurd hlt' hlt.not_gt
    · exact absurd heq'.symm hlt.ne
  · obtain hlt' | ⟨-, hle'⟩ := h'
    · exact absurd heq.symm hlt'.ne
    · exact Prod.ext heq (hle.antisymm hle')

theorem cellsSorted_mergeSort (h : (cells.map Prod.fst).Nodup) : CellsSorted (cells.mergeSort cellLe) where
  sorted := pairwise_mergeSort cellLe_trans cellLe_total cells
  distinct := ((mergeSort_perm cells cellLe).map Prod.fst).nodup_iff.mpr h

/-- Sorted cells are determined by what they are. -/
theorem CellsSorted.eq_of_perm (h : CellsSorted cells) (h' : CellsSorted cells')
    (hperm : cells.Perm cells') : cells = cells' :=
  hperm.eq_of_pairwise (fun _ _ _ _ => cellLe_antisymm) h.sorted h'.sorted

theorem CellsSorted.get?_asDict (h : CellsSorted checkpoint.cells) (label : String) :
    checkpoint.asDict.get? label = (⟨checkpoint.cells, h.distinct⟩ : Cells).get? label :=
  Table.get?_putAll_of_perm (t := (⟨checkpoint.cells, h.distinct⟩ : Cells)) (Perm.refl _) label

/-- The dictionary has the cells. -/
theorem CellsSorted.perm_asDict (h : CellsSorted checkpoint.cells) :
    checkpoint.asDict.rows.Perm checkpoint.cells := by
  have hperm : checkpoint.asDict.rows.Perm (⟨checkpoint.cells, h.distinct⟩ : Cells).rows :=
    Table.perm_of_get?_eq h.get?_asDict
  exact hperm

def SameCells (want got : ReplayCheckpoint) : Prop :=
  ∀ label, want.digest? label = got.digest? label

theorem digest?_eq_some {label digest : String} :
    checkpoint.digest? label = some digest ↔ (label, digest) ∈ checkpoint.asDict.rows := by
  rw [ReplayCheckpoint.digest?, map_eq_some_iff]
  constructor
  · rintro ⟨⟨label', digest'⟩, hget, rfl⟩
    obtain ⟨hmem, rfl⟩ := Table.get?_eq_some.mp hget
    exact hmem
  · intro hmem
    exact ⟨_, Table.get?_of_mem hmem, rfl⟩

theorem sameCells_iff (h : CellsSorted want.cells) (h' : CellsSorted got.cells) :
    SameCells want got ↔ want.cells = got.cells := by
  constructor
  · intro hsame
    have hmem : ∀ cell, cell ∈ want.asDict.rows ↔ cell ∈ got.asDict.rows := by
      rintro ⟨label, digest⟩
      rw [← digest?_eq_some, ← digest?_eq_some, hsame]
    have hperm : want.asDict.rows.Perm got.asDict.rows := (perm_ext_iff_of_nodup (Nodup.of_map _ want.asDict.nodup)
        (Nodup.of_map _ got.asDict.nodup)).mpr hmem
    exact h.eq_of_perm h' ((h.perm_asDict.symm.trans hperm).trans h'.perm_asDict)
  · intro heq label
    rw [ReplayCheckpoint.digest?, ReplayCheckpoint.digest?, ReplayCheckpoint.asDict, ReplayCheckpoint.asDict, heq]

end

/-! ### Fingerprints that were recorded or loaded -/

section

variable {digest : Code → String} {fingerprint : ReplayFingerprint} {samples : List Sample}
  {result : List ReplayCheckpoint}

theorem map_fst_cellDigests {observed : List (String × Value)} {cells : List (String × String)}
    (h : cellDigests digest observed = .ok cells) : cells.map Prod.fst = observed.map Prod.fst := by
  induction observed generalizing cells with
  | nil =>
    cases h
    rfl
  | cons first observed ih =>
    obtain ⟨code, -, hrest⟩ := except_bind_eq_ok.mp h
    obtain ⟨rest, htail, heq⟩ := except_bind_eq_ok.mp hrest
    cases heq
    rw [map_cons, map_cons, ih htail]

theorem cellsSorted_of_checkpoints (h : checkpoints digest samples = .ok result)
    (hlabels : ∀ sample ∈ samples, (sample.observed.map Prod.fst).Nodup) :
    ∀ checkpoint ∈ result, CellsSorted checkpoint.cells := by
  induction samples generalizing result with
  | nil =>
    cases h
    exact fun _ hmem => absurd hmem not_mem_nil
  | cons sample samples ih =>
    obtain ⟨first, hfirst, hrest⟩ := except_bind_eq_ok.mp h
    obtain ⟨rest, htail, heq⟩ := except_bind_eq_ok.mp hrest
    obtain ⟨cells, hcells, hof⟩ := except_bind_eq_ok.mp hfirst
    cases heq
    cases hof
    rw [forall_mem_cons] at hlabels ⊢
    refine ⟨cellsSorted_mergeSort ?_, ih htail hlabels.2⟩
    rw [map_fst_cellDigests hcells]
    exact hlabels.1

theorem mem_driveFrom {σ : Type} {graph : ReplayGraph σ} {stride total index : ℕ} {state : σ}
    {log : List ReplayEvent} {sample : Sample}
    (h : sample ∈ driveFrom graph stride total index state log) :
    ∃ state', sample.observed = graph.observe state' := by
  induction log generalizing index state with
  | nil => cases h
  | cons event log ih =>
    rw [driveFrom] at h
    split at h
    · obtain rfl | hmem := mem_cons.mp h
      · exact ⟨_, rfl⟩
      · exact ih hmem
    · exact ih h

theorem mem_drive {σ : Type} {graph : ReplayGraph σ} {stride : ℕ} {log : List ReplayEvent}
    {sample : Sample} (h : sample ∈ drive graph stride log) :
    ∃ state, sample.observed = graph.observe state := by
  obtain rfl | hmem := mem_cons.mp h
  · exact ⟨_, rfl⟩
  · exact mem_driveFrom hmem

structure ReplayFingerprint.WellFormed (fingerprint : ReplayFingerprint) : Prop where
  stride : 1 ≤ fingerprint.stride
  checkpoints : fingerprint.checkpoints ≠ []
  cells : ∀ checkpoint ∈ fingerprint.checkpoints, CellsSorted checkpoint.cells

theorem wellFormed_of_record {σ : Type} {graph : ReplayGraph σ} {stride : ℕ} {logDigest : String}
    {log : List ReplayEvent} (hgraph : graph.Labelled) (hstride : 1 ≤ stride)
    (h : record digest graph stride logDigest log = .ok fingerprint) : fingerprint.WellFormed := by
  obtain ⟨result, hresult, heq⟩ := except_bind_eq_ok.mp h
  cases heq
  refine ⟨hstride, ?_, cellsSorted_of_checkpoints hresult fun sample hmem => ?_⟩
  · rintro rfl
    obtain ⟨first, -, hrest⟩ := except_bind_eq_ok.mp hresult
    obtain ⟨rest, -, hcons⟩ := except_bind_eq_ok.mp hrest
    cases hcons
  · obtain ⟨state, hobserved⟩ := mem_drive hmem
    exact hobserved ▸ hgraph state

theorem wellFormed_of_fromWire {wire : Wire} (h : fromWire wire = .ok fingerprint) : fingerprint.WellFormed := by
  unfold fromWire at h
  split at h
  · cases h
  split at h
  · cases h
  split at h
  · cases h
  next hstride hcheckpoints =>
    cases h
    refine ⟨?_, fun hnil => hcheckpoints (map_eq_nil_iff.mp hnil), fun checkpoint hmem => ?_⟩
    · show 1 ≤ wire.stride.toNat
      omega
    · obtain ⟨stored, -, rfl⟩ := List.mem_map.mp hmem
      exact cellsSorted_mergeSort stored.cells.nodup

theorem Obtained.wellFormed (h : Obtained digest fingerprint) : fingerprint.WellFormed := by
  obtain ⟨σ, graph, stride, logDigest, log, hgraph, hstride, hrecord⟩ | ⟨wire, hwire⟩ := h
  · exact wellFormed_of_record hgraph hstride hrecord
  · exact wellFormed_of_fromWire hwire

/-- A fingerprint that is stored and loaded is what it was. -/
theorem fromWire_toWire (h : fingerprint.WellFormed) : fromWire (toWire fingerprint) = .ok fingerprint := by
  have hversion : ¬ (toWire fingerprint).schemaVersion ≠ some wireSchemaVersion := not_not.mpr rfl
  have hstride : ¬ (toWire fingerprint).stride < 1 := by
    have := h.stride
    show ¬ (fingerprint.stride : ℤ) < 1
    omega
  have hcheckpoints : (toWire fingerprint).checkpoints ≠ [] := fun hnil => h.checkpoints (map_eq_nil_iff.mp hnil)
  have hcells : ∀ checkpoint ∈ fingerprint.checkpoints,
      (⟨checkpoint.seq, checkpoint.asDict.rows.mergeSort cellLe⟩ : ReplayCheckpoint) = checkpoint := by
    intro checkpoint hmem
    have hsorted := h.cells checkpoint hmem
    have heq : checkpoint.asDict.rows.mergeSort cellLe = checkpoint.cells :=
      (cellsSorted_mergeSort checkpoint.asDict.nodup).eq_of_perm hsorted
        ((mergeSort_perm _ cellLe).trans hsorted.perm_asDict)
    rw [heq]
  rw [fromWire, if_neg hversion, if_neg hstride, if_neg hcheckpoints]
  refine congrArg Except.ok ?_
  show (⟨fingerprint.logDigest, (fingerprint.stride : ℤ).toNat, _⟩ : ReplayFingerprint) = fingerprint
  rw [Int.toNat_natCast, toWire, List.map_map]
  refine congrArg (ReplayFingerprint.mk fingerprint.logDigest fingerprint.stride) ?_
  exact (map_congr_left hcells).trans (List.map_id _)

end

/-! ### Comparison -/

section

variable {repr : Value → String} {want got : ReplayCheckpoint} {sampled : List (String × Value)}
  {wants gots : List ReplayCheckpoint} {samples : List Sample} {d : ReplayDivergence}

structure ReplayDivergence.BelongsTo (d : ReplayDivergence) (want got : ReplayCheckpoint) : Prop where
  seq : d.seq = want.seq
  expected : d.expected = want.digest? d.label
  actual : d.actual = got.digest? d.label
  differ : d.expected ≠ d.actual

variable {label : String}

theorem divergence_eq_none :
    divergence repr want got sampled label = none ↔ want.digest? label = got.digest? label := by
  simp [divergence]

theorem belongsTo_of_divergence (h : divergence repr want got sampled label = some d) : d.BelongsTo want got := by
  simp only [divergence] at h
  split at h
  · cases h
  · next hne =>
    cases h
    exact ⟨rfl, rfl, rfl, hne⟩

/-- A label with a digest is compared. -/
theorem mem_labels (h : want.digest? label ≠ got.digest? label) : label ∈ labels want got := by
  rw [labels, (mergeSort_perm _ _).mem_iff, mem_union_iff]
  cases hwant : want.digest? label with
  | some digest => exact .inl (List.mem_map_of_mem (digest?_eq_some.mp hwant))
  | none =>
    cases hgot : got.digest? label with
    | some digest => exact .inr (List.mem_map_of_mem (digest?_eq_some.mp hgot))
    | none => exact absurd (hwant.trans hgot.symm) h

theorem compareCells_eq_nil : compareCells repr want got sampled = [] ↔ SameCells want got := by
  rw [compareCells, filterMap_eq_nil_iff]
  constructor
  · intro h label
    by_contra hne
    exact hne (divergence_eq_none.mp (h label (mem_labels hne)))
  · intro h label _
    exact divergence_eq_none.mpr (h label)

theorem belongsTo_of_mem_compareCells (h : d ∈ compareCells repr want got sampled) : d.BelongsTo want got := by
  obtain ⟨label, -, hd⟩ := mem_filterMap.mp h
  exact belongsTo_of_divergence hd

/-- The comparison stops at the first checkpoint with a cell that differs. -/
theorem compareFrom_cases (repr : Value → String) (wants gots : List ReplayCheckpoint) (samples : List Sample) :
    compareFrom repr wants gots samples = [] ∧ RelatedBelow SameCells wants gots wants.length ∨
      compareFrom repr wants gots samples ≠ [] ∧ ∃ i want got, FirstUnrelated SameCells wants gots i want got ∧
        ∀ d ∈ compareFrom repr wants gots samples, d.BelongsTo want got := by
  induction wants generalizing gots samples with
  | nil => exact .inl ⟨rfl, fun i hi => absurd hi (Nat.not_lt_zero i)⟩
  | cons want wants ih =>
    cases gots with
    | nil => exact .inl ⟨rfl, fun i hi a b _ hb => by cases hb⟩
    | cons got gots =>
      rw [compareFrom]
      split
      · next hcells =>
        have hsame := compareCells_eq_nil.mp hcells
        obtain ⟨hnil, hbelow⟩ | ⟨hne, i, want', got', hfirst, hall⟩ := ih gots samples.tail
        · exact .inl ⟨hnil, relatedBelow_cons_iff.mpr ⟨hsame, hbelow⟩⟩
        · exact .inr ⟨hne, i + 1, want', got', hfirst.cons hsame, hall⟩
      · next hcells =>
        refine .inr ⟨hcells, 0, want, got, .head fun hsame => ?_, fun d hd => ?_⟩
        · exact hcells (compareCells_eq_nil.mpr hsame)
        · exact belongsTo_of_mem_compareCells hd

end

section

variable {σ : Type} {digest : Code → String} {repr : Value → String} {graph : ReplayGraph σ}
  {stride : ℕ} {logDigest : String} {log : List ReplayEvent} {fingerprint replayed : ReplayFingerprint}

/-- The checkpoints before the first cell that differs are those of the same events, unless the
comparison ends with an error of another kind. -/
def SeqsAgree (fingerprint replayed : ReplayFingerprint) : Prop :=
  fingerprint.logDigest = replayed.logDigest → fingerprint.stride = replayed.stride →
    (fingerprint.checkpoints.length = replayed.checkpoints.length ∨
      ∃ i want got, FirstUnrelated SameCells fingerprint.checkpoints replayed.checkpoints i want got) →
    ∀ j want got, fingerprint.checkpoints[j]? = some want → replayed.checkpoints[j]? = some got →
      RelatedBelow SameCells fingerprint.checkpoints replayed.checkpoints (j + 1) →
      want.seq = got.seq

/-- The verification returns iff the replay has the fingerprint, and what it reports belongs to the
first checkpoint that differs. -/
structure VerifiesExactly (repr : Value → String) (digest : Code → String) (graph : ReplayGraph σ)
    (stride : ℕ) (logDigest : String) (log : List ReplayEvent) (fingerprint : ReplayFingerprint) :
    Prop where
  returns : (∃ replayed, verify repr digest graph stride logDigest log fingerprint = .ok replayed) ↔
    record digest graph stride logDigest log = .ok fingerprint
  reports : ∀ divergences,
    verify repr digest graph stride logDigest log fingerprint = .error (.divergence divergences) →
    ∃ replayed i want got, record digest graph stride logDigest log = .ok replayed ∧
      FirstUnrelated Eq fingerprint.checkpoints replayed.checkpoints i want got ∧
      ∀ d ∈ divergences, d.BelongsTo want got

/-- Entries of a checkpoint that are not compared as equal are not equal. -/
theorem ne_of_not_sameCells {want got : ReplayCheckpoint} (h : ¬ SameCells want got) : want ≠ got := by
  rintro rfl
  exact h fun _ => rfl

/-- Checkpoints with the same cells, of the same events, are equal. -/
theorem relatedBelow_eq {wants gots : List ReplayCheckpoint} {n : ℕ}
    (hwants : ∀ want ∈ wants, CellsSorted want.cells) (hgots : ∀ got ∈ gots, CellsSorted got.cells)
    (hcells : RelatedBelow SameCells wants gots n)
    (hseqs : RelatedBelow (fun want got => want.seq = got.seq) wants gots n) :
    RelatedBelow Eq wants gots n := by
  intro i hi want got hwant hgot
  have hcell := (sameCells_iff (hwants want (mem_of_getElem? hwant))
    (hgots got (mem_of_getElem? hgot))).mp (hcells i hi want got hwant hgot)
  have hseq := hseqs i hi want got hwant hgot
  cases want
  cases got
  exact ReplayCheckpoint.mk.injEq .. |>.mpr ⟨hseq, hcell⟩

/-- What a verification gives, once the replay has a fingerprint. -/
inductive Outcome (fingerprint replayed : ReplayFingerprint) : Except ReplayProofError ReplayFingerprint → Prop
  | logMismatch (hlog : fingerprint.logDigest ≠ replayed.logDigest) :
    Outcome fingerprint replayed (.error (.logMismatch fingerprint.logDigest replayed.logDigest))
  | strideMismatch (hstride : fingerprint.stride ≠ replayed.stride) :
    Outcome fingerprint replayed (.error (.strideMismatch fingerprint.stride replayed.stride))
  | checkpointCount (hcells : RelatedBelow SameCells fingerprint.checkpoints replayed.checkpoints
      fingerprint.checkpoints.length)
    (hlength : fingerprint.checkpoints.length ≠ replayed.checkpoints.length) :
    Outcome fingerprint replayed (.error (.checkpointCount fingerprint.checkpoints.length replayed.checkpoints.length))
  | returned (hlog : fingerprint.logDigest = replayed.logDigest) (hstride : fingerprint.stride = replayed.stride)
    (hcells : RelatedBelow SameCells fingerprint.checkpoints replayed.checkpoints fingerprint.checkpoints.length)
    (hlength : fingerprint.checkpoints.length = replayed.checkpoints.length) :
    Outcome fingerprint replayed (.ok replayed)
  | diverged (hlog : fingerprint.logDigest = replayed.logDigest)
    (hstride : fingerprint.stride = replayed.stride) (i : ℕ) (want got : ReplayCheckpoint)
    (hfirst : FirstUnrelated SameCells fingerprint.checkpoints replayed.checkpoints i want got)
    (divergences : List ReplayDivergence) (hne : divergences ≠ [])
    (hbelongs : ∀ d ∈ divergences, d.BelongsTo want got) :
    Outcome fingerprint replayed (.error (.divergence divergences))

theorem outcome_verify (hrecord : record digest graph stride logDigest log = .ok replayed) :
    Outcome fingerprint replayed (verify repr digest graph stride logDigest log fingerprint) := by
  simp only [verify, hrecord, revalidate]
  by_cases hlog : fingerprint.logDigest = replayed.logDigest
  swap
  · rw [if_pos hlog]
    exact .logMismatch hlog
  rw [if_neg (not_not.mpr hlog)]
  by_cases hstride : fingerprint.stride = replayed.stride
  swap
  · rw [if_pos hstride]
    exact .strideMismatch hstride
  rw [if_neg (not_not.mpr hstride)]
  show Outcome _ _ (compare repr fingerprint replayed _ >>= _)
  obtain ⟨hnil, hcells⟩ | ⟨hne, i, want, got, hfirst, hall⟩ := compareFrom_cases repr
    fingerprint.checkpoints replayed.checkpoints (drive graph stride log)
  · by_cases hlength : fingerprint.checkpoints.length = replayed.checkpoints.length
    · rw [compare, hnil, if_neg (fun h => h.1 hlength)]
      exact .returned hlog hstride hcells hlength
    · rw [compare, hnil, if_pos ⟨hlength, rfl⟩]
      exact .checkpointCount hcells hlength
  · rw [compare, if_neg (fun h => hne h.2)]
    show Outcome _ _ (if _ = [] then _ else _)
    rw [if_neg hne]
    exact .diverged hlog hstride i want got hfirst _ hne hall

section

variable (hF : fingerprint.WellFormed) (hR : replayed.WellFormed)

include hF hR

/-- The checkpoints before a place with a cell that differs are equal, if they are of the same
events. -/
theorem eq_before_of_seqsAgree (hagree : SeqsAgree fingerprint replayed)
    (hlog : fingerprint.logDigest = replayed.logDigest) (hstride : fingerprint.stride = replayed.stride) {n : ℕ}
    (hreach : fingerprint.checkpoints.length = replayed.checkpoints.length ∨ ∃ i want got,
    FirstUnrelated SameCells fingerprint.checkpoints replayed.checkpoints i want got)
    (hcells : RelatedBelow SameCells fingerprint.checkpoints replayed.checkpoints n) :
    RelatedBelow Eq fingerprint.checkpoints replayed.checkpoints n := by
  refine relatedBelow_eq hF.cells hR.cells hcells fun j hj want got hwant hgot => ?_
  exact hagree hlog hstride hreach j want got hwant hgot (hcells.mono hj)

theorem returns_of_outcome {result : Except ReplayProofError ReplayFingerprint}
    (hagree : SeqsAgree fingerprint replayed) (h : Outcome fingerprint replayed result) :
    (∃ returned, result = .ok returned) ↔ replayed = fingerprint := by
  cases h with
  | logMismatch hlog =>
    refine ⟨fun ⟨_, h⟩ => (nomatch h), ?_⟩
    rintro rfl
    exact absurd rfl hlog
  | strideMismatch hstride =>
    refine ⟨fun ⟨_, h⟩ => (nomatch h), ?_⟩
    rintro rfl
    exact absurd rfl hstride
  | checkpointCount hcells hlength =>
    refine ⟨fun ⟨_, h⟩ => (nomatch h), ?_⟩
    rintro rfl
    exact absurd rfl hlength
  | returned hlog hstride hcells hlength =>
    refine ⟨fun _ => ?_, fun _ => ⟨_, rfl⟩⟩
    have heq := eq_of_relatedBelow hlength (eq_before_of_seqsAgree hF hR hagree hlog hstride (.inl hlength) hcells)
    cases fingerprint
    cases replayed
    simp_all
  | diverged hlog hstride i want got hfirst divergences hne hbelongs =>
    refine ⟨fun ⟨_, h⟩ => (nomatch h), ?_⟩
    rintro rfl
    have hsame : want = got := some.inj (hfirst.left.symm.trans hfirst.right)
    exact absurd hsame (ne_of_not_sameCells hfirst.unrelated)

/-- Where the events agree, the verification is exact. -/
theorem verifiesExactly_of_seqsAgree (hrecord : record digest graph stride logDigest log = .ok replayed)
    (hagree : SeqsAgree fingerprint replayed) :
    VerifiesExactly repr digest graph stride logDigest log fingerprint := by
  have hrun : Outcome fingerprint replayed
      (verify repr digest graph stride logDigest log fingerprint) := outcome_verify hrecord
  constructor
  · rw [hrecord, Except.ok.injEq]
    exact returns_of_outcome hF hR hagree hrun
  · intro divergences hverify
    rw [hverify] at hrun
    cases hrun with
    | diverged hlog hstride i want got hfirst _ hne hbelongs =>
      have hbefore := eq_before_of_seqsAgree hF hR hagree hlog hstride (.inr ⟨i, want, got, hfirst⟩) hfirst.before
      exact ⟨replayed, i, want, got, hrecord, hfirst.imp (ne_of_not_sameCells hfirst.unrelated) hbefore, hbelongs⟩

end

/-- Where the verification is exact, the events agree. -/
theorem seqsAgree_of_verifiesExactly (hrecord : record digest graph stride logDigest log = .ok replayed)
    (hexact : VerifiesExactly repr digest graph stride logDigest log fingerprint) :
    SeqsAgree fingerprint replayed := by
  intro hlog hstride hreach j want got hwant hgot hcells
  have hrun : Outcome fingerprint replayed
      (verify repr digest graph stride logDigest log fingerprint) := outcome_verify hrecord
  obtain ⟨result, hverify⟩ : ∃ result, verify repr digest graph stride logDigest log fingerprint = result := ⟨_, rfl⟩
  rw [hverify] at hrun
  cases hrun with
  | logMismatch hne => exact absurd hlog hne
  | strideMismatch hne => exact absurd hstride hne
  | checkpointCount hall hlength =>
    obtain hlen | ⟨i, want', got', hfirst⟩ := hreach
    · exact absurd hlen hlength
    · -- no cell of a checkpoint that both have differs
      have hi := (List.getElem?_eq_some_iff.mp hfirst.left).1
      exact absurd (hall i hi want' got' hfirst.left hfirst.right) hfirst.unrelated
  | returned _ _ _ _ =>
    have heq := hexact.returns.mp ⟨_, hverify⟩
    rw [hrecord] at heq
    obtain rfl := Except.ok.inj heq
    exact congrArg _ (some.inj (hwant.symm.trans hgot))
  | diverged _ _ _ _ _ _ divergences hne _ =>
    obtain ⟨replayed', i, want', got', hrecord', hfirst, hbelongs⟩ := hexact.reports divergences hverify
    rw [hrecord] at hrecord'
    obtain rfl := Except.ok.inj hrecord'
    obtain ⟨d, hd⟩ := exists_mem_of_ne_nil divergences hne
    have hdiffer : ¬ SameCells want' got' := by
      intro hsame
      have hbelong := hbelongs d hd
      exact hbelong.differ (hbelong.expected.trans ((hsame _).trans hbelong.actual.symm))
    -- the divergence is where the first checkpoints differ, and thus after this one
    have hlt : j < i := by
      by_contra hle
      exact hdiffer (hcells i (by omega) want' got' hfirst.left hfirst.right)
    exact congrArg _ (hfirst.before j hlt want got hwant hgot)

end

/-- A verification is exact iff the checkpoints before the first cell that differs are those of the
same events, and a recorded fingerprint is what it was once it was stored and loaded. -/
theorem verifies_iff (digest : Code → String) (repr : Value → String) :
    (∀ {σ : Type} (graph : ReplayGraph σ) (stride : ℕ) (logDigest : String) (log : List ReplayEvent)
      (fingerprint : ReplayFingerprint), graph.Labelled → 1 ≤ stride → Obtained digest fingerprint →
      (VerifiesExactly repr digest graph stride logDigest log fingerprint ↔
        ∀ replayed, record digest graph stride logDigest log = .ok replayed → SeqsAgree fingerprint replayed)) ∧
    ∀ fingerprint, Recorded digest fingerprint → fromWire (toWire fingerprint) = .ok fingerprint := by
  constructor
  · intro σ graph stride logDigest log fingerprint hgraph hstride hobtained
    constructor
    · exact fun hexact replayed hrecord => seqsAgree_of_verifiesExactly hrecord hexact
    · intro hagree
      cases hrecord : record digest graph stride logDigest log with
      | ok replayed =>
        exact verifiesExactly_of_seqsAgree hobtained.wellFormed
          (wellFormed_of_record hgraph hstride hrecord) hrecord (hagree replayed hrecord)
      | error error =>
        -- neither is there a fingerprint of the replay
        constructor
        · simp [verify, hrecord]
        · simp [verify, hrecord]
  · exact fun fingerprint hrecorded => fromWire_toWire (Obtained.wellFormed (.inl hrecorded))

/-- A counter of the events, observed as `n`. -/
def counting : ReplayGraph ℕ where
  build := 0
  apply _ n := n + 1
  observe n := [("n", .int n)]

/-- The log digest of one event, `add`, with sequence number 0. -/
def addedDigest : String := "e5ba0d291b1d8264b3775c3b3993a535fae632c84857c0027f9e462b29f0470a"

def countDigest (code : Code) : String :=
  if code = ascii ['i', '1', ':', '0'] then
    "dd08263a4b8b4ba41bc5bd4893a649a37891318db6100c331e070e56d8cfffea"
  else "3500c6ec7b71965cb23c6dd413d02ca146236906e38c391667f1d618bc64314d"

/-- The wire form of the fingerprint of one event, with a sequence number of its own. -/
def countedWire (seq : ℤ) : Wire where
  schemaVersion := some 1
  logDigest := addedDigest
  stride := 1
  checkpoints := [
    ⟨-1, ⟨[("n", countDigest (ascii ['i', '1', ':', '0']))], nodup_singleton _⟩⟩,
    ⟨seq, ⟨[("n", countDigest (ascii ['i', '1', ':', '1']))], nodup_singleton _⟩⟩]

def counted (seq : ℤ) : ReplayFingerprint where
  logDigest := addedDigest
  stride := 1
  checkpoints := [
    ⟨-1, [("n", countDigest (ascii ['i', '1', ':', '0']))]⟩,
    ⟨seq, [("n", countDigest (ascii ['i', '1', ':', '1']))]⟩]

theorem fromWire_countedWire (seq : ℤ) : fromWire (countedWire seq) = .ok (counted seq) := by
  simp [fromWire, countedWire, counted, wireSchemaVersion]

theorem labelled_counting : counting.Labelled :=
  fun _ => nodup_singleton _

theorem record_counting : record countDigest counting 1 addedDigest [⟨0, "add", .none⟩] = .ok (counted 0) := by
  have hzero : canonicalBytes (.int 0) = .ok (ascii ['i', '1', ':', '0']) := rfl
  have hone : canonicalBytes (.int 1) = .ok (ascii ['i', '1', ':', '1']) := rfl
  simp [record, checkpoints, drive, driveFrom, counting, ReplayCheckpoint.of, cellDigests, counted,
    initialSeq, hzero, hone, bind, Except.bind, pure, Except.pure]

/-- A recorded fingerprint is verified exactly, and loaded as it was stored. -/
theorem verifies_counted :
    VerifiesExactly (fun _ => "0") countDigest counting 1 addedDigest [⟨0, "add", .none⟩] (counted 0) ∧
    fromWire (toWire (counted 0)) = .ok (counted 0) := by
  have hrecorded : Recorded countDigest (counted 0) :=
    ⟨ℕ, counting, 1, addedDigest, _, labelled_counting, le_rfl, record_counting⟩
  obtain ⟨hverify, hwire⟩ := verifies_iff countDigest fun _ => "0"
  refine ⟨(hverify counting 1 addedDigest _ _ labelled_counting le_rfl (.inl hrecorded)).mpr ?_, hwire _ hrecorded⟩
  intro replayed hreplayed
  obtain rfl := Except.ok.inj (record_counting.symm.trans hreplayed)
  intro _ _ _ j want got hwant hgot _
  exact congrArg _ (some.inj (hwant.symm.trans hgot))

/-- A fingerprint whose last checkpoint names event 7 is verified by a replay of event 0. -/
theorem verifies_other_event : fromWire (countedWire 7) = .ok (counted 7) ∧
    verify (fun _ => "0") countDigest counting 1 addedDigest [⟨0, "add", .none⟩] (counted 7) = .ok (counted 0) ∧
    counted 0 ≠ counted 7 ∧
    ¬ VerifiesExactly (fun _ => "0") countDigest counting 1 addedDigest [⟨0, "add", .none⟩]
      (counted 7) := by
  have hne : counted 0 ≠ counted 7 := by simp [counted]
  have hcells (seq seq' : ℤ) (cells : List (String × String)) (sampled : List (String × Value)) :
      compareCells (fun _ => "0") ⟨seq, cells⟩ ⟨seq', cells⟩ sampled = [] :=
    compareCells_eq_nil.mpr fun _ => rfl
  have hverify : verify (fun _ => "0") countDigest counting 1 addedDigest [⟨0, "add", .none⟩]
      (counted 7) = .ok (counted 0) := by
    simp only [verify, record_counting]
    simp [counted, revalidate, compare, compareFrom, hcells, bind, Except.bind, pure, Except.pure]
  refine ⟨fromWire_countedWire 7, hverify, hne, fun hexact => hne ?_⟩
  have hrecord := hexact.returns.mp ⟨_, hverify⟩
  exact Except.ok.inj (record_counting.symm.trans hrecord)

end LazilyPy.Replay

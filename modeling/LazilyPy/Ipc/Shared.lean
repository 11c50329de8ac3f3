import LazilyPy.Ipc.Spill

/-!
# Handles on a shared region

A region of memory with the handle that has created it, which writes and advances its epoch, and the
handles of readers. The bytes are shared, the cursor, the generation and the epoch are not.
-/

namespace LazilyPy.Ipc

open List

/-! ### Descriptors that are present -/

def ShmBlobArena.Present (d : ShmBlobRef) (s : ShmBlobArena) : Prop :=
  ∃ blob : Blob, blob.stamped .shm = d ∧ s.Holds blob

def ShmBlobArena.Minted (d : ShmBlobRef) (s : ShmBlobArena) : Prop :=
  ∃ blob : Blob, blob.stamped .shm = d ∧ blob.header.isSome ∧ blob.offset + blob.size ≤ s.capacity

namespace ShmBlobArena

variable {s : ShmBlobArena} {d : ShmBlobRef} {bytes : List UInt8}

/-- A descriptor that has been minted is read just if a blob of it is in the buffer. -/
theorem readBlob_iff_present (hd : s.Minted d) : s.readBlob d = .ok bytes ↔
      ∃ blob : Blob, blob.stamped .shm = d ∧ s.Holds blob ∧ blob.payload = bytes := by
  constructor
  · intro h
    obtain ⟨blob, rfl, hheader, hroom⟩ := hd
    obtain ⟨header, hheader⟩ := Option.isSome_iff_exists.mp hheader
    obtain ⟨bytes', hok, -, -, -, -, hlen, hchecksum⟩ | ⟨error, herror⟩ := readBlob_cases (blob.stamped .shm) s
    · obtain rfl := Except.ok.inj (h.symm.trans hok)
      -- the bytes that are read have the length and the checksum of what has been written
      have hlen : bytes.length = blob.payload.length := Int.ofNat_inj.mp hlen
      have hchecksum : fnv1a64 bytes = fnv1a64 blob.payload := Int.ofNat_inj.mp hchecksum
      let found : Blob := ⟨blob.offset, blob.generation, blob.epoch, bytes⟩
      have hstamp : found.stamped .shm = blob.stamped .shm := by
        simp only [Blob.stamped, Blob.descriptor, found, hlen, hchecksum]
      have hfound : found.header = some header := by
        rw [← hheader]
        simp only [Blob.header, found, hlen, hchecksum]
      have hsize : found.size = blob.size := by
        simp only [Blob.size, found, hlen]
      refine ⟨found, hstamp, (readBlob_iff_holds hfound ?_ .shm).mp ?_, rfl⟩
      · rw [hsize]
        exact hroom
      · exact (congrArg s.readBlob hstamp).trans h
    · rw [h] at herror
      cases herror
  · rintro ⟨blob, rfl, hholds, rfl⟩
    exact readBlob_of_holds hholds .shm

theorem readBlob_of_not_present (hd : s.Minted d) (h : ¬ s.Present d) :
    ∃ error, s.readBlob d = .error (.arena error) := by
  obtain ⟨bytes, hok, -⟩ | herror := readBlob_cases d s
  · obtain ⟨blob, hblob, hholds, -⟩ := (readBlob_iff_present hd).mp hok
    exact absurd ⟨blob, hblob, hholds⟩ h
  · exact herror

end ShmBlobArena

/-! ### Handles -/

structure ShmBackend where
  writeOffset : ℕ := 0
  nextGeneration : ℕ := 1
  epoch : ℕ := 0
  closed : Bool := false
  deriving DecidableEq, Repr

def ShmBackend.over (region : List UInt8) (h : ShmBackend) : BlobBackend where
  kind := .shm
  arena := ⟨region, h.writeOffset, h.nextGeneration⟩
  epoch := h.epoch
  closed := h.closed

def ShmBackend.ofBackend (b : BlobBackend) : ShmBackend where
  writeOffset := b.arena.writeOffset
  nextGeneration := b.arena.nextGeneration
  epoch := b.epoch
  closed := b.closed

def ShmBackend.fromBuffer (region : List UInt8) : Except Raised ShmBackend :=
  if region.length < minCapacity then
    .error (.arena (.capacityTooSmall region.length minCapacity))
  else .ok {}

structure Shared where
  region : List UInt8
  creator : ShmBackend
  readers : List ShmBackend := []
  minted : List ShmBlobRef := []
  deriving DecidableEq

inductive SharedOp
  | write (data : List UInt8)
  | advanceEpoch
  | openRegion
  deriving DecidableEq

namespace Shared

def create (size : Fin (2 ^ 63)) : Except Raised Shared :=
  (ShmBackend.fromBuffer (replicate size 0)).map fun creator =>
    { region := replicate size 0, creator := creator }

def write (data : List UInt8) (s : Shared) : Shared :=
  let (written, b) := (s.creator.over s.region).write data
  { s with
    region := b.arena.buffer
    creator := .ofBackend b
    minted := s.minted ++ written.toOption.toList }

def advanceEpoch (s : Shared) : Shared :=
  { s with creator := .ofBackend (s.creator.over s.region).advanceEpoch }

def openRegion (s : Shared) : Shared :=
  match ShmBackend.fromBuffer s.region with
  | .ok reader => { s with readers := s.readers ++ [reader] }
  | .error _ => s

def step (s : Shared) : SharedOp → Shared
  | .write data => s.write data
  | .advanceEpoch => s.advanceEpoch
  | .openRegion => s.openRegion

def run (s : Shared) (ops : List SharedOp) : Shared :=
  ops.foldl step s

theorem run_concat (s : Shared) (ops : List SharedOp) (op : SharedOp) : s.run (ops ++ [op]) = (s.run ops).step op :=
  foldl_concat ..

def readView (d : ShmBlobRef) (h : ShmBackend) (s : Shared) : Except Raised (Option (List UInt8)) :=
  (h.over s.region).readView d

def arena (s : Shared) : ShmBlobArena :=
  (s.creator.over s.region).arena

/-- The readers resolve what has been minted as the creator does: a descriptor of another epoch nowhere,
and one of the epoch of the creator, whose blob is there, everywhere. -/
structure Agrees (s : Shared) : Prop where
  same : ∀ h ∈ s.readers, ∀ d ∈ s.minted, s.readView d h = s.readView d s.creator
  stale : ∀ h ∈ s.creator :: s.readers, ∀ d ∈ s.minted, d.epoch ≠ s.creator.epoch → s.readView d h = .ok none
  current : ∀ d ∈ s.minted, d.epoch = s.creator.epoch → s.arena.Present d →
    ∃ bytes, ∀ h ∈ s.creator :: s.readers, s.readView d h = .ok (some bytes)

/-! ### Runs -/

/-- What holds of every region with its handles. The readers stay in the epoch that they begin with. -/
structure Sound (s : Shared) : Prop where
  valid : s.arena.Valid
  creator : s.creator.closed = false
  readers : ∀ h ∈ s.readers, h.epoch = 0 ∧ h.closed = false
  minted : ∀ d ∈ s.minted, s.arena.Minted d

variable {s : Shared} {h : ShmBackend} {d : ShmBlobRef} {size : Fin (2 ^ 63)} {ops : List SharedOp}

theorem sound_create (hcreate : create size = .ok s) : s.Sound := by
  unfold create ShmBackend.fromBuffer at hcreate
  split at hcreate
  · cases hcreate
  · next hmin =>
    cases hcreate
    have hlen : (replicate (size : ℕ) (0 : UInt8)).length = size := length_replicate
    have hpos : 0 < minCapacity := by decide
    refine ⟨⟨?_, ?_, ?_, show 1 ≤ u64Mask by decide⟩, rfl, nofun, nofun⟩
    · exact not_lt.mp hmin
    · show (replicate (size : ℕ) (0 : UInt8)).length < 2 ^ 63
      rw [hlen]
      exact size.isLt
    · show 0 < (replicate (size : ℕ) (0 : UInt8)).length
      omega

theorem Sound.write (hs : s.Sound) (data : List UInt8) : (s.write data).Sound := by
  have hfollows := BlobBackend.follows_write (b := s.creator.over s.region) hs.valid data
  refine ⟨hfollows.valid, hfollows.closed.trans hs.creator, hs.readers, fun d hd => ?_⟩
  have hcapacity : (s.write data).arena.capacity = s.arena.capacity := hfollows.capacity
  obtain hd | (hd : d ∈ ((s.creator.over s.region).write data).1.toOption.toList) := mem_append.mp hd
  · obtain ⟨blob, hblob, hheader, hroom⟩ := hs.minted d hd
    exact ⟨blob, hblob, hheader, hcapacity ▸ hroom⟩
  · obtain ⟨error, herror, -⟩ | ⟨blob, hheader, -, -, hroom, hok, -⟩ | ⟨-, hraised, -⟩ :=
      BlobBackend.write_cases (b := s.creator.over s.region) hs.valid data
    · rw [herror] at hd
      cases hd
    · rw [hok] at hd
      obtain rfl := mem_singleton.mp hd
      exact ⟨blob, rfl, hheader, hcapacity ▸ hroom⟩
    · rw [hraised] at hd
      cases hd

theorem Sound.openRegion (hs : s.Sound) : s.openRegion.Sound := by
  unfold Shared.openRegion ShmBackend.fromBuffer
  split
  next reader hreader =>
    split at hreader
    · cases hreader
    · obtain rfl := Except.ok.inj hreader
      refine ⟨hs.valid, hs.creator, fun h hh => ?_, hs.minted⟩
      obtain hh | hh := mem_append.mp hh
      · exact hs.readers h hh
      · obtain rfl := mem_singleton.mp hh
        exact ⟨rfl, rfl⟩
  · exact hs

theorem Sound.step (hs : s.Sound) (op : SharedOp) : (s.step op).Sound := by
  cases op with
  | write data => exact hs.write data
  | advanceEpoch => exact ⟨hs.valid, hs.creator, hs.readers, hs.minted⟩
  | openRegion => exact hs.openRegion

theorem sound_run (hs : s.Sound) (ops : List SharedOp) : (s.run ops).Sound := by
  induction ops using reverseRecOn with
  | nil => exact hs
  | append_singleton ops op ih =>
    rw [run_concat]
    exact ih.step op

/-! ### What a handle resolves -/

theorem readView_of_ne (hepoch : d.epoch ≠ h.epoch) : s.readView d h = .ok none :=
  if_pos (.inr hepoch)

theorem readView_of_holds {blob : Blob} (hclosed : h.closed = false) (hepoch : blob.epoch = h.epoch)
    (hholds : s.arena.Holds blob) : s.readView (blob.stamped .shm) h = .ok (some blob.payload) := by
  have hread : (h.over s.region).arena.readBlob (blob.stamped .shm) = .ok blob.payload :=
    ShmBlobArena.readBlob_of_holds hholds .shm
  have hepoch : (blob.stamped .shm).epoch = h.epoch := congrArg Nat.cast hepoch
  rw [readView, BlobBackend.readView, hread]
  exact if_neg fun hor => hor.elim (by simp [ShmBackend.over, hclosed]) fun hne => hne hepoch

theorem readView_of_not_present (hd : s.arena.Minted d) (habsent : ¬ s.arena.Present d) :
    s.readView d h = .ok none := by
  obtain ⟨error, herror⟩ := ShmBlobArena.readBlob_of_not_present hd habsent
  have hread : (h.over s.region).arena.readBlob d = .error (.arena error) := herror
  rw [readView, BlobBackend.readView, hread]
  split
  · rfl
  · rfl

theorem readView_congr (hclosed : h.closed = s.creator.closed) (hepoch : h.epoch = s.creator.epoch) :
    s.readView d h = s.readView d s.creator := by
  unfold readView BlobBackend.readView ShmBackend.over
  rw [hclosed, hepoch]
  rfl

/-- What is read of a descriptor of the creator's epoch by a handle of that epoch. -/
theorem current_of_epoch (hs : s.Sound)
    (hreaders : ∀ h ∈ s.readers, d.epoch = s.creator.epoch → h.epoch = s.creator.epoch)
    (hepoch : d.epoch = s.creator.epoch) (hpresent : s.arena.Present d) :
    ∃ bytes, ∀ h ∈ s.creator :: s.readers, s.readView d h = .ok (some bytes) := by
  obtain ⟨blob, rfl, hholds⟩ := hpresent
  have hblob : blob.epoch = s.creator.epoch := Int.ofNat_inj.mp hepoch
  refine ⟨blob.payload, fun h hh => ?_⟩
  obtain rfl | hh := mem_cons.mp hh
  · exact readView_of_holds hs.creator hblob hholds
  · exact readView_of_holds (hs.readers h hh).2 (hblob.trans (hreaders h hh hepoch).symm) hholds

/-- The readers agree with the creator just if its epoch has not been advanced, or if nothing is left of
the first epoch and of the one that the creator is in. -/
theorem readers_agree_iff (hcreate : create size = .ok s) (ops : List SharedOp) :
    (s.run ops).Agrees ↔ (s.run ops).creator.epoch = 0 ∨ (s.run ops).readers = [] ∨
      ∀ d ∈ (s.run ops).minted, (s.run ops).arena.Present d → d.epoch ≠ 0 ∧ d.epoch ≠ (s.run ops).creator.epoch := by
  have hs := sound_run (sound_create hcreate) ops
  generalize s.run ops = s at hs
  constructor
  · intro hagrees
    by_contra hnot
    obtain ⟨hadvanced, hnot⟩ := not_or.mp hnot
    obtain ⟨hreaders, hnot⟩ := not_or.mp hnot
    obtain ⟨reader, hreader⟩ := exists_mem_of_ne_nil s.readers hreaders
    obtain ⟨hzero, hopen⟩ := hs.readers reader hreader
    refine hnot fun d hd hpresent => ?_
    have hsame := hagrees.same reader hreader d hd
    obtain ⟨blob, rfl, hholds⟩ := hpresent
    refine ⟨fun hepoch => ?_, fun hepoch => ?_⟩
    · -- a blob of the first epoch is still read by the reader
      have hblob : blob.epoch = 0 := Int.ofNat_inj.mp hepoch
      have hreads := readView_of_holds hopen (hblob.trans hzero.symm) hholds
      have hnone : s.readView (blob.stamped .shm) s.creator = .ok none := by
        refine readView_of_ne fun heq => hadvanced ?_
        exact Int.ofNat_inj.mp (heq.symm.trans hepoch)
      rw [hreads, hnone] at hsame
      cases hsame
    · -- a blob of the epoch of the creator is not
      have hblob : blob.epoch = s.creator.epoch := Int.ofNat_inj.mp hepoch
      have hreads := readView_of_holds hs.creator hblob hholds
      have hnone : s.readView (blob.stamped .shm) reader = .ok none := by
        refine readView_of_ne fun heq => hadvanced ?_
        rw [hzero] at heq
        exact Int.ofNat_inj.mp (hepoch.symm.trans heq)
      rw [hreads, hnone] at hsame
      cases hsame
  · rintro (hzero | hnone | hgone)
    · have hepochs (h : ShmBackend) (hh : h ∈ s.readers) : h.epoch = s.creator.epoch :=
        (hs.readers h hh).1.trans hzero.symm
      refine ⟨fun h hh d _ => ?_, fun h hh d _ hne => ?_, fun d _ hepoch hpresent => ?_⟩
      · exact readView_congr ((hs.readers h hh).2.trans hs.creator.symm) (hepochs h hh)
      · obtain rfl | hh := mem_cons.mp hh
        · exact readView_of_ne hne
        · refine readView_of_ne ?_
          rw [hepochs h hh]
          exact hne
      · exact current_of_epoch hs (fun h hh _ => hepochs h hh) hepoch hpresent
    · refine ⟨fun h hh => ?_, fun h hh d _ hne => ?_, fun d _ hepoch hpresent => ?_⟩
      · rw [hnone] at hh
        cases hh
      · rw [hnone] at hh
        obtain rfl := mem_singleton.mp hh
        exact readView_of_ne hne
      · refine current_of_epoch hs (fun h hh => ?_) hepoch hpresent
        rw [hnone] at hh
        cases hh
    · have hall (h : ShmBackend) (hh : h ∈ s.creator :: s.readers) (d : ShmBlobRef) (hd : d ∈ s.minted) :
          s.readView d h = .ok none := by
        by_cases hpresent : s.arena.Present d
        · obtain ⟨hfirst, hcurrent⟩ := hgone d hd hpresent
          obtain rfl | hh := mem_cons.mp hh
          · exact readView_of_ne hcurrent
          · refine readView_of_ne ?_
            rw [(hs.readers h hh).1]
            exact hfirst
        · exact readView_of_not_present (hs.minted d hd) hpresent
      refine ⟨fun h hh d hd => ?_, fun h hh d hd _ => hall h hh d hd, fun d hd hepoch hpresent => ?_⟩
      · exact (hall h (mem_cons_of_mem _ hh) d hd).trans
          (hall s.creator mem_cons_self d hd).symm
      · exact absurd hepoch (hgone d hd hpresent).2

theorem readers_agree_small : ∃ s, create 48 = .ok s ∧ (s.run [.openRegion, .write [7]]).Agrees :=
  have hcreate : create 48 = .ok { region := replicate 48 0, creator := {} } := rfl
  ⟨_, hcreate, (readers_agree_iff hcreate [.openRegion, .write [7]]).mpr (.inl (by decide))⟩

/-- A reader is opened, and the creator writes after it has advanced its epoch. -/
def advanced : List SharedOp :=
  [.openRegion, .advanceEpoch, .write [7]]

theorem readers_disagree : ¬ ∀ (size : Fin (2 ^ 63)) (s : Shared) (ops : List SharedOp),
    create size = .ok s → (s.run ops).Agrees := by
  intro h
  let s : Shared := { region := replicate 48 0, creator := {} }
  let d : ShmBlobRef := ⟨0, 1, 1, 1, fnv1a64 [7], .shm⟩
  have hagrees : (s.run advanced).Agrees := h 48 s advanced rfl
  have hd : d ∈ (s.run advanced).minted := by decide
  have hsame := hagrees.same {} (by decide) d hd
  have hreader : ((s.run advanced).readView d {}).toOption = some none := by decide
  have hcreator : ((s.run advanced).readView d (s.run advanced).creator).toOption = some (some [7]) := by
    decide
  rw [hsame, hcreator] at hreader
  cases hreader

end Shared

end LazilyPy.Ipc

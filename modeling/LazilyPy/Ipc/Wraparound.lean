import LazilyPy.Ipc.Arena

/-!
# Reads of an arena that wraps around
-/

namespace LazilyPy.Ipc

open List

open Buffer (slice overwrite)

structure Write where
  epoch : ℕ
  payload : List UInt8
  epoch_lt : epoch < 2 ^ 64

namespace ShmBlobArena

variable {s : ShmBlobArena} {blob : Blob} {d : ShmBlobRef} {w : Write}

def write (w : Write) (s : ShmBlobArena) : Except Raised ShmBlobRef × ShmBlobArena :=
  s.writeBlob w.epoch w.payload

def run (s : ShmBlobArena) (ops : List Write) : ShmBlobArena :=
  ops.foldl (fun s w => (s.write w).2) s

theorem run_concat (s : ShmBlobArena) (ops : List Write) (w : Write) : s.run (ops ++ [w]) = ((s.run ops).write w).2 :=
  foldl_concat ..

theorem valid_run (hs : s.Valid) (ops : List Write) : (s.run ops).Valid := by
  induction ops using reverseRecOn with
  | nil => exact hs
  | append_singleton ops w ih =>
    rw [run_concat]
    exact ih.writeBlob w.epoch w.payload

/-- What a write of a run does. -/
theorem write_cases (hs : s.Valid) (w : Write) :
    (∃ error, (s.write w).1 = .error (.arena error) ∧ (s.write w).2.buffer = s.buffer) ∨
    ∃ (blob : Blob) (header : List UInt8), blob.header = some header ∧ blob.payload = w.payload ∧
      blob.offset + blob.size ≤ s.capacity ∧ (s.write w).1 = .ok blob.descriptor ∧
      (s.write w).2.buffer = overwrite s.buffer blob.offset (header ++ blob.payload) := by
  obtain h | ⟨header, hheader, hbounds, hok, hbuffer⟩ | ⟨hepoch, -⟩ := writeBlob_cases hs w.epoch w.payload
  · exact .inl h
  · exact .inr ⟨s.nextBlob w.epoch w.payload, header, hheader, rfl, hbounds, hok, hbuffer⟩
  · exact absurd w.epoch_lt (by omega)

/-- A write that returns puts its blob into the buffer. -/
theorem holds_write (hs : s.Valid) (h : (s.write w).1 = .ok d) :
    ∃ blob, d = blob.descriptor ∧ blob.payload = w.payload ∧ Holds blob (s.write w).2 := by
  obtain ⟨error, herror, -⟩ | ⟨blob, header, hheader, hpayload, hbounds, hok, hbuffer⟩ := write_cases hs w
  · rw [h] at herror
    cases herror
  · rw [h] at hok
    exact ⟨blob, Except.ok.inj hok, hpayload, holds_of_write hheader hbounds hbuffer⟩

/-- Nothing that returns from now on is written over `d`. -/
def Spares (d : ShmBlobRef) (s : ShmBlobArena) (ops : List Write) : Prop :=
  ∀ before w after d', ops = before ++ w :: after → ((s.run before).write w).1 = .ok d' → d.Apart d'

/-- A blob stays in the buffer until something is written over it. -/
theorem holds_run (hs : s.Valid) (h : Holds blob s) {ops : List Write}
    (hspares : Spares blob.descriptor s ops) : Holds blob (s.run ops) := by
  induction ops using reverseRecOn with
  | nil => exact h
  | append_singleton ops w ih =>
    have hbefore : Holds blob (s.run ops) := by
      refine ih fun before x after d' heq => hspares before x (after ++ [w]) d' ?_
      rw [heq, append_assoc, cons_append]
    rw [run_concat]
    obtain ⟨error, -, hbuffer⟩ | ⟨blob', header, hheader, -, hbounds, hok, hbuffer⟩ := write_cases (valid_run hs ops) w
    · obtain ⟨own, hown, hroom, hslice⟩ := hbefore
      refine ⟨own, hown, ?_, ?_⟩
      · rwa [capacity, hbuffer]
      · rwa [hbuffer]
    · exact hbefore.of_write hheader hbounds (hspares ops w [] _ rfl hok) hbuffer

theorem run_append (s : ShmBlobArena) (ops ops' : List Write) : s.run (ops ++ ops') = (s.run ops).run ops' :=
  foldl_append ..

def ReadsInside (d : ShmBlobRef) (s : ShmBlobArena) : Prop :=
  (∃ bytes, s.readBlob d = .ok bytes ∧ 0 ≤ d.offset ∧ 0 ≤ d.len ∧ d.offset + (headerLen + d.len) ≤ s.capacity ∧
    bytes = slice s.buffer (d.offset.toNat + headerLen) d.len.toNat) ∨
  ∃ error, s.readBlob d = .error (.arena error)

/-- What a write may touch: the extent of its blob, inside of the buffer. If it raises, it changes no
byte, and what could be read still can. -/
def WritesInside (w : Write) (s : ShmBlobArena) : Prop :=
  (s.write w).2.capacity = s.capacity ∧
  (∀ d, (s.write w).1 = .ok d → 0 ≤ d.offset ∧ d.offset + (headerLen + d.len) ≤ s.capacity ∧
    ∀ i : ℕ, (i < d.offset ∨ d.offset + (headerLen + d.len) ≤ i) → (s.write w).2.buffer[i]? = s.buffer[i]?) ∧
  ∀ raised, (s.write w).1 = .error raised → (s.write w).2.buffer = s.buffer ∧
      ∀ d bytes, s.readBlob d = .ok bytes → (s.write w).2.readBlob d = .ok bytes

/-- A read of `d`, of a payload that was written, returns as many bytes with the same checksum, or an
error of the arena. -/
def ReadsAlike (d : ShmBlobRef) (payload : List UInt8) (s : ShmBlobArena) : Prop :=
  (∃ bytes, s.readBlob d = .ok bytes ∧ bytes.length = payload.length ∧ fnv1a64 bytes = fnv1a64 payload) ∨
  ∃ error, s.readBlob d = .error (.arena error)

theorem readsInside (d : ShmBlobRef) (s : ShmBlobArena) : ReadsInside d s := by
  obtain ⟨bytes, hok, hoffset, hlen, hbounds, hbytes, -⟩ | herror := readBlob_cases d s
  · exact .inl ⟨bytes, hok, hoffset, hlen, by omega, hbytes⟩
  · exact .inr herror

theorem readBlob_congr {s' : ShmBlobArena} (h : s'.buffer = s.buffer) (d : ShmBlobRef) :
    s'.readBlob d = s.readBlob d := by
  unfold readBlob capacity
  rw [h]

theorem writesInside (hs : s.Valid) (w : Write) : WritesInside w s := by
  refine ⟨capacity_writeBlob hs w.epoch w.payload, ?_⟩
  obtain ⟨error, herror, hbuffer⟩ | ⟨blob, header, hheader, -, hbounds, hok, hbuffer⟩ := write_cases hs w
  · refine ⟨fun d h => ?_, fun raised _ => ⟨hbuffer, fun d bytes h => ?_⟩⟩
    · rw [herror] at h
      cases h
    · rw [readBlob_congr hbuffer, h]
  · refine ⟨fun d h => ?_, fun raised h => ?_⟩
    · rw [hok] at h
      obtain rfl := Except.ok.inj h
      have hsize : (header ++ blob.payload).length = blob.size := by
        rw [length_append, length_header hheader, Blob.size]
      have hextent : (blob.descriptor.offset : ℤ) + (headerLen + blob.descriptor.len) =
          (blob.offset + blob.size : ℕ) := by
        simp [Blob.descriptor, Blob.size]
      refine ⟨Int.natCast_nonneg _, ?_, fun i hi => ?_⟩
      · rw [hextent]
        exact_mod_cast hbounds
      · rw [hextent] at hi
        rw [hbuffer]
        refine Buffer.getElem?_overwrite_of_outside ?_ ?_
        · rw [hsize]
          exact hbounds
        · rw [hsize]
          have hoffset : blob.descriptor.offset = blob.offset := rfl
          omega
    · rw [hok] at h
      cases h

/-- A read of the descriptor of a blob, whatever has been written since. -/
theorem readsAlike (blob : Blob) (s : ShmBlobArena) : ReadsAlike blob.descriptor blob.payload s := by
  obtain ⟨bytes, hok, -, -, -, -, hlen, hchecksum⟩ | herror := readBlob_cases blob.descriptor s
  · refine .inl ⟨bytes, hok, ?_, ?_⟩
    · exact Int.ofNat_inj.mp hlen
    · exact Int.ofNat_inj.mp hchecksum
  · exact .inr herror

/-- Reads are safe in every run of writes, on an arena over any buffer that is large enough. -/
theorem arena_reads {buffer : Bytearray} {arena : ShmBlobArena}
    (hnew : ShmBlobArena.new buffer = .ok arena) (ops : List Write) :
    (∀ before w after d, ops = before ++ w :: after → ((arena.run before).write w).1 = .ok d →
      (Spares d (arena.run (before ++ [w])) after → (arena.run ops).readBlob d = .ok w.payload) ∧
      ReadsAlike d w.payload (arena.run ops)) ∧
    (∀ before w after, ops = before ++ w :: after → WritesInside w (arena.run before)) ∧
    ∀ d, ReadsInside d (arena.run ops) := by
  have hvalid := Valid.new hnew
  refine ⟨?_, ?_, fun d => readsInside d _⟩
  · intro before w after d heq hok
    have hs := valid_run hvalid before
    obtain ⟨blob, rfl, hpayload, hholds⟩ := holds_write hs hok
    refine ⟨fun hspares => ?_, hpayload ▸ readsAlike blob _⟩
    have hrun : arena.run ops = (arena.run (before ++ [w])).run after := by
      rw [heq, ← run_append, append_assoc, singleton_append]
    rw [hrun, ← hpayload]
    refine readBlob_of_holds (holds_run (valid_run hvalid _) ?_ hspares) .shm
    rw [run_concat]
    exact hholds
  · intro before w after heq
    exact writesInside (valid_run hvalid before) w

theorem arena_reads_small : ∃ buffer arena, ShmBlobArena.new buffer = .ok arena ∧
      ∀ d, ReadsInside d (arena.run [⟨0, [7], by decide⟩]) :=
  have hnew : ShmBlobArena.new ⟨replicate 41 0, by decide⟩ = .ok ⟨replicate 41 0, 0, 1⟩ := by decide
  ⟨_, _, hnew, (arena_reads hnew [⟨0, [7], by decide⟩]).2.2⟩

end ShmBlobArena

end LazilyPy.Ipc

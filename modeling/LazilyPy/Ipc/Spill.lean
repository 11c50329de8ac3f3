import LazilyPy.Ipc.Transport

/-!
# What a spilled message resolves to

The payloads of one message are written one after another. A later one may go where an earlier one is:
the writes are laid out beforehand, from their lengths and from where the arena stands.
-/

namespace LazilyPy.Ipc

open List hiding comp_map

open Buffer (slice overwrite Patch patched lastAt)

/-! ### The layout -/

def layout (capacity epoch : ℕ) : ℕ → ℕ → List (List UInt8) → List Blob
  | _, _, [] => []
  | cursor, generation, payload :: payloads =>
    let size := headerLen + payload.length
    if capacity < size then layout capacity epoch cursor generation payloads
    else
      let offset := if capacity < cursor + size then 0 else cursor
      if generation = u64Mask then layout capacity epoch offset generation payloads
      else
        ⟨offset, generation, epoch, payload⟩ ::
          layout capacity epoch (if offset + size = capacity then 0 else offset + size) (generation + 1) payloads

def BlobBackend.layout (payloads : List (List UInt8)) (b : BlobBackend) : List Blob :=
  if b.closed then []
  else
    Ipc.layout b.arena.capacity b.epoch b.arena.writeOffset b.arena.nextGeneration payloads

namespace Blob

def patch (blob : Blob) : Patch UInt8 where
  offset := blob.offset
  bytes := blob.header.getD [] ++ blob.payload

def stamped (kind : BlobBackendKind) (blob : Blob) : ShmBlobRef :=
  { blob.descriptor with backend := kind }

/-- Each byte of a blob is the last one that is put there, or the same. -/
def Survives (blobs : List Blob) (blob : Blob) : Prop :=
  ∀ i < blob.patch.bytes.length, lastAt (blobs.map patch) (blob.offset + i) = blob.patch.bytes[i]?

end Blob

def Site.wanted (threshold : ℤ) (site : Site) : Option (List UInt8) :=
  site.inline?.filter fun data => threshold ≤ data.length

variable {α β : Type} {b b' : BlobBackend} {threshold : ℤ} {site : Site} {sites sites' : List Site}
  {blob : Blob} {blobs : List Blob} {data : List UInt8}

/-! ### Writes of a backend -/

namespace BlobBackend

structure Follows (b b' : BlobBackend) : Prop where
  valid : b'.arena.Valid
  capacity : b'.arena.capacity = b.arena.capacity
  kind : b'.kind = b.kind
  epoch : b'.epoch = b.epoch
  closed : b'.closed = b.closed

theorem Follows.refl (hs : b.arena.Valid) : b.Follows b :=
  ⟨hs, rfl, rfl, rfl, rfl⟩

theorem Follows.trans {b'' : BlobBackend} (h : b.Follows b') (h' : b'.Follows b'') : b.Follows b'' :=
  ⟨h'.valid, h'.capacity.trans h.capacity, h'.kind.trans h.kind, h'.epoch.trans h.epoch, h'.closed.trans h.closed⟩

theorem follows_write (hs : b.arena.Valid) (data : List UInt8) : b.Follows (b.write data).2 := by
  rw [write]
  split
  · exact .refl hs
  · exact ⟨hs.writeBlob b.epoch data, ShmBlobArena.capacity_writeBlob hs b.epoch data, rfl, rfl, rfl⟩

theorem Reachable.valid (h : Reachable b) : b.arena.Valid := by
  induction h with
  | create kind hnew => exact ShmBlobArena.Valid.new hnew
  | fromArena _ ih => exact ih
  | writeBlob _ epoch payload ih => exact ih.writeBlob epoch payload
  | write _ data ih => exact (follows_write ih data).valid
  | advanceEpoch _ ih => exact ih
  | close _ _ ih => exact ih

/-- What a write does, as the layout has it. -/
theorem write_cases (hs : b.arena.Valid) (data : List UInt8) : (∃ error, (b.write data).1 = .error (.arena error) ∧
      (b.write data).2.arena.buffer = b.arena.buffer ∧
      ∀ payloads, b.layout (data :: payloads) = (b.write data).2.layout payloads) ∨
    (∃ blob : Blob, blob.header.isSome ∧ blob.payload = data ∧ blob.epoch = b.epoch ∧
      blob.offset + blob.size ≤ b.arena.capacity ∧
      (b.write data).1 = .ok (blob.stamped b.kind) ∧
      (b.write data).2.arena.buffer = overwrite b.arena.buffer blob.patch.offset blob.patch.bytes ∧
      ∀ payloads, b.layout (data :: payloads) = blob :: (b.write data).2.layout payloads) ∨
    (2 ^ 64 ≤ b.epoch ∧ (b.write data).1 = .error .struct ∧ ∀ payloads, b.layout (data :: payloads) ≠ []) := by
  by_cases hclosed : b.closed
  · refine .inl ⟨.closed, ?_⟩
    rw [write, if_pos hclosed]
    exact ⟨rfl, rfl, fun payloads => by rw [layout, layout, if_pos hclosed, if_pos hclosed]⟩
  have hfollows := follows_write hs data
  have hlayout (payloads : List (List UInt8)) : (b.write data).2.layout payloads =
      Ipc.layout b.arena.capacity b.epoch (b.write data).2.arena.writeOffset
        (b.write data).2.arena.nextGeneration payloads := by
    rw [layout, hfollows.closed, if_neg hclosed, hfollows.capacity, hfollows.epoch]
  have hwrite : b.write data = ((b.arena.writeBlob b.epoch data).1.map fun d => { d with backend := b.kind },
        { b with arena := (b.arena.writeBlob b.epoch data).2 }) := by
    rw [write, if_neg hclosed]
  have hmin : headerLen ≤ b.arena.capacity := by
    have := hs.minCapacity_le
    unfold minCapacity at this
    omega
  by_cases hlarge : b.arena.maxBlobLen < data.length
  · have heq : b.arena.writeBlob b.epoch data = (.error (.arena _), b.arena) := if_pos hlarge
    refine .inl ⟨_, by rw [hwrite, heq]; rfl, by rw [hwrite, heq], fun payloads => ?_⟩
    unfold ShmBlobArena.maxBlobLen at hlarge
    rw [hlayout, hwrite, heq, layout, if_neg hclosed, Ipc.layout]
    exact if_pos (by omega)
  have hsize : headerLen + data.length ≤ b.arena.capacity := by
    unfold ShmBlobArena.maxBlobLen at hlarge
    omega
  by_cases hgeneration : b.arena.nextGeneration = u64Mask
  · have heq : b.arena.writeBlob b.epoch data = (.error (.arena .generationOverflow),
          { b.arena with writeOffset := b.arena.place (headerLen + data.length) }) := by
      rw [ShmBlobArena.writeBlob, if_neg hlarge]
      exact if_pos hgeneration
    refine .inl ⟨_, by rw [hwrite, heq]; rfl, by rw [hwrite, heq], fun payloads => ?_⟩
    rw [hlayout, hwrite, heq, layout, if_neg hclosed, Ipc.layout, if_neg (by omega), if_pos hgeneration]
    rfl
  refine .inr ?_
  have hnext (payloads : List (List UInt8)) : b.layout (data :: payloads) = b.arena.nextBlob b.epoch data ::
        Ipc.layout b.arena.capacity b.epoch
          (if b.arena.place (headerLen + data.length) + (headerLen + data.length) = b.arena.capacity
            then 0 else b.arena.place (headerLen + data.length) + (headerLen + data.length))
          (b.arena.nextGeneration + 1) payloads := by
    rw [layout, if_neg hclosed, Ipc.layout, if_neg (by omega), if_neg hgeneration]
    rfl
  cases hheader : (b.arena.nextBlob b.epoch data).header with
  | none =>
    have heq : (b.arena.writeBlob b.epoch data).1 = .error .struct := by
      simp only [ShmBlobArena.nextBlob] at hheader
      rw [ShmBlobArena.writeBlob, if_neg hlarge, if_neg hgeneration]
      simp only [hheader]
    refine .inr ⟨?_, by rw [hwrite, heq]; rfl, fun payloads h => ?_⟩
    · obtain ⟨error, herror, -⟩ | ⟨header, hsome, -⟩ | ⟨hepoch, -⟩ := ShmBlobArena.writeBlob_cases hs b.epoch data
      · rw [heq] at herror
        cases herror
      · rw [hheader] at hsome
        cases hsome
      · exact hepoch
    · rw [hnext] at h
      cases h
  | some header =>
    have hplace := ShmBlobArena.place_le hsize
    have hlen := ShmBlobArena.length_header hheader
    have hpatch : (b.arena.nextBlob b.epoch data).patch =
        ⟨b.arena.place (headerLen + data.length), header ++ data⟩ := by
      rw [Blob.patch, hheader]
      rfl
    have heq : b.arena.writeBlob b.epoch data = (.ok (b.arena.nextBlob b.epoch data).descriptor,
          { buffer := overwrite (overwrite b.arena.buffer (b.arena.place (headerLen + data.length))
              header) (b.arena.place (headerLen + data.length) + headerLen) data
            writeOffset :=
              if b.arena.place (headerLen + data.length) + (headerLen + data.length) = b.arena.capacity then 0
              else b.arena.place (headerLen + data.length) + (headerLen + data.length)
            nextGeneration := b.arena.nextGeneration + 1 }) := by
      simp only [ShmBlobArena.nextBlob] at hheader ⊢
      rw [ShmBlobArena.writeBlob, if_neg hlarge]
      simp only [if_neg hgeneration, hheader]
    refine .inl ⟨b.arena.nextBlob b.epoch data, by rw [hheader]; rfl, rfl, rfl, hplace, ?_, ?_, fun payloads => ?_⟩
    · rw [hwrite, heq]
      rfl
    · rw [hwrite, heq, hpatch]
      rw [← hlen]
      refine Buffer.overwrite_append ?_
      rw [length_append, hlen]
      exact hplace
    · rw [hnext, hlayout, hwrite, heq]

end BlobBackend

/-! ### The spill of one site -/

def exec (x : Spill α) (b : BlobBackend) : Except Raised α × BlobBackend :=
  x.run.run b

variable {x : Spill α} {descriptor : ShmBlobRef} {f : α → Spill (α × ℕ)} {router : BlobRouter}

theorem exec_bind_ok {f : α → Spill β} {a : α} (h : exec x b = (.ok a, b')) :
    exec (x >>= f) b = exec (f a) b' := by
  unfold exec at h ⊢
  simp only [ExceptT.run_bind, StateT.run_bind]
  rw [h]
  rfl

theorem exec_bind_error {f : α → Spill β} {raised : Raised} (h : exec x b = (.error raised, b')) :
    exec (x >>= f) b = (.error raised, b') := by
  unfold exec at h ⊢
  simp only [ExceptT.run_bind, StateT.run_bind]
  rw [h]
  rfl

theorem exec_map (x : Spill α) (f : α → β) (b : BlobBackend) :
    exec (f <$> x) b = ((exec x b).1.map f, (exec x b).2) := by
  obtain ⟨written, b', hx⟩ : ∃ written b', exec x b = (written, b') := ⟨_, _, rfl⟩
  rw [map_eq_pure_bind, hx]
  cases written with
  | ok a => exact exec_bind_ok hx
  | error raised => exact exec_bind_error hx

theorem exec_tryCatch_ok {handle : Raised → Spill α} {a : α} (h : exec x b = (.ok a, b')) :
    exec (tryCatch x handle) b = (.ok a, b') := by
  unfold exec at h ⊢
  simp only [ExceptT.run_tryCatch, StateT.run_bind]
  rw [h]
  rfl

theorem exec_tryCatch_error {handle : Raised → Spill α} {raised : Raised} (h : exec x b = (.error raised, b')) :
    exec (tryCatch x handle) b = exec (handle raised) b' := by
  unfold exec at h ⊢
  simp only [ExceptT.run_tryCatch, StateT.run_bind]
  rw [h]
  rfl

theorem exec_spillData (data : List UInt8) (threshold : ℤ) (b : BlobBackend) : exec (spillData data threshold) b =
      if threshold ≤ data.length then
        match b.write data with
        | (.ok descriptor, b') => (.ok (some descriptor), b')
        | (.error (.arena _), b') => (.ok none, b')
        | (.error .struct, b') => (.error .struct, b')
      else (.ok none, b) := by
  unfold spillData
  split
  · have hexec : exec (BlobBackend.write data) b = b.write data := rfl
    have hmap := exec_map (BlobBackend.write data) some b
    rw [hexec] at hmap
    match hwrite : b.write data, hmap with
    | (.ok descriptor, b'), hmap => exact exec_tryCatch_ok hmap
    | (.error (.arena error), b'), hmap => exact exec_tryCatch_error hmap
    | (.error .struct, b'), hmap => exact exec_tryCatch_error hmap
  · rfl

/-- The spill of a site, which every part of a message does to its sites. -/
def spillSite (threshold : ℤ) (site : Site) : Spill (Site × ℕ) :=
  match site with
  | .value payload => replaceSpilled site .value <$> spillValue payload threshold
  | .state state => replaceSpilled site .state <$> spillState state threshold

def Site.place (data : List UInt8) (site : Site) (written : Option ShmBlobRef) : Site × ℕ :=
  written.elim (site, 0) fun descriptor =>
    if data = [] then (site, 0) else (site.share descriptor, data.length)

theorem Site.place_of_nil (site : Site) (h : data = []) : site.place data (some descriptor) = (site, 0) :=
  if_pos h

theorem Site.place_of_ne_nil (site : Site) (h : data ≠ []) :
    site.place data (some descriptor) = (site.share descriptor, data.length) :=
  if_neg h

theorem spillValue_inline (data : List UInt8) (threshold : ℤ) : spillValue (.inline data) threshold =
      (fun written => written.elim (.inline data, 0) fun d => (.sharedBlob d, data.length)) <$>
        spillData data threshold := by
  unfold spillValue
  rw [map_eq_pure_bind]
  refine bind_congr fun written => ?_
  cases written with
  | none => rfl
  | some descriptor => rfl

theorem spillState_payload (data : List UInt8) (threshold : ℤ) : spillState (.payload data) threshold =
      (fun written => written.elim (.payload data, 0) fun d => (.sharedBlob d, data.length)) <$>
        spillData data threshold := by
  unfold spillState
  rw [map_eq_pure_bind]
  refine bind_congr fun written => ?_
  cases written with
  | none => rfl
  | some descriptor => rfl

theorem spillSite_of_inline (h : site.inline? = some data) :
    spillSite threshold site = site.place data <$> spillData data threshold := by
  have hplace {σ : Type} (wrap : σ → Site) (same : σ) (share : ShmBlobRef → σ)
      (hshare : ∀ d, wrap (share d) = site.share d) :
      (replaceSpilled site wrap ∘ fun written : Option ShmBlobRef =>
        written.elim (same, 0) fun d => (share d, data.length)) = site.place data := by
    funext written
    cases written with
    | none => rfl
    | some d =>
      cases data with
      | nil => rfl
      | cons byte data =>
        exact congrArg (·, _) (hshare d)
  match site, h with
  | .value (.inline data), rfl =>
    rw [spillSite, spillValue_inline, ← comp_map, hplace]
    exact fun _ => rfl
  | .state (.payload data), rfl =>
    rw [spillSite, spillState_payload, ← comp_map, hplace]
    exact fun _ => rfl

theorem spillSite_of_none (h : site.inline? = none) : spillSite threshold site = pure (site, 0) := by
  match site, h with
  | .value (.sharedBlob _), _ => rfl
  | .state (.sharedBlob _), _ => rfl
  | .state .opaqueState, _ => rfl

/-- What the spill of a site does. -/
theorem exec_spillSite (threshold : ℤ) (site : Site) (b : BlobBackend) : exec (spillSite threshold site) b =
      match site.wanted threshold with
      | none => (.ok (site, 0), b)
      | some data =>
        match b.write data with
        | (.ok descriptor, b') => (.ok (site.place data (some descriptor)), b')
        | (.error (.arena _), b') => (.ok (site, 0), b')
        | (.error .struct, b') => (.error .struct, b') := by
  cases hinline : site.inline? with
  | none =>
    rw [spillSite_of_none hinline, Site.wanted, hinline]
    rfl
  | some data =>
    rw [spillSite_of_inline hinline, exec_map, exec_spillData, Site.wanted, hinline, Option.filter_some]
    by_cases hlarge : threshold ≤ data.length
    · rw [if_pos hlarge, if_pos (decide_eq_true hlarge)]
      dsimp only
      match b.write data with
      | (.ok descriptor, b') => rfl
      | (.error (.arena error), b') => rfl
      | (.error .struct, b') => rfl
    · rw [if_neg hlarge, if_neg (by simpa using hlarge)]
      rfl

/-! ### The spill of a message -/

def SpillsSite (threshold : ℤ) (site? : α → Option Site) (f : α → Spill (α × ℕ)) (x : α) : Prop :=
  match site? x with
  | none => f x = pure (x, 0)
  | some site => Prod.map site? id <$> f x = Prod.map some id <$> spillSite threshold site

theorem spillEach_sites {site? : α → Option Site} (hf : ∀ x, SpillsSite threshold site? f x) (xs : List α) :
    Prod.map (filterMap site?) id <$> spillEach f xs = spillEach (spillSite threshold) (xs.filterMap site?) := by
  induction xs with
  | nil => rfl
  | cons x xs ih =>
    have hx := hf x
    unfold SpillsSite at hx
    cases hsite : site? x with
    | none =>
      rw [hsite] at hx
      dsimp only at hx
      rw [filterMap_cons_none hsite, ← ih, spillEach, hx, pure_bind, map_bind]
      rw [map_eq_pure_bind]
      refine bind_congr fun r => ?_
      rw [map_pure, Prod.map, filterMap_cons_none hsite, Nat.zero_add]
      rfl
    | some site =>
      rw [hsite] at hx
      dsimp only at hx
      rw [filterMap_cons_some hsite, spillEach, spillEach, ← ih]
      calc _ = (do
            let r ← Prod.map site? id <$> f x
            let rs ← Prod.map (filterMap site?) id <$> spillEach f xs
            return (r.1.toList ++ rs.1, r.2 + rs.2)) := by
            rw [map_bind, bind_map_left]
            refine bind_congr fun r => ?_
            rw [map_bind, bind_map_left]
            refine bind_congr fun rs => ?_
            have hcons : (r.1 :: rs.1).filterMap site? = (site? r.1).toList ++ rs.1.filterMap site? := by
              rw [filterMap_cons]
              cases site? r.1 with
              | none => rfl
              | some site => rfl
            rw [map_pure, Prod.map, hcons]
            rfl
        _ = _ := by
            rw [hx, bind_map_left]
            rfl

/-- A part of a message is put into its place. -/
theorem spillsSite_of_replace {σ : Type} {site? : α → Option Site} {x : α} (y : Spill (σ × ℕ)) {put : σ → α}
    {wrap : σ → Site} (hx : site? x = some site) (hput : ∀ v, site? (put v) = some (wrap v))
    (hf : f x = replaceSpilled x put <$> y) (hsite : spillSite threshold site = replaceSpilled site wrap <$> y) :
    SpillsSite threshold site? f x := by
  rw [SpillsSite, hx]
  dsimp only
  rw [hf, hsite, ← comp_map, ← comp_map]
  congr 1
  funext r
  change Prod.map site? id (replaceSpilled x put r) = Prod.map some id (replaceSpilled site wrap r)
  unfold replaceSpilled
  split
  · rw [Prod.map, hput]
    rfl
  · rw [Prod.map, hx]
    rfl

theorem spillsSite_node (threshold : ℤ) (node : NodeSnapshot) :
    SpillsSite threshold (some ∘ NodeSnapshot.site) (spillNode threshold) node :=
  spillsSite_of_replace (spillState node.state threshold) rfl (fun _ => rfl) rfl rfl

theorem spillsSite_op (threshold : ℤ) (op : DeltaOp) : SpillsSite threshold DeltaOp.site? (spillOp threshold) op := by
  cases op with
  | cellSet node payload =>
    exact spillsSite_of_replace (spillValue payload threshold) rfl (fun _ => rfl) rfl rfl
  | slotValue node payload =>
    exact spillsSite_of_replace (spillValue payload threshold) rfl (fun _ => rfl) rfl rfl
  | queuePush node payload =>
    exact spillsSite_of_replace (spillValue payload threshold) rfl (fun _ => rfl) rfl rfl
  | nodeAdd node typeTag state key =>
    exact spillsSite_of_replace (spillState state threshold) rfl (fun _ => rfl) rfl rfl
  | invalidate node => rfl
  | nodeRemove node => rfl
  | edgeAdd dependent dependency => rfl
  | edgeRemove dependent dependency => rfl
  | queuePop node => rfl
  | queueClose node => rfl

theorem spillsSite_crdtOp (threshold : ℤ) (op : CrdtOp) :
    SpillsSite threshold (some ∘ CrdtOp.site) (spillCrdtOp threshold) op :=
  spillsSite_of_replace (spillValue op.state threshold) rfl (fun _ => rfl) rfl rfl

def IpcMessage.restSites (message : IpcMessage) : List Site :=
  match message.snapshot, message.delta with
  | some _, _ => message.delta.elim [] Delta.sites ++ message.crdtSync.elim [] CrdtSync.sites
  | none, some _ => message.crdtSync.elim [] CrdtSync.sites
  | none, none => []

theorem IpcMessage.sites_eq (message : IpcMessage) : message.sites = message.spilledSites ++ message.restSites := by
  obtain ⟨snapshot, delta, crdtSync⟩ := message
  match snapshot, delta, crdtSync with
  | some snapshot, _, _ => exact append_assoc ..
  | none, some delta, _ => rfl
  | none, none, some sync => exact (append_nil _).symm
  | none, none, none => rfl

/-- The sites of a part are those of what it is put into. -/
theorem map_sites {part : Spill (α × ℕ)} {whole : Spill (β × ℕ)} (put : α → β)
    {out : α → List Site} {out' : β → List Site} (g : List Site → List Site)
    (hwhole : whole = part >>= fun r => pure (put r.1, r.2))
    (hput : ∀ a, out' (put a) = g (out a)) :
    Prod.map out' id <$> whole = Prod.map g id <$> Prod.map out id <$> part := by
  rw [hwhole, ← comp_map, map_bind, map_eq_pure_bind]
  refine bind_congr fun r => ?_
  rw [map_pure, Prod.map, hput]
  rfl

theorem spillSnapshot_sites (snapshot : Snapshot) (threshold : ℤ) :
    Prod.map Snapshot.sites id <$> spillSnapshot snapshot threshold =
      spillEach (spillSite threshold) snapshot.sites := by
  have h := spillEach_sites (spillsSite_node threshold) snapshot.nodes
  simp only [filterMap_eq_map] at h
  rw [Snapshot.sites, ← h]
  exact (map_sites (fun nodes => (⟨nodes⟩ : Snapshot)) id rfl fun _ => rfl).trans (id_map _)

theorem spillDelta_sites (delta : Delta) (threshold : ℤ) : Prod.map Delta.sites id <$> spillDelta delta threshold =
      spillEach (spillSite threshold) delta.sites := by
  rw [Delta.sites, ← spillEach_sites (spillsSite_op threshold)]
  exact (map_sites (fun ops => (⟨ops⟩ : Delta)) id rfl fun _ => rfl).trans (id_map _)

theorem spillCrdtSync_sites (sync : CrdtSync) (threshold : ℤ) :
    Prod.map CrdtSync.sites id <$> spillCrdtSync sync threshold = spillEach (spillSite threshold) sync.sites := by
  have h := spillEach_sites (spillsSite_crdtOp threshold) sync.ops
  simp only [filterMap_eq_map] at h
  rw [CrdtSync.sites, ← h]
  exact (map_sites (fun ops => (⟨ops⟩ : CrdtSync)) id rfl fun _ => rfl).trans (id_map _)

/-- The spill of a message is that of its sites. -/
theorem spillMessage_sites (message : IpcMessage) (threshold : ℤ) :
    Prod.map IpcMessage.sites id <$> spillMessage message threshold = Prod.map (· ++ message.restSites) id <$>
        spillEach (spillSite threshold) message.spilledSites := by
  obtain ⟨snapshot, delta, crdtSync⟩ := message
  match snapshot, delta, crdtSync with
  | some snapshot, delta, crdtSync =>
    refine (map_sites (fun snapshot => (⟨some snapshot, delta, crdtSync⟩ : IpcMessage)) _ rfl fun _ => ?_).trans
      (congrArg (Functor.map _) (spillSnapshot_sites snapshot threshold))
    exact append_assoc ..
  | none, some delta, crdtSync =>
    exact (map_sites (fun delta => (⟨none, some delta, crdtSync⟩ : IpcMessage)) _ rfl fun _ => rfl).trans
      (congrArg (Functor.map _) (spillDelta_sites delta threshold))
  | none, none, some sync =>
    refine (map_sites (fun sync => (⟨none, none, some sync⟩ : IpcMessage)) _ rfl fun _ => ?_).trans
      (congrArg (Functor.map _) (spillCrdtSync_sites sync threshold))
    exact (append_nil _).symm
  | none, none, none => rfl

/-! ### What a spill does -/

/-- Which sites become which, and the blobs that are written on the way. -/
inductive Assigned (threshold : ℤ) (kind : BlobBackendKind) : List Site → List Blob → List Site → Prop
  | nil : Assigned threshold kind [] [] []
  | keep {sites : List Site} {blobs : List Blob} {sites' : List Site} (site : Site)
      (h : Assigned threshold kind sites blobs sites') :
      Assigned threshold kind (site :: sites) blobs (site :: sites')
  | empty {sites : List Site} {blobs : List Blob} {sites' : List Site} (site : Site) {blob : Blob}
      (hblob : blob.payload = [])
      (h : Assigned threshold kind sites blobs sites') :
      Assigned threshold kind (site :: sites) (blob :: blobs) (site :: sites')
  | share {sites : List Site} {blobs : List Blob} {sites' : List Site} {site : Site} {blob : Blob}
      (hblob : blob.payload ≠ []) (hsite : site.wanted threshold = some blob.payload)
      (h : Assigned threshold kind sites blobs sites') :
      Assigned threshold kind (site :: sites) (blob :: blobs) (site.share (blob.stamped kind) :: sites')

structure Blob.Written (b : BlobBackend) (blob : Blob) : Prop where
  isSome : blob.header.isSome
  bounds : blob.offset + blob.size ≤ b.arena.capacity
  epoch : blob.epoch = b.epoch

structure Spilled (threshold : ℤ) (b : BlobBackend) (sites : List Site) (blobs : List Blob)
    (sites' : List Site) (b' : BlobBackend) : Prop where
  follows : b.Follows b'
  assigned : Assigned threshold b.kind sites blobs sites'
  written : ∀ blob ∈ blobs, blob.Written b
  buffer : b'.arena.buffer = patched b.arena.buffer (blobs.map Blob.patch)

theorem Blob.Written.of_follows (hfollows : b.Follows b') (h : blob.Written b') : blob.Written b :=
  ⟨h.isSome, hfollows.capacity ▸ h.bounds, h.epoch.trans hfollows.epoch⟩

namespace Spilled

variable {b₁ : BlobBackend} {site' : Site}

theorem keep (site : Site) (hfollows : b.Follows b₁) (hbuffer : b₁.arena.buffer = b.arena.buffer)
    (h : Spilled threshold b₁ sites blobs sites' b') :
    Spilled threshold b (site :: sites) blobs (site :: sites') b' where
  follows := hfollows.trans h.follows
  assigned := .keep site (hfollows.kind ▸ h.assigned)
  written blob hblob := (h.written blob hblob).of_follows hfollows
  buffer := by rw [h.buffer, hbuffer]

theorem put (hfollows : b.Follows b₁) (hblob : blob.Written b)
    (hbuffer : b₁.arena.buffer = overwrite b.arena.buffer blob.patch.offset blob.patch.bytes)
    (h : Spilled threshold b₁ sites blobs sites' b')
    (hassigned : Assigned threshold b.kind sites blobs sites' →
      Assigned threshold b.kind (site :: sites) (blob :: blobs) (site' :: sites')) :
    Spilled threshold b (site :: sites) (blob :: blobs) (site' :: sites') b' where
  follows := hfollows.trans h.follows
  assigned := hassigned (hfollows.kind ▸ h.assigned)
  written other hother := by
    obtain rfl | hother := mem_cons.mp hother
    · exact hblob
    · exact (h.written other hother).of_follows hfollows
  buffer := by
    rw [h.buffer, hbuffer]
    rfl

end Spilled

theorem exec_spillEach_cons {x y : α} {n : ℕ} (xs : List α) (h : exec (f x) b = (.ok (y, n), b')) :
    exec (spillEach f (x :: xs)) b = ((exec (spillEach f xs) b').1.map fun r => (y :: r.1, n + r.2),
        (exec (spillEach f xs) b').2) := by
  rw [spillEach, exec_bind_ok h, ← exec_map, map_eq_pure_bind]

theorem layout_nil (b : BlobBackend) : b.layout [] = [] := by
  rw [BlobBackend.layout, layout, ite_self]

/-- What a spill does to the sites, and to the arena. -/
theorem spillSites_cases (hs : b.arena.Valid) (threshold : ℤ) (sites : List Site) :
    (∃ sites' total b', exec (spillEach (spillSite threshold) sites) b = (.ok (sites', total), b') ∧
      Spilled threshold b sites (b.layout (sites.filterMap (Site.wanted threshold))) sites' b') ∨
    (2 ^ 64 ≤ b.epoch ∧ b.layout (sites.filterMap (Site.wanted threshold)) ≠ [] ∧
      (exec (spillEach (spillSite threshold) sites) b).1 = .error .struct) := by
  induction sites generalizing b with
  | nil =>
    refine .inl ⟨[], 0, b, rfl, ?_⟩
    rw [filterMap_nil, layout_nil]
    exact ⟨.refl hs, .nil, fun _ h => absurd h not_mem_nil, rfl⟩
  | cons site sites ih =>
    have hsite := exec_spillSite threshold site b
    cases hwanted : site.wanted threshold with
    | none =>
      rw [hwanted] at hsite
      rw [filterMap_cons_none hwanted, exec_spillEach_cons sites hsite]
      obtain ⟨sites', total, b', hexec, hspilled⟩ | ⟨hepoch, hne, herror⟩ := ih hs
      · rw [hexec]
        exact .inl ⟨site :: sites', 0 + total, b', rfl, hspilled.keep site (.refl hs) rfl⟩
      · rw [herror]
        exact .inr ⟨hepoch, hne, rfl⟩
    | some data =>
      rw [hwanted] at hsite
      dsimp only at hsite
      rw [filterMap_cons_some hwanted]
      have hfollows := BlobBackend.follows_write hs data
      obtain ⟨written, b₁, hwrite⟩ : ∃ written b₁, b.write data = (written, b₁) := ⟨_, _, rfl⟩
      have hcases := BlobBackend.write_cases hs data
      rw [hwrite] at hsite hfollows hcases
      obtain ⟨error, herror, hbuffer, hlayout⟩ |
        ⟨blob, hsome, hpayload, hepoch, hbounds, hok, hbuffer, hlayout⟩ |
        ⟨hepoch, hraised, hne⟩ := hcases
      · obtain rfl : written = .error (.arena error) := herror
        rw [hlayout, exec_spillEach_cons sites hsite]
        obtain ⟨sites', total, b', hexec, hspilled⟩ | ⟨hepoch, hne, hstruct⟩ := ih hfollows.valid
        · rw [hexec]
          exact .inl ⟨site :: sites', 0 + total, b', rfl, hspilled.keep site hfollows hbuffer⟩
        · rw [hstruct]
          exact .inr ⟨hfollows.epoch ▸ hepoch, hne, rfl⟩
      · obtain rfl : written = .ok _ := hok
        rw [hlayout, exec_spillEach_cons sites hsite]
        obtain ⟨sites', total, b', hexec, hspilled⟩ | ⟨hlarge, -, hstruct⟩ := ih hfollows.valid
        · rw [hexec]
          refine .inl ⟨(site.place data (some (blob.stamped b.kind))).1 :: sites', _, b', rfl,
            hspilled.put hfollows ⟨hsome, hbounds, hepoch⟩ hbuffer fun h => ?_⟩
          by_cases hnil : data = []
          · rw [site.place_of_nil hnil]
            exact .empty site (hpayload.trans hnil) h
          · rw [site.place_of_ne_nil hnil]
            exact .share (hpayload ▸ hnil) (hpayload ▸ hwanted) h
        · rw [hstruct]
          exact .inr ⟨hfollows.epoch ▸ hlarge, cons_ne_nil _ _, rfl⟩
      · obtain rfl : written = .error .struct := hraised
        refine .inr ⟨hepoch, hne _, ?_⟩
        rw [spillEach, exec_bind_error hsite]

/-! ### What the sites resolve to -/

/-- What a site that has been spilled has to be: it resolves to the bytes that it has carried, and it
is the same if it has carried none, or few. -/
def Kept (threshold : ℤ) (router : BlobRouter) (site site' : Site) : Prop :=
  (∀ data, site.inline? = some data → site'.resolve router = .ok (some data)) ∧
    ((∀ data, site.inline? = some data → (data.length : ℤ) < threshold) → site' = site)

theorem resolve_of_inline (h : site.inline? = some data) :
    site.resolve router = .ok (some data) := by
  match site, h with
  | .value (.inline _), rfl => rfl
  | .state (.payload _), rfl => rfl

theorem resolve_share (site : Site) (descriptor : ShmBlobRef) :
    (site.share descriptor).resolve router = router.readView descriptor := by
  cases site with
  | value payload => rfl
  | state state => rfl

theorem kept_self (threshold : ℤ) (router : BlobRouter) (site : Site) : Kept threshold router site site :=
  ⟨fun _ h => resolve_of_inline h, fun _ => rfl⟩

theorem inline_of_wanted (h : site.wanted threshold = some data) :
    site.inline? = some data ∧ threshold ≤ data.length := by
  rw [Site.wanted, Option.filter_eq_some_iff] at h
  exact ⟨h.1, of_decide_eq_true h.2⟩

theorem kept_share_iff (h : site.wanted threshold = some data) :
    Kept threshold router site (site.share descriptor) ↔ router.readView descriptor = .ok (some data) := by
  obtain ⟨hinline, hlarge⟩ := inline_of_wanted h
  rw [Kept, resolve_share]
  constructor
  · exact fun hkept => hkept.1 data hinline
  · intro hread
    refine ⟨fun other hother => ?_, fun hsmall => ?_⟩
    · obtain rfl := Option.some.inj (hinline.symm.trans hother)
      exact hread
    · have := hsmall data hinline
      omega

/-- The sites are kept if the blobs are read back. -/
theorem forall₂_kept_iff {kind : BlobBackendKind} (h : Assigned threshold kind sites blobs sites') :
    Forall₂ (Kept threshold router) sites sites' ↔ ∀ blob ∈ blobs, blob.payload ≠ [] →
        router.readView (blob.stamped kind) = .ok (some blob.payload) := by
  induction h with
  | nil => simp
  | keep site h ih => rw [forall₂_cons, ih, and_iff_right (kept_self threshold router site)]
  | empty site hblob h ih =>
    rw [forall₂_cons, ih, and_iff_right (kept_self threshold router site), forall_mem_cons]
    exact (and_iff_right fun hne => absurd hblob hne).symm
  | share hblob hsite h ih =>
    rw [forall₂_cons, ih, kept_share_iff hsite, forall_mem_cons]
    exact and_congr_left fun _ => ⟨fun hread _ => hread, fun hread => hread hblob⟩

theorem readView_register (b : BlobBackend) (router : BlobRouter) (blob : Blob) :
    (router.register b).readView (blob.stamped b.kind) = b.readView (blob.stamped b.kind) := by
  have hbackend : (router.register b).backends (blob.stamped b.kind).backend = some b := Function.update_self ..
  rw [BlobRouter.readView, hbackend]

theorem Blob.length_patch (hsome : blob.header.isSome) : blob.patch.bytes.length = blob.size := by
  obtain ⟨header, hheader⟩ := Option.isSome_iff_exists.mp hsome
  rw [patch, hheader, Option.getD_some, length_append, ShmBlobArena.length_header hheader, size]

/-- A blob is read back if its bytes are where they were put. -/
theorem readView_iff (hclosed : b.closed = false) (hblob : blob.Written b) :
    b.readView (blob.stamped b.kind) = .ok (some blob.payload) ↔
      slice b.arena.buffer blob.patch.offset blob.patch.bytes.length = blob.patch.bytes := by
  obtain ⟨header, hheader⟩ := Option.isSome_iff_exists.mp hblob.isSome
  have hread : b.readView (blob.stamped b.kind) = .ok (some blob.payload) ↔
      b.arena.readBlob (blob.stamped b.kind) = .ok blob.payload := by
    have hepoch : (blob.stamped b.kind).epoch = b.epoch := congrArg Nat.cast hblob.epoch
    rw [BlobBackend.readView, if_neg (by simp [hclosed, hepoch])]
    split
    · next view hview => simp [hview]
    · next error herror => simp [herror]
    · next raised _ hraised => simp [hraised]
  rw [hread, Blob.stamped, ShmBlobArena.readBlob_iff_holds hheader hblob.bounds, blob.length_patch hblob.isSome]
  constructor
  · rintro ⟨other, hother, -, hslice⟩
    rw [Blob.patch, hother]
    exact hslice
  · intro hslice
    refine ⟨header, hheader, hblob.bounds, ?_⟩
    rw [Blob.patch, hheader] at hslice
    exact hslice

/-- Every site that has carried bytes resolves to them by the backend after the spill. Sites of few
bytes, and those of descriptors, are as before. -/
def Transparent (threshold : ℤ) (message : IpcMessage) (b : BlobBackend) : Prop :=
  ∃ message' total b', exec (spillMessage message threshold) b = (.ok (message', total), b') ∧ ∀ router : BlobRouter,
      Forall₂ (Kept threshold (router.register b')) message.sites message'.sites

def IpcMessage.wantedPayloads (threshold : ℤ) (message : IpcMessage) : List (List UInt8) :=
  message.spilledSites.filterMap (Site.wanted threshold)

/-- All blobs of a message survive, and their headers can be written. -/
def Undamaged (threshold : ℤ) (message : IpcMessage) (b : BlobBackend) : Prop :=
  (b.epoch < 2 ^ 64 ∨ b.layout (message.wantedPayloads threshold) = []) ∧
    ∀ blob ∈ b.layout (message.wantedPayloads threshold), blob.payload ≠ [] →
      blob.Survives (b.layout (message.wantedPayloads threshold))

theorem Assigned.append_same {kind : BlobBackendKind} (h : Assigned threshold kind sites blobs sites')
    (rest : List Site) : Assigned threshold kind (sites ++ rest) blobs (sites' ++ rest) := by
  induction h with
  | nil =>
    induction rest with
    | nil => exact .nil
    | cons site rest ih => exact .keep site ih
  | keep site _ ih => exact .keep site ih
  | empty site hblob _ ih => exact .empty site hblob ih
  | share hblob hsite _ ih => exact .share hblob hsite ih

theorem Blob.Written.fits (h : blob.Written b) : blob.patch.Fits b.arena.buffer := by
  rw [Patch.Fits, blob.length_patch h.isSome]
  exact h.bounds

theorem Blob.Written.epoch_lt (h : blob.Written b) : b.epoch < 2 ^ 64 := by
  by_contra hlarge
  have hnone := ShmBlobArena.header_eq_none (show 2 ^ 64 ≤ blob.epoch by rw [h.epoch]; omega)
  have hsome := h.isSome
  rw [hnone] at hsome
  cases hsome

theorem closed_of_mem_layout {payloads : List (List UInt8)} (h : blob ∈ b.layout payloads) : b.closed = false := by
  rw [BlobBackend.layout] at h
  split at h
  · cases h
  · next hclosed => exact Bool.eq_false_of_not_eq_true hclosed

/-- What is read after a spill. -/
theorem Spilled.readView_iff (h : Spilled threshold b sites blobs sites' b') (hblob : blob ∈ blobs)
    (hclosed : b.closed = false) (router : BlobRouter) :
    (router.register b').readView (blob.stamped b.kind) = .ok (some blob.payload) ↔ blob.Survives blobs := by
  have hwritten := h.written blob hblob
  have hwritten' : blob.Written b' :=
    ⟨hwritten.isSome, h.follows.capacity ▸ hwritten.bounds, hwritten.epoch.trans h.follows.epoch.symm⟩
  have hfits : ∀ p ∈ blobs.map Blob.patch, p.Fits b.arena.buffer := by
    intro p hp
    obtain ⟨other, hother, rfl⟩ := mem_map.mp hp
    exact (h.written other hother).fits
  rw [← h.follows.kind, readView_register, Ipc.readView_iff (h.follows.closed.trans hclosed) hwritten', h.buffer]
  exact Buffer.slice_patched_eq_iff hfits (mem_map_of_mem hblob)

/-- What a spill of a message comes to. -/
theorem spillMessage_cases (hs : b.arena.Valid) (message : IpcMessage) (threshold : ℤ) :
    (∃ message' total b', exec (spillMessage message threshold) b = (.ok (message', total), b') ∧
      Spilled threshold b message.sites (b.layout (message.wantedPayloads threshold)) message'.sites b') ∨
    (2 ^ 64 ≤ b.epoch ∧ b.layout (message.wantedPayloads threshold) ≠ [] ∧
      (exec (spillMessage message threshold) b).1 = .error .struct) := by
  have hmap := congrArg (exec · b) (spillMessage_sites message threshold)
  rw [exec_map, exec_map] at hmap
  obtain ⟨hreturned, hleft⟩ := Prod.mk.inj hmap
  obtain ⟨returned, left, hexec⟩ : ∃ returned left,
      exec (spillMessage message threshold) b = (returned, left) := ⟨_, _, rfl⟩
  rw [hexec] at hreturned hleft ⊢
  obtain ⟨sites', total, b', hsites, hspilled⟩ | ⟨hepoch, hne, herror⟩ :=
    spillSites_cases hs threshold message.spilledSites
  · rw [hsites] at hreturned hleft
    cases returned with
    | error raised => cases hreturned
    | ok r =>
      obtain ⟨hout, -⟩ := Prod.mk.inj (Except.ok.inj hreturned)
      refine .inl ⟨r.1, r.2, left, rfl, ?_⟩
      dsimp only at hleft
      rw [hleft, message.sites_eq, hout]
      exact { hspilled with assigned := hspilled.assigned.append_same message.restSites }
  · rw [herror] at hreturned
    cases returned with
    | error raised =>
      refine .inr ⟨hepoch, hne, ?_⟩
      cases hreturned
      rfl
    | ok r => cases hreturned

/-- A spill is transparent if all of its blobs survive. -/
theorem spill_transparent (hb : b.Reachable) (message : IpcMessage) (threshold : ℤ) :
    Transparent threshold message b ↔ Undamaged threshold message b := by
  obtain ⟨message', total, b', hexec, hspilled⟩ | ⟨hepoch, hne, herror⟩ :=
    spillMessage_cases hb.valid message threshold
  · have hiff (router : BlobRouter) :
        Forall₂ (Kept threshold (router.register b')) message.sites message'.sites ↔
          ∀ blob ∈ b.layout (message.wantedPayloads threshold), blob.payload ≠ [] →
            blob.Survives (b.layout (message.wantedPayloads threshold)) := by
      rw [forall₂_kept_iff hspilled.assigned]
      refine forall₂_congr fun blob hblob => forall_congr' fun _ => ?_
      exact hspilled.readView_iff hblob (closed_of_mem_layout hblob) router
    constructor
    · rintro ⟨message'', total', b'', hexec', hkept⟩
      rw [hexec] at hexec'
      cases hexec'
      refine ⟨?_, (hiff {}).mp (hkept {})⟩
      cases hlayout : b.layout (message.wantedPayloads threshold) with
      | nil => exact .inr rfl
      | cons blob blobs => exact .inl (hspilled.written blob (by rw [hlayout]; simp)).epoch_lt
    · intro h
      exact ⟨message', total, b', hexec, fun router => (hiff router).mpr h.2⟩
  · constructor
    · rintro ⟨message', total, b', hexec, -⟩
      rw [hexec] at herror
      cases herror
    · rintro ⟨hlt | hnil, -⟩
      · omega
      · exact absurd hnil hne

theorem spill_transparent_small : ∃ b : BlobBackend, b.arena.capacity = 41 ∧
      (Transparent 1 { snapshot := some ⟨[⟨1, "bytes", .payload [7], none⟩]⟩ } b ↔
        Undamaged 1 { snapshot := some ⟨[⟨1, "bytes", .payload [7], none⟩]⟩ } b) :=
  have hnew : ShmBlobArena.new ⟨replicate 41 0, by decide⟩ = .ok ⟨replicate 41 0, 0, 1⟩ := by decide
  ⟨_, by decide, spill_transparent (.create .inProcess hnew) _ 1⟩

def twoNodes : IpcMessage where
  snapshot := some ⟨[⟨1, "bytes", .payload [1], none⟩, ⟨2, "bytes", .payload (replicate 10 2), none⟩]⟩

/-- In a new arena of 90 bytes the second payload goes where the first is. -/
theorem spill_overwrites : ∃ b : BlobBackend, b.Reachable ∧ b.arena = ⟨replicate 90 0, 0, 1⟩ ∧
      ¬ Transparent 0 twoNodes b := by
  have hnew : ShmBlobArena.new ⟨replicate 90 0, by decide⟩ = .ok ⟨replicate 90 0, 0, 1⟩ := by decide
  refine ⟨_, .create .inProcess hnew, rfl, ?_⟩
  rintro ⟨message', total, b', hexec, hkept⟩
  have hfirst : (match exec (spillMessage twoNodes 0)
        ⟨.inProcess, ⟨replicate 90 0, 0, 1⟩, 0, false⟩ with
      | (.ok (message, _), b) =>
        message.sites.head?.map fun site => (site.resolve (BlobRouter.register b {})).toOption
      | _ => none) = some (some none) := by
    decide +kernel
  rw [hexec] at hfirst
  dsimp only at hfirst
  have h := hkept {}
  cases hsites : message'.sites with
  | nil =>
    rw [hsites] at h
    cases h
  | cons site sites =>
    rw [hsites] at h hfirst
    cases h with
    | cons hsite _ =>
      have hread := hsite.1 [1] rfl
      rw [head?_cons, Option.map_some, hread] at hfirst
      cases hfirst

end LazilyPy.Ipc

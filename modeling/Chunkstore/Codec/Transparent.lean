import Chunkstore.Codec.Coded
import Chunkstore.Core.Phases
import Chunkstore.Crash.Enlisted
import Chunkstore.Exact.Invisible

/-!
# When a codec is transparent

Digests and sizes are those of the plain chunks, so a store with a codec should behave as a store
without one. Storing, releasing and reading decode what they measure. Opening does not: it looks up
the size of a record that has none as the length of the stored blob. Such records are those of the
empty chunk, whose encoding need not be empty.

## Main result

* `ChunkStore.codec_transparent_iff`: a store with a codec and a store without return the same and
  keep the same fields and metadata throughout a run exactly when, at every reopening of the run,
  the blobs whose records have no size are as long as their chunks.
-/

open Effects Program

namespace Chunkstore

/-! ## Operations side by side -/

section Operations

variable {crates : Crates} {codec : ChunkCodec} {L : String → Prop} {s t : State}
  {digest fileId : String}

/-- From coded states the two programs return the same and leave coded states. -/
def Transparent {α : Type} (codec : ChunkCodec) (p q : BackendM α) : Prop :=
  ∀ s t, Coded codec noDigest s t →
    rwpx callHandler p q (fun _ ↦ Coded codec noDigest) (fun _ ↦ Coded codec noDigest) s t

theorem rwpx_of_offBlobs {α : Type} {p : BackendM α} (hp : Makes Call.OffBlobs p)
    (hL : ∀ d, L d → isChunkDigest d = true) (h : Coded codec L s t) :
    rwpx callHandler p p (fun _ ↦ Coded codec L) (fun _ ↦ Coded codec L) s t :=
  rwp_mono (Uses.rwp hp (coded_handle hL) h) fun r _ _ hr ↦ by cases r <;> exact hr

theorem rwpx_and_quietly {α : Type} {p q : BackendM α} {Q : α → State → State → Prop}
    {P : α → State → Prop} {T : ChunkStoreError → State → State → Prop}
    (h : rwpx callHandler p q Q T s t) (hq : quietly q P (fun _ _ ↦ True) t) :
    rwpx callHandler p q (fun a s' t' ↦ Q a s' t' ∧ P a t') T s t :=
  rwp_mono (rwp_and_eval h (quietly_eval hq)) fun r _ _ hr ↦ by
    cases r with
    | ok a => exact hr
    | error e => exact hr.1

namespace Transparent

variable {α β : Type} {p q : BackendM α}

theorem of_offBlobs (hp : Makes Call.OffBlobs p) : Transparent codec p p :=
  fun _ _ h ↦ rwpx_of_offBlobs hp (fun _ hd ↦ hd.elim) h

theorem bind {f g : α → BackendM β} (hp : Transparent codec p q)
    (hf : ∀ a, Transparent codec (f a) (g a)) : Transparent codec (p >>= f) (q >>= g) :=
  fun s t h ↦ rwpx_bind (rwpx_mono (hp s t h) (fun a s' t' ↦ hf a s' t') fun _ _ _ h ↦ h)

theorem map {f : α → β} (hp : Transparent codec p q) : Transparent codec (f <$> p) (f <$> q) := by
  rw [map_eq_pure_bind, map_eq_pure_bind]
  exact hp.bind fun a ↦ of_offBlobs (makes_pure _)

theorem ite {c : Prop} [Decidable c] {p' q' : BackendM α} (hp : Transparent codec p q)
    (hp' : Transparent codec p' q') :
    Transparent codec (if c then p else p') (if c then q else q') := by
  split
  · exact hp
  · exact hp'

end Transparent

/-! ### Chunks -/

theorem rwpx_getBlob {α : Type} {f g : Option Bytes → BackendM α} {Q : α → State → State → Prop}
    {T : ChunkStoreError → State → State → Prop} (hd : isChunkDigest digest = true)
    (h : Coded codec L s t) (hnone : rwpx callHandler (f none) (g none) Q T s t)
    (hsome : ∀ raw, t.find digest = some raw →
      rwpx callHandler (f (some (codec.encoded raw))) (g (some raw)) Q T s t) :
    rwpx callHandler (backendCall (.get digest) >>= f) (backendCall (.get digest) >>= g)
      Q T s t := by
  change rwpx callHandler (f (s.find digest)) (g (t.find digest)) Q T s t
  rw [h.blobs digest hd]
  cases hf : t.find digest with
  | none => exact hnone
  | some raw => exact hsome raw hf

private theorem transparent_putBlob (hd : isChunkDigest digest = true) (data : Bytes) :
    Transparent codec (ChunkStore.putBlob digest (codec.encoded data))
      (ChunkStore.putBlob digest data) := by
  refine (Transparent.of_offBlobs (makes_backendCall (c := .existsKey digest) trivial)).bind
    fun present ↦ Transparent.ite (.of_offBlobs (makes_pure _))
      (Transparent.bind (fun s t h ↦ ⟨rfl, ?_⟩)
      fun _ ↦ .of_offBlobs (makes_pure _))
  refine ⟨h.fields, h.lists, ?_, fun k hk ↦ ?_, fun d hd' ↦ ?_, fun _ _ hl ↦ hl.elim, h.named⟩
  · exact (AList.keys_insert _).trans
      ((congrArg (fun l ↦ digest :: List.erase l digest) h.keys).trans (AList.keys_insert _).symm)
  · have hne := (ne_of_isChunkDigest hd hk).symm
    exact (State.find_put_ne hne).trans ((h.metadata k hk).trans (State.find_put_ne hne).symm)
  · by_cases hdd : d = digest
    · rw [hdd]
      exact (State.find_put_self _ _ _).trans
        (congrArg (Option.map codec.encoded) (State.find_put_self t digest data)).symm
    · exact (State.find_put_ne hdd).trans ((h.blobs d hd').trans
        (congrArg (Option.map codec.encoded) (State.find_put_ne hdd).symm))

theorem transparent_storeChunk (hc : codec.Lossless) (hd : isChunkDigest digest = true)
    (chunk : Bytes) :
    Transparent codec (flat ((coded crates codec).storeChunk digest chunk))
      (flat ((plain crates).storeChunk digest chunk)) := by
  simp only [ChunkStore.storeChunk, flat_bind, flat_ofExcept, flat_locked, flat_ite, flat_pure]
  rw [show (coded crates codec).encodeBlob chunk
    = .ok (codec.encoded chunk) from hc.encode_eq chunk,
    show (plain crates).encodeBlob chunk = .ok chunk from rfl, ofExcept_ok, ofExcept_ok, pure_bind,
    pure_bind]
  refine (transparent_putBlob hd chunk).bind fun present ↦ Transparent.bind (.of_offBlobs ?_)
    fun _ ↦ Transparent.ite (.of_offBlobs ?_) (.of_offBlobs ?_)
  · exact (makes_fieldOrThrow trivial).bind fun _ ↦ (makes_field trivial).bind fun _ ↦
      offBlobs_saveRefcount _ _
  · exact Makes.bind ⟨trivial, fun _ ↦ trivial⟩ fun _ ↦ makes_pure _
  · exact Makes.bind ⟨trivial, fun _ ↦ trivial⟩ fun _ ↦ makes_pure _

/-- The size of a chunk is that of the decoded blob. -/
private theorem transparent_chunkSize (hc : codec.Lossless) (hd : isChunkDigest digest = true) :
    Transparent codec (flat ((coded crates codec).chunkSize digest))
      (flat ((plain crates).chunkSize digest)) := by
  simp only [ChunkStore.chunkSize, flat_bind, flat_locked, flat_ite, flat_pure, flat_unlocked]
  refine (Transparent.of_offBlobs (makes_field (a := .refcountSizeOf digest) trivial)).bind
    fun size ↦ Transparent.ite (.of_offBlobs (makes_pure _)) fun s t h ↦ ?_
  refine rwpx_getBlob hd h (rwpx_throw h) fun raw _ ↦ ?_
  simp only [flat_bind, flat_ofExcept, flat_pure]
  rw [show (coded crates codec).decodeBlob (codec.encoded raw) = .ok raw from hc.decode_encoded raw,
    show (plain crates).decodeBlob raw = .ok raw from rfl, ofExcept_ok, pure_bind]
  exact rwpx_pure h

/-! ### Whole operations -/

private theorem transparent_releaseDigest (hc : codec.Lossless) (hd : isChunkDigest digest = true) :
    Transparent codec (flat ((coded crates codec).releaseDigest digest))
      (flat ((plain crates).releaseDigest digest)) := by
  simp only [ChunkStore.releaseDigest, flat_bind, flat_locked, flat_ite, flat_unlocked]
  refine (transparent_chunkSize hc hd).bind fun size ↦ .of_offBlobs
    ((makes_fieldOrThrow trivial).bind fun remaining ↦ makes_ite ?_ ?_)
  · exact (makes_backendCall trivial).bind fun _ ↦ offBlobs_removeRefcount.bind fun _ ↦
      (makes_field trivial).bind fun _ ↦ makes_field trivial
  · exact (offBlobs_saveRefcount _ _).bind fun _ ↦ makes_field trivial

theorem transparent_releaseDigests (hc : codec.Lossless) (digests : List String)
    (hd : ∀ d ∈ digests, isChunkDigest d = true) :
    Transparent codec (flat ((coded crates codec).releaseDigests digests))
      (flat ((plain crates).releaseDigests digests)) := by
  induction digests with
  | nil => exact .of_offBlobs (makes_pure _)
  | cons d digests ih =>
    rw [ChunkStore.releaseDigests, ChunkStore.releaseDigests, flat_bind, flat_bind]
    exact (transparent_releaseDigest hc (hd d List.mem_cons_self)).bind fun _ ↦
      ih fun e he ↦ hd e (List.mem_cons_of_mem d he)

/-- **Commit** is transparent: what is released was on a digest list. -/
theorem transparent_commit (hc : codec.Lossless) {session : ChunkStore.IngestSession}
    (hd : ∀ d ∈ session.digests, isChunkDigest d = true) :
    Transparent codec (flat ((coded crates codec).commit session fileId))
      (flat ((plain crates).commit session fileId)) := by
  rw [ChunkStore.flat_commit, ChunkStore.flat_commit]
  simp only [ChunkStore.exchange, bind_assoc, pure_bind]
  intro s t h
  refine rwpx_bind (rwpx_mono (rwpx_and_quietly (rwpx_of_offBlobs
    (makes_field (a := .manifestTryGet fileId) trivial) (fun _ hd ↦ hd.elim) h) (quietly_field
    (Q := fun old _ ↦ old = t.fields.manifest.tryGet fileId) rfl)) (fun old s₁ t₁ hj ↦ ?_)
    fun _ _ _ h ↦ h)
  obtain ⟨h₁, rfl⟩ := hj
  refine Transparent.bind (.of_offBlobs (makes_fieldOrThrow
    (a := .manifestInsert fileId session.digests session.fileBytes) hd)) (fun _ ↦ Transparent.bind
    (.of_offBlobs (offBlobs_saveManifest _ _)) fun _ ↦ Transparent.bind
    (transparent_releaseDigests hc _ fun d hd ↦ ?_) fun _ ↦ .of_offBlobs (makes_pure _)) s₁ t₁ h₁
  cases hf : t.fields.manifest.tryGet fileId with
  | none =>
    rw [hf] at hd
    exact absurd hd List.not_mem_nil
  | some old =>
    rw [hf] at hd
    exact h.named fileId old hf d hd

/-- **Ingest** is transparent. -/
theorem transparent_ingestStream (hc : codec.Lossless) (stream : Stream) :
    Transparent codec (flat ((coded crates codec).ingestStream fileId stream))
      (flat ((plain crates).ingestStream fileId stream)) := by
  simp only [ChunkStore.ingestStream, Stream.consume, flat_bind, flat_foldlM, bind_assoc]
  intro s t h
  -- the session's digests are those of chunks, which is what the manifest is given
  refine rwpx_bind (rwpx_mono (rwpx_foldlM (J := fun _ session s' t' ↦ Coded codec noDigest s' t' ∧
    ∀ d ∈ session.digests, isChunkDigest d = true) (T := fun _ ↦ Coded codec noDigest)
    (fun chunk l session s' t' hj ↦ ?_) _ _ ⟨h, fun d hd ↦ absurd hd List.not_mem_nil⟩) ?_
    fun _ _ _ h ↦ h)
  · simp only [ChunkStore.accept, flat_bind, flat_pure]
    refine rwpx_bind (rwpx_mono (transparent_storeChunk hc (isChunkDigest_digestHex _ chunk) chunk
      s' t' hj.1) (fun _ s'' t'' h'' ↦ rwpx_pure ⟨h'', fun d hd ↦ ?_⟩) fun _ _ _ h ↦ h)
    rcases List.mem_append.mp hd with hd | hd
    · exact hj.2 d hd
    · rw [List.mem_singleton.mp hd]
      exact isChunkDigest_digestHex _ chunk
  · rintro session s₁ t₁ ⟨h₁, hds⟩
    cases stream.error with
    | some e => exact rwpx_bind (rwpx_throw h₁)
    | none => exact rwpx_bind (rwpx_pure (transparent_commit hc hds s₁ t₁ h₁))

theorem transparent_delete (hc : codec.Lossless) :
    Transparent codec (flat ((coded crates codec).delete fileId))
      (flat ((plain crates).delete fileId)) := by
  simp only [ChunkStore.delete, flat_bind, flat_locked, flat_unlocked]
  intro s t h
  have hremove := rwpx_of_offBlobs (makes_fieldOrThrow (a := .manifestRemove fileId) trivial)
    (fun _ hd ↦ hd.elim) h
  refine rwpx_bind (rwpx_mono (rwpx_and_quietly hremove (quietly_fieldOrThrow
    (Q := fun digests _ ↦ ∀ d ∈ digests, isChunkDigest d = true) (fun digests hd ↦ ?_)
    fun _ _ ↦ trivial)) (fun digests s₁ t₁ hj ↦ ?_) fun _ _ _ h ↦ h)
  · rw [FieldAccess.run, Manifest.remove, Manifest.get] at hd
    split at hd
    · rename_i l hl
      cases hd
      exact h.named fileId digests hl
    · cases hd
  · exact ((Transparent.of_offBlobs offBlobs_removeManifest).bind fun _ ↦
      transparent_releaseDigests hc digests hj.2) s₁ t₁ hj.1

/-! ### Reading -/

theorem readStored_coded (hc : codec.Lossless) (digest : String) (o : Option Bytes) :
    (coded crates codec).readStored digest (o.map codec.encoded)
      = (plain crates).readStored digest o := by
  cases o with
  | none => rfl
  | some raw =>
    rw [Option.map_some, ChunkStore.readStored, ChunkStore.readStored,
      show (coded crates codec).decodeBlob (codec.encoded raw) = .ok raw from hc.decode_encoded raw,
      show (plain crates).decodeBlob raw = .ok raw from rfl]
    rfl

theorem transparent_readChunk (hc : codec.Lossless) (hd : isChunkDigest digest = true) :
    Transparent codec (flat ((coded crates codec).readChunk digest))
      (flat ((plain crates).readChunk digest)) := by
  intro s t h
  rw [ChunkStore.readChunk, ChunkStore.readChunk, rwpx, rwp, ChunkStore.eval_readChunkByDigest,
    ChunkStore.eval_readChunkByDigest, h.blobs digest hd, readStored_coded hc]
  refine ⟨rfl, ?_⟩
  dsimp only
  cases (plain crates).readStored digest (t.find digest) <;> exact h

private theorem readDigests_coded (hc : codec.Lossless) (h : Coded codec L s t)
    {digests : List String}
    (hd : ∀ d ∈ digests, isChunkDigest d = true) :
    (coded crates codec).readDigests s.find digests
      = (plain crates).readDigests t.find digests := by
  induction digests with
  | nil => rfl
  | cons d digests ih =>
    rw [ChunkStore.readDigests, ChunkStore.readDigests, h.blobs d (hd d List.mem_cons_self),
      readStored_coded hc, ih fun e he ↦ hd e (List.mem_cons_of_mem d he)]

theorem transparent_read (hc : codec.Lossless) :
    Transparent codec (flat ((coded crates codec).read fileId))
      (flat ((plain crates).read fileId)) := by
  intro s t h
  have hread : (coded crates codec).readFile s fileId = (plain crates).readFile t fileId := by
    rw [ChunkStore.readFile, ChunkStore.readFile, h.fields]
    cases hf : t.fields.manifest.tryGet fileId with
    | none => rfl
    | some digests => exact readDigests_coded hc h (h.named fileId digests hf)
  rw [rwpx, rwp, ChunkStore.eval_read, ChunkStore.eval_read, hread]
  refine ⟨rfl, ?_⟩
  dsimp only
  cases (plain crates).readFile t fileId <;> exact h

/-! ### Fsck -/

theorem offBlobs_fsck (repair : Bool) : Makes Call.OffBlobs (flat (ChunkStore.fsck repair)) := by
  have hmissing : ∀ live, Makes Call.OffBlobs (flat (ChunkStore.missingBlobs live)) := fun live ↦ by
    induction live with
    | nil => exact makes_pure _
    | cons d live ih =>
      simp only [ChunkStore.missingBlobs, flat_bind, flat_unlocked, flat_pure]
      exact (makes_backendCall trivial).bind fun _ ↦ ih.bind fun _ ↦ makes_pure _
  have hunlink : ∀ keys, Makes Call.OffBlobs (flat (ChunkStore.unlinkAll keys)) := fun keys ↦ by
    induction keys with
    | nil => exact makes_pure _
    | cons key keys ih =>
      simp only [ChunkStore.unlinkAll, flat_bind, flat_unlocked, flat_pure]
      exact (makes_backendCall trivial).bind fun _ ↦ ih.bind fun _ ↦ makes_pure _
  simp only [ChunkStore.fsck, flat_bind, flat_locked, flat_unlocked, flat_ite, flat_pure]
  refine (makes_field trivial).bind fun refs ↦ (hmissing _).bind fun missing ↦
    Makes.bind ?_ fun orphans ↦ makes_ite ((hunlink _).bind fun _ ↦ makes_pure _) (makes_pure _)
  refine (makes_backendCall trivial).bind fun o ↦ ?_
  cases o with
  | none => exact makes_pure _
  | some keys => exact makes_pure _

end Operations

/-! ## Opening side by side -/

section Opening

variable {crates : Crates} {codec : ChunkCodec} {L : String → Prop} {s t : State}
  {digest : String} {rc : RefCount}

theorem rwpx_field {α β : Type} {a : FieldAccess α} {f g : α → BackendM β}
    {Q : β → State → State → Prop} {T : ChunkStoreError → State → State → Prop}
    (h : Coded codec L s t) (hrest : rwpx callHandler (f (a.run t.fields).1) (g (a.run t.fields).1)
      Q T (s.withFields (a.run t.fields).2) (t.withFields (a.run t.fields).2)) :
    rwpx callHandler (field a >>= f) (field a >>= g) Q T s t := by
  change rwpx callHandler (f (a.run s.fields).1) (g (a.run t.fields).1) Q T
    (s.withFields (a.run s.fields).2) (t.withFields (a.run t.fields).2)
  rw [h.fields]
  exact hrest

theorem rwpx_inspect {α β : Type} {a : FieldAccess α} {f g : α → BackendM β}
    {Q : β → State → State → Prop} {T : ChunkStoreError → State → State → Prop}
    (h : Coded codec L s t) (hrun : ∀ fields, (a.run fields).2 = fields)
    (hrest : rwpx callHandler (f (a.run t.fields).1) (g (a.run t.fields).1) Q T s t) :
    rwpx callHandler (field a >>= f) (field a >>= g) Q T s t := by
  refine rwpx_field h ?_
  rw [hrun, State.withFields_fields, ← h.fields, State.withFields_fields, h.fields]
  exact hrest

theorem Coded.persistedRef (h : Coded codec L s t) (digest : String) :
    persistedRef crates s digest = persistedRef crates t digest := by
  rw [Chunkstore.persistedRef, Chunkstore.persistedRef,
    loadedRef_congr (h.metadata _ (isChunkDigest_refcountKey digest))]
  exact if_congr (isListed_congr (h.metadata _ isChunkDigest_refcountIndexKey)) rfl rfl

/-- The digests a table has no size for. -/
def RefCount.Sizeless (rc : RefCount) (digest : String) : Prop :=
  ∃ r, rc.counts.find digest = some r ∧ r.size = 0

/-- **Backfilling** sizes from blobs whose lengths agree. -/
theorem rwpx_backfillRefcountSizes (hL : ∀ d, L d → isChunkDigest d = true) (h : Coded codec L s t)
    (hrc : ∀ d, rc.Sizeless d → L d) :
    rwpx callHandler (backfillRefcountSizes crates rc) (backfillRefcountSizes crates rc)
      (fun rc' s' t' ↦ Coded codec L s' t' ∧ ∀ d, rc'.Sizeless d → L d)
      (fun _ ↦ Coded codec L) s t := by
  rw [backfillRefcountSizes]
  refine rwpx_mono (rwpx_foldlM (J := fun l rc' s' t' ↦ (Coded codec L s' t' ∧
    ∀ d, rc'.Sizeless d → L d) ∧ ∀ e ∈ l, L e.1) (T := fun _ ↦ Coded codec L)
    (fun entry l rc' s' t' hj ↦ ?_) _ rc ⟨⟨h, hrc⟩, fun e he ↦ ?_⟩) (fun _ _ _ hj ↦ hj.1)
    fun _ _ _ h ↦ h
  · obtain ⟨⟨h', hrc'⟩, hl⟩ := hj
    have hentry := hl entry List.mem_cons_self
    have hl' : ∀ e ∈ l, L e.1 := fun e he ↦ hl e (List.mem_cons_of_mem _ he)
    refine rwpx_getBlob (hL _ hentry) h' (rwpx_pure ⟨⟨h', hrc'⟩, hl'⟩) fun raw hraw ↦ ?_
    dsimp only
    rw [if_pos (hL _ hentry), if_pos (hL _ hentry), h'.length _ raw hentry hraw]
    refine rwpx_bind (rwpx_mono (rwpx_of_offBlobs (offBlobs_saveRefcount _ _) hL h')
      (fun _ s'' t'' h'' ↦ rwpx_pure ⟨⟨h'', fun d hd ↦ ?_⟩, hl'⟩) fun _ _ _ h ↦ h)
    obtain ⟨r, hr, h0⟩ := hd
    by_cases hde : d = entry.1
    · rw [hde]
      exact hentry
    · refine hrc' d ⟨r, ?_, h0⟩
      rw [RefCount.set] at hr
      split at hr
      · rwa [Table.find_unset_ne hde] at hr
      · rwa [Table.find_set_ne hde] at hr
  · obtain ⟨r, hr, h0, -⟩ := mem_stale rc he
    exact hrc _ ⟨r, hr, h0⟩

/-- **Rebuilding** the statistics, on tables whose sizeless entries have blobs of agreeing
lengths. -/
theorem rwpx_rebuildStats (hL : ∀ d, L d → isChunkDigest d = true) (h : Coded codec L s t)
    (hrc : ∀ d, t.fields.refcount.Sizeless d → L d) :
    rwpx callHandler (flat (ChunkStore.mk crates none).rebuildStats)
      (flat (ChunkStore.mk crates none).rebuildStats) (fun _ ↦ Coded codec L)
      (fun _ ↦ Coded codec L) s t := by
  simp only [ChunkStore.rebuildStats, flat_bind, flat_locked, flat_foldlM]
  refine rwpx_inspect h (fun _ ↦ rfl)
    (rwpx_bind (rwpx_mono (rwpx_foldlM (J := fun l _ s' t' ↦ Coded codec L s' t' ∧
    ∀ e ∈ l, e.2.size = 0 → L e.1) (T := fun _ ↦ Coded codec L) (fun entry l stats s' t' hj ↦ ?_)
    _ _ ⟨h, fun e he h0 ↦ ?_⟩) (fun stats s' t' hj ↦ ?_) fun _ _ _ h ↦ h))
  · obtain ⟨h', hl⟩ := hj
    have hl' : ∀ e ∈ l, e.2.size = 0 → L e.1 := fun e he ↦ hl e (List.mem_cons_of_mem _ he)
    simp only [ChunkStore.rebuildStat, flat_bind, flat_ite, flat_pure]
    split
    · exact rwpx_bind (rwpx_pure (rwpx_pure ⟨h', hl'⟩))
    · rename_i hpos
      have hentry := hl entry List.mem_cons_self (Nat.eq_zero_of_not_pos hpos)
      simp only [ChunkStore.chunkSize, flat_bind, flat_locked, flat_ite, flat_pure, flat_unlocked]
      refine rwpx_bind (rwpx_inspect h' (fun _ ↦ rfl) ?_)
      split
      · exact rwpx_pure (rwpx_pure ⟨h', hl'⟩)
      · refine rwpx_getBlob (hL _ hentry) h' (rwpx_throw h') fun raw hraw ↦ ?_
        simp only [flat_bind, flat_ofExcept, flat_pure]
        rw [ChunkStore.decodeBlob, ChunkStore.decodeBlob, ofExcept_ok, ofExcept_ok, pure_bind,
          pure_bind, h'.length _ raw hentry hraw]
        exact rwpx_pure (rwpx_pure ⟨h', hl'⟩)
  · exact hrc _ ⟨e.2, RefCount.mem_iterRefs.mp he, h0⟩
  · exact rwpx_of_offBlobs (makes_field (a := .statsReplace stats) trivial) hL hj.1

/-- Every blob whose record has no size is as long as the chunk it stands for. -/
def ChunkStore.Measured (store : ChunkStore) (s : State) : Prop :=
  ∀ d r raw data, persistedRef store.crates s d = some r → r.size = 0 → s.find d = some raw →
    store.decodeBlob raw = .ok data → data.length = raw.length

private theorem Coded.manifestsLoad (h : Coded codec L s t) :
    ManifestsLoad crates t none → ManifestsLoad crates s none := fun hm ↦
  hm.of_find fun f ↦ h.metadata _ (isChunkDigest_manifestKey f)

/-- The digests whose size opening looks up, if it gets that far. -/
def SizeLookedUp (crates : Crates) (s : State) (digest : String) : Prop :=
  isChunkDigest digest = true ∧ ManifestsLoad crates s none ∧
    ∃ r, persistedRef crates s digest = some r ∧ r.size = 0

/-- **Opening** a backend whose blobs are measured right, if its manifests load. -/
theorem rwpx_openStore (hc : codec.Lossless) (h : Coded codec noDigest s t)
    (hm : ManifestsLoad crates s none → (coded crates codec).Measured s) :
    rwpx callHandler (flat (openStore crates)) (flat (openStore crates))
      (fun _ ↦ Coded codec noDigest) (fun _ ↦ Coded codec noDigest) s t := by
  have hL : ∀ d, SizeLookedUp crates t d → isChunkDigest d = true := fun _ hd ↦ hd.1
  have h' : Coded codec (SizeLookedUp crates t) s t := by
    refine h.of_length fun d raw hd hraw ↦ ?_
    obtain ⟨hd, hload, r, hr, h0⟩ := hd
    refine (hm (h.manifestsLoad hload) d r (codec.encoded raw) raw ((h.persistedRef d).trans hr) h0
      ?_ (hc.decode_encoded raw)).symm
    rw [h.blobs d hd, hraw]
    rfl
  simp only [openStore, flat_bind, flat_unlocked, flat_pure]
  refine rwpx_bind (rwpx_mono (rwpx_and_quietly (rwpx_of_offBlobs offBlobs_loadManifests hL h')
    (quietly_mono quietly_loadManifests_iff (fun _ _ hq ↦ hq) fun _ _ _ ↦ trivial))
    (fun m s₁ t₁ hj ↦ ?_) fun _ _ _ h ↦ h.forget)
  obtain ⟨h₁, rfl, hload, hmatch⟩ := hj
  refine rwpx_bind (rwpx_mono (rwpx_and_quietly (rwpx_of_offBlobs offBlobs_loadRefcounts hL h₁)
    (quietly_mono quietly_loadRefcounts_iff (fun _ _ hq ↦ hq) fun _ _ _ ↦ trivial))
    (fun rc s₂ t₂ hj ↦ ?_) fun _ _ _ h ↦ h.forget)
  obtain ⟨h₂, rfl, hmirrors, -⟩ := hj
  refine rwpx_bind (rwpx_mono (rwpx_backfillRefcountSizes hL h₂ ?_) (fun rc' s₃ t₃ hj ↦ ?_)
    fun _ _ _ h ↦ h.forget)
  · rintro d ⟨r, hr, h0⟩
    exact ⟨(hmirrors.valid d r hr).1, hload, r, (hmirrors.refs d).trans hr, h0⟩
  · obtain ⟨h₃, hrc⟩ := hj
    refine rwpx_field h₃ (rwpx_bind (rwpx_mono (rwpx_rebuildStats hL (h₃.withFields ?_) hrc)
      (fun _ _ _ h ↦ rwpx_pure h.forget) fun _ _ _ h ↦ h.forget))
    exact fun f digests hf ↦ isChunkDigest_of_matches hload (hmatch f) hf

end Opening

/-! ## Runs side by side -/

namespace ChunkStore

variable {crates : Crates} {codec : ChunkCodec} {s t : State}

/-- An operation that is given no other name than that of a file or of a chunk. -/
def Op.OnChunks : Op → Prop
  | .readChunk digest => isChunkDigest digest = true
  | _ => True

/-- **The step lemma.** -/
theorem exec_coded (hc : codec.Lossless) (h : Coded codec noDigest s t) (op : Op)
    (hop : op.OnChunks) (hm : op = .reopen → ManifestsLoad crates s none →
      (coded crates codec).Measured s) :
    ((coded crates codec).exec op s).1 = ((plain crates).exec op t).1 ∧
      Coded codec noDigest ((coded crates codec).exec op s).2 ((plain crates).exec op t).2 := by
  have hspec : rwpx callHandler (flat ((coded crates codec).perform op))
      (flat ((plain crates).perform op)) (fun _ ↦ Coded codec noDigest)
      (fun _ ↦ Coded codec noDigest) s t := by
    cases op with
    | ingest fileId input =>
      rw [perform, perform, flat_map, flat_map, ingestInput_eq, ingestInput_eq]
      exact (transparent_ingestStream hc (input.stream crates)).map s t h
    | delete fileId =>
      rw [perform, perform, flat_map, flat_map]
      exact (transparent_delete hc).map s t h
    | read fileId =>
      rw [perform, perform, flat_map, flat_map]
      exact (transparent_read hc).map s t h
    | readChunk digest =>
      rw [perform, perform, flat_map, flat_map]
      exact (transparent_readChunk hc hop).map s t h
    | fsck repair =>
      rw [perform, perform, flat_map]
      exact (Transparent.of_offBlobs (offBlobs_fsck repair)).map s t h
    | stats =>
      rw [perform, perform, flat_map, ChunkStore.stats, flat_locked]
      exact (Transparent.of_offBlobs (makes_field (a := .statsGet) trivial)).map s t h
    | chunkRefcount digest =>
      rw [perform, perform, flat_map, ChunkStore.chunkRefcount, flat_locked]
      exact (Transparent.of_offBlobs (makes_field (a := .refcountGet digest) trivial)).map s t h
    | reopen =>
      rw [perform, perform, flat_map, flat_map]
      refine rwpx_map ?_
      rw [reopen, reopen]
      simp only [coded, plain, openWithCodec, flat_bind, bind_assoc]
      refine rwpx_bind (rwpx_mono (rwpx_openStore hc h (hm rfl)) (fun _ _ _ h ↦ ?_) fun _ _ _ h ↦ h)
      exact rwpx_pure h
  refine ⟨hspec.1, ?_⟩
  have hpost := hspec.2
  rw [exec, exec]
  revert hpost
  cases (callHandler.eval (flat ((plain crates).perform op)).run t).1 <;> exact id

private theorem opened_exec_reopen (store : ChunkStore) (h : Openable store.crates s) :
    Opened store.crates s (store.exec .reopen s).2 :=
  (exec_reopen_of_quietly (quietly_mono quietly_openStore_opened (fun _ _ ho ↦ ho)
    fun _ _ hno ↦ hno h)).2

/-- **A reopening that changes nothing** has measured right. -/
theorem measured_of_reopened (hc : codec.Lossless) (h : Coded codec noDigest s t)
    (hs : Tended crates s) (hm : ManifestsLoad crates s none)
    (heq : ((coded crates codec).exec .reopen s).2.fields
      = ((plain crates).exec .reopen t).2.fields) : (coded crates codec).Measured s := by
  have ht : Tended crates t := hs.of_find (by rw [h.fields])
    (fun d ↦ (h.metadata _ (isChunkDigest_refcountKey d)).symm)
    fun d _ _ hd ↦ (h.isSome_find d).symm.trans hd
  have hmt : ManifestsLoad crates t none :=
    hm.of_find fun f ↦ (h.metadata _ (isChunkDigest_manifestKey f)).symm
  have hos := opened_exec_reopen (coded crates codec) (hs.openable hm)
  have hot := opened_exec_reopen (plain crates) (ht.openable hmt)
  -- an entry without a size gets the length of its blob
  have hsize : ∀ {u u' : State} {d : String} {r : ChunkRef} {raw : Bytes}, Opened crates u u' →
      isChunkDigest d = true → persistedRef crates u d = some r → r.size = 0 →
      u.find d = some raw → u'.fields.refcount.sizeOf d = some raw.length := by
    intro u u' d r raw ho hd hr h0 hraw
    rw [RefCount.sizeOf]
    rcases ho.refs d with hd' | ⟨r', raw', -, -, hraw', hd'⟩
    · rw [hr] at hd'
      have hnil := ho.sized d r raw hd' h0
        ((ho.find d (offRefcount_of_isChunkDigest hd)).trans hraw)
      rw [hd', Option.map_some, h0, hnil]
      rfl
    · obtain rfl := Option.some.inj (hraw.symm.trans hraw')
      rw [hd', Option.map_some]
  intro d r raw data (hr : persistedRef crates s d = some r) h0 hraw hdec
  have hd : isChunkDigest d = true := by
    refine (hs.listed d ((isSome_persistedRef hs.toEnlisted).mp ?_)).1
    rw [hr]
    rfl
  have hblob := h.blobs d hd
  rw [hraw] at hblob
  obtain ⟨raw', hraw', henc⟩ := Option.map_eq_some_iff.mp hblob.symm
  have hdata := hc.decode_encoded raw'
  rw [henc] at hdata
  obtain rfl : raw' = data := Except.ok.inj (hdata.symm.trans hdec)
  have h₁ := hsize hos hd hr h0 hraw
  have h₂ := hsize hot hd ((h.persistedRef d).symm.trans hr) h0 hraw'
  rw [heq] at h₁
  exact Option.some.inj (h₂.symm.trans h₁)

/-- Two runs that return the same and leave the same fields and the same metadata. -/
structure SameRun (r r' : List (Except ChunkStoreError Reply) × State) : Prop where
  results : r.1 = r'.1
  fields : r.2.fields = r'.2.fields
  metadata : ∀ k, isChunkDigest k = false → r.2.find k = r'.2.find k

/-- **The run lemma**, from any two coded states. -/
theorem execAll_coded (hc : codec.Lossless) (h : Coded codec noDigest s t) (hs : Tended crates s)
    (ops : List Op) (hops : ∀ op ∈ ops, op.OnChunks) :
    (∀ ops₁, ops₁ <+: ops →
      SameRun ((coded crates codec).execAll ops₁ s) ((plain crates).execAll ops₁ t)) ↔
    ∀ ops₁, ops₁ ++ [.reopen] <+: ops →
      ManifestsLoad crates ((coded crates codec).execAll ops₁ s).2 none →
        (coded crates codec).Measured ((coded crates codec).execAll ops₁ s).2 := by
  induction ops generalizing s t with
  | nil =>
    refine iff_of_true (fun ops₁ hpre ↦ ?_) fun ops₁ hpre ↦ ?_
    · rw [List.prefix_nil.mp hpre]
      exact ⟨rfl, h.fields, h.metadata⟩
    · exact absurd (List.prefix_nil.mp hpre)
        (List.append_ne_nil_of_right_ne_nil _ (List.cons_ne_nil _ _))
  | cons op ops ih =>
    by_cases hm : op = .reopen → ManifestsLoad crates s none → (coded crates codec).Measured s
    · obtain ⟨hr, h'⟩ := exec_coded hc h op (hops op List.mem_cons_self) hm
      have hs' : Tended (coded crates codec).crates ((coded crates codec).exec op s).2 :=
        tended_exec hs op
      have ih' := ih h' hs' fun o ho ↦ hops o (List.mem_cons_of_mem op ho)
      constructor
      · intro hall ops₁ hpre
        cases ops₁ with
        | nil => exact hm (List.cons_prefix_cons.mp hpre).1.symm
        | cons o ops₁ =>
          obtain ⟨rfl, hrest⟩ := List.cons_prefix_cons.mp hpre
          refine ih'.mp (fun ops₂ hpre₂ ↦ ?_) ops₁ hrest
          have hsame := hall (o :: ops₂) (List.cons_prefix_cons.mpr ⟨rfl, hpre₂⟩)
          exact ⟨(List.cons.inj hsame.results).2, hsame.fields, hsame.metadata⟩
      · intro hall ops₁ hpre
        cases ops₁ with
        | nil => exact ⟨rfl, h.fields, h.metadata⟩
        | cons o ops₁ =>
          obtain ⟨rfl, hrest⟩ := List.cons_prefix_cons.mp hpre
          have hsame := ih'.mpr (fun ops₂ hpre₂ ↦
            hall (o :: ops₂) (List.cons_prefix_cons.mpr ⟨rfl, hpre₂⟩)) ops₁ hrest
          refine ⟨?_, hsame.fields, hsame.metadata⟩
          rw [execAll, execAll, hr, hsame.results]
    · push Not at hm
      obtain ⟨rfl, hload, hno⟩ := hm
      have hpre : ∀ ops₂ : List Op, [Op.reopen] <+: .reopen :: ops₂ := fun ops₂ ↦
        List.cons_prefix_cons.mpr ⟨rfl, List.nil_prefix⟩
      exact iff_of_false (fun hall ↦ hno (measured_of_reopened hc h hs hload
        (hall [.reopen] (hpre ops)).fields)) fun hall ↦ hno (hall [] (hpre ops) hload)

private theorem coded_empty (codec : ChunkCodec) (lists : Bool) :
    Coded codec noDigest (.empty lists) (.empty lists) :=
  ⟨rfl, rfl, rfl, fun _ _ ↦ rfl, fun _ _ ↦ rfl, fun _ _ hd ↦ hd.elim,
    fun f digests hf ↦ by cases hf⟩

/-- **When a codec is transparent.** For every codec that decodes what it encodes, and every run: a
store with the codec and a store without return the same results and have the same fields and the
same metadata after every part of the run, if and only if at every reopening whose manifests load
the blobs whose records have no size are as long as their chunks. -/
theorem codec_transparent_iff (crates : Crates) (codec : ChunkCodec) (hc : codec.Lossless)
    (lists : Bool) (ops : List Op) (hops : ∀ op ∈ ops, op.OnChunks) :
    (∀ ops₁, ops₁ <+: ops →
      SameRun ((coded crates codec).run lists ops₁) ((plain crates).run lists ops₁)) ↔
    ∀ ops₁, ops₁ ++ [.reopen] <+: ops →
      ManifestsLoad crates ((coded crates codec).run lists ops₁).2 none →
        (coded crates codec).Measured ((coded crates codec).run lists ops₁).2 := by
  have hstart := @exec_coded crates codec _ _ hc (coded_empty codec lists) .reopen trivial
    fun _ _ d r raw data _ _ hraw ↦ by cases hraw
  exact execAll_coded hc hstart.2 (tended_run (coded crates codec) lists []) ops hops

/-- The codec of the tests. -/
def xorCodec : ChunkCodec where
  encode p := .ok (p.map (· ^^^ 0x5a))
  decode stored := .ok (stored.map (· ^^^ 0x5a))
  decode_encode h := by
    obtain rfl := Except.ok.inj h
    rw [List.map_map]
    refine congrArg Except.ok ((List.map_congr_left fun b _ ↦ ?_).trans (List.map_id _))
    exact (UInt8.xor_assoc b 0x5a 0x5a).trans (by rw [UInt8.xor_self, UInt8.xor_zero]; rfl)

/-- A codec that keeps lengths is transparent, with the empty chunk too. -/
theorem codec_transparent_xor : SameRun
    ((coded smallCrates xorCodec).run true
      [.ingest "f" (.chunks [[], [0x61]]), .reopen, .read "f", .stats])
    ((plain smallCrates).run true
      [.ingest "f" (.chunks [[], [0x61]]), .reopen, .read "f", .stats]) := by
  refine (codec_transparent_iff smallCrates xorCodec (fun p ↦ xorCodec.decode_encode rfl) true _
    fun op hop ↦ ?_).mpr (fun _ _ _ d r raw data _ _ _ hdec ↦ ?_) _ List.prefix_rfl
  · simp only [List.mem_cons, List.not_mem_nil, or_false] at hop
    rcases hop with rfl | rfl | rfl | rfl <;> trivial
  · obtain rfl := Except.ok.inj hdec
    exact List.length_map _

/-- A codec that puts a byte in front. -/
def framed : ChunkCodec where
  encode p := .ok (0 :: p)
  decode
    | [] => .error (.backendError "no frame")
    | _ :: p => .ok p
  decode_encode h := by
    obtain rfl := Except.ok.inj h
    rfl

/-- The empty chunk is stored as one byte, and counted as one after reopening. -/
theorem codec_not_transparent : ¬∀ (crates : Crates) (codec : ChunkCodec), codec.Lossless →
    ∀ (lists : Bool) (ops : List Op), (∀ op ∈ ops, op.OnChunks) →
      SameRun ((coded crates codec).run lists ops) ((plain crates).run lists ops) := by
  intro h
  have hsame := (h smallCrates framed (fun p ↦ framed.decode_encode rfl) true
    [.ingest "f" (.chunks [[]]), .reopen, .stats] fun op hop ↦ ?_).results
  · exact absurd hsame (by decide +kernel)
  · simp only [List.mem_cons, List.not_mem_nil, or_false] at hop
    rcases hop with rfl | rfl | rfl <;> trivial

end ChunkStore

end Chunkstore

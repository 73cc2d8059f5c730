import Chunkstore.Core.Footprint
import Chunkstore.Crash.Fsck
import Chunkstore.Crash.Prefixes

/-!
# Blobs that are missing after a crash

A digest that the backend counts should have a blob. Every write of an ingest or a delete keeps it
so but one: releasing the last reference of a chunk deletes the blob while its record is still there
(`Strips`). The deletion of the record, the next write, puts it right.

`Backing` is what holds between two writes, with one digest whose blob may be gone; that the counts
in memory are backed as well is what lets a record be saved again when a reference is released.

## Main result

* `ChunkStore.crash_no_missing_iff`: at every crash point that can be opened, `fsck` reports no
  missing blob exactly when the last write was not such a deletion.
-/

open Effects Program

namespace Chunkstore

/-! ## Counted digests and their blobs -/

/-- Every digest the backend counts has its blob, but perhaps one. -/
def Backed (crates : Crates) (but : Option String) (s : State) : Prop :=
  ∀ d, isChunkDigest d = true → d ∉ but → 0 < persistedCount crates s d → (s.find d).isSome

/-- The write deletes the blob of a digest the backend counts. -/
def BackendWrite.Strips (crates : Crates) (s : State) : BackendWrite → Prop
  | .put _ _ => False
  | .delete key => isChunkDigest key = true ∧ 0 < persistedCount crates s key

/-- After the write every counted digest has its blob, unless the write strips one. -/
def BlobSafe (crates : Crates) (s : State) (w : BackendWrite) : Prop :=
  Backed crates none (w.apply s) ↔ ¬w.Strips crates s

/-- The counts of the backend are backed, but perhaps one, and so are those in memory. -/
structure Backing (crates : Crates) (but : Option String) (s : State) : Prop where
  persisted : Backed crates but s
  live : ∀ d, (s.fields.refcount.counts.find d).isSome → isChunkDigest d = true →
    (s.find d).isSome
  listed : ∀ f digests, s.fields.manifest.tryGet f = some digests →
    ∀ d ∈ digests, isChunkDigest d = true

section Writes

variable {crates : Crates} {s s' : State} {key digest : String} {o : Option Bytes}
  {but : Option String}

theorem blobSafe_of_backed {w : BackendWrite} (hk : isChunkDigest w.key = false)
    (h : Backed crates none (w.apply s)) : BlobSafe crates s w := by
  refine iff_of_true h fun hs ↦ ?_
  cases w with
  | put key data => exact hs
  | delete key =>
    obtain ⟨hc, -⟩ := hs
    rw [show isChunkDigest key = false from hk] at hc
    exact Bool.noConfusion hc

/-- Only the backend has changed, and no blob is gone. -/
private theorem Backing.of_find (h : Backing crates but s) (hf : s'.fields = s.fields)
    (hi : s'.find refcountIndexKey = s.find refcountIndexKey)
    (hr : ∀ d, s'.find (refcountKey d) = s.find (refcountKey d))
    (hb : ∀ d, isChunkDigest d = true → (s.find d).isSome → (s'.find d).isSome) :
    Backing crates but s' := by
  refine ⟨fun d hd hn hpos ↦ hb d hd (h.persisted d hd hn ?_), fun d hd hc ↦ ?_, ?_⟩
  · rwa [← persistedCount_congr hi (hr d)]
  · rw [hf] at hd
    exact hb d hc (h.live d hd hc)
  · rw [hf]
    exact h.listed

theorem Backing.of_wrote (h : Backing crates but s) (hw : Wrote s s' key o) (hk : OffRefcount key)
    (ho : isChunkDigest key = true → o.isSome) : Backing crates but s' := by
  refine h.of_find hw.fields (hw.find_ne hk.ne_indexKey.symm) (fun d ↦ hw.find_ne (hk d).symm)
    fun d hd hs ↦ ?_
  by_cases hdk : d = key
  · rw [hdk, hw.find_self]
    exact ho (hdk ▸ hd)
  · rwa [hw.find_ne hdk]

/-- A write to a key that is no chunk name, whatever it does to the counts of the backend. -/
theorem Backing.of_backed (h : Backing crates but s) (hw : Wrote s s' key o)
    (hk : isChunkDigest key = false) (hp : Backed crates none s') : Backing crates none s' := by
  refine ⟨hp, fun d hd hc ↦ ?_, by rw [hw.fields]; exact h.listed⟩
  rw [hw.fields] at hd
  rw [hw.find_ne (ne_of_isChunkDigest hc hk)]
  exact h.live d hd hc

/-- The fields have changed, and a digest that is counted now has a blob. -/
theorem Backing.withFields (h : Backing crates but s) {f : Fields}
    (hl : ∀ d, (f.refcount.counts.find d).isSome →
      (s.fields.refcount.counts.find d).isSome ∨ (s.find d).isSome)
    (hm : ∀ g digests, f.manifest.tryGet g = some digests → ∀ d ∈ digests, isChunkDigest d = true) :
    Backing crates but (s.withFields f) :=
  ⟨h.persisted, fun d hd hc ↦ (hl d hd).elim (fun hs ↦ h.live d hs hc) id, hm⟩

/-- The record of a digest with a blob is written, or that of any digest deleted. -/
theorem Backed.wroteRecord (h : Backed crates but s) (hw : Wrote s s' (refcountKey digest) o)
    (hd : isChunkDigest digest = true) (hbut : ∀ d ∈ but, d = digest)
    (ho : o = none ∨ (s.find digest).isSome) : Backed crates none s' := by
  have hne := ne_of_isChunkDigest hd isChunkDigest_indexName
  intro d hdd _ hpos
  rw [hw.find_ne (ne_of_isChunkDigest hdd (isChunkDigest_refcountKey digest))]
  by_cases hdig : d = digest
  · rw [hdig] at hpos ⊢
    rcases ho with rfl | ho
    · rw [persistedCount_of_isListed (isListed_of_pos hpos), recordCount, hw.find_self] at hpos
      exact absurd hpos (Nat.lt_irrefl 0)
    · exact ho
  · refine h d hdd (fun hb ↦ hdig (hbut d hb)) ?_
    rwa [← persistedCount_congr (hw.find_ne (refcountKey_ne_indexKey hne).symm)
      (hw.find_ne (mt refcountKey_inj.mp hdig))]

/-- The refcount index is rewritten, with no digest that has a count but no blob. -/
theorem Backed.wroteIndex {l : List String} (h : Backed crates none s)
    (hall : ∀ d ∈ l, IsListed crates s d ∨ (s.find d).isSome) :
    Backed crates none (s.put refcountIndexKey (crates.serde.stringsToVec l)) := by
  have hw := wrote_put s refcountIndexKey (crates.serde.stringsToVec l)
  intro d hd hn hpos
  have hlist := isListed_of_pos hpos
  rw [isListed_of_readIndex (readIndex_of_strings hw.find_self)] at hlist
  rw [hw.find_ne (ne_of_isChunkDigest hd isChunkDigest_refcountIndexKey)]
  rcases hall d hlist with hold | hb
  · refine h d hd hn ?_
    rw [persistedCount_of_isListed (isListed_of_pos hpos), recordCount_congr (hw.find_ne
      (refcountKey_ne_indexKey (ne_of_isChunkDigest hd isChunkDigest_indexName)))] at hpos
    rwa [persistedCount_of_isListed hold]
  · exact hb

/-! ## Saving and removing records -/

theorem carefully_manifestKeys {p : BackendM Unit} (h : Backing crates none s)
    (hp : Confined (fun key ↦ ∃ f, key = manifestKey f) p) :
    carefully (BlobSafe crates) p (fun _ ↦ Backing crates none)
      (fun _ ↦ Backing crates none) s := by
  refine carefully_confined hp h fun s w ⟨f, hf⟩ hs ↦ ?_
  have hw := w.wrote s
  have hk : isChunkDigest w.key = false := hf ▸ isChunkDigest_manifestKey f
  have hs' := hs.of_wrote hw (hf ▸ offRefcount_manifestKey f) fun hc ↦ by
    rw [hk] at hc
    exact Bool.noConfusion hc
  exact ⟨blobSafe_of_backed hk hs'.persisted, hs'⟩

theorem carefully_saveManifest_backing {fileId : String} {digests : List String} {fileBytes : ℕ}
    (h : Backing crates none s) :
    carefully (BlobSafe crates) (saveManifest crates fileId digests fileBytes)
      (fun _ ↦ Backing crates none) (fun _ ↦ Backing crates none) s :=
  carefully_manifestKeys h
    (confined_saveManifest ⟨fileId, rfl⟩ ⟨indexName, manifestKey_indexName.symm⟩)

theorem carefully_removeManifest_backing {fileId : String} (h : Backing crates none s) :
    carefully (BlobSafe crates) (removeManifest crates fileId)
      (fun _ ↦ Backing crates none) (fun _ ↦ Backing crates none) s :=
  carefully_manifestKeys h
    (confined_removeManifest ⟨fileId, rfl⟩ ⟨indexName, manifestKey_indexName.symm⟩)

theorem carefully_readIndex {α : Type} {P : State → BackendWrite → Prop} {Q : α → State → Prop}
    {R : ChunkStoreError → State → Prop} {f : List String → BackendM α} (hR : ∀ e, R e s)
    (h : ∀ l, readIndex crates s key = some l → carefully P (f l) Q R s) :
    carefully P (readStringList crates key >>= f) Q R s :=
  carefully_bind (wpx_readStringList (fun _ ↦ watched_of_none rfl) h fun _ ↦ hR)

theorem carefully_writeIndex {l : List String} (h : Backing crates none s)
    (hall : ∀ d ∈ l, IsListed crates s d ∨ (s.find d).isSome) :
    carefully (BlobSafe crates) (writeStringList crates refcountIndexKey l)
      (fun _ ↦ Backing crates none) (fun _ ↦ Backing crates none) s := by
  have hs := h.persisted.wroteIndex hall
  exact carefully_put (blobSafe_of_backed isChunkDigest_refcountIndexKey hs)
    (h.of_backed (wrote_put _ _ _) isChunkDigest_refcountIndexKey hs)

/-- **Saving a reference count** of a digest with a blob. -/
theorem carefully_saveRefcount_backing {count size : ℕ} (h : Backing crates none s)
    (hd : isChunkDigest digest = true) (hb : (s.find digest).isSome) :
    carefully (BlobSafe crates) (saveRefcount crates digest count size)
      (fun _ ↦ Backing crates none) (fun _ ↦ Backing crates none) s := by
  have hw := wrote_put s (refcountKey digest) (crates.serde.refcountToVec ⟨count, size⟩)
  have hs := h.of_backed hw (isChunkDigest_refcountKey digest)
    (h.persisted.wroteRecord hw hd (fun d hn ↦ absurd hn (Option.not_mem_none d)) (Or.inr hb))
  rw [saveRefcount_eq, validateDigest_eq_ok.mpr hd, ofExcept_ok, pure_bind]
  refine carefully_bind (carefully_put
    (blobSafe_of_backed (isChunkDigest_refcountKey digest) hs.persisted) ?_)
  refine carefully_readIndex (fun _ ↦ hs) fun l hl ↦ ?_
  split
  · exact carefully_pure hs
  · refine carefully_writeIndex hs fun d hdl ↦ ?_
    rcases List.mem_append.mp hdl with hdl | hdl
    · exact Or.inl ((isListed_of_readIndex hl).mpr hdl)
    · rw [List.mem_singleton.mp hdl,
        hw.find_ne (ne_of_isChunkDigest hd (isChunkDigest_refcountKey _))]
      exact Or.inr hb

/-- **Removing a reference count** mends a digest whose blob is gone. -/
theorem carefully_removeRefcount_backing (h : Backing crates (some digest) s)
    (hd : isChunkDigest digest = true) :
    carefully (BlobSafe crates) (removeRefcount crates digest)
      (fun _ ↦ Backing crates none) (fun _ ↦ Backing crates none) s := by
  have hw := wrote_del s (refcountKey digest)
  have hs := h.of_backed hw (isChunkDigest_refcountKey digest)
    (h.persisted.wroteRecord hw hd (fun d hn ↦ (Option.mem_some_iff.mp hn).symm) (Or.inl rfl))
  rw [removeRefcount_eq]
  refine carefully_bind (carefully_delete
    (blobSafe_of_backed (isChunkDigest_refcountKey digest) hs.persisted) ?_)
  exact carefully_readIndex (fun _ ↦ hs) fun l hl ↦ carefully_writeIndex hs fun d hdl ↦
    Or.inl ((isListed_of_readIndex hl).mpr (List.mem_filter.mp hdl).1)

/-- **Deleting the blob** of a digest that is counted no longer in memory. The write strips it
unless it is counted on the backend neither. -/
theorem carefully_deleteBlob_backing (h : Backing crates none s) (hd : isChunkDigest digest = true)
    (hlive : s.fields.refcount.counts.find digest = none) :
    carefully (BlobSafe crates) (backendCall (.delete digest))
      (fun _ ↦ Backing crates (some digest)) (fun _ ↦ Backing crates none) s := by
  have hw := wrote_del s digest
  have hcount : ∀ d, persistedCount crates (s.del digest) d = persistedCount crates s d := fun d ↦
    persistedCount_congr (hw.find_ne (offRefcount_of_isChunkDigest hd).ne_indexKey.symm)
      (hw.find_ne (offRefcount_of_isChunkDigest hd d).symm)
  have hother : ∀ d, d ≠ digest → isChunkDigest d = true → 0 < persistedCount crates s d →
      ((s.del digest).find d).isSome := fun d hne hdd hpos ↦ by
    rw [hw.find_ne hne]
    exact h.persisted d hdd (Option.not_mem_none d) hpos
  refine carefully_delete ⟨fun hb ⟨_, hpos⟩ ↦ ?_, fun hn d hdd _ hpos ↦ ?_⟩ ⟨?_, ?_, h.listed⟩
  · have hgone := hb digest hd (Option.not_mem_none _) ((hcount digest).symm ▸ hpos)
    rw [show (BackendWrite.delete digest).apply s = s.del digest from rfl, hw.find_self] at hgone
    exact Bool.noConfusion hgone
  · rw [show (BackendWrite.delete digest).apply s = s.del digest from rfl, hcount] at hpos
    refine hother d (fun hdig ↦ hn ⟨hd, ?_⟩) hdd hpos
    rwa [← hdig]
  · intro d hdd hbut hpos
    rw [hcount] at hpos
    exact hother d (fun hdig ↦ hbut (hdig ▸ rfl)) hdd hpos
  · intro d hl hc
    refine (hw.find_ne fun hdig ↦ ?_).symm ▸ h.live d hl hc
    rw [hdig, show (s.del digest).fields = s.fields from rfl, hlive] at hl
    exact Bool.noConfusion hl

end Writes

/-! ## Operations -/

section Operations

variable {store : ChunkStore} {s : State} {digest fileId : String} {digests : List String}

private theorem isSome_find_refcountIncrement (size : ℕ) (f : Fields) (d : String)
    (h : (((FieldAccess.refcountIncrement digest size).run f).2.refcount.counts.find d).isSome) :
    (f.refcount.counts.find d).isSome ∨ d = digest := by
  rw [FieldAccess.run] at h
  split at h
  · rename_i n rc' hinc
    obtain ⟨-, hc⟩ := RefCount.increment_eq_ok hinc
    dsimp only at h
    rw [hc, Table.find_set] at h
    split at h
    · exact Or.inr (by assumption)
    · exact Or.inl h
  · exact Or.inl h

theorem carefully_storeChunk_backing {chunk : Bytes} (h : Backing store.crates none s)
    (hd : isChunkDigest digest = true) :
    carefully (BlobSafe store.crates) (flat (store.storeChunk digest chunk))
      (fun _ ↦ Backing store.crates none) (fun _ ↦ Backing store.crates none) s := by
  simp only [ChunkStore.storeChunk, flat_bind, flat_ofExcept, flat_locked, flat_ite, flat_pure]
  refine carefully_bind (carefully_ofExcept (fun blob _ ↦ ?_) fun _ _ ↦ h)
  have hblob : carefully (BlobSafe store.crates) (ChunkStore.putBlob digest blob)
      (fun _ s' ↦ Backing store.crates none s' ∧ (s'.find digest).isSome)
      (fun _ ↦ Backing store.crates none) s := by
    refine carefully_bind (carefully_existsKey ?_)
    split
    · exact carefully_pure ⟨h, by assumption⟩
    · have hw := wrote_put s digest blob
      have hs := h.of_wrote hw (offRefcount_of_isChunkDigest hd) fun _ ↦ rfl
      refine carefully_bind (carefully_put (iff_of_true hs.persisted id)
        (carefully_pure ⟨hs, ?_⟩))
      rw [hw.find_self]
      rfl
  refine carefully_bind (carefully_mono hblob ?_ fun _ _ h ↦ h)
  rintro present s₁ ⟨hs₁, hb₁⟩
  have hcount : carefully (BlobSafe store.crates) (store.countChunk digest chunk.length)
      (fun _ ↦ Backing store.crates none) (fun _ ↦ Backing store.crates none) s₁ := by
    have hs₂ : Backing store.crates none (s₁.withFields
        ((FieldAccess.refcountIncrement digest chunk.length).run s₁.fields).2) := by
      refine hs₁.withFields (fun d hs ↦ ?_) ?_
      · rcases isSome_find_refcountIncrement _ _ d hs with hs | rfl
        · exact Or.inl hs
        · exact Or.inr hb₁
      · rw [manifest_refcountIncrement]
        exact hs₁.listed
    refine carefully_bind (carefully_fieldOrThrow (fun n _ ↦ ?_) fun _ _ ↦ hs₂)
    exact carefully_bind (carefully_field (carefully_saveRefcount_backing hs₂ hd hb₁))
  refine carefully_bind (carefully_mono hcount (fun _ s₂ hs₂ ↦ ?_) fun _ _ h ↦ h)
  split
  all_goals exact carefully_bind (carefully_field (carefully_pure
    (hs₂.withFields (fun _ ↦ Or.inl) hs₂.listed)))

/-- The table after a decrement: no entry is new, and none is left for the digest at zero. -/
private theorem find_refcountDecrement (digest : String) (f : Fields) :
    (∀ d, (((FieldAccess.refcountDecrement digest).run f).2.refcount.counts.find d).isSome →
      (f.refcount.counts.find d).isSome) ∧
    ∀ n, ((FieldAccess.refcountDecrement digest).run f).1 = .ok n →
      (f.refcount.counts.find digest).isSome ∧ (n = 0 →
        ((FieldAccess.refcountDecrement digest).run f).2.refcount.counts.find digest = none) := by
  rw [FieldAccess.run]
  cases hr : f.refcount.counts.find digest with
  | none =>
    rw [RefCount.decrement_of_find_none hr]
    exact ⟨fun _ h ↦ h, fun _ h ↦ by cases h⟩
  | some r =>
    rw [RefCount.decrement_of_find hr]
    refine ⟨fun d h ↦ ?_, fun n hn ↦ ⟨rfl, fun h0 ↦ ?_⟩⟩
    · by_cases hdd : d = digest
      · rw [hdd, hr]
        rfl
      · dsimp only at h
        split at h
        · rwa [Table.find_unset, if_neg hdd] at h
        · rwa [Table.find_set, if_neg hdd] at h
    · cases hn
      dsimp only
      rw [if_pos h0, Table.find_unset, if_pos rfl]

private theorem carefully_releaseDigest_backing (h : Backing store.crates none s)
    (hd : isChunkDigest digest = true) :
    carefully (BlobSafe store.crates) (flat (store.releaseDigest digest))
      (fun _ ↦ Backing store.crates none) (fun _ ↦ Backing store.crates none) s := by
  simp only [ChunkStore.releaseDigest, flat_bind, flat_locked, flat_unlocked, flat_ite]
  have hsize : carefully (BlobSafe store.crates) (flat (store.chunkSize digest))
      (fun _ ↦ Backing store.crates none) (fun _ ↦ Backing store.crates none) s := by
    simp only [ChunkStore.chunkSize, flat_bind, flat_locked, flat_ite, flat_pure, flat_unlocked]
    refine carefully_bind (carefully_field ?_)
    split
    · exact carefully_pure h
    · refine carefully_bind (carefully_get ?_)
      cases State.find _ digest with
      | none => exact carefully_throw h
      | some raw =>
        simp only [flat_bind, flat_ofExcept, flat_pure]
        exact carefully_bind (carefully_ofExcept (fun data _ ↦ carefully_pure h) fun _ _ ↦ h)
  refine carefully_bind (carefully_mono hsize (fun size s hs ↦ ?_) fun _ _ h ↦ h)
  obtain ⟨hold, hfound⟩ := find_refcountDecrement digest s.fields
  have hs₁ : Backing store.crates none (s.withFields
      ((FieldAccess.refcountDecrement digest).run s.fields).2) := by
    refine hs.withFields (fun d hd ↦ Or.inl (hold d hd)) ?_
    rw [manifest_refcountDecrement]
    exact hs.listed
  refine carefully_bind (carefully_fieldOrThrow (fun remaining hr ↦ ?_) fun _ _ ↦ hs₁)
  obtain ⟨hentry, hgone⟩ := hfound remaining hr
  split
  · rename_i h0
    refine carefully_bind (carefully_mono (carefully_deleteBlob_backing hs₁ hd (hgone h0))
      (fun _ s₂ hs₂ ↦ ?_) fun _ _ h ↦ h)
    refine carefully_bind (carefully_mono (carefully_removeRefcount_backing hs₂ hd)
      (fun _ s₃ hs₃ ↦ ?_) fun _ _ h ↦ h)
    have hs₄ := hs₃.withFields (f := ((FieldAccess.statsRemoveUniqueChunk size).run s₃.fields).2)
      (fun _ ↦ Or.inl) hs₃.listed
    exact carefully_bind (carefully_field (carefully_field
      (hs₄.withFields (fun _ ↦ Or.inl) hs₄.listed)))
  · -- the digest was counted before, so its blob is there
    refine carefully_bind (carefully_mono (carefully_saveRefcount_backing hs₁ hd
      (hs.live digest hentry hd)) (fun _ s₂ hs₂ ↦ ?_) fun _ _ h ↦ h)
    exact carefully_field (hs₂.withFields (fun _ ↦ Or.inl) hs₂.listed)

theorem carefully_releaseDigests_backing (h : Backing store.crates none s)
    (hd : ∀ d ∈ digests, isChunkDigest d = true) :
    carefully (BlobSafe store.crates) (flat (store.releaseDigests digests))
      (fun _ ↦ Backing store.crates none) (fun _ ↦ Backing store.crates none) s := by
  induction digests generalizing s with
  | nil => exact carefully_pure h
  | cons d digests ih =>
    rw [ChunkStore.releaseDigests, flat_bind]
    exact carefully_bind (carefully_mono
      (carefully_releaseDigest_backing h (hd d List.mem_cons_self))
      (fun _ s₁ hs₁ ↦ ih hs₁ fun e he ↦ hd e (List.mem_cons_of_mem d he)) fun _ _ h ↦ h)

/-- **Ingest.** -/
theorem carefully_ingestStream_backing {stream : Stream} (h : Backing store.crates none s) :
    carefully (BlobSafe store.crates) (flat (store.ingestStream fileId stream))
      (fun _ ↦ Backing store.crates none) (fun _ ↦ Backing store.crates none) s := by
  simp only [ChunkStore.ingestStream, Stream.consume, flat_bind, flat_foldlM, bind_assoc]
  refine carefully_bind (carefully_mono (wpx_foldlM (J := fun _ session s' ↦
    (∀ d ∈ session.digests, isChunkDigest d = true) ∧ Backing store.crates none s')
    (R := fun _ ↦ Backing store.crates none) ?_ stream.chunks
    ChunkStore.IngestSession.new s ⟨fun d hd ↦ absurd hd List.not_mem_nil, h⟩) ?_ fun _ _ h ↦ h)
  · rintro chunk l session s₁ ⟨hd, hs₁⟩
    simp only [ChunkStore.accept, flat_bind, flat_pure]
    refine carefully_bind (carefully_mono
      (carefully_storeChunk_backing hs₁ (isChunkDigest_digestHex _ _))
      (fun _ s₂ hs₂ ↦ carefully_pure ⟨fun d hmem ↦ ?_, hs₂⟩) fun _ _ h ↦ h)
    rcases List.mem_append.mp hmem with hmem | hmem
    · exact hd d hmem
    · rw [List.mem_singleton.mp hmem]
      exact isChunkDigest_digestHex _ _
  · rintro session s₁ ⟨hd, hs₁⟩
    cases stream.error with
    | some e => exact carefully_bind (carefully_throw hs₁)
    | none =>
      refine carefully_bind (carefully_pure ?_)
      simp only [ChunkStore.commit, ChunkStore.peekDigests, flat_bind, flat_locked, flat_unlocked]
      refine carefully_bind (carefully_field ?_)
      dsimp only [FieldAccess.run, State.withFields_fields]
      have hs₂ : Backing store.crates none (s₁.withFields ((FieldAccess.manifestInsert fileId
          session.digests session.fileBytes).run s₁.fields).2) := by
        rw [FieldAccess.run]
        by_cases hempty : fileId = ""
        · rw [hempty, Manifest.insert_empty]
          exact hs₁
        · rw [Manifest.insert_eq_ok hempty]
          refine hs₁.withFields (fun _ ↦ Or.inl) fun f digests hget ↦ ?_
          rw [Manifest.tryGet, Table.find_set] at hget
          split at hget
          · cases hget
            exact hd
          · exact hs₁.listed f digests hget
      refine carefully_bind (carefully_fieldOrThrow (fun _ _ ↦ ?_) fun _ _ ↦ hs₂)
      refine carefully_bind (carefully_mono (carefully_saveManifest_backing hs₂)
        (fun _ s₃ hs₃ ↦ ?_) fun _ _ h ↦ h)
      cases hold : s₁.fields.manifest.tryGet fileId with
      | none =>
        refine carefully_bind (carefully_pure ?_)
        exact hs₃
      | some old =>
        dsimp only
        rw [flat_bind]
        exact carefully_bind (carefully_mono
          (carefully_releaseDigests_backing hs₃ (hs₁.listed fileId old hold))
          (fun _ s₄ hs₄ ↦ carefully_pure hs₄) fun _ _ h ↦ h)

/-- **Delete.** -/
theorem carefully_delete_backing (h : Backing store.crates none s) :
    carefully (BlobSafe store.crates) (flat (store.delete fileId))
      (fun _ ↦ Backing store.crates none) (fun _ ↦ Backing store.crates none) s := by
  have hs₁ : Backing store.crates none
      (s.withFields ((FieldAccess.manifestRemove fileId).run s.fields).2) := by
    refine h.withFields (fun _ ↦ Or.inl) fun f digests hget ↦ ?_
    rw [FieldAccess.run, Manifest.tryGet, Manifest.remove, Table.find_unset] at hget
    split at hget
    · cases hget
    · exact h.listed f digests hget
  simp only [ChunkStore.delete, flat_bind, flat_locked, flat_unlocked]
  refine carefully_bind (carefully_fieldOrThrow (fun digests hok ↦ ?_) fun _ _ ↦ hs₁)
  have hget : s.fields.manifest.tryGet fileId = some digests := by
    rw [FieldAccess.run, Manifest.remove, Manifest.get] at hok
    split at hok
    · cases hok
      assumption
    · cases hok
  exact carefully_bind (carefully_mono (carefully_removeManifest_backing hs₁)
    (fun _ _ hs₂ ↦ carefully_releaseDigests_backing hs₂ (h.listed fileId digests hget))
    fun _ _ h ↦ h)

end Operations

/-! ## Every crash point -/

namespace ChunkStore

variable {store : ChunkStore} {s : State} {op : Op}

/-- **The step lemma.** Every write of an ingest or a delete is safe for the blobs. -/
theorem carefully_perform_backing (h : Backing store.crates none s) (hop : op.file.isSome) :
    carefully (BlobSafe store.crates) (flat (store.perform op))
      (fun _ ↦ Backing store.crates none) (fun _ ↦ Backing store.crates none) s := by
  cases op with
  | ingest fileId input =>
    rw [perform, flat_map, ingestInput_eq, map_eq_pure_bind]
    exact carefully_bind (carefully_mono (carefully_ingestStream_backing h)
      (fun _ _ h ↦ carefully_pure h) fun _ _ h ↦ h)
  | delete fileId =>
    rw [perform, flat_map, map_eq_pure_bind]
    exact carefully_bind (carefully_mono (carefully_delete_backing h)
      (fun _ _ h ↦ carefully_pure h) fun _ _ h ↦ h)
  | read | readChunk | fsck | stats | chunkRefcount | reopen => cases hop

private theorem blobSafe_crash {crates : Crates} {w : BackendWrite} (h : BlobSafe crates s w) :
    BlobSafe crates (crash s) w := by
  cases w <;> exact h

theorem blobSafe_of_prefix (h : Backing store.crates none s) (hop : op.file.isSome)
    {ws : List BackendWrite} {w : BackendWrite} (hws : ws ++ [w] <+: store.writesOf op s) :
    BlobSafe store.crates (ws.foldl BackendWrite.apply (crash s)) w := by
  refine holds_at_event (P := BlobSafe store.crates) crash_handle
    (fun _ _ _ _ w hstep hw ↦ ?_) (wp_callHandler (carefully_perform_backing h hop)) hws
  exact blobSafe_crash (hstep w hw)

theorem backing_exec (h : Backing store.crates none s) (hop : op.file.isSome) :
    Backing store.crates none (store.exec op s).2 := by
  have hpost := wp_eval (wp_callHandler (carefully_perform_backing h hop))
  change outcome _ _ (store.exec op s).1 (store.exec op s).2 at hpost
  cases hr : (store.exec op s).1 with
  | ok reply =>
    rw [hr] at hpost
    exact hpost
  | error e =>
    rw [hr] at hpost
    exact hpost

theorem backing_empty (crates : Crates) (lists : Bool) : Backing crates none (.empty lists) := by
  refine ⟨fun d _ _ hpos ↦ ?_, fun d hd ↦ Bool.noConfusion hd, fun f digests hget ↦ by cases hget⟩
  have hindex : readIndex crates (.empty lists) refcountIndexKey = some [] :=
    readIndex_of_find_none rfl
  exact absurd ((isListed_of_readIndex hindex).mp (isListed_of_pos hpos)) List.not_mem_nil

theorem opened_of_isOk (h : (store.exec .reopen s).1.isOk = true) :
    Opened store.crates s (store.exec .reopen s).2 := by
  have hspec : quietly (flat (store.perform .reopen)) (fun _ s' ↦ Opened store.crates s s')
      (fun _ _ ↦ ¬Openable store.crates s) s := by
    rw [perform, flat_map]
    exact quietly_map (quietly_reopen quietly_openStore_opened)
  have hrun := quietly_eval hspec
  change outcome _ _ (store.exec .reopen s).1 (store.exec .reopen s).2 at hrun
  cases hr : (store.exec .reopen s).1 with
  | ok reply =>
    rw [hr] at hrun
    exact hrun
  | error e =>
    rw [hr] at h
    cases h

/-! ### Opening leaves a fit state -/

private theorem quietly_backfillRefcountSizes_sound {crates : Crates} {rc : RefCount}
    (h : Sound crates none none s)
    (hrc : ∀ d r, rc.counts.find d = some r → isChunkDigest d = true) :
    quietly (backfillRefcountSizes crates rc) (fun _ s' ↦ Sound crates none none s')
      (fun _ _ ↦ True) s := by
  rw [backfillRefcountSizes]
  refine quietly_mono (quietly_foldlM (J := fun l _ s' ↦ Sound crates none none s' ∧
    ∀ e ∈ l, isChunkDigest e.1 = true) ?_ _ rc s ⟨h, fun e he ↦ ?_⟩) (fun _ _ h ↦ h.1) fun _ _ h ↦ h
  · rintro ⟨d, count⟩ l rc' s' ⟨hs, hl⟩
    have hl' : ∀ e ∈ l, isChunkDigest e.1 = true := fun e he ↦ hl e (List.mem_cons_of_mem _ he)
    refine quietly_bind (quietly_get ?_)
    cases hraw : s'.find d with
    | none => exact quietly_pure ⟨hs, hl'⟩
    | some raw =>
      dsimp only
      rw [if_pos (hl _ List.mem_cons_self)]
      have hblob : (s'.find d).isSome := by
        rw [hraw]
        rfl
      exact quietly_bind (quietly_mono (quietly_of_carefully (carefully_saveRefcount
        (R := fun _ _ ↦ True) hs (hl _ List.mem_cons_self) fun _ ↦ hblob))
        (fun _ _ h ↦ quietly_pure ⟨h.1, hl'⟩) fun _ _ h ↦ h)
  · obtain ⟨r, hr, -⟩ := mem_stale rc he
    exact hrc _ r hr

private theorem quietly_openStore_sound {crates : Crates} (h : Sound crates none none s) :
    quietly (flat (openStore crates)) (fun _ s' ↦ Sound crates none none s')
      (fun _ _ ↦ True) s := by
  rw [flat_openStore, loadMetadata]
  refine quietly_bind (quietly_bind (quietly_mono (quietly_of_idle (idle_loadManifests crates)) ?_
    fun _ _ _ ↦ trivial))
  rintro m _ rfl
  refine quietly_bind (quietly_mono quietly_loadRefcounts_iff ?_ fun _ _ _ ↦ trivial)
  rintro loaded _ ⟨rfl, hmirrors, -⟩
  refine quietly_bind (quietly_mono (quietly_backfillRefcountSizes_sound h
    fun d r hr ↦ (hmirrors.valid d r hr).1) ?_ fun _ _ h ↦ h)
  intro rc s₁ hs₁
  refine quietly_field (quietly_bind (quietly_mono quietly_rebuildStats_iff ?_ fun _ _ _ ↦ trivial))
  rintro _ _ ⟨-, stats, rfl, -⟩
  exact quietly_pure ((hs₁.of_fields _).of_fields _)

/-- **Opening leaves a fit state,** if no file has the name of the index. -/
theorem fit_reopen (hopen : (store.exec .reopen s).1.isOk = true)
    (hname : (store.exec .reopen s).2.fields.manifest.tryGet indexName = none) :
    Fit store.crates (store.exec .reopen s).2 := by
  have hopened := opened_of_isOk hopen
  have hs : Sound store.crates none none s := by
    refine ⟨hopened.openable.manifests, hopened.openable.refcounts, fun hmem ↦ ?_⟩
    -- the file would have been loaded
    obtain ⟨l, hl, hloads⟩ := hopened.openable.manifests
    rw [hl, Option.getD_some] at hmem
    obtain ⟨-, raw, record, hraw, hrecord, -⟩ := hloads _ hmem (Option.not_mem_none _)
    have hfile := (hopened.files indexName).1
    rw [persistedFile, hl, Option.getD_some, if_pos hmem, manifestRecord, hraw, Option.bind_some,
      hrecord] at hfile
    rw [Manifest.tryGet, hfile] at hname
    cases hname
  have hspec : quietly (flat (store.perform .reopen)) (fun _ s' ↦ Sound store.crates none none s')
      (fun _ _ ↦ True) s := by
    rw [perform, flat_map]
    exact quietly_map (quietly_reopen (quietly_openStore_sound hs))
  have hrun := quietly_eval hspec
  change outcome _ _ (store.exec .reopen s).1 (store.exec .reopen s).2 at hrun
  cases hr : (store.exec .reopen s).1 with
  | error e =>
    rw [hr] at hopen
    cases hopen
  | ok reply =>
    rw [hr] at hrun
    refine ⟨hrun, fun f digests hf ↦ ⟨?_, ?_⟩⟩
    · rintro rfl
      cases hf.symm.trans hname
    · exact isChunkDigest_of_matches hopened.openable.manifests (hopened.files f) hf

theorem exec_fsck (repair : Bool) (s : State) :
    (store.exec (.fsck repair) s).1 = .ok (.report
        ⟨missingOf s, orphansOf s, if repair then (orphansOf s).length else 0⟩) ∧
      (store.exec (.fsck repair) s).2.fields = s.fields ∧
        ∀ k, (store.exec (.fsck repair) s).2.find k
          = if repair ∧ k ∈ orphansOf s then none else s.find k := by
  have hspec : quietly (flat (store.perform (.fsck repair)))
      (fun reply s' ↦ reply = .report
          ⟨missingOf s, orphansOf s, if repair then (orphansOf s).length else 0⟩ ∧
        s'.fields = s.fields ∧
          ∀ k, s'.find k = if repair ∧ k ∈ orphansOf s then none else s.find k)
      (fun _ _ ↦ False) s := by
    rw [perform, flat_map]
    exact quietly_map (quietly_mono (quietly_fsck_report repair)
      (fun report s' h ↦ ⟨congrArg Reply.report h.1, h.2⟩) fun _ _ h ↦ h)
  have hrun := quietly_eval hspec
  change outcome _ _ (store.exec (.fsck repair) s).1 (store.exec (.fsck repair) s).2 at hrun
  cases hr : (store.exec (.fsck repair) s).1 with
  | ok reply =>
    rw [hr] at hrun
    exact ⟨congrArg Except.ok hrun.1, hrun.2⟩
  | error e =>
    rw [hr] at hrun
    exact hrun.elim

theorem missingBlobs_of_exec_fsck {repair : Bool} {report : FsckReport}
    (h : (store.exec (.fsck repair) s).1 = .ok (.report report)) :
    report.missingBlobs = missingOf s := by
  rw [(exec_fsck repair s).1] at h
  cases h
  rfl

end ChunkStore

/-- The digests that opening counts are those with a persisted count. -/
theorem Opened.isSome_iff {crates : Crates} {s s' : State} (h : Opened crates s s') (d : String) :
    (s'.fields.refcount.counts.find d).isSome ↔ 0 < persistedCount crates s d := by
  have hrefs : (s'.fields.refcount.counts.find d).isSome ↔ (persistedRef crates s d).isSome := by
    rcases h.refs d with hd | ⟨r, raw, hr, -, -, hd⟩
    · rw [hd]
    · rw [hd, hr]
      exact Iff.rfl
  rw [hrefs, persistedRef, persistedCount]
  split
  · rw [loadedRef, refcountRecord, recordCount]
    cases s.find (refcountKey d) with
    | none => exact iff_of_false Bool.noConfusion (Nat.lt_irrefl 0)
    | some raw =>
      rw [Option.bind_some]
      dsimp only
      cases parseRefcountRecord crates raw d with
      | error e => exact iff_of_false Bool.noConfusion (Nat.lt_irrefl 0)
      | ok r =>
        change ((if 0 < r.1 then some ⟨r.1, r.2⟩ else none : Option ChunkRef).isSome ↔ 0 < r.1)
        split
        · exact iff_of_true rfl (by assumption)
        · exact iff_of_false Bool.noConfusion (by assumption)
  · exact iff_of_false Bool.noConfusion (Nat.lt_irrefl 0)

/-- A reopened store misses no blob exactly when the backend is backed. -/
private theorem Opened.missingOf_eq_nil {crates : Crates} {s s' : State} (h : Opened crates s s') :
    missingOf s' = [] ↔ Backed crates none s := by
  rw [missingOf, List.filter_eq_nil_iff]
  constructor
  · intro hall d hd _ hpos
    have hlive := hall d (mem_liveDigests.mpr ((h.isSome_iff d).mpr hpos))
    rw [Option.isNone_iff_eq_none, h.find d (offRefcount_of_isChunkDigest hd)] at hlive
    exact Option.isSome_iff_ne_none.mpr hlive
  · intro hb d hd
    rw [mem_liveDigests] at hd
    obtain ⟨r, hr⟩ := Option.isSome_iff_exists.mp hd
    have hdig := (h.mirrors.valid d r hr).1
    have hs := hb d hdig (Option.not_mem_none d) ((h.isSome_iff d).mp hd)
    rw [h.find d (offRefcount_of_isChunkDigest hdig), Option.isNone_iff_eq_none]
    exact Option.isSome_iff_ne_none.mp hs

namespace ChunkStore

/-- **What a crash takes from `fsck`.** Cut the writes of a run of ingests and deletes anywhere. If
what is left can be opened, `fsck` reports no missing blob exactly when the last write was not the
deletion of a blob whose digest is still counted on the backend. -/
theorem crash_no_missing_iff (store : ChunkStore) (lists : Bool) (ops : List Op)
    (hops : ∀ op ∈ ops, op.file.isSome) (ws : List BackendWrite)
    (hws : ws <+: store.runWrites lists ops)
    (hopen : (store.exec .reopen (crashed lists ws)).1.isOk = true) :
    (∃ report, (store.exec (.fsck false) (store.exec .reopen (crashed lists ws)).2).1
        = .ok (.report report) ∧ report.missingBlobs = []) ↔
      ∀ w ∈ ws.getLast?, ¬w.Strips store.crates (crashed lists ws.dropLast) := by
  have hmissing : (∃ report, (store.exec (.fsck false) (store.exec .reopen (crashed lists ws)).2).1
      = .ok (.report report) ∧ report.missingBlobs = []) ↔
        Backed store.crates none (crashed lists ws) := by
    rw [← (opened_of_isOk hopen).missingOf_eq_nil]
    constructor
    · rintro ⟨report, hr, hnil⟩
      rw [← missingBlobs_of_exec_fsck hr, hnil]
    · exact fun hnil ↦ ⟨_, (exec_fsck false _).1, hnil⟩
  rw [hmissing]
  obtain ⟨hnone, hstart⟩ := exec_reopen_empty store lists
  rw [runWrites, hnone, hstart, List.nil_append] at hws
  rcases List.eq_nil_or_concat ws with rfl | ⟨ws, w, rfl⟩
  · refine iff_of_true (backing_empty store.crates lists).persisted fun w hw ↦ ?_
    cases hw
  · rw [List.concat_eq_append] at hws ⊢
    have hsafe := holds_at_write (I := Backing store.crates none) (K := fun _ ↦ True)
      (fun op hop _ h _ _ hws ↦ blobSafe_of_prefix h (hops op hop) hws)
      (fun op hop _ h _ ↦ backing_exec h (hops op hop)) (backing_empty store.crates lists) hws
      fun _ _ ↦ trivial
    rw [List.getLast?_concat, List.dropLast_concat, crashed, List.foldl_append]
    refine hsafe.trans ⟨fun hs w' hw' ↦ ?_, fun hs ↦ hs w rfl⟩
    obtain rfl := Option.some.inj (Option.mem_def.mp hw')
    exact hs

/-- A crash after the record of a released digest is gone, and its name off the index. -/
theorem crash_no_missing_iff_deleted :
    (∃ report, (smallStore.exec (.fsck false) (smallStore.exec .reopen
        (crashed true (smallStore.runWrites true deletedOps))).2).1 = .ok (.report report) ∧
          report.missingBlobs = []) ↔
      ∀ w ∈ (smallStore.runWrites true deletedOps).getLast?,
        ¬w.Strips smallCrates (crashed true (smallStore.runWrites true deletedOps).dropLast) :=
  crash_no_missing_iff smallStore true deletedOps (by decide) _ List.prefix_rfl (by decide +kernel)

/-- A crash after the blob of a released digest is gone, and before its record is. -/
theorem crash_missing : ¬∀ (store : ChunkStore) (lists : Bool) (ops : List Op),
    (∀ op ∈ ops, op.file.isSome) → ∀ ws, ws <+: store.runWrites lists ops →
      (store.exec .reopen (crashed lists ws)).1.isOk = true →
        ∃ report, (store.exec (.fsck false) (store.exec .reopen (crashed lists ws)).2).1
          = .ok (.report report) ∧ report.missingBlobs = [] := by
  intro h
  obtain ⟨report, hr, hnil⟩ := h smallStore true deletedOps (by decide)
    ((smallStore.runWrites true deletedOps).take 8) (List.take_prefix _ _) (by decide +kernel)
  have hmissing := (missingBlobs_of_exec_fsck hr).symm.trans hnil
  revert hmissing
  decide +kernel

end ChunkStore

end Chunkstore

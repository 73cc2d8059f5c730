import Chunkstore.Crash.Missing

/-!
# Opening with blobs missing

A backend whose metadata are well formed and any of whose blobs may be gone. Opening looks at a blob
only to learn a size that no record has, so it is the listed digests without a size whose blobs must
be there: those of legacy records, and those of the empty chunk.

## Main result

* `ChunkStore.opens_without_blobs_iff`: a well-formed backend can be opened, and `fsck` on the
  opened store reports exactly the missing blobs, if and only if no digest without a size misses its
  blob.
-/

namespace Chunkstore

/-- Metadata as the store writes them, in the current or the legacy form. Nothing is said about
blobs. -/
structure WellFormed (crates : Crates) (s : State) : Prop where
  manifests : ManifestsLoad crates s none
  refcounts : ∃ l, readIndex crates s refcountIndexKey = some l ∧ ∀ d ∈ l,
    isChunkDigest d = true ∧
      ∃ count size, refcountRecord crates s d = some (count, size) ∧ 0 < count

variable {crates : Crates} {s : State} {d : String}

namespace WellFormed

theorem record (h : WellFormed crates s) (hd : IsListed crates s d) :
    isChunkDigest d = true ∧
      ∃ count size, refcountRecord crates s d = some (count, size) ∧ 0 < count := by
  obtain ⟨l, hl, hall⟩ := h.refcounts
  exact hall d ((isListed_of_readIndex hl).mp hd)

/-- What keeps a well-formed backend from being opened is a missing blob. -/
private theorem openable_iff (h : WellFormed crates s) :
    Openable crates s ↔ ∀ d, IsListed crates s d → LacksSize crates s d → (s.find d).isSome := by
  obtain ⟨l, hl, hall⟩ := h.refcounts
  constructor
  · intro ho d hd hsize
    have hload := ho.refcounts.of_mem hl ((isListed_of_readIndex hl).mp hd) (Option.not_mem_none d)
    exact hload.2 hsize
  · intro hblob
    refine ⟨h.manifests, (indexLoads_iff hl).mpr fun d hd ↦ ?_⟩
    obtain ⟨hdig, count, size, hrec, -⟩ := hall d hd
    refine ⟨⟨hdig, ?_⟩, hblob d ((isListed_of_readIndex hl).mpr hd)⟩
    rw [hrec]
    rfl

private theorem counted_iff {s' : State} (h : WellFormed crates s) (ho : Opened crates s s') :
    (s'.fields.refcount.counts.find d).isSome ↔ IsListed crates s d := by
  have hsome : (persistedRef crates s d).isSome ↔ IsListed crates s d := by
    rw [persistedRef]
    split
    · rename_i hd
      obtain ⟨-, count, size, hrec, hpos⟩ := h.record hd
      rw [loadedRef, hrec, Option.bind_some, if_pos hpos]
      exact iff_of_true rfl hd
    · rename_i hd
      exact iff_of_false Bool.false_ne_true hd
  rcases ho.refs d with hr | ⟨r, raw, hr, -, -, hr'⟩
  · rw [hr, hsome]
  · rw [hr] at hsome
    rw [hr']
    exact hsome

private theorem mem_missingOf_iff {s' : State} (h : WellFormed crates s) (ho : Opened crates s s') :
    d ∈ missingOf s' ↔ IsListed crates s d ∧ s.find d = none := by
  rw [mem_missingOf, h.counted_iff ho]
  refine and_congr_right fun hd ↦ ?_
  rw [ho.find d (offRefcount_of_isChunkDigest (h.record hd).1)]

end WellFormed

namespace ChunkStore

/-- **Which blobs opening needs.** On a backend with well-formed metadata, opening returns and
`fsck` then reports exactly the listed digests without a blob, if and only if every listed digest
whose record has no size has its blob. -/
theorem opens_without_blobs_iff (store : ChunkStore) (s : State)
    (h : WellFormed store.crates s) :
    ((store.exec .reopen s).1.isOk = true ∧
        ∃ report, (store.exec (.fsck false) (store.exec .reopen s).2).1 = .ok (.report report) ∧
          report.missingBlobs.Nodup ∧
            ∀ d, d ∈ report.missingBlobs ↔ IsListed store.crates s d ∧ s.find d = none) ↔
      ∀ d, IsListed store.crates s d → LacksSize store.crates s d → (s.find d).isSome := by
  rw [← h.openable_iff, ← isOk_reopen_iff]
  refine and_iff_left_of_imp fun hok ↦ ?_
  exact ⟨_, (exec_fsck false _).1, nodup_missingOf _, fun d ↦
    h.mem_missingOf_iff (opened_of_isOk hok)⟩

/-- A backend that lists one digest under a record, and has no blob. -/
def blobless (digest : String) (record : Bytes) : State :=
  ((State.empty true).put refcountIndexKey (smallCrates.serde.stringsToVec [digest])).put
    (refcountKey digest) record

section Blobless

variable {digest : String} {record : Bytes} {count size : ℕ}

theorem readIndex_blobless (hd : isChunkDigest digest = true) :
    readIndex smallCrates (blobless digest record) refcountIndexKey = some [digest] := by
  have hne : refcountIndexKey ≠ refcountKey digest :=
    (refcountKey_ne_indexKey (ne_of_isChunkDigest hd isChunkDigest_indexName)).symm
  refine readIndex_of_strings ?_
  rw [blobless, State.find_put_ne hne, State.find_put_self]

theorem refcountRecord_blobless
    (hrec : parseRefcountRecord smallCrates record digest = .ok (count, size)) :
    refcountRecord smallCrates (blobless digest record) digest = some (count, size) := by
  rw [refcountRecord, blobless, State.find_put_self, Option.bind_some, hrec]
  rfl

theorem wellFormed_blobless (hd : isChunkDigest digest = true)
    (hrec : parseRefcountRecord smallCrates record digest = .ok (count, size)) (hpos : 0 < count) :
    WellFormed smallCrates (blobless digest record) where
  manifests := by
    refine ⟨[], readIndex_of_find_none ?_, fun n hn ↦ absurd hn List.not_mem_nil⟩
    rw [blobless, State.find_put_ne (manifestKey_indexName ▸ manifestKey_ne_refcountKey _ _),
      State.find_put_ne (by decide)]
    rfl
  refcounts := by
    refine ⟨[digest], readIndex_blobless hd, fun d hmem ↦ ?_⟩
    rw [List.mem_singleton.mp hmem]
    exact ⟨hd, count, size, refcountRecord_blobless hrec, hpos⟩

end Blobless

def digestOfA : String := digestHex smallCrates.sha256 [0x61]

theorem isChunkDigest_digestOfA : isChunkDigest digestOfA = true := isChunkDigest_digestHex _ _

/-- A missing blob whose size is recorded: the backend opens and `fsck` reports it. -/
theorem opens_without_blobs_sized :
    (smallStore.exec .reopen (blobless digestOfA (smallCrates.serde.refcountToVec ⟨1, 1⟩))).1.isOk
      = true := by
  have hrec : parseRefcountRecord smallCrates (smallCrates.serde.refcountToVec ⟨1, 1⟩) digestOfA
      = .ok (1, 1) := by rw [parseRefcountRecord, smallCrates.serde.refcount_roundtrip]
  refine ((opens_without_blobs_iff smallStore _
    (wellFormed_blobless isChunkDigest_digestOfA hrec Nat.one_pos)).mpr fun d hd hsize ↦ ?_).1
  have hmem := (isListed_of_readIndex (readIndex_blobless isChunkDigest_digestOfA)).mp hd
  obtain ⟨count, hzero, -⟩ := hsize
  rw [List.mem_singleton.mp hmem] at hzero
  cases hzero.symm.trans (refcountRecord_blobless hrec)

/-- A missing blob under a legacy record, which is a bare count: the backend does not open. -/
theorem opens_without_blobs_legacy : ¬∀ (store : ChunkStore) (s : State),
    WellFormed store.crates s →
      (store.exec .reopen s).1.isOk = true ∧
        ∃ report, (store.exec (.fsck false) (store.exec .reopen s).2).1 = .ok (.report report) ∧
          report.missingBlobs.Nodup ∧
            ∀ d, d ∈ report.missingBlobs ↔ IsListed store.crates s d ∧ s.find d = none := by
  intro h
  have hok := (h smallStore (blobless digestOfA [0x31])
    (wellFormed_blobless isChunkDigest_digestOfA (show _ = Except.ok (1, 0) from rfl)
      Nat.one_pos)).1
  revert hok
  decide +kernel

end ChunkStore

end Chunkstore

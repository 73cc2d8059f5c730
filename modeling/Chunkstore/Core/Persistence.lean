import Chunkstore.Core.Backend
import Chunkstore.Core.Chunker

/-!
# Metadata on the backend

Manifests and reference counts are kept as JSON records under `_manifest/` and `_refcount/`, each
kind with an index list that names the records (`persistence.rs`). A record and its index are two
keys, written one after the other.

## What is a parameter

`serde_json` is a crate. What the code relies on is that it decodes what it encoded, and that an
object is not accepted where a list of strings is expected.
-/

open Effects

namespace Chunkstore

/-! ## Records -/

/-- The persisted manifest of one file. -/
structure ManifestRecord where
  digests : List String
  fileBytes : ℕ
  deriving DecidableEq, Repr

/-- On-disk refcount. -/
structure RefCountRecord where
  count : ℕ
  size : ℕ
  deriving DecidableEq, Repr

/-- Either shape of a refcount record; legacy records were a bare count. -/
inductive RefCountWire
  | legacy (count : ℕ)
  | record (r : RefCountRecord)
  deriving DecidableEq, Repr

/-- The `serde_json` crate at the three types that are persisted. A failed decoding carries its
message. -/
structure Serde where
  stringsToVec : List String → Bytes
  stringsFromSlice : Bytes → Except String (List String)
  manifestToVec : ManifestRecord → Bytes
  manifestFromSlice : Bytes → Except String ManifestRecord
  refcountToVec : RefCountRecord → Bytes
  refcountFromSlice : Bytes → Except String RefCountWire
  strings_roundtrip : ∀ l, stringsFromSlice (stringsToVec l) = .ok l
  manifest_roundtrip : ∀ r, manifestFromSlice (manifestToVec r) = .ok r
  refcount_roundtrip : ∀ r, refcountFromSlice (refcountToVec r) = .ok (.record r)
  strings_of_manifest : ∀ r, ∃ e, stringsFromSlice (manifestToVec r) = .error e

/-- The third-party crates of the store. -/
structure Crates where
  sha256 : Sha256
  fastcdc : FastCdc
  serde : Serde

/-! ## Keys -/

def manifestPrefix : String := "_manifest/"

def refcountPrefix : String := "_refcount/"

def manifestIndexKey : String := "_manifest/__index__"

def refcountIndexKey : String := "_refcount/__index__"

def manifestKey (fileId : String) : String := manifestPrefix ++ fileId

def refcountKey (digest : String) : String := refcountPrefix ++ digest

/-! ### The key space

Chunk names are hexadecimal, so they meet no metadata key; the two prefixes differ in their second
character. The one collision is a file whose id is the last part of the index key. -/

/-- The file id whose record key is the manifest index. -/
def indexName : String := "__index__"

theorem manifestKey_indexName : manifestKey indexName = manifestIndexKey := by decide

theorem refcountKey_indexName : refcountKey indexName = refcountIndexKey := by decide

@[simp] theorem manifestKey_inj {f g : String} : manifestKey f = manifestKey g ↔ f = g :=
  String.append_right_inj _

@[simp] theorem refcountKey_inj {d e : String} : refcountKey d = refcountKey e ↔ d = e :=
  String.append_right_inj _

theorem manifestKey_eq_indexKey {f : String} :
    manifestKey f = manifestIndexKey ↔ f = indexName := by
  rw [← manifestKey_indexName, manifestKey_inj]

theorem refcountKey_eq_indexKey {d : String} :
    refcountKey d = refcountIndexKey ↔ d = indexName := by
  rw [← refcountKey_indexName, refcountKey_inj]

theorem toList_manifestKey (f : String) :
    (manifestKey f).toList = manifestPrefix.toList ++ f.toList := String.toList_append

theorem toList_refcountKey (d : String) :
    (refcountKey d).toList = refcountPrefix.toList ++ d.toList := String.toList_append

theorem manifestKey_ne_refcountKey (f d : String) : manifestKey f ≠ refcountKey d := by
  intro h
  have hl := congrArg String.toList h
  rw [toList_manifestKey, toList_refcountKey] at hl
  exact absurd (congrArg (·[1]?) hl) (by simp [manifestPrefix, refcountPrefix])

theorem refcountKey_ne_manifestKey (d f : String) : refcountKey d ≠ manifestKey f :=
  (manifestKey_ne_refcountKey f d).symm

@[simp] theorem isChunkDigest_manifestKey (f : String) : isChunkDigest (manifestKey f) = false :=
  isChunkDigest_eq_false (c := '_') (by simp [toList_manifestKey, manifestPrefix]) (by decide)

@[simp] theorem isChunkDigest_refcountKey (d : String) : isChunkDigest (refcountKey d) = false :=
  isChunkDigest_eq_false (c := '_') (by simp [toList_refcountKey, refcountPrefix]) (by decide)

@[simp] theorem isChunkDigest_indexName : isChunkDigest indexName = false := by decide

@[simp] theorem isChunkDigest_manifestIndexKey : isChunkDigest manifestIndexKey = false :=
  isChunkDigest_manifestKey indexName

@[simp] theorem isChunkDigest_refcountIndexKey : isChunkDigest refcountIndexKey = false :=
  isChunkDigest_refcountKey indexName

theorem ne_of_isChunkDigest {d k : String} (hd : isChunkDigest d = true)
    (hk : isChunkDigest k = false) : d ≠ k := by
  rintro rfl
  rw [hd] at hk
  exact Bool.noConfusion hk

/-! ## Index lists -/

def readStringList (crates : Crates) (key : String) : BackendM (List String) := do
  match ← backendCall (.get key) with
  | some raw =>
    match crates.serde.stringsFromSlice raw with
    | .ok values => return values
    | .error e => throw (.backendError s!"invalid index JSON at {key}: {e}")
  | none => return []

def writeStringList (crates : Crates) (key : String) (values : List String) : BackendM Unit :=
  backendCall (.put key (crates.serde.stringsToVec values))

/-! ## Saving and removing -/

def saveManifest (crates : Crates) (fileId : String) (digests : List String) (fileBytes : ℕ) :
    BackendM Unit := do
  ofExcept (digests.forM validateDigest)
  backendCall (.put (manifestKey fileId) (crates.serde.manifestToVec ⟨digests, fileBytes⟩))
  let index ← readStringList crates manifestIndexKey
  if fileId ∈ index then
    return ()
  else
    writeStringList crates manifestIndexKey (index ++ [fileId])

def removeManifest (crates : Crates) (fileId : String) : BackendM Unit := do
  backendCall (.delete (manifestKey fileId))
  let index ← readStringList crates manifestIndexKey
  writeStringList crates manifestIndexKey (index.filter (· ≠ fileId))

def saveRefcount (crates : Crates) (digest : String) (count size : ℕ) : BackendM Unit := do
  ofExcept (validateDigest digest)
  backendCall (.put (refcountKey digest) (crates.serde.refcountToVec ⟨count, size⟩))
  let index ← readStringList crates refcountIndexKey
  if digest ∈ index then
    return ()
  else
    writeStringList crates refcountIndexKey (index ++ [digest])

def removeRefcount (crates : Crates) (digest : String) : BackendM Unit := do
  backendCall (.delete (refcountKey digest))
  let index ← readStringList crates refcountIndexKey
  writeStringList crates refcountIndexKey (index.filter (· ≠ digest))

/-! ## Loading -/

/-- One round of the loop of `load_manifests`. -/
def loadManifest (crates : Crates) (manifest : Manifest) (fileId : String) :
    BackendM Manifest := do
  match ← backendCall (.get (manifestKey fileId)) with
  | none => throw (.backendError s!"missing manifest key {manifestKey fileId}")
  | some raw =>
    match crates.serde.manifestFromSlice raw with
    | .error e => throw (.backendError s!"invalid manifest JSON for {fileId}: {e}")
    | .ok record =>
      ofExcept (record.digests.forM validateDigest)
      ofExcept (manifest.insert fileId record.digests record.fileBytes)

def loadManifests (crates : Crates) : BackendM Manifest := do
  let index ← readStringList crates manifestIndexKey
  index.foldlM (loadManifest crates) Manifest.new

def parseRefcountRecord (crates : Crates) (raw : Bytes) (digest : String) :
    Except ChunkStoreError (ℕ × ℕ) :=
  match crates.serde.refcountFromSlice raw with
  | .error e => .error (.backendError s!"invalid refcount JSON for {digest}: {e}")
  | .ok (.legacy count) => .ok (count, 0)
  | .ok (.record r) => .ok (r.count, r.size)

/-- One round of the loop of `load_refcounts`. -/
def loadRefcount (crates : Crates) (refcount : RefCount) (digest : String) :
    BackendM RefCount := do
  ofExcept (validateDigest digest)
  match ← backendCall (.get (refcountKey digest)) with
  | none => throw (.backendError s!"missing refcount key {refcountKey digest}")
  | some raw =>
    let r ← ofExcept (parseRefcountRecord crates raw digest)
    if 0 < r.1 then
      return refcount.set digest r.1 r.2
    else
      return refcount

def loadRefcounts (crates : Crates) : BackendM RefCount := do
  let index ← readStringList crates refcountIndexKey
  index.foldlM (loadRefcount crates) RefCount.new

/-- One round of the loop of `backfill_refcount_sizes`. -/
def backfillRefcountSize (crates : Crates) (refcount : RefCount) (entry : String × ℕ) :
    BackendM RefCount := do
  match ← backendCall (.get entry.1) with
  | none => return refcount
  | some data =>
    if isChunkDigest entry.1 then
      saveRefcount crates entry.1 entry.2 data.length
      return refcount.set entry.1 entry.2 data.length
    else
      return refcount

def backfillRefcountSizes (crates : Crates) (refcount : RefCount) : BackendM RefCount := do
  let stale := (refcount.iterRefs.filter fun e ↦ e.2.size = 0 ∧ 0 < e.2.count).map
    fun e ↦ (e.1, e.2.count)
  stale.foldlM (backfillRefcountSize crates) refcount

end Chunkstore

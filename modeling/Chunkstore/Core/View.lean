import Chunkstore.Core.Store

/-!
# What the backend says

The persisted metadata as a reader of the backend sees it: the index lists, the reference counts and
the blobs. These are functions of `State.find` alone, so a write to one key moves only what depends
on that key.

## Writes

A put and a delete differ in what they leave under the key and in nothing else. `Wrote` is what they
share, so that each fact about the key space is stated once for both.
-/

open Effects

namespace Chunkstore

/-! ## Writes -/

/-- `s'` is `s` after one write, which left `o` under `key`. -/
structure Wrote (s s' : State) (key : String) (o : Option Bytes) : Prop where
  fields : s'.fields = s.fields
  find : ∀ k, s'.find k = if k = key then o else s.find k

theorem wrote_put (s : State) (key : String) (data : Bytes) :
    Wrote s (s.put key data) key (some data) := ⟨rfl, fun k ↦ s.find_put key k data⟩

theorem wrote_del (s : State) (key : String) : Wrote s (s.del key) key none :=
  ⟨rfl, fun k ↦ s.find_del key k⟩

namespace Wrote

variable {s s' : State} {key k : String} {o : Option Bytes}

theorem find_self (h : Wrote s s' key o) : s'.find key = o := by rw [h.find, if_pos rfl]

theorem find_ne (h : Wrote s s' key o) (hk : k ≠ key) : s'.find k = s.find k := by
  rw [h.find, if_neg hk]

end Wrote

/-! ## The persisted metadata -/

variable (crates : Crates)

/-- The index list under a key, if it can be read. -/
def readIndex (s : State) (key : String) : Option (List String) :=
  match s.find key with
  | none => some []
  | some raw => (crates.serde.stringsFromSlice raw).toOption

/-- The count of the refcount record of a digest, zero when there is none. -/
def recordCount (s : State) (digest : String) : ℕ :=
  match s.find (refcountKey digest) with
  | none => 0
  | some raw => ((parseRefcountRecord crates raw digest).toOption.map Prod.fst).getD 0

/-- Whether the refcount index can be read and lists a digest. -/
def IsListed (s : State) (digest : String) : Prop :=
  digest ∈ (readIndex crates s refcountIndexKey).getD []

instance (s : State) (digest : String) : Decidable (IsListed crates s digest) :=
  inferInstanceAs (Decidable (digest ∈ (readIndex crates s refcountIndexKey).getD []))

/-- The references a digest would have after opening. -/
def persistedCount (s : State) (digest : String) : ℕ :=
  if IsListed crates s digest then recordCount crates s digest else 0

/-- Stored bytes whose decoding hashes to a digest. -/
def ChunkStore.Holds (store : ChunkStore) (raw : Bytes) (digest : String) : Prop :=
  ∃ data, store.decodeBlob raw = .ok data ∧ digestHex store.crates.sha256 data = digest

variable {crates} {s s' : State} {key digest : String}

theorem readIndex_of_find_none (h : s.find key = none) : readIndex crates s key = some [] := by
  rw [readIndex, h]

theorem readIndex_of_find {raw : Bytes} (h : s.find key = some raw) :
    readIndex crates s key = (crates.serde.stringsFromSlice raw).toOption := by
  rw [readIndex, h]

theorem readIndex_of_strings {l : List String}
    (h : s.find key = some (crates.serde.stringsToVec l)) : readIndex crates s key = some l := by
  rw [readIndex_of_find h, crates.serde.strings_roundtrip]
  rfl

theorem readIndex_of_manifest {r : ManifestRecord}
    (h : s.find key = some (crates.serde.manifestToVec r)) : readIndex crates s key = none := by
  obtain ⟨e, he⟩ := crates.serde.strings_of_manifest r
  rw [readIndex_of_find h, he]
  rfl

theorem readIndex_congr (h : s'.find key = s.find key) :
    readIndex crates s' key = readIndex crates s key := by
  rw [readIndex, readIndex, h]

theorem recordCount_congr (h : s'.find (refcountKey digest) = s.find (refcountKey digest)) :
    recordCount crates s' digest = recordCount crates s digest := by
  rw [recordCount, recordCount, h]

theorem recordCount_of_find {count size : ℕ}
    (h : s.find (refcountKey digest) = some (crates.serde.refcountToVec ⟨count, size⟩)) :
    recordCount crates s digest = count := by
  rw [recordCount, h]
  dsimp only
  rw [parseRefcountRecord, crates.serde.refcount_roundtrip]
  rfl

theorem isListed_of_readIndex {l : List String}
    (h : readIndex crates s refcountIndexKey = some l) :
    IsListed crates s digest ↔ digest ∈ l := by
  rw [IsListed, h, Option.getD_some]

theorem persistedCount_of_isListed (h : IsListed crates s digest) :
    persistedCount crates s digest = recordCount crates s digest := if_pos h

theorem persistedCount_of_not_isListed (h : ¬IsListed crates s digest) :
    persistedCount crates s digest = 0 := if_neg h

theorem isListed_of_pos (h : 0 < persistedCount crates s digest) : IsListed crates s digest := by
  by_contra hn
  rw [persistedCount_of_not_isListed hn] at h
  exact absurd h (Nat.lt_irrefl 0)

theorem isListed_congr (h : s'.find refcountIndexKey = s.find refcountIndexKey) :
    IsListed crates s' digest ↔ IsListed crates s digest := by
  rw [IsListed, IsListed, readIndex_congr h]

theorem persistedCount_congr (hi : s'.find refcountIndexKey = s.find refcountIndexKey)
    (hr : s'.find (refcountKey digest) = s.find (refcountKey digest)) :
    persistedCount crates s' digest = persistedCount crates s digest := by
  rw [persistedCount, persistedCount, recordCount_congr hr]
  exact if_congr (isListed_congr hi) rfl rfl

/-! ## Index updates

Saving a record appends its name to the index unless it is there; removing a record filters the name
out. Both read the list first. -/

/-- The index part of a save. -/
def listName (crates : Crates) (key name : String) : BackendM Unit := do
  let index ← readStringList crates key
  if name ∈ index then
    return ()
  else
    writeStringList crates key (index ++ [name])

/-- The index part of a removal. -/
def unlistName (crates : Crates) (key name : String) : BackendM Unit := do
  let index ← readStringList crates key
  writeStringList crates key (index.filter (· ≠ name))

theorem saveManifest_eq (fileId : String) (digests : List String) (fileBytes : ℕ) :
    saveManifest crates fileId digests fileBytes = (do
      ofExcept (digests.forM validateDigest)
      backendCall (.put (manifestKey fileId) (crates.serde.manifestToVec ⟨digests, fileBytes⟩))
      listName crates manifestIndexKey fileId) := rfl

theorem removeManifest_eq (fileId : String) :
    removeManifest crates fileId = (do
      backendCall (.delete (manifestKey fileId))
      unlistName crates manifestIndexKey fileId) := rfl

theorem saveRefcount_eq (digest : String) (count size : ℕ) :
    saveRefcount crates digest count size = (do
      ofExcept (validateDigest digest)
      backendCall (.put (refcountKey digest) (crates.serde.refcountToVec ⟨count, size⟩))
      listName crates refcountIndexKey digest) := rfl

theorem removeRefcount_eq (digest : String) :
    removeRefcount crates digest = (do
      backendCall (.delete (refcountKey digest))
      unlistName crates refcountIndexKey digest) := rfl

theorem forM_validateDigest {digests : List String}
    (h : ∀ d ∈ digests, isChunkDigest d = true) : digests.forM validateDigest = .ok () := by
  induction digests with
  | nil => rfl
  | cons d digests ih =>
    rw [List.forM_eq_forM, List.forM_cons, validateDigest_eq_ok.mpr (h d List.mem_cons_self)]
    exact ih fun e he ↦ h e (List.mem_cons_of_mem d he)

section Rules

open Program

variable {F : Prop} {G : Machine Call State} {R : ChunkStoreError → State → Prop}

/-- Reading an index gives the list, or fails because the call does or the list is garbled. -/
theorem wpx_readStringList {Q : List String → State → Prop}
    (hG : ∀ r, G.step s (Call.backend (.get key)) r s)
    (hQ : ∀ l, readIndex crates s key = some l → Q l s)
    (hR : F ∨ readIndex crates s key = none → ∀ e, R e s) :
    wpx (faulty F) G (readStringList crates key) Q R s := by
  rw [readStringList, wpx_bind, wpx_get]
  refine ⟨⟨hG _, ?_⟩, fun hF e ↦ ⟨hG _, hR (Or.inl hF) e⟩⟩
  cases hf : s.find key with
  | none => exact hQ [] (readIndex_of_find_none hf)
  | some raw =>
    dsimp only
    cases hl : crates.serde.stringsFromSlice raw with
    | ok l => exact hQ l (by rw [readIndex_of_find hf, hl]; rfl)
    | error e => exact hR (Or.inr (by rw [readIndex_of_find hf, hl]; rfl)) _

theorem ends_readStringList {l : List String} (hl : readIndex crates s key = some l) :
    (faulty F).Ends (readStringList crates key).run s (.ok l) s := by
  refine (ends_backendCall (.get key) s).bind_ok ?_
  rw [readIndex] at hl
  rw [show (BackendCall.run (.get key) s.backend).1 = s.find key from rfl]
  cases hf : s.find key with
  | none =>
    rw [hf] at hl
    cases hl
    exact Machine.ends_ret _ _
  | some raw =>
    rw [hf] at hl
    dsimp only at hl ⊢
    cases hd : crates.serde.stringsFromSlice raw with
    | ok values =>
      rw [hd] at hl
      cases hl
      exact Machine.ends_ret _ _
    | error e =>
      rw [hd] at hl
      cases hl

end Rules

end Chunkstore

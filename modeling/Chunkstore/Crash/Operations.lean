import Chunkstore.Crash.Openable
import Chunkstore.Crash.Writes

/-!
# Operations that are cut off

On a fault-free backend an operation makes one write after the other, and a crash leaves the state
after one of them. Each write of an ingest or a delete leaves an openable backend, but for four
kinds:

* the record of a file named like the manifest index, which is put over the index (`Garbles`);
* deleting the record of a listed file;
* deleting the record of a listed reference count;
* deleting the blob of a listed digest whose record has no size, which is that of the empty chunk.

The last three (`Breaks`) are repaired by a later write of the same operation, the one that takes
the name off its index. `CrashSafe` says all of this about one write, and `carefully` about every
write of an operation.
-/

open Effects Program

namespace Chunkstore

/-! ## Crash-safe writes -/

namespace BackendWrite

/-- The write puts something other than a list of names over the manifest index. -/
def Garbles (crates : Crates) : BackendWrite → Prop
  | .put key data => key = manifestIndexKey ∧ (crates.serde.stringsFromSlice data).toOption = none
  | .delete _ => False

instance (crates : Crates) : DecidablePred (Garbles crates)
  | .put key _ => inferInstanceAs (Decidable (key = manifestIndexKey ∧ _ = none))
  | .delete _ => inferInstanceAs (Decidable False)

/-- The write deletes what a listed name needs. -/
def Breaks (crates : Crates) (s : State) : BackendWrite → Prop
  | .put _ _ => False
  | .delete key =>
    (∃ fileId ∈ (readIndex crates s manifestIndexKey).getD [], key = manifestKey fileId) ∨
    (∃ digest, IsListed crates s digest ∧ key = refcountKey digest) ∨
    (isChunkDigest key = true ∧ IsListed crates s key ∧ LacksSize crates s key)

end BackendWrite

/-- A write that does not garble the index leaves an openable backend, unless it breaks. -/
def CrashSafe (crates : Crates) (s : State) (w : BackendWrite) : Prop :=
  ¬w.Garbles crates → (Openable crates (w.apply s) ↔ ¬w.Breaks crates s)

theorem crashSafe_put {crates : Crates} {s : State} {key : String} {data : Bytes}
    (hopen : Openable crates (s.put key data)) : CrashSafe crates s (.put key data) :=
  fun _ ↦ iff_of_true hopen id

/-! ## Saving and removing records -/

section Records

variable {crates : Crates} {s : State} {fileId digest : String} {R : ChunkStoreError → State → Prop}

/-- The manifest index can no longer be read. -/
def Garbled (crates : Crates) (s : State) : Prop := readIndex crates s manifestIndexKey = none

/-- A backend between two writes: openable but for one file and one digest, and no file named like
the manifest index is listed. -/
structure Sound (crates : Crates) (butFile butDigest : Option String) (s : State) : Prop where
  manifests : ManifestsLoad crates s butFile
  refcounts : RefcountsLoad crates s butDigest
  named : indexName ∉ (readIndex crates s manifestIndexKey).getD []

variable {butFile butDigest : Option String} {s' : State} {key : String} {o : Option Bytes}

theorem Sound.openable (h : Sound crates none none s) : Openable crates s :=
  ⟨h.manifests, h.refcounts⟩

theorem Sound.of_fields (h : Sound crates butFile butDigest s) (f : Fields) :
    Sound crates butFile butDigest (s.withFields f) := ⟨h.manifests, h.refcounts, h.named⟩

theorem RefcountsLoad.of_wrote (h : RefcountsLoad crates s butDigest) (hw : Wrote s s' key o)
    (hk : OffRefcount key) (ho : isChunkDigest key = true → o.isSome) :
    RefcountsLoad crates s' butDigest := by
  refine h.of_find (fun d ↦ hw.find_ne (hk d).symm) fun d hd hs ↦ ?_
  by_cases hdk : d = key
  · rw [hdk, hw.find_self]
    exact ho (hdk ▸ hd)
  · rwa [hw.find_ne hdk]

theorem named_of_wrote (h : indexName ∉ (readIndex crates s manifestIndexKey).getD [])
    (hw : Wrote s s' key o) (hk : key ≠ manifestIndexKey) :
    indexName ∉ (readIndex crates s' manifestIndexKey).getD [] := by
  rwa [readIndex_congr (hw.find_ne hk.symm)]

theorem ManifestsLoad.of_wrote (h : ManifestsLoad crates s butFile) (hw : Wrote s s' key o)
    (hk : OffManifest key) : ManifestsLoad crates s' butFile :=
  h.of_find fun f ↦ hw.find_ne (hk f).symm

private theorem offRefcount_manifestIndexKey : OffRefcount manifestIndexKey :=
  manifestKey_indexName ▸ offRefcount_manifestKey indexName

theorem offManifest_refcountIndexKey : OffManifest refcountIndexKey :=
  refcountKey_indexName ▸ offManifest_refcountKey indexName

/-- The manifest index is rewritten with files that can be loaded. -/
theorem Sound.wroteManifestIndex {l : List String} (h : Sound crates butFile none s)
    (hall : ∀ f ∈ l, f ≠ indexName ∧ ManifestLoads crates s f) :
    Sound crates none none (s.put manifestIndexKey (crates.serde.stringsToVec l)) := by
  have hw := wrote_put s manifestIndexKey (crates.serde.stringsToVec l)
  have hindex := readIndex_of_strings hw.find_self
  refine ⟨(indexLoads_iff hindex).mpr fun f hf ↦ ?_,
    h.refcounts.of_wrote hw offRefcount_manifestIndexKey fun _ ↦ rfl, ?_⟩
  · exact (hall f hf).2.of_find (hw.find_ne (manifestKey_ne_indexKey (hall f hf).1))
  · rw [hindex, Option.getD_some]
    exact fun hm ↦ (hall indexName hm).1 rfl

/-- The refcount index is rewritten with digests that can be loaded. -/
theorem Sound.wroteRefcountIndex {l : List String} (h : Sound crates none butDigest s)
    (hall : ∀ d ∈ l, RefcountLoads crates s d) :
    Sound crates none none (s.put refcountIndexKey (crates.serde.stringsToVec l)) := by
  have hw := wrote_put s refcountIndexKey (crates.serde.stringsToVec l)
  refine ⟨h.manifests.of_wrote hw offManifest_refcountIndexKey,
    (indexLoads_iff (readIndex_of_strings hw.find_self)).mpr fun d hd ↦ ?_,
    named_of_wrote h.named hw offManifest_refcountIndexKey.ne_indexKey⟩
  have hdig := (hall d hd).1.1
  refine (hall d hd).of_find (hw.find_ne (refcountKey_ne_indexKey
    (ne_of_isChunkDigest hdig isChunkDigest_indexName))) fun hs ↦ ?_
  rwa [hw.find_ne (ne_of_isChunkDigest hdig isChunkDigest_refcountIndexKey)]

theorem carefully_listManifest (h : Sound crates none none s) (hf : ManifestLoads crates s fileId)
    (hne : fileId ≠ indexName) :
    carefully (CrashSafe crates) (listName crates manifestIndexKey fileId)
      (fun _ s' ↦ Sound crates none none s' ∧ s'.fields = s.fields) R s := by
  obtain ⟨l, hl, -⟩ := h.manifests
  have hnamed := h.named
  rw [hl, Option.getD_some] at hnamed
  refine carefully_bind (carefully_readStringList hl ?_)
  split
  · exact carefully_pure ⟨h, rfl⟩
  · have hs : Sound crates none none (s.put manifestIndexKey
        (crates.serde.stringsToVec (l ++ [fileId]))) := h.wroteManifestIndex fun f hf' ↦ by
      rcases List.mem_append.mp hf' with hf' | hf'
      · exact ⟨fun hn ↦ hnamed (hn ▸ hf'), h.manifests.of_mem hl hf' (Option.not_mem_none f)⟩
      · rw [List.mem_singleton.mp hf']
        exact ⟨hne, hf⟩
    exact carefully_put (crashSafe_put hs.openable) ⟨hs, rfl⟩

theorem carefully_listRefcount (h : Sound crates none none s) (hd : RefcountLoads crates s digest) :
    carefully (CrashSafe crates) (listName crates refcountIndexKey digest)
      (fun _ s' ↦ Sound crates none none s' ∧ s'.fields = s.fields) R s := by
  obtain ⟨l, hl, -⟩ := h.refcounts
  refine carefully_bind (carefully_readStringList hl ?_)
  split
  · exact carefully_pure ⟨h, rfl⟩
  · have hs : Sound crates none none (s.put refcountIndexKey
        (crates.serde.stringsToVec (l ++ [digest]))) := h.wroteRefcountIndex fun d hd' ↦ by
      rcases List.mem_append.mp hd' with hd' | hd'
      · exact h.refcounts.of_mem hl hd' (Option.not_mem_none d)
      · rw [List.mem_singleton.mp hd']
        exact hd
    exact carefully_put (crashSafe_put hs.openable) ⟨hs, rfl⟩

theorem not_mem_some_of_mem_filter {l : List String} {n name : String}
    (h : n ∈ l.filter (· ≠ name)) : n ∉ some name := fun hn ↦ by
  rw [Option.mem_some_iff] at hn
  exact of_decide_eq_true (List.mem_filter.mp h).2 hn.symm

private theorem carefully_unlistManifest (h : Sound crates (some fileId) none s) :
    carefully (CrashSafe crates) (unlistName crates manifestIndexKey fileId)
      (fun _ s' ↦ Sound crates none none s' ∧ s'.fields = s.fields) R s := by
  obtain ⟨l, hl, -⟩ := h.manifests
  have hnamed := h.named
  rw [hl, Option.getD_some] at hnamed
  have hs : Sound crates none none (s.put manifestIndexKey
      (crates.serde.stringsToVec (l.filter (· ≠ fileId)))) := h.wroteManifestIndex fun f hf ↦
    have hfl := (List.mem_filter.mp hf).1
    ⟨fun hn ↦ hnamed (hn ▸ hfl), h.manifests.of_mem hl hfl (not_mem_some_of_mem_filter hf)⟩
  exact carefully_bind
    (carefully_readStringList hl (carefully_put (crashSafe_put hs.openable) ⟨hs, rfl⟩))

theorem carefully_unlistRefcount (h : Sound crates none (some digest) s) :
    carefully (CrashSafe crates) (unlistName crates refcountIndexKey digest)
      (fun _ s' ↦ Sound crates none none s' ∧ s'.fields = s.fields) R s := by
  obtain ⟨l, hl, -⟩ := h.refcounts
  have hs : Sound crates none none (s.put refcountIndexKey
      (crates.serde.stringsToVec (l.filter (· ≠ digest)))) := h.wroteRefcountIndex fun d hd ↦
    h.refcounts.of_mem hl (List.mem_filter.mp hd).1 (not_mem_some_of_mem_filter hd)
  exact carefully_bind
    (carefully_readStringList hl (carefully_put (crashSafe_put hs.openable) ⟨hs, rfl⟩))

/-- **Saving a manifest** writes its record, which is listed only afterwards. The record of a file
named like the index garbles it. -/
theorem carefully_saveManifest {digests : List String} {fileBytes : ℕ}
    (h : Sound crates none none s) (hne : fileId ≠ "")
    (hv : ∀ d ∈ digests, isChunkDigest d = true) :
    carefully (CrashSafe crates) (saveManifest crates fileId digests fileBytes)
      (fun _ s' ↦ fileId ≠ indexName ∧ Sound crates none none s' ∧ s'.fields = s.fields)
      (fun _ s' ↦ Garbled crates s') s := by
  have hw := wrote_put s (manifestKey fileId) (crates.serde.manifestToVec ⟨digests, fileBytes⟩)
  rw [saveManifest_eq, forM_validateDigest hv, ofExcept_ok, pure_bind]
  by_cases hname : fileId = indexName
  · have hg : readIndex crates (s.put (manifestKey fileId)
        (crates.serde.manifestToVec ⟨digests, fileBytes⟩)) manifestIndexKey = none := by
      rw [hname, manifestKey_indexName] at hw ⊢
      exact readIndex_of_manifest hw.find_self
    refine carefully_bind (carefully_put (fun hn ↦ absurd ⟨?_, ?_⟩ hn) (carefully_bind
      (wpx_readStringList (fun _ ↦ watched_of_none rfl) (fun l hl ↦ ?_) fun _ _ ↦ hg)))
    · rw [hg] at hl
      cases hl
    · rw [hname, manifestKey_indexName]
    · obtain ⟨e, he⟩ := crates.serde.strings_of_manifest ⟨digests, fileBytes⟩
      rw [he]
      rfl
  · have hload : ManifestLoads crates (s.put (manifestKey fileId)
        (crates.serde.manifestToVec ⟨digests, fileBytes⟩)) fileId :=
      ⟨hne, _, _, hw.find_self, crates.serde.manifest_roundtrip _, hv⟩
    have hs : Sound crates none none (s.put (manifestKey fileId)
        (crates.serde.manifestToVec ⟨digests, fileBytes⟩)) := by
      refine ⟨h.manifests.mono (hw.find_ne (manifestKey_ne_indexKey hname).symm) fun f _ hb ↦
        ⟨hb, fun hl ↦ ?_⟩, h.refcounts.of_wrote hw (offRefcount_manifestKey _) fun _ ↦ rfl,
        named_of_wrote h.named hw (manifestKey_ne_indexKey hname)⟩
      by_cases hf : f = fileId
      · rw [hf]
        exact hload
      · exact hl.of_find (hw.find_ne (mt manifestKey_inj.mp hf))
    exact carefully_bind (carefully_put (crashSafe_put hs.openable) (carefully_mono
      (carefully_listManifest hs hload hname) (fun _ _ h ↦ ⟨hname, h⟩) fun _ _ h ↦ h))

/-- **Removing a manifest** deletes its record while the file is still listed. -/
theorem carefully_removeManifest (h : Sound crates none none s) (hname : fileId ≠ indexName) :
    carefully (CrashSafe crates) (removeManifest crates fileId)
      (fun _ s' ↦ Sound crates none none s' ∧ s'.fields = s.fields) R s := by
  have hw := wrote_del s (manifestKey fileId)
  have hs : Sound crates (some fileId) none (s.del (manifestKey fileId)) := by
    refine ⟨h.manifests.mono (hw.find_ne (manifestKey_ne_indexKey hname).symm) fun f _ hb ↦
      ⟨Option.not_mem_none f, fun hl ↦ hl.of_find (hw.find_ne fun hk ↦ hb ?_)⟩,
      h.refcounts.of_wrote hw (offRefcount_manifestKey _) fun hc ↦ ?_,
      named_of_wrote h.named hw (manifestKey_ne_indexKey hname)⟩
    · rw [Option.mem_some_iff]
      exact (manifestKey_inj.mp hk).symm
    · rw [isChunkDigest_manifestKey] at hc
      exact Bool.noConfusion hc
  have hno : ¬ManifestLoads crates (s.del (manifestKey fileId)) fileId := by
    rintro ⟨-, raw, -, hraw, -⟩
    rw [hw.find_self] at hraw
    cases hraw
  have hopen : Openable crates (s.del (manifestKey fileId)) ↔
      ¬(BackendWrite.delete (manifestKey fileId)).Breaks crates s := by
    have hiff := hs.manifests.iff_of_but hno
    rw [readIndex_congr (hw.find_ne (manifestKey_ne_indexKey hname).symm)] at hiff
    constructor
    · rintro hopen (⟨f, hf, hk⟩ | ⟨d, -, hk⟩ | ⟨hc, -⟩)
      · rw [← manifestKey_inj.mp hk] at hf
        exact hiff.mp hopen.manifests hf
      · exact manifestKey_ne_refcountKey _ _ hk
      · rw [isChunkDigest_manifestKey] at hc
        exact Bool.noConfusion hc
    · exact fun hb ↦ ⟨hiff.mpr fun hf ↦ hb (Or.inl ⟨fileId, hf, rfl⟩), hs.refcounts⟩
  exact carefully_bind (carefully_delete (fun _ ↦ hopen) (carefully_unlistManifest hs))

/-- **Saving a reference count** writes its record, which is listed only afterwards. Without a size
it needs the blob. -/
theorem carefully_saveRefcount {count size : ℕ} (h : Sound crates none none s)
    (hd : isChunkDigest digest = true) (hb : size = 0 → (s.find digest).isSome) :
    carefully (CrashSafe crates) (saveRefcount crates digest count size)
      (fun _ s' ↦ Sound crates none none s' ∧ s'.fields = s.fields) R s := by
  have hw := wrote_put s (refcountKey digest) (crates.serde.refcountToVec ⟨count, size⟩)
  have hne := ne_of_isChunkDigest hd isChunkDigest_indexName
  have hrec : refcountRecord crates (s.put (refcountKey digest)
      (crates.serde.refcountToVec ⟨count, size⟩)) digest = some (count, size) := by
    rw [refcountRecord, hw.find_self, Option.bind_some, parseRefcountRecord,
      crates.serde.refcount_roundtrip]
    rfl
  have hload : RefcountLoads crates (s.put (refcountKey digest)
      (crates.serde.refcountToVec ⟨count, size⟩)) digest := by
    refine ⟨⟨hd, by rw [hrec]; rfl⟩, ?_⟩
    rintro ⟨c, hc, -⟩
    rw [hrec] at hc
    rw [hw.find_ne (ne_of_isChunkDigest hd (isChunkDigest_refcountKey digest))]
    exact hb (congrArg Prod.snd (Option.some.inj hc))
  have hs : Sound crates none none (s.put (refcountKey digest)
      (crates.serde.refcountToVec ⟨count, size⟩)) := by
    refine ⟨h.manifests.of_wrote hw (offManifest_refcountKey _),
      h.refcounts.mono (hw.find_ne (refcountKey_ne_indexKey hne).symm) fun d _ hb ↦
        ⟨hb, fun hl ↦ ?_⟩, named_of_wrote h.named hw (offManifest_refcountKey _).ne_indexKey⟩
    by_cases hdd : d = digest
    · rw [hdd]
      exact hload
    · refine hl.of_find (hw.find_ne (mt refcountKey_inj.mp hdd)) fun hs ↦ ?_
      rwa [hw.find_ne (ne_of_isChunkDigest hl.1.1 (isChunkDigest_refcountKey digest))]
  rw [saveRefcount_eq, validateDigest_eq_ok.mpr hd, ofExcept_ok, pure_bind]
  exact carefully_bind (carefully_put (crashSafe_put hs.openable) (carefully_listRefcount hs hload))

/-- **Removing a reference count** deletes its record while the digest is still listed. -/
theorem carefully_removeRefcount (h : Sound crates none (some digest) s)
    (hd : isChunkDigest digest = true) :
    carefully (CrashSafe crates) (removeRefcount crates digest)
      (fun _ s' ↦ Sound crates none none s' ∧ s'.fields = s.fields) R s := by
  have hw := wrote_del s (refcountKey digest)
  have hne := ne_of_isChunkDigest hd isChunkDigest_indexName
  have hs : Sound crates none (some digest) (s.del (refcountKey digest)) := by
    refine ⟨h.manifests.of_wrote hw (offManifest_refcountKey _),
      h.refcounts.mono (hw.find_ne (refcountKey_ne_indexKey hne).symm) fun d _ hb ↦
        ⟨hb, fun hl ↦ hl.of_find (hw.find_ne fun hk ↦ hb ?_) fun hs ↦ ?_⟩,
      named_of_wrote h.named hw (offManifest_refcountKey _).ne_indexKey⟩
    · rw [Option.mem_some_iff]
      exact (refcountKey_inj.mp hk).symm
    · rwa [hw.find_ne (ne_of_isChunkDigest hl.1.1 (isChunkDigest_refcountKey digest))]
  have hno : ¬RefcountLoads crates (s.del (refcountKey digest)) digest := by
    rintro ⟨⟨-, hr⟩, -⟩
    rw [refcountRecord, hw.find_self] at hr
    exact Bool.noConfusion hr
  have hopen : Openable crates (s.del (refcountKey digest)) ↔
      ¬(BackendWrite.delete (refcountKey digest)).Breaks crates s := by
    have hiff := hs.refcounts.iff_of_but hno
    rw [readIndex_congr (hw.find_ne (refcountKey_ne_indexKey hne).symm)] at hiff
    constructor
    · rintro hopen (⟨f, -, hk⟩ | ⟨d, hd', hk⟩ | ⟨hc, -⟩)
      · exact refcountKey_ne_manifestKey _ _ hk
      · rw [← refcountKey_inj.mp hk] at hd'
        exact hiff.mp hopen.refcounts hd'
      · rw [isChunkDigest_refcountKey] at hc
        exact Bool.noConfusion hc
    · exact fun hb ↦ ⟨hs.manifests, hiff.mpr fun hd' ↦ hb (Or.inr (Or.inl ⟨digest, hd', rfl⟩))⟩
  exact carefully_bind (carefully_delete (fun _ ↦ hopen) (carefully_unlistRefcount hs))

/-- **Deleting a blob** that a listed digest may need. -/
theorem carefully_deleteBlob {Q : Unit → State → Prop} (h : Sound crates none none s)
    (hd : isChunkDigest digest = true)
    (hQ : ∀ s', Sound crates none (some digest) s' → s'.fields = s.fields → Q () s') :
    carefully (CrashSafe crates) (backendCall (.delete digest)) Q R s := by
  have hw := wrote_del s digest
  have hkey : ∀ d, (s.del digest).find (refcountKey d) = s.find (refcountKey d) := fun d ↦
    hw.find_ne (ne_of_isChunkDigest hd (isChunkDigest_refcountKey d)).symm
  have hindex : (s.del digest).find refcountIndexKey = s.find refcountIndexKey :=
    refcountKey_indexName ▸ hkey indexName
  have hs : Sound crates none (some digest) (s.del digest) := by
    refine ⟨h.manifests.of_wrote hw (offManifest_of_isChunkDigest hd),
      h.refcounts.mono hindex fun d _ hb ↦ ⟨Option.not_mem_none d, fun hl ↦ hl.of_find (hkey d)
        fun hs ↦ ?_⟩, named_of_wrote h.named hw (offManifest_of_isChunkDigest hd).ne_indexKey⟩
    rw [hw.find_ne fun hdd ↦ hb (by rw [Option.mem_some_iff]; exact hdd.symm)]
    exact hs
  have hopen : Openable crates (s.del digest) ↔
      ¬(BackendWrite.delete digest).Breaks crates s := by
    constructor
    · rintro hopen (⟨f, -, hk⟩ | ⟨d, -, hk⟩ | ⟨-, hlist, hsize⟩)
      · exact offManifest_of_isChunkDigest hd f hk
      · exact offRefcount_of_isChunkDigest hd d hk
      · obtain ⟨l, hl, hall⟩ := hopen.refcounts
        have hm : digest ∈ l := by
          rw [← isListed_of_readIndex hl, isListed_congr hindex]
          exact hlist
        have hb := (hall digest hm (Option.not_mem_none _)).2 (by
          rw [LacksSize, refcountRecord_congr (hkey digest)]
          exact hsize)
        rw [hw.find_self] at hb
        exact Bool.noConfusion hb
    · intro hb
      refine ⟨hs.manifests, ?_⟩
      obtain ⟨l, hl, hall⟩ := h.refcounts
      refine ⟨l, (readIndex_congr hindex).trans hl, fun d hdl hn ↦ ?_⟩
      have hload := hall d hdl hn
      by_cases hdd : d = digest
      · refine ⟨⟨hload.1.1, by rw [refcountRecord_congr (hkey d)]; exact hload.1.2⟩, fun hsize ↦ ?_⟩
        rw [LacksSize, refcountRecord_congr (hkey d)] at hsize
        rw [hdd] at hdl hsize
        exact absurd (Or.inr (Or.inr ⟨hd, (isListed_of_readIndex hl).mpr hdl, hsize⟩)) hb
      · exact hload.of_find (hkey d) fun hs ↦ by rwa [hw.find_ne hdd]
  exact carefully_delete (fun _ ↦ hopen) (hQ _ hs rfl)

end Records

/-! ## Operations -/

section Operations

variable {store : ChunkStore} {s s' : State} {digest fileId : String} {digests : List String}

/-- Sound, with the manifest of `s`. -/
def Steady (crates : Crates) (s s' : State) : Prop :=
  Sound crates none none s' ∧ s'.fields.manifest = s.fields.manifest

theorem Sound.steady (h : Sound store.crates none none s) : Steady store.crates s s := ⟨h, rfl⟩

theorem Steady.trans {s₁ s₂ : State} (h : Steady store.crates s s₁)
    (h' : Steady store.crates s₁ s₂) : Steady store.crates s s₂ := ⟨h'.1, h'.2.trans h.2⟩

theorem Steady.withFields (h : Steady store.crates s s') {f : Fields}
    (hf : f.manifest = s'.fields.manifest) : Steady store.crates s (s'.withFields f) :=
  ⟨h.1.of_fields f, hf.trans h.2⟩

theorem manifest_refcountIncrement (digest : String) (size : ℕ) (f : Fields) :
    ((FieldAccess.refcountIncrement digest size).run f).2.manifest = f.manifest := by
  rw [FieldAccess.run]
  split <;> rfl

theorem manifest_refcountDecrement (digest : String) (f : Fields) :
    ((FieldAccess.refcountDecrement digest).run f).2.manifest = f.manifest := by
  rw [FieldAccess.run]
  split <;> rfl

/-- Storing a chunk puts its blob before it is counted. -/
theorem carefully_storeChunk {chunk : Bytes} (h : Sound store.crates none none s)
    (hd : isChunkDigest digest = true) :
    carefully (CrashSafe store.crates) (flat (store.storeChunk digest chunk))
      (fun _ ↦ Steady store.crates s) (fun _ ↦ Steady store.crates s) s := by
  simp only [ChunkStore.storeChunk, flat_bind, flat_ofExcept, flat_locked, flat_ite, flat_pure]
  refine carefully_bind (carefully_ofExcept (fun blob _ ↦ ?_) fun _ _ ↦ h.steady)
  have hblob : carefully (CrashSafe store.crates) (ChunkStore.putBlob digest blob)
      (fun _ s' ↦ Steady store.crates s s' ∧ (s'.find digest).isSome)
      (fun _ ↦ Steady store.crates s) s := by
    refine carefully_bind (carefully_existsKey ?_)
    split
    · exact carefully_pure ⟨h.steady, by assumption⟩
    · have hw := wrote_put s digest blob
      have hs : Sound store.crates none none (s.put digest blob) :=
        ⟨h.manifests.of_wrote hw (offManifest_of_isChunkDigest hd),
          h.refcounts.of_wrote hw (offRefcount_of_isChunkDigest hd) fun _ ↦ rfl,
          named_of_wrote h.named hw (offManifest_of_isChunkDigest hd).ne_indexKey⟩
      refine carefully_bind
        (carefully_put (crashSafe_put hs.openable) (carefully_pure ⟨⟨hs, rfl⟩, ?_⟩))
      rw [hw.find_self]
      rfl
  refine carefully_bind (carefully_mono hblob ?_ fun _ _ h ↦ h)
  rintro present s₁ ⟨hs₁, hb₁⟩
  have hcount : carefully (CrashSafe store.crates) (store.countChunk digest chunk.length)
      (fun _ ↦ Steady store.crates s) (fun _ ↦ Steady store.crates s) s₁ := by
    have hs₂ := hs₁.withFields (manifest_refcountIncrement digest chunk.length s₁.fields)
    refine carefully_bind (carefully_fieldOrThrow (fun n _ ↦ ?_) fun _ _ ↦ hs₂)
    refine carefully_bind (carefully_field ?_)
    refine carefully_mono (carefully_saveRefcount (hs₂.1.of_fields _) hd fun _ ↦ hb₁) ?_ fun _ _ h ↦
      h
    exact fun _ s₃ h₃ ↦ ⟨h₃.1, (congrArg Fields.manifest h₃.2).trans hs₂.2⟩
  refine carefully_bind (carefully_mono hcount (fun _ s₂ hs₂ ↦ ?_) fun _ _ h ↦ h)
  split
  all_goals exact carefully_bind (carefully_field (carefully_pure (hs₂.withFields rfl)))

/-- Releasing a reference: without a size, the blob was there to look it up. -/
private theorem carefully_releaseDigest (h : Sound store.crates none none s)
    (hd : isChunkDigest digest = true) :
    carefully (CrashSafe store.crates) (flat (store.releaseDigest digest))
      (fun _ ↦ Steady store.crates s) (fun _ ↦ Steady store.crates s) s := by
  simp only [ChunkStore.releaseDigest, flat_bind, flat_locked, flat_unlocked, flat_ite]
  have hsize : carefully (CrashSafe store.crates) (flat (store.chunkSize digest))
      (fun size s' ↦ s' = s ∧ (size = 0 → (s.find digest).isSome))
      (fun _ ↦ Steady store.crates s) s := by
    simp only [ChunkStore.chunkSize, flat_bind, flat_locked, flat_ite, flat_pure, flat_unlocked]
    refine carefully_bind (carefully_field ?_)
    split
    · rename_i hpos
      exact carefully_pure ⟨rfl, fun h0 ↦ absurd h0 (Nat.pos_iff_ne_zero.mp hpos)⟩
    · refine carefully_bind (carefully_get ?_)
      cases hraw : State.find _ digest with
      | none => exact carefully_throw h.steady
      | some raw =>
        simp only [flat_bind, flat_ofExcept, flat_pure]
        refine carefully_bind (carefully_ofExcept (fun data _ ↦ carefully_pure ⟨rfl, fun _ ↦ ?_⟩)
          fun _ _ ↦ h.steady)
        exact (congrArg Option.isSome hraw).trans rfl
  refine carefully_bind (carefully_mono hsize ?_ fun _ _ h ↦ h)
  rintro size s ⟨rfl, hb⟩
  have hs₁ := h.steady.withFields (manifest_refcountDecrement digest s.fields)
  refine carefully_bind (carefully_fieldOrThrow (fun remaining _ ↦ ?_) fun _ _ ↦ hs₁)
  split
  · refine carefully_bind (carefully_deleteBlob hs₁.1 hd fun s₂ hs₂ hf₂ ↦ ?_)
    refine carefully_bind (carefully_mono (carefully_removeRefcount hs₂ hd) ?_ fun _ _ h ↦ h)
    rintro _ s₃ ⟨hs₃, hf₃⟩
    have hm₃ : s₃.fields.manifest = s.fields.manifest :=
      (congrArg Fields.manifest (hf₃.trans hf₂)).trans hs₁.2
    exact carefully_bind (carefully_field (carefully_field
      ((Steady.withFields ⟨hs₃, hm₃⟩ rfl).withFields rfl)))
  · refine carefully_bind (carefully_mono (carefully_saveRefcount hs₁.1 hd hb) ?_ fun _ _ h ↦ h)
    rintro _ s₂ ⟨hs₂, hf₂⟩
    exact carefully_field (Steady.withFields ⟨hs₂, (congrArg Fields.manifest hf₂).trans hs₁.2⟩ rfl)

theorem carefully_releaseDigests (h : Sound store.crates none none s)
    (hd : ∀ d ∈ digests, isChunkDigest d = true) :
    carefully (CrashSafe store.crates) (flat (store.releaseDigests digests))
      (fun _ ↦ Steady store.crates s) (fun _ ↦ Steady store.crates s) s := by
  induction digests generalizing s with
  | nil => exact carefully_pure h.steady
  | cons d digests ih =>
    rw [ChunkStore.releaseDigests, flat_bind]
    refine carefully_bind (carefully_mono (carefully_releaseDigest h (hd d List.mem_cons_self))
      (fun _ s₁ hs₁ ↦ ?_) fun _ _ h ↦ h)
    exact carefully_mono (ih hs₁.1 fun e he ↦ hd e (List.mem_cons_of_mem d he))
      (fun _ _ hs₂ ↦ hs₁.trans hs₂) fun _ _ hs₂ ↦ hs₁.trans hs₂

/-- A sound backend with a manifest of chunk names, none of it under the name of the index. -/
structure Fit (crates : Crates) (s : State) : Prop where
  sound : Sound crates none none s
  listed : ∀ f digests, s.fields.manifest.tryGet f = some digests →
    f ≠ indexName ∧ ∀ d ∈ digests, isChunkDigest d = true

private theorem Fit.of_steady (h : Fit store.crates s) (hs : Steady store.crates s s') :
    Fit store.crates s' := ⟨hs.1, by rw [hs.2]; exact h.listed⟩

/-- **Ingest.** -/
theorem carefully_ingestStream {stream : Stream} (h : Fit store.crates s) :
    carefully (CrashSafe store.crates) (flat (store.ingestStream fileId stream))
      (fun _ ↦ Fit store.crates) (fun _ s' ↦ Fit store.crates s' ∨ Garbled store.crates s') s := by
  simp only [ChunkStore.ingestStream, Stream.consume, flat_bind, flat_foldlM, bind_assoc]
  refine carefully_bind (carefully_mono (wpx_foldlM (J := fun _ session s' ↦
    (∀ d ∈ session.digests, isChunkDigest d = true) ∧ Steady store.crates s s')
    (R := fun _ s' ↦ Fit store.crates s' ∨ Garbled store.crates s') ?_ stream.chunks
    ChunkStore.IngestSession.new s ⟨fun d hd ↦ absurd hd List.not_mem_nil, h.sound.steady⟩)
    ?_ fun _ _ h ↦ h)
  · rintro chunk l session s₁ ⟨hd, hs₁⟩
    simp only [ChunkStore.accept, flat_bind, flat_pure]
    refine carefully_bind (carefully_mono (carefully_storeChunk hs₁.1 (isChunkDigest_digestHex _ _))
      (fun _ s₂ hs₂ ↦ carefully_pure ⟨fun d hmem ↦ ?_, hs₁.trans hs₂⟩)
      fun _ _ hs₂ ↦ Or.inl (h.of_steady (hs₁.trans hs₂)))
    rcases List.mem_append.mp hmem with hmem | hmem
    · exact hd d hmem
    · rw [List.mem_singleton.mp hmem]
      exact isChunkDigest_digestHex _ _
  · rintro session s₁ ⟨hd, hs₁⟩
    have hfit₁ := h.of_steady hs₁
    cases stream.error with
    | some e => exact carefully_bind (carefully_throw (Or.inl hfit₁))
    | none =>
      refine carefully_bind (carefully_pure ?_)
      simp only [ChunkStore.commit, ChunkStore.peekDigests, flat_bind, flat_locked, flat_unlocked]
      refine carefully_bind (carefully_field ?_)
      dsimp only [FieldAccess.run, State.withFields_fields]
      by_cases hempty : fileId = ""
      · -- the empty id is refused before anything has changed
        subst hempty
        refine carefully_bind (carefully_fieldOrThrow (fun _ hok ↦ ?_) fun _ _ ↦ ?_)
        · rw [FieldAccess.run, Manifest.insert_empty] at hok
          cases hok
        · rw [FieldAccess.run, Manifest.insert_empty]
          exact Or.inl hfit₁
      have hins := Manifest.insert_eq_ok (m := s₁.fields.manifest) hempty session.digests
        session.fileBytes
      refine carefully_bind (carefully_fieldOrThrow (fun _ _ ↦ ?_) fun _ herr ↦ ?_)
      · rw [FieldAccess.run, hins]
        refine carefully_bind (carefully_mono (carefully_saveManifest (hs₁.1.of_fields _) hempty hd)
          ?_ fun _ _ hg ↦ Or.inr hg)
        rintro _ s₂ ⟨hname, hs₂, hf₂⟩
        have hfit₂ : Fit store.crates s₂ := by
          refine ⟨hs₂, fun f digests hget ↦ ?_⟩
          rw [hf₂, Manifest.tryGet] at hget
          dsimp only [State.fields_withFields] at hget
          rw [Table.find_set] at hget
          split at hget
          · rename_i hff
            cases hget
            exact ⟨hff ▸ hname, hd⟩
          · exact hfit₁.listed f digests hget
        cases hold : s₁.fields.manifest.tryGet fileId with
        | none =>
          refine carefully_bind (carefully_pure (carefully_pure ?_))
          exact hfit₂
        | some old =>
          dsimp only
          rw [flat_bind]
          exact carefully_bind (carefully_mono
            (carefully_releaseDigests hs₂ (hfit₁.listed fileId old hold).2)
            (fun _ s₃ hs₃ ↦ carefully_pure (hfit₂.of_steady hs₃))
            fun _ s₃ hs₃ ↦ Or.inl (hfit₂.of_steady hs₃))
      · rw [FieldAccess.run, hins] at herr
        cases herr

/-- **Delete.** -/
theorem carefully_deleteFile (h : Fit store.crates s) :
    carefully (CrashSafe store.crates) (flat (store.delete fileId))
      (fun _ ↦ Fit store.crates) (fun _ s' ↦ Fit store.crates s' ∨ Garbled store.crates s') s := by
  have hfit₁ : ∀ s', Sound store.crates none none s' →
      s'.fields.manifest = (s.fields.manifest.remove fileId).2 → Fit store.crates s' := by
    refine fun s' hs' hm ↦ ⟨hs', fun f digests hget ↦ ?_⟩
    rw [hm, Manifest.tryGet, Manifest.remove, Table.find_unset] at hget
    split at hget
    · cases hget
    · exact h.listed f digests hget
  simp only [ChunkStore.delete, flat_bind, flat_locked, flat_unlocked]
  refine carefully_bind (carefully_fieldOrThrow (fun digests hok ↦ ?_)
    fun _ _ ↦ Or.inl (hfit₁ _ (h.sound.of_fields _) rfl))
  have hget : s.fields.manifest.tryGet fileId = some digests := by
    rw [FieldAccess.run, Manifest.remove, Manifest.get] at hok
    split at hok
    · cases hok
      assumption
    · cases hok
  obtain ⟨hname, hd⟩ := h.listed fileId digests hget
  refine carefully_bind (carefully_mono (carefully_removeManifest (h.sound.of_fields _) hname)
    ?_ fun _ _ h ↦ h)
  rintro _ s₁ ⟨hs₁, hf₁⟩
  have hm₁ : s₁.fields.manifest = (s.fields.manifest.remove fileId).2 := by
    rw [hf₁]
    rfl
  exact carefully_mono (carefully_releaseDigests hs₁ hd)
    (fun _ s₂ hs₂ ↦ hfit₁ s₂ hs₂.1 (hs₂.2.trans hm₁))
    fun _ s₂ hs₂ ↦ Or.inl (hfit₁ s₂ hs₂.1 (hs₂.2.trans hm₁))

end Operations

end Chunkstore

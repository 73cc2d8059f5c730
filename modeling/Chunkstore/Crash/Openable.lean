import Chunkstore.Exact.Reopen

/-!
# Backends that can be opened

`open` fails on a name that is listed without a record it can load. `Openable` says that there is no
such name, and `opens_iff` that this is all it takes: on a fault-free backend opening succeeds
exactly on the openable states.

A listed digest needs a blob only when its record has no size, since that is when opening looks the
size up.

## Between two writes

Removing a record and taking its name off the index are two writes, and between them the name is
listed in vain. `IndexLoads` therefore has one name that need not load.
-/

open Effects Program

namespace Chunkstore

/-! ## What opening needs -/

section Definitions

variable (crates : Crates) (s : State)

def ManifestLoads (fileId : String) : Prop :=
  fileId ≠ "" ∧ ∃ raw record, s.find (manifestKey fileId) = some raw ∧
    crates.serde.manifestFromSlice raw = .ok record ∧
      ∀ d ∈ record.digests, isChunkDigest d = true

/-- The refcount record of a digest, if there is one that can be parsed. -/
def refcountRecord (digest : String) : Option (ℕ × ℕ) :=
  (s.find (refcountKey digest)).bind fun raw ↦ (parseRefcountRecord crates raw digest).toOption

/-- The refcount record of a digest has a count but no size. -/
def LacksSize (digest : String) : Prop :=
  ∃ count, refcountRecord crates s digest = some (count, 0) ∧ 0 < count

def RefcountLoads (digest : String) : Prop :=
  (isChunkDigest digest = true ∧ (refcountRecord crates s digest).isSome) ∧
    (LacksSize crates s digest → (s.find digest).isSome)

/-- The manifest record of a file, if there is one that can be parsed. -/
def manifestRecord (fileId : String) : Option ManifestRecord :=
  (s.find (manifestKey fileId)).bind fun raw ↦ (crates.serde.manifestFromSlice raw).toOption

/-- The manifest record of a listed file. -/
def persistedFile (fileId : String) : Option ManifestRecord :=
  if fileId ∈ (readIndex crates s manifestIndexKey).getD [] then manifestRecord crates s fileId
  else none

/-- The entry that loading makes of a refcount record. -/
def loadedRef (digest : String) : Option ChunkRef :=
  (refcountRecord crates s digest).bind fun r ↦ if 0 < r.1 then some ⟨r.1, r.2⟩ else none

/-- The entry that loading makes of a listed digest. -/
def persistedRef (digest : String) : Option ChunkRef :=
  if IsListed crates s digest then loadedRef crates s digest else none

/-- The index can be read, and every name on it loads, but perhaps one. -/
def IndexLoads (key : String) (loads : String → Prop) (but : Option String) : Prop :=
  ∃ l, readIndex crates s key = some l ∧ ∀ name ∈ l, name ∉ but → loads name

/-- The manifests can be loaded, but perhaps one. -/
def ManifestsLoad (but : Option String) : Prop :=
  IndexLoads crates s manifestIndexKey (ManifestLoads crates s) but

/-- The reference counts can be loaded, but perhaps one. -/
def RefcountsLoad (but : Option String) : Prop :=
  IndexLoads crates s refcountIndexKey (RefcountLoads crates s) but

/-- Every listed count has a record that parses. -/
def CountsLoad : Prop :=
  IndexLoads crates s refcountIndexKey
    (fun d ↦ isChunkDigest d = true ∧ (refcountRecord crates s d).isSome) none

/-- A backend that can be opened. -/
structure Openable : Prop where
  manifests : ManifestsLoad crates s none
  refcounts : RefcountsLoad crates s none

end Definitions

variable {crates : Crates} {s s' : State} {key name fileId digest : String}
  {but but' : Option String}

/-! ### Index lists -/

namespace IndexLoads

variable {loads loads' : String → Prop} {l : List String}

/-- Nothing but the records has changed, and what could be loaded still can. -/
theorem mono (h : IndexLoads crates s key loads but) (hi : s'.find key = s.find key)
    (hl : ∀ n ∈ (readIndex crates s key).getD [], n ∉ but' → n ∉ but ∧ (loads n → loads' n)) :
    IndexLoads crates s' key loads' but' := by
  obtain ⟨l, hread, hall⟩ := h
  rw [hread, Option.getD_some] at hl
  refine ⟨l, (readIndex_congr hi).trans hread, fun n hn hb ↦ ?_⟩
  obtain ⟨hbut, himp⟩ := hl n hn hb
  exact himp (hall n hn hbut)

theorem of_mem (h : IndexLoads crates s key loads but) (hl : readIndex crates s key = some l)
    (hn : name ∈ l) (hb : name ∉ but) : loads name := by
  obtain ⟨l', hl', hall⟩ := h
  obtain rfl : l = l' := Option.some.inj (hl.symm.trans hl')
  exact hall name hn hb

theorem iff_of_but (h : IndexLoads crates s key loads (some name)) (hno : ¬loads name) :
    IndexLoads crates s key loads none ↔ name ∉ (readIndex crates s key).getD [] := by
  obtain ⟨l, hl, hall⟩ := h
  rw [hl, Option.getD_some]
  constructor
  · rintro ⟨l', hl', hall'⟩ hmem
    obtain rfl : l = l' := Option.some.inj (hl.symm.trans hl')
    exact hno (hall' name hmem (Option.not_mem_none name))
  · intro hmem
    refine ⟨l, hl, fun n hn _ ↦ hall n hn fun hb ↦ ?_⟩
    rw [Option.mem_some_iff] at hb
    exact hmem (hb ▸ hn)

end IndexLoads

/-! ### Frames -/

theorem ManifestLoads.of_find (h : ManifestLoads crates s fileId)
    (hf : s'.find (manifestKey fileId) = s.find (manifestKey fileId)) :
    ManifestLoads crates s' fileId := by
  obtain ⟨hne, raw, record, hraw, hrec⟩ := h
  exact ⟨hne, raw, record, hf.trans hraw, hrec⟩

theorem refcountRecord_congr (hf : s'.find (refcountKey digest) = s.find (refcountKey digest)) :
    refcountRecord crates s' digest = refcountRecord crates s digest := by
  rw [refcountRecord, refcountRecord, hf]

theorem RefcountLoads.of_find (h : RefcountLoads crates s digest)
    (hf : s'.find (refcountKey digest) = s.find (refcountKey digest))
    (hb : (s.find digest).isSome → (s'.find digest).isSome) : RefcountLoads crates s' digest := by
  rw [RefcountLoads, LacksSize, refcountRecord_congr hf]
  exact ⟨h.1, fun hl ↦ hb (h.2 hl)⟩

theorem RefcountsLoad.counts (h : RefcountsLoad crates s none) : CountsLoad crates s := by
  obtain ⟨l, hl, hall⟩ := h
  exact ⟨l, hl, fun d hd hb ↦ (hall d hd hb).1⟩

theorem ManifestsLoad.of_find (h : ManifestsLoad crates s but)
    (hf : ∀ f, s'.find (manifestKey f) = s.find (manifestKey f)) :
    ManifestsLoad crates s' but :=
  h.mono (manifestKey_indexName ▸ hf indexName) fun f _ hb ↦ ⟨hb, fun hl ↦ hl.of_find (hf f)⟩

theorem RefcountsLoad.of_find (h : RefcountsLoad crates s but)
    (hf : ∀ d, s'.find (refcountKey d) = s.find (refcountKey d))
    (hb : ∀ d, isChunkDigest d = true → (s.find d).isSome → (s'.find d).isSome) :
    RefcountsLoad crates s' but :=
  h.mono (refcountKey_indexName ▸ hf indexName) fun d _ hd ↦
    ⟨hd, fun hl ↦ hl.of_find (hf d) (hb d hl.1.1)⟩

/-! ## Opening -/

section Opening

variable {m : Manifest} {rc : RefCount}

private theorem forM_validateDigest_eq_ok {digests : List String} :
    digests.forM validateDigest = .ok () ↔ ∀ d ∈ digests, isChunkDigest d = true := by
  refine ⟨fun h ↦ ?_, forM_validateDigest⟩
  induction digests with
  | nil => exact fun d hd ↦ absurd hd List.not_mem_nil
  | cons d digests ih =>
    rw [List.forM_eq_forM, List.forM_cons] at h
    cases hd : validateDigest d with
    | error e =>
      rw [hd] at h
      cases h
    | ok u =>
      rw [hd] at h
      intro e he
      rcases List.mem_cons.mp he with rfl | he
      · exact validateDigest_eq_ok.mp hd
      · exact ih h e he

/-- What a manifest says about a file is a record. -/
def Manifest.Matches (m : Manifest) (fileId : String) (r : Option ManifestRecord) : Prop :=
  m.files.find fileId = r.map (·.digests) ∧ m.fileBytes.find fileId = r.map (·.fileBytes)

/-- Loading a file succeeds exactly when it can be loaded. -/
theorem quietly_loadManifest : quietly (loadManifest crates m fileId)
    (fun m' s' ↦ s' = s ∧ ManifestLoads crates s fileId ∧
      m'.Matches fileId (manifestRecord crates s fileId) ∧
        ∀ g r, g ≠ fileId → m.Matches g r → m'.Matches g r)
    (fun _ _ ↦ ¬ManifestLoads crates s fileId) s := by
  refine quietly_bind (quietly_get ?_)
  cases hraw : s.find (manifestKey fileId) with
  | none =>
    refine quietly_throw ?_
    rintro ⟨-, raw, record, hraw', -⟩
    rw [hraw] at hraw'
    cases hraw'
  | some raw =>
    dsimp only
    cases hrec : crates.serde.manifestFromSlice raw with
    | error e =>
      refine quietly_throw ?_
      rintro ⟨-, raw', record, hraw', hrec', -⟩
      rw [hraw] at hraw'
      cases hraw'
      rw [hrec] at hrec'
      cases hrec'
    | ok record =>
      have hrecord : manifestRecord crates s fileId = some record := by
        rw [manifestRecord, hraw, Option.bind_some, hrec]
        rfl
      have hiff : ManifestLoads crates s fileId ↔
          fileId ≠ "" ∧ ∀ d ∈ record.digests, isChunkDigest d = true := by
        constructor
        · rintro ⟨hne, raw', record', hraw', hrec', hall⟩
          rw [hraw] at hraw'
          cases hraw'
          rw [hrec] at hrec'
          cases hrec'
          exact ⟨hne, hall⟩
        · exact fun h ↦ ⟨h.1, raw, record, hraw, hrec, h.2⟩
      rw [hiff]
      dsimp only
      refine quietly_bind (quietly_ofExcept (fun _ hv ↦ ?_) fun e he hl ↦ ?_)
      · refine quietly_ofExcept (fun m' hm ↦ ?_) fun e he hl ↦ ?_
        · have hne : fileId ≠ "" := by
            rintro rfl
            rw [Manifest.insert_empty] at hm
            cases hm
          rw [Manifest.insert_eq_ok hne] at hm
          cases hm
          refine ⟨rfl, ⟨hne, forM_validateDigest_eq_ok.mp hv⟩, ?_, fun g r hg hmatch ↦ ?_⟩
          · rw [hrecord]
            exact ⟨Table.find_set_self _ _ _, Table.find_set_self _ _ _⟩
          · exact ⟨(Table.find_set_ne hg).trans hmatch.1, (Table.find_set_ne hg).trans hmatch.2⟩
        · rw [Manifest.insert_eq_ok hl.1] at he
          cases he
      · rw [forM_validateDigest hl.2] at he
        cases he

/-- A loop succeeds exactly when each of its rounds would. -/
theorem quietly_foldlM_loads {α σ : Type} {f : σ → α → BackendM σ} {L : α → Prop}
    {J : List α → σ → Prop} {index : List α}
    (hstep : ∀ a ∈ index, ∀ l st, J (a :: l) st → quietly (f st a)
      (fun st' s' ↦ s' = s ∧ L a ∧ J l st') (fun _ _ ↦ ¬L a) s)
    (st : σ) (h : J index st) :
    quietly (index.foldlM f st) (fun st' s' ↦ s' = s ∧ (∀ a ∈ index, L a) ∧ J [] st')
      (fun _ _ ↦ ¬∀ a ∈ index, L a) s := by
  refine quietly_mono (quietly_foldlM (J := fun l st' s' ↦ s' = s ∧ (∀ a ∈ l, a ∈ index) ∧
    ((∀ a ∈ l, L a) → ∀ a ∈ index, L a) ∧ J l st') (R := fun _ _ ↦ ¬∀ a ∈ index, L a)
    ?_ index st s ⟨rfl, fun _ hn ↦ hn, id, h⟩)
    (fun st' s' hj ↦ ⟨hj.1, hj.2.2.1 fun a ha ↦ absurd ha List.not_mem_nil, hj.2.2.2⟩)
    fun _ _ h ↦ h
  rintro a l st' _ ⟨rfl, hsub, himp, hj⟩
  have hmem := hsub a List.mem_cons_self
  refine quietly_mono (hstep a hmem l st' hj) ?_ fun _ _ hno hall ↦ hno (hall a hmem)
  rintro st'' _ ⟨rfl, hload, hj'⟩
  refine ⟨rfl, fun n hn ↦ hsub n (List.mem_cons_of_mem _ hn), fun hall ↦ himp fun n hn ↦ ?_, hj'⟩
  rcases List.mem_cons.mp hn with rfl | hn
  · exact hload
  · exact hall n hn

theorem indexLoads_iff {loads : String → Prop} {l : List String}
    (hl : readIndex crates s key = some l) :
    IndexLoads crates s key loads none ↔ ∀ n ∈ l, loads n := by
  constructor
  · rintro ⟨l', hl', hall⟩ n hn
    obtain rfl : l = l' := Option.some.inj (hl.symm.trans hl')
    exact hall n hn (Option.not_mem_none n)
  · exact fun hall ↦ ⟨l, hl, fun n hn _ ↦ hall n hn⟩

theorem not_indexLoads {loads : String → Prop} (hl : readIndex crates s key = none) :
    ¬IndexLoads crates s key loads none := by
  rintro ⟨l, hl', -⟩
  rw [hl] at hl'
  cases hl'

/-- Loading the manifests succeeds exactly when they can be loaded, and finds the listed ones. -/
theorem quietly_loadManifests_iff : quietly (loadManifests crates)
    (fun m s' ↦ s' = s ∧ ManifestsLoad crates s none ∧ ∀ f, m.Matches f (persistedFile crates s f))
    (fun _ _ ↦ ¬ManifestsLoad crates s none) s := by
  refine quietly_bind (wpx_readStringList (fun _ ↦ trivial) (fun index hindex ↦ ?_) ?_)
  · rw [ManifestsLoad, indexLoads_iff hindex]
    refine quietly_mono (quietly_foldlM_loads
      (J := fun l m ↦ (∀ f ∉ l, f ∈ index → m.Matches f (manifestRecord crates s f)) ∧
        ∀ f, m.Matches f none ∨ f ∈ index)
      (fun f hf l m hj ↦ ?_) Manifest.new
      ⟨fun f hf hi ↦ absurd hi hf, fun f ↦ Or.inl ⟨rfl, rfl⟩⟩) ?_ fun _ _ h ↦ h
    · refine quietly_mono quietly_loadManifest ?_ fun _ _ h ↦ h
      rintro m' s' ⟨rfl, hload, hself, hother⟩
      refine ⟨rfl, hload, fun g hg hgi ↦ ?_, fun g ↦ ?_⟩
      · by_cases hgf : g = f
        · rw [hgf]
          exact hself
        · refine hother g _ hgf (hj.1 g (fun hmem ↦ ?_) hgi)
          rcases List.mem_cons.mp hmem with hmem | hmem
          · exact hgf hmem
          · exact hg hmem
      · by_cases hgf : g = f
        · rw [hgf]
          exact Or.inr hf
        · exact (hj.2 g).imp (hother g none hgf) id
    · rintro m _ ⟨rfl, hall, hdone, hsub⟩
      refine ⟨rfl, hall, fun f ↦ ?_⟩
      rw [persistedFile, hindex, Option.getD_some]
      split
      · rename_i hf
        exact hdone f List.not_mem_nil hf
      · rename_i hf
        exact (hsub f).resolve_right hf
  · rintro (hF | hnone) e
    · exact hF.elim
    · exact not_indexLoads hnone

theorem isChunkDigest_of_matches {f : String} {digests : List String}
    (h : ManifestsLoad crates s none) (hm : m.Matches f (persistedFile crates s f))
    (hf : m.tryGet f = some digests) : ∀ d ∈ digests, isChunkDigest d = true := by
  obtain ⟨l, hl, hloads⟩ := h
  rw [Manifest.tryGet, hm.1, persistedFile, hl, Option.getD_some] at hf
  split at hf
  · rename_i hmem
    obtain ⟨-, raw, record, hraw, hrecord, hvalid⟩ := hloads f hmem (Option.not_mem_none f)
    rw [manifestRecord, hraw, Option.bind_some, hrecord] at hf
    obtain rfl := Option.some.inj hf
    exact hvalid
  · cases hf

theorem lacksSize_iff : LacksSize crates s digest ↔
    ∃ r, loadedRef crates s digest = some r ∧ r.size = 0 := by
  rw [LacksSize, loadedRef]
  constructor
  · rintro ⟨count, hr, hpos⟩
    rw [hr, Option.bind_some, if_pos hpos]
    exact ⟨_, rfl, rfl⟩
  · rintro ⟨r, hr, h0⟩
    obtain ⟨⟨count, size⟩, hrec, hr⟩ := Option.bind_eq_some_iff.mp hr
    split at hr
    · rename_i hpos
      cases hr
      dsimp only at h0
      exact ⟨count, by rw [hrec, h0], hpos⟩
    · cases hr

/-- Loading a count succeeds exactly when there is a record of a chunk name that parses. -/
theorem quietly_loadRefcount : quietly (loadRefcount crates rc digest)
    (fun rc' s' ↦ s' = s ∧ (isChunkDigest digest = true ∧ (refcountRecord crates s digest).isSome) ∧
      ∀ d, rc'.counts.find d
        = if d = digest then (loadedRef crates s d).or (rc.counts.find d) else rc.counts.find d)
    (fun _ _ ↦ ¬(isChunkDigest digest = true ∧ (refcountRecord crates s digest).isSome)) s := by
  refine quietly_bind (quietly_ofExcept (fun _ hv ↦ ?_) fun e he hd ↦ ?_)
  · have hd := validateDigest_eq_ok.mp hv
    refine quietly_bind (quietly_get ?_)
    cases hraw : s.find (refcountKey digest) with
    | none =>
      refine quietly_throw fun hs ↦ ?_
      rw [refcountRecord, hraw] at hs
      exact Bool.noConfusion hs.2
    | some raw =>
      dsimp only
      refine quietly_bind (quietly_ofExcept (fun r hr ↦ ?_) fun e he hs ↦ ?_)
      · have hrec : refcountRecord crates s digest = some r := by
          rw [refcountRecord, hraw, Option.bind_some, hr]
          rfl
        have hloaded : loadedRef crates s digest
            = if 0 < r.1 then some ⟨r.1, r.2⟩ else none := by
          rw [loadedRef, hrec, Option.bind_some]
        have hsome : (refcountRecord crates s digest).isSome := by
          rw [hrec]
          rfl
        split
        · rename_i hpos
          refine quietly_pure ⟨rfl, ⟨hd, hsome⟩, fun d ↦ ?_⟩
          rw [RefCount.set, if_neg (Nat.pos_iff_ne_zero.mp hpos), Table.find_set]
          split
          · rename_i hdd
            rw [hdd, hloaded, if_pos hpos]
            rfl
          · rfl
        · rename_i hpos
          refine quietly_pure ⟨rfl, ⟨hd, hsome⟩, fun d ↦ ?_⟩
          split
          · rename_i hdd
            rw [hdd, hloaded, if_neg hpos]
            rfl
          · rfl
      · rw [refcountRecord, hraw, Option.bind_some, he] at hs
        exact Bool.noConfusion hs.2
  · rw [validateDigest_eq_ok.mpr hd.1] at he
    cases he

/-- The table is what loading the backend would make of it. -/
structure Mirrors (crates : Crates) (rc : RefCount) (s : State) : Prop where
  index : ∃ l, readIndex crates s refcountIndexKey = some l ∧ ∀ d ∈ l, isChunkDigest d = true
  refs : ∀ d, persistedRef crates s d = rc.counts.find d
  valid : ∀ d r, rc.counts.find d = some r → isChunkDigest d = true ∧ 0 < r.count

theorem count_pos_of_loadedRef {r : ChunkRef} (h : loadedRef crates s digest = some r) :
    0 < r.count := by
  obtain ⟨rec, -, hr⟩ := Option.bind_eq_some_iff.mp h
  split at hr
  · rename_i hpos
    cases hr
    exact hpos
  · cases hr

theorem loadedRef_congr (hf : s'.find (refcountKey digest) = s.find (refcountKey digest)) :
    loadedRef crates s' digest = loadedRef crates s digest := by
  rw [loadedRef, loadedRef, refcountRecord_congr hf]

theorem loadedRef_of_find {count size : ℕ} (hc : 0 < count)
    (h : s.find (refcountKey digest) = some (crates.serde.refcountToVec ⟨count, size⟩)) :
    loadedRef crates s digest = some ⟨count, size⟩ := by
  rw [loadedRef, refcountRecord, h, Option.bind_some, parseRefcountRecord,
    crates.serde.refcount_roundtrip]
  exact if_pos hc

theorem persistedRef_of_readIndex {l : List String}
    (h : readIndex crates s refcountIndexKey = some l) :
    persistedRef crates s digest = if digest ∈ l then loadedRef crates s digest else none := by
  rw [persistedRef]
  exact if_congr (isListed_of_readIndex h) rfl rfl

private theorem persistedCount_eq (s : State) (digest : String) : persistedCount crates s digest
    = ((persistedRef crates s digest).map ChunkRef.count).getD 0 := by
  rw [persistedCount, persistedRef]
  split
  · rw [recordCount, loadedRef, refcountRecord]
    cases s.find (refcountKey digest) with
    | none => rfl
    | some raw =>
      dsimp only
      rw [Option.bind_some]
      cases (parseRefcountRecord crates raw digest).toOption with
      | none => rfl
      | some r =>
        dsimp only [Option.map_some, Option.getD_some, Option.bind_some]
        split
        · rfl
        · rename_i h0
          exact Nat.eq_zero_of_not_pos h0
  · rfl

namespace Mirrors

theorem persistedCount (h : Mirrors crates rc s) (digest : String) :
    persistedCount crates s digest = rc.countOf digest := by
  rw [persistedCount_eq, h.refs, RefCount.countOf_eq]

theorem of_find (h : Mirrors crates rc s)
    (hf : ∀ d, s'.find (refcountKey d) = s.find (refcountKey d)) : Mirrors crates rc s' := by
  have hi : s'.find refcountIndexKey = s.find refcountIndexKey :=
    refcountKey_indexName ▸ hf indexName
  refine ⟨by rw [readIndex_congr hi]; exact h.index, fun d ↦ ?_, h.valid⟩
  rw [← h.refs d, persistedRef, persistedRef, loadedRef_congr (hf d)]
  exact if_congr (isListed_congr hi) rfl rfl

end Mirrors

theorem RefcountSynced.mirrors (h : RefcountSynced crates rc s) : Mirrors crates rc s := by
  obtain ⟨l, hl, -, hmem⟩ := h.index
  have hvalid : ∀ d ∈ l, isChunkDigest d = true := fun d hd ↦ by
    obtain ⟨r, hr⟩ := Option.isSome_iff_exists.mp ((hmem d).mp hd)
    exact (h.valid d r hr).1
  refine ⟨⟨l, hl, hvalid⟩, fun d ↦ ?_, h.valid⟩
  rw [persistedRef_of_readIndex hl]
  cases hr : rc.counts.find d with
  | none => rw [if_neg fun hd ↦ by rw [hmem, hr] at hd; cases hd]
  | some r =>
    have hd : d ∈ l := (hmem d).mpr (by rw [hr]; rfl)
    have hrec := h.record d (ne_of_isChunkDigest (hvalid d hd) isChunkDigest_indexName)
    rw [hr] at hrec
    rw [if_pos hd, loadedRef_of_find (h.valid d r hr).2 hrec]

theorem quietly_saveRefcount_mirrors (rc' : RefCount) {count size : ℕ} {Q : Unit → State → Prop}
    {R : ChunkStoreError → State → Prop} (h : Mirrors crates rc s)
    (hd : isChunkDigest digest = true) (hc : 0 < count)
    (hrc : ∀ e, rc'.counts.find e
      = if e = digest then some ⟨count, size⟩ else rc.counts.find e)
    (hQ : ∀ s', s'.fields = s.fields → (∀ k, OffRefcount k → s'.find k = s.find k) →
      Mirrors crates rc' s' → Q () s') :
    quietly (saveRefcount crates digest count size) Q R s := by
  obtain ⟨l, hl, hvalid⟩ := h.index
  have hne : digest ≠ indexName := ne_of_isChunkDigest hd isChunkDigest_indexName
  rw [saveRefcount_eq, validateDigest_eq_ok.mpr hd, ofExcept_ok, pure_bind]
  refine quietly_bind (quietly_put (quietly_listName (l := l) ?_ fun s' hf' hfind hindex ↦ ?_))
  · rw [readIndex_congr (s.find_put_ne (refcountKey_ne_indexKey hne).symm), hl]
  · have hfind' : ∀ k, k ≠ refcountIndexKey → k ≠ refcountKey digest → s'.find k = s.find k :=
      fun k h₁ h₂ ↦ by rw [hfind k h₁, State.find_put_ne h₂]
    have hself : s'.find (refcountKey digest)
        = some (crates.serde.refcountToVec ⟨count, size⟩) := by
      rw [hfind _ (refcountKey_ne_indexKey hne), State.find_put_self]
    refine hQ s' hf' (fun k hk ↦ hfind' k hk.ne_indexKey (hk digest))
      ⟨⟨_, hindex, fun e he ↦ ?_⟩, fun e ↦ ?_, fun e r hr ↦ ?_⟩
    · rcases mem_withName.mp he with rfl | he
      · exact hd
      · exact hvalid e he
    · rw [hrc, persistedRef_of_readIndex hindex]
      by_cases hed : e = digest
      · rw [if_pos hed, if_pos (mem_withName.mpr (Or.inl hed)), hed, loadedRef_of_find hc hself]
      · rw [if_neg hed, ← h.refs e, persistedRef_of_readIndex hl]
        by_cases hel : e ∈ l
        · rw [if_pos (mem_withName.mpr (Or.inr hel)), if_pos hel, loadedRef_congr (hfind' _
            (refcountKey_ne_indexKey (ne_of_isChunkDigest (hvalid e hel) isChunkDigest_indexName))
            (mt refcountKey_inj.mp hed))]
        · rw [if_neg hel, if_neg fun hm ↦ (mem_withName.mp hm).elim hed hel]
    · rw [hrc] at hr
      split at hr
      · rename_i hed
        cases hr
        rw [hed]
        exact ⟨hd, hc⟩
      · exact h.valid e r hr

theorem quietly_removeRefcount_mirrors (rc' : RefCount) {Q : Unit → State → Prop}
    {R : ChunkStoreError → State → Prop} (h : Mirrors crates rc s)
    (hd : isChunkDigest digest = true)
    (hrc : ∀ e, rc'.counts.find e = if e = digest then none else rc.counts.find e)
    (hQ : ∀ s', s'.fields = s.fields → (∀ k, OffRefcount k → s'.find k = s.find k) →
      Mirrors crates rc' s' → Q () s') :
    quietly (removeRefcount crates digest) Q R s := by
  obtain ⟨l, hl, hvalid⟩ := h.index
  have hne : digest ≠ indexName := ne_of_isChunkDigest hd isChunkDigest_indexName
  rw [removeRefcount_eq]
  refine quietly_bind (quietly_delete (quietly_unlistName (l := l) ?_ fun s' hf' hfind hindex ↦ ?_))
  · rw [readIndex_congr (s.find_del_ne (refcountKey_ne_indexKey hne).symm), hl]
  · have hfind' : ∀ k, k ≠ refcountIndexKey → k ≠ refcountKey digest → s'.find k = s.find k :=
      fun k h₁ h₂ ↦ by rw [hfind k h₁, State.find_del_ne h₂]
    refine hQ s' hf' (fun k hk ↦ hfind' k hk.ne_indexKey (hk digest))
      ⟨⟨_, hindex, fun e he ↦ hvalid e (List.mem_filter.mp he).1⟩, fun e ↦ ?_, fun e r hr ↦ ?_⟩
    · rw [hrc, persistedRef_of_readIndex hindex]
      by_cases hed : e = digest
      · rw [if_pos hed, if_neg (by simp [hed])]
      · rw [if_neg hed, ← h.refs e, persistedRef_of_readIndex hl]
        by_cases hel : e ∈ l
        · rw [if_pos (List.mem_filter.mpr ⟨hel, decide_eq_true hed⟩), if_pos hel,
            loadedRef_congr (hfind' _
              (refcountKey_ne_indexKey (ne_of_isChunkDigest (hvalid e hel) isChunkDigest_indexName))
              (mt refcountKey_inj.mp hed))]
        · rw [if_neg hel, if_neg fun hm ↦ hel (List.mem_filter.mp hm).1]
    · rw [hrc] at hr
      split at hr
      · cases hr
      · exact h.valid e r hr

/-- Loading the counts succeeds exactly when every listed record is that of a chunk name and
parses. -/
theorem quietly_loadRefcounts_iff : quietly (loadRefcounts crates)
    (fun rc s' ↦ s' = s ∧ Mirrors crates rc s ∧
      ∀ d, IsListed crates s d → isChunkDigest d = true ∧ (refcountRecord crates s d).isSome)
    (fun _ _ ↦ ¬CountsLoad crates s) s := by
  refine quietly_bind (wpx_readStringList (fun _ ↦ trivial) (fun index hindex ↦ ?_) ?_)
  · refine quietly_mono (quietly_foldlM_loads
      (J := fun l rc ↦ (∀ d ∉ l, d ∈ index → rc.counts.find d = loadedRef crates s d) ∧
        ∀ d, rc.counts.find d = none ∨ d ∈ index ∧ rc.counts.find d = loadedRef crates s d)
      (L := fun d ↦ isChunkDigest d = true ∧ (refcountRecord crates s d).isSome)
      (fun d hd l rc hj ↦ ?_) RefCount.new ⟨fun d hd hi ↦ absurd hi hd, fun d ↦ Or.inl rfl⟩)
      ?_ fun _ _ hno hload ↦ ?_
    · refine quietly_mono quietly_loadRefcount (fun rc' s' h ↦ ?_) fun _ _ h ↦ h
      obtain ⟨rfl, hload, hfind⟩ := h
      have hself : rc'.counts.find d = loadedRef crates s' d := by
        rw [hfind, if_pos rfl]
        rcases hj.2 d with hn | ⟨-, hl⟩
        · rw [hn, Option.or_none]
        · rw [hl, Option.or_self]
      refine ⟨rfl, hload, fun e he hei ↦ ?_, fun e ↦ ?_⟩
      · by_cases hed : e = d
        · rw [hed, hself]
        · rw [hfind, if_neg hed]
          refine hj.1 e (fun hmem ↦ ?_) hei
          rcases List.mem_cons.mp hmem with hmem | hmem
          · exact hed hmem
          · exact he hmem
      · by_cases hed : e = d
        · rw [hed]
          exact Or.inr ⟨hd, hself⟩
        · rw [hfind, if_neg hed]
          exact hj.2 e
    · rintro rc _ ⟨rfl, hall, hdone, hsub⟩
      refine ⟨rfl, ⟨⟨index, hindex, fun d hd ↦ (hall d hd).1⟩, fun d ↦ ?_, fun d r hr ↦ ?_⟩,
        fun d hd ↦ hall d ((isListed_of_readIndex hindex).mp hd)⟩
      · rw [persistedRef_of_readIndex hindex]
        split
        · rename_i hd
          exact (hdone d List.not_mem_nil hd).symm
        · rename_i hd
          exact ((hsub d).resolve_right fun h ↦ hd h.1).symm
      · rcases hsub d with hn | ⟨hd, hl⟩
        · rw [hr] at hn
          cases hn
        · exact ⟨(hall d hd).1, count_pos_of_loadedRef (hl.symm.trans hr)⟩
    · exact hno ((indexLoads_iff hindex).mp hload)
  · rintro (hF | hnone) e
    · exact hF.elim
    · exact not_indexLoads hnone

theorem exists_stale (rc : RefCount) {d : String} {r : ChunkRef} (hr : rc.counts.find d = some r)
    (h0 : r.size = 0) (hpos : 0 < r.count) :
    ∃ e ∈ (rc.iterRefs.filter fun e ↦ e.2.size = 0 ∧ 0 < e.2.count).map fun e ↦ (e.1, e.2.count),
      e.1 = d :=
  ⟨(d, r.count), List.mem_map.mpr ⟨(d, r), List.mem_filter.mpr
    ⟨RefCount.mem_iterRefs.mpr hr, decide_eq_true ⟨h0, hpos⟩⟩, rfl⟩, rfl⟩

/-- The backfill never fails on counts that are mirrored, keeps them so and moves only sizes. What
it leaves without a size has no blob, or an empty one. -/
theorem quietly_backfillRefcountSizes_mirrors {R : ChunkStoreError → State → Prop}
    (h : Mirrors crates rc s) :
    quietly (backfillRefcountSizes crates rc) (fun rc' s' ↦ Mirrors crates rc' s' ∧
      (∀ k, OffRefcount k → s'.find k = s.find k) ∧ Backfilled s rc rc' ∧
        ∀ d r raw, rc'.counts.find d = some r → r.size = 0 → s.find d = some raw → raw = [])
      R s := by
  rw [backfillRefcountSizes]
  refine quietly_mono (quietly_foldlM (J := fun l rc' s' ↦
    (Mirrors crates rc' s' ∧ (∀ k, OffRefcount k → s'.find k = s.find k) ∧ Backfilled s rc rc') ∧
    (∀ e ∈ l, ∃ r, rc.counts.find e.1 = some r ∧ r.size = 0 ∧ r.count = e.2) ∧
    ∀ d r raw, rc'.counts.find d = some r → r.size = 0 → s.find d = some raw →
      raw = [] ∨ ∃ e ∈ l, e.1 = d)
    (R := R) ?_ _ rc s ⟨⟨h, fun _ _ ↦ rfl, fun _ ↦ Or.inl rfl⟩, fun _ he ↦ mem_stale rc he,
      fun d r raw hr h0 _ ↦ Or.inr (exists_stale rc hr h0 (h.valid d r hr).2)⟩)
    (fun rc' s' h' ↦ ⟨h'.1.1, h'.1.2.1, h'.1.2.2, fun d r raw hr h0 hraw ↦
      (h'.2.2 d r raw hr h0 hraw).resolve_right fun he ↦
        absurd he.choose_spec.1 List.not_mem_nil⟩)
    fun _ _ h ↦ h
  rintro ⟨d, count⟩ l rc' s' ⟨⟨hm, hfind, hb⟩, hl, hz⟩
  obtain ⟨r, hr, h0, hcount⟩ := hl _ List.mem_cons_self
  dsimp only at hr hcount
  subst hcount
  obtain ⟨hd, hpos⟩ := h.valid d r hr
  have hl' : ∀ e ∈ l, ∃ r, rc.counts.find e.1 = some r ∧ r.size = 0 ∧ r.count = e.2 :=
    fun e he ↦ hl e (List.mem_cons_of_mem _ he)
  have hz' : ∀ e r' raw, e ≠ d → rc'.counts.find e = some r' → r'.size = 0 →
      s.find e = some raw → raw = [] ∨ ∃ e' ∈ l, e'.1 = e := fun e r' raw hed hr' h0' hraw ↦ by
    rcases hz e r' raw hr' h0' hraw with hnil | ⟨e', he', rfl⟩
    · exact Or.inl hnil
    · rcases List.mem_cons.mp he' with rfl | he'
      · exact absurd rfl hed
      · exact Or.inr ⟨e', he', rfl⟩
  have hsd : s'.find d = s.find d := hfind d (offRefcount_of_isChunkDigest hd)
  refine quietly_bind (quietly_get ?_)
  cases hraw : s'.find d with
  | none =>
    refine quietly_pure ⟨⟨hm, hfind, hb⟩, hl', fun e r' raw hr' h0' hraw' ↦ ?_⟩
    refine hz' e r' raw (fun hed ↦ ?_) hr' h0' hraw'
    rw [hed, ← hsd, hraw] at hraw'
    cases hraw'
  | some raw =>
    dsimp only
    rw [if_pos hd]
    have hset : ∀ e, (rc'.set d r.count raw.length).counts.find e
        = if e = d then some ⟨r.count, raw.length⟩ else rc'.counts.find e := fun e ↦ by
      rw [RefCount.set, if_neg (Nat.pos_iff_ne_zero.mp hpos), Table.find_set]
    refine quietly_bind (quietly_saveRefcount_mirrors _ hm hd hpos hset fun s'' _ hfind'' hm'' ↦
      quietly_pure ⟨⟨hm'', fun k hk ↦ (hfind'' k hk).trans (hfind k hk), fun e ↦ ?_⟩, hl',
        fun e r' raw' hr' h0' hraw' ↦ ?_⟩)
    · rw [hset]
      split
      · rename_i hed
        refine Or.inr ⟨r, raw, hed ▸ hr, h0, ?_, rfl⟩
        rw [hed, ← hsd, hraw]
      · exact hb e
    · rw [hset] at hr'
      split at hr'
      · rename_i hed
        cases hr'
        rw [hed, ← hsd, hraw] at hraw'
        cases hraw'
        exact Or.inl (List.length_eq_zero_iff.mp h0')
      · rename_i hed
        exact hz' e r' raw' hed hr' h0' hraw'

/-- The statistics that rebuilding finds in a state. -/
structure Rebuilt (s : State) (stats : Stats) : Prop where
  gc : stats.gcChunks = 0
  stored : stats.storedBytes = (s.fields.refcount.iterRefs.map (rebuiltSize s)).sum
  total : stats.totalBytes
    = (s.fields.refcount.iterRefs.map fun e ↦ rebuiltSize s e * e.2.count).sum

/-- Rebuilding the statistics succeeds exactly when every entry without a size has a blob. -/
theorem quietly_rebuildStats_iff :
    quietly (flat (ChunkStore.mk crates none).rebuildStats)
      (fun _ s' ↦ (∀ e ∈ s.fields.refcount.iterRefs, e.2.size = 0 → (s.find e.1).isSome) ∧
        ∃ stats, s' = s.withFields { s.fields with stats := stats } ∧ Rebuilt s stats)
      (fun _ _ ↦ ¬∀ e ∈ s.fields.refcount.iterRefs, e.2.size = 0 → (s.find e.1).isSome) s := by
  simp only [ChunkStore.rebuildStats, flat_bind, flat_locked, flat_foldlM]
  refine quietly_bind (quietly_field ?_)
  dsimp only [FieldAccess.run, State.withFields_fields]
  refine quietly_bind (quietly_mono (quietly_foldlM_loads (J := fun l (stats : Stats) ↦
    stats.gcChunks = 0 ∧
    stats.storedBytes + (l.map (rebuiltSize s)).sum
      = (s.fields.refcount.iterRefs.map (rebuiltSize s)).sum ∧
    stats.totalBytes + (l.map fun e ↦ rebuiltSize s e * e.2.count).sum
      = (s.fields.refcount.iterRefs.map fun e ↦ rebuiltSize s e * e.2.count).sum)
    (L := fun e : String × ChunkRef ↦ e.2.size = 0 → (s.find e.1).isSome)
    (fun e he l stats hj ↦ ?_) ({} : Stats) ⟨rfl, Nat.zero_add _, Nat.zero_add _⟩)
    (fun stats s' h ↦ ?_) fun _ _ h ↦ h)
  · obtain ⟨d, r⟩ := e
    obtain ⟨hgc, hst, hto⟩ := hj
    rw [List.map_cons, List.sum_cons, ← Nat.add_assoc] at hst hto
    simp only [ChunkStore.rebuildStat, flat_bind, flat_ite, flat_pure]
    split
    · rename_i hpos
      rw [rebuiltSize, if_pos hpos] at hst hto
      exact quietly_bind (quietly_pure (quietly_pure
        ⟨rfl, fun h0 ↦ absurd h0 (Nat.pos_iff_ne_zero.mp hpos), hgc, hst, hto⟩))
    · rename_i hpos
      rw [rebuiltSize, if_neg hpos] at hst hto
      have h0 : r.size = 0 := Nat.eq_zero_of_not_pos hpos
      simp only [ChunkStore.chunkSize, flat_bind, flat_locked, flat_ite, flat_pure, flat_unlocked]
      refine quietly_bind (quietly_bind (quietly_field ?_))
      dsimp only [FieldAccess.run, State.withFields_fields]
      rw [RefCount.sizeOf, RefCount.mem_iterRefs.mp he, Option.map_some, Option.getD_some,
        if_neg hpos]
      refine quietly_bind (quietly_get ?_)
      cases hraw : s.find d with
      | none => exact quietly_throw fun hload ↦ Bool.noConfusion (hload h0)
      | some raw =>
        rw [hraw, Option.getD_some] at hst hto
        exact quietly_pure (quietly_pure ⟨rfl, fun _ ↦ rfl, hgc, hst, hto⟩)
  · obtain ⟨rfl, hload, hgc, hst, hto⟩ := h
    exact quietly_field ⟨hload, stats, rfl, hgc, hst, hto⟩

/-- The part of `open` before the statistics are rebuilt. -/
def loadMetadata (crates : Crates) : BackendM Unit := do
  let manifest ← loadManifests crates
  let loaded ← loadRefcounts crates
  let refcount ← backfillRefcountSizes crates loaded
  field (.construct manifest refcount)

theorem flat_openStore (crates : Crates) :
    flat (openStore crates) = (do
      loadMetadata crates
      flat (ChunkStore.mk crates none).rebuildStats
      return ⟨crates, none⟩) := by
  simp only [openStore, loadMetadata, flat_bind, flat_unlocked, flat_pure, bind_assoc]

/-- What loading the metadata of a backend finds. -/
structure Loaded (crates : Crates) (s s' : State) : Prop where
  manifests : ManifestsLoad crates s none
  counts : CountsLoad crates s
  find : ∀ k, OffRefcount k → s'.find k = s.find k
  files : ∀ f, s'.fields.manifest.Matches f (persistedFile crates s f)
  mirrors : Mirrors crates s'.fields.refcount s'
  refs : ∀ d, s'.fields.refcount.counts.find d = persistedRef crates s d ∨
    ∃ r raw, persistedRef crates s d = some r ∧ r.size = 0 ∧ s.find d = some raw ∧
      s'.fields.refcount.counts.find d = some ⟨r.count, raw.length⟩
  sized : ∀ d r raw, s'.fields.refcount.counts.find d = some r → r.size = 0 →
    s'.find d = some raw → raw = []

/-- **Loading the metadata** succeeds exactly when the manifests and the counts load. -/
theorem quietly_loadMetadata : quietly (loadMetadata crates) (fun _ s' ↦ Loaded crates s s')
    (fun _ _ ↦ ¬(ManifestsLoad crates s none ∧ CountsLoad crates s)) s := by
  refine quietly_bind (quietly_mono quietly_loadManifests_iff ?_ fun _ _ hno h ↦ hno h.1)
  rintro m s ⟨rfl, hmanifests, hfiles⟩
  refine quietly_bind (quietly_mono quietly_loadRefcounts_iff ?_ fun _ _ hno h ↦ hno h.2)
  rintro loaded s ⟨rfl, hmirrors, hall⟩
  refine quietly_bind (quietly_mono (quietly_backfillRefcountSizes_mirrors hmirrors)
    ?_ fun _ _ h ↦ h)
  rintro rc s₁ ⟨hmirrors₁, hfind, hback, hsized⟩
  obtain ⟨index, hindex, -⟩ := hmirrors.index
  have hcounts : CountsLoad crates s := (indexLoads_iff hindex).mpr fun d hd ↦
    hall d ((isListed_of_readIndex hindex).mpr hd)
  refine quietly_field ⟨hmanifests, hcounts, hfind, hfiles, hmirrors₁.of_find fun _ ↦ rfl,
    fun d ↦ ?_, fun d r raw hr h0 hraw ↦ ?_⟩
  · rw [hmirrors.refs d]
    exact hback d
  · refine hsized d r raw hr h0 ?_
    rw [← hfind d (offRefcount_of_isChunkDigest (hmirrors₁.valid d r hr).1)]
    exact hraw

/-- The entries without a size have their blobs exactly when the counts can be loaded and sized. -/
private theorem Loaded.refcountsLoad_iff {s₁ : State} (h : Loaded crates s s₁) :
    (∀ e ∈ s₁.fields.refcount.iterRefs, e.2.size = 0 → (s₁.find e.1).isSome) ↔
      RefcountsLoad crates s none := by
  obtain ⟨index, hindex, hall⟩ := h.counts
  rw [RefcountsLoad, indexLoads_iff hindex]
  constructor
  · intro hblob d hd
    have hload := hall d hd (Option.not_mem_none d)
    refine ⟨hload, fun hsize ↦ ?_⟩
    obtain ⟨r, hr, h0⟩ := lacksSize_iff.mp hsize
    rcases h.refs d with hb | ⟨-, raw, -, -, hraw, -⟩
    · rw [persistedRef_of_readIndex hindex, if_pos hd, hr] at hb
      rw [← h.find d (offRefcount_of_isChunkDigest hload.1)]
      exact hblob (d, r) (RefCount.mem_iterRefs.mpr hb) h0
    · rw [hraw]
      rfl
  · rintro hload ⟨d, r⟩ he h0
    rw [RefCount.mem_iterRefs] at he
    have hd := (h.mirrors.valid d r he).1
    dsimp only
    rw [h.find d (offRefcount_of_isChunkDigest hd)]
    rcases h.refs d with hb | ⟨r₀, raw, -, -, hraw, -⟩
    · rw [he, persistedRef_of_readIndex hindex] at hb
      split at hb
      · rename_i hdl
        exact (hload d hdl).2 (lacksSize_iff.mpr ⟨r, hb.symm, h0⟩)
      · cases hb
    · rw [hraw]
      rfl

/-- What opening a backend finds. -/
structure Opened (crates : Crates) (s s' : State) : Prop where
  openable : Openable crates s
  find : ∀ k, OffRefcount k → s'.find k = s.find k
  files : ∀ f, s'.fields.manifest.Matches f (persistedFile crates s f)
  mirrors : Mirrors crates s'.fields.refcount s'
  refs : ∀ d, s'.fields.refcount.counts.find d = persistedRef crates s d ∨
    ∃ r raw, persistedRef crates s d = some r ∧ r.size = 0 ∧ s.find d = some raw ∧
      s'.fields.refcount.counts.find d = some ⟨r.count, raw.length⟩
  sized : ∀ d r raw, s'.fields.refcount.counts.find d = some r → r.size = 0 →
    s'.find d = some raw → raw = []
  rebuilt : Rebuilt s' s'.fields.stats

/-- **Opening succeeds exactly on the openable backends**, and finds what they hold. -/
theorem quietly_openStore_opened : quietly (flat (openStore crates))
    (fun _ s' ↦ Opened crates s s') (fun _ _ ↦ ¬Openable crates s) s := by
  rw [flat_openStore]
  refine quietly_bind (quietly_mono quietly_loadMetadata ?_ fun _ _ hno h ↦
    hno ⟨h.manifests, h.refcounts.counts⟩)
  rintro - s₁ hloaded
  refine quietly_bind (quietly_mono quietly_rebuildStats_iff ?_ fun _ _ hno h ↦
    hno (hloaded.refcountsLoad_iff.mpr h.refcounts))
  rintro _ _ ⟨hblobs, stats, rfl, hstats⟩
  exact quietly_pure ⟨⟨hloaded.manifests, hloaded.refcountsLoad_iff.mp hblobs⟩, hloaded.find,
    hloaded.files, hloaded.mirrors.of_find fun _ ↦ rfl, hloaded.refs, hloaded.sized,
    hstats.gc, hstats.stored, hstats.total⟩

/-- Opening succeeds exactly on the openable backends. -/
theorem quietly_openStore_iff : quietly (flat (openStore crates)) (fun _ _ ↦ Openable crates s)
    (fun _ _ ↦ ¬Openable crates s) s :=
  quietly_mono quietly_openStore_opened (fun _ _ h ↦ h.openable) fun _ _ h ↦ h

end Opening

end Chunkstore

import Chunkstore.Crash.WellFormed
import Chunkstore.Exact.Twins

/-!
# Legacy records

Older versions wrote a refcount record as a bare count. Loading takes the size of such a record to
be zero, and the backfill looks it up in the blob and writes the record again. A record in the
current form that says zero is looked up as well: it is that of the empty chunk, so it is written as
it was.

## Main result

* `ChunkStore.legacy_migrated`: opening a backend with legacy records rebuilds the backend and the
  store there would be without them.
-/

open Effects

namespace Chunkstore

/-- `s'` is `s` with some of its refcount records in the legacy form. -/
structure Legacy (crates : Crates) (s s' : State) : Prop where
  lists : s'.backend.lists = s.backend.lists
  find : ∀ k, s'.find k = s.find k ∨
    ∃ d count size raw, k = refcountKey d ∧ d ≠ indexName ∧
      s.find k = some (crates.serde.refcountToVec ⟨count, size⟩) ∧ s'.find k = some raw ∧
        crates.serde.refcountFromSlice raw = .ok (.legacy count)

section Legacy

variable {store : ChunkStore} {crates : Crates} {seen : Bytes → Prop} {pin : Option Pin}
  {held : String → ℕ} {rc : RefCount} {s s' : State} {d : String} {r : ChunkRef} {raw : Bytes}
  {R : ChunkStoreError → State → Prop}

namespace Legacy

theorem put {count size : ℕ} (hd : d ≠ indexName)
    (hold : s.find (refcountKey d) = some (crates.serde.refcountToVec ⟨count, size⟩))
    (hraw : crates.serde.refcountFromSlice raw = .ok (.legacy count)) :
    Legacy crates s (s.put (refcountKey d) raw) := by
  refine ⟨rfl, fun k ↦ ?_⟩
  by_cases hk : k = refcountKey d
  · right
    subst hk
    exact ⟨d, count, size, raw, rfl, hd, hold, s.find_put_self _ _, hraw⟩
  · left
    exact State.find_put_ne hk

theorem find_of_off {k : String} (h : Legacy crates s s') (hk : OffRefcount k) :
    s'.find k = s.find k := by
  refine (h.find k).resolve_right ?_
  rintro ⟨d, -, -, -, rfl, -⟩
  exact hk d rfl

theorem find_index (h : Legacy crates s s') :
    s'.find refcountIndexKey = s.find refcountIndexKey := by
  refine (h.find _).resolve_right ?_
  rintro ⟨d, -, -, -, hk, hd, -⟩
  exact refcountKey_ne_indexKey hd hk.symm

/-- A record that was replaced loads with its count and no size. -/
theorem persistedRef_eq (h : Legacy crates s s') (hs : RefcountSynced crates rc s) (d : String) :
    (persistedRef crates s' d = rc.counts.find d ∧ s'.find (refcountKey d) = s.find (refcountKey d))
      ∨ ∃ r, rc.counts.find d = some r ∧ persistedRef crates s' d = some ⟨r.count, 0⟩ := by
  obtain ⟨l, hl, -, hmem⟩ := hs.index
  rw [persistedRef_of_readIndex ((readIndex_congr h.find_index).trans hl)]
  by_cases hd : d ∈ l
  · rw [if_pos hd]
    obtain ⟨r, hr⟩ := Option.isSome_iff_exists.mp ((hmem d).mp hd)
    obtain ⟨hdig, hpos⟩ := hs.valid d r hr
    have hrec := hs.record d (ne_of_isChunkDigest hdig isChunkDigest_indexName)
    rw [hr, Option.map_some] at hrec
    rcases h.find (refcountKey d) with hf | ⟨e, count, size, raw, -, -, hold, hnew, hparse⟩
    · left
      exact ⟨(loadedRef_of_find hpos (hf.trans hrec)).trans hr.symm, hf⟩
    · right
      have hvec : crates.serde.refcountToVec ⟨count, size⟩
          = crates.serde.refcountToVec ⟨r.count, r.size⟩ := Option.some.inj (hold.symm.trans hrec)
      have hcount : count = r.count := by
        have hback := congrArg crates.serde.refcountFromSlice hvec
        rw [crates.serde.refcount_roundtrip, crates.serde.refcount_roundtrip] at hback
        cases hback
        rfl
      refine ⟨r, hr, ?_⟩
      rw [loadedRef, refcountRecord, hnew, Option.bind_some, parseRefcountRecord, hparse, ← hcount]
      exact if_pos (hcount ▸ hpos)
  · left
    have hnone : rc.counts.find d = none := by
      rw [hmem, Bool.not_eq_true, Option.isSome_eq_false_iff, Option.isNone_iff_eq_none] at hd
      exact hd
    refine ⟨(if_neg hd).trans hnone.symm, (h.find _).resolve_right ?_⟩
    rintro ⟨e, count, size, raw, hk, he, hold, -⟩
    obtain rfl : d = e := refcountKey_inj.mp hk
    rw [hs.record d he, hnone] at hold
    cases hold

end Legacy

/-- Without a codec the blob of an entry has the size that is recorded. -/
theorem Rep.length_raw (h : Rep store seen pin held s) (hc : store.codec = none)
    (hnc : NoCollision store.crates.sha256 seen) (hr : s.fields.refcount.counts.find d = some r)
    (hraw : s.find d = some raw) : raw.length = r.size := by
  obtain ⟨chunk, hchunk, hdig, hsize⟩ := (h.accounted hc hnc).sized d r hr
  obtain ⟨data, hdata, hdec, hdig'⟩ := h.blobs.holds d raw (h.refcount.valid d r hr).1 hraw
  rw [ChunkStore.decodeBlob, hc] at hdec
  rw [hsize, hnc chunk data hchunk hdata (hdig.trans hdig'.symm), Except.ok.inj hdec]

/-- **The backfill** writes the legacy records again as they were. -/
theorem quietly_backfillRefcountSizes_legacy (h : Rep store seen pin held s)
    (hc : store.codec = none) (hnc : NoCollision store.crates.sha256 seen)
    (hl : Legacy store.crates s s')
    (hrc : ∀ d, rc.counts.find d = persistedRef store.crates s' d) :
    quietly (backfillRefcountSizes store.crates rc) (fun rc' s'' ↦ (∀ k, s''.find k = s.find k) ∧
      ∀ d, rc'.counts.find d = s.fields.refcount.counts.find d) R s' := by
  obtain ⟨index, hindex, -, hmem⟩ := h.refcount.index
  have hstale : ∀ d r, s.fields.refcount.counts.find d = some r →
      persistedRef store.crates s' d = some ⟨r.count, 0⟩ →
        ∃ e ∈ (rc.iterRefs.filter fun e ↦ e.2.size = 0 ∧ 0 < e.2.count).map
          fun e ↦ (e.1, e.2.count), e.1 = d := fun d r hr hp ↦
    exists_stale rc ((hrc d).trans hp) rfl (h.refcount.valid d r hr).2
  rw [backfillRefcountSizes]
  refine quietly_mono (quietly_foldlM (J := fun l rc' s'' ↦
    (∀ e ∈ l, ∃ r, s.fields.refcount.counts.find e.1 = some r ∧ r.count = e.2) ∧
    (∀ k, s''.find k = s.find k ∨ ∃ e ∈ l, e.1 ≠ indexName ∧ k = refcountKey e.1) ∧
    ∀ d, rc'.counts.find d = s.fields.refcount.counts.find d ∨ ∃ e ∈ l, e.1 = d)
    (R := R) ?_ _ rc s' ⟨fun e he ↦ ?_, fun k ↦ ?_, fun d ↦ ?_⟩)
    (fun rc' s'' h' ↦
      ⟨fun k ↦ (h'.2.1 k).resolve_right fun he ↦ absurd he.choose_spec.1 List.not_mem_nil,
      fun d ↦ (h'.2.2 d).resolve_right fun he ↦ absurd he.choose_spec.1 List.not_mem_nil⟩)
    fun _ _ h ↦ h
  · rintro ⟨d, count⟩ l rc' s'' ⟨hentry, hfind, hrefs⟩
    obtain ⟨r, hr, hcount⟩ := hentry _ List.mem_cons_self
    dsimp only at hr hcount
    subst hcount
    obtain ⟨hd, hpos⟩ := h.refcount.valid d r hr
    have hne : d ≠ indexName := ne_of_isChunkDigest hd isChunkDigest_indexName
    obtain ⟨raw, hraw⟩ := Option.isSome_iff_exists.mp
      ((h.blobs.present d hd).trans (congrArg Option.isSome hr))
    have hraw' : s''.find d = some raw := by
      refine ((hfind d).resolve_right ?_).trans hraw
      rintro ⟨e, -, -, hk⟩
      exact offRefcount_of_isChunkDigest hd e.1 hk
    have hi : s''.find refcountIndexKey = s.find refcountIndexKey := by
      refine (hfind _).resolve_right ?_
      rintro ⟨e, -, he, hk⟩
      exact refcountKey_ne_indexKey he hk.symm
    have hrec := h.refcount.record d hne
    rw [hr, Option.map_some] at hrec
    refine quietly_bind (quietly_get ?_)
    rw [hraw']
    dsimp only
    rw [if_pos hd, h.length_raw hc hnc hr hraw]
    refine quietly_bind (quietly_mono (quietly_saveRefcount_listed hd
      ((readIndex_congr hi).trans hindex) ((hmem d).mpr (by rw [hr]; rfl))) ?_ fun _ _ h ↦ h)
    rintro _ _ rfl
    refine quietly_pure ⟨fun e he ↦ hentry e (List.mem_cons_of_mem _ he), fun k ↦ ?_, fun e ↦ ?_⟩
    · rw [State.find_put]
      by_cases hk : k = refcountKey d
      · rw [if_pos hk, hk, hrec]
        exact Or.inl rfl
      · rw [if_neg hk]
        refine (hfind k).imp_right ?_
        rintro ⟨e, he, hne', hke⟩
        refine ⟨e, (List.mem_cons.mp he).resolve_left ?_, hne', hke⟩
        rintro rfl
        exact hk hke
    · rw [RefCount.set, if_neg (Nat.pos_iff_ne_zero.mp hpos), Table.find_set]
      by_cases hed : e = d
      · rw [if_pos hed, hed, hr]
        exact Or.inl rfl
      · rw [if_neg hed]
        refine (hrefs e).imp_right ?_
        rintro ⟨e', he', rfl⟩
        refine ⟨e', (List.mem_cons.mp he').resolve_left ?_, rfl⟩
        rintro rfl
        exact hed rfl
  · obtain ⟨r, hr, -, hcount⟩ := mem_stale rc he
    rw [hrc] at hr
    rcases hl.persistedRef_eq h.refcount e.1 with ⟨hp, -⟩ | ⟨r₀, hr₀, hp⟩
    · exact ⟨r, hp.symm.trans hr, hcount⟩
    · rw [hp] at hr
      cases hr
      exact ⟨r₀, hr₀, hcount⟩
  · by_cases hk : s'.find k = s.find k
    · exact Or.inl hk
    · right
      obtain ⟨d, -, -, -, rfl, hd, -⟩ := (hl.find k).resolve_left hk
      obtain ⟨r, hr, hp⟩ := (hl.persistedRef_eq h.refcount d).resolve_left fun hs ↦ hk hs.2
      obtain ⟨e, he, rfl⟩ := hstale d r hr hp
      exact ⟨e, he, hd, rfl⟩
  · rcases hl.persistedRef_eq h.refcount d with ⟨hp, -⟩ | ⟨r, hr, hp⟩
    · exact Or.inl ((hrc d).trans hp)
    · exact Or.inr (hstale d r hr hp)

private theorem Legacy.refcountsLoad (hl : Legacy store.crates s s')
    (h : Rep store seen pin held s) :
    RefcountsLoad store.crates s' none := by
  obtain ⟨index, hindex, -, hmem⟩ := h.refcount.index
  refine ⟨index, (readIndex_congr hl.find_index).trans hindex, fun d hd _ ↦ ?_⟩
  obtain ⟨r, hr⟩ := Option.isSome_iff_exists.mp ((hmem d).mp hd)
  have hdig := (h.refcount.valid d r hr).1
  have hloaded : ∃ r', loadedRef store.crates s' d = some r' := by
    have hp := hl.persistedRef_eq h.refcount d
    rw [persistedRef_of_readIndex ((readIndex_congr hl.find_index).trans hindex), if_pos hd] at hp
    rcases hp with ⟨hp, -⟩ | ⟨r, -, hp⟩
    · exact ⟨r, hp.trans hr⟩
    · exact ⟨_, hp⟩
  obtain ⟨r', hr'⟩ := hloaded
  obtain ⟨rec, hrec, -⟩ := Option.bind_eq_some_iff.mp hr'
  refine ⟨⟨hdig, by rw [hrec]; rfl⟩, fun _ ↦ ?_⟩
  rw [hl.find_of_off (offRefcount_of_isChunkDigest hdig), h.blobs.present d hdig, hr]
  rfl

/-- **Opening** a backend with legacy records gives what opening it without them gives. -/
theorem quietly_openStore_legacy (h : Rep store seen pin held s) (hc : store.codec = none)
    (hnc : NoCollision store.crates.sha256 seen) (hl : Legacy store.crates s s') :
    quietly (flat (openStore store.crates)) (fun _ o ↦ Alike s o ∧ o.fields.stats.gcChunks = 0)
      R s' := by
  have hmanifest : ManifestSynced store.crates s.fields.manifest s' :=
    h.manifest.of_find fun f ↦ hl.find_of_off (offRefcount_manifestKey f)
  simp only [openStore, flat_bind, flat_unlocked, flat_pure]
  refine quietly_bind (quietly_mono (quietly_loadManifests hmanifest) ?_ fun _ _ h ↦ h)
  rintro m _ ⟨rfl, hm⟩
  refine quietly_bind (quietly_mono quietly_loadRefcounts_iff ?_
    fun _ _ hno ↦ absurd (hl.refcountsLoad h).counts hno)
  rintro loaded s' ⟨rfl, hmirrors, -⟩
  refine quietly_bind (quietly_mono (quietly_backfillRefcountSizes_legacy h hc hnc hl
    fun d ↦ (hmirrors.refs d).symm) ?_ fun _ _ h ↦ h)
  rintro rc s₁ ⟨hfind, hrc⟩
  rw [← bind_assoc]
  exact quietly_bind (quietly_mono (quietly_construct_alike h hc hnc hfind hm hrc)
    (fun _ _ ha ↦ quietly_pure ha) fun _ _ h ↦ h)

end Legacy

namespace ChunkStore

variable {store : ChunkStore} {seen : Bytes → Prop} {held : String → ℕ} {s s' : State}

/-- **Migration preserves the store.** After a run in which every operation returned, on a store
without a codec whose chunks do not collide, let some refcount records be replaced by legacy ones.
Opening returns, with the counts, the sizes and the statistics of opening the backend as it was.
Every key is as it was, in particular every record is in the current form, with the length of its
blob. Whatever is done afterwards returns the same. -/
theorem legacy_migrated (store : ChunkStore) (hc : store.codec = none) (lists : Bool)
    (ops : List Op) (hnc : NoCollision store.crates.sha256 (store.Ingested ops))
    (hok : ∀ r ∈ (store.run lists ops).1, ∃ reply, r = .ok reply) (s' : State)
    (hl : Legacy store.crates (store.run lists ops).2 s') :
    let s := (store.run lists ops).2
    let opened := (store.exec .reopen s).2
    let migrated := (store.exec .reopen s').2
    (store.exec .reopen s').1 = .ok .done ∧
      (∀ d, migrated.fields.refcount.counts.find d = opened.fields.refcount.counts.find d) ∧
      migrated.fields.stats = opened.fields.stats ∧
      (∀ k, migrated.find k = s.find k) ∧
      (∀ d r, migrated.fields.refcount.counts.find d = some r →
        migrated.find (refcountKey d) = some (store.crates.serde.refcountToVec ⟨r.count, r.size⟩) ∧
          ∃ raw, migrated.find d = some raw ∧ raw.length = r.size) ∧
      ∀ later, List.Forall₂ SameResult (store.execAll later opened).1
        (store.execAll later migrated).1 := by
  intro s opened migrated
  have h : Rep store (store.Ingested ops) none (fun _ ↦ 0) s :=
    rep_execAll_of_ok (rep_start store (store.Ingested ops) lists)
      (fun op hop c hcm ↦ ⟨op, hop, hcm⟩) hok
  obtain ⟨-, ha, hgc⟩ := exec_reopen_alike h hc hnc
  obtain ⟨hdone, ha', hgc'⟩ := exec_reopen_of_quietly (quietly_openStore_legacy h hc hnc hl)
  have htwins : Twins opened migrated := by
    refine ⟨ha.symm.trans ha', hgc'.trans hgc.symm, ?_⟩
    exact (lists_eval _ s').trans (hl.lists.trans (lists_eval _ s).symm)
  have hmigrated := h.of_alike ha'
  refine ⟨hdone, htwins.refs, htwins.stats, ha'.find, fun d r hr ↦ ⟨?_, ?_⟩,
    fun later ↦ (execAll_twins htwins later).1⟩
  · have hd := (hmigrated.refcount.valid d r hr).1
    rw [hmigrated.refcount.record d (ne_of_isChunkDigest hd isChunkDigest_indexName), hr]
    rfl
  · obtain ⟨raw, hraw⟩ := Option.isSome_iff_exists.mp
      ((hmigrated.blobs.present d (hmigrated.refcount.valid d r hr).1).trans
        (congrArg Option.isSome hr))
    exact ⟨raw, hraw, hmigrated.length_raw hc hnc hr hraw⟩

/-- The count of a chunk that two files share, as an older version wrote it. -/
theorem legacy_migrated_shared :
    (smallStore.exec .reopen
        ((smallStore.run true sharedOps).2.put (refcountKey digestOfA) [0x32])).2.find
          (refcountKey digestOfA) = some (smallCrates.serde.refcountToVec ⟨2, 1⟩) := by
  have hold : (smallStore.run true sharedOps).2.find (refcountKey digestOfA)
      = some (smallCrates.serde.refcountToVec ⟨2, 1⟩) := by decide +kernel
  have hne : digestOfA ≠ indexName :=
    ne_of_isChunkDigest isChunkDigest_digestOfA isChunkDigest_indexName
  have hlegacy := Legacy.put hne hold
    (show smallCrates.serde.refcountFromSlice [0x32] = .ok (.legacy 2) from rfl)
  exact ((legacy_migrated smallStore rfl true sharedOps (noCollision_ingested (by decide +kernel))
    (exists_reply_of_all (by decide +kernel)) _ hlegacy).2.2.2.1 _).trans hold

end ChunkStore

end Chunkstore

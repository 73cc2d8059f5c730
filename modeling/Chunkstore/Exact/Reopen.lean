import Chunkstore.Core.Reading
import Chunkstore.Exact.Operations

/-!
# Reading and reopening a store in sync

What the operations that do not write return on a store in sync, and what opening its backend again
finds: the same manifest and the same counts, and, for a store without a codec whose chunks do not
collide, the same store but for `gc_chunks`.

Without a codec the backfill of sizes rewrites records with what they already say: an entry of size
zero is that of the empty chunk. With a codec the size it finds is that of the encoded empty chunk.
-/

open Effects Program

namespace Chunkstore

section Inspection

variable {store : ChunkStore} {seen : Bytes → Prop} {pin : Option Pin} {held : String → ℕ}
  {s : State} {digest fileId : String} {R : ChunkStoreError → State → Prop}

/-! ## Fsck -/

private theorem quietly_missingBlobs (live : List String) (h : ∀ d ∈ live, (s.find d).isSome) :
    quietly (flat (ChunkStore.missingBlobs live)) (fun missing s' ↦ missing = [] ∧ s' = s) R s := by
  induction live with
  | nil => exact quietly_pure ⟨rfl, rfl⟩
  | cons d live ih =>
    simp only [ChunkStore.missingBlobs, flat_bind, flat_unlocked, flat_pure]
    refine quietly_bind (quietly_existsKey (quietly_bind (quietly_mono
      (ih fun e he ↦ h e (List.mem_cons_of_mem d he)) ?_ fun _ _ h ↦ h)))
    rintro _ _ ⟨rfl, rfl⟩
    rw [if_pos (h d List.mem_cons_self)]
    exact quietly_pure ⟨rfl, rfl⟩

private theorem quietly_collectOrphans (live : List String)
    (h : ∀ k, isChunkDigest k = true → (s.find k).isSome → k ∈ live) :
    quietly (collectOrphans live) (fun orphans s' ↦ orphans = [] ∧ s' = s) R s := by
  refine quietly_bind (quietly_listKeys ?_)
  rw [BackendCall.run]
  split
  · exact quietly_pure ⟨rfl, rfl⟩
  · rename_i keys hkeys
    refine quietly_pure ⟨List.filter_eq_nil_iff.mpr fun k hk hc ↦ ?_, rfl⟩
    rw [Bool.and_eq_true, Bool.not_eq_true', ← Bool.not_eq_true, List.contains_iff_mem] at hc
    refine hc.2 (h k hc.1 ?_)
    split at hkeys
    · cases hkeys
      exact Table.mem_keys.mp (List.mem_of_mem_filter hk)
    · cases hkeys

/-- A store in sync has nothing missing and nothing to repair. -/
theorem quietly_fsck (repair : Bool) (h : Rep store seen pin held s) :
    quietly (flat (ChunkStore.fsck repair)) (fun report s' ↦ report = {} ∧ s' = s) R s := by
  have hlive : ∀ d, d ∈ s.fields.refcount.iterRefs.map Prod.fst
      ↔ (s.fields.refcount.counts.find d).isSome := by
    intro d
    rw [List.mem_map, Option.isSome_iff_exists]
    constructor
    · rintro ⟨⟨e, r⟩, hm, rfl⟩
      exact ⟨r, RefCount.mem_iterRefs.mp hm⟩
    · rintro ⟨r, hr⟩
      exact ⟨(d, r), RefCount.mem_iterRefs.mpr hr, rfl⟩
  simp only [ChunkStore.fsck, flat_bind, flat_locked, flat_unlocked, flat_ite, flat_pure]
  refine quietly_bind (quietly_field (quietly_bind (quietly_mono
    (quietly_missingBlobs _ fun d hd ↦ ?_) ?_ fun _ _ h ↦ h)))
  · obtain ⟨r, hr⟩ := Option.isSome_iff_exists.mp ((hlive d).mp hd)
    exact (h.blobs.present d (h.refcount.valid d r hr).1).trans (by rw [hr]; rfl)
  · rintro _ _ ⟨rfl, rfl⟩
    refine quietly_bind (quietly_mono (quietly_collectOrphans _ fun k hk hs ↦ ?_) ?_
      fun _ _ h ↦ h)
    · refine (hlive k).mpr ?_
      rw [← h.blobs.present k hk]
      exact hs
    · rintro _ _ ⟨rfl, rfl⟩
      split
      · exact quietly_bind (quietly_pure (quietly_pure ⟨rfl, rfl⟩))
      · exact quietly_pure ⟨rfl, rfl⟩

/-! ## Reading -/

def ChunkStore.content (store : ChunkStore) (s : State) (digest : String) : Bytes :=
  ((s.find digest).bind fun raw ↦ (store.decodeBlob raw).toOption).getD []

theorem flatMap_content {chunks : List Bytes}
    (h : ∀ c ∈ chunks, store.content s (digestHex store.crates.sha256 c) = c) :
    (chunks.map (digestHex store.crates.sha256)).flatMap (store.content s) = chunks.flatten := by
  rw [List.flatMap_def, List.map_map]
  refine congrArg List.flatten ?_
  exact (List.map_congr_left fun c hc ↦ h c hc).trans (List.map_id chunks)

def ChunkStore.Readable (store : ChunkStore) (s : State) (digest : String) : Prop :=
  ∃ raw, s.find digest = some raw ∧ store.Holds raw digest

theorem Rep.readable (h : Rep store seen pin held s) (hd : 0 < s.fields.refcount.countOf digest) :
    store.Readable s digest := by
  obtain ⟨r, raw, hr, hraw⟩ := h.blob_of_pos hd
  obtain ⟨data, -, hdec, hdig⟩ := h.blobs.holds digest raw (h.refcount.valid digest r hr).1 hraw
  exact ⟨raw, hraw, data, hdec, hdig⟩

private theorem quietly_readChunkByDigest (h : store.Readable s digest) :
    quietly (flat (store.readChunkByDigest digest))
      (fun data s' ↦ data = store.content s digest ∧ s' = s) R s := by
  obtain ⟨raw, hraw, data, hdec, hdig⟩ := h
  simp only [ChunkStore.readChunkByDigest, flat_bind, flat_unlocked]
  refine quietly_bind (quietly_get ?_)
  rw [hraw]
  dsimp only
  rw [flat_bind, flat_ofExcept, hdec, ofExcept_ok, pure_bind, flat_bind, flat_ofExcept,
    verifyDigest_eq_ok.mpr hdig, ofExcept_ok, pure_bind]
  refine quietly_pure ⟨?_, rfl⟩
  rw [ChunkStore.content, hraw, Option.bind_some, hdec]
  rfl

private theorem wp_writeChunks_vec (digests : List String) (out : Bytes)
    (hd : ∀ d ∈ digests, store.Readable s d) :
    wp (faulty False) .any ((store.writeChunks digests ⟨[], out⟩).translate Block.body)
      (fun r s' ↦ r = (.ok (), ⟨[], out ++ digests.flatMap (store.content s)⟩) ∧ s' = s) s := by
  induction digests generalizing out with
  | nil => exact ⟨by rw [List.flatMap_nil, List.append_nil], rfl⟩
  | cons d digests ih =>
    rw [ChunkStore.writeChunks, translate_bind, wp_bind]
    refine wp_post (quietly_readChunkByDigest (R := fun _ _ ↦ False)
      (hd d List.mem_cons_self)) fun r s' hr ↦ ?_
    cases r with
    | error e => exact hr.elim
    | ok chunk =>
      obtain ⟨rfl, rfl⟩ := hr
      dsimp only
      rw [writeAll_nil]
      dsimp only
      refine wp_post (ih _ fun e he ↦ hd e (List.mem_cons_of_mem d he)) fun r s' hr ↦ ?_
      rw [List.flatMap_cons, ← List.append_assoc]
      exact hr

/-- **Read** succeeds exactly on the files there are, and returns their chunks in order. -/
theorem quietly_read (h : ∀ digests, s.fields.manifest.tryGet fileId = some digests →
      ∀ d ∈ digests, store.Readable s d) :
    quietly (flat (store.read fileId))
      (fun data s' ↦ s' = s ∧ ∃ digests, s.fields.manifest.tryGet fileId = some digests ∧
        data = digests.flatMap (store.content s))
      (fun e s' ↦ s' = s ∧ s.fields.manifest.tryGet fileId = none ∧
        e = .notFound s!"file {fileId}") s := by
  rw [quietly, wpx, flat, ExceptT.run_mk, ChunkStore.read, ExceptT.run_mk, translate_bind, wp_bind,
    ChunkStore.readToWriter, translate_bind, wp_bind]
  have hget : quietly (flat (ChunkStore.digestsForFile fileId))
      (fun digests s' ↦ s' = s ∧ s.fields.manifest.tryGet fileId = some digests)
      (fun e s' ↦ s' = s ∧ s.fields.manifest.tryGet fileId = none ∧
        e = .notFound s!"file {fileId}") s := by
    rw [ChunkStore.digestsForFile, flat_locked, Manifest.tryGet]
    refine quietly_fieldOrThrow (fun digests hok ↦ ?_) fun e herr ↦ ?_
    · rw [FieldAccess.run, Manifest.get] at hok
      split at hok <;> cases hok
      exact ⟨rfl, by assumption⟩
    · rw [FieldAccess.run, Manifest.get] at herr
      split at herr <;> cases herr
      exact ⟨rfl, by assumption, rfl⟩
  refine wp_post hget fun r s' hr ↦ ?_
  cases r with
  | error e =>
    obtain ⟨rfl, hr⟩ := hr
    exact ⟨rfl, hr⟩
  | ok digests =>
    obtain ⟨rfl, hm⟩ := hr
    refine wp_post (wp_writeChunks_vec digests [] (h digests hm)) fun r s' hr ↦ ?_
    obtain ⟨rfl, rfl⟩ := hr
    exact ⟨rfl, digests, hm, rfl⟩

end Inspection

/-! ## Opening -/

section Opening

variable {store : ChunkStore} {crates : Crates} {m : Manifest} {rc : RefCount} {s : State}
  {R : ChunkStoreError → State → Prop}

theorem quietly_loadManifests (h : ManifestSynced crates m s) :
    quietly (loadManifests crates) (fun m' s' ↦ s' = s ∧ ∀ f,
      m'.files.find f = m.files.find f ∧ m'.fileBytes.find f = m.fileBytes.find f) R s := by
  obtain ⟨index, hindex, -, hmem⟩ := h.index
  have hnone : ∀ f, f ∉ index → m.files.find f = none ∧ m.fileBytes.find f = none := by
    intro f hf
    have hn : (m.files.find f).isSome = false := by
      rw [← Bool.not_eq_true]
      exact fun hs ↦ hf ((hmem f).mpr hs)
    have hb := h.bytes f
    rw [Manifest.tryGet, hn] at hb
    exact ⟨by rwa [Option.isSome_eq_false_iff, Option.isNone_iff_eq_none] at hn,
      by rwa [Option.isSome_eq_false_iff, Option.isNone_iff_eq_none] at hb⟩
  refine quietly_bind (quietly_readStringList hindex ?_)
  refine quietly_mono (quietly_foldlM (J := fun l m' s' ↦ s' = s ∧ (∀ f ∈ l, f ∈ index) ∧
    ∀ f, f ∉ l → m'.files.find f = m.files.find f ∧ m'.fileBytes.find f = m.fileBytes.find f)
    (R := R) ?_ index _ s ⟨rfl, fun _ hf ↦ hf, fun f hf ↦ ?_⟩)
    (fun m' s' h' ↦ ⟨h'.1, fun f ↦ h'.2.2 f List.not_mem_nil⟩) fun _ _ h ↦ h
  · rintro f l m' _ ⟨rfl, hl, hrest⟩
    have hsome := (hmem f).mp (hl f List.mem_cons_self)
    obtain ⟨hempty, hname⟩ := h.name f hsome
    obtain ⟨digests, hdigests⟩ := Option.isSome_iff_exists.mp hsome
    obtain ⟨fileBytes, hbytes⟩ := Option.isSome_iff_exists.mp ((h.bytes f).trans hsome)
    have hrec := h.record f hname
    have hfiles : m.files.find f = some digests := hdigests
    rw [Manifest.record, hfiles, Option.bind_some, hbytes, Option.map_some, Option.map_some] at hrec
    refine quietly_bind (quietly_get ?_)
    rw [hrec]
    dsimp only
    rw [crates.serde.manifest_roundtrip]
    dsimp only
    rw [forM_validateDigest (h.valid f digests hdigests), ofExcept_ok, pure_bind,
      Manifest.insert_eq_ok hempty, ofExcept_ok]
    refine quietly_pure ⟨rfl, fun g hg ↦ hl g (List.mem_cons_of_mem f hg), fun g hg ↦ ?_⟩
    by_cases hgf : g = f
    · subst hgf
      exact ⟨by rw [Table.find_set_self, hfiles], by rw [Table.find_set_self, hbytes]⟩
    · rw [Table.find_set_ne hgf, Table.find_set_ne hgf]
      refine hrest g fun hmem ↦ ?_
      rcases List.mem_cons.mp hmem with hmem | hmem
      · exact hgf hmem
      · exact hg hmem
  · rw [(hnone f hf).1, (hnone f hf).2]
    exact ⟨rfl, rfl⟩

theorem quietly_loadRefcounts (h : RefcountSynced crates rc s) :
    quietly (loadRefcounts crates) (fun rc' s' ↦ s' = s ∧ ∀ d,
      rc'.counts.find d = rc.counts.find d) R s := by
  obtain ⟨index, hindex, -, hmem⟩ := h.index
  refine quietly_bind (quietly_readStringList hindex ?_)
  refine quietly_mono (quietly_foldlM (J := fun l rc' s' ↦ s' = s ∧ (∀ d ∈ l, d ∈ index) ∧
    ∀ d, d ∉ l → rc'.counts.find d = rc.counts.find d)
    (R := R) ?_ index _ s ⟨rfl, fun _ hd ↦ hd, fun d hd ↦ ?_⟩)
    (fun rc' s' h' ↦ ⟨h'.1, fun d ↦ h'.2.2 d List.not_mem_nil⟩) fun _ _ h ↦ h
  · rintro d l rc' _ ⟨rfl, hl, hrest⟩
    obtain ⟨r, hr⟩ := Option.isSome_iff_exists.mp ((hmem d).mp (hl d List.mem_cons_self))
    obtain ⟨hd, hpos⟩ := h.valid d r hr
    have hrec := h.record d (ne_of_isChunkDigest hd isChunkDigest_indexName)
    rw [hr, Option.map_some] at hrec
    refine quietly_bind ?_
    rw [validateDigest_eq_ok.mpr hd, ofExcept_ok]
    refine quietly_pure (quietly_bind (quietly_get ?_))
    rw [hrec]
    dsimp only
    rw [parseRefcountRecord, crates.serde.refcount_roundtrip, ofExcept_ok, pure_bind, if_pos hpos]
    refine quietly_pure ⟨rfl, fun e he ↦ hl e (List.mem_cons_of_mem d he), fun e he ↦ ?_⟩
    rw [RefCount.set, if_neg (Nat.pos_iff_ne_zero.mp hpos), Table.find_set]
    split
    · rename_i hed
      rw [hed, hr]
    · rename_i hed
      refine hrest e fun hmem ↦ ?_
      rcases List.mem_cons.mp hmem with hmem | hmem
      · exact hed hmem
      · exact he hmem
  · refine Eq.symm ?_
    have hn : ¬(rc.counts.find d).isSome := fun hs ↦ hd ((hmem d).mpr hs)
    rw [Bool.not_eq_true, Option.isSome_eq_false_iff, Option.isNone_iff_eq_none] at hn
    rw [hn]
    rfl

/-- The entries whose size `backfill_refcount_sizes` looks up. -/
theorem mem_stale {e : String × ℕ} (rc : RefCount) :
    e ∈ ((rc.iterRefs.filter fun e ↦ e.2.size = 0 ∧ 0 < e.2.count).map fun e ↦ (e.1, e.2.count)) →
      ∃ r, rc.counts.find e.1 = some r ∧ r.size = 0 ∧ r.count = e.2 := by
  rw [List.mem_map]
  rintro ⟨⟨d, r⟩, hm, rfl⟩
  obtain ⟨hm, hc⟩ := List.mem_filter.mp hm
  exact ⟨r, RefCount.mem_iterRefs.mp hm, (of_decide_eq_true hc).1, rfl⟩

/-- What the backfill may do to an entry. -/
def Backfilled (s : State) (rc rc' : RefCount) : Prop :=
  ∀ d, rc'.counts.find d = rc.counts.find d ∨
    ∃ r raw, rc.counts.find d = some r ∧ r.size = 0 ∧ s.find d = some raw ∧
      rc'.counts.find d = some ⟨r.count, raw.length⟩

/-- The backfill keeps the counts in sync and moves only sizes. -/
theorem quietly_backfillRefcountSizes (h : RefcountSynced crates rc s) :
    quietly (backfillRefcountSizes crates rc) (fun rc' s' ↦ RefcountSynced crates rc' s' ∧
      s'.fields = s.fields ∧ (∀ k, OffRefcount k → s'.find k = s.find k) ∧
        Backfilled s rc rc') R s := by
  rw [backfillRefcountSizes]
  refine quietly_mono (quietly_foldlM (J := fun l rc' s' ↦
    (RefcountSynced crates rc' s' ∧ s'.fields = s.fields ∧
      (∀ k, OffRefcount k → s'.find k = s.find k) ∧ Backfilled s rc rc') ∧
    ∀ e ∈ l, ∃ r, rc.counts.find e.1 = some r ∧ r.size = 0 ∧ r.count = e.2)
    (R := R) ?_ _ rc s ⟨⟨h, rfl, fun _ _ ↦ rfl, fun _ ↦ Or.inl rfl⟩, fun _ he ↦ mem_stale rc he⟩)
    (fun rc' s' h' ↦ h'.1) fun _ _ h ↦ h
  rintro ⟨d, count⟩ l rc' s' ⟨⟨hs, hf, hfind, hb⟩, hl⟩
  obtain ⟨r, hr, h0, hrcount⟩ := hl _ List.mem_cons_self
  dsimp only at hr hrcount
  subst hrcount
  obtain ⟨hd, hpos⟩ := h.valid d r hr
  have hl' : ∀ e ∈ l, ∃ r, rc.counts.find e.1 = some r ∧ r.size = 0 ∧ r.count = e.2 :=
    fun e he ↦ hl e (List.mem_cons_of_mem _ he)
  refine quietly_bind (quietly_get ?_)
  cases hraw : s'.find d with
  | none => exact quietly_pure ⟨⟨hs, hf, hfind, hb⟩, hl'⟩
  | some raw =>
    dsimp only
    rw [if_pos hd]
    have hset : ∀ e, (rc'.set d r.count raw.length).counts.find e
        = if e = d then some ⟨r.count, raw.length⟩ else rc'.counts.find e := fun e ↦ by
      rw [RefCount.set, if_neg (Nat.pos_iff_ne_zero.mp hpos), Table.find_set]
    refine quietly_bind (quietly_saveRefcount _ hs hd hpos hset fun s'' hf'' hfind'' hs'' ↦
      quietly_pure ⟨⟨hs'', hf''.trans hf, fun k hk ↦ (hfind'' k hk).trans (hfind k hk),
        fun e ↦ ?_⟩, hl'⟩)
    rw [hset]
    split
    · rename_i hed
      refine Or.inr ⟨r, raw, hed ▸ hr, h0, ?_, rfl⟩
      rw [hed, ← hfind d (offRefcount_of_isChunkDigest hd), hraw]
    · exact hb e

theorem quietly_saveRefcount_listed {digest : String} {count size : ℕ} {l : List String}
    (hd : isChunkDigest digest = true) (hl : readIndex crates s refcountIndexKey = some l)
    (hin : digest ∈ l) :
    quietly (saveRefcount crates digest count size) (fun _ s' ↦
      s' = s.put (refcountKey digest) (crates.serde.refcountToVec ⟨count, size⟩)) R s := by
  have hne : digest ≠ indexName := ne_of_isChunkDigest hd isChunkDigest_indexName
  rw [saveRefcount_eq, validateDigest_eq_ok.mpr hd, ofExcept_ok, pure_bind]
  refine quietly_bind (quietly_put (quietly_bind (quietly_readStringList (l := l) ?_ ?_)))
  · rw [readIndex_congr (s.find_put_ne (refcountKey_ne_indexKey hne).symm), hl]
  · rw [if_pos hin]
    exact quietly_pure rfl

private theorem quietly_saveRefcount_again {digest : String} {r : ChunkRef}
    (h : RefcountSynced crates rc s) (hr : rc.counts.find digest = some r) :
    quietly (saveRefcount crates digest r.count r.size)
      (fun _ s' ↦ s'.fields = s.fields ∧ ∀ k, s'.find k = s.find k) R s := by
  obtain ⟨l, hl, -, hmem⟩ := h.index
  have hd := (h.valid digest r hr).1
  have hrec := h.record digest (ne_of_isChunkDigest hd isChunkDigest_indexName)
  rw [hr, Option.map_some] at hrec
  have hin : digest ∈ l := (hmem digest).mpr (by rw [hr]; rfl)
  refine quietly_mono (quietly_saveRefcount_listed hd hl hin) ?_ fun _ _ h ↦ h
  rintro _ _ rfl
  refine ⟨rfl, fun k ↦ ?_⟩
  rw [State.find_put]
  split
  · rename_i hk
    rw [hk, hrec]
  · rfl

theorem quietly_backfillRefcountSizes_again (h : RefcountSynced crates rc s)
    (hempty : ∀ d r raw, rc.counts.find d = some r → r.size = 0 → s.find d = some raw → raw = []) :
    quietly (backfillRefcountSizes crates rc) (fun rc' s' ↦ s'.fields = s.fields ∧
      (∀ k, s'.find k = s.find k) ∧ ∀ d, rc'.counts.find d = rc.counts.find d) R s := by
  rw [backfillRefcountSizes]
  refine quietly_mono (quietly_foldlM (J := fun l rc' s' ↦
    (s'.fields = s.fields ∧ (∀ k, s'.find k = s.find k) ∧
      ∀ d, rc'.counts.find d = rc.counts.find d) ∧
    ∀ e ∈ l, ∃ r, rc.counts.find e.1 = some r ∧ r.size = 0 ∧ r.count = e.2)
    (R := R) ?_ _ rc s ⟨⟨rfl, fun _ ↦ rfl, fun _ ↦ rfl⟩, fun _ he ↦ mem_stale rc he⟩)
    (fun rc' s' h' ↦ h'.1) fun _ _ h ↦ h
  rintro ⟨d, count⟩ l rc' s' ⟨⟨hf, hfind, hb⟩, hl⟩
  obtain ⟨r, hr, h0, hrcount⟩ := hl _ List.mem_cons_self
  dsimp only at hr hrcount
  subst hrcount
  obtain ⟨hd, hpos⟩ := h.valid d r hr
  have hl' : ∀ e ∈ l, ∃ r, rc.counts.find e.1 = some r ∧ r.size = 0 ∧ r.count = e.2 :=
    fun e he ↦ hl e (List.mem_cons_of_mem _ he)
  refine quietly_bind (quietly_get ?_)
  cases hraw : s'.find d with
  | none => exact quietly_pure ⟨⟨hf, hfind, hb⟩, hl'⟩
  | some raw =>
    dsimp only
    obtain rfl : raw = [] := hempty d r raw hr h0 (by rw [← hfind d, hraw])
    rw [if_pos hd, show ([] : Bytes).length = r.size from h0.symm]
    refine quietly_bind (quietly_mono (quietly_saveRefcount_again (h.of_find fun _ ↦ hfind _) hr) ?_
      fun _ _ h ↦ h)
    rintro _ s'' ⟨hf'', hfind''⟩
    refine quietly_pure ⟨⟨hf''.trans hf, fun k ↦ (hfind'' k).trans (hfind k), fun e ↦ ?_⟩, hl'⟩
    rw [RefCount.set, if_neg (Nat.pos_iff_ne_zero.mp hpos), Table.find_set]
    split
    · rename_i hed
      rw [hed, hr]
    · exact hb e

/-- The size `rebuild_stats` uses for an entry. -/
def rebuiltSize (s : State) (e : String × ChunkRef) : ℕ :=
  if 0 < e.2.size then e.2.size else ((s.find e.1).getD []).length

/-- Rebuilding the statistics sums up the entries, as long as an entry of size zero has a blob. -/
theorem quietly_rebuildStats (hblob : ∀ d r, s.fields.refcount.counts.find d = some r →
      (s.find d).isSome) :
    quietly (flat (ChunkStore.mk crates none).rebuildStats) (fun _ s' ↦ ∃ stats : Stats,
      s' = s.withFields { s.fields with stats := stats } ∧ stats.gcChunks = 0 ∧
        stats.storedBytes = (s.fields.refcount.iterRefs.map (rebuiltSize s)).sum ∧
          stats.totalBytes
            = (s.fields.refcount.iterRefs.map fun e ↦ rebuiltSize s e * e.2.count).sum) R s := by
  simp only [ChunkStore.rebuildStats, flat_bind, flat_locked, flat_foldlM]
  refine quietly_bind (quietly_field ?_)
  dsimp only [FieldAccess.run, State.withFields_fields]
  refine quietly_bind (quietly_mono (quietly_foldlM (J := fun l stats s' ↦ s' = s ∧
    (∀ e ∈ l, e ∈ s.fields.refcount.iterRefs) ∧ stats.gcChunks = 0 ∧
    stats.storedBytes + (l.map (rebuiltSize s)).sum
      = (s.fields.refcount.iterRefs.map (rebuiltSize s)).sum ∧
    stats.totalBytes + (l.map fun e ↦ rebuiltSize s e * e.2.count).sum
      = (s.fields.refcount.iterRefs.map fun e ↦ rebuiltSize s e * e.2.count).sum)
    (R := R) ?_ _ _ s ⟨rfl, fun _ he ↦ he, rfl, Nat.zero_add _, Nat.zero_add _⟩) ?_
      fun _ _ h ↦ h)
  · rintro ⟨d, r⟩ l stats s' ⟨rfl, hl, hgc, hst, hto⟩
    have hend : ∀ size, size = rebuiltSize s' (d, r) →
        s' = s' ∧ (∀ e ∈ l, e ∈ s'.fields.refcount.iterRefs) ∧ stats.gcChunks = 0 ∧
        stats.storedBytes + size + (l.map (rebuiltSize s')).sum
          = (s'.fields.refcount.iterRefs.map (rebuiltSize s')).sum ∧
        stats.totalBytes + size * r.count + (l.map fun e ↦ rebuiltSize s' e * e.2.count).sum
          = (s'.fields.refcount.iterRefs.map fun e ↦ rebuiltSize s' e * e.2.count).sum := by
      rintro size rfl
      refine ⟨rfl, fun e he ↦ hl e (List.mem_cons_of_mem _ he), hgc, ?_, ?_⟩
      · rw [← hst, List.map_cons, List.sum_cons, Nat.add_assoc]
      · rw [← hto, List.map_cons, List.sum_cons, Nat.add_assoc]
    simp only [ChunkStore.rebuildStat, flat_bind, flat_ite, flat_pure]
    split
    · rename_i hpos
      exact quietly_bind (quietly_pure (quietly_pure (hend r.size (if_pos hpos).symm)))
    · rename_i hpos
      have hfind := RefCount.mem_iterRefs.mp (hl _ List.mem_cons_self)
      obtain ⟨raw, hraw⟩ := Option.isSome_iff_exists.mp (hblob d r hfind)
      simp only [ChunkStore.chunkSize, flat_bind, flat_locked, flat_ite, flat_pure, flat_unlocked]
      refine quietly_bind (quietly_bind (quietly_field ?_))
      dsimp only [FieldAccess.run, State.withFields_fields]
      rw [RefCount.sizeOf, hfind, Option.map_some, Option.getD_some, if_neg hpos]
      refine quietly_bind (quietly_get ?_)
      rw [hraw]
      refine quietly_pure (quietly_pure (hend raw.length ?_))
      rw [rebuiltSize, if_neg hpos, hraw]
      rfl
  · rintro stats _ ⟨rfl, -, hgc, hst, hto⟩
    exact quietly_field ⟨stats, rfl, hgc, hst, hto⟩

end Opening

/-! ### The reopened store -/

/-- Two states that no operation but `stats` can tell apart: they agree at every key and in every
field but `gc_chunks`. -/
structure Alike (s s' : State) : Prop where
  find : ∀ k, s'.find k = s.find k
  files : ∀ f, s'.fields.manifest.files.find f = s.fields.manifest.files.find f
  fileBytes : ∀ f, s'.fields.manifest.fileBytes.find f = s.fields.manifest.fileBytes.find f
  refs : ∀ d, s'.fields.refcount.counts.find d = s.fields.refcount.counts.find d
  total : s'.fields.stats.totalBytes = s.fields.stats.totalBytes
  stored : s'.fields.stats.storedBytes = s.fields.stats.storedBytes

theorem Alike.refl (s : State) : Alike s s :=
  ⟨fun _ ↦ rfl, fun _ ↦ rfl, fun _ ↦ rfl, fun _ ↦ rfl, rfl, rfl⟩

theorem Alike.trans {s₁ s₂ s₃ : State} (h : Alike s₁ s₂) (h' : Alike s₂ s₃) : Alike s₁ s₃ :=
  ⟨fun k ↦ (h'.find k).trans (h.find k), fun f ↦ (h'.files f).trans (h.files f),
    fun f ↦ (h'.fileBytes f).trans (h.fileBytes f), fun d ↦ (h'.refs d).trans (h.refs d),
    h'.total.trans h.total, h'.stored.trans h.stored⟩

theorem Alike.symm {s s' : State} (h : Alike s s') : Alike s' s :=
  ⟨fun k ↦ (h.find k).symm, fun f ↦ (h.files f).symm, fun f ↦ (h.fileBytes f).symm,
    fun d ↦ (h.refs d).symm, h.total.symm, h.stored.symm⟩

section Reopened

variable {store : ChunkStore} {crates : Crates} {seen : Bytes → Prop} {pin : Option Pin}
  {held : String → ℕ} {m m' : Manifest} {rc rc' : RefCount} {s s' : State}
  {R : ChunkStoreError → State → Prop}

theorem ManifestSynced.of_files (h : ManifestSynced crates m s)
    (hfiles : ∀ f, m'.files.find f = m.files.find f)
    (hbytes : ∀ f, m'.fileBytes.find f = m.fileBytes.find f) : ManifestSynced crates m' s where
  index := by
    obtain ⟨l, hl, hnd, hmem⟩ := h.index
    exact ⟨l, hl, hnd, fun f ↦ by rw [hmem, Manifest.tryGet, Manifest.tryGet, hfiles]⟩
  record f hf := by
    rw [Manifest.record, hfiles, hbytes]
    exact h.record f hf
  bytes f := by
    rw [Manifest.tryGet, hfiles, hbytes]
    exact h.bytes f
  name f hf := by
    rw [Manifest.tryGet, hfiles] at hf
    exact h.name f hf
  valid f digests hd := by
    rw [Manifest.tryGet, hfiles] at hd
    exact h.valid f digests hd

theorem RefcountSynced.of_refs (h : RefcountSynced crates rc s)
    (hrefs : ∀ d, rc'.counts.find d = rc.counts.find d) : RefcountSynced crates rc' s where
  index := by
    obtain ⟨l, hl, hnd, hmem⟩ := h.index
    exact ⟨l, hl, hnd, fun d ↦ by rw [hmem, hrefs]⟩
  record d hd := by rw [hrefs, h.record d hd]
  valid d r hr := h.valid d r (by rwa [hrefs] at hr)

/-- Being in sync does not depend on the order of the tables, nor on `gc_chunks`. -/
theorem Rep.of_alike (h : Rep store seen pin held s) (ha : Alike s s') :
    Rep store seen pin held s' := by
  refine ⟨(h.manifest.of_files ha.files ha.fileBytes).of_find fun _ ↦ ha.find _,
    (h.refcount.of_refs ha.refs).of_find fun _ ↦ ha.find _,
    ⟨fun d hd ↦ ?_, fun d raw hd hraw ↦ ?_, fun d r raw hr h0 hraw ↦ ?_⟩, fun d ↦ ?_,
    fun p hp ↦ ⟨?_, fun d hd ↦ ?_⟩, fun hc hnc ↦ ⟨fun d r hr ↦ ?_, ?_, ?_⟩⟩
  · rw [ha.find, ha.refs, h.blobs.present d hd]
  · rw [ha.find] at hraw
    exact h.blobs.holds d raw hd hraw
  · rw [ha.find] at hraw
    rw [ha.refs] at hr
    exact h.blobs.empty d r raw hr h0 hraw
  · rw [Manifest.occurrences_congr ha.files, RefCount.countOf_eq, ha.refs]
    exact h.counted d
  · exact (ha.files _).trans (h.pinned p hp).1
  · rw [ha.find, (h.pinned p hp).2 d hd]
  · rw [ha.refs] at hr
    exact (h.accounted hc hnc).sized d r hr
  · rw [ha.total, (h.accounted hc hnc).total]
    exact Table.sumBy_congr _ fun d ↦ (ha.refs d).symm
  · rw [ha.stored, (h.accounted hc hnc).stored]
    exact Table.sumBy_congr _ fun d ↦ (ha.refs d).symm

theorem sum_iterRefs (rc : RefCount) (g : ChunkRef → ℕ) :
    (rc.iterRefs.map fun e ↦ g e.2).sum = rc.counts.sumBy g := by
  rw [RefCount.iterRefs, Table.pairs, List.map_map]
  rfl

theorem Rep.raw_eq_nil (h : Rep store seen pin held s) (hc : store.codec = none) {d : String}
    {r : ChunkRef} {raw : Bytes} (hr : s.fields.refcount.counts.find d = some r) (h0 : r.size = 0)
    (hraw : s.find d = some raw) : raw = [] := by
  have hdec := h.blobs.empty d r raw hr h0 hraw
  rw [ChunkStore.decodeBlob, hc] at hdec
  exact Except.ok.inj hdec

theorem quietly_construct_alike {s₁ : State} (h : Rep store seen pin held s)
    (hc : store.codec = none) (hnc : NoCollision store.crates.sha256 seen)
    (hfind : ∀ k, s₁.find k = s.find k)
    (hm : ∀ f, m.files.find f = s.fields.manifest.files.find f ∧
      m.fileBytes.find f = s.fields.manifest.fileBytes.find f)
    (hrefs : ∀ d, rc.counts.find d = s.fields.refcount.counts.find d) :
    quietly (do
      field (.construct m rc)
      flat (ChunkStore.mk crates none).rebuildStats)
      (fun _ s' ↦ Alike s s' ∧ s'.fields.stats.gcChunks = 0) R s₁ := by
  refine quietly_bind (quietly_field ?_)
  dsimp only [FieldAccess.run]
  refine quietly_mono (quietly_rebuildStats fun d r hr ↦ ?_) ?_ fun _ _ h ↦ h
  · have hr' : s.fields.refcount.counts.find d = some r := by
      rw [← hrefs]
      exact hr
    have hp := h.blobs.present d (h.refcount.valid d r hr').1
    rw [hr'] at hp
    exact (congrArg Option.isSome (hfind d)).trans hp
  · rintro _ s' ⟨stats, rfl, hgc, hst, hto⟩
    dsimp only [State.fields_withFields] at hst hto
    have hsize : ∀ e ∈ rc.iterRefs, rebuiltSize (s₁.withFields ⟨m, rc, {}⟩) e = e.2.size := by
      rintro ⟨d, r⟩ he
      rw [rebuiltSize]
      split
      · rfl
      · rename_i hpos
        have h0 : r.size = 0 := Nat.eq_zero_of_not_pos hpos
        have hr : s.fields.refcount.counts.find d = some r := by
          rw [← hrefs]
          exact RefCount.mem_iterRefs.mp he
        dsimp only
        rw [State.find_withFields, hfind, h0]
        cases hf : s.find d with
        | none => rfl
        | some raw =>
          rw [h.raw_eq_nil hc hr h0 hf]
          rfl
    rw [List.map_congr_left hsize, sum_iterRefs rc fun r ↦ r.size] at hst
    rw [List.map_congr_left fun e he ↦ by rw [hsize e he],
      sum_iterRefs rc fun r ↦ r.size * r.count] at hto
    refine ⟨⟨hfind, fun f ↦ (hm f).1, fun f ↦ (hm f).2, hrefs, ?_, ?_⟩, hgc⟩
    · rw [(h.accounted hc hnc).total]
      exact hto.trans (Table.sumBy_congr _ hrefs)
    · rw [(h.accounted hc hnc).stored]
      exact hst.trans (Table.sumBy_congr _ hrefs)

/-- **Reopening is invisible** for a store without a codec whose chunks do not collide. -/
theorem quietly_openStore_alike (h : Rep store seen pin held s) (hc : store.codec = none)
    (hnc : NoCollision store.crates.sha256 seen) :
    quietly (flat (openStore store.crates)) (fun _ s' ↦ Alike s s' ∧
      s'.fields.stats.gcChunks = 0) R s := by
  simp only [openStore, flat_bind, flat_unlocked, flat_pure]
  refine quietly_bind (quietly_mono (quietly_loadManifests h.manifest) ?_ fun _ _ h ↦ h)
  rintro m _ ⟨rfl, hm⟩
  refine quietly_bind (quietly_mono (quietly_loadRefcounts h.refcount) ?_ fun _ _ h ↦ h)
  rintro loaded s ⟨rfl, hloaded⟩
  refine quietly_bind (quietly_mono (quietly_backfillRefcountSizes_again
    (h.refcount.of_refs hloaded) fun d r raw hr ↦ h.raw_eq_nil hc (by rwa [hloaded] at hr)) ?_
    fun _ _ h ↦ h)
  rintro rc s₁ ⟨-, hfind₁, hrc⟩
  rw [← bind_assoc]
  exact quietly_bind (quietly_mono (quietly_construct_alike h hc hnc hfind₁ hm
    fun d ↦ (hrc d).trans (hloaded d)) (fun _ _ ha ↦ quietly_pure ha) fun _ _ h ↦ h)

/-- **Reopening** any store in sync succeeds and finds a store in sync, with the same manifest and
the same blobs. -/
theorem quietly_openStore (h : Rep store seen pin held s) :
    quietly (flat (openStore store.crates)) (fun _ s' ↦ Rep store seen pin held s' ∧
      (∀ f, s'.fields.manifest.tryGet f = s.fields.manifest.tryGet f) ∧
        ∀ k, OffRefcount k → s'.find k = s.find k) R s := by
  by_cases hnc : store.codec = none ∧ NoCollision store.crates.sha256 seen
  · exact quietly_mono (quietly_openStore_alike h hnc.1 hnc.2)
      (fun _ s' ha ↦ ⟨h.of_alike ha.1, ha.1.files, fun k _ ↦ ha.1.find k⟩) fun _ _ h ↦ h
  simp only [openStore, flat_bind, flat_unlocked, flat_pure]
  refine quietly_bind (quietly_mono (quietly_loadManifests h.manifest) ?_ fun _ _ h ↦ h)
  rintro m _ ⟨rfl, hm⟩
  refine quietly_bind (quietly_mono (quietly_loadRefcounts h.refcount) ?_ fun _ _ h ↦ h)
  rintro loaded s ⟨rfl, hloaded⟩
  refine quietly_bind (quietly_mono (quietly_backfillRefcountSizes
    (h.refcount.of_refs hloaded)) ?_ fun _ _ h ↦ h)
  rintro rc s₁ ⟨hsync₁, -, hfind₁, hback⟩
  have hentry : ∀ d r, rc.counts.find d = some r →
      ∃ r₀, s.fields.refcount.counts.find d = some r₀ ∧ r₀.count = r.count ∧
        (r.size = 0 → r₀.size = 0) := fun d r hr ↦ by
    rcases hback d with hb | ⟨r₀, raw, hr₀, h0, -, hb⟩
    · exact ⟨r, by rw [← hloaded, ← hb, hr], rfl, id⟩
    · rw [hb] at hr
      cases hr
      exact ⟨r₀, by rw [← hloaded, hr₀], rfl, fun _ ↦ h0⟩
  have hsome : ∀ d, (rc.counts.find d).isSome = (s.fields.refcount.counts.find d).isSome ∧
      rc.countOf d = s.fields.refcount.countOf d := fun d ↦ by
    rcases hback d with hb | ⟨r₀, raw, hr₀, h0, -, hb⟩
    · rw [RefCount.countOf_eq, RefCount.countOf_eq, hb, hloaded]
      exact ⟨rfl, rfl⟩
    · rw [RefCount.countOf_eq, RefCount.countOf_eq, hb, ← hloaded, hr₀]
      exact ⟨rfl, rfl⟩
  have hblob₁ : ∀ d, isChunkDigest d = true → s₁.find d = s.find d := fun d hd ↦
    hfind₁ d (offRefcount_of_isChunkDigest hd)
  have hrep : ∀ stats, Rep store seen pin held (s₁.withFields ⟨m, rc, stats⟩) := by
    intro stats
    refine ⟨(h.manifest.of_files (fun f ↦ (hm f).1) fun f ↦ (hm f).2).of_find fun f ↦ ?_,
      hsync₁.of_find fun _ ↦ rfl, ⟨fun d hd ↦ ?_, fun d raw hd hraw ↦ ?_,
        fun d r raw hr h0 hraw ↦ ?_⟩, fun d ↦ ?_, fun p hp ↦ ⟨?_, fun d hd ↦ ?_⟩,
      fun hc hnc' ↦ absurd ⟨hc, hnc'⟩ hnc⟩
    · exact hfind₁ _ (offRefcount_manifestKey f)
    · exact ((congrArg _ (hblob₁ d hd)).trans (h.blobs.present d hd)).trans (hsome d).1.symm
    · exact h.blobs.holds d raw hd ((hblob₁ d hd).symm.trans hraw)
    · obtain ⟨r₀, hr₀, -, hz⟩ := hentry d r hr
      exact h.blobs.empty d r₀ raw hr₀ (hz h0)
        ((hblob₁ d (h.refcount.valid d r₀ hr₀).1).symm.trans hraw)
    · exact ((hsome d).2.trans (h.counted d)).trans
        (congrArg (· + held d) (Manifest.occurrences_congr (fun f ↦ ((hm f).1).symm) d))
    · exact (hm _).1.trans (h.pinned p hp).1
    · exact (hblob₁ d (h.manifest.valid _ _ (h.pinned p hp).1 d hd)).trans ((h.pinned p hp).2 d hd)
  refine quietly_bind (quietly_field (quietly_bind (quietly_mono (quietly_rebuildStats
    fun d r hr ↦ ?_) ?_ fun _ _ h ↦ h)))
  · exact ((hrep {}).blobs.present d ((hrep {}).refcount.valid d r hr).1).trans
      (congrArg Option.isSome hr)
  · rintro _ s' ⟨stats, rfl, -⟩
    exact quietly_pure ⟨hrep stats, fun f ↦ (hm f).1, fun k hk ↦ hfind₁ k hk⟩

/-- Reopening with the codec of an instance only installs it afterwards. -/
theorem quietly_reopen {Q : State → Prop}
    (h : quietly (flat (openStore store.crates)) (fun _ s' ↦ Q s') R s) :
    quietly (flat store.reopen) (fun _ s' ↦ Q s') R s := by
  rw [ChunkStore.reopen]
  cases store.codec with
  | none =>
    rw [flat_bind]
    exact quietly_bind h
  | some codec =>
    simp only [openWithCodec, flat_bind, bind_assoc]
    exact quietly_bind h

end Reopened

end Chunkstore

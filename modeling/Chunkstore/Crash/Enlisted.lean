import Chunkstore.Accounting.Mirrored
import Chunkstore.Crash.Fsck
import Chunkstore.Exact.Runs

/-!
# The refcount index at rest

Between two operations on a fault-free backend, whatever has failed before and whatever happened to
the manifests, the digests on the refcount index are those with an entry in memory, and each has a
record with a count and a blob (`Tended`). This is what the index of an interrupted ingest is
compared with.
-/

open Effects Program

namespace Chunkstore

/-! ## The invariant -/

/-- The index can be read, and every listed digest has a record with a count. -/
structure Enlisted (crates : Crates) (s : State) : Prop where
  index : ∃ l, readIndex crates s refcountIndexKey = some l
  listed : ∀ d, IsListed crates s d → isChunkDigest d = true ∧ 0 < recordCount crates s d

/-- The listed digests are those with an entry, and have a blob. -/
structure Tended (crates : Crates) (s : State) : Prop extends Enlisted crates s where
  entry : ∀ d, IsListed crates s d ↔ (s.fields.refcount.counts.find d).isSome
  blob : ∀ d, IsListed crates s d → (s.find d).isSome

section Records

variable {crates : Crates} {s s' : State} {digest : String} {Q : Unit → State → Prop}
  {R : ChunkStoreError → State → Prop}

theorem Enlisted.of_find (h : Enlisted crates s)
    (hf : ∀ d, s'.find (refcountKey d) = s.find (refcountKey d)) : Enlisted crates s' := by
  have hi : s'.find refcountIndexKey = s.find refcountIndexKey :=
    refcountKey_indexName ▸ hf indexName
  refine ⟨by rw [readIndex_congr hi]; exact h.index, fun d hd ↦ ?_⟩
  rw [recordCount_congr (hf d)]
  exact h.listed d ((isListed_congr hi).mp hd)

/-- Only the manifests and the statistics have changed, or blobs have come, or gone without an
entry. -/
theorem Tended.of_find (h : Tended crates s) (hrc : s'.fields.refcount = s.fields.refcount)
    (hf : ∀ d, s'.find (refcountKey d) = s.find (refcountKey d))
    (hb : ∀ d, isChunkDigest d = true → (s.fields.refcount.counts.find d).isSome →
      (s.find d).isSome → (s'.find d).isSome) : Tended crates s' := by
  have hi : s'.find refcountIndexKey = s.find refcountIndexKey :=
    refcountKey_indexName ▸ hf indexName
  refine ⟨h.toEnlisted.of_find hf, fun d ↦ ?_, fun d hd ↦ ?_⟩
  · rw [isListed_congr hi, h.entry, hrc]
  · have hd := (isListed_congr hi).mp hd
    exact hb d (h.listed d hd).1 ((h.entry d).mp hd) (h.blob d hd)

theorem quietly_saveRefcount_enlisted {count size : ℕ} (h : Enlisted crates s)
    (hd : isChunkDigest digest = true) (hc : 0 < count)
    (hQ : ∀ s', s'.fields = s.fields → (∀ k, OffRefcount k → s'.find k = s.find k) →
      Enlisted crates s' → (∀ e, IsListed crates s' e ↔ e = digest ∨ IsListed crates s e) →
        Q () s') :
    quietly (saveRefcount crates digest count size) Q R s := by
  obtain ⟨l, hl⟩ := h.index
  have hne : digest ≠ indexName := ne_of_isChunkDigest hd isChunkDigest_indexName
  rw [saveRefcount_eq, validateDigest_eq_ok.mpr hd, ofExcept_ok, pure_bind]
  refine quietly_bind (quietly_put (quietly_listName (l := l) ?_ fun s' hf' hfind hindex ↦ ?_))
  · rw [readIndex_congr (s.find_put_ne (refcountKey_ne_indexKey hne).symm), hl]
  · have hfind' : ∀ k, k ≠ refcountIndexKey → k ≠ refcountKey digest → s'.find k = s.find k :=
      fun k h₁ h₂ ↦ by rw [hfind k h₁, State.find_put_ne h₂]
    have hself : recordCount crates s' digest = count := by
      refine recordCount_of_find (?_ : _ = some (crates.serde.refcountToVec ⟨count, size⟩))
      rw [hfind _ (refcountKey_ne_indexKey hne), State.find_put_self]
    have hlisted : ∀ e, IsListed crates s' e ↔ e = digest ∨ IsListed crates s e := fun e ↦ by
      rw [isListed_of_readIndex hindex, isListed_of_readIndex hl, mem_withName]
    refine hQ s' hf' (fun k hk ↦ hfind' k hk.ne_indexKey (hk digest)) ⟨⟨_, hindex⟩, fun e he ↦ ?_⟩
      hlisted
    by_cases hed : e = digest
    · rw [hed, hself]
      exact ⟨hd, hc⟩
    · have hel := h.listed e (((hlisted e).mp he).resolve_left hed)
      rw [recordCount_congr (hfind' _
        (refcountKey_ne_indexKey (ne_of_isChunkDigest hel.1 isChunkDigest_indexName))
        (mt refcountKey_inj.mp hed))]
      exact hel

private theorem quietly_removeRefcount_enlisted (h : Enlisted crates s)
    (hd : isChunkDigest digest = true)
    (hQ : ∀ s', s'.fields = s.fields → (∀ k, OffRefcount k → s'.find k = s.find k) →
      Enlisted crates s' → (∀ e, IsListed crates s' e ↔ IsListed crates s e ∧ e ≠ digest) →
        Q () s') :
    quietly (removeRefcount crates digest) Q R s := by
  obtain ⟨l, hl⟩ := h.index
  have hne : digest ≠ indexName := ne_of_isChunkDigest hd isChunkDigest_indexName
  rw [removeRefcount_eq]
  refine quietly_bind (quietly_delete (quietly_unlistName (l := l) ?_ fun s' hf' hfind hindex ↦ ?_))
  · rw [readIndex_congr (s.find_del_ne (refcountKey_ne_indexKey hne).symm), hl]
  · have hfind' : ∀ k, k ≠ refcountIndexKey → k ≠ refcountKey digest → s'.find k = s.find k :=
      fun k h₁ h₂ ↦ by rw [hfind k h₁, State.find_del_ne h₂]
    have hlisted : ∀ e, IsListed crates s' e ↔ IsListed crates s e ∧ e ≠ digest := fun e ↦ by
      rw [isListed_of_readIndex hindex, isListed_of_readIndex hl, List.mem_filter,
        decide_eq_true_iff]
    refine hQ s' hf' (fun k hk ↦ hfind' k hk.ne_indexKey (hk digest)) ⟨⟨_, hindex⟩, fun e he ↦ ?_⟩
      hlisted
    obtain ⟨he, hed⟩ := (hlisted e).mp he
    have hel := h.listed e he
    rw [recordCount_congr (hfind' _
      (refcountKey_ne_indexKey (ne_of_isChunkDigest hel.1 isChunkDigest_indexName))
      (mt refcountKey_inj.mp hed))]
    exact hel

end Records

/-! ## Storing and releasing -/

section Chunks

variable {store : ChunkStore} {s : State} {digest : String} {chunk : Bytes}

/-- **Storing a chunk**, whether it is counted or refused. -/
theorem quietly_storeChunk_tended (h : Tended store.crates s) (hd : isChunkDigest digest = true) :
    quietly (flat (store.storeChunk digest chunk)) (fun _ s' ↦ Tended store.crates s')
      (fun _ s' ↦ Tended store.crates s') s := by
  simp only [ChunkStore.storeChunk, flat_bind, flat_ofExcept, flat_locked, flat_ite, flat_pure]
  refine quietly_bind (quietly_ofExcept (fun blob _ ↦ ?_) fun _ _ ↦ h)
  refine quietly_bind (quietly_mono quietly_putBlob ?_ fun _ _ h ↦ h)
  rintro present s₁ ⟨-, hf₁, hfind₁, hblob₁⟩
  have hkeys : ∀ e, s₁.find (refcountKey e) = s.find (refcountKey e) := fun e ↦
    hfind₁ _ (ne_of_isChunkDigest hd (isChunkDigest_refcountKey e)).symm
  have hblobs : ∀ e, (s.find e).isSome → (s₁.find e).isSome := fun e he ↦ by
    by_cases hed : e = digest
    · rw [hed, hblob₁]
      rfl
    · rwa [hfind₁ e hed]
  have h₁ : Tended store.crates s₁ := h.of_find (by rw [hf₁]) hkeys fun e _ _ he ↦ hblobs e he
  refine quietly_bind (quietly_bind (quietly_fieldOrThrow (fun n hn ↦ ?_) fun _ he ↦ ?_))
  · rw [FieldAccess.run] at hn ⊢
    cases hinc : s₁.fields.refcount.increment digest chunk.length with
    | error e =>
      rw [hinc] at hn
      cases hn
    | ok r =>
      obtain ⟨n', rc⟩ := r
      rw [hinc] at hn
      cases hn
      obtain ⟨hcount, hcounts⟩ := RefCount.increment_eq_ok hinc
      refine quietly_bind (quietly_field ?_)
      refine quietly_saveRefcount_enlisted (h₁.toEnlisted.of_find fun _ ↦ rfl) hd (by omega)
        fun s₂ hf₂ hfind₂ hen₂ hlisted ↦ ?_
      have htended : ∀ stats, Tended store.crates
          (s₂.withFields { s₂.fields with stats := stats }) := fun stats ↦ by
        rw [hf₂]
        refine ⟨hen₂.of_find fun _ ↦ rfl, fun e ↦ (hlisted e).trans ?_, fun e he ↦ ?_⟩
        · dsimp only [FieldAccess.run, State.fields_withFields]
          rw [hcounts, Table.find_set]
          by_cases hed : e = digest
          · rw [if_pos hed]
            exact iff_of_true (Or.inl hed) rfl
          · rw [if_neg hed, or_iff_right hed]
            exact h₁.entry e
        · have hen := (hen₂.listed e he).1
          refine (congrArg Option.isSome (hfind₂ e (offRefcount_of_isChunkDigest hen))).trans ?_
          rcases (hlisted e).mp he with rfl | he
          · exact congrArg Option.isSome hblob₁
          · exact h₁.blob e he
      split
      · exact quietly_bind (quietly_field (quietly_pure (htended _)))
      · exact quietly_bind (quietly_field (quietly_pure (htended _)))
  · rw [FieldAccess.run] at he ⊢
    cases hinc : s₁.fields.refcount.increment digest chunk.length with
    | error e => exact h₁
    | ok r =>
      rw [hinc] at he
      cases he

/-- **Releasing a reference**, if there is one. -/
theorem quietly_releaseDigest_tended (h : Tended store.crates s) :
    quietly (flat (store.releaseDigest digest)) (fun _ s' ↦ Tended store.crates s')
      (fun _ s' ↦ Tended store.crates s') s := by
  simp only [ChunkStore.releaseDigest, flat_bind, flat_locked, flat_ite, flat_unlocked]
  refine quietly_bind (quietly_mono (quietly_of_idle (idle_chunkSize store digest)) ?_
    fun _ _ hs ↦ by rw [hs]; exact h)
  rintro size s rfl
  cases hr : s.fields.refcount.counts.find digest with
  | none =>
    have hdec := RefCount.decrement_of_find_none hr
    refine quietly_bind (quietly_fieldOrThrow (fun n hn ↦ ?_) fun e he ↦ ?_)
    · rw [FieldAccess.run, hdec] at hn
      cases hn
    · rw [FieldAccess.run, hdec]
      exact h
  | some r =>
    have hlist : IsListed store.crates s digest := (h.entry digest).mpr (by rw [hr]; rfl)
    have hd := (h.listed digest hlist).1
    have hdec := RefCount.decrement_of_find hr
    refine quietly_bind (quietly_fieldOrThrow (fun n hn ↦ ?_) fun e he ↦ ?_)
    · rw [FieldAccess.run, hdec] at hn ⊢
      cases hn
      dsimp only
      split
      · refine quietly_bind (quietly_delete (quietly_bind ?_))
        refine quietly_removeRefcount_enlisted (h.toEnlisted.of_find fun e ↦ ?_) hd
          fun s₁ hf₁ hfind₁ hen₁ hlisted ↦ ?_
        · exact State.find_del_ne (ne_of_isChunkDigest hd (isChunkDigest_refcountKey e)).symm
        · have hback : ∀ e, IsListed store.crates s₁ e ↔ IsListed store.crates s e ∧ e ≠ digest :=
            fun e ↦ (hlisted e).trans (and_congr_left fun _ ↦ isListed_congr (State.find_del_ne
              (ne_of_isChunkDigest hd isChunkDigest_refcountIndexKey).symm))
          refine quietly_bind (quietly_field (quietly_field ?_))
          dsimp only [FieldAccess.run, State.fields_withFields]
          rw [hf₁]
          refine ⟨hen₁.of_find fun _ ↦ rfl, fun e ↦ (hback e).trans ?_, fun e he ↦ ?_⟩
          · dsimp only [State.fields_withFields, State.fields_del]
            rw [Table.find_unset, h.entry]
            split
            · exact iff_of_false (fun hne ↦ hne.2 (by assumption)) Bool.noConfusion
            · exact and_iff_left (by assumption)
          · obtain ⟨hel, hne⟩ := (hback e).mp he
            refine (congrArg Option.isSome (hfind₁ e
              (offRefcount_of_isChunkDigest (h.listed e hel).1))).trans ?_
            exact (congrArg Option.isSome (State.find_del_ne hne)).trans (h.blob e hel)
      · rename_i h0
        refine quietly_bind (quietly_saveRefcount_enlisted (h.toEnlisted.of_find fun _ ↦ rfl) hd
          (Nat.pos_of_ne_zero h0) fun s₁ hf₁ hfind₁ hen₁ hlisted ↦ quietly_field ?_)
        have hback : ∀ e, IsListed store.crates s₁ e ↔ IsListed store.crates s e := fun e ↦
          (hlisted e).trans (or_iff_right_of_imp fun hed ↦ hed ▸ hlist)
        dsimp only [FieldAccess.run, State.fields_withFields]
        rw [hf₁]
        refine ⟨hen₁.of_find fun _ ↦ rfl, fun e ↦ (hback e).trans ?_, fun e he ↦ ?_⟩
        · dsimp only [State.fields_withFields]
          rw [Table.find_set, h.entry]
          split
          · rename_i hed
            rw [hed, hr]
            exact Iff.rfl
          · exact Iff.rfl
        · have hel := (hback e).mp he
          exact (congrArg Option.isSome (hfind₁ e
            (offRefcount_of_isChunkDigest (h.listed e hel).1))).trans (h.blob e hel)
    · rw [FieldAccess.run, hdec] at he
      cases he

theorem Tended.aside {crates : Crates} {s' : State} (h : Tended crates s) (ha : Aside s s') :
    Tended crates s' :=
  h.of_find ha.refcount (fun d ↦ ha.find _ (offManifest_refcountKey d)) fun d hd _ hb ↦ by
    rwa [ha.find d (offManifest_of_isChunkDigest hd)]

end Chunks

/-! ## Opening -/

section Opening

variable {crates : Crates} {s : State}

private theorem quietly_backfillRefcountSizes_enlisted {rc : RefCount} (h : Enlisted crates s)
    (hpos : ∀ d r, rc.counts.find d = some r → 0 < r.count) :
    quietly (backfillRefcountSizes crates rc)
      (fun _ s' ↦ Enlisted crates s' ∧ ∀ d, IsListed crates s' d →
        IsListed crates s d ∨ (rc.counts.find d).isSome) (fun _ _ ↦ True) s := by
  refine quietly_mono (quietly_foldlM (J := fun l _ s' ↦
    (Enlisted crates s' ∧ ∀ d, IsListed crates s' d →
      IsListed crates s d ∨ (rc.counts.find d).isSome) ∧
    ∀ e ∈ l, (rc.counts.find e.1).isSome ∧ 0 < e.2) (R := fun _ _ ↦ True) ?_ _ rc s
    ⟨⟨h, fun d hd ↦ Or.inl hd⟩, fun e he ↦ ?_⟩) (fun _ _ h ↦ h.1) fun _ _ h ↦ h
  · rintro ⟨d, count⟩ l rc' s' ⟨⟨hen, hlisted⟩, hl⟩
    obtain ⟨hsome, hcount⟩ := hl _ List.mem_cons_self
    have hl' := fun e he ↦ hl e (List.mem_cons_of_mem _ he)
    refine quietly_bind (quietly_get ?_)
    cases s'.find d with
    | none => exact quietly_pure ⟨⟨hen, hlisted⟩, hl'⟩
    | some data =>
      dsimp only
      split
      · rename_i hd
        refine quietly_bind (quietly_saveRefcount_enlisted hen hd hcount
          fun s'' _ _ hen'' hlisted'' ↦ quietly_pure ⟨⟨hen'', fun e he ↦ ?_⟩, hl'⟩)
        rcases (hlisted'' e).mp he with rfl | he
        · exact Or.inr hsome
        · exact hlisted e he
      · exact quietly_pure ⟨⟨hen, hlisted⟩, hl'⟩
  · obtain ⟨r, hr, -, hcount⟩ := mem_stale rc he
    rw [hr, ← hcount]
    exact ⟨rfl, hpos _ _ hr⟩

theorem isSome_persistedRef {d : String} (h : Enlisted crates s) :
    (persistedRef crates s d).isSome ↔ IsListed crates s d := by
  rw [persistedRef]
  split
  · rename_i hd
    have hpos := (h.listed d hd).2
    rw [recordCount] at hpos
    rw [loadedRef, refcountRecord]
    cases hf : s.find (refcountKey d) with
    | none =>
      rw [hf] at hpos
      exact absurd hpos (Nat.lt_irrefl 0)
    | some raw =>
      rw [hf] at hpos
      dsimp only at hpos
      rw [Option.bind_some]
      cases hparse : parseRefcountRecord crates raw d with
      | error e =>
        rw [hparse] at hpos
        exact absurd hpos (Nat.lt_irrefl 0)
      | ok r =>
        rw [hparse] at hpos
        have hpos : 0 < r.1 := hpos
        refine iff_of_true ?_ hd
        change (if 0 < r.1 then some (⟨r.1, r.2⟩ : ChunkRef) else none).isSome = true
        rw [if_pos hpos]
        rfl
  · exact iff_of_false Bool.noConfusion (by assumption)

/-- A tended backend can be opened as soon as its manifests load. -/
theorem Tended.openable (h : Tended crates s) (hm : ManifestsLoad crates s none) :
    Openable crates s := by
  obtain ⟨l, hl⟩ := h.index
  refine ⟨hm, l, hl, fun d hd _ ↦ ?_⟩
  have hd := (isListed_of_readIndex hl).mpr hd
  have hsome := (isSome_persistedRef h.toEnlisted).mpr hd
  rw [persistedRef, if_pos hd, loadedRef] at hsome
  refine ⟨⟨(h.listed d hd).1, ?_⟩, fun _ ↦ h.blob d hd⟩
  cases hr : refcountRecord crates s d with
  | some r => rfl
  | none =>
    rw [hr] at hsome
    cases hsome

/-- **Opening**, or failing to. -/
theorem quietly_openStore_tended (h : Tended crates s) :
    quietly (flat (openStore crates)) (fun _ s' ↦ Tended crates s') (fun _ s' ↦ s' = s) s := by
  simp only [openStore, flat_bind, flat_unlocked, flat_pure]
  refine quietly_bind (quietly_mono (quietly_of_idle (idle_loadManifests crates)) ?_
    fun _ _ hs ↦ hs)
  rintro m s rfl
  refine quietly_bind (quietly_mono (quietly_and (quietly_of_idle (idle_loadRefcounts crates))
    quietly_loadRefcounts_iff) ?_ fun _ _ hs ↦ hs.1)
  rintro loaded s ⟨rfl, -, hmirrors, -⟩
  refine quietly_bind (quietly_mono (quietly_and (quietly_backfillRefcountSizes_mirrors
    (R := fun _ _ ↦ False) hmirrors) (quietly_backfillRefcountSizes_enlisted h.toEnlisted
      fun d r hr ↦ (hmirrors.valid d r hr).2)) ?_ fun _ _ hs ↦ hs.1.elim)
  rintro rc s₁ ⟨⟨hmirrors₁, hfind, hback, -⟩, hen₁, hlisted⟩
  have hloaded : ∀ d, (loaded.counts.find d).isSome ↔ IsListed crates s d := fun d ↦ by
    rw [← hmirrors.refs d]
    exact isSome_persistedRef h.toEnlisted
  have hback' : ∀ d, IsListed crates s₁ d → IsListed crates s d := fun d hd ↦
    (hlisted d hd).elim id (hloaded d).mp
  have hentry : ∀ d, IsListed crates s₁ d ↔ (rc.counts.find d).isSome := fun d ↦ by
    rw [← hmirrors₁.refs d]
    exact (isSome_persistedRef hen₁).symm
  have hblob : ∀ d, IsListed crates s₁ d → (s₁.find d).isSome := fun d hd ↦ by
    rw [hfind d (offRefcount_of_isChunkDigest (hen₁.listed d hd).1)]
    exact h.blob d (hback' d hd)
  refine quietly_bind (quietly_field (quietly_bind (quietly_mono quietly_rebuildStats_iff ?_
    fun _ _ hno ↦ absurd (fun e he _ ↦ ?_) hno)))
  · rintro _ _ ⟨-, stats, rfl, -⟩
    exact quietly_pure ⟨hen₁.of_find fun _ ↦ rfl, hentry, hblob⟩
  · have hr := RefCount.mem_iterRefs.mp he
    refine hblob e.1 ((hentry e.1).mpr ?_)
    rw [show rc.counts.find e.1 = some e.2 from hr]
    rfl

end Opening

/-! ## Runs -/

namespace ChunkStore

variable {store : ChunkStore} {s : State}

/-- **The step lemma.** Every operation, whether it returns or throws. -/
theorem quietly_perform_tended (h : Tended store.crates s) (op : Op) :
    quietly (flat (store.perform op)) (fun _ s' ↦ Tended store.crates s')
      (fun _ s' ↦ Tended store.crates s') s := by
  have hidle : ∀ {α : Type} {p : BackendM α}, Makes Call.Idle p →
      quietly p (fun _ s' ↦ Tended store.crates s') (fun _ s' ↦ Tended store.crates s') s :=
    fun hp ↦ quietly_mono (quietly_of_idle hp) (fun _ _ hs ↦ by rw [hs]; exact h)
      fun _ _ hs ↦ by rw [hs]; exact h
  cases op with
  | ingest fileId input =>
    rw [perform, flat_map, ingestInput_eq]
    refine quietly_map (quietly_mono (wpx_ingestStream (I := fun _ s ↦ Tended store.crates s)
      (K := fun _ s ↦ Tended store.crates s) (R := fun _ s ↦ Tended store.crates s)
      (fun chunk _ s hs ↦ quietly_storeChunk_tended hs (isChunkDigest_digestHex _ _))
      (fun _ _ _ hs ↦ hs) (fun s _ hs ↦ ?_) (fun _ _ _ hs ↦ quietly_releaseDigest_tended hs) h)
      (fun _ _ hs ↦ hs.2) fun _ _ hs ↦ hs)
    exact quietly_mono quietly_exchange (fun _ _ he ↦ hs.aside he.2.1) fun _ _ he ↦ hs.aside he.1
  | delete fileId =>
    rw [perform, flat_map]
    refine quietly_map (wpx_deleteFile (K := fun _ s ↦ Tended store.crates s) ?_
      fun _ _ _ hs ↦ quietly_releaseDigest_tended hs)
    exact quietly_mono quietly_withdraw (fun _ _ hw ↦ h.aside hw.2.1) fun _ _ hw ↦ h.aside hw.1
  | read fileId =>
    rw [perform, flat_map]
    exact quietly_map (hidle (idle_read store fileId))
  | readChunk digest =>
    rw [perform, flat_map]
    exact quietly_map (hidle (idle_readChunk store digest))
  | fsck repair =>
    rw [perform, flat_map]
    refine quietly_map (quietly_mono (quietly_fsck_report repair) ?_ fun _ _ hs ↦ hs)
    rintro _ s' ⟨-, hf, hfind⟩
    refine h.of_find (by rw [hf]) (fun d ↦ ?_) fun d hd hr hb ↦ ?_
    · refine (hfind _).trans (if_neg fun hk ↦ ?_)
      have hc := (mem_orphansOf.mp hk.2).2.1
      rw [isChunkDigest_refcountKey] at hc
      exact Bool.noConfusion hc
    · rw [hfind, if_neg fun hk ↦ ?_]
      · exact hb
      · rw [(mem_orphansOf.mp hk.2).2.2.2] at hr
        exact Bool.noConfusion hr
  | stats =>
    rw [perform, flat_map, ChunkStore.stats, flat_locked]
    exact quietly_map (hidle (makes_field fun _ ↦ rfl))
  | chunkRefcount digest =>
    rw [perform, flat_map, ChunkStore.chunkRefcount, flat_locked]
    exact quietly_map (hidle (makes_field fun _ ↦ rfl))
  | reopen =>
    rw [perform, flat_map]
    exact quietly_map (quietly_reopen (quietly_mono (quietly_openStore_tended h) (fun _ _ hs ↦ hs)
      fun _ _ hs ↦ by rw [hs]; exact h))

theorem tended_exec (h : Tended store.crates s) (op : Op) :
    Tended store.crates (store.exec op s).2 := by
  have hrun := quietly_eval (quietly_perform_tended h op)
  change outcome _ _ (store.exec op s).1 (store.exec op s).2 at hrun
  cases hr : (store.exec op s).1 with
  | ok reply =>
    rw [hr] at hrun
    exact hrun
  | error e =>
    rw [hr] at hrun
    exact hrun

/-- **The run lemma.** -/
theorem tended_execAll (h : Tended store.crates s) (ops : List Op) :
    Tended store.crates (store.execAll ops s).2 := by
  induction ops generalizing s with
  | nil => exact h
  | cons op ops ih => exact ih (tended_exec h op)

theorem tended_run (store : ChunkStore) (lists : Bool) (ops : List Op) :
    Tended store.crates (store.run lists ops).2 := by
  refine tended_execAll (tended_exec ?_ .reopen) ops
  have hindex : readIndex store.crates (.empty lists) refcountIndexKey = some [] :=
    readIndex_of_find_none rfl
  have hnone : ∀ d, ¬IsListed store.crates (.empty lists) d := fun d hd ↦
    absurd ((isListed_of_readIndex hindex).mp hd) List.not_mem_nil
  exact ⟨⟨⟨[], hindex⟩, fun d hd ↦ absurd hd (hnone d)⟩,
    fun d ↦ iff_of_false (hnone d) Bool.noConfusion, fun d hd ↦ absurd hd (hnone d)⟩

end ChunkStore

end Chunkstore

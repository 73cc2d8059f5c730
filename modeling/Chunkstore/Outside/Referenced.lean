import Chunkstore.Accounting.Mirrored
import Chunkstore.Crash.Missing

/-!
# Counts on a backend that others write to

When somebody else may put and delete blobs, a recorded size says nothing any more: the size of an
empty chunk is looked up in whatever blob is there. What survives is that every reference is
counted, in memory and on the backend. `Referenced` is that invariant, with the references held
besides the manifest as a list of digests.

Only operations that return are considered, so nothing is said about errors.
-/

open Effects Program

namespace Chunkstore

/-- The table counts what the backend counts, whatever sizes the two have. -/
def CountsMirrored (crates : Crates) (rc : RefCount) (s : State) : Prop :=
  ∃ rc', Mirrors crates rc' s ∧
    ∀ d, (rc'.counts.find d).map (·.count) = (rc.counts.find d).map (·.count)

/-- Manifest and counts are those of the backend, and the counts are the occurrences over the
manifest and those in `held`. -/
structure Referenced (store : ChunkStore) (held : List String) (s : State) : Prop where
  manifest : ManifestSynced store.crates s.fields.manifest s
  counts : CountsMirrored store.crates s.fields.refcount s
  exact : ∀ d, s.fields.refcount.countOf d = s.fields.manifest.occurrences d + held.count d

section Counts

variable {crates : Crates} {rc rc' : RefCount} {s s' : State} {digest d : String}
  {Q : Unit → State → Prop} {R : ChunkStoreError → State → Prop}

theorem countOf_congr (h : (rc'.counts.find d).map (·.count) = (rc.counts.find d).map (·.count)) :
    rc'.countOf d = rc.countOf d := by
  rw [RefCount.countOf_eq, RefCount.countOf_eq, h]

namespace CountsMirrored

theorem of_find (h : CountsMirrored crates rc s)
    (hf : ∀ d, s'.find (refcountKey d) = s.find (refcountKey d)) : CountsMirrored crates rc s' := by
  obtain ⟨rc', hm, heq⟩ := h
  exact ⟨rc', hm.of_find hf, heq⟩

theorem valid (h : CountsMirrored crates rc s) {r : ChunkRef}
    (hr : rc.counts.find d = some r) : isChunkDigest d = true ∧ 0 < r.count := by
  obtain ⟨rc', hm, heq⟩ := h
  have hd := heq d
  rw [hr, Option.map_some] at hd
  obtain ⟨r', hr', hc⟩ := Option.map_eq_some_iff.mp hd
  obtain ⟨hdig, hpos⟩ := hm.valid d r' hr'
  exact ⟨hdig, hc ▸ hpos⟩

theorem isSome_of_pos (h : 0 < rc.countOf d) : (rc.counts.find d).isSome := by
  obtain ⟨r, hr⟩ := RefcountSynced.find_of_pos h
  rw [hr]
  rfl

end CountsMirrored

theorem quietly_saveRefcount_counts (rc' : RefCount) {count size : ℕ}
    (h : CountsMirrored crates rc s)
    (hd : isChunkDigest digest = true) (hc : 0 < count)
    (hrc : ∀ e, (rc'.counts.find e).map (·.count)
      = if e = digest then some count else (rc.counts.find e).map (·.count))
    (hQ : ∀ s', s'.fields = s.fields → (∀ k, OffRefcount k → s'.find k = s.find k) →
      CountsMirrored crates rc' s' → Q () s') :
    quietly (saveRefcount crates digest count size) Q R s := by
  obtain ⟨rc₁, hm, heq⟩ := h
  refine quietly_saveRefcount_mirrors ⟨rc₁.counts.set digest ⟨count, size⟩⟩ hm hd hc
    (fun e ↦ Table.find_set _ _ _ _) fun s' hf hfind hm' ↦ hQ s' hf hfind ⟨_, hm', fun e ↦ ?_⟩
  rw [hrc, Table.find_set]
  split
  · rfl
  · exact heq e

theorem quietly_removeRefcount_counts (rc' : RefCount) (h : CountsMirrored crates rc s)
    (hd : isChunkDigest digest = true)
    (hrc : ∀ e, rc'.counts.find e = if e = digest then none else rc.counts.find e)
    (hQ : ∀ s', s'.fields = s.fields → (∀ k, OffRefcount k → s'.find k = s.find k) →
      CountsMirrored crates rc' s' → Q () s') :
    quietly (removeRefcount crates digest) Q R s := by
  obtain ⟨rc₁, hm, heq⟩ := h
  refine quietly_removeRefcount_mirrors ⟨rc₁.counts.unset digest⟩ hm hd
    (fun e ↦ Table.find_unset _ _ _) fun s' hf hfind hm' ↦ hQ s' hf hfind ⟨_, hm', fun e ↦ ?_⟩
  rw [hrc, Table.find_unset]
  split
  · rfl
  · exact heq e

end Counts

/-! ## The phases of an operation -/

section Phases

variable {store : ChunkStore} {s s' : State} {held digests : List String} {digest fileId : String}
  {fileBytes : ℕ}

namespace Referenced

theorem of_find (h : Referenced store held s) (hf : s'.fields = s.fields)
    (hfind : ∀ k, ¬OffManifest k ∨ ¬OffRefcount k → s'.find k = s.find k) :
    Referenced store held s' where
  manifest := by
    rw [hf]
    exact h.manifest.of_find fun f ↦ hfind _ (Or.inl fun hoff ↦ hoff f rfl)
  counts := by
    rw [hf]
    exact h.counts.of_find fun d ↦ hfind _ (Or.inr fun hoff ↦ hoff d rfl)
  exact := by
    rw [hf]
    exact h.exact

theorem isSome_of_mem (h : Referenced store held s)
    (hm : s.fields.manifest.tryGet fileId = some digests) {d : String} (hd : d ∈ digests) :
    (s.fields.refcount.counts.find d).isSome := by
  have hcount := Manifest.count_le_occurrences hm d
  have hmem := List.count_pos_iff.mpr hd
  have hexact := h.exact d
  exact CountsMirrored.isSome_of_pos (by omega)

end Referenced

/-- Storing a chunk holds a reference to it. -/
theorem quietly_storeChunk_referenced {chunk : Bytes} (h : Referenced store held s)
    (hd : isChunkDigest digest = true) :
    quietly (flat (store.storeChunk digest chunk))
      (fun _ s' ↦ Referenced store (held ++ [digest]) s') (fun _ _ ↦ True) s := by
  simp only [ChunkStore.storeChunk, ChunkStore.countChunk, flat_bind, flat_ofExcept, flat_locked,
    flat_ite, flat_pure]
  refine quietly_bind (quietly_ofExcept (fun blob _ ↦ ?_) fun _ _ ↦ trivial)
  refine quietly_bind (quietly_mono quietly_putBlob ?_ fun _ _ h ↦ h)
  rintro present s₁ ⟨-, hf₁, hfind₁, -⟩
  have h₁ : Referenced store held s₁ := h.of_find hf₁ fun k hk ↦ hfind₁ k <| by
    rintro rfl
    rcases hk with hk | hk
    · exact hk (offManifest_of_isChunkDigest hd)
    · exact hk (offRefcount_of_isChunkDigest hd)
  refine quietly_bind (quietly_bind (quietly_fieldOrThrow (fun n hn ↦ ?_) fun _ _ ↦ trivial))
  rw [FieldAccess.run] at hn ⊢
  cases hinc : s₁.fields.refcount.increment digest chunk.length with
  | error e =>
    rw [hinc] at hn
    cases hn
  | ok r =>
    obtain ⟨n', rc⟩ := r
    rw [hinc] at hn
    cases hn
    obtain ⟨hcount, hcounts⟩ := RefCount.increment_eq_ok hinc
    refine quietly_bind (quietly_field ?_)
    dsimp only [FieldAccess.run, State.fields_withFields]
    refine quietly_saveRefcount_counts rc (h₁.counts.of_find fun _ ↦ rfl) hd (by omega)
      (fun e ↦ ?_) fun s₂ hf₂ hfind₂ hrc₂ ↦ ?_
    · rw [hcounts, Table.find_set]
      split <;> rfl
    · have h₂ : ∀ stats, Referenced store (held ++ [digest])
          (s₂.withFields { s₂.fields with stats := stats }) := fun stats ↦ by
        rw [hf₂]
        refine ⟨h₁.manifest.of_find fun f ↦ hfind₂ _ (offRefcount_manifestKey f),
          hrc₂.of_find fun _ ↦ rfl, fun d ↦ ?_⟩
        have hexact := h₁.exact
        dsimp only [State.fields_withFields]
        rw [RefCount.countOf_increment hinc d, List.count_append, List.count_singleton]
        by_cases hdd : d = digest
        · rw [if_pos hdd, if_pos (by simp [hdd]), hdd, hexact digest, Nat.add_assoc]
        · rw [if_neg hdd, if_neg (by simpa using fun hc ↦ hdd hc.symm), hexact d]
          rfl
      split
      · exact quietly_bind (quietly_field (quietly_pure (h₂ _)))
      · exact quietly_bind (quietly_field (quietly_pure (h₂ _)))

/-- **Decrement**, when it succeeds. -/
theorem RefCount.of_decrement_eq_ok {rc rc' : RefCount} {n : ℕ}
    (h : rc.decrement digest = .ok (n, rc')) : ∃ r, rc.counts.find digest = some r ∧
      rc'.counts = if n = 0 then rc.counts.unset digest else rc.counts.set digest ⟨n, r.size⟩ := by
  cases hr : rc.counts.find digest with
  | none =>
    rw [RefCount.decrement_of_find_none hr] at h
    cases h
  | some r =>
    rw [RefCount.decrement_of_find hr] at h
    cases h
    refine ⟨r, rfl, ?_⟩
    split <;> rfl

/-- Releasing a held reference. -/
theorem quietly_releaseDigest_referenced (h : Referenced store (digest :: held) s) :
    quietly (flat (store.releaseDigest digest)) (fun _ s' ↦ Referenced store held s')
      (fun _ _ ↦ True) s := by
  simp only [ChunkStore.releaseDigest, flat_bind, flat_locked, flat_ite, flat_unlocked]
  refine quietly_bind (quietly_mono (quietly_of_idle (idle_chunkSize store digest)) ?_
    fun _ _ _ ↦ trivial)
  rintro size s rfl
  refine quietly_bind (quietly_fieldOrThrow (fun n hn ↦ ?_) fun _ _ ↦ trivial)
  rw [FieldAccess.run] at hn ⊢
  cases hdec : s.fields.refcount.decrement digest with
  | error e =>
    rw [hdec] at hn
    cases hn
  | ok x =>
    obtain ⟨n', rc⟩ := x
    rw [hdec] at hn
    cases hn
    obtain ⟨r, hr, hcounts⟩ := RefCount.of_decrement_eq_ok hdec
    have hd := (h.counts.valid hr).1
    have hexact : ∀ d, rc.countOf d = s.fields.manifest.occurrences d + held.count d := fun d ↦ by
      have hheld := h.exact d
      rw [(RefCount.countOf_decrement hdec d).2]
      by_cases hdd : d = digest
      · subst hdd
        rw [List.count_cons_self] at hheld
        rw [if_pos rfl]
        omega
      · rw [List.count_cons_of_ne (Ne.symm hdd)] at hheld
        rw [if_neg hdd, hheld]
    have hdone : ∀ s₁ : State, s₁.fields = { s.fields with refcount := rc } →
        (∀ f, s₁.find (manifestKey f) = s.find (manifestKey f)) →
          CountsMirrored store.crates rc s₁ → ∀ stats, Referenced store held
            (s₁.withFields { s₁.fields with stats := stats }) := fun s₁ hf₁ hfind₁ hrc₁ stats ↦ by
      rw [hf₁]
      exact ⟨h.manifest.of_find hfind₁, hrc₁.of_find fun _ ↦ rfl, hexact⟩
    dsimp only
    split
    · rename_i h0
      rw [if_pos h0] at hcounts
      refine quietly_bind (quietly_delete (quietly_bind (quietly_removeRefcount_counts rc
        (h.counts.of_find fun e ↦ ?_) hd (fun e ↦ ?_) fun s₁ hf₁ hfind₁ hrc₁ ↦ ?_)))
      · exact State.find_del_ne (ne_of_isChunkDigest hd (isChunkDigest_refcountKey e)).symm
      · rw [hcounts, Table.find_unset]
      · refine quietly_bind (quietly_field (quietly_field (hdone s₁ hf₁ (fun f ↦ ?_) hrc₁ _)))
        rw [hfind₁ _ (offRefcount_manifestKey f)]
        exact State.find_del_ne (ne_of_isChunkDigest hd (isChunkDigest_manifestKey f)).symm
    · rename_i h0
      rw [if_neg h0] at hcounts
      refine quietly_bind (quietly_saveRefcount_counts rc
        (h.counts.of_find fun _ ↦ rfl) hd (Nat.pos_of_ne_zero h0) (fun e ↦ ?_)
        fun s₁ hf₁ hfind₁ hrc₁ ↦ quietly_field (hdone s₁ hf₁ (fun f ↦ ?_) hrc₁ _))
      · rw [hcounts, Table.find_set]
        split <;> rfl
      · exact hfind₁ _ (offRefcount_manifestKey f)

/-- Exchanging an entry counts the references of the new list for the file, and holds those of the
old one. -/
theorem quietly_exchange_referenced (h : Referenced store digests s)
    (hv : ∀ d ∈ digests, isChunkDigest d = true) :
    quietly (store.exchange fileId digests fileBytes)
      (fun old s' ↦ Referenced store (old.getD []) s') (fun _ _ ↦ True) s := by
  refine quietly_bind (quietly_field (quietly_bind (quietly_fieldOrThrow (fun _ hok ↦ ?_)
    fun _ _ ↦ trivial)))
  dsimp only [FieldAccess.run, State.withFields_fields] at hok ⊢
  cases hins : s.fields.manifest.insert fileId digests fileBytes with
  | error e =>
    rw [hins] at hok
    cases hok
  | ok m =>
    by_cases hname : fileId = indexName
    · rw [hname]
      exact quietly_bind (quietly_mono quietly_saveManifest_indexName
        (fun _ _ hf ↦ hf.elim) fun _ _ _ ↦ trivial)
    · refine quietly_bind (quietly_saveManifest (h.manifest.of_find fun _ ↦ rfl) hins hname hv
        fun s₁ hf₁ hfind₁ hsync₁ ↦ quietly_pure ?_)
      rw [State.fields_withFields] at hf₁
      refine ⟨by rw [hf₁]; exact hsync₁, ?_, fun d ↦ ?_⟩
      · rw [hf₁]
        exact h.counts.of_find fun d ↦ hfind₁ _ (offManifest_refcountKey d)
      · have hmove := (Manifest.updated_of_insert hins).occurrences d
        have hexact := h.exact d
        rw [Option.getD_some] at hmove
        rw [hf₁]
        dsimp only
        omega

/-- Withdrawing an entry holds the references of its list. -/
theorem quietly_withdraw_referenced (h : Referenced store [] s) :
    quietly (store.withdraw fileId) (fun digests s' ↦ Referenced store digests s')
      (fun _ _ ↦ True) s := by
  refine quietly_bind (quietly_fieldOrThrow (fun digests hok ↦ ?_) fun _ _ ↦ trivial)
  have hget : s.fields.manifest.tryGet fileId = some digests := by
    rw [FieldAccess.run, Manifest.remove, Manifest.get] at hok
    split at hok
    · cases hok
      assumption
    · cases hok
  have hname := (h.manifest.name fileId (by rw [hget]; rfl)).2
  refine quietly_bind (quietly_removeManifest (m := s.fields.manifest)
    (h.manifest.of_find fun _ ↦ rfl) hname fun s₁ hf₁ hfind₁ hsync₁ ↦ quietly_pure ?_)
  rw [FieldAccess.run, State.fields_withFields] at hf₁
  refine ⟨by rw [hf₁]; exact hsync₁, ?_, fun d ↦ ?_⟩
  · rw [hf₁]
    exact h.counts.of_find fun d ↦ hfind₁ _ (offManifest_refcountKey d)
  · have hmove := (s.fields.manifest.updated_remove fileId).occurrences d
    have hexact := h.exact d
    rw [hget, Option.getD_some, Option.getD_none, List.count_nil] at hmove
    rw [List.count_nil] at hexact
    rw [hf₁]
    dsimp only
    omega

end Phases

/-! ## Reopening -/

section Opening

variable {store : ChunkStore} {s s' : State} {fileId : String}

private theorem ManifestSynced.persistedFile_eq {crates : Crates} {m : Manifest}
    (h : ManifestSynced crates m s) (fileId : String) :
    persistedFile crates s fileId = m.record fileId := by
  obtain ⟨l, hl, -, hmem⟩ := h.index
  rw [persistedFile, hl, Option.getD_some]
  split
  · rename_i hf
    rw [manifestRecord, h.record fileId (h.name fileId ((hmem fileId).mp hf)).2]
    cases m.record fileId with
    | none => rfl
    | some r => rw [Option.map_some, Option.bind_some, crates.serde.manifest_roundtrip]; rfl
  · rename_i hf
    have hnone : m.files.find fileId = none := by
      rw [hmem, Bool.not_eq_true, Option.isSome_eq_false_iff, Option.isNone_iff_eq_none] at hf
      exact hf
    rw [Manifest.record, hnone]
    rfl

private theorem Manifest.Matches.eq {crates : Crates} {m m' : Manifest}
    (h : ManifestSynced crates m s)
    (hm : m'.Matches fileId (m.record fileId)) :
    m'.files.find fileId = m.files.find fileId ∧
      m'.fileBytes.find fileId = m.fileBytes.find fileId := by
  have hbytes := h.bytes fileId
  obtain ⟨h₁, h₂⟩ := hm
  rw [Manifest.tryGet] at hbytes
  rw [h₁, h₂, Manifest.record]
  cases hf : m.files.find fileId with
  | none =>
    rw [hf, Option.isSome_none, Option.isSome_eq_false_iff, Option.isNone_iff_eq_none] at hbytes
    rw [hbytes]
    exact ⟨rfl, rfl⟩
  | some digests =>
    rw [hf] at hbytes
    obtain ⟨n, hn⟩ := Option.isSome_iff_exists.mp hbytes
    rw [hn]
    exact ⟨rfl, rfl⟩

private theorem Referenced.opened (h : Referenced store [] s) (ho : Opened store.crates s s') :
    Referenced store [] s' := by
  have hfiles := fun f ↦ (h.manifest.persistedFile_eq f ▸ ho.files f).eq h.manifest
  obtain ⟨rc, hrc, heq⟩ := h.counts
  have hcounts : ∀ d, (s'.fields.refcount.counts.find d).map (·.count)
      = (s.fields.refcount.counts.find d).map (·.count) := fun d ↦ by
    rw [← heq, ← hrc.refs d]
    rcases ho.refs d with hr | ⟨r, raw, hr, -, -, hr'⟩
    · rw [hr]
    · rw [hr, hr']
      rfl
  refine ⟨(h.manifest.of_files (fun f ↦ (hfiles f).1) fun f ↦ (hfiles f).2).of_find fun f ↦
    ho.find _ (offRefcount_manifestKey f), ⟨_, ho.mirrors, fun _ ↦ rfl⟩, fun d ↦ ?_⟩
  rw [countOf_congr (hcounts d), h.exact d,
    Manifest.occurrences_congr (fun f ↦ (hfiles f).1) d]

end Opening

/-! ## The step lemma -/

namespace ChunkStore

variable {store : ChunkStore} {s : State} {op : Op}

private theorem Referenced.fsck {repair : Bool} (h : Referenced store [] s) :
    quietly (flat (ChunkStore.fsck repair)) (fun _ s' ↦ Referenced store [] s')
      (fun _ _ ↦ True) s := by
  refine quietly_mono (quietly_fsck_report repair) ?_ fun _ _ h ↦ h
  rintro report s' ⟨-, hf, hfind⟩
  refine h.of_find hf fun k hk ↦ ?_
  rw [hfind, if_neg]
  rintro ⟨-, hmem⟩
  have hd := (mem_orphansOf.mp hmem).2.1
  rcases hk with hk | hk
  · exact hk (offManifest_of_isChunkDigest hd)
  · exact hk (offRefcount_of_isChunkDigest hd)

/-- **The step lemma.** An operation that returns keeps every reference counted. -/
theorem quietly_perform_referenced (h : Referenced store [] s) :
    quietly (flat (store.perform op)) (fun _ s' ↦ Referenced store [] s') (fun _ _ ↦ True) s := by
  have hidle : ∀ {α : Type} {p : BackendM α}, Makes Call.Idle p →
      quietly p (fun _ s' ↦ Referenced store [] s') (fun _ _ ↦ True) s := fun hp ↦
    quietly_mono (quietly_of_idle hp) (fun _ _ heq ↦ heq ▸ h) fun _ _ _ ↦ trivial
  have hrelease : ∀ (d : String) (ds : List String) (s : State), Referenced store (d :: ds) s →
      quietly (flat (store.releaseDigest d)) (fun _ s' ↦ Referenced store ds s')
        (fun _ _ ↦ True) s := fun _ _ _ ↦ quietly_releaseDigest_referenced
  cases op with
  | ingest fileId input =>
    rw [perform, flat_map, ingestInput_eq]
    -- the digests of the chunks stored so far are held
    refine quietly_map (quietly_mono (wpx_ingestStream
      (I := fun l s ↦ ∃ done, done ++ l = (input.stream store.crates).chunks ∧
        Referenced store (done.map (digestHex store.crates.sha256)) s)
      (K := fun ds s ↦ Referenced store ds s) (R := fun _ _ ↦ True) (fun chunk l s hI ↦ ?_)
      (fun _ _ _ _ ↦ trivial) (fun s _ hI ↦ ?_) hrelease ⟨[], rfl, h⟩)
      (fun _ _ h ↦ h.2) fun _ _ h ↦ h)
    · obtain ⟨done, hdone, hr⟩ := hI
      refine quietly_mono (quietly_storeChunk_referenced hr (isChunkDigest_digestHex _ _))
        (fun _ s' hr' ↦ ⟨done ++ [chunk], ?_, ?_⟩) fun _ _ h ↦ h
      · rw [List.append_assoc]
        exact hdone
      · rw [List.map_append]
        exact hr'
    · obtain ⟨done, hdone, hr⟩ := hI
      rw [List.append_nil] at hdone
      rw [hdone] at hr
      refine quietly_exchange_referenced hr fun d hd ↦ ?_
      obtain ⟨chunk, -, rfl⟩ := List.mem_map.mp hd
      exact isChunkDigest_digestHex _ _
  | delete fileId =>
    rw [perform, flat_map]
    exact quietly_map (wpx_deleteFile (K := fun ds s ↦ Referenced store ds s)
      (quietly_withdraw_referenced h) hrelease)
  | read fileId =>
    rw [perform, flat_map]
    exact quietly_map (hidle (idle_read store fileId))
  | readChunk digest =>
    rw [perform, flat_map]
    exact quietly_map (hidle (idle_readChunk store digest))
  | fsck repair =>
    rw [perform, flat_map]
    exact quietly_map (Referenced.fsck h)
  | stats =>
    rw [perform, flat_map, ChunkStore.stats, flat_locked]
    exact quietly_map (quietly_field h)
  | chunkRefcount digest =>
    rw [perform, flat_map, ChunkStore.chunkRefcount, flat_locked]
    exact quietly_map (quietly_field h)
  | reopen =>
    rw [perform, flat_map]
    exact quietly_map (quietly_reopen (quietly_mono quietly_openStore_opened
      (fun _ _ ho ↦ h.opened ho) fun _ _ _ ↦ trivial))

/-- An operation that returned has kept every reference counted. -/
theorem referenced_exec (h : Referenced store [] s) (hok : (store.exec op s).1.isOk = true) :
    Referenced store [] (store.exec op s).2 := by
  have hrun := quietly_eval (@quietly_perform_referenced _ _ op h)
  change outcome _ _ (store.exec op s).1 (store.exec op s).2 at hrun
  cases hr : (store.exec op s).1 with
  | ok reply =>
    rw [hr] at hrun
    exact hrun
  | error e =>
    rw [hr] at hok
    cases hok

end ChunkStore

end Chunkstore

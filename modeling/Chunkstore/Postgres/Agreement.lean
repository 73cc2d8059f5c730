import Chunkstore.Accounting.Mirrored
import Chunkstore.Exact.Runs
import Chunkstore.Postgres.Failures

/-!
# Two implementations of one store

A store with its metadata on the backend and a store opened with `open_postgres`, side by side. They
cannot agree once a chunk is stored: the store on the database keeps every blob, whether its
transactions are committed or not, and never has a count in memory, while the store on the backend
has a count in memory for every blob. As long as no chunk is stored they keep the same lists,
`Parallel`.

## Main result

`PostgresStore.agrees_iff`: the runs on which the two have the same outcome.
-/

open Effects Program

namespace Chunkstore

open PostgresMetadata (Committed takesAll_nil)

open ChunkStore (Op Reply IngestInput)

/-! ## The same outcome -/

/-- The same reply, or an error on both sides. -/
def SameReply : Except ChunkStoreError Reply → Except ChunkStoreError Reply → Prop
  | .ok a, .ok b => a = b
  | .error _, .error _ => True
  | _, _ => False

/-- What two runs share that have been runs of the same store: the replies, the blobs, the sums of
the statistics and the counts. -/
structure SameOutcome (shared : PostgresStore) (out : List (Except ChunkStoreError Reply) × State)
    (out' : List (Except ChunkStoreError Reply) × Node) : Prop where
  replies : List.Forall₂ SameReply out.1 out'.1
  blobs : ∀ d, isChunkDigest d = true → out.2.find d = out'.2.store.find d
  stats : ∃ st st', (shared.store.exec .stats out.2).1 = .ok (.stats st) ∧
    (shared.exec .stats out'.2).1 = .ok (.stats st') ∧ st.totalBytes = st'.totalBytes ∧
      st.storedBytes = st'.storedBytes
  counts : ∀ d, (shared.store.exec (.chunkRefcount d) out.2).1
    = (shared.exec (.chunkRefcount d) out'.2).1

/-- An ingest of a file id that is not empty, a read or a delete. -/
def Ordinary : Op → Prop
  | .ingest fileId _ => fileId ≠ ""
  | .read _ => True
  | .delete _ => True
  | _ => False

/-- An ingest without chunks, which ends in an error or is for a file id that both stores accept. -/
def PostgresStore.Chunkless (self : PostgresStore) : Op → Prop
  | .ingest fileId input => (input.stream self.crates).chunks = [] ∧
    ((input.stream self.crates).error ≠ none ∨ (fileId ≠ indexName ∧ IsText fileId))
  | _ => True

/-! ## A blob has a count -/

/-- Every blob of a chunk has an entry in the table of counts. -/
def BlobsCounted (s : State) : Prop :=
  ∀ d, isChunkDigest d = true → (s.find d).isSome → (s.fields.refcount.counts.find d).isSome

section Counting

variable {store : ChunkStore} {s s' : State} {fileId digest : String} {chunk : Bytes} {op : Op}

private theorem quietly_confined_blobsCounted {α : Type} {p : BackendM α}
    (hp : Confined (fun k ↦ isChunkDigest k = false) p) (h : BlobsCounted s) :
    quietly p (fun _ ↦ BlobsCounted) (fun _ ↦ BlobsCounted) s := by
  have hcounted : ∀ s', (s'.fields = s.fields ∧ ∀ k, ¬isChunkDigest k = false →
      s'.find k = s.find k) → BlobsCounted s' := by
    rintro s' ⟨hf, hfind⟩ d hd hblob
    rw [hfind d (by rw [hd]; exact Bool.noConfusion)] at hblob
    rw [hf]
    exact h d hd hblob
  exact quietly_mono (quietly_confined hp) (fun _ ↦ hcounted) fun _ ↦ hcounted

theorem quietly_storeChunk_blobsCounted (h : BlobsCounted s) :
    quietly (flat (store.storeChunk digest chunk)) (fun _ ↦ BlobsCounted) (fun _ ↦ BlobsCounted)
      s := by
  simp only [ChunkStore.storeChunk, ChunkStore.countChunk, flat_bind, flat_ofExcept, flat_locked,
    flat_ite, flat_pure]
  refine quietly_bind (quietly_ofExcept (fun blob _ ↦ ?_) fun _ _ ↦ h)
  refine quietly_bind (quietly_mono quietly_putBlob ?_ fun _ _ h ↦ h)
  rintro present s₁ ⟨-, hf₁, hother, -⟩
  -- an increment makes an entry, or is refused for the one there is
  have hcounted : BlobsCounted
      (s₁.withFields ((FieldAccess.refcountIncrement digest chunk.length).run s₁.fields).2) := by
    intro d hd hblob
    rw [State.find_withFields] at hblob
    rw [State.fields_withFields, FieldAccess.run, hf₁]
    cases hinc : s.fields.refcount.increment digest chunk.length with
    | error e =>
      by_cases hdd : d = digest
      · rw [hdd, Option.isSome_iff_ne_none]
        intro hnone
        rw [RefCount.increment_of_find_none hnone] at hinc
        cases hinc
      · exact h d hd (hother d hdd ▸ hblob)
    | ok r =>
      rw [(RefCount.increment_eq_ok hinc).2, Table.find_set]
      split
      · rfl
      · rename_i hdd
        exact h d hd (hother d hdd ▸ hblob)
  refine quietly_bind (quietly_bind (quietly_fieldOrThrow (fun n _ ↦ ?_) fun _ _ ↦ hcounted))
  refine quietly_bind (quietly_field ?_)
  refine quietly_mono (quietly_confined_blobsCounted (confined_saveRefcount
    (isChunkDigest_refcountKey _) isChunkDigest_refcountIndexKey) hcounted) ?_ fun _ _ h ↦ h
  rintro _ s₂ h₂
  split <;> exact quietly_bind (quietly_field (quietly_pure h₂))

theorem quietly_releaseDigest_blobsCounted (h : BlobsCounted s) :
    quietly (flat (store.releaseDigest digest)) (fun _ ↦ BlobsCounted) (fun _ ↦ BlobsCounted)
      s := by
  simp only [ChunkStore.releaseDigest, flat_bind, flat_locked, flat_unlocked, flat_ite]
  refine quietly_bind (quietly_mono (quietly_of_idle (idle_chunkSize store digest)) ?_ ?_)
  · rintro size s rfl
    refine quietly_bind (quietly_fieldOrThrow (fun remaining hr ↦ ?_) fun e he ↦ ?_)
    · rw [FieldAccess.run] at hr ⊢
      cases hf : s.fields.refcount.counts.find digest with
      | none =>
        rw [RefCount.decrement_of_find_none hf] at hr
        cases hr
      | some r =>
        rw [RefCount.decrement_of_find hf] at hr ⊢
        cases hr
        dsimp only
        by_cases hzero : r.count - 1 = 0
        · -- the entry goes, and the blob with it
          rw [if_pos hzero, if_pos hzero]
          have hcounted : BlobsCounted ((s.withFields { s.fields with
              refcount := ⟨s.fields.refcount.counts.unset digest⟩ }).del digest) := by
            intro d hd hblob
            by_cases hdd : d = digest
            · rw [hdd, State.find_del_self] at hblob
              cases hblob
            · rw [State.find_del_ne hdd] at hblob
              rw [State.fields_del, State.fields_withFields]
              dsimp only
              rw [Table.find_unset, if_neg hdd]
              exact h d hd hblob
          refine quietly_bind (quietly_delete (quietly_bind (quietly_mono
            (quietly_confined_blobsCounted (confined_removeRefcount (isChunkDigest_refcountKey _)
              isChunkDigest_refcountIndexKey) hcounted) ?_ fun _ _ h ↦ h)))
          exact fun _ s₂ h₂ ↦ quietly_bind (quietly_field (quietly_field h₂))
        · rw [if_neg hzero, if_neg hzero]
          have hcounted : BlobsCounted (s.withFields { s.fields with
              refcount := ⟨s.fields.refcount.counts.set digest ⟨r.count - 1, r.size⟩⟩ }) := by
            intro d hd hblob
            rw [State.fields_withFields]
            dsimp only
            rw [Table.find_set]
            split
            · rfl
            · exact h d hd hblob
          refine quietly_bind (quietly_mono (quietly_confined_blobsCounted (confined_saveRefcount
            (isChunkDigest_refcountKey _) isChunkDigest_refcountIndexKey) hcounted) ?_
            fun _ _ h ↦ h)
          exact fun _ s₂ h₂ ↦ quietly_field h₂
    · rw [FieldAccess.run] at he ⊢
      cases hdec : s.fields.refcount.decrement digest with
      | ok r =>
        rw [hdec] at he
        cases he
      | error e => exact h
  · rintro e _ rfl
    exact h

private theorem BlobsCounted.withFields {f : Fields} (h : BlobsCounted s)
    (hf : f.refcount = s.fields.refcount) : BlobsCounted (s.withFields f) := by
  intro d hd hblob
  rw [State.fields_withFields, hf]
  exact h d hd hblob

/-- **An ingest** leaves no blob without a count, whatever it returns. -/
theorem quietly_ingestStream_blobsCounted (stream : Stream) (h : BlobsCounted s) :
    quietly (flat (store.ingestStream fileId stream)) (fun _ ↦ BlobsCounted)
      (fun _ ↦ BlobsCounted) s := by
  refine quietly_mono (wpx_ingestStream (M := faulty False) (G := .any) (I := fun _ ↦ BlobsCounted)
    (K := fun _ ↦ BlobsCounted) (R := fun _ ↦ BlobsCounted) ?_ (fun _ _ _ h ↦ h) ?_ ?_ h)
    (fun _ _ h ↦ h.2) fun _ _ h ↦ h
  · exact fun _ _ _ h ↦ quietly_storeChunk_blobsCounted h
  · rintro s₁ - h₁
    have hinsert : ∀ digests fileBytes, BlobsCounted (s₁.withFields
        ((FieldAccess.manifestInsert fileId digests fileBytes).run s₁.fields).2) := by
      refine fun digests fileBytes ↦ h₁.withFields ?_
      rw [FieldAccess.run]
      cases s₁.fields.manifest.insert fileId digests fileBytes <;> rfl
    refine quietly_bind (quietly_field (quietly_bind (quietly_fieldOrThrow (fun _ _ ↦ ?_)
      fun _ _ ↦ hinsert _ _)))
    exact quietly_bind (quietly_mono (quietly_confined_blobsCounted (confined_saveManifest
      (isChunkDigest_manifestKey _) isChunkDigest_manifestIndexKey) (hinsert _ _))
      (fun _ _ h₂ ↦ quietly_pure h₂) fun _ _ h ↦ h)
  · exact fun _ _ _ h ↦ quietly_releaseDigest_blobsCounted h

theorem quietly_delete_blobsCounted (h : BlobsCounted s) :
    quietly (flat (store.delete fileId)) (fun _ ↦ BlobsCounted) (fun _ ↦ BlobsCounted) s := by
  refine wpx_deleteFile (K := fun _ ↦ BlobsCounted) ?_ fun _ _ _ h ↦
    quietly_releaseDigest_blobsCounted h
  have hremove : BlobsCounted
      (s.withFields ((FieldAccess.manifestRemove fileId).run s.fields).2) := h.withFields rfl
  refine quietly_bind (quietly_fieldOrThrow (fun _ _ ↦ ?_) fun _ _ ↦ hremove)
  exact quietly_bind (quietly_mono (quietly_confined_blobsCounted (confined_removeManifest
    (isChunkDigest_manifestKey _) isChunkDigest_manifestIndexKey) hremove)
    (fun _ _ h₂ ↦ quietly_pure h₂) fun _ _ h ↦ h)

theorem blobsCounted_exec (h : BlobsCounted s) (hop : Ordinary op) :
    BlobsCounted (store.exec op s).2 := by
  have hspec : quietly (flat (store.perform op)) (fun _ ↦ BlobsCounted) (fun _ ↦ BlobsCounted)
      s := by
    cases op with
    | ingest fileId input =>
      rw [ChunkStore.perform, ChunkStore.flat_map, store.ingestInput_eq]
      exact quietly_map (quietly_ingestStream_blobsCounted _ h)
    | delete fileId =>
      rw [ChunkStore.perform, ChunkStore.flat_map]
      exact quietly_map (quietly_delete_blobsCounted h)
    | read fileId =>
      rw [ChunkStore.perform, ChunkStore.flat_map]
      refine quietly_map (quietly_mono (quietly_of_idle (idle_read store fileId)) ?_ ?_)
      · rintro _ _ rfl
        exact h
      · rintro _ _ rfl
        exact h
    | readChunk | fsck | stats | chunkRefcount | reopen => exact hop.elim
  have hend := quietly_eval hspec
  rw [ChunkStore.exec]
  cases hr : (callHandler.eval (flat (store.perform op)).run s).1 with
  | ok reply =>
    rw [hr] at hend
    exact hend
  | error e =>
    rw [hr] at hend
    exact hend

theorem blobsCounted_execAll {ops : List Op} (h : BlobsCounted s)
    (hops : ∀ op ∈ ops, Ordinary op) : BlobsCounted (store.execAll ops s).2 := by
  induction ops generalizing s with
  | nil => exact h
  | cons op ops ih =>
    exact ih (blobsCounted_exec h (hops op List.mem_cons_self))
      fun o ho ↦ hops o (List.mem_cons_of_mem op ho)

end Counting

/-! ## A blob stays -/

section Staying

variable {self : PostgresStore} {n : Node} {op : Op}

/-- Whatever an operation returns, the blobs stay and its chunks are among them. -/
theorem retains_exec (hop : Ordinary op) :
    n.Retains (self.exec op n).2 ∧ ∀ chunk ∈ self.store.chunksOf op,
      ((self.exec op n).2.store.find (digestHex self.crates.sha256 chunk)).isSome := by
  cases op with
  | ingest fileId input =>
    have hspec := self.exec_ingest (n := n) fileId input
    rcases hx : self.exec (.ingest fileId input) n with ⟨r, n'⟩
    rw [hx] at hspec
    cases r with
    | ok reply => exact ⟨hspec.2.1.toRetains, hspec.2.1.stored⟩
    | error e => exact ⟨hspec.1.toRetains, hspec.1.stored⟩
  | delete fileId =>
    refine ⟨?_, fun chunk hchunk ↦ absurd hchunk List.not_mem_nil⟩
    have hspec := self.exec_delete (n := n) fileId
    rcases hx : self.exec (.delete fileId) n with ⟨r, n'⟩
    rw [hx] at hspec
    cases r with
    | ok reply => exact .of_kept hspec.2.1
    | error e =>
      obtain ⟨rfl, -⟩ := hspec
      exact .refl n'
  | read fileId =>
    refine ⟨?_, fun chunk hchunk ↦ absurd hchunk List.not_mem_nil⟩
    have hspec := self.exec_read (n := n) fileId
    rcases hx : self.exec (.read fileId) n with ⟨r, n'⟩
    rw [hx] at hspec
    cases r with
    | ok reply =>
      obtain ⟨rfl, -⟩ := hspec
      exact .refl n'
    | error e =>
      obtain ⟨rfl, -⟩ := hspec
      exact .refl n'
  | readChunk | fsck | stats | chunkRefcount | reopen => exact hop.elim

/-- **The blobs of a run** on the database are never unlinked. -/
theorem retains_execAll {ops : List Op} (hops : ∀ op ∈ ops, Ordinary op) :
    n.Retains (self.execAll ops n).2 ∧ ∀ op ∈ ops, ∀ chunk ∈ self.store.chunksOf op,
      ((self.execAll ops n).2.store.find (digestHex self.crates.sha256 chunk)).isSome := by
  induction ops generalizing n with
  | nil => exact ⟨.refl n, fun op hop ↦ absurd hop List.not_mem_nil⟩
  | cons op ops ih =>
    obtain ⟨hretains, hstored⟩ := retains_exec (n := n) (hops op List.mem_cons_self)
    obtain ⟨hretains', hstored'⟩ := ih (n := (self.exec op n).2)
      fun o ho ↦ hops o (List.mem_cons_of_mem op ho)
    refine ⟨hretains.trans hretains', fun o ho chunk hchunk ↦ ?_⟩
    rcases List.mem_cons.mp ho with rfl | ho
    · exact hretains'.blobs _ (hstored chunk hchunk)
    · exact hstored' o ho chunk hchunk

end Staying

/-! ## Side by side -/

/-- The two stores have the same lists; the rows count the occurrences in them, the other store
counts what is held besides, and the store on the database has counted nothing in memory. -/
structure Parallel (shared : PostgresStore) (seen : Bytes → Prop) (held : String → ℕ) (s : State)
    (n : Node) : Prop where
  rep : Rep shared.store seen none held s
  lists : ∀ f, (n.database.manifests.find f).map (·.digests)
    = (s.fields.manifest.tryGet f).map .ok
  text : ∀ f, (s.fields.manifest.tryGet f).isSome → IsText f
  counts : ∀ d, n.database.countOf d = s.fields.manifest.occurrences d
  loaded : n.store.fields.refcount = .new

section Steps

variable {self : PostgresStore} {seen : Bytes → Prop} {held held' : String → ℕ} {s s' : State}
  {n n' : Node} {fileId : String} {new old : List String}

namespace Parallel

theorem listOf (h : Parallel self seen held s n) (f : String) :
    n.database.listOf f = .ok ((s.fields.manifest.tryGet f).getD []) := by
  have hl := h.lists f
  cases hf : n.database.manifests.find f with
  | none =>
    rw [hf] at hl
    rw [Database.listOf_of_find_none hf]
    cases hm : s.fields.manifest.tryGet f with
    | none => rfl
    | some l =>
      rw [hm] at hl
      cases hl
  | some row =>
    rw [hf] at hl
    rw [Database.listOf_of_find hf]
    cases hm : s.fields.manifest.tryGet f with
    | none =>
      rw [hm] at hl
      cases hl
    | some l =>
      rw [hm] at hl
      exact Option.some.inj hl

theorem tryGet {row : ManifestRow} (h : Parallel self seen held s n)
    (hrow : n.database.manifests.find fileId = some row) (hold : row.digests = .ok old) :
    s.fields.manifest.tryGet fileId = some old := by
  have hl := h.lists fileId
  rw [hrow, Option.map_some, hold] at hl
  cases hm : s.fields.manifest.tryGet fileId with
  | none =>
    rw [hm] at hl
    cases hl
  | some l =>
    rw [hm] at hl
    cases hl
    rfl

theorem row {l : List String} (h : Parallel self seen held s n)
    (hm : s.fields.manifest.tryGet fileId = some l) :
    ∃ row, n.database.manifests.find fileId = some row ∧ row.digests = .ok l := by
  have hl := h.lists fileId
  rw [hm] at hl
  cases hf : n.database.manifests.find fileId with
  | none =>
    rw [hf] at hl
    cases hl
  | some row =>
    rw [hf] at hl
    exact ⟨row, rfl, Option.some.inj hl⟩

/-- A step that both make: the same list has been moved. -/
theorem move {o : Option (List String)} {rows : Table String ManifestRow}
    (h : Parallel self seen held s n) (hrep : Rep self.store seen none held s')
    (hup : s.fields.manifest.Updated s'.fields.manifest fileId o)
    (hold : n.database.listOf fileId = .ok old)
    (hrows : ∀ g, (rows.find g).map (·.digests)
      = if g = fileId then o.map .ok else (n.database.manifests.find g).map (·.digests))
    (htext : o.isSome → IsText fileId)
    (hc : Committed rows (o.getD []) old n.database n'.database)
    (hrc : n'.store.fields.refcount = n.store.fields.refcount) :
    Parallel self seen held s' n' := by
  have hold' : old = (s.fields.manifest.tryGet fileId).getD [] := by
    rw [h.listOf] at hold
    exact (Except.ok.inj hold).symm
  have hocc := hup.occurrences
  rw [← hold'] at hocc
  refine ⟨hrep, fun g ↦ ?_, fun g hg ↦ ?_, fun d ↦ ?_, hrc.trans h.loaded⟩
  · rw [hc.manifests, hrows, hup]
    split
    · rfl
    · exact h.lists g
  · rw [hup] at hg
    split at hg
    · rename_i hgf
      exact hgf ▸ htext hg
    · exact h.text g hg
  · have ho := hocc d
    rw [hc.counts, h.counts]
    omega

theorem admits_indexName (h : Parallel self seen held s n) : n.database.Admits indexName [] := by
  have hnone : s.fields.manifest.tryGet indexName = none := by
    cases hm : s.fields.manifest.tryGet indexName with
    | none => rfl
    | some l => exact absurd rfl (h.rep.manifest.name indexName (by rw [hm]; rfl)).2
  refine ⟨by decide, takesAll_nil _, [], ?_, n.database.fits_nil _⟩
  rw [h.listOf, hnone]
  rfl

theorem stay (h : Parallel self seen held s n) (hrep : Rep self.store seen none held' s')
    (hm : ∀ f, s'.fields.manifest.tryGet f = s.fields.manifest.tryGet f)
    (hdb : n'.database = n.database)
    (hrc : n'.store.fields.refcount = n.store.fields.refcount) :
    Parallel self seen held' s' n' := by
  refine ⟨hrep, fun f ↦ ?_, fun f hf ↦ ?_, fun d ↦ ?_, hrc.trans h.loaded⟩
  · rw [hdb, hm]
    exact h.lists f
  · exact h.text f (hm f ▸ hf)
  · rw [hdb, h.counts, Manifest.occurrences_congr hm]

end Parallel

variable {input : IngestInput} {op : Op}

/-- An ingest without chunks is refused only for its file id. -/
theorem exec_ingest_nil (fileId : String) (h : Rep self.store seen none held s)
    (hnil : (input.stream self.crates).chunks = []) (he : (input.stream self.crates).error = none) :
    outcome (fun _ _ ↦ True) (fun _ _ ↦ fileId = indexName ∨ fileId = "")
      (self.store.exec (.ingest fileId input) s).1
      (self.store.exec (.ingest fileId input) s).2 := by
  refine quietly_eval ?_
  rw [ChunkStore.perform, ChunkStore.flat_map, self.store.ingestInput_eq]
  refine quietly_map ?_
  have hstream : self.store.ingestStream fileId (input.stream self.store.crates)
      = self.store.commit ChunkStore.IngestSession.new fileId := by
    rw [ChunkStore.ingestStream, Stream.consume,
      show (input.stream self.store.crates).chunks = [] from hnil,
      show (input.stream self.store.crates).error = none from he]
    rfl
  rw [hstream]
  have hrep : Rep self.store seen none (fun d ↦ held d + ([] : List String).count d) s :=
    h.congr fun _ ↦ rfl
  refine quietly_mono (precisely_commit hrep (fun d hd ↦ absurd hd List.not_mem_nil)
    fun p hp ↦ by cases hp).quietly (fun _ _ _ ↦ trivial) ?_
  rintro e s' (hname | ⟨hempty, -⟩)
  · exact Or.inl hname
  · exact Or.inr hempty

theorem exec_deleteFile (fileId : String) (h : Rep self.store seen none held s) :
    outcome (fun reply s' ↦ reply = .done ∧ (s.fields.manifest.tryGet fileId).isSome ∧
        Rep self.store seen none held s' ∧
          s.fields.manifest.Updated s'.fields.manifest fileId none)
      (fun _ s' ↦ s.fields.manifest.tryGet fileId = none ∧ Rep self.store seen none held s' ∧
        s.fields.manifest.Updated s'.fields.manifest fileId none)
      (self.store.exec (.delete fileId) s).1 (self.store.exec (.delete fileId) s).2 := by
  refine quietly_eval ?_
  rw [ChunkStore.perform, ChunkStore.flat_map]
  refine quietly_map (quietly_mono (precisely_deleteFile h fun p hp ↦ by cases hp).quietly ?_ ?_)
  · rintro _ s' ⟨hsome, hr, hm⟩
    exact ⟨rfl, hsome, hr, hm ▸ s.fields.manifest.updated_remove fileId⟩
  · rintro e s' ⟨hnone, -, hr, hm⟩
    exact ⟨hnone, hr, hm ▸ s.fields.manifest.updated_remove fileId⟩

private theorem entries_of_nil (hnil : (input.stream self.crates).chunks = []) :
    (input.stream self.crates).entries self.crates = [] := by
  rw [Stream.entries, hnil]
  rfl

/-- **An ingest without chunks** on which both return, or both throw. -/
theorem parallel_ingest (h : Parallel self seen held s n) (hf : fileId ≠ "")
    (hnil : (input.stream self.crates).chunks = [])
    (hr : SameReply (self.store.exec (.ingest fileId input) s).1
      (self.exec (.ingest fileId input) n).1) :
    (∃ held', Parallel self seen held' (self.store.exec (.ingest fileId input) s).2
      (self.exec (.ingest fileId input) n).2) ∧ self.Chunkless (.ingest fileId input) := by
  have hs : ∀ chunk ∈ (input.stream self.crates).chunks, seen chunk := fun c hc ↦ by
    rw [hnil] at hc
    exact absurd hc List.not_mem_nil
  have hj := ChunkStore.exec_spec (.ingest fileId input) h.rep hs fun p hp ↦ by cases hp
  have hp := self.exec_ingest (n := n) fileId input
  have hname : (input.stream self.crates).error = none → _ := exec_ingest_nil fileId h.rep hnil
  rcases hxj : self.store.exec (.ingest fileId input) s with ⟨r, s'⟩
  rcases hxp : self.exec (.ingest fileId input) n with ⟨r', n'⟩
  rw [hxj] at hj hr hname
  rw [hxp] at hp hr
  cases r with
  | ok reply =>
    cases r' with
    | error e => exact hr.elim
    | ok reply' =>
      obtain ⟨hrep, -, -, hindex, hup⟩ := hj
      obtain ⟨-, haside, -, ⟨-, htext⟩, -, old, hold, hc⟩ := hp
      rw [Stream.map_fst_entries] at hc
      refine ⟨⟨held, h.move hrep hup hold (fun g ↦ ?_) (fun _ ↦ htext) hc haside.refcount⟩,
        hnil, Or.inr ⟨hindex, htext⟩⟩
      rw [Table.find_set]
      split <;> rfl
  | error e =>
    cases r' with
    | ok reply => exact hr.elim
    | error e' =>
      obtain ⟨haside, hrefused⟩ := hp
      rw [Node.Refused, entries_of_nil hnil] at hrefused
      obtain ⟨hdb, hwhy⟩ := hrefused.resolve_right fun hc ↦ hf hc.1
      have herror : (input.stream self.crates).error ≠ none := by
        intro he
        -- the backend refuses only the name of its index, and the rows do not
        obtain rfl := (hname he).resolve_right hf
        exact hwhy.resolve_left (fun herr ↦ herr he) h.admits_indexName
      have hboth : (∃ held', Rep self.store seen none held' s') ∧
          ChunkStore.Threw s (.ingest fileId input) e s' :=
        hj.resolve_left fun hc ↦ herror hc.2.1
      obtain ⟨⟨held', hrep⟩, hm⟩ := hboth
      have hm : s'.fields.manifest = s.fields.manifest := hm
      exact ⟨⟨held', h.stay hrep (fun f ↦ by rw [hm]) hdb haside.refcount⟩, hnil, Or.inl herror⟩

theorem parallel_delete (fileId : String) (h : Parallel self seen held s n)
    (hr : SameReply (self.store.exec (.delete fileId) s).1 (self.exec (.delete fileId) n).1) :
    ∃ held', Parallel self seen held' (self.store.exec (.delete fileId) s).2
      (self.exec (.delete fileId) n).2 := by
  have hj := exec_deleteFile fileId h.rep
  have hp := self.exec_delete (n := n) fileId
  rcases hxj : self.store.exec (.delete fileId) s with ⟨r, s'⟩
  rcases hxp : self.exec (.delete fileId) n with ⟨r', n'⟩
  rw [hxj] at hj hr
  rw [hxp] at hp hr
  cases r with
  | ok reply =>
    cases r' with
    | error e => exact hr.elim
    | ok reply' =>
      obtain ⟨-, -, hrep, hup⟩ := hj
      obtain ⟨-, hk, -, row, old, hrow, hold, hc⟩ := hp
      refine ⟨held, h.move hrep hup ((Database.listOf_of_find hrow).trans hold) (fun g ↦ ?_)
        (fun hnone ↦ by cases hnone) hc hk.2⟩
      rw [Table.find_unset]
      split <;> rfl
  | error e =>
    cases r' with
    | ok reply => exact hr.elim
    | error e' =>
      obtain ⟨hnone, hrep, hup⟩ := hj
      obtain ⟨rfl, -⟩ := hp
      have hm : ∀ f, s'.fields.manifest.tryGet f = s.fields.manifest.tryGet f := fun f ↦ by
        rw [hup]
        split
        · rename_i hff
          rw [hff, hnone]
        · rfl
      exact ⟨held, h.stay hrep hm rfl rfl⟩

theorem exec_read_same (fileId : String) (h : Parallel self seen held s n) :
    (self.store.exec (.read fileId) s).2 = s ∧ (self.exec (.read fileId) n).2 = n := by
  constructor
  · have hspec := ChunkStore.exec_spec (.read fileId) h.rep (fun c hc ↦ absurd hc List.not_mem_nil)
      fun p hp ↦ by cases hp
    rcases hx : self.store.exec (.read fileId) s with ⟨r, s'⟩
    rw [hx] at hspec
    cases r with
    | ok reply => exact hspec.2.1
    | error e => exact (hspec.resolve_left fun hc ↦ hc).2.2.2
  · have hspec := self.exec_read (n := n) fileId
    rcases hx : self.exec (.read fileId) n with ⟨r, n'⟩
    rw [hx] at hspec
    cases r with
    | ok reply => exact hspec.1
    | error e => exact hspec.1

/-! ## Runs without chunks -/

/-- Side by side, and neither store has a chunk. -/
structure Bare (shared : PostgresStore) (held : String → ℕ) (s : State) (n : Node) : Prop where
  parallel : Parallel shared (fun _ ↦ False) held s n
  counts : ∀ d, s.fields.refcount.countOf d = 0
  blobs : ∀ k, n.store.find k = none

namespace Bare

theorem tryGet_eq (h : Bare self held s n) {l : List String}
    (hm : s.fields.manifest.tryGet fileId = some l) : l = [] := by
  refine List.eq_nil_iff_forall_not_mem.mpr fun d hd ↦ ?_
  have hpos := h.parallel.rep.countOf_pos hm hd
  rw [h.counts] at hpos
  exact absurd hpos (Nat.lt_irrefl 0)

private theorem listOf (h : Bare self held s n) (f : String) : n.database.listOf f = .ok [] := by
  rw [h.parallel.listOf]
  cases hm : s.fields.manifest.tryGet f with
  | none => rfl
  | some l =>
    rw [h.tryGet_eq hm]
    rfl

/-- A step that keeps what is held and moves a list without digests. -/
theorem of_updated {o : Option (List String)} (h : Bare self held s n)
    (hpar : ∃ held', Parallel self (fun _ ↦ False) held' s' n')
    (hrep : Rep self.store (fun _ ↦ False) none held s')
    (hup : s.fields.manifest.Updated s'.fields.manifest fileId o) (ho : o.getD [] = [])
    (hb : n'.store.backend = n.store.backend) : Bare self held s' n' := by
  obtain ⟨held', hpar⟩ := hpar
  refine ⟨⟨hrep, hpar.lists, hpar.text, hpar.counts, hpar.loaded⟩, fun d ↦ ?_, fun k ↦ ?_⟩
  · have hocc := hup.occurrences d
    have hc := h.counts d
    rw [ho, List.count_nil] at hocc
    rw [h.parallel.rep.counted] at hc
    rw [hrep.counted]
    omega
  · rw [State.find, hb]
    exact h.blobs k

end Bare

/-- The two sides agree on what they make of a file id that both accept. -/
private theorem bare_ingest (h : Bare self held s n) (hf : fileId ≠ "")
    (hnil : (input.stream self.crates).chunks = [])
    (hc : (input.stream self.crates).error ≠ none ∨ (fileId ≠ indexName ∧ IsText fileId)) :
    SameReply (self.store.exec (.ingest fileId input) s).1
        (self.exec (.ingest fileId input) n).1 ∧
      Bare self held (self.store.exec (.ingest fileId input) s).2
        (self.exec (.ingest fileId input) n).2 := by
  have hs : ∀ chunk ∈ (input.stream self.crates).chunks, (fun _ ↦ False) chunk := fun c hc ↦ by
    rw [hnil] at hc
    exact absurd hc List.not_mem_nil
  have hj := ChunkStore.exec_spec (.ingest fileId input) h.parallel.rep hs fun p hp ↦ by cases hp
  have hp := self.exec_ingest (n := n) fileId input
  have hparallel := parallel_ingest h.parallel hf hnil
  by_cases he : (input.stream self.crates).error = none
  · obtain ⟨hindex, htext⟩ := hc.resolve_left fun herr ↦ herr he
    have hname := exec_ingest_nil fileId h.parallel.rep hnil he
    rcases hxj : self.store.exec (.ingest fileId input) s with ⟨r, s'⟩
    rcases hxp : self.exec (.ingest fileId input) n with ⟨r', n'⟩
    rw [hxj] at hj hname hparallel
    rw [hxp] at hp hparallel
    cases r with
    | error e => exact absurd hname (not_or.mpr ⟨hindex, hf⟩)
    | ok reply =>
      cases r' with
      | error e =>
        rcases hp.2 with ⟨-, herr | hn⟩ | ⟨hempty, -⟩
        · exact absurd he herr
        · rw [entries_of_nil hnil] at hn
          exact absurd ⟨htext, takesAll_nil _, [], h.listOf fileId, n.database.fits_nil _⟩ hn
        · exact absurd hempty hf
      | ok reply' =>
        obtain ⟨hrep, hreply, -, -, hup⟩ := hj
        have hsame : SameReply (.ok reply) (.ok reply') := hreply.trans hp.1.symm
        refine ⟨hsame, h.of_updated (hparallel hsame).1 hrep hup ?_ (hp.2.1.backend hnil)⟩
        rw [show (input.stream self.store.crates).chunks = [] from hnil]
        rfl
  · obtain ⟨e, he⟩ := Option.ne_none_iff_exists'.mp he
    have hxj : self.store.exec (.ingest fileId input) s = (.error e, s) := by
      have hfail : input.stream self.store.crates = .fail e := by
        rw [Stream.fail, ← he, ← hnil]
        rfl
      rw [ChunkStore.exec, ChunkStore.perform, self.store.ingestInput_eq, hfail,
        self.store.ingestStream_fail]
      rfl
    rcases hxp : self.exec (.ingest fileId input) n with ⟨r', n'⟩
    rw [hxj] at hparallel ⊢
    rw [hxp] at hp hparallel
    cases r' with
    | ok reply =>
      have hok := hp.2.2.error
      rw [he] at hok
      cases hok
    | error e' =>
      obtain ⟨held', hpar⟩ := (hparallel trivial).1
      refine ⟨trivial, ⟨h.parallel.rep, hpar.lists, hpar.text, hpar.counts, hpar.loaded⟩, h.counts,
        fun k ↦ ?_⟩
      rw [State.find, hp.1.backend hnil]
      exact h.blobs k

private theorem bare_delete (h : Bare self held s n) :
    SameReply (self.store.exec (.delete fileId) s).1 (self.exec (.delete fileId) n).1 ∧
      Bare self held (self.store.exec (.delete fileId) s).2 (self.exec (.delete fileId) n).2 := by
  have hj := exec_deleteFile fileId h.parallel.rep
  have hp := self.exec_delete (n := n) fileId
  have hparallel := parallel_delete fileId h.parallel
  rcases hxj : self.store.exec (.delete fileId) s with ⟨r, s'⟩
  rcases hxp : self.exec (.delete fileId) n with ⟨r', n'⟩
  rw [hxj] at hj hparallel
  rw [hxp] at hp hparallel
  cases r with
  | ok reply =>
    obtain ⟨hreply, hsome, hrep, hup⟩ := hj
    cases r' with
    | ok reply' =>
      have hsame : SameReply (.ok reply) (.ok reply') := hreply.trans hp.1.symm
      exact ⟨hsame, h.of_updated (hparallel hsame) hrep hup rfl hp.2.1.1⟩
    | error e =>
      obtain ⟨l, hl⟩ := Option.isSome_iff_exists.mp hsome
      obtain ⟨row, hrow, hd⟩ := h.parallel.row hl
      refine absurd ⟨h.parallel.text fileId hsome, row, l, hrow, hd, ?_⟩ hp.2
      rw [h.tryGet_eq hl]
      exact n.database.fits_nil []
  | error e =>
    obtain ⟨hnone, hrep, hup⟩ := hj
    cases r' with
    | ok reply' =>
      obtain ⟨-, -, -, row, old, hrow, hold, -⟩ := hp
      rw [h.parallel.tryGet hrow hold] at hnone
      cases hnone
    | error e' =>
      exact ⟨trivial, h.of_updated (hparallel trivial) hrep hup rfl (by rw [hp.1])⟩

private theorem bare_read (h : Bare self held s n) :
    SameReply (self.store.exec (.read fileId) s).1 (self.exec (.read fileId) n).1 ∧
      Bare self held (self.store.exec (.read fileId) s).2 (self.exec (.read fileId) n).2 := by
  have hj := ChunkStore.exec_read h.parallel.rep fileId
  have hp := self.exec_read (n := n) fileId
  have hstate : (self.store.exec (.read fileId) s).2 = s ∧ (self.exec (.read fileId) n).2 = n :=
    exec_read_same fileId h.parallel
  rw [hstate.1, hstate.2]
  refine ⟨?_, h⟩
  rw [hj]
  rcases hxp : self.exec (.read fileId) n with ⟨r', n'⟩
  rw [hxp] at hp
  cases hm : s.fields.manifest.tryGet fileId with
  | some l =>
    obtain ⟨row, hrow, hd⟩ := h.parallel.row hm
    obtain rfl := h.tryGet_eq hm
    cases r' with
    | ok reply =>
      obtain ⟨-, -, row', digests, hrow', hd', hbytes⟩ := hp
      rw [hrow] at hrow'
      cases hrow'
      rw [hd] at hd'
      cases hd'
      exact (hbytes rfl).symm
    | error e => exact absurd ⟨h.parallel.text fileId (by rw [hm]; rfl), row, hrow, hd⟩ hp.2
  | none =>
    cases r' with
    | ok reply =>
      obtain ⟨-, -, row, digests, hrow, hd, -⟩ := hp
      rw [h.parallel.tryGet hrow hd] at hm
      cases hm
    | error e => trivial

theorem bare_exec (h : Bare self held s n) (hop : Ordinary op) (hless : self.Chunkless op) :
    SameReply (self.store.exec op s).1 (self.exec op n).1 ∧
      Bare self held (self.store.exec op s).2 (self.exec op n).2 := by
  cases op with
  | ingest fileId input => exact bare_ingest h hop hless.1 hless.2
  | delete fileId => exact bare_delete h
  | read fileId => exact bare_read h
  | readChunk | fsck | stats | chunkRefcount | reopen => exact hop.elim

/-- **A run without chunks.** -/
theorem bare_execAll {ops : List Op} (h : Bare self held s n) (hops : ∀ op ∈ ops, Ordinary op)
    (hless : ∀ op ∈ ops, self.Chunkless op) :
    List.Forall₂ SameReply (self.store.execAll ops s).1 (self.execAll ops n).1 ∧
      Bare self held (self.store.execAll ops s).2 (self.execAll ops n).2 := by
  induction ops generalizing s n with
  | nil => exact ⟨.nil, h⟩
  | cons op ops ih =>
    obtain ⟨hreply, hbare⟩ := bare_exec h (hops op List.mem_cons_self) (hless op List.mem_cons_self)
    obtain ⟨hreplies, hbare'⟩ := ih hbare (fun o ho ↦ hops o (List.mem_cons_of_mem op ho))
      fun o ho ↦ hless o (List.mem_cons_of_mem op ho)
    exact ⟨.cons hreply hreplies, hbare'⟩

/-- A run without chunks with the same replies has only file ids that both stores accept. -/
theorem chunkless_of_sameReplies {ops : List Op} (h : Bare self held s n)
    (hops : ∀ op ∈ ops, Ordinary op) (hnil : ∀ op ∈ ops, self.store.chunksOf op = [])
    (hr : List.Forall₂ SameReply (self.store.execAll ops s).1 (self.execAll ops n).1) :
    ∀ op ∈ ops, self.Chunkless op := by
  induction ops generalizing s n with
  | nil => exact fun op hop ↦ absurd hop List.not_mem_nil
  | cons op ops ih =>
    rw [ChunkStore.execAll, PostgresStore.execAll, List.forall₂_cons] at hr
    have hop := hops op List.mem_cons_self
    have hless : self.Chunkless op := by
      cases op with
      | ingest fileId input =>
        exact (parallel_ingest h.parallel hop (hnil _ List.mem_cons_self) hr.1).2
      | delete | read => trivial
      | readChunk | fsck | stats | chunkRefcount | reopen => exact hop.elim
    intro o ho
    rcases List.mem_cons.mp ho with rfl | ho
    · exact hless
    · exact ih (bare_exec h hop hless).2 (fun o ho ↦ hops o (List.mem_cons_of_mem op ho))
        (fun o ho ↦ hnil o (List.mem_cons_of_mem op ho)) hr.2 o ho

end Steps

/-! ## Runs from empty metadata -/

section Starts

variable (self : PostgresStore) (lists : Bool)

theorem exec_reopen_start : self.exec .reopen (PostgresStore.start lists)
    = (.ok .done, ⟨⟨⟨∅, lists⟩, .empty⟩, .empty⟩) := rfl

theorem parallel_start (seen : Bytes → Prop) :
    Parallel self seen (fun _ ↦ 0) (self.store.exec .reopen (.empty lists)).2
      (self.exec .reopen (PostgresStore.start lists)).2 := by
  obtain ⟨-, hrep, hm, -⟩ := ChunkStore.exec_reopen (ChunkStore.rep_empty self.store seen lists)
  have hnone : ∀ f, (self.store.exec .reopen (.empty lists)).2.fields.manifest.tryGet f = none :=
    hm
  rw [exec_reopen_start]
  refine ⟨hrep, fun f ↦ ?_, fun f hf ↦ ?_, fun d ↦ ?_, rfl⟩
  · rw [hnone]
    rfl
  · rw [hnone] at hf
    cases hf
  · have hocc : (self.store.exec .reopen (.empty lists)).2.fields.manifest.occurrences d = 0 :=
      Manifest.occurrences_congr hm d
    rw [hocc]
    rfl

theorem bare_start : Bare self (fun _ ↦ 0) (self.store.exec .reopen (.empty lists)).2
    (self.exec .reopen (PostgresStore.start lists)).2 := by
  refine ⟨parallel_start self lists _, fun d ↦ ?_, fun k ↦ ?_⟩
  · have hpar := parallel_start self lists fun _ ↦ False
    have hc := hpar.counts d
    rw [exec_reopen_start] at hc
    rw [hpar.rep.counted, Nat.add_zero]
    exact Int.ofNat.inj hc.symm
  · rw [exec_reopen_start]
    rfl

end Starts

section Ends

variable {self : PostgresStore} {held : String → ℕ} {s : State} {n : Node}

theorem Bare.entry (h : Bare self held s n) (d : String) :
    s.fields.refcount.counts.find d = none := by
  cases hf : s.fields.refcount.counts.find d with
  | none => rfl
  | some r =>
    have hpos := h.parallel.rep.refcount.countOf_pos hf
    rw [h.counts] at hpos
    exact absurd hpos (Nat.lt_irrefl 0)

theorem Bare.rows (h : Bare self held s n) : n.database.refcounts.pairs = [] := by
  refine List.eq_nil_iff_forall_not_mem.mpr fun e he ↦ ?_
  have hrow := Database.countOf_of_find (Table.mem_pairs.mp he)
  have hc := h.counts e.1
  rw [h.parallel.rep.counted] at hc
  rw [h.parallel.counts] at hrow
  have hpos := e.2.count_check
  omega

theorem ChunkStore.exec_stats (store : ChunkStore) (s : State) :
    store.exec .stats s = (.ok (.stats s.fields.stats), s) := rfl

theorem ChunkStore.exec_chunkRefcount (store : ChunkStore) (s : State) (d : String) :
    store.exec (.chunkRefcount d) s = (.ok (.count (s.fields.refcount.get d)), s) := rfl

theorem PostgresStore.exec_stats (self : PostgresStore)
    (hrows : n.database.refcounts.pairs = []) :
    (self.exec .stats n).1 = .ok (.stats ⟨0, 0, 0⟩) := by
  have hsums : Query.selectSums.run n.database = .ok (⟨0, by decide⟩, ⟨0, by decide⟩) := by
    rw [Query.run, hrows]
    rfl
  have hspec : solo self.pg (self.perform .stats) (fun reply _ ↦ reply = .stats ⟨0, 0, 0⟩)
      (fun _ _ ↦ False) n := by
    refine solo_map (solo_bind (solo_query (fun sums hrun ↦ ?_) fun e hrun ↦ ?_))
    · rw [hsums] at hrun
      cases hrun
      exact solo_pure rfl
    · rw [hsums] at hrun
      cases hrun
  have hend := solo_eval hspec
  rw [PostgresStore.exec]
  cases hr : ((nodeHandler self.pg).eval (self.perform .stats).run n).1 with
  | ok reply =>
    rw [hr] at hend
    exact congrArg Except.ok hend
  | error e =>
    rw [hr] at hend
    exact hend.elim

theorem PostgresStore.exec_chunkRefcount (self : PostgresStore) (n : Node) (d : String) :
    self.exec (.chunkRefcount d) n = (.ok (.count (n.store.fields.refcount.get d)), n) := rfl

theorem exec_stats_of_bare (h : Bare self held s n) :
    ∃ st st', (self.store.exec .stats s).1 = .ok (.stats st) ∧
      (self.exec .stats n).1 = .ok (.stats st') ∧ st.totalBytes = st'.totalBytes ∧
        st.storedBytes = st'.storedBytes := by
  have hacc := h.parallel.rep.accounted rfl fun a b ha ↦ ha.elim
  have hzero : ∀ g : ChunkRef → ℕ, s.fields.refcount.counts.sumBy g = 0 := fun g ↦
    (Table.sumBy_congr g h.entry : _ = (∅ : Table String ChunkRef).sumBy g)
  refine ⟨_, _, congrArg Prod.fst (self.store.exec_stats s), self.exec_stats h.rows, ?_, ?_⟩
  · rw [hacc.total, hzero]
  · rw [hacc.stored, hzero]

end Ends

namespace PostgresStore

/-- **The two implementations agree** on exactly the runs that store no chunk, and of those on the
ones in which no file is called like the manifest index or has a name the database refuses. -/
theorem agrees_iff (self : PostgresStore) (lists : Bool) (ops : List Op)
    (hops : ∀ op ∈ ops, Ordinary op) :
    SameOutcome self (self.store.run lists ops) (self.run lists ops)
      ↔ ∀ op ∈ ops, self.Chunkless op := by
  constructor
  · intro h
    have hstart := bare_start self lists
    refine chunkless_of_sameReplies hstart hops (fun op hop ↦ ?_) h.replies
    by_contra hne
    -- the blob of a chunk is on both sides, and with it a count, which the database side has not
    obtain ⟨chunk, hchunk⟩ := List.exists_mem_of_ne_nil _ hne
    obtain ⟨hretains, hstored⟩ := retains_execAll (n := (self.exec .reopen (start lists)).2) hops
    have hcounted : BlobsCounted (self.store.run lists ops).2 :=
      blobsCounted_execAll (fun d hd hblob ↦ hstart.parallel.rep.blobs.present d hd ▸ hblob) hops
    have hblob := hstored op hop chunk hchunk
    have hd := isChunkDigest_digestHex self.crates.sha256 chunk
    obtain ⟨r, hr⟩ := Option.isSome_iff_exists.mp (hcounted _ hd (h.blobs _ hd ▸ hblob))
    have hget := h.counts (digestHex self.crates.sha256 chunk)
    rw [ChunkStore.exec_chunkRefcount, exec_chunkRefcount,
      show (self.run lists ops).2.store.fields.refcount = .new from hretains.refcount,
      RefCount.get, hr] at hget
    cases hget
  · intro hless
    obtain ⟨hreplies, hbare⟩ := bare_execAll (bare_start self lists) hops hless
    refine ⟨hreplies, fun d hd ↦ ?_, exec_stats_of_bare hbare, fun d ↦ ?_⟩
    · have hp := hbare.parallel.rep.blobs.present d hd
      rw [hbare.entry, Option.isSome_none, Option.isSome_eq_false_iff,
        Option.isNone_iff_eq_none] at hp
      exact hp.trans (hbare.blobs d).symm
    · rw [ChunkStore.exec_chunkRefcount, exec_chunkRefcount, RefCount.get,
        show (self.store.run lists ops).2.fields.refcount.counts.find d = none from hbare.entry d,
        show (self.run lists ops).2.store.fields.refcount = .new from hbare.parallel.loaded]
      rfl

/-- Files without bytes have no chunks. -/
theorem agrees_iff_empty :
    SameOutcome small
      (small.store.run true [.ingest "f" (.bytes []), .read "f", .delete "f"])
      (small.run true [.ingest "f" (.bytes []), .read "f", .delete "f"]) :=
  (agrees_iff small true [.ingest "f" (.bytes []), .read "f", .delete "f"] fun op hop ↦ by
    simp only [List.mem_cons, List.not_mem_nil, or_false] at hop
    rcases hop with rfl | rfl | rfl
    · exact fun h ↦ absurd h (by decide)
    · trivial
    · trivial).mpr fun op hop ↦ by
      simp only [List.mem_cons, List.not_mem_nil, or_false] at hop
      rcases hop with rfl | rfl | rfl
      · exact ⟨by decide +kernel, Or.inr ⟨by decide, by decide⟩⟩
      · trivial
      · trivial

/-- The last file of a chunk cannot be deleted from the database: its count may not reach zero. -/
theorem disagrees_on_delete : ¬∀ (self : PostgresStore) (lists : Bool) (ops : List Op),
    (∀ op ∈ ops, Ordinary op) →
      SameOutcome self (self.store.run lists ops) (self.run lists ops) := by
  intro h
  have hreplies := (h small true [.ingest "f" (.bytes [0x61]), .delete "f"] fun op hop ↦ by
    simp only [List.mem_cons, List.not_mem_nil, or_false] at hop
    rcases hop with rfl | rfl
    · exact fun h ↦ absurd h (by decide)
    · trivial).replies
  have hok : (small.store.run true [.ingest "f" (.bytes [0x61]), .delete "f"]).1.map Except.isOk
      = [true, true] := by decide +kernel
  have hthrows : (small.run true [.ingest "f" (.bytes [0x61]), .delete "f"]).1.map Except.isOk
      = [true, false] := by decide +kernel
  have hsame : ∀ {l l' : List (Except ChunkStoreError Reply)}, List.Forall₂ SameReply l l' →
      l.map Except.isOk = l'.map Except.isOk := by
    intro l l' hl
    induction hl with
    | nil => rfl
    | @cons a b _ _ hab _ ih =>
      rw [List.map_cons, List.map_cons, ih]
      cases a <;> cases b
      · rfl
      · exact hab.elim
      · exact hab.elim
      · rfl
  rw [hsame hreplies, hthrows] at hok
  cases hok

end PostgresStore

end Chunkstore

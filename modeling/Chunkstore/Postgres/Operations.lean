import Chunkstore.Exact.Operations
import Chunkstore.Postgres.Store

/-!
# Operations on a shared database, one node at work

What ingest, delete, read and opening do to the rows, from any state. An ingest that has committed
may still fail: the file id is checked after the transaction, by the manifest in memory.

## Main definitions

* `Database.Admits`: the transaction of an ingest commits.
* `Database.Loadable`: every row can be loaded, which is when opening succeeds.
-/

open Effects Program

namespace Chunkstore

open PostgresMetadata (Committed TakesAll takesAll_nil)

/-! ## What the rows allow -/

namespace Database

/-- The digest list an ingest or a delete of a file finds: none when there is no row. -/
def listOf (db : Database) (fileId : String) : Except String (List String) :=
  match db.manifests.find fileId with
  | some row => row.digests
  | none => .ok []

/-- Giving up `old` for `new` leaves no digest of `old` without a reference. -/
def Fits (db : Database) (new old : List String) : Prop :=
  ∀ d ∈ old, IsText d ∧ (old.count d : ℤ) < db.countOf d + new.count d

instance (db : Database) (new old : List String) : Decidable (db.Fits new old) :=
  inferInstanceAs (Decidable (∀ d ∈ old, _))

/-- The transaction that replaces the list of a file commits; `new` has the new digests with their
sizes. -/
def Admits (db : Database) (fileId : String) (new : List (String × ℕ)) : Prop :=
  IsText fileId ∧ TakesAll db new ∧
    ∃ old, db.listOf fileId = .ok old ∧ db.Fits (new.map Prod.fst) old

/-- Every row can be loaded. -/
def Loadable (db : Database) : Prop :=
  ∀ fileId row, db.manifests.find fileId = some row →
    fileId ≠ "" ∧ ∃ digests, row.digests = .ok digests

/-- Both tables have the same rows. -/
def SameRows (db db' : Database) : Prop :=
  (∀ fileId, db'.manifests.find fileId = db.manifests.find fileId) ∧
    ∀ digest, db'.refcounts.find digest = db.refcounts.find digest

theorem SameRows.refl (db : Database) : db.SameRows db := ⟨fun _ ↦ rfl, fun _ ↦ rfl⟩

variable {db : Database} {fileId : String}

theorem listOf_of_find {row : ManifestRow} (h : db.manifests.find fileId = some row) :
    db.listOf fileId = row.digests := by rw [listOf, h]

theorem listOf_of_find_none (h : db.manifests.find fileId = none) :
    db.listOf fileId = .ok [] := by rw [listOf, h]

theorem fits_nil (db : Database) (new : List String) : db.Fits new [] :=
  fun _ hd ↦ absurd hd List.not_mem_nil

end Database

/-! ## Operations -/

section Operations

variable {self : PostgresStore} {n : Node} {fileId : String} {digests : List String}

theorem solo_manifestDigests {Q : Option (List String) → Node → Prop}
    {R : ChunkStoreError → Node → Prop}
    (hnone : IsText fileId → n.database.manifests.find fileId = none → Q none n)
    (hsome : ∀ row digests, IsText fileId → n.database.manifests.find fileId = some row →
      row.digests = .ok digests → Q (some digests) n)
    (hR : ∀ e, ¬IsText fileId ∨ (∀ digests, n.database.listOf fileId ≠ .ok digests) → R e n) :
    solo self.pg (self.pg.manifestDigests fileId) Q R n := by
  refine solo_bind (solo_query (fun o hrun ↦ ?_) fun e hrun ↦ ?_)
  · by_cases hf : IsText fileId
    · rw [Query.run, textParam_of_isText hf] at hrun
      cases hrun
      cases hfind : n.database.manifests.find fileId with
      | none => exact solo_pure (hnone hf hfind)
      | some row =>
        refine solo_bind (solo_ofExcept (fun digests hd ↦ ?_) fun e he ↦ ?_)
        · exact solo_pure (hsome row digests hf hfind (jsonDigests_eq_ok.mp hd))
        · refine hR _ (Or.inr fun ds hds ↦ ?_)
          rw [Database.listOf_of_find hfind, ← jsonDigests_eq_ok] at hds
          cases hds.symm.trans he
    · rw [Query.run, run_of_not_isText hf] at hrun
      cases hrun
  · refine hR _ (Or.inl fun hf ↦ ?_)
    rw [Query.run, textParam_of_isText hf] at hrun
    cases hrun

/-- The node after a step that kept its backend and its counts. -/
def Node.Kept (n n' : Node) : Prop :=
  n'.store.backend = n.store.backend ∧ n'.store.fields.refcount = n.store.fields.refcount

/-- The list of a file has been replaced, in a transaction; `new` has the new digests with their
sizes. -/
def Node.Replaced (n n' : Node) (fileId : String) (new : List (String × ℕ)) (fileBytes : ℕ) :
    Prop :=
  TakesAll n.database new ∧ ∃ old, n.database.listOf fileId = .ok old ∧
    Committed (n.database.manifests.set fileId ⟨.ok (new.map Prod.fst), .ofU64 fileBytes⟩)
      (new.map Prod.fst) old n.database n'.database

/-- What a commit that returns has done. -/
def Node.Returned (n n' : Node) (fileId : String) (new : List (String × ℕ)) (fileBytes : ℕ) :
    Prop :=
  n.Kept n' ∧ fileId ≠ "" ∧ IsText fileId ∧ n.Replaced n' fileId new fileBytes

/-- What a commit that throws has done: nothing, unless it was for the empty file id. -/
def Node.Threw (n n' : Node) (fileId : String) (new : List (String × ℕ)) (fileBytes : ℕ) : Prop :=
  n.Kept n' ∧ ((n'.database = n.database ∧ ¬n.database.Admits fileId new) ∨
    (fileId = "" ∧ n.Replaced n' fileId new fileBytes))

private theorem solo_replace {session : ChunkStore.IngestSession} {old : Option (List String)}
    (hl : session.digests.length = session.sizes.length)
    (ho : n.database.listOf fileId = .ok (old.getD [])) :
    solo self.pg (do
        let gc ← PostgresStore.transaction
          (.commitIngest fileId session.digests session.fileBytes session.sizes old)
        own (PostgresStore.unlinkEach gc)
        own (locked .manifest
          (fieldOrThrow (.manifestInsert fileId session.digests session.fileBytes)))
        return session.digests)
      (fun ds n' ↦ ds = session.digests ∧
        n.Returned n' fileId (session.digests.zip session.sizes) session.fileBytes)
      (fun _ n' ↦ n.Threw n' fileId (session.digests.zip session.sizes) session.fileBytes) n := by
  refine solo_bind (solo_transaction (fun gc db hx ↦ ?_) fun e db hx ↦
    ⟨⟨rfl, rfl⟩, Or.inl ⟨rfl, ?_⟩⟩)
  · obtain ⟨rfl, hf, htakes, hc⟩ := PostgresMetadata.commitIngest_eq_ok hx
    have hreplaced : n.Replaced ⟨n.store, db⟩ fileId (session.digests.zip session.sizes)
        session.fileBytes := by
      refine ⟨htakes, old.getD [], ho, ?_⟩
      rw [List.map_fst_zip hl.le]
      exact hc
    refine solo_bind (solo_own (quietly_pure ?_))
    refine solo_bind (solo_own ?_)
    rw [flat_locked]
    -- the manifest in memory refuses the empty file id, after the transaction
    by_cases hempty : fileId = ""
    · subst hempty
      refine quietly_fieldOrThrow (fun u hok ↦ by cases hok) fun e _ ↦ ?_
      exact ⟨⟨rfl, rfl⟩, Or.inr ⟨rfl, hreplaced⟩⟩
    · refine quietly_fieldOrThrow (fun u _ ↦ solo_pure ⟨rfl, ⟨rfl, ?_⟩, hempty, hf, hreplaced⟩)
        fun e herr ↦ ?_
      · rw [FieldAccess.run, Manifest.insert_eq_ok hempty]
        rfl
      · rw [FieldAccess.run, Manifest.insert_eq_ok hempty] at herr
        cases herr
  · rintro ⟨hf, htakes, old', hold, hfits⟩
    rw [ho] at hold
    cases hold
    rw [List.map_fst_zip hl.le] at hfits
    obtain ⟨db', hx'⟩ := PostgresMetadata.execSql_commitIngest self.pg session.fileBytes hl
      hf htakes hfits
    rw [PostgresMetadata.body, hx'] at hx
    cases hx

/-- **Commit.** It returns after a committed transaction and throws when there is none, except for
the empty file id, where it throws after the transaction has been committed. -/
theorem solo_commit {session : ChunkStore.IngestSession}
    (hl : session.digests.length = session.sizes.length) :
    solo self.pg (self.commit session fileId)
      (fun ds n' ↦ ds = session.digests ∧
        n.Returned n' fileId (session.digests.zip session.sizes) session.fileBytes)
      (fun _ n' ↦ n.Threw n' fileId (session.digests.zip session.sizes) session.fileBytes) n := by
  refine solo_bind (solo_manifestDigests (fun hf hfind ↦ ?_) (fun row ds hf hfind hrow ↦ ?_)
    fun e he ↦ ⟨⟨rfl, rfl⟩, Or.inl ⟨rfl, ?_⟩⟩)
  · exact solo_replace hl (Database.listOf_of_find_none hfind)
  · exact solo_replace hl ((Database.listOf_of_find hfind).trans hrow)
  · rintro ⟨hf, -, old, hold, -⟩
    rcases he with he | he
    · exact he hf
    · exact he old hold

/-- The counts in memory stay, and every blob. -/
structure Node.Retains (n n' : Node) : Prop where
  refcount : n'.store.fields.refcount = n.store.fields.refcount
  blobs : ∀ k, (n.store.find k).isSome → (n'.store.find k).isSome

namespace Node.Retains

variable {n₁ n₂ n₃ : Node}

theorem refl (n : Node) : n.Retains n := ⟨rfl, fun _ h ↦ h⟩

theorem trans (h : n₁.Retains n₂) (h' : n₂.Retains n₃) : n₁.Retains n₃ :=
  ⟨h'.refcount.trans h.refcount, fun k hk ↦ h'.blobs k (h.blobs k hk)⟩

theorem of_kept (h : n₁.Kept n₂) : n₁.Retains n₂ :=
  ⟨h.2, fun k hk ↦ by rwa [State.find, h.1]⟩

end Node.Retains

/-- The chunks are stored, and the backend is left alone when there are none. -/
structure Node.Aside (n n' : Node) (crates : Crates) (chunks : List Bytes) : Prop
    extends n.Retains n' where
  backend : chunks = [] → n'.store.backend = n.store.backend
  stored : ∀ chunk ∈ chunks, (n'.store.find (digestHex crates.sha256 chunk)).isSome

/-- The digests of the chunks of a stream, with their sizes. -/
def Stream.entries (crates : Crates) (stream : Stream) : List (String × ℕ) :=
  stream.chunks.map fun chunk ↦ (digestHex crates.sha256 chunk, chunk.length)

theorem Stream.map_fst_entries (crates : Crates) (stream : Stream) :
    (stream.entries crates).map Prod.fst = stream.chunks.map (digestHex crates.sha256) := by
  rw [entries, List.map_map]
  rfl

/-- What an ingest that returns has done. -/
structure Node.Ingested (n n' : Node) (crates : Crates) (fileId : String) (stream : Stream) :
    Prop where
  error : stream.error = none
  name : fileId ≠ "" ∧ IsText fileId
  replaced : n.Replaced n' fileId (stream.entries crates) (stream.chunks.map List.length).sum

/-- What an ingest that throws has done to the rows: nothing, unless it was for the empty file
id. -/
def Node.Refused (n n' : Node) (crates : Crates) (fileId : String) (stream : Stream) : Prop :=
  (n'.database = n.database ∧
    (stream.error ≠ none ∨ ¬n.database.Admits fileId (stream.entries crates))) ∨
  (fileId = "" ∧ stream.error = none ∧
    n.Replaced n' fileId (stream.entries crates) (stream.chunks.map List.length).sum)

private theorem solo_accept {R : ChunkStoreError → Node → Prop} (session : ChunkStore.IngestSession)
    (chunk : Bytes) :
    solo self.pg (self.accept session chunk)
      (fun session' n' ↦ session' = ⟨session.digests ++ [digestHex self.crates.sha256 chunk],
          session.sizes ++ [chunk.length], session.fileBytes + chunk.length⟩ ∧
        n'.database = n.database ∧ n.Retains n' ∧
          (n'.store.find (digestHex self.crates.sha256 chunk)).isSome) R n := by
  refine solo_bind (solo_bind (solo_ofExcept (fun blob _ ↦ solo_own ?_) fun e he ↦ by cases he))
  rw [flat_locked]
  refine quietly_mono quietly_putBlob ?_ fun _ _ h ↦ h
  rintro present s' ⟨-, hf, hother, hself⟩
  refine solo_pure ⟨rfl, rfl, ⟨congrArg _ hf, fun k hk ↦ ?_⟩, by rw [hself]; rfl⟩
  by_cases hkd : k = digestHex self.crates.sha256 chunk
  · rw [hkd, hself]
    rfl
  · rwa [hother k hkd]

/-- **Ingest.** Without the empty file id it throws only when nothing has been committed. -/
theorem solo_ingestStream (stream : Stream) :
    solo self.pg (self.ingestStream fileId stream)
      (fun ds n' ↦ ds = stream.chunks.map (digestHex self.crates.sha256) ∧
        n.Aside n' self.crates stream.chunks ∧ n.Ingested n' self.crates fileId stream)
      (fun _ n' ↦ n.Aside n' self.crates stream.chunks ∧
        n.Refused n' self.crates fileId stream) n := by
  simp only [PostgresStore.ingestStream, Stream.consume, bind_assoc]
  refine solo_bind (solo_mono (solo_foldlM (J := fun l session n₁ ↦
    session.digests ++ l.map (digestHex self.crates.sha256)
        = stream.chunks.map (digestHex self.crates.sha256) ∧
      session.sizes ++ l.map List.length = stream.chunks.map List.length ∧
      session.fileBytes + (l.map List.length).sum = (stream.chunks.map List.length).sum ∧
      n₁.database = n.database ∧ n.Retains n₁ ∧
      (stream.chunks = [] → n₁.store.backend = n.store.backend) ∧
      ∀ d ∈ session.digests, (n₁.store.find d).isSome)
    (R := fun _ _ ↦ False) ?_ stream.chunks ChunkStore.IngestSession.new n
    ⟨rfl, rfl, Nat.zero_add _, rfl, .refl n, fun _ ↦ rfl, fun _ hd ↦ absurd hd List.not_mem_nil⟩)
    ?_ fun _ _ h ↦ h.elim)
  · rintro chunk l session n₁ ⟨hd, hz, hbytes, hdb, hs, hb, hstored⟩
    rw [List.map_cons, List.sum_cons, ← Nat.add_assoc] at hbytes
    refine solo_mono (solo_accept session chunk) ?_ fun _ _ h ↦ h
    rintro _ n₂ ⟨rfl, hdb₂, hs₂, hself⟩
    refine ⟨?_, ?_, hbytes, hdb₂.trans hdb, hs.trans hs₂, fun hnil ↦ ?_, fun d hmem ↦ ?_⟩
    · rw [← hd, List.map_cons, List.append_assoc]
      rfl
    · rw [← hz, List.map_cons, List.append_assoc]
      rfl
    · -- there is a chunk, so the list was not empty
      rw [hnil, List.map_nil, List.append_eq_nil_iff, List.map_eq_nil_iff] at hd
      cases hd.2
    · rcases List.mem_append.mp hmem with hmem | hmem
      · exact hs₂.blobs d (hstored d hmem)
      · rw [List.mem_singleton.mp hmem]
        exact hself
  · rintro session n₁ ⟨hd, hz, hbytes, hdb, hs, hb, hstored⟩
    rw [List.map_nil, List.append_nil] at hd hz
    rw [List.map_nil, List.sum_nil, Nat.add_zero] at hbytes
    have haside : ∀ n', n₁.Kept n' → n.Aside n' self.crates stream.chunks := fun n' hk ↦
      ⟨hs.trans (.of_kept hk), fun hnil ↦ hk.1.trans (hb hnil), fun chunk hmem ↦
        (Node.Retains.of_kept hk).blobs _ (hstored _ (hd ▸ List.mem_map_of_mem hmem))⟩
    cases he : stream.error with
    | some e =>
      exact solo_bind (solo_throw ⟨haside n₁ ⟨rfl, rfl⟩,
        Or.inl ⟨hdb, Or.inl (by rw [he]; exact Option.some_ne_none e)⟩⟩)
    | none =>
      have hentries : session.digests.zip session.sizes = stream.entries self.crates := by
        rw [hd, hz, Stream.entries, List.zip_map']
      have hl : session.digests.length = session.sizes.length := by
        rw [hd, hz, List.length_map, List.length_map]
      refine solo_bind (solo_pure (solo_mono (solo_commit hl) ?_ ?_))
      · rintro _ n' ⟨rfl, hk, hname, htext, hr⟩
        rw [Node.Replaced, hdb, hentries, hbytes] at hr
        exact ⟨hd, haside n' hk, he, ⟨hname, htext⟩, hr⟩
      · rintro e n' ⟨hk, ht⟩
        rw [Node.Replaced, hdb, hentries, hbytes] at ht
        refine ⟨haside n' hk, ?_⟩
        rcases ht with ⟨hdb', ha⟩ | ⟨hempty, hr⟩
        · exact Or.inl ⟨hdb', Or.inr ha⟩
        · exact Or.inr ⟨hempty, he, hr⟩

/-- The transaction of a delete commits. -/
def Database.Drops (db : Database) (fileId : String) : Prop :=
  IsText fileId ∧ ∃ row old, db.manifests.find fileId = some row ∧ row.digests = .ok old ∧
    db.Fits [] old

/-- **Delete** returns after a committed transaction and throws when there is none. -/
theorem solo_deleteFile :
    solo self.pg (self.delete fileId)
      (fun _ n' ↦ n.Kept n' ∧ IsText fileId ∧ ∃ row old,
        n.database.manifests.find fileId = some row ∧ row.digests = .ok old ∧
          Committed (n.database.manifests.unset fileId) [] old n.database n'.database)
      (fun _ n' ↦ n' = n ∧ ¬n.database.Drops fileId) n := by
  refine solo_bind (solo_bind (solo_manifestDigests (fun hf hfind ↦ solo_throw ⟨rfl, ?_⟩)
    (fun row old hf hfind hrow ↦ solo_pure ?_) fun e he ↦ ⟨rfl, ?_⟩))
  · rintro ⟨-, row, old, hrow, -⟩
    rw [hfind] at hrow
    cases hrow
  · refine solo_bind (solo_transaction (fun gc db hx ↦ ?_) fun e db hx ↦ ⟨rfl, ?_⟩)
    · obtain ⟨rfl, -, hc⟩ := PostgresMetadata.commitDelete_eq_ok hx
      refine solo_bind (solo_own (quietly_pure ?_))
      refine solo_bind (solo_own ?_)
      rw [flat_locked]
      exact quietly_field ⟨⟨rfl, rfl⟩, hf, row, old, hfind, hrow, hc⟩
    · rintro ⟨-, row', old', hrow', hold', hfits⟩
      rw [hfind] at hrow'
      cases hrow'
      rw [hrow] at hold'
      cases hold'
      obtain ⟨db', hx'⟩ := PostgresMetadata.execSql_commitDelete self.pg hf
        (fun d hd ↦ ⟨(hfits d hd).1, by simpa using (hfits d hd).2⟩)
      rw [PostgresMetadata.body, hx'] at hx
      cases hx
  · rintro ⟨hf, row, old, hrow, hold, -⟩
    rcases he with he | he
    · exact he hf
    · exact he old ((Database.listOf_of_find hrow).trans hold)

/-- Reading leaves the node as it is; a file without digests reads as nothing. -/
theorem solo_read :
    solo self.pg (self.read fileId)
      (fun data n' ↦ n' = n ∧ IsText fileId ∧ ∃ row digests,
        n.database.manifests.find fileId = some row ∧ row.digests = .ok digests ∧
          (digests = [] → data = []))
      (fun _ n' ↦ n' = n ∧ ¬(IsText fileId ∧ ∃ row,
        n.database.manifests.find fileId = some row ∧ row.digests = .ok [])) n := by
  refine solo_bind (solo_bind (solo_manifestDigests (fun hf hfind ↦ solo_throw ⟨rfl, ?_⟩)
    (fun row digests hf hfind hrow ↦ solo_pure (solo_own ?_)) fun e he ↦ ⟨rfl, ?_⟩))
  · rintro ⟨-, row, hrow, -⟩
    rw [hfind] at hrow
    cases hrow
  · cases digests with
    | nil => exact quietly_pure ⟨rfl, hf, row, [], hfind, hrow, fun _ ↦ rfl⟩
    | cons d digests =>
      have hidle : Makes Call.Idle (flat (ExceptT.mk do
          let r ← self.store.writeChunks (d :: digests) .vec
          return r.1.map fun _ ↦ r.2.out)) := by
        rw [Makes, flat, ExceptT.run_mk, ExceptT.run_mk, translate_bind]
        exact (idle_writeChunks self.store _ _).bind fun _ ↦ trivial
      refine quietly_mono (quietly_of_idle hidle) ?_ ?_
      · rintro data s' rfl
        exact ⟨rfl, hf, row, d :: digests, hfind, hrow, fun h ↦ by cases h⟩
      · rintro e s' rfl
        refine ⟨rfl, ?_⟩
        rintro ⟨-, row', hrow', hold⟩
        rw [hfind] at hrow'
        cases hrow'
        rw [hrow] at hold
        cases hold
  · rintro ⟨hf, row, hrow, hold⟩
    rcases he with he | he
    · exact he hf
    · exact he [] ((Database.listOf_of_find hrow).trans hold)

private theorem solo_loadManifests :
    solo self.pg self.pg.loadManifests (fun _ n' ↦ n' = n ∧ n.database.Loadable)
      (fun _ n' ↦ n' = n ∧ ¬n.database.Loadable) n := by
  refine solo_bind (solo_query (fun rows hrun ↦ ?_) fun e hrun ↦ by cases hrun)
  cases hrun
  -- `l` are the rows still to be loaded
  refine solo_mono
    (solo_foldlM (J := fun l _ n' ↦ n' = n ∧ (∀ e ∈ l, e ∈ n.database.manifests.pairs) ∧
      ∀ e ∈ n.database.manifests.pairs, e ∈ l ∨ (e.1 ≠ "" ∧ ∃ digests, e.2.digests = .ok digests))
    (R := fun _ n' ↦ n' = n ∧ ¬n.database.Loadable) ?_ n.database.manifests.pairs _ n
    ⟨rfl, fun _ he ↦ he, fun _ he ↦ Or.inl he⟩) ?_ fun _ _ h ↦ h
  · rintro ⟨f, row⟩ l m _ ⟨rfl, hmem, hdone⟩
    have hfind := Table.mem_pairs.mp (hmem _ List.mem_cons_self)
    refine solo_bind (solo_ofExcept (fun digests hd ↦ ?_) fun e he ↦ ⟨rfl, fun hl ↦ ?_⟩)
    · have hrow := jsonDigests_eq_ok.mp hd
      refine solo_ofExcept (fun m' hm ↦ ?_) fun e he ↦ ⟨rfl, fun hl ↦ ?_⟩
      · refine ⟨rfl, fun e he ↦ hmem e (List.mem_cons_of_mem _ he), fun e he ↦ ?_⟩
        rcases hdone e he with he | he
        · rcases List.mem_cons.mp he with rfl | he
          · refine Or.inr ⟨fun hempty ↦ ?_, digests, hrow⟩
            dsimp only at hempty
            subst hempty
            cases hm
          · exact Or.inl he
        · exact Or.inr he
      · rw [Manifest.insert_eq_ok (hl f row hfind).1] at he
        cases he
    · obtain ⟨-, ds, hds⟩ := hl f row hfind
      rw [show jsonDigests row.digests = .ok ds from jsonDigests_eq_ok.mpr hds] at he
      cases he
  · rintro m _ ⟨rfl, -, hdone⟩
    refine ⟨rfl, fun f row hfind ↦ ?_⟩
    rcases hdone (f, row) (Table.mem_pairs.mpr hfind) with he | he
    · exact absurd he List.not_mem_nil
    · exact he

/-- **Opening** succeeds exactly when every row can be loaded and the sums fit, and leaves the rows
alone. -/
theorem solo_openPostgres :
    solo self.pg self.openPostgres
      (fun _ n' ↦ n'.database = n.database ∧ n.database.Loadable ∧ n.database.SumsFit)
      (fun _ n' ↦ n'.database = n.database ∧ ¬(n.database.Loadable ∧ n.database.SumsFit)) n := by
  refine solo_bind (solo_mono (solo_loadManifests) ?_ ?_)
  · rintro m _ ⟨rfl, hl⟩
    refine solo_bind (solo_bind (solo_query (fun rows hrun ↦ ?_) fun e hrun ↦ by cases hrun))
    refine solo_pure (solo_bind (solo_own ?_))
    rw [flat_unlocked]
    refine quietly_field (solo_bind (solo_bind (solo_query (fun sums hrun ↦ ?_) fun e hrun ↦ ?_)))
    · refine solo_pure (solo_own ?_)
      rw [flat_locked]
      exact quietly_field ⟨rfl, hl, (Database.run_selectSums _).mp ⟨sums, hrun⟩⟩
    · refine ⟨rfl, fun hfit ↦ ?_⟩
      obtain ⟨sums, hok⟩ := (Database.run_selectSums _).mpr hfit.2
      rw [hok] at hrun
      cases hrun
  · rintro e _ ⟨rfl, hl⟩
    exact ⟨rfl, fun h ↦ hl h.1⟩

end Operations

/-! ## Executions -/

namespace PostgresStore

open ChunkStore (Op Reply IngestInput)

variable {self : PostgresStore} {n : Node} {fileId : String}

theorem exec_ingest (fileId : String) (input : IngestInput) :
    outcome (fun reply n' ↦
        reply = .digests ((input.stream self.crates).chunks.map (digestHex self.crates.sha256)) ∧
          n.Aside n' self.crates (input.stream self.crates).chunks ∧
            n.Ingested n' self.crates fileId (input.stream self.crates))
      (fun _ n' ↦ n.Aside n' self.crates (input.stream self.crates).chunks ∧
        n.Refused n' self.crates fileId (input.stream self.crates))
      (self.exec (.ingest fileId input) n).1 (self.exec (.ingest fileId input) n).2 := by
  refine solo_eval (solo_map (solo_mono (solo_ingestStream _) ?_ fun _ _ h ↦ h))
  rintro ds n' ⟨rfl, h⟩
  exact ⟨rfl, h⟩

theorem exec_delete (fileId : String) :
    outcome (fun reply n' ↦ reply = .done ∧ n.Kept n' ∧ IsText fileId ∧ ∃ row old,
        n.database.manifests.find fileId = some row ∧ row.digests = .ok old ∧
          Committed (n.database.manifests.unset fileId) [] old n.database n'.database)
      (fun _ n' ↦ n' = n ∧ ¬n.database.Drops fileId)
      (self.exec (.delete fileId) n).1 (self.exec (.delete fileId) n).2 :=
  solo_eval (solo_map (solo_mono solo_deleteFile (fun _ _ h ↦ ⟨rfl, h⟩) fun _ _ h ↦ h))

theorem exec_read (fileId : String) :
    outcome (fun reply n' ↦ n' = n ∧ IsText fileId ∧ ∃ row digests,
        n.database.manifests.find fileId = some row ∧ row.digests = .ok digests ∧
          (digests = [] → reply = .bytes []))
      (fun _ n' ↦ n' = n ∧ ¬(IsText fileId ∧ ∃ row,
        n.database.manifests.find fileId = some row ∧ row.digests = .ok []))
      (self.exec (.read fileId) n).1 (self.exec (.read fileId) n).2 := by
  refine solo_eval (solo_map (solo_mono solo_read ?_ fun _ _ h ↦ h))
  rintro data n' ⟨rfl, hf, row, digests, hrow, hd, hdata⟩
  exact ⟨rfl, hf, row, digests, hrow, hd, fun hnil ↦ by rw [hdata hnil]⟩

theorem exec_reopen :
    outcome (fun reply n' ↦ reply = .done ∧ n'.database = n.database ∧ n.database.Loadable ∧
        n.database.SumsFit)
      (fun _ n' ↦ n'.database = n.database ∧ ¬(n.database.Loadable ∧ n.database.SumsFit))
      (self.exec .reopen n).1 (self.exec .reopen n).2 :=
  solo_eval (solo_map (solo_mono solo_openPostgres (fun _ _ h ↦ ⟨rfl, h⟩) fun _ _ h ↦ h))

end PostgresStore

end Chunkstore

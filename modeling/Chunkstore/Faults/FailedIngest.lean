import Chunkstore.Exact.Runs
import Chunkstore.Faults.Operations

/-!
# Ingests that fail

An ingest counts and persists each chunk as it comes, before the file is committed and before its id
is looked at, and no error path takes anything back. So a failure leaves everything but blobs as it
was only if it strikes before the first chunk is counted. That is a property of the input and of the
state the ingest starts in: as soon as a chunk gets counted, the very next backend call may fail.

## Main result

* `ChunkStore.failed_ingest_unchanged_iff`: exactly when every failure of an ingest leaves the
  fields and the persisted records as they were.
-/

open Effects Program Machine

namespace Chunkstore

/-- `s'` is `s` but for blobs: the live manifest, the counts, the statistics and every key of the
persisted metadata are the same. -/
structure Unchanged (s s' : State) : Prop where
  files : ∀ f, s'.fields.manifest.files.find f = s.fields.manifest.files.find f
  bytes : ∀ f, s'.fields.manifest.fileBytes.find f = s.fields.manifest.fileBytes.find f
  refs : ∀ d, s'.fields.refcount.counts.find d = s.fields.refcount.counts.find d
  stats : s'.fields.stats = s.fields.stats
  manifests : ∀ f, s'.find (manifestKey f) = s.find (manifestKey f)
  refcounts : ∀ d, s'.find (refcountKey d) = s.find (refcountKey d)

namespace Unchanged

variable {s s₁ : State} {digest : String}

theorem refl (s : State) : Unchanged s s :=
  ⟨fun _ ↦ rfl, fun _ ↦ rfl, fun _ ↦ rfl, rfl, fun _ ↦ rfl, fun _ ↦ rfl⟩

private theorem put_blob (h : Unchanged s s₁) (hd : isChunkDigest digest = true) (blob : Bytes) :
    Unchanged s (s₁.put digest blob) where
  files := h.files
  bytes := h.bytes
  refs := h.refs
  stats := h.stats
  manifests f := by
    rw [State.find_put_ne (ne_of_isChunkDigest hd (isChunkDigest_manifestKey f)).symm, h.manifests]
  refcounts d := by
    rw [State.find_put_ne (ne_of_isChunkDigest hd (isChunkDigest_refcountKey d)).symm, h.refcounts]

end Unchanged

namespace ChunkStore

variable {store : ChunkStore} {s : State} {chunk : Bytes} {fileId : String}

/-! ## Chunks that are refused -/

/-- A chunk that fails before it is counted: the codec refuses it, or the table of counts does. -/
def Refuses (store : ChunkStore) (s : State) (chunk : Bytes) : Prop :=
  (∀ blob, store.encodeBlob chunk ≠ .ok blob) ∨
    ∀ r, s.fields.refcount.increment (digestHex store.crates.sha256 chunk) chunk.length ≠ .ok r

theorem safely_accept_of_refuses (h : store.Refuses s chunk) (session : IngestSession) :
    safely (Unchanged s) (flat (store.accept session chunk)) (fun _ _ ↦ False) s := by
  have hd := isChunkDigest_digestHex store.crates.sha256 chunk
  simp only [accept, storeChunk, flat_bind, flat_ofExcept, flat_locked, flat_ite, flat_pure]
  refine safely_bind (safely_bind (safely_ofExcept (.refl s) fun blob hb ↦ ?_))
  have hrefused : ∀ r, s.fields.refcount.increment (digestHex store.crates.sha256 chunk)
      chunk.length ≠ .ok r := by
    rcases h with henc | hinc
    · exact absurd hb (henc blob)
    · exact hinc
  have hput : safely (Unchanged s) (putBlob (digestHex store.crates.sha256 chunk) blob)
      (fun _ s' ↦ Unchanged s s' ∧ s'.fields = s.fields) s := by
    refine safely_bind (safely_existsKey (.refl s) ?_)
    split
    · exact safely_pure ⟨.refl s, rfl⟩
    · have hblob := (Unchanged.refl s).put_blob hd blob
      exact safely_bind (safely_put (.refl s) hblob (safely_pure ⟨hblob, rfl⟩))
  refine safely_bind (safely_mono hput ?_)
  rintro present s₁ ⟨h₁, hf₁⟩
  -- the increment is refused, and a refused increment leaves the table alone
  obtain ⟨e, he⟩ : ∃ e, s.fields.refcount.increment (digestHex store.crates.sha256 chunk)
      chunk.length = .error e := by
    cases hinc : s.fields.refcount.increment (digestHex store.crates.sha256 chunk)
      chunk.length with
    | error e => exact ⟨e, rfl⟩
    | ok r => exact absurd hinc (hrefused r)
  refine safely_bind (safely_bind (safely_fieldOrThrow ?_ fun n hn ↦ ?_))
  · rw [FieldAccess.run, hf₁, he]
    dsimp only
    rw [← hf₁]
    exact h₁
  · rw [FieldAccess.run, hf₁, he] at hn
    cases hn

/-- An accepted chunk is counted, and then its record may fail to be put. -/
theorem ends_accept_of_not_refuses (h : ¬store.Refuses s chunk) (session : IngestSession)
    (e : ChunkStoreError) :
    ∃ s' n rc, (faulty True).Ends (flat (store.accept session chunk)).run s (.error e) s' ∧
      s.fields.refcount.increment (digestHex store.crates.sha256 chunk) chunk.length
        = .ok (n, rc) ∧ s'.fields.refcount = rc := by
  obtain ⟨⟨blob, hb⟩, ⟨⟨n, rc⟩, hinc⟩⟩ : (∃ blob, store.encodeBlob chunk = .ok blob) ∧
      ∃ r, s.fields.refcount.increment (digestHex store.crates.sha256 chunk) chunk.length
        = .ok r := by
    rw [Refuses] at h
    push Not at h
    exact h
  have hd := isChunkDigest_digestHex store.crates.sha256 chunk
  obtain ⟨present, s₁, hput, hf₁⟩ : ∃ present s₁, (faulty True).Ends
      (putBlob (digestHex store.crates.sha256 chunk) blob).run s (.ok present) s₁ ∧
        s₁.fields = s.fields := by
    have hexists := ends_backendCall (F := True)
      (.existsKey (digestHex store.crates.sha256 chunk)) s
    cases hp : (s.find (digestHex store.crates.sha256 chunk)).isSome with
    | true =>
      refine ⟨true, s, hexists.bind_ok ?_, rfl⟩
      rw [show (BackendCall.run (.existsKey (digestHex store.crates.sha256 chunk)) s.backend).1
        = true from hp, if_pos rfl]
      exact ends_ret _ _
    | false =>
      refine ⟨false, s.put (digestHex store.crates.sha256 chunk) blob, hexists.bind_ok ?_, rfl⟩
      rw [show (BackendCall.run (.existsKey (digestHex store.crates.sha256 chunk)) s.backend).1
        = false from hp, if_neg Bool.false_ne_true]
      exact (ends_backendCall (.put _ blob) s).bind_ok (ends_ret _ _)
  have hcount : (faulty True).Ends (store.countChunk (digestHex store.crates.sha256 chunk)
      chunk.length).run s₁ (.error e) (s₁.withFields { s₁.fields with refcount := rc }) := by
    have hincr := ends_fieldOrThrow (F := True)
      (.refcountIncrement (digestHex store.crates.sha256 chunk) chunk.length) s₁
    rw [FieldAccess.run, hf₁, hinc] at hincr
    rw [countChunk, hf₁]
    refine hincr.bind_ok ((ends_field _ _).bind_ok ?_)
    rw [saveRefcount, validateDigest_eq_ok.mpr hd]
    exact Ends.bind_ok (ends_ret _ _) (ends_failBefore _ e _).bind_error
  refine ⟨s₁.withFields { s₁.fields with refcount := rc }, n, rc, ?_, hinc, rfl⟩
  simp only [accept, storeChunk, flat_bind, flat_ofExcept, flat_locked, hb]
  exact Ends.bind_error (Ends.bind_ok (ends_ret _ _) (hput.bind_ok hcount.bind_error))

theorem not_unchanged_of_increment {s' : State} {digest : String} {size n : ℕ} {rc : RefCount}
    (h : s.fields.refcount.increment digest size = .ok (n, rc)) (hs : s'.fields.refcount = rc) :
    ¬Unchanged s s' := by
  intro hu
  have hcount := RefCount.countOf_increment h digest
  have hsame := hu.refs digest
  rw [if_pos rfl, RefCount.countOf_eq, ← hs, hsame, ← RefCount.countOf_eq] at hcount
  omega

/-! ## Ingests of nothing -/

/-- A file that is already empty, in memory and on the backend. -/
def AlreadyEmpty (store : ChunkStore) (s : State) (fileId : String) : Prop :=
  (s.fields.manifest.files.find fileId = some [] ∧
      s.fields.manifest.fileBytes.find fileId = some 0) ∧
    s.find (manifestKey fileId) = some (store.crates.serde.manifestToVec ⟨[], 0⟩) ∧
      ∀ l, readIndex store.crates s manifestIndexKey = some l → fileId ∈ l

/-- The state once a file of no chunks is in the manifest. -/
def withEmptyFile (s : State) (fileId : String) : State :=
  s.withFields { s.fields with manifest :=
    ⟨s.fields.manifest.files.set fileId [], s.fields.manifest.fileBytes.set fileId 0⟩ }

theorem run_insertEmpty (h : fileId ≠ "") :
    FieldAccess.run (.manifestInsert fileId [] 0) s.fields
      = (.ok (), (withEmptyFile s fileId).fields) := by
  rw [FieldAccess.run, Manifest.insert_eq_ok h]
  rfl

private theorem unchanged_withEmptyFile (hfiles : s.fields.manifest.files.find fileId = some [])
    (hbytes : s.fields.manifest.fileBytes.find fileId = some 0) :
    Unchanged s (withEmptyFile s fileId) := by
  refine ⟨fun f ↦ ?_, fun f ↦ ?_, fun _ ↦ rfl, rfl, fun _ ↦ rfl, fun _ ↦ rfl⟩
  · refine (Table.find_set _ _ _ _).trans ?_
    split
    · rename_i hf
      rw [hf, hfiles]
    · rfl
  · refine (Table.find_set _ _ _ _).trans ?_
    split
    · rename_i hf
      rw [hf, hbytes]
    · rfl

theorem flat_commit_new (store : ChunkStore) (fileId : String) :
    flat (store.commit IngestSession.new fileId) = (do
      let old ← field (.manifestTryGet fileId)
      fieldOrThrow (.manifestInsert fileId [] 0)
      saveManifest store.crates fileId [] 0
      flat (match old with
        | some old => do
          store.releaseDigests old
          return []
        | none => return [])) := by
  simp only [commit, peekDigests, flat_bind, flat_locked, flat_unlocked]
  rfl

/-- An empty id is refused before anything is inserted. -/
theorem safely_commit_of_empty :
    safely (Unchanged s) (flat (store.commit IngestSession.new "")) (fun _ _ ↦ True) s := by
  rw [flat_commit_new]
  refine safely_bind (safely_peek rfl (.refl s) ?_)
  exact safely_bind (safely_fieldOrThrow (.refl s) fun _ hok ↦ by cases hok)

private theorem safely_commit_of_alreadyEmpty (h : store.AlreadyEmpty s fileId) :
    safely (Unchanged s) (flat (store.commit IngestSession.new fileId)) (fun _ _ ↦ True) s := by
  obtain ⟨⟨hfiles, hbytes⟩, hrec, hindex⟩ := h
  by_cases hempty : fileId = ""
  · rw [hempty]
    exact safely_commit_of_empty
  · rw [flat_commit_new]
    refine safely_bind (safely_peek rfl (.refl s) ?_)
    have hold : (FieldAccess.run (.manifestTryGet fileId) s.fields).1 = some [] := hfiles
    rw [hold]
    have h₁ := unchanged_withEmptyFile hfiles hbytes
    refine safely_bind (safely_fieldOrThrow ?_ fun _ _ ↦ ?_)
    · rw [run_insertEmpty hempty]
      exact h₁
    rw [run_insertEmpty hempty]
    change safely _ _ _ (withEmptyFile s fileId)
    -- the record is put again as it was
    have hput : ∀ k, ((withEmptyFile s fileId).put (manifestKey fileId)
        (store.crates.serde.manifestToVec ⟨[], 0⟩)).find k = s.find k := by
      intro k
      rw [State.find_put]
      split
      · rename_i hk
        rw [hk, hrec]
      · rfl
    have h₂ : Unchanged s ((withEmptyFile s fileId).put (manifestKey fileId)
        (store.crates.serde.manifestToVec ⟨[], 0⟩)) :=
      ⟨h₁.files, h₁.bytes, h₁.refs, h₁.stats, fun _ ↦ hput _, fun _ ↦ hput _⟩
    rw [saveManifest_eq]
    refine safely_bind (safely_bind (safely_ofExcept h₁ fun _ _ ↦
      safely_bind (safely_put h₁ h₂ (safely_bind (safely_readStringList h₂ fun l hl ↦ ?_)))))
    rw [readIndex_congr (hput _)] at hl
    rw [if_pos (hindex l hl)]
    exact safely_pure (safely_pure trivial)

private theorem ends_commit_of_not_alreadyEmpty (h : ¬store.AlreadyEmpty s fileId)
    (hempty : fileId ≠ "")
    (e : ChunkStoreError) :
    ∃ s', (faulty True).Ends (flat (store.commit IngestSession.new fileId)).run s (.error e) s' ∧
      ¬Unchanged s s' := by
  have hpeek := ends_field (F := True) (.manifestTryGet fileId) s
  have hinsert := ends_fieldOrThrow (F := True) (.manifestInsert fileId [] 0) s
  rw [run_insertEmpty hempty] at hinsert
  -- what the saving does decides
  have hrest : ∀ s', (faulty True).Ends (saveManifest store.crates fileId [] 0).run
      (withEmptyFile s fileId) (.error e) s' →
        (faulty True).Ends (flat (store.commit IngestSession.new fileId)).run s (.error e) s' := by
    intro s' hsave
    rw [flat_commit_new]
    exact hpeek.bind_ok (hinsert.bind_ok hsave.bind_error)
  by_cases hlive : s.fields.manifest.files.find fileId = some [] ∧
      s.fields.manifest.fileBytes.find fileId = some 0
  · by_cases hrec : s.find (manifestKey fileId)
        = some (store.crates.serde.manifestToVec ⟨[], 0⟩)
    · obtain ⟨l, hl, hmem⟩ : ∃ l, readIndex store.crates s manifestIndexKey = some l ∧
          fileId ∉ l := by
        by_contra hno
        push Not at hno
        exact h ⟨hlive, hrec, hno⟩
      have hsame : ∀ k, ((withEmptyFile s fileId).put (manifestKey fileId)
          (store.crates.serde.manifestToVec ⟨[], 0⟩)).find k = s.find k := by
        intro k
        rw [State.find_put]
        split
        · rename_i hk
          rw [hk, hrec]
        · rfl
      have hput := ends_backendCall (F := True) (.put (manifestKey fileId)
        (store.crates.serde.manifestToVec ⟨[], 0⟩)) (withEmptyFile s fileId)
      have hread :=
        ends_readStringList (F := True) ((readIndex_congr (hsame manifestIndexKey)).trans hl)
      have hsave : (faulty True).Ends (saveManifest store.crates fileId [] 0).run
          (withEmptyFile s fileId) (.error e) (((withEmptyFile s fileId).put (manifestKey fileId)
            (store.crates.serde.manifestToVec ⟨[], 0⟩)).put manifestIndexKey
              (store.crates.serde.stringsToVec (l ++ [fileId]))) := by
        rw [saveManifest_eq]
        refine Ends.bind_ok (ends_ret _ _) (hput.bind_ok (hread.bind_ok ?_))
        rw [if_neg hmem]
        exact ends_failAfter _ e _
      refine ⟨_, hrest _ hsave, fun hu ↦ ?_⟩
      have hkey := hu.manifests indexName
      rw [manifestKey_indexName] at hkey
      have hread' := readIndex_of_strings (hkey.symm.trans (State.find_put_self _ _ _))
      rw [hl] at hread'
      have hlen := congrArg List.length (Option.some.inj hread')
      rw [List.length_append, List.length_singleton] at hlen
      omega
    · refine ⟨_, hrest _ (Ends.bind_ok (ends_ret _ _) (ends_failAfter _ e _).bind_error),
        fun hu ↦ hrec ?_⟩
      exact (hu.manifests fileId).symm.trans (State.find_put_self _ _ _)
  · refine ⟨withEmptyFile s fileId,
      hrest _ (Ends.bind_ok (ends_ret _ _) (ends_failBefore _ e _).bind_error),
      fun hu ↦ hlive ⟨?_, ?_⟩⟩
    · rw [← hu.files fileId]
      exact Table.find_set_self _ _ _
    · rw [← hu.bytes fileId]
      exact Table.find_set_self _ _ _

/-! ## Ingests -/

/-- An ingest that cannot fail late: its first chunk is refused, or it has no chunk and there is
nothing to commit, because the input ends in an error, because the id is empty, or because the file
is already empty. -/
def FailsEarly (store : ChunkStore) (fileId : String) (input : IngestInput) (s : State) : Prop :=
  match (input.stream store.crates).chunks with
  | chunk :: _ => store.Refuses s chunk
  | [] => (input.stream store.crates).error ≠ none ∨ fileId = "" ∨ store.AlreadyEmpty s fileId

private theorem safely_ingest_of_failsEarly {input : IngestInput}
    (h : store.FailsEarly fileId input s) :
    safely (Unchanged s) (flat (store.ingestInput fileId input)) (fun _ _ ↦ True) s := by
  rw [ingestInput_eq, ingestStream, Stream.consume]
  rw [FailsEarly] at h
  cases hc : (input.stream store.crates).chunks with
  | cons chunk chunks =>
    rw [hc] at h
    simp only [List.foldlM_cons, flat_bind, bind_assoc]
    exact safely_bind (safely_mono (safely_accept_of_refuses h _) fun _ _ hf ↦ hf.elim)
  | nil =>
    rw [hc] at h
    rw [List.foldlM_nil, pure_bind, flat_bind]
    cases he : (input.stream store.crates).error with
    | some e => exact safely_bind (safely_throw (.refl s))
    | none =>
      rw [he] at h
      refine safely_bind (safely_pure ?_)
      rcases h with h | h | h
      · exact absurd rfl h
      · rw [h]
        exact safely_commit_of_empty
      · exact safely_commit_of_alreadyEmpty h

private theorem ends_ingest_of_not_failsEarly {input : IngestInput}
    (h : ¬store.FailsEarly fileId input s)
    (e : ChunkStoreError) : ∃ s', (faulty True).Ends (flat (store.ingestInput fileId input)).run s
      (.error e) s' ∧ ¬Unchanged s s' := by
  rw [ingestInput_eq, ingestStream, Stream.consume]
  rw [FailsEarly] at h
  cases hc : (input.stream store.crates).chunks with
  | cons chunk chunks =>
    rw [hc] at h
    obtain ⟨s', n, rc, hends, hinc, hrc⟩ :=
      ends_accept_of_not_refuses h IngestSession.new e
    refine ⟨s', ?_, not_unchanged_of_increment hinc hrc⟩
    simp only [List.foldlM_cons, flat_bind, bind_assoc]
    exact hends.bind_error
  | nil =>
    rw [hc] at h
    push Not at h
    obtain ⟨he, hempty, hae⟩ := h
    obtain ⟨s', hends, hne⟩ := ends_commit_of_not_alreadyEmpty hae hempty e
    refine ⟨s', ?_, hne⟩
    rw [List.foldlM_nil, pure_bind, he, pure_bind]
    exact hends

/-- **A failed ingest leaves at most blobs behind, exactly when it cannot fail late.** Whatever call
fails, with or without its effect: the fields and all persisted records are as before after every
failure of the ingest, if and only if its first chunk is refused or it has no chunk and nothing to
commit. -/
theorem failed_ingest_unchanged_iff (store : ChunkStore) (fileId : String) (input : IngestInput)
    (s : State) :
    (∀ e s', (faulty True).Ends (flat (store.ingestInput fileId input)).run s (.error e) s' →
      Unchanged s s') ↔ store.FailsEarly fileId input s := by
  constructor
  · intro h
    by_contra hn
    obtain ⟨s', hends, hne⟩ := ends_ingest_of_not_failsEarly hn (.backendError "unavailable")
    exact hne (h _ s' hends)
  · intro h e s' hends
    exact wp_steps (c := ((flat (store.ingestInput fileId input)).run, s))
      (safely_ingest_of_failsEarly h) hends

/-- An ingest with an empty id fails when it is committed, after its chunk was counted. -/
theorem failed_ingest_changes : ¬∀ (store : ChunkStore) (lists : Bool) (ops : List Op)
    (fileId : String) (input : IngestInput) (e : ChunkStoreError) (s' : State),
      (faulty True).Ends (flat (store.ingestInput fileId input)).run (store.run lists ops).2
        (.error e) s' → Unchanged (store.run lists ops).2 s' := by
  intro h
  have hends := Handler.steps_eval (M := faulty True) faulty_step_handle
    (flat (smallStore.ingestInput "" (.bytes [0x61]))).run (smallStore.run true []).2
  have herr : (callHandler.eval (flat (smallStore.ingestInput "" (.bytes [0x61]))).run
      (smallStore.run true []).2).1 = .error (.invalidArgument "file_id cannot be empty") := by
    decide +kernel
  rw [herr] at hends
  have hrefs := (h smallStore true [] "" (.bytes [0x61]) _ _ hends).refs
    (digestHex knownSha256 [0x61])
  revert hrefs
  decide +kernel

end ChunkStore

end Chunkstore

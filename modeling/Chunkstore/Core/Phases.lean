import Chunkstore.Core.View

/-!
# The phases of an operation

An ingest stores its chunks, exchanges the manifest entry and releases what the old version referred
to; a delete drops the entry and releases. What each phase keeps is stated once for each invariant,
and the rules here put the phases together: `I` speaks about the chunks still to be stored, `K`
about the digests still to be released.
-/

open Effects Program

namespace Chunkstore

namespace ChunkStore

variable (store : ChunkStore)

/-- The part of a commit up to the record being saved. It returns what is then to be released. -/
def exchange (fileId : String) (digests : List String) (fileBytes : ℕ) :
    BackendM (Option (List String)) := do
  let old ← field (.manifestTryGet fileId)
  fieldOrThrow (.manifestInsert fileId digests fileBytes)
  saveManifest store.crates fileId digests fileBytes
  return old

/-- The part of a delete up to the record being gone. -/
def withdraw (fileId : String) : BackendM (List String) := do
  let digests ← fieldOrThrow (.manifestRemove fileId)
  removeManifest store.crates fileId
  return digests

theorem flat_commit (session : IngestSession) (fileId : String) :
    flat (store.commit session fileId) = (do
      let old ← store.exchange fileId session.digests session.fileBytes
      flat (store.releaseDigests (old.getD []))
      return session.digests) := by
  simp only [commit, peekDigests, exchange, flat_bind, flat_locked, flat_unlocked,
    bind_assoc, pure_bind]
  refine congrArg _ (funext fun old ↦ congrArg _ (funext fun _ ↦ congrArg _ (funext fun _ ↦ ?_)))
  cases old with
  | none => rfl
  | some old => exact flat_bind _ _

theorem flat_delete (fileId : String) :
    flat (store.delete fileId) = (do
      let digests ← store.withdraw fileId
      flat (store.releaseDigests digests)) := by
  simp only [delete, withdraw, flat_bind, flat_locked, flat_unlocked, bind_assoc, pure_bind]

end ChunkStore

section Rules

variable {store : ChunkStore} {M G : Machine Call State} {fileId : String} {stream : Stream}
  {I : List Bytes → State → Prop} {K : List String → State → Prop}
  {R : ChunkStoreError → State → Prop} {s : State}

/-- **Releasing a list**, one digest after the other. -/
theorem wpx_releaseDigests
    (hrelease : ∀ d ds s, K (d :: ds) s →
      wpx M G (flat (store.releaseDigest d)) (fun _ ↦ K ds) R s)
    (digests : List String) (h : K digests s) :
    wpx M G (flat (store.releaseDigests digests)) (fun _ ↦ K []) R s := by
  induction digests generalizing s with
  | nil => exact h
  | cons d digests ih =>
    rw [ChunkStore.releaseDigests, flat_bind, wpx_bind]
    exact wpx_mono (hrelease d digests s h) (fun _ _ h' ↦ ih h') fun _ _ h ↦ h

/-- **Ingest**, by its phases. -/
theorem wpx_ingestStream
    (hstore : ∀ chunk l s, I (chunk :: l) s →
      wpx M G (flat (store.storeChunk (digestHex store.crates.sha256 chunk) chunk))
        (fun _ ↦ I l) R s)
    (hthrow : ∀ e s, stream.error = some e → I [] s → R e s)
    (hexchange : ∀ s, stream.error = none → I [] s →
      wpx M G (store.exchange fileId (stream.chunks.map (digestHex store.crates.sha256))
        (stream.chunks.map List.length).sum) (fun old ↦ K (old.getD [])) R s)
    (hrelease : ∀ d ds s, K (d :: ds) s →
      wpx M G (flat (store.releaseDigest d)) (fun _ ↦ K ds) R s)
    (h : I stream.chunks s) :
    wpx M G (flat (store.ingestStream fileId stream))
      (fun digests s' ↦ digests = stream.chunks.map (digestHex store.crates.sha256) ∧ K [] s')
      R s := by
  simp only [ChunkStore.ingestStream, Stream.consume, flat_bind, flat_foldlM, bind_assoc]
  rw [wpx_bind]
  refine wpx_mono (wpx_foldlM (J := fun l session s' ↦
    session.digests ++ l.map (digestHex store.crates.sha256)
        = stream.chunks.map (digestHex store.crates.sha256) ∧
      session.fileBytes + (l.map List.length).sum = (stream.chunks.map List.length).sum ∧ I l s')
    (R := R) ?_ stream.chunks ChunkStore.IngestSession.new s ⟨rfl, Nat.zero_add _, h⟩) ?_
    fun _ _ h ↦ h
  · rintro chunk l session s₁ ⟨hd, hbytes, hI⟩
    rw [List.map_cons, List.sum_cons, ← Nat.add_assoc] at hbytes
    simp only [ChunkStore.accept, flat_bind, flat_pure]
    rw [wpx_bind]
    refine wpx_mono (hstore chunk l s₁ hI) (fun _ s₂ hI₂ ↦ ⟨?_, hbytes, hI₂⟩) fun _ _ h ↦ h
    rw [← hd, List.map_cons, List.append_assoc]
    rfl
  · rintro session s₁ ⟨hd, hbytes, hI⟩
    rw [List.map_nil, List.append_nil] at hd
    rw [List.map_nil, List.sum_nil, Nat.add_zero] at hbytes
    cases he : stream.error with
    | some e => exact (wpx_bind _ _).mpr (hthrow e s₁ he hI)
    | none =>
      refine (wpx_bind _ _).mpr ((wpx_pure _).mpr ?_)
      rw [store.flat_commit, hd, hbytes, wpx_bind]
      refine wpx_mono (hexchange s₁ he hI) (fun old s₂ hK ↦ ?_) fun _ _ h ↦ h
      rw [wpx_bind]
      exact wpx_mono (wpx_releaseDigests hrelease _ hK) (fun _ _ hK ↦ ⟨rfl, hK⟩) fun _ _ h ↦ h

/-- **Delete**, by its phases. -/
theorem wpx_deleteFile
    (hwithdraw : wpx M G (store.withdraw fileId) (fun digests ↦ K digests) R s)
    (hrelease : ∀ d ds s, K (d :: ds) s →
      wpx M G (flat (store.releaseDigest d)) (fun _ ↦ K ds) R s) :
    wpx M G (flat (store.delete fileId)) (fun _ ↦ K []) R s := by
  rw [store.flat_delete, wpx_bind]
  exact wpx_mono hwithdraw (fun _ _ hK ↦ wpx_releaseDigests hrelease _ hK) fun _ _ h ↦ h

end Rules

end Chunkstore

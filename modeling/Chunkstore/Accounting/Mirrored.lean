import Chunkstore.Core.Phases
import Chunkstore.Crash.Openable

/-!
# Operations on any backend

What storing and releasing a chunk do when nothing is known about the backend but that the reference
counts in memory are those it holds (`Mirrors`): there may be blobs without a count and counts
without a blob. `Stored` and `Released` say everything about one such step, so that every invariant
of whole runs is derived from them.
-/

open Effects Program

namespace Chunkstore

/-! ## Storing a chunk -/

/-- `s'` is `s` after a chunk was stored and counted. -/
structure Stored (store : ChunkStore) (digest : String) (chunk : Bytes) (s s' : State) : Prop where
  mirrors : Mirrors store.crates s'.fields.refcount s'
  manifest : s'.fields.manifest = s.fields.manifest
  counted : ∃ n, s.fields.refcount.increment digest chunk.length = .ok (n, s'.fields.refcount)
  encoded : ∃ blob, store.encodeBlob chunk = .ok blob ∧
    s'.find digest = some ((s.find digest).getD blob)
  find : ∀ k, OffRefcount k → k ≠ digest → s'.find k = s.find k
  stats : s'.fields.stats = if (s.find digest).isSome then s.fields.stats.addReference chunk.length
    else s.fields.stats.addUniqueChunk chunk.length

/-- `s'` is `s` after a reference was released. -/
structure Released (crates : Crates) (digest : String) (r : ChunkRef) (s s' : State) : Prop where
  mirrors : Mirrors crates s'.fields.refcount s'
  manifest : s'.fields.manifest = s.fields.manifest
  entry : s.fields.refcount.counts.find digest = some r
  counts : s'.fields.refcount.counts = if r.count - 1 = 0 then s.fields.refcount.counts.unset digest
    else s.fields.refcount.counts.set digest ⟨r.count - 1, r.size⟩
  blob : s'.find digest = if r.count - 1 = 0 then none else s.find digest
  find : ∀ k, OffRefcount k → k ≠ digest → s'.find k = s.find k
  total : s'.fields.stats.totalBytes = s.fields.stats.totalBytes - r.size
  stored : s'.fields.stats.storedBytes
    = if r.count - 1 = 0 then s.fields.stats.storedBytes - r.size else s.fields.stats.storedBytes

section Steps

variable {store : ChunkStore} {s : State} {digest : String} {chunk : Bytes}

/-- **Counting a reference**, in the table and on the backend. -/
theorem quietly_countChunk {size : ℕ} (h : Mirrors store.crates s.fields.refcount s)
    (hd : isChunkDigest digest = true) :
    quietly (store.countChunk digest size) (fun _ s' ↦ ∃ n rc,
      s.fields.refcount.increment digest size = .ok (n, rc) ∧
        s'.fields = { s.fields with refcount := rc } ∧ Mirrors store.crates rc s' ∧
          ∀ k, OffRefcount k → s'.find k = s.find k) (fun _ _ ↦ True) s := by
  refine quietly_bind (quietly_fieldOrThrow (fun n hn ↦ ?_) fun _ _ ↦ trivial)
  rw [FieldAccess.run] at hn ⊢
  cases hinc : s.fields.refcount.increment digest size with
  | error e =>
    rw [hinc] at hn
    cases hn
  | ok r =>
    obtain ⟨n', rc⟩ := r
    rw [hinc] at hn
    cases hn
    obtain ⟨hcount, hcounts⟩ := RefCount.increment_eq_ok hinc
    have hsize : rc.sizeOf digest = some (s.fields.refcount.mergedSize digest size) := by
      rw [RefCount.sizeOf, hcounts, Table.find_set_self]
      rfl
    refine quietly_bind (quietly_field ?_)
    dsimp only [FieldAccess.run, State.fields_withFields]
    rw [hsize, Option.getD_some]
    exact quietly_saveRefcount_mirrors rc (h.of_find fun _ ↦ rfl) hd (by omega)
      (fun e ↦ by rw [hcounts, Table.find_set]) fun s' hf hfind hrc ↦ ⟨n', rc, rfl, hf, hrc, hfind⟩

/-- **Storing a chunk.** -/
theorem quietly_storeChunk_stored (h : Mirrors store.crates s.fields.refcount s)
    (hd : isChunkDigest digest = true) :
    quietly (flat (store.storeChunk digest chunk)) (fun _ s' ↦ Stored store digest chunk s s')
      (fun _ _ ↦ True) s := by
  simp only [ChunkStore.storeChunk, flat_bind, flat_ofExcept, flat_locked, flat_ite, flat_pure]
  refine quietly_bind (quietly_ofExcept (fun blob hb ↦ ?_) fun _ _ ↦ trivial)
  refine quietly_bind (quietly_mono quietly_putBlob ?_ fun _ _ h ↦ h)
  rintro present s₁ ⟨rfl, hf₁, hfind₁, hblob₁⟩
  have h₁ : Mirrors store.crates s₁.fields.refcount s₁ := by
    rw [hf₁]
    exact h.of_find fun e ↦ hfind₁ _ (ne_of_isChunkDigest hd (isChunkDigest_refcountKey e)).symm
  refine quietly_bind (quietly_mono (quietly_countChunk h₁ hd) ?_ fun _ _ h ↦ h)
  rintro _ s₂ ⟨n, rc, hinc, hf₂, hrc₂, hfind₂⟩
  rw [hf₁] at hinc hf₂
  have hstored : ∀ stats, stats = (if (s.find digest).isSome
      then s.fields.stats.addReference chunk.length
      else s.fields.stats.addUniqueChunk chunk.length) →
      Stored store digest chunk s (s₂.withFields { s₂.fields with stats := stats }) := by
    intro stats hstats
    rw [hf₂]
    refine ⟨hrc₂.of_find fun _ ↦ rfl, rfl, ⟨n, hinc⟩, ⟨blob, hb, ?_⟩, fun k hk hne ↦ ?_, hstats⟩
    · exact (hfind₂ _ (offRefcount_of_isChunkDigest hd)).trans hblob₁
    · exact (hfind₂ k hk).trans (hfind₁ k hne)
  split
  · rename_i hp
    refine quietly_bind (quietly_field (quietly_pure (hstored _ ?_)))
    rw [if_pos hp, hf₂]
  · rename_i hp
    refine quietly_bind (quietly_field (quietly_pure (hstored _ ?_)))
    rw [if_neg hp, hf₂]

/-- An entry without a size has no blob but that of the empty chunk. -/
def Sized (store : ChunkStore) (s : State) (digest : String) : Prop :=
  ∀ r raw, s.fields.refcount.counts.find digest = some r → r.size = 0 →
    s.find digest = some raw → store.decodeBlob raw = .ok []

private theorem quietly_chunkSize_sized (h : Sized store s digest) :
    quietly (flat (store.chunkSize digest)) (fun size s' ↦ s' = s ∧
      ∀ r, s.fields.refcount.counts.find digest = some r → size = r.size)
      (fun _ s' ↦ s' = s) s := by
  simp only [ChunkStore.chunkSize, flat_bind, flat_locked, flat_ite, flat_pure, flat_unlocked]
  refine quietly_bind (quietly_field ?_)
  dsimp only [FieldAccess.run, State.withFields_fields]
  have hsize : ∀ r, s.fields.refcount.counts.find digest = some r →
      (s.fields.refcount.sizeOf digest).getD 0 = r.size := fun r hr ↦ by
    rw [RefCount.sizeOf, hr]
    rfl
  split
  · exact quietly_pure ⟨rfl, hsize⟩
  · rename_i h0
    refine quietly_bind (quietly_get ?_)
    cases hraw : s.find digest with
    | none => exact quietly_throw rfl
    | some raw =>
      simp only [flat_bind, flat_ofExcept, flat_pure]
      refine quietly_bind (quietly_ofExcept (fun data hdata ↦ quietly_pure ⟨rfl, fun r hr ↦ ?_⟩)
        fun _ _ ↦ rfl)
      rw [hsize r hr] at h0
      rw [h r raw hr (Nat.eq_zero_of_not_pos h0) hraw] at hdata
      cases hdata
      exact (Nat.eq_zero_of_not_pos h0).symm

/-- **Releasing a reference.** -/
theorem quietly_releaseDigest_released (h : Mirrors store.crates s.fields.refcount s)
    (hz : Sized store s digest) (hd : isChunkDigest digest = true) :
    quietly (flat (store.releaseDigest digest))
      (fun _ s' ↦ ∃ r, Released store.crates digest r s s') (fun _ s' ↦ s' = s) s := by
  simp only [ChunkStore.releaseDigest, flat_bind, flat_locked, flat_ite, flat_unlocked]
  refine quietly_bind (quietly_mono (quietly_chunkSize_sized hz) ?_ fun _ _ h ↦ h)
  rintro size s ⟨rfl, hsize⟩
  cases hr : s.fields.refcount.counts.find digest with
  | none =>
    have hdec := RefCount.decrement_of_find_none hr
    refine quietly_bind (quietly_fieldOrThrow (fun n hn ↦ ?_) fun e he ↦ ?_)
    · rw [FieldAccess.run, hdec] at hn
      cases hn
    · rw [FieldAccess.run, hdec]
      rfl
  | some r =>
    obtain rfl := hsize r hr
    obtain ⟨-, hcount⟩ := h.valid digest r hr
    have hdec := RefCount.decrement_of_find hr
    refine quietly_bind (quietly_fieldOrThrow (fun n hn ↦ ?_) fun e he ↦ ?_)
    · rw [FieldAccess.run, hdec] at hn ⊢
      cases hn
      dsimp only
      split
      · rename_i h0
        refine quietly_bind (quietly_delete (quietly_bind ?_))
        refine quietly_removeRefcount_mirrors ⟨Table.unset _ digest⟩ (h.of_find fun e ↦ ?_) hd
          (fun e ↦ Table.find_unset _ _ _) fun s₁ hf₁ hfind₁ hrc₁ ↦ ?_
        · exact State.find_del_ne (ne_of_isChunkDigest hd (isChunkDigest_refcountKey e)).symm
        · refine quietly_bind (quietly_field (quietly_field ⟨r, ?_⟩))
          dsimp only [FieldAccess.run, State.fields_withFields]
          rw [hf₁]
          refine ⟨hrc₁.of_find fun _ ↦ rfl, rfl, hr, (if_pos h0).symm, ?_, fun k hk hne ↦ ?_, rfl,
            (if_pos h0).symm⟩
          · rw [if_pos h0]
            exact (hfind₁ _ (offRefcount_of_isChunkDigest hd)).trans (State.find_del_self _ _)
          · exact (hfind₁ k hk).trans (State.find_del_ne hne)
      · rename_i h0
        refine quietly_bind (quietly_saveRefcount_mirrors ⟨Table.set _ digest _⟩
          (h.of_find fun _ ↦ rfl) hd (Nat.pos_of_ne_zero h0) (fun e ↦ Table.find_set _ _ _ _)
          fun s₁ hf₁ hfind₁ hrc₁ ↦ quietly_field ⟨r, ?_⟩)
        dsimp only [FieldAccess.run, State.fields_withFields]
        rw [hf₁]
        refine ⟨hrc₁.of_find fun _ ↦ rfl, rfl, hr, (if_neg h0).symm, ?_, fun k hk _ ↦ hfind₁ k hk,
          rfl, (if_neg h0).symm⟩
        rw [if_neg h0]
        exact hfind₁ _ (offRefcount_of_isChunkDigest hd)
    · rw [FieldAccess.run, hdec] at he
      cases he

end Steps

/-! ## Exchanging a manifest entry -/

/-- `s'` is `s` but for the manifests. -/
structure Aside (s s' : State) : Prop where
  refcount : s'.fields.refcount = s.fields.refcount
  stats : s'.fields.stats = s.fields.stats
  find : ∀ k, OffManifest k → s'.find k = s.find k

section Manifests

variable {store : ChunkStore} {s : State} {fileId : String} {digests : List String} {fileBytes : ℕ}

theorem Call.Confined.handled {K : String → Prop} {γ : Type} {c : Call γ} (hc : c.Confined K)
    (s₁ : State) : (callHandler.handle c s₁).2.fields = s₁.fields ∧
      ∀ k, ¬K k → (callHandler.handle c s₁).2.find k = s₁.find k := by
  cases c with
  | field a => exact hc.elim
  | backend c =>
    cases c with
    | get | existsKey => exact ⟨rfl, fun _ _ ↦ rfl⟩
    | listKeys => exact hc.elim
    | put key data =>
      refine ⟨rfl, fun k hk ↦ State.find_put_ne fun hkk ↦ hk ?_⟩
      rw [hkk]
      exact hc
    | delete key =>
      refine ⟨rfl, fun k hk ↦ State.find_del_ne fun hkk ↦ hk ?_⟩
      rw [hkk]
      exact hc

/-- What code does that is confined to some keys. -/
theorem quietly_confined {α : Type} {K : String → Prop} {p : BackendM α} (hp : Confined K p) :
    quietly p (fun _ s' ↦ s'.fields = s.fields ∧ ∀ k, ¬K k → s'.find k = s.find k)
      (fun _ s' ↦ s'.fields = s.fields ∧ ∀ k, ¬K k → s'.find k = s.find k) s := by
  refine wp_post (Uses.wp hp (I := fun s' ↦ s'.fields = s.fields ∧ ∀ k, ¬K k → s'.find k = s.find k)
    (fun c s₁ r s₂ hc h hs ↦ ⟨trivial, ?_⟩) ⟨rfl, fun _ _ ↦ rfl⟩)
      fun r s' h ↦ by cases r <;> exact h
  obtain ⟨hf, hfind⟩ := hc.handled s₁
  cases c with
  | field a => exact hc.elim
  | backend c =>
    obtain ⟨-, rfl⟩ := hs.resolve_right fun h ↦ h.1
    exact ⟨hf.trans h.1, fun k hk ↦ (hfind k hk).trans (h.2 k hk)⟩

theorem aside_of_confined {m : Manifest} {s₁ s' : State}
    (h₁ : s₁ = s.withFields { s.fields with manifest := m }) (hf : s'.fields = s₁.fields)
    (hfind : ∀ k, (¬∃ f, k = manifestKey f) → s'.find k = s₁.find k) :
    Aside s s' ∧ s'.fields.manifest = m := by
  subst h₁
  rw [State.fields_withFields] at hf
  refine ⟨⟨by rw [hf], by rw [hf], fun k hk ↦ ?_⟩, by rw [hf]⟩
  exact hfind k fun ⟨f, hkf⟩ ↦ hk f hkf

/-- **Exchanging an entry** touches the manifests only, and returns the old list. -/
theorem quietly_exchange :
    quietly (store.exchange fileId digests fileBytes)
      (fun old s' ↦ old = s.fields.manifest.tryGet fileId ∧ Aside s s' ∧
        s.fields.manifest.insert fileId digests fileBytes = .ok s'.fields.manifest)
      (fun _ s' ↦ Aside s s' ∧ (s'.fields.manifest = s.fields.manifest ∨
        s.fields.manifest.insert fileId digests fileBytes = .ok s'.fields.manifest)) s := by
  refine quietly_bind (quietly_field ?_)
  refine quietly_bind (quietly_fieldOrThrow (fun _ hok ↦ ?_) fun e he ↦ ?_)
  · dsimp only [FieldAccess.run, State.withFields_fields] at hok ⊢
    cases hins : s.fields.manifest.insert fileId digests fileBytes with
    | error e =>
      rw [hins] at hok
      cases hok
    | ok m =>
      have hconf : Confined (fun k ↦ ∃ f, k = manifestKey f)
          (saveManifest store.crates fileId digests fileBytes) :=
        confined_saveManifest ⟨fileId, rfl⟩ ⟨indexName, manifestKey_indexName.symm⟩
      refine quietly_bind (quietly_mono (quietly_confined hconf) (fun _ s' h ↦ ?_)
        fun _ s' h ↦ ?_)
      · obtain ⟨haside, hm⟩ := aside_of_confined rfl h.1 h.2
        exact quietly_pure ⟨rfl, haside, by rw [hm]⟩
      · obtain ⟨haside, hm⟩ := aside_of_confined rfl h.1 h.2
        exact ⟨haside, Or.inr (by rw [hm])⟩
  · dsimp only [FieldAccess.run, State.withFields_fields] at he ⊢
    cases hins : s.fields.manifest.insert fileId digests fileBytes with
    | error e => exact ⟨⟨rfl, rfl, fun _ _ ↦ rfl⟩, Or.inl rfl⟩
    | ok m =>
      rw [hins] at he
      cases he

/-- **Withdrawing an entry** touches the manifests only, and returns the list that was there. -/
theorem quietly_withdraw :
    quietly (store.withdraw fileId)
      (fun digests s' ↦ s.fields.manifest.tryGet fileId = some digests ∧ Aside s s' ∧
        s'.fields.manifest = (s.fields.manifest.remove fileId).2)
      (fun _ s' ↦ Aside s s' ∧ s'.fields.manifest = (s.fields.manifest.remove fileId).2) s := by
  refine quietly_bind (quietly_fieldOrThrow (fun digests hok ↦ ?_) fun e he ↦ ?_)
  · have hget : s.fields.manifest.tryGet fileId = some digests := by
      rw [FieldAccess.run, Manifest.remove, Manifest.get] at hok
      split at hok
      · cases hok
        assumption
      · cases hok
    have hconf : Confined (fun k ↦ ∃ f, k = manifestKey f) (removeManifest store.crates fileId) :=
      confined_removeManifest ⟨fileId, rfl⟩ ⟨indexName, manifestKey_indexName.symm⟩
    refine quietly_bind (quietly_mono (quietly_confined hconf) (fun _ s' h ↦ ?_)
      fun _ s' h ↦ aside_of_confined rfl h.1 h.2)
    exact quietly_pure ⟨hget, aside_of_confined rfl h.1 h.2⟩
  · exact ⟨⟨rfl, rfl, fun _ _ ↦ rfl⟩, rfl⟩

end Manifests

end Chunkstore

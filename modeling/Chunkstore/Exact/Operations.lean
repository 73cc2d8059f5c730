import Chunkstore.Exact.Synced

/-!
# Operations in sync

On a fault-free backend every operation takes a store in sync to a store in sync, with one
exception: committing a file that is named like the manifest index. The references held besides the
manifest go up by a chunk as an ingest stores it, and down as a version is released.
-/

open Effects Program

namespace Chunkstore

/-! ## Statistics and entries -/

/-- What dropping a reference does to the sums over the entries. -/
theorem sums_release {t t' : Table String ChunkRef} {digest : String} {r : ChunkRef}
    (hr : t.find digest = some r) (hpos : 0 < r.count)
    (ht' : t' = if r.count - 1 = 0 then t.unset digest else t.set digest ⟨r.count - 1, r.size⟩) :
    (t'.sumBy fun r ↦ r.size * r.count) = (t.sumBy fun r ↦ r.size * r.count) - r.size ∧
      (t'.sumBy fun r ↦ r.size)
        = if r.count - 1 = 0 then (t.sumBy fun r ↦ r.size) - r.size
          else t.sumBy fun r ↦ r.size := by
  have ht := Table.sumBy_set (fun r : ChunkRef ↦ r.size * r.count) t digest ⟨r.count - 1, r.size⟩
  have hst := Table.sumBy_set (fun r : ChunkRef ↦ r.size) t digest ⟨r.count - 1, r.size⟩
  have htu := Table.sumBy_unset (fun r : ChunkRef ↦ r.size * r.count) t digest
  have hstu := Table.sumBy_unset (fun r : ChunkRef ↦ r.size) t digest
  rw [hr] at ht hst htu hstu
  simp only [Option.map_some, Option.getD_some] at ht hst htu hstu
  obtain ⟨c, hc⟩ := Nat.exists_eq_succ_of_ne_zero (Nat.pos_iff_ne_zero.mp hpos)
  rw [ht']
  constructor
  · split
    · rename_i h0
      rw [show r.count = 1 by omega, Nat.mul_one] at htu
      omega
    · rw [hc, Nat.succ_sub_one, Nat.mul_succ] at ht
      rw [hc, Nat.succ_sub_one]
      omega
  · split
    · omega
    · omega

namespace Accounted

variable {store : ChunkStore} {seen : Bytes → Prop} {f f' : Fields} {digest : String}

/-- A chunk counted once more, under the size its entry already has or with a new entry. -/
theorem count {chunk : Bytes} {n : ℕ} {rc : RefCount} (h : Accounted store seen f)
    (hnc : NoCollision store.crates.sha256 seen) (hs : seen chunk)
    (hinc : f.refcount.increment (digestHex store.crates.sha256 chunk) chunk.length
      = .ok (n, rc)) (hrc : f'.refcount = rc)
    (hstats : f'.stats
      = if (f.refcount.counts.find (digestHex store.crates.sha256 chunk)).isSome
        then f.stats.addReference chunk.length else f.stats.addUniqueChunk chunk.length) :
    Accounted store seen f' := by
  obtain ⟨hn, hcounts⟩ := RefCount.increment_eq_ok hinc
  have hsize : ∀ r, f.refcount.counts.find (digestHex store.crates.sha256 chunk) = some r →
      r.size = chunk.length := by
    intro r hr
    obtain ⟨chunk', hs', hd', hsz⟩ := h.sized _ r hr
    rw [hsz, hnc chunk' chunk hs' hs hd']
  have hmerged : f.refcount.mergedSize (digestHex store.crates.sha256 chunk) chunk.length
      = chunk.length := by
    rw [RefCount.mergedSize]
    split
    · rename_i r hr
      rw [hsize r hr]
      split <;> rfl
    · rfl
  rw [hmerged] at hcounts
  rw [RefCount.countOf_eq] at hn
  have ht := Table.sumBy_set (fun r : ChunkRef ↦ r.size * r.count) f.refcount.counts
    (digestHex store.crates.sha256 chunk) ⟨n, chunk.length⟩
  have hst := Table.sumBy_set (fun r : ChunkRef ↦ r.size) f.refcount.counts
    (digestHex store.crates.sha256 chunk) ⟨n, chunk.length⟩
  refine ⟨fun d r hr ↦ ?_, ?_, ?_⟩
  · rw [hrc, hcounts, Table.find_set] at hr
    split at hr
    · rename_i hd
      cases hr
      exact ⟨chunk, hs, hd.symm, rfl⟩
    · exact h.sized d r hr
  all_goals
    rw [hrc, hcounts, hstats]
    cases hf : f.refcount.counts.find (digestHex store.crates.sha256 chunk) with
    | none =>
      rw [hf] at ht hst hn
      simp only [Option.map_none, Option.getD_none, Option.isSome_none, Bool.false_eq_true,
        if_false, Stats.addUniqueChunk, h.total, h.stored] at ht hst hn ⊢
      subst hn
      omega
    | some r =>
      rw [hf] at ht hst hn
      have hr := hsize r hf
      simp only [Option.map_some, Option.getD_some, Option.isSome_some, if_true,
        Stats.addReference, h.total, h.stored] at ht hst hn ⊢
      subst hn
      rw [hr] at ht hst
      rw [Nat.mul_add, Nat.mul_one] at ht
      omega

theorem release {r : ChunkRef} (h : Accounted store seen f)
    (hr : f.refcount.counts.find digest = some r) (hpos : 0 < r.count)
    (hrc : f'.refcount.counts = if r.count - 1 = 0 then f.refcount.counts.unset digest
      else f.refcount.counts.set digest ⟨r.count - 1, r.size⟩)
    (htotal : f'.stats.totalBytes = f.stats.totalBytes - r.size)
    (hstored : f'.stats.storedBytes
      = if r.count - 1 = 0 then f.stats.storedBytes - r.size else f.stats.storedBytes) :
    Accounted store seen f' := by
  obtain ⟨ht, hst⟩ := sums_release hr hpos hrc
  refine ⟨fun d r' hr' ↦ ?_, by rw [htotal, h.total, ht], by rw [hstored, h.stored, hst]⟩
  rw [hrc] at hr'
  split at hr'
  · rw [Table.find_unset] at hr'
    split at hr'
    · cases hr'
    · exact h.sized d r' hr'
  · rw [Table.find_set] at hr'
    split at hr'
    · rename_i hd
      cases hr'
      rw [hd]
      exact h.sized digest r hr
    · exact h.sized d r' hr'

end Accounted

namespace Rep

variable {store : ChunkStore} {seen : Bytes → Prop} {pin : Option Pin} {held held' : String → ℕ}
  {s s' : State} {digest : String}

theorem blob_of_pos (h : Rep store seen pin held s) (hd : 0 < s.fields.refcount.countOf digest) :
    ∃ r raw, s.fields.refcount.counts.find digest = some r ∧ s.find digest = some raw := by
  obtain ⟨r, hr⟩ := RefcountSynced.find_of_pos hd
  have hp := h.blobs.present digest (h.refcount.valid digest r hr).1
  rw [hr, Option.isSome_some] at hp
  obtain ⟨raw, hraw⟩ := Option.isSome_iff_exists.mp hp
  exact ⟨r, raw, hr, hraw⟩

theorem countOf_pos (h : Rep store seen pin held s) {fileId : String} {digests : List String}
    (hm : s.fields.manifest.tryGet fileId = some digests) (hd : digest ∈ digests) :
    0 < s.fields.refcount.countOf digest := by
  have hc := Manifest.count_le_occurrences hm digest
  have hpos := List.count_pos_iff.mpr hd
  rw [h.counted]
  omega

theorem congr (h : Rep store seen pin held s) (hh : ∀ d, held' d = held d) :
    Rep store seen pin held' s :=
  ⟨h.manifest, h.refcount, h.blobs, fun d ↦ by rw [h.counted, hh], h.pinned, h.accounted⟩

end Rep

section Operations

variable {store : ChunkStore} {seen : Bytes → Prop} {pin : Option Pin} {held : String → ℕ}
  {s : State} {digest fileId : String} {digests : List String}

def plusOne (held : String → ℕ) (digest : String) (d : String) : ℕ :=
  held d + if d = digest then 1 else 0

/-! ## Storing chunks -/

/-- After `putBlob` the blob is there, and nothing else has changed. -/
theorem quietly_putBlob {blob : Bytes} {R : ChunkStoreError → State → Prop} :
    quietly (ChunkStore.putBlob digest blob) (fun present s' ↦
      present = (s.find digest).isSome ∧ s'.fields = s.fields ∧
        (∀ k, k ≠ digest → s'.find k = s.find k) ∧
          s'.find digest = some ((s.find digest).getD blob)) R s := by
  refine quietly_bind (quietly_existsKey ?_)
  cases hf : s.find digest with
  | some raw => exact quietly_pure ⟨rfl, rfl, fun _ _ ↦ rfl, hf⟩
  | none =>
    exact quietly_bind (quietly_put (quietly_pure ⟨rfl, rfl, fun _ hk ↦ s.find_put_ne hk,
      s.find_put_self digest blob⟩))

private theorem Rep.count {chunk blob : Bytes} {s₁ s₂ : State} {n : ℕ} {rc : RefCount}
    {stats : Stats}
    (h : Rep store seen pin held s) (hs : seen chunk) (hb : store.encodeBlob chunk = .ok blob)
    (hfields : s₁.fields = ⟨s.fields.manifest, rc, s.fields.stats⟩)
    (hfind : ∀ k, OffRefcount k → k ≠ digestHex store.crates.sha256 chunk → s₁.find k = s.find k)
    (hblob : s₁.find (digestHex store.crates.sha256 chunk)
      = some ((s.find (digestHex store.crates.sha256 chunk)).getD blob))
    (hinc : s.fields.refcount.increment (digestHex store.crates.sha256 chunk) chunk.length
      = .ok (n, rc)) (hrc : RefcountSynced store.crates rc s₁)
    (hstats : stats
      = if (s.find (digestHex store.crates.sha256 chunk)).isSome
        then s.fields.stats.addReference chunk.length
        else s.fields.stats.addUniqueChunk chunk.length)
    (hs₂ : s₂ = s₁.withFields { s₁.fields with stats := stats }) :
    Rep store seen pin (plusOne held (digestHex store.crates.sha256 chunk)) s₂ := by
  have hd := isChunkDigest_digestHex store.crates.sha256 chunk
  have hfind₂ : ∀ k, s₂.find k = s₁.find k := fun k ↦ by rw [hs₂, State.find_withFields]
  have hf₂ : s₂.fields = ⟨s.fields.manifest, rc, stats⟩ := by
    rw [hs₂, State.fields_withFields, hfields]
  obtain ⟨hn, hcounts⟩ := RefCount.increment_eq_ok hinc
  have hentry : ∀ e, rc.counts.find e = if e = digestHex store.crates.sha256 chunk
      then some ⟨n, s.fields.refcount.mergedSize (digestHex store.crates.sha256 chunk) chunk.length⟩
      else s.fields.refcount.counts.find e := fun e ↦ by rw [hcounts, Table.find_set]
  have hpresent := h.blobs.present _ hd
  have hoff : ∀ e, isChunkDigest e = true → e ≠ digestHex store.crates.sha256 chunk →
      s₂.find e = s.find e := fun e he hne ↦ by
    rw [hfind₂, hfind e (offRefcount_of_isChunkDigest he) hne]
  refine ⟨?_, ?_, ⟨fun e he ↦ ?_, fun e raw he hraw ↦ ?_, fun e r raw hr h0 hraw ↦ ?_⟩,
    fun e ↦ ?_, fun p hp ↦ ?_, fun hc hnc ↦ ?_⟩
  · rw [hf₂]
    exact h.manifest.of_find fun g ↦ by
      rw [hfind₂, hfind _ (offRefcount_manifestKey g)
        (ne_of_isChunkDigest hd (isChunkDigest_manifestKey g)).symm]
  · rw [hf₂]
    exact hrc.of_find fun _ ↦ hfind₂ _
  · rw [hf₂]
    dsimp only
    rw [hentry]
    split
    · rename_i hed
      rw [hed, hfind₂, hblob]
      rfl
    · rename_i hed
      rw [hoff e he hed, h.blobs.present e he]
  · by_cases hed : e = digestHex store.crates.sha256 chunk
    · rw [hed, hfind₂, hblob] at hraw
      cases hf : s.find (digestHex store.crates.sha256 chunk) with
      | some raw' =>
        rw [hf] at hraw
        cases hraw
        rw [hed]
        exact h.blobs.holds _ _ hd hf
      | none =>
        rw [hf] at hraw
        cases hraw
        exact ⟨chunk, hs, store.decodeBlob_encodeBlob hb, hed.symm⟩
    · rw [hoff e he hed] at hraw
      exact h.blobs.holds e raw he hraw
  · rw [hf₂] at hr
    dsimp only at hr
    rw [hentry] at hr
    split at hr
    · rename_i hed
      cases hr
      rw [hed, hfind₂, hblob] at hraw
      rw [RefCount.mergedSize] at h0
      cases hf : s.fields.refcount.counts.find (digestHex store.crates.sha256 chunk) with
      | some r =>
        rw [hf] at h0 hpresent
        obtain ⟨raw', hraw'⟩ := Option.isSome_iff_exists.mp hpresent
        rw [hraw'] at hraw
        cases hraw
        refine h.blobs.empty _ r _ hf ?_ hraw'
        dsimp only at h0
        split at h0
        · assumption
        · rename_i hne
          exact absurd h0 hne
      | none =>
        rw [hf] at h0 hpresent
        rw [Option.isSome_none, Option.isSome_eq_false_iff, Option.isNone_iff_eq_none] at hpresent
        rw [hpresent] at hraw
        cases hraw
        dsimp only at h0
        rw [Option.getD_none, store.decodeBlob_encodeBlob hb, List.length_eq_zero_iff.mp h0]
    · rename_i hed
      rw [hoff e (h.refcount.valid e r hr).1 hed] at hraw
      exact h.blobs.empty e r raw hr h0 hraw
  · rw [hf₂]
    dsimp only
    rw [RefCount.countOf_increment hinc, plusOne]
    split
    · rename_i hed
      rw [hed, h.counted]
      omega
    · exact h.counted e
  · obtain ⟨hm, hk⟩ := h.pinned p hp
    refine ⟨by rw [hf₂]; exact hm, fun e he ↦ ?_⟩
    have hpos := h.countOf_pos hm he
    obtain ⟨r, raw, hr, hraw⟩ := h.blob_of_pos hpos
    rw [← hk e he]
    by_cases hed : e = digestHex store.crates.sha256 chunk
    · rw [hed, hfind₂, hblob, ← hed, hraw]
      rfl
    · rw [hoff e (h.refcount.valid e r hr).1 hed]
  · refine (h.accounted hc hnc).count hnc hs hinc (by rw [hf₂]) ?_
    rw [hf₂, hstats, hpresent]

/-- The condition under which the statistics are known to be sums. -/
def ChunkStore.Plain (store : ChunkStore) (seen : Bytes → Prop) : Prop :=
  store.codec = none ∧ NoCollision store.crates.sha256 seen

/-- A stored chunk is held once more. The manifest has not changed. -/
theorem quietly_storeChunk {chunk : Bytes} (h : Rep store seen pin held s) (hs : seen chunk) :
    quietly (flat (store.storeChunk (digestHex store.crates.sha256 chunk) chunk))
      (fun _ s' ↦ Rep store seen pin (plusOne held (digestHex store.crates.sha256 chunk)) s' ∧
        s'.fields.manifest = s.fields.manifest ∧ ∃ blob, store.encodeBlob chunk = .ok blob)
      (fun _ s' ↦ Rep store seen pin held s' ∧ s'.fields.manifest = s.fields.manifest ∧
        ¬store.Plain seen) s := by
  have hd := isChunkDigest_digestHex store.crates.sha256 chunk
  simp only [ChunkStore.storeChunk, flat_bind, flat_ofExcept, flat_locked, flat_ite, flat_pure]
  refine quietly_bind (quietly_ofExcept (fun blob hb ↦ ?_) fun e he ↦ ⟨h, rfl, fun hplain ↦ ?_⟩)
  rotate_left
  · rw [ChunkStore.encodeBlob, hplain.1] at he
    cases he
  refine quietly_bind (quietly_mono quietly_putBlob ?_ fun _ _ h ↦ h)
  rintro present s₁ ⟨rfl, hf₁, hfind₁, hblob₁⟩
  refine quietly_bind (quietly_bind (quietly_fieldOrThrow (fun n hn ↦ ?_) fun e he ↦ ?_))
  · rw [FieldAccess.run, hf₁] at hn ⊢
    cases hinc : s.fields.refcount.increment (digestHex store.crates.sha256 chunk)
      chunk.length with
    | error e =>
      rw [hinc] at hn
      cases hn
    | ok r =>
      obtain ⟨n', rc⟩ := r
      rw [hinc] at hn
      cases hn
      obtain ⟨hcount, hcounts⟩ := RefCount.increment_eq_ok hinc
      refine quietly_bind (quietly_field ?_)
      have hsize : rc.sizeOf (digestHex store.crates.sha256 chunk)
          = some (s.fields.refcount.mergedSize (digestHex store.crates.sha256 chunk)
            chunk.length) := by
        rw [RefCount.sizeOf, hcounts, Table.find_set_self]
        rfl
      dsimp only [FieldAccess.run, State.fields_withFields]
      rw [hsize, Option.getD_some]
      refine quietly_saveRefcount rc (h.refcount.of_find fun e ↦ ?_) hd (by omega)
        (fun e ↦ by rw [hcounts, Table.find_set]) fun s₂ hf₂ hfind₂ hrc₂ ↦ ?_
      · exact hfind₁ _ (ne_of_isChunkDigest hd (isChunkDigest_refcountKey e)).symm
      · have hrep : ∀ stats, stats = (if (s.find (digestHex store.crates.sha256 chunk)).isSome
            then s.fields.stats.addReference chunk.length
            else s.fields.stats.addUniqueChunk chunk.length) →
            Rep store seen pin (plusOne held (digestHex store.crates.sha256 chunk))
              (s₂.withFields { s₂.fields with stats := stats }) ∧
              (s₂.withFields { s₂.fields with stats := stats }).fields.manifest
                = s.fields.manifest ∧ ∃ blob, store.encodeBlob chunk = .ok blob := by
          intro stats hstats
          refine ⟨h.count hs hb hf₂ (fun k hk hne ↦ ?_) ?_ hinc hrc₂ hstats rfl, by rw [hf₂]; rfl,
            blob, hb⟩
          · rw [hfind₂ k hk]
            exact hfind₁ k hne
          · rw [hfind₂ _ (offRefcount_of_isChunkDigest hd)]
            exact hblob₁
        split
        · rename_i hp
          refine quietly_bind (quietly_field (quietly_pure (hrep _ ?_)))
          rw [if_pos hp, hf₂]
          rfl
        · rename_i hp
          refine quietly_bind (quietly_field (quietly_pure (hrep _ ?_)))
          rw [if_neg hp, hf₂]
          rfl
  · -- a refused increment means an entry, so the blob was there and nothing was put
    rw [FieldAccess.run, hf₁] at he ⊢
    cases hinc : s.fields.refcount.increment (digestHex store.crates.sha256 chunk)
      chunk.length with
    | ok r =>
      rw [hinc] at he
      cases he
    | error e' =>
      have hentry :
          (s.fields.refcount.counts.find (digestHex store.crates.sha256 chunk)).isSome := by
        cases hf : s.fields.refcount.counts.find (digestHex store.crates.sha256 chunk) with
        | some r => rfl
        | none =>
          rw [RefCount.increment_of_find_none hf] at hinc
          cases hinc
      have hsome := h.blobs.present _ hd
      rw [hentry] at hsome
      obtain ⟨raw, hraw⟩ := Option.isSome_iff_exists.mp hsome
      have hsame : ∀ k, s₁.find k = s.find k := fun k ↦ by
        by_cases hk : k = digestHex store.crates.sha256 chunk
        · rw [hk, hblob₁, hraw]
          rfl
        · exact hfind₁ k hk
      refine ⟨⟨h.manifest.of_find fun _ ↦ hsame _, h.refcount.of_find fun _ ↦ hsame _,
        h.blobs.of_find (fun _ _ ↦ hsame _) fun d r hr ↦ (h.refcount.valid d r hr).1, h.counted,
        fun p hp ↦ ⟨(h.pinned p hp).1, fun d hd ↦ by
          rw [← (h.pinned p hp).2 d hd]
          exact hsame d⟩, h.accounted⟩, rfl, fun hplain ↦ ?_⟩
      obtain ⟨r, hr⟩ := Option.isSome_iff_exists.mp hentry
      obtain ⟨chunk', hs', hdig, hsize⟩ := (h.accounted hplain.1 hplain.2).sized _ r hr
      rw [hplain.2 chunk' chunk hs' hs hdig] at hsize
      rw [RefCount.increment_of_size hr hsize] at hinc
      cases hinc

/-! ## Releasing chunks -/

private theorem quietly_chunkSize {r : ChunkRef} {R : ChunkStoreError → State → Prop}
    (h : Rep store seen pin held s) (hr : s.fields.refcount.counts.find digest = some r) :
    quietly (flat (store.chunkSize digest)) (fun size s' ↦ size = r.size ∧ s' = s) R s := by
  have hsize : s.fields.refcount.sizeOf digest = some r.size := by
    rw [RefCount.sizeOf, hr]
    rfl
  simp only [ChunkStore.chunkSize, flat_bind, flat_locked, flat_ite, flat_pure, flat_unlocked]
  refine quietly_bind (quietly_field ?_)
  dsimp only [FieldAccess.run]
  rw [hsize, Option.getD_some, State.withFields_fields]
  split
  · exact quietly_pure ⟨rfl, rfl⟩
  · rename_i h0
    have hzero : r.size = 0 := Nat.eq_zero_of_not_pos h0
    obtain ⟨-, raw, -, hraw⟩ := h.blob_of_pos (h.refcount.countOf_pos hr)
    refine quietly_bind (quietly_get ?_)
    rw [hraw]
    dsimp only
    rw [flat_bind, flat_ofExcept, h.blobs.empty digest r raw hr hzero hraw, ofExcept_ok, pure_bind]
    exact quietly_pure ⟨hzero.symm, rfl⟩

private theorem Rep.release {r : ChunkRef} {s₁ : State} {rc : RefCount} {stats : Stats}
    (h : Rep store seen pin (plusOne held digest) s)
    (hr : s.fields.refcount.counts.find digest = some r)
    (hf₁ : s₁.fields = ⟨s.fields.manifest, rc, stats⟩)
    (hrc : rc.counts = if r.count - 1 = 0 then s.fields.refcount.counts.unset digest
      else s.fields.refcount.counts.set digest ⟨r.count - 1, r.size⟩)
    (hfind : ∀ k, OffRefcount k → k ≠ digest → s₁.find k = s.find k)
    (hblob : s₁.find digest = if r.count - 1 = 0 then none else s.find digest)
    (hsync : RefcountSynced store.crates rc s₁)
    (htotal : stats.totalBytes = s.fields.stats.totalBytes - r.size)
    (hstored : stats.storedBytes = if r.count - 1 = 0 then s.fields.stats.storedBytes - r.size
      else s.fields.stats.storedBytes) :
    Rep store seen pin held s₁ := by
  obtain ⟨hd, hpos⟩ := h.refcount.valid digest r hr
  have hcd := h.counted digest
  rw [RefCount.countOf_of_find hr, plusOne, if_pos rfl] at hcd
  have hcount : ∀ e, rc.countOf e
      = if e = digest then r.count - 1 else s.fields.refcount.countOf e := by
    intro e
    split at hrc
    · rename_i h0
      rw [RefCount.countOf_of_counts_unset hrc, h0]
    · exact RefCount.countOf_of_counts_set hrc e
  have hoff : ∀ e, isChunkDigest e = true → e ≠ digest → s₁.find e = s.find e := fun e he hne ↦
    hfind e (offRefcount_of_isChunkDigest he) hne
  have hentry : ∀ e, e ≠ digest → rc.counts.find e = s.fields.refcount.counts.find e := by
    intro e hne
    rw [hrc]
    split
    · exact Table.find_unset_ne hne
    · exact Table.find_set_ne hne
  refine ⟨?_, by rw [hf₁]; exact hsync, ⟨fun e he ↦ ?_, fun e raw he hraw ↦ ?_,
    fun e r' raw hr' h0 hraw ↦ ?_⟩, fun e ↦ ?_, fun p hp ↦ ?_, fun hc hnc ↦ ?_⟩
  · rw [hf₁]
    exact h.manifest.of_find fun g ↦ hfind _ (offRefcount_manifestKey g)
      (ne_of_isChunkDigest hd (isChunkDigest_manifestKey g)).symm
  · rw [hf₁]
    by_cases hed : e = digest
    · rw [hed, hblob, hrc]
      split
      · rw [Table.find_unset_self]
        rfl
      · rw [Table.find_set_self, h.blobs.present digest hd, hr]
        rfl
    · rw [hoff e he hed, h.blobs.present e he, hentry e hed]
  · by_cases hed : e = digest
    · rw [hed, hblob] at hraw
      split at hraw
      · cases hraw
      · rw [hed]
        exact h.blobs.holds digest raw hd hraw
    · rw [hoff e he hed] at hraw
      exact h.blobs.holds e raw he hraw
  · rw [hf₁] at hr'
    dsimp only at hr'
    by_cases hed : e = digest
    · rw [hed] at hr' hraw
      rw [hblob] at hraw
      split at hraw
      · cases hraw
      · rename_i hne
        rw [hrc, if_neg hne, Table.find_set_self] at hr'
        cases hr'
        exact h.blobs.empty digest r raw hr h0 hraw
    · rw [hentry e hed] at hr'
      rw [hoff e (h.refcount.valid e r' hr').1 hed] at hraw
      exact h.blobs.empty e r' raw hr' h0 hraw
  · rw [hf₁]
    dsimp only
    rw [hcount]
    split
    · rename_i hed
      rw [hed]
      omega
    · rename_i hed
      have hce := h.counted e
      rw [plusOne, if_neg hed] at hce
      exact hce
  · obtain ⟨hm, hk⟩ := h.pinned p hp
    refine ⟨by rw [hf₁]; exact hm, fun e he ↦ ?_⟩
    rw [← hk e he]
    by_cases hed : e = digest
    · have hocc := Manifest.count_le_occurrences hm digest
      have hmem := List.count_pos_iff.mpr (hed ▸ he)
      rw [hed, hblob, if_neg (by omega)]
    · obtain ⟨r', hr'⟩ := RefcountSynced.find_of_pos (h.countOf_pos hm he)
      exact hoff e (h.refcount.valid e r' hr').1 hed
  · refine (h.accounted hc hnc).release hr hpos ?_ ?_ ?_
    · rw [hf₁]
      exact hrc
    · rw [hf₁]
      exact htotal
    · rw [hf₁]
      exact hstored

/-- A reference held can be released, and nothing is subtracted from less. -/
theorem precisely_releaseDigest {R : ChunkStoreError → State → Prop}
    (h : Rep store seen pin (plusOne held digest) s) :
    precisely (store.Plain seen) (flat (store.releaseDigest digest))
      (fun _ s' ↦ Rep store seen pin held s' ∧ s'.fields.manifest = s.fields.manifest) R s := by
  have hpos : 0 < s.fields.refcount.countOf digest := by
    rw [h.counted, plusOne, if_pos rfl]
    omega
  obtain ⟨r, raw, hr, hraw⟩ := h.blob_of_pos hpos
  obtain ⟨hd, hcount⟩ := h.refcount.valid digest r hr
  have hstored : store.Plain seen → r.size ≤ s.fields.stats.storedBytes := fun ⟨hc, hnc⟩ ↦
    (h.accounted hc hnc).stored ▸ Table.le_sumBy (fun r : ChunkRef ↦ r.size) hr
  have htotal : store.Plain seen → r.size ≤ s.fields.stats.totalBytes := fun ⟨hc, hnc⟩ ↦
    (Nat.le_mul_of_pos_right r.size hcount).trans ((h.accounted hc hnc).total ▸
      Table.le_sumBy (fun r : ChunkRef ↦ r.size * r.count) hr)
  simp only [ChunkStore.releaseDigest, flat_bind, flat_locked, flat_ite, flat_unlocked]
  refine precisely_bind
    (quietly.precisely ((makes_chunkSize store digest).mono fun _ hc ↦ hc.rising)
    (quietly_mono (quietly_chunkSize h hr) ?_ fun _ _ h ↦ h))
  rintro size _ ⟨rfl, rfl⟩
  have hdec := RefCount.decrement_of_find hr
  refine precisely_bind (precisely_fieldOrThrow (fun _ r' hr' ↦ ?_) (fun n hn ↦ ?_) fun e he ↦ ?_)
  · rw [hr] at hr'
    cases hr'
    exact hcount
  · rw [FieldAccess.run, hdec] at hn ⊢
    cases hn
    dsimp only
    split
    · rename_i h0
      refine precisely_bind (quietly.precisely (makes_backendCall trivial)
        (quietly_delete (precisely_bind ?_)))
      refine quietly.precisely
        (confined_removeRefcount (K := fun _ ↦ True) trivial trivial).rising ?_
      refine quietly_removeRefcount ⟨Table.unset _ digest⟩ (h.refcount.of_find fun e ↦ ?_) hd
        (fun e ↦ Table.find_unset _ _ _) fun s₁ hf₁ hfind₁ hrc₁ ↦ ?_
      · exact State.find_del_ne (ne_of_isChunkDigest hd (isChunkDigest_refcountKey e)).symm
      · refine precisely_bind (precisely_field (fun hp ↦ ?_) (precisely_field (fun hp ↦ ?_)
          ⟨?_, by rw [hf₁]; rfl⟩))
        · rw [Call.Unclamped, hf₁]
          exact hstored hp
        · rw [Call.Unclamped, FieldAccess.run, hf₁]
          exact htotal hp
        refine h.release hr (by rw [hf₁]; rfl) (if_pos h0).symm (fun k hk hne ↦ ?_) ?_
          (hrc₁.of_find fun _ ↦ rfl) rfl ?_
        · exact (hfind₁ k hk).trans (State.find_del_ne hne)
        · rw [if_pos h0]
          exact (hfind₁ _ (offRefcount_of_isChunkDigest hd)).trans (State.find_del_self _ _)
        · rw [if_pos h0]
          rfl
    · rename_i h0
      refine precisely_bind (quietly.precisely
        (confined_saveRefcount (K := fun _ ↦ True) trivial trivial).rising ?_)
      refine quietly_saveRefcount ⟨Table.set _ digest _⟩ (h.refcount.of_find fun _ ↦ rfl) hd
        (by omega) (fun e ↦ Table.find_set _ _ _ _) fun s₁ hf₁ hfind₁ hrc₁ ↦ ?_
      refine precisely_field (fun hp ↦ ?_) ⟨?_, by rw [hf₁]; rfl⟩
      · rw [Call.Unclamped, hf₁]
        exact htotal hp
      refine h.release hr (by rw [hf₁]; rfl) (if_neg h0).symm (fun k hk _ ↦ hfind₁ k hk) ?_
        (hrc₁.of_find fun _ ↦ rfl) rfl ?_
      · rw [if_neg h0]
        exact hfind₁ _ (offRefcount_of_isChunkDigest hd)
      · rw [if_neg h0]
        rfl
  · rw [FieldAccess.run, hdec] at he
    cases he

/-- The references of a list on top of those held. -/
def plusList (held : String → ℕ) (digests : List String) (d : String) : ℕ :=
  held d + digests.count d

theorem plusList_cons (held : String → ℕ) (digest : String) (digests : List String) :
    plusList held (digest :: digests) = plusOne (plusList held digests) digest := by
  funext d
  rw [plusList, plusOne, plusList, List.count_cons, Nat.add_assoc]
  by_cases hd : d = digest
  · rw [if_pos hd, if_pos (by simp [hd])]
  · rw [if_neg hd, if_neg (by simpa using fun h ↦ hd h.symm)]

theorem precisely_releaseDigests {R : ChunkStoreError → State → Prop} (digests : List String)
    (h : Rep store seen pin (plusList held digests) s) :
    precisely (store.Plain seen) (flat (store.releaseDigests digests))
      (fun _ s' ↦ Rep store seen pin held s' ∧ s'.fields.manifest = s.fields.manifest) R s := by
  induction digests generalizing s with
  | nil => exact precisely_pure ⟨h, rfl⟩
  | cons d digests ih =>
    rw [plusList_cons] at h
    rw [ChunkStore.releaseDigests, flat_bind]
    refine precisely_bind (precisely_mono (precisely_releaseDigest h) ?_ fun _ _ h ↦ h)
    rintro _ s₁ ⟨h₁, hm₁⟩
    exact precisely_mono (ih h₁) (fun _ s₂ h₂ ↦ ⟨h₂.1, h₂.2.trans hm₁⟩) fun _ _ h ↦ h

/-! ## Ingest -/

/-- `m'` maps a file to `o` and every other file as `m` does. -/
def Manifest.Updated (m m' : Manifest) (fileId : String) (o : Option (List String)) : Prop :=
  ∀ g, m'.tryGet g = if g = fileId then o else m.tryGet g

/-- **Insert**, when it succeeds. -/
theorem Manifest.of_insert_eq_ok {m m' : Manifest} {fileId : String} {digests : List String}
    {fileBytes : ℕ} (h : m.insert fileId digests fileBytes = .ok m') :
    m'.files = m.files.set fileId digests ∧ m'.fileBytes = m.fileBytes.set fileId fileBytes := by
  rw [Manifest.insert] at h
  split at h
  · cases h
  · cases h
    exact ⟨rfl, rfl⟩

theorem Manifest.updated_of_insert {m m' : Manifest} {fileId : String} {digests : List String}
    {fileBytes : ℕ} (h : m.insert fileId digests fileBytes = .ok m') :
    m.Updated m' fileId (some digests) := fun g ↦ by
  rw [Manifest.tryGet, (Manifest.of_insert_eq_ok h).1]
  exact Table.find_set _ _ _ _

theorem Manifest.updated_remove (m : Manifest) (fileId : String) :
    m.Updated (m.remove fileId).2 fileId none := fun _ ↦ Table.find_unset _ _ _

theorem Manifest.Updated.occurrences {m m' : Manifest} {fileId : String}
    {o : Option (List String)} (h : m.Updated m' fileId o) (d : String) :
    m'.occurrences d + ((m.tryGet fileId).getD []).count d
      = m.occurrences d + (o.getD []).count d := by
  have hget : ((m.files.find fileId).map (List.count d)).getD 0
      = ((m.tryGet fileId).getD []).count d := by
    rw [Manifest.tryGet]
    cases m.files.find fileId <;> rfl
  cases o with
  | none =>
    have hm' : m'.occurrences d = (m.files.unset fileId).sumBy (List.count d) :=
      Table.sumBy_congr _ fun g ↦ (h g).trans (Table.find_unset _ _ _).symm
    rw [hm', ← hget, Table.sumBy_unset]
    rfl
  | some l =>
    have hm' : m'.occurrences d = (m.files.set fileId l).sumBy (List.count d) :=
      Table.sumBy_congr _ fun g ↦ (h g).trans (Table.find_set _ _ _ _).symm
    rw [hm', ← hget, Table.sumBy_set]
    rfl

theorem Manifest.occurrences_remove (m : Manifest) (fileId : String) (d : String) :
    (m.remove fileId).2.occurrences d + ((m.tryGet fileId).getD []).count d
      = m.occurrences d + (Option.getD (none : Option (List String)) []).count d := by
  have hsum := Table.sumBy_unset (List.count d) m.files fileId
  rw [Manifest.occurrences, Manifest.occurrences, Manifest.tryGet, ← hsum]
  cases m.files.find fileId <;> rfl

/-- The manifest has moved, and is saved: the references of the new list are the manifest's, those
of the old one are held. -/
theorem Rep.move {s₁ : State} {m : Manifest} {new old : Option (List String)}
    {held held' : String → ℕ} (h : Rep store seen pin held s)
    (hpin : ∀ p ∈ pin, p.fileId ≠ fileId) (hf₁ : s₁.fields = { s.fields with manifest := m })
    (hfind : ∀ k, OffManifest k → s₁.find k = s.find k)
    (hsync : ManifestSynced store.crates m s₁)
    (hup : s.fields.manifest.Updated m fileId new)
    (hocc : ∀ d, m.occurrences d + (old.getD []).count d
      = s.fields.manifest.occurrences d + (new.getD []).count d)
    (hheld : ∀ d, held' d + (new.getD []).count d = held d + (old.getD []).count d) :
    Rep store seen pin held' s₁ := by
  refine ⟨by rw [hf₁]; exact hsync, ?_, ?_, fun d ↦ ?_, fun p hp ↦ ⟨?_, fun d hd ↦ ?_⟩,
    fun hc hnc ↦ ?_⟩
  · rw [hf₁]
    exact h.refcount.of_find fun d ↦ hfind _ (offManifest_refcountKey d)
  · rw [hf₁]
    exact h.blobs.of_find (fun d hd ↦ hfind d (offManifest_of_isChunkDigest hd))
      fun d r hr ↦ (h.refcount.valid d r hr).1
  · have hc := h.counted d
    have ho := hocc d
    have hh := hheld d
    rw [hf₁]
    dsimp only
    omega
  · rw [hf₁]
    exact (hup p.fileId).trans ((if_neg (hpin p hp)).trans (h.pinned p hp).1)
  · rw [← (h.pinned p hp).2 d hd]
    exact hfind d (offManifest_of_isChunkDigest (h.manifest.valid _ _ (h.pinned p hp).1 d hd))
  · obtain ⟨hz, ht, hs⟩ := h.accounted hc hnc
    exact ⟨by rw [hf₁]; exact hz, by rw [hf₁]; exact ht, by rw [hf₁]; exact hs⟩

/-- Committing turns the held references of a session into those of the file. -/
theorem precisely_commit {session : ChunkStore.IngestSession}
    (h : Rep store seen pin (plusList held session.digests) s)
    (hv : ∀ d ∈ session.digests, isChunkDigest d = true) (hpin : ∀ p ∈ pin, p.fileId ≠ fileId) :
    precisely (store.Plain seen) (flat (store.commit session fileId))
      (fun digests s' ↦ digests = session.digests ∧ fileId ≠ indexName ∧
        Rep store seen pin held s' ∧ s.fields.manifest.insert fileId session.digests
          session.fileBytes = .ok s'.fields.manifest)
      (fun _ s' ↦ fileId = indexName ∨ fileId = "" ∧ s' = s) s := by
  simp only [ChunkStore.commit, ChunkStore.peekDigests, flat_bind, flat_locked, flat_unlocked]
  refine precisely_bind (precisely_field (fun _ ↦ trivial) ?_)
  dsimp only [FieldAccess.run, State.withFields_fields]
  refine precisely_bind
    (precisely_fieldOrThrow (fun _ ↦ trivial) (fun _ hok ↦ ?_) fun _ herr ↦ Or.inr ?_)
  · by_cases hname : fileId = indexName
    · rw [hname]
      exact precisely_bind (quietly.precisely
        (confined_saveManifest (K := fun _ ↦ True) trivial trivial).rising (quietly_mono
          quietly_saveManifest_indexName (fun _ _ hf ↦ hf.elim) fun _ _ _ ↦ Or.inl rfl))
    rw [FieldAccess.run] at hok ⊢
    cases hins : s.fields.manifest.insert fileId session.digests session.fileBytes with
    | error e =>
      rw [hins] at hok
      cases hok
    | ok m =>
      obtain ⟨hm, -⟩ := Manifest.of_insert_eq_ok hins
      have hup := Manifest.updated_of_insert hins
      have hocc : ∀ d, m.occurrences d + ((s.fields.manifest.tryGet fileId).getD []).count d
          = s.fields.manifest.occurrences d + session.digests.count d := fun d ↦ by
        have hsum := Table.sumBy_set (List.count d) s.fields.manifest.files fileId session.digests
        rw [← hm] at hsum
        rw [Manifest.occurrences, Manifest.occurrences, Manifest.tryGet, ← hsum]
        cases s.fields.manifest.files.find fileId <;> rfl
      refine precisely_bind (quietly.precisely
        (confined_saveManifest (K := fun _ ↦ True) trivial trivial).rising (quietly_saveManifest
          (h.manifest.of_find fun _ ↦ rfl) hins hname hv fun s₁ hf₁ hfind₁ hsync₁ ↦ ?_))
      have hrep : Rep store seen pin
          (plusList held ((s.fields.manifest.tryGet fileId).getD [])) s₁ := by
        refine h.move hpin hf₁ (fun k hk ↦ hfind₁ k hk) hsync₁ hup hocc fun d ↦ ?_
        rw [plusList, plusList, Option.getD_some]
        omega
      have hm₁ : s₁.fields.manifest = m := by rw [hf₁]; rfl
      cases hold : s.fields.manifest.tryGet fileId with
      | none =>
        refine precisely_bind
          (precisely_pure (precisely_pure ⟨rfl, hname, ?_, by rw [hm₁, ← hins]⟩))
        rw [hold] at hrep
        exact hrep.congr fun d ↦ rfl
      | some old =>
        dsimp only
        rw [hold] at hrep
        rw [flat_bind]
        refine precisely_bind (precisely_mono (precisely_releaseDigests old hrep) ?_ fun _ _ h ↦ h)
        rintro _ s₂ ⟨h₂, hm₂⟩
        exact precisely_pure ⟨rfl, hname, h₂, by rw [hm₂, hm₁, ← hins]⟩
  · -- only the empty id is refused, before anything has changed
    rw [FieldAccess.run] at herr ⊢
    by_cases hempty : fileId = ""
    · subst hempty
      rw [Manifest.insert_empty]
      exact ⟨rfl, rfl⟩
    · rw [Manifest.insert_eq_ok hempty] at herr
      cases herr

/-- An input that an ingest gets to the end of: no error of the reader, the chunker or the codec. -/
def ChunkStore.Completes (store : ChunkStore) (stream : Stream) : Prop :=
  stream.error = none ∧ ∀ chunk ∈ stream.chunks, ∃ blob, store.encodeBlob chunk = .ok blob

/-- **Ingest keeps the store in sync**, when it returns and when it fails, except that it must not
commit a file named like the index. -/
theorem precisely_ingestStream {stream : Stream} (h : Rep store seen pin held s)
    (hs : ∀ chunk ∈ stream.chunks, seen chunk) (hpin : ∀ p ∈ pin, p.fileId ≠ fileId) :
    precisely (store.Plain seen) (flat (store.ingestStream fileId stream))
      (fun digests s' ↦ digests = stream.chunks.map (digestHex store.crates.sha256) ∧
        stream.error = none ∧ fileId ≠ indexName ∧ Rep store seen pin held s' ∧
          s.fields.manifest.insert fileId digests (stream.chunks.map List.length).sum
            = .ok s'.fields.manifest)
      (fun _ s' ↦ fileId = indexName ∧ store.Completes stream ∨
        (∃ held', Rep store seen pin held' s') ∧ s'.fields.manifest = s.fields.manifest ∧
          (store.Plain seen → stream.error = none → fileId = "")) s := by
  simp only [ChunkStore.ingestStream, Stream.consume, flat_bind, flat_foldlM, bind_assoc]
  refine precisely_bind (precisely_mono (precisely_foldlM (J := fun l session s' ↦
    session.digests ++ l.map (digestHex store.crates.sha256)
        = stream.chunks.map (digestHex store.crates.sha256) ∧
      session.fileBytes + (l.map List.length).sum = (stream.chunks.map List.length).sum ∧
      (∀ chunk ∈ l, seen chunk) ∧
      (∀ chunk ∈ stream.chunks, chunk ∈ l ∨ ∃ blob, store.encodeBlob chunk = .ok blob) ∧
      Rep store seen pin (plusList held session.digests) s' ∧
      s'.fields.manifest = s.fields.manifest)
    (R := fun _ s' ↦ fileId = indexName ∧ store.Completes stream ∨
      (∃ held', Rep store seen pin held' s') ∧ s'.fields.manifest = s.fields.manifest ∧
        (store.Plain seen → stream.error = none → fileId = ""))
    ?_ stream.chunks _ s
      ⟨rfl, Nat.zero_add _, hs, fun _ hc ↦ Or.inl hc, h.congr fun _ ↦ rfl, rfl⟩)
      ?_ fun _ _ h ↦ h)
  · rintro chunk l session s' ⟨hd, hbytes, hl, henc, hr, hm⟩
    rw [List.map_cons, List.sum_cons, ← Nat.add_assoc] at hbytes
    simp only [ChunkStore.accept, flat_bind, flat_pure]
    refine precisely_bind
      (quietly.precisely ((makes_storeChunk store _ chunk).mono fun _ hc ↦ hc.rising)
      (quietly_mono (quietly_storeChunk hr (hl chunk List.mem_cons_self)) ?_ ?_))
    · rintro _ s₁ ⟨h₁, hm₁, hblob⟩
      refine precisely_pure ⟨?_, hbytes, fun c hc ↦ hl c (List.mem_cons_of_mem _ hc), fun c hc ↦ ?_,
        h₁.congr fun d ↦ ?_, hm₁.trans hm⟩
      · rw [← hd, List.map_cons, List.append_assoc]
        rfl
      · rcases henc c hc with hmem | henc
        · rcases List.mem_cons.mp hmem with rfl | hmem
          · exact Or.inr hblob
          · exact Or.inl hmem
        · exact Or.inr henc
      · rw [plusList, plusOne, plusList, List.count_append, List.count_singleton]
        by_cases hdc : d = digestHex store.crates.sha256 chunk
        · rw [if_pos hdc, if_pos (by simp [hdc])]
          omega
        · rw [if_neg hdc, if_neg (by simpa using fun hc ↦ hdc hc.symm)]
          omega
    · rintro _ s₁ ⟨h₁, hm₁, hplain⟩
      exact Or.inr ⟨⟨_, h₁⟩, hm₁.trans hm, fun hp ↦ absurd hp hplain⟩
  · rintro session s' ⟨hd, hbytes, -, henc, hr, hm⟩
    rw [List.map_nil, List.append_nil] at hd
    rw [List.map_nil, List.sum_nil, Nat.add_zero] at hbytes
    have henc' : ∀ chunk ∈ stream.chunks, ∃ blob, store.encodeBlob chunk = .ok blob := fun c hc ↦
      (henc c hc).resolve_left List.not_mem_nil
    cases he : stream.error with
    | some e =>
      exact precisely_bind (precisely_throw (Or.inr ⟨⟨_, hr⟩, hm, fun _ hnone ↦ by cases hnone⟩))
    | none =>
      refine precisely_bind (precisely_pure (precisely_mono (precisely_commit hr ?_ hpin) ?_ ?_))
      · intro d hdm
        rw [hd, List.mem_map] at hdm
        obtain ⟨chunk, -, rfl⟩ := hdm
        exact isChunkDigest_digestHex _ _
      · rintro digests s'' ⟨rfl, hname, h'', hins⟩
        exact ⟨hd, rfl, hname, h'', by rw [← hbytes, ← hm]; exact hins⟩
      · rintro _ s'' (hname | ⟨hempty, rfl⟩)
        · exact Or.inl ⟨hname, he, henc'⟩
        · exact Or.inr ⟨⟨_, hr⟩, hm, fun _ _ ↦ hempty⟩

/-! ## Delete -/

/-- A file that is there is withdrawn, and its references are held. -/
theorem quietly_removeManifest_rep {digests : List String} {R : ChunkStoreError → State → Prop}
    (h : Rep store seen pin held s) (hpin : ∀ p ∈ pin, p.fileId ≠ fileId)
    (hget : s.fields.manifest.tryGet fileId = some digests) :
    quietly (removeManifest store.crates fileId) (fun _ s₁ ↦
      Rep store seen pin (plusList held digests) s₁ ∧
        s₁.fields = { s.fields with manifest := (s.fields.manifest.remove fileId).2 }) R
      (s.withFields { s.fields with manifest := (s.fields.manifest.remove fileId).2 }) := by
  have hname := (h.manifest.name fileId (by rw [hget]; rfl)).2
  refine quietly_removeManifest (m := s.fields.manifest) (h.manifest.of_find fun _ ↦ rfl) hname
    fun s₁ hf₁ hfind₁ hsync₁ ↦ ⟨?_, hf₁⟩
  refine h.move hpin hf₁ (fun k hk ↦ hfind₁ k hk) hsync₁ (s.fields.manifest.updated_remove fileId)
    (s.fields.manifest.occurrences_remove fileId) fun d ↦ ?_
  rw [hget, plusList]
  rfl

/-- **Delete** succeeds exactly on the files there are, and releases their references. -/
theorem precisely_deleteFile (h : Rep store seen pin held s) (hpin : ∀ p ∈ pin, p.fileId ≠ fileId) :
    precisely (store.Plain seen) (flat (store.delete fileId))
      (fun _ s' ↦ (s.fields.manifest.tryGet fileId).isSome ∧ Rep store seen pin held s' ∧
        s'.fields.manifest = (s.fields.manifest.remove fileId).2)
      (fun e s' ↦ s.fields.manifest.tryGet fileId = none ∧
        e = .notFound s!"file {fileId}" ∧ Rep store seen pin held s' ∧
        s'.fields.manifest = (s.fields.manifest.remove fileId).2) s := by
  simp only [ChunkStore.delete, flat_bind, flat_locked, flat_unlocked]
  refine precisely_bind (precisely_fieldOrThrow (fun _ ↦ trivial) (fun digests hok ↦ ?_)
    fun e herr ↦ ?_)
  · have hget : s.fields.manifest.tryGet fileId = some digests := by
      rw [FieldAccess.run, Manifest.remove, Manifest.get] at hok
      rw [Manifest.tryGet]
      cases hf : s.fields.manifest.files.find fileId with
      | none =>
        rw [hf] at hok
        cases hok
      | some ds =>
        rw [hf] at hok
        cases hok
        rfl
    refine precisely_bind (quietly.precisely
      (confined_removeManifest (K := fun _ ↦ True) trivial trivial).rising
      (quietly_mono (quietly_removeManifest_rep h hpin hget) ?_ fun _ _ h ↦ h))
    rintro _ s₁ ⟨hrep, hf₁⟩
    refine precisely_mono (precisely_releaseDigests digests hrep) ?_ fun _ _ h ↦ h
    rintro _ s₂ ⟨h₂, hm₂⟩
    exact ⟨by rw [hget]; rfl, h₂, by rw [hm₂, hf₁]⟩
  · rw [FieldAccess.run, Manifest.remove, Manifest.get] at herr
    have hget : s.fields.manifest.files.find fileId = none ∧
        e = .notFound s!"file {fileId}" := by
      cases hf : s.fields.manifest.files.find fileId with
      | none =>
        rw [hf] at herr
        cases herr
        exact ⟨rfl, rfl⟩
      | some ds =>
        rw [hf] at herr
        cases herr
    have hbytes : s.fields.manifest.fileBytes.find fileId = none := by
      have hb := h.manifest.bytes fileId
      rw [Manifest.tryGet, hget.1] at hb
      rwa [Option.isSome_none, Option.isSome_eq_false_iff, Option.isNone_iff_eq_none] at hb
    have hfiles : ∀ g, (s.fields.manifest.remove fileId).2.files.find g
        = s.fields.manifest.files.find g := fun g ↦ by
      refine (Table.find_unset _ _ _).trans ?_
      split
      · rename_i hg
        rw [hg, hget.1]
      · rfl
    have hfb : ∀ g, (s.fields.manifest.remove fileId).2.fileBytes.find g
        = s.fields.manifest.fileBytes.find g := fun g ↦ by
      refine (Table.find_unset _ _ _).trans ?_
      split
      · rename_i hg
        rw [hg, hbytes]
      · rfl
    refine ⟨hget.1, hget.2, h.move hpin rfl (fun _ _ ↦ rfl) ⟨?_, fun g hg ↦ ?_, fun g ↦ ?_,
      fun g hg ↦ ?_, fun g ds hds ↦ ?_⟩ (s.fields.manifest.updated_remove fileId)
      (s.fields.manifest.occurrences_remove fileId) fun d ↦ ?_, rfl⟩
    · obtain ⟨l, hl, hnd, hmem⟩ := h.manifest.index
      exact ⟨l, hl, hnd, fun g ↦ by rw [hmem, Manifest.tryGet, Manifest.tryGet, hfiles]⟩
    · rw [Manifest.record, hfiles, hfb]
      exact h.manifest.record g hg
    · rw [Manifest.tryGet, hfiles, hfb]
      exact h.manifest.bytes g
    · rw [Manifest.tryGet, hfiles] at hg
      exact h.manifest.name g hg
    · rw [Manifest.tryGet, hfiles] at hds
      exact h.manifest.valid g ds hds
    · rw [Manifest.tryGet, hget.1]

end Operations

end Chunkstore

import Chunkstore.Crash.Prefixes
import Chunkstore.Refinement.FileMap
import Mathlib.Algebra.BigOperators.Ring.Finset
import Mathlib.Algebra.Order.BigOperators.Group.Finset

/-!
# Byte accounting

The statistics go up and down with every chunk; what they are meant to be is a sum over the whole
state. On runs without an error and without a codec the two agree, whichever sum is taken: over the
files and their content, over the persisted records, over the reference counts, over the blobs.

The number of collected chunks is no function of the state. It is a `Handler.tally`, the number of
requests of the run that took the last reference of a digest; a count that has reached zero in the
table and is not yet in the statistics is carried along as a debt (`Collects`).

## Main result

* `ChunkStore.accounting_exact`: all of these, and no subtraction of the run is clamped.
-/

open Effects Program

namespace Chunkstore

/-! ## Sums over a table -/

namespace Table

variable {κ V : Type} [DecidableEq κ]

theorem sumBy_eq_sum (g : V → ℕ) (t : Table κ V) :
    t.sumBy g = ∑ k ∈ t.keys.toFinset, ((t.find k).map g).getD 0 := by
  rw [List.sum_toFinset _ t.nodup_keys, Table.sumBy]
  have hmap : t.entries.map (fun e ↦ g e.2)
      = t.entries.map fun e ↦ ((t.find e.1).map g).getD 0 := by
    refine List.map_congr_left fun e he ↦ ?_
    rw [show t.find e.1 = some e.2 from AList.mem_lookup_iff.mpr he]
    rfl
  rw [hmap]
  exact (congrArg List.sum (List.map_map (g := fun k ↦ ((t.find k).map g).getD 0)
    (f := Sigma.fst) (l := t.entries))).symm

end Table

/-! ## Collected chunks -/

/-- One for a request that takes the last reference of a digest. -/
def Call.falls {γ : Type} : Call γ → State → ℕ
  | .field (.refcountDecrement digest), s =>
    if 0 < s.fields.refcount.countOf digest ∧
        ((FieldAccess.refcountDecrement digest).run s.fields).2.refcount.countOf digest = 0
      then 1 else 0
  | _, _ => 0

/-- How many digests a piece of code takes the last reference of. -/
def fallen {α : Type} (p : BackendM α) (s : State) : ℕ :=
  callHandler.tally Call.falls p.run s

/-- Code that returns has collected what it took the last reference of, `before` more digests whose
count had fallen earlier, and all but `after` that are still to be collected. This is so when no
subtraction is clamped and the counter does not overflow. -/
def Collects {α : Type} (p : BackendM α) (before : ℕ) (after : α → ℕ) : Prop :=
  ∀ s a, wp callHandler.toMachine (unclamped True) p.run (fun _ _ ↦ True) s →
    (callHandler.eval p.run s).1 = .ok a →
    s.fields.stats.gcChunks + before + fallen p s ≤ u64Max →
      (callHandler.eval p.run s).2.fields.stats.gcChunks + after a
        = s.fields.stats.gcChunks + before + fallen p s

section Collects

variable {α β : Type} {store : ChunkStore} {before : ℕ} {digest fileId : String}

theorem fallen_bind (p : BackendM α) (f : α → BackendM β) {s : State} {a : α}
    (ha : (callHandler.eval p.run s).1 = .ok a) :
    fallen (p >>= f) s = fallen p s + fallen (f a) (callHandler.eval p.run s).2 := by
  rw [fallen, ExceptT.run_bind, Handler.tally_bind, ha]
  rfl

theorem collects_pure (a : α) : Collects (pure a : BackendM α) before fun _ ↦ before :=
  fun _ _ _ _ _ ↦ rfl

theorem Collects.bind {p : BackendM α} {f : α → BackendM β} {mid : α → ℕ} {after : β → ℕ}
    (hp : Collects p before mid) (hf : ∀ a, Collects (f a) (mid a) after) :
    Collects (p >>= f) before after := by
  intro s b hw hb hle
  rw [ExceptT.run_bind] at hw hb ⊢
  rw [wp_bind] at hw
  rw [Handler.eval_bind] at hb ⊢
  cases ha : (callHandler.eval p.run s).1 with
  | error e =>
    rw [ha] at hb
    cases hb
  | ok a =>
    have hwf := wp_eval hw
    rw [ha] at hb hwf
    rw [fallen_bind p f ha, ← Nat.add_assoc] at hle ⊢
    have hfirst := hp s a (wp_post hw fun _ _ _ ↦ trivial) ha (Nat.le_of_add_right_le hle)
    rw [← hfirst] at hle ⊢
    exact hf a _ b hwf hb hle

/-- Code that lowers no counter collects nothing. -/
theorem collects_of_rising {p : BackendM α} (hp : Makes Call.Rising p) :
    Collects p before fun _ ↦ before := by
  intro s a _ _ _
  have hzero : fallen p s = 0 := Handler.tally_eq_zero hp (fun c s hc ↦ by
    cases c with
    | backend c => rfl
    | field a =>
      cases a with
      | refcountDecrement digest => exact hc.elim
      | _ => rfl) s
  have hgc : (callHandler.eval p.run s).2.fields.stats.gcChunks = s.fields.stats.gcChunks := by
    refine wp_eval (H := callHandler) (G := .any)
      (hp.wp (I := fun s' ↦ s'.fields.stats.gcChunks = s.fields.stats.gcChunks)
        (fun c s₁ r s₂ hc h hs ↦ ⟨trivial, ?_⟩) rfl)
    obtain rfl := (Prod.mk.inj hs).2
    cases c with
    | backend c => exact h
    | field a =>
      cases a with
      | construct | refcountDecrement | statsRemoveReference | statsRemoveUniqueChunk
      | statsReplace => exact hc.elim
      | manifestInsert f ds n =>
        change ((FieldAccess.manifestInsert f ds n).run s₁.fields).2.stats.gcChunks = _
        rw [FieldAccess.run]
        split <;> exact h
      | refcountIncrement d n =>
        change ((FieldAccess.refcountIncrement d n).run s₁.fields).2.stats.gcChunks = _
        rw [FieldAccess.run]
        split <;> exact h
      | _ => exact h
  rw [hzero, hgc, Nat.add_zero]

theorem collects_confined {K : String → Prop} {p : BackendM α} (hp : Confined K p) :
    Collects p before fun _ ↦ before := collects_of_rising hp.rising

private theorem collects_decrement :
    Collects (fieldOrThrow (.refcountDecrement digest)) 0 fun n ↦ if n = 0 then 1 else 0 := by
  intro s n hw hn _
  have hpos : ∀ r, s.fields.refcount.counts.find digest = some r → 0 < r.count :=
    (hw _ _ rfl).1 trivial
  change ((FieldAccess.refcountDecrement digest).run s.fields).1 = .ok n at hn
  have hfallen : fallen (fieldOrThrow (.refcountDecrement digest)) s
      = (Call.field (.refcountDecrement digest)).falls s := Nat.add_zero _
  have hgc : ((FieldAccess.refcountDecrement digest).run s.fields).2.stats = s.fields.stats := by
    rw [FieldAccess.run]
    split <;> rfl
  change ((FieldAccess.refcountDecrement digest).run s.fields).2.stats.gcChunks + _ = _
  rw [hgc, hfallen, Call.falls, Nat.add_zero]
  rw [FieldAccess.run] at hn ⊢
  cases hdec : s.fields.refcount.decrement digest with
  | error e =>
    rw [hdec] at hn
    cases hn
  | ok r =>
    obtain ⟨n', rc⟩ := r
    rw [hdec] at hn
    cases hn
    obtain ⟨hcount, hafter⟩ := RefCount.countOf_decrement hdec digest
    rw [if_pos rfl, ← hcount] at hafter
    dsimp only
    rw [hafter]
    refine congrArg _ (if_congr ⟨fun h0 ↦ ⟨?_, h0⟩, fun h ↦ h.2⟩ rfl rfl)
    cases hr : s.fields.refcount.counts.find digest with
    | none =>
      rw [RefCount.decrement_of_find_none hr] at hdec
      cases hdec
    | some r =>
      rw [RefCount.countOf_of_find hr]
      exact hpos r hr

private theorem collects_removeUniqueChunk {size : ℕ} :
    Collects (field (.statsRemoveUniqueChunk size)) 1 fun _ ↦ 0 := by
  intro s _ _ _ hle
  have hfallen : fallen (field (.statsRemoveUniqueChunk size)) s = 0 := rfl
  rw [hfallen] at hle ⊢
  exact Nat.min_eq_left hle

private theorem collects_removeReference {size : ℕ} :
    Collects (field (.statsRemoveReference size)) before fun _ ↦ before :=
  fun _ _ _ _ _ ↦ rfl

private theorem collects_releaseDigest : Collects (flat (store.releaseDigest digest)) 0 fun _ ↦
    0 := by
  simp only [ChunkStore.releaseDigest, flat_bind, flat_locked, flat_ite, flat_unlocked]
  refine (collects_of_rising ((makes_chunkSize store digest).mono fun _ h ↦ h.rising)).bind
    fun size ↦ collects_decrement.bind fun remaining ↦ ?_
  split
  · refine (collects_of_rising (makes_backendCall (by trivial))).bind fun _ ↦ Collects.bind
      (collects_confined (confined_removeRefcount (K := fun _ ↦ True) trivial trivial)) fun _ ↦ ?_
    exact collects_removeUniqueChunk.bind fun _ ↦ collects_removeReference
  · exact Collects.bind (collects_confined
      (confined_saveRefcount (K := fun _ ↦ True) trivial trivial)) fun _ ↦ collects_removeReference

theorem collects_releaseDigests (digests : List String) :
    Collects (flat (store.releaseDigests digests)) 0 fun _ ↦ 0 := by
  induction digests with
  | nil => exact collects_pure ()
  | cons d digests ih =>
    rw [ChunkStore.releaseDigests, flat_bind]
    exact collects_releaseDigest.bind fun _ ↦ ih

/-- **Ingest.** Only the release of the old version collects. -/
theorem collects_ingestStream (stream : Stream) :
    Collects (flat (store.ingestStream fileId stream)) 0 fun _ ↦ 0 := by
  simp only [ChunkStore.ingestStream, Stream.consume, flat_bind, flat_foldlM, bind_assoc]
  refine (collects_of_rising (makes_foldlM (fun session chunk ↦ ?_) _ _)).bind fun session ↦ ?_
  · simp only [ChunkStore.accept, flat_bind, flat_pure]
    exact ((makes_storeChunk store _ _).mono fun _ h ↦ h.rising).bind fun _ ↦ makes_pure _
  · refine (collects_of_rising (by cases stream.error <;> trivial)).bind fun session ↦ ?_
    simp only [ChunkStore.commit, ChunkStore.peekDigests, flat_bind, flat_locked, flat_unlocked]
    refine (collects_of_rising (makes_field (by trivial))).bind fun old ↦
      (collects_of_rising (makes_fieldOrThrow (by trivial))).bind fun _ ↦
      (collects_confined (confined_saveManifest (K := fun _ ↦ True) trivial trivial)).bind
        fun _ ↦ ?_
    cases old with
    | none => exact (collects_pure ()).bind fun _ ↦ collects_pure _
    | some old =>
      dsimp only
      rw [flat_bind]
      exact (collects_releaseDigests old).bind fun _ ↦ collects_pure _

/-- **Delete.** -/
theorem collects_delete : Collects (flat (store.delete fileId)) 0 fun _ ↦ 0 := by
  simp only [ChunkStore.delete, flat_bind, flat_locked, flat_unlocked]
  exact (collects_of_rising (makes_fieldOrThrow (by trivial))).bind fun digests ↦
    (collects_confined (confined_removeManifest (K := fun _ ↦ True) trivial trivial)).bind
      fun _ ↦ collects_releaseDigests digests

end Collects

/-! ## Files and their sizes -/

section Sizes

variable {store : ChunkStore} {seen : Bytes → Prop} {m m' : Manifest} {fileId : String}

/-- The byte count of every file is that of chunks with the digests of its list. -/
def Weighed (store : ChunkStore) (seen : Bytes → Prop) (m : Manifest) : Prop :=
  ∀ f digests, m.tryGet f = some digests → ∃ chunks : List Bytes, (∀ c ∈ chunks, seen c) ∧
    chunks.map (digestHex store.crates.sha256) = digests ∧
      m.fileBytes.find f = some (chunks.map List.length).sum

theorem Weighed.insert {chunks : List Bytes} (h : Weighed store seen m)
    (hs : ∀ c ∈ chunks, seen c) (hins : m.insert fileId
      (chunks.map (digestHex store.crates.sha256)) (chunks.map List.length).sum = .ok m') :
    Weighed store seen m' := by
  obtain ⟨hfiles, hbytes⟩ := Manifest.of_insert_eq_ok hins
  intro f digests hf
  rw [Manifest.tryGet, hfiles, Table.find_set] at hf
  rw [hbytes, Table.find_set]
  split
  · rename_i hff
    rw [if_pos hff] at hf
    cases hf
    exact ⟨chunks, hs, rfl, rfl⟩
  · rename_i hff
    rw [if_neg hff] at hf
    exact h f digests hf

theorem Weighed.remove (h : Weighed store seen m) (fileId : String) :
    Weighed store seen (m.remove fileId).2 := by
  intro f digests hf
  rw [Manifest.tryGet, Manifest.remove, Table.find_unset] at hf
  rw [Manifest.remove, Table.find_unset]
  split
  · rename_i hff
    rw [if_pos hff] at hf
    cases hf
  · rename_i hff
    rw [if_neg hff] at hf
    exact h f digests hf

end Sizes

/-! ## Sums over the state -/

section Sums

variable {store : ChunkStore} {seen : Bytes → Prop} {held : String → ℕ} {s : State}

def sizeIn (s : State) (digest : String) : ℕ := (s.fields.refcount.sizeOf digest).getD 0

private theorem sizeIn_digestHex {chunk : Bytes} (h : Accounted store seen s.fields)
    (hnc : NoCollision store.crates.sha256 seen) (hs : seen chunk)
    (hpos : 0 < s.fields.refcount.countOf (digestHex store.crates.sha256 chunk)) :
    sizeIn s (digestHex store.crates.sha256 chunk) = chunk.length := by
  obtain ⟨r, hr⟩ := RefcountSynced.find_of_pos hpos
  obtain ⟨chunk', hs', hd, hsize⟩ := h.sized _ r hr
  rw [sizeIn, RefCount.sizeOf, hr, Option.map_some, Option.getD_some, hsize,
    hnc chunk' chunk hs' hs hd]

/-- The sizes of the digests of a file add up to the bytes of its chunks. -/
theorem sum_sizeIn {chunks : List Bytes} (h : Rep store seen none held s)
    (hp : store.Plain seen) (hs : ∀ c ∈ chunks, seen c) {fileId : String}
    (hget : s.fields.manifest.tryGet fileId
      = some (chunks.map (digestHex store.crates.sha256))) :
    ((chunks.map (digestHex store.crates.sha256)).map (sizeIn s)).sum
      = (chunks.map List.length).sum := by
  rw [List.map_map]
  refine congrArg List.sum (List.map_congr_left fun c hc ↦ ?_)
  exact sizeIn_digestHex (h.accounted hp.1 hp.2) hp.2 (hs c hc)
    (h.countOf_pos hget (List.mem_map_of_mem hc))

def counted (s : State) : Finset String := s.fields.refcount.counts.keys.toFinset

private theorem mem_counted {d : String} :
    d ∈ counted s ↔ (s.fields.refcount.counts.find d).isSome := by
  rw [counted, List.mem_toFinset, Table.mem_keys]

private theorem sum_count_sizeIn {digests : List String} (h : ∀ d ∈ digests, d ∈ counted s) :
    ∑ d ∈ counted s, sizeIn s d * digests.count d = (digests.map (sizeIn s)).sum := by
  rw [Finset.sum_list_map_count]
  symm
  refine Finset.sum_subset_zero_on_sdiff (fun d hd ↦ h d (List.mem_toFinset.mp hd)) (fun d hd ↦ ?_)
    fun d _ ↦ ?_
  · rw [List.count_eq_zero_of_not_mem fun hm ↦ (Finset.mem_sdiff.mp hd).2
      (List.mem_toFinset.mpr hm), Nat.mul_zero]
  · exact Nat.mul_comm _ _

/-- **Double counting.** References times sizes, summed over the digests, are the sizes of the
digests of all files. -/
theorem total_eq_files (h : Rep store seen none (fun _ ↦ 0) s)
    (hacc : Accounted store seen s.fields) :
    s.fields.stats.totalBytes
      = s.fields.manifest.files.sumBy fun digests ↦ (digests.map (sizeIn s)).sum := by
  have hcounted : ∀ f digests, s.fields.manifest.files.find f = some digests →
      ∀ d ∈ digests, d ∈ counted s := fun f digests hf d hd ↦ by
    obtain ⟨r, hr⟩ := RefcountSynced.find_of_pos (h.countOf_pos hf hd)
    rw [mem_counted, hr]
    rfl
  calc s.fields.stats.totalBytes
      = ∑ d ∈ counted s, sizeIn s d * s.fields.refcount.countOf d := by
        rw [hacc.total, Table.sumBy_eq_sum]
        refine Finset.sum_congr rfl fun d _ ↦ ?_
        rw [sizeIn, RefCount.sizeOf, RefCount.countOf_eq]
        cases s.fields.refcount.counts.find d <;> rfl
    _ = ∑ d ∈ counted s, ∑ f ∈ s.fields.manifest.files.keys.toFinset,
          sizeIn s d * ((s.fields.manifest.files.find f).map (List.count d)).getD 0 := by
        refine Finset.sum_congr rfl fun d _ ↦ ?_
        rw [h.counted, Nat.add_zero, Manifest.occurrences, Table.sumBy_eq_sum, Finset.mul_sum]
    _ = s.fields.manifest.files.sumBy fun digests ↦ (digests.map (sizeIn s)).sum := by
        rw [Finset.sum_comm, Table.sumBy_eq_sum]
        refine Finset.sum_congr rfl fun f _ ↦ ?_
        cases hf : s.fields.manifest.files.find f with
        | none => exact Finset.sum_eq_zero fun d _ ↦ Nat.mul_zero _
        | some digests => exact sum_count_sizeIn (hcounted f digests hf)

/-- What is stored under a counted digest has the recorded size. -/
theorem sizeIn_eq_content (h : Rep store seen none held s) (hacc : Accounted store seen s.fields)
    (hnc : NoCollision store.crates.sha256 seen) {d : String}
    (hd : (s.fields.refcount.counts.find d).isSome) : sizeIn s d = (store.content s d).length := by
  obtain ⟨r, hr⟩ := Option.isSome_iff_exists.mp hd
  have hdig := (h.refcount.valid d r hr).1
  obtain ⟨raw, hraw⟩ := Option.isSome_iff_exists.mp ((h.blobs.present d hdig).trans hd)
  obtain ⟨data, hseen, hdec, hdata⟩ := h.blobs.holds d raw hdig hraw
  obtain ⟨chunk, hs, hchunk, hsize⟩ := hacc.sized d r hr
  rw [sizeIn, RefCount.sizeOf, hr, Option.map_some, Option.getD_some, hsize, ChunkStore.content,
    hraw, Option.bind_some, hdec, hnc chunk data hs hseen (hchunk.trans hdata.symm)]
  rfl

/-- The bytes that are stored are those of the chunks there are blobs of. -/
theorem stored_eq_contents (h : Rep store seen none held s) (hacc : Accounted store seen s.fields)
    (hnc : NoCollision store.crates.sha256 seen) :
    s.fields.stats.storedBytes = ((s.backend.data.keys.filter isChunkDigest).map fun k ↦
      (store.content s k).length).sum := by
  rw [hacc.stored, Table.sumBy_eq_sum,
    ← List.sum_toFinset _ (s.backend.data.nodup_keys.filter isChunkDigest)]
  refine Finset.sum_congr (Finset.ext fun d ↦ ?_) fun d hd ↦ ?_
  · rw [List.mem_toFinset, List.mem_toFinset, List.mem_filter, Table.mem_keys, Table.mem_keys]
    constructor
    · intro hd
      obtain ⟨r, hr⟩ := Option.isSome_iff_exists.mp hd
      have hdig := (h.refcount.valid d r hr).1
      exact ⟨(h.blobs.present d hdig).trans hd, hdig⟩
    · rintro ⟨hb, hdig⟩
      exact (h.blobs.present d hdig).symm.trans hb
  · rw [List.mem_toFinset, List.mem_filter, Table.mem_keys] at hd
    exact sizeIn_eq_content h hacc hnc ((h.blobs.present d hd.2).symm.trans hd.1)

/-- Without a codec these are the bytes of the blobs. -/
theorem stored_eq_blobs (h : Rep store seen none held s) (hp : store.Plain seen) :
    s.fields.stats.storedBytes
      = ((s.backend.data.keys.filter isChunkDigest).map fun k ↦
        ((s.find k).getD []).length).sum := by
  rw [stored_eq_contents h (h.accounted hp.1 hp.2) hp.2]
  refine congrArg List.sum (List.map_congr_left fun k _ ↦ ?_)
  rw [ChunkStore.content]
  cases s.find k with
  | none => rfl
  | some raw =>
    rw [Option.bind_some, ChunkStore.decodeBlob, hp.1]
    rfl

/-- Every distinct chunk is stored once, and referred to at least once. -/
theorem stored_le_total (h : Rep store seen none held s) (hp : store.Plain seen) :
    s.fields.stats.storedBytes ≤ s.fields.stats.totalBytes := by
  have hacc := h.accounted hp.1 hp.2
  rw [hacc.stored, hacc.total, Table.sumBy_eq_sum, Table.sumBy_eq_sum]
  refine Finset.sum_le_sum fun d _ ↦ ?_
  cases hr : s.fields.refcount.counts.find d with
  | none => exact Nat.le_refl _
  | some r => exact Nat.le_mul_of_pos_right r.size (h.refcount.valid d r hr).2

end Sums

/-! ## Runs -/

namespace ChunkStore

variable {store : ChunkStore} {seen : Bytes → Prop} {s : State} {m : FileMap} {op : Op}
  {ops : List Op}

/-- The operations that are accounted for. -/
def Op.Accountable : Op → Prop
  | .ingest _ _ => True
  | .delete _ => True
  | .fsck _ => True
  | _ => False

/-- How many digests a run takes the last reference of. -/
def fallenAll (store : ChunkStore) : List Op → State → ℕ
  | [], _ => 0
  | op :: ops, s => fallen (flat (store.perform op)) s + store.fallenAll ops (store.exec op s).2

/-- A state in sync and without held references, whose files have the byte counts of their
chunks. -/
structure Settled (store : ChunkStore) (seen : Bytes → Prop) (s : State) : Prop where
  rep : Rep store seen none (fun _ ↦ 0) s
  weighed : Weighed store seen s.fields.manifest

/-- **The step lemma.** An operation that returns keeps the accounts, and clamps no subtraction. -/
theorem precisely_perform (h : Settled store seen s) (ha : op.Accountable)
    (hs : ∀ chunk ∈ store.chunksOf op, seen chunk) :
    precisely (store.Plain seen) (flat (store.perform op)) (fun _ s' ↦ Settled store seen s')
      (fun _ _ ↦ True) s := by
  cases op with
  | ingest fileId input =>
    rw [perform, flat_map, ingestInput_eq]
    refine precisely_map (precisely_mono (precisely_ingestStream h.rep hs fun p hp ↦ by cases hp)
      ?_ fun _ _ _ ↦ trivial)
    rintro digests s' ⟨rfl, -, -, hr, hins⟩
    exact ⟨hr, h.weighed.insert hs hins⟩
  | delete fileId =>
    rw [perform, flat_map]
    refine precisely_map (precisely_mono (precisely_deleteFile h.rep fun p hp ↦ by cases hp)
      ?_ fun _ _ _ ↦ trivial)
    rintro _ s' ⟨-, hr, hm⟩
    exact ⟨hr, hm ▸ h.weighed.remove fileId⟩
  | fsck repair =>
    rw [perform, flat_map]
    refine precisely_map (quietly.precisely (rising_fsck repair)
      (quietly_mono (R := fun _ _ ↦ True) (quietly_fsck repair h.rep) ?_ fun _ _ h ↦ h))
    rintro report _ ⟨-, rfl⟩
    exact h
  | read | readChunk | stats | chunkRefcount | reopen => exact ha.elim

theorem collects_perform (ha : op.Accountable) :
    Collects (flat (store.perform op)) 0 fun _ ↦ 0 := by
  cases op with
  | ingest fileId input =>
    rw [perform, flat_map, ingestInput_eq, map_eq_pure_bind]
    exact (collects_ingestStream _).bind fun _ ↦ collects_pure _
  | delete fileId =>
    rw [perform, flat_map, map_eq_pure_bind]
    exact collects_delete.bind fun _ ↦ collects_pure _
  | fsck repair =>
    rw [perform, flat_map]
    exact collects_of_rising (rising_fsck repair).map
  | read | readChunk | stats | chunkRefcount | reopen => exact ha.elim

/-- Every request of an operation clamps no subtraction. -/
def ClampsNothing (store : ChunkStore) (op : Op) (s : State) : Prop :=
  wp callHandler.toMachine (unclamped True) (flat (store.perform op)).run (fun _ _ ↦ True) s

theorem clampsNothing_perform (h : Settled store seen s) (hp : store.Plain seen)
    (ha : op.Accountable)
    (hs : ∀ chunk ∈ store.chunksOf op, seen chunk) : store.ClampsNothing op s :=
  wp_mono (wp_callHandler (precisely_perform h ha hs)) (fun _ _ _ _ hu _ ↦ hu hp)
    fun _ _ _ ↦ trivial

/-- What the one execution of an operation that returns does. -/
theorem settled_exec (h : Settled store seen s) (ha : op.Accountable)
    (hs : ∀ chunk ∈ store.chunksOf op, seen chunk) {reply : Reply}
    (hr : (store.exec op s).1 = .ok reply) : Settled store seen (store.exec op s).2 := by
  have hrun := quietly_eval (precisely_perform h ha hs).quietly
  change outcome _ _ (store.exec op s).1 (store.exec op s).2 at hrun
  rw [hr] at hrun
  exact hrun

/-- **The run lemma.** A run without an error keeps the accounts, clamps no subtraction, and has
collected what it took the last reference of. -/
theorem settled_execAll (hp : store.Plain seen) (h : Settled store seen s)
    (ha : ∀ op ∈ ops, op.Accountable) (hs : ∀ op ∈ ops, ∀ chunk ∈ store.chunksOf op, seen chunk)
    (hok : ∀ r ∈ (store.execAll ops s).1, ∃ reply, r = .ok reply)
    (hle : s.fields.stats.gcChunks + store.fallenAll ops s ≤ u64Max) :
    Settled store seen (store.execAll ops s).2 ∧
      (∀ ops₀ op, ops₀ ++ [op] <+: ops → store.ClampsNothing op (store.execAll ops₀ s).2) ∧
      (store.execAll ops s).2.fields.stats.gcChunks
        = s.fields.stats.gcChunks + store.fallenAll ops s := by
  induction ops generalizing s with
  | nil =>
    refine ⟨h, fun ops₀ op hpre ↦ ?_, rfl⟩
    exact absurd (List.prefix_nil.mp hpre) (List.append_ne_nil_of_right_ne_nil _ (by simp))
  | cons op ops ih =>
    have hop := List.mem_cons_self (a := op) (l := ops)
    obtain ⟨reply, hr⟩ := hok _ List.mem_cons_self
    have hclamps := clampsNothing_perform h hp (ha op hop) (hs op hop)
    rw [fallenAll, ← Nat.add_assoc] at hle ⊢
    have hgc := collects_perform (ha op hop) s reply hclamps hr (Nat.le_of_add_right_le hle)
    change (store.exec op s).2.fields.stats.gcChunks + 0 = _ at hgc
    rw [Nat.add_zero, Nat.add_zero] at hgc
    rw [← hgc] at hle ⊢
    obtain ⟨hsettled, hall, hcount⟩ := ih (settled_exec h (ha op hop) (hs op hop) hr)
      (fun o ho ↦ ha o (List.mem_cons_of_mem op ho)) (fun o ho ↦ hs o (List.mem_cons_of_mem op ho))
      (fun r hr' ↦ hok r (List.mem_cons_of_mem _ hr')) hle
    refine ⟨hsettled, fun ops₀ o hpre ↦ ?_, hcount⟩
    cases ops₀ with
    | nil =>
      rw [List.nil_append, List.cons_prefix_cons] at hpre
      rw [hpre.1]
      exact hclamps
    | cons o₀ ops₀ =>
      rw [List.cons_append, List.cons_prefix_cons] at hpre
      obtain ⟨rfl, hpre⟩ := hpre
      exact hall ops₀ o hpre

/-- The accounts of a state against the files there should be. -/
structure Balanced (store : ChunkStore) (files : FileMap) (s : State) : Prop where
  /-- The files of the manifest are those there should be. -/
  present : ∀ f, f ∈ s.fields.manifest.files.keys ↔ (files f).isSome
  contents : s.fields.stats.totalBytes
    = (s.fields.manifest.files.keys.map fun f ↦ ((files f).getD []).length).sum
  persisted : s.fields.stats.totalBytes
    = (((readIndex store.crates s manifestIndexKey).getD []).map fun f ↦
        ((persistedFile store.crates s f).map ManifestRecord.fileBytes).getD 0).sum
  references : s.fields.stats.totalBytes
    = (s.fields.refcount.iterRefs.map fun e ↦ e.2.count * e.2.size).sum
  blobs : s.fields.stats.storedBytes
    = ((s.backend.data.keys.filter isChunkDigest).map fun k ↦ ((s.find k).getD []).length).sum
  bounded : s.fields.stats.storedBytes ≤ s.fields.stats.totalBytes

private theorem Settled.balanced (h : Settled store seen s) (hp : store.Plain seen)
    (hm : Represents store seen m s) : Balanced store m s := by
  have hbytes : ∀ f digests, s.fields.manifest.tryGet f = some digests →
      ∃ n, s.fields.manifest.fileBytes.find f = some n ∧ (digests.map (sizeIn s)).sum = n :=
    fun f digests hf ↦ by
      obtain ⟨chunks, hs, rfl, hb⟩ := h.weighed f digests hf
      exact ⟨_, hb, sum_sizeIn h.rep hp hs hf⟩
  have hfiles := total_eq_files h.rep (h.rep.accounted hp.1 hp.2)
  rw [Table.sumBy_eq_sum] at hfiles
  refine ⟨fun f ↦ ?_, ?_, ?_, ?_, stored_eq_blobs h.rep hp, stored_le_total h.rep hp⟩
  · rw [Table.mem_keys]
    have hf := hm f
    cases hmf : m f with
    | none =>
      rw [hmf, Manifest.tryGet] at hf
      rw [hf]
      exact Iff.rfl
    | some data =>
      rw [hmf] at hf
      obtain ⟨chunks, -, -, hget⟩ := hf
      rw [Manifest.tryGet] at hget
      rw [hget]
      exact Iff.rfl
  · rw [hfiles, List.sum_toFinset _ s.fields.manifest.files.nodup_keys]
    refine congrArg List.sum (List.map_congr_left fun f _ ↦ ?_)
    have hf := hm f
    cases hmf : m f with
    | none =>
      rw [hmf, Manifest.tryGet] at hf
      rw [hf]
      rfl
    | some data =>
      rw [hmf] at hf
      obtain ⟨chunks, hs, rfl, hget⟩ := hf
      have hsum := sum_sizeIn h.rep hp hs hget
      rw [Manifest.tryGet] at hget
      rw [hget, Option.map_some, Option.getD_some, hsum, Option.getD_some, List.length_flatten]
  · obtain ⟨l, hl, hnd, hmem⟩ := h.rep.manifest.index
    rw [hfiles, hl, Option.getD_some, ← List.sum_toFinset _ hnd]
    refine Finset.sum_congr (Finset.ext fun f ↦ ?_) fun f _ ↦ ?_
    · rw [List.mem_toFinset, List.mem_toFinset, Table.mem_keys, hmem, Manifest.tryGet]
    · rw [persistedFile, hl, Option.getD_some]
      cases hf : s.fields.manifest.files.find f with
      | none =>
        rw [if_neg fun hfl ↦ by
          have hsome := (hmem f).mp hfl
          rw [Manifest.tryGet, hf] at hsome
          cases hsome]
        rfl
      | some digests =>
        have hfl : f ∈ l := (hmem f).mpr (by rw [Manifest.tryGet, hf]; rfl)
        obtain ⟨n, hn, hsum⟩ := hbytes f digests hf
        have hrec := h.rep.manifest.record f (h.rep.manifest.name f ((hmem f).mp hfl)).2
        rw [Manifest.record, hf, Option.bind_some, hn, Option.map_some, Option.map_some] at hrec
        rw [if_pos hfl, manifestRecord, hrec, Option.bind_some,
          store.crates.serde.manifest_roundtrip]
        exact hsum
  · rw [(h.rep.accounted hp.1 hp.2).total, Table.sumBy, RefCount.iterRefs, Table.pairs,
      List.map_map]
    exact congrArg List.sum (List.map_congr_left fun e _ ↦ Nat.mul_comm _ _)

/-- **Byte accounting is exact.** After a run of ingests, deletes and fscks in which every operation
returned, on a store without a codec and with chunks that do not collide, the statistics are the
sums over the files, the persisted records, the references and the blobs; the number of collected
chunks is how often the run took a last reference; and no subtraction of the run was clamped. -/
theorem accounting_exact (store : ChunkStore) (hc : store.codec = none) (lists : Bool)
    (ops : List Op) (ha : ∀ op ∈ ops, op.Accountable)
    (hnc : NoCollision store.crates.sha256 (store.Ingested ops))
    (hok : ∀ r ∈ (store.run lists ops).1, ∃ reply, r = .ok reply)
    (hgc : store.fallenAll ops (store.run lists []).2 ≤ u64Max) :
    Balanced store (ops.foldl FileMap.after .empty) (store.run lists ops).2 ∧
      (store.run lists ops).2.fields.stats.gcChunks
        = store.fallenAll ops (store.run lists []).2 ∧
      ∀ ops₀ op, ops₀ ++ [op] <+: ops → store.ClampsNothing op (store.run lists ops₀).2 := by
  have hs : ∀ op ∈ ops, ∀ chunk ∈ store.chunksOf op, store.Ingested ops chunk := fun op hop c hc ↦
    ⟨op, hop, hc⟩
  have hstart := (exec_reopen_empty store lists).2
  have hzero : (store.run lists []).2.fields.stats.gcChunks = 0 := by
    rw [run, execAll, hstart]
    rfl
  have hsettled : Settled store (store.Ingested ops) (store.run lists []).2 := by
    refine ⟨rep_start store _ lists, fun f digests hf ↦ ?_⟩
    rw [run, execAll, hstart] at hf
    cases hf
  obtain ⟨hfinal, hclamps, hcount⟩ := settled_execAll ⟨hc, hnc⟩ hsettled ha hs hok
    (by rw [hzero, Nat.zero_add]; exact hgc)
  obtain ⟨-, -, hm⟩ := (represents_start store _ lists).execAll hnc (rep_start store _ lists) hs
    (ingestsReturned_of_ok hok)
  rw [hzero, Nat.zero_add] at hcount
  exact ⟨hfinal.balanced ⟨hc, hnc⟩ hm, hcount, hclamps⟩

/-- Two files that share a chunk, one of them replaced: the chunk only the old version had is
collected. -/
theorem accounting_exact_shared :
    Balanced smallStore (sharedOps.foldl FileMap.after .empty) (smallStore.run true sharedOps).2 ∧
      (smallStore.run true sharedOps).2.fields.stats.gcChunks
        = smallStore.fallenAll sharedOps (smallStore.run true []).2 ∧
      ∀ ops₀ op, ops₀ ++ [op] <+: sharedOps →
        smallStore.ClampsNothing op (smallStore.run true ops₀).2 :=
  accounting_exact smallStore rfl true sharedOps
    (fun op hop ↦ by
      simp only [sharedOps, List.mem_cons, List.not_mem_nil, or_false] at hop
      rcases hop with rfl | rfl | rfl <;> trivial)
    (noCollision_ingested (by decide +kernel)) (exists_reply_of_all (by decide +kernel))
    (by decide +kernel)

example : smallStore.fallenAll sharedOps (smallStore.run true []).2 = 1 := by decide +kernel

end ChunkStore

end Chunkstore

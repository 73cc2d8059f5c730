import Chunkstore.Accounting.Balance
import Chunkstore.Accounting.Rebuilt
import Chunkstore.Codec.Transparent

/-!
# Sums with a codec

With a codec the recorded sizes are still those of the chunks, and the statistics are their sums,
for as long as no reopening has measured a blob whose length is not that of its chunk. `Summed`
carries this through a run whose operations all return.

## Main result

* `ChunkStore.accounted_run`: after such a run the statistics are the sums of the recorded sizes.
-/

open Effects Program

namespace Chunkstore

/-! ## The invariant -/

/-- The tally is kept, every recorded size is that of a chunk, and the blobs are those of the
counted digests. -/
structure Summed (store : ChunkStore) (seen : Bytes → Prop) (s : State) : Prop
    extends Tallied store s where
  chunk : ∀ d r, s.fields.refcount.counts.find d = some r →
    ∃ chunk, seen chunk ∧ digestHex store.crates.sha256 chunk = d ∧ r.size = chunk.length
  present : ∀ d, isChunkDigest d = true →
    (s.find d).isSome = (s.fields.refcount.counts.find d).isSome

section Steps

variable {store : ChunkStore} {seen : Bytes → Prop} {s s' : State} {digest : String} {chunk : Bytes}

theorem Summed.accounted (h : Summed store seen s) : Accounted store seen s.fields :=
  ⟨h.chunk, h.total, h.stored⟩

/-- **Storing a chunk** keeps the sums. -/
theorem Summed.store_chunk (h : Summed store seen s) (hnc : NoCollision store.crates.sha256 seen)
    (hs : seen chunk) (hst : Stored store (digestHex store.crates.sha256 chunk) chunk s s') :
    Summed store seen s' := by
  have hd := isChunkDigest_digestHex store.crates.sha256 chunk
  obtain ⟨n, hinc⟩ := hst.counted
  obtain ⟨-, hcounts⟩ := RefCount.increment_eq_ok hinc
  obtain ⟨blob, hblob, hfind⟩ := hst.encoded
  have hpresent := h.present _ hd
  have hacc := h.accounted.count hnc hs hinc rfl (by rw [hst.stats, hpresent])
  refine ⟨⟨hst.mirrors, fun d r raw hr h0 hraw ↦ ?_, ?_, hacc.total, hacc.stored⟩, hacc.sized,
    fun d hdig ↦ ?_⟩
  · by_cases hdd : d = digestHex store.crates.sha256 chunk
    · rw [hdd] at hr hraw
      obtain ⟨chunk', hs', hdig, hsize⟩ := hacc.sized _ r hr
      obtain rfl := hnc chunk' chunk hs' hs hdig
      have hnil : chunk' = [] := List.length_eq_zero_iff.mp (hsize.symm.trans h0)
      rw [hfind] at hraw
      cases hf : s.find (digestHex store.crates.sha256 chunk') with
      | none =>
        rw [hf, Option.getD_none] at hraw
        obtain rfl := Option.some.inj hraw
        rw [store.decodeBlob_encodeBlob hblob, hnil]
      | some raw' =>
        rw [hf, Option.getD_some] at hraw
        obtain rfl := Option.some.inj hraw
        rw [hf] at hpresent
        obtain ⟨r', hr'⟩ := Option.isSome_iff_exists.mp hpresent.symm
        obtain ⟨chunk, hs, hdig', hsize'⟩ := h.chunk _ r' hr'
        obtain rfl := hnc chunk chunk' hs hs' hdig'
        exact h.sized _ r' raw' hr' (hsize'.trans (hsize.symm.trans h0)) hf
    · rw [hcounts, Table.find_set_ne hdd] at hr
      rw [hst.find d (offRefcount_of_isChunkDigest (h.mirrors.valid d r hr).1) hdd] at hraw
      exact h.sized d r raw hr h0 hraw
  · rw [hst.manifest]
    exact h.listed
  · rw [hcounts, Table.find_set]
    by_cases hdd : d = digestHex store.crates.sha256 chunk
    · rw [if_pos hdd, hdd, hfind]
      rfl
    · rw [if_neg hdd, hst.find d (offRefcount_of_isChunkDigest hdig) hdd, h.present d hdig]

/-- **Releasing a reference** keeps the sums. -/
theorem Summed.release {r : ChunkRef} (h : Summed store seen s)
    (hr : Released store.crates digest r s s') : Summed store seen s' := by
  obtain ⟨-, hpos⟩ := h.mirrors.valid digest r hr.entry
  refine ⟨h.toTallied.release hr, (h.accounted.release hr.entry hpos hr.counts hr.total
    hr.stored).sized, fun d hdig ↦ ?_⟩
  rw [hr.counts]
  by_cases hdd : d = digest
  · rw [hdd, hr.blob]
    split
    · rw [Table.find_unset_self]
      rfl
    · rw [Table.find_set_self, h.present digest (hdd ▸ hdig), hr.entry]
      rfl
  · rw [hr.find d (offRefcount_of_isChunkDigest hdig) hdd, h.present d hdig]
    split
    · rw [Table.find_unset_ne hdd]
    · rw [Table.find_set_ne hdd]

/-- **A change of the manifests** keeps the sums. -/
theorem Summed.aside (h : Summed store seen s) (ha : Aside s s')
    (hl : ∀ f digests, s'.fields.manifest.tryGet f = some digests →
      ∀ d ∈ digests, isChunkDigest d = true) : Summed store seen s' := by
  refine ⟨h.toTallied.aside ha hl, ?_, fun d hdig ↦ ?_⟩
  · rw [ha.refcount]
    exact h.chunk
  · rw [ha.refcount, ha.find d (offManifest_of_isChunkDigest hdig)]
    exact h.present d hdig

/-- **Reopening** keeps the sums, if it measures right. -/
theorem Summed.reopened (h : Summed store seen s) (ho : Opened store.crates s s')
    (hm : store.Measured s) : Summed store seen s' := by
  have hrefs : ∀ d, s'.fields.refcount.counts.find d = s.fields.refcount.counts.find d := fun d ↦ by
    rcases ho.refs d with hd | ⟨r, raw, hr, h0, hraw, hd⟩
    · rw [hd, h.mirrors.refs d]
    · have hr' := hr
      rw [h.mirrors.refs d] at hr'
      have hlen := hm d r raw [] hr h0 hraw (h.sized d r raw hr' h0 hraw)
      rw [hd, hr', ← hlen, List.length_nil, ← h0]
  have hblob : ∀ d, isChunkDigest d = true → s'.find d = s.find d := fun d hdig ↦
    ho.find d (offRefcount_of_isChunkDigest hdig)
  obtain ⟨ht, hst⟩ := ho.rebuilt.sums ho.sized
  refine ⟨⟨ho.mirrors, fun d r raw hr h0 hraw ↦ ?_, fun f digests hf ↦ ho.listed hf, ht, hst⟩,
    fun d r hr ↦ h.chunk d r (hrefs d ▸ hr), fun d hdig ↦ ?_⟩
  · have hr' : s.fields.refcount.counts.find d = some r := hrefs d ▸ hr
    rw [hblob d (h.mirrors.valid d r hr').1] at hraw
    exact h.sized d r raw hr' h0 hraw
  · rw [hblob d hdig, hrefs, h.present d hdig]

end Steps

/-! ## Runs -/

namespace ChunkStore

variable {store : ChunkStore} {seen : Bytes → Prop} {s : State} {op : Op} {ops : List Op}

private theorem quietly_releaseDigest_summed (d : String) (ds : List String)
    (h : Summed store seen s ∧ ∀ e ∈ d :: ds, isChunkDigest e = true) :
    quietly (flat (store.releaseDigest d))
      (fun _ s' ↦ Summed store seen s' ∧ ∀ e ∈ ds, isChunkDigest e = true) (fun _ _ ↦ True) s := by
  refine quietly_mono (quietly_releaseDigest_released h.1.mirrors (h.1.sized d)
    (h.2 d List.mem_cons_self)) ?_ fun _ _ _ ↦ trivial
  rintro _ s' ⟨r, hr⟩
  exact ⟨h.1.release hr, fun e he ↦ h.2 e (List.mem_cons_of_mem d he)⟩

/-- An operation on a file that returns keeps the sums. -/
theorem quietly_perform_summed (h : Summed store seen s)
    (hnc : NoCollision store.crates.sha256 seen) (hop : op.file.isSome)
    (hs : ∀ chunk ∈ store.chunksOf op, seen chunk) :
    quietly (flat (store.perform op)) (fun _ s' ↦ Summed store seen s') (fun _ _ ↦ True) s := by
  cases op with
  | ingest fileId input =>
    rw [perform, flat_map, ingestInput_eq]
    refine quietly_map (quietly_mono (wpx_ingestStream
      (I := fun l s ↦ Summed store seen s ∧ ∀ chunk ∈ l, seen chunk)
      (K := fun ds s ↦ Summed store seen s ∧ ∀ d ∈ ds, isChunkDigest d = true)
      (R := fun _ _ ↦ True) (fun chunk l s hI ↦ ?_) (fun _ _ _ _ ↦ trivial) (fun s _ hI ↦ ?_)
      (fun d ds s hK ↦ quietly_releaseDigest_summed d ds hK) ⟨h, hs⟩)
      (fun _ _ h ↦ h.2.1) fun _ _ h ↦ h)
    · refine quietly_mono (quietly_storeChunk_stored hI.1.mirrors (isChunkDigest_digestHex _ _)) ?_
        fun _ _ _ ↦ trivial
      intro _ s' hst
      exact ⟨hI.1.store_chunk hnc (hI.2 chunk List.mem_cons_self) hst, fun c hc ↦
        hI.2 c (List.mem_cons_of_mem chunk hc)⟩
    · refine quietly_mono quietly_exchange ?_ fun _ _ _ ↦ trivial
      rintro _ s' ⟨rfl, haside, hins⟩
      refine ⟨hI.1.aside haside fun f digests hf d hd ↦ ?_, fun d hd ↦ ?_⟩
      · rw [Manifest.updated_of_insert hins f] at hf
        split at hf
        · obtain rfl := Option.some.inj hf
          obtain ⟨chunk, -, rfl⟩ := List.mem_map.mp hd
          exact isChunkDigest_digestHex _ _
        · exact hI.1.listed f digests hf d hd
      · cases hf : s.fields.manifest.tryGet fileId with
        | none =>
          rw [hf] at hd
          cases hd
        | some digests =>
          rw [hf, Option.getD_some] at hd
          exact hI.1.listed fileId digests hf d hd
  | delete fileId =>
    rw [perform, flat_map]
    refine quietly_map (quietly_mono (wpx_deleteFile
      (K := fun ds s ↦ Summed store seen s ∧ ∀ d ∈ ds, isChunkDigest d = true)
      (quietly_mono quietly_withdraw ?_ fun _ _ _ ↦ trivial)
      fun d ds s hK ↦ quietly_releaseDigest_summed d ds hK) (fun _ _ h ↦ h.1) fun _ _ h ↦ h)
    rintro digests s' ⟨hget, haside, hm⟩
    refine ⟨h.aside haside fun f digests' hf d hd ↦ ?_, h.listed fileId digests hget⟩
    rw [hm, Manifest.updated_remove] at hf
    split at hf
    · cases hf
    · exact h.listed f digests' hf d hd
  | read | readChunk | fsck | stats | chunkRefcount | reopen => cases hop

/-- **The step lemma.** An operation that returns keeps the sums; a reopening if it measures
right. -/
theorem summed_exec (h : Summed store seen s) (hr : Rep store seen none (fun _ ↦ 0) s)
    (hnc : NoCollision store.crates.sha256 seen) (hs : ∀ chunk ∈ store.chunksOf op, seen chunk)
    (hm : op = .reopen → store.Measured s) {reply : Reply}
    (hok : (store.exec op s).1 = .ok reply) : Summed store seen (store.exec op s).2 := by
  have hfile : op.file.isSome → Summed store seen (store.exec op s).2 := fun hop ↦ by
    have hrun := quietly_eval (quietly_perform_summed h hnc hop hs)
    change outcome _ _ (store.exec op s).1 (store.exec op s).2 at hrun
    rw [hok] at hrun
    exact hrun
  have hspec := exec_spec op hr hs fun p hp ↦ by cases hp
  rw [hok] at hspec
  obtain ⟨-, hspec⟩ := hspec
  cases op with
  | ingest fileId input => exact hfile rfl
  | delete fileId => exact hfile rfl
  | read | fsck | stats | chunkRefcount =>
    rw [hspec.1]
    exact h
  | readChunk digest =>
    rw [hspec]
    exact h
  | reopen => exact h.reopened (opened_of_isOk (by rw [hok]; rfl)) (hm rfl)

/-- At every reopening of a run the blobs are measured right. -/
def MeasuredThroughout (store : ChunkStore) (lists : Bool) (ops : List Op) : Prop :=
  ∀ ops₁, ops₁ ++ [.reopen] <+: ops → store.Measured (store.run lists ops₁).2

theorem measured_of_codec_none (hc : store.codec = none) (s : State) : store.Measured s := by
  intro d r raw data _ _ _ hdec
  rw [decodeBlob, hc] at hdec
  rw [Except.ok.inj hdec]

/-- **The run lemma.** After a run in which every operation returned and every reopening measured
right, the statistics are the sums of the recorded sizes, which are those of the chunks. -/
theorem accounted_run (lists : Bool) (hnc : NoCollision store.crates.sha256 seen)
    (hs : ∀ op ∈ ops, ∀ chunk ∈ store.chunksOf op, seen chunk)
    (hok : ∀ r ∈ (store.run lists ops).1, ∃ reply, r = .ok reply)
    (hm : store.MeasuredThroughout lists ops) :
    Accounted store seen (store.run lists ops).2.fields := by
  have hrun : ∀ (ops : List Op) (s : State), Summed store seen s →
      Rep store seen none (fun _ ↦ 0) s → (∀ op ∈ ops, ∀ chunk ∈ store.chunksOf op, seen chunk) →
      (∀ r ∈ (store.execAll ops s).1, ∃ reply, r = .ok reply) →
      (∀ ops₁, ops₁ ++ [.reopen] <+: ops → store.Measured (store.execAll ops₁ s).2) →
      Summed store seen (store.execAll ops s).2 := by
    intro ops
    induction ops with
    | nil => exact fun s h _ _ _ _ ↦ h
    | cons op ops ih =>
      intro s h hr hs hok hm
      obtain ⟨reply, hrep⟩ := hok _ List.mem_cons_self
      have hspec := exec_spec op hr (hs op List.mem_cons_self) fun p hp ↦ by cases hp
      rw [hrep] at hspec
      refine ih _ (summed_exec h hr hnc (hs op List.mem_cons_self) (fun hop ↦ ?_) hrep) hspec.1
        (fun o ho ↦ hs o (List.mem_cons_of_mem op ho))
          (fun r hr' ↦ hok r (List.mem_cons_of_mem _ hr'))
        fun ops₁ hpre ↦ hm (op :: ops₁) (List.cons_prefix_cons.mpr ⟨rfl, hpre⟩)
      exact hm [] (hop ▸ List.cons_prefix_cons.mpr ⟨rfl, List.nil_prefix⟩)
  have hempty : Summed store seen (store.exec .reopen (.empty lists)).2 := by
    rw [(exec_reopen_empty store lists).2]
    have hrep := rep_empty store seen lists
    refine ⟨⟨⟨⟨[], readIndex_of_find_none rfl, fun d hd ↦ absurd hd List.not_mem_nil⟩, fun d ↦ ?_,
      fun d r hr ↦ (by cases hr)⟩, fun d r raw hr ↦ (by cases hr), fun f digests hf ↦ (by cases hf),
      rfl, rfl⟩, fun d r hr ↦ (by cases hr), hrep.blobs.present⟩
    rw [persistedRef_of_readIndex (readIndex_of_find_none rfl), if_neg List.not_mem_nil]
    rfl
  exact (hrun ops _ hempty (rep_start store seen lists) hs hok hm).accounted

end ChunkStore

end Chunkstore

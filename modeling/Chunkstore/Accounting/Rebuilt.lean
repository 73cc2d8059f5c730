import Chunkstore.Accounting.Counters
import Chunkstore.Accounting.Mirrored

/-!
# Live statistics and rebuilt ones

Opening sums the statistics up over the reference counts; a live instance goes by the blobs. The two
agree as long as, for every chunk that is ingested, a blob is there exactly when a count is, and the
count has the size of the chunk (`Agrees`). A backend that a crash has left with a blob but no
count, or that has lost a blob, can be opened, and ingesting the chunk then lets them drift apart.

The counters are `u64`s. A backend may hold a record with a count so large that the sums wrap when
it is opened, and taking away then saturates where the sums of a later opening wrap again. So the
records have to sum up to a `u64`, and there has to be room for what is ingested (`Room`).

## Main result

* `ChunkStore.stats_rebuilt`: on any backend that can be opened and whose sums fit, and any run of
  ingests and deletes without an error whose chunks agree and have room when they are ingested,
  opening the backend again gives the statistics of the live instance.
-/

open Effects Program

namespace Chunkstore

/-! ## The condition -/

/-- The blob of a chunk is there exactly when its count is, and the count has its size. For an empty
chunk one may be there without the other. -/
def Agrees (store : ChunkStore) (s : State) (chunk : Bytes) : Prop :=
  match s.fields.refcount.counts.find (digestHex store.crates.sha256 chunk) with
  | none => s.find (digestHex store.crates.sha256 chunk) = none ∨
      chunk = [] ∧ s.find (digestHex store.crates.sha256 chunk) = some []
  | some r => ((s.find (digestHex store.crates.sha256 chunk)).isSome ∨ chunk = []) ∧
      r.size = chunk.length

instance (store : ChunkStore) (s : State) (chunk : Bytes) : Decidable (Agrees store s chunk) :=
  match h : s.fields.refcount.counts.find (digestHex store.crates.sha256 chunk) with
  | none => decidable_of_iff (s.find (digestHex store.crates.sha256 chunk) = none ∨
      chunk = [] ∧ s.find (digestHex store.crates.sha256 chunk) = some []) (by rw [Agrees, h])
  | some r => decidable_of_iff
      (((s.find (digestHex store.crates.sha256 chunk)).isSome ∨ chunk = []) ∧
      r.size = chunk.length) (by rw [Agrees, h])

/-- The chunks of a list agree, and two of one digest have one length. -/
structure AllAgree (store : ChunkStore) (s : State) (chunks : List Bytes) : Prop where
  agrees : ∀ chunk ∈ chunks, Agrees store s chunk
  lengths : ∀ a ∈ chunks, ∀ b ∈ chunks,
    digestHex store.crates.sha256 a = digestHex store.crates.sha256 b → a.length = b.length

instance (store : ChunkStore) (s : State) (chunks : List Bytes) :
    Decidable (AllAgree store s chunks) :=
  decidable_of_iff ((∀ chunk ∈ chunks, Agrees store s chunk) ∧ ∀ a ∈ chunks, ∀ b ∈ chunks,
    digestHex store.crates.sha256 a = digestHex store.crates.sha256 b → a.length = b.length)
    ⟨fun h ↦ ⟨h.1, h.2⟩, fun h ↦ ⟨h.agrees, h.lengths⟩⟩

/-! ## The invariant -/

/-- The counts are those of the backend, and the statistics are their sums. -/
structure Tallied (store : ChunkStore) (s : State) : Prop where
  mirrors : Mirrors store.crates s.fields.refcount s
  sized : ∀ d, Sized store s d
  listed : ∀ f digests, s.fields.manifest.tryGet f = some digests →
    ∀ d ∈ digests, isChunkDigest d = true
  total : s.fields.stats.totalBytes = s.fields.refcount.counts.sumBy fun r ↦ r.size * r.count
  stored : s.fields.stats.storedBytes = s.fields.refcount.counts.sumBy fun r ↦ r.size

section Steps

variable {store : ChunkStore} {s s' : State} {chunk : Bytes} {digest : String}

theorem counts_of_agrees (h : Agrees store s chunk)
    (hs : Stored store (digestHex store.crates.sha256 chunk) chunk s s') :
    s'.fields.refcount.counts = s.fields.refcount.counts.set (digestHex store.crates.sha256 chunk)
      ⟨s.fields.refcount.countOf (digestHex store.crates.sha256 chunk) + 1, chunk.length⟩ := by
  obtain ⟨n, hinc⟩ := hs.counted
  obtain ⟨rfl, hcounts⟩ := RefCount.increment_eq_ok hinc
  rw [hcounts, RefCount.mergedSize]
  rw [Agrees] at h
  cases hr : s.fields.refcount.counts.find (digestHex store.crates.sha256 chunk) with
  | none => rfl
  | some r =>
    rw [hr] at h
    dsimp only
    rw [h.2]
    split <;> rfl

/-- **Storing an agreeing chunk** keeps the tally. -/
theorem Tallied.store_chunk (h : Tallied store s) (hc : store.codec = none)
    (ha : Agrees store s chunk)
    (hs : Stored store (digestHex store.crates.sha256 chunk) chunk s s') : Tallied store s' := by
  have hcounts := counts_of_agrees ha hs
  have ht := Table.sumBy_set (fun r : ChunkRef ↦ r.size * r.count) s.fields.refcount.counts
    (digestHex store.crates.sha256 chunk)
    ⟨s.fields.refcount.countOf (digestHex store.crates.sha256 chunk) + 1, chunk.length⟩
  have hst := Table.sumBy_set (fun r : ChunkRef ↦ r.size) s.fields.refcount.counts
    (digestHex store.crates.sha256 chunk)
    ⟨s.fields.refcount.countOf (digestHex store.crates.sha256 chunk) + 1, chunk.length⟩
  rw [← hcounts] at ht hst
  obtain ⟨blob, hblob, hfind⟩ := hs.encoded
  rw [ChunkStore.encodeBlob, hc] at hblob
  obtain rfl := Except.ok.inj hblob
  rw [Agrees] at ha
  refine ⟨hs.mirrors, fun d r raw hr h0 hraw ↦ ?_, by rw [hs.manifest]; exact h.listed, ?_, ?_⟩
  · rw [hcounts, Table.find_set] at hr
    split at hr
    · rename_i hd
      obtain rfl := Option.some.inj hr
      have hnil : chunk = [] := List.length_eq_zero_iff.mp h0
      rw [hd, hfind] at hraw
      obtain rfl := Option.some.inj hraw
      cases hf : s.find (digestHex store.crates.sha256 chunk) with
      | none =>
        rw [ChunkStore.decodeBlob, hc, Option.getD_none, hnil]
      | some raw =>
        rw [Option.getD_some]
        rw [hf] at ha
        cases hr : s.fields.refcount.counts.find (digestHex store.crates.sha256 chunk) with
        | none =>
          rw [hr] at ha
          rcases ha with ha | ⟨-, ha⟩
          · cases ha
          · rw [Option.some.inj ha, ChunkStore.decodeBlob, hc]
        | some r =>
          rw [hr] at ha
          exact h.sized _ r raw hr (ha.2.trans h0) hf
    · rename_i hd
      rw [hs.find d (offRefcount_of_isChunkDigest (h.mirrors.valid d r hr).1) hd] at hraw
      exact h.sized d r raw hr h0 hraw
  -- the sums: a chunk without a count has no blob either, or adds nothing
  all_goals
    rw [hs.stats]
    rw [RefCount.countOf_eq] at ht
    cases hr : s.fields.refcount.counts.find (digestHex store.crates.sha256 chunk) with
    | none =>
      rw [hr] at ha ht hst
      simp only [Option.map_none, Option.getD_none, Nat.zero_add, Nat.mul_one,
        Nat.add_zero] at ht hst
      rcases ha with ha | ⟨rfl, ha⟩
      · simp only [ha, Option.isSome_none, Bool.false_eq_true, if_false, Stats.addUniqueChunk,
          h.total, h.stored, ht, hst]
      · simp only [ha, Option.isSome_some, if_true, Stats.addReference, h.total, h.stored, ht, hst,
          List.length_nil, Nat.add_zero]
    | some r =>
      rw [hr] at ha ht hst
      simp only [Option.map_some, Option.getD_some, ha.2, Nat.mul_add, Nat.mul_one] at ht hst
      cases hb : (s.find (digestHex store.crates.sha256 chunk)).isSome with
      | true =>
        simp only [if_true, Stats.addReference, h.total, h.stored]
        omega
      | false =>
        rw [hb, Bool.false_eq_true, false_or] at ha
        rw [ha.1, List.length_nil] at ht hst ⊢
        simp only [Bool.false_eq_true, if_false, Stats.addUniqueChunk, h.total, h.stored]
        omega

theorem AllAgree.tail {chunks : List Bytes} (h : AllAgree store s (chunk :: chunks))
    (hs : Stored store (digestHex store.crates.sha256 chunk) chunk s s') :
    AllAgree store s' chunks := by
  have hcounts := counts_of_agrees (h.agrees chunk List.mem_cons_self) hs
  refine ⟨fun c hc ↦ ?_, fun a ha b hb ↦ h.lengths a (List.mem_cons_of_mem _ ha) b
    (List.mem_cons_of_mem _ hb)⟩
  have hagrees := h.agrees c (List.mem_cons_of_mem _ hc)
  rw [Agrees] at hagrees ⊢
  rw [hcounts, Table.find_set]
  by_cases hd : digestHex store.crates.sha256 c = digestHex store.crates.sha256 chunk
  · obtain ⟨blob, -, hfind⟩ := hs.encoded
    rw [if_pos hd, hd, hfind]
    exact ⟨Or.inl rfl, h.lengths chunk List.mem_cons_self c (List.mem_cons_of_mem _ hc) hd.symm⟩
  · rw [if_neg hd, hs.find _ (offRefcount_of_isChunkDigest (isChunkDigest_digestHex _ _)) hd]
    exact hagrees

/-- **Releasing a reference** keeps the tally. -/
theorem Tallied.release {r : ChunkRef} (h : Tallied store s)
    (hr : Released store.crates digest r s s') : Tallied store s' := by
  obtain ⟨-, hpos⟩ := h.mirrors.valid digest r hr.entry
  obtain ⟨ht, hst⟩ := sums_release hr.entry hpos hr.counts
  refine ⟨hr.mirrors, fun d r' raw hr' h0 hraw ↦ ?_, by rw [hr.manifest]; exact h.listed,
    by rw [hr.total, h.total, ht], by rw [hr.stored, h.stored, hst]⟩
  have hentry : d ≠ digest → s.fields.refcount.counts.find d = some r' := fun hd ↦ by
    rw [hr.counts] at hr'
    split at hr'
    · rwa [Table.find_unset_ne hd] at hr'
    · rwa [Table.find_set_ne hd] at hr'
  by_cases hd : d = digest
  · rw [hd] at hr' hraw
    rw [hr.blob] at hraw
    rw [hr.counts] at hr'
    split at hraw
    · cases hraw
    · rename_i hne
      rw [if_neg hne, Table.find_set_self] at hr'
      obtain rfl := Option.some.inj hr'
      exact h.sized digest r raw hr.entry h0 hraw
  · have hr' := hentry hd
    rw [hr.find d (offRefcount_of_isChunkDigest (h.mirrors.valid d r' hr').1) hd] at hraw
    exact h.sized d r' raw hr' h0 hraw

theorem Tallied.aside (h : Tallied store s) (ha : Aside s s')
    (hl : ∀ f digests, s'.fields.manifest.tryGet f = some digests →
      ∀ d ∈ digests, isChunkDigest d = true) : Tallied store s' := by
  refine ⟨?_, fun d r raw hr h0 hraw ↦ ?_, hl, ?_, ?_⟩
  · rw [ha.refcount]
    exact h.mirrors.of_find fun d ↦ ha.find _ (offManifest_refcountKey d)
  · rw [ha.refcount] at hr
    rw [ha.find d (offManifest_of_isChunkDigest (h.mirrors.valid d r hr).1)] at hraw
    exact h.sized d r raw hr h0 hraw
  · rw [ha.stats, ha.refcount, h.total]
  · rw [ha.stats, ha.refcount, h.stored]

end Steps

/-! ## Opening -/

/-- Rebuilding sums up the entries, when an entry without a size has no bytes. -/
theorem Rebuilt.sums {s : State} {stats : Stats} (h : Rebuilt s stats)
    (hz : ∀ d r raw, s.fields.refcount.counts.find d = some r → r.size = 0 →
      s.find d = some raw → raw = []) :
    stats.totalBytes = (s.fields.refcount.counts.sumBy fun r ↦ r.size * r.count) ∧
      stats.storedBytes = s.fields.refcount.counts.sumBy fun r ↦ r.size := by
  have hsize : ∀ e ∈ s.fields.refcount.iterRefs, rebuiltSize s e = e.2.size := by
    rintro ⟨d, r⟩ he
    rw [rebuiltSize]
    split
    · rfl
    · rename_i hpos
      have h0 : r.size = 0 := Nat.eq_zero_of_not_pos hpos
      dsimp only
      rw [h0]
      cases hf : s.find d with
      | none => rfl
      | some raw =>
        rw [hz d r raw (RefCount.mem_iterRefs.mp he) h0 hf]
        rfl
  constructor
  · rw [h.total, List.map_congr_left fun e he ↦ by rw [hsize e he]]
    exact sum_iterRefs _ fun r ↦ r.size * r.count
  · rw [h.stored, List.map_congr_left hsize]
    exact sum_iterRefs _ fun r ↦ r.size

section Opening

variable {store : ChunkStore} {s s' : State}

theorem Opened.listed {crates : Crates} (h : Opened crates s s') {f : String}
    {digests : List String} (hf : s'.fields.manifest.tryGet f = some digests) :
    ∀ d ∈ digests, isChunkDigest d = true :=
  isChunkDigest_of_matches h.openable.manifests (h.files f) hf

/-- **Opening** starts the tally. -/
theorem Opened.tallied (h : Opened store.crates s s') (hc : store.codec = none) :
    Tallied store s' := by
  obtain ⟨ht, hst⟩ := h.rebuilt.sums h.sized
  refine ⟨h.mirrors, fun d r raw hr h0 hraw ↦ ?_, fun f digests hf ↦ h.listed hf, ht, hst⟩
  rw [ChunkStore.decodeBlob, hc, h.sized d r raw hr h0 hraw]

/-- Opening again counts what was counted. -/
theorem Tallied.reopened (h : Tallied store s) (hc : store.codec = none)
    (ho : Opened store.crates s s') : s'.fields.stats.totalBytes = s.fields.stats.totalBytes ∧
      s'.fields.stats.storedBytes = s.fields.stats.storedBytes := by
  have hrefs : ∀ d, s'.fields.refcount.counts.find d = s.fields.refcount.counts.find d := fun d ↦ by
    rcases ho.refs d with hd | ⟨r, raw, hr, h0, hraw, hd⟩
    · rw [hd, h.mirrors.refs d]
    · rw [h.mirrors.refs d] at hr
      have hnil := h.sized d r raw hr h0 hraw
      rw [ChunkStore.decodeBlob, hc] at hnil
      rw [hd, hr, Except.ok.inj hnil, List.length_nil, ← h0]
  obtain ⟨ht, hst⟩ := ho.rebuilt.sums ho.sized
  rw [ht, hst, h.total, h.stored]
  exact ⟨Table.sumBy_congr _ hrefs, Table.sumBy_congr _ hrefs⟩

end Opening

/-! ## Runs -/

namespace ChunkStore

variable {store : ChunkStore} {s : State} {op : Op} {ops : List Op}

/-- Releasing keeps the tally, and what is left to release. -/
private theorem quietly_releaseDigest_tallied (d : String) (ds : List String)
    (h : Tallied store s ∧ ∀ e ∈ d :: ds, isChunkDigest e = true) :
    quietly (flat (store.releaseDigest d))
      (fun _ s' ↦ Tallied store s' ∧ ∀ e ∈ ds, isChunkDigest e = true) (fun _ _ ↦ True) s := by
  refine quietly_mono (quietly_releaseDigest_released h.1.mirrors (h.1.sized d)
    (h.2 d List.mem_cons_self)) ?_ fun _ _ _ ↦ trivial
  rintro _ s' ⟨r, hr⟩
  exact ⟨h.1.release hr, fun e he ↦ h.2 e (List.mem_cons_of_mem d he)⟩

/-- **The step lemma.** An ingest whose chunks agree, and any delete, keeps the tally. -/
theorem quietly_perform_tallied (h : Tallied store s) (hc : store.codec = none)
    (hop : op.file.isSome) (ha : AllAgree store s (store.chunksOf op)) :
    quietly (flat (store.perform op)) (fun _ s' ↦ Tallied store s') (fun _ _ ↦ True) s := by
  have hold : ∀ {f : String} {s : State}, Tallied store s →
      ∀ d ∈ (s.fields.manifest.tryGet f).getD [], isChunkDigest d = true := by
    intro f s h d hd
    cases hf : s.fields.manifest.tryGet f with
    | none =>
      rw [hf] at hd
      cases hd
    | some digests =>
      rw [hf, Option.getD_some] at hd
      exact h.listed f digests hf d hd
  cases op with
  | ingest fileId input =>
    rw [perform, flat_map, ingestInput_eq]
    refine quietly_map (quietly_mono (wpx_ingestStream
      (I := fun l s ↦ Tallied store s ∧ AllAgree store s l)
      (K := fun ds s ↦ Tallied store s ∧ ∀ d ∈ ds, isChunkDigest d = true)
      (R := fun _ _ ↦ True) (fun chunk l s hI ↦ ?_) (fun _ _ _ _ ↦ trivial) (fun s _ hI ↦ ?_)
      (fun d ds s hK ↦ quietly_releaseDigest_tallied d ds hK) ⟨h, ha⟩)
      (fun _ _ h ↦ h.2.1) fun _ _ h ↦ h)
    · refine quietly_mono (quietly_storeChunk_stored hI.1.mirrors (isChunkDigest_digestHex _ _)) ?_
        fun _ _ _ ↦ trivial
      intro _ s' hs
      exact ⟨hI.1.store_chunk hc (hI.2.agrees chunk List.mem_cons_self) hs, hI.2.tail hs⟩
    · refine quietly_mono quietly_exchange ?_ fun _ _ _ ↦ trivial
      rintro _ s' ⟨rfl, haside, hins⟩
      refine ⟨hI.1.aside haside fun f digests hf d hd ↦ ?_, hold hI.1⟩
      rw [Manifest.updated_of_insert hins f] at hf
      split at hf
      · obtain rfl := Option.some.inj hf
        obtain ⟨chunk, -, rfl⟩ := List.mem_map.mp hd
        exact isChunkDigest_digestHex _ _
      · exact hI.1.listed f digests hf d hd
  | delete fileId =>
    rw [perform, flat_map]
    refine quietly_map (quietly_mono (wpx_deleteFile
      (K := fun ds s ↦ Tallied store s ∧ ∀ d ∈ ds, isChunkDigest d = true)
      (quietly_mono quietly_withdraw ?_ fun _ _ _ ↦ trivial)
      fun d ds s hK ↦ quietly_releaseDigest_tallied d ds hK) (fun _ _ h ↦ h.1) fun _ _ h ↦ h)
    rintro digests s' ⟨hget, haside, hm⟩
    refine ⟨h.aside haside fun f digests' hf d hd ↦ ?_, h.listed fileId digests hget⟩
    rw [hm, Manifest.updated_remove] at hf
    split at hf
    · cases hf
    · exact h.listed f digests' hf d hd
  | read | readChunk | fsck | stats | chunkRefcount | reopen => cases hop

/-- At every ingest of a run the chunks agree. -/
def AgreeThroughout (store : ChunkStore) : List Op → State → Prop
  | [], _ => True
  | op :: ops, s =>
    AllAgree store s (store.chunksOf op) ∧ store.AgreeThroughout ops (store.exec op s).2

instance decidableAgreeThroughout (store : ChunkStore) :
    (ops : List Op) → (s : State) → Decidable (store.AgreeThroughout ops s)
  | [], _ => .isTrue trivial
  | op :: ops, s =>
    have := decidableAgreeThroughout store ops (store.exec op s).2
    inferInstanceAs (Decidable (AllAgree store s (store.chunksOf op) ∧
      store.AgreeThroughout ops (store.exec op s).2))

/-- **The run lemma.** A run whose chunks agree keeps the tally. -/
theorem tallied_execAll (hc : store.codec = none) (h : Tallied store s)
    (hops : ∀ op ∈ ops, op.file.isSome) (ha : store.AgreeThroughout ops s)
    (hok : ∀ r ∈ (store.execAll ops s).1, ∃ reply, r = .ok reply) :
    Tallied store (store.execAll ops s).2 := by
  induction ops generalizing s with
  | nil => exact h
  | cons op ops ih =>
    have hrun := quietly_eval (quietly_perform_tallied h hc (hops op List.mem_cons_self) ha.1)
    change outcome _ _ (store.exec op s).1 (store.exec op s).2 at hrun
    obtain ⟨reply, hr⟩ := hok _ List.mem_cons_self
    rw [hr] at hrun
    exact ih hrun (fun o ho ↦ hops o (List.mem_cons_of_mem op ho)) ha.2
      fun r hr' ↦ hok r (List.mem_cons_of_mem _ hr')

/-- **Live statistics are the rebuilt ones**, as long as the chunks of every ingest agree and the
sums fit. Open any backend whose records sum up to a `u64`, without a codec, and run ingests and
deletes that all return, with room for the chunks of each. The backend can be opened again, unless a
file has the name of the index. Opening it makes no operation that does not fit, and gives the same
statistics. -/
theorem stats_rebuilt (store : ChunkStore) (hc : store.codec = none) (s : State)
    (hopen : (store.exec .reopen s).1.isOk = true) (hfits : persistedTotal store.crates s ≤ u64Max)
    (ops : List Op) (hops : ∀ op ∈ ops, op.file.isSome)
    (ha : store.AgreeThroughout ops (store.exec .reopen s).2)
    (hroom : store.RoomThroughout ops (store.exec .reopen s).2)
    (hok : ∀ r ∈ (store.execAll ops (store.exec .reopen s).2).1, ∃ reply, r = .ok reply) :
    let live := (store.execAll ops (store.exec .reopen s).2).2
    ((store.exec .reopen s).2.fields.manifest.tryGet indexName = none →
        (store.exec .reopen live).1.isOk = true) ∧
      ((store.exec .reopen live).1.isOk = true → OpensExactly store.crates live ∧
        live.fields.stats.totalBytes = (store.exec .reopen live).2.fields.stats.totalBytes ∧
        live.fields.stats.storedBytes = (store.exec .reopen live).2.fields.stats.storedBytes) := by
  intro live
  have hopened := opened_of_isOk hopen
  have htallied : Tallied store live := tallied_execAll hc (hopened.tallied hc) hops ha hok
  have hrange : InRange store.crates live := by
    refine inRange_execAll (hopened.inRange hfits) (fun op hop ↦ ?_) hroom
    rintro rfl
    cases hops _ hop
  refine ⟨fun hname ↦ ?_, fun hagain ↦ ?_⟩
  · exact isOk_reopen_iff.mpr (fit_execAll (fit_reopen hopen hname) hops hok).sound.openable
  · have hreopened := opened_of_isOk hagain
    obtain ⟨ht, hst⟩ := htallied.reopened hc hreopened
    refine ⟨(opensExactly_iff _ _).mpr fun _ ↦ ?_, ht.symm, hst.symm⟩
    -- the records of the backend sum up to the live total
    rw [← hreopened.total_eq, ht]
    exact hrange.total

/-- A backend on which a crash has left the blob of `a` without a count. -/
def orphaned : State :=
  crashed true ((smallStore.runWrites true [.ingest "f" (.bytes [0x61])]).take 1)

/-- On a backend with an orphan, other chunks are ingested and released. -/
theorem stats_rebuilt_orphaned :
    let live := (smallStore.execAll [.ingest "g" (.chunks [[0x62], []]), .delete "g"]
      (smallStore.exec .reopen orphaned).2).2
    ((smallStore.exec .reopen orphaned).2.fields.manifest.tryGet indexName = none →
        (smallStore.exec .reopen live).1.isOk = true) ∧
      ((smallStore.exec .reopen live).1.isOk = true → OpensExactly smallCrates live ∧
        live.fields.stats.totalBytes = (smallStore.exec .reopen live).2.fields.stats.totalBytes ∧
        live.fields.stats.storedBytes
          = (smallStore.exec .reopen live).2.fields.stats.storedBytes) :=
  stats_rebuilt smallStore rfl orphaned (by decide +kernel) (by decide +kernel) _ (by decide)
    (by decide +kernel) (by decide +kernel) (exists_reply_of_all (by decide +kernel))

/-- Ingesting the chunk of an orphan stores nothing new for the live instance, and one chunk for an
instance opened afterwards. -/
theorem stats_drift : ¬∀ (store : ChunkStore), store.codec = none → ∀ (s : State),
    (store.exec .reopen s).1.isOk = true → ∀ ops : List Op, (∀ op ∈ ops, op.file.isSome) →
      (∀ r ∈ (store.execAll ops (store.exec .reopen s).2).1, ∃ reply, r = .ok reply) →
      let live := (store.execAll ops (store.exec .reopen s).2).2
      (store.exec .reopen live).1.isOk = true →
        live.fields.stats.totalBytes = (store.exec .reopen live).2.fields.stats.totalBytes ∧
          live.fields.stats.storedBytes
            = (store.exec .reopen live).2.fields.stats.storedBytes := by
  intro h
  have hdrift := (h smallStore rfl orphaned (by decide +kernel) [.ingest "f" (.bytes [0x61])]
    (by decide) (exists_reply_of_all (by decide +kernel)) (by decide +kernel)).2
  revert hdrift
  decide +kernel

end ChunkStore

end Chunkstore

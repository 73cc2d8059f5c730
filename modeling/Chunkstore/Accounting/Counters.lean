import Chunkstore.Accounting.Rounds
import Chunkstore.Core.Phases
import Chunkstore.Crash.Missing
import Chunkstore.Effects.Threads

/-!
# Counters that fit

Whether the `u64` counters of an instance can overflow. Three requests add to one: counting a
reference, and the two that add a chunk to the statistics. `FieldAccess.results` are the exact
results of their additions, and a run is free of overflow when each result fits where it is computed
(`FitThroughout`). Taking away never overflows: it saturates.

## Where the ingest stops

An ingest gets to a chunk only if the codec has taken every chunk before it and no size that is
recorded contradicts one. `accepted` are the chunks it gets to and counts.

## Main result

* `ChunkStore.fits_iff`: opening and every operation after it are free of overflow if and only if
  the records sum up to a `u64` and before each ingest there is room for the chunks it gets to.
-/

open Effects Program

namespace Chunkstore

/-! ## Results of additions -/

/-- The exact results of the `u64` additions of an access. -/
def FieldAccess.results {γ : Type} : FieldAccess γ → Fields → List ℕ
  | .refcountIncrement digest size, f =>
    match f.refcount.increment digest size with
    | .ok r => [r.1]
    | .error _ => []
  | .statsAddReference size, f => [f.stats.totalBytes + size]
  | .statsAddUniqueChunk size, f => [f.stats.totalBytes + size, f.stats.storedBytes + size]
  | _, _ => []

/-- The additions of a request fit. -/
def Call.Fits (s : State) {γ : Type} : Call γ → Prop
  | .backend _ => True
  | .field a => ∀ n ∈ a.results s.fields, n ≤ u64Max

/-- The additions of a run fit, each where it is made. -/
def Fits {α : Type} (p : BackendM α) (s : State) : Prop :=
  callHandler.Meets (fun s c ↦ c.Fits s) p.run s

/-! ## Requests that add nothing -/

/-- A request that adds to no counter and leaves the refcount index a list. -/
def Call.Plain (crates : Crates) {γ : Type} : Call γ → Prop
  | .backend (.put key data) => key = refcountIndexKey → ∃ l, data = crates.serde.stringsToVec l
  | .backend _ => True
  | .field (.construct _ _) => False
  | .field (.refcountIncrement _ _) => False
  | .field (.statsAddReference _) => False
  | .field (.statsAddUniqueChunk _) => False
  | .field (.statsReplace _) => False
  | .field _ => True

/-- A request that leaves the refcount index a list and does not set the counters anew. -/
def Call.Regular (crates : Crates) {γ : Type} : Call γ → Prop
  | .backend (.put key data) => key = refcountIndexKey → ∃ l, data = crates.serde.stringsToVec l
  | .backend _ => True
  | .field (.construct _ _) => False
  | .field (.statsReplace _) => False
  | .field _ => True

/-- The refcount index can be read, and the statistics are `u64`s. -/
structure InRange (crates : Crates) (s : State) : Prop where
  index : ∃ l, readIndex crates s refcountIndexKey = some l
  total : s.fields.stats.totalBytes ≤ u64Max
  stored : s.fields.stats.storedBytes ≤ u64Max

section Plain

variable {crates : Crates} {s : State}

theorem Call.Plain.fits {γ : Type} {c : Call γ} (h : c.Plain crates) (s : State) : c.Fits s := by
  cases c with
  | backend c => trivial
  | field a =>
    cases a with
    | construct | refcountIncrement | statsAddReference | statsAddUniqueChunk | statsReplace =>
      exact h.elim
    | _ => exact fun n hn ↦ absurd hn List.not_mem_nil

theorem Call.Plain.regular {γ : Type} {c : Call γ} (h : c.Plain crates) : c.Regular crates := by
  cases c with
  | backend c => cases c <;> exact h
  | field a =>
    cases a with
    | construct | refcountIncrement | statsAddReference | statsAddUniqueChunk | statsReplace =>
      exact h.elim
    | _ => trivial

theorem Call.Regular.inRange {γ : Type} {c : Call γ} (h : c.Regular crates) (hfits : c.Fits s)
    (hs : InRange crates s) : InRange crates (callHandler.handle c s).2 := by
  obtain ⟨⟨l, hl⟩, htotal, hstored⟩ := hs
  cases c with
  | backend c =>
    cases c with
    | get | existsKey | listKeys => exact ⟨⟨l, hl⟩, htotal, hstored⟩
    | put key data =>
      refine ⟨?_, htotal, hstored⟩
      by_cases hk : key = refcountIndexKey
      · obtain ⟨l', rfl⟩ := h hk
        exact ⟨l', readIndex_of_strings (hk ▸ s.find_put_self key _)⟩
      · exact ⟨l, (readIndex_congr (State.find_put_ne (Ne.symm hk))).trans hl⟩
    | delete key =>
      refine ⟨?_, htotal, hstored⟩
      by_cases hk : key = refcountIndexKey
      · exact ⟨[], readIndex_of_find_none (hk ▸ s.find_del_self key)⟩
      · exact ⟨l, (readIndex_congr (State.find_del_ne (Ne.symm hk))).trans hl⟩
  | field a =>
    cases a with
    | construct | statsReplace => exact h.elim
    | manifestInsert fileId digests fileBytes =>
      dsimp only [callHandler, FieldAccess.run]
      split <;> exact ⟨⟨l, hl⟩, htotal, hstored⟩
    | refcountIncrement digest size =>
      dsimp only [callHandler, FieldAccess.run]
      split <;> exact ⟨⟨l, hl⟩, htotal, hstored⟩
    | refcountDecrement digest =>
      dsimp only [callHandler, FieldAccess.run]
      split <;> exact ⟨⟨l, hl⟩, htotal, hstored⟩
    | statsAddReference size => exact ⟨⟨l, hl⟩, hfits _ List.mem_cons_self, hstored⟩
    | statsAddUniqueChunk size => exact ⟨⟨l, hl⟩, hfits _ List.mem_cons_self,
        hfits _ (List.mem_cons_of_mem _ List.mem_cons_self)⟩
    | statsRemoveReference size => exact ⟨⟨l, hl⟩, (Nat.sub_le _ _).trans htotal, hstored⟩
    | statsRemoveUniqueChunk size => exact ⟨⟨l, hl⟩, htotal, (Nat.sub_le _ _).trans hstored⟩
    | _ => exact ⟨⟨l, hl⟩, htotal, hstored⟩

private theorem Call.Reads.plain {γ : Type} {c : Call γ} (h : c.Reads) : c.Plain crates := by
  cases c with
  | backend c =>
    cases c with
    | put | delete => exact h.elim
    | get | existsKey | listKeys => trivial
  | field a =>
    cases a with
    | manifestTryGet | manifestGet | refcountGet | refcountSizeOf | refcountIterRefs
    | statsGet => trivial
    | _ => exact h.elim

theorem Call.Confined.plain {K : String → Prop} (hK : ¬K refcountIndexKey) {γ : Type} {c : Call γ}
    (h : c.Confined K) : c.Plain crates := by
  cases c with
  | field a => exact h.elim
  | backend c =>
    cases c with
    | put key data => exact fun hk ↦ absurd (hk ▸ h) hK
    | get | existsKey | delete | listKeys => trivial

/-- Code whose requests add nothing. -/
abbrev AddsNothing (crates : Crates) {α : Type} (p : BackendM α) : Prop :=
  Makes (Call.Plain crates) p

theorem Makes.plain {α : Type} {p : BackendM α} (h : Makes Call.Reads p) : AddsNothing crates p :=
  h.mono fun _ hc ↦ hc.plain

theorem fits_of_plain {α : Type} {p : BackendM α} (h : AddsNothing crates p) (s : State) :
    Fits p s :=
  Uses.meets h (fun _ _ hc ↦ hc.fits _) s

theorem fits_bind {α β : Type} {p : BackendM α} {f : α → BackendM β} :
    Fits (p >>= f) s ↔ Fits p s ∧ ∀ a, (callHandler.eval p.run s).1 = .ok a →
      Fits (f a) (callHandler.eval p.run s).2 := by
  rw [Fits, ExceptT.run_bind, Handler.meets_bind]
  refine and_congr_right fun _ ↦ ?_
  cases (callHandler.eval p.run s).1 with
  | ok a => exact ⟨fun h b hb ↦ Except.ok.inj hb ▸ h, fun h ↦ h a rfl⟩
  | error e => exact ⟨fun _ b hb ↦ (nomatch hb), fun _ ↦ trivial⟩

theorem fits_bind_plain (crates : Crates) {α β : Type} {p : BackendM α} {f : α → BackendM β}
    (hf : ∀ a, AddsNothing crates (f a)) : Fits (p >>= f) s ↔ Fits p s := by
  rw [fits_bind]
  exact and_iff_left fun a _ ↦ fits_of_plain (hf a) _

theorem not_manifestKey_refcountIndexKey : ¬∃ f, refcountIndexKey = manifestKey f := by
  rintro ⟨f, hf⟩
  rw [← refcountKey_indexName] at hf
  exact refcountKey_ne_manifestKey indexName f hf

theorem plain_saveManifest {fileId : String} {digests : List String} {fileBytes : ℕ} :
    AddsNothing crates (saveManifest crates fileId digests fileBytes) :=
  (confined_saveManifest (K := fun k ↦ ∃ f, k = manifestKey f) ⟨fileId, rfl⟩
    ⟨indexName, manifestKey_indexName.symm⟩).mono fun _ hc ↦
      hc.plain not_manifestKey_refcountIndexKey

theorem plain_removeManifest {fileId : String} :
    AddsNothing crates (removeManifest crates fileId) :=
  (confined_removeManifest (K := fun k ↦ ∃ f, k = manifestKey f) ⟨fileId, rfl⟩
    ⟨indexName, manifestKey_indexName.symm⟩).mono fun _ hc ↦
      hc.plain not_manifestKey_refcountIndexKey

theorem plain_saveRefcount {digest : String} {count size : ℕ} :
    AddsNothing crates (saveRefcount crates digest count size) := by
  rw [saveRefcount_eq]
  cases hv : validateDigest digest with
  | error e => exact makes_throw e
  | ok u =>
    have hne := ne_of_isChunkDigest (validateDigest_eq_ok.mp hv) isChunkDigest_indexName
    refine Makes.bind (makes_pure _) fun _ ↦ Makes.bind (makes_backendCall fun hk ↦
      absurd (refcountKey_eq_indexKey.mp hk) hne) fun _ ↦ ?_
    exact (reads_readStringList crates _).plain.bind fun _ ↦ makes_ite (makes_pure _)
      (makes_backendCall fun _ ↦ ⟨_, rfl⟩)

private theorem plain_removeRefcount {digest : String} :
    AddsNothing crates (removeRefcount crates digest) := by
  rw [removeRefcount_eq]
  exact Makes.bind (makes_backendCall trivial) fun _ ↦
    (reads_readStringList crates _).plain.bind fun _ ↦ makes_backendCall fun _ ↦ ⟨_, rfl⟩

theorem plain_putBlob {digest : String} (hd : isChunkDigest digest = true) (blob : Bytes) :
    AddsNothing crates (ChunkStore.putBlob digest blob) :=
  (makes_backendCall trivial).bind fun _ ↦ makes_ite (makes_pure _)
    ((makes_backendCall fun hk ↦ absurd hk (ne_of_isChunkDigest hd
      isChunkDigest_refcountIndexKey)).bind fun _ ↦ makes_pure _)

end Plain

section Operations

variable {store : ChunkStore}

private theorem plain_releaseDigest (digest : String) :
    AddsNothing store.crates (flat (store.releaseDigest digest)) := by
  simp only [ChunkStore.releaseDigest, flat_bind, flat_locked, flat_ite, flat_unlocked]
  refine (reads_chunkSize store digest).plain.bind fun size ↦ (makes_fieldOrThrow trivial).bind
    fun remaining ↦ makes_ite ?_ ?_
  · exact (makes_backendCall trivial).bind fun _ ↦ plain_removeRefcount.bind fun _ ↦
      (makes_field trivial).bind fun _ ↦ makes_field trivial
  · exact plain_saveRefcount.bind fun _ ↦ makes_field trivial

theorem plain_releaseDigests (digests : List String) :
    AddsNothing store.crates (flat (store.releaseDigests digests)) := by
  induction digests with
  | nil => exact makes_pure _
  | cons d digests ih =>
    rw [ChunkStore.releaseDigests, flat_bind]
    exact (plain_releaseDigest d).bind fun _ ↦ ih

theorem plain_commit (session : ChunkStore.IngestSession) (fileId : String) :
    AddsNothing store.crates (flat (store.commit session fileId)) := by
  rw [ChunkStore.flat_commit]
  refine Makes.bind ?_ fun old ↦ (plain_releaseDigests _).bind fun _ ↦ makes_pure _
  exact (makes_field trivial).bind fun old ↦ (makes_fieldOrThrow trivial).bind fun _ ↦
    plain_saveManifest.bind fun _ ↦ makes_pure _

theorem plain_delete (fileId : String) : AddsNothing store.crates (flat (store.delete fileId)) := by
  rw [ChunkStore.flat_delete]
  refine Makes.bind ?_ fun digests ↦ plain_releaseDigests _
  exact (makes_fieldOrThrow trivial).bind fun _ ↦ plain_removeManifest.bind fun _ ↦ makes_pure _

/-- Storing a chunk makes additions, and nothing else out of the ordinary. -/
theorem regular_storeChunk (chunk : Bytes) : Makes (Call.Regular store.crates)
    (flat (store.storeChunk (digestHex store.crates.sha256 chunk) chunk)) := by
  simp only [ChunkStore.storeChunk, ChunkStore.countChunk, flat_bind, flat_ofExcept, flat_locked,
    flat_ite, flat_pure]
  refine (makes_ofExcept _).bind fun blob ↦ Makes.bind ((plain_putBlob (isChunkDigest_digestHex _ _)
    blob).mono fun _ hc ↦ hc.regular) fun present ↦ Makes.bind ?_ fun _ ↦ ?_
  · exact (makes_fieldOrThrow trivial).bind fun count ↦ (makes_field trivial).bind fun size ↦
      plain_saveRefcount.mono fun _ hc ↦ hc.regular
  · exact makes_ite ((makes_field trivial).bind fun _ ↦ makes_pure _)
      ((makes_field trivial).bind fun _ ↦ makes_pure _)

theorem plain_fsck (repair : Bool) : AddsNothing store.crates (flat (ChunkStore.fsck repair)) :=
  makes_fsck trivial (fun _ ↦ trivial) trivial (fun _ ↦ trivial) repair

end Operations

/-! ## Storing a chunk -/

namespace ChunkStore

variable (store : ChunkStore)

/-- The size recorded for a digest, zero when there is none. -/
def recorded (s : State) (digest : String) : ℕ := (s.fields.refcount.sizeOf digest).getD 0

/-- The size that is recorded for a digest does not contradict a chunk. -/
def SizeTaken (recorded : String → ℕ) (digest : String) (chunk : Bytes) : Prop :=
  recorded digest = 0 ∨ chunk = [] ∨ recorded digest = chunk.length

instance (recorded : String → ℕ) (digest : String) (chunk : Bytes) :
    Decidable (SizeTaken recorded digest chunk) :=
  inferInstanceAs (Decidable (recorded digest = 0 ∨ chunk = [] ∨ recorded digest = chunk.length))

/-- The recorded sizes once a chunk is counted. -/
def record (recorded : String → ℕ) (digest : String) (chunk : Bytes) (d : String) : ℕ :=
  if d = digest ∧ recorded digest = 0 then chunk.length else recorded d

/-- The chunks of a list that an ingest gets to and counts. -/
def accepted (recorded : String → ℕ) : List Bytes → List Bytes
  | [] => []
  | chunk :: chunks =>
    if (store.encodeBlob chunk).isOk ∧
        SizeTaken recorded (digestHex store.crates.sha256 chunk) chunk then
      chunk :: accepted (record recorded (digestHex store.crates.sha256 chunk) chunk) chunks
    else []

/-- The bytes of the chunks of a list that are not known, each digest counted once. -/
def newBytes (known : String → Bool) : List Bytes → ℕ
  | [] => 0
  | chunk :: chunks =>
    (if known (digestHex store.crates.sha256 chunk) then 0 else chunk.length) +
      newBytes (fun d ↦ d == digestHex store.crates.sha256 chunk || known d) chunks

/-- Whether a blob is there. -/
def present (s : State) (digest : String) : Bool := (s.find digest).isSome

end ChunkStore

/-- There is room for the chunks of a list: in the counts of their digests, in the total bytes and
in the stored bytes. -/
structure Room (store : ChunkStore) (s : State) (chunks : List Bytes) : Prop where
  counts : ∀ d ∈ chunks.map (digestHex store.crates.sha256), s.fields.refcount.countOf d +
    (chunks.map (digestHex store.crates.sha256)).count d ≤ u64Max
  total : s.fields.stats.totalBytes + (chunks.map List.length).sum ≤ u64Max
  stored : s.fields.stats.storedBytes + store.newBytes (ChunkStore.present s) chunks ≤ u64Max

instance (store : ChunkStore) (s : State) (chunks : List Bytes) : Decidable (Room store s chunks) :=
  decidable_of_iff
    ((∀ d ∈ chunks.map (digestHex store.crates.sha256), s.fields.refcount.countOf d +
        (chunks.map (digestHex store.crates.sha256)).count d ≤ u64Max) ∧
      s.fields.stats.totalBytes + (chunks.map List.length).sum ≤ u64Max ∧
      s.fields.stats.storedBytes + store.newBytes (ChunkStore.present s) chunks ≤ u64Max)
    ⟨fun h ↦ ⟨h.1, h.2.1, h.2.2⟩, fun h ↦ ⟨h.counts, h.total, h.stored⟩⟩

/-- An increment is refused exactly when the recorded size contradicts the chunk. -/
theorem increment_isOk_iff (rc : RefCount) (digest : String) (size : ℕ) :
    (∃ r, rc.increment digest size = .ok r) ↔
      (rc.sizeOf digest).getD 0 = 0 ∨ size = 0 ∨ (rc.sizeOf digest).getD 0 = size := by
  rw [RefCount.sizeOf]
  cases hr : rc.counts.find digest with
  | none => exact iff_of_true ⟨_, RefCount.increment_of_find_none hr⟩ (Or.inl rfl)
  | some r =>
    rw [RefCount.increment, hr]
    dsimp only [Option.getD_some, Option.map_some]
    by_cases h0 : r.size = 0
    · rw [if_pos h0]
      exact iff_of_true ⟨_, rfl⟩ (Or.inl h0)
    · rw [if_neg h0]
      split
      · rename_i hne
        refine iff_of_false ?_ ?_
        · rintro ⟨_, hr⟩
          cases hr
        · rintro (h | h | h)
          · exact h0 h
          · exact hne.1 h
          · exact hne.2 h
      · rename_i hne
        refine iff_of_true ⟨_, rfl⟩ (Or.inr ?_)
        by_contra hno
        exact hne ⟨fun h ↦ hno (Or.inl h), fun h ↦ hno (Or.inr h)⟩

/-- `s'` is `s` after a chunk was stored and counted, as far as the counters go. -/
structure Taken (store : ChunkStore) (chunk : Bytes) (s s' : State) : Prop where
  index : ∃ l, readIndex store.crates s' refcountIndexKey = some l
  counts : ∀ d, s'.fields.refcount.countOf d = s.fields.refcount.countOf d +
    if d = digestHex store.crates.sha256 chunk then 1 else 0
  sizes : ∀ d, ChunkStore.recorded s' d
    = ChunkStore.record (ChunkStore.recorded s) (digestHex store.crates.sha256 chunk) chunk d
  blobs : ∀ d, isChunkDigest d = true → ChunkStore.present s' d
    = (d == digestHex store.crates.sha256 chunk || ChunkStore.present s d)
  stats : s'.fields.stats = if ChunkStore.present s (digestHex store.crates.sha256 chunk)
    then s.fields.stats.addReference chunk.length else s.fields.stats.addUniqueChunk chunk.length

/-- A chunk that an ingest counts in a state. -/
def TakesChunk (store : ChunkStore) (s : State) (chunk : Bytes) : Prop :=
  (store.encodeBlob chunk).isOk ∧ ChunkStore.SizeTaken (ChunkStore.recorded s)
    (digestHex store.crates.sha256 chunk) chunk

section Storing

variable {store : ChunkStore} {s s' : State} {chunk : Bytes} {chunks : List Bytes}

/-- Saving a count never fails when the index can be read, and touches its own two keys. -/
private theorem quietly_saveRefcount_index {crates : Crates} {digest : String} {count size : ℕ}
    (h : ∃ l, readIndex crates s refcountIndexKey = some l) (hd : isChunkDigest digest = true) :
    quietly (saveRefcount crates digest count size) (fun _ s' ↦ s'.fields = s.fields ∧
      (∃ l, readIndex crates s' refcountIndexKey = some l) ∧
        ∀ k, OffRefcount k → s'.find k = s.find k) (fun _ _ ↦ False) s := by
  obtain ⟨l, hl⟩ := h
  have hne : digest ≠ indexName := ne_of_isChunkDigest hd isChunkDigest_indexName
  rw [saveRefcount_eq, validateDigest_eq_ok.mpr hd, ofExcept_ok, pure_bind]
  refine quietly_bind (quietly_put (quietly_listName (l := l) ?_ fun s' hf hfind hindex ↦
    ⟨hf, ⟨_, hindex⟩, fun k hk ↦ ?_⟩))
  · rw [readIndex_congr (s.find_put_ne (refcountKey_ne_indexKey hne).symm), hl]
  · rw [hfind k hk.ne_indexKey, State.find_put_ne (hk digest)]

/-- **Counting a chunk**, or refusing to. -/
theorem quietly_countChunk_taken {digest : String} {size : ℕ}
    (h : ∃ l, readIndex store.crates s refcountIndexKey = some l)
    (hd : isChunkDigest digest = true) :
    quietly (store.countChunk digest size) (fun _ s' ↦ (∃ n,
        s.fields.refcount.increment digest size = .ok (n, s'.fields.refcount)) ∧
          s'.fields.stats = s.fields.stats ∧
            (∃ l, readIndex store.crates s' refcountIndexKey = some l) ∧
              ∀ k, OffRefcount k → s'.find k = s.find k)
      (fun _ _ ↦ ¬∃ r, s.fields.refcount.increment digest size = .ok r) s := by
  rw [ChunkStore.countChunk]
  refine quietly_bind (quietly_fieldOrThrow (fun n hn ↦ ?_) fun e he ↦ ?_)
  · rw [FieldAccess.run] at hn ⊢
    cases hinc : s.fields.refcount.increment digest size with
    | error e =>
      rw [hinc] at hn
      cases hn
    | ok r =>
      dsimp only
      refine quietly_bind (quietly_field (quietly_mono (quietly_saveRefcount_index ?_ hd) ?_
        fun _ _ hno ↦ hno.elim))
      · exact h
      · rintro _ s' ⟨hf, hindex, hfind⟩
        rw [hf]
        exact ⟨⟨r.1, rfl⟩, rfl, hindex, hfind⟩
  · rw [FieldAccess.run] at he
    rintro ⟨r, hr⟩
    rw [hr] at he
    cases he

private theorem sizeOf_increment {rc rc' : RefCount} {digest : String} {n : ℕ}
    (h : rc.increment digest chunk.length = .ok (n, rc')) (d : String) :
    (rc'.sizeOf d).getD 0
      = ChunkStore.record (fun d ↦ (rc.sizeOf d).getD 0) digest chunk d := by
  obtain ⟨-, hcounts⟩ := RefCount.increment_eq_ok h
  rw [RefCount.sizeOf, hcounts, Table.find_set, ChunkStore.record, RefCount.mergedSize]
  by_cases hd : d = digest
  · rw [if_pos hd, hd, RefCount.sizeOf]
    cases rc.counts.find digest with
    | none => exact (if_pos ⟨rfl, rfl⟩).symm
    | some r =>
      dsimp only [Option.map_some, Option.getD_some]
      by_cases h0 : r.size = 0
      · rw [if_pos h0, if_pos ⟨rfl, h0⟩]
      · rw [if_neg h0, if_neg fun h ↦ h0 h.2]
  · rw [if_neg hd, if_neg fun h ↦ hd h.1, RefCount.sizeOf]

/-- **Storing a chunk**, or refusing to. -/
theorem quietly_storeChunk_taken (h : ∃ l, readIndex store.crates s refcountIndexKey = some l) :
    quietly (flat (store.storeChunk (digestHex store.crates.sha256 chunk) chunk))
      (fun _ s' ↦ TakesChunk store s chunk ∧ Taken store chunk s s')
        (fun _ _ ↦ ¬TakesChunk store s chunk)
      s := by
  have hd := isChunkDigest_digestHex store.crates.sha256 chunk
  simp only [ChunkStore.storeChunk, flat_bind, flat_ofExcept, flat_locked, flat_ite, flat_pure]
  refine quietly_bind (quietly_ofExcept (fun blob hb ↦ ?_) fun e he ht ↦ ?_)
  · refine quietly_bind (quietly_mono quietly_putBlob ?_ fun _ _ h ↦ h)
    rintro present s₁ ⟨rfl, hf₁, hfind₁, hblob₁⟩
    have hindex : s₁.find refcountIndexKey = s.find refcountIndexKey :=
      hfind₁ _ (ne_of_isChunkDigest hd isChunkDigest_refcountIndexKey).symm
    rw [← readIndex_congr hindex] at h
    refine quietly_bind (quietly_mono (quietly_countChunk_taken h hd) ?_ fun _ _ hno ht ↦ ?_)
    · rintro _ s₂ ⟨⟨n, hinc⟩, hstats, hindex₂, hfind₂⟩
      rw [hf₁] at hinc hstats
      have hsize := (increment_isOk_iff _ _ _).mp ⟨_, hinc⟩
      rw [List.length_eq_zero_iff] at hsize
      have htaken : ∀ stats, stats = (if ChunkStore.present s (digestHex store.crates.sha256 chunk)
          then s.fields.stats.addReference chunk.length
          else s.fields.stats.addUniqueChunk chunk.length) →
          TakesChunk store s chunk ∧
            Taken store chunk s (s₂.withFields { s₂.fields with stats := stats }) := by
        intro stats hs
        refine ⟨⟨by rw [hb]; rfl, hsize⟩, hindex₂, fun d ↦ ?_, sizeOf_increment hinc,
          fun d hdd ↦ ?_, hs⟩
        · refine (RefCount.countOf_increment hinc d).trans ?_
          split
          · rename_i hdd
            rw [hdd]
          · rfl
        · rw [ChunkStore.present, State.find_withFields,
            hfind₂ d (offRefcount_of_isChunkDigest hdd)]
          by_cases hdd : d = digestHex store.crates.sha256 chunk
          · rw [hdd, hblob₁, beq_self_eq_true, Bool.true_or]
            rfl
          · rw [hfind₁ d hdd, beq_eq_false_iff_ne.mpr hdd, Bool.false_or]
            rfl
      split
      · rename_i hp
        refine quietly_bind (quietly_field (quietly_pure (htaken _ ?_)))
        rw [ChunkStore.present, if_pos hp, hstats]
      · rename_i hp
        refine quietly_bind (quietly_field (quietly_pure (htaken _ ?_)))
        rw [ChunkStore.present, if_neg hp, hstats]
    · rw [hf₁] at hno
      refine hno ((increment_isOk_iff _ _ _).mpr ?_)
      rw [List.length_eq_zero_iff]
      exact ht.2
  · rw [TakesChunk, he] at ht
    exact Bool.noConfusion ht.1

private theorem fits_field {α : Type} (a : FieldAccess α) :
    Fits (field a) s ↔ ∀ n ∈ a.results s.fields, n ≤ u64Max := and_iff_left trivial

theorem fits_countChunk (digest : String) (size : ℕ) : Fits (store.countChunk digest size) s ↔
    ∀ r, s.fields.refcount.increment digest size = .ok r → r.1 ≤ u64Max := by
  have hrest : ∀ count, AddsNothing store.crates (do
      let storedSize ← field (.refcountSizeOf digest)
      saveRefcount store.crates digest count (storedSize.getD size)) := fun count ↦
    (makes_field trivial).bind fun _ ↦ plain_saveRefcount
  rw [ChunkStore.countChunk, fits_bind_plain store.crates hrest]
  have hmeets : Fits (fieldOrThrow (.refcountIncrement digest size)) s ↔
      ∀ n ∈ (FieldAccess.refcountIncrement digest size).results s.fields, n ≤ u64Max :=
    and_iff_left trivial
  rw [hmeets, FieldAccess.results]
  cases hinc : s.fields.refcount.increment digest size with
  | ok r =>
    constructor
    · intro h r' hr
      rw [← Except.ok.inj hr]
      exact h r.1 (List.mem_singleton_self _)
    · intro h n hn
      rw [List.mem_singleton.mp hn]
      exact h r rfl
  | error e =>
    constructor
    · intro _ r hr
      cases hr
    · intro _ n hn
      exact absurd hn List.not_mem_nil

/-- **The additions of storing a chunk** fit exactly when there is room for that chunk. -/
theorem fits_storeChunk (h : ∃ l, readIndex store.crates s refcountIndexKey = some l) :
    Fits (flat (store.storeChunk (digestHex store.crates.sha256 chunk) chunk)) s ↔
      (TakesChunk store s chunk →
        s.fields.refcount.countOf (digestHex store.crates.sha256 chunk) + 1 ≤ u64Max) ∧
      (TakesChunk store s chunk →
        s.fields.stats.totalBytes + chunk.length ≤ u64Max ∧
          (ChunkStore.present s (digestHex store.crates.sha256 chunk) = false →
            s.fields.stats.storedBytes + chunk.length ≤ u64Max)) := by
  have hd := isChunkDigest_digestHex store.crates.sha256 chunk
  simp only [ChunkStore.storeChunk, flat_bind, flat_ofExcept, flat_locked, flat_ite, flat_pure]
  cases hb : store.encodeBlob chunk with
  | error e =>
    have hno : ¬TakesChunk store s chunk := fun ht ↦ by
      rw [TakesChunk, hb] at ht
      exact Bool.noConfusion ht.1
    exact iff_of_true trivial ⟨fun ht ↦ absurd ht hno, fun ht ↦ absurd ht hno⟩
  | ok blob =>
    rw [ofExcept_ok, pure_bind, fits_bind,
      and_iff_right (fits_of_plain (plain_putBlob hd blob : AddsNothing store.crates _) s)]
    have hput := quietly_eval (p := ChunkStore.putBlob (digestHex store.crates.sha256 chunk) blob)
      (R := fun _ _ ↦ False) (s := s) quietly_putBlob
    cases hp : (callHandler.eval (ChunkStore.putBlob (digestHex store.crates.sha256 chunk)
        blob).run s).1 with
    | error e =>
      rw [hp] at hput
      exact hput.elim
    | ok present =>
      rw [hp] at hput
      generalize (callHandler.eval (ChunkStore.putBlob (digestHex store.crates.sha256 chunk)
        blob).run s).2 = s₁ at hput ⊢
      obtain ⟨rfl, hf₁, hfind₁, -⟩ := hput
      have hindex : ∃ l, readIndex store.crates s₁ refcountIndexKey = some l := by
        rwa [readIndex_congr
          (hfind₁ _ (ne_of_isChunkDigest hd isChunkDigest_refcountIndexKey).symm)]
      have htakes : TakesChunk store s chunk ↔ ∃ r, s.fields.refcount.increment
          (digestHex store.crates.sha256 chunk) chunk.length = .ok r := by
        rw [increment_isOk_iff, TakesChunk, hb, List.length_eq_zero_iff]
        exact and_iff_right rfl
      have hcount := quietly_eval (p := store.countChunk (digestHex store.crates.sha256 chunk)
        chunk.length) (quietly_countChunk_taken hindex hd)
      simp only [Except.ok.injEq, forall_eq', fits_bind, fits_countChunk]
      rw [hf₁] at hcount ⊢
      refine and_congr ?_ ?_
      · rw [htakes]
        constructor
        · rintro hfit ⟨r, hr⟩
          rw [← (RefCount.increment_eq_ok hr).1]
          exact hfit r hr
        · intro hfit r hr
          rw [(RefCount.increment_eq_ok hr).1]
          exact hfit ⟨r, hr⟩
      · cases hc : (callHandler.eval (store.countChunk (digestHex store.crates.sha256 chunk)
            chunk.length).run s₁).1 with
        | error e =>
          rw [hc] at hcount
          refine iff_of_true ?_ fun ht ↦ absurd (htakes.mp ht) hcount
          intro u hu
          cases hu
        | ok u =>
          rw [hc] at hcount
          obtain ⟨⟨n, hinc⟩, hstats, -⟩ := hcount
          have ht : TakesChunk store s chunk := htakes.mpr ⟨_, hinc⟩
          simp only [ht, true_imp_iff, ChunkStore.present]
          refine Iff.trans ⟨fun hfit ↦ hfit u, fun hfit _ ↦ hfit⟩ ?_
          cases (s.find (digestHex store.crates.sha256 chunk)).isSome with
          | true =>
            rw [if_pos rfl, fits_bind_plain store.crates fun _ ↦ makes_pure _, fits_field,
              FieldAccess.results,
              hstats, List.forall_mem_singleton]
            exact ⟨fun hfit ↦ ⟨hfit, fun hf ↦ Bool.noConfusion hf⟩, fun hfit ↦ hfit.1⟩
          | false =>
            rw [if_neg Bool.false_ne_true, fits_bind_plain store.crates fun _ ↦ makes_pure _,
              fits_field,
              FieldAccess.results, hstats, List.forall_mem_cons, List.forall_mem_singleton]
            exact ⟨fun hfit ↦ ⟨hfit.1, fun _ ↦ hfit.2⟩, fun hfit ↦ ⟨hfit.1, hfit.2 rfl⟩⟩

private theorem newBytes_congr {known known' : String → Bool}
    (h : ∀ c ∈ chunks, known (digestHex store.crates.sha256 c)
      = known' (digestHex store.crates.sha256 c)) :
    store.newBytes known chunks = store.newBytes known' chunks := by
  induction chunks generalizing known known' with
  | nil => rfl
  | cons chunk chunks ih =>
    rw [ChunkStore.newBytes, ChunkStore.newBytes, h chunk List.mem_cons_self,
      @ih _ (fun d ↦ d == digestHex store.crates.sha256 chunk || known' d) fun c hc ↦ by
        rw [h c (List.mem_cons_of_mem _ hc)]]

theorem Taken.stored (h : Taken store chunk s s') : s'.fields.stats.storedBytes
    = s.fields.stats.storedBytes +
      if ChunkStore.present s (digestHex store.crates.sha256 chunk) then 0 else chunk.length := by
  rw [h.stats]
  split <;> rfl

theorem Taken.total (h : Taken store chunk s s') :
    s'.fields.stats.totalBytes = s.fields.stats.totalBytes + chunk.length := by
  rw [h.stats]
  split <;> rfl

/-- Room for a list is room for its first chunk, and room for the others once it is stored. -/
private theorem room_cons (h : Taken store chunk s s') :
    Room store s (chunk :: chunks) ↔
      (s.fields.refcount.countOf (digestHex store.crates.sha256 chunk) + 1 ≤ u64Max ∧
        s.fields.stats.totalBytes + chunk.length ≤ u64Max ∧
          (ChunkStore.present s (digestHex store.crates.sha256 chunk) = false →
            s.fields.stats.storedBytes + chunk.length ≤ u64Max)) ∧ Room store s' chunks := by
  have hnew : store.newBytes (fun d ↦ d == digestHex store.crates.sha256 chunk ||
      ChunkStore.present s d) chunks = store.newBytes (ChunkStore.present s') chunks :=
    newBytes_congr fun c _ ↦ (h.blobs _ (isChunkDigest_digestHex _ _)).symm
  -- counting the chunk moves one of its occurrences from the list into the table
  have hmove : ∀ d, s'.fields.refcount.countOf d +
      (chunks.map (digestHex store.crates.sha256)).count d = s.fields.refcount.countOf d +
        ((chunk :: chunks).map (digestHex store.crates.sha256)).count d := fun d ↦ by
    rw [h.counts, List.map_cons, List.count_cons]
    by_cases hd : d = digestHex store.crates.sha256 chunk
    · rw [if_pos hd, if_pos (beq_iff_eq.mpr hd.symm)]
      omega
    · rw [if_neg hd, if_neg fun hc ↦ hd (beq_iff_eq.mp hc).symm]
      omega
  have hself : s.fields.refcount.countOf (digestHex store.crates.sha256 chunk) + 1 ≤
      s.fields.refcount.countOf (digestHex store.crates.sha256 chunk) +
        ((chunk :: chunks).map (digestHex store.crates.sha256)).count
          (digestHex store.crates.sha256 chunk) := by
    rw [List.map_cons, List.count_cons_self]
    omega
  constructor
  · rintro ⟨hcounts, htotal, hstored⟩
    rw [List.map_cons, List.sum_cons] at htotal
    rw [ChunkStore.newBytes, hnew] at hstored
    refine ⟨⟨?_, by omega, fun habs ↦ ?_⟩, fun d hd ↦ ?_, ?_, ?_⟩
    · exact hself.trans (hcounts _ (by rw [List.map_cons]; exact List.mem_cons_self))
    · rw [habs, if_neg Bool.false_ne_true] at hstored
      omega
    · rw [hmove]
      exact hcounts d (by rw [List.map_cons]; exact List.mem_cons_of_mem _ hd)
    · rw [h.total]
      omega
    · rw [h.stored]
      omega
  · rintro ⟨⟨hone, -, -⟩, hcounts, htotal, hstored⟩
    rw [h.total] at htotal
    rw [h.stored] at hstored
    refine ⟨fun d hd ↦ ?_, ?_, ?_⟩
    · rw [← hmove]
      by_cases hmem : d ∈ chunks.map (digestHex store.crates.sha256)
      · exact hcounts d hmem
      · rw [List.map_cons, List.mem_cons] at hd
        obtain rfl := hd.resolve_right hmem
        rw [h.counts, if_pos rfl, List.count_eq_zero_of_not_mem hmem]
        exact hone
    · rw [List.map_cons, List.sum_cons]
      omega
    · rw [ChunkStore.newBytes, hnew]
      omega

theorem Room.nil (h : InRange store.crates s) : Room store s [] :=
  ⟨fun _ hd ↦ absurd hd List.not_mem_nil, h.total, h.stored⟩

private theorem Taken.inRange (h : Taken store chunk s s') (hs : InRange store.crates s)
    (ht : s.fields.stats.totalBytes + chunk.length ≤ u64Max)
    (hst : ChunkStore.present s (digestHex store.crates.sha256 chunk) = false →
      s.fields.stats.storedBytes + chunk.length ≤ u64Max) : InRange store.crates s' := by
  refine ⟨h.index, by rw [h.total]; exact ht, ?_⟩
  rw [h.stored]
  cases hp : ChunkStore.present s (digestHex store.crates.sha256 chunk) with
  | true => exact hs.stored
  | false => exact hst hp

/-- **The additions of the chunk loop** fit exactly when there is room for what it gets to. The
induction is on the chunks; the state moves as each is counted. -/
theorem fits_chunks (h : InRange store.crates s) (session : ChunkStore.IngestSession) :
    Fits (chunks.foldlM (fun session chunk ↦ flat (store.accept session chunk)) session) s ↔
      Room store s (store.accepted (ChunkStore.recorded s) chunks) := by
  induction chunks generalizing s session with
  | nil => exact iff_of_true trivial (Room.nil h)
  | cons chunk chunks ih =>
    have haccept : flat (store.accept session chunk) = (do
        let _ ← flat (store.storeChunk (digestHex store.crates.sha256 chunk) chunk)
        return ⟨session.digests ++ [digestHex store.crates.sha256 chunk],
          session.sizes ++ [chunk.length], session.fileBytes + chunk.length⟩) := by
      rw [ChunkStore.accept, flat_bind]
      rfl
    have hspec : quietly (flat (store.accept session chunk))
        (fun _ s' ↦ TakesChunk store s chunk ∧ Taken store chunk s s')
          (fun _ _ ↦ ¬TakesChunk store s chunk)
        s := by
      rw [haccept]
      exact quietly_bind (quietly_mono (quietly_storeChunk_taken h.index)
        (fun _ _ ht ↦ quietly_pure ht) fun _ _ hno ↦ hno)
    have hrun := quietly_eval hspec
    rw [List.foldlM_cons, fits_bind, haccept, fits_bind_plain store.crates fun _ ↦ makes_pure _,
      fits_storeChunk h.index, ChunkStore.accepted]
    rw [← haccept]
    cases hr : (callHandler.eval (flat (store.accept session chunk)).run s).1 with
    | error e =>
      rw [hr] at hrun
      rw [if_neg (show ¬(_ ∧ _) from hrun)]
      refine iff_of_true ⟨⟨fun ht ↦ absurd ht hrun, fun ht ↦ absurd ht hrun⟩, ?_⟩ (Room.nil h)
      intro _ ha
      cases ha
    | ok session' =>
      rw [hr] at hrun
      obtain ⟨ht, htaken⟩ := hrun
      rw [if_pos (show _ ∧ _ from ht), room_cons htaken, ← funext htaken.sizes]
      simp only [ht, true_imp_iff, Except.ok.injEq, forall_eq', and_assoc]
      refine and_congr_right fun _ ↦ and_congr_right fun htotal ↦ and_congr_right fun hstored ↦ ?_
      exact ih (htaken.inRange h htotal hstored) session'

end Storing

/-- What opening makes of the sums of the records. -/
theorem Opened.total_eq {crates : Crates} {s s' : State} (h : Opened crates s s') :
    s'.fields.stats.totalBytes = persistedTotal crates s := by
  rw [h.rebuilt.total, persistedTotal, ← h.loaded.sum_entries fun size count ↦ size * count]

theorem Opened.inRange {crates : Crates} {s s' : State} (h : Opened crates s s')
    (hfits : persistedTotal crates s ≤ u64Max) : InRange crates s' := by
  obtain ⟨l, hl, -⟩ := h.mirrors.index
  have htotal : s'.fields.stats.totalBytes ≤ u64Max := h.total_eq.trans_le hfits
  refine ⟨⟨l, hl⟩, htotal, ?_⟩
  have hcount : ∀ e ∈ s'.fields.refcount.iterRefs, 0 < e.2.count := fun e he ↦
    (h.mirrors.valid e.1 e.2 (RefCount.mem_iterRefs.mp he)).2
  rw [h.rebuilt.total] at htotal
  rw [h.rebuilt.stored]
  exact (sum_size_le hcount).trans htotal

/-! ## Runs -/

namespace ChunkStore

variable {store : ChunkStore} {s : State} {op : Op} {ops : List Op}

/-- Every operation but an ingest and opening again adds nothing. -/
theorem plain_perform (hop : op ≠ .reopen) (hingest : ∀ fileId input, op ≠ .ingest fileId input) :
    AddsNothing store.crates (flat (store.perform op)) := by
  rw [perform.eq_def]
  cases op with
  | ingest fileId input => exact absurd rfl (hingest fileId input)
  | delete fileId =>
    rw [flat_map]
    exact (plain_delete fileId).map
  | read fileId =>
    rw [flat_map]
    exact (reads_read store fileId).plain.map
  | readChunk digest =>
    rw [flat_map]
    exact (reads_readChunk store digest).plain.map
  | fsck repair =>
    rw [flat_map]
    exact (plain_fsck repair).map
  | stats =>
    rw [flat_map, ChunkStore.stats, flat_locked]
    exact Makes.map (makes_field trivial)
  | chunkRefcount digest =>
    rw [flat_map, ChunkStore.chunkRefcount, flat_locked]
    exact Makes.map (makes_field trivial)
  | reopen => exact absurd rfl hop

theorem regular_perform (hop : op ≠ .reopen) :
    Makes (Call.Regular store.crates) (flat (store.perform op)) := by
  by_cases hingest : ∃ fileId input, op = .ingest fileId input
  · obtain ⟨fileId, input, rfl⟩ := hingest
    rw [perform, flat_map, ingestInput_eq, ingestStream, flat_bind, Stream.consume, flat_bind,
      flat_foldlM]
    refine Makes.map (Makes.bind (Makes.bind (makes_foldlM (fun session chunk ↦ ?_) _ _)
      fun session ↦ ?_) fun session ↦ (plain_commit session fileId).mono fun _ hc ↦ hc.regular)
    · rw [accept, flat_bind]
      exact (regular_storeChunk chunk).bind fun _ ↦ makes_pure _
    · cases (input.stream store.crates).error with
      | none => exact makes_pure _
      | some e => exact makes_throw e
  · exact (plain_perform hop fun fileId input h ↦ hingest ⟨fileId, input, h⟩).mono
      fun _ hc ↦ hc.regular

/-- **An operation is free of overflow** exactly when there is room for the chunks it gets to. -/
theorem fits_perform (h : InRange store.crates s) (hop : op ≠ .reopen) :
    Fits (flat (store.perform op)) s ↔
      Room store s (store.accepted (recorded s) (store.chunksOf op)) := by
  by_cases hingest : ∃ fileId input, op = .ingest fileId input
  · obtain ⟨fileId, input, rfl⟩ := hingest
    rw [perform, flat_map, ingestInput_eq, map_eq_pure_bind,
      fits_bind_plain store.crates fun _ ↦ makes_pure _, ingestStream, flat_bind,
      fits_bind_plain store.crates fun session ↦ plain_commit session fileId, Stream.consume,
      flat_bind, flat_foldlM]
    refine (fits_bind_plain store.crates fun session ↦ ?_).trans (fits_chunks h _)
    cases (input.stream store.crates).error with
    | none => exact makes_pure _
    | some e => exact makes_throw e
  · have hplain : AddsNothing store.crates (flat (store.perform op)) :=
      plain_perform hop fun fileId input h ↦ hingest ⟨fileId, input, h⟩
    have hchunks : store.chunksOf op = [] := by
      cases op with
      | ingest fileId input => exact absurd ⟨fileId, input, rfl⟩ hingest
      | _ => rfl
    rw [hchunks]
    exact iff_of_true (fits_of_plain hplain s) (Room.nil h)

/-- Every addition of a run fits. -/
def FitThroughout (store : ChunkStore) : List Op → State → Prop
  | [], _ => True
  | op :: ops, s =>
    Fits (flat (store.perform op)) s ∧ store.FitThroughout ops (store.exec op s).2

/-- Before each operation of a run there is room for the chunks it gets to. -/
def RoomThroughout (store : ChunkStore) : List Op → State → Prop
  | [], _ => True
  | op :: ops, s =>
    Room store s (store.accepted (recorded s) (store.chunksOf op)) ∧
      store.RoomThroughout ops (store.exec op s).2

instance decidableRoomThroughout (store : ChunkStore) :
    (ops : List Op) → (s : State) → Decidable (store.RoomThroughout ops s)
  | [], _ => .isTrue trivial
  | op :: ops, s =>
    have := decidableRoomThroughout store ops (store.exec op s).2
    inferInstanceAs (Decidable (Room store s (store.accepted (recorded s) (store.chunksOf op)) ∧
      store.RoomThroughout ops (store.exec op s).2))

theorem inRange_exec (h : InRange store.crates s) (hop : op ≠ .reopen)
    (hfits : Fits (flat (store.perform op)) s) : InRange store.crates (store.exec op s).2 :=
  Uses.keeps (regular_perform hop) (fun _ _ hc hfit hs ↦ hc.inRange hfit hs) h hfits

/-- **The run lemma.** -/
theorem fitThroughout_iff (h : InRange store.crates s) (hops : ∀ op ∈ ops, op ≠ .reopen) :
    store.FitThroughout ops s ↔ store.RoomThroughout ops s := by
  induction ops generalizing s with
  | nil => exact Iff.rfl
  | cons op ops ih =>
    have hop := hops op List.mem_cons_self
    rw [FitThroughout, RoomThroughout, fits_perform h hop]
    refine and_congr_right fun hroom ↦ ?_
    exact ih (inRange_exec h hop ((fits_perform h hop).mpr hroom))
      fun o ho ↦ hops o (List.mem_cons_of_mem op ho)

/-- A run with room for its chunks ends in range. -/
theorem inRange_execAll (h : InRange store.crates s) (hops : ∀ op ∈ ops, op ≠ .reopen)
    (hroom : store.RoomThroughout ops s) : InRange store.crates (store.execAll ops s).2 := by
  induction ops generalizing s with
  | nil => exact h
  | cons op ops ih =>
    have hop := hops op List.mem_cons_self
    exact ih (inRange_exec h hop ((fits_perform h hop).mpr hroom.1))
      (fun o ho ↦ hops o (List.mem_cons_of_mem op ho)) hroom.2

/-- **No counter overflows**, exactly when everything there is to count fits. Open any backend and
run any operations, whatever they return. Opening sums up exactly and every addition fits, if and
only if the sizes times the counts of the records sum up to a `u64` and before each operation there
is room for the chunks it gets to. -/
theorem fits_iff (store : ChunkStore) (s : State) (ops : List Op)
    (hops : ∀ op ∈ ops, op ≠ .reopen) :
    (OpensExactly store.crates s ∧ ((store.exec .reopen s).1.isOk = true →
        store.FitThroughout ops (store.exec .reopen s).2)) ↔
      OpenFits store.crates s ∧ ((store.exec .reopen s).1.isOk = true →
        store.RoomThroughout ops (store.exec .reopen s).2) := by
  rw [opensExactly_iff]
  refine and_congr_right fun hfits ↦ forall_congr' fun hopen ↦ ?_
  have hopened := opened_of_isOk hopen
  exact fitThroughout_iff
    (hopened.inRange (hfits ⟨hopened.loaded.manifests, hopened.loaded.counts⟩))
    hops

/-- On an empty backend, chunks that repeat and are released again. -/
theorem fits_iff_small : OpensExactly smallCrates (.empty true) ∧
    ((smallStore.exec .reopen (.empty true)).1.isOk = true →
      smallStore.FitThroughout [.ingest "f" (.chunks [[0x61], [], [0x61]]), .delete "f"]
        (smallStore.exec .reopen (.empty true)).2) :=
  (fits_iff smallStore (.empty true) [.ingest "f" (.chunks [[0x61], [], [0x61]]), .delete "f"]
    (by simp)).mpr ⟨fun _ ↦ by decide +kernel, fun _ ↦ by decide +kernel⟩

/-- A backend whose one record counts two bytes `2 ^ 63` times. -/
def overcounted : State :=
  ((State.empty true).put refcountIndexKey
    (smallCrates.serde.stringsToVec [digestHex smallCrates.sha256 [0x61]])).put
      (refcountKey (digestHex smallCrates.sha256 [0x61]))
        (smallCrates.serde.refcountToVec ⟨2 ^ 63, 2⟩)

example : ¬persistedTotal smallCrates overcounted ≤ u64Max := by decide +kernel

end ChunkStore

end Chunkstore

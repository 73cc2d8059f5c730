import Chunkstore.Core.Crates
import Chunkstore.Exact.Reopen

/-!
# Runs on a fault-free backend

A run opens a store on an empty backend and executes operations one after the other. Each operation
is a step lemma, `quietly_perform`; the run lemmas follow by induction on the list of operations.

## Main results

* `ChunkStore.refcounts_exact`: after a run without an error the counts are the occurrences over the
  manifest and the blobs are those of the counted chunks.
* `ChunkStore.others_unharmed`: in runs that never commit a file named like the index, an operation
  on one file leaves every other file readable, before and after reopening.
-/

open Effects Program

namespace Chunkstore

namespace ChunkStore

/-! ## Executing operations -/

variable (store : ChunkStore)

/-- One operation on a fault-free backend. -/
def exec (op : Op) (s : State) : Except ChunkStoreError Reply × State :=
  callHandler.eval (flat (store.perform op)).run s

/-- Operations one after the other, with their results. -/
def execAll : List Op → State → List (Except ChunkStoreError Reply) × State
  | [], s => ([], s)
  | op :: ops, s =>
    let r := store.exec op s
    let rs := execAll ops r.2
    (r.1 :: rs.1, rs.2)

/-- A run: open a store on an empty backend, then execute. -/
def run (lists : Bool) (ops : List Op) : List (Except ChunkStoreError Reply) × State :=
  store.execAll ops (store.exec .reopen (.empty lists)).2

variable {store}

theorem execAll_append (ops ops' : List Op) (s : State) :
    store.execAll (ops ++ ops') s
      = ((store.execAll ops s).1 ++ (store.execAll ops' (store.execAll ops s).2).1,
        (store.execAll ops' (store.execAll ops s).2).2) := by
  induction ops generalizing s with
  | nil => rfl
  | cons op ops ih => rw [List.cons_append, execAll, execAll, ih, List.cons_append]

def chunksOf (store : ChunkStore) : Op → List Bytes
  | .ingest _ input => (input.stream store.crates).chunks
  | _ => []

def Ingested (store : ChunkStore) (ops : List Op) (chunk : Bytes) : Prop :=
  ∃ op ∈ ops, chunk ∈ store.chunksOf op

private theorem ingested_iff {store : ChunkStore} {ops : List Op} {chunk : Bytes} :
    store.Ingested ops chunk ↔ chunk ∈ ops.flatMap store.chunksOf := List.mem_flatMap.symm

/-- The chunks of a run are finitely many, so whether two of them collide can be decided. -/
theorem noCollision_ingested {store : ChunkStore} {ops : List Op}
    (h : ∀ a ∈ ops.flatMap store.chunksOf, ∀ b ∈ ops.flatMap store.chunksOf,
      digestHex store.crates.sha256 a = digestHex store.crates.sha256 b → a = b) :
    NoCollision store.crates.sha256 (store.Ingested ops) :=
  fun a b ha hb ↦ h a (ingested_iff.mp ha) b (ingested_iff.mp hb)

/-- The file an operation is about to change. -/
def Op.file : Op → Option String
  | .ingest fileId _ => some fileId
  | .delete fileId => some fileId
  | _ => none

/-! ## The step lemma -/

/-- What an operation that returns has done. -/
def Returned (store : ChunkStore) (s : State) (op : Op) (reply : Reply) (s' : State) : Prop :=
  match op with
  | .ingest fileId input =>
    reply = .digests ((input.stream store.crates).chunks.map (digestHex store.crates.sha256)) ∧
      (input.stream store.crates).error = none ∧ fileId ≠ indexName ∧
        s.fields.manifest.Updated s'.fields.manifest fileId
          (some ((input.stream store.crates).chunks.map (digestHex store.crates.sha256)))
  | .delete fileId => reply = .done ∧ (s.fields.manifest.tryGet fileId).isSome ∧
    s.fields.manifest.Updated s'.fields.manifest fileId none
  | .read fileId => s' = s ∧ ∃ digests, s.fields.manifest.tryGet fileId = some digests ∧
    reply = .bytes (digests.flatMap (store.content s))
  | .readChunk _ => s' = s
  | .fsck _ => s' = s ∧ reply = .report {}
  | .stats => s' = s ∧ reply = .stats s.fields.stats
  | .chunkRefcount digest => s' = s ∧ reply = .count (s.fields.refcount.get digest)
  | .reopen => reply = .done ∧ (∀ f, s'.fields.manifest.tryGet f = s.fields.manifest.tryGet f) ∧
    ∀ k, OffRefcount k → s'.find k = s.find k

/-- Why an operation throws. -/
def Threw (s : State) (op : Op) (e : ChunkStoreError) (s' : State) : Prop :=
  match op with
  | .ingest _ _ => s'.fields.manifest = s.fields.manifest
  | .delete fileId => s.fields.manifest.tryGet fileId = none ∧
    e = .notFound s!"file {fileId}" ∧ s.fields.manifest.Updated s'.fields.manifest fileId none
  | .read fileId => s.fields.manifest.tryGet fileId = none ∧
    e = .notFound s!"file {fileId}" ∧ s' = s
  | .readChunk _ => s' = s
  | _ => False

/-- An operation that commits a file named like the manifest index. -/
def CommitsIndexName (store : ChunkStore) : Op → Prop
  | .ingest fileId input => fileId = indexName ∧ store.Completes (input.stream store.crates)
  | _ => False

theorem flat_map {α β : Type} (f : α → β) (p : StoreM α) : flat (f <$> p) = f <$> flat p := by
  rw [map_eq_pure_bind, flat_bind, map_eq_pure_bind]
  rfl

variable {seen : Bytes → Prop} {pin : Option Pin} {held : String → ℕ} {s : State} {op : Op}

private theorem quietly_readChunk {Q : Bytes → State → Prop} {R : ChunkStoreError → State → Prop}
    (digest : String) (hQ : ∀ data, Q data s) (hR : ∀ e, R e s) :
    quietly (flat (store.readChunk digest)) Q R s := by
  simp only [readChunk, readChunkByDigest, flat_bind, flat_unlocked]
  refine quietly_bind (quietly_get ?_)
  cases s.find digest with
  | none => exact quietly_throw (hR _)
  | some raw =>
    simp only [flat_bind, flat_ofExcept, flat_pure]
    exact quietly_bind (quietly_ofExcept (fun data _ ↦ quietly_bind (quietly_ofExcept
      (fun _ _ ↦ quietly_pure (hQ data)) fun e _ ↦ hR e)) fun e _ ↦ hR e)

/-- **The step lemma.** An operation that returns keeps the store in sync with the same references
held. One that throws keeps it in sync, perhaps with more held, unless it commits a file named like
the index. -/
theorem quietly_perform (h : Rep store seen pin held s)
    (hs : ∀ chunk ∈ store.chunksOf op, seen chunk) (hpin : ∀ p ∈ pin, op.file ≠ some p.fileId) :
    quietly (flat (store.perform op))
      (fun reply s' ↦ Rep store seen pin held s' ∧ store.Returned s op reply s')
      (fun e s' ↦ store.CommitsIndexName op ∨
        (∃ held', Rep store seen pin held' s') ∧ Threw s op e s') s := by
  cases op with
  | ingest fileId input =>
    rw [perform, flat_map, ingestInput_eq]
    refine quietly_map (quietly_mono (precisely_ingestStream h hs fun p hp hc ↦
      hpin p hp (congrArg some hc.symm)).quietly ?_ ?_)
    · rintro digests s' ⟨rfl, he, hname, hr, hins⟩
      exact ⟨hr, rfl, he, hname, Manifest.updated_of_insert hins⟩
    · rintro e s' (hc | ⟨hr, hm, -⟩)
      · exact Or.inl hc
      · exact Or.inr ⟨hr, hm⟩
  | delete fileId =>
    rw [perform, flat_map]
    refine quietly_map (quietly_mono (precisely_deleteFile h fun p hp hc ↦
      hpin p hp (congrArg some hc.symm)).quietly ?_ ?_)
    · rintro _ s' ⟨hsome, hr, hm⟩
      exact ⟨hr, rfl, hsome, hm ▸ s.fields.manifest.updated_remove fileId⟩
    · rintro e s' ⟨hnone, he, hr, hm⟩
      exact Or.inr ⟨⟨held, hr⟩, hnone, he, hm ▸ s.fields.manifest.updated_remove fileId⟩
  | read fileId =>
    rw [perform, flat_map]
    refine quietly_map (quietly_mono (quietly_read fun _ hm d hd ↦
      h.readable (h.countOf_pos hm hd)) ?_ ?_)
    · rintro data _ ⟨rfl, digests, hd, rfl⟩
      exact ⟨h, rfl, digests, hd, rfl⟩
    · rintro e _ ⟨rfl, hnone, he⟩
      exact Or.inr ⟨⟨held, h⟩, hnone, he, rfl⟩
  | readChunk digest =>
    rw [perform, flat_map]
    exact quietly_map (quietly_readChunk digest (fun _ ↦ ⟨h, rfl⟩) fun _ ↦
      Or.inr ⟨⟨held, h⟩, rfl⟩)
  | fsck repair =>
    rw [perform, flat_map]
    refine quietly_map (quietly_mono (quietly_fsck repair h) ?_ fun _ _ h ↦ h)
    rintro report _ ⟨rfl, rfl⟩
    exact ⟨h, rfl, rfl⟩
  | stats =>
    rw [perform, flat_map, ChunkStore.stats, flat_locked]
    exact quietly_map (quietly_field ⟨h, rfl, rfl⟩)
  | chunkRefcount digest =>
    rw [perform, flat_map, ChunkStore.chunkRefcount, flat_locked]
    exact quietly_map (quietly_field ⟨h, rfl, rfl⟩)
  | reopen =>
    rw [perform, flat_map]
    refine quietly_map (quietly_mono (quietly_reopen (quietly_openStore h)) ?_ fun _ _ h ↦ h)
    rintro _ s' ⟨hr, hm, hf⟩
    exact ⟨hr, rfl, hm, hf⟩

/-- The step lemma, for the one execution there is. -/
theorem exec_spec (op : Op) (h : Rep store seen pin held s)
    (hs : ∀ chunk ∈ store.chunksOf op, seen chunk)
    (hpin : ∀ p ∈ pin, op.file ≠ some p.fileId) :
    outcome (fun reply s' ↦ Rep store seen pin held s' ∧ store.Returned s op reply s')
      (fun e s' ↦ store.CommitsIndexName op ∨
        (∃ held', Rep store seen pin held' s') ∧ Threw s op e s')
      (store.exec op s).1 (store.exec op s).2 :=
  quietly_eval (quietly_perform h hs hpin)

/-! ## Runs -/

theorem rep_empty (store : ChunkStore) (seen : Bytes → Prop) (lists : Bool) :
    Rep store seen none (fun _ ↦ 0) (.empty lists) := by
  have hfind : ∀ k, (State.empty lists).find k = none := fun _ ↦ rfl
  refine ⟨⟨⟨[], readIndex_of_find_none rfl, List.nodup_nil, fun f ↦ ?_⟩, fun f _ ↦ rfl,
    fun f ↦ rfl, fun f hf ↦ ?_, fun f ds hd ↦ ?_⟩,
    ⟨⟨[], readIndex_of_find_none rfl, List.nodup_nil, fun d ↦ ?_⟩, fun d _ ↦ rfl,
      fun d r hr ↦ ?_⟩, ⟨fun d _ ↦ rfl, fun d raw _ hraw ↦ ?_, fun d r raw hr ↦ ?_⟩,
    fun d ↦ rfl, fun p hp ↦ ?_, fun _ _ ↦ ⟨fun d r hr ↦ ?_, rfl, rfl⟩⟩
  · exact ⟨fun hf ↦ absurd hf List.not_mem_nil, fun hf ↦ by cases hf⟩
  · cases hf
  · cases hd
  · exact ⟨fun hd ↦ absurd hd List.not_mem_nil, fun hd ↦ by cases hd⟩
  · cases hr
  · cases hraw
  · cases hr
  · cases hp
  · cases hr

theorem rep_start (store : ChunkStore) (seen : Bytes → Prop) (lists : Bool) :
    Rep store seen none (fun _ ↦ 0) (store.exec .reopen (.empty lists)).2 := by
  have hspec := exec_spec .reopen (rep_empty store seen lists)
    (fun c hc ↦ absurd hc List.not_mem_nil) fun p hp ↦ by cases hp
  cases hr : (store.exec .reopen (.empty lists)).1 with
  | ok reply =>
    rw [hr] at hspec
    exact hspec.1
  | error e =>
    rw [hr] at hspec
    rcases hspec with hc | ⟨-, ht⟩
    · exact hc.elim
    · exact ht.elim

/-- A run without an error stays in sync, with nothing held. -/
theorem rep_execAll_of_ok {ops : List Op} (h : Rep store seen none held s)
    (hs : ∀ op ∈ ops, ∀ chunk ∈ store.chunksOf op, seen chunk)
    (hok : ∀ r ∈ (store.execAll ops s).1, ∃ reply, r = .ok reply) :
    Rep store seen none held (store.execAll ops s).2 := by
  induction ops generalizing s with
  | nil => exact h
  | cons op ops ih =>
    obtain ⟨reply, hr⟩ := hok _ List.mem_cons_self
    have hspec := exec_spec op h (hs op List.mem_cons_self) fun p hp ↦ by cases hp
    rw [hr] at hspec
    exact ih hspec.1 (fun o ho ↦ hs o (List.mem_cons_of_mem op ho)) fun r hr' ↦
      hok r (List.mem_cons_of_mem _ hr')

/-- An operation that does not commit a file named like the index keeps a store in sync, whatever it
returns. -/
theorem rep_exec (h : Rep store seen pin held s) (hs : ∀ chunk ∈ store.chunksOf op, seen chunk)
    (hpin : ∀ p ∈ pin, op.file ≠ some p.fileId) (ht : ¬store.CommitsIndexName op) :
    ∃ held', Rep store seen pin held' (store.exec op s).2 := by
  have hspec := exec_spec op h hs hpin
  cases hr : (store.exec op s).1 with
  | ok reply =>
    rw [hr] at hspec
    exact ⟨held, hspec.1⟩
  | error e =>
    rw [hr] at hspec
    exact (hspec.resolve_left ht).1

/-- A run that never commits a file named like the index stays in sync, whatever it returns. -/
theorem rep_execAll {ops : List Op} (h : Rep store seen none held s)
    (hs : ∀ op ∈ ops, ∀ chunk ∈ store.chunksOf op, seen chunk)
    (ht : ∀ op ∈ ops, ¬store.CommitsIndexName op) :
    ∃ held', Rep store seen none held' (store.execAll ops s).2 := by
  induction ops generalizing s held with
  | nil => exact ⟨held, h⟩
  | cons op ops ih =>
    obtain ⟨held', h'⟩ := rep_exec h (hs op List.mem_cons_self) (fun p hp ↦ by cases hp)
      (ht op List.mem_cons_self)
    exact ih h' (fun o ho ↦ hs o (List.mem_cons_of_mem op ho))
      fun o ho ↦ ht o (List.mem_cons_of_mem op ho)

/-- **Refcounts and garbage collection are exact.** After a run in which every operation returned,
the refcount of a digest is the number of its occurrences over the digest lists of all files, and
there is a blob under it exactly when that number is positive. -/
theorem refcounts_exact (store : ChunkStore) (lists : Bool) (ops : List Op)
    (hok : ∀ r ∈ (store.run lists ops).1, ∃ reply, r = .ok reply) (digest : String)
    (hd : isChunkDigest digest = true) :
    (store.run lists ops).2.fields.refcount.countOf digest
        = (store.run lists ops).2.fields.manifest.occurrences digest ∧
      (((store.run lists ops).2.find digest).isSome
        ↔ 0 < (store.run lists ops).2.fields.manifest.occurrences digest) := by
  have h : Rep store (fun _ ↦ True) none (fun _ ↦ 0) (store.run lists ops).2 :=
    rep_execAll_of_ok (rep_start store _ lists) (fun _ _ _ _ ↦ trivial) hok
  have hc := h.counted digest
  rw [Nat.add_zero] at hc
  refine ⟨hc, ?_⟩
  rw [← hc, h.blobs.present digest hd]
  constructor
  · intro hs
    obtain ⟨r, hr⟩ := Option.isSome_iff_exists.mp hs
    exact h.refcount.countOf_pos hr
  · intro hpos
    obtain ⟨r, hr⟩ := RefcountSynced.find_of_pos hpos
    rw [hr]
    rfl

theorem exists_reply_of_all {results : List (Except ChunkStoreError Reply)}
    (h : results.all Except.isOk = true) : ∀ r ∈ results, ∃ reply, r = .ok reply := by
  intro r hr
  have hok := List.all_eq_true.mp h r hr
  cases r with
  | ok reply => exact ⟨reply, rfl⟩
  | error e => cases hok

/-- Two files that share a chunk, one of them replaced. -/
def sharedOps : List Op :=
  [.ingest "f" (.chunks [[0x61], [0x62]]), .ingest "g" (.bytes [0x61]),
    .ingest "f" (.fixed [0x61] 1)]

theorem refcounts_exact_shared :
    (smallStore.run true sharedOps).2.fields.refcount.countOf
          (digestHex smallStore.crates.sha256 [0x61])
        = (smallStore.run true sharedOps).2.fields.manifest.occurrences
          (digestHex smallStore.crates.sha256 [0x61]) ∧
      (((smallStore.run true sharedOps).2.find (digestHex smallStore.crates.sha256 [0x61])).isSome
        ↔ 0 < (smallStore.run true sharedOps).2.fields.manifest.occurrences
          (digestHex smallStore.crates.sha256 [0x61])) :=
  refcounts_exact smallStore true sharedOps (exists_reply_of_all (by decide +kernel)) _
    (isChunkDigest_digestHex _ _)

example : (smallStore.run true sharedOps).2.fields.refcount.countOf
    (digestHex smallStore.crates.sha256 [0x61]) = 2 := by decide +kernel

/-! ## Isolation -/

theorem exec_read_of_readable {fileId : String} (h : ∀ digests,
      s.fields.manifest.tryGet fileId = some digests → ∀ d ∈ digests, store.Readable s d) :
    (store.exec (.read fileId) s).1
      = match s.fields.manifest.tryGet fileId with
        | some digests => .ok (.bytes (digests.flatMap (store.content s)))
        | none => .error (.notFound s!"file {fileId}") := by
  have hread := quietly_eval (quietly_map (f := Reply.bytes)
    (Q := fun reply _ ↦ ∃ digests, s.fields.manifest.tryGet fileId = some digests ∧
      reply = .bytes (digests.flatMap (store.content s)))
    (R := fun e _ ↦ s.fields.manifest.tryGet fileId = none ∧ e = .notFound s!"file {fileId}")
    (quietly_mono (quietly_read h) (fun data _ hq ↦ by
      obtain ⟨-, digests, hd, rfl⟩ := hq
      exact ⟨digests, hd, rfl⟩) fun e _ he ↦ he.2))
  rw [← flat_map] at hread
  rw [exec, perform]
  revert hread
  cases (callHandler.eval (flat (Reply.bytes <$> store.read fileId)).run s).1 with
  | ok reply =>
    rintro ⟨digests, hd, rfl⟩
    rw [hd]
  | error e =>
    rintro ⟨hnone, rfl⟩
    rw [hnone]

theorem exec_read (h : Rep store seen pin held s) (fileId : String) :
    (store.exec (.read fileId) s).1
      = match s.fields.manifest.tryGet fileId with
        | some digests => .ok (.bytes (digests.flatMap (store.content s)))
        | none => .error (.notFound s!"file {fileId}") :=
  exec_read_of_readable fun _ hm _ hd ↦ h.readable (h.countOf_pos hm hd)

theorem exec_reopen (h : Rep store seen pin held s) :
    (store.exec .reopen s).1 = .ok .done ∧ Rep store seen pin held (store.exec .reopen s).2 ∧
      (∀ f, (store.exec .reopen s).2.fields.manifest.tryGet f = s.fields.manifest.tryGet f) ∧
        ∀ k, OffRefcount k → (store.exec .reopen s).2.find k = s.find k := by
  have hspec := exec_spec .reopen h (fun c hc ↦ absurd hc List.not_mem_nil)
    fun p _ hc ↦ by cases hc
  cases hr : (store.exec .reopen s).1 with
  | ok reply =>
    rw [hr] at hspec
    obtain ⟨hrep, rfl, hm, hf⟩ := hspec
    exact ⟨rfl, hrep, hm, hf⟩
  | error e =>
    rw [hr] at hspec
    rcases hspec with hc | ⟨-, ht⟩
    · exact hc.elim
    · exact ht.elim

private theorem rep_pin {fileId : String} {digests : List String} (h : Rep store seen none held s)
    (hm : s.fields.manifest.tryGet fileId = some digests) :
    Rep store seen (some ⟨fileId, digests, s⟩) held s := by
  refine ⟨h.manifest, h.refcount, h.blobs, h.counted, fun p hp ↦ ?_, h.accounted⟩
  obtain rfl := Option.some.inj (Option.mem_def.mp hp)
  exact ⟨hm, fun _ _ ↦ rfl⟩

theorem exec_read_of_pin {s₀ : State} {fileId : String} {digests : List String}
    (h : Rep store seen (some ⟨fileId, digests, s₀⟩) held s) :
    (store.exec (.read fileId) s).1 = .ok (.bytes (digests.flatMap (store.content s₀))) := by
  obtain ⟨hm, hk⟩ := h.pinned _ rfl
  dsimp only at hm hk
  have hc : digests.flatMap (store.content s) = digests.flatMap (store.content s₀) :=
    List.flatMap_congr fun d hd ↦ by rw [content, content, hk d hd]
  rw [exec_read h, hm]
  dsimp only
  rw [hc]

/-- **Operations on one file never damage another**, in runs that never commit a file named like the
manifest index: opening the backend succeeds, and every other file reads the same afterwards, and
the same from the reopened store. This is so whatever the operations return. -/
theorem others_unharmed (store : ChunkStore) (lists : Bool) (ops : List Op) (op : Op)
    (hops : ∀ o ∈ ops, ¬store.CommitsIndexName o) (hop : ¬store.CommitsIndexName op) :
    (store.exec .reopen (store.exec op (store.run lists ops).2).2).1 = .ok .done ∧
      ∀ fileId, op.file ≠ some fileId →
        ((store.run lists ops).2.fields.manifest.tryGet fileId).isSome →
          (store.exec (.read fileId) (store.exec op (store.run lists ops).2).2).1
              = (store.exec (.read fileId) (store.run lists ops).2).1 ∧
            (store.exec (.read fileId)
                (store.exec .reopen (store.exec op (store.run lists ops).2).2).2).1
              = (store.exec (.read fileId) (store.run lists ops).2).1 := by
  obtain ⟨held, h⟩ := rep_execAll (rep_start store (fun _ ↦ True) lists)
    (fun _ _ _ _ ↦ trivial) hops
  change Rep store _ none held (store.run lists ops).2 at h
  constructor
  · obtain ⟨held', hafter⟩ := rep_exec h (fun _ _ ↦ trivial) (fun p hp ↦ by cases hp) hop
    exact (exec_reopen hafter).1
  · intro fileId hfile hin
    obtain ⟨digests, hd⟩ := Option.isSome_iff_exists.mp hin
    have hpin := rep_pin h hd
    obtain ⟨held', hafter⟩ := rep_exec hpin (fun _ _ ↦ trivial) (fun p hp hc ↦ by
      obtain rfl := Option.some.inj (Option.mem_def.mp hp)
      exact hfile hc) hop
    obtain ⟨-, hre, -, -⟩ := exec_reopen hafter
    rw [exec_read_of_pin hpin, exec_read_of_pin hafter, exec_read_of_pin hre]
    exact ⟨rfl, rfl⟩

/-- A file whose only chunk another file has too, when that one is deleted. -/
theorem others_unharmed_shared :
    (smallStore.exec (.read "g") (smallStore.exec .reopen (smallStore.exec (.delete "f")
      (smallStore.run true [.ingest "f" (.bytes [0x61]), .ingest "g" (.bytes [0x61])]).2).2).2).1
        = .ok (.bytes [0x61]) :=
  ((others_unharmed smallStore true [.ingest "f" (.bytes [0x61]), .ingest "g" (.bytes [0x61])]
    (.delete "f") (fun o ho hc ↦ by
      simp only [List.mem_cons, List.not_mem_nil, or_false] at ho
      rcases ho with rfl | rfl
      · exact absurd hc.1 (by decide)
      · exact absurd hc.1 (by decide)) (fun hc ↦ hc)).2 "g" (by decide)
    (by decide +kernel)).2.trans (by decide +kernel)

/-- A file that is named like the manifest index: its record overwrites the index, and the backend
can no longer be opened. -/
theorem others_harmed : ¬∀ (store : ChunkStore) (lists : Bool) (ops : List Op) (op : Op)
    (fileId : String), op.file ≠ some fileId →
      ((store.run lists ops).2.fields.manifest.tryGet fileId).isSome →
        (store.exec (.read fileId) (store.exec op (store.run lists ops).2).2).1
            = (store.exec (.read fileId) (store.run lists ops).2).1 ∧
          (store.exec .reopen (store.exec op (store.run lists ops).2).2).1 = .ok .done ∧
          (store.exec (.read fileId)
              (store.exec .reopen (store.exec op (store.run lists ops).2).2).2).1
            = (store.exec (.read fileId) (store.run lists ops).2).1 := by
  intro h
  have hopen := (h smallStore true [.ingest "g" (.bytes [0x61])]
    (.ingest indexName (.bytes [0x61])) "g" (by decide) (by decide +kernel)).2.1
  revert hopen
  decide +kernel

end ChunkStore

end Chunkstore

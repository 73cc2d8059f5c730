import Chunkstore.Exact.Runs

/-!
# The map from files to bytes

What the store is for: a map from file ids to bytes. Chunking, deduplication, reference counts and
persistence are all below this line, and none of them shows: in every run on a fault-free backend in
which the ingests succeed, reads and deletes answer as the map does.

A file of the map is represented by chunks that concatenate to its bytes and whose digests are the
file's list. The chunks of different files share blobs, so what makes the representation readable is
that no two chunks of the run collide.

## Main result

* `ChunkStore.refines_fileMap`: the store refines the map.
-/

open Effects Program

namespace Chunkstore

namespace ChunkStore

/-! ## What was ingested -/

def IngestInput.contents : IngestInput → Bytes
  | .bytes data => data
  | .fixed data _ => data
  | .cdc data => data
  | .readerFixed reader _ => reader.contents
  | .readerCdc reader => reader.contents
  | .path (.ok reader) => reader.contents
  | .path (.error _) => []
  | .pathCdc (.ok reader) => reader.contents
  | .pathCdc (.error _) => []
  | .chunks cs => cs.flatten

private theorem flatten_bufferStream {fastcdc : FastCdc} {chunker : Chunker} {data : Bytes}
    (h : (bufferStream fastcdc chunker data).error = none) :
    (bufferStream fastcdc chunker data).chunks.flatten = chunker.buffer ++ data := by
  rw [bufferStream] at h ⊢
  cases hf : chunker.feed data with
  | error e =>
    rw [hf] at h
    cases h
  | ok fed =>
    rw [hf] at h
    dsimp only at h ⊢
    rw [Stream.cons, List.flatten_append, Chunker.flatten_finishStream h, Chunker.flatten_feed hf]

/-- The chunks of an input concatenate to its data, whatever the variant. -/
theorem flatten_stream {crates : Crates} {input : IngestInput}
    (h : (input.stream crates).error = none) :
    (input.stream crates).chunks.flatten = input.contents := by
  cases input with
  | bytes data => exact flatten_bufferStream h
  | fixed data chunkSize =>
    rw [IngestInput.stream] at h ⊢
    split at h
    · cases h
    · rename_i h0
      rw [dif_neg h0]
      exact flatten_bufferStream h
  | cdc data => exact flatten_bufferStream h
  | readerFixed reader chunkSize =>
    rw [IngestInput.stream] at h ⊢
    split at h
    · cases h
    · rename_i h0
      rw [dif_neg h0]
      exact Chunker.flatten_stream h
  | readerCdc reader => exact Chunker.flatten_stream h
  | path file =>
    cases file with
    | error e => cases h
    | ok reader => exact Chunker.flatten_stream h
  | pathCdc file =>
    cases file with
    | error e => cases h
    | ok reader => exact Chunker.flatten_stream h
  | chunks cs => rfl

/-! ## The abstract store -/

abbrev FileMap := String → Option Bytes

namespace FileMap

def empty : FileMap := fun _ ↦ none

/-- What an operation makes of the map. -/
def after (m : FileMap) : Op → FileMap
  | .ingest fileId input => fun g ↦ if g = fileId then some input.contents else m g
  | .delete fileId => fun g ↦ if g = fileId then none else m g
  | _ => m

def read (m : FileMap) (fileId : String) : Except ChunkStoreError Reply :=
  match m fileId with
  | some data => .ok (.bytes data)
  | none => .error (.notFound s!"file {fileId}")

def delete (m : FileMap) (fileId : String) : Except ChunkStoreError Reply :=
  match m fileId with
  | some _ => .ok .done
  | none => .error (.notFound s!"file {fileId}")

/-- Results that are those of the map: every read and every delete answers as the map does at that
point of the run. -/
def Explains : FileMap → List Op → List (Except ChunkStoreError Reply) → Prop
  | m, op :: ops, r :: rs =>
    (match op with
      | .read fileId => r = m.read fileId
      | .delete fileId => r = m.delete fileId
      | _ => True) ∧ Explains (m.after op) ops rs
  | _, _, _ => True

theorem after_of_ne {m : FileMap} {op : Op} {g : String} (h : op.file ≠ some g) :
    m.after op g = m g := by
  cases op with
  | ingest fileId input => exact if_neg fun hg ↦ h (congrArg some hg.symm)
  | delete fileId => exact if_neg fun hg ↦ h (congrArg some hg.symm)
  | _ => rfl

theorem foldl_after_of_ne {m : FileMap} {ops : List Op} {g : String}
    (h : ∀ op ∈ ops, op.file ≠ some g) : ops.foldl after m g = m g := by
  induction ops generalizing m with
  | nil => rfl
  | cons op ops ih =>
    rw [List.foldl_cons, ih fun o ho ↦ h o (List.mem_cons_of_mem op ho),
      after_of_ne (h op List.mem_cons_self)]

theorem foldl_after_ingest {m : FileMap} {ops : List Op} {g : String} {input : IngestInput}
    (hnd : (ops.map Op.file).Nodup) (h : .ingest g input ∈ ops) :
    ops.foldl after m g = some input.contents := by
  induction ops generalizing m with
  | nil => cases h
  | cons op ops ih =>
    rw [List.map_cons, List.nodup_cons] at hnd
    rw [List.foldl_cons]
    rcases List.mem_cons.mp h with rfl | h
    · rw [foldl_after_of_ne fun o ho hfile ↦ hnd.1 (List.mem_map.mpr ⟨o, ho, hfile⟩)]
      exact if_pos rfl
    · exact ih hnd.2 h

end FileMap

/-! ## The representation -/

variable {store : ChunkStore} {seen : Bytes → Prop} {held : String → ℕ} {s : State}
  {m : FileMap} {op : Op} {ops : List Op}

/-- A map is represented by a manifest: each file by chunks whose digests are its list. -/
def Represents (store : ChunkStore) (seen : Bytes → Prop) (m : FileMap) (s : State) : Prop :=
  ∀ fileId, match m fileId with
    | none => s.fields.manifest.tryGet fileId = none
    | some data => ∃ chunks : List Bytes, (∀ c ∈ chunks, seen c) ∧ chunks.flatten = data ∧
      s.fields.manifest.tryGet fileId = some (chunks.map (digestHex store.crates.sha256))

/-- The blob under the digest of a chunk is that chunk, when no two chunks collide. -/
private theorem content_digestHex {chunk : Bytes} (h : Rep store seen none held s)
    (hnc : NoCollision store.crates.sha256 seen) (hs : seen chunk)
    (hpos : 0 < s.fields.refcount.countOf (digestHex store.crates.sha256 chunk)) :
    store.content s (digestHex store.crates.sha256 chunk) = chunk := by
  obtain ⟨r, raw, -, hraw⟩ := h.blob_of_pos hpos
  obtain ⟨data, hseen, hdec, hdig⟩ := h.blobs.holds _ raw (isChunkDigest_digestHex _ _) hraw
  rw [content, hraw, Option.bind_some, hdec]
  exact hnc data chunk hseen hs hdig

theorem Represents.exec_read (hm : Represents store seen m s) (h : Rep store seen none held s)
    (hnc : NoCollision store.crates.sha256 seen) (fileId : String) :
    (store.exec (.read fileId) s).1 = m.read fileId := by
  rw [ChunkStore.exec_read h, FileMap.read]
  have hf := hm fileId
  cases hmf : m fileId with
  | none =>
    rw [hmf] at hf
    rw [hf]
  | some data =>
    rw [hmf] at hf
    obtain ⟨chunks, hseen, rfl, hget⟩ := hf
    have hcontent : ∀ c ∈ chunks, store.content s (digestHex store.crates.sha256 c) = c :=
      fun c hc ↦ content_digestHex h hnc (hseen c hc)
        (h.countOf_pos hget (List.mem_map_of_mem hc))
    rw [hget]
    dsimp only
    rw [flatMap_content hcontent]

theorem Represents.exec_delete (hm : Represents store seen m s) (h : Rep store seen none held s)
    (fileId : String) : (store.exec (.delete fileId) s).1 = m.delete fileId := by
  have hspec := exec_spec (.delete fileId) h (fun c hc ↦ absurd hc List.not_mem_nil)
    fun p hp ↦ by cases hp
  rw [FileMap.delete]
  have hf := hm fileId
  cases hr : (store.exec (.delete fileId) s).1 with
  | ok reply =>
    rw [hr] at hspec
    obtain ⟨-, rfl, hsome, -⟩ := hspec
    cases hmf : m fileId with
    | none =>
      rw [hmf] at hf
      rw [hf] at hsome
      cases hsome
    | some data => rfl
  | error e =>
    rw [hr] at hspec
    rcases hspec with hc | ⟨-, hnone, rfl, -⟩
    · exact hc.elim
    · cases hmf : m fileId with
      | none => rfl
      | some data =>
        rw [hmf] at hf
        obtain ⟨chunks, -, -, hget⟩ := hf
        rw [hget] at hnone
        cases hnone

theorem Represents.update {s' : State} {fileId : String} {chunks : List Bytes}
    (hm : Represents store seen m s) (hs : ∀ c ∈ chunks, seen c)
    (hup : s.fields.manifest.Updated s'.fields.manifest fileId
      (some (chunks.map (digestHex store.crates.sha256)))) :
    Represents store seen (fun g ↦ if g = fileId then some chunks.flatten else m g) s' := by
  intro g
  by_cases hg : g = fileId
  · dsimp only
    rw [if_pos hg]
    exact ⟨chunks, hs, rfl, (hup g).trans (if_pos hg)⟩
  · dsimp only
    rw [if_neg hg, (hup g).trans (if_neg hg)]
    exact hm g

private theorem Represents.erase {s' : State} {fileId : String} (hm : Represents store seen m s)
    (hup : s.fields.manifest.Updated s'.fields.manifest fileId none) :
    Represents store seen (fun g ↦ if g = fileId then none else m g) s' := by
  intro g
  by_cases hg : g = fileId
  · dsimp only
    rw [if_pos hg]
    exact (hup g).trans (if_pos hg)
  · dsimp only
    rw [if_neg hg, (hup g).trans (if_neg hg)]
    exact hm g

private theorem Represents.of_tryGet {s' : State} (hm : Represents store seen m s)
    (h : ∀ f, s'.fields.manifest.tryGet f = s.fields.manifest.tryGet f) :
    Represents store seen m s' := by
  intro g
  rw [h]
  exact hm g

/-- An operation that may be part of a run: if it is an ingest, it returned. -/
def IngestReturned (op : Op) (r : Except ChunkStoreError Reply) : Prop :=
  match op with
  | .ingest _ _ => ∃ reply, r = .ok reply
  | _ => True

/-- **The step lemma.** Every operation, if an ingest then one that returned, moves the store as it
moves the map. -/
theorem Represents.step (hm : Represents store seen m s) (h : Rep store seen none held s)
    (hs : ∀ chunk ∈ store.chunksOf op, seen chunk) (hok : IngestReturned op (store.exec op s).1) :
    (∃ held', Rep store seen none held' (store.exec op s).2) ∧
      Represents store seen (m.after op) (store.exec op s).2 := by
  have hspec := exec_spec op h hs fun p hp ↦ by cases hp
  cases hr : (store.exec op s).1 with
  | ok reply =>
    rw [hr] at hspec
    obtain ⟨hrep, hret⟩ := hspec
    refine ⟨⟨held, hrep⟩, ?_⟩
    cases op with
    | ingest fileId input =>
      obtain ⟨-, he, -, hup⟩ := hret
      rw [FileMap.after, ← flatten_stream he]
      exact hm.update hs hup
    | delete fileId => exact hm.erase hret.2.2
    | read fileId =>
      rw [hret.1]
      exact hm
    | readChunk digest =>
      rw [show (store.exec (.readChunk digest) s).2 = s from hret]
      exact hm
    | fsck repair =>
      rw [hret.1]
      exact hm
    | stats =>
      rw [hret.1]
      exact hm
    | chunkRefcount digest =>
      rw [hret.1]
      exact hm
    | reopen => exact hm.of_tryGet hret.2.1
  | error e =>
    rw [hr] at hspec hok
    rcases hspec with hc | ⟨hrep, ht⟩
    · cases op with
      | ingest fileId input =>
        obtain ⟨_, hok⟩ := hok
        cases hok
      | _ => exact hc.elim
    · refine ⟨hrep, ?_⟩
      cases op with
      | ingest fileId input =>
        obtain ⟨_, hok⟩ := hok
        cases hok
      | delete fileId => exact hm.erase ht.2.2
      | read fileId =>
        rw [ht.2.2]
        exact hm
      | readChunk digest =>
        rw [show (store.exec (.readChunk digest) s).2 = s from ht]
        exact hm
      | _ => exact ht.elim

/-- Every ingest of a run returned. -/
def IngestsReturned : List Op → List (Except ChunkStoreError Reply) → Prop
  | op :: ops, r :: rs => IngestReturned op r ∧ IngestsReturned ops rs
  | _, _ => True

/-- **The run lemma.** The map explains a run, and is represented at its end. -/
theorem Represents.execAll (hnc : NoCollision store.crates.sha256 seen)
    (hm : Represents store seen m s) (h : Rep store seen none held s)
    (hs : ∀ op ∈ ops, ∀ chunk ∈ store.chunksOf op, seen chunk)
    (hok : IngestsReturned ops (store.execAll ops s).1) :
    m.Explains ops (store.execAll ops s).1 ∧
      (∃ held', Rep store seen none held' (store.execAll ops s).2) ∧
        Represents store seen (ops.foldl FileMap.after m) (store.execAll ops s).2 := by
  induction ops generalizing s m held with
  | nil => exact ⟨trivial, ⟨held, h⟩, hm⟩
  | cons op ops ih =>
    obtain ⟨⟨held', h'⟩, hm'⟩ := hm.step h (hs op List.mem_cons_self) hok.1
    obtain ⟨hexp, hrest⟩ := ih hm' h' (fun o ho ↦ hs o (List.mem_cons_of_mem op ho)) hok.2
    refine ⟨⟨?_, hexp⟩, hrest⟩
    cases op with
    | read fileId => exact hm.exec_read h hnc fileId
    | delete fileId => exact hm.exec_delete h fileId
    | _ => trivial

theorem represents_start (store : ChunkStore) (seen : Bytes → Prop) (lists : Bool) :
    Represents store seen .empty (store.exec .reopen (.empty lists)).2 :=
  fun fileId ↦ (exec_reopen (rep_empty store seen lists)).2.2.1 fileId

private theorem ingestsReturned_append {ops ops' : List Op} {s : State}
    (h : IngestsReturned (ops ++ ops') (store.execAll (ops ++ ops') s).1) :
    IngestsReturned ops (store.execAll ops s).1 := by
  induction ops generalizing s with
  | nil => trivial
  | cons op ops ih => exact ⟨h.1, ih h.2⟩

/-- The run lemma, for a run from the start. -/
theorem represents_run (store : ChunkStore) (lists : Bool) {ops : List Op}
    (hnc : NoCollision store.crates.sha256 seen)
    (hs : ∀ op ∈ ops, ∀ chunk ∈ store.chunksOf op, seen chunk)
    (hok : IngestsReturned ops (store.run lists ops).1) :
    FileMap.empty.Explains ops (store.run lists ops).1 ∧
      ∀ fileId, (store.exec (.read fileId) (store.run lists ops).2).1
        = (ops.foldl FileMap.after .empty).read fileId := by
  obtain ⟨hexp, ⟨held, hrep⟩, hm⟩ := (represents_start store seen lists).execAll hnc
    (rep_start store seen lists) hs hok
  exact ⟨hexp, hm.exec_read hrep hnc⟩

/-- **The store refines a map from file ids to bytes.** In a run whose ingests returned and whose
chunks do not collide, every read and delete answers as the map does; at its end every file reads as
in the map; and no operation of the run changes what a file reads that it is not about. -/
theorem refines_fileMap (store : ChunkStore) (lists : Bool) (ops : List Op)
    (hnc : NoCollision store.crates.sha256 (store.Ingested ops))
    (hok : IngestsReturned ops (store.run lists ops).1) :
    FileMap.empty.Explains ops (store.run lists ops).1 ∧
      (∀ fileId, (store.exec (.read fileId) (store.run lists ops).2).1
        = (ops.foldl FileMap.after .empty).read fileId) ∧
      ∀ ops₀ op, ops₀ ++ [op] <+: ops → ∀ g, op.file ≠ some g →
        (store.exec (.read g) (store.run lists (ops₀ ++ [op])).2).1
          = (store.exec (.read g) (store.run lists ops₀).2).1 := by
  have hs : ∀ op ∈ ops, ∀ chunk ∈ store.chunksOf op, store.Ingested ops chunk := fun op hop c hc ↦
    ⟨op, hop, hc⟩
  obtain ⟨hexp, hread⟩ := represents_run store lists hnc hs hok
  refine ⟨hexp, hread, ?_⟩
  rintro ops₀ op ⟨rest, rfl⟩ g hg
  have hok₁ := ingestsReturned_append hok
  have h₁ := (represents_run store lists hnc
    (fun o ho ↦ hs o (List.mem_append_left _ ho)) hok₁).2 g
  have h₀ := (represents_run store lists hnc
    (fun o ho ↦ hs o (List.mem_append_left _ (List.mem_append_left _ ho)))
    (ingestsReturned_append hok₁)).2 g
  rw [h₁, h₀, List.foldl_append, List.foldl_cons, List.foldl_nil, FileMap.read, FileMap.read,
    FileMap.after_of_ne hg]

theorem ingestsReturned_of_ok {ops : List Op} {results : List (Except ChunkStoreError Reply)}
    (h : ∀ r ∈ results, ∃ reply, r = .ok reply) : IngestsReturned ops results := by
  induction ops generalizing results with
  | nil => trivial
  | cons op ops ih =>
    cases results with
    | nil => trivial
    | cons r results =>
      refine ⟨?_, ih fun r' hr' ↦ h r' (List.mem_cons_of_mem r hr')⟩
      cases op with
      | ingest fileId input => exact h r List.mem_cons_self
      | _ => trivial

/-- Two files that share a chunk, one of them replaced. -/
theorem refines_fileMap_shared :
    (smallStore.exec (.read "f") (smallStore.run true sharedOps).2).1 = .ok (.bytes [0x61]) :=
  (refines_fileMap smallStore true sharedOps (noCollision_ingested (by decide +kernel))
    (ingestsReturned_of_ok (exists_reply_of_all (by decide +kernel)))).2.1 "f"

end ChunkStore

end Chunkstore

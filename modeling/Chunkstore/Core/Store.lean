import Chunkstore.Core.Persistence

/-!
# The store

The operations of `ChunkStore` with metadata on the backend (`store/mod.rs`, `fsck.rs`). Locks are
kept where the source takes them: `locked` is a scope that holds one, `unlocked` is code that holds
none. What an operation reads of `self` besides the guarded fields is a `ChunkStore`.

Every ingest variant runs the same session over the chunks of its input; `ingestInput_eq` says so,
with `IngestInput.stream` as the input's chunks.
-/

open Effects

namespace Chunkstore

/-- The immutable part of an instance: the crates it is compiled with and its blob codec. -/
structure ChunkStore where
  crates : Crates
  codec : Option ChunkCodec

/-! ## Writers -/

/-- What one `write` of a writer answers. -/
inductive WriteResult
  | accepted (n : ℕ)
  | interrupted
  | failed (msg : String)
  deriving DecidableEq, Repr

/-- A writer: the answers of its successive writes, and the bytes it has accepted. After the last
answer it accepts everything, as a `Vec` does from the start. -/
structure Writer where
  results : List WriteResult
  out : Bytes

def Writer.vec : Writer := ⟨[], []⟩

/-- `Write::write_all`: write until the buffer is gone, retrying when interrupted. -/
def writeAll : List WriteResult → Bytes → Bytes → Except ChunkStoreError Unit × Writer
  | results, [], out => (.ok (), ⟨results, out⟩)
  | [], buf, out => (.ok (), ⟨[], out ++ buf⟩)
  | .accepted 0 :: results, _, out =>
    (.error (.ioError "failed to write whole buffer"), ⟨results, out⟩)
  | .accepted (n + 1) :: results, buf, out =>
    writeAll results (buf.drop (n + 1)) (out ++ buf.take (n + 1))
  | .interrupted :: results, buf, out => writeAll results buf out
  | .failed msg :: results, _, out => (.error (.ioError msg), ⟨results, out⟩)

/-! ## Consistency reports -/

/-- Result of a consistency scan over chunk blobs and refcounts. -/
structure FsckReport where
  missingBlobs : List String := []
  orphanBlobs : List String := []
  repaired : ℕ := 0
  deriving DecidableEq, Repr

def collectOrphans (live : List String) : BackendM (List String) := do
  match ← backendCall (.listKeys "") with
  | none => return []
  | some keys => return keys.filter fun key ↦ isChunkDigest key && !live.contains key

namespace ChunkStore

variable (self : ChunkStore)

/-! ## Chunks -/

def encodeBlob (data : Bytes) : Except ChunkStoreError Bytes :=
  match self.codec with
  | some codec => codec.encode data
  | none => .ok data

def decodeBlob (stored : Bytes) : Except ChunkStoreError Bytes :=
  match self.codec with
  | some codec => codec.decode stored
  | none => .ok stored

theorem decodeBlob_encodeBlob {data stored : Bytes} (h : self.encodeBlob data = .ok stored) :
    self.decodeBlob stored = .ok data := by
  rw [encodeBlob] at h
  rw [decodeBlob]
  cases hc : self.codec with
  | none =>
    rw [hc] at h
    cases h
    rfl
  | some codec =>
    rw [hc] at h
    exact codec.decode_encode h

/-- The part of `store_chunk` under the blob lock: put the blob unless it is there. -/
def putBlob (digest : String) (blob : Bytes) : BackendM Bool := do
  let present ← backendCall (.existsKey digest)
  if present then
    return present
  else
    backendCall (.put digest blob)
    return present

/-- The part of `store_chunk` under the refcount lock: count the reference and persist it. -/
def countChunk (digest : String) (size : ℕ) : BackendM Unit := do
  let count ← fieldOrThrow (.refcountIncrement digest size)
  let storedSize ← field (.refcountSizeOf digest)
  saveRefcount self.crates digest count (storedSize.getD size)

def storeChunk (digest : String) (data : Bytes) : StoreM Bool := do
  let blob ← ofExcept (self.encodeBlob data)
  let present ← locked .blob (putBlob digest blob)
  locked .refcount (self.countChunk digest data.length)
  if present then
    locked .stats (field (.statsAddReference data.length))
  else
    locked .stats (field (.statsAddUniqueChunk data.length))
  return present

def chunkSize (digest : String) : StoreM ℕ := do
  let size ← locked .refcount (field (.refcountSizeOf digest))
  if 0 < size.getD 0 then
    return size.getD 0
  else
    match ← unlocked (backendCall (.get digest)) with
    | none => throw (.notFound s!"chunk {digest}")
    | some data =>
      let plain ← ofExcept (self.decodeBlob data)
      return plain.length

/-- One round of the loop of `release_digests`. -/
def releaseDigest (digest : String) : StoreM Unit := do
  let size ← self.chunkSize digest
  let remaining ← locked .refcount (fieldOrThrow (.refcountDecrement digest))
  if remaining = 0 then
    unlocked (backendCall (.delete digest))
    unlocked (removeRefcount self.crates digest)
    locked .stats (field (.statsRemoveUniqueChunk size))
  else
    unlocked (saveRefcount self.crates digest remaining size)
  locked .stats (field (.statsRemoveReference size))

def releaseDigests : List String → StoreM Unit
  | [] => return ()
  | digest :: digests => do
    self.releaseDigest digest
    releaseDigests digests

/-! ## Opening -/

/-- One round of the loop of `rebuild_stats`. -/
def rebuildStat (stats : Stats) (entry : String × ChunkRef) : StoreM Stats := do
  let size ← if 0 < entry.2.size then pure entry.2.size else self.chunkSize entry.1
  return { stats with
    storedBytes := stats.storedBytes + size
    totalBytes := stats.totalBytes + size * entry.2.count }

def rebuildStats : StoreM Unit := do
  let refs ← locked .refcount (field .refcountIterRefs)
  let stats ← refs.foldlM self.rebuildStat {}
  locked .stats (field (.statsReplace stats))

end ChunkStore

/-- Open a store and load its metadata from the backend, `ChunkStore::open`. -/
def openStore (crates : Crates) : StoreM ChunkStore := do
  let manifest ← unlocked (loadManifests crates)
  let loaded ← unlocked (loadRefcounts crates)
  let refcount ← unlocked (backfillRefcountSizes crates loaded)
  unlocked (field (.construct manifest refcount))
  ChunkStore.rebuildStats ⟨crates, none⟩
  return ⟨crates, none⟩

/-- Open with a blob codec. The codec is installed after everything is loaded. -/
def openWithCodec (crates : Crates) (codec : ChunkCodec) : StoreM ChunkStore := do
  let store ← openStore crates
  return { store with codec := some codec }

namespace ChunkStore

variable (self : ChunkStore)

/-! ## Ingest -/

/-- An ingest under way. -/
structure IngestSession where
  digests : List String
  sizes : List ℕ
  fileBytes : ℕ
  deriving DecidableEq, Repr

namespace IngestSession

/-- A session that has accepted nothing. -/
def new : IngestSession := ⟨[], [], 0⟩

end IngestSession

/-- `IngestSession::accept`. -/
def accept (session : IngestSession) (chunk : Bytes) : StoreM IngestSession := do
  let digest := digestHex self.crates.sha256 chunk
  let _ ← self.storeChunk digest chunk
  return ⟨session.digests ++ [digest], session.sizes ++ [chunk.length],
    session.fileBytes + chunk.length⟩

def peekDigests (fileId : String) : StoreM (Option (List String)) :=
  locked .manifest (field (.manifestTryGet fileId))

/-- `IngestSession::commit`. -/
def commit (session : IngestSession) (fileId : String) : StoreM (List String) := do
  let old ← peekDigests fileId
  locked .manifest (fieldOrThrow (.manifestInsert fileId session.digests session.fileBytes))
  unlocked (saveManifest self.crates fileId session.digests session.fileBytes)
  match old with
  | some old => self.releaseDigests old
  | none => pure ()
  return session.digests

def ingestWithChunker (fileId : String) (data : Bytes) (chunker : Chunker) :
    StoreM (List String) := do
  let fed ← ofExcept (chunker.feed data)
  let session ← fed.1.foldlM self.accept IngestSession.new
  let rest ← ofExcept (fed.2.finish self.crates.fastcdc)
  let session ← rest.1.foldlM self.accept session
  self.commit session fileId

def ingestReaderWithChunker (fileId : String) (reader : Reader) (chunker : Chunker) :
    StoreM (List String) := do
  let session ← forEachChunk self.crates.fastcdc self.accept reader chunker IngestSession.new
  self.commit session fileId

def ingestFixed (fileId : String) (data : Bytes) (chunkSize : ℕ) : StoreM (List String) :=
  if h : chunkSize = 0 then
    throw (.invalidArgument "chunk_size must be greater than 0")
  else
    self.ingestWithChunker fileId data (.fixed (.new chunkSize (Nat.pos_of_ne_zero h)))

def ingest (fileId : String) (data : Bytes) : StoreM (List String) :=
  self.ingestFixed fileId data FixedChunker.defaultChunkSize

def ingestCdc (fileId : String) (data : Bytes) : StoreM (List String) := do
  let chunker ← ofExcept CdcChunker.withDefaults
  self.ingestWithChunker fileId data (.cdc chunker)

def ingestReaderFixed (fileId : String) (reader : Reader) (chunkSize : ℕ) :
    StoreM (List String) :=
  if h : chunkSize = 0 then
    throw (.invalidArgument "chunk_size must be greater than 0")
  else
    self.ingestReaderWithChunker fileId reader (.fixed (.new chunkSize (Nat.pos_of_ne_zero h)))

def ingestReaderCdc (fileId : String) (reader : Reader) : StoreM (List String) := do
  let chunker ← ofExcept CdcChunker.withDefaults
  self.ingestReaderWithChunker fileId reader (.cdc chunker)

/-- Stream a filesystem path into the store; `file` is what opening the path gives. -/
def ingestPath (fileId : String) (file : Except String Reader) : StoreM (List String) := do
  let reader ← ofExcept (file.mapError ChunkStoreError.ioError)
  self.ingestReaderFixed fileId reader FixedChunker.defaultChunkSize

def ingestPathCdc (fileId : String) (file : Except String Reader) : StoreM (List String) := do
  let reader ← ofExcept (file.mapError ChunkStoreError.ioError)
  self.ingestReaderCdc fileId reader

def ingestChunks (fileId : String) (chunks : List Bytes) : StoreM (List String) := do
  let session ← chunks.foldlM self.accept IngestSession.new
  self.commit session fileId

/-! ## Reading -/

def digestsForFile (fileId : String) : StoreM (List String) :=
  locked .manifest (fieldOrThrow (.manifestGet fileId))

/-- Ordered chunk digests for a stored file. -/
def fileDigests (fileId : String) : StoreM (List String) := digestsForFile fileId

def readChunkByDigest (digest : String) : StoreM Bytes := do
  match ← unlocked (backendCall (.get digest)) with
  | none => throw (.notFound s!"chunk {digest}")
  | some stored =>
    let chunk ← ofExcept (self.decodeBlob stored)
    ofExcept (verifyDigest self.crates.sha256 chunk digest)
    return chunk

/-- Fetch and verify a single chunk payload by digest. -/
def readChunk (digest : String) : StoreM Bytes := self.readChunkByDigest digest

/-- The loop of `read_to_writer`. The writer outlives a failure, so it is part of the result. -/
def writeChunks : List String → Writer → Program Block (Except ChunkStoreError Unit × Writer)
  | [], writer => return (.ok (), writer)
  | digest :: digests, writer => do
    match ← (self.readChunkByDigest digest).run with
    | .error e => return (.error e, writer)
    | .ok chunk =>
      match writeAll writer.results chunk writer.out with
      | (.error e, writer) => return (.error e, writer)
      | (.ok (), writer) => writeChunks digests writer

/-- Stream verified chunk payloads to a writer. -/
def readToWriter (fileId : String) (writer : Writer) :
    Program Block (Except ChunkStoreError Unit × Writer) := do
  match ← (digestsForFile fileId).run with
  | .error e => return (.error e, writer)
  | .ok digests => self.writeChunks digests writer

def read (fileId : String) : StoreM Bytes := ExceptT.mk do
  let r ← self.readToWriter fileId .vec
  return r.1.map fun _ ↦ r.2.out

/-! ## Deleting -/

def delete (fileId : String) : StoreM Unit := do
  let digests ← locked .manifest (fieldOrThrow (.manifestRemove fileId))
  unlocked (removeManifest self.crates fileId)
  self.releaseDigests digests

/-! ## Inspection -/

def stats : StoreM Stats := locked .stats (field .statsGet)

/-- Reference count for a chunk digest. -/
def chunkRefcount (digest : String) : StoreM (Option ℕ) :=
  locked .refcount (field (.refcountGet digest))

/-- The digests among `live` without a blob. -/
def missingBlobs : List String → StoreM (List String)
  | [] => return []
  | digest :: live => do
    let present ← unlocked (backendCall (.existsKey digest))
    let missing ← missingBlobs live
    return if present then missing else digest :: missing

/-- The repair loop of `fsck`: unlink every orphan and count them. -/
def unlinkAll : List String → StoreM ℕ
  | [] => return 0
  | key :: keys => do
    unlocked (backendCall (.delete key))
    let repaired ← unlinkAll keys
    return repaired + 1

/-- Scan blob keys against refcounts. When `repair` is true, unlink orphan blobs. -/
def fsck (repair : Bool) : StoreM FsckReport := do
  let refs ← locked .refcount (field .refcountIterRefs)
  let live := refs.map Prod.fst
  let missing ← missingBlobs live
  let orphans ← unlocked (collectOrphans live)
  if repair then
    let repaired ← unlinkAll orphans
    return ⟨missing, orphans, repaired⟩
  else
    return ⟨missing, orphans, 0⟩

/-! ## Inputs -/

/-- The ingest variants with their inputs. -/
inductive IngestInput
  | bytes (data : Bytes)
  | fixed (data : Bytes) (chunkSize : ℕ)
  | cdc (data : Bytes)
  | readerFixed (reader : Reader) (chunkSize : ℕ)
  | readerCdc (reader : Reader)
  | path (file : Except String Reader)
  | pathCdc (file : Except String Reader)
  | chunks (cs : List Bytes)

def ingestInput (fileId : String) : IngestInput → StoreM (List String)
  | .bytes data => self.ingest fileId data
  | .fixed data chunkSize => self.ingestFixed fileId data chunkSize
  | .cdc data => self.ingestCdc fileId data
  | .readerFixed reader chunkSize => self.ingestReaderFixed fileId reader chunkSize
  | .readerCdc reader => self.ingestReaderCdc fileId reader
  | .path file => self.ingestPath fileId file
  | .pathCdc file => self.ingestPathCdc fileId file
  | .chunks cs => self.ingestChunks fileId cs

def bufferStream (fastcdc : FastCdc) (chunker : Chunker) (data : Bytes) : Stream :=
  match chunker.feed data with
  | .error e => .fail e
  | .ok fed => (fed.2.finishStream fastcdc).cons fed.1

/-- The chunks of an input, and the error that ends it early. -/
def IngestInput.stream (crates : Crates) : IngestInput → Stream
  | .bytes data => bufferStream crates.fastcdc
      (.fixed (.new FixedChunker.defaultChunkSize FixedChunker.defaultChunkSize_pos)) data
  | .fixed data chunkSize =>
    if h : chunkSize = 0 then .fail (.invalidArgument "chunk_size must be greater than 0")
    else bufferStream crates.fastcdc (.fixed (.new chunkSize (Nat.pos_of_ne_zero h))) data
  | .cdc data => bufferStream crates.fastcdc (.cdc ⟨{}, []⟩) data
  | .readerFixed reader chunkSize =>
    if h : chunkSize = 0 then .fail (.invalidArgument "chunk_size must be greater than 0")
    else Chunker.stream crates.fastcdc reader (.fixed (.new chunkSize (Nat.pos_of_ne_zero h)))
  | .readerCdc reader => Chunker.stream crates.fastcdc reader (.cdc ⟨{}, []⟩)
  | .path file =>
    match file with
    | .error e => .fail (.ioError e)
    | .ok reader => Chunker.stream crates.fastcdc reader
        (.fixed (.new FixedChunker.defaultChunkSize FixedChunker.defaultChunkSize_pos))
  | .pathCdc file =>
    match file with
    | .error e => .fail (.ioError e)
    | .ok reader => Chunker.stream crates.fastcdc reader (.cdc ⟨{}, []⟩)
  | .chunks cs => ⟨cs, none⟩

/-- The session over a stream, as every ingest variant runs it. -/
def ingestStream (fileId : String) (stream : Stream) : StoreM (List String) := do
  let session ← stream.consume self.accept IngestSession.new
  self.commit session fileId

theorem ingestStream_fail (fileId : String) (e : ChunkStoreError) :
    self.ingestStream fileId (.fail e) = throw e := by
  rw [ingestStream, Stream.consume_fail]
  rfl

theorem ingestWithChunker_eq (fileId : String) (data : Bytes) (chunker : Chunker) :
    self.ingestWithChunker fileId data chunker
      = self.ingestStream fileId (bufferStream self.crates.fastcdc chunker data) := by
  rw [ingestWithChunker, bufferStream]
  cases chunker.feed data with
  | error e => exact (self.ingestStream_fail fileId e).symm
  | ok fed =>
    rw [ofExcept_ok, pure_bind, ingestStream, Stream.consume_cons, bind_assoc]
    refine congrArg _ (funext fun session ↦ ?_)
    rw [Chunker.finishStream]
    cases fed.2.finish self.crates.fastcdc with
    | error e =>
      dsimp only
      rw [Stream.consume_fail]
      rfl
    | ok rest =>
      dsimp only
      rw [Stream.consume_ok]
      rfl

theorem ingestReaderWithChunker_eq (fileId : String) (reader : Reader) (chunker : Chunker) :
    self.ingestReaderWithChunker fileId reader chunker
      = self.ingestStream fileId (chunker.stream self.crates.fastcdc reader) := by
  rw [ingestReaderWithChunker, Chunker.forEachChunk_eq, ingestStream]

private theorem ingestFixed_eq (fileId : String) (data : Bytes) (chunkSize : ℕ) :
    self.ingestFixed fileId data chunkSize
      = self.ingestStream fileId ((IngestInput.fixed data chunkSize).stream self.crates) := by
  rw [ingestFixed, IngestInput.stream]
  split
  · exact (self.ingestStream_fail fileId _).symm
  · exact self.ingestWithChunker_eq fileId data _

private theorem ingestReaderFixed_eq (fileId : String) (reader : Reader) (chunkSize : ℕ) :
    self.ingestReaderFixed fileId reader chunkSize
      = self.ingestStream fileId
          ((IngestInput.readerFixed reader chunkSize).stream self.crates) := by
  rw [ingestReaderFixed, IngestInput.stream]
  split
  · exact (self.ingestStream_fail fileId _).symm
  · exact self.ingestReaderWithChunker_eq fileId reader _

private theorem ingestReaderCdc_eq (fileId : String) (reader : Reader) :
    self.ingestReaderCdc fileId reader
      = self.ingestStream fileId ((IngestInput.readerCdc reader).stream self.crates) :=
  self.ingestReaderWithChunker_eq fileId reader _

/-- **Every ingest variant is one session over the stream of its input.** -/
theorem ingestInput_eq (fileId : String) (input : IngestInput) :
    self.ingestInput fileId input = self.ingestStream fileId (input.stream self.crates) := by
  cases input with
  | bytes data => exact self.ingestFixed_eq fileId data FixedChunker.defaultChunkSize
  | fixed data chunkSize => exact self.ingestFixed_eq fileId data chunkSize
  | cdc data => exact self.ingestWithChunker_eq fileId data _
  | readerFixed reader chunkSize => exact self.ingestReaderFixed_eq fileId reader chunkSize
  | readerCdc reader => exact self.ingestReaderCdc_eq fileId reader
  | path file =>
    cases file with
    | error e => exact (self.ingestStream_fail fileId _).symm
    | ok reader => exact self.ingestReaderFixed_eq fileId reader FixedChunker.defaultChunkSize
  | pathCdc file =>
    cases file with
    | error e => exact (self.ingestStream_fail fileId _).symm
    | ok reader => exact self.ingestReaderCdc_eq fileId reader
  | chunks cs =>
    rw [ingestInput, ingestChunks, ingestStream, IngestInput.stream, Stream.consume_ok]

/-! ## Operations -/

/-- The operations of an open store. -/
inductive Op
  | ingest (fileId : String) (input : IngestInput)
  | delete (fileId : String)
  | read (fileId : String)
  | readChunk (digest : String)
  | fsck (repair : Bool)
  | stats
  | chunkRefcount (digest : String)
  | reopen

/-- What an operation returns. -/
inductive Reply
  | digests (digests : List String)
  | bytes (bytes : Bytes)
  | report (report : FsckReport)
  | stats (stats : Stats)
  | count (count : Option ℕ)
  | done
  deriving DecidableEq, Repr

/-- Open the backend again, with the codec of this instance. -/
def reopen : StoreM Unit := do
  match self.codec with
  | none => let _ ← openStore self.crates
  | some codec => let _ ← openWithCodec self.crates codec

def perform : Op → StoreM Reply
  | .ingest fileId input => .digests <$> self.ingestInput fileId input
  | .delete fileId => (fun _ ↦ .done) <$> self.delete fileId
  | .read fileId => .bytes <$> self.read fileId
  | .readChunk digest => .bytes <$> self.readChunk digest
  | .fsck repair => .report <$> ChunkStore.fsck repair
  | .stats => .stats <$> stats
  | .chunkRefcount digest => .count <$> chunkRefcount digest
  | .reopen => (fun _ ↦ .done) <$> self.reopen

end ChunkStore

end Chunkstore

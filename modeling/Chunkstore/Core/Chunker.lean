import Chunkstore.Core.Hasher

/-!
# Chunkers

The fixed-size and the content-defined chunker, and the loop that feeds one from a reader
(`chunker/mod.rs`, `chunker/fixed.rs`, `chunker/cdc.rs`).

## Streams

A chunker is stateful and the loop interleaves it with whatever consumes the chunks, but what it
emits depends on the input alone. `Chunker.stream` is that emission: the chunks in order, and the
error that ends the input early if there is one. `forEachChunk_eq` says that the loop is the fold of
the consumer over the stream, which is what lets everything downstream forget how the input arrived.
-/

universe u

namespace Chunkstore

/-! ## Fixed-size chunks -/

/-- Fixed-size chunker. The constructor asserts a positive size, so it is a field. -/
structure FixedChunker where
  chunkSize : ℕ
  chunkSize_pos : 0 < chunkSize
  buffer : Bytes

namespace FixedChunker

def new (chunkSize : ℕ) (h : 0 < chunkSize) : FixedChunker := ⟨chunkSize, h, []⟩

/-- Default chunk size, 4 MiB. -/
def defaultChunkSize : ℕ := 4 * 1024 * 1024

theorem defaultChunkSize_pos : 0 < defaultChunkSize := by decide

/-- The loop of `feed`: whole chunks are drained off the front of the buffer. The buffer's length
is enough fuel, see `length_drain_lt`. -/
def drain (chunkSize : ℕ) : ℕ → Bytes → List Bytes × Bytes
  | 0, buffer => ([], buffer)
  | fuel + 1, buffer =>
    if chunkSize ≤ buffer.length then
      let r := drain chunkSize fuel (buffer.drop chunkSize)
      (buffer.take chunkSize :: r.1, r.2)
    else ([], buffer)

/-- Feed the next block of input. Returns completed chunks. -/
def feed (c : FixedChunker) (data : Bytes) : List Bytes × FixedChunker :=
  let buffer := c.buffer ++ data
  let r := drain c.chunkSize buffer.length buffer
  (r.1, { c with buffer := r.2 })

/-- Flush the remaining buffer as a final chunk, if any. -/
def finish (c : FixedChunker) : List Bytes × FixedChunker :=
  if c.buffer.isEmpty then ([], c) else ([c.buffer], { c with buffer := [] })

private theorem flatten_drain (n fuel : ℕ) (buffer : Bytes) :
    (drain n fuel buffer).1.flatten ++ (drain n fuel buffer).2 = buffer := by
  induction fuel generalizing buffer with
  | zero => rfl
  | succ fuel ih =>
    rw [drain]
    split
    · simp only [List.flatten_cons, List.append_assoc]
      rw [ih, List.take_append_drop]
    · rfl

/-- With the buffer's length as fuel the loop ends because less than a chunk is left. -/
theorem length_drain_lt {n : ℕ} (hn : 0 < n) {fuel : ℕ} {buffer : Bytes}
    (h : buffer.length ≤ fuel) : (drain n fuel buffer).2.length < n := by
  induction fuel generalizing buffer with
  | zero =>
    rw [List.length_eq_zero_iff.mp (Nat.le_zero.mp h)]
    exact hn
  | succ fuel ih =>
    rw [drain]
    split
    · exact ih (by rw [List.length_drop]; omega)
    · exact Nat.lt_of_not_le (by assumption)

theorem flatten_feed (c : FixedChunker) (data : Bytes) :
    (c.feed data).1.flatten ++ (c.feed data).2.buffer = c.buffer ++ data :=
  flatten_drain _ _ _

theorem flatten_finish (c : FixedChunker) : c.finish.1.flatten = c.buffer := by
  rw [finish]
  by_cases hb : c.buffer.isEmpty
  · rw [if_pos hb, List.isEmpty_iff.mp hb]
    rfl
  · rw [if_neg hb]
    exact List.append_nil _

example : ((FixedChunker.new 3 (by decide)).feed [1, 2, 3, 4, 5, 6, 7]).1
    = [[1, 2, 3], [4, 5, 6]] :=
  by decide

end FixedChunker

/-! ## Content-defined chunks -/

/-- CDC chunker parameters (FastCDC v2020). -/
structure CdcConfig where
  minSize : ℕ := 256 * 1024
  avgSize : ℕ := 4 * 1024 * 1024
  maxSize : ℕ := 8 * 1024 * 1024
  windowSize : ℕ := 64

/-- The `fastcdc` crate: the offset and length of every chunk of a buffer, for the given minimum,
average and maximum size. The chunks tile the buffer in order. -/
structure FastCdc where
  cut : (minSize avgSize maxSize : ℕ) → Bytes → List (ℕ × ℕ)
  tiles : ∀ minSize avgSize maxSize data,
    ((cut minSize avgSize maxSize data).map fun e ↦ (data.drop e.1).take e.2).flatten = data

def chunkBytes (fastcdc : FastCdc) (data : Bytes) (config : CdcConfig) :
    Except ChunkStoreError (List Bytes) :=
  if config.minSize = 0 ∨ config.avgSize < config.minSize then
    .error (.invalidArgument "invalid CDC size parameters")
  else if config.maxSize < config.avgSize then
    .error (.invalidArgument "max_size must be >= avg_size")
  else
    .ok ((fastcdc.cut config.minSize config.avgSize config.maxSize data).map fun e ↦
      (data.drop e.1).take e.2)

/-- Content-defined chunker: it buffers everything and cuts at the end. -/
structure CdcChunker where
  config : CdcConfig
  buffer : Bytes

namespace CdcChunker

def new (config : CdcConfig) : Except ChunkStoreError CdcChunker :=
  if config.windowSize = 0 then .error (.invalidArgument "window_size must be > 0")
  else .ok ⟨config, []⟩

def withDefaults : Except ChunkStoreError CdcChunker := new {}

def feed (c : CdcChunker) (data : Bytes) : List Bytes × CdcChunker :=
  ([], { c with buffer := c.buffer ++ data })

def finish (fastcdc : FastCdc) (c : CdcChunker) :
    Except ChunkStoreError (List Bytes × CdcChunker) :=
  if c.buffer.isEmpty then .ok ([], c)
  else do
    let chunks ← chunkBytes fastcdc c.buffer c.config
    return (chunks, { c with buffer := [] })

theorem withDefaults_eq : withDefaults = .ok ⟨{}, []⟩ := rfl

private theorem flatten_chunkBytes {fastcdc : FastCdc} {data : Bytes} {config : CdcConfig}
    {chunks : List Bytes} (h : chunkBytes fastcdc data config = .ok chunks) :
    chunks.flatten = data := by
  rw [chunkBytes] at h
  split at h
  · cases h
  · split at h
    · cases h
    · cases h
      exact fastcdc.tiles _ _ _ data

theorem flatten_finish {fastcdc : FastCdc} {c : CdcChunker} {r : List Bytes × CdcChunker}
    (h : c.finish fastcdc = .ok r) : r.1.flatten = c.buffer := by
  rw [finish] at h
  by_cases hb : c.buffer.isEmpty
  · rw [if_pos hb] at h
    cases h
    rw [List.isEmpty_iff.mp hb]
    rfl
  · rw [if_neg hb] at h
    cases hc : chunkBytes fastcdc c.buffer c.config with
    | error e =>
      rw [hc] at h
      cases h
    | ok chunks =>
      rw [hc] at h
      cases h
      exact flatten_chunkBytes hc

end CdcChunker

/-! ## The streaming interface -/

/-- A chunker in use, the `dyn Chunker` of the source. -/
inductive Chunker
  | fixed (c : FixedChunker)
  | cdc (c : CdcChunker)

namespace Chunker

/-- The bytes taken in but not yet emitted. -/
def buffer : Chunker → Bytes
  | .fixed c => c.buffer
  | .cdc c => c.buffer

/-- Feed the next block of input. Returns completed chunks. -/
def feed : Chunker → Bytes → Except ChunkStoreError (List Bytes × Chunker)
  | .fixed c, data => .ok ((c.feed data).1, .fixed (c.feed data).2)
  | .cdc c, data => .ok ((c.feed data).1, .cdc (c.feed data).2)

def finish (fastcdc : FastCdc) : Chunker → Except ChunkStoreError (List Bytes × Chunker)
  | .fixed c => .ok (c.finish.1, .fixed c.finish.2)
  | .cdc c => do
    let r ← c.finish fastcdc
    return (r.1, .cdc r.2)

end Chunker

/-- What one `read` into the 64 KiB buffer can deliver: at most a buffer of bytes, or an error. -/
abbrev ReadResult := Except String { block : Bytes // block.length ≤ 64 * 1024 }

/-- A reader, as the results of its successive reads. After the last one it reports end of input. -/
abbrev Reader := List ReadResult

/-- The bytes a reader delivers, up to its first error or its first read of zero bytes. -/
def Reader.contents : Reader → Bytes
  | [] => []
  | .error _ :: _ => []
  | .ok block :: reader => if block.1.length = 0 then [] else block.1 ++ Reader.contents reader

/-- The reader that delivers one block after the other. -/
def Reader.ofBlocks (blocks : List { block : Bytes // block.length ≤ 64 * 1024 }) : Reader :=
  blocks.map .ok

section Loop

variable {m : Type → Type u} [Monad m] {σ : Type}

/-- The part of `for_each_chunk` after the last read. -/
def finishChunks (fastcdc : FastCdc) (onChunk : σ → Bytes → ExceptT ChunkStoreError m σ)
    (chunker : Chunker) (st : σ) : ExceptT ChunkStoreError m σ :=
  match chunker.finish fastcdc with
  | .error e => throw e
  | .ok r => r.1.foldlM onChunk st

/-- Stream chunks from a reader into `onChunk`, which threads a state. A read of zero bytes ends
the input. -/
def forEachChunk (fastcdc : FastCdc) (onChunk : σ → Bytes → ExceptT ChunkStoreError m σ) :
    Reader → Chunker → σ → ExceptT ChunkStoreError m σ
  | [], chunker, st => finishChunks fastcdc onChunk chunker st
  | .error e :: _, _, _ => throw (.ioError e)
  | .ok block :: reader, chunker, st =>
    if block.1.length = 0 then finishChunks fastcdc onChunk chunker st
    else match chunker.feed block.1 with
      | .error e => throw e
      | .ok r => do
        let st ← r.1.foldlM onChunk st
        forEachChunk fastcdc onChunk reader r.2 st

end Loop

/-! ## Streams -/

/-- What an input amounts to: the chunks it emits, and the error that cuts it short. -/
structure Stream where
  chunks : List Bytes
  error : Option ChunkStoreError

namespace Stream

/-- The stream of a failure before any chunk. -/
def fail (e : ChunkStoreError) : Stream := ⟨[], some e⟩

def cons (chunks : List Bytes) (s : Stream) : Stream := ⟨chunks ++ s.chunks, s.error⟩

variable {m : Type → Type u} [Monad m] {σ : Type}

/-- Consuming a stream: fold the consumer over its chunks, then fail if it ends in an error. -/
def consume (s : Stream) (onChunk : σ → Bytes → ExceptT ChunkStoreError m σ) (st : σ) :
    ExceptT ChunkStoreError m σ := do
  let st ← s.chunks.foldlM onChunk st
  match s.error with
  | none => pure st
  | some e => throw e

variable [LawfulMonad m]

theorem consume_fail (e : ChunkStoreError) (onChunk : σ → Bytes → ExceptT ChunkStoreError m σ)
    (st : σ) : (fail e).consume onChunk st = throw e := pure_bind _ _

theorem consume_cons (chunks : List Bytes) (s : Stream)
    (onChunk : σ → Bytes → ExceptT ChunkStoreError m σ) (st : σ) :
    (s.cons chunks).consume onChunk st
      = (chunks.foldlM onChunk st >>= fun st ↦ s.consume onChunk st) := by
  rw [consume, cons, List.foldlM_append, bind_assoc]
  rfl

theorem consume_ok (chunks : List Bytes) (onChunk : σ → Bytes → ExceptT ChunkStoreError m σ)
    (st : σ) : (Stream.mk chunks none).consume onChunk st = chunks.foldlM onChunk st :=
  bind_pure _

end Stream

namespace Chunker

/-- What is emitted once the input has ended. -/
def finishStream (fastcdc : FastCdc) (chunker : Chunker) : Stream :=
  match chunker.finish fastcdc with
  | .error e => .fail e
  | .ok r => ⟨r.1, none⟩

/-- What a chunker emits over a reader. -/
def stream (fastcdc : FastCdc) : Reader → Chunker → Stream
  | [], chunker => chunker.finishStream fastcdc
  | .error e :: _, _ => .fail (.ioError e)
  | .ok block :: reader, chunker =>
    if block.1.length = 0 then chunker.finishStream fastcdc
    else match chunker.feed block.1 with
      | .error e => .fail e
      | .ok r => (stream fastcdc reader r.2).cons r.1

variable {m : Type → Type u} [Monad m] [LawfulMonad m] {σ : Type} {fastcdc : FastCdc}

private theorem finishChunks_eq (onChunk : σ → Bytes → ExceptT ChunkStoreError m σ)
    (chunker : Chunker)
    (st : σ) :
    finishChunks fastcdc onChunk chunker st
      = (chunker.finishStream fastcdc).consume onChunk st := by
  rw [finishChunks, finishStream]
  cases chunker.finish fastcdc with
  | error e => exact (Stream.consume_fail e onChunk st).symm
  | ok r => exact (Stream.consume_ok r.1 onChunk st).symm

/-- **The loop is a fold over the stream**, whatever the consumer does between two reads. -/
theorem forEachChunk_eq (onChunk : σ → Bytes → ExceptT ChunkStoreError m σ) (reader : Reader)
    (chunker : Chunker) (st : σ) :
    forEachChunk fastcdc onChunk reader chunker st
      = (stream fastcdc reader chunker).consume onChunk st := by
  induction reader generalizing chunker st with
  | nil => exact finishChunks_eq onChunk chunker st
  | cons r reader ih =>
    cases r with
    | error e => exact (Stream.consume_fail _ onChunk st).symm
    | ok block =>
      rw [forEachChunk, stream]
      split
      · exact finishChunks_eq onChunk chunker st
      · cases chunker.feed block.1 with
        | error e => exact (Stream.consume_fail _ onChunk st).symm
        | ok r =>
          simp only [Stream.consume_cons]
          exact congrArg _ (funext fun st ↦ ih r.2 st)

/-! ### What is emitted -/

theorem flatten_feed {chunker : Chunker} {data : Bytes} {r : List Bytes × Chunker}
    (h : chunker.feed data = .ok r) : r.1.flatten ++ r.2.buffer = chunker.buffer ++ data := by
  cases chunker with
  | fixed c =>
    cases h
    exact c.flatten_feed data
  | cdc c =>
    cases h
    rfl

/-- A chunker that ends without an error has emitted everything it held. -/
theorem flatten_finishStream {chunker : Chunker}
    (h : (chunker.finishStream fastcdc).error = none) :
    (chunker.finishStream fastcdc).chunks.flatten = chunker.buffer := by
  cases chunker with
  | fixed c => exact c.flatten_finish
  | cdc c =>
    rw [finishStream, finish] at h ⊢
    cases hc : c.finish fastcdc with
    | error e =>
      rw [hc] at h
      cases h
    | ok r => exact CdcChunker.flatten_finish hc

/-- **Chunking is lossless.** A stream without an error is what was buffered and what was read. -/
theorem flatten_stream {reader : Reader} {chunker : Chunker}
    (h : (chunker.stream fastcdc reader).error = none) :
    (chunker.stream fastcdc reader).chunks.flatten = chunker.buffer ++ reader.contents := by
  induction reader generalizing chunker with
  | nil =>
    rw [stream] at h ⊢
    rw [flatten_finishStream h, Reader.contents, List.append_nil]
  | cons r reader ih =>
    cases r with
    | error e => cases h
    | ok block =>
      rw [stream] at h ⊢
      rw [Reader.contents]
      split at h
      · rename_i h0
        rw [if_pos h0, if_pos h0, flatten_finishStream h, List.append_nil]
      · rename_i h0
        rw [if_neg h0, if_neg h0]
        cases hf : chunker.feed block.1 with
        | error e =>
          rw [hf] at h
          cases h
        | ok r =>
          rw [hf] at h
          dsimp only at h ⊢
          rw [Stream.cons, List.flatten_append, ih h, ← List.append_assoc, flatten_feed hf,
            List.append_assoc]

end Chunker

end Chunkstore

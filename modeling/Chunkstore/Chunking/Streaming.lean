import Chunkstore.Chunking.Fixed
import Chunkstore.Exact.Runs

/-!
# Streaming and in-memory ingest

The streaming variants store chunks while later input is still unread, the in-memory ones feed the
chunker once. What is stored depends on the chunks alone, so the two are the same program as soon as
the reader delivers the data, in whatever portions.

## Main results

* `Reader.Delivers.stream_fixed`, `Reader.Delivers.stream_cdc`: the chunks over a reader are those
  of what it delivers.
* `ChunkStore.streaming_ingest`: the streaming and the in-memory variant are the same operation.
-/

open Effects

namespace Chunkstore

/-! ## Readers that deliver -/

/-- The reader delivers `data` in non-empty portions, then reports the end of the input. What it
would answer after that does not matter. -/
inductive Reader.Delivers : Reader → Bytes → Prop
  | exhausted : Delivers [] []
  | ended {block : { block : Bytes // block.length ≤ 64 * 1024 }} {reader : Reader}
      (h : block.1 = []) : Delivers (.ok block :: reader) []
  | read {block : { block : Bytes // block.length ≤ 64 * 1024 }} {reader : Reader} {data : Bytes}
      (h : block.1 ≠ []) (hd : Delivers reader data) :
      Delivers (.ok block :: reader) (block.1 ++ data)

namespace Reader.Delivers

variable {fastcdc : FastCdc} {reader : Reader} {data : Bytes}

theorem stream_fixed (h : Delivers reader data) {c : FixedChunker}
    (hc : c.buffer.length < c.chunkSize) :
    Chunker.stream fastcdc reader (.fixed c)
      = ⟨List.windows c.chunkSize (c.buffer ++ data), none⟩ := by
  induction h generalizing c with
  | exhausted =>
    rw [Chunker.stream, Chunker.finishStream, Chunker.finish, List.append_nil,
      c.finish_eq_windows hc]
  | ended h =>
    rw [Chunker.stream, if_pos (by rw [h]; rfl), Chunker.finishStream, Chunker.finish,
      List.append_nil, c.finish_eq_windows hc]
  | @read block reader data h _ ih =>
    have hloop := c.feedLoop_feed block.1
    rw [Chunker.stream, if_neg (mt List.length_eq_zero_iff.mp h), Chunker.feed]
    dsimp only
    rw [ih hloop.lt, Stream.cons, ← List.append_assoc, hloop.windows c.chunkSize_pos]
    rfl

theorem stream_cdc (h : Delivers reader data) (c : CdcChunker) :
    Chunker.stream fastcdc reader (.cdc c)
      = Chunker.finishStream fastcdc (.cdc { c with buffer := c.buffer ++ data }) := by
  induction h generalizing c with
  | exhausted => rw [Chunker.stream, List.append_nil]
  | ended h => rw [Chunker.stream, if_pos (by rw [h]; rfl), List.append_nil]
  | @read block reader data h _ ih =>
    rw [Chunker.stream, if_neg (mt List.length_eq_zero_iff.mp h), Chunker.feed]
    dsimp only
    rw [ih, CdcChunker.feed, ← List.append_assoc]
    rfl

end Reader.Delivers

/-- Chunk all bytes from a reader using the given chunker. -/
def chunkReader (fastcdc : FastCdc) (reader : Reader) (chunker : Chunker) :
    ExceptT ChunkStoreError Id (List Bytes) :=
  forEachChunk fastcdc (fun chunks chunk ↦ pure (chunks ++ [chunk])) reader chunker []

/-- Collecting the chunks of a reader gives the canonical split of what it delivers. -/
theorem chunkReader_fixed {fastcdc : FastCdc} {reader : Reader} {data : Bytes}
    (h : reader.Delivers data) (n : ℕ) (hn : 0 < n) :
    chunkReader fastcdc reader (.fixed (.new n hn)) = pure (List.windows n data) := by
  have hcollect : ∀ chunks out : List Bytes, chunks.foldlM
      (fun chunks chunk ↦ (pure (chunks ++ [chunk]) : ExceptT ChunkStoreError Id (List Bytes))) out
        = pure (out ++ chunks) := fun chunks ↦ by
    induction chunks with
    | nil => exact fun out ↦ congrArg pure (List.append_nil out).symm
    | cons chunk chunks ih =>
      intro out
      rw [List.foldlM_cons, pure_bind, ih, List.append_assoc, List.singleton_append]
  have hstream : Chunker.stream fastcdc reader (.fixed (.new n hn))
      = ⟨List.windows n data, none⟩ := h.stream_fixed hn
  rw [chunkReader, Chunker.forEachChunk_eq, hstream, Stream.consume_ok, hcollect]
  rfl

namespace ChunkStore

variable {crates : Crates} {reader : Reader} {data : Bytes}

theorem bufferStream_fixed (fastcdc : FastCdc) (n : ℕ) (hn : 0 < n) (data : Bytes) :
    bufferStream fastcdc (.fixed (.new n hn)) data = ⟨List.windows n data, none⟩ := by
  have hout := FixedChunker.outputs_new n hn [data]
  rw [List.flatten_singleton] at hout
  rw [bufferStream, Chunker.feed, ← hout, FixedChunker.outputs, FixedChunker.feedAll,
    FixedChunker.feedAll, List.append_nil]
  rfl

theorem stream_readerFixed (h : reader.Delivers data) (n : ℕ) :
    (IngestInput.readerFixed reader n).stream crates
      = (IngestInput.fixed data n).stream crates := by
  rw [IngestInput.stream, IngestInput.stream]
  split
  · rfl
  · rename_i hn
    rw [bufferStream_fixed]
    exact h.stream_fixed (c := .new n (Nat.pos_of_ne_zero hn)) (Nat.pos_of_ne_zero hn)

private theorem stream_readerCdc (h : reader.Delivers data) :
    (IngestInput.readerCdc reader).stream crates = (IngestInput.cdc data).stream crates := by
  rw [IngestInput.stream, IngestInput.stream, h.stream_cdc]
  rfl

theorem perform_ingest_congr (store : ChunkStore) (fileId : String) {input input' : IngestInput}
    (h : input.stream store.crates = input'.stream store.crates) :
    store.perform (.ingest fileId input) = store.perform (.ingest fileId input') := by
  rw [perform, perform, ingestInput_eq, ingestInput_eq, h]

/-- **Streaming and in-memory ingest are the same operation.** For a reader that delivers `data`,
the streaming variants are the same programs as the in-memory ones on `data`, whatever runs beside
them and whatever the backend answers. So they return the same and leave the same manifest, counts,
statistics and backend from every state. -/
theorem streaming_ingest (store : ChunkStore) (fileId : String) (n : ℕ) (reader : Reader)
    (data : Bytes) (h : reader.Delivers data) :
    (store.perform (.ingest fileId (.readerFixed reader n))
        = store.perform (.ingest fileId (.fixed data n)) ∧
      store.perform (.ingest fileId (.readerCdc reader))
        = store.perform (.ingest fileId (.cdc data))) ∧
      ∀ s, store.exec (.ingest fileId (.readerFixed reader n)) s
          = store.exec (.ingest fileId (.fixed data n)) s ∧
        store.exec (.ingest fileId (.readerCdc reader)) s
          = store.exec (.ingest fileId (.cdc data)) s := by
  have hfixed := store.perform_ingest_congr fileId (stream_readerFixed h n)
  have hcdc := store.perform_ingest_congr fileId (stream_readerCdc h)
  refine ⟨⟨hfixed, hcdc⟩, fun s ↦ ⟨?_, ?_⟩⟩
  · rw [exec, exec, hfixed]
  · rw [exec, exec, hcdc]

/-- Three bytes in two portions, ingested two by two. -/
theorem streaming_ingest_three :
    smallStore.exec (.ingest "f" (.readerFixed
        (.ofBlocks [⟨[1], by decide⟩, ⟨[2, 3], by decide⟩]) 2)) (.empty true)
      = smallStore.exec (.ingest "f" (.fixed [1, 2, 3] 2)) (.empty true) :=
  ((streaming_ingest smallStore "f" 2 (.ofBlocks [⟨[1], by decide⟩, ⟨[2, 3], by decide⟩]) [1, 2, 3]
    (.read (by decide) (.read (by decide) .exhausted))).2 (.empty true)).1

end ChunkStore

end Chunkstore

import Chunkstore.Bindings.Stored

/-!
# The Go reader

`Store.IngestReader` lets the core read from an `io.Reader` through three layers: the callback that
Go exports (`read_callback.go`), `FfiReadSource`, which calls it (`store_ffi.rs`), and the loop of
the chunker, which ends at the first read of no bytes. In Go a read of no bytes without an error is
not the end of the input.

## Main result

* `GoReader.keeps_iff`: exactly the bytes up to `io.EOF` are stored, or the ingest fails, if and
  only if the reader never returns `(0, nil)` before other bytes or an error.
-/

namespace Chunkstore

open ChunkStore (IngestInput)

/-- What ends the input of an `io.Reader`: `io.EOF` or another error. -/
inductive GoError
  | eof
  | other (text : String)
  deriving DecidableEq

/-- Bytes that one read puts into the buffer of the core. -/
abbrev Portion := { bytes : Bytes // bytes.length ≤ 64 * 1024 }

/-- A result `(n, err)` of `Read`, with the bytes it put into the buffer. -/
structure GoResult where
  portion : Portion
  err : Option GoError

/-- `chunkstore_go_read_cb`: the bytes it hands over, or `CHUNKSTORE_ERR`. -/
def goReadCb (r : GoResult) : Option Bytes :=
  match r.err with
  | some (.other _) => none
  | _ => some r.portion.1

/-- `FfiReadSource.read`, from what its callback gives for a buffer of 64 KiB. -/
def FfiReadSource.read : Option Bytes → ReadResult
  | none => .error "chunkstore read callback failed"
  | some data =>
    if h : data.length ≤ 64 * 1024 then .ok ⟨data, h⟩
    else .error "chunkstore read callback overflow"

/-- `chunkstore_ingest_reader`: a chunk size of zero stands for the default. -/
def ffiIngestReader (reader : Reader) (chunkSize : ℕ) (useCdc : Bool) : IngestInput :=
  if useCdc then .readerCdc reader
  else .readerFixed reader (if chunkSize = 0 then FixedChunker.defaultChunkSize else chunkSize)

/-- An `io.Reader` as a finite sequence of results: reads without an error, and a last one with
`io.EOF` or another error. After `io.EOF` it only returns `(0, io.EOF)`. -/
structure GoReader where
  reads : List Portion
  last : Portion
  err : GoError

namespace GoReader

def results (r : GoReader) : List GoResult := r.reads.map (⟨·, none⟩) ++ [⟨r.last, some r.err⟩]

/-- What the core reads. -/
def source (r : GoReader) : Reader :=
  r.results.map fun result ↦ FfiReadSource.read (goReadCb result)

/-- All bytes up to `io.EOF`. -/
def delivered (r : GoReader) : Bytes := (r.reads.map (·.1)).flatten ++ r.last.1

/-- The ingest fails or stores all bytes up to `io.EOF`; without `io.EOF` it fails. -/
def Keeps (r : GoReader) : Prop :=
  ∀ chunkSize useCdc, match r.err with
    | .eof => (ffiIngestReader r.source chunkSize useCdc).Stores r.delivered
    | .other _ => (ffiIngestReader r.source chunkSize useCdc).Refused

/-- The reads from the first `(0, nil)` on. -/
def fromEmpty (reads : List Portion) : List Portion := reads.dropWhile fun b ↦ !b.1.isEmpty

/-! ## What the core sees -/

/-- The reads before the first `(0, nil)`. -/
def beforeEmpty (reads : List Portion) : List Portion := reads.takeWhile fun b ↦ !b.1.isEmpty

theorem split_cons {b : Portion} (hb : b.1 ≠ []) (reads : List Portion) :
    beforeEmpty (b :: reads) = b :: beforeEmpty reads ∧
      fromEmpty (b :: reads) = fromEmpty reads :=
  ⟨List.takeWhile_cons_of_pos (by simpa using hb), List.dropWhile_cons_of_pos (by simpa using hb)⟩

/-- The last result, as the core sees it. -/
def lastRead (r : GoReader) : ReadResult :=
  match r.err with
  | .eof => .ok r.last
  | .other _ => .error "chunkstore read callback failed"

theorem source_eq (r : GoReader) : r.source = r.reads.map .ok ++ [r.lastRead] := by
  have hread (b : Portion) : FfiReadSource.read (some b.1) = .ok b := dif_pos b.2
  rw [source, results, List.map_append, List.map_map, List.map_singleton]
  congr 1
  · exact List.map_congr_left fun b _ ↦ hread b
  · rw [lastRead, goReadCb]
    cases r.err with
    | eof => exact congrArg (· :: []) (hread r.last)
    | other e => rfl

private theorem reads_append {reads : List Portion} (h : fromEmpty reads = []) (tail : Reader) :
    Reader.failure (reads.map .ok ++ tail) = tail.failure ∧
      Reader.contents (reads.map .ok ++ tail) = (reads.map (·.1)).flatten ++ tail.contents := by
  induction reads with
  | nil => exact ⟨rfl, rfl⟩
  | cons b reads ih =>
    have hb : b.1 ≠ [] := by
      intro hb
      rw [fromEmpty, List.dropWhile_cons, hb] at h
      cases h
    rw [(split_cons hb reads).2] at h
    obtain ⟨hfail, hcontents⟩ := ih h
    have hlen : b.1.length ≠ 0 := mt List.length_eq_zero_iff.mp hb
    rw [List.map_cons, List.cons_append, Reader.failure, Reader.contents, if_neg hlen, if_neg hlen,
      hfail, hcontents, List.map_cons, List.flatten_cons, List.append_assoc]
    exact ⟨rfl, rfl⟩

/-- At the first read of no bytes the core takes the input to be at its end. -/
theorem reads_cut {reads : List Portion} (h : fromEmpty reads ≠ []) (tail : Reader) :
    Reader.failure (reads.map .ok ++ tail) = none ∧
      Reader.contents (reads.map .ok ++ tail) = ((beforeEmpty reads).map (·.1)).flatten := by
  induction reads with
  | nil => exact absurd rfl h
  | cons b reads ih =>
    rw [List.map_cons, List.cons_append, Reader.failure, Reader.contents]
    by_cases hb : b.1 = []
    · rw [if_pos (List.length_eq_zero_iff.mpr hb), if_pos (List.length_eq_zero_iff.mpr hb),
        beforeEmpty, List.takeWhile_cons, hb]
      exact ⟨rfl, rfl⟩
    · rw [(split_cons hb reads).2] at h
      obtain ⟨hfail, hcontents⟩ := ih h
      have hlen : b.1.length ≠ 0 := mt List.length_eq_zero_iff.mp hb
      rw [if_neg hlen, if_neg hlen, (split_cons hb reads).1, hfail, hcontents]
      exact ⟨rfl, rfl⟩

/-! ## What is kept -/

variable {r : GoReader}

private theorem keeps_of_fromEmpty (h : fromEmpty r.reads = []) : r.Keeps := by
  obtain ⟨hfail, hcontents⟩ := reads_append h [r.lastRead]
  rw [← source_eq] at hfail hcontents
  intro chunkSize useCdc
  rw [lastRead] at hfail hcontents
  split
  · rename_i herr
    rw [herr] at hcontents
    have hdelivered : r.delivered = r.source.contents := by
      rw [hcontents, delivered, Reader.contents]
      split
      · rename_i h0
        rw [List.length_eq_zero_iff.mp h0]
      · rw [Reader.contents, List.append_nil]
    rw [hdelivered, ffiIngestReader]
    split
    · exact IngestInput.stores_contents _
    · exact IngestInput.stores_contents _
  · rename_i e herr
    rw [herr] at hfail
    rw [ffiIngestReader]
    split
    · exact (IngestInput.refused_of_failure hfail 0).2
    · exact (IngestInput.refused_of_failure hfail _).1

/-- After a read of no bytes nothing else is stored, and the ingest does not fail. -/
theorem eq_of_stores (h : fromEmpty r.reads ≠ []) {data : Bytes}
    (hs : ∀ chunkSize, (ffiIngestReader r.source chunkSize false).Stores data) :
    data = ((beforeEmpty r.reads).map (·.1)).flatten := by
  obtain ⟨hfail, hcontents⟩ := reads_cut h [r.lastRead]
  rw [← source_eq] at hfail hcontents
  rw [← hcontents]
  have hone := hs (r.source.contents.length + 1)
  rw [ffiIngestReader, if_neg Bool.false_ne_true, if_neg (Nat.succ_ne_zero _)] at hone
  exact IngestInput.eq_contents_of_readerFixed hfail hone

/-- **Exactly the bytes up to `io.EOF` are stored, or the ingest fails,** if and only if no read
before the last one is `(0, nil)`, or the reader ends with `io.EOF` and delivers no byte after the
first `(0, nil)`. -/
theorem keeps_iff (r : GoReader) :
    r.Keeps ↔ fromEmpty r.reads = [] ∨
      (r.err = .eof ∧ (∀ b ∈ fromEmpty r.reads, b.1 = []) ∧ r.last.1 = []) := by
  by_cases h : fromEmpty r.reads = []
  · exact iff_of_true (keeps_of_fromEmpty h) (Or.inl h)
  rw [or_iff_right h]
  have hsplit : r.delivered = ((beforeEmpty r.reads).map (·.1)).flatten
      ++ (((fromEmpty r.reads).map (·.1)).flatten ++ r.last.1) := by
    rw [delivered, ← List.append_assoc, ← List.flatten_append, ← List.map_append, beforeEmpty,
      fromEmpty, List.takeWhile_append_dropWhile]
  have hrest : r.delivered = ((beforeEmpty r.reads).map (·.1)).flatten
      ↔ (∀ b ∈ fromEmpty r.reads, b.1 = []) ∧ r.last.1 = [] := by
    rw [hsplit, List.append_right_eq_self, List.append_eq_nil_iff, List.flatten_eq_nil_iff,
      List.forall_mem_map]
  rw [← hrest]
  obtain ⟨hfail, hcontents⟩ := reads_cut h [r.lastRead]
  rw [← source_eq] at hfail hcontents
  constructor
  · intro hk
    cases herr : r.err with
    | eof =>
      refine ⟨rfl, eq_of_stores h fun chunkSize ↦ ?_⟩
      have := hk chunkSize false
      rwa [herr] at this
    | other e =>
      -- a refused ingest stores whatever one asks for
      have hall (data : Bytes) : data = ((beforeEmpty r.reads).map (·.1)).flatten := by
        refine eq_of_stores h fun chunkSize ↦ ?_
        have := hk chunkSize false
        rw [herr] at this
        exact this.stores data
      cases (hall [0]).trans (hall []).symm
  · rintro ⟨herr, hdelivered⟩ chunkSize useCdc
    rw [herr]
    change (ffiIngestReader r.source chunkSize useCdc).Stores r.delivered
    rw [hdelivered, ← hcontents, ffiIngestReader]
    split
    · exact IngestInput.stores_contents _
    · exact IngestInput.stores_contents _

/-- A reader that has nothing at first, and one byte later. -/
theorem not_keeps : ¬∀ r : GoReader, r.Keeps := by
  intro h
  have hne : fromEmpty [⟨[], by decide⟩] ≠ [] := by decide
  have hdata :=
    eq_of_stores (r := ⟨[⟨[], by decide⟩], ⟨[0x61], by decide⟩, .eof⟩) hne fun chunkSize ↦
    h ⟨[⟨[], by decide⟩], ⟨[0x61], by decide⟩, .eof⟩ chunkSize false
  cases hdata

end GoReader

end Chunkstore

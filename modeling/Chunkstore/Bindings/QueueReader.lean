import Chunkstore.Bindings.PyReader

/-!
# The queue reader

`ingest_aiter` streams an asynchronous iterator into the store (`async_store.py`): a producer puts
its blocks into a queue, then `None`, and a thread runs `ingest_reader` on a `_QueueReader`, which
takes them out. The core ends its input at the first empty read, so a read must not come back empty
early.

The items are all that the producer ever puts, in order. A read that needs an item when none is left
would wait forever, and is `none` here.

## Main result

* `QueueReader.delivers`: the reads return the concatenated blocks, cut where the sizes ask for it,
  and the store ingests exactly these bytes.
-/

namespace Chunkstore

open ChunkStore (IngestInput)

/-- The adapter: the bytes that are taken out of the queue and not returned yet, and whether the end
marker was taken out. -/
structure QueueReader where
  buf : Bytes
  eof : Bool
  deriving DecidableEq

/-- What the producer puts for an iterator that ends normally. -/
def producerItems (blocks : List Bytes) : List (Option Bytes) := blocks.map some ++ [none]

namespace QueueReader

def new : QueueReader := ⟨[], false⟩

/-- The loop goes on as long as the end was not seen and the buffer is too short. -/
def waits (want : ℕ) (r : QueueReader) : Bool := !r.eof && decide (r.buf.length < want)

/-- One item out of the queue. -/
def accept (r : QueueReader) : Option Bytes → QueueReader
  | none => { r with eof := true }
  | some item => { r with buf := r.buf ++ item }

/-- The loop that fills the buffer from the queue. -/
def fill (want : ℕ) : QueueReader → List (Option Bytes) → Option (QueueReader × List (Option Bytes))
  | r, [] => if r.waits want then none else some (r, [])
  | r, item :: items =>
    if r.waits want then fill want (r.accept item) items else some (r, item :: items)

/-- `read(n)`: what it returns, the reader and the queue after it. -/
def read (n : ℤ) (r : QueueReader) (items : List (Option Bytes)) :
    Option (Bytes × QueueReader × List (Option Bytes)) := do
  if n = 0 then
    return ([], r, items)
  let want := if 0 < n then n.toNat else 64 * 1024
  let (r, items) ← r.fill want items
  if n < 0 then
    return (r.buf, { r with buf := [] }, items)
  return (r.buf.take n.toNat, { r with buf := r.buf.drop n.toNat }, items)

/-- Successive reads, with what each of them returns. -/
def reads : List ℤ → QueueReader → List (Option Bytes) →
    Option (List Bytes × QueueReader × List (Option Bytes))
  | [], r, items => some ([], r, items)
  | n :: sizes, r, items => do
    let (out, r, items) ← r.read n items
    let (outs, r, items) ← reads sizes r items
    return (out :: outs, r, items)

/-! ## What the reader still has to deliver -/

/-- The bytes that a reader and its queue still deliver. -/
inductive Holds : Bytes → QueueReader → List (Option Bytes) → Prop
  | ended (data : Bytes) : Holds data ⟨data, true⟩ []
  | waiting (buf : Bytes) (blocks : List Bytes) :
    Holds (buf ++ blocks.flatten) ⟨buf, false⟩ (producerItems blocks)

variable {data : Bytes} {r : QueueReader} {items : List (Option Bytes)}

theorem holds_new (blocks : List Bytes) : Holds blocks.flatten new (producerItems blocks) :=
  Holds.waiting [] blocks

/-- The loop leaves a buffer that is long enough, or a reader at the end of the stream. -/
theorem fill_spec (want : ℕ) (h : Holds data r items) :
    ∃ r' items', r.fill want items = some (r', items') ∧ Holds data r' items' ∧
      (want ≤ r'.buf.length ∨ r'.eof = true) := by
  cases h with
  | ended => exact ⟨⟨data, true⟩, [], rfl, .ended data, Or.inr rfl⟩
  | waiting buf blocks =>
    -- along the blocks: each one moves from the queue to the end of the buffer
    induction blocks generalizing buf with
    | nil =>
      by_cases hw : waits want ⟨buf, false⟩ = true
      · refine ⟨⟨buf, true⟩, [], ?_, ?_, Or.inr rfl⟩
        · change fill want ⟨buf, false⟩ [none] = _
          rw [fill, if_pos hw]
          rfl
        · rw [List.flatten_nil, List.append_nil]
          exact .ended buf
      · refine ⟨_, _, if_neg hw, .waiting buf [], Or.inl ?_⟩
        simpa [waits] using hw
    | cons block blocks ih =>
      by_cases hw : waits want ⟨buf, false⟩ = true
      · obtain ⟨r', items', hfill, hholds, hdone⟩ := ih (buf ++ block)
        refine ⟨r', items', ?_, ?_, hdone⟩
        · rw [← hfill]
          exact if_pos hw
        · rwa [List.flatten_cons, ← List.append_assoc]
      · refine ⟨_, _, if_neg hw, .waiting buf (block :: blocks), Or.inl ?_⟩
        simpa [waits] using hw

private theorem Holds.drop {n : ℕ} (h : Holds data r items) (hn : n ≤ r.buf.length ∨ r.eof = true) :
    r.buf.take n = data.take n ∧ Holds (data.drop n) { r with buf := r.buf.drop n } items := by
  cases h with
  | ended => exact ⟨rfl, .ended _⟩
  | waiting buf blocks =>
    obtain hn | heof := hn
    · rw [List.take_append_of_le_length hn, List.drop_append_of_le_length hn]
      exact ⟨rfl, .waiting _ _⟩
    · cases heof

/-- A read returns the next bytes, as many as it is asked for and all of them at the end. -/
theorem read_spec {n : ℤ} (hn : 0 < n) (h : Holds data r items) :
    ∃ r' items', r.read n items = some (data.take n.toNat, r', items') ∧
      Holds (data.drop n.toNat) r' items' ∧ (data.length < n.toNat → r'.eof = true) := by
  obtain ⟨r', items', hfill, hholds, hdone⟩ := fill_spec n.toNat h
  obtain ⟨htake, hdrop⟩ := hholds.drop hdone
  refine ⟨_, items', ?_, hdrop, ?_⟩
  · rw [read, if_neg hn.ne', if_pos hn]
    change (r.fill n.toNat items).bind _ = _
    rw [hfill, ← htake]
    exact if_neg hn.not_gt
  · intro hlt
    cases hholds with
    | ended => rfl
    | waiting buf blocks =>
      obtain hle | heof := hdone
      · have hbuf := hle.trans (List.sublist_append_left buf blocks.flatten).length_le
        exact absurd hlt hbuf.not_gt
      · cases heof

theorem reads_cons {n : ℤ} {sizes : List ℤ} {out : Bytes} {r' : QueueReader}
    {items' : List (Option Bytes)} (h : r.read n items = some (out, r', items')) :
    reads (n :: sizes) r items
      = (reads sizes r' items').map fun p ↦ (out :: p.1, p.2) := by
  change (r.read n items).bind _ = _
  rw [h]
  change (reads sizes r' items').bind _ = _
  rw [Option.map_eq_bind]
  rfl

theorem reads_spec {sizes : List ℤ} (hpos : ∀ n ∈ sizes, 0 < n) (h : Holds data r items) :
    ∃ outs r' items', reads sizes r items = some (outs, r', items') ∧
      outs.length = sizes.length ∧ outs.flatten = data.take (sizes.map Int.toNat).sum ∧
      Holds (data.drop (sizes.map Int.toNat).sum) r' items' := by
  induction sizes generalizing data r items with
  | nil => exact ⟨[], r, items, rfl, rfl, rfl, h⟩
  | cons n sizes ih =>
    obtain ⟨hn, hpos⟩ := List.forall_mem_cons.mp hpos
    obtain ⟨r₁, items₁, hread, hholds, -⟩ := read_spec hn h
    obtain ⟨outs, r₂, items₂, hreads, hlen, hflat, hrest⟩ := ih hpos hholds
    refine ⟨data.take n.toNat :: outs, r₂, items₂, ?_, ?_, ?_, ?_⟩
    · rw [reads_cons hread, hreads]
      rfl
    · rw [List.length_cons, List.length_cons, hlen]
    · rw [List.flatten_cons, hflat, List.map_cons, List.sum_cons, List.take_add]
    · rwa [List.map_cons, List.sum_cons, ← List.drop_drop]

theorem reads_concat {sizes : List ℤ} {n : ℤ} {outs : List Bytes} {out : Bytes}
    {r₁ r₂ : QueueReader} {items₁ items₂ : List (Option Bytes)}
    (h : reads sizes r items = some (outs, r₁, items₁))
    (hread : r₁.read n items₁ = some (out, r₂, items₂)) :
    reads (sizes ++ [n]) r items = some (outs ++ [out], r₂, items₂) := by
  induction sizes generalizing r items outs with
  | nil =>
    obtain ⟨rfl, rfl, rfl⟩ : outs = [] ∧ r₁ = r ∧ items₁ = items := by
      cases h
      exact ⟨rfl, rfl, rfl⟩
    rw [List.nil_append, reads_cons hread]
    rfl
  | cons m sizes ih =>
    cases hm : r.read m items with
    | none =>
      change (r.read m items).bind _ = _ at h
      rw [hm] at h
      cases h
    | some p =>
      obtain ⟨out', r', items'⟩ := p
      rw [reads_cons hm] at h
      obtain ⟨⟨outs', q⟩, hq, heq⟩ := Option.map_eq_some_iff.mp h
      cases heq
      rw [List.cons_append, reads_cons hm, ih hq]
      rfl

/-! ## The reads of the core -/

/-- Reads of the length of the core's buffer return everything before the first empty one, if there
are enough of them. -/
private theorem reads_bufLen {k : ℕ} (hk : data.length ≤ k * PyReader.bufLen)
    (h : Holds data r items) :
    ∃ outs r' items', reads (List.replicate k (PyReader.bufLen : ℤ)) r items
        = some (outs, r', items') ∧
      (∀ out ∈ outs, out.length ≤ PyReader.bufLen) ∧
      (PyReader.returned (outs.map .bytes)).flatten = data := by
  have hpos : (0 : ℤ) < PyReader.bufLen := by decide
  induction k generalizing data r items with
  | zero =>
    rw [Nat.zero_mul, Nat.le_zero, List.length_eq_zero_iff] at hk
    exact ⟨[], r, items, rfl, fun _ hout ↦ absurd hout List.not_mem_nil, hk.symm⟩
  | succ k ih =>
    obtain ⟨r₁, items₁, hread, hholds, -⟩ := read_spec hpos h
    rw [Int.toNat_natCast] at hread hholds
    have hle : (data.drop PyReader.bufLen).length ≤ k * PyReader.bufLen := by
      rw [List.length_drop, Nat.succ_mul] at *
      omega
    obtain ⟨outs, r₂, items₂, hreads, hlen, hflat⟩ := ih hle hholds
    refine ⟨data.take PyReader.bufLen :: outs, r₂, items₂, ?_, ?_, ?_⟩
    · rw [List.replicate_succ, reads_cons hread, hreads]
      rfl
    · exact List.forall_mem_cons.mpr ⟨List.length_take_le _ _, hlen⟩
    · have hcons : PyReader.returned ((data.take PyReader.bufLen :: outs).map .bytes)
          = (data.take PyReader.bufLen :: (outs.map .bytes).map PyReader.encode).takeWhile
              fun b ↦ !b.isEmpty := rfl
      rw [hcons]
      by_cases hnil : data = []
      · rw [hnil, List.take_nil]
        rfl
      · have htake : data.take PyReader.bufLen ≠ [] := by
          rw [Ne, List.take_eq_nil_iff, not_or]
          exact ⟨by decide, hnil⟩
        rw [List.takeWhile_cons_of_pos (by simpa using htake), List.flatten_cons]
        change _ ++ (PyReader.returned (outs.map .bytes)).flatten = _
        rw [hflat, List.take_append_drop]

/-- The reader that the core sees: each read asks for a full buffer. -/
def pyReader (outs : List Bytes) : Reader := PyReader.reader (outs.map fun out ↦ .ok (.bytes out))

private theorem delivers_pyReader {outs : List Bytes}
    (h : ∀ out ∈ outs, out.length ≤ PyReader.bufLen) :
    (pyReader outs).contents = (PyReader.returned (outs.map .bytes)).flatten ∧
      (pyReader outs).Delivers (pyReader outs).contents := by
  have hok : ∀ obj ∈ outs.map PyObject.bytes, (extractBytes obj).isOk := by
    intro obj hobj
    obtain ⟨out, -, rfl⟩ := List.mem_map.mp hobj
    rfl
  have hall : ∀ b ∈ PyReader.returned (outs.map .bytes), b.length ≤ PyReader.bufLen := by
    intro b hb
    obtain ⟨obj, hobj, rfl⟩ := List.mem_map.mp ((List.takeWhile_sublist _).mem hb)
    obtain ⟨out, hout, rfl⟩ := List.mem_map.mp hobj
    exact h out hout
  obtain ⟨hfail, hcontents⟩ := PyReader.contents_reader hok
  rw [(PyReader.flatMap_take_eq_iff _ _).mpr hall, List.map_map] at hcontents
  rw [List.map_map] at hfail
  exact ⟨hcontents, Reader.delivers_contents hfail⟩

/-- **The queue reader delivers the stream of the producer.** After any reads of positive sizes, one
more read returns at most as many bytes as it is asked for, fewer only when the end marker was read
and everything is delivered, none exactly when everything was delivered before; what was returned so
far is the beginning of the concatenated blocks. So the ingest of an iterator that ends normally, as
soon as the core has read often enough, is the ingest of these bytes. -/
theorem delivers (blocks : List Bytes) :
    (∀ (earlier : List ℤ) (n : ℤ), (∀ m ∈ earlier ++ [n], 0 < m) →
      ∃ outs out r items, reads (earlier ++ [n]) new (producerItems blocks)
          = some (outs ++ [out], r, items) ∧
        outs.length = earlier.length ∧ (out.length : ℤ) ≤ n ∧
        ((out.length : ℤ) < n → r.eof = true ∧ (outs ++ [out]).flatten = blocks.flatten) ∧
        (out = [] ↔ outs.flatten = blocks.flatten) ∧
        (outs ++ [out]).flatten
          = blocks.flatten.take ((earlier ++ [n]).map Int.toNat).sum) ∧
    ∀ k : ℕ, blocks.flatten.length ≤ k * PyReader.bufLen →
      ∃ outs r items, reads (List.replicate k (PyReader.bufLen : ℤ)) new (producerItems blocks)
          = some (outs, r, items) ∧
        ∀ (store : ChunkStore) (fileId : String) (n : ℕ) (s : State),
          store.exec (.ingest fileId (.readerFixed (pyReader outs) n)) s
              = store.exec (.ingest fileId (.fixed blocks.flatten n)) s ∧
            (IngestInput.readerFixed (pyReader outs) n).Stores blocks.flatten := by
  constructor
  · intro earlier n hpos
    rw [List.forall_mem_append, List.forall_mem_singleton] at hpos
    obtain ⟨outs, r, items, hreads, hlen, hflat, hholds⟩ := reads_spec hpos.1 (holds_new blocks)
    obtain ⟨r', items', hread, -, heof⟩ := read_spec hpos.2 hholds
    have hn : (n.toNat : ℤ) = n := Int.toNat_of_nonneg hpos.2.le
    have htotal : (outs ++ [(blocks.flatten.drop (earlier.map Int.toNat).sum).take n.toNat]).flatten
        = blocks.flatten.take ((earlier ++ [n]).map Int.toNat).sum := by
      rw [List.flatten_append, List.flatten_singleton, hflat, List.map_append, List.sum_append,
        List.map_singleton, List.sum_singleton, List.take_add]
    refine ⟨outs, _, r', items', reads_concat hreads hread, hlen, ?_, ?_, ?_, htotal⟩
    · rw [← hn, Int.ofNat_le]
      exact List.length_take_le _ _
    · -- a short result: the bytes that were left are fewer than asked for
      intro hshort
      rw [← hn, Int.ofNat_lt, List.length_take] at hshort
      have hleft := (min_lt_iff.mp hshort).resolve_left (lt_irrefl _)
      refine ⟨heof hleft, ?_⟩
      rw [htotal, List.take_of_length_le]
      rw [List.length_drop] at hleft
      rw [List.map_append, List.sum_append, List.map_singleton, List.sum_singleton]
      omega
    · rw [hflat, List.take_eq_nil_iff, or_iff_right (by omega), List.drop_eq_nil_iff,
        List.take_eq_self_iff]
  · intro k hk
    obtain ⟨outs, r, items, hreads, hlen, hflat⟩ := reads_bufLen hk (holds_new blocks)
    obtain ⟨hcontents, hd⟩ := delivers_pyReader hlen
    rw [← hflat, ← hcontents]
    exact ⟨outs, r, items, hreads, fun store fileId n s ↦
      ⟨((store.streaming_ingest fileId n _ _ hd).2 s).1, IngestInput.stores_contents _⟩⟩

end QueueReader

end Chunkstore

import Chunkstore.Bindings.Stored
import Chunkstore.Data.Json
import Mathlib.Algebra.Order.BigOperators.Group.List

/-!
# The Python reader

`PyReader` lets the core read from a Python object (`python/src/lib.rs`). Each time the core wants
to fill its 64 KiB buffer it calls `read(65536)` and takes what comes back as bytes, a `str` as its
UTF-8 encoding. What does not fit into the buffer is dropped, and the object is not asked for it
again.

## Main result

* `PyReader.stores_iff`: exactly what was returned is stored if and only if no object was longer
  than the buffer.
-/

namespace Chunkstore

open ChunkStore (IngestInput)

/-- What a Python `read` returns: `bytes`, a `str`, or an object that is neither, with the text of
the exception that using it as bytes raises. -/
inductive PyObject
  | bytes (b : Bytes)
  | str (s : String)
  | other (error : String)

/-- The bytes of an object, of a `str` its UTF-8 encoding. -/
def extractBytes : PyObject → Except String Bytes
  | .bytes b => .ok b
  | .str s => .ok (Json.toUtf8 s)
  | .other e => .error e

namespace PyReader

/-- The length of the buffer of the loop that reads. -/
def bufLen : ℕ := 64 * 1024

/-- One read into the buffer, from what calling the Python object gives: an object, or the text of
the exception it raises. -/
def read (r : Except String PyObject) : ReadResult := do
  let obj ← r
  let bytes ← extractBytes obj
  return ⟨bytes.take (min bytes.length bufLen),
    (List.length_take_le _ _).trans (Nat.min_le_right _ _)⟩

/-- A Python reader, as what its successive calls give. After that it returns an empty object. -/
def reader (results : List (Except String PyObject)) : Reader := results.map read

/-- The encoding of an object that is accepted. -/
def encode (obj : PyObject) : Bytes := (extractBytes obj).toOption.getD []

/-- The encodings of the objects that are asked for: those up to the first empty one. -/
def returned (objs : List PyObject) : List Bytes := (objs.map encode).takeWhile fun b ↦ !b.isEmpty

theorem flatMap_take_eq_iff (k : ℕ) (l : List Bytes) :
    l.flatMap (fun b ↦ b.take k) = l.flatten ↔ ∀ b ∈ l, b.length ≤ k := by
  induction l with
  | nil => simp
  | cons b l ih =>
    rw [List.flatMap_cons, List.flatten_cons, List.forall_mem_cons, ← ih]
    constructor
    · intro h
      have hle : (l.flatMap fun b ↦ b.take k).length ≤ l.flatten.length := by
        rw [List.length_flatMap, List.length_flatten]
        exact List.sum_le_sum fun b _ ↦ List.length_take_le' _ _
      have hlen := congrArg List.length h
      rw [List.length_append, List.length_append, List.length_take] at hlen
      have hb : b.length ≤ k := by omega
      rw [List.take_of_length_le hb] at h
      exact ⟨hb, List.append_cancel_left h⟩
    · rintro ⟨hb, h⟩
      rw [h, List.take_of_length_le hb]

variable {obj : PyObject} {objs : List PyObject}

private theorem read_eq_ok (h : (extractBytes obj).isOk) :
    ∃ block, read (.ok obj) = .ok block ∧ block.1 = (encode obj).take bufLen := by
  obtain ⟨b, hb⟩ : ∃ b, extractBytes obj = .ok b := by
    cases hb : extractBytes obj with
    | ok b => exact ⟨b, rfl⟩
    | error e =>
      rw [hb] at h
      cases h
  refine ⟨⟨b.take (min b.length bufLen),
    (List.length_take_le _ _).trans (Nat.min_le_right _ _)⟩, ?_, ?_⟩
  · rw [read]
    change (extractBytes obj).bind _ = _
    rw [hb]
    rfl
  · have henc : encode obj = b := by rw [encode, hb]; rfl
    change b.take (min b.length bufLen) = _
    rw [henc, min_comm, ← List.take_take, List.take_length]

/-- A reader whose objects are all accepted does not fail, and delivers what fits of each. -/
theorem contents_reader (h : ∀ obj ∈ objs, (extractBytes obj).isOk) :
    (reader (objs.map .ok)).failure = none ∧
      (reader (objs.map .ok)).contents = (returned objs).flatMap fun b ↦ b.take bufLen := by
  induction objs with
  | nil => exact ⟨rfl, rfl⟩
  | cons obj objs ih =>
    obtain ⟨hf, hc⟩ := ih fun o ho ↦ h o (List.mem_cons_of_mem obj ho)
    obtain ⟨block, hread, hblock⟩ := read_eq_ok (h obj List.mem_cons_self)
    have hreader : reader ((obj :: objs).map .ok) = .ok block :: reader (objs.map .ok) :=
      congrArg (· :: _) hread
    have hempty : block.1.length = 0 ↔ encode obj = [] := by
      rw [hblock, List.length_take, ← List.length_eq_zero_iff, bufLen]
      omega
    rw [hreader, Reader.failure, Reader.contents, returned, List.map_cons]
    by_cases h0 : encode obj = []
    · rw [if_pos (hempty.mpr h0), if_pos (hempty.mpr h0), List.takeWhile_cons, h0]
      exact ⟨rfl, rfl⟩
    · rw [if_neg (mt hempty.mp h0), if_neg (mt hempty.mp h0),
        List.takeWhile_cons_of_pos (by simpa using h0), List.flatMap_cons, hc, hblock]
      exact ⟨hf, rfl⟩

/-- **What a Python reader delivers is stored** if and only if no object that is asked for is longer
than the buffer. The objects are those of successive calls, and the last one is followed by an empty
one. -/
theorem stores_iff (objs : List PyObject) (h : ∀ obj ∈ objs, (extractBytes obj).isOk) :
    (∀ n, (IngestInput.readerFixed (reader (objs.map .ok)) n).Stores (returned objs).flatten ∧
        (IngestInput.readerCdc (reader (objs.map .ok))).Stores (returned objs).flatten) ↔
      ∀ b ∈ returned objs, b.length ≤ bufLen := by
  obtain ⟨hf, hc⟩ := contents_reader h
  rw [IngestInput.stores_contents_iff hf, hc, eq_comm]
  exact flatMap_take_eq_iff _ _

theorem stores_iff_short :
    (∀ n, (IngestInput.readerFixed (reader ([.bytes [0x61], .str "b"].map .ok)) n).Stores
          (returned [.bytes [0x61], .str "b"]).flatten ∧
        (IngestInput.readerCdc (reader ([.bytes [0x61], .str "b"].map .ok))).Stores
          (returned [.bytes [0x61], .str "b"]).flatten) ↔
      ∀ b ∈ returned [.bytes [0x61], .str "b"], b.length ≤ bufLen :=
  stores_iff [.bytes [0x61], .str "b"] (by decide)

/-- A text reader that returns the 65536 characters it is asked for, each of two bytes. -/
def accents : PyObject := .str (.ofList (List.replicate bufLen 'é'))

private theorem length_encode_accents : (encode accents).length = 2 * bufLen := by
  have hchar : (String.utf8EncodeChar 'é').length = 2 := by decide
  have henc : encode accents = Json.toUtf8 (.ofList (List.replicate bufLen 'é')) := by
    rw [encode, accents, extractBytes]
    exact Option.getD_some
  rw [henc, Json.toUtf8_ofList, List.length_flatMap, List.map_replicate, hchar, List.sum_replicate,
    smul_eq_mul, mul_comm]

theorem not_stores : ¬∀ objs : List PyObject, (∀ obj ∈ objs, (extractBytes obj).isOk) → ∀ n,
    (IngestInput.readerFixed (reader (objs.map .ok)) n).Stores (returned objs).flatten ∧
      (IngestInput.readerCdc (reader (objs.map .ok))).Stores (returned objs).flatten := by
  intro h
  have hacc : ∀ obj ∈ [accents], (extractBytes obj).isOk := by
    intro obj hobj
    rw [List.mem_singleton.mp hobj]
    rfl
  have hne : encode accents ≠ [] := by
    rw [← List.length_pos_iff_ne_nil, length_encode_accents]
    decide
  have hret : returned [accents] = [encode accents] :=
    List.takeWhile_cons_of_pos (by simpa using hne)
  obtain ⟨hf, hc⟩ := contents_reader hacc
  have heq := (IngestInput.stores_contents_iff hf).mp (h [accents] hacc)
  rw [hc, eq_comm, flatMap_take_eq_iff, hret, List.forall_mem_singleton,
    length_encode_accents] at heq
  exact absurd heq (by decide)

end PyReader

end Chunkstore

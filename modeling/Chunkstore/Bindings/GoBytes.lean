import Chunkstore.Core.Store

/-!
# Buffers in the Go bindings

Bytes cross from the core into Go as a pointer and a `size_t`, and `C.GoBytes` copies them. It takes
the length as a `C.int`, so `Store.Read` and the put callback of a Go backend first convert 64 bits
to 32.

## Main result

* `GoBytes.intact_iff`: a buffer arrives intact if and only if it is shorter than 2 GiB.
-/

namespace Chunkstore

/-- A buffer of the core: what the pointer points to, `none` for a null pointer, and the length. -/
structure CBuffer where
  data : Option Bytes
  length : UInt64

namespace GoBytes

/-- The conversion `C.int(length)`, which keeps the low 32 bits. -/
def cInt (length : UInt64) : Int32 := length.toUInt32.toInt32

/-- `C.GoBytes`: a copy of the first `n` bytes. The Go runtime panics on a negative length, which is
`none`. -/
def goBytes (p : Bytes) (n : Int32) : Option Bytes :=
  if n.toInt < 0 then none else some (p.take n.toInt.toNat)

/-- The buffer of a vector of bytes. Its pointer is never null. -/
def vecBuffer (bytes : Bytes) : CBuffer := ⟨some bytes, .ofNat bytes.length⟩

/-- What `Store.Read` and `chunkstore_go_backend_put` both make of a buffer. -/
def fromBuffer (b : CBuffer) : Option Bytes :=
  match b.data with
  | none => some []
  | some data => if 0 < b.length then goBytes data (cInt b.length) else some []

/-- `chunkstore_read`, from what the store reads. -/
def chunkstoreRead (read : Except ChunkStoreError Bytes) : Except ChunkStoreError CBuffer :=
  read.map vecBuffer

/-- `Store.Read`, from what the store reads: bytes or an error, or `none` for a panic. -/
def storeRead (read : Except ChunkStoreError Bytes) : Option (Except ChunkStoreError Bytes) :=
  match chunkstoreRead read with
  | .error e => some (.error e)
  | .ok b => (fromBuffer b).map .ok

/-- The value that `Backend.Put` receives from `chunkstore_go_backend_put`, for a value of the
core. -/
def backendPut (data : Bytes) : Option Bytes := fromBuffer (vecBuffer data)

/-! ## The conversion -/

/-- Up to 32 bits are kept, and the upper half of them is negative. -/
private theorem toInt_cInt {n : ℕ} (h : n < 2 ^ 64) :
    (cInt (.ofNat n)).toInt
      = if n % 2 ^ 32 < 2 ^ 31 then ((n % 2 ^ 32 : ℕ) : ℤ)
        else ((n % 2 ^ 32 : ℕ) : ℤ) - 2 ^ 32 := by
  have hlow : (UInt64.ofNat n).toUInt32.toBitVec.toNat = n % 2 ^ 32 := by
    change (UInt64.ofNat n).toUInt32.toNat = _
    rw [UInt64.toNat_toUInt32, UInt64.toNat_ofNat_of_lt' h]
  change (UInt64.ofNat n).toUInt32.toBitVec.toInt = _
  rw [BitVec.toInt_eq_toNat_cond, hlow]
  split <;> split <;> omega

/-- Above 4 GiB the length wraps around; a length that comes out negative is a panic. -/
private theorem fromBuffer_vecBuffer {data : Bytes} (h : data.length < 2 ^ 64) :
    fromBuffer (vecBuffer data)
      = if data.length % 2 ^ 32 < 2 ^ 31 then some (data.take (data.length % 2 ^ 32))
        else none := by
  have hpos : 0 < UInt64.ofNat data.length ↔ 0 < data.length := by
    rw [UInt64.lt_iff_toNat_lt, UInt64.toNat_ofNat_of_lt' h]
    exact Iff.rfl
  rw [fromBuffer, vecBuffer]
  change (if 0 < UInt64.ofNat data.length then goBytes data (cInt (.ofNat data.length))
    else some []) = _
  by_cases h0 : 0 < data.length
  · rw [if_pos (hpos.mpr h0), goBytes, toInt_cInt h]
    split
    · rw [if_neg (by omega), Int.toNat_natCast]
    · rw [if_pos (by omega)]
  · rw [if_neg (mt hpos.mp h0), List.length_eq_zero_iff.mp (Nat.eq_zero_of_not_pos h0)]
    rfl

theorem fromBuffer_vecBuffer_eq_iff {data : Bytes} (h : data.length < 2 ^ 64) :
    fromBuffer (vecBuffer data) = some data ↔ data.length < 2 ^ 31 := by
  rw [fromBuffer_vecBuffer h]
  split
  · rw [Option.some_inj, List.take_eq_self_iff]
    omega
  · refine iff_of_false (Option.some_ne_none data).symm ?_
    omega

/-- **A buffer arrives intact,** in `Store.Read` as in `Backend.Put`, if and only if it is shorter
than 2 GiB. -/
theorem intact_iff (data : Bytes) (h : data.length < 2 ^ 64) :
    (storeRead (.ok data) = some (.ok data) ↔ data.length < 2 ^ 31) ∧
      (backendPut data = some data ↔ data.length < 2 ^ 31) := by
  have hiff := fromBuffer_vecBuffer_eq_iff h
  refine ⟨?_, hiff⟩
  rw [← hiff]
  change (fromBuffer (vecBuffer data)).map Except.ok = some (.ok data) ↔ _
  rw [Option.map_eq_some_iff]
  constructor
  · rintro ⟨bytes, hbytes, heq⟩
    rw [hbytes, Except.ok.inj heq]
  · exact fun hdata ↦ ⟨data, hdata, rfl⟩

theorem intact_iff_three :
    (storeRead (.ok [1, 2, 3]) = some (.ok [1, 2, 3]) ↔ [1, 2, 3].length < 2 ^ 31) ∧
      (backendPut [1, 2, 3] = some [1, 2, 3] ↔ [1, 2, 3].length < 2 ^ 31) :=
  intact_iff [1, 2, 3] (by decide)

/-- A file of 2 GiB makes `Store.Read` panic. -/
theorem not_intact : ¬∀ data : Bytes, data.length < 2 ^ 64 →
    storeRead (.ok data) = some (.ok data) ∧ backendPut data = some data := by
  intro h
  have hlen : (List.replicate (2 ^ 31) (0 : UInt8)).length = 2 ^ 31 := List.length_replicate
  have hput := (h (List.replicate (2 ^ 31) 0) (by omega)).2
  rw [backendPut, fromBuffer_vecBuffer_eq_iff (by omega)] at hput
  omega

end GoBytes

end Chunkstore

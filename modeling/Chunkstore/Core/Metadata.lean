import Chunkstore.Core.Hasher
import Chunkstore.Data.Table

/-!
# Manifests, reference counts and statistics

The three structures a store keeps in memory, each behind a lock (`manifest.rs`, `refcount.rs`,
`stats.rs`). Counters are natural numbers; `saturating_sub` is truncated subtraction.

`Manifest.occurrences` is what the reference counts are meant to count: how often a digest occurs in
the digest lists of all files, with multiplicity.
-/

namespace Chunkstore

/-! ## Manifests -/

/-- Maps file ids to ordered chunk digests. -/
structure Manifest where
  files : Table String (List String)
  fileBytes : Table String ℕ

namespace Manifest

def new : Manifest := ⟨∅, ∅⟩

def tryGet (m : Manifest) (fileId : String) : Option (List String) := m.files.find fileId

def insert (m : Manifest) (fileId : String) (digests : List String) (fileBytes : ℕ) :
    Except ChunkStoreError Manifest :=
  if fileId.isEmpty then .error (.invalidArgument "file_id cannot be empty")
  else .ok ⟨m.files.set fileId digests, m.fileBytes.set fileId fileBytes⟩

def get (m : Manifest) (fileId : String) : Except ChunkStoreError (List String) :=
  match m.files.find fileId with
  | some digests => .ok digests
  | none => .error (.notFound s!"file {fileId}")

/-- The removed digest list, and the manifest without the file. The byte count goes even when the
file is not there. -/
def remove (m : Manifest) (fileId : String) :
    Except ChunkStoreError (List String) × Manifest :=
  (m.get fileId, ⟨m.files.unset fileId, m.fileBytes.unset fileId⟩)

/-- How often a digest occurs over the digest lists of all files. -/
def occurrences (m : Manifest) (digest : String) : ℕ := m.files.sumBy (List.count digest)

@[simp] theorem occurrences_new (digest : String) : new.occurrences digest = 0 := rfl

theorem insert_eq_ok {m : Manifest} {fileId : String} (h : fileId ≠ "") (digests : List String)
    (fileBytes : ℕ) : m.insert fileId digests fileBytes
      = .ok ⟨m.files.set fileId digests, m.fileBytes.set fileId fileBytes⟩ := by
  rw [insert, if_neg (by simpa using h)]

theorem insert_empty (m : Manifest) (digests : List String) (fileBytes : ℕ) :
    m.insert "" digests fileBytes = .error (.invalidArgument "file_id cannot be empty") := rfl

theorem count_le_occurrences {m : Manifest} {fileId : String} {digests : List String}
    (h : m.tryGet fileId = some digests) (digest : String) :
    digests.count digest ≤ m.occurrences digest :=
  Table.le_sumBy (List.count digest) h

theorem occurrences_congr {m m' : Manifest} (h : ∀ fileId, m.tryGet fileId = m'.tryGet fileId)
    (digest : String) : m.occurrences digest = m'.occurrences digest :=
  Table.sumBy_congr _ h

end Manifest

/-! ## Reference counts -/

/-- Reference count and payload size for one chunk digest. -/
structure ChunkRef where
  count : ℕ
  size : ℕ
  deriving DecidableEq, Repr

/-- Reference counts per chunk digest. -/
structure RefCount where
  counts : Table String ChunkRef

namespace RefCount

def new : RefCount := ⟨∅⟩

def set (rc : RefCount) (digest : String) (count size : ℕ) : RefCount :=
  if count = 0 then ⟨rc.counts.unset digest⟩ else ⟨rc.counts.set digest ⟨count, size⟩⟩

/-- The size an increment leaves recorded: the one already there unless it is zero. -/
def mergedSize (rc : RefCount) (digest : String) (size : ℕ) : ℕ :=
  match rc.counts.find digest with
  | some r => if r.size = 0 then size else r.size
  | none => size

def get (rc : RefCount) (digest : String) : Option ℕ := (rc.counts.find digest).map (·.count)

def sizeOf (rc : RefCount) (digest : String) : Option ℕ := (rc.counts.find digest).map (·.size)

/-- The references of a digest, zero when it has no entry. -/
def countOf (rc : RefCount) (digest : String) : ℕ := (rc.get digest).getD 0

/-- Increment the refcount, recording `size` the first time the digest is seen. Two nonzero sizes
that differ are an error, which leaves the table alone: the entry is then already there. -/
def increment (rc : RefCount) (digest : String) (size : ℕ) :
    Except ChunkStoreError (ℕ × RefCount) :=
  let entry := (rc.counts.find digest).getD ⟨0, size⟩
  if entry.size = 0 then
    .ok (entry.count + 1, ⟨rc.counts.set digest ⟨entry.count + 1, size⟩⟩)
  else if size ≠ 0 ∧ entry.size ≠ size then
    .error (.invalidArgument
      s!"chunk size mismatch for {digest}: stored {entry.size} got {size}")
  else
    .ok (entry.count + 1, ⟨rc.counts.set digest ⟨entry.count + 1, entry.size⟩⟩)

/-- Decrement the refcount; an entry that reaches zero is dropped. -/
def decrement (rc : RefCount) (digest : String) : Except ChunkStoreError (ℕ × RefCount) :=
  match rc.counts.find digest with
  | none => .error (.notFound s!"refcount {digest}")
  | some entry =>
    let remaining := entry.count - 1
    if remaining = 0 then .ok (remaining, ⟨rc.counts.unset digest⟩)
    else .ok (remaining, ⟨rc.counts.set digest ⟨remaining, entry.size⟩⟩)

/-- The entries with their metadata, in the table's order. -/
def iterRefs (rc : RefCount) : List (String × ChunkRef) := rc.counts.pairs

variable {rc rc' : RefCount} {digest d : String} {size n : ℕ}

theorem countOf_eq (rc : RefCount) (digest : String) :
    rc.countOf digest = ((rc.counts.find digest).map (·.count)).getD 0 := rfl

@[simp] theorem countOf_new (digest : String) : new.countOf digest = 0 := rfl

theorem countOf_of_find {r : ChunkRef} (h : rc.counts.find digest = some r) :
    rc.countOf digest = r.count := by
  rw [countOf_eq, h]
  rfl

theorem mem_iterRefs {r : ChunkRef} :
    (digest, r) ∈ rc.iterRefs ↔ rc.counts.find digest = some r := Table.mem_pairs

/-- **Increment**, when it succeeds: one more reference, the merged size, and nothing else. -/
theorem increment_eq_ok (h : rc.increment digest size = .ok (n, rc')) :
    n = rc.countOf digest + 1 ∧
      rc'.counts = rc.counts.set digest ⟨n, rc.mergedSize digest size⟩ := by
  rw [increment] at h
  rw [countOf_eq, mergedSize]
  cases hf : rc.counts.find digest with
  | none =>
    rw [hf] at h
    dsimp only [Option.getD_none] at h
    by_cases hs : size = 0
    · rw [if_pos hs] at h
      cases h
      exact ⟨rfl, rfl⟩
    · rw [if_neg hs, if_neg fun hc ↦ hc.2 rfl] at h
      cases h
      exact ⟨rfl, rfl⟩
  | some r =>
    rw [hf] at h
    dsimp only [Option.getD_some] at h
    dsimp only [Option.map_some, Option.getD_some]
    by_cases hs : r.size = 0
    · rw [if_pos hs] at h
      cases h
      exact ⟨rfl, by rw [if_pos hs]⟩
    · rw [if_neg hs] at h
      split at h
      · cases h
      · cases h
        exact ⟨rfl, by rw [if_neg hs]⟩

/-- A digest without an entry is always accepted. -/
theorem increment_of_find_none (h : rc.counts.find digest = none) :
    rc.increment digest size = .ok (1, ⟨rc.counts.set digest ⟨1, size⟩⟩) := by
  rw [increment, h]
  dsimp only [Option.getD_none]
  by_cases hs : size = 0
  · rw [if_pos hs]
  · rw [if_neg hs, if_neg fun hc ↦ hc.2 rfl]

theorem increment_of_size {r : ChunkRef} (h : rc.counts.find digest = some r) (hs : r.size = size) :
    rc.increment digest size = .ok (r.count + 1, ⟨rc.counts.set digest ⟨r.count + 1, size⟩⟩) := by
  subst hs
  rw [increment, h]
  dsimp only [Option.getD_some]
  by_cases h0 : r.size = 0
  · rw [if_pos h0]
  · rw [if_neg h0, if_neg fun hc ↦ hc.2 rfl]

/-- **Decrement** of an entry: one reference less, and no entry once none is left. -/
theorem decrement_of_find {r : ChunkRef} (h : rc.counts.find digest = some r) :
    rc.decrement digest = .ok (r.count - 1,
      if r.count - 1 = 0 then ⟨rc.counts.unset digest⟩
      else ⟨rc.counts.set digest ⟨r.count - 1, r.size⟩⟩) := by
  rw [decrement, h]
  dsimp only
  split <;> rfl

theorem countOf_of_find_none (h : rc.counts.find digest = none) : rc.countOf digest = 0 := by
  rw [countOf_eq, h]
  rfl

theorem countOf_of_counts_set {n size : ℕ} (h : rc'.counts = rc.counts.set digest ⟨n, size⟩)
    (d : String) :
    rc'.countOf d = if d = digest then n else rc.countOf d := by
  rw [countOf_eq, countOf_eq, h, Table.find_set]
  split <;> rfl

theorem countOf_of_counts_unset (h : rc'.counts = rc.counts.unset digest) (d : String) :
    rc'.countOf d = if d = digest then 0 else rc.countOf d := by
  rw [countOf_eq, countOf_eq, h, Table.find_unset]
  split <;> rfl

theorem countOf_increment (h : rc.increment digest size = .ok (n, rc')) (d : String) :
    rc'.countOf d = if d = digest then rc.countOf digest + 1 else rc.countOf d := by
  obtain ⟨rfl, hc⟩ := increment_eq_ok h
  exact countOf_of_counts_set hc d

theorem countOf_decrement (h : rc.decrement digest = .ok (n, rc')) (d : String) :
    n = rc.countOf digest - 1 ∧
      rc'.countOf d = if d = digest then rc.countOf digest - 1 else rc.countOf d := by
  rw [decrement] at h
  cases hf : rc.counts.find digest with
  | none =>
    rw [hf] at h
    cases h
  | some r =>
    rw [hf] at h
    rw [countOf_of_find hf]
    dsimp only at h
    split at h
    · rename_i h0
      cases h
      refine ⟨rfl, ?_⟩
      rw [h0]
      exact countOf_of_counts_unset rfl d
    · cases h
      exact ⟨rfl, countOf_of_counts_set rfl d⟩

theorem countOf_set (rc : RefCount) (digest : String) (count size : ℕ) (d : String) :
    (rc.set digest count size).countOf d = if d = digest then count else rc.countOf d := by
  rw [set]
  split
  · rename_i h0
    rw [h0]
    exact countOf_of_counts_unset rfl d
  · exact countOf_of_counts_set rfl d

theorem decrement_of_find_none (h : rc.counts.find digest = none) :
    rc.decrement digest = .error (.notFound s!"refcount {digest}") := by
  rw [decrement, h]

end RefCount

/-! ## Statistics -/

def u64Max : ℕ := 2 ^ 64 - 1

/-- Dedup statistics tracked by the store. `gcChunks` counts unlinked blobs of this process. The
additions here are those of the code as long as they stay within a `u64`, which is what
`Accounting.Rounds` and `Accounting.Counters` are about. -/
structure Stats where
  totalBytes : ℕ := 0
  storedBytes : ℕ := 0
  gcChunks : ℕ := 0
  deriving DecidableEq, Repr

namespace Stats

def addReference (s : Stats) (size : ℕ) : Stats := { s with totalBytes := s.totalBytes + size }

def addUniqueChunk (s : Stats) (size : ℕ) : Stats :=
  { s with totalBytes := s.totalBytes + size, storedBytes := s.storedBytes + size }

def removeReference (s : Stats) (size : ℕ) : Stats := { s with totalBytes := s.totalBytes - size }

def removeUniqueChunk (s : Stats) (size : ℕ) : Stats :=
  { s with storedBytes := s.storedBytes - size, gcChunks := min (s.gcChunks + 1) u64Max }

end Stats

end Chunkstore

import Chunkstore.Core.Crates
import Chunkstore.Postgres.Operations

/-!
# Failed ingests on a shared database

A transaction that fails is rolled back, and a failure before it has touched no row. What is left is
a failure after the transaction, and there is one: the manifest in memory refuses the empty file id
once the row is there, and the loader refuses that row ever after.

## Main result

`PostgresStore.failed_ingest_untouched`: exactly when a failed ingest leaves the rows as they were,
and that after every run without such a failure opening succeeds exactly when the sums over the rows
fit a `BIGINT`.
-/

open Effects Program

namespace Chunkstore

open PostgresMetadata (Committed)

/-! ## Rows that come back as they were -/

private theorem RefcountRow.ext_of_eq {r r' : RefcountRow} (hc : r.count = r'.count)
    (hs : r.size = r'.size) : r = r' := by
  cases r
  cases r'
  cases hc
  cases hs
  rfl

namespace Database

variable {db db' : Database} {fileId : String} {digests : List String}

/-- Rows are there when they have a count, so equal counts and kept sizes make equal rows. -/
private theorem find_refcounts_of_countOf (hc : ∀ d, db'.countOf d = db.countOf d)
    (hs : ∀ d row, db.refcounts.find d = some row →
      ∃ row', db'.refcounts.find d = some row' ∧ row'.size = row.size) (d : String) :
    db'.refcounts.find d = db.refcounts.find d := by
  cases hf : db.refcounts.find d with
  | some row =>
    obtain ⟨row', hf', hsize⟩ := hs d row hf
    have hcount := hc d
    rw [countOf_of_find hf, countOf_of_find hf'] at hcount
    rw [hf', RefcountRow.ext_of_eq (Bigint.ext hcount) hsize]
  | none =>
    cases hf' : db'.refcounts.find d with
    | none => rfl
    | some row' =>
      have hcount := hc d
      rw [countOf_of_find_none hf, countOf_of_find hf'] at hcount
      exact absurd hcount row'.count_check.ne'

theorem sameRows_of_committed {row : ManifestRow} (hrow : db.manifests.find fileId = some row)
    (h : Committed (db.manifests.set fileId row) digests digests db db') : db.SameRows db' := by
  refine ⟨fun f ↦ ?_, find_refcounts_of_countOf (fun d ↦ ?_) h.sizes⟩
  · rw [h.manifests, Table.find_set]
    split
    · rename_i hf
      rw [hf, hrow]
    · rfl
  · rw [h.counts, add_sub_cancel_right]

/-! ## Rows that can be loaded -/

theorem loadable_empty : empty.Loadable := fun f row h ↦ by cases h

theorem Loadable.set {row : ManifestRow} (h : db.Loadable) (hf : fileId ≠ "")
    (hrow : row.digests = .ok digests) (hm : db'.manifests = db.manifests.set fileId row) :
    db'.Loadable := by
  intro f row' hfind
  rw [hm, Table.find_set] at hfind
  split at hfind
  · rename_i hff
    cases hfind
    exact ⟨hff ▸ hf, digests, hrow⟩
  · exact h f row' hfind

theorem Loadable.unset (h : db.Loadable) (hm : db'.manifests = db.manifests.unset fileId) :
    db'.Loadable := by
  intro f row hfind
  rw [hm, Table.find_unset] at hfind
  split at hfind
  · cases hfind
  · exact h f row hfind

end Database

/-! ## Failed ingests -/

namespace PostgresStore

open ChunkStore (Op Reply IngestInput)

variable (self : PostgresStore)

/-- The digests an ingest commits. -/
def digestsOf (input : IngestInput) : List String :=
  (input.stream self.crates).chunks.map (digestHex self.crates.sha256)

/-- The row an ingest writes. -/
def rowOf (input : IngestInput) : ManifestRow :=
  ⟨.ok (self.digestsOf input), .ofU64 ((input.stream self.crates).chunks.map List.length).sum⟩

/-- The file id is not empty, or the chunks end in an error, or the transaction does not commit, or
it finds the row it writes. -/
def Harmless (db : Database) (fileId : String) (input : IngestInput) : Prop :=
  fileId ≠ "" ∨ (input.stream self.crates).error ≠ none ∨
    ¬db.Admits fileId ((input.stream self.crates).entries self.crates) ∨
      db.manifests.find fileId = some (self.rowOf input)

/-- An ingest that is not of the empty file id unless its chunks end in an error, or a delete. -/
def Named : Op → Prop
  | .ingest fileId input => fileId ≠ "" ∨ (input.stream self.crates).error ≠ none
  | .delete _ => True
  | _ => False

variable {self} {n : Node} {fileId : String} {input : IngestInput}

theorem exec_ingest_error {e : ChunkStoreError} {n' : Node}
    (h : self.exec (.ingest fileId input) n = (.error e, n')) :
    n.Refused n' self.crates fileId (input.stream self.crates) := by
  have hspec := self.exec_ingest (n := n) fileId input
  rw [h] at hspec
  exact hspec.2

theorem exec_ingest_empty (n : Node) (input : IngestInput) :
    ∃ e n', self.exec (.ingest "" input) n = (.error e, n') := by
  have hspec := self.exec_ingest (n := n) "" input
  rcases hx : self.exec (.ingest "" input) n with ⟨r, n'⟩
  rw [hx] at hspec
  cases r with
  | ok reply => exact absurd rfl hspec.2.2.name.1
  | error e => exact ⟨e, n', rfl⟩

/-- **Exactly when** a failed ingest leaves the rows as they were. -/
theorem sameRows_iff_harmless :
    (∀ e n', self.exec (.ingest fileId input) n = (.error e, n') →
      n.database.SameRows n'.database) ↔ self.Harmless n.database fileId input := by
  constructor
  · intro h
    by_contra hh
    rw [Harmless, not_or, not_or, not_or, not_not, not_not, not_not] at hh
    obtain ⟨rfl, he, ha, hrow⟩ := hh
    obtain ⟨e, n', hx⟩ := exec_ingest_empty n input
    rcases exec_ingest_error hx with ⟨-, herr | hn⟩ | ⟨-, -, -, old, -, hc⟩
    · exact herr he
    · exact hn ha
    · -- the transaction has been committed, so the row is there
      refine hrow ((h e n' hx).1 "" ▸ ?_)
      rw [Stream.map_fst_entries] at hc
      rw [hc.manifests]
      exact Table.find_set_self _ _ _
  · intro h e n' hx
    rcases exec_ingest_error hx with ⟨hdb, -⟩ | ⟨rfl, he, htakes, old, hold, hc⟩
    · rw [hdb]
      exact Database.SameRows.refl _
    · rcases h with h | h | h | h
      · exact absurd rfl h
      · exact absurd he h
      · exact absurd ⟨by decide, htakes, old, hold, hc.spared⟩ h
      · -- the list is replaced by itself
        rw [Database.listOf_of_find h] at hold
        cases hold
        rw [Stream.map_fst_entries] at hc
        exact Database.sameRows_of_committed h hc

/-! ## Opening after a run -/

theorem loadable_exec {op : Op} (h : n.database.Loadable) (hop : self.Named op) :
    (self.exec op n).2.database.Loadable := by
  rcases hx : self.exec op n with ⟨r, n'⟩
  cases op with
  | ingest fileId input =>
    cases r with
    | error e =>
      rcases exec_ingest_error hx with ⟨hdb, -⟩ | ⟨hempty, he, -⟩
      · rw [hdb]
        exact h
      · rcases hop with hop | hop
        · exact absurd hempty hop
        · exact absurd he hop
    | ok reply =>
      have hspec := self.exec_ingest (n := n) fileId input
      rw [hx] at hspec
      obtain ⟨-, -, -, hname, -, old, -, hc⟩ := hspec
      exact h.set hname.1 rfl hc.manifests
  | delete fileId =>
    have hspec := self.exec_delete (n := n) fileId
    rw [hx] at hspec
    cases r with
    | error e =>
      obtain ⟨rfl, -⟩ := hspec
      exact h
    | ok reply =>
      obtain ⟨-, -, -, row, old, -, -, hc⟩ := hspec
      exact h.unset hc.manifests
  | read | readChunk | fsck | stats | chunkRefcount | reopen => exact hop.elim

theorem loadable_execAll {ops : List Op} (h : n.database.Loadable)
    (hops : ∀ op ∈ ops, self.Named op) : (self.execAll ops n).2.database.Loadable := by
  induction ops generalizing n with
  | nil => exact h
  | cons op ops ih =>
    exact ih (loadable_exec h (hops op List.mem_cons_self))
      fun o ho ↦ hops o (List.mem_cons_of_mem op ho)

theorem exec_reopen_of_loadable (h : n.database.Loadable) :
    (self.exec .reopen n).1 = .ok .done ↔ n.database.SumsFit := by
  have hspec := self.exec_reopen (n := n)
  rcases hx : self.exec .reopen n with ⟨r, n'⟩
  rw [hx] at hspec
  cases r with
  | ok reply =>
    obtain ⟨rfl, -, -, hfit⟩ := hspec
    exact iff_of_true rfl hfit
  | error e => exact iff_of_false (fun hok ↦ by cases hok) fun hfit ↦ hspec.2 ⟨h, hfit⟩

/-- **A failed ingest** leaves both tables as they were exactly when it is not one of the empty file
id that gets past its transaction with a new row. From a database that can be loaded, after every
run of ingests and deletes without an ingest of the empty file id whose chunks do not end in an
error, whatever its operations return, opening succeeds exactly when the sums of the sizes fit a
`BIGINT`. -/
theorem failed_ingest_untouched (self : PostgresStore) :
    (∀ (n : Node) (fileId : String) (input : IngestInput),
      (∀ e n', self.exec (.ingest fileId input) n = (.error e, n') →
        n.database.SameRows n'.database) ↔ self.Harmless n.database fileId input) ∧
    ∀ (n : Node) (ops : List Op), n.database.Loadable → (∀ op ∈ ops, self.Named op) →
      ((self.exec .reopen (self.execAll ops n).2).1 = .ok .done ↔
        (self.execAll ops n).2.database.SumsFit) :=
  ⟨fun _ _ _ ↦ sameRows_iff_harmless, fun _ _ h hops ↦
    exec_reopen_of_loadable (loadable_execAll h hops)⟩

/-- A store of small inputs on a shared database. -/
def small : PostgresStore := ⟨smallCrates, ⟨fun _ ↦ "db error"⟩⟩

/-- The second operation fails: it would lower the only count to zero. -/
theorem failed_ingest_untouched_small :
    (small.exec .reopen (small.execAll [.ingest "f" (.bytes [0x61]), .delete "f"]
      (start true)).2).1 = .ok .done :=
  ((failed_ingest_untouched small).2 (start true) [.ingest "f" (.bytes [0x61]), .delete "f"]
    Database.loadable_empty fun op hop ↦ by
      simp only [List.mem_cons, List.not_mem_nil, or_false] at hop
      rcases hop with rfl | rfl
      · exact Or.inl (by decide)
      · trivial).mpr (by decide +kernel)

/-- The empty file id on an empty database: the ingest throws, the row is there, and the database
cannot be opened again. -/
theorem failed_ingest_commits :
    (¬∀ e n', small.exec (.ingest "" (.bytes [0x61])) (start true) = (.error e, n') →
      (start true).database.SameRows n'.database) ∧
    (small.exec .reopen (small.execAll [.ingest "" (.bytes [0x61])] (start true)).2).1
      ≠ .ok .done := by
  constructor
  · intro h
    have hthrows : (small.exec (.ingest "" (.bytes [0x61])) (start true)).1.isOk = false := by
      decide +kernel
    rcases hx : small.exec (.ingest "" (.bytes [0x61])) (start true) with ⟨r, n'⟩
    cases r with
    | ok reply =>
      rw [hx] at hthrows
      cases hthrows
    | error e =>
      have hrow : ((small.exec (.ingest "" (.bytes [0x61])) (start true)).2.database.manifests.find
          "").isSome = true := by decide +kernel
      rw [hx, (h e n' hx).1 ""] at hrow
      cases hrow
  · decide +kernel

end PostgresStore

end Chunkstore

import Mathlib.Algebra.Order.BigOperators.Group.List
import Mathlib.Algebra.Order.Ring.Int
import Chunkstore.Core.Store

/-!
# The shared database

The two tables that hold the metadata of a store opened with `open_postgres`, and the statements run
on them (`postgres_meta.rs`). A row satisfies the CHECK constraints of its table, so a statement
that would write another row fails. A `TEXT` value has no NUL character, so a statement with such a
parameter fails as well.

A transaction is a program of statements that runs as a whole. When it ends with an error it is
rolled back. An expression of type `BIGINT` whose value is out of range fails: a count that is
incremented, and the sums of the statistics.
-/

open Effects

namespace Chunkstore

/-! ## Tables -/

/-- Why a statement fails. -/
inductive SqlError
  | checkViolation (constraint : String)
  | nulCharacter
  | outOfRange
  deriving DecidableEq, Repr

/-- The values of type `BIGINT`. -/
def IsBigint (n : ℤ) : Prop := -2 ^ 63 ≤ n ∧ n < 2 ^ 63

instance : DecidablePred IsBigint := fun _ ↦ inferInstanceAs (Decidable (_ ∧ _))

theorem isBigint_of_nonneg {n : ℤ} (h : 0 ≤ n) (hlt : n < 2 ^ 63) : IsBigint n :=
  ⟨by omega, hlt⟩

/-- A value of type `BIGINT`, which is an `i64` in the code. -/
@[ext]
structure Bigint where
  val : ℤ
  isBigint : IsBigint val

namespace Bigint

/-- A `u64` cast with `as i64`. -/
def ofU64 (n : ℕ) : Bigint where
  val := (n : ℤ).bmod (2 ^ 64)
  isBigint := by
    have hle := Int.le_bmod (x := n) (m := 2 ^ 64) (by decide)
    have hlt := Int.bmod_lt (x := n) (m := 2 ^ 64) (by decide)
    constructor <;> omega

/-- An `i64` cast with `as u64`. -/
def toU64 (n : Bigint) : ℕ := (n.val % 2 ^ 64).toNat

/-- The value of an expression. -/
def ofExpr (n : ℤ) : Except SqlError Bigint :=
  if h : IsBigint n then .ok ⟨n, h⟩ else .error .outOfRange

theorem ofExpr_eq_ok {n : ℤ} (h : IsBigint n) : ofExpr n = .ok ⟨n, h⟩ := dif_pos h

theorem ofExpr_of_not {n : ℤ} (h : ¬IsBigint n) : ofExpr n = .error .outOfRange := dif_neg h

theorem toU64_pos {n : Bigint} (h : 0 < n.val) : 0 < n.toU64 := by
  have hlt := n.isBigint.2
  rw [toU64, Int.emod_eq_of_lt h.le (by omega)]
  omega

end Bigint

/-- A row of `chunkstore_manifests`. A JSONB value that is no list of strings stands for the message
of decoding it. -/
structure ManifestRow where
  digests : Except String (List String)
  fileBytes : Bigint

/-- A row of `chunkstore_refcounts`, with its CHECK constraints. -/
structure RefcountRow where
  count : Bigint
  size : Bigint
  count_check : 0 < count.val
  size_check : 0 ≤ size.val

/-- The shared database. -/
structure Database where
  manifests : Table String ManifestRow
  refcounts : Table String RefcountRow

namespace RefcountRow

/-- A row is written only if it satisfies the constraints. -/
def check (count size : Bigint) : Except SqlError RefcountRow :=
  if hc : 0 < count.val then
    if hs : 0 ≤ size.val then .ok ⟨count, size, hc, hs⟩
    else .error (.checkViolation "chunkstore_refcounts_size_check")
  else .error (.checkViolation "chunkstore_refcounts_count_check")

theorem check_eq_ok {count size : Bigint} (hc : 0 < count.val) (hs : 0 ≤ size.val) :
    check count size = .ok ⟨count, size, hc, hs⟩ := by
  rw [check, dif_pos hc, dif_pos hs]

theorem check_of_not_pos {count : Bigint} (h : ¬0 < count.val) (size : Bigint) :
    check count size = .error (.checkViolation "chunkstore_refcounts_count_check") := dif_neg h

theorem check_of_neg {count size : Bigint} (hc : 0 < count.val) (hs : ¬0 ≤ size.val) :
    check count size = .error (.checkViolation "chunkstore_refcounts_size_check") := by
  rw [check, dif_pos hc, dif_neg hs]

end RefcountRow

namespace Database

/-- The tables as `connect` creates them. -/
def empty : Database := ⟨∅, ∅⟩

/-- The count of a digest, zero when the row is absent. -/
def countOf (db : Database) (digest : String) : ℤ :=
  ((db.refcounts.find digest).map (·.count.val)).getD 0

/-- How often a digest occurs over the digest lists of all rows. -/
def occurrences (db : Database) (digest : String) : ℕ :=
  db.manifests.sumBy fun row ↦ (row.digests.toOption.getD []).count digest

def setRefcount (db : Database) (digest : String) (row : RefcountRow) : Database :=
  { db with refcounts := db.refcounts.set digest row }

variable {db : Database} {digest : String} {row : RefcountRow}

theorem countOf_of_find (h : db.refcounts.find digest = some row) :
    db.countOf digest = row.count.val := by
  rw [countOf, h]
  rfl

theorem countOf_of_find_none (h : db.refcounts.find digest = none) : db.countOf digest = 0 := by
  rw [countOf, h]
  rfl

theorem find_of_countOf_pos (h : 0 < db.countOf digest) :
    ∃ row, db.refcounts.find digest = some row := by
  cases hf : db.refcounts.find digest with
  | none => rw [countOf_of_find_none hf] at h; exact absurd h (lt_irrefl 0)
  | some row => exact ⟨row, rfl⟩

theorem countOf_setRefcount (db : Database) (digest : String) (row : RefcountRow) (d : String) :
    (db.setRefcount digest row).countOf d = if d = digest then row.count.val else db.countOf d := by
  rw [countOf, setRefcount, Table.find_set]
  split
  · rfl
  · rfl

end Database

/-! ## Statements -/

/-- Whether a string can be a `TEXT` value. -/
def IsText (s : String) : Prop := Char.ofNat 0 ∉ s.toList

instance (s : String) : Decidable (IsText s) := inferInstanceAs (Decidable (_ ∉ _))

/-- A parameter of type `TEXT`. -/
def textParam (s : String) : Except SqlError Unit :=
  if IsText s then .ok () else .error .nulCharacter

theorem textParam_of_isText {s : String} (h : IsText s) : textParam s = .ok () := if_pos h

theorem textParam_of_not {s : String} (h : ¬IsText s) : textParam s = .error .nulCharacter :=
  if_neg h

/-- The queries of `postgres_meta.rs`, named by what they select. -/
inductive Query : Type → Type
  | selectManifests : Query (List (String × ManifestRow))
  | selectDigests (fileId : String) : Query (Option (Except String (List String)))
  | selectRefcounts : Query (List (String × RefcountRow))
  | selectSums : Query (Bigint × Bigint)

def Query.run {γ : Type} : Query γ → Database → Except SqlError γ
  | .selectManifests, db => .ok db.manifests.pairs
  | .selectDigests fileId, db => do
    textParam fileId
    return (db.manifests.find fileId).map (·.digests)
  | .selectRefcounts, db => .ok db.refcounts.pairs
  | .selectSums, db => do
    let products ← db.refcounts.pairs.mapM fun e ↦ Bigint.ofExpr (e.2.size.val * e.2.count.val)
    -- the sums are `NUMERIC`s, cast to `BIGINT`
    let total ← Bigint.ofExpr (products.map Bigint.val).sum
    let stored ← Bigint.ofExpr (db.refcounts.pairs.map fun e ↦ e.2.size.val).sum
    return (total, stored)

/-- What the sums of the statistics need: they are values of type `BIGINT`. -/
def Database.SumsFit (db : Database) : Prop :=
  (db.refcounts.pairs.map fun e ↦ e.2.size.val * e.2.count.val).sum < 2 ^ 63

instance (db : Database) : Decidable db.SumsFit := inferInstanceAs (Decidable (_ < _))

private theorem mapM_ofExpr_eq_ok {ι : Type} {g : ι → ℤ} {l : List ι}
    (h : ∀ i ∈ l, IsBigint (g i)) : ∃ values : List Bigint,
      (l.mapM fun i ↦ Bigint.ofExpr (g i)) = .ok values := by
  induction l with
  | nil => exact ⟨[], rfl⟩
  | cons i l ih =>
    obtain ⟨values, hvalues⟩ := ih fun j hj ↦ h j (List.mem_cons_of_mem i hj)
    refine ⟨⟨g i, h i List.mem_cons_self⟩ :: values, ?_⟩
    rw [List.mapM_cons, Bigint.ofExpr_eq_ok (h i List.mem_cons_self), hvalues]
    rfl

private theorem map_val_of_mapM_ofExpr {ι : Type} {g : ι → ℤ} {l : List ι} {values : List Bigint}
    (h : (l.mapM fun i ↦ Bigint.ofExpr (g i)) = .ok values) : values.map Bigint.val = l.map g := by
  induction l generalizing values with
  | nil =>
    cases h
    rfl
  | cons i l ih =>
    rw [List.mapM_cons] at h
    by_cases hi : IsBigint (g i)
    · rw [Bigint.ofExpr_eq_ok hi] at h
      cases hrest : l.mapM fun i ↦ Bigint.ofExpr (g i) with
      | error e =>
        rw [hrest] at h
        cases h
      | ok rest =>
        rw [hrest] at h
        cases h
        rw [List.map_cons, List.map_cons, ih hrest]
    · rw [Bigint.ofExpr_of_not hi] at h
      cases h

namespace Database

variable (db : Database)

private theorem product_nonneg : ∀ x ∈ db.refcounts.pairs.map fun e ↦ e.2.size.val * e.2.count.val,
    0 ≤ x := by
  intro x hx
  obtain ⟨e, -, rfl⟩ := List.mem_map.mp hx
  exact mul_nonneg e.2.size_check e.2.count_check.le

/-- Every row has a reference, so the sizes sum up to no more than the referenced bytes. -/
theorem sum_size_le : (db.refcounts.pairs.map fun e ↦ e.2.size.val).sum
    ≤ (db.refcounts.pairs.map fun e ↦ e.2.size.val * e.2.count.val).sum :=
  List.sum_le_sum fun e _ ↦ le_mul_of_one_le_right e.2.size_check e.2.count_check

/-- **The sums of the statistics** are returned exactly when they fit. -/
theorem run_selectSums : (∃ sums, Query.selectSums.run db = .ok sums) ↔ db.SumsFit := by
  constructor
  · rintro ⟨sums, h⟩
    rw [Query.run] at h
    cases hp : db.refcounts.pairs.mapM fun e ↦ Bigint.ofExpr (e.2.size.val * e.2.count.val) with
    | error e =>
      rw [hp] at h
      cases h
    | ok products =>
      rw [hp] at h
      -- the products are values, but their sum is none
      by_contra hn
      have hbig : ¬IsBigint (products.map Bigint.val).sum := by
        rw [map_val_of_mapM_ofExpr hp]
        exact fun hb ↦ hn hb.2
      change (Bigint.ofExpr (products.map Bigint.val).sum >>= fun total ↦ _) = _ at h
      rw [Bigint.ofExpr_of_not hbig] at h
      cases h
  · intro h
    -- no product is more than the sum of all
    have hproducts : ∀ e ∈ db.refcounts.pairs, IsBigint (e.2.size.val * e.2.count.val) :=
      fun e he ↦ isBigint_of_nonneg (mul_nonneg e.2.size_check e.2.count_check.le)
        ((List.single_le_sum db.product_nonneg _ (List.mem_map_of_mem he)).trans_lt h)
    obtain ⟨products, hp⟩ := mapM_ofExpr_eq_ok hproducts
    have htotal : IsBigint (products.map Bigint.val).sum := by
      rw [map_val_of_mapM_ofExpr hp]
      exact isBigint_of_nonneg (List.sum_nonneg db.product_nonneg) h
    have hstored : IsBigint (db.refcounts.pairs.map fun e ↦ e.2.size.val).sum :=
      isBigint_of_nonneg
        (List.sum_nonneg fun x hx ↦ by
          obtain ⟨e, -, rfl⟩ := List.mem_map.mp hx
          exact e.2.size_check) (db.sum_size_le.trans_lt h)
    refine ⟨(⟨_, htotal⟩, ⟨_, hstored⟩), ?_⟩
    rw [Query.run, hp]
    change (Bigint.ofExpr _ >>= _) = _
    rw [Bigint.ofExpr_eq_ok htotal, Bigint.ofExpr_eq_ok hstored]
    rfl

end Database

/-- The statements of `postgres_meta.rs` that write, named by what they do. -/
inductive Statement : Type → Type
  | upsertManifest (fileId : String) (digests : List String) (fileBytes : Bigint) : Statement Unit
  | deleteManifest (fileId : String) : Statement Unit
  | incrementRefcount (digest : String) (size : Bigint) : Statement Bigint
  | decrementRefcount (digest : String) : Statement (Option Bigint)
  | deleteRefcount (digest : String) : Statement Unit

namespace Statement

def run {γ : Type} : Statement γ → Database → Except SqlError (γ × Database)
  | .upsertManifest fileId digests fileBytes, db => do
    textParam fileId
    digests.forM textParam
    return ((), { db with manifests := db.manifests.set fileId ⟨.ok digests, fileBytes⟩ })
  | .deleteManifest fileId, db => do
    textParam fileId
    return ((), { db with manifests := db.manifests.unset fileId })
  | .incrementRefcount digest size, db => do
    textParam digest
    -- the constraints are checked on the proposed row before the conflict is
    let proposed ← RefcountRow.check ⟨1, by decide⟩ size
    match db.refcounts.find digest with
    | none => return (proposed.count, db.setRefcount digest proposed)
    | some row =>
      let count ← Bigint.ofExpr (row.count.val + 1)
      let row ← RefcountRow.check count row.size
      return (row.count, db.setRefcount digest row)
  | .decrementRefcount digest, db => do
    textParam digest
    match db.refcounts.find digest with
    | none => return (none, db)
    | some row =>
      let count ← Bigint.ofExpr (row.count.val - 1)
      let row ← RefcountRow.check count row.size
      return (some row.count, db.setRefcount digest row)
  | .deleteRefcount digest, db => do
    textParam digest
    return ((), { db with refcounts := db.refcounts.unset digest })

end Statement

/-! ## Transactions -/

/-- A statement inside a transaction. -/
inductive Sql : Type → Type 1
  | run {γ : Type} (st : Statement γ) : Sql (Except SqlError γ)

/-- The code of a transaction. -/
abbrev TransactionM := ExceptT ChunkStoreError (Program Sql)

/-- The statements of a transaction, one after the other. -/
def sqlHandler : Handler Sql Database where
  handle
    | .run st, db =>
      match st.run db with
      | .ok r => (.ok r.1, r.2)
      | .error e => (.error e, db)

/-- The code of a transaction run from a database, before it is committed or rolled back. -/
def execSql {α : Type} (body : TransactionM α) (db : Database) :
    Except ChunkStoreError α × Database := sqlHandler.eval body.run db

/-- A transaction as a whole: committed when it returns, rolled back when it throws. -/
def transact {α : Type} (body : TransactionM α) (db : Database) :
    Except ChunkStoreError α × Database :=
  match execSql body db with
  | (.ok a, db') => (.ok a, db')
  | (.error e, _) => (.error e, db)

section Rules

variable {α β : Type} {p : TransactionM α} {f : α → TransactionM β} {db db' : Database} {a : α}
  {b : β} {e : ChunkStoreError}

@[simp] theorem execSql_pure (a : α) (db : Database) :
    execSql (pure a) db = (.ok a, db) := rfl

@[simp] theorem execSql_throw (e : ChunkStoreError) (db : Database) :
    execSql (throw e : TransactionM α) db = (.error e, db) := rfl

theorem execSql_bind_ok (h : execSql p db = (.ok a, db')) :
    execSql (p >>= f) db = execSql (f a) db' := by
  rw [execSql] at h
  rw [execSql, ExceptT.run_bind, Handler.eval_bind, h]
  rfl

private theorem execSql_bind_error (h : execSql p db = (.error e, db')) :
    execSql (p >>= f) db = (.error e, db') := by
  rw [execSql] at h
  rw [execSql, ExceptT.run_bind, Handler.eval_bind, h]
  rfl

theorem execSql_bind_eq_ok (h : execSql (p >>= f) db = (.ok b, db')) :
    ∃ a db₁, execSql p db = (.ok a, db₁) ∧ execSql (f a) db₁ = (.ok b, db') := by
  rcases hp : execSql p db with ⟨r, db₁⟩
  cases r with
  | ok a => exact ⟨a, db₁, rfl, by rw [← execSql_bind_ok hp, h]⟩
  | error e =>
    rw [execSql_bind_error hp] at h
    cases h

theorem transact_eq_ok (h : transact p db = (.ok a, db')) : execSql p db = (.ok a, db') := by
  rw [transact] at h
  split at h
  · rename_i heq
    rw [heq, h]
  · cases h

/-- **Rollback.** A transaction that throws has changed nothing. -/
theorem transact_eq_error (h : transact p db = (.error e, db')) : db' = db := by
  rw [transact] at h
  split at h
  · cases h
  · exact (Prod.mk.inj h).2.symm

end Rules

end Chunkstore

import Chunkstore.Postgres.Database

/-!
# Metadata in Postgres

`PostgresMetadata`, the methods of `postgres_meta.rs`. A transaction is one request of a node and so
is a stand-alone query; between two requests other nodes may run theirs.

## What a transaction does

`commitIngest` raises the counts of the new digests, writes the manifest row and lowers the counts
of the old digests. The table does not admit a count of zero, so a decrement that would reach zero
fails and takes the whole transaction with it: `commitIngest_eq_ok` and `commitDelete_eq_ok` list
what a committed transaction has found and done.
-/

open Effects

namespace Chunkstore

/-- The characters Rust's `trim` drops: those with the Unicode property `White_Space`. -/
def isWhiteSpace (c : Char) : Bool :=
  (0x09 ≤ c.toNat && c.toNat ≤ 0x0D) || c.toNat = 0x20 || c.toNat = 0x85 || c.toNat = 0xA0 ||
    c.toNat = 0x1680 || (0x2000 ≤ c.toNat && c.toNat ≤ 0x200A) || c.toNat = 0x2028 ||
    c.toNat = 0x2029 || c.toNat = 0x202F || c.toNat = 0x205F || c.toNat = 0x3000

/-- `str::trim`. -/
def trim (s : String) : String :=
  String.ofList (((s.toList.dropWhile isWhiteSpace).reverse.dropWhile isWhiteSpace).reverse)

/-- The client; `display` is its text for an error of the database. -/
structure PostgresMetadata where
  display : SqlError → String

/-! ## Requests of a node -/

/-- The calls that run inside one transaction. -/
inductive Transaction : Type → Type
  | commitIngest (fileId : String) (newDigests : List String) (fileBytes : ℕ) (sizes : List ℕ)
      (oldDigests : Option (List String)) : Transaction (List String)
  | commitDelete (fileId : String) (digests : List String) : Transaction (List String)

/-- What a thread of a node does in one step: a block of its own, a query, or a transaction. -/
inductive NodeBlock : Type → Type 1
  | own {γ : Type} (b : Block γ) : NodeBlock γ
  | query {γ : Type} (q : Query γ) : NodeBlock (Except SqlError γ)
  | transaction {γ : Type} (t : Transaction γ) : NodeBlock (Except ChunkStoreError γ)

/-- The code of an operation of a store opened with `open_postgres`. -/
abbrev NodeM := ExceptT ChunkStoreError (Program NodeBlock)

/-- A JSONB value as a list of digests. -/
def jsonDigests (value : Except String (List String)) : Except ChunkStoreError (List String) :=
  value.mapError fun e ↦ .backendError s!"postgres digest json: {e}"

theorem jsonDigests_eq_ok {value : Except String (List String)} {digests : List String} :
    jsonDigests value = .ok digests ↔ value = .ok digests := by
  cases value with
  | ok ds =>
    rw [jsonDigests, Except.mapError, Except.ok.injEq, Except.ok.injEq]
  | error e =>
    constructor
    · rintro ⟨⟩
    · rintro ⟨⟩

namespace PostgresMetadata

variable (pg : PostgresMetadata)

/-! ## Inside a transaction -/

/-- A statement inside a transaction; `what` is how the source names it in its error. -/
def statement {γ : Type} (what : String) (st : Statement γ) : TransactionM γ := do
  match ← ExceptT.lift (Program.request (Sql.run st)) with
  | .ok r => return r
  | .error e => throw (.backendError s!"postgres {what}: {pg.display e}")

def upsertManifest (fileId : String) (digests : List String) (fileBytes : ℕ) :
    TransactionM Unit :=
  pg.statement "upsert manifest" (.upsertManifest fileId digests (.ofU64 fileBytes))

def incrementRefcount (digest : String) (size : ℕ) : TransactionM ℕ := do
  let count ← pg.statement "increment" (.incrementRefcount digest (.ofU64 size))
  return count.toU64

def decrementRefcount (digest : String) : TransactionM ℕ := do
  match ← pg.statement "decrement" (.decrementRefcount digest) with
  | none => throw (.notFound s!"refcount {digest}")
  | some remaining =>
    if remaining.val ≤ 0 then
      pg.statement "delete refcount" (.deleteRefcount digest)
      return 0
    else
      return remaining.toU64

/-- The first loop of `commit_ingest`. -/
def incrementAll : List (String × ℕ) → TransactionM Unit
  | [] => return ()
  | (digest, size) :: rest => do
    let _ ← pg.incrementRefcount digest size
    incrementAll rest

/-- The loop over the old digests. It returns those whose count has reached zero. -/
def decrementAll : List String → TransactionM (List String)
  | [] => return []
  | digest :: digests => do
    let remaining ← pg.decrementRefcount digest
    let gc ← decrementAll digests
    return if remaining = 0 then digest :: gc else gc

/-- Increment new chunks, replace the manifest, decrement the previous file's chunks. The lengths
are compared before the transaction begins. -/
def commitIngest (fileId : String) (newDigests : List String) (fileBytes : ℕ) (sizes : List ℕ)
    (oldDigests : Option (List String)) : TransactionM (List String) := do
  if newDigests.length ≠ sizes.length then
    throw (.invalidArgument "digest/size length mismatch")
  else
    pg.incrementAll (newDigests.zip sizes)
    pg.upsertManifest fileId newDigests fileBytes
    match oldDigests with
    | some old => pg.decrementAll old
    | none => return []

/-- Remove the manifest and decrement its chunks. -/
def commitDelete (fileId : String) (digests : List String) : TransactionM (List String) := do
  pg.statement "delete manifest" (.deleteManifest fileId)
  pg.decrementAll digests

/-- The code of a transaction. -/
def body {γ : Type} : Transaction γ → TransactionM γ
  | .commitIngest fileId newDigests fileBytes sizes oldDigests =>
    pg.commitIngest fileId newDigests fileBytes sizes oldDigests
  | .commitDelete fileId digests => pg.commitDelete fileId digests

/-! ## Stand-alone queries -/

/-- A query outside of a transaction. -/
def query {γ : Type} (what : String) (q : Query γ) : NodeM γ := do
  match ← ExceptT.lift (Program.request (NodeBlock.query q)) with
  | .ok r => return r
  | .error e => throw (.backendError s!"postgres {what}: {pg.display e}")

def loadManifests : NodeM Manifest := do
  let rows ← pg.query "load manifests" .selectManifests
  rows.foldlM (fun manifest row ↦ do
    let digests ← ofExcept (jsonDigests row.2.digests)
    ofExcept (manifest.insert row.1 digests row.2.fileBytes.toU64)) Manifest.new

def loadRefcounts : NodeM RefCount := do
  let rows ← pg.query "load refcounts" .selectRefcounts
  return rows.foldl (fun refcount row ↦
    if 0 < row.2.count.val then refcount.set (trim row.1) row.2.count.toU64 row.2.size.toU64
    else refcount) RefCount.new

def manifestDigests (fileId : String) : NodeM (Option (List String)) := do
  match ← pg.query "get manifest" (.selectDigests fileId) with
  | none => return none
  | some value =>
    let digests ← ofExcept (jsonDigests value)
    return some digests

def listRefcounts : NodeM (List (String × ℕ × ℕ)) := do
  let rows ← pg.query "list refcounts" .selectRefcounts
  return rows.map fun row ↦ (trim row.1, row.2.count.toU64, row.2.size.toU64)

def computeStats : NodeM Stats := do
  let sums ← pg.query "stats" .selectSums
  return ⟨sums.1.toU64, sums.2.toU64, 0⟩

end PostgresMetadata

/-! ## What a transaction does -/

/-- The counts have moved by `δ`, and sizes on record have stayed. -/
structure Shifted (δ : String → ℤ) (db db' : Database) : Prop where
  manifests : db'.manifests = db.manifests
  counts : ∀ d, db'.countOf d = db.countOf d + δ d
  sizes : ∀ d row, db.refcounts.find d = some row →
    ∃ row', db'.refcounts.find d = some row' ∧ row'.size = row.size

namespace Shifted

variable {δ δ' : String → ℤ} {db db' db'' : Database} {digest : String} {row : RefcountRow}

theorem refl (h : ∀ d, δ d = 0) : Shifted δ db db :=
  ⟨rfl, fun d ↦ by rw [h, add_zero], fun _ row hr ↦ ⟨row, hr, rfl⟩⟩

theorem trans (h : Shifted δ db db') (h' : Shifted δ' db' db'') {ε : String → ℤ}
    (hε : ∀ d, ε d = δ d + δ' d) : Shifted ε db db'' := by
  refine ⟨h'.manifests.trans h.manifests, fun d ↦ ?_, fun d row hr ↦ ?_⟩
  · rw [h'.counts, h.counts, hε, add_assoc]
  · obtain ⟨row', hr', hs⟩ := h.sizes d row hr
    obtain ⟨row'', hr'', hs'⟩ := h'.sizes d row' hr'
    exact ⟨row'', hr'', hs'.trans hs⟩

theorem setRefcount (hδ : ∀ d, δ d = if d = digest then row.count.val - db.countOf digest else 0)
    (hs : ∀ old, db.refcounts.find digest = some old → row.size = old.size) :
    Shifted δ db (db.setRefcount digest row) := by
  refine ⟨rfl, fun d ↦ ?_, fun d old hold ↦ ?_⟩
  · rw [Database.countOf_setRefcount, hδ]
    split
    · rename_i hd
      rw [hd]
      omega
    · rw [add_zero]
  · rw [Database.setRefcount, Table.find_set]
    split
    · rename_i hd
      exact ⟨row, rfl, hs old (hd ▸ hold)⟩
    · exact ⟨old, hold, rfl⟩

end Shifted

section Statements

variable {db db' : Database} {digest fileId : String} {digests : List String}
  {size fileBytes : Bigint}

/-- What an increment needs: a size that is none below zero, and room for one reference more. -/
theorem run_incrementRefcount (hd : IsText digest) (hs : 0 ≤ size.val)
    (hc : db.countOf digest + 1 < 2 ^ 63) :
    ∃ row, (Statement.incrementRefcount digest size).run db
        = .ok (row.count, db.setRefcount digest row) ∧
      row.count.val = db.countOf digest + 1 ∧
        ∀ old, db.refcounts.find digest = some old → row.size = old.size := by
  rw [Statement.run, textParam_of_isText hd,
    RefcountRow.check_eq_ok (show 0 < (1 : ℤ) by decide) hs]
  cases hf : db.refcounts.find digest with
  | none =>
    refine ⟨⟨⟨1, by decide⟩, size, one_pos, hs⟩, rfl, ?_, fun old hold ↦ by cases hold⟩
    rw [Database.countOf_of_find_none hf, zero_add]
  | some row =>
    rw [Database.countOf_of_find hf] at hc ⊢
    have hpos : 0 < row.count.val + 1 := by
      have := row.count_check
      omega
    have hb := isBigint_of_nonneg hpos.le hc
    refine ⟨⟨⟨row.count.val + 1, hb⟩, row.size, hpos, row.size_check⟩, ?_, rfl, ?_⟩
    · simp only [Bigint.ofExpr_eq_ok hb]
      change (RefcountRow.check _ _ >>= _) = _
      rw [RefcountRow.check_eq_ok hpos row.size_check]
      rfl
    · intro old hold
      cases hold
      rfl

theorem run_of_not_isText {γ : Type} {f : Unit → Except SqlError γ} (hd : ¬IsText digest) :
    (textParam digest >>= f) = .error .nulCharacter := by
  rw [textParam_of_not hd]
  rfl

/-- **An increment** that has not failed: one reference more, which there was room for. -/
theorem shifted_incrementRefcount {n : Bigint}
    (h : (Statement.incrementRefcount digest size).run db = .ok (n, db')) :
    IsText digest ∧ 0 ≤ size.val ∧ db.countOf digest + 1 < 2 ^ 63 ∧
      Shifted (fun d ↦ if d = digest then 1 else 0) db db' := by
  have hd : IsText digest := by
    by_contra hd
    rw [Statement.run, run_of_not_isText hd] at h
    cases h
  have hs : 0 ≤ size.val := by
    by_contra hs
    rw [Statement.run, textParam_of_isText hd,
      RefcountRow.check_of_neg (show 0 < (1 : ℤ) by decide) hs] at h
    cases h
  have hc : db.countOf digest + 1 < 2 ^ 63 := by
    by_contra hc
    rw [Statement.run, textParam_of_isText hd,
      RefcountRow.check_eq_ok (show 0 < (1 : ℤ) by decide) hs] at h
    cases hf : db.refcounts.find digest with
    | none =>
      rw [Database.countOf_of_find_none hf] at hc
      omega
    | some row =>
      rw [Database.countOf_of_find hf] at hc
      simp only [hf, Bigint.ofExpr_of_not (show ¬IsBigint (row.count.val + 1) from fun hb ↦
        hc hb.2)] at h
      cases h
  obtain ⟨row, hrun, hcount, hsize⟩ := run_incrementRefcount hd hs hc
  rw [hrun] at h
  cases h
  refine ⟨hd, hs, hc, Shifted.setRefcount (fun d ↦ ?_) hsize⟩
  rw [hcount, add_sub_cancel_left]

/-- What a decrement needs: a row whose count stays positive. -/
theorem run_decrementRefcount (hd : IsText digest) (hc : 1 < db.countOf digest) :
    ∃ row, (Statement.decrementRefcount digest).run db
        = .ok (some row.count, db.setRefcount digest row) ∧
      row.count.val = db.countOf digest - 1 ∧
        ∀ old, db.refcounts.find digest = some old → row.size = old.size := by
  obtain ⟨row, hf⟩ := Database.find_of_countOf_pos (one_pos.trans hc)
  rw [Database.countOf_of_find hf] at hc ⊢
  have hpos : 0 < row.count.val - 1 := by omega
  have hb : IsBigint (row.count.val - 1) := by
    have hlt := row.count.isBigint.2
    exact isBigint_of_nonneg hpos.le (by omega)
  refine ⟨⟨⟨row.count.val - 1, hb⟩, row.size, hpos, row.size_check⟩, ?_, rfl, ?_⟩
  · rw [Statement.run, textParam_of_isText hd]
    simp only [hf, Bigint.ofExpr_eq_ok hb]
    change (RefcountRow.check _ _ >>= _) = _
    rw [RefcountRow.check_eq_ok hpos row.size_check]
    rfl
  · intro old hold
    rw [hf] at hold
    cases hold
    rfl

/-- **A decrement** that has found a row: the constraint has kept the count positive. -/
theorem shifted_decrementRefcount {n : Bigint}
    (h : (Statement.decrementRefcount digest).run db = .ok (some n, db')) :
    IsText digest ∧ 1 < db.countOf digest ∧ n.val = db.countOf digest - 1 ∧
      Shifted (fun d ↦ if d = digest then -1 else 0) db db' := by
  have hd : IsText digest := by
    by_contra hd
    rw [Statement.run, run_of_not_isText hd] at h
    cases h
  have hc : 1 < db.countOf digest := by
    by_contra hc
    rw [Statement.run, textParam_of_isText hd] at h
    cases hf : db.refcounts.find digest with
    | none =>
      simp only [hf] at h
      cases h
    | some row =>
      rw [Database.countOf_of_find hf] at hc
      have hpos := row.count_check
      have hlt := row.count.isBigint.2
      have hb : IsBigint (row.count.val - 1) := ⟨by omega, by omega⟩
      simp only [hf, Bigint.ofExpr_eq_ok hb] at h
      change (RefcountRow.check _ _ >>= _) = _ at h
      rw [RefcountRow.check_of_not_pos (show ¬0 < row.count.val - 1 by omega)] at h
      cases h
  obtain ⟨row, hrun, hcount, hsize⟩ := run_decrementRefcount hd hc
  rw [hrun] at h
  cases h
  refine ⟨hd, hc, hcount, Shifted.setRefcount (fun d ↦ ?_) hsize⟩
  rw [hcount, sub_sub_cancel_left]

end Statements

namespace PostgresMetadata

variable {pg : PostgresMetadata} {db db' : Database} {what digest fileId : String}
  {digests newDigests : List String} {γ : Type} {st : Statement γ} {r : γ}

theorem execSql_statement (h : st.run db = .ok (r, db')) :
    execSql (pg.statement what st) db = (.ok r, db') := by
  have hreq : execSql (ExceptT.lift (Program.request (Sql.run st))) db = (.ok (.ok r), db') := by
    simp only [execSql, ExceptT.run_lift, map_eq_pure_bind, Program.request_bind, Handler.eval,
      sqlHandler, h]
    rfl
  rw [statement, execSql_bind_ok hreq]
  rfl

private theorem execSql_statement_error {e : SqlError} (h : st.run db = .error e) :
    execSql (pg.statement what st) db
      = (.error (.backendError s!"postgres {what}: {pg.display e}"), db) := by
  have hreq : execSql (ExceptT.lift (Program.request (Sql.run st))) db
      = (.ok (.error e), db) := by
    simp only [execSql, ExceptT.run_lift, map_eq_pure_bind, Program.request_bind, Handler.eval,
      sqlHandler, h]
    rfl
  rw [statement, execSql_bind_ok hreq]
  rfl

theorem run_of_execSql_statement (h : execSql (pg.statement what st) db = (.ok r, db')) :
    st.run db = .ok (r, db') := by
  cases hrun : st.run db with
  | ok x =>
    rw [execSql_statement (show st.run db = .ok (x.1, x.2) from hrun)] at h
    cases h
    rfl
  | error e =>
    rw [execSql_statement_error hrun] at h
    cases h

private theorem count_cons_int (d digest : String) (digests : List String) :
    ((digest :: digests).count d : ℤ) = (if d = digest then 1 else 0) + digests.count d := by
  rw [List.count_cons]
  by_cases hd : d = digest
  · rw [if_pos hd, hd, beq_self_eq_true, if_pos rfl]
    push_cast
    exact add_comm _ _
  · rw [if_neg hd, if_neg (by simpa using fun h : digest = d ↦ hd h.symm), add_zero, zero_add]

/-! ### Increments -/

/-- Every digest of a list is a text with room for its references in the list, and every size is
none below zero once it is cast. -/
def TakesAll (db : Database) (l : List (String × ℕ)) : Prop :=
  ∀ e ∈ l, IsText e.1 ∧ 0 ≤ (Bigint.ofU64 e.2).val ∧
    db.countOf e.1 + (l.map Prod.fst).count e.1 < 2 ^ 63

instance (db : Database) (l : List (String × ℕ)) : Decidable (TakesAll db l) :=
  inferInstanceAs (Decidable (∀ e ∈ l, _))

theorem takesAll_nil (db : Database) : TakesAll db [] := fun _ he ↦ absurd he List.not_mem_nil

theorem takesAll_cons {e : String × ℕ} {l : List (String × ℕ)} {db₁ : Database} (ht : IsText e.1)
    (hz : 0 ≤ (Bigint.ofU64 e.2).val) (hc : db.countOf e.1 + 1 < 2 ^ 63)
    (hs : Shifted (fun d ↦ if d = e.1 then 1 else 0) db db₁) :
    TakesAll db (e :: l) ↔ TakesAll db₁ l := by
  have hsum : ∀ d, db.countOf d + ((e :: l).map Prod.fst).count d
      = db₁.countOf d + (l.map Prod.fst).count d := fun d ↦ by
    rw [hs.counts, List.map_cons, count_cons_int, add_assoc]
  constructor
  · intro h x hx
    obtain ⟨hxt, hxz, hxc⟩ := h x (List.mem_cons_of_mem e hx)
    exact ⟨hxt, hxz, hsum x.1 ▸ hxc⟩
  · intro h x hx
    rcases List.mem_cons.mp hx with rfl | hx
    · refine ⟨ht, hz, ?_⟩
      rw [hsum]
      by_cases hin : x.1 ∈ l.map Prod.fst
      · -- the digest comes again
        obtain ⟨y, hy, hyx⟩ := List.mem_map.mp hin
        exact hyx ▸ (h y hy).2.2
      · rw [List.count_eq_zero_of_not_mem hin, hs.counts, if_pos rfl]
        push_cast
        omega
    · obtain ⟨hxt, hxz, hxc⟩ := h x hx
      exact ⟨hxt, hxz, (hsum x.1).trans_lt hxc⟩

/-- **The new digests counted.** There was room for all of them. -/
theorem incrementAll_eq_ok (l : List (String × ℕ))
    (h : execSql (pg.incrementAll l) db = (.ok (), db')) :
    TakesAll db l ∧ Shifted (fun d ↦ ((l.map Prod.fst).count d : ℤ)) db db' := by
  induction l generalizing db with
  | nil =>
    cases h
    exact ⟨takesAll_nil _, Shifted.refl fun _ ↦ rfl⟩
  | cons e l ih =>
    obtain ⟨n, db₁, h₁, h₂⟩ := execSql_bind_eq_ok h
    obtain ⟨m, db₂, h₃, h₄⟩ := execSql_bind_eq_ok h₁
    cases h₄
    obtain ⟨ht, hz, hc, hs⟩ := shifted_incrementRefcount (run_of_execSql_statement h₃)
    obtain ⟨htakes, hs'⟩ := ih h₂
    refine ⟨(takesAll_cons ht hz hc hs).mpr htakes, hs.trans hs' fun d ↦ ?_⟩
    rw [List.map_cons, count_cons_int]

theorem execSql_incrementAll (pg : PostgresMetadata) {l : List (String × ℕ)} {db : Database}
    (h : TakesAll db l) :
    ∃ db', execSql (pg.incrementAll l) db = (.ok (), db') := by
  induction l generalizing db with
  | nil => exact ⟨db, rfl⟩
  | cons e l ih =>
    obtain ⟨ht, hz, hlt⟩ := h e List.mem_cons_self
    rw [List.map_cons, List.count_cons_self] at hlt
    have hc : db.countOf e.1 + 1 < 2 ^ 63 := by
      push_cast at hlt
      omega
    obtain ⟨row, hrun, -, -⟩ := run_incrementRefcount ht hz hc
    have hone : execSql (pg.incrementRefcount e.1 e.2) db
        = (.ok row.count.toU64, db.setRefcount e.1 row) := by
      rw [incrementRefcount, execSql_bind_ok (execSql_statement hrun)]
      rfl
    obtain ⟨-, -, -, hs⟩ := shifted_incrementRefcount hrun
    obtain ⟨db', hrest⟩ := ih ((takesAll_cons ht hz hc hs).mp h)
    exact ⟨db', (execSql_bind_ok hone).trans hrest⟩

/-! ### Decrements -/

/-- Every digest of a list can be given up that often with its count staying positive. -/
def Spared (db : Database) (digests : List String) : Prop :=
  ∀ d ∈ digests, IsText d ∧ (digests.count d : ℤ) < db.countOf d

theorem decrementRefcount_eq_ok {n : ℕ}
    (h : execSql (pg.decrementRefcount digest) db = (.ok n, db')) :
    n ≠ 0 ∧ IsText digest ∧ 1 < db.countOf digest ∧
      Shifted (fun d ↦ if d = digest then -1 else 0) db db' := by
  obtain ⟨o, db₁, h₁, h₂⟩ := execSql_bind_eq_ok h
  have hrun := run_of_execSql_statement h₁
  cases o with
  | none => cases h₂
  | some remaining =>
    obtain ⟨hd, hc, hn, hs⟩ := shifted_decrementRefcount hrun
    dsimp only at h₂
    rw [if_neg (by omega)] at h₂
    cases h₂
    exact ⟨(Bigint.toU64_pos (by omega)).ne', hd, hc, hs⟩

theorem spared_cons {db₁ : Database} (hd : IsText digest) (hc : 1 < db.countOf digest)
    (hs : Shifted (fun d ↦ if d = digest then -1 else 0) db db₁) :
    Spared db (digest :: digests) ↔ Spared db₁ digests := by
  have hcount : ∀ d, ((digest :: digests).count d : ℤ) < db.countOf d
      ↔ (digests.count d : ℤ) < db₁.countOf d := fun d ↦ by
    rw [count_cons_int, hs.counts]
    split <;> omega
  constructor
  · intro h d hmem
    obtain ⟨ht, hlt⟩ := h d (List.mem_cons_of_mem _ hmem)
    exact ⟨ht, (hcount d).mp hlt⟩
  · intro h d hmem
    by_cases hin : d ∈ digests
    · obtain ⟨ht, hlt⟩ := h d hin
      exact ⟨ht, (hcount d).mpr hlt⟩
    · -- it comes once
      obtain rfl := (List.mem_cons.mp hmem).resolve_right hin
      rw [List.count_cons_self, List.count_eq_zero_of_not_mem hin]
      exact ⟨hd, hc⟩

/-- **The old digests given up.** None of them has reached zero, so none is to be collected. -/
theorem decrementAll_eq_ok {gc : List String}
    (h : execSql (pg.decrementAll digests) db = (.ok gc, db')) :
    gc = [] ∧ Spared db digests ∧ Shifted (fun d ↦ -(digests.count d : ℤ)) db db' := by
  induction digests generalizing db gc with
  | nil =>
    cases h
    exact ⟨rfl, fun _ hd ↦ absurd hd List.not_mem_nil, Shifted.refl fun _ ↦ rfl⟩
  | cons digest digests ih =>
    obtain ⟨n, db₁, h₁, h₂⟩ := execSql_bind_eq_ok h
    obtain ⟨gc', db₂, h₃, h₄⟩ := execSql_bind_eq_ok h₂
    cases h₄
    obtain ⟨hn, hd, hc, hs⟩ := decrementRefcount_eq_ok h₁
    obtain ⟨rfl, hspared, hs'⟩ := ih h₃
    refine ⟨if_neg hn, (spared_cons hd hc hs).mpr hspared, hs.trans hs' fun d ↦ ?_⟩
    rw [count_cons_int]
    split <;> omega

theorem execSql_decrementAll (pg : PostgresMetadata) (h : Spared db digests) :
    ∃ db', execSql (pg.decrementAll digests) db = (.ok [], db') := by
  induction digests generalizing db with
  | nil => exact ⟨db, rfl⟩
  | cons digest digests ih =>
    obtain ⟨hd, hlt⟩ := h digest List.mem_cons_self
    rw [List.count_cons_self] at hlt
    have hc : 1 < db.countOf digest := by
      push_cast at hlt
      omega
    obtain ⟨row, hrun, -, -⟩ := run_decrementRefcount hd hc
    have hdec : execSql (pg.decrementRefcount digest) db
        = (.ok row.count.toU64, db.setRefcount digest row) := by
      rw [decrementRefcount, execSql_bind_ok (execSql_statement hrun)]
      dsimp only
      rw [if_neg (not_le.mpr row.count_check)]
      rfl
    obtain ⟨hn, -, -, hs⟩ := decrementRefcount_eq_ok hdec
    obtain ⟨db', hrest⟩ := ih ((spared_cons hd hc hs).mp h)
    refine ⟨db', ?_⟩
    rw [decrementAll, execSql_bind_ok hdec, execSql_bind_ok hrest, if_neg hn]
    rfl

/-! ### Transactions as a whole -/

/-- What a committed transaction has done, to the manifests and to the counts, with the digests it
has taken on and those it has given up. -/
structure Committed (rows : Table String ManifestRow) (taken given : List String)
    (db db' : Database) : Prop where
  manifests : db'.manifests = rows
  counts : ∀ d, db'.countOf d = db.countOf d + taken.count d - given.count d
  sizes : ∀ d row, db.refcounts.find d = some row →
    ∃ row', db'.refcounts.find d = some row' ∧ row'.size = row.size
  spared : ∀ d ∈ given, IsText d ∧ (given.count d : ℤ) < db.countOf d + taken.count d

/-- Increments, a write to the manifests, decrements. -/
theorem Committed.of_shifted {db₁ : Database} {rows : Table String ManifestRow}
    {taken given : List String} (h : Shifted (fun d ↦ (taken.count d : ℤ)) db db₁)
    (h' : Shifted (fun d ↦ -(given.count d : ℤ)) ⟨rows, db₁.refcounts⟩ db')
    (hs : Spared ⟨rows, db₁.refcounts⟩ given) : Committed rows taken given db db' := by
  have hcount : ∀ d, (Database.mk rows db₁.refcounts).countOf d = db.countOf d + taken.count d :=
    h.counts
  refine ⟨h'.manifests, fun d ↦ ?_, fun d row hrow ↦ ?_, fun d hd ↦ ?_⟩
  · rw [h'.counts, hcount]
    omega
  · obtain ⟨row₁, hrow₁, hs₁⟩ := h.sizes d row hrow
    obtain ⟨row₂, hrow₂, hs₂⟩ := h'.sizes d row₁ hrow₁
    exact ⟨row₂, hrow₂, hs₂.trans hs₁⟩
  · rw [← hcount]
    exact hs d hd

private theorem run_upsertManifest {fileBytes : Bigint} {u : Unit}
    (h : (Statement.upsertManifest fileId digests fileBytes).run db = .ok (u, db')) :
    IsText fileId ∧
      db' = { db with manifests := db.manifests.set fileId ⟨.ok digests, fileBytes⟩ } := by
  by_cases hf : IsText fileId
  · rw [Statement.run, textParam_of_isText hf] at h
    cases hd : digests.forM textParam with
    | ok v =>
      simp only [hd] at h
      cases h
      exact ⟨hf, rfl⟩
    | error e =>
      simp only [hd] at h
      cases h
  · rw [Statement.run, run_of_not_isText hf] at h
    cases h

private theorem forM_textParam (h : ∀ d ∈ digests, IsText d) : digests.forM textParam = .ok () := by
  induction digests with
  | nil => rfl
  | cons d digests ih =>
    rw [List.forM_eq_forM, List.forM_cons, textParam_of_isText (h d List.mem_cons_self)]
    exact ih fun e he ↦ h e (List.mem_cons_of_mem d he)

variable {sizes : List ℕ} {fileBytes : ℕ} {old : Option (List String)} {gc : List String}

/-- **A committed ingest.** -/
theorem commitIngest_eq_ok
    (h : execSql (pg.commitIngest fileId newDigests fileBytes sizes old) db = (.ok gc, db')) :
    gc = [] ∧ IsText fileId ∧ TakesAll db (newDigests.zip sizes) ∧
      Committed (db.manifests.set fileId ⟨.ok newDigests, .ofU64 fileBytes⟩) newDigests
        (old.getD []) db db' := by
  unfold commitIngest at h
  by_cases hl : newDigests.length = sizes.length
  · rw [if_neg (not_not.mpr hl)] at h
    obtain ⟨_, db₁, h₁, h⟩ := execSql_bind_eq_ok h
    obtain ⟨_, db₂, h₂, h⟩ := execSql_bind_eq_ok h
    obtain ⟨htakes, hs⟩ := incrementAll_eq_ok _ h₁
    rw [List.map_fst_zip hl.le] at hs
    obtain ⟨hf, rfl⟩ := run_upsertManifest (run_of_execSql_statement h₂)
    rw [← hs.manifests]
    cases old with
    | none =>
      cases h
      exact ⟨rfl, hf, htakes, .of_shifted hs (.refl fun _ ↦ rfl) fun _ hd ↦
        absurd hd List.not_mem_nil⟩
    | some old =>
      obtain ⟨rfl, hspared, hs'⟩ := decrementAll_eq_ok h
      exact ⟨rfl, hf, htakes, .of_shifted hs hs' hspared⟩
  · rw [if_pos hl] at h
    cases h

theorem execSql_commitIngest (pg : PostgresMetadata) (fileBytes : ℕ)
    (hl : newDigests.length = sizes.length) (hf : IsText fileId)
    (hd : TakesAll db (newDigests.zip sizes))
    (hs : ∀ d ∈ old.getD [], IsText d ∧
      ((old.getD []).count d : ℤ) < db.countOf d + newDigests.count d) :
    ∃ db', execSql (pg.commitIngest fileId newDigests fileBytes sizes old) db = (.ok [], db') := by
  obtain ⟨db₁, h₁⟩ := execSql_incrementAll pg hd
  have hcount := (incrementAll_eq_ok _ h₁).2.counts
  rw [List.map_fst_zip hl.le] at hcount
  have htext : ∀ d ∈ newDigests, IsText d := fun d hmem ↦ by
    rw [← List.map_fst_zip hl.le] at hmem
    obtain ⟨e, he, rfl⟩ := List.mem_map.mp hmem
    exact (hd e he).1
  have hrun : (Statement.upsertManifest fileId newDigests (.ofU64 fileBytes)).run db₁
      = .ok ((), { db₁ with
          manifests := db₁.manifests.set fileId ⟨.ok newDigests, .ofU64 fileBytes⟩ }) := by
    rw [Statement.run, textParam_of_isText hf]
    simp only [forM_textParam htext]
    rfl
  have hspared : Spared { db₁ with
      manifests := db₁.manifests.set fileId ⟨.ok newDigests, .ofU64 fileBytes⟩ }
      (old.getD []) := by
    intro d hmem
    obtain ⟨ht, hlt⟩ := hs d hmem
    exact ⟨ht, hlt.trans_eq (hcount d).symm⟩
  unfold commitIngest
  rw [if_neg (not_not.mpr hl)]
  cases old with
  | none =>
    exact ⟨_, (execSql_bind_ok h₁).trans (execSql_bind_ok (execSql_statement hrun))⟩
  | some old =>
    obtain ⟨db', h'⟩ := execSql_decrementAll pg hspared
    exact ⟨db', (execSql_bind_ok h₁).trans ((execSql_bind_ok (execSql_statement hrun)).trans h')⟩

/-- **A committed delete.** -/
theorem commitDelete_eq_ok (h : execSql (pg.commitDelete fileId digests) db = (.ok gc, db')) :
    gc = [] ∧ IsText fileId ∧ Committed (db.manifests.unset fileId) [] digests db db' := by
  obtain ⟨_, db₁, h₁, h⟩ := execSql_bind_eq_ok h
  have hrun := run_of_execSql_statement h₁
  have hf : IsText fileId := by
    by_contra hf
    rw [Statement.run, run_of_not_isText hf] at hrun
    cases hrun
  rw [Statement.run, textParam_of_isText hf] at hrun
  cases hrun
  obtain ⟨rfl, hspared, hs'⟩ := decrementAll_eq_ok h
  have hstart : Shifted (fun d ↦ (([] : List String).count d : ℤ)) db db := .refl fun _ ↦ rfl
  exact ⟨rfl, hf, .of_shifted hstart hs' hspared⟩

theorem execSql_commitDelete (pg : PostgresMetadata) (hf : IsText fileId) (hs : Spared db digests) :
    ∃ db', execSql (pg.commitDelete fileId digests) db = (.ok [], db') := by
  have hrun : (Statement.deleteManifest fileId).run db
      = .ok ((), { db with manifests := db.manifests.unset fileId }) := by
    rw [Statement.run, textParam_of_isText hf]
    rfl
  obtain ⟨db', h'⟩ := execSql_decrementAll pg
    (show Spared { db with manifests := db.manifests.unset fileId } digests from hs)
  exact ⟨db', (execSql_bind_ok (execSql_statement hrun)).trans h'⟩

end PostgresMetadata

end Chunkstore

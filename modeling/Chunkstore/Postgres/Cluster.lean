import Chunkstore.Effects.Threads
import Chunkstore.Postgres.Failures

/-!
# Many nodes on one database

Nodes share the backend and the database, and each has the fields of its own instance. A thread runs
operations on one node; a step is a block of its own, a query or a whole transaction.

A transaction lowers the counts of a list of digests that was looked up by an earlier query. The
counts stay those of the rows as long as the list is still that of the row, `Transaction.Current`.

## Main result

`Cluster.counts_exact`: in a run whose committed transactions are all current, the counts are those
of the rows in every state; a committed transaction that is not current leaves them otherwise.
-/

open Effects Program

namespace Chunkstore

open PostgresMetadata (Committed TakesAll)

/-! ## Counts and rows -/

namespace Database

/-- The counts are the occurrences over the rows. -/
def Exact (db : Database) : Prop := ∀ d, db.countOf d = db.occurrences d

/-- The digests a row lists; none when there is no row. -/
def digestsOf (db : Database) (fileId : String) : List String :=
  (db.listOf fileId).toOption.getD []

variable {db db' : Database} {fileId : String}

private theorem count_digestsOf (db : Database) (fileId d : String) :
    ((db.manifests.find fileId).map fun row ↦ (row.digests.toOption.getD []).count d).getD 0
      = (db.digestsOf fileId).count d := by
  rw [digestsOf, listOf]
  cases db.manifests.find fileId <;> rfl

theorem occurrences_set {l : List String} {fileBytes : Bigint}
    (hm : db'.manifests = db.manifests.set fileId ⟨.ok l, fileBytes⟩) (d : String) :
    db'.occurrences d + (db.digestsOf fileId).count d = db.occurrences d + l.count d := by
  have hsum := Table.sumBy_set (fun row : ManifestRow ↦ (row.digests.toOption.getD []).count d)
    db.manifests fileId ⟨.ok l, fileBytes⟩
  rw [← hm, count_digestsOf] at hsum
  exact hsum

theorem occurrences_unset (hm : db'.manifests = db.manifests.unset fileId) (d : String) :
    db'.occurrences d + (db.digestsOf fileId).count d = db.occurrences d := by
  have hsum := Table.sumBy_unset (fun row : ManifestRow ↦ (row.digests.toOption.getD []).count d)
    db.manifests fileId
  rw [← hm, count_digestsOf] at hsum
  exact hsum

theorem exact_empty : empty.Exact := fun _ ↦ rfl

end Database

/-! ## Transactions that are current -/

namespace Transaction

/-- The list to be given up is the one of the row, in any order. -/
def Current {γ : Type} : Transaction γ → Database → Prop
  | .commitIngest fileId _ _ _ oldDigests, db => (oldDigests.getD []).Perm (db.digestsOf fileId)
  | .commitDelete fileId digests, db => digests.Perm (db.digestsOf fileId)

instance {γ : Type} (t : Transaction γ) (db : Database) : Decidable (t.Current db) :=
  match t with
  | .commitIngest fileId _ _ _ oldDigests =>
    inferInstanceAs (Decidable ((oldDigests.getD []).Perm (db.digestsOf fileId)))
  | .commitDelete fileId digests =>
    inferInstanceAs (Decidable (digests.Perm (db.digestsOf fileId)))

/-- There is room for the new references, and no digest to be given up would be left without one,
which the table does not admit. -/
def Spares {γ : Type} : Transaction γ → Database → Prop
  | .commitIngest _ newDigests _ sizes oldDigests, db =>
    TakesAll db (newDigests.zip sizes) ∧ db.Fits newDigests (oldDigests.getD [])
  | .commitDelete _ digests, db => db.Fits [] digests

instance {γ : Type} (t : Transaction γ) (db : Database) : Decidable (t.Spares db) :=
  match t with
  | .commitIngest _ newDigests _ sizes oldDigests =>
    inferInstanceAs (Decidable
      (TakesAll db (newDigests.zip sizes) ∧ db.Fits newDigests (oldDigests.getD [])))
  | .commitDelete _ digests => inferInstanceAs (Decidable (db.Fits [] digests))

/-- A transaction that would commit is current. -/
def Guarded {γ : Type} (t : Transaction γ) (db : Database) : Prop := t.Spares db → t.Current db

instance {γ : Type} (t : Transaction γ) (db : Database) : Decidable (t.Guarded db) :=
  inferInstanceAs (Decidable (t.Spares db → t.Current db))

variable {γ : Type} {pg : PostgresMetadata} {db db' : Database} {t : Transaction γ} {a : γ}

/-- What a committed transaction does to the counts and to the rows. -/
theorem counts_of_commit (h : transact (pg.body t) db = (.ok a, db')) :
    t.Spares db ∧ ∃ taken given : List String, ∃ fileId,
      (∀ d, db'.countOf d = db.countOf d + taken.count d - given.count d) ∧
      (∀ d, db'.occurrences d + (db.digestsOf fileId).count d = db.occurrences d + taken.count d) ∧
      (t.Current db ↔ given.Perm (db.digestsOf fileId)) := by
  have hx := transact_eq_ok h
  cases t with
  | commitIngest fileId newDigests fileBytes sizes oldDigests =>
    obtain ⟨-, -, htakes, hc⟩ := PostgresMetadata.commitIngest_eq_ok hx
    exact ⟨⟨htakes, hc.spared⟩, newDigests, oldDigests.getD [], fileId, hc.counts,
      Database.occurrences_set hc.manifests, Iff.rfl⟩
  | commitDelete fileId digests =>
    obtain ⟨-, -, hc⟩ := PostgresMetadata.commitDelete_eq_ok hx
    refine ⟨hc.spared, [], digests, fileId, hc.counts, fun d ↦ ?_, Iff.rfl⟩
    rw [Database.occurrences_unset hc.manifests]
    rfl

/-- **A committed transaction** leaves counts that are those of the rows exactly when it is
current. -/
theorem exact_iff_current (hdb : db.Exact) (h : transact (pg.body t) db = (.ok a, db')) :
    db'.Exact ↔ t.Current db := by
  obtain ⟨-, taken, given, fileId, hcount, hocc, hcur⟩ := counts_of_commit h
  rw [hcur, List.perm_iff_count]
  refine forall_congr' fun d ↦ ?_
  have hc := hcount d
  have ho := hocc d
  rw [hdb d] at hc
  rw [hc]
  omega

/-- A transaction that is guarded keeps the counts those of the rows, committed or not. -/
theorem exact_of_guarded (hdb : db.Exact) (ht : t.Guarded db) :
    (transact (pg.body t) db).2.Exact := by
  rcases hx : transact (pg.body t) db with ⟨r, db'⟩
  cases r with
  | ok a => exact (exact_iff_current hdb hx).mpr (ht (counts_of_commit hx).1)
  | error e =>
    rw [transact_eq_error hx]
    exact hdb

end Transaction

/-! ## The cluster -/

/-- What a thread does in one step, and on which node. -/
inductive ClusterBlock : Type → Type 1
  | onNode {γ : Type} (node : ℕ) (b : NodeBlock γ) : ClusterBlock γ

/-- The backend and the database that all nodes share, and the fields of each node. -/
structure Cluster where
  backend : Backend
  database : Database
  fields : ℕ → Fields

namespace Cluster

/-- What a node sees of the cluster. -/
def view (c : Cluster) (node : ℕ) : Node := ⟨⟨c.backend, c.fields node⟩, c.database⟩

/-- The cluster after a step of a node. -/
def update (c : Cluster) (node : ℕ) (n : Node) : Cluster :=
  ⟨n.store.backend, n.database, Function.update c.fields node n.store.fields⟩

/-- The fault-free world of the cluster. -/
def handler (pg : PostgresMetadata) : Handler ClusterBlock Cluster where
  handle
    | .onNode node b, c =>
      (((nodeHandler pg).handle b (c.view node)).1,
        c.update node ((nodeHandler pg).handle b (c.view node)).2)

/-- A thread on a node, which runs operations until one fails. -/
def thread (self : PostgresStore) (node : ℕ) (ops : List ChunkStore.Op) :
    Program ClusterBlock (Except ChunkStoreError (List ChunkStore.Reply)) :=
  (ops.mapM self.perform).run.translate fun b ↦ Program.request (.onNode node b)

/-- The threads of all nodes. -/
def threads (self : PostgresStore) (work : List (ℕ × List ChunkStore.Op)) :
    Pool ClusterBlock (Except ChunkStoreError (List ChunkStore.Reply)) :=
  work.map fun w ↦ thread self w.1 w.2

/-- A block that is not a transaction, or a transaction that is current if it would commit. -/
def GuardedBlock {γ : Type} : NodeBlock γ → Database → Prop
  | .transaction t, db => t.Guarded db
  | _, _ => True

instance {γ : Type} (b : NodeBlock γ) (db : Database) : Decidable (GuardedBlock b db) :=
  match b with
  | .own _ => .isTrue trivial
  | .query _ => .isTrue trivial
  | .transaction t => inferInstanceAs (Decidable (t.Guarded db))

/-- The condition under which a step of the cluster is taken. -/
def Guarded {γ : Type} (c : Cluster) : ClusterBlock γ → Prop
  | .onNode _ b => GuardedBlock b c.database

instance {γ : Type} (c : Cluster) (b : ClusterBlock γ) : Decidable (c.Guarded b) :=
  match b with
  | .onNode _ b => inferInstanceAs (Decidable (GuardedBlock b c.database))

variable {pg : PostgresMetadata} {c : Cluster}

/-- **A step** under the condition keeps the counts those of the rows. -/
theorem exact_step {γ : Type} {b : ClusterBlock γ} (hc : c.database.Exact) (hb : c.Guarded b) :
    ((handler pg).handle b c).2.database.Exact := by
  rcases b with ⟨node, b⟩
  cases b with
  | own b => exact hc
  | query q => exact hc
  | transaction t => exact Transaction.exact_of_guarded hc hb

/-- **No update is lost or made twice** in a run whose committed transactions are all current: from
a database whose counts are those of its rows they are in every state reached, whatever operations
the threads of the nodes run and however their steps interleave. And a transaction that is committed
in such a state leaves such a state exactly when it is current. -/
theorem counts_exact (self : PostgresStore) :
    (∀ (work : List (ℕ × List ChunkStore.Op)) (c : Cluster)
        (c' : Pool ClusterBlock (Except ChunkStoreError (List ChunkStore.Reply)) × Cluster),
      c.database.Exact →
      ((handler self.pg).toMachine.given fun c b ↦ c.Guarded b).PoolSteps
        (threads self work, c) c' → c'.2.database.Exact) ∧
    ∀ {γ : Type} (t : Transaction γ) (db db' : Database) (a : γ), db.Exact →
      transact (self.pg.body t) db = (.ok a, db') → (db'.Exact ↔ t.Current db) := by
  refine ⟨fun work c c' hc hs ↦ ?_, fun t db db' a hdb h ↦ Transaction.exact_iff_current hdb h⟩
  refine hs.invariant (I := fun c ↦ c.database.Exact) (fun e s r s' hi hstep ↦ ?_) hc
  obtain ⟨hg, heq⟩ := hstep
  rw [← show ((handler self.pg).handle e s).2 = s' from congrArg Prod.snd heq]
  exact exact_step hi hg

/-- Two nodes that store the same file at the same time. -/
def sameFile : List (ℕ × List ChunkStore.Op) :=
  [(0, [.ingest "f" (.bytes [0x61])]), (1, [.ingest "f" (.bytes [0x61])])]

def start : Cluster := ⟨⟨∅, true⟩, .empty, fun _ ↦ .empty⟩

/-- One node looks up the list of the file after the other has committed. -/
theorem counts_exact_serial :
    ((handler PostgresStore.small.pg).schedule [0, 1, 0, 0, 1, 1, 0, 1]
      (threads PostgresStore.small sameFile, start)).2.database.Exact :=
  (counts_exact PostgresStore.small).1 sameFile start _ Database.exact_empty
    (by
      have hadmits : (handler PostgresStore.small.pg).admits
          (fun c b ↦ decide (c.Guarded b)) [0, 1, 0, 0, 1, 1, 0, 1]
          (threads PostgresStore.small sameFile, start) = true := by decide +kernel
      have hsteps := Handler.schedule_steps hadmits
      simpa only [decide_eq_true_eq] using hsteps)

/-- Both nodes look up the list of the file before either commits: neither gives up what the other
has taken on, and a reference stays that no row has. -/
theorem counts_lost : ¬∀ (self : PostgresStore) (work : List (ℕ × List ChunkStore.Op)) (c : Cluster)
    (c' : Pool ClusterBlock (Except ChunkStoreError (List ChunkStore.Reply)) × Cluster),
    c.database.Exact → (handler self.pg).toMachine.PoolSteps (threads self work, c) c' →
      c'.2.database.Exact := by
  intro h
  have hexact := h PostgresStore.small sameFile start _ Database.exact_empty
    (Handler.schedule_poolSteps [0, 1, 0, 1, 0, 1, 0, 1] _)
  have hcount := hexact (digestHex smallCrates.sha256 [0x61])
  revert hcount
  decide +kernel

end Cluster

end Chunkstore

import Chunkstore.Exact.Synced
import Chunkstore.Postgres.Metadata

/-!
# A store opened with `open_postgres`

The branches of the store's operations on a shared database (`store/mod.rs` with the feature
`postgres`). Blobs stay on the backend and the manifests and counts are rows; the fields behind the
instance's locks are still there, loaded on opening. Such a store has no codec.

An ingest variant runs its session over the chunks of its input here as well, with this store's
`accept` and `commit`.
-/

open Effects Program

namespace Chunkstore

/-- The immutable part of an instance opened with `open_postgres`. -/
structure PostgresStore where
  crates : Crates
  pg : PostgresMetadata

/-- Code of an instance that leaves the database alone. -/
def own {α : Type} (p : StoreM α) : NodeM α :=
  ExceptT.mk (p.run.translate fun b ↦ Program.request (.own b))

namespace PostgresStore

variable (self : PostgresStore)

def store : ChunkStore := ⟨self.crates, none⟩

/-! ## Opening -/

def rebuildStats : NodeM Unit := do
  let stats ← self.pg.computeStats
  own (locked .stats (field (.statsReplace stats)))

/-- `ChunkStore::open_postgres`, on a database that has its tables. -/
def openPostgres : NodeM Unit := do
  let manifest ← self.pg.loadManifests
  let refcount ← self.pg.loadRefcounts
  own (unlocked (field (.construct manifest refcount)))
  self.rebuildStats

/-! ## Ingest -/

def storeChunk (digest : String) (data : Bytes) : NodeM Bool := do
  let blob ← ofExcept (self.store.encodeBlob data)
  own (locked .blob (ChunkStore.putBlob digest blob))

/-- `IngestSession::accept`. -/
def accept (session : ChunkStore.IngestSession) (chunk : Bytes) :
    NodeM ChunkStore.IngestSession := do
  let digest := digestHex self.crates.sha256 chunk
  let _ ← self.storeChunk digest chunk
  return ⟨session.digests ++ [digest], session.sizes ++ [chunk.length],
    session.fileBytes + chunk.length⟩

def peekDigests (fileId : String) : NodeM (Option (List String)) :=
  self.pg.manifestDigests fileId

/-- A transaction as a request. -/
def transaction {γ : Type} (t : Transaction γ) : NodeM γ :=
  ExceptT.mk (Program.request (.transaction t))

/-- Delete the blobs of collected digests. -/
def unlinkEach : List String → StoreM Unit
  | [] => return ()
  | digest :: gc => do
    unlocked (backendCall (.delete digest))
    unlinkEach gc

/-- `IngestSession::commit`. The manifest in memory checks the file id, after the transaction. -/
def commit (session : ChunkStore.IngestSession) (fileId : String) : NodeM (List String) := do
  let old ← self.peekDigests fileId
  let gc ← transaction
    (.commitIngest fileId session.digests session.fileBytes session.sizes old)
  own (unlinkEach gc)
  own (locked .manifest
    (fieldOrThrow (.manifestInsert fileId session.digests session.fileBytes)))
  return session.digests

/-- The session over a stream. -/
def ingestStream (fileId : String) (stream : Stream) : NodeM (List String) := do
  let session ← stream.consume self.accept ChunkStore.IngestSession.new
  self.commit session fileId

def ingestInput (fileId : String) (input : ChunkStore.IngestInput) : NodeM (List String) :=
  self.ingestStream fileId (input.stream self.crates)

/-! ## Reading -/

def digestsForFile (fileId : String) : NodeM (List String) := do
  match ← self.pg.manifestDigests fileId with
  | some digests => return digests
  | none => throw (.notFound s!"file {fileId}")

def read (fileId : String) : NodeM Bytes := do
  let digests ← self.digestsForFile fileId
  own (ExceptT.mk do
    let r ← self.store.writeChunks digests .vec
    return r.1.map fun _ ↦ r.2.out)

/-! ## Deleting -/

/-- The result of removing the file from the manifest in memory is ignored. -/
def delete (fileId : String) : NodeM Unit := do
  let digests ← self.digestsForFile fileId
  let gc ← transaction (.commitDelete fileId digests)
  own (unlinkEach gc)
  let _ ← own (locked .manifest (field (.manifestRemove fileId)))

/-! ## Inspection -/

def stats : NodeM Stats := self.pg.computeStats

/-- The count in memory, as in a store without a database. -/
def chunkRefcount (digest : String) : NodeM (Option ℕ) := own (ChunkStore.chunkRefcount digest)

/-- Scan blob keys against the counted digests. -/
def fsck (repair : Bool) : NodeM FsckReport := do
  let refs ← self.pg.listRefcounts
  let live := refs.map Prod.fst
  let missing ← own (ChunkStore.missingBlobs live)
  let orphans ← own (unlocked (collectOrphans live))
  if repair then
    let repaired ← own (ChunkStore.unlinkAll orphans)
    return ⟨missing, orphans, repaired⟩
  else
    return ⟨missing, orphans, 0⟩

def perform : ChunkStore.Op → NodeM ChunkStore.Reply
  | .ingest fileId input => .digests <$> self.ingestInput fileId input
  | .delete fileId => (fun _ ↦ .done) <$> self.delete fileId
  | .read fileId => .bytes <$> self.read fileId
  | .readChunk digest => .bytes <$> own (self.store.readChunk digest)
  | .fsck repair => .report <$> self.fsck repair
  | .stats => .stats <$> self.stats
  | .chunkRefcount digest => .count <$> chunkRefcount digest
  | .reopen => (fun _ ↦ .done) <$> self.openPostgres

end PostgresStore

/-! ## One node -/

/-- The backend and the fields of one node, and the database. -/
structure Node where
  store : State
  database : Database

/-- The fault-free world of one node. -/
def nodeHandler (pg : PostgresMetadata) : Handler NodeBlock Node where
  handle
    | .own b, n =>
      ((blockHandler.handle b n.store).1, ⟨(blockHandler.handle b n.store).2, n.database⟩)
    | .query q, n => (q.run n.database, n)
    | .transaction t, n =>
      ((transact (pg.body t) n.database).1, ⟨n.store, (transact (pg.body t) n.database).2⟩)

/-- With one node at work, `p` returns into `Q` or throws into `R`. -/
def solo {α : Type} (pg : PostgresMetadata) (p : NodeM α) (Q : α → Node → Prop)
    (R : ChunkStoreError → Node → Prop) (n : Node) : Prop :=
  wpx (nodeHandler pg).toMachine .any p Q R n

section Rules

variable {pg : PostgresMetadata} {α β γ : Type} {Q Q' : α → Node → Prop}
  {R R' : ChunkStoreError → Node → Prop} {n : Node}

theorem solo_pure {a : α} (h : Q a n) : solo pg (pure a) Q R n := h

theorem solo_throw {e : ChunkStoreError} (h : R e n) : solo pg (throw e : NodeM α) Q R n := h

theorem solo_bind {p : NodeM α} {f : α → NodeM β} {Q : β → Node → Prop}
    (h : solo pg p (fun a n' ↦ solo pg (f a) Q R n') R n) : solo pg (p >>= f) Q R n :=
  (wpx_bind p f).mpr h

theorem solo_mono {p : NodeM α} (h : solo pg p Q R n) (hQ : ∀ a n', Q a n' → Q' a n')
    (hR : ∀ e n', R e n' → R' e n') : solo pg p Q' R' n := wpx_mono h hQ hR

theorem solo_ofExcept {r : Except ChunkStoreError α} (hQ : ∀ a, r = .ok a → Q a n)
    (hR : ∀ e, r = .error e → R e n) : solo pg (ofExcept r) Q R n := by
  cases r with
  | ok a => exact hQ a rfl
  | error e => exact hR e rfl

theorem solo_foldlM {σ : Type} {f : σ → α → NodeM σ} {J : List α → σ → Node → Prop}
    (hstep : ∀ a l st n, J (a :: l) st n → solo pg (f st a) (J l) R n) (l : List α) (st : σ)
    (n : Node) (h : J l st n) : solo pg (l.foldlM f st) (J []) R n := wpx_foldlM hstep l st n h

private theorem eval_own (p : Program Block α) (n : Node) :
    (nodeHandler pg).eval (p.translate fun b ↦ Program.request (.own b)) n
      = ((callHandler.eval (p.translate Block.body) n.store).1,
        ⟨(callHandler.eval (p.translate Block.body) n.store).2, n.database⟩) := by
  induction p generalizing n with
  | ret a => rfl
  | req b next ih =>
    rw [Program.translate, Program.translate, request_bind, Handler.eval, Handler.eval_bind]
    exact ih _ _

/-- Code of the instance does on a node what it does alone. -/
theorem solo_own {p : StoreM α}
    (h : quietly (flat p) (fun a s ↦ Q a ⟨s, n.database⟩) (fun e s ↦ R e ⟨s, n.database⟩)
      n.store) : solo pg (own p) Q R n := by
  have hq := quietly_eval h
  refine wp_of_eval ?_
  rw [own, ExceptT.run_mk, eval_own]
  dsimp only [flat, ExceptT.run_mk] at hq ⊢
  cases hr : (callHandler.eval (p.run.translate Block.body) n.store).1 with
  | ok a =>
    rw [hr] at hq
    exact hq
  | error e =>
    rw [hr] at hq
    exact hq

theorem solo_query {what : String} {q : Query γ} {Q : γ → Node → Prop}
    (hQ : ∀ r, q.run n.database = .ok r → Q r n)
    (hR : ∀ e, q.run n.database = .error e →
      R (.backendError s!"postgres {what}: {pg.display e}") n) :
    solo pg (pg.query what q) Q R n := by
  rw [PostgresMetadata.query]
  refine solo_bind fun r n' hs ↦ ⟨trivial, ?_⟩
  obtain ⟨rfl, rfl⟩ := Prod.mk.inj hs
  cases hrun : q.run n.database with
  | ok x => exact hQ x hrun
  | error e => exact hR e hrun

theorem solo_transaction {t : Transaction γ} {Q : γ → Node → Prop}
    (hQ : ∀ r db, execSql (pg.body t) n.database = (.ok r, db) → Q r ⟨n.store, db⟩)
    (hR : ∀ e db, execSql (pg.body t) n.database = (.error e, db) → R e n) :
    solo pg (PostgresStore.transaction t) Q R n := by
  intro r n' hs
  refine ⟨trivial, ?_⟩
  have hs : (nodeHandler pg).handle (.transaction t) n = (r, n') := hs
  rcases hx : execSql (pg.body t) n.database with ⟨r', db⟩
  simp only [nodeHandler, transact, hx] at hs
  cases r' with
  | ok a =>
    cases hs
    exact hQ a db hx
  | error e =>
    cases hs
    exact hR e db hx

theorem solo_map {p : NodeM α} {f : α → β} {Q : β → Node → Prop}
    (h : solo pg p (fun a n' ↦ Q (f a) n') R n) : solo pg (f <$> p) Q R n := by
  rw [map_eq_pure_bind]
  exact solo_bind h

theorem solo_eval {p : NodeM α} (h : solo pg p Q R n) :
    outcome Q R ((nodeHandler pg).eval p.run n).1 ((nodeHandler pg).eval p.run n).2 := wp_eval h

end Rules

/-! ## Runs of one node -/

namespace PostgresStore

variable (self : PostgresStore)

/-- One operation, with one node at work. -/
def exec (op : ChunkStore.Op) (n : Node) : Except ChunkStoreError ChunkStore.Reply × Node :=
  (nodeHandler self.pg).eval (self.perform op).run n

/-- Operations one after the other, with their results. -/
def execAll : List ChunkStore.Op → Node → List (Except ChunkStoreError ChunkStore.Reply) × Node
  | [], n => ([], n)
  | op :: ops, n =>
    let r := self.exec op n
    let rs := execAll ops r.2
    (r.1 :: rs.1, rs.2)

/-- A node with empty metadata and an empty backend, before anything is opened. -/
def start (lists : Bool) : Node := ⟨.empty lists, .empty⟩

/-- A run: open a store on empty metadata, then execute. -/
def run (lists : Bool) (ops : List ChunkStore.Op) :
    List (Except ChunkStoreError ChunkStore.Reply) × Node :=
  self.execAll ops (self.exec .reopen (start lists)).2

end PostgresStore

end Chunkstore

import Chunkstore.Effects.Threads
import Chunkstore.Exact.Runs

/-!
# Threads on one instance

The threads of one instance share the backend and the fields behind the locks. A thread runs
operations one after the other until one fails; a step is a block: what is done while a lock is
held, or one backend call made without a lock.

## Proofs about threads

What one thread relies on is what it owns (`Program.owns`). The rules here are those of the blocks
and of the phases of an operation: storing a chunk, committing, releasing. An invariant has to be
shown for the blocks that matter to it; `Takes.owns` disposes of the others.
-/

open Effects Program

namespace Chunkstore

/-! ## Code made of blocks -/

/-- Code whose every block satisfies `P`. -/
def Takes (P : {γ : Type} → Block γ → Prop) {α : Type} (p : StoreM α) : Prop := p.run.Uses P

section Takes

variable {α β σ : Type} {P P' : {γ : Type} → Block γ → Prop}

theorem takes_pure (a : α) : Takes P (pure a : StoreM α) := trivial

theorem takes_throw (e : ChunkStoreError) : Takes P (throw e : StoreM α) := trivial

theorem takes_ofExcept (r : Except ChunkStoreError α) : Takes P (ofExcept r : StoreM α) := by
  cases r <;> trivial

theorem takes_locked {lock : Mutex} {body : BackendM α} (h : P (.locked lock body.run)) :
    Takes P (locked lock body) := ⟨h, fun _ ↦ trivial⟩

/-- Code without a lock takes its requests one by one. -/
theorem takes_unlocked {C : {γ : Type} → Call γ → Prop} {p : BackendM α} (hp : Makes C p)
    (hC : ∀ {γ : Type} (c : Call γ), C c → P (.call c)) : Takes P (unlocked p) :=
  Uses.translate hp fun c hc ↦ ⟨hC c hc, fun _ ↦ trivial⟩

theorem takes_ite {c : Prop} [Decidable c] {p q : StoreM α} (hp : Takes P p) (hq : Takes P q) :
    Takes P (if c then p else q) := by
  split
  · exact hp
  · exact hq

namespace Takes

theorem mono {p : StoreM α} (hp : Takes P p) (h : ∀ {γ : Type} (b : Block γ), P b → P' b) :
    Takes P' p := Uses.mono hp h

theorem bind {p : StoreM α} {f : α → StoreM β} (hp : Takes P p) (hf : ∀ a, Takes P (f a)) :
    Takes P (p >>= f) := by
  rw [Takes, ExceptT.run_bind]
  refine Uses.bind hp fun r ↦ ?_
  cases r with
  | ok a => exact hf a
  | error e => trivial

theorem map {p : StoreM α} {f : α → β} (hp : Takes P p) : Takes P (f <$> p) := by
  rw [map_eq_pure_bind]
  exact hp.bind fun _ ↦ takes_pure _

end Takes

end Takes

/-! ## Code that only looks -/

/-- A request that reads, and is no look-up of what an ingest replaces. -/
def Call.Looking {γ : Type} : Call γ → Prop
  | .backend (.get _) => True
  | .backend (.existsKey _) => True
  | .backend (.listKeys _) => True
  | .field (.manifestGet _) => True
  | .field (.refcountGet _) => True
  | .field (.refcountSizeOf _) => True
  | .field .refcountIterRefs => True
  | .field .statsGet => True
  | _ => False

/-- A block of requests that satisfy `C`. -/
def Block.Of (C : {δ : Type} → Call δ → Prop) {γ : Type} (b : Block γ) : Prop := b.body.Uses C

/-- A block that only looks. The blob lock is taken for storing a chunk. -/
def Block.Looks {γ : Type} : Block γ → Prop
  | .call c => c.Looking
  | .locked lock body => lock ≠ .blob ∧ body.Uses Call.Looking

section Looking

variable {C C' : {δ : Type} → Call δ → Prop} {α : Type} (store : ChunkStore)

theorem Block.Looks.of {γ : Type} {b : Block γ} (h : b.Looks)
    (hC : ∀ {δ : Type} (c : Call δ), c.Looking → C c) : b.Of C := by
  cases b with
  | call c => exact ⟨hC c h, fun _ ↦ trivial⟩
  | locked lock body => exact Uses.mono h.2 hC

theorem takes_locked_of_makes {lock : Mutex} {body : BackendM α} (h : Makes C body) :
    Takes (Block.Of C) (locked lock body) := takes_locked h

theorem takes_unlocked_of_makes {p : BackendM α} (h : Makes C p) :
    Takes (Block.Of C) (unlocked p) := takes_unlocked h fun _ hc ↦ ⟨hc, fun _ ↦ trivial⟩

theorem takes_look {c : BackendCall α} (h : (Call.backend c).Looking) :
    Takes Block.Looks (unlocked (backendCall c)) :=
  takes_unlocked (makes_backendCall h) fun _ hc ↦ hc

theorem takes_lookAt {lock : Mutex} {a : FieldAccess α} (hl : lock ≠ .blob)
    (h : (Call.field a).Looking) : Takes Block.Looks (locked lock (field a)) :=
  takes_locked ⟨hl, makes_field h⟩

theorem takes_chunkSize (digest : String) : Takes Block.Looks (store.chunkSize digest) := by
  refine Takes.bind (takes_lookAt (by decide) ?_) fun size ↦
    takes_ite (takes_pure _) ((takes_look ?_).bind fun raw ↦ ?_)
  · trivial
  · trivial
  · cases raw with
    | none => exact takes_throw _
    | some data => exact (takes_ofExcept _).bind fun _ ↦ takes_pure _

theorem takes_readChunk (digest : String) : Takes Block.Looks (store.readChunk digest) := by
  refine Takes.bind (takes_look ?_) fun raw ↦ ?_
  · trivial
  · cases raw with
    | none => exact takes_throw _
    | some stored =>
      exact (takes_ofExcept _).bind fun _ ↦ (takes_ofExcept _).bind fun _ ↦ takes_pure _

private theorem uses_writeChunks (digests : List String) (writer : Writer) :
    (store.writeChunks digests writer).Uses Block.Looks := by
  induction digests generalizing writer with
  | nil => trivial
  | cons d digests ih =>
    rw [ChunkStore.writeChunks]
    refine Uses.bind (takes_readChunk store d) fun r ↦ ?_
    cases r with
    | error e => trivial
    | ok chunk =>
      dsimp only
      split
      · trivial
      · exact ih _

theorem takes_read (fileId : String) : Takes Block.Looks (store.read fileId) := by
  have hget : Takes Block.Looks (ChunkStore.digestsForFile fileId) :=
    takes_locked ⟨by decide, makes_fieldOrThrow trivial⟩
  have hto : (store.readToWriter fileId .vec).Uses Block.Looks := by
    refine Uses.bind hget fun r ↦ ?_
    cases r with
    | error e => trivial
    | ok digests => exact uses_writeChunks store digests _
  exact hto.bind fun _ ↦ trivial

private theorem takes_missingBlobs (live : List String) :
    Takes Block.Looks (ChunkStore.missingBlobs live) := by
  induction live with
  | nil => exact takes_pure _
  | cons d live ih =>
    refine Takes.bind (takes_look ?_) fun _ ↦ ih.bind fun _ ↦ takes_pure _
    trivial

theorem takes_fsck {P : {γ : Type} → Block γ → Prop}
    (hlook : ∀ {γ : Type} (b : Block γ), b.Looks → P b)
    (hunlink : ∀ key, P (.call (.backend (.delete key)))) (repair : Bool) :
    Takes P (ChunkStore.fsck repair) := by
  have hrefs : Takes Block.Looks (locked .refcount (field .refcountIterRefs)) :=
    takes_lookAt (by decide) trivial
  have horphans : ∀ live, Takes Block.Looks (unlocked (collectOrphans live)) :=
    fun live ↦ takes_unlocked (C := Call.Looking) ((makes_backendCall trivial).bind fun keys ↦ by
      cases keys <;> exact makes_pure _) fun _ hc ↦ hc
  have hunlinkAll : ∀ keys, Takes P (ChunkStore.unlinkAll keys) := by
    intro keys
    induction keys with
    | nil => exact takes_pure _
    | cons key keys ih =>
      exact Takes.bind ⟨hunlink key, fun _ ↦ trivial⟩ fun _ ↦ ih.bind fun _ ↦ takes_pure _
  refine (hrefs.mono hlook).bind fun refs ↦ ((takes_missingBlobs _).mono hlook).bind fun missing ↦
    ((horphans _).mono hlook).bind fun orphans ↦ takes_ite ?_ (takes_pure _)
  exact (hunlinkAll _).bind fun _ ↦ takes_pure _

/-- An operation that neither changes a file nor repairs only looks. -/
def ChunkStore.Op.Inspects : ChunkStore.Op → Prop
  | .read _ => True
  | .readChunk _ => True
  | .stats => True
  | .chunkRefcount _ => True
  | _ => False

theorem takes_inspect (op : ChunkStore.Op) (h : op.Inspects) :
    Takes Block.Looks (store.perform op) := by
  cases op with
  | read fileId => exact (takes_read store fileId).map
  | readChunk digest => exact (takes_readChunk store digest).map
  | stats => exact Takes.map (takes_lookAt (by decide) trivial)
  | chunkRefcount digest => exact Takes.map (takes_lookAt (by decide) trivial)
  | _ => exact h.elim

end Looking

/-! ## Threads -/

namespace ChunkStore

variable (store : ChunkStore)

/-- A thread: operations one after the other, until one fails. -/
def thread (ops : List Op) : Program Block (Except ChunkStoreError (List Reply)) :=
  (ops.mapM store.perform).run

def threads (work : List (List Op)) : Pool Block (Except ChunkStoreError (List Reply)) :=
  work.map store.thread

def returned (results : List (List Reply)) : Pool Block (Except ChunkStoreError (List Reply)) :=
  results.map fun replies ↦ .ret (.ok replies)

end ChunkStore

section Schedules

variable {S : Type} (H : Handler Block S) (is : List ℕ)
  (c : Pool Block (Except ChunkStoreError (List ChunkStore.Reply)) × S)
  (results : List (List ChunkStore.Reply))

theorem schedule_eq_returned
    (h : (H.schedule is c).1.map Program.result? = (results.map .ok).map some) :
    H.schedule is c = (ChunkStore.returned results, (H.schedule is c).2) := by
  refine Prod.ext ?_ rfl
  rw [Pool.eq_map_ret h, ChunkStore.returned, List.map_map]
  rfl

/-- A schedule under which all threads return is a run to that end. -/
theorem schedule_returns
    (h : (H.schedule is c).1.map Program.result? = (results.map .ok).map some) :
    H.toMachine.PoolSteps c (ChunkStore.returned results, (H.schedule is c).2) := by
  rw [← schedule_eq_returned H is c results h]
  exact Handler.schedule_poolSteps is c

theorem schedule_returns_given (P : {γ : Type} → S → Block γ → Prop)
    [∀ {γ : Type} (s : S) (b : Block γ), Decidable (P s b)]
    (hP : H.admits (fun s b ↦ decide (P s b)) is c = true)
    (h : (H.schedule is c).1.map Program.result? = (results.map .ok).map some) :
    (H.toMachine.given P).PoolSteps c (ChunkStore.returned results, (H.schedule is c).2) := by
  rw [← schedule_eq_returned H is c results h]
  refine Relation.ReflTransGen.mono (fun c c' hc ↦ ?_) _ _ (Handler.schedule_steps hP)
  rcases hc with ⟨⟨hc⟩⟩
  exact .of (.req ⟨of_decide_eq_true hc.1, hc.2⟩)

end Schedules

/-- The fault-free world of threads with a tally of their blocks, in runs whose blocks meet a
condition. -/
abbrev threadWorld {W : Type} [Add W] (weigh : {γ : Type} → State → Block γ → W)
    (P : {γ : Type} → State × W → Block γ → Prop) : Machine Block (State × W) :=
  (blockHandler.tallied weigh).toMachine.given P

section Rules

variable {W : Type} [Add W] {weigh : {γ : Type} → State → Block γ → W}
  {P : {γ : Type} → State × W → Block γ → Prop} {ρ : Type} [AddCommMonoid ρ]
  {I : ρ → State × W → Prop} {r : ρ} {α β : Type} {Q : α → ρ → Prop}

/-- The rule of a critical section. -/
theorem owns_locked {lock : Mutex} {body : BackendM α}
    (h : ∀ f s w, I (r + f) (s, w) → P (s, w) (Block.locked lock body.run) →
      quietly body (fun a s' ↦ ∃ r', I (r' + f) (s', w + weigh s (Block.locked lock body.run)) ∧
        Q a r') (fun _ _ ↦ True) s) :
    owns (threadWorld weigh P) I (locked lock body).run Q r := by
  refine owns_request fun f c x c' hi hs ↦ ?_
  obtain ⟨s, w⟩ := c
  obtain ⟨hp, heq⟩ := hs
  obtain ⟨rfl, rfl⟩ := Prod.mk.inj heq
  have hx := quietly_eval (h f s w hi hp)
  rw [show (blockHandler.handle (Block.locked lock body.run) s)
    = callHandler.eval body.run s from rfl]
  revert hx
  cases (callHandler.eval body.run s).1 with
  | ok a => exact id
  | error e => exact id

/-- The rule of a backend call without a lock. -/
theorem owns_call {c : BackendCall α}
    (h : ∀ f s w, I (r + f) (s, w) → P (s, w) (Block.call (Call.backend c)) →
      ∃ r', I (r' + f) ({ s with backend := (c.run s.backend).2 },
        w + weigh s (Block.call (Call.backend c))) ∧ Q (c.run s.backend).1 r') :
    owns (threadWorld weigh P) I (unlocked (backendCall c)).run Q r := by
  refine owns_request fun f c' x c'' hi hs ↦ ?_
  obtain ⟨s, w⟩ := c'
  obtain ⟨hp, heq⟩ := hs
  obtain ⟨rfl, rfl⟩ := Prod.mk.inj heq
  exact h f s w hi hp

private theorem Takes.owns {N : {γ : Type} → Block γ → Prop} {p : StoreM α} (hp : Takes N p)
    (hN : ∀ {γ : Type} (b : Block γ) (r : ρ) (s : State) (w : W), N b → I r (s, w) → P (s, w) b →
      I r ((callHandler.eval b.body s).2, w + weigh s b)) :
    Program.owns (threadWorld weigh P) I p.run (fun _ r' ↦ r' = r) r := by
  refine Uses.owns hp fun b r c x c' hb hi hs ↦ ?_
  obtain ⟨s, w⟩ := c
  obtain ⟨hpb, heq⟩ := hs
  obtain ⟨-, rfl⟩ := Prod.mk.inj heq
  exact hN b r s w hb hi hpb

theorem Takes.keeps {N : {γ : Type} → Block γ → Prop} {p : StoreM α} (hp : Takes N p)
    (hN : ∀ {γ : Type} (b : Block γ) (r : ρ) (s : State) (w : W), N b → I r (s, w) → P (s, w) b →
      I r ((callHandler.eval b.body s).2, w + weigh s b)) {K : ρ → Prop} (h : K r) :
    Program.owns (threadWorld weigh P) I p.run (fun _ ↦ K) r := by
  refine owns_mono (hp.owns hN) fun a r' hr ↦ ?_
  rw [hr]
  exact h

end Rules

/-! ## The phases of an operation -/

section Phases

variable {S ρ : Type} [AddCommMonoid ρ] {M : Machine Block S} {I : ρ → S → Prop} {r : ρ}
  {α β : Type} {store : ChunkStore}

private theorem owns_ofExcept {x : Except ChunkStoreError α} {Q : α → ρ → Prop}
    (h : ∀ a, x = .ok a → Q a r) : owns M I (ofExcept x : StoreM α).run Q r := by
  cases x with
  | ok a => exact h a rfl
  | error e => trivial

theorem owns_map {p : StoreM α} {f : α → β} {Q : β → ρ → Prop}
    (h : owns M I p.run (fun a ↦ Q (f a)) r) : owns M I (f <$> p).run Q r := by
  rw [map_eq_pure_bind]
  exact owns_bind h

/-- A thread, one operation after the other: `J` speaks about those still to be run. -/
theorem owns_thread {J : List ChunkStore.Op → ρ → Prop}
    (hstep : ∀ op ops r, J (op :: ops) r → owns M I (store.perform op).run (fun _ ↦ J ops) r)
    (ops : List ChunkStore.Op) (h : J ops r) : owns M I (store.thread ops) (fun _ ↦ J []) r := by
  rw [ChunkStore.thread]
  induction ops generalizing r with
  | nil => exact h
  | cons op ops ih =>
    rw [List.mapM_cons]
    exact owns_bind (owns_mono (hstep op ops r h) fun _ r' h' ↦
      owns_bind (owns_mono (ih h') fun _ _ h'' ↦ h''))

/-- **Storing a chunk**: the blob, the count, the statistics. -/
theorem owns_storeChunk {digest : String} {data : Bytes} {B C : Bool → ρ → Prop} {D : ρ → Prop}
    (hput : ∀ blob, store.encodeBlob data = .ok blob →
      owns M I (locked .blob (ChunkStore.putBlob digest blob)).run B r)
    (hcount : ∀ present r, B present r →
      owns M I (locked .refcount (store.countChunk digest data.length)).run (fun _ ↦ C present) r)
    (hreference : ∀ r, C true r →
      owns M I (locked .stats (field (.statsAddReference data.length))).run (fun _ ↦ D) r)
    (hunique : ∀ r, C false r →
      owns M I (locked .stats (field (.statsAddUniqueChunk data.length))).run (fun _ ↦ D) r) :
    owns M I (store.storeChunk digest data).run (fun _ ↦ D) r := by
  refine owns_bind (owns_ofExcept fun blob hb ↦ owns_bind (owns_mono (hput blob hb)
    fun present r hB ↦ owns_bind (owns_mono (hcount present r hB) fun _ r hC ↦ ?_)))
  cases present with
  | true => exact owns_bind (owns_mono (hreference r hC) fun _ _ hD ↦ hD)
  | false => exact owns_bind (owns_mono (hunique r hC) fun _ _ hD ↦ hD)

/-- **Releasing a list**, one digest after the other. -/
theorem owns_releaseDigests {L : List String → ρ → Prop}
    (hrelease : ∀ d ds r, L (d :: ds) r → owns M I (store.releaseDigest d).run (fun _ ↦ L ds) r)
    (digests : List String) (h : L digests r) :
    owns M I (store.releaseDigests digests).run (fun _ ↦ L []) r := by
  induction digests generalizing r with
  | nil => exact h
  | cons d digests ih => exact owns_bind (owns_mono (hrelease d digests r h) fun _ _ h' ↦ ih h')

/-- **Releasing a digest**: the count goes down; without a reference the blob, the record and the
bytes go too, otherwise the record is saved. -/
theorem owns_releaseDigest {digest : String} {A U V C D : ρ → Prop} {B : ℕ → ρ → Prop} (h : A r)
    (hsize : ∀ r, A r → owns M I (store.chunkSize digest).run (fun _ ↦ A) r)
    (hdecrement : ∀ r, A r →
      owns M I (locked .refcount (fieldOrThrow (.refcountDecrement digest))).run B r)
    (hunlink : ∀ r, B 0 r → owns M I (unlocked (backendCall (.delete digest))).run (fun _ ↦ U) r)
    (hremove : ∀ r, U r →
      owns M I (unlocked (removeRefcount store.crates digest)).run (fun _ ↦ V) r)
    (hunique : ∀ size r, V r →
      owns M I (locked .stats (field (.statsRemoveUniqueChunk size))).run (fun _ ↦ C) r)
    (hsave : ∀ n size r, B n r →
      owns M I (unlocked (saveRefcount store.crates digest n size)).run (fun _ ↦ C) r)
    (hstats : ∀ size r, C r →
      owns M I (locked .stats (field (.statsRemoveReference size))).run (fun _ ↦ D) r) :
    owns M I (store.releaseDigest digest).run (fun _ ↦ D) r := by
  refine owns_bind (owns_mono (hsize r h) fun size r hA ↦ owns_bind (owns_mono (hdecrement r hA)
    fun remaining r hB ↦ ?_))
  dsimp only
  split
  · rename_i h0
    rw [h0] at hB
    exact owns_bind (owns_mono (hunlink r hB) fun _ r hU ↦ owns_bind (owns_mono (hremove r hU)
      fun _ r hV ↦ owns_bind (owns_mono (hunique size r hV) fun _ r hC ↦ hstats size r hC)))
  · exact owns_bind (owns_mono (hsave remaining size r hB) fun _ r hC ↦ hstats size r hC)

/-- **Ingest**: `J` speaks about the chunks still to be stored, `K` about the list that was looked
up before the entry is inserted and `N` after, `L` about the digests still to be released. -/
theorem owns_ingestStream {fileId : String} {stream : Stream} {J : List Bytes → ρ → Prop}
    {K N L : List String → ρ → Prop} (h : J stream.chunks r)
    (hstore : ∀ chunk l r, J (chunk :: l) r →
      owns M I (store.storeChunk (digestHex store.crates.sha256 chunk) chunk).run (fun _ ↦ J l) r)
    (hpeek : ∀ r, stream.error = none → J [] r →
      owns M I (ChunkStore.peekDigests fileId).run (fun old ↦ K (old.getD [])) r)
    (hinsert : ∀ old r, K old r → owns M I (locked .manifest (fieldOrThrow (.manifestInsert fileId
      (stream.chunks.map (digestHex store.crates.sha256)) (stream.chunks.map List.length).sum))).run
      (fun _ ↦ N old) r)
    (hsave : ∀ old r, N old r → owns M I (unlocked (saveManifest store.crates fileId
      (stream.chunks.map (digestHex store.crates.sha256)) (stream.chunks.map List.length).sum)).run
      (fun _ ↦ L old) r)
    (hrelease : ∀ d ds r, L (d :: ds) r →
      owns M I (store.releaseDigest d).run (fun _ ↦ L ds) r) :
    owns M I (store.ingestStream fileId stream).run (fun _ ↦ L []) r := by
  rw [ChunkStore.ingestStream, Stream.consume, bind_assoc]
  refine owns_bind (owns_mono (owns_foldlM (J := fun l session r ↦
    session.digests ++ l.map (digestHex store.crates.sha256)
        = stream.chunks.map (digestHex store.crates.sha256) ∧
      session.fileBytes + (l.map List.length).sum = (stream.chunks.map List.length).sum ∧ J l r)
    ?_ stream.chunks ChunkStore.IngestSession.new r ⟨rfl, Nat.zero_add _, h⟩) ?_)
  · rintro chunk l session r ⟨hd, hbytes, hJ⟩
    rw [List.map_cons, List.sum_cons, ← Nat.add_assoc] at hbytes
    refine owns_bind (owns_mono (hstore chunk l r hJ) fun _ r hJ ↦ ⟨?_, hbytes, hJ⟩)
    rw [← hd, List.map_cons, List.append_assoc]
    rfl
  · rintro session r ⟨hd, hbytes, hJ⟩
    rw [List.map_nil, List.append_nil] at hd
    rw [List.map_nil, List.sum_nil, Nat.add_zero] at hbytes
    cases he : stream.error with
    | some e => exact owns_bind (owns_throw e)
    | none =>
      refine owns_bind (owns_pure ?_)
      rw [ChunkStore.commit, hd, hbytes]
      refine owns_bind (owns_mono (hpeek r he hJ) fun old r hK ↦ owns_bind (owns_mono
        (hinsert _ r hK) fun _ r hN ↦ owns_bind (owns_mono (hsave _ r hN) fun _ r hL ↦ ?_)))
      cases old with
      | none => exact hL
      | some old => exact owns_bind (owns_mono (owns_releaseDigests hrelease old hL) fun _ _ h ↦ h)

/-- **Delete**: `K` speaks about the list that was removed, `L` about the digests still to be
released. -/
theorem owns_deleteFile {fileId : String} {K L : List String → ρ → Prop}
    (hremove : owns M I (locked .manifest (fieldOrThrow (.manifestRemove fileId))).run K r)
    (hunsave : ∀ digests r, K digests r →
      owns M I (unlocked (removeManifest store.crates fileId)).run (fun _ ↦ L digests) r)
    (hrelease : ∀ d ds r, L (d :: ds) r →
      owns M I (store.releaseDigest d).run (fun _ ↦ L ds) r) :
    owns M I (store.delete fileId).run (fun _ ↦ L []) r :=
  owns_bind (owns_mono hremove fun digests r hK ↦ owns_bind (owns_mono (hunsave digests r hK)
    fun _ _ hL ↦ owns_releaseDigests hrelease digests hL))

/-! ## Pools -/

omit [AddCommMonoid ρ] in
private theorem map_snd_of_specs {A B : Type} {final : A → ρ} {work : List A}
    {owned : List ((B → ρ → Prop) × ρ)} {results : List B}
    (hspecs : owned.map Prod.fst = work.map fun a _ r ↦ r = final a)
    (h : List.Forall₂ (fun b o ↦ o.1 b o.2) results owned) :
    owned.map Prod.snd = work.map final := by
  induction h generalizing work with
  | nil =>
    rw [List.map_nil, eq_comm, List.map_eq_nil_iff] at hspecs
    rw [hspecs]
    rfl
  | cons hb _ ih =>
    cases work with
    | nil => cases hspecs
    | cons a work =>
      rw [List.map_cons, List.map_cons, List.cons.injEq] at hspecs
      rw [List.map_cons, List.map_cons, ih hspecs.2]
      rw [hspecs.1] at hb
      rw [hb]

/-- Threads that each turn what they own at the start into what they own at the end, once they have
all returned. -/
theorem pool_returns {start final : List ChunkStore.Op → ρ} {work : List (List ChunkStore.Op)}
    {results : List (List ChunkStore.Reply)} {c c' : S}
    (hthread : ∀ ops ∈ work,
      owns M I (store.thread ops) (fun _ r ↦ r = final ops) (start ops))
    (h : I (work.map start).sum c)
    (hs : M.PoolSteps (store.threads work, c) (ChunkStore.returned results, c')) :
    I (work.map final).sum c' := by
  have hsound : Program.Sound M I (work.map fun ops _ r ↦ r = final ops)
      (store.threads work, c) := by
    refine Or.inr ⟨work.map fun ops ↦ (fun _ r ↦ r = final ops, start ops), ?_, ?_, ?_⟩
    · rw [List.map_map]
      rfl
    · rw [ChunkStore.threads, List.forall₂_map_left_iff, List.forall₂_map_right_iff,
        List.forall₂_same]
      exact hthread
    · rw [List.map_map]
      exact h
  obtain ⟨owned, hspecs, hall, hi⟩ := sound_finished (sound_steps hsound hs)
  rwa [map_snd_of_specs hspecs hall] at hi

end Phases

end Chunkstore

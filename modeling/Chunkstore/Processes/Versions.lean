import Chunkstore.Core.Phases
import Chunkstore.Crash.Openable
import Chunkstore.Effects.Shared
import Chunkstore.Refinement.FileMap

/-!
# Several processes on one backend

Each process has an instance of its own: the fields are its own, and the backend is what they share.
A process executes operations one after the other, whatever they return, and any backend call of any
of them may come between two calls of another. With `F` any call may also fail.

Nothing keeps several writers apart, and their metadata get into disorder. What a file reads as does
not: every manifest record on the backend is that of one complete ingest, since it is put by one
call, and every blob is that of a chunk of its name. A process that opens the backend while others
write may load the records of different moments, but of each file it loads one record, and the
chunks it reads are checked against that.

## Main result

* `ChunkStore.reads_committed`: a read that returns has the complete contents of one ingest of its
  file, whose record was on the backend at a moment since the process began to open it.
-/

open Effects Program

namespace Chunkstore

/-- The world of processes with fields of their own on a common backend. -/
def together (F : Prop) : Machine Call (Backend × Fields) where
  step x c r y := (faulty F).step ⟨x.1, x.2⟩ c r ⟨y.1, y.2⟩

/-- The fault-free case, which can be executed. -/
def togetherHandler : Handler Call (Backend × Fields) where
  handle c x :=
    let r := callHandler.handle c ⟨x.1, x.2⟩
    (r.1, r.2.backend, r.2.fields)

section Together

variable {F : Prop} {b b' : Backend} {f f' : Fields} {γ : Type}

/-- A backend call has its effect or none. -/
theorem together_backend {c : BackendCall γ} {r : Except ChunkStoreError γ}
    (h : (together F).step (b, f) (.backend c) r (b', f')) : b' = (c.run b).2 ∨ b' = b := by
  rcases h with ⟨-, h⟩ | ⟨-, -, h | h⟩
  · exact Or.inl (State.mk.inj h).1
  · exact Or.inr (State.mk.inj h).1
  · exact Or.inl (State.mk.inj h).1

theorem together_field {a : FieldAccess γ} {r : γ}
    (h : (together F).step (b, f) (.field a) r (b', f')) : b' = b := (State.mk.inj h.2).1

/-- Processes that take turns on a backend without faults. -/
theorem together_turns {α : Type} (is : List ℕ) (c : List (Party Call Fields α) × Backend) :
    (together F).SharedSteps c (togetherHandler.turns is c) :=
  Handler.sharedSteps_turns (fun e x ↦ faulty_step_handle e ⟨x.1, x.2⟩) is c

end Together

namespace ChunkStore

variable (store : ChunkStore)

/-- A process: operations one after the other, whatever they return. -/
def serve : List Op → Program Call (List (Except ChunkStoreError Reply))
  | [] => return []
  | op :: ops => do
    let r ← (flat (store.perform op)).run
    let rs ← serve ops
    return r :: rs

/-- Processes that have not opened anything yet. -/
def processes (work : List (List Op)) :
    List (Party Call Fields (List (Except ChunkStoreError Reply))) :=
  work.map fun ops ↦ ⟨store.serve ops, .empty⟩

def recordOf (chunks : List Bytes) : ManifestRecord :=
  ⟨chunks.map (digestHex store.crates.sha256), (chunks.map List.length).sum⟩

/-- Alone, on a backend without faults, a process executes its operations. -/
theorem eval_serve (ops : List Op) (s : State) :
    callHandler.eval (store.serve ops) s = store.execAll ops s := by
  induction ops generalizing s with
  | nil => rfl
  | cons op ops ih =>
    rw [serve, Handler.eval_bind, Handler.eval_bind, ih]
    rfl

/-- The chunks that some process ingests as a file. -/
def Commits (work : List (List Op)) (fileId : String) (chunks : List Bytes) : Prop :=
  ∃ ops ∈ work, ∃ input, .ingest fileId input ∈ ops ∧ input.stream store.crates = ⟨chunks, none⟩

abbrev Ingests (work : List (List Op)) (chunk : Bytes) : Prop := store.Ingested work.flatten chunk

end ChunkStore

/-! ## What is put on the backend -/

/-- A request that puts under the key of a manifest record only the record of a file that is
ingested, and under a digest only the blob of its chunk. -/
def Call.Deposits (store : ChunkStore) (work : List (List ChunkStore.Op)) {γ : Type} : Call γ → Prop
  | .backend (.put key data) =>
    (∀ fileId, key = manifestKey fileId → fileId ≠ indexName → ∃ chunks,
      store.Commits work fileId chunks ∧
        data = store.crates.serde.manifestToVec (store.recordOf chunks)) ∧
    (isChunkDigest key = true → ∃ chunk, store.Ingests work chunk ∧
      store.encodeBlob chunk = .ok data ∧ digestHex store.crates.sha256 chunk = key)
  | _ => True

/-- Every manifest record is that of a file that is ingested, and every blob that of its chunk. -/
structure Deposited (store : ChunkStore) (work : List (List ChunkStore.Op)) (b : Backend) :
    Prop where
  record : ∀ fileId raw, fileId ≠ indexName → b.data.find (manifestKey fileId) = some raw →
    ∃ chunks, store.Commits work fileId chunks ∧
      raw = store.crates.serde.manifestToVec (store.recordOf chunks)
  blob : ∀ digest raw, isChunkDigest digest = true → b.data.find digest = some raw →
    ∃ chunk, store.Ingests work chunk ∧ store.encodeBlob chunk = .ok raw ∧
      digestHex store.crates.sha256 chunk = digest

section Deposits

variable {store : ChunkStore} {work : List (List ChunkStore.Op)} {b : Backend}

theorem deposited_empty (lists : Bool) : Deposited store work ⟨∅, lists⟩ where
  record fileId raw _ h := by cases h
  blob digest raw _ h := by cases h

theorem Deposited.run {γ : Type} {c : BackendCall γ} (hc : (Call.backend c).Deposits store work)
    (h : Deposited store work b) : Deposited store work (c.run b).2 := by
  cases c with
  | get | existsKey | listKeys => exact h
  | put key data =>
    -- a key that is written has what the request may put there, any other what it had
    obtain ⟨hrecord, hblob⟩ := hc
    constructor
    · intro fileId raw hne hraw
      change (b.data.set key data).find _ = _ at hraw
      rw [Table.find_set] at hraw
      split at hraw
      · rename_i hkey
        obtain ⟨chunks, hcommits, hdata⟩ := hrecord fileId hkey.symm hne
        exact ⟨chunks, hcommits, (Option.some.inj hraw).symm.trans hdata⟩
      · exact h.record fileId raw hne hraw
    · intro digest raw hd hraw
      change (b.data.set key data).find _ = _ at hraw
      rw [Table.find_set] at hraw
      split at hraw
      · rename_i hkey
        obtain ⟨chunk, hseen, hblob, hdig⟩ := hblob (hkey ▸ hd)
        exact ⟨chunk, hseen, hblob.trans (congrArg Except.ok (Option.some.inj hraw)),
          hdig.trans hkey.symm⟩
      · exact h.blob digest raw hd hraw
  | delete key =>
    constructor
    · intro fileId raw hne hraw
      change (b.data.unset key).find _ = _ at hraw
      rw [Table.find_unset] at hraw
      split at hraw
      · cases hraw
      · exact h.record fileId raw hne hraw
    · intro digest raw hd hraw
      change (b.data.unset key).find _ = _ at hraw
      rw [Table.find_unset] at hraw
      split at hraw
      · cases hraw
      · exact h.blob digest raw hd hraw

theorem Deposited.step {F : Prop} {γ : Type} {c : Call γ} {f f' : Fields} {r : γ} {b' : Backend}
    (hc : c.Deposits store work) (h : Deposited store work b)
    (hs : (together F).step (b, f) c r (b', f')) : Deposited store work b' := by
  cases c with
  | field a =>
    rw [together_field hs]
    exact h
  | backend c =>
    rcases together_backend hs with rfl | rfl
    · exact h.run hc
    · exact h

/-! ### The operations -/

theorem Call.Reads.deposits {γ : Type} {c : Call γ} (h : c.Reads) : c.Deposits store work := by
  cases c with
  | field a => trivial
  | backend c =>
    cases c with
    | put | delete => exact h.elim
    | get | existsKey | listKeys => trivial

theorem deposits_put {key : String} {data : Bytes}
    (hm : ∀ fileId, key = manifestKey fileId → fileId = indexName)
    (hd : isChunkDigest key = false) : (Call.backend (.put key data)).Deposits store work :=
  ⟨fun fileId hkey hne ↦ absurd (hm fileId hkey) hne, fun h ↦ absurd h (by rw [hd]; decide)⟩

theorem deposits_put_refcountKey {d : String} {data : Bytes} :
    (Call.backend (.put (refcountKey d) data)).Deposits store work :=
  deposits_put (fun _ h ↦ absurd h (refcountKey_ne_manifestKey d _)) (isChunkDigest_refcountKey d)

theorem deposits_put_manifestIndexKey {data : Bytes} :
    (Call.backend (.put manifestIndexKey data)).Deposits store work :=
  deposits_put (fun _ h ↦ manifestKey_eq_indexKey.mp h.symm) isChunkDigest_manifestIndexKey

/-- Code whose every request, whatever is answered, deposits. -/
abbrev DepositsOnly (store : ChunkStore) (work : List (List ChunkStore.Op)) {α : Type}
    (p : BackendM α) : Prop := Makes (Call.Deposits store work) p

theorem Makes.deposits {α : Type} {p : BackendM α} (h : Makes Call.Reads p) :
    DepositsOnly store work p := h.mono fun _ hc ↦ hc.deposits

theorem deposits_saveRefcount {d : String} {count size : ℕ} :
    DepositsOnly store work (saveRefcount store.crates d count size) := by
  rw [saveRefcount_eq]
  exact (makes_ofExcept _).bind fun _ ↦ (makes_backendCall deposits_put_refcountKey).bind fun _ ↦
    (reads_readStringList store.crates _).deposits.bind fun _ ↦ makes_ite (makes_pure _)
      (makes_backendCall (refcountKey_indexName ▸ deposits_put_refcountKey))

private theorem deposits_removeRefcount {d : String} :
    DepositsOnly store work (removeRefcount store.crates d) := by
  rw [removeRefcount_eq]
  exact (makes_backendCall trivial).bind fun _ ↦ (reads_readStringList store.crates _).deposits.bind
    fun _ ↦ makes_backendCall (refcountKey_indexName ▸ deposits_put_refcountKey)

theorem deposits_releaseDigest (d : String) :
    DepositsOnly store work (flat (store.releaseDigest d)) := by
  simp only [ChunkStore.releaseDigest, flat_bind, flat_locked, flat_ite, flat_unlocked]
  refine (reads_chunkSize store d).deposits.bind fun size ↦ (makes_fieldOrThrow trivial).bind
    fun remaining ↦ makes_ite ?_ ?_
  · exact (makes_backendCall trivial).bind fun _ ↦ deposits_removeRefcount.bind fun _ ↦
      (makes_field trivial).bind fun _ ↦ makes_field trivial
  · exact deposits_saveRefcount.bind fun _ ↦ makes_field trivial

theorem deposits_delete (fileId : String) :
    DepositsOnly store work (flat (store.delete fileId)) := by
  have hrelease (digests : List String) :
      DepositsOnly store work (flat (store.releaseDigests digests)) := by
    induction digests with
    | nil => exact makes_pure _
    | cons d digests ih =>
      rw [ChunkStore.releaseDigests, flat_bind]
      exact (deposits_releaseDigest d).bind fun _ ↦ ih
  rw [ChunkStore.flat_delete, ChunkStore.withdraw]
  refine Makes.bind ?_ fun digests ↦ hrelease _
  refine (makes_fieldOrThrow trivial).bind fun _ ↦ Makes.bind ?_ fun _ ↦ makes_pure _
  rw [removeManifest_eq]
  exact (makes_backendCall trivial).bind fun _ ↦ (reads_readStringList store.crates _).deposits.bind
    fun _ ↦ makes_backendCall deposits_put_manifestIndexKey

theorem deposits_storeChunk {chunk : Bytes} (h : store.Ingests work chunk) :
    DepositsOnly store work
      (flat (store.storeChunk (digestHex store.crates.sha256 chunk) chunk)) := by
  simp only [ChunkStore.storeChunk, ChunkStore.countChunk, flat_bind, flat_ofExcept, flat_locked,
    flat_ite, flat_pure]
  have hcount : DepositsOnly store work (do
      let count ← fieldOrThrow
          (.refcountIncrement (digestHex store.crates.sha256 chunk) chunk.length)
      let storedSize ← field (.refcountSizeOf (digestHex store.crates.sha256 chunk))
      saveRefcount store.crates (digestHex store.crates.sha256 chunk) count
        (storedSize.getD chunk.length)) :=
    (makes_fieldOrThrow trivial).bind fun _ ↦ (makes_field trivial).bind fun _ ↦
      deposits_saveRefcount
  cases hb : store.encodeBlob chunk with
  | error e => exact makes_throw e
  | ok blob =>
    rw [ofExcept_ok, pure_bind]
    refine Makes.bind ?_ fun present ↦ hcount.bind fun _ ↦
      makes_ite ((makes_field trivial).bind fun _ ↦ makes_pure _)
        ((makes_field trivial).bind fun _ ↦ makes_pure _)
    have hput :
        (Call.backend (.put (digestHex store.crates.sha256 chunk) blob)).Deposits store work :=
      ⟨fun _ hkey _ ↦ absurd hkey (ne_of_isChunkDigest (isChunkDigest_digestHex _ _)
        (isChunkDigest_manifestKey _)), fun _ ↦ ⟨chunk, h, hb, rfl⟩⟩
    exact (makes_backendCall trivial).bind fun _ ↦ makes_ite (makes_pure _)
      ((makes_backendCall hput).bind fun _ ↦ makes_pure _)

private theorem deposits_backfillRefcountSizes (rc : RefCount) :
    DepositsOnly store work (backfillRefcountSizes store.crates rc) := by
  refine makes_foldlM (fun rc e ↦ ?_) _ _
  refine Makes.bind (makes_backendCall trivial) fun raw ↦ ?_
  cases raw with
  | none => exact makes_pure _
  | some data => exact makes_ite (deposits_saveRefcount.bind fun _ ↦ makes_pure _) (makes_pure _)

theorem deposits_reopen : DepositsOnly store work (flat store.reopen) := by
  have hload : DepositsOnly store work (loadMetadata store.crates) :=
    (reads_loadManifests _).deposits.bind fun _ ↦ (reads_loadRefcounts _).deposits.bind fun _ ↦
      (deposits_backfillRefcountSizes _).bind fun _ ↦ makes_field trivial
  have hopen : DepositsOnly store work (flat (openStore store.crates)) := by
    rw [flat_openStore]
    exact hload.bind fun _ ↦ (makes_rebuildStats _ (fun _ h ↦ h.deposits) fun _ ↦ trivial).bind
      fun _ ↦ makes_pure _
  rw [ChunkStore.reopen]
  cases store.codec with
  | none =>
    rw [flat_bind]
    exact hopen.bind fun _ ↦ makes_pure _
  | some codec =>
    simp only [openWithCodec, flat_bind, bind_assoc]
    exact hopen.bind fun _ ↦ makes_pure _

/-- The guarantee of a process: whatever it is answered, it deposits. -/
abbrev depositing (store : ChunkStore) (work : List (List ChunkStore.Op)) : Machine Call State :=
  ⟨fun _ c _ _ ↦ c.Deposits store work⟩

theorem Makes.depositing {α : Type} {p : BackendM α} (h : DepositsOnly store work p) (s : State) :
    wpx .any (depositing store work) p (fun _ _ ↦ True) (fun _ _ ↦ True) s :=
  wp_post (Uses.wp (I := fun _ ↦ True) h (fun _ _ _ _ hc _ _ ↦ ⟨hc, trivial⟩) trivial)
    fun r _ _ ↦ by cases r <;> trivial

private theorem depositing_ingest {fileId : String} {stream : Stream} {s : State}
    (hseen : ∀ chunk ∈ stream.chunks, store.Ingests work chunk)
    (hcommits : stream.error = none → store.Commits work fileId stream.chunks) :
    wpx .any (depositing store work) (flat (store.ingestStream fileId stream))
      (fun _ _ ↦ True) (fun _ _ ↦ True) s := by
  refine wpx_mono (wpx_ingestStream (I := fun l _ ↦ ∀ chunk ∈ l, store.Ingests work chunk)
    (K := fun _ _ ↦ True) (R := fun _ _ ↦ True) ?_ (fun _ _ _ _ ↦ trivial) ?_ ?_ hseen)
    (fun _ _ _ ↦ trivial) fun _ _ _ ↦ trivial
  · intro chunk l s hall
    refine wpx_mono ((deposits_storeChunk (hall chunk List.mem_cons_self)).depositing s)
      (fun _ _ _ ↦ ?_) fun _ _ h ↦ h
    exact fun c hc ↦ hall c (List.mem_cons_of_mem chunk hc)
  · intro s herror _
    -- the stream has come to its end, so what is saved is a commit
    have hput : (Call.backend (.put (manifestKey fileId)
        (store.crates.serde.manifestToVec (store.recordOf stream.chunks)))).Deposits
        store work := by
      refine ⟨fun f hkey _ ↦ ?_, fun h ↦ absurd h (by simp)⟩
      rw [← manifestKey_inj.mp hkey]
      exact ⟨stream.chunks, hcommits herror, rfl⟩
    have hsave : DepositsOnly store work (saveManifest store.crates fileId
        (stream.chunks.map (digestHex store.crates.sha256))
        (stream.chunks.map List.length).sum) := by
      rw [saveManifest_eq]
      exact (makes_ofExcept _).bind fun _ ↦ (makes_backendCall hput).bind fun _ ↦
        (reads_readStringList store.crates _).deposits.bind fun _ ↦ makes_ite (makes_pure _)
          (makes_backendCall deposits_put_manifestIndexKey)
    have hexchange : DepositsOnly store work (store.exchange fileId
        (stream.chunks.map (digestHex store.crates.sha256)) (stream.chunks.map List.length).sum) :=
      (makes_field trivial).bind fun _ ↦ (makes_fieldOrThrow trivial).bind fun _ ↦
        hsave.bind fun _ ↦ makes_pure _
    exact hexchange.depositing s
  · intro d ds s _
    exact (deposits_releaseDigest d).depositing s

/-- **Every operation deposits** what the work says. -/
theorem depositing_perform {ops : List ChunkStore.Op} {op : ChunkStore.Op} {s : State}
    (hops : ops ∈ work) (hop : op ∈ ops) :
    wpx .any (depositing store work) (flat (store.perform op)) (fun _ _ ↦ True) (fun _ _ ↦ True)
      s := by
  rw [ChunkStore.perform.eq_def]
  cases op with
  | ingest fileId input =>
    rw [ChunkStore.flat_map, ChunkStore.ingestInput_eq, map_eq_pure_bind, wpx_bind]
    refine wpx_mono (depositing_ingest (fun chunk hchunk ↦ ?_) fun herror ↦ ?_)
      (fun _ _ _ ↦ trivial) fun _ _ h ↦ h
    · exact ⟨.ingest fileId input, List.mem_flatten.mpr ⟨ops, hops, hop⟩, hchunk⟩
    · exact ⟨ops, hops, input, hop, by rw [← herror]⟩
  | delete fileId =>
    rw [ChunkStore.flat_map]
    exact (Makes.map (deposits_delete fileId)).depositing s
  | read fileId =>
    rw [ChunkStore.flat_map]
    exact (Makes.map (reads_read store fileId).deposits).depositing s
  | readChunk digest =>
    rw [ChunkStore.flat_map]
    exact (Makes.map (reads_readChunk store digest).deposits).depositing s
  | fsck repair =>
    rw [ChunkStore.flat_map]
    exact (Makes.map (makes_fsck trivial (fun _ ↦ trivial) trivial (fun _ ↦ trivial)
      repair)).depositing s
  | stats =>
    rw [ChunkStore.flat_map, ChunkStore.stats, flat_locked]
    exact (Makes.map (makes_field trivial)).depositing s
  | chunkRefcount digest =>
    rw [ChunkStore.flat_map, ChunkStore.chunkRefcount, flat_locked]
    exact (Makes.map (makes_field trivial)).depositing s
  | reopen =>
    rw [ChunkStore.flat_map]
    exact (Makes.map deposits_reopen).depositing s

theorem depositing_serve {ops ops' : List ChunkStore.Op} {s : State} (hops : ops ∈ work)
    (hsub : ∀ op ∈ ops', op ∈ ops) :
    wp .any (depositing store work) (store.serve ops') (fun _ _ ↦ True) s := by
  induction ops' generalizing s with
  | nil => trivial
  | cons op ops' ih =>
    rw [ChunkStore.serve, wp_bind]
    refine wp_post (depositing_perform hops (hsub op List.mem_cons_self)) fun _ s' _ ↦ ?_
    rw [wp_bind]
    exact wp_post (ih fun o ho ↦ hsub o (List.mem_cons_of_mem op ho)) fun _ _ _ ↦ trivial

/-- **What is on the common backend** is, at every moment, what some ingest put there. -/
theorem deposited_of_steps {F : Prop} {lists : Bool}
    {c : List (Party Call Fields (List (Except ChunkStoreError ChunkStore.Reply))) × Backend}
    (h : (together F).SharedSteps (store.processes work, ⟨∅, lists⟩) c) :
    Deposited store work c.2 := by
  refine (h.invariant (T := State) (t := .empty lists) (P := Call.Deposits store work)
    (fun c b f r b' f' hc hb hs ↦ hb.step hc hs) ?_ (deposited_empty lists)).1
  intro Q hQ
  obtain ⟨ops, hops, rfl⟩ := List.mem_map.mp hQ
  exact depositing_serve hops fun _ h ↦ h

end Deposits

/-! ## What a process loads -/

/-- What code of one process ends in when the backend is, before each call, any of `V`. -/
abbrev amid (F : Prop) (V : Backend → Prop) {α : Type} (p : BackendM α) (Q : α → Fields → Prop)
    (f : Fields) : Prop :=
  wpx ((together F).among V) .any p Q (fun _ _ ↦ True) f

/-- A request that leaves the manifest as it is. -/
def Call.KeepsManifest {γ : Type} : Call γ → Prop
  | .field (.construct _ _) => False
  | .field (.manifestInsert _ _ _) => False
  | .field (.manifestRemove _) => False
  | _ => True

theorem Call.KeepsManifest.run {γ : Type} {a : FieldAccess γ} (h : (Call.field a).KeepsManifest)
    (f : Fields) : (a.run f).2.manifest = f.manifest := by
  cases a with
  | construct | manifestInsert | manifestRemove => exact h.elim
  | refcountIncrement digest size =>
    dsimp only [FieldAccess.run]
    split <;> rfl
  | refcountDecrement digest =>
    dsimp only [FieldAccess.run]
    split <;> rfl
  | _ => rfl

section Amid

variable {F : Prop} {V : Backend → Prop} {α β γ : Type} {Q : α → Fields → Prop} {f : Fields}

theorem amid_backendCall {c : BackendCall α} (hQ : ∀ b, V b → Q (c.run b).1 f) :
    amid F V (backendCall c) Q f := by
  rintro r f' ⟨b, b', hb, hs⟩
  refine ⟨trivial, ?_⟩
  rcases hs with ⟨rfl, hs⟩ | ⟨-, ⟨e, rfl⟩, -⟩
  · obtain rfl : f' = f := (State.mk.inj hs).2
    exact hQ b hb
  · trivial

theorem amid_field {a : FieldAccess α} (hQ : Q (a.run f).1 (a.run f).2) :
    amid F V (field a) Q f := by
  rintro r f' ⟨b, b', -, rfl, hs⟩
  obtain rfl := (State.mk.inj hs).2
  exact ⟨trivial, hQ⟩

theorem amid_fieldOrThrow {a : FieldAccess (Except ChunkStoreError α)}
    (hQ : ∀ x, (a.run f).1 = .ok x → Q x (a.run f).2) : amid F V (fieldOrThrow a) Q f := by
  rintro r f' ⟨b, b', -, rfl, hs⟩
  obtain rfl := (State.mk.inj hs).2
  refine ⟨trivial, ?_⟩
  change outcome Q _ (a.run f).1 _
  cases hr : (a.run f).1 with
  | ok x => exact hQ x hr
  | error e => trivial

theorem amid_ofExcept {r : Except ChunkStoreError α} (hQ : ∀ a, r = .ok a → Q a f) :
    amid F V (ofExcept r) Q f := by
  cases r with
  | ok a => exact hQ a rfl
  | error e => trivial

theorem amid_bind {p : BackendM α} {g : α → BackendM β} {Q : β → Fields → Prop}
    (h : amid F V p (fun a f' ↦ amid F V (g a) Q f') f) : amid F V (p >>= g) Q f :=
  (wpx_bind p g).mpr h

theorem amid_mono {p : BackendM α} {Q' : α → Fields → Prop} (h : amid F V p Q f)
    (hQ : ∀ a f', Q a f' → Q' a f') : amid F V p Q' f := wpx_mono h hQ fun _ _ _ ↦ trivial

theorem amid_true (p : BackendM α) : amid F V p (fun _ _ ↦ True) f :=
  wp_post (wp_true p.run f) fun r _ _ ↦ by cases r <;> trivial

theorem amid_map {p : BackendM α} {g : α → β} {Q : β → Fields → Prop}
    (h : amid F V p (fun a ↦ Q (g a)) f) : amid F V (g <$> p) Q f := by
  rw [map_eq_pure_bind]
  exact amid_bind (amid_mono h fun _ _ hq ↦ hq)

theorem Call.Reads.keepsManifest {c : Call γ} (h : c.Reads) : c.KeepsManifest := by
  cases c with
  | backend c => trivial
  | field a =>
    cases a with
    | construct | manifestInsert | manifestRemove => exact h.elim
    | _ => trivial

theorem amid_of_keeps {p : Program Call α} (hp : p.Uses Call.KeepsManifest) :
    wp ((together F).among V) .any p (fun _ (f' : Fields) ↦ f'.manifest = f.manifest) f := by
  refine Uses.wp (I := fun f' : Fields ↦ f'.manifest = f.manifest) hp
    (fun c f₁ r f₂ hc h₁ hs ↦ ?_) rfl
  refine ⟨trivial, ?_⟩
  obtain ⟨b, b', -, hs⟩ := hs
  cases c with
  | backend c =>
    rcases hs with ⟨-, hs⟩ | ⟨-, -, hs | hs⟩
    all_goals exact (congrArg Fields.manifest (State.mk.inj hs).2).trans h₁
  | field a =>
    exact (congrArg Fields.manifest (State.mk.inj hs.2).2).trans ((hc.run f₁).trans h₁)

end Amid

section Loading

variable {F : Prop} {V : Backend → Prop} {f : Fields} {store : ChunkStore}

/-- Every entry of a manifest was a record on one of the backends. -/
def LoadedFrom (crates : Crates) (V : Backend → Prop) (m : Manifest) : Prop :=
  ∀ fileId digests, m.tryGet fileId = some digests → ∃ b raw record, V b ∧
    b.data.find (manifestKey fileId) = some raw ∧
      crates.serde.manifestFromSlice raw = .ok record ∧ record.digests = digests

private theorem amid_loadManifests (crates : Crates) :
    amid F V (loadManifests crates) (fun m _ ↦ LoadedFrom crates V m) f := by
  refine amid_bind (amid_mono (amid_true _) fun index f' _ ↦ ?_)
  refine wpx_foldlM (J := fun _ m _ ↦ LoadedFrom crates V m) ?_ index Manifest.new f' ?_
  · intro fileId l m f₁ hm
    refine amid_bind (amid_backendCall fun b hb ↦ ?_)
    dsimp only [BackendCall.run]
    cases hraw : b.data.find (manifestKey fileId) with
    | none => trivial
    | some raw =>
      dsimp only
      cases hrecord : crates.serde.manifestFromSlice raw with
      | error e => trivial
      | ok record =>
        refine amid_bind (amid_ofExcept fun _ _ ↦ amid_ofExcept fun m' hinsert ↦ ?_)
        -- the file that was loaded, or one that was loaded before
        intro g digests hget
        rw [Manifest.updated_of_insert hinsert g] at hget
        split at hget
        · rename_i hg
          exact ⟨b, raw, record, hb, hg ▸ hraw, hrecord, Option.some.inj hget⟩
        · exact hm g digests hget
  · intro fileId digests hget
    cases hget

/-- A process that has opened the backend has loaded its manifest from it. -/
theorem amid_reopen :
    amid F V (flat store.reopen) (fun _ f' ↦ LoadedFrom store.crates V f'.manifest) f := by
  have hopen : amid F V (flat (openStore store.crates))
      (fun _ f' ↦ LoadedFrom store.crates V f'.manifest) f := by
    rw [flat_openStore, loadMetadata]
    refine amid_bind (amid_bind (amid_mono (amid_loadManifests store.crates) fun m f₁ hm ↦ ?_))
    refine amid_bind (amid_mono (amid_true _) fun loaded f₂ _ ↦ ?_)
    refine amid_bind (amid_mono (amid_true _) fun refcount f₃ _ ↦ amid_field ?_)
    refine amid_bind (wp_post (amid_of_keeps (makes_rebuildStats _ (fun _ h ↦ h.keepsManifest)
      fun _ ↦ trivial)) fun r f₄ h₄ ↦ ?_)
    cases r with
    | error e => trivial
    | ok u =>
      change LoadedFrom store.crates V f₄.manifest
      rw [show f₄.manifest = m from h₄]
      exact hm
  rw [ChunkStore.reopen]
  cases store.codec with
  | none =>
    rw [flat_bind]
    exact amid_bind (amid_mono hopen fun _ _ h ↦ h)
  | some codec =>
    simp only [openWithCodec, flat_bind, bind_assoc]
    exact amid_bind (amid_mono hopen fun _ _ h ↦ h)

/-! ### Reading -/

/-- A chunk that was decoded from the blob of a digest on one of the backends. -/
def Fetched (store : ChunkStore) (V : Backend → Prop) (digest : String) (chunk : Bytes) : Prop :=
  ∃ b raw, V b ∧ b.data.find digest = some raw ∧ store.decodeBlob raw = .ok chunk ∧
    digestHex store.crates.sha256 chunk = digest

private theorem amid_readChunkByDigest (digest : String) :
    amid F V (flat (store.readChunkByDigest digest))
      (fun chunk _ ↦ Fetched store V digest chunk) f := by
  simp only [ChunkStore.readChunkByDigest, flat_bind, flat_unlocked]
  refine amid_bind (amid_backendCall fun b hb ↦ ?_)
  dsimp only [BackendCall.run]
  cases hraw : b.data.find digest with
  | none => trivial
  | some raw =>
    simp only [flat_bind, flat_ofExcept, flat_pure]
    refine amid_bind (amid_ofExcept fun chunk hchunk ↦ amid_bind (amid_ofExcept fun _ hv ↦ ?_))
    exact ⟨b, raw, hb, hraw, hchunk, verifyDigest_eq_ok.mp hv⟩

private theorem amid_writeChunks (digests : List String) (out : Bytes) :
    wp ((together F).among V) .any ((store.writeChunks digests ⟨[], out⟩).translate Block.body)
      (fun r _ ↦ r.1 = .ok () → ∃ chunks, List.Forall₂ (Fetched store V) digests chunks ∧
        r.2.out = out ++ chunks.flatten) f := by
  induction digests generalizing out f with
  | nil => exact fun _ ↦ ⟨[], .nil, (List.append_nil out).symm⟩
  | cons d digests ih =>
    rw [ChunkStore.writeChunks, translate_bind, wp_bind]
    refine wp_post (amid_readChunkByDigest d) fun r f' hr ↦ ?_
    cases r with
    | error e =>
      intro h
      cases h
    | ok chunk =>
      dsimp only
      rw [writeAll_nil]
      refine wp_post (ih (out ++ chunk)) fun r f'' hrest hok ↦ ?_
      obtain ⟨chunks, hall, hout⟩ := hrest hok
      exact ⟨chunk :: chunks, .cons hr hall, by
        rw [hout, List.flatten_cons, List.append_assoc]⟩

theorem Manifest.tryGet_of_get {m : Manifest} {fileId : String} {digests : List String}
    (h : m.get fileId = .ok digests) : m.tryGet fileId = some digests := by
  rw [Manifest.get] at h
  rw [Manifest.tryGet]
  split at h
  · rename_i hfind
    rw [hfind, Except.ok.inj h]
  · cases h

/-- A read that returns has the chunks of the list in its manifest. -/
theorem amid_read (fileId : String) :
    amid F V (flat (store.read fileId)) (fun data _ ↦ ∃ digests chunks,
      f.manifest.tryGet fileId = some digests ∧ List.Forall₂ (Fetched store V) digests chunks ∧
        data = chunks.flatten) f := by
  have hget : amid F V (flat (ChunkStore.digestsForFile fileId))
      (fun digests _ ↦ f.manifest.tryGet fileId = some digests) f := by
    rw [ChunkStore.digestsForFile, flat_locked]
    exact amid_fieldOrThrow fun digests hok ↦ Manifest.tryGet_of_get hok
  have hto : wp ((together F).among V) .any ((store.readToWriter fileId .vec).translate Block.body)
      (fun r _ ↦ r.1 = .ok () → ∃ digests chunks, f.manifest.tryGet fileId = some digests ∧
        List.Forall₂ (Fetched store V) digests chunks ∧ r.2.out = chunks.flatten) f := by
    rw [ChunkStore.readToWriter, translate_bind, wp_bind]
    refine wp_post hget fun r f' hr ↦ ?_
    cases r with
    | error e =>
      intro h
      cases h
    | ok digests =>
      refine wp_post (amid_writeChunks digests []) fun r f'' hrest hok ↦ ?_
      obtain ⟨chunks, hall, hout⟩ := hrest hok
      exact ⟨digests, chunks, hr, hall, hout⟩
  rw [amid, wpx, flat, ExceptT.run_mk, ChunkStore.read, ExceptT.run_mk, translate_bind, wp_bind]
  refine wp_post hto fun r f' hr ↦ ?_
  obtain ⟨r, writer⟩ := r
  cases r with
  | error e => trivial
  | ok u => exact hr rfl

/-! ### Versions -/

variable {work : List (List ChunkStore.Op)} {fileId : String} {digests : List String}
  {chunks : List Bytes} {m : Manifest}

private theorem ChunkStore.Commits.ingests (h : store.Commits work fileId chunks) :
    ∀ chunk ∈ chunks, store.Ingests work chunk := by
  obtain ⟨ops, hops, input, hop, hstream⟩ := h
  intro chunk hchunk
  refine ⟨_, List.mem_flatten.mpr ⟨ops, hops, hop⟩, ?_⟩
  rw [ChunkStore.chunksOf, hstream]
  exact hchunk

/-- Chunks that were fetched by their digests are the chunks that were stored under them. -/
private theorem eq_of_fetched (hV : ∀ b, V b → Deposited store work b)
    (hnc : NoCollision store.crates.sha256 (store.Ingests work)) {stored : List Bytes}
    (hstored : ∀ chunk ∈ stored, store.Ingests work chunk)
    (h : List.Forall₂ (Fetched store V) (stored.map (digestHex store.crates.sha256)) chunks) :
    chunks = stored := by
  induction stored generalizing chunks with
  | nil => exact List.forall₂_nil_left_iff.mp h
  | cons c stored ih =>
    rw [List.map_cons] at h
    obtain ⟨chunk, rest, ⟨b, raw, hb, hraw, hdecode, hdig⟩, hrest, rfl⟩ :=
      List.forall₂_cons_left_iff.mp h
    obtain ⟨known, hknown, hencode, hkd⟩ := (hV b hb).blob _ raw (isChunkDigest_digestHex _ _) hraw
    obtain rfl : known = chunk :=
      Except.ok.inj ((store.decodeBlob_encodeBlob hencode).symm.trans hdecode)
    rw [hnc known c hknown (hstored c List.mem_cons_self) hdig,
      ih (fun chunk hc ↦ hstored chunk (List.mem_cons_of_mem c hc)) hrest]

/-- **A file that was loaded and fetched is a version** whose record was on one of the backends. -/
theorem version_of_fetched (hV : ∀ b, V b → Deposited store work b)
    (hnc : NoCollision store.crates.sha256 (store.Ingests work)) (hne : fileId ≠ indexName)
    (hload : LoadedFrom store.crates V m) (hget : m.tryGet fileId = some digests)
    (h : List.Forall₂ (Fetched store V) digests chunks) :
    ∃ b, V b ∧ store.Commits work fileId chunks ∧ b.data.find (manifestKey fileId)
      = some (store.crates.serde.manifestToVec (store.recordOf chunks)) := by
  obtain ⟨b, raw, record, hb, hraw, hrecord, rfl⟩ := hload fileId digests hget
  obtain ⟨stored, hcommits, rfl⟩ := (hV b hb).record fileId raw hne hraw
  rw [store.crates.serde.manifest_roundtrip] at hrecord
  rw [← Except.ok.inj hrecord] at h
  obtain rfl := eq_of_fetched hV hnc hcommits.ingests h
  exact ⟨b, hb, hcommits, hraw⟩

end Loading

/-! ## Runs of several processes -/

namespace ChunkStore

/-- An operation that asks and changes nothing. -/
def Op.Asks : Op → Prop
  | .read _ => True
  | .readChunk _ => True
  | .fsck repair => repair = false
  | .stats => True
  | .chunkRefcount _ => True
  | _ => False

variable {store : ChunkStore} {work : List (List Op)} {F : Prop} {V : Backend → Prop} {f : Fields}

theorem reads_ask {op : Op} (h : op.Asks) : Makes Call.Reads (flat (store.perform op)) := by
  rw [perform.eq_def]
  cases op with
  | read fileId =>
    rw [flat_map]
    exact (reads_read store fileId).map
  | readChunk digest =>
    rw [flat_map]
    exact (reads_readChunk store digest).map
  | fsck repair =>
    rw [show repair = false from h, flat_map]
    refine Makes.map ?_
    simp only [fsck, flat_bind, flat_locked, flat_unlocked, flat_ite, flat_pure]
    refine (makes_field trivial).bind fun refs ↦ (makes_missingBlobs (fun _ ↦ trivial) _).bind
      fun missing ↦ Makes.bind ?_ fun orphans ↦ makes_pure _
    exact (makes_backendCall trivial).bind fun keys ↦ by cases keys <;> exact makes_pure _
  | stats =>
    rw [flat_map, stats, flat_locked]
    exact Makes.map (makes_field trivial)
  | chunkRefcount digest =>
    rw [flat_map, chunkRefcount, flat_locked]
    exact Makes.map (makes_field trivial)
  | ingest | delete | reopen => exact h.elim

/-- The data is the contents of an ingest of the file whose record was on one of the backends. -/
def WasCommitted (store : ChunkStore) (work : List (List Op)) (V : Backend → Prop)
    (fileId : String) (data : Bytes) : Prop :=
  ∃ b, V b ∧ ∃ ops ∈ work, ∃ input, .ingest fileId input ∈ ops ∧
    (input.stream store.crates).error = none ∧ data = input.contents ∧
      b.data.find (manifestKey fileId) = some (store.crates.serde.manifestToVec
        (store.recordOf (input.stream store.crates).chunks))

/-- A read after other questions, by a process that has loaded its manifest. -/
theorem amid_serve (hV : ∀ b, V b → Deposited store work b)
    (hnc : NoCollision store.crates.sha256 (store.Ingests work)) {fileId : String}
    (hne : fileId ≠ indexName) {mid rest : List Op} (hmid : ∀ op ∈ mid, op.Asks)
    (hload : LoadedFrom store.crates V f.manifest) :
    wp ((together F).among V) .any (store.serve (mid ++ .read fileId :: rest))
      (fun rs _ ↦ ∀ rs₁ rs₂ data, rs = rs₁ ++ .ok (.bytes data) :: rs₂ → rs₁.length = mid.length →
        store.WasCommitted work V fileId data) f := by
  induction mid generalizing f with
  | nil =>
    rw [List.nil_append, serve, wp_bind]
    have hread : amid F V (flat (store.perform (.read fileId))) (fun reply _ ↦
        ∀ data, reply = .bytes data → store.WasCommitted work V fileId data) f := by
      rw [perform, flat_map]
      refine amid_map (amid_mono (amid_read fileId) fun data _ hdata ↦ ?_)
      rintro _ ⟨⟩
      obtain ⟨digests, chunks, hget, hall, rfl⟩ := hdata
      obtain ⟨b, hb, ⟨ops, hops, input, hop, hstream⟩, hrecord⟩ :=
        version_of_fetched hV hnc hne hload hget hall
      have hcontents : chunks.flatten = input.contents := by
        rw [← flatten_stream (by rw [hstream]), hstream]
      exact ⟨b, hb, ops, hops, input, hop, by rw [hstream], hcontents, by rw [hstream, hrecord]⟩
    -- what comes after the read does not matter
    refine wp_post hread fun r f' hr ↦ ?_
    rw [wp_bind]
    refine wp_post (wp_true _ f') fun rs f'' _ ↦ ?_
    intro rs₁ rs₂ data heq hlen
    rw [List.length_nil, List.length_eq_zero_iff] at hlen
    subst hlen
    obtain ⟨rfl, -⟩ := List.cons.inj heq
    exact hr data rfl
  | cons op mid ih =>
    -- asking leaves the manifest as it was loaded
    rw [List.cons_append, serve, wp_bind]
    refine wp_post (amid_of_keeps ((reads_ask (hmid op List.mem_cons_self)).mono
      fun _ h ↦ h.keepsManifest)) fun r f' hf' ↦ ?_
    rw [wp_bind]
    refine wp_post (ih (fun o ho ↦ hmid o (List.mem_cons_of_mem op ho)) ?_) fun rs f'' hrs ↦ ?_
    · rw [hf']
      exact hload
    · intro rs₁ rs₂ data heq hlen
      cases rs₁ with
      | nil => cases hlen
      | cons r₁ rs₁ =>
        exact hrs rs₁ rs₂ data (List.cons.inj heq).2 (Nat.succ.inj hlen)

/-- **Reads see committed files.** Any number of processes on one backend execute any operations,
and any call of any of them may come between two calls of another, or fail. When a process opens the
backend, asks whatever it likes and then reads a file, what it gets is the complete contents of one
ingest of that file, and the record of this ingest was on the backend at a moment since the process
began to open it. -/
theorem reads_committed (store : ChunkStore) (F : Prop) (lists : Bool) (work : List (List Op))
    (fileId : String) (done : List (Except ChunkStoreError Reply)) (mid rest : List Op)
    (own own' : Fields) (i : ℕ)
    (c c' : List (Party Call Fields (List (Except ChunkStoreError Reply))) × Backend)
    (rs₁ rs₂ : List (Except ChunkStoreError Reply)) (data : Bytes)
    (hnc : NoCollision store.crates.sha256 (store.Ingests work)) (hne : fileId ≠ indexName)
    (hmid : ∀ op ∈ mid, op.Asks)
    (hc : (together F).SharedSteps (store.processes work, ⟨∅, lists⟩) c)
    (hi : c.1[i]? = some ⟨store.serve (.reopen :: (mid ++ .read fileId :: rest)) >>=
      fun rs ↦ .ret (done ++ rs), own⟩)
    (h : (together F).SharedSteps c c')
    (hi' : c'.1[i]? = some
      ⟨.ret (done ++ .ok .done :: (rs₁ ++ .ok (.bytes data) :: rs₂)), own'⟩)
    (hlen : rs₁.length = mid.length) :
    store.WasCommitted work ((together F).Visits c c') fileId data := by
  -- whatever the process finds on the way is a backend of the system
  have hV : ∀ b, (together F).Visits c c' b → Deposited store work b := by
    rintro _ ⟨d, hcd, -, rfl⟩
    exact deposited_of_steps (hc.trans hcd)
  have hw : wp ((together F).among ((together F).Visits c c')) .any
      (store.serve (.reopen :: (mid ++ .read fileId :: rest)) >>= fun rs ↦ .ret (done ++ rs))
      (fun rs _ ↦ rs = done ++ .ok .done :: (rs₁ ++ .ok (.bytes data) :: rs₂) →
        store.WasCommitted work ((together F).Visits c c') fileId data) own := by
    rw [wp_bind, serve, wp_bind]
    have hopen : amid F ((together F).Visits c c') (flat (store.perform .reopen))
        (fun _ f' ↦ LoadedFrom store.crates ((together F).Visits c c') f'.manifest) own := by
      rw [perform, flat_map]
      exact amid_map amid_reopen
    refine wp_post hopen fun r f' hr ↦ ?_
    rw [wp_bind]
    cases r with
    | error e =>
      -- it has opened the backend, by what it returned
      refine wp_post (wp_true _ f') fun rs f'' _ heq ↦ ?_
      exact absurd (List.cons.inj (List.append_cancel_left heq)).1 (by intro h; cases h)
    | ok reply =>
      refine wp_post (amid_serve hV hnc hne hmid hr) fun rs f'' hrs heq ↦ ?_
      exact hrs rs₁ rs₂ data (List.cons.inj (List.append_cancel_left heq)).2 hlen
  exact wp_steps hw (h.among_get hi hi') rfl

/-- A process that ingests two files, and one that opens the backend and reads the first. -/
def writerAndReader : List (List Op) :=
  [[.reopen, .ingest "f" (.bytes [0x61]), .ingest "g" (.bytes [0x62])], [.reopen, .read "f"]]

/-- The first file is ingested, and then the processes take turns. -/
def ingestThenTurns : List ℕ := .replicate 18 0 ++ (List.replicate 20 [1, 0]).flatten

theorem reads_committed_turns : smallStore.WasCommitted writerAndReader
    ((together False).Visits (smallStore.processes writerAndReader, ⟨∅, true⟩)
      (togetherHandler.turns ingestThenTurns (smallStore.processes writerAndReader, ⟨∅, true⟩)))
    "f" [0x61] := by
  obtain ⟨P, hP, hret⟩ : ∃ P, (togetherHandler.turns ingestThenTurns
      (smallStore.processes writerAndReader, ⟨∅, true⟩)).1[1]? = some P ∧
        P.program = .ret [.ok .done, .ok (.bytes [0x61])] := by
    obtain ⟨P, hP, hres⟩ := Option.bind_eq_some_iff.mp (by decide +kernel :
      (togetherHandler.turns ingestThenTurns (smallStore.processes writerAndReader,
        ⟨∅, true⟩)).1[1]?.bind (fun P ↦ P.program.result?)
          = some [.ok .done, .ok (.bytes [0x61])])
    exact ⟨P, hP, eq_ret_of_result? hres⟩
  obtain ⟨program, own⟩ := P
  obtain rfl := hret
  refine reads_committed smallStore False true writerAndReader "f" [] [] [] .empty own 1 _ _ [] []
    [0x61] (noCollision_ingested (by decide +kernel)) (by decide)
    (fun _ h ↦ absurd h List.not_mem_nil) .refl ?_ (together_turns _ _) hP rfl
  exact congrArg some (congrArg (Party.mk · _) (bind_pure _).symm)

end ChunkStore

end Chunkstore

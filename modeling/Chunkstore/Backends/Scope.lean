import Chunkstore.Backends.Implementation
import Chunkstore.Codec.Coded

/-!
# What a store asks of its backend

The calls of a store are about few keys: the names of chunks, the records of chunks and of files,
and the two indexes. A *scope* says which files there may be and which values may be put, and
whether keys may be listed.

That the calls of a run stay in scope is not a matter of the code alone: the manifests that are
loaded are those that the index lists, and the chunks that are read are those that a manifest names.
So the proof goes along a run, on which the store is in sync with the map.

## Main result

* `Scope.Covers.meets`: the calls of a run stay in a scope that covers its operations.
-/

open Effects Program

namespace Chunkstore

/-- Which files there may be, which values may be put, and whether keys may be listed. -/
structure Scope where
  file : String → Prop
  value : Bytes → Prop
  listing : Prop

/-- The keys of a store with such files. -/
inductive Scope.Key (sc : Scope) : String → Prop
  | blob {digest : String} (h : isChunkDigest digest = true) : sc.Key digest
  | refcount {digest : String} (h : isChunkDigest digest = true ∨ digest = indexName) :
      sc.Key (refcountKey digest)
  | manifest {fileId : String} (h : sc.file fileId ∨ fileId = indexName) :
    sc.Key (manifestKey fileId)

/-- A request in scope. -/
def Call.On (sc : Scope) {γ : Type} : Call γ → Prop
  | .backend (.put key data) => sc.Key key ∧ sc.value data
  | .backend (.get key) => sc.Key key
  | .backend (.delete key) => sc.Key key
  | .backend (.existsKey key) => isChunkDigest key = true
  | .backend (.listKeys _) => sc.listing
  | .field _ => True

/-- The records of any metadata may be put. -/
structure Scope.Records (sc : Scope) (crates : Crates) : Prop where
  strings : ∀ l, sc.value (crates.serde.stringsToVec l)
  manifest : ∀ r, sc.value (crates.serde.manifestToVec r)
  refcount : ∀ r, sc.value (crates.serde.refcountToVec r)

/-- An operation in scope. -/
def ChunkStore.Within (store : ChunkStore) (sc : Scope) : ChunkStore.Op → Prop
  | .ingest fileId input => sc.file fileId ∧ ∀ chunk ∈ (input.stream store.crates).chunks,
      ∀ blob, store.encodeBlob chunk = .ok blob → sc.value blob
  | .readChunk digest => isChunkDigest digest = true
  | .fsck _ => sc.listing
  | _ => True

/-! ## Code that stays in scope -/

section Makes

/-- A loop over what each of its rounds may be about. -/
theorem makes_foldlM_of {σ ι : Type} {P : {γ : Type} → Call γ → Prop} {f : σ → ι → BackendM σ}
    {N : ι → Prop} (hf : ∀ st a, N a → Makes P (f st a)) {l : List ι} (hl : ∀ a ∈ l, N a) (st : σ) :
    Makes P (l.foldlM f st) := by
  induction l generalizing st with
  | nil => exact makes_pure st
  | cons a l ih =>
    rw [List.foldlM_cons]
    exact (hf st a (hl a List.mem_cons_self)).bind
      (ih fun b hb ↦ hl b (List.mem_cons_of_mem a hb))

/-- The entries of a table are about chunks. -/
def CountsChunks (rc : RefCount) : Prop := ∀ d r, rc.counts.find d = some r → isChunkDigest d = true

variable {sc : Scope} {crates : Crates} {store : ChunkStore} {digest fileId key name : String}

theorem Scope.key_manifestIndexKey : sc.Key manifestIndexKey :=
  manifestKey_indexName ▸ .manifest (Or.inr rfl)

theorem Scope.key_refcountIndexKey : sc.Key refcountIndexKey :=
  refcountKey_indexName ▸ .refcount (Or.inr rfl)

theorem on_readStringList (hkey : sc.Key key) : Makes (Call.On sc) (readStringList crates key) := by
  refine Makes.bind (makes_backendCall hkey) fun raw ↦ ?_
  cases raw with
  | none => exact makes_pure _
  | some raw =>
    dsimp only
    cases crates.serde.stringsFromSlice raw with
    | ok l => exact makes_pure l
    | error e => exact makes_throw _

theorem on_listName (hv : sc.Records crates) (hkey : sc.Key key) :
    Makes (Call.On sc) (listName crates key name) :=
  (on_readStringList hkey).bind fun _ ↦ makes_ite (makes_pure _)
    (makes_backendCall ⟨hkey, hv.strings _⟩)

theorem on_unlistName (hv : sc.Records crates) (hkey : sc.Key key) :
    Makes (Call.On sc) (unlistName crates key name) :=
  (on_readStringList hkey).bind fun _ ↦ makes_backendCall ⟨hkey, hv.strings _⟩

theorem on_saveManifest (hv : sc.Records crates) (hf : sc.file fileId) (digests : List String)
    (fileBytes : ℕ) : Makes (Call.On sc) (saveManifest crates fileId digests fileBytes) := by
  rw [saveManifest_eq]
  exact (makes_ofExcept _).bind fun _ ↦
    (makes_backendCall ⟨.manifest (Or.inl hf), hv.manifest _⟩).bind fun _ ↦
      on_listName hv Scope.key_manifestIndexKey

theorem on_removeManifest (hv : sc.Records crates) (hf : sc.file fileId) :
    Makes (Call.On sc) (removeManifest crates fileId) := by
  rw [removeManifest_eq]
  exact (makes_backendCall (Scope.Key.manifest (Or.inl hf))).bind fun _ ↦
    on_unlistName hv Scope.key_manifestIndexKey

theorem on_saveRefcount (hv : sc.Records crates) (hd : isChunkDigest digest = true)
    (count size : ℕ) : Makes (Call.On sc) (saveRefcount crates digest count size) := by
  rw [saveRefcount_eq]
  exact (makes_ofExcept _).bind fun _ ↦
    (makes_backendCall ⟨.refcount (Or.inl hd), hv.refcount _⟩).bind fun _ ↦
      on_listName hv Scope.key_refcountIndexKey

private theorem on_removeRefcount (hv : sc.Records crates) (hd : isChunkDigest digest = true) :
    Makes (Call.On sc) (removeRefcount crates digest) := by
  rw [removeRefcount_eq]
  exact (makes_backendCall (Scope.Key.refcount (Or.inl hd))).bind fun _ ↦
    on_unlistName hv Scope.key_refcountIndexKey

theorem on_chunkSize (hd : isChunkDigest digest = true) :
    Makes (Call.On sc) (flat (store.chunkSize digest)) := by
  simp only [ChunkStore.chunkSize, flat_bind, flat_locked, flat_ite, flat_pure, flat_unlocked]
  refine (makes_field trivial).bind fun size ↦ makes_ite (makes_pure _)
    ((makes_backendCall (Scope.Key.blob hd)).bind fun raw ↦ ?_)
  cases raw with
  | none => exact makes_throw _
  | some data =>
    simp only [flat_bind, flat_ofExcept, flat_pure]
    exact (makes_ofExcept _).bind fun _ ↦ makes_pure _

theorem on_storeChunk (hv : sc.Records store.crates) (hd : isChunkDigest digest = true)
    {data : Bytes} (hblob : ∀ blob, store.encodeBlob data = .ok blob → sc.value blob) :
    Makes (Call.On sc) (flat (store.storeChunk digest data)) := by
  simp only [ChunkStore.storeChunk, ChunkStore.countChunk, flat_bind, flat_ofExcept, flat_locked,
    flat_ite, flat_pure]
  cases hb : store.encodeBlob data with
  | error e => exact makes_throw _
  | ok blob =>
    have hput : (Call.backend (.put digest blob)).On sc := ⟨.blob hd, hblob blob hb⟩
    rw [ofExcept_ok, pure_bind]
    refine Makes.bind ?_ fun present ↦ Makes.bind ?_ fun _ ↦ ?_
    · exact (makes_backendCall hd).bind fun _ ↦ makes_ite (makes_pure _)
        ((makes_backendCall hput).bind fun _ ↦ makes_pure _)
    · exact (makes_fieldOrThrow trivial).bind fun _ ↦ (makes_field trivial).bind fun _ ↦
        on_saveRefcount hv hd _ _
    · exact makes_ite ((makes_field trivial).bind fun _ ↦ makes_pure _)
        ((makes_field trivial).bind fun _ ↦ makes_pure _)

theorem on_releaseDigest (hv : sc.Records store.crates) (hd : isChunkDigest digest = true) :
    Makes (Call.On sc) (flat (store.releaseDigest digest)) := by
  simp only [ChunkStore.releaseDigest, flat_bind, flat_locked, flat_ite, flat_unlocked]
  refine (on_chunkSize hd).bind fun size ↦ (makes_fieldOrThrow trivial).bind fun n ↦ makes_ite ?_ ?_
  · exact (makes_backendCall (Scope.Key.blob hd)).bind fun _ ↦ (on_removeRefcount hv hd).bind
      fun _ ↦ (makes_field trivial).bind fun _ ↦ makes_field trivial
  · exact (on_saveRefcount hv hd _ _).bind fun _ ↦ makes_field trivial

theorem on_readChunk (hd : isChunkDigest digest = true) :
    Makes (Call.On sc) (flat (store.readChunk digest)) := by
  simp only [ChunkStore.readChunk, ChunkStore.readChunkByDigest, flat_bind, flat_unlocked]
  refine (makes_backendCall (Scope.Key.blob hd)).bind fun raw ↦ ?_
  cases raw with
  | none => exact makes_throw _
  | some stored =>
    simp only [flat_bind, flat_ofExcept, flat_pure]
    exact (makes_ofExcept _).bind fun _ ↦ (makes_ofExcept _).bind fun _ ↦ makes_pure _

theorem on_writeChunks {digests : List String} (hd : ∀ d ∈ digests, isChunkDigest d = true)
    (writer : Writer) :
    ((store.writeChunks digests writer).translate Block.body).Uses (Call.On sc) := by
  induction digests generalizing writer with
  | nil => trivial
  | cons d digests ih =>
    rw [ChunkStore.writeChunks, translate_bind]
    have hread : Makes (Call.On sc) (flat (store.readChunk d)) :=
      on_readChunk (hd d List.mem_cons_self)
    refine Uses.bind hread fun r ↦ ?_
    cases r with
    | error e => trivial
    | ok chunk =>
      dsimp only
      split
      · trivial
      · exact ih (fun e he ↦ hd e (List.mem_cons_of_mem d he)) _

/-- One round of the loop that loads the counts: the name is checked before the record is asked
for. -/
private theorem on_loadRefcount (rc : RefCount) : Makes (Call.On sc)
    (loadRefcount crates rc digest) := by
  rw [loadRefcount]
  cases hd : validateDigest digest with
  | error e => exact makes_throw _
  | ok u =>
    rw [ofExcept_ok, pure_bind]
    refine (makes_backendCall (Scope.Key.refcount (Or.inl (validateDigest_eq_ok.mp hd)))).bind
      fun raw ↦ ?_
    cases raw with
    | none => exact makes_throw _
    | some raw =>
      exact (makes_ofExcept _).bind fun _ ↦ makes_ite (makes_pure _) (makes_pure _)

theorem on_loadRefcounts : Makes (Call.On sc) (loadRefcounts crates) :=
  (on_readStringList Scope.key_refcountIndexKey).bind fun _ ↦
    makes_foldlM (fun rc _ ↦ on_loadRefcount rc) _ _

theorem on_backfillRefcountSizes (hv : sc.Records crates) {rc : RefCount} (hrc : CountsChunks rc) :
    Makes (Call.On sc) (backfillRefcountSizes crates rc) := by
  rw [backfillRefcountSizes]
  refine makes_foldlM_of (N := fun e : String × ℕ ↦ isChunkDigest e.1 = true) (fun rc e hd ↦ ?_)
    (fun e he ↦ ?_) rc
  · refine (makes_backendCall (Scope.Key.blob hd)).bind fun raw ↦ ?_
    cases raw with
    | none => exact makes_pure _
    | some data =>
      exact makes_ite ((on_saveRefcount hv hd _ _).bind fun _ ↦ makes_pure _) (makes_pure _)
  · obtain ⟨r, hr, -⟩ := mem_stale rc he
    exact hrc e.1 r hr

theorem on_rebuildStat {e : String × ChunkRef} (hd : isChunkDigest e.1 = true) (stats : Stats) :
    Makes (Call.On sc) (flat (store.rebuildStat stats e)) := by
  simp only [ChunkStore.rebuildStat, flat_bind, flat_ite, flat_pure]
  exact makes_ite (Makes.bind (makes_pure _) fun _ ↦ makes_pure _)
    ((on_chunkSize hd).bind fun _ ↦ makes_pure _)

theorem on_loadManifest (hf : sc.file fileId) (m : Manifest) :
    Makes (Call.On sc) (loadManifest crates m fileId) := by
  refine (makes_backendCall (Scope.Key.manifest (Or.inl hf))).bind fun raw ↦ ?_
  cases raw with
  | none => exact makes_throw _
  | some raw =>
    dsimp only
    cases crates.serde.manifestFromSlice raw with
    | error e => exact makes_throw _
    | ok record => exact (makes_ofExcept _).bind fun _ ↦ makes_ofExcept _

theorem on_missingBlobs {live : List String} (hd : ∀ d ∈ live, isChunkDigest d = true) :
    Makes (Call.On sc) (flat (ChunkStore.missingBlobs live)) := by
  induction live with
  | nil => exact makes_pure _
  | cons d live ih =>
    simp only [ChunkStore.missingBlobs, flat_bind, flat_unlocked, flat_pure]
    exact (makes_backendCall (hd d List.mem_cons_self)).bind fun _ ↦
      (ih fun e he ↦ hd e (List.mem_cons_of_mem d he)).bind fun _ ↦ makes_pure _

theorem on_unlinkAll {keys : List String} (hd : ∀ d ∈ keys, isChunkDigest d = true) :
    Makes (Call.On sc) (flat (ChunkStore.unlinkAll keys)) := by
  induction keys with
  | nil => exact makes_pure _
  | cons d keys ih =>
    simp only [ChunkStore.unlinkAll, flat_bind, flat_unlocked, flat_pure]
    exact (makes_backendCall (Scope.Key.blob (hd d List.mem_cons_self))).bind fun _ ↦
      (ih fun e he ↦ hd e (List.mem_cons_of_mem d he)).bind fun _ ↦ makes_pure _

end Makes

/-! ## Operations that stay in scope -/

/-- On a backend without faults `p` stays in scope, and returns into `Q` if it does. -/
abbrev asks (sc : Scope) {α : Type} (p : BackendM α) (Q : α → State → Prop) (s : State) : Prop :=
  wpx (faulty False) (.asking fun _ c ↦ c.On sc) p Q (fun _ _ ↦ True) s

section Asks

variable {sc : Scope} {α β : Type} {Q : α → State → Prop} {s : State} {store : ChunkStore}

theorem asks_of_quietly {p : BackendM α} (hp : Makes (Call.On sc) p)
    {R : ChunkStoreError → State → Prop} (h : quietly p Q R s) : asks sc p Q s := by
  refine Uses.guarantee hp (fun c _ _ _ hc ↦ hc) (wp_post h fun r s' hr ↦ ?_)
  cases r with
  | ok a => exact hr
  | error e => trivial

theorem asks_of_makes {p : BackendM α} (hp : Makes (Call.On sc) p) :
    asks sc p (fun _ _ ↦ True) s :=
  asks_of_quietly (R := fun _ _ ↦ True) hp (wp_post (wp_true p.run s) fun r _ _ ↦ by
    cases r <;> trivial)

theorem asks_bind {p : BackendM α} {g : α → BackendM β} {Q : β → State → Prop}
    (h : asks sc p (fun a s' ↦ asks sc (g a) Q s') s) : asks sc (p >>= g) Q s :=
  (wpx_bind p g).mpr h

theorem asks_mono {p : BackendM α} {Q' : α → State → Prop} (h : asks sc p Q s)
    (hQ : ∀ a s', Q a s' → Q' a s') : asks sc p Q' s := wpx_mono h hQ fun _ _ h ↦ h

theorem asks_field {a : FieldAccess α}
    (hQ : Q (a.run s.fields).1 (s.withFields (a.run s.fields).2)) :
    asks sc (field a) Q s := (wpx_field a).mpr ⟨trivial, hQ⟩

theorem asks_fieldOrThrow {a : FieldAccess (Except ChunkStoreError α)}
    (hQ : ∀ x, (a.run s.fields).1 = .ok x → Q x (s.withFields (a.run s.fields).2)) :
    asks sc (fieldOrThrow a) Q s := by
  refine (wpx_fieldOrThrow a).mpr ⟨trivial, ?_⟩
  cases hr : (a.run s.fields).1 with
  | ok x => exact hQ x hr
  | error e => trivial

/-! ### Opening -/

/-- What a backend is like on which opening stays in scope. -/
def IndexWithin (sc : Scope) (crates : Crates) (s : State) : Prop :=
  ∀ l, readIndex crates s manifestIndexKey = some l → ∀ fileId ∈ l, sc.file fileId

private theorem asks_loadManifests {crates : Crates} (h : IndexWithin sc crates s) :
    asks sc (loadManifests crates) (fun _ s' ↦ s' = s) s := by
  have hstay : asks sc (loadManifests crates) (fun _ _ ↦ True) s := by
    refine asks_bind (wpx_readStringList (fun _ ↦ Scope.key_manifestIndexKey) (fun l hl ↦ ?_)
      fun _ _ ↦ trivial)
    exact asks_of_makes (makes_foldlM_of (fun m _ hf ↦ on_loadManifest hf m) (h l hl) _)
  have hidle := quietly_of_idle (s := s) (idle_loadManifests crates)
  refine wp_post (wp_and hstay hidle) fun r s' hr ↦ ?_
  cases r with
  | ok a => exact hr.2
  | error e => trivial

private theorem asks_loadMetadata {crates : Crates} (hv : sc.Records crates)
    (h : IndexWithin sc crates s) :
    asks sc (loadMetadata crates) (fun _ s' ↦ CountsChunks s'.fields.refcount) s := by
  refine asks_bind (asks_mono (asks_loadManifests h) fun m s₁ hs₁ ↦ ?_)
  rw [hs₁]
  refine asks_bind (asks_mono (asks_of_quietly on_loadRefcounts quietly_loadRefcounts_iff) ?_)
  rintro loaded s₂ ⟨hs₂, hmirrors, -⟩
  rw [hs₂]
  have hloaded : CountsChunks loaded := fun d r hr ↦ (hmirrors.valid d r hr).1
  refine asks_bind (asks_mono (asks_of_quietly (on_backfillRefcountSizes hv hloaded)
    (quietly_backfillRefcountSizes_mirrors (R := fun _ _ ↦ True) hmirrors)) ?_)
  rintro rc s₃ ⟨hmirrors', -⟩
  exact asks_field fun d r hr ↦ (hmirrors'.valid d r hr).1

private theorem asks_rebuildStats (h : CountsChunks s.fields.refcount) :
    asks sc (flat store.rebuildStats) (fun _ _ ↦ True) s := by
  simp only [ChunkStore.rebuildStats, flat_bind, flat_locked, flat_foldlM]
  refine asks_bind (asks_field ?_)
  have hrefs : ∀ e ∈ s.fields.refcount.iterRefs, isChunkDigest e.1 = true := fun e he ↦
    h e.1 e.2 (RefCount.mem_iterRefs.mp he)
  exact asks_bind (asks_mono (asks_of_makes (makes_foldlM_of
    (fun stats _ hd ↦ on_rebuildStat hd stats) hrefs {})) fun stats _ _ ↦ asks_field trivial)

theorem asks_reopen (hv : sc.Records store.crates) (h : IndexWithin sc store.crates s) :
    asks sc (flat store.reopen) (fun _ _ ↦ True) s := by
  have hopen : asks sc (flat (openStore store.crates)) (fun _ _ ↦ True) s := by
    rw [flat_openStore]
    exact asks_bind (asks_mono (asks_loadMetadata hv h) fun _ s₁ hcounts ↦
      asks_bind (asks_mono (asks_rebuildStats hcounts) fun _ _ _ ↦ trivial))
  rw [ChunkStore.reopen]
  cases store.codec with
  | none =>
    rw [flat_bind]
    exact asks_bind (asks_mono hopen fun _ _ _ ↦ trivial)
  | some codec =>
    simp only [openWithCodec, flat_bind, bind_assoc]
    exact asks_bind (asks_mono hopen fun _ _ _ ↦ trivial)

/-! ### The other operations -/

private theorem Call.Storing.keepsManifest {γ : Type} {c : Call γ} (h : c.Storing) :
    c.KeepsManifest := by
  cases c with
  | backend c => trivial
  | field a =>
    cases a with
    | construct | manifestInsert | manifestRemove => exact h.elim
    | _ => trivial

private theorem quietly_of_keepsManifest {p : BackendM α} (hp : Makes Call.KeepsManifest p) :
    quietly p (fun _ s' ↦ s'.fields.manifest = s.fields.manifest) (fun _ _ ↦ True) s := by
  refine wp_post (Uses.wp (I := fun s' : State ↦ s'.fields.manifest = s.fields.manifest) hp
    (fun c s₁ r s₂ hc h₁ hs ↦ ⟨trivial, ?_⟩) rfl) fun r s' h' ↦ ?_
  · cases c with
    | backend c =>
      rcases hs with ⟨-, rfl⟩ | ⟨hfalse, -⟩
      · exact h₁
      · exact hfalse.elim
    | field a =>
      obtain ⟨-, rfl⟩ := hs
      exact (hc.run s₁.fields).trans h₁
  · cases r with
    | ok a => exact h'
    | error e => trivial

private theorem asks_storeChunk (hv : sc.Records store.crates) {chunk : Bytes}
    (hblob : ∀ blob, store.encodeBlob chunk = .ok blob → sc.value blob)
    (h : s.fields.manifest.NamesChunks) :
    asks sc (flat (store.storeChunk (digestHex store.crates.sha256 chunk) chunk))
      (fun _ s' ↦ s'.fields.manifest.NamesChunks) s := by
  refine asks_mono (asks_of_quietly (on_storeChunk hv (isChunkDigest_digestHex _ _) hblob)
    (quietly_of_keepsManifest ((makes_storeChunk store _ _).mono fun _ h ↦ h.keepsManifest)))
    fun _ s' hs' ↦ ?_
  rw [hs']
  exact h

theorem asks_ingestStream (hv : sc.Records store.crates) {fileId : String} {stream : Stream}
    (hf : sc.file fileId) (hblob : ∀ chunk ∈ stream.chunks, ∀ blob,
      store.encodeBlob chunk = .ok blob → sc.value blob)
    (h : s.fields.manifest.NamesChunks) :
    asks sc (flat (store.ingestStream fileId stream)) (fun _ _ ↦ True) s := by
  refine wpx_mono (wpx_ingestStream
    (I := fun l s' ↦ s'.fields.manifest.NamesChunks ∧ ∀ chunk ∈ l, ∀ blob,
      store.encodeBlob chunk = .ok blob → sc.value blob)
    (K := fun l _ ↦ ∀ d ∈ l, isChunkDigest d = true) ?_ (fun _ _ _ _ ↦ trivial) ?_ ?_ ⟨h, hblob⟩)
    (fun _ _ _ ↦ trivial) fun _ _ h ↦ h
  · rintro chunk l s₁ ⟨h₁, hl⟩
    exact asks_mono (asks_storeChunk hv (hl chunk List.mem_cons_self) h₁) fun _ _ h₂ ↦
      ⟨h₂, fun c hc ↦ hl c (List.mem_cons_of_mem chunk hc)⟩
  · -- the digests to release are those of the manifest
    rintro s₁ - ⟨h₁, -⟩
    refine asks_bind (asks_field (asks_bind (asks_fieldOrThrow fun _ _ ↦ asks_bind (asks_mono
      (asks_of_makes (on_saveManifest hv hf _ _)) fun _ s₂ _ ↦ ?_))))
    change ∀ d ∈ (s₁.fields.manifest.tryGet fileId).getD [], isChunkDigest d = true
    intro d hd
    cases hold : s₁.fields.manifest.tryGet fileId with
    | none =>
      rw [hold] at hd
      exact absurd hd List.not_mem_nil
    | some digests =>
      rw [hold] at hd
      exact h₁ fileId digests hold d hd
  · intro d ds s₁ hds
    exact asks_mono (asks_of_makes (on_releaseDigest hv (hds d List.mem_cons_self)))
      fun _ _ _ e he ↦ hds e (List.mem_cons_of_mem d he)

theorem asks_delete (hv : sc.Records store.crates) {fileId : String}
    (hf : (s.fields.manifest.tryGet fileId).isSome → sc.file fileId)
    (h : s.fields.manifest.NamesChunks) :
    asks sc (flat (store.delete fileId)) (fun _ _ ↦ True) s := by
  refine wpx_mono (wpx_deleteFile (K := fun l _ ↦ ∀ d ∈ l, isChunkDigest d = true) ?_ ?_)
    (fun _ _ _ ↦ trivial) fun _ _ h ↦ h
  · refine asks_bind (asks_fieldOrThrow fun digests hok ↦ ?_)
    have hget : s.fields.manifest.tryGet fileId = some digests := Manifest.tryGet_of_get hok
    refine asks_bind (asks_mono (asks_of_makes (on_removeManifest hv (hf ?_))) fun _ _ _ ↦ ?_)
    · rw [hget]
      rfl
    · exact h fileId digests hget
  · intro d ds s₁ hds
    exact asks_mono (asks_of_makes (on_releaseDigest hv (hds d List.mem_cons_self)))
      fun _ _ _ e he ↦ hds e (List.mem_cons_of_mem d he)

private theorem asks_read (fileId : String) (h : s.fields.manifest.NamesChunks) :
    asks sc (flat (store.read fileId)) (fun _ _ ↦ True) s := by
  have hget : asks sc (flat (ChunkStore.digestsForFile fileId))
      (fun digests _ ↦ ∀ d ∈ digests, isChunkDigest d = true) s := by
    rw [ChunkStore.digestsForFile, flat_locked]
    exact asks_fieldOrThrow fun digests hok ↦ h fileId digests (Manifest.tryGet_of_get hok)
  rw [asks, wpx, flat, ExceptT.run_mk, ChunkStore.read, ExceptT.run_mk, translate_bind, wp_bind,
    ChunkStore.readToWriter, translate_bind, wp_bind]
  refine wp_post hget fun r s₁ hr ↦ ?_
  cases r with
  | error e => trivial
  | ok digests =>
    refine wp_post (Uses.guarantee (on_writeChunks hr _) (fun c _ _ _ hc ↦ hc) (wp_true _ s₁))
      fun r s₂ _ ↦ ?_
    cases r.1 <;> trivial

private theorem asks_fsck (hl : sc.listing) (h : CountsChunks s.fields.refcount) (repair : Bool) :
    asks sc (flat (ChunkStore.fsck repair)) (fun _ _ ↦ True) s := by
  simp only [ChunkStore.fsck, flat_bind, flat_locked, flat_unlocked, flat_ite, flat_pure]
  refine asks_bind (asks_field ?_)
  have hlive : ∀ d ∈ s.fields.refcount.iterRefs.map Prod.fst, isChunkDigest d = true := by
    intro d hd
    obtain ⟨e, he, rfl⟩ := List.mem_map.mp hd
    exact h e.1 e.2 (RefCount.mem_iterRefs.mp he)
  refine asks_bind (asks_mono (asks_of_makes (on_missingBlobs hlive)) fun missing s₁ _ ↦ ?_)
  have horphans : asks sc (collectOrphans (s.fields.refcount.iterRefs.map Prod.fst))
      (fun keys _ ↦ ∀ key ∈ keys, isChunkDigest key = true) s₁ := by
    refine asks_bind ((wpx_readCall rfl).mpr ⟨⟨hl, ?_⟩, fun hF ↦ hF.elim⟩)
    cases (BackendCall.run (.listKeys "") s₁.backend).1 with
    | none => exact fun key hkey ↦ absurd hkey List.not_mem_nil
    | some keys =>
      intro key hkey
      exact (Bool.and_eq_true_iff.mp (List.mem_filter.mp hkey).2).1
  refine asks_bind (asks_mono horphans fun keys s₂ hkeys ↦ ?_)
  exact asks_of_makes (makes_ite ((on_unlinkAll hkeys).bind fun _ ↦ makes_pure _) (makes_pure _))

/-- What a state is like in which every operation stays in scope. -/
structure InScope (sc : Scope) (crates : Crates) (s : State) : Prop where
  index : IndexWithin sc crates s
  files : ∀ fileId, (s.fields.manifest.tryGet fileId).isSome → sc.file fileId
  named : s.fields.manifest.NamesChunks
  counts : CountsChunks s.fields.refcount

theorem asks_perform (hv : sc.Records store.crates) (h : InScope sc store.crates s)
    {op : ChunkStore.Op} (hop : store.Within sc op) :
    asks sc (flat (store.perform op)) (fun _ _ ↦ True) s := by
  have hmap {δ : Type} (p : BackendM δ) (g : δ → ChunkStore.Reply)
      (hp : asks sc p (fun _ _ ↦ True) s) : asks sc (g <$> p) (fun _ _ ↦ True) s := by
    rw [map_eq_pure_bind]
    exact asks_bind (asks_mono hp fun _ _ _ ↦ trivial)
  rw [ChunkStore.perform.eq_def]
  cases op with
  | ingest fileId input =>
    rw [ChunkStore.flat_map, ChunkStore.ingestInput_eq]
    exact hmap _ _ (asks_ingestStream hv hop.1 hop.2 h.named)
  | delete fileId =>
    rw [ChunkStore.flat_map]
    exact hmap _ _ (asks_delete hv (h.files fileId) h.named)
  | read fileId =>
    rw [ChunkStore.flat_map]
    exact hmap _ _ (asks_read fileId h.named)
  | readChunk digest =>
    rw [ChunkStore.flat_map]
    exact hmap _ _ (asks_of_makes (on_readChunk hop))
  | fsck repair =>
    rw [ChunkStore.flat_map]
    exact hmap _ _ (asks_fsck hop h.counts repair)
  | stats =>
    rw [ChunkStore.flat_map, ChunkStore.stats, flat_locked]
    exact hmap _ _ (asks_field trivial)
  | chunkRefcount digest =>
    rw [ChunkStore.flat_map, ChunkStore.chunkRefcount, flat_locked]
    exact hmap _ _ (asks_field trivial)
  | reopen =>
    rw [ChunkStore.flat_map]
    exact hmap _ _ (asks_reopen hv h.index)

end Asks

/-! ## Runs -/

/-- A scope covers a run: the records of any metadata may be put, the index is no file, and every
operation is in scope. -/
structure Scope.Covers (sc : Scope) (store : ChunkStore) (ops : List ChunkStore.Op) : Prop where
  records : sc.Records store.crates
  index : ¬sc.file indexName
  within : ∀ op ∈ ops, store.Within sc op

/-- A store in sync whose files are those of a scope. -/
structure SyncedIn (sc : Scope) (store : ChunkStore) (s : State) : Prop where
  rep : ∃ held, Rep store (fun _ ↦ True) none held s
  files : ∀ fileId, (s.fields.manifest.tryGet fileId).isSome → sc.file fileId

section Runs

variable {sc : Scope} {store : ChunkStore} {ops : List ChunkStore.Op} {op : ChunkStore.Op}
  {s : State}

theorem SyncedIn.inScope (h : SyncedIn sc store s) : InScope sc store.crates s := by
  obtain ⟨held, hrep⟩ := h.rep
  refine ⟨fun l hl fileId hmem ↦ ?_, h.files, hrep.manifest.valid, fun d r hr ↦
    (hrep.refcount.valid d r hr).1⟩
  obtain ⟨l', hl', -, hlisted⟩ := hrep.manifest.index
  obtain rfl : l' = l := Option.some.inj (hl'.symm.trans hl)
  exact h.files fileId ((hlisted fileId).mp hmem)

/-- An operation in scope keeps the store so. -/
theorem SyncedIn.exec (hindex : ¬sc.file indexName) (h : SyncedIn sc store s)
    (hop : store.Within sc op) : SyncedIn sc store (store.exec op s).2 := by
  obtain ⟨held, hrep⟩ := h.rep
  have hspec := ChunkStore.exec_spec op hrep (fun _ _ ↦ trivial) fun p hp ↦ by cases hp
  -- the file of the operation is in scope, the others were
  have hupdated (m : Manifest) (fileId : String) (o : Option (List String))
      (hm : s.fields.manifest.Updated m fileId o) (hf : o.isSome → sc.file fileId) :
      ∀ g, (m.tryGet g).isSome → sc.file g := by
    intro g hg
    rw [hm g] at hg
    split at hg
    · rename_i hgf
      exact hgf ▸ hf hg
    · exact h.files g hg
  cases hr : (store.exec op s).1 with
  | ok reply =>
    rw [hr] at hspec
    obtain ⟨hrep', hret⟩ := hspec
    refine ⟨⟨held, hrep'⟩, ?_⟩
    cases op with
    | ingest fileId input => exact hupdated _ fileId _ hret.2.2.2 fun _ ↦ hop.1
    | delete fileId => exact hupdated _ fileId none hret.2.2 fun hnone ↦ by cases hnone
    | read fileId | fsck repair | stats | chunkRefcount digest =>
      rw [hret.1]
      exact h.files
    | readChunk digest =>
      rw [show (store.exec (.readChunk digest) s).2 = s from hret]
      exact h.files
    | reopen =>
      intro g hg
      rw [hret.2.1 g] at hg
      exact h.files g hg
  | error e =>
    rw [hr] at hspec
    rcases hspec with hc | ⟨hrep', ht⟩
    · -- only a file with the name of the index can spoil the records
      cases op with
      | ingest fileId input => exact absurd (hc.1 ▸ hop.1) hindex
      | _ => exact hc.elim
    · refine ⟨hrep', ?_⟩
      cases op with
      | ingest fileId input =>
        rw [show (store.exec (.ingest fileId input) s).2.fields.manifest = _ from ht]
        exact h.files
      | delete fileId => exact hupdated _ fileId none ht.2.2 fun hnone ↦ by cases hnone
      | read fileId =>
        rw [ht.2.2]
        exact h.files
      | readChunk digest =>
        rw [show (store.exec (.readChunk digest) s).2 = s from ht]
        exact h.files
      | _ => exact ht.elim

theorem SyncedIn.execAll (hindex : ¬sc.file indexName) (h : SyncedIn sc store s)
    (hops : ∀ op ∈ ops, store.Within sc op) : SyncedIn sc store (store.execAll ops s).2 := by
  induction ops generalizing s with
  | nil => exact h
  | cons op ops ih =>
    exact ih (h.exec hindex (hops op List.mem_cons_self)) fun o ho ↦
      hops o (List.mem_cons_of_mem op ho)

theorem SyncedIn.reopens (h : SyncedIn sc store s) :
    ∃ reply, (store.exec .reopen s).1 = .ok reply := by
  obtain ⟨held, hrep⟩ := h.rep
  have hspec := ChunkStore.exec_spec .reopen hrep (fun _ _ ↦ trivial) fun p hp ↦ by cases hp
  cases hr : (store.exec .reopen s).1 with
  | ok reply => exact ⟨reply, rfl⟩
  | error e =>
    rw [hr] at hspec
    rcases hspec with hc | ⟨-, ht⟩
    · exact hc.elim
    · exact ht.elim

theorem syncedIn_empty (sc : Scope) (store : ChunkStore) (lists : Bool) :
    SyncedIn sc store (.empty lists) :=
  ⟨⟨_, ChunkStore.rep_empty store _ lists⟩, fun fileId h ↦ by cases h⟩

/-- **The calls of a run stay in a scope that covers it**, opening included. -/
theorem Scope.Covers.meets (h : sc.Covers store ops) (lists : Bool) :
    callHandler.Meets (fun _ c ↦ c.On sc) (store.serve (.reopen :: ops)) (.empty lists) := by
  have hops : ∀ op ∈ ChunkStore.Op.reopen :: ops, store.Within sc op := by
    intro op hop
    rcases List.mem_cons.mp hop with rfl | hop
    · trivial
    · exact h.within op hop
  refine ChunkStore.meets_serve fun ops₀ op hpre ↦ ?_
  have hmem : ∀ o ∈ ops₀ ++ [op], store.Within sc o := fun o ho ↦ hops o (hpre.subset ho)
  have hsynced := (syncedIn_empty sc store lists).execAll h.index fun o ho ↦
    hmem o (List.mem_append_left _ ho)
  have hasks := asks_perform h.records hsynced.inScope
    (hmem op (List.mem_append_right _ List.mem_cons_self))
  exact meets_of_wp (wp_callHandler hasks)

end Runs

end Chunkstore

import Chunkstore.Core.View

/-!
# Footprints

Which requests a piece of code makes. Saving and removing metadata writes the key of one record and
the key of its index (`Confined`); storing a chunk and looking up a size read and write the backend
and go up in the counters (`Call.Storing`). Whatever every such request keeps, the code keeps,
wherever it is stopped and whatever it returns.
-/

open Effects Program

namespace Chunkstore

/-- Code whose every request satisfies `P`. -/
def Makes (P : {γ : Type} → Call γ → Prop) {α : Type} (p : BackendM α) : Prop := p.run.Uses P

section Rules

variable {α β σ : Type} {P P' : {γ : Type} → Call γ → Prop}

theorem makes_pure (a : α) : Makes P (pure a : BackendM α) := trivial

theorem makes_throw (e : ChunkStoreError) : Makes P (throw e : BackendM α) := trivial

namespace Makes

theorem mono {p : BackendM α} (hp : Makes P p) (h : ∀ {γ : Type} (c : Call γ), P c → P' c) :
    Makes P' p := Uses.mono hp h

theorem bind {p : BackendM α} {f : α → BackendM β} (hp : Makes P p) (hf : ∀ a, Makes P (f a)) :
    Makes P (p >>= f) := by
  rw [Makes, ExceptT.run_bind]
  refine Uses.bind hp fun r ↦ ?_
  cases r with
  | ok a => exact hf a
  | error e => trivial

theorem map {p : BackendM α} {f : α → β} (hp : Makes P p) : Makes P (f <$> p) := by
  rw [map_eq_pure_bind]
  exact hp.bind fun _ ↦ makes_pure _

end Makes

theorem makes_ofExcept (r : Except ChunkStoreError α) : Makes P (ofExcept r) := by
  cases r <;> trivial

theorem makes_backendCall {c : BackendCall α} (h : P (.backend c)) : Makes P (backendCall c) :=
  ⟨h, fun _ ↦ trivial⟩

theorem makes_field {a : FieldAccess α} (h : P (.field a)) : Makes P (field a) :=
  ⟨h, fun _ ↦ trivial⟩

theorem makes_fieldOrThrow {a : FieldAccess (Except ChunkStoreError α)} (h : P (.field a)) :
    Makes P (fieldOrThrow a) := ⟨h, fun _ ↦ trivial⟩

theorem makes_foldlM {f : σ → α → BackendM σ} (hf : ∀ st a, Makes P (f st a)) (l : List α)
    (st : σ) : Makes P (l.foldlM f st) := by
  induction l generalizing st with
  | nil => exact makes_pure st
  | cons a l ih =>
    rw [List.foldlM_cons]
    exact (hf st a).bind ih

theorem makes_ite {c : Prop} [Decidable c] {p q : BackendM α} (hp : Makes P p) (hq : Makes P q) :
    Makes P (if c then p else q) := by
  split
  · exact hp
  · exact hq

end Rules

/-! ## Metadata -/

/-- A request that writes no key outside `K` and no field. -/
def Call.Confined (K : String → Prop) {γ : Type} : Call γ → Prop
  | .backend (.put key _) => K key
  | .backend (.delete key) => K key
  | .backend (.get _) => True
  | .backend (.existsKey _) => True
  | .backend (.listKeys _) => False
  | .field _ => False

/-- Code whose every request is confined. -/
def Confined (K : String → Prop) {α : Type} (p : BackendM α) : Prop := Makes (Call.Confined K) p

section Metadata

variable {K : String → Prop} {crates : Crates} {key name : String}

theorem confined_readStringList : Confined K (readStringList crates key) := by
  refine Makes.bind (makes_backendCall trivial) fun raw ↦ ?_
  cases raw with
  | none => exact makes_pure _
  | some raw =>
    dsimp only
    cases crates.serde.stringsFromSlice raw with
    | ok l => exact makes_pure l
    | error e => exact makes_throw _

theorem confined_listName (h : K key) : Confined K (listName crates key name) :=
  Makes.bind confined_readStringList fun _ ↦ makes_ite (makes_pure _) (makes_backendCall h)

theorem confined_unlistName (h : K key) : Confined K (unlistName crates key name) :=
  Makes.bind confined_readStringList fun _ ↦ makes_backendCall h

theorem confined_saveManifest {fileId : String} {digests : List String} {fileBytes : ℕ}
    (hr : K (manifestKey fileId)) (hi : K manifestIndexKey) :
    Confined K (saveManifest crates fileId digests fileBytes) :=
  Makes.bind (makes_ofExcept _) fun _ ↦
    Makes.bind (makes_backendCall hr) fun _ ↦ confined_listName hi

theorem confined_removeManifest {fileId : String} (hr : K (manifestKey fileId))
    (hi : K manifestIndexKey) : Confined K (removeManifest crates fileId) :=
  Makes.bind (makes_backendCall hr) fun _ ↦ confined_unlistName hi

theorem confined_saveRefcount {digest : String} {count size : ℕ} (hr : K (refcountKey digest))
    (hi : K refcountIndexKey) : Confined K (saveRefcount crates digest count size) :=
  Makes.bind (makes_ofExcept _) fun _ ↦
    Makes.bind (makes_backendCall hr) fun _ ↦ confined_listName hi

theorem confined_removeRefcount {digest : String} (hr : K (refcountKey digest))
    (hi : K refcountIndexKey) : Confined K (removeRefcount crates digest) :=
  Makes.bind (makes_backendCall hr) fun _ ↦ confined_unlistName hi

end Metadata

/-! ## Chunks -/

/-- A request that storing a chunk may make, or looking up a size. -/
def Call.Storing {γ : Type} : Call γ → Prop
  | .backend (.listKeys _) => False
  | .backend _ => True
  | .field (.refcountIncrement _ _) => True
  | .field (.refcountSizeOf _) => True
  | .field (.statsAddReference _) => True
  | .field (.statsAddUniqueChunk _) => True
  | .field _ => False

section Chunks

variable (store : ChunkStore) (digest : String)

theorem Call.Confined.storing {K : String → Prop} {γ : Type} {c : Call γ} (h : c.Confined K) :
    c.Storing := by
  cases c with
  | backend c =>
    cases c with
    | listKeys pre => exact h.elim
    | get | put | existsKey | delete => trivial
  | field a => exact h.elim

theorem makes_putBlob (blob : Bytes) : Makes Call.Storing (ChunkStore.putBlob digest blob) :=
  (makes_backendCall trivial).bind fun _ ↦ makes_ite (makes_pure _)
    ((makes_backendCall trivial).bind fun _ ↦ makes_pure _)

theorem makes_countChunk (size : ℕ) : Makes Call.Storing (store.countChunk digest size) := by
  rw [ChunkStore.countChunk]
  exact (makes_fieldOrThrow trivial).bind fun _ ↦ (makes_field trivial).bind fun _ ↦
    (confined_saveRefcount (K := fun _ ↦ True) trivial trivial).mono fun _ h ↦ h.storing

theorem makes_storeChunk (data : Bytes) :
    Makes Call.Storing (flat (store.storeChunk digest data)) := by
  simp only [ChunkStore.storeChunk, flat_bind, flat_ofExcept, flat_locked, flat_ite, flat_pure]
  refine (makes_ofExcept _).bind fun blob ↦ Makes.bind ?_ fun present ↦ Makes.bind ?_ fun _ ↦ ?_
  · exact makes_putBlob digest blob
  · exact makes_countChunk store digest data.length
  · exact makes_ite ((makes_field trivial).bind fun _ ↦ makes_pure _)
      ((makes_field trivial).bind fun _ ↦ makes_pure _)

theorem makes_chunkSize : Makes Call.Storing (flat (store.chunkSize digest)) := by
  simp only [ChunkStore.chunkSize, flat_bind, flat_locked, flat_ite, flat_pure, flat_unlocked]
  refine (makes_field trivial).bind fun size ↦ makes_ite (makes_pure _)
    ((makes_backendCall trivial).bind fun o ↦ ?_)
  cases o with
  | none => exact makes_throw _
  | some data =>
    simp only [flat_bind, flat_ofExcept, flat_pure]
    exact (makes_ofExcept _).bind fun _ ↦ makes_pure _

end Chunks

/-! ## Code that lowers no counter -/

/-- A request that lowers no reference count and no statistic. -/
def Call.Rising {γ : Type} : Call γ → Prop
  | .field (.construct _ _) => False
  | .field (.refcountDecrement _) => False
  | .field (.statsRemoveReference _) => False
  | .field (.statsRemoveUniqueChunk _) => False
  | .field (.statsReplace _) => False
  | _ => True

theorem Call.Storing.rising {γ : Type} {c : Call γ} (h : c.Storing) : c.Rising := by
  cases c with
  | backend c => trivial
  | field a =>
    cases a with
    | construct | refcountDecrement | statsRemoveReference | statsRemoveUniqueChunk
    | statsReplace => exact h.elim
    | _ => trivial

theorem Confined.rising {K : String → Prop} {α : Type} {p : BackendM α} (h : Confined K p) :
    Makes Call.Rising p := h.mono fun _ hc ↦ hc.storing.rising

section Fsck

variable {P : {γ : Type} → Call γ → Prop}

theorem makes_missingBlobs (hexists : ∀ key, P (.backend (.existsKey key))) (live : List String) :
    Makes P (flat (ChunkStore.missingBlobs live)) := by
  induction live with
  | nil => exact makes_pure _
  | cons d live ih =>
    simp only [ChunkStore.missingBlobs, flat_bind, flat_unlocked, flat_pure]
    exact (makes_backendCall (hexists d)).bind fun _ ↦ ih.bind fun _ ↦ makes_pure _

private theorem makes_unlinkAll (hdelete : ∀ key, P (.backend (.delete key))) (keys : List String) :
    Makes P (flat (ChunkStore.unlinkAll keys)) := by
  induction keys with
  | nil => exact makes_pure _
  | cons key keys ih =>
    simp only [ChunkStore.unlinkAll, flat_bind, flat_unlocked, flat_pure]
    exact (makes_backendCall (hdelete key)).bind fun _ ↦ ih.bind fun _ ↦ makes_pure _

theorem makes_fsck (hrefs : P (.field .refcountIterRefs))
    (hexists : ∀ key, P (.backend (.existsKey key))) (hlist : P (.backend (.listKeys "")))
    (hdelete : ∀ key, P (.backend (.delete key))) (repair : Bool) :
    Makes P (flat (ChunkStore.fsck repair)) := by
  simp only [ChunkStore.fsck, flat_bind, flat_locked, flat_unlocked, flat_ite, flat_pure]
  refine (makes_field hrefs).bind fun refs ↦ (makes_missingBlobs hexists _).bind fun missing ↦
    Makes.bind ?_ fun orphans ↦ makes_ite ((makes_unlinkAll hdelete _).bind fun _ ↦ makes_pure _)
      (makes_pure _)
  exact (makes_backendCall hlist).bind fun keys ↦ by cases keys <;> exact makes_pure _

end Fsck

theorem rising_fsck (repair : Bool) : Makes Call.Rising (flat (ChunkStore.fsck repair)) :=
  makes_fsck trivial (fun _ ↦ trivial) trivial (fun _ ↦ trivial) repair

/-! ## Code that changes nothing -/

/-- A request that leaves every state as it is. -/
def Call.Idle {γ : Type} (c : Call γ) : Prop := ∀ s, (callHandler.handle c s).2 = s

/-- A request that asks and does nothing else. -/
def Call.Reads {γ : Type} : Call γ → Prop
  | .backend (.put _ _) => False
  | .backend (.delete _) => False
  | .backend _ => True
  | .field (.manifestTryGet _) => True
  | .field (.manifestGet _) => True
  | .field (.refcountGet _) => True
  | .field (.refcountSizeOf _) => True
  | .field .refcountIterRefs => True
  | .field .statsGet => True
  | .field _ => False

theorem Call.Reads.idle {γ : Type} {c : Call γ} (h : c.Reads) : c.Idle := by
  intro s
  cases c with
  | backend c =>
    cases c with
    | put | delete => exact h.elim
    | get | existsKey | listKeys => rfl
  | field a =>
    cases a with
    | manifestTryGet | manifestGet | refcountGet | refcountSizeOf | refcountIterRefs
    | statsGet => rfl
    | _ => exact h.elim

section Idle

variable (store : ChunkStore) (crates : Crates)

theorem reads_readStringList (key : String) : Makes Call.Reads (readStringList crates key) := by
  refine Makes.bind (makes_backendCall trivial) fun raw ↦ ?_
  cases raw with
  | none => exact makes_pure _
  | some raw =>
    dsimp only
    cases crates.serde.stringsFromSlice raw with
    | ok l => exact makes_pure l
    | error e => exact makes_throw _

theorem reads_loadManifests : Makes Call.Reads (loadManifests crates) := by
  refine Makes.bind (reads_readStringList crates _) fun index ↦ makes_foldlM (fun m f ↦ ?_) _ _
  refine Makes.bind (makes_backendCall trivial) fun raw ↦ ?_
  cases raw with
  | none => exact makes_throw _
  | some raw =>
    dsimp only
    cases crates.serde.manifestFromSlice raw with
    | error e => exact makes_throw _
    | ok record => exact (makes_ofExcept _).bind fun _ ↦ makes_ofExcept _

theorem reads_loadRefcounts : Makes Call.Reads (loadRefcounts crates) := by
  refine Makes.bind (reads_readStringList crates _) fun index ↦ makes_foldlM (fun rc d ↦ ?_) _ _
  refine (makes_ofExcept _).bind fun _ ↦ Makes.bind (makes_backendCall trivial) fun raw ↦ ?_
  cases raw with
  | none => exact makes_throw _
  | some raw => exact (makes_ofExcept _).bind fun _ ↦ makes_ite (makes_pure _) (makes_pure _)

theorem reads_chunkSize (digest : String) : Makes Call.Reads (flat (store.chunkSize digest)) := by
  simp only [ChunkStore.chunkSize, flat_bind, flat_locked, flat_ite, flat_pure, flat_unlocked]
  refine (makes_field trivial).bind fun size ↦ makes_ite (makes_pure _)
    ((makes_backendCall trivial).bind fun raw ↦ ?_)
  cases raw with
  | none => exact makes_throw _
  | some data =>
    simp only [flat_bind, flat_ofExcept, flat_pure]
    exact (makes_ofExcept _).bind fun _ ↦ makes_pure _

theorem makes_rebuildStats {P : {γ : Type} → Call γ → Prop}
    (hreads : ∀ {γ : Type} (c : Call γ), c.Reads → P c)
    (hreplace : ∀ stats, P (.field (.statsReplace stats))) : Makes P (flat store.rebuildStats) := by
  simp only [ChunkStore.rebuildStats, flat_bind, flat_locked, flat_foldlM]
  have hrefs : (Call.field .refcountIterRefs).Reads := trivial
  refine (makes_field (hreads _ hrefs)).bind fun refs ↦ (makes_foldlM (fun stats e ↦ ?_) _ _).bind
    fun stats ↦ makes_field (hreplace stats)
  simp only [ChunkStore.rebuildStat, flat_bind, flat_ite, flat_pure]
  exact makes_ite (Makes.bind (makes_pure _) fun _ ↦ makes_pure _)
    (((reads_chunkSize store e.1).mono hreads).bind fun _ ↦ makes_pure _)

theorem reads_readChunk (digest : String) : Makes Call.Reads (flat (store.readChunk digest)) := by
  simp only [ChunkStore.readChunk, ChunkStore.readChunkByDigest, flat_bind, flat_unlocked]
  refine (makes_backendCall trivial).bind fun raw ↦ ?_
  cases raw with
  | none => exact makes_throw _
  | some stored =>
    simp only [flat_bind, flat_ofExcept, flat_pure]
    exact (makes_ofExcept _).bind fun _ ↦ (makes_ofExcept _).bind fun _ ↦ makes_pure _

theorem reads_writeChunks (digests : List String) (writer : Writer) :
    ((store.writeChunks digests writer).translate Block.body).Uses Call.Reads := by
  induction digests generalizing writer with
  | nil => trivial
  | cons d digests ih =>
    rw [ChunkStore.writeChunks, translate_bind]
    refine Uses.bind (reads_readChunk store d) fun r ↦ ?_
    cases r with
    | error e => trivial
    | ok chunk =>
      dsimp only
      split
      · trivial
      · exact ih _

theorem reads_read (fileId : String) : Makes Call.Reads (flat (store.read fileId)) := by
  have hto : ((store.readToWriter fileId .vec).translate Block.body).Uses Call.Reads := by
    rw [ChunkStore.readToWriter, translate_bind]
    refine Uses.bind (p := (ChunkStore.digestsForFile fileId).run.translate Block.body)
      ⟨trivial, fun _ ↦ trivial⟩ fun r ↦ ?_
    cases r with
    | error e => trivial
    | ok digests => exact reads_writeChunks store digests _
  rw [Makes, flat, ExceptT.run_mk, ChunkStore.read, ExceptT.run_mk, translate_bind]
  exact hto.bind fun _ ↦ trivial

theorem idle_loadManifests : Makes Call.Idle (loadManifests crates) :=
  (reads_loadManifests crates).mono fun _ h ↦ h.idle

theorem idle_loadRefcounts : Makes Call.Idle (loadRefcounts crates) :=
  (reads_loadRefcounts crates).mono fun _ h ↦ h.idle

theorem idle_chunkSize (digest : String) : Makes Call.Idle (flat (store.chunkSize digest)) :=
  (reads_chunkSize store digest).mono fun _ h ↦ h.idle

theorem idle_readChunk (digest : String) : Makes Call.Idle (flat (store.readChunk digest)) :=
  (reads_readChunk store digest).mono fun _ h ↦ h.idle

theorem idle_writeChunks (digests : List String) (writer : Writer) :
    ((store.writeChunks digests writer).translate Block.body).Uses Call.Idle :=
  (reads_writeChunks store digests writer).mono fun _ h ↦ h.idle

theorem idle_read (fileId : String) : Makes Call.Idle (flat (store.read fileId)) :=
  (reads_read store fileId).mono fun _ h ↦ h.idle

theorem eval_of_idle {α : Type} {p : Program Call α} (hp : p.Uses Call.Idle) (s : State) :
    (callHandler.eval p s).2 = s := by
  induction p generalizing s with
  | ret a => rfl
  | req c next ih => rw [Handler.eval, ih _ (hp.2 _), hp.1 s]

end Idle

theorem lists_eval {α : Type} (p : Program Call α) (s : State) :
    (callHandler.eval p s).2.backend.lists = s.backend.lists := by
  induction p generalizing s with
  | ret a => rfl
  | req c next ih =>
    rw [Handler.eval, ih]
    cases c with
    | field a => rfl
    | backend c => cases c <;> rfl

end Chunkstore

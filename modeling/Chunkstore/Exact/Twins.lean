import Chunkstore.Crash.Missing
import Chunkstore.Exact.Invisible

/-!
# Twins

Two states are twins when they agree at every key and in every field, but for the order of their
tables. Whatever is done to twins, they return the same and stay twins; a report of `fsck` lists the
same names, perhaps in another order.

Nothing is required of the states, so this holds for runs with errors too.

## Main result

* `ChunkStore.execAll_twins`: runs from twins return the same.
-/

open Effects Program

namespace Chunkstore

/-- Two states that no operation can tell apart. -/
structure Twins (s t : State) : Prop extends Alike s t where
  gc : t.fields.stats.gcChunks = s.fields.stats.gcChunks
  lists : t.backend.lists = s.backend.lists

theorem Twins.stats {s t : State} (h : Twins s t) : t.fields.stats = s.fields.stats := by
  have htotal := h.total
  have hstored := h.stored
  have hgc := h.gc
  cases hs : s.fields.stats
  cases ht : t.fields.stats
  rw [hs, ht] at htotal hstored hgc
  simp_all

/-- Two states with the same fields, and the same under every key. -/
structure Copies (s t : State) : Prop where
  fields : t.fields = s.fields
  find : ∀ k, t.find k = s.find k
  lists : t.backend.lists = s.backend.lists

theorem Copies.twins {s t : State} (h : Copies s t) : Twins s t := by
  refine ⟨⟨h.find, fun _ ↦ ?_, fun _ ↦ ?_, fun _ ↦ ?_, ?_, ?_⟩, ?_, h.lists⟩ <;> rw [h.fields]

/-! ## Requests -/

/-- The number of unlinked blobs after a request. -/
def Call.gcAfter : {γ : Type} → Call γ → ℕ → ℕ
  | _, .field (.construct _ _), _ => 0
  | _, .field (.statsRemoveUniqueChunk _), n => min (n + 1) u64Max
  | _, .field (.statsReplace stats), _ => stats.gcChunks
  | _, _, n => n

private theorem gcChunks_handle {γ : Type} (c : Call γ) (s : State) :
    (callHandler.handle c s).2.fields.stats.gcChunks = c.gcAfter s.fields.stats.gcChunks := by
  cases c with
  | backend c => rfl
  | field a =>
    cases a with
    | manifestInsert f ds n =>
      rw [callHandler]
      dsimp only
      rw [FieldAccess.run]
      cases s.fields.manifest.insert f ds n <;> rfl
    | refcountIncrement d n =>
      rw [callHandler]
      dsimp only
      rw [FieldAccess.run]
      cases s.fields.refcount.increment d n <;> rfl
    | refcountDecrement d =>
      rw [callHandler]
      dsimp only
      rw [FieldAccess.run]
      cases s.fields.refcount.decrement d <;> rfl
    | _ => rfl

private theorem lists_handle {γ : Type} (c : Call γ) (s : State) :
    (callHandler.handle c s).2.backend.lists = s.backend.lists :=
  lists_eval (Program.request c) s

/-- A look-up cannot tell twins apart. -/
theorem twins_handle {γ : Type} (c : Call γ) (s t : State) (hc : c.Blind) (h : Twins s t) :
    (callHandler.handle c s).1 = (callHandler.handle c t).1 ∧
      Twins (callHandler.handle c s).2 (callHandler.handle c t).2 := by
  obtain ⟨hr, ha⟩ := alike_handle c s t hc h.toAlike
  refine ⟨hr, ha, ?_, ?_⟩
  · rw [gcChunks_handle, gcChunks_handle, h.gc]
  · rw [lists_handle, lists_handle, h.lists]

/-- A request that does not list the keys. -/
def Call.Unlisted : {γ : Type} → Call γ → Prop
  | _, .backend (.listKeys _) => False
  | _, _ => True

theorem copies_handle {γ : Type} (c : Call γ) (s t : State) (hc : c.Unlisted) (h : Copies s t) :
    (callHandler.handle c s).1 = (callHandler.handle c t).1 ∧
      Copies (callHandler.handle c s).2 (callHandler.handle c t).2 := by
  have hfind : ∀ k, t.backend.data.find k = s.backend.data.find k := h.find
  cases c with
  | field a =>
    rw [callHandler]
    dsimp only
    rw [h.fields]
    exact ⟨rfl, rfl, h.find, h.lists⟩
  | backend c =>
    cases c with
    | get key => exact ⟨congrArg Except.ok (hfind key).symm, h⟩
    | existsKey key =>
      exact ⟨congrArg (fun o ↦ Except.ok (Option.isSome o)) (hfind key).symm, h⟩
    | put key data =>
      refine ⟨rfl, h.fields, fun k ↦ ?_, h.lists⟩
      exact (State.find_put t key k data).trans
        ((by rw [h.find] : _ = _).trans (State.find_put s key k data).symm)
    | delete key =>
      refine ⟨rfl, h.fields, fun k ↦ ?_, h.lists⟩
      exact (State.find_del t key k).trans
        ((by rw [h.find] : _ = _).trans (State.find_del s key k).symm)
    | listKeys pre => exact hc.elim

/-! ## Programs -/

/-- From states related by `R` a program returns the same and ends in states related by `R'`. -/
def Carries {α : Type} (R R' : State → State → Prop) (p : BackendM α) : Prop :=
  ∀ s t, R s t → (callHandler.eval p.run s).1 = (callHandler.eval p.run t).1 ∧
    R' (callHandler.eval p.run s).2 (callHandler.eval p.run t).2

section Programs

variable {α β : Type} {R R₁ R' : State → State → Prop}

theorem Carries.bind {p : BackendM α} {f : α → BackendM β} (hp : Carries R R₁ p)
    (hf : ∀ a, Carries R₁ R' (f a)) (herr : ∀ s t, R₁ s t → R' s t) : Carries R R' (p >>= f) := by
  intro s t h
  obtain ⟨hr, hs⟩ := hp s t h
  rw [ExceptT.run_bind, Handler.eval_bind, Handler.eval_bind, ← hr]
  cases (callHandler.eval p.run s).1 with
  | ok a => exact hf a _ _ hs
  | error e => exact ⟨rfl, herr _ _ hs⟩

theorem carries_pure (a : α) : Carries R R (pure a) := fun _ _ h ↦ ⟨rfl, h⟩

theorem Blind.carries {p : BackendM α} (hp : Blind p) : Carries Twins Twins p :=
  fun _ _ h ↦ Uses.eval_congr hp twins_handle h

theorem carries_of_unlisted {p : BackendM α} (hp : Makes Call.Unlisted p) :
    Carries Copies Copies p :=
  fun _ _ h ↦ Uses.eval_congr hp copies_handle h

private theorem Call.Storing.unlisted {γ : Type} {c : Call γ} (h : c.Storing) : c.Unlisted := by
  cases c with
  | field a => trivial
  | backend c =>
    cases c with
    | listKeys pre => exact h.elim
    | _ => trivial

/-- What is built is built from the answers alone. -/
theorem carries_construct (m : Manifest) (rc : RefCount) :
    Carries Twins Copies (field (.construct m rc)) :=
  fun _ _ h ↦ ⟨rfl, rfl, h.find, h.lists⟩

theorem unlisted_rebuildStats (store : ChunkStore) :
    Makes Call.Unlisted (flat store.rebuildStats) := by
  simp only [ChunkStore.rebuildStats, flat_bind, flat_locked, flat_foldlM]
  refine (makes_field trivial).bind fun refs ↦ (makes_foldlM (fun stats e ↦ ?_) _ _).bind fun _ ↦
    makes_field trivial
  simp only [ChunkStore.rebuildStat, flat_bind, flat_ite, flat_pure]
  exact makes_ite (Makes.bind (makes_pure _) fun _ ↦ makes_pure _)
    (((makes_chunkSize store e.1).mono fun _ h ↦ h.unlisted).bind fun _ ↦ makes_pure _)

private theorem blind_backfillRefcountSizes (crates : Crates) (rc : RefCount) :
    Blind (backfillRefcountSizes crates rc) := by
  refine makes_foldlM (fun rc e ↦ ?_) _ _
  refine Makes.bind (makes_backendCall trivial) fun raw ↦ ?_
  cases raw with
  | none => exact makes_pure _
  | some data =>
    dsimp only
    exact makes_ite ((confined_saveRefcount (K := fun _ ↦ True) trivial trivial).blind.bind
      fun _ ↦ makes_pure _) (makes_pure _)

private theorem blind_loadManifests (crates : Crates) : Blind (loadManifests crates) := by
  refine Makes.bind (confined_readStringList (K := fun _ ↦ True)).blind fun index ↦
    makes_foldlM (fun m f ↦ ?_) _ _
  refine Makes.bind (makes_backendCall trivial) fun raw ↦ ?_
  cases raw with
  | none => exact makes_throw _
  | some raw =>
    dsimp only
    cases crates.serde.manifestFromSlice raw with
    | error e => exact makes_throw _
    | ok record => exact (makes_ofExcept _).bind fun _ ↦ makes_ofExcept _

private theorem blind_loadRefcounts (crates : Crates) : Blind (loadRefcounts crates) := by
  refine Makes.bind (confined_readStringList (K := fun _ ↦ True)).blind fun index ↦
    makes_foldlM (fun rc d ↦ ?_) _ _
  refine (makes_ofExcept _).bind fun _ ↦ Makes.bind (makes_backendCall trivial) fun raw ↦ ?_
  cases raw with
  | none => exact makes_throw _
  | some raw => exact (makes_ofExcept _).bind fun _ ↦ makes_ite (makes_pure _) (makes_pure _)

/-- **Opening** twins: from the moment the loaded tables are in place the two are copies. -/
theorem carries_openStore (crates : Crates) : Carries Twins Twins (flat (openStore crates)) := by
  simp only [openStore, flat_bind, flat_unlocked, flat_pure]
  refine (blind_loadManifests crates).carries.bind (fun m ↦ ?_) fun _ _ h ↦ h
  refine (blind_loadRefcounts crates).carries.bind (fun loaded ↦ ?_) fun _ _ h ↦ h
  refine (blind_backfillRefcountSizes crates loaded).carries.bind (fun rc ↦ ?_) fun _ _ h ↦ h
  refine (carries_construct m rc).bind (fun _ ↦ ?_) fun _ _ h ↦ h.twins
  have hstats : Carries Copies Twins (flat (ChunkStore.rebuildStats ⟨crates, none⟩)) := by
    intro s t h
    obtain ⟨hr, hc⟩ := carries_of_unlisted (unlisted_rebuildStats ⟨crates, none⟩) s t h
    exact ⟨hr, hc.twins⟩
  exact hstats.bind (fun _ ↦ carries_pure _) fun _ _ h ↦ h

theorem carries_reopen (store : ChunkStore) : Carries Twins Twins (flat store.reopen) := by
  rw [ChunkStore.reopen]
  cases store.codec with
  | none =>
    rw [flat_bind]
    exact (carries_openStore store.crates).bind (fun _ ↦ carries_pure _) fun _ _ h ↦ h
  | some codec =>
    simp only [openWithCodec, flat_bind, bind_assoc]
    exact (carries_openStore store.crates).bind (fun _ ↦ carries_pure _) fun _ _ h ↦ h

end Programs

/-! ## Operations -/

namespace ChunkStore

/-- Two replies that say the same. -/
def Reply.Same : Reply → Reply → Prop
  | .report r, .report r' =>
    r.missingBlobs.Perm r'.missingBlobs ∧ r.orphanBlobs.Perm r'.orphanBlobs ∧
      r.repaired = r'.repaired
  | r, r' => r = r'

theorem Reply.Same.refl (r : Reply) : r.Same r := by
  cases r with
  | report r => exact ⟨.refl _, .refl _, rfl⟩
  | _ => rfl

/-- Two results that say the same. -/
def SameResult : Except ChunkStoreError Reply → Except ChunkStoreError Reply → Prop
  | .ok r, .ok r' => r.Same r'
  | r, r' => r = r'

private theorem SameResult.of_eq {r r' : Except ChunkStoreError Reply} (h : r = r') :
    SameResult r r' := by
  subst h
  cases r with
  | ok r => exact Reply.Same.refl r
  | error e => rfl

variable {store : ChunkStore} {s t : State} {op : Op} {ops : List Op}

private theorem mem_missingOf_twins (h : Twins s t) (d : String) :
    d ∈ missingOf t ↔ d ∈ missingOf s := by
  rw [mem_missingOf, mem_missingOf, h.refs, h.find]

private theorem mem_orphansOf_twins (h : Twins s t) (k : String) :
    k ∈ orphansOf t ↔ k ∈ orphansOf s := by
  rw [mem_orphansOf, mem_orphansOf, h.refs, h.find, h.lists]

/-- **The step lemma.** An operation on twins returns the same and leaves twins. -/
theorem exec_twins (h : Twins s t) (op : Op) :
    SameResult (store.exec op s).1 (store.exec op t).1 ∧
      Twins (store.exec op s).2 (store.exec op t).2 := by
  have hcarries : Carries Twins Twins (flat (store.perform op)) →
      SameResult (store.exec op s).1 (store.exec op t).1 ∧
        Twins (store.exec op s).2 (store.exec op t).2 := fun ha ↦
    ⟨SameResult.of_eq (ha s t h).1, (ha s t h).2⟩
  cases op with
  | ingest fileId input =>
    refine hcarries (Blind.carries ?_)
    rw [perform, flat_map, ingestInput_eq]
    exact (blind_ingestStream store fileId _).map
  | delete fileId =>
    refine hcarries (Blind.carries ?_)
    rw [perform, flat_map]
    exact (blind_delete store fileId).map
  | read fileId =>
    refine hcarries (Blind.carries ?_)
    rw [perform, flat_map]
    exact (blind_read store fileId).map
  | readChunk digest =>
    refine hcarries (Blind.carries ?_)
    rw [perform, flat_map]
    exact (blind_readChunkByDigest store digest).map
  | chunkRefcount digest =>
    refine hcarries (Blind.carries ?_)
    rw [perform, flat_map, ChunkStore.chunkRefcount, flat_locked]
    exact (makes_field trivial).map
  | reopen =>
    refine hcarries ?_
    rw [perform, flat_map, map_eq_pure_bind]
    exact (carries_reopen store).bind (fun _ ↦ carries_pure _) fun _ _ h ↦ h
  | stats =>
    refine ⟨SameResult.of_eq ?_, h⟩
    change Except.ok (Reply.stats s.fields.stats) = Except.ok (Reply.stats t.fields.stats)
    rw [h.stats]
  | fsck repair =>
    obtain ⟨hr, hf, hfind⟩ := @exec_fsck store repair s
    obtain ⟨hr', hf', hfind'⟩ := @exec_fsck store repair t
    have hmissing : (missingOf s).Perm (missingOf t) :=
      (List.perm_ext_iff_of_nodup (nodup_missingOf s) (nodup_missingOf t)).mpr fun d ↦
        (mem_missingOf_twins h d).symm
    have horphans : (orphansOf s).Perm (orphansOf t) :=
      (List.perm_ext_iff_of_nodup (nodup_orphansOf s) (nodup_orphansOf t)).mpr fun k ↦
        (mem_orphansOf_twins h k).symm
    refine ⟨?_, ⟨fun k ↦ ?_, fun f ↦ ?_, fun f ↦ ?_, fun d ↦ ?_, ?_, ?_⟩, ?_, ?_⟩
    · rw [hr, hr', horphans.length_eq]
      exact ⟨hmissing, horphans, rfl⟩
    · rw [hfind, hfind', h.find]
      exact if_congr (and_congr_right fun _ ↦ mem_orphansOf_twins h k) rfl rfl
    · rw [hf, hf', h.files]
    · rw [hf, hf', h.fileBytes]
    · rw [hf, hf', h.refs]
    · rw [hf, hf', h.total]
    · rw [hf, hf', h.stored]
    · rw [hf, hf', h.gc]
    · exact (lists_eval _ t).trans (h.lists.trans (lists_eval _ s).symm)

/-- **The run lemma.** Runs from twins return the same, one result after the other, and end in
twins. -/
theorem execAll_twins (h : Twins s t) (ops : List Op) :
    List.Forall₂ SameResult (store.execAll ops s).1 (store.execAll ops t).1 ∧
      Twins (store.execAll ops s).2 (store.execAll ops t).2 := by
  induction ops generalizing s t with
  | nil => exact ⟨.nil, h⟩
  | cons op ops ih =>
    obtain ⟨hr, h'⟩ := @exec_twins store _ _ h op
    exact ⟨.cons hr (ih h').1, (ih h').2⟩

end ChunkStore

end Chunkstore

import Chunkstore.Processes.Versions

/-!
# Processes that only read

Opening a backend writes to it: a refcount record without a size gets the length of its blob, and
this is saved together with the count that was loaded a moment before. Nothing else that a reading
process does writes. So what readers may do to a writer depends on whether a record can lack its
size.

A writer that stores no empty chunk never leaves such a record. Then a process that opens the
backend and reads, however its calls fall between those of the writer, writes nothing at all, and
the writer runs as if it were alone.

## Main result

* `ChunkStore.readers_undisturbing`: the writer is where it would be alone, and between its
  operations the persisted counts are those it holds in memory.
-/

open Effects Program

namespace Chunkstore

/-! ## Records with their sizes -/

/-- Every refcount record on the backend has the size of its chunk, which is not zero. -/
def SizedRecords (crates : Crates) (b : Backend) : Prop :=
  ∀ digest raw, digest ≠ indexName → b.data.find (refcountKey digest) = some raw →
    ∃ record : RefCountRecord, 0 < record.size ∧ raw = crates.serde.refcountToVec record

theorem sizedRecords_empty {crates : Crates} (lists : Bool) : SizedRecords crates ⟨∅, lists⟩ := by
  intro digest raw _ h
  cases h

/-- Every entry of a table has its size. -/
def SizedRefs (rc : RefCount) : Prop := ∀ digest r, rc.counts.find digest = some r → 0 < r.size

theorem sizedRefs_new : SizedRefs .new := fun digest r h ↦ by cases h

section Sized

variable {rc : RefCount} {digest : String} {count size n : ℕ}

theorem SizedRefs.of_counts_set {rc' : RefCount} (h : SizedRefs rc) (hsize : 0 < size)
    (hset : rc'.counts = rc.counts.set digest ⟨count, size⟩) : SizedRefs rc' := by
  intro d r hr
  rw [hset, Table.find_set] at hr
  split at hr
  · rw [← Option.some.inj hr]
    exact hsize
  · exact h d r hr

theorem SizedRefs.of_counts_unset {rc' : RefCount} (h : SizedRefs rc)
    (hunset : rc'.counts = rc.counts.unset digest) : SizedRefs rc' := by
  intro d r hr
  rw [hunset, Table.find_unset] at hr
  split at hr
  · cases hr
  · exact h d r hr

theorem SizedRefs.set (h : SizedRefs rc) (hsize : 0 < size) :
    SizedRefs (rc.set digest count size) := by
  rw [RefCount.set]
  split
  · exact h.of_counts_unset rfl
  · exact h.of_counts_set hsize rfl

theorem SizedRefs.increment {rc' : RefCount} (h : SizedRefs rc) (hsize : 0 < size)
    (hinc : rc.increment digest size = .ok (n, rc')) : SizedRefs rc' := by
  refine h.of_counts_set ?_ (RefCount.increment_eq_ok hinc).2
  rw [RefCount.mergedSize]
  cases hr : rc.counts.find digest with
  | none => exact hsize
  | some r =>
    dsimp only
    rw [if_neg (h digest r hr).ne']
    exact h digest r hr

theorem SizedRefs.decrement {rc' : RefCount} (h : SizedRefs rc)
    (hdec : rc.decrement digest = .ok (n, rc')) : SizedRefs rc' := by
  cases hr : rc.counts.find digest with
  | none =>
    rw [RefCount.decrement_of_find_none hr] at hdec
    cases hdec
  | some r =>
    rw [RefCount.decrement_of_find hr] at hdec
    obtain ⟨-, rfl⟩ := Prod.mk.inj (Except.ok.inj hdec)
    split
    · exact h.of_counts_unset rfl
    · exact h.of_counts_set (h digest r hr) rfl

theorem SizedRefs.backfillRefcountSizes (h : SizedRefs rc) (crates : Crates) :
    backfillRefcountSizes crates rc = pure rc := by
  have hnone : rc.iterRefs.filter (fun e ↦ decide (e.2.size = 0 ∧ 0 < e.2.count)) = [] := by
    refine List.filter_eq_nil_iff.mpr fun e he ↦ ?_
    have hsize := h e.1 e.2 (RefCount.mem_iterRefs.mp he)
    rw [decide_eq_true_eq]
    exact fun h0 ↦ hsize.ne' h0.1
  rw [Chunkstore.backfillRefcountSizes, hnone]
  rfl

end Sized

/-! ## A reader -/

/-- A request that leaves the backend as it is. -/
def Call.Silent {γ : Type} : Call γ → Prop
  | .backend (.put _ _) => False
  | .backend (.delete _) => False
  | _ => True

section Reader

variable {F : Prop} {V : Backend → Prop} {α β γ : Type} {Q : α → Fields → Prop} {f : Fields}

theorem Call.Silent.together {c : Call γ} (h : c.Silent) (l : Fields) (r : γ) (l' : Fields) :
    (together F).silent.step l c r l' := by
  intro b f r b' f' hs
  cases c with
  | field a => exact together_field hs
  | backend c =>
    cases c with
    | put | delete => exact h.elim
    | get | existsKey | listKeys => exact (together_backend hs).elim id id

theorem Call.Reads.silent {c : Call γ} (h : c.Reads) : c.Silent := by
  cases c with
  | field a => trivial
  | backend c =>
    cases c with
    | put | delete => exact h.elim
    | get | existsKey | listKeys => trivial

/-- What code of a reader ends in: it writes nothing, and every entry of its table has its size. -/
abbrev silently (F : Prop) (V : Backend → Prop) (p : BackendM α) (Q : α → Fields → Prop)
    (f : Fields) : Prop :=
  wpx ((together F).among V) (together F).silent p (fun a f' ↦ SizedRefs f'.refcount ∧ Q a f')
    (fun _ f' ↦ SizedRefs f'.refcount) f

theorem silently_backendCall {c : BackendCall α} (hc : (Call.backend c).Silent)
    (hf : SizedRefs f.refcount) (hQ : ∀ b, V b → Q (c.run b).1 f) :
    silently F V (backendCall c) Q f := by
  rintro r f' ⟨b, b', hb, hs⟩
  refine ⟨hc.together f r f', ?_⟩
  rcases hs with ⟨rfl, hs⟩ | ⟨-, ⟨e, rfl⟩, hs | hs⟩
  · obtain rfl : f' = f := (State.mk.inj hs).2
    exact ⟨hf, hQ b hb⟩
  all_goals
    obtain rfl : f' = f := (State.mk.inj hs).2
    exact hf

theorem silently_field {a : FieldAccess α} (hf : SizedRefs (a.run f).2.refcount)
    (hQ : Q (a.run f).1 (a.run f).2) : silently F V (field a) Q f := by
  intro r f' hstep
  refine ⟨Call.Silent.together (c := .field a) trivial f r f', ?_⟩
  obtain ⟨b, b', -, rfl, hs⟩ := hstep
  obtain rfl := (State.mk.inj hs).2
  exact ⟨hf, hQ⟩

theorem silently_ofExcept {r : Except ChunkStoreError α} (hf : SizedRefs f.refcount)
    (hQ : ∀ a, r = .ok a → Q a f) : silently F V (ofExcept r) Q f := by
  cases r with
  | ok a => exact ⟨hf, hQ a rfl⟩
  | error e => exact hf

theorem silently_bind {p : BackendM α} {g : α → BackendM β} {Q : β → Fields → Prop}
    (h : silently F V p (fun a f' ↦ SizedRefs f'.refcount → silently F V (g a) Q f') f) :
    silently F V (p >>= g) Q f :=
  (wpx_bind p g).mpr (wpx_mono h (fun _ _ h ↦ h.2 h.1) fun _ _ h ↦ h)

theorem silently_mono {p : BackendM α} {Q' : α → Fields → Prop} (h : silently F V p Q f)
    (hQ : ∀ a f', Q a f' → Q' a f') : silently F V p Q' f :=
  wpx_mono h (fun a f' h ↦ ⟨h.1, hQ a f' h.2⟩) fun _ _ h ↦ h

/-- A request that leaves the backend and the counts of the instance as they are. -/
def Call.Peeks {γ : Type} (c : Call γ) : Prop :=
  c.Silent ∧ ∀ s, (callHandler.handle c s).2.fields.refcount = s.fields.refcount

theorem Call.Reads.peeks {c : Call γ} (h : c.Reads) : c.Peeks :=
  ⟨h.silent, fun s ↦ by rw [h.idle s]⟩

theorem silently_of_peeks {p : BackendM α} (hp : Makes Call.Peeks p) (hf : SizedRefs f.refcount) :
    silently F V p (fun _ _ ↦ True) f := by
  refine wp_post (Uses.wp (I := fun f' : Fields ↦ SizedRefs f'.refcount) hp
    (fun c f₁ r f₂ hc h₁ hs ↦ ⟨hc.1.together f₁ r f₂, ?_⟩) hf) fun r f' h ↦ ?_
  · obtain ⟨b, b', -, hs⟩ := hs
    cases c with
    | backend c =>
      rcases hs with ⟨-, hs⟩ | ⟨-, -, hs | hs⟩
      all_goals
        obtain rfl : f₂ = f₁ := (State.mk.inj hs).2
        exact h₁
    | field a =>
      have hsame := hc.2 ⟨b, f₁⟩
      rw [show f₂ = (callHandler.handle (.field a) ⟨b, f₁⟩).2.fields from (State.mk.inj hs.2).2,
        hsame]
      exact h₁
  · cases r with
    | ok a => exact ⟨h, trivial⟩
    | error e => exact h

end Reader

section Loading

variable {F : Prop} {V : Backend → Prop} {f : Fields} {crates : Crates}

private theorem silently_loadRefcounts (hV : ∀ b, V b → SizedRecords crates b)
    (hf : SizedRefs f.refcount) :
    silently F V (loadRefcounts crates) (fun rc _ ↦ SizedRefs rc) f := by
  refine silently_bind (silently_mono (silently_of_peeks ((reads_readStringList crates _).mono
    fun _ h ↦ h.peeks) hf) fun index f₁ _ hf₁ ↦ ?_)
  refine wpx_mono (wpx_foldlM (J := fun _ rc (f' : Fields) ↦ SizedRefs f'.refcount ∧ SizedRefs rc)
    ?_ index RefCount.new f₁ ⟨hf₁, sizedRefs_new⟩) (fun _ _ h ↦ h) fun _ _ h ↦ h
  rintro digest l rc f₂ ⟨hf₂, hrc⟩
  refine silently_bind (silently_ofExcept hf₂ fun _ hvalid _ ↦ ?_)
  have hne := ne_of_isChunkDigest (validateDigest_eq_ok.mp hvalid) isChunkDigest_indexName
  refine silently_bind (silently_backendCall trivial hf₂ fun b hb _ ↦ ?_)
  dsimp only [BackendCall.run]
  cases hraw : b.data.find (refcountKey digest) with
  | none => exact hf₂
  | some raw =>
    obtain ⟨record, hsize, rfl⟩ := hV b hb digest raw hne hraw
    dsimp only
    rw [parseRefcountRecord, crates.serde.refcount_roundtrip, ofExcept_ok, pure_bind]
    split
    · exact ⟨hf₂, hrc.set hsize⟩
    · exact ⟨hf₂, hrc⟩

/-- **Opening writes nothing** where every record has its size. -/
theorem silently_reopen (store : ChunkStore) (hV : ∀ b, V b → SizedRecords store.crates b)
    (hf : SizedRefs f.refcount) : silently F V (flat store.reopen) (fun _ _ ↦ True) f := by
  have hopen : silently F V (flat (openStore store.crates)) (fun _ _ ↦ True) f := by
    rw [flat_openStore, loadMetadata]
    refine silently_bind (silently_bind (silently_mono (silently_of_peeks
      ((reads_loadManifests store.crates).mono fun _ h ↦ h.peeks) hf) fun m f₁ _ hf₁ ↦ ?_))
    refine silently_bind (silently_mono (silently_loadRefcounts hV hf₁) fun rc f₂ hrc hf₂ ↦ ?_)
    rw [hrc.backfillRefcountSizes, pure_bind]
    refine silently_field hrc fun hf₃ ↦ silently_bind (silently_mono (silently_of_peeks
      (makes_rebuildStats _ (fun _ h ↦ h.peeks) fun stats ↦ ⟨trivial, fun _ ↦ rfl⟩) hf₃)
        fun _ f₄ _ hf₄ ↦ ⟨hf₄, trivial⟩)
  rw [ChunkStore.reopen]
  cases store.codec with
  | none =>
    rw [flat_bind]
    exact silently_bind (silently_mono hopen fun _ _ _ hf' ↦ ⟨hf', trivial⟩)
  | some codec =>
    simp only [openWithCodec, flat_bind, bind_assoc]
    exact silently_bind (silently_mono hopen fun _ _ _ hf' ↦ ⟨hf', trivial⟩)

/-- An operation of a process that only reads. -/
def ChunkStore.Op.ReadsOnly (op : ChunkStore.Op) : Prop := op.Asks ∨ op = .reopen

/-- **A reader writes nothing** where every record has its size. -/
theorem silently_serve (store : ChunkStore) (hV : ∀ b, V b → SizedRecords store.crates b)
    {ops : List ChunkStore.Op} (hops : ∀ op ∈ ops, op.ReadsOnly) (hf : SizedRefs f.refcount) :
    wp ((together F).among V) (together F).silent (store.serve ops) (fun _ _ ↦ True) f := by
  induction ops generalizing f with
  | nil => trivial
  | cons op ops ih =>
    have hop : silently F V (flat (store.perform op)) (fun _ _ ↦ True) f := by
      rcases hops op List.mem_cons_self with hask | rfl
      · exact silently_of_peeks ((ChunkStore.reads_ask hask).mono fun _ h ↦ h.peeks) hf
      · rw [ChunkStore.perform, ChunkStore.flat_map, map_eq_pure_bind]
        exact silently_bind (silently_mono (silently_reopen store hV hf)
          fun _ _ _ hf' ↦ ⟨hf', trivial⟩)
    rw [ChunkStore.serve, wp_bind]
    refine wp_post hop fun r f' hr ↦ ?_
    have hf' : SizedRefs f'.refcount := by
      cases r with
      | ok reply => exact hr.1
      | error e => exact hr
    rw [wp_bind]
    exact wp_post (ih (fun o ho ↦ hops o (List.mem_cons_of_mem op ho)) hf') fun _ _ _ ↦ trivial

end Loading

/-! ## The writer -/

section Writer

variable {F : Prop} {α β γ : Type} {Q : α → State → Prop} {s : State} {crates : Crates}

/-- The records on the backend and the entries in memory have their sizes. -/
def SizedState (crates : Crates) (s : State) : Prop :=
  SizedRecords crates s.backend ∧ SizedRefs s.fields.refcount

/-- What code of the writer ends in: at every moment the records have their sizes, and at the end
the entries in memory too. -/
abbrev sizedly (F : Prop) (crates : Crates) (p : BackendM α) (Q : α → State → Prop) (s : State) :
    Prop :=
  wpx (faulty F) (.into fun s' ↦ SizedRecords crates s'.backend) p
    (fun a s' ↦ SizedState crates s' ∧ Q a s') (fun _ s' ↦ SizedState crates s') s

theorem sizedly_bind {p : BackendM α} {g : α → BackendM β} {Q : β → State → Prop}
    (h : sizedly F crates p (fun a s' ↦ SizedState crates s' → sizedly F crates (g a) Q s') s) :
    sizedly F crates (p >>= g) Q s :=
  (wpx_bind p g).mpr (wpx_mono h (fun _ _ h ↦ h.2 h.1) fun _ _ h ↦ h)

theorem sizedly_mono {p : BackendM α} {Q' : α → State → Prop} (h : sizedly F crates p Q s)
    (hQ : ∀ a s', Q a s' → Q' a s') : sizedly F crates p Q' s :=
  wpx_mono h (fun a s' h ↦ ⟨h.1, hQ a s' h.2⟩) fun _ _ h ↦ h

/-- A request that takes no size away. -/
def Call.KeepsSizes (crates : Crates) {γ : Type} : Call γ → Prop
  | .backend (.put key data) => ∀ digest, digest ≠ indexName → key = refcountKey digest →
    ∃ record : RefCountRecord, 0 < record.size ∧ data = crates.serde.refcountToVec record
  | .field (.construct _ _) => False
  | .field (.refcountIncrement _ size) => 0 < size
  | _ => True

theorem SizedRecords.run {b : Backend} {c : BackendCall γ}
    (hc : (Call.backend c).KeepsSizes crates) (h : SizedRecords crates b) :
    SizedRecords crates (c.run b).2 := by
  cases c with
  | get | existsKey | listKeys => exact h
  | put key data =>
    intro digest raw hne hraw
    change (b.data.set key data).find _ = _ at hraw
    rw [Table.find_set] at hraw
    split at hraw
    · rename_i hkey
      rw [← Option.some.inj hraw]
      exact hc digest hne hkey.symm
    · exact h digest raw hne hraw
  | delete key =>
    intro digest raw hne hraw
    change (b.data.unset key).find _ = _ at hraw
    rw [Table.find_unset] at hraw
    split at hraw
    · cases hraw
    · exact h digest raw hne hraw

theorem SizedState.step {c : Call γ} {r : γ} {s' : State} (hc : c.KeepsSizes crates)
    (h : SizedState crates s) (hs : (faulty F).step s c r s') : SizedState crates s' := by
  cases c with
  | backend c =>
    rcases hs with ⟨-, rfl⟩ | ⟨-, -, rfl | rfl⟩
    · exact ⟨h.1.run hc, h.2⟩
    · exact h
    · exact ⟨h.1.run hc, h.2⟩
  | field a =>
    obtain ⟨-, rfl⟩ := hs
    refine ⟨h.1, ?_⟩
    cases a with
    | construct => exact hc.elim
    | refcountIncrement digest size =>
      dsimp only [FieldAccess.run]
      cases hinc : s.fields.refcount.increment digest size with
      | ok r => exact h.2.increment hc hinc
      | error e => exact h.2
    | refcountDecrement digest =>
      dsimp only [FieldAccess.run]
      cases hdec : s.fields.refcount.decrement digest with
      | ok r => exact h.2.decrement hdec
      | error e => exact h.2
    | manifestInsert fileId digests fileBytes =>
      dsimp only [FieldAccess.run]
      split <;> exact h.2
    | _ => exact h.2

theorem sizedly_of_makes {p : BackendM α} (hp : Makes (Call.KeepsSizes crates) p)
    (h : SizedState crates s) : sizedly F crates p (fun _ _ ↦ True) s := by
  refine wp_post (Uses.wp (I := SizedState crates) hp (fun c s₁ r s₂ hc h₁ hs ↦ ?_) h)
    fun r s' h' ↦ ?_
  · exact ⟨(h₁.step hc hs).1, h₁.step hc hs⟩
  · cases r with
    | ok a => exact ⟨h', trivial⟩
    | error e => exact h'

theorem Call.Reads.keepsSizes {c : Call γ} (h : c.Reads) : c.KeepsSizes crates := by
  cases c with
  | backend c =>
    cases c with
    | put | delete => exact h.elim
    | get | existsKey | listKeys => trivial
  | field a =>
    cases a with
    | construct | refcountIncrement => exact h.elim
    | _ => trivial

theorem keepsSizes_put {key : String} {data : Bytes}
    (h : ∀ digest, key = refcountKey digest → digest = indexName) :
    (Call.backend (.put key data)).KeepsSizes crates :=
  fun digest hne hkey ↦ absurd (h digest hkey) hne

theorem keepsSizes_put_indexKey {data : Bytes} :
    (Call.backend (.put refcountIndexKey data)).KeepsSizes crates :=
  keepsSizes_put fun _ h ↦ refcountKey_eq_indexKey.mp h.symm

theorem keepsSizes_put_manifestKey {fileId : String} {data : Bytes} :
    (Call.backend (.put (manifestKey fileId) data)).KeepsSizes crates :=
  keepsSizes_put fun digest h ↦ absurd h (manifestKey_ne_refcountKey fileId digest)

theorem keepsSizes_saveRefcount {digest : String} {count size : ℕ} (h : 0 < size) :
    Makes (Call.KeepsSizes crates) (saveRefcount crates digest count size) := by
  rw [saveRefcount_eq]
  exact (makes_ofExcept _).bind fun _ ↦ (makes_backendCall fun _ _ _ ↦ ⟨⟨count, size⟩, h, rfl⟩).bind
    fun _ ↦ ((reads_readStringList crates _).mono fun _ h ↦ h.keepsSizes).bind fun _ ↦
      makes_ite (makes_pure _) (makes_backendCall keepsSizes_put_indexKey)

theorem keepsSizes_removeRefcount {digest : String} :
    Makes (Call.KeepsSizes crates) (removeRefcount crates digest) := by
  rw [removeRefcount_eq]
  exact (makes_backendCall trivial).bind fun _ ↦ ((reads_readStringList crates _).mono
    fun _ h ↦ h.keepsSizes).bind fun _ ↦ makes_backendCall keepsSizes_put_indexKey

theorem keepsSizes_listName {fileId : String} :
    Makes (Call.KeepsSizes crates) (listName crates manifestIndexKey fileId) :=
  ((reads_readStringList crates _).mono fun _ h ↦ h.keepsSizes).bind fun _ ↦
    makes_ite (makes_pure _)
      (makes_backendCall (manifestKey_indexName ▸ keepsSizes_put_manifestKey))

theorem keepsSizes_removeManifest {fileId : String} :
    Makes (Call.KeepsSizes crates) (removeManifest crates fileId) := by
  rw [removeManifest_eq]
  exact (makes_backendCall trivial).bind fun _ ↦ ((reads_readStringList crates _).mono
    fun _ h ↦ h.keepsSizes).bind fun _ ↦
      makes_backendCall (manifestKey_indexName ▸ keepsSizes_put_manifestKey)

/-! ### Its operations -/

variable {store : ChunkStore}

private theorem sizedly_chunkSize {digest : String} (h : SizedState crates s) :
    sizedly F crates (flat (store.chunkSize digest)) (fun size s' ↦ s' = s ∧
      ∀ r, s.fields.refcount.counts.find digest = some r → 0 < size) s := by
  simp only [ChunkStore.chunkSize, flat_bind, flat_locked, flat_ite, flat_pure, flat_unlocked]
  refine sizedly_bind ((wpx_field _).mpr ⟨h.1, h, fun _ ↦ ?_⟩)
  change sizedly F crates (ite (0 < (s.fields.refcount.sizeOf digest).getD 0) _ _) _ s
  by_cases hpos : 0 < (s.fields.refcount.sizeOf digest).getD 0
  · rw [if_pos hpos]
    exact ⟨h, rfl, fun _ _ ↦ hpos⟩
  · -- There is no entry, since it would have its size: the length of the blob will not be used.
    rw [if_neg hpos]
    rw [sizedly, wpx_bind, wpx_get]
    refine ⟨⟨h.1, ?_⟩, fun _ _ ↦ ⟨h.1, h⟩⟩
    cases s.find digest with
    | none => exact h
    | some raw =>
      simp only [flat_bind, flat_ofExcept, flat_pure]
      rw [wpx_bind, wpx_ofExcept]
      cases store.decodeBlob raw with
      | error e => exact h
      | ok plain =>
        refine ⟨h, rfl, fun r hr ↦ absurd ?_ hpos⟩
        rw [RefCount.sizeOf, hr]
        exact h.2 digest r hr

theorem sizedly_releaseDigest (digest : String) (h : SizedState store.crates s) :
    sizedly F store.crates (flat (store.releaseDigest digest)) (fun _ _ ↦ True) s := by
  simp only [ChunkStore.releaseDigest, flat_bind, flat_locked, flat_ite, flat_unlocked]
  refine sizedly_bind (sizedly_mono (sizedly_chunkSize h) ?_)
  intro size s₁ hs _
  obtain ⟨hs₁, hsize⟩ := hs
  rw [hs₁]
  rw [sizedly, wpx_bind, wpx_fieldOrThrow]
  refine ⟨h.1, ?_⟩
  have hstep : SizedState store.crates (s.withFields
      ((FieldAccess.refcountDecrement digest).run s.fields).2) :=
    SizedState.step (F := F) (c := .field (.refcountDecrement digest)) trivial h ⟨rfl, rfl⟩
  revert hstep
  dsimp only [FieldAccess.run]
  cases hdec : s.fields.refcount.decrement digest with
  | error e => exact fun hstep ↦ hstep
  | ok r =>
    intro hstep
    -- a chunk that has a count has its size
    have hpos : 0 < size := by
      cases hr : s.fields.refcount.counts.find digest with
      | some r => exact hsize r hr
      | none =>
        rw [RefCount.decrement_of_find_none hr] at hdec
        cases hdec
    change wpx _ _ (ite (r.1 = 0) _ _) _ _ _
    by_cases hlast : r.1 = 0
    · rw [if_pos hlast]
      exact sizedly_of_makes ((makes_backendCall trivial).bind fun _ ↦
        keepsSizes_removeRefcount.bind fun _ ↦ (makes_field trivial).bind fun _ ↦
          makes_field trivial) hstep
    · rw [if_neg hlast]
      exact sizedly_of_makes ((keepsSizes_saveRefcount hpos).bind fun _ ↦ makes_field trivial) hstep

private theorem sizedly_countChunk {digest : String} {size : ℕ} (hsize : 0 < size)
    (h : SizedState store.crates s) :
    sizedly F store.crates (store.countChunk digest size) (fun _ _ ↦ True) s := by
  rw [ChunkStore.countChunk, sizedly, wpx_bind, wpx_fieldOrThrow]
  refine ⟨h.1, ?_⟩
  have hstep : SizedState store.crates (s.withFields
      ((FieldAccess.refcountIncrement digest size).run s.fields).2) :=
    SizedState.step (F := F) (c := .field (.refcountIncrement digest size)) hsize h ⟨rfl, rfl⟩
  revert hstep
  dsimp only [FieldAccess.run]
  cases s.fields.refcount.increment digest size with
  | error e => exact fun hstep ↦ hstep
  | ok r =>
    intro hstep
    refine (wpx_bind _ _).mpr ((wpx_field _).mpr ⟨hstep.1, ?_⟩)
    refine sizedly_of_makes (keepsSizes_saveRefcount ?_) hstep
    change 0 < (r.2.sizeOf digest).getD size
    rw [RefCount.sizeOf]
    cases hr : r.2.counts.find digest with
    | none => exact hsize
    | some entry => exact hstep.2 digest entry hr

private theorem sizedly_storeChunk {chunk : Bytes} (hne : chunk ≠ [])
    (h : SizedState store.crates s) :
    sizedly F store.crates (flat (store.storeChunk (digestHex store.crates.sha256 chunk) chunk))
      (fun _ _ ↦ True) s := by
  simp only [ChunkStore.storeChunk, flat_bind, flat_ofExcept, flat_locked, flat_ite, flat_pure]
  cases hb : store.encodeBlob chunk with
  | error e => exact h
  | ok blob =>
    rw [ofExcept_ok, pure_bind]
    have hput : (Call.backend (.put (digestHex store.crates.sha256 chunk) blob)).KeepsSizes
        store.crates :=
      keepsSizes_put fun d hkey ↦ absurd hkey (ne_of_isChunkDigest (isChunkDigest_digestHex _ _)
        (isChunkDigest_refcountKey d))
    refine sizedly_bind (sizedly_mono (sizedly_of_makes ?_ h) fun present s₁ _ h₁ ↦ ?_)
    · exact (makes_backendCall trivial).bind fun _ ↦ makes_ite (makes_pure _)
        ((makes_backendCall hput).bind fun _ ↦ makes_pure _)
    · refine sizedly_bind (sizedly_mono (sizedly_countChunk (List.length_pos_iff.mpr hne) h₁)
        fun _ s₂ _ h₂ ↦ sizedly_of_makes ?_ h₂)
      exact makes_ite ((makes_field trivial).bind fun _ ↦ makes_pure _)
        ((makes_field trivial).bind fun _ ↦ makes_pure _)

theorem sizedly_ingestStream {fileId : String} {stream : Stream}
    (hne : ∀ chunk ∈ stream.chunks, chunk ≠ []) (h : SizedState store.crates s) :
    sizedly F store.crates (flat (store.ingestStream fileId stream)) (fun _ _ ↦ True) s := by
  refine wpx_mono (wpx_ingestStream (R := fun _ s' ↦ SizedState store.crates s')
    (I := fun l s' ↦ SizedState store.crates s' ∧ ∀ chunk ∈ l, chunk ≠ [])
    (K := fun _ s' ↦ SizedState store.crates s') ?_ (fun _ _ _ h ↦ h.1) ?_ ?_ ⟨h, hne⟩)
    (fun _ _ h ↦ ⟨h.2, trivial⟩) fun _ _ h ↦ h
  · rintro chunk l s₁ ⟨h₁, hl⟩
    exact wpx_mono (sizedly_storeChunk (hl chunk List.mem_cons_self) h₁)
      (fun _ _ h ↦ ⟨h.1, fun c hc ↦ hl c (List.mem_cons_of_mem chunk hc)⟩) fun _ _ h ↦ h
  · rintro s₁ - ⟨h₁, -⟩
    refine wpx_mono (sizedly_of_makes ?_ h₁) (fun _ _ h ↦ h.1) fun _ _ h ↦ h
    refine (makes_field trivial).bind fun _ ↦ (makes_fieldOrThrow trivial).bind fun _ ↦
      Makes.bind ?_ fun _ ↦ makes_pure _
    rw [saveManifest_eq]
    exact (makes_ofExcept _).bind fun _ ↦ (makes_backendCall keepsSizes_put_manifestKey).bind
      fun _ ↦ keepsSizes_listName
  · exact fun d _ s₁ h₁ ↦ wpx_mono (sizedly_releaseDigest d h₁) (fun _ _ h ↦ h.1) fun _ _ h ↦ h

private theorem sizedly_delete (fileId : String) (h : SizedState store.crates s) :
    sizedly F store.crates (flat (store.delete fileId)) (fun _ _ ↦ True) s := by
  refine wpx_mono (wpx_deleteFile (R := fun _ s' ↦ SizedState store.crates s')
    (K := fun _ s' ↦ SizedState store.crates s') ?_ ?_) (fun _ _ h ↦ ⟨h, trivial⟩) fun _ _ h ↦ h
  · refine wpx_mono (sizedly_of_makes ?_ h) (fun _ _ h ↦ h.1) fun _ _ h ↦ h
    exact (makes_fieldOrThrow trivial).bind fun _ ↦ keepsSizes_removeManifest.bind
      fun _ ↦ makes_pure _
  · exact fun d _ s₁ h₁ ↦ wpx_mono (sizedly_releaseDigest d h₁) (fun _ _ h ↦ h.1) fun _ _ h ↦ h

/-- What is silent among backends whose records have their sizes is silent on one of them. -/
private theorem wp_of_silent {p : Program Call α} {Q : α → Fields → Prop} {b : Backend} {f : Fields}
    (h : wp ((together F).among (SizedRecords crates)) (together F).silent p Q f)
    (hb : SizedRecords crates b) :
    wp (faulty F) (.into fun s' ↦ SizedRecords crates s'.backend) p
      (fun a s' ↦ SizedRecords crates s'.backend ∧ Q a s'.fields) ⟨b, f⟩ := by
  induction p generalizing f with
  | ret a => exact ⟨hb, h⟩
  | req c next ih =>
    rintro r ⟨b', f'⟩ hs
    obtain ⟨hquiet, hnext⟩ := h r f' ⟨b, b', hb, hs⟩
    obtain rfl : b' = b := hquiet b f r b' f' hs
    exact ⟨hb, ih r hnext⟩

private theorem sizedly_reopen (h : SizedState store.crates s) :
    sizedly F store.crates (flat store.reopen) (fun _ _ ↦ True) s := by
  have hsilent := wp_of_silent (silently_reopen (F := F) store (fun _ hb ↦ hb) h.2) h.1
  refine wp_post hsilent fun r s' hr ↦ ?_
  cases r with
  | ok a => exact ⟨⟨hr.1, hr.2.1⟩, trivial⟩
  | error e => exact ⟨hr.1, hr.2⟩

/-- **No operation of a writer that stores no empty chunk takes a size away.** -/
theorem sizedly_perform {op : ChunkStore.Op} (hne : ∀ chunk ∈ store.chunksOf op, chunk ≠ [])
    (h : SizedState store.crates s) :
    sizedly F store.crates (flat (store.perform op)) (fun _ _ ↦ True) s := by
  have hreads (p : BackendM ChunkStore.Reply) (hp : Makes Call.Reads p) :
      sizedly F store.crates p (fun _ _ ↦ True) s :=
    sizedly_of_makes (hp.mono fun _ h ↦ h.keepsSizes) h
  have hmap {δ : Type} (p : BackendM δ) (g : δ → ChunkStore.Reply)
      (hp : sizedly F store.crates p (fun _ _ ↦ True) s) :
      sizedly F store.crates (g <$> p) (fun _ _ ↦ True) s := by
    rw [map_eq_pure_bind]
    exact sizedly_bind (sizedly_mono hp fun _ _ _ h' ↦ ⟨h', trivial⟩)
  rw [ChunkStore.perform.eq_def]
  cases op with
  | ingest fileId input =>
    rw [ChunkStore.flat_map, ChunkStore.ingestInput_eq]
    exact hmap _ _ (sizedly_ingestStream hne h)
  | delete fileId =>
    rw [ChunkStore.flat_map]
    exact hmap _ _ (sizedly_delete fileId h)
  | read fileId => exact hreads _ (@ChunkStore.reads_ask store (.read fileId) trivial)
  | readChunk digest => exact hreads _ (@ChunkStore.reads_ask store (.readChunk digest) trivial)
  | stats => exact hreads _ (@ChunkStore.reads_ask store (.stats) trivial)
  | chunkRefcount digest =>
    exact hreads _ (@ChunkStore.reads_ask store (.chunkRefcount digest) trivial)
  | fsck repair =>
    rw [ChunkStore.flat_map]
    exact sizedly_of_makes (Makes.map (makes_fsck trivial (fun _ ↦ trivial) trivial
      (fun _ ↦ trivial) repair)) h
  | reopen =>
    rw [ChunkStore.flat_map]
    exact hmap _ _ (sizedly_reopen h)

theorem sizedly_serve {ops : List ChunkStore.Op}
    (hne : ∀ op ∈ ops, ∀ chunk ∈ store.chunksOf op, chunk ≠ []) (h : SizedState store.crates s) :
    wp (faulty F) (.into fun s' ↦ SizedRecords store.crates s'.backend) (store.serve ops)
      (fun _ _ ↦ True) s := by
  induction ops generalizing s with
  | nil => trivial
  | cons op ops ih =>
    rw [ChunkStore.serve, wp_bind]
    refine wp_post (sizedly_perform (hne op List.mem_cons_self) h) fun r s' hr ↦ ?_
    have h' : SizedState store.crates s' := by
      cases r with
      | ok reply => exact hr.1
      | error e => exact hr
    rw [wp_bind]
    exact wp_post (ih (fun o ho ↦ hne o (List.mem_cons_of_mem op ho)) h') fun _ _ _ ↦ trivial

end Writer

/-! ## The writer and its readers -/

section Alone

variable {F : Prop} {α : Type}

/-- The run of one process on the backend is one of the store. -/
private theorem faulty_steps_of_together {x y : Program Call α × Backend × Fields}
    (h : (together F).Steps x y) :
    (faulty F).Steps (x.1, ⟨x.2.1, x.2.2⟩) (y.1, ⟨y.2.1, y.2.2⟩) := by
  refine Relation.ReflTransGen.lift (fun x : Program Call α × Backend × Fields ↦
    (x.1, (⟨x.2.1, x.2.2⟩ : State))) ?_ _ _ h
  rintro _ _ ⟨hstep⟩
  exact .req hstep

theorem eval_of_steps {p : Program Call α} {s s' : State} {a : α}
    (h : (faulty False).Steps (p, s) (.ret a, s')) : callHandler.eval p s = (a, s') := by
  have hsteps : callHandler.toMachine.Steps (p, s) (.ret a, s') := by
    refine Relation.ReflTransGen.mono ?_ _ _ h
    rintro _ _ ⟨hstep⟩
    exact .req ((faulty_step_of_not not_false _ _ _ _).mp hstep)
  have hw : wp callHandler.toMachine .any p (fun a s' ↦ callHandler.eval p s = (a, s')) s :=
    wp_of_eval rfl
  exact wp_steps hw hsteps

end Alone

namespace ChunkStore

variable {store : ChunkStore}

/-- **Readers do not disturb the writer.** One process executes any operations, none of which stores
an empty chunk, and any number of others open the backend and read, with their calls anywhere
between those of the writer. At every moment the writer and the backend are where they would be if
the writer were alone, whether calls fail or not. When none fails and it has returned, the backend
has for every chunk the count that the writer holds in memory, which is no less than the references
to it. -/
theorem readers_undisturbing (store : ChunkStore) (F : Prop) (lists : Bool) (ops : List Op)
    (readers : List (List Op))
    (c' : List (Party Call Fields (List (Except ChunkStoreError Reply))) × Backend)
    (hne : ∀ op ∈ ops, ∀ chunk ∈ store.chunksOf op, chunk ≠ [])
    (hreaders : ∀ work ∈ readers, ∀ op ∈ work, op.ReadsOnly)
    (h : (together F).SharedSteps (store.processes ((.reopen :: ops) :: readers), ⟨∅, lists⟩) c') :
    ∃ p own others, c'.1 = ⟨p, own⟩ :: others ∧
      (faulty F).Steps (store.serve (.reopen :: ops), .empty lists) (p, ⟨c'.2, own⟩) ∧
      (¬F → (∀ op ∈ ops, ¬store.CommitsIndexName op) → ∀ rs, p = .ret rs →
        store.run lists ops = (rs.tail, ⟨c'.2, own⟩) ∧
          ∀ digest, persistedCount store.crates ⟨c'.2, own⟩ digest = own.refcount.countOf digest ∧
            own.manifest.occurrences digest ≤ own.refcount.countOf digest) := by
  have hstart : SizedState store.crates (.empty lists) :=
    ⟨sizedRecords_empty lists, sizedRefs_new⟩
  have hwork : ∀ op ∈ Op.reopen :: ops, ∀ chunk ∈ store.chunksOf op, chunk ≠ [] := by
    intro op hop
    rcases List.mem_cons.mp hop with rfl | hop
    · exact fun chunk hchunk ↦ absurd hchunk List.not_mem_nil
    · exact hne op hop
  -- no step of the writer takes the size of a record, and where each has its size readers are
  -- silent
  have hJ : ∀ x, (together F).Steps (store.serve (.reopen :: ops), ⟨∅, lists⟩, .empty) x →
      SizedRecords store.crates x.2.1 := fun x hx ↦
    wp_steps_into hstart.1 (sizedly_serve hwork hstart) (faulty_steps_of_together hx)
  have hsilent : ∀ Q ∈ store.processes readers, wp ((together F).among (SizedRecords store.crates))
      (together F).silent Q.program (fun _ _ ↦ True) Q.own := by
    intro Q hQ
    obtain ⟨work, hmem, rfl⟩ := List.mem_map.mp hQ
    exact silently_serve store (fun _ hb ↦ hb) (hreaders work hmem) sizedRefs_new
  obtain ⟨⟨p, own⟩, others, hc', hsteps, -⟩ := Machine.SharedSteps.alone hJ hsilent h
  have hsteps := faulty_steps_of_together hsteps
  refine ⟨p, own, others, hc', hsteps, fun hF hnames rs hret ↦ ?_⟩
  obtain rfl : F = False := eq_false hF
  subst hret
  -- the run of the writer alone is that of a store in sync with its backend
  have heval := (store.eval_serve _ _).symm.trans (eval_of_steps hsteps)
  have hrun : store.run lists ops = (rs.tail, ⟨c'.2, own⟩) := by
    rw [execAll] at heval
    obtain ⟨rfl, hs⟩ := Prod.mk.inj heval
    exact Prod.ext rfl hs
  obtain ⟨held, hrep⟩ := rep_execAll (rep_start store (store.Ingested ops) lists)
    (fun op hop chunk hchunk ↦ ⟨op, hop, hchunk⟩) hnames
  rw [← run, hrun] at hrep
  refine ⟨hrun, fun digest ↦ ⟨hrep.refcount.mirrors.persistedCount digest, ?_⟩⟩
  rw [hrep.counted digest]
  exact Nat.le_add_right _ _

theorem readers_undisturbing_turns : ∃ rs own, smallStore.run true
    [.ingest "f" (.bytes [0x61]), .ingest "g" (.bytes [0x62])] = (rs, ⟨(togetherHandler.turns
      ingestThenTurns (smallStore.processes writerAndReader, ⟨∅, true⟩)).2, own⟩) := by
  have hreaders : ∀ work ∈ [[Op.reopen, .read "f"]], ∀ op ∈ work, op.ReadsOnly := by
    intro work hwork op hop
    obtain rfl := List.mem_singleton.mp hwork
    rcases List.mem_pair.mp hop with rfl | rfl
    · exact Or.inr rfl
    · exact Or.inl trivial
  obtain ⟨p, own, others, hc', -, hend⟩ := readers_undisturbing smallStore False true
    [.ingest "f" (.bytes [0x61]), .ingest "g" (.bytes [0x62])] [[.reopen, .read "f"]]
    (togetherHandler.turns ingestThenTurns (smallStore.processes writerAndReader, ⟨∅, true⟩))
    (by decide) hreaders (together_turns _ _)
  obtain ⟨rs, hrs⟩ : ∃ rs, p = .ret rs := by
    have hreturned : ((togetherHandler.turns ingestThenTurns
        (smallStore.processes writerAndReader, ⟨∅, true⟩)).1[0]?.bind
          (fun P ↦ P.program.result?)).isSome = true := by decide +kernel
    obtain ⟨P, hP, hres⟩ := Option.bind_eq_some_iff.mp (Option.eq_some_of_isSome hreturned)
    rw [hc'] at hP
    obtain rfl := Option.some.inj hP
    exact ⟨_, eq_ret_of_result? hres⟩
  refine ⟨_, own, (hend id (fun op hop hname ↦ ?_) rs hrs).1⟩
  rcases List.mem_pair.mp hop with rfl | rfl
  · exact absurd hname.1 (by decide)
  · exact absurd hname.1 (by decide)

/-- With an empty chunk a reader does disturb: it puts back a count that it has loaded too early. -/
example :
    let digest := digestHex smallStore.crates.sha256 []
    let c := togetherHandler.turns
      (.replicate 18 0 ++ .replicate 4 1 ++ .replicate 30 0 ++ .replicate 30 1)
      (smallStore.processes [[.reopen, .ingest "f" (.chunks [[]]), .ingest "g" (.chunks [[]])],
        [.reopen]], ⟨∅, true⟩)
    c.1[0]?.map (fun P ↦ P.own.refcount.countOf digest) = some 2 ∧
      persistedCount smallStore.crates ⟨c.2, .empty⟩ digest = 1 := by
  decide +kernel

end ChunkStore

end Chunkstore

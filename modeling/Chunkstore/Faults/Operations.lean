import Chunkstore.Faults.Ledger

/-!
# Operations under faults

Every operation of a running instance, with any backend call free to fail, keeps a ledger at every
point and ends with one. `safely` is the form in which this is composed: the invariant holds after
every request and on failure, and `Q` holds on return.
-/

open Effects Program

namespace Chunkstore

variable {α β : Type}

/-- Under faults, `p` keeps `I` at every point, fails only into `I`, and returns only into `Q`. -/
def safely (I : State → Prop) (p : BackendM α) (Q : α → State → Prop) (s : State) : Prop :=
  wpx (faulty True) (.into I) p Q (fun _ ↦ I) s

section Rules

variable {I : State → Prop} {s : State} {key : String} {Q Q' : α → State → Prop}

theorem safely_pure {a : α} (h : Q a s) : safely I (pure a) Q s := h

theorem safely_throw {e : ChunkStoreError} (h : I s) : safely I (throw e : BackendM α) Q s := h

theorem safely_bind {p : BackendM α} {f : α → BackendM β} {Q : β → State → Prop}
    (h : safely I p (fun a s' ↦ safely I (f a) Q s') s) : safely I (p >>= f) Q s :=
  (wpx_bind p f).mpr h

theorem safely_mono {p : BackendM α} (h : safely I p Q s) (hQ : ∀ a s', Q a s' → Q' a s') :
    safely I p Q' s := wpx_mono h hQ fun _ _ h ↦ h

theorem safely_map {p : BackendM α} {f : α → β} {Q : β → State → Prop}
    (h : safely I p (fun a s' ↦ Q (f a) s') s) : safely I (f <$> p) Q s := by
  rw [map_eq_pure_bind]
  exact safely_bind h

theorem safely_ofExcept {r : Except ChunkStoreError α} (hI : I s) (hQ : ∀ a, r = .ok a → Q a s) :
    safely I (ofExcept r) Q s := by
  cases r with
  | ok a => exact hQ a rfl
  | error e => exact hI

theorem safely_get {Q : Option Bytes → State → Prop} (hI : I s) (hQ : Q (s.find key) s) :
    safely I (backendCall (.get key)) Q s := wpx_get.mpr ⟨⟨hI, hQ⟩, fun _ _ ↦ ⟨hI, hI⟩⟩

theorem safely_existsKey {Q : Bool → State → Prop} (hI : I s) (hQ : Q (s.find key).isSome s) :
    safely I (backendCall (.existsKey key)) Q s := wpx_existsKey.mpr ⟨⟨hI, hQ⟩, fun _ _ ↦ ⟨hI, hI⟩⟩

theorem safely_listKeys {Q : Option (List String) → State → Prop} (hI : I s)
    (hQ : ∀ keys, Q keys s) : safely I (backendCall (.listKeys key)) Q s :=
  (wpx_readCall rfl).mpr ⟨⟨hI, hQ _⟩, fun _ _ ↦ ⟨hI, hI⟩⟩

theorem safely_put {data : Bytes} {Q : Unit → State → Prop} (hI : I s) (hI' : I (s.put key data))
    (hQ : Q () (s.put key data)) : safely I (backendCall (.put key data)) Q s :=
  wpx_put.mpr ⟨⟨hI', hQ⟩, fun _ _ ↦ ⟨⟨hI, hI⟩, hI', hI'⟩⟩

theorem safely_delete {Q : Unit → State → Prop} (hI : I s) (hI' : I (s.del key))
    (hQ : Q () (s.del key)) : safely I (backendCall (.delete key)) Q s :=
  wpx_delete.mpr ⟨⟨hI', hQ⟩, fun _ _ ↦ ⟨⟨hI, hI⟩, hI', hI'⟩⟩

theorem safely_field {a : FieldAccess α} (hI : I (s.withFields (a.run s.fields).2))
    (hQ : Q (a.run s.fields).1 (s.withFields (a.run s.fields).2)) : safely I (field a) Q s :=
  (wpx_field a).mpr ⟨hI, hQ⟩

theorem safely_peek {a : FieldAccess α} (ha : (a.run s.fields).2 = s.fields) (hI : I s)
    (hQ : Q (a.run s.fields).1 s) : safely I (field a) Q s := by
  refine safely_field ?_ ?_ <;> rw [ha] <;> assumption

theorem safely_fieldOrThrow {a : FieldAccess (Except ChunkStoreError α)}
    (hI : I (s.withFields (a.run s.fields).2))
    (hQ : ∀ r, (a.run s.fields).1 = .ok r → Q r (s.withFields (a.run s.fields).2)) :
    safely I (fieldOrThrow a) Q s := by
  refine (wpx_fieldOrThrow a).mpr ⟨hI, ?_⟩
  cases h : (a.run s.fields).1 with
  | ok r => exact hQ r h
  | error e => exact hI

theorem safely_readStringList {crates : Crates} {Q : List String → State → Prop} (hI : I s)
    (hQ : ∀ l, readIndex crates s key = some l → Q l s) :
    safely I (readStringList crates key) Q s :=
  wpx_readStringList (fun _ ↦ hI) hQ fun _ _ ↦ hI

theorem safely_foldlM {σ : Type} {f : σ → α → BackendM σ} {J : List α → σ → State → Prop}
    (hstep : ∀ a l st s, J (a :: l) st s → safely I (f st a) (J l) s) (l : List α) (st : σ)
    (s : State) (h : J l st s) : safely I (l.foldlM f st) (J []) s :=
  wpx_foldlM hstep l st s h

end Rules

section Store

variable {store : ChunkStore} {known : Version → Prop} {ledger : List Version}
  {pending : List String} {s : State} {digest fileId : String} {digests : List String}
  {I : State → Prop} {Q : Unit → State → Prop}

/-! ## Saving and removing records -/

/-- A list that is extended by a name keeps what it had and has the name. -/
theorem safely_listName {crates : Crates} {key name : String} (hI : I s)
    (hmem : ∀ l, readIndex crates s key = some l → name ∈ l → Q () s)
    (hnew : ∀ l, readIndex crates s key = some l →
      I (s.put key (crates.serde.stringsToVec (l ++ [name]))) ∧
        Q () (s.put key (crates.serde.stringsToVec (l ++ [name])))) :
    safely I (listName crates key name) Q s := by
  refine safely_bind (safely_readStringList hI fun l hl ↦ ?_)
  split
  · rename_i hm
    exact safely_pure (hmem l hl hm)
  · exact safely_put hI (hnew l hl).1 (hnew l hl).2

theorem safely_unlistName {crates : Crates} {key name : String} (hI : I s)
    (hnew : ∀ l, readIndex crates s key = some l →
      I (s.put key (crates.serde.stringsToVec (l.filter (· ≠ name)))) ∧
        Q () (s.put key (crates.serde.stringsToVec (l.filter (· ≠ name))))) :
    safely I (unlistName crates key name) Q s :=
  safely_bind (safely_readStringList hI fun l hl ↦ safely_put hI (hnew l hl).1 (hnew l hl).2)

theorem safely_saveRefcount {count size : ℕ} (h : Persisted store known ledger pending s)
    (hd : isChunkDigest digest = true) (hc : need ledger pending digest ≤ count)
    (hI : ∀ s', s'.fields = s.fields → Persisted store known ledger pending s' → I s')
    (hQ : ∀ s', s'.fields = s.fields → Persisted store known ledger pending s' →
      persistedCount store.crates s' digest = count →
        (∀ k, isChunkDigest k = true → s'.find k = s.find k) → Q () s') :
    safely I (saveRefcount store.crates digest count size) Q s := by
  have hw := wrote_put s (refcountKey digest) (store.crates.serde.refcountToVec ⟨count, size⟩)
  have hrec : recordCount store.crates _ digest = count := recordCount_of_find hw.find_self
  have h' := h.wroteRefcount hd hw (by rwa [hrec])
  have hblob : ∀ k, isChunkDigest k = true → _ = s.find k := fun k hk ↦
    hw.find_ne (ne_of_isChunkDigest hk (by simp))
  rw [saveRefcount_eq]
  refine safely_bind (safely_ofExcept (hI s rfl h) fun _ _ ↦ ?_)
  refine safely_bind (safely_put (hI s rfl h) (hI _ rfl h') ?_)
  refine safely_listName (hI _ rfl h') ?_ ?_
  · intro l hl hm
    refine hQ _ rfl h' ?_ hblob
    rw [persistedCount_of_isListed ((isListed_of_readIndex hl).mpr hm), hrec]
  · intro l hl
    have hwi :=
      wrote_put (s.put (refcountKey digest) (store.crates.serde.refcountToVec ⟨count, size⟩))
      refcountIndexKey (store.crates.serde.stringsToVec (l ++ [digest]))
    have h'' := h'.wroteRefcountIndex hwi fun d hneed ↦
      List.mem_append_left _ ((isListed_of_readIndex hl).mp (h'.isListed hneed))
    refine ⟨hI _ rfl h'', hQ _ rfl h'' ?_ fun k hk ↦ ?_⟩
    · rw [persistedCount_of_isListed ((isListed_of_readIndex (readIndex_of_strings
          hwi.find_self)).mpr (List.mem_append_right _ List.mem_cons_self)),
        recordCount_congr (hwi.find_ne (refcountIndexKey_ne_refcountKey hd).symm), hrec]
    · rw [hwi.find_ne (ne_of_isChunkDigest hk (by simp)), hblob k hk]

theorem safely_removeRefcount (h : Persisted store known ledger pending s)
    (hd : isChunkDigest digest = true) (hn : need ledger pending digest = 0)
    (hI : ∀ s', s'.fields = s.fields → Persisted store known ledger pending s' → I s')
    (hQ : ∀ s', s'.fields = s.fields → Persisted store known ledger pending s' → Q () s') :
    safely I (removeRefcount store.crates digest) Q s := by
  have h' := h.wroteRefcount hd (wrote_del s (refcountKey digest)) (by rw [hn]; exact Nat.zero_le _)
  rw [removeRefcount_eq]
  refine safely_bind (safely_delete (hI s rfl h) (hI _ rfl h') ?_)
  refine safely_unlistName (hI _ rfl h') fun l hl ↦ ?_
  have h'' := h'.wroteRefcountIndex (wrote_put _ refcountIndexKey _) (l := l.filter (· ≠ digest))
    fun d hneed ↦ by
      refine List.mem_filter.mpr ⟨(isListed_of_readIndex hl).mp (h'.isListed hneed), ?_⟩
      refine decide_eq_true fun hdd ↦ ?_
      rw [hdd, hn] at hneed
      exact Nat.lt_irrefl 0 hneed
  exact ⟨hI _ rfl h'', hQ _ rfl h''⟩

theorem safely_saveManifest {fileBytes : ℕ} (h : Persisted store known ledger pending s)
    (hm : ⟨fileId, digests⟩ ∈ ledger)
    (hI : ∀ s', s'.fields = s.fields → Persisted store known ledger pending s' → I s')
    (hQ : ∀ s', s'.fields = s.fields → Persisted store known ledger pending s' →
      s'.find (manifestKey fileId) = some (store.crates.serde.manifestToVec ⟨digests, fileBytes⟩) →
        Q () s') :
    safely I (saveManifest store.crates fileId digests fileBytes) Q s := by
  have hw :=
    wrote_put s (manifestKey fileId) (store.crates.serde.manifestToVec ⟨digests, fileBytes⟩)
  have h' : Persisted store known ledger pending (s.put (manifestKey fileId)
      (store.crates.serde.manifestToVec ⟨digests, fileBytes⟩)) := by
    refine h.wroteManifest hw (fun _ raw hraw ↦ ?_) fun hf l hl ↦ ?_
    · cases hraw
      exact ⟨_, store.crates.serde.manifest_roundtrip _, hm⟩
    · rw [hf, manifestKey_indexName] at hw hl
      rw [readIndex_of_manifest hw.find_self] at hl
      cases hl
  rw [saveManifest_eq]
  refine safely_bind (safely_ofExcept (hI s rfl h) fun _ _ ↦ ?_)
  refine safely_bind (safely_put (hI s rfl h) (hI _ rfl h') ?_)
  refine safely_listName (hI _ rfl h') (fun _ _ _ ↦ hQ _ rfl h' hw.find_self) fun l hl ↦ ?_
  have hf : fileId ≠ indexName := by
    intro hf
    rw [hf, manifestKey_indexName] at hw hl
    rw [readIndex_of_manifest hw.find_self] at hl
    cases hl
  have hwi := wrote_put (s.put (manifestKey fileId)
    (store.crates.serde.manifestToVec ⟨digests, fileBytes⟩)) manifestIndexKey
    (store.crates.serde.stringsToVec (l ++ [fileId]))
  have h'' := h'.wroteManifestIndex hwi fun hmem ↦ by
    rcases List.mem_append.mp hmem with hmem | hmem
    · exact h'.index l hl hmem
    · exact hf (List.mem_singleton.mp hmem).symm
  refine ⟨hI _ rfl h'', hQ _ rfl h'' ?_⟩
  rw [hwi.find_ne fun hk ↦ hf (manifestKey_eq_indexKey.mp hk)]
  exact hw.find_self

theorem safely_removeManifest (h : Persisted store known ledger pending s)
    (hI : ∀ s', s'.fields = s.fields → Persisted store known ledger pending s' → I s')
    (hQ : ∀ s', s'.fields = s.fields → Persisted store known ledger pending s' →
      (fileId ≠ indexName → s'.find (manifestKey fileId) = none) → Q () s') :
    safely I (removeManifest store.crates fileId) Q s := by
  have hw := wrote_del s (manifestKey fileId)
  have h' : Persisted store known ledger pending (s.del (manifestKey fileId)) := by
    refine h.wroteManifest hw (fun _ raw hraw ↦ by cases hraw) fun hf l hl ↦ ?_
    rw [hf, manifestKey_indexName] at hw hl
    rw [readIndex_of_find_none hw.find_self] at hl
    cases hl
    exact List.not_mem_nil
  rw [removeManifest_eq]
  refine safely_bind (safely_delete (hI s rfl h) (hI _ rfl h') ?_)
  refine safely_unlistName (hI _ rfl h') fun l hl ↦ ?_
  have hwi := wrote_put (s.del (manifestKey fileId)) manifestIndexKey
    (store.crates.serde.stringsToVec (l.filter (· ≠ fileId)))
  have h'' := h'.wroteManifestIndex hwi fun hmem ↦ h'.index l hl (List.mem_of_mem_filter hmem)
  refine ⟨hI _ rfl h'', hQ _ rfl h'' fun hf ↦ ?_⟩
  rw [hwi.find_ne fun hk ↦ hf (manifestKey_eq_indexKey.mp hk)]
  exact hw.find_self

end Store

/-! ## The running instance -/

/-- A running instance and its backend respect a ledger and a pending list. -/
structure Guarded (store : ChunkStore) (known : Version → Prop) (ledger : List Version)
    (pending : List String) (s : State) : Prop where
  persisted : Persisted store known ledger pending s
  live : Live ledger pending s.fields

/-- What a running instance keeps at every point. -/
def Safe (store : ChunkStore) (known : Version → Prop) (s : State) : Prop :=
  ∃ ledger, Guarded store known ledger [] s

/-- What the backend keeps at every point, whether or not an instance runs on it. -/
def SafeAtRest (store : ChunkStore) (known : Version → Prop) (s : State) : Prop :=
  ∃ ledger, Persisted store known ledger [] s

namespace Guarded

variable {store : ChunkStore} {known : Version → Prop} {ledger ledger' : List Version}
  {pending pending' : List String} {s s' : State} {digest : String}

theorem safe (h : Guarded store known ledger pending s) : Safe store known s :=
  ⟨ledger, h.persisted.drop, h.live.drop⟩

theorem of_fields (h : Guarded store known ledger pending s)
    (hp : Persisted store known ledger pending s') (hf : s'.fields = s.fields) :
    Guarded store known ledger pending s' :=
  ⟨hp, hf ▸ h.live⟩

theorem withFields {f : Fields} (hp : Persisted store known ledger pending s)
    (hl : Live ledger pending f) : Guarded store known ledger pending (s.withFields f) :=
  ⟨⟨hp.known, hp.valid, hp.record, hp.index, hp.refIndex, hp.counted, hp.stored, hp.hashes⟩, hl⟩

theorem congr (h : Guarded store known ledger pending s)
    (hn : ∀ d, need ledger pending' d = need ledger pending d) :
    Guarded store known ledger pending' s where
  persisted := h.persisted.mono h.persisted.known (fun d ↦ le_of_eq (hn d)) fun _ _ _ _ _ _ hm ↦ hm
  live := ⟨h.live.manifest, fun d ↦ (le_of_eq (hn d)).trans (h.live.counted d)⟩

theorem withStats (h : Guarded store known ledger pending s) (stats : Stats) :
    Guarded store known ledger pending (s.withFields { s.fields with stats := stats }) :=
  withFields h.persisted ⟨h.live.manifest, h.live.counted⟩

end Guarded

section Running

variable {α β : Type} {store : ChunkStore} {known : Version → Prop} {ledger : List Version}
  {pending : List String} {s : State} {digest fileId : String} {digests : List String}

/-! ### Storing chunks -/

private theorem safely_putBlob {blob data : Bytes} (h : Guarded store known ledger pending s)
    (hb : store.encodeBlob data = .ok blob) :
    safely (Safe store known)
      (ChunkStore.putBlob (digestHex store.crates.sha256 data) blob)
      (fun _ s' ↦ Guarded store known ledger pending s' ∧
        (s'.find (digestHex store.crates.sha256 data)).isSome) s := by
  refine safely_bind (safely_existsKey h.safe ?_)
  split
  · rename_i hp
    exact safely_pure ⟨h, hp⟩
  · have hw := wrote_put s (digestHex store.crates.sha256 data) blob
    have h' := h.of_fields (h.persisted.wroteBlob (isChunkDigest_digestHex _ data) hw
      (fun raw hraw ↦ by
        cases hraw
        exact ⟨data, store.decodeBlob_encodeBlob hb, rfl⟩) fun hn ↦ by cases hn) rfl
    exact safely_bind (safely_put h.safe h'.safe (safely_pure ⟨h', by rw [hw.find_self]; rfl⟩))

private theorem safely_countChunk {size : ℕ} (h : Guarded store known ledger pending s)
    (hd : isChunkDigest digest = true) (hs : (s.find digest).isSome) :
    safely (Safe store known) (store.countChunk digest size)
      (fun _ s' ↦ Guarded store known ledger (digest :: pending) s') s := by
  refine safely_bind (safely_fieldOrThrow ?_ fun n hn ↦ ?_)
  · rw [FieldAccess.run]
    split
    · rename_i r hr
      refine (Guarded.withFields (f := { s.fields with refcount := r.2 }) h.persisted
        ⟨h.live.manifest, fun d ↦ ?_⟩).safe
      have hc := h.live.counted d
      rw [RefCount.countOf_increment hr]
      split
      · rename_i hdd
        rw [hdd] at hc ⊢
        omega
      · exact hc
    · exact h.safe
  · rw [FieldAccess.run] at hn ⊢
    cases hr : s.fields.refcount.increment digest size with
    | error e =>
      rw [hr] at hn
      cases hn
    | ok r =>
      rw [hr] at hn
      cases hn
      obtain ⟨hcount, -⟩ := RefCount.increment_eq_ok hr
      have hcount' := RefCount.countOf_increment hr
      have hbelow : ∀ d, need ledger pending d ≤ r.2.countOf d := fun d ↦ by
        rw [hcount']
        split
        · rename_i hdd
          exact hdd ▸ (h.live.counted d).trans (by rw [hdd]; omega)
        · exact h.live.counted d
      have hg : Guarded store known ledger pending
          (s.withFields { s.fields with refcount := r.2 }) :=
        Guarded.withFields h.persisted ⟨h.live.manifest, hbelow⟩
      refine safely_bind (safely_peek rfl hg.safe ?_)
      refine safely_saveRefcount hg.persisted hd ?_ (fun s' hf hp ↦ (hg.of_fields hp hf).safe) ?_
      · rw [hcount]
        exact (h.live.counted digest).trans (Nat.le_succ _)
      · intro s' hf hp hpc hblob
        refine ⟨hp.push hd ?_ ?_, ?_, ?_⟩
        · rw [hblob digest hd]
          exact hs
        · rw [hpc, hcount]
          exact Nat.succ_le_succ (h.live.counted digest)
        · rw [hf]
          exact h.live.manifest
        · intro d
          rw [hf, State.fields_withFields, hcount']
          by_cases hdd : d = digest
          · rw [if_pos hdd, hdd, need_cons_self]
            exact Nat.succ_le_succ (h.live.counted digest)
          · rw [if_neg hdd, need_cons_ne hdd]
            exact h.live.counted d

/-- A stored chunk is one more pending reference. -/
private theorem safely_storeChunk (h : Guarded store known ledger pending s) (data : Bytes) :
    safely (Safe store known) (flat (store.storeChunk (digestHex store.crates.sha256 data) data))
      (fun _ s' ↦ Guarded store known ledger (digestHex store.crates.sha256 data :: pending) s')
      s := by
  simp only [ChunkStore.storeChunk, flat_bind, flat_ofExcept, flat_locked, flat_ite, flat_pure]
  refine safely_bind (safely_ofExcept h.safe fun blob hb ↦ ?_)
  refine safely_bind (safely_mono (safely_putBlob h hb) fun present s₁ ⟨h₁, hs₁⟩ ↦ ?_)
  refine safely_bind (safely_mono (safely_countChunk h₁ (isChunkDigest_digestHex _ data) hs₁)
    fun _ s₂ h₂ ↦ ?_)
  split
  · have h₃ := h₂.withStats (s₂.fields.stats.addReference data.length)
    exact safely_bind (safely_field h₃.safe (safely_pure h₃))
  · have h₃ := h₂.withStats (s₂.fields.stats.addUniqueChunk data.length)
    exact safely_bind (safely_field h₃.safe (safely_pure h₃))

/-- The digests a session has accepted are pending. -/
theorem safely_accept {session : ChunkStore.IngestSession}
    (h : Guarded store known ledger session.digests s) (chunk : Bytes) :
    safely (Safe store known) (flat (store.accept session chunk))
      (fun session' s' ↦ session'.digests
          = session.digests ++ [digestHex store.crates.sha256 chunk] ∧
        Guarded store known ledger session'.digests s') s := by
  simp only [ChunkStore.accept, flat_bind, flat_pure]
  refine safely_bind (safely_mono (safely_storeChunk h chunk) fun _ s' h' ↦ ?_)
  refine safely_pure ⟨rfl, h'.congr fun d ↦ ?_⟩
  rw [need, need, List.count_append, List.count_cons, List.count_cons, List.count_nil]
  omega

/-! ### Releasing chunks -/

theorem safely_chunkSize {I : State → Prop} (h : I s) :
    safely I (flat (store.chunkSize digest)) (fun _ s' ↦ s' = s) s := by
  simp only [ChunkStore.chunkSize, flat_bind, flat_locked, flat_ite, flat_pure, flat_unlocked]
  refine safely_bind (safely_peek rfl h ?_)
  split
  · exact safely_pure rfl
  · refine safely_bind (safely_get h ?_)
    cases s.find digest with
    | none => exact safely_throw h
    | some raw =>
      simp only [flat_bind, flat_ofExcept, flat_pure]
      exact safely_bind (safely_ofExcept h fun _ _ ↦ safely_pure rfl)

/-- Releasing takes one pending reference, and the blob with the last one. -/
private theorem safely_releaseDigest (h : Guarded store known ledger (digest :: pending) s) :
    safely (Safe store known) (flat (store.releaseDigest digest))
      (fun _ s' ↦ Guarded store known ledger pending s') s := by
  have hd : isChunkDigest digest = true :=
    h.persisted.valid digest (by rw [need_cons_self]; exact Nat.succ_pos _)
  have hle : ∀ d, need ledger pending d ≤ need ledger (digest :: pending) d := fun d ↦ by
    by_cases hdd : d = digest
    · rw [hdd, need_cons_self]
      exact Nat.le_succ _
    · rw [need_cons_ne hdd]
  simp only [ChunkStore.releaseDigest, flat_bind, flat_locked, flat_ite, flat_unlocked]
  refine safely_bind (safely_mono (safely_chunkSize h.safe) fun size s₁ hs₁ ↦ ?_)
  subst hs₁
  have hdec : ∀ r, s₁.fields.refcount.decrement digest = .ok r →
      Guarded store known ledger pending (s₁.withFields { s₁.fields with refcount := r.2 }) ∧
        need ledger pending digest ≤ r.1 := by
    intro r hr
    have hd₁ := h.live.counted digest
    rw [need_cons_self] at hd₁
    have hcount := RefCount.countOf_decrement hr
    have hn := (hcount digest).1
    refine ⟨Guarded.withFields (h.persisted.mono h.persisted.known hle fun _ _ _ _ _ _ hm ↦ hm)
      ⟨h.live.manifest, fun d ↦ ?_⟩, by omega⟩
    rw [(hcount d).2]
    split
    · rename_i hdd
      rw [hdd]
      omega
    · exact (hle d).trans (h.live.counted d)
  refine safely_bind (safely_fieldOrThrow ?_ fun n hn ↦ ?_)
  · rw [FieldAccess.run]
    split
    · rename_i r hr
      exact (hdec r hr).1.safe
    · exact h.safe
  · rw [FieldAccess.run] at hn ⊢
    cases hr : s₁.fields.refcount.decrement digest with
    | error e =>
      rw [hr] at hn
      cases hn
    | ok r =>
      rw [hr] at hn
      cases hn
      obtain ⟨hg, hn⟩ := hdec r hr
      have hend : ∀ s', Guarded store known ledger pending s' →
          safely (Safe store known) (field (.statsRemoveReference size))
            (fun _ s' ↦ Guarded store known ledger pending s') s' := fun s' hg' ↦
        safely_field (hg'.withStats _).safe (hg'.withStats _)
      split
      · rename_i h0
        have hzero : need ledger pending digest = 0 := by omega
        have hb := hg.persisted.wroteBlob hd (wrote_del _ digest) (fun _ hc ↦ by cases hc)
          fun _ ↦ hzero
        refine safely_bind (safely_delete hg.safe (hg.of_fields hb rfl).safe ?_)
        refine safely_bind (safely_removeRefcount hb hd hzero
          (fun s' hf hp ↦ (hg.of_fields hp hf).safe) fun s' hf hp ↦ ?_)
        have hg' := hg.of_fields hp hf
        exact safely_bind (safely_field (hg'.withStats _).safe (hend _ (hg'.withStats _)))
      · exact safely_bind (safely_saveRefcount hg.persisted hd hn
          (fun s' hf hp ↦ (hg.of_fields hp hf).safe)
          fun s' hf hp _ _ ↦ hend s' (hg.of_fields hp hf))

theorem safely_releaseDigests (digests : List String)
    (h : Guarded store known ledger digests s) :
    safely (Safe store known) (flat (store.releaseDigests digests))
      (fun _ s' ↦ Guarded store known ledger [] s') s := by
  induction digests generalizing s with
  | nil => exact safely_pure h
  | cons d digests ih =>
    rw [ChunkStore.releaseDigests, flat_bind]
    exact safely_bind (safely_mono (safely_releaseDigest h) fun _ s' h' ↦ ih h')

/-! ### Ingest -/

/-- A new version replaces the old one, which becomes pending. -/
private theorem Guarded.replace {f : Fields} {old : List String} {fileBytes : ℕ}
    (h : Guarded store known (⟨fileId, digests⟩ :: ledger) [] s)
    (hf : s.fields = f) (hnew : f.manifest.tryGet fileId = some digests)
    (hold : ⟨fileId, old⟩ ∈ ledger)
    (hrec : s.find (manifestKey fileId)
      = some (store.crates.serde.manifestToVec ⟨digests, fileBytes⟩)) :
    Guarded store known (⟨fileId, digests⟩ :: ledger.erase ⟨fileId, old⟩) old s := by
  have hn : ∀ d, need (⟨fileId, digests⟩ :: ledger.erase ⟨fileId, old⟩) old d
      = need (⟨fileId, digests⟩ :: ledger) [] d := fun d ↦ by
    have he := need_erase hold d
    rw [need, need, List.count_nil] at he
    rw [need, need, demand_cons, demand_cons, List.count_nil]
    dsimp only at he ⊢
    omega
  have hmem : ∀ g ds, ⟨g, ds⟩ ∈ (⟨fileId, digests⟩ :: ledger : List Version) →
      (g = fileId → ds = digests) →
        ⟨g, ds⟩ ∈ (⟨fileId, digests⟩ :: ledger.erase ⟨fileId, old⟩ : List Version) := by
    intro g ds hm hg
    by_cases hgf : g = fileId
    · rw [hgf, hg hgf]
      exact List.mem_cons_self
    · refine List.mem_cons_of_mem _ ((List.mem_erase_of_ne fun hv ↦ hgf ?_).mpr ?_)
      · exact congrArg Version.fileId hv
      · exact (List.mem_cons.mp hm).resolve_left fun hv ↦ hgf (congrArg Version.fileId hv)
  refine ⟨h.persisted.mono (fun v hv ↦ ?_) (fun d ↦ le_of_eq (hn d)) ?_, ?_, fun d ↦ ?_⟩
  · rcases List.mem_cons.mp hv with rfl | hv
    · exact h.persisted.known _ List.mem_cons_self
    · exact h.persisted.known v (List.mem_cons_of_mem _ (List.mem_of_mem_erase hv))
  · intro g raw r _ hraw hdec hm
    refine hmem g _ hm fun hgf ↦ ?_
    rw [hgf, hrec] at hraw
    cases hraw
    rw [store.crates.serde.manifest_roundtrip] at hdec
    cases hdec
    rfl
  · intro g ds hg
    refine hmem g ds (h.live.manifest g ds hg) fun hgf ↦ ?_
    rw [hf, hgf, hnew] at hg
    exact (Option.some.inj hg).symm
  · rw [hn]
    exact h.live.counted d

/-- A version is taken out of the ledger once neither manifest has the file; its digests become
pending. -/
private theorem Guarded.takeOut (h : Guarded store known ledger [] s)
    (hmem : ⟨fileId, digests⟩ ∈ ledger) (hlive : s.fields.manifest.tryGet fileId = none)
    (hrec : fileId ≠ indexName → s.find (manifestKey fileId) = none) :
    Guarded store known (ledger.erase ⟨fileId, digests⟩) digests s := by
  have hne : ∀ g ds, g ≠ fileId → ⟨g, ds⟩ ∈ ledger → ⟨g, ds⟩ ∈ ledger.erase ⟨fileId, digests⟩ :=
    fun g ds hg hm ↦ (List.mem_erase_of_ne fun hv ↦ hg (congrArg Version.fileId hv)).mpr hm
  have hn := need_erase hmem
  refine ⟨h.persisted.mono (fun v hv ↦ h.persisted.known v (List.mem_of_mem_erase hv))
    (fun d ↦ le_of_eq (hn d)) ?_, ?_, fun d ↦ ?_⟩
  · intro g raw r hg hraw _ hm
    refine hne g _ (fun hgf ↦ ?_) hm
    rw [hgf] at hg hraw
    rw [hrec hg] at hraw
    cases hraw
  · intro g ds hg
    refine hne g ds (fun hgf ↦ ?_) (h.live.manifest g ds hg)
    rw [hgf, hlive] at hg
    cases hg
  · exact (le_of_eq (hn d)).trans (h.live.counted d)

private theorem safely_commit {session : ChunkStore.IngestSession}
    (h : Guarded store known ledger session.digests s)
    (hk : known ⟨fileId, session.digests⟩) :
    safely (Safe store known) (flat (store.commit session fileId))
      (fun _ s' ↦ Safe store known s') s := by
  simp only [ChunkStore.commit, ChunkStore.peekDigests, flat_bind, flat_locked, flat_unlocked]
  refine safely_bind (safely_peek rfl h.safe ?_)
  dsimp only [FieldAccess.run]
  by_cases hempty : fileId = ""
  · subst hempty
    refine safely_bind (safely_fieldOrThrow ?_ fun r hr ↦ ?_)
    · rw [FieldAccess.run, Manifest.insert_empty]
      exact h.safe
    · rw [FieldAccess.run, Manifest.insert_empty] at hr
      cases hr
  · have hins := Manifest.insert_eq_ok (m := s.fields.manifest) hempty session.digests
      session.fileBytes
    set f : Fields := { s.fields with manifest :=
      ⟨s.fields.manifest.files.set fileId session.digests,
        s.fields.manifest.fileBytes.set fileId session.fileBytes⟩ } with hfdef
    have hget : ∀ g, f.manifest.tryGet g
        = if g = fileId then some session.digests else s.fields.manifest.tryGet g := fun g ↦
      Table.find_set _ _ _ _
    have hg : Guarded store known (⟨fileId, session.digests⟩ :: ledger) [] (s.withFields f) := by
      refine Guarded.withFields (h.persisted.mono ?_ ?_ ?_) ⟨fun g ds hgd ↦ ?_, fun d ↦ ?_⟩
      · intro v hv
        rcases List.mem_cons.mp hv with rfl | hv
        · exact hk
        · exact h.persisted.known v hv
      · exact fun d ↦ le_of_eq (need_cons _ _ _)
      · exact fun _ _ _ _ _ _ hm ↦ List.mem_cons_of_mem _ hm
      · rw [hget] at hgd
        split at hgd
        · rename_i hgf
          cases hgd
          rw [hgf]
          exact List.mem_cons_self
        · exact List.mem_cons_of_mem _ (h.live.manifest g ds hgd)
      · rw [need_cons]
        exact h.live.counted d
    have hrun : (FieldAccess.manifestInsert fileId session.digests session.fileBytes).run s.fields
        = (.ok (), f) := by
      rw [FieldAccess.run, hins]
    refine safely_bind (safely_fieldOrThrow (by rw [hrun]; exact hg.safe) fun _ _ ↦ ?_)
    rw [hrun]
    refine safely_bind (safely_saveManifest hg.persisted List.mem_cons_self
      (fun s' hf hp ↦ (hg.of_fields hp hf).safe) fun s' hf hp hrec ↦ ?_)
    have hg' := hg.of_fields hp hf
    cases hold : s.fields.manifest.tryGet fileId with
    | none => exact safely_bind (safely_pure (safely_pure ⟨_, hg'⟩))
    | some old =>
      dsimp only
      rw [flat_bind]
      have hr := hg'.replace hf ((hget fileId).trans (if_pos rfl)) (h.live.manifest _ _ hold) hrec
      exact safely_bind (safely_mono (safely_releaseDigests old hr) fun _ s'' h'' ↦
        safely_pure ⟨_, h''⟩)

/-- **Ingest keeps a ledger**, when the version it commits may be in one. -/
theorem safely_ingestStream {stream : Stream} (h : Safe store known s)
    (hk : stream.error = none →
      known ⟨fileId, stream.chunks.map (digestHex store.crates.sha256)⟩) :
    safely (Safe store known) (flat (store.ingestStream fileId stream))
      (fun _ s' ↦ Safe store known s') s := by
  obtain ⟨ledger, hg⟩ := h
  simp only [ChunkStore.ingestStream, Stream.consume, flat_bind, flat_foldlM, bind_assoc]
  refine safely_bind (safely_mono (safely_foldlM (J := fun l session s ↦
    session.digests ++ l.map (digestHex store.crates.sha256)
        = stream.chunks.map (digestHex store.crates.sha256) ∧
      Guarded store known ledger session.digests s) ?_ stream.chunks _ s ⟨rfl, hg⟩) ?_)
  · rintro chunk l session s ⟨hd, hg⟩
    refine safely_mono (safely_accept hg chunk) fun session' s' h' ↦ ⟨?_, h'.2⟩
    obtain ⟨hd', -⟩ := h'
    rw [hd', ← hd, List.map_cons, List.append_assoc]
    rfl
  · rintro session s' ⟨hd, hg'⟩
    cases he : stream.error with
    | some e => exact safely_bind (safely_throw hg'.safe)
    | none =>
      refine safely_bind (safely_pure (safely_commit hg' ?_))
      rw [List.map_nil, List.append_nil] at hd
      rw [hd]
      exact hk he

/-! ### Delete -/

theorem safely_deleteFile (h : Safe store known s) :
    safely (Safe store known) (flat (store.delete fileId)) (fun _ s' ↦ Safe store known s') s := by
  obtain ⟨ledger, hg⟩ := h
  simp only [ChunkStore.delete, flat_bind, flat_locked, flat_unlocked]
  set f : Fields := { s.fields with manifest := (s.fields.manifest.remove fileId).2 } with hfdef
  have hget : ∀ g, f.manifest.tryGet g
      = if g = fileId then none else s.fields.manifest.tryGet g := fun g ↦ Table.find_unset _ _ _
  have hg' : Guarded store known ledger [] (s.withFields f) := by
    refine Guarded.withFields hg.persisted ⟨fun g ds hgd ↦ ?_, hg.live.counted⟩
    rw [hget] at hgd
    split at hgd
    · cases hgd
    · exact hg.live.manifest g ds hgd
  refine safely_bind (safely_fieldOrThrow hg'.safe fun digests hdig ↦ ?_)
  have hmem : ⟨fileId, digests⟩ ∈ ledger := by
    refine hg.live.manifest fileId digests ?_
    rw [FieldAccess.run, Manifest.remove, Manifest.get] at hdig
    rw [Manifest.tryGet]
    cases hfind : s.fields.manifest.files.find fileId with
    | none =>
      rw [hfind] at hdig
      cases hdig
    | some ds =>
      rw [hfind] at hdig
      cases hdig
      rfl
  refine safely_bind (safely_removeManifest hg'.persisted
    (fun s' hf hp ↦ (hg'.of_fields hp hf).safe) fun s' hf hp hrec ↦ ?_)
  have hg'' := (hg'.of_fields hp hf).takeOut hmem
    (by rw [hf]; exact (hget fileId).trans (if_pos rfl)) hrec
  exact safely_mono (safely_releaseDigests digests hg'') fun _ s'' h'' ↦ ⟨_, h''⟩

/-! ### Inspection -/

theorem Guarded.need_eq_zero (h : Guarded store known ledger [] s)
    (hd : digest ∉ s.fields.refcount.iterRefs.map Prod.fst) : need ledger [] digest = 0 := by
  have hc := h.live.counted digest
  rw [RefCount.countOf_of_find_none] at hc
  · exact Nat.le_zero.mp hc
  · cases hf : s.fields.refcount.counts.find digest with
    | none => rfl
    | some r =>
      exact absurd (List.mem_map_of_mem (RefCount.mem_iterRefs.mpr hf)) hd

private theorem safely_missingBlobs (live : List String) (h : Safe store known s) :
    safely (Safe store known) (flat (ChunkStore.missingBlobs live)) (fun _ s' ↦ s' = s) s := by
  induction live with
  | nil => exact safely_pure rfl
  | cons d live ih =>
    simp only [ChunkStore.missingBlobs, flat_bind, flat_unlocked, flat_pure]
    refine safely_bind (safely_existsKey h (safely_bind (safely_mono ih fun _ s' hs' ↦ ?_)))
    exact safely_pure hs'

private theorem safely_collectOrphans (live : List String) (h : Safe store known s) :
    safely (Safe store known) (collectOrphans live)
      (fun keys s' ↦ s' = s ∧ ∀ k ∈ keys, isChunkDigest k = true ∧ k ∉ live) s := by
  refine safely_bind (safely_listKeys h fun keys ↦ ?_)
  cases keys with
  | none => exact safely_pure ⟨rfl, fun k hk ↦ absurd hk List.not_mem_nil⟩
  | some keys =>
    refine safely_pure ⟨rfl, fun k hk ↦ ?_⟩
    have hf := (List.mem_filter.mp hk).2
    rw [Bool.and_eq_true, Bool.not_eq_true', ← Bool.not_eq_true, List.contains_iff_mem] at hf
    exact hf

private theorem safely_unlinkAll (keys : List String) (h : Guarded store known ledger [] s)
    (hk : ∀ k ∈ keys, isChunkDigest k = true ∧ need ledger [] k = 0) :
    safely (Safe store known) (flat (ChunkStore.unlinkAll keys))
      (fun _ s' ↦ Safe store known s') s := by
  induction keys generalizing s with
  | nil => exact safely_pure h.safe
  | cons k keys ih =>
    simp only [ChunkStore.unlinkAll, flat_bind, flat_unlocked, flat_pure]
    have hk' := hk k List.mem_cons_self
    have h' := h.of_fields (h.persisted.wroteBlob hk'.1 (wrote_del s k) (fun _ hc ↦ by cases hc)
      fun _ ↦ hk'.2) rfl
    refine safely_bind (safely_delete h.safe h'.safe (safely_bind (safely_mono (ih h'
      fun j hj ↦ hk j (List.mem_cons_of_mem k hj)) fun _ s' hs' ↦ safely_pure hs')))

theorem safely_fsck (repair : Bool) (h : Safe store known s) :
    safely (Safe store known) (flat (ChunkStore.fsck repair)) (fun _ s' ↦ Safe store known s')
      s := by
  obtain ⟨ledger, hg⟩ := h
  simp only [ChunkStore.fsck, flat_bind, flat_locked, flat_unlocked, flat_ite, flat_pure]
  refine safely_bind (safely_peek rfl hg.safe ?_)
  refine safely_bind (safely_mono (safely_missingBlobs _ hg.safe) fun missing s₁ hs₁ ↦ ?_)
  subst hs₁
  refine safely_bind (safely_mono (safely_collectOrphans _ hg.safe) fun orphans s₂ ⟨hs₂, ho⟩ ↦ ?_)
  subst hs₂
  split
  · refine safely_bind (safely_mono (safely_unlinkAll orphans hg fun k hk ↦
      ⟨(ho k hk).1, hg.need_eq_zero (ho k hk).2⟩) fun _ s' hs' ↦ safely_pure hs')
  · exact safely_pure hg.safe

/-! ### Reading -/

theorem safely_readChunkByDigest (h : Safe store known s) :
    safely (Safe store known) (flat (store.readChunkByDigest digest)) (fun _ s' ↦ s' = s) s := by
  simp only [ChunkStore.readChunkByDigest, flat_bind, flat_unlocked]
  refine safely_bind (safely_get h ?_)
  cases s.find digest with
  | none => exact safely_throw h
  | some stored =>
    simp only [flat_bind, flat_ofExcept, flat_pure]
    exact safely_bind (safely_ofExcept h fun _ _ ↦ safely_bind (safely_ofExcept h fun _ _ ↦
      safely_pure rfl))

theorem wp_read {p : StoreM α} {f : Except ChunkStoreError α → Program Block β}
    (hp : safely (Safe store known) (flat p) (fun _ s' ↦ s' = s) s)
    (hf : ∀ r s', Safe store known s' → wp (faulty True) (.into (Safe store known))
      ((f r).translate Block.body) (fun _ s' ↦ Safe store known s') s') (h : Safe store known s) :
    wp (faulty True) (.into (Safe store known)) ((p.run >>= f).translate Block.body)
      (fun _ s' ↦ Safe store known s') s := by
  rw [translate_bind, wp_bind]
  refine wp_post hp fun r s' hr ↦ hf r s' ?_
  cases r with
  | ok a => exact hr ▸ h
  | error e => exact hr

private theorem wp_writeChunks (digests : List String) (writer : Writer) (h : Safe store known s) :
    wp (faulty True) (.into (Safe store known))
      ((store.writeChunks digests writer).translate Block.body) (fun _ s' ↦ Safe store known s')
      s := by
  induction digests generalizing writer s with
  | nil => exact h
  | cons d digests ih =>
    rw [ChunkStore.writeChunks]
    refine wp_read (safely_readChunkByDigest h) (fun r s' h' ↦ ?_) h
    cases r with
    | error e => exact h'
    | ok chunk =>
      dsimp only
      split
      · exact h'
      · exact ih _ h'

private theorem safely_read (h : Safe store known s) :
    safely (Safe store known) (flat (store.read fileId)) (fun _ s' ↦ Safe store known s') s := by
  have hw : wp (faulty True) (.into (Safe store known))
      ((store.readToWriter fileId .vec).translate Block.body) (fun _ s' ↦ Safe store known s')
      s := by
    refine wp_read ?_ (fun r s' h' ↦ ?_) h
    · rw [ChunkStore.digestsForFile, flat_locked]
      exact safely_fieldOrThrow h fun _ _ ↦ rfl
    · cases r with
      | error e => exact h'
      | ok digests => exact wp_writeChunks digests .vec h'
  rw [safely, wpx, flat, ExceptT.run_mk, ChunkStore.read, ExceptT.run_mk, translate_bind, wp_bind]
  refine wp_post hw fun r s' hs' ↦ ?_
  obtain ⟨r, writer⟩ := r
  cases r <;> exact hs'

/-! ### Any operation -/

/-- The version an operation may commit. -/
def ChunkStore.commits (store : ChunkStore) : ChunkStore.Op → Version → Prop
  | .ingest fileId input, v => (input.stream store.crates).error = none ∧
    v = ⟨fileId, (input.stream store.crates).chunks.map (digestHex store.crates.sha256)⟩
  | _, _ => False

/-- **Every operation of a running instance keeps a ledger**, whatever fails. -/
theorem safely_perform {op : ChunkStore.Op} (hop : op ≠ .reopen) (h : Safe store known s)
    (hk : ∀ v, store.commits op v → known v) :
    safely (Safe store known) (flat (store.perform op)) (fun _ s' ↦ Safe store known s') s := by
  have hmap : ∀ {α : Type} (f : α → ChunkStore.Reply) (p : StoreM α),
      flat (f <$> p) = f <$> flat p := fun f p ↦ by
    rw [map_eq_pure_bind, flat_bind, map_eq_pure_bind]
    rfl
  cases op with
  | reopen => exact absurd rfl hop
  | ingest fileId input =>
    rw [ChunkStore.perform, hmap, ChunkStore.ingestInput_eq]
    exact safely_map (safely_ingestStream h fun he ↦ hk _ ⟨he, rfl⟩)
  | delete fileId =>
    rw [ChunkStore.perform, hmap]
    exact safely_map (safely_deleteFile h)
  | read fileId =>
    rw [ChunkStore.perform, hmap]
    exact safely_map (safely_read h)
  | readChunk digest =>
    rw [ChunkStore.perform, hmap]
    exact safely_map (safely_mono (safely_readChunkByDigest h) fun _ _ hs ↦ hs ▸ h)
  | fsck repair =>
    rw [ChunkStore.perform, hmap]
    exact safely_map (safely_fsck repair h)
  | stats =>
    rw [ChunkStore.perform, hmap, ChunkStore.stats, flat_locked]
    exact safely_map (safely_peek rfl h h)
  | chunkRefcount digest =>
    rw [ChunkStore.perform, hmap, ChunkStore.chunkRefcount, flat_locked]
    exact safely_map (safely_peek rfl h h)

end Running

end Chunkstore

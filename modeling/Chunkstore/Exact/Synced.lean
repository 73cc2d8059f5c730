import Chunkstore.Core.Footprint

/-!
# A store in sync

On a fault-free backend the persisted metadata mirror the fields after every operation, whether it
succeeds or not, and the counts are exactly the occurrences over the manifest plus what is known to
be held besides: by an ingest under way, by a version being released, or by an ingest that failed.

The parts of the mirror are separate predicates because each depends on one kind of key only, and an
operation moves one kind at a time.

## Main definitions

* `ManifestSynced`, `RefcountSynced`, `BlobsSynced`: the three parts of the mirror.
* `Accounted`: what the statistics sum to, for a store without a codec whose chunks do not collide.
* `Rep`: all of them together, with the references held besides the manifest.
-/

open Effects Program

namespace Chunkstore

/-- The record that persists a file of a manifest. -/
def Manifest.record (m : Manifest) (fileId : String) : Option ManifestRecord :=
  (m.files.find fileId).bind fun digests ↦
    (m.fileBytes.find fileId).map fun fileBytes ↦ ⟨digests, fileBytes⟩

/-- No two chunks among `seen` have one digest. -/
def NoCollision (sha256 : Sha256) (seen : Bytes → Prop) : Prop :=
  ∀ a b, seen a → seen b → digestHex sha256 a = digestHex sha256 b → a = b

/-! ## The parts of the mirror -/

/-- The persisted manifests are those of `m`. -/
structure ManifestSynced (crates : Crates) (m : Manifest) (s : State) : Prop where
  index : ∃ l, readIndex crates s manifestIndexKey = some l ∧ l.Nodup ∧
    ∀ fileId, fileId ∈ l ↔ (m.tryGet fileId).isSome
  record : ∀ fileId, fileId ≠ indexName →
    s.find (manifestKey fileId) = (m.record fileId).map crates.serde.manifestToVec
  bytes : ∀ fileId, (m.fileBytes.find fileId).isSome = (m.tryGet fileId).isSome
  name : ∀ fileId, (m.tryGet fileId).isSome → fileId ≠ "" ∧ fileId ≠ indexName
  valid : ∀ fileId digests, m.tryGet fileId = some digests →
    ∀ d ∈ digests, isChunkDigest d = true

/-- The persisted reference counts are those of `rc`. -/
structure RefcountSynced (crates : Crates) (rc : RefCount) (s : State) : Prop where
  index : ∃ l, readIndex crates s refcountIndexKey = some l ∧ l.Nodup ∧
    ∀ d, d ∈ l ↔ (rc.counts.find d).isSome
  record : ∀ d, d ≠ indexName →
    s.find (refcountKey d)
      = (rc.counts.find d).map fun r ↦ crates.serde.refcountToVec ⟨r.count, r.size⟩
  valid : ∀ d r, rc.counts.find d = some r → isChunkDigest d = true ∧ 0 < r.count

/-- The blobs are those of the counted chunks, each decodes to a chunk that was seen, and an entry
of size zero is that of the empty chunk. -/
structure BlobsSynced (store : ChunkStore) (seen : Bytes → Prop) (rc : RefCount) (s : State) :
    Prop where
  present : ∀ d, isChunkDigest d = true → (s.find d).isSome = (rc.counts.find d).isSome
  holds : ∀ d raw, isChunkDigest d = true → s.find d = some raw →
    ∃ data, seen data ∧ store.decodeBlob raw = .ok data ∧
      digestHex store.crates.sha256 data = d
  empty : ∀ d r raw, rc.counts.find d = some r → r.size = 0 → s.find d = some raw →
    store.decodeBlob raw = .ok []

/-- The sizes are those of the chunks and the statistics are their sums. -/
structure Accounted (store : ChunkStore) (seen : Bytes → Prop) (f : Fields) : Prop where
  sized : ∀ d r, f.refcount.counts.find d = some r →
    ∃ chunk, seen chunk ∧ digestHex store.crates.sha256 chunk = d ∧ r.size = chunk.length
  total : f.stats.totalBytes = f.refcount.counts.sumBy fun r ↦ r.size * r.count
  stored : f.stats.storedBytes = f.refcount.counts.sumBy fun r ↦ r.size

/-- A file to be left alone, with its digests and the state that has its blobs. -/
structure Pin where
  fileId : String
  digests : List String
  origin : State

/-- The file of a pin is still there with its blobs. -/
def Pin.Kept (pin : Pin) (s : State) : Prop :=
  s.fields.manifest.tryGet pin.fileId = some pin.digests ∧
    ∀ d ∈ pin.digests, s.find d = pin.origin.find d

/-- A store in sync. `held` counts the references besides those of the manifest. -/
structure Rep (store : ChunkStore) (seen : Bytes → Prop) (pin : Option Pin) (held : String → ℕ)
    (s : State) : Prop where
  manifest : ManifestSynced store.crates s.fields.manifest s
  refcount : RefcountSynced store.crates s.fields.refcount s
  blobs : BlobsSynced store seen s.fields.refcount s
  counted : ∀ d, s.fields.refcount.countOf d = s.fields.manifest.occurrences d + held d
  pinned : ∀ p ∈ pin, p.Kept s
  accounted : store.codec = none → NoCollision store.crates.sha256 seen →
    Accounted store seen s.fields

/-! ### Frames -/

section Frames

variable {crates : Crates} {store : ChunkStore} {seen : Bytes → Prop} {m m' : Manifest}
  {rc rc' : RefCount} {s s' : State}

theorem ManifestSynced.of_find (h : ManifestSynced crates m s)
    (hf : ∀ fileId, s'.find (manifestKey fileId) = s.find (manifestKey fileId)) :
    ManifestSynced crates m s' where
  index := by
    have hi : s'.find manifestIndexKey = s.find manifestIndexKey := manifestKey_indexName ▸ hf _
    rw [readIndex_congr hi]
    exact h.index
  record fileId hne := by rw [hf, h.record fileId hne]
  bytes := h.bytes
  name := h.name
  valid := h.valid

theorem RefcountSynced.of_find (h : RefcountSynced crates rc s)
    (hf : ∀ d, s'.find (refcountKey d) = s.find (refcountKey d)) :
    RefcountSynced crates rc s' where
  index := by
    have hi : s'.find refcountIndexKey = s.find refcountIndexKey := refcountKey_indexName ▸ hf _
    rw [readIndex_congr hi]
    exact h.index
  record d hne := by rw [hf, h.record d hne]
  valid := h.valid

theorem BlobsSynced.of_find (h : BlobsSynced store seen rc s)
    (hf : ∀ d, isChunkDigest d = true → s'.find d = s.find d)
    (hv : ∀ d r, rc.counts.find d = some r → isChunkDigest d = true) :
    BlobsSynced store seen rc s' where
  present d hd := by rw [hf d hd, h.present d hd]
  holds d raw hd hraw := h.holds d raw hd (by rwa [hf d hd] at hraw)
  empty d r raw hr h0 hraw := h.empty d r raw hr h0 (by rwa [hf d (hv d r hr)] at hraw)

theorem RefcountSynced.find_of_pos {d : String} (h : 0 < rc.countOf d) :
    ∃ r, rc.counts.find d = some r := by
  cases hf : rc.counts.find d with
  | some r => exact ⟨r, rfl⟩
  | none =>
    rw [RefCount.countOf_of_find_none hf] at h
    exact absurd h (Nat.lt_irrefl 0)

theorem RefcountSynced.countOf_pos (h : RefcountSynced crates rc s) {d : String} {r : ChunkRef}
    (hr : rc.counts.find d = some r) : 0 < rc.countOf d := by
  rw [RefCount.countOf_of_find hr]
  exact (h.valid d r hr).2

end Frames

/-! ## Rules of the fault-free world -/

/-- On a fault-free backend `p` returns into `Q` or throws into `R`. -/
def quietly {α : Type} (p : BackendM α) (Q : α → State → Prop)
    (R : ChunkStoreError → State → Prop) (s : State) : Prop :=
  wpx (faulty False) .any p Q R s

section Rules

variable {α β : Type} {s : State} {key : String} {Q Q' : α → State → Prop}
  {R R' : ChunkStoreError → State → Prop}

theorem quietly_pure {a : α} (h : Q a s) : quietly (pure a) Q R s := h

theorem quietly_throw {e : ChunkStoreError} (h : R e s) :
    quietly (throw e : BackendM α) Q R s := h

theorem quietly_bind {p : BackendM α} {f : α → BackendM β} {Q : β → State → Prop}
    (h : quietly p (fun a s' ↦ quietly (f a) Q R s') R s) : quietly (p >>= f) Q R s :=
  (wpx_bind p f).mpr h

theorem quietly_mono {p : BackendM α} (h : quietly p Q R s) (hQ : ∀ a s', Q a s' → Q' a s')
    (hR : ∀ e s', R e s' → R' e s') : quietly p Q' R' s := wpx_mono h hQ hR

theorem quietly_and {p : BackendM α} (h : quietly p Q R s) (h' : quietly p Q' R' s) :
    quietly p (fun a s' ↦ Q a s' ∧ Q' a s') (fun e s' ↦ R e s' ∧ R' e s') s :=
  wp_post (wp_and h h') fun r s' hr ↦ by cases r <;> exact hr

theorem quietly_map {p : BackendM α} {f : α → β} {Q : β → State → Prop}
    (h : quietly p (fun a s' ↦ Q (f a) s') R s) : quietly (f <$> p) Q R s := by
  rw [map_eq_pure_bind]
  exact quietly_bind h

theorem quietly_ofExcept {r : Except ChunkStoreError α} (hQ : ∀ a, r = .ok a → Q a s)
    (hR : ∀ e, r = .error e → R e s) : quietly (ofExcept r) Q R s := by
  cases r with
  | ok a => exact hQ a rfl
  | error e => exact hR e rfl

theorem quietly_get {Q : Option Bytes → State → Prop} (hQ : Q (s.find key) s) :
    quietly (backendCall (.get key)) Q R s := wpx_get.mpr ⟨⟨trivial, hQ⟩, False.elim⟩

theorem quietly_existsKey {Q : Bool → State → Prop} (hQ : Q (s.find key).isSome s) :
    quietly (backendCall (.existsKey key)) Q R s := wpx_existsKey.mpr ⟨⟨trivial, hQ⟩, False.elim⟩

theorem quietly_listKeys {Q : Option (List String) → State → Prop}
    (hQ : Q ((BackendCall.listKeys key).run s.backend).1 s) :
    quietly (backendCall (.listKeys key)) Q R s :=
  (wpx_readCall rfl).mpr ⟨⟨trivial, hQ⟩, False.elim⟩

theorem quietly_put {data : Bytes} {Q : Unit → State → Prop} (hQ : Q () (s.put key data)) :
    quietly (backendCall (.put key data)) Q R s := wpx_put.mpr ⟨⟨trivial, hQ⟩, False.elim⟩

theorem quietly_delete {Q : Unit → State → Prop} (hQ : Q () (s.del key)) :
    quietly (backendCall (.delete key)) Q R s := wpx_delete.mpr ⟨⟨trivial, hQ⟩, False.elim⟩

theorem quietly_field {a : FieldAccess α}
    (hQ : Q (a.run s.fields).1 (s.withFields (a.run s.fields).2)) : quietly (field a) Q R s :=
  (wpx_field a).mpr ⟨trivial, hQ⟩

theorem quietly_fieldOrThrow {a : FieldAccess (Except ChunkStoreError α)}
    (hQ : ∀ r, (a.run s.fields).1 = .ok r → Q r (s.withFields (a.run s.fields).2))
    (hR : ∀ e, (a.run s.fields).1 = .error e → R e (s.withFields (a.run s.fields).2)) :
    quietly (fieldOrThrow a) Q R s := by
  refine (wpx_fieldOrThrow a).mpr ⟨trivial, ?_⟩
  cases h : (a.run s.fields).1 with
  | ok r => exact hQ r h
  | error e => exact hR e h

theorem quietly_readStringList {crates : Crates} {l : List String} {Q : List String → State → Prop}
    (hl : readIndex crates s key = some l) (hQ : Q l s) :
    quietly (readStringList crates key) Q R s := by
  refine wpx_readStringList (fun _ ↦ trivial) (fun l' hl' ↦ ?_) ?_
  · rw [hl] at hl'
    cases hl'
    exact hQ
  · rintro (hF | hn)
    · exact hF.elim
    · rw [hl] at hn
      cases hn

theorem quietly_foldlM {σ : Type} {f : σ → α → BackendM σ} {J : List α → σ → State → Prop}
    (hstep : ∀ a l st s, J (a :: l) st s → quietly (f st a) (J l) R s) (l : List α) (st : σ)
    (s : State) (h : J l st s) : quietly (l.foldlM f st) (J []) R s :=
  wpx_foldlM hstep l st s h

theorem quietly_of_idle {p : BackendM α} (hp : Makes Call.Idle p) :
    quietly p (fun _ s' ↦ s' = s) (fun _ s' ↦ s' = s) s := by
  refine wp_post (Uses.wp hp (I := (· = s)) (fun c s₁ r s₂ hc h hs ↦ ⟨trivial, ?_⟩) rfl)
    fun r s' h ↦ by cases r <;> exact h
  have hs := (faulty_step_of_not id _ _ _ _).mp hs
  rw [← h, ← hc s₁, show callHandler.handle c s₁ = (r, s₂) from hs]

theorem wp_callHandler {G : Machine Call State} {p : Program Call α}
    (h : wp (faulty False) G p Q s) : wp callHandler.toMachine G p Q s := by
  induction p generalizing s with
  | ret a => exact h
  | req e next ih =>
    intro r s' hs
    obtain ⟨hg, hn⟩ := h r s' ((faulty_step_of_not not_false s e r s').mpr hs)
    exact ⟨hg, ih r hn⟩

/-- What the one run of a program does. -/
theorem quietly_eval {p : BackendM α} (h : quietly p Q R s) :
    outcome Q R (callHandler.eval p.run s).1 (callHandler.eval p.run s).2 :=
  wp_eval (wp_callHandler h)

end Rules

/-! ## Subtractions that are not clamped

The counters are decreased by truncated subtraction. That it is never truncated is a statement about
the requests between two states of a run, so it is a guarantee. -/

/-- A request that decreases no counter below zero. -/
def Call.Unclamped {γ : Type} : Call γ → State → Prop
  | .field (.refcountDecrement digest), s =>
    ∀ r, s.fields.refcount.counts.find digest = some r → 0 < r.count
  | .field (.statsRemoveReference size), s => size ≤ s.fields.stats.totalBytes
  | .field (.statsRemoveUniqueChunk size), s => size ≤ s.fields.stats.storedBytes
  | _, _ => True

/-- The guarantee that, when `H` holds, no subtraction is clamped. -/
def unclamped (H : Prop) : Machine Call State where
  step s c _ _ := H → c.Unclamped s

/-- On a fault-free backend `p` returns into `Q` or throws into `R`, and clamps no subtraction when
`H` holds. -/
def precisely {α : Type} (H : Prop) (p : BackendM α) (Q : α → State → Prop)
    (R : ChunkStoreError → State → Prop) (s : State) : Prop :=
  wpx (faulty False) (unclamped H) p Q R s

section Precise

variable {α β : Type} {H : Prop} {s : State} {Q Q' : α → State → Prop}
  {R R' : ChunkStoreError → State → Prop}

theorem precisely_pure {a : α} (h : Q a s) : precisely H (pure a) Q R s := h

theorem precisely_throw {e : ChunkStoreError} (h : R e s) :
    precisely H (throw e : BackendM α) Q R s := h

theorem precisely_bind {p : BackendM α} {f : α → BackendM β} {Q : β → State → Prop}
    (h : precisely H p (fun a s' ↦ precisely H (f a) Q R s') R s) :
    precisely H (p >>= f) Q R s := (wpx_bind p f).mpr h

theorem precisely_mono {p : BackendM α} (h : precisely H p Q R s)
    (hQ : ∀ a s', Q a s' → Q' a s') (hR : ∀ e s', R e s' → R' e s') :
    precisely H p Q' R' s := wpx_mono h hQ hR

theorem precisely_map {p : BackendM α} {f : α → β} {Q : β → State → Prop}
    (h : precisely H p (fun a s' ↦ Q (f a) s') R s) : precisely H (f <$> p) Q R s := by
  rw [map_eq_pure_bind]
  exact precisely_bind h

theorem precisely_field {a : FieldAccess α} (hu : H → (Call.field a).Unclamped s)
    (hQ : Q (a.run s.fields).1 (s.withFields (a.run s.fields).2)) :
    precisely H (field a) Q R s := (wpx_field a).mpr ⟨hu, hQ⟩

theorem precisely_fieldOrThrow {a : FieldAccess (Except ChunkStoreError α)}
    (hu : H → (Call.field a).Unclamped s)
    (hQ : ∀ r, (a.run s.fields).1 = .ok r → Q r (s.withFields (a.run s.fields).2))
    (hR : ∀ e, (a.run s.fields).1 = .error e → R e (s.withFields (a.run s.fields).2)) :
    precisely H (fieldOrThrow a) Q R s := by
  refine (wpx_fieldOrThrow a).mpr ⟨hu, ?_⟩
  cases h : (a.run s.fields).1 with
  | ok r => exact hQ r h
  | error e => exact hR e h

theorem precisely_foldlM {σ : Type} {f : σ → α → BackendM σ} {J : List α → σ → State → Prop}
    (hstep : ∀ a l st s, J (a :: l) st s → precisely H (f st a) (J l) R s) (l : List α) (st : σ)
    (s : State) (h : J l st s) : precisely H (l.foldlM f st) (J []) R s :=
  wpx_foldlM hstep l st s h

theorem precisely.quietly {p : BackendM α} (h : precisely H p Q R s) : quietly p Q R s :=
  wp_mono h (fun _ _ _ _ _ ↦ trivial) fun _ _ hQ ↦ hQ

private theorem Call.Rising.unclamped {γ : Type} {c : Call γ} (h : c.Rising) (s : State) :
    c.Unclamped s := by
  cases c with
  | backend c => trivial
  | field a =>
    cases a with
    | refcountDecrement | statsRemoveReference | statsRemoveUniqueChunk => exact h.elim
    | _ => trivial

/-- Code that lowers no counter clamps no subtraction. -/
theorem quietly.precisely {p : BackendM α} (hp : Makes Call.Rising p) (h : quietly p Q R s) :
    precisely H p Q R s :=
  Uses.guarantee hp (fun _ s _ _ hc _ ↦ hc.unclamped s) h

end Precise

/-! ## Saving and removing records -/

section Records

variable {crates : Crates} {m m' : Manifest} {rc rc' : RefCount} {s : State}
  {fileId digest : String}
  {Q : Unit → State → Prop} {R : ChunkStoreError → State → Prop}

/-- Adding a name to an index without repeating it. -/
def withName (l : List String) (name : String) : List String := if name ∈ l then l else l ++ [name]

theorem mem_withName {l : List String} {name n : String} :
    n ∈ withName l name ↔ n = name ∨ n ∈ l := by
  rw [withName]
  split
  · rename_i h
    refine ⟨Or.inr, ?_⟩
    rintro (rfl | hn)
    · exact h
    · exact hn
  · rw [List.mem_append, List.mem_singleton, or_comm]

theorem nodup_withName {l : List String} (h : l.Nodup) (name : String) :
    (withName l name).Nodup := by
  rw [withName]
  split
  · exact h
  · rename_i hn
    refine List.nodup_append.mpr ⟨h, List.nodup_singleton _, fun a ha b hb hab ↦ ?_⟩
    rw [List.mem_singleton] at hb
    exact hn (hb ▸ hab ▸ ha)

theorem quietly_listName {key name : String} {l : List String}
    (hl : readIndex crates s key = some l)
    (hQ : ∀ s', s'.fields = s.fields → (∀ k, k ≠ key → s'.find k = s.find k) →
      readIndex crates s' key = some (withName l name) → Q () s') :
    quietly (listName crates key name) Q R s := by
  refine quietly_bind (quietly_readStringList hl ?_)
  split
  · rename_i hm
    exact quietly_pure (hQ s rfl (fun _ _ ↦ rfl) (by rw [hl, withName, if_pos hm]))
  · rename_i hm
    refine quietly_put (hQ _ rfl (fun _ hk ↦ s.find_put_ne hk) ?_)
    rw [withName, if_neg hm]
    exact readIndex_of_strings (s.find_put_self key _)

theorem quietly_unlistName {key name : String} {l : List String}
    (hl : readIndex crates s key = some l)
    (hQ : ∀ s', s'.fields = s.fields → (∀ k, k ≠ key → s'.find k = s.find k) →
      readIndex crates s' key = some (l.filter (· ≠ name)) → Q () s') :
    quietly (unlistName crates key name) Q R s :=
  quietly_bind (quietly_readStringList hl (quietly_put (hQ _ rfl
    (fun _ hk ↦ s.find_put_ne hk) (readIndex_of_strings (s.find_put_self key _)))))

/-- A key outside the manifests. -/
def OffManifest (k : String) : Prop := ∀ g, k ≠ manifestKey g

/-- A key outside the reference counts. -/
def OffRefcount (k : String) : Prop := ∀ e, k ≠ refcountKey e

theorem offManifest_refcountKey (d : String) : OffManifest (refcountKey d) :=
  fun g ↦ refcountKey_ne_manifestKey d g

theorem offRefcount_manifestKey (f : String) : OffRefcount (manifestKey f) :=
  fun d ↦ manifestKey_ne_refcountKey f d

theorem offManifest_of_isChunkDigest {d : String} (h : isChunkDigest d = true) : OffManifest d :=
  fun g ↦ ne_of_isChunkDigest h (isChunkDigest_manifestKey g)

theorem offRefcount_of_isChunkDigest {d : String} (h : isChunkDigest d = true) : OffRefcount d :=
  fun e ↦ ne_of_isChunkDigest h (isChunkDigest_refcountKey e)

theorem OffManifest.ne_indexKey {k : String} (h : OffManifest k) : k ≠ manifestIndexKey :=
  manifestKey_indexName ▸ h indexName

theorem OffRefcount.ne_indexKey {k : String} (h : OffRefcount k) : k ≠ refcountIndexKey :=
  refcountKey_indexName ▸ h indexName

theorem manifestKey_ne_indexKey {f : String} (h : f ≠ indexName) :
    manifestKey f ≠ manifestIndexKey := mt manifestKey_eq_indexKey.mp h

theorem refcountKey_ne_indexKey {d : String} (h : d ≠ indexName) :
    refcountKey d ≠ refcountIndexKey := mt refcountKey_eq_indexKey.mp h

/-- A saved manifest is in sync with the manifest it was inserted into. -/
theorem quietly_saveManifest {digests : List String} {fileBytes : ℕ}
    (h : ManifestSynced crates m s) (hins : m.insert fileId digests fileBytes = .ok m')
    (hf : fileId ≠ indexName) (hv : ∀ d ∈ digests, isChunkDigest d = true)
    (hQ : ∀ s', s'.fields = s.fields → (∀ k, OffManifest k → s'.find k = s.find k) →
      ManifestSynced crates m' s' → Q () s') :
    quietly (saveManifest crates fileId digests fileBytes) Q R s := by
  obtain ⟨l, hl, hnd, hmem⟩ := h.index
  have hfiles : ∀ g, m'.tryGet g = if g = fileId then some digests else m.tryGet g := by
    intro g
    rw [Manifest.insert] at hins
    split at hins
    · cases hins
    · cases hins
      exact Table.find_set _ _ _ _
  have hbytes : ∀ g, m'.fileBytes.find g
      = if g = fileId then some fileBytes else m.fileBytes.find g := by
    intro g
    rw [Manifest.insert] at hins
    split at hins
    · cases hins
    · cases hins
      exact Table.find_set _ _ _ _
  have hempty : fileId ≠ "" := by
    rintro rfl
    rw [Manifest.insert_empty] at hins
    cases hins
  rw [saveManifest_eq, forM_validateDigest hv, ofExcept_ok, pure_bind]
  refine quietly_bind (quietly_put (quietly_listName (l := l) ?_ fun s' hf' hfind hindex ↦ ?_))
  · rw [readIndex_congr (s.find_put_ne (manifestKey_ne_indexKey hf).symm), hl]
  · have hfind' : ∀ k, k ≠ manifestIndexKey → k ≠ manifestKey fileId → s'.find k = s.find k :=
      fun k h₁ h₂ ↦ by rw [hfind k h₁, State.find_put_ne h₂]
    refine hQ s' hf' (fun k hk ↦ hfind' k hk.ne_indexKey (hk fileId))
      ⟨⟨_, hindex, nodup_withName hnd _, fun g ↦ ?_⟩, fun g hg ↦ ?_, fun g ↦ ?_, fun g hg ↦ ?_,
        fun g ds hds ↦ ?_⟩
    · rw [mem_withName, hfiles, hmem]
      split <;> simp_all
    · rw [Manifest.record]
      change _ = Option.map _ ((m'.tryGet g).bind _)
      rw [hfiles, hbytes]
      split
      · rename_i hgf
        rw [hgf, hfind _ (manifestKey_ne_indexKey hf), State.find_put_self]
        rfl
      · rename_i hgf
        rw [hfind' _ (manifestKey_ne_indexKey hg) (mt manifestKey_inj.mp hgf), h.record g hg]
        rfl
    · rw [hbytes, hfiles]
      split
      · rfl
      · exact h.bytes g
    · rw [hfiles] at hg
      split at hg
      · rename_i hgf
        rw [hgf]
        exact ⟨hempty, hf⟩
      · exact h.name g hg
    · rw [hfiles] at hds
      split at hds
      · cases hds
        exact hv
      · exact h.valid g ds hds

/-- The record of the file that is named like the index replaces the index, and the save fails. -/
theorem quietly_saveManifest_indexName {digests : List String} {fileBytes : ℕ} :
    quietly (saveManifest crates indexName digests fileBytes) (fun _ _ ↦ False)
      (fun _ _ ↦ True) s := by
  rw [saveManifest_eq]
  refine quietly_bind (quietly_ofExcept (fun _ _ ↦ ?_) fun _ _ ↦ trivial)
  refine quietly_bind (quietly_put (quietly_bind (wpx_readStringList (fun _ ↦ trivial)
    (fun l hl ↦ ?_) fun _ _ ↦ trivial)))
  rw [manifestKey_indexName, readIndex_of_manifest (State.find_put_self _ _ _)] at hl
  cases hl

theorem quietly_removeManifest (h : ManifestSynced crates m s) (hf : fileId ≠ indexName)
    (hQ : ∀ s', s'.fields = s.fields → (∀ k, OffManifest k → s'.find k = s.find k) →
      ManifestSynced crates (m.remove fileId).2 s' → Q () s') :
    quietly (removeManifest crates fileId) Q R s := by
  obtain ⟨l, hl, hnd, hmem⟩ := h.index
  have hfiles : ∀ g, (m.remove fileId).2.tryGet g
      = if g = fileId then none else m.tryGet g := fun g ↦ Table.find_unset _ _ _
  have hbytes : ∀ g, (m.remove fileId).2.fileBytes.find g
      = if g = fileId then none else m.fileBytes.find g := fun g ↦ Table.find_unset _ _ _
  rw [removeManifest_eq]
  refine quietly_bind (quietly_delete (quietly_unlistName (l := l) ?_ fun s' hf' hfind hindex ↦ ?_))
  · rw [readIndex_congr (s.find_del_ne (manifestKey_ne_indexKey hf).symm), hl]
  · have hfind' : ∀ k, k ≠ manifestIndexKey → k ≠ manifestKey fileId → s'.find k = s.find k :=
      fun k h₁ h₂ ↦ by rw [hfind k h₁, State.find_del_ne h₂]
    refine hQ s' hf' (fun k hk ↦ hfind' k hk.ne_indexKey (hk fileId))
      ⟨⟨_, hindex, hnd.filter _, fun g ↦ ?_⟩, fun g hg ↦ ?_, fun g ↦ ?_, fun g hg ↦ ?_,
        fun g ds hds ↦ ?_⟩
    · rw [List.mem_filter, hfiles, hmem]
      split <;> simp_all
    · rw [Manifest.record]
      change _ = Option.map _ (((m.remove fileId).2.tryGet g).bind _)
      rw [hfiles, hbytes]
      split
      · rename_i hgf
        rw [hgf, hfind _ (manifestKey_ne_indexKey hf), State.find_del_self]
        rfl
      · rename_i hgf
        rw [hfind' _ (manifestKey_ne_indexKey hg) (mt manifestKey_inj.mp hgf), h.record g hg]
        rfl
    · rw [hbytes, hfiles]
      split
      · rfl
      · exact h.bytes g
    · rw [hfiles] at hg
      split at hg
      · cases hg
      · exact h.name g hg
    · rw [hfiles] at hds
      split at hds
      · cases hds
      · exact h.valid g ds hds

/-- A saved count is in sync with the table it was set in. -/
theorem quietly_saveRefcount (rc' : RefCount) {count size : ℕ} (h : RefcountSynced crates rc s)
    (hd : isChunkDigest digest = true) (hc : 0 < count)
    (hrc : ∀ e, rc'.counts.find e
      = if e = digest then some ⟨count, size⟩ else rc.counts.find e)
    (hQ : ∀ s', s'.fields = s.fields → (∀ k, OffRefcount k → s'.find k = s.find k) →
      RefcountSynced crates rc' s' → Q () s') :
    quietly (saveRefcount crates digest count size) Q R s := by
  obtain ⟨l, hl, hnd, hmem⟩ := h.index
  have hne : digest ≠ indexName := ne_of_isChunkDigest hd isChunkDigest_indexName
  rw [saveRefcount_eq, validateDigest_eq_ok.mpr hd, ofExcept_ok, pure_bind]
  refine quietly_bind (quietly_put (quietly_listName (l := l) ?_ fun s' hf' hfind hindex ↦ ?_))
  · rw [readIndex_congr (s.find_put_ne (refcountKey_ne_indexKey hne).symm), hl]
  · have hfind' : ∀ k, k ≠ refcountIndexKey → k ≠ refcountKey digest → s'.find k = s.find k :=
      fun k h₁ h₂ ↦ by rw [hfind k h₁, State.find_put_ne h₂]
    refine hQ s' hf' (fun k hk ↦ hfind' k hk.ne_indexKey (hk digest))
      ⟨⟨_, hindex, nodup_withName hnd _, fun e ↦ ?_⟩, fun e he ↦ ?_, fun e r hr ↦ ?_⟩
    · rw [mem_withName, hrc, hmem]
      split <;> simp_all
    · rw [hrc]
      split
      · rename_i hed
        rw [hed, hfind _ (refcountKey_ne_indexKey hne), State.find_put_self]
        rfl
      · rename_i hed
        rw [hfind' _ (refcountKey_ne_indexKey he) (mt refcountKey_inj.mp hed), h.record e he]
    · rw [hrc] at hr
      split at hr
      · rename_i hed
        cases hr
        rw [hed]
        exact ⟨hd, hc⟩
      · exact h.valid e r hr

theorem quietly_removeRefcount (rc' : RefCount) (h : RefcountSynced crates rc s)
    (hd : isChunkDigest digest = true)
    (hrc : ∀ e, rc'.counts.find e = if e = digest then none else rc.counts.find e)
    (hQ : ∀ s', s'.fields = s.fields → (∀ k, OffRefcount k → s'.find k = s.find k) →
      RefcountSynced crates rc' s' → Q () s') :
    quietly (removeRefcount crates digest) Q R s := by
  obtain ⟨l, hl, hnd, hmem⟩ := h.index
  have hne : digest ≠ indexName := ne_of_isChunkDigest hd isChunkDigest_indexName
  rw [removeRefcount_eq]
  refine quietly_bind (quietly_delete (quietly_unlistName (l := l) ?_ fun s' hf' hfind hindex ↦ ?_))
  · rw [readIndex_congr (s.find_del_ne (refcountKey_ne_indexKey hne).symm), hl]
  · have hfind' : ∀ k, k ≠ refcountIndexKey → k ≠ refcountKey digest → s'.find k = s.find k :=
      fun k h₁ h₂ ↦ by rw [hfind k h₁, State.find_del_ne h₂]
    refine hQ s' hf' (fun k hk ↦ hfind' k hk.ne_indexKey (hk digest))
      ⟨⟨_, hindex, hnd.filter _, fun e ↦ ?_⟩, fun e he ↦ ?_, fun e r hr ↦ ?_⟩
    · rw [List.mem_filter, hrc, hmem]
      split <;> simp_all
    · rw [hrc]
      split
      · rename_i hed
        rw [hed, hfind _ (refcountKey_ne_indexKey hne), State.find_del_self]
        rfl
      · rename_i hed
        rw [hfind' _ (refcountKey_ne_indexKey he) (mt refcountKey_inj.mp hed), h.record e he]
    · rw [hrc] at hr
      split at hr
      · cases hr
      · exact h.valid e r hr

end Records

end Chunkstore

import Chunkstore.Accounting.Rebuilt
import Chunkstore.Exact.Twins
import Chunkstore.Processes.Readers

/-!
# Openings that do not finish

Opening looks up the sizes that records lack and writes them, one record after the other. A process
may die in the middle of it, a call may fail, or several processes may open the same backend at
once, each with a different part of the records already written by the others.

None of this matters. What is written for a record is a function of the count in it and of the
length of its blob, so it is the same whoever writes it, and a record that has been written is not
touched again. A later opening that finishes therefore finds what it would have found had there been
no other.

## Main result

* `ChunkStore.openings_invisible`: whatever processes that only open and read have done to a
  backend, and however far they have come, it opens as before, with the same instance and the same
  keys.
-/

open Effects Program

namespace Chunkstore

/-! ## Sizes that can be looked up -/

section Filled

/-- The listed count of a digest has no size, and its blob is there. -/
structure Fillable (crates : Crates) (s : State) (digest : String) (count : ℕ) (raw : Bytes) :
    Prop where
  isDigest : isChunkDigest digest = true
  ref : persistedRef crates s digest = some ⟨count, 0⟩
  blob : s.find digest = some raw

/-- The record that opening writes. -/
abbrev Crates.filledRecord (crates : Crates) (count : ℕ) (raw : Bytes) : Bytes :=
  crates.serde.refcountToVec ⟨count, raw.length⟩

/-- `s'` is `s` with some of the sizes that can be looked up. -/
structure Filled (crates : Crates) (s s' : State) : Prop where
  lists : s'.backend.lists = s.backend.lists
  find : ∀ k, s'.find k = s.find k ∨ ∃ digest count raw, k = refcountKey digest ∧
    Fillable crates s digest count raw ∧ s'.find k = some (crates.filledRecord count raw)

/-- All of the sizes that can be looked up in `s` are recorded in `s'`. -/
def Full (crates : Crates) (s s' : State) : Prop :=
  ∀ digest count raw, Fillable crates s digest count raw →
    s'.find (refcountKey digest) = some (crates.filledRecord count raw)

variable {crates : Crates} {s s' s'' : State} {digest : String} {count : ℕ} {raw : Bytes}

theorem Fillable.count_pos (h : Fillable crates s digest count raw) : 0 < count := by
  have hr := h.ref
  rw [persistedRef] at hr
  split at hr
  · exact count_pos_of_loadedRef hr
  · cases hr

theorem Fillable.listed (h : Fillable crates s digest count raw) : IsListed crates s digest := by
  have hr := h.ref
  rw [persistedRef] at hr
  split at hr
  · assumption
  · cases hr

private theorem Fillable.ne_indexName (h : Fillable crates s digest count raw) :
    digest ≠ indexName :=
  ne_of_isChunkDigest h.isDigest isChunkDigest_indexName

namespace Filled

theorem refl (s : State) : Filled crates s s := ⟨rfl, fun _ ↦ Or.inl rfl⟩

theorem find_off (h : Filled crates s s') {k : String} (hk : OffRefcount k) :
    s'.find k = s.find k := by
  refine (h.find k).resolve_right ?_
  rintro ⟨digest, -, -, rfl, -⟩
  exact hk digest rfl

theorem find_index (h : Filled crates s s') :
    s'.find refcountIndexKey = s.find refcountIndexKey := by
  refine (h.find _).resolve_right ?_
  rintro ⟨digest, count, raw, hk, hd, -⟩
  exact refcountKey_ne_indexKey hd.ne_indexName hk.symm

theorem find_blob (h : Filled crates s s') (hd : isChunkDigest digest = true) :
    s'.find digest = s.find digest := h.find_off (offRefcount_of_isChunkDigest hd)

theorem readIndex_eq (h : Filled crates s s') :
    readIndex crates s' refcountIndexKey = readIndex crates s refcountIndexKey :=
  readIndex_congr h.find_index

theorem put (h : Filled crates s s') (hd : Fillable crates s digest count raw) :
    Filled crates s (s'.put (refcountKey digest) (crates.filledRecord count raw)) := by
  refine ⟨h.lists, fun k ↦ ?_⟩
  by_cases hk : k = refcountKey digest
  · subst hk
    exact Or.inr ⟨digest, count, raw, rfl, hd, State.find_put_self _ _ _⟩
  · rw [State.find_put_ne hk]
    exact h.find k

/-- The entry of a digest is as it was, or has the size of its blob. -/
theorem persistedRef_cases (h : Filled crates s s') (digest : String) :
    (s'.find (refcountKey digest) = s.find (refcountKey digest) ∧
        persistedRef crates s' digest = persistedRef crates s digest) ∨
      ∃ count raw, Fillable crates s digest count raw ∧
        s'.find (refcountKey digest) = some (crates.filledRecord count raw) ∧
          persistedRef crates s' digest = some ⟨count, raw.length⟩ := by
  have hlisted : IsListed crates s' digest ↔ IsListed crates s digest := isListed_congr h.find_index
  rcases h.find (refcountKey digest) with hf | ⟨d, count, raw, hk, hd, hf⟩
  · refine Or.inl ⟨hf, ?_⟩
    rw [persistedRef, persistedRef, loadedRef_congr hf]
    exact if_congr hlisted rfl rfl
  · obtain rfl := refcountKey_inj.mp hk
    refine Or.inr ⟨count, raw, hd, hf, ?_⟩
    rw [persistedRef, if_pos (hlisted.mpr hd.listed), loadedRef_of_find hd.count_pos hf]

private theorem fillable (h : Filled crates s s') (hd : Fillable crates s' digest count raw) :
    Fillable crates s digest count raw := by
  have hblob := (h.find_blob hd.isDigest).symm.trans hd.blob
  refine ⟨hd.isDigest, ?_, hblob⟩
  rcases h.persistedRef_cases digest with ⟨-, hr⟩ | ⟨count', raw', hd', -, hr⟩
  · exact hr.symm.trans hd.ref
  · rw [hd.ref] at hr
    obtain rfl : count = count' := congrArg ChunkRef.count (Option.some.inj hr)
    exact hd'.ref

theorem trans (h : Filled crates s s') (h' : Filled crates s' s'') : Filled crates s s'' := by
  refine ⟨h'.lists.trans h.lists, fun k ↦ ?_⟩
  rcases h'.find k with hf | ⟨digest, count, raw, hk, hd, hf⟩
  · rw [hf]
    exact h.find k
  · exact Or.inr ⟨digest, count, raw, hk, h.fillable hd, hf⟩

theorem full (h : Filled crates s s') (h' : Filled crates s' s'') (hfull : Full crates s' s'') :
    Full crates s s'' := by
  intro digest count raw hd
  have hblob := (h.find_blob hd.isDigest).trans hd.blob
  rcases h.persistedRef_cases digest with ⟨-, hr⟩ | ⟨count', raw', hd', hf, hr⟩
  · exact hfull digest count raw ⟨hd.isDigest, hr.trans hd.ref, hblob⟩
  · obtain rfl : count' = count :=
      congrArg ChunkRef.count (Option.some.inj (hd'.ref.symm.trans hd.ref))
    obtain rfl : raw' = raw := Option.some.inj (hd'.blob.symm.trans hd.blob)
    by_cases h0 : raw'.length = 0
    · -- an empty blob leaves the size at zero, and is looked up again
      refine hfull digest count' raw' ⟨hd.isDigest, ?_, hblob⟩
      rw [hr, h0]
    · refine ((h'.find _).resolve_right ?_).trans hf
      rintro ⟨d, count'', raw'', hk, hd'', -⟩
      obtain rfl := refcountKey_inj.mp hk
      have hsize := congrArg ChunkRef.size (Option.some.inj (hr.symm.trans hd''.ref))
      exact h0 hsize

/-- When all are recorded, the keys are determined. -/
theorem find_eq_of_full (h : Filled crates s s') (hfull : Full crates s s')
    (h' : Filled crates s s'') (hfull' : Full crates s s'') (k : String) :
    s''.find k = s'.find k := by
  rcases h.find k with hf | ⟨digest, count, raw, rfl, hd, hf⟩
  · rcases h'.find k with hf' | ⟨digest, count, raw, rfl, hd, hf'⟩
    · exact hf'.trans hf.symm
    · exact hf'.trans (hfull digest count raw hd).symm
  · exact (hfull' digest count raw hd).trans hf.symm

/-! ### What opening needs -/

theorem persistedFile_eq (h : Filled crates s s') (fileId : String) :
    persistedFile crates s' fileId = persistedFile crates s fileId := by
  have hindex : readIndex crates s' manifestIndexKey = readIndex crates s manifestIndexKey :=
    readIndex_congr (h.find_off (manifestKey_indexName ▸ offRefcount_manifestKey indexName))
  rw [persistedFile, persistedFile, hindex, manifestRecord, manifestRecord,
    h.find_off (offRefcount_manifestKey fileId)]

private theorem refcountLoads_iff (h : Filled crates s s') (digest : String) :
    (IsListed crates s digest → RefcountLoads crates s' digest) ↔
      (IsListed crates s digest → RefcountLoads crates s digest) := by
  rcases h.find (refcountKey digest) with hf | ⟨d, count, raw, hk, hd, hf⟩
  · refine forall_congr' fun _ ↦ ?_
    rw [RefcountLoads, RefcountLoads, LacksSize, LacksSize, refcountRecord_congr hf]
    refine and_congr_right fun hdig ↦ ?_
    rw [h.find_blob hdig.1]
  · -- the record loads as it is and as it was, and its blob is there
    obtain rfl := refcountKey_inj.mp hk
    refine iff_of_true (fun _ ↦ ⟨⟨hd.isDigest, ?_⟩, fun _ ↦ ?_⟩)
      fun _ ↦ ⟨⟨hd.isDigest, ?_⟩, fun _ ↦ ?_⟩
    · rw [refcountRecord, hf, Option.bind_some, parseRefcountRecord,
        crates.serde.refcount_roundtrip]
      rfl
    · rw [h.find_blob hd.isDigest, hd.blob]
      rfl
    · have hr := hd.ref
      rw [persistedRef, if_pos hd.listed] at hr
      obtain ⟨record, hrecord, -⟩ := Option.bind_eq_some_iff.mp hr
      rw [hrecord]
      rfl
    · rw [hd.blob]
      rfl

theorem openable_iff (h : Filled crates s s') : Openable crates s' ↔ Openable crates s := by
  have hmanifest : ∀ f, s'.find (manifestKey f) = s.find (manifestKey f) := fun f ↦
    h.find_off (offRefcount_manifestKey f)
  have hcounts : RefcountsLoad crates s' none ↔ RefcountsLoad crates s none := by
    cases hl : readIndex crates s refcountIndexKey with
    | none => exact iff_of_false (not_indexLoads (h.readIndex_eq.trans hl)) (not_indexLoads hl)
    | some l =>
      rw [RefcountsLoad, RefcountsLoad, indexLoads_iff (h.readIndex_eq.trans hl), indexLoads_iff hl]
      refine forall_congr' fun d ↦ ?_
      have hiff := h.refcountLoads_iff d
      rwa [isListed_of_readIndex hl] at hiff
  constructor
  · rintro ⟨hm, hc⟩
    exact ⟨hm.of_find fun f ↦ (hmanifest f).symm, hcounts.mp hc⟩
  · rintro ⟨hm, hc⟩
    exact ⟨hm.of_find hmanifest, hcounts.mpr hc⟩

end Filled

/-! ## Opening in one go -/

/-- The backfill records all the sizes that can be looked up, and writes nothing else. -/
private theorem quietly_backfillRefcountSizes_full {rc : RefCount}
    {R : ChunkStoreError → State → Prop}
    (h : Mirrors crates rc s) :
    quietly (backfillRefcountSizes crates rc) (fun _ s' ↦ Filled crates s s' ∧ Full crates s s')
      R s := by
  obtain ⟨index, hindex, -⟩ := h.index
  rw [backfillRefcountSizes]
  refine quietly_mono (quietly_foldlM (J := fun l _ s' ↦ Filled crates s s' ∧
    (∀ e ∈ l, isChunkDigest e.1 = true ∧ persistedRef crates s e.1 = some ⟨e.2, 0⟩) ∧
    ∀ digest count raw, Fillable crates s digest count raw →
      s'.find (refcountKey digest) = some (crates.filledRecord count raw) ∨ ∃ e ∈ l, e.1 = digest)
    (R := R) ?_ _ rc s ⟨.refl s, fun e he ↦ ?_, fun digest count raw hd ↦ ?_⟩)
    (fun _ s' h' ↦ ⟨h'.1, fun digest count raw hd ↦ (h'.2.2 digest count raw hd).resolve_right
      fun he ↦ absurd he.choose_spec.1 List.not_mem_nil⟩) fun _ _ h ↦ h
  · rintro ⟨d, count⟩ l rc' s' ⟨hfilled, hl, hrest⟩
    obtain ⟨hdig, hr⟩ := hl _ List.mem_cons_self
    have hl' := fun e he ↦ hl e (List.mem_cons_of_mem _ he)
    dsimp only at hdig hr
    have hsame : s'.find d = s.find d := hfilled.find_blob hdig
    -- the entries other than this one
    have hrest' : ∀ s₂ : State, (∀ k, k ≠ refcountKey d → s₂.find k = s'.find k) →
        ∀ digest count raw, Fillable crates s digest count raw → digest ≠ d →
          s₂.find (refcountKey digest) = some (crates.filledRecord count raw) ∨
            ∃ e ∈ l, e.1 = digest := by
      intro s₂ hs₂ digest count raw hd hne
      rw [hs₂ _ (mt refcountKey_inj.mp hne)]
      refine (hrest digest count raw hd).imp_right ?_
      rintro ⟨e, he, rfl⟩
      refine ⟨e, (List.mem_cons.mp he).resolve_left ?_, rfl⟩
      rintro rfl
      exact hne rfl
    refine quietly_bind (quietly_get ?_)
    cases hraw : s'.find d with
    | none =>
      refine quietly_pure ⟨hfilled, hl', fun digest count' raw hd ↦ ?_⟩
      refine hrest' s' (fun _ _ ↦ rfl) digest count' raw hd ?_
      rintro rfl
      rw [hsame, hd.blob] at hraw
      cases hraw
    | some raw =>
      have hd : Fillable crates s d count raw := ⟨hdig, hr, hsame.symm.trans hraw⟩
      dsimp only
      rw [if_pos hdig]
      refine quietly_bind (quietly_mono (quietly_saveRefcount_listed hdig
        (hfilled.readIndex_eq.trans hindex) ((isListed_of_readIndex hindex).mp hd.listed)) ?_
        fun _ _ h ↦ h)
      rintro _ _ rfl
      refine quietly_pure ⟨hfilled.put hd, hl', fun digest count' raw' hd' ↦ ?_⟩
      by_cases hne : digest = d
      · subst hne
        obtain rfl := congrArg ChunkRef.count (Option.some.inj (hd'.ref.symm.trans hd.ref))
        obtain rfl := Option.some.inj (hd'.blob.symm.trans hd.blob)
        exact Or.inl (State.find_put_self _ _ _)
      · exact hrest' _ (fun k hk ↦ State.find_put_ne hk) digest count' raw' hd' hne
  · obtain ⟨r, hr, h0, hcount⟩ := mem_stale rc he
    refine ⟨(h.valid e.1 r hr).1, (h.refs e.1).trans ?_⟩
    rw [hr, ← hcount, ← h0]
  · exact Or.inr (exists_stale rc ((h.refs digest).symm.trans hd.ref) rfl hd.count_pos)

private theorem quietly_openStore_full : quietly (flat (openStore crates))
    (fun _ s' ↦ Filled crates s s' ∧ Full crates s s') (fun _ _ ↦ True) s := by
  rw [flat_openStore, loadMetadata]
  refine quietly_bind (quietly_bind (quietly_mono quietly_loadManifests_iff ?_ fun _ _ _ ↦ trivial))
  rintro m s ⟨rfl, -⟩
  refine quietly_bind (quietly_mono quietly_loadRefcounts_iff ?_ fun _ _ _ ↦ trivial)
  rintro loaded s ⟨rfl, hmirrors, -⟩
  refine quietly_bind (quietly_mono (quietly_backfillRefcountSizes_full hmirrors) ?_ fun _ _ h ↦ h)
  rintro rc s₁ ⟨hfilled, hfull⟩
  refine quietly_field (quietly_bind (quietly_mono quietly_rebuildStats_iff ?_ fun _ _ _ ↦ trivial))
  rintro _ _ ⟨-, stats, rfl, -⟩
  exact quietly_pure ⟨⟨hfilled.lists, hfilled.find⟩, hfull⟩

/-- **Opening looks up all it can.** -/
theorem ChunkStore.full_of_isOk {store : ChunkStore} (h : (store.exec .reopen s).1.isOk = true) :
    Filled store.crates s (store.exec .reopen s).2 ∧
      Full store.crates s (store.exec .reopen s).2 := by
  have hspec : quietly (flat (store.perform .reopen))
      (fun _ s' ↦ Filled store.crates s s' ∧ Full store.crates s s') (fun _ _ ↦ True) s := by
    rw [perform, flat_map]
    exact quietly_map (quietly_reopen quietly_openStore_full)
  have hrun := quietly_eval hspec
  change outcome _ _ (store.exec .reopen s).1 (store.exec .reopen s).2 at hrun
  cases hr : (store.exec .reopen s).1 with
  | ok reply =>
    rw [hr] at hrun
    exact hrun
  | error e =>
    rw [hr] at h
    cases h

/-- What opening finds is a function of the keys. -/
private theorem Opened.twins {o o' : State} (h : Opened crates s o) (h' : Opened crates s' o')
    (hfiles : ∀ f, persistedFile crates s' f = persistedFile crates s f)
    (hfind : ∀ k, o'.find k = o.find k) (hlists : o'.backend.lists = o.backend.lists) :
    Twins o o' := by
  have hrefs : ∀ d, o'.fields.refcount.counts.find d = o.fields.refcount.counts.find d := by
    intro d
    rw [← h.mirrors.refs d, ← h'.mirrors.refs d, persistedRef, persistedRef,
      loadedRef_congr (hfind _)]
    exact if_congr (isListed_congr (hfind _)) rfl rfl
  have hmatches : ∀ f, o'.fields.manifest.Matches f (persistedFile crates s f) := by
    intro f
    rw [← hfiles f]
    exact h'.files f
  obtain ⟨htotal, hstored⟩ := h.rebuilt.sums h.sized
  obtain ⟨htotal', hstored'⟩ := h'.rebuilt.sums h'.sized
  refine ⟨⟨hfind, fun f ↦ ?_, fun f ↦ ?_, hrefs, ?_, ?_⟩, ?_, hlists⟩
  · rw [(hmatches f).1, (h.files f).1]
  · rw [(hmatches f).2, (h.files f).2]
  · rw [htotal, htotal', Table.sumBy_congr _ hrefs]
  · rw [hstored, hstored', Table.sumBy_congr _ hrefs]
  · rw [h.rebuilt.gc, h'.rebuilt.gc]

/-- **A backend with some of the sizes** opens as the one without, and with the same result. -/
theorem Filled.exec_reopen {store : ChunkStore} (h : Filled store.crates s s') :
    (store.exec .reopen s').1.isOk = (store.exec .reopen s).1.isOk ∧
      ((store.exec .reopen s).1.isOk = true →
        Twins (store.exec .reopen s).2 (store.exec .reopen s').2) := by
  have hiff : (store.exec .reopen s').1.isOk = true ↔ (store.exec .reopen s).1.isOk = true := by
    rw [ChunkStore.isOk_reopen_iff, ChunkStore.isOk_reopen_iff]
    exact h.openable_iff
  refine ⟨Bool.eq_iff_iff.mpr hiff, fun hok ↦ ?_⟩
  have hok' := hiff.mpr hok
  obtain ⟨hfilled, hfull⟩ := ChunkStore.full_of_isOk hok
  obtain ⟨hfilled', hfull'⟩ := ChunkStore.full_of_isOk hok'
  refine (ChunkStore.opened_of_isOk hok).twins (ChunkStore.opened_of_isOk hok') h.persistedFile_eq
    (hfilled.find_eq_of_full hfull (h.trans hfilled') (h.full hfilled' hfull')) ?_
  rw [(h.trans hfilled').lists, hfilled.lists]

end Filled

/-! ## Opening in pieces -/

section Pieces

variable {crates : Crates} {s : State} {F : Prop} {α β : Type} {Q : α → Fields → Prop} {f : Fields}

/-- The backends between `s` and the one with all the sizes. -/
def Between (crates : Crates) (s : State) (b : Backend) : Prop := Filled crates s ⟨b, .empty⟩

/-- What code of a process ends in that keeps the backend between those two, relying on the others
to do so. -/
abbrev fillingly (F : Prop) (crates : Crates) (s : State) (p : BackendM α) (Q : α → Fields → Prop)
    (f : Fields) : Prop :=
  wpx ((together F).among (Between crates s)) ((together F).keeping (Between crates s)) p Q
    (fun _ _ ↦ True) f

theorem fillingly_bind {p : BackendM α} {g : α → BackendM β} {Q : β → Fields → Prop}
    (h : fillingly F crates s p (fun a f' ↦ fillingly F crates s (g a) Q f') f) :
    fillingly F crates s (p >>= g) Q f := (wpx_bind p g).mpr h

theorem fillingly_mono {p : BackendM α} {Q' : α → Fields → Prop} (h : fillingly F crates s p Q f)
    (hQ : ∀ a f', Q a f' → Q' a f') : fillingly F crates s p Q' f :=
  wpx_mono h hQ fun _ _ h ↦ h

theorem fillingly_backendCall {c : BackendCall α}
    (hc : ∀ b, Between crates s b → Between crates s (c.run b).2)
    (hQ : ∀ b, Between crates s b → Q (c.run b).1 f) :
    fillingly F crates s (backendCall c) Q f := by
  rintro r f' ⟨b, b', hb, hs⟩
  constructor
  · intro b r b' hb hs
    rcases together_backend hs with rfl | rfl
    · exact hc b hb
    · exact hb
  · rcases hs with ⟨rfl, hs⟩ | ⟨-, ⟨e, rfl⟩, -⟩
    · obtain rfl : f' = f := (State.mk.inj hs).2
      exact hQ b hb
    · trivial

theorem fillingly_ofExcept {r : Except ChunkStoreError α} (hQ : ∀ a, r = .ok a → Q a f) :
    fillingly F crates s (ofExcept r) Q f := by
  cases r with
  | ok a => exact hQ a rfl
  | error e => trivial

theorem fillingly_of_silent {p : BackendM α} (hp : Makes Call.Silent p) :
    fillingly F crates s p (fun _ _ ↦ True) f := by
  refine wp_post (Uses.wp (I := fun _ : Fields ↦ True) hp (fun c f₁ r f₂ hc _ _ ↦ ⟨?_, trivial⟩)
    trivial) fun r f' _ ↦ ?_
  · intro b r' b' hb hs
    rwa [hc.together (F := F) f₁ r f₂ b f₁ r' b' f₂ hs]
  · cases r <;> trivial

theorem fillingly_readStringList {key : String} {Q : List String → Fields → Prop}
    (hQ : ∀ b l, Between crates s b → readIndex crates ⟨b, .empty⟩ key = some l → Q l f) :
    fillingly F crates s (readStringList crates key) Q f := by
  refine fillingly_bind (fillingly_backendCall (fun b hb ↦ hb) fun b hb ↦ ?_)
  dsimp only [BackendCall.run]
  cases hraw : b.data.find key with
  | none => exact hQ b [] hb (readIndex_of_find_none hraw)
  | some raw =>
    dsimp only
    cases hl : crates.serde.stringsFromSlice raw with
    | ok l => exact hQ b l hb (by rw [readIndex_of_find (s := ⟨b, .empty⟩) hraw, hl]; rfl)
    | error e => trivial

/-- An entry without a size is that of a record that had none from the start. -/
def Pending (crates : Crates) (s : State) (rc : RefCount) : Prop :=
  ∀ digest r, rc.counts.find digest = some r → r.size = 0 →
    isChunkDigest digest = true ∧ persistedRef crates s digest = some ⟨r.count, 0⟩

private theorem pending_new : Pending crates s .new := by
  intro digest r h
  cases h

private theorem Pending.set {rc : RefCount} {digest : String} {count size : ℕ}
    (h : Pending crates s rc)
    (hd : size = 0 → isChunkDigest digest = true ∧ persistedRef crates s digest = some ⟨count, 0⟩) :
    Pending crates s (rc.set digest count size) := by
  intro d r hr h0
  rw [RefCount.set] at hr
  split at hr
  · rw [Table.find_unset] at hr
    split at hr
    · cases hr
    · exact h d r hr h0
  · rw [Table.find_set] at hr
    split at hr
    · rename_i hdd
      obtain rfl := Option.some.inj hr
      rw [hdd]
      exact hd h0
    · exact h d r hr h0

/-- Whatever the others have written by then, an entry loaded without a size has none on the
backend. -/
private theorem fillingly_loadRefcounts :
    fillingly F crates s (loadRefcounts crates) (fun rc _ ↦ Pending crates s rc) f := by
  refine fillingly_bind (fillingly_readStringList fun b index hb hindex ↦ ?_)
  have hindex : readIndex crates s refcountIndexKey = some index :=
    hb.readIndex_eq.symm.trans hindex
  refine wpx_mono (wpx_foldlM (J := fun l rc (_ : Fields) ↦ (∀ d ∈ l, d ∈ index) ∧
    Pending crates s rc) ?_ index RefCount.new f ⟨fun _ hd ↦ hd, pending_new⟩)
    (fun _ _ h ↦ h.2) fun _ _ h ↦ h
  rintro digest l rc f₂ ⟨hl, hrc⟩
  have hl' := fun d hd ↦ hl d (List.mem_cons_of_mem digest hd)
  refine fillingly_bind (fillingly_ofExcept fun _ hvalid ↦ ?_)
  have hd := validateDigest_eq_ok.mp hvalid
  refine fillingly_bind (fillingly_backendCall (fun b hb ↦ hb) fun b hb ↦ ?_)
  dsimp only [BackendCall.run]
  cases hraw : b.data.find (refcountKey digest) with
  | none => trivial
  | some raw =>
    dsimp only
    refine fillingly_bind (fillingly_ofExcept fun record hrecord ↦ ?_)
    by_cases hpos : 0 < record.1
    · rw [if_pos hpos]
      refine ⟨hl', hrc.set fun h0 ↦ ⟨hd, ?_⟩⟩
      have hloaded : persistedRef crates ⟨b, .empty⟩ digest = some ⟨record.1, record.2⟩ := by
        rw [persistedRef_of_readIndex (hb.readIndex_eq.trans hindex),
          if_pos (hl digest List.mem_cons_self), loadedRef, refcountRecord,
          show State.find ⟨b, .empty⟩ (refcountKey digest) = some raw from hraw, Option.bind_some,
          hrecord]
        exact if_pos hpos
      -- a size of zero was there from the start, or is that of an empty blob
      rcases hb.persistedRef_cases digest with ⟨-, hr⟩ | ⟨count, blob, hfill, -, hr⟩
      · rw [← hr, hloaded, h0]
      · obtain rfl : record.1 = count :=
          congrArg ChunkRef.count (Option.some.inj (hloaded.symm.trans hr))
        exact hfill.ref
    · rw [if_neg hpos]
      exact ⟨hl', hrc⟩

private theorem fillingly_saveRefcount {digest : String} {count : ℕ} {raw : Bytes}
    (hd : Fillable crates s digest count raw) :
    fillingly F crates s (saveRefcount crates digest count raw.length) (fun _ _ ↦ True) f := by
  rw [saveRefcount_eq, validateDigest_eq_ok.mpr hd.isDigest, ofExcept_ok, pure_bind]
  refine fillingly_bind (fillingly_backendCall (fun b hb ↦ hb.put hd) fun _ _ ↦ ?_)
  refine fillingly_bind (fillingly_readStringList fun b index hb hindex ↦ ?_)
  -- the digest is on the index already, which is not written
  rw [if_pos ((isListed_of_readIndex (hb.readIndex_eq.symm.trans hindex)).mp hd.listed)]
  trivial

private theorem fillingly_backfillRefcountSizes {rc : RefCount} (h : Pending crates s rc) :
    fillingly F crates s (backfillRefcountSizes crates rc) (fun _ _ ↦ True) f := by
  rw [backfillRefcountSizes]
  refine wpx_mono (wpx_foldlM (J := fun l _ (_ : Fields) ↦ ∀ e ∈ l,
    isChunkDigest e.1 = true ∧ persistedRef crates s e.1 = some ⟨e.2, 0⟩) ?_ _ rc f fun e he ↦ ?_)
    (fun _ _ _ ↦ trivial) fun _ _ h ↦ h
  · rintro ⟨digest, count⟩ l rc' f₁ hl
    obtain ⟨hd, hr⟩ := hl _ List.mem_cons_self
    have hl' := fun e he ↦ hl e (List.mem_cons_of_mem _ he)
    refine fillingly_bind (fillingly_backendCall (fun b hb ↦ hb) fun b hb ↦ ?_)
    dsimp only [BackendCall.run] at hd hr ⊢
    cases hraw : b.data.find digest with
    | none => exact hl'
    | some raw =>
      dsimp only
      rw [if_pos hd]
      exact fillingly_bind (fillingly_mono (fillingly_saveRefcount
        ⟨hd, hr, (hb.find_blob hd).symm.trans hraw⟩) fun _ _ _ ↦ hl')
  · obtain ⟨r, hr, h0, hcount⟩ := mem_stale rc he
    rw [← hcount]
    exact h e.1 r hr h0

/-- **An opening, cut off anywhere or not,** keeps the backend between. -/
theorem fillingly_reopen (store : ChunkStore) :
    fillingly F store.crates s (flat store.reopen) (fun _ _ ↦ True) f := by
  have hopen : fillingly F store.crates s (flat (openStore store.crates)) (fun _ _ ↦ True) f := by
    rw [flat_openStore, loadMetadata]
    refine fillingly_bind (fillingly_bind (fillingly_mono (fillingly_of_silent
      ((reads_loadManifests store.crates).mono fun _ h ↦ h.silent)) fun m f₁ _ ↦ ?_))
    refine fillingly_bind (fillingly_mono fillingly_loadRefcounts fun rc f₂ hrc ↦ ?_)
    refine fillingly_bind (fillingly_mono (fillingly_backfillRefcountSizes hrc) fun rc' f₃ _ ↦ ?_)
    refine fillingly_mono (fillingly_of_silent (makes_field trivial)) fun _ f₄ _ ↦ ?_
    exact fillingly_bind (fillingly_mono (fillingly_of_silent (makes_rebuildStats _
      (fun _ h ↦ h.silent) fun stats ↦ trivial)) fun _ _ _ ↦ trivial)
  rw [ChunkStore.reopen]
  cases store.codec with
  | none =>
    rw [flat_bind]
    exact fillingly_bind (fillingly_mono hopen fun _ _ _ ↦ trivial)
  | some codec =>
    simp only [openWithCodec, flat_bind, bind_assoc]
    exact fillingly_bind (fillingly_mono hopen fun _ _ _ ↦ trivial)

theorem fillingly_serve (store : ChunkStore) {ops : List ChunkStore.Op}
    (hops : ∀ op ∈ ops, op.ReadsOnly) :
    wp ((together F).among (Between store.crates s)) ((together F).keeping (Between store.crates s))
      (store.serve ops) (fun _ _ ↦ True) f := by
  induction ops generalizing f with
  | nil => trivial
  | cons op ops ih =>
    have hop : fillingly F store.crates s (flat (store.perform op)) (fun _ _ ↦ True) f := by
      rcases hops op List.mem_cons_self with hask | rfl
      · exact fillingly_of_silent ((ChunkStore.reads_ask hask).mono fun _ h ↦ h.silent)
      · rw [ChunkStore.perform, ChunkStore.flat_map, map_eq_pure_bind]
        exact fillingly_bind (fillingly_mono (fillingly_reopen store) fun _ _ _ ↦ trivial)
    rw [ChunkStore.serve, wp_bind]
    refine wp_post hop fun r f' _ ↦ ?_
    rw [wp_bind]
    exact wp_post (ih fun o ho ↦ hops o (List.mem_cons_of_mem op ho)) fun _ _ _ ↦ trivial

end Pieces

namespace ChunkStore

/-- **Openings are invisible, finished or not.** Take any backend, and any number of processes that
open it and read, with their calls in any order, failing or not, and each process stopped anywhere.
Opening the backend afterwards returns if and only if it would have returned before. If it does, the
instance and the keys are those there would have been, and whatever is done next returns the
same. -/
theorem openings_invisible (store : ChunkStore) (F : Prop) (b : Backend) (work : List (List Op))
    (hwork : ∀ ops ∈ work, ∀ op ∈ ops, op.ReadsOnly)
    (c' : List (Party Call Fields (List (Except ChunkStoreError Reply))) × Backend)
    (h : (together F).SharedSteps (store.processes work, b) c') (f f' : Fields) :
    let before := store.exec .reopen ⟨b, f⟩
    let after := store.exec .reopen ⟨c'.2, f'⟩
    after.1.isOk = before.1.isOk ∧ (before.1.isOk = true →
      Twins before.2 after.2 ∧ ∀ later,
        List.Forall₂ SameResult (store.execAll later before.2).1
          (store.execAll later after.2).1) := by
  intro before after
  have hstart : ∀ Q ∈ store.processes work, wp ((together F).among (Between store.crates ⟨b, f⟩))
      ((together F).keeping (Between store.crates ⟨b, f⟩)) Q.program (fun _ _ ↦ True) Q.own := by
    intro Q hQ
    obtain ⟨ops, hmem, rfl⟩ := List.mem_map.mp hQ
    exact fillingly_serve store (hwork ops hmem)
  have hbetween : Between store.crates ⟨b, f⟩ c'.2 := (h.kept hstart ⟨rfl, fun _ ↦ Or.inl rfl⟩).1
  have hfilled : Filled store.crates ⟨b, f⟩ ⟨c'.2, f'⟩ := ⟨hbetween.lists, hbetween.find⟩
  obtain ⟨hok, htwins⟩ := hfilled.exec_reopen
  exact ⟨hok, fun hopens ↦ ⟨htwins hopens, fun later ↦ (execAll_twins (htwins hopens) later).1⟩⟩

/-- A file of two chunks, whose counts an older version wrote. -/
def twoLegacy : Backend :=
  (((smallStore.run true [.ingest "f" (.chunks [[0x61], [0x62]])]).2.put
    (refcountKey (digestHex smallCrates.sha256 [0x61])) [0x31]).put
      (refcountKey (digestHex smallCrates.sha256 [0x62])) [0x31]).backend

/-- Two openings, the first of which stops between the two records. -/
def halfOpened : List (Party Call Fields (List (Except ChunkStoreError Reply))) × Backend :=
  togetherHandler.turns (.replicate 7 0 ++ .replicate 5 1)
    (smallStore.processes [[.reopen], [.reopen, .read "f"]], twoLegacy)

theorem openings_invisible_half : List.Forall₂ SameResult
    (smallStore.execAll [.stats, .delete "f"] (smallStore.exec .reopen ⟨twoLegacy, .empty⟩).2).1
    (smallStore.execAll [.stats, .delete "f"]
      (smallStore.exec .reopen ⟨halfOpened.2, .empty⟩).2).1 := by
  have hwork : ∀ ops ∈ [[Op.reopen], [.reopen, .read "f"]], ∀ op ∈ ops, op.ReadsOnly := by
    intro ops hops op hop
    rcases List.mem_pair.mp hops with rfl | rfl
    · exact Or.inr (List.mem_singleton.mp hop)
    · rcases List.mem_pair.mp hop with rfl | rfl
      · exact Or.inr rfl
      · exact Or.inl trivial
  have happly := openings_invisible smallStore False twoLegacy _ hwork halfOpened
    (together_turns _ _) .empty .empty
  exact (happly.2 (by decide +kernel)).2 _

end ChunkStore

end Chunkstore

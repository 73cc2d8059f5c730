import Chunkstore.Core.View

/-!
# The ledger

After a failed call or a crash the counts in memory, the counts on the backend, the live manifest
and the persisted manifest all tell different stories. What they have in common is a *ledger*: a
list of file versions that contains every version either manifest still refers to. The counts, in
memory and on the backend, are at least what the ledger demands; they may be more.

A pending list carries the references an operation holds itself: the chunks an ingest has stored for
a version that is not in the ledger yet, or those of a version taken out and not yet released.

## Main definitions

* `Persisted` relates the ledger to the backend and `Live` relates it to the fields.
* `Wrote` lemmas, one for each kind of key: what a write there has to respect.
-/

open Effects

namespace Chunkstore

/-- One version of a file. -/
structure Version where
  fileId : String
  digests : List String
  deriving DecidableEq, Repr

/-- How often the versions of a ledger refer to a digest. -/
def demand (ledger : List Version) (digest : String) : ℕ :=
  (ledger.map fun v ↦ v.digests.count digest).sum

/-- The references a ledger and a pending list need together. -/
def need (ledger : List Version) (pending : List String) (digest : String) : ℕ :=
  demand ledger digest + pending.count digest

theorem demand_cons (v : Version) (ledger : List Version) (digest : String) :
    demand (v :: ledger) digest = v.digests.count digest + demand ledger digest := by
  rw [demand, List.map_cons, List.sum_cons, demand]

/-- A version moves from the ledger to the pending list, or back. -/
theorem need_erase {ledger : List Version} {v : Version} (hv : v ∈ ledger) (digest : String) :
    need (ledger.erase v) v.digests digest = need ledger [] digest := by
  have hp : demand ledger digest = demand (v :: ledger.erase v) digest :=
    ((List.perm_cons_erase hv).map _).sum_eq
  rw [need, need, hp, demand_cons, List.count_nil]
  omega

theorem need_cons (v : Version) (ledger : List Version) (digest : String) :
    need (v :: ledger) [] digest = need ledger v.digests digest := by
  rw [need, need, demand_cons, List.count_nil]
  omega

theorem need_nil_le (ledger : List Version) (pending : List String) (digest : String) :
    need ledger [] digest ≤ need ledger pending digest := by
  rw [need, need, List.count_nil]
  omega

theorem need_cons_self (ledger : List Version) (pending : List String) (digest : String) :
    need ledger (digest :: pending) digest = need ledger pending digest + 1 := by
  rw [need, need, List.count_cons_self]
  omega

theorem need_cons_ne {digest e : String} (h : e ≠ digest) (ledger : List Version)
    (pending : List String) : need ledger (digest :: pending) e = need ledger pending e := by
  rw [need, need, List.count_cons_of_ne h.symm]

theorem count_le_need {ledger : List Version} {v : Version} (hv : v ∈ ledger)
    (pending : List String) (digest : String) :
    v.digests.count digest ≤ need ledger pending digest := by
  have he := need_erase hv digest
  have hn := need_nil_le ledger pending digest
  rw [need] at he
  omega

/-! ## The backend side -/

/-- The backend respects a ledger and a pending list. `known` is what versions may be in the
ledger. -/
structure Persisted (store : ChunkStore) (known : Version → Prop) (ledger : List Version)
    (pending : List String) (s : State) : Prop where
  known : ∀ v ∈ ledger, known v
  valid : ∀ d, 0 < need ledger pending d → isChunkDigest d = true
  record : ∀ fileId raw, fileId ≠ indexName → s.find (manifestKey fileId) = some raw →
    ∃ r, store.crates.serde.manifestFromSlice raw = .ok r ∧ ⟨fileId, r.digests⟩ ∈ ledger
  index : ∀ l, readIndex store.crates s manifestIndexKey = some l → indexName ∉ l
  refIndex : ∃ l, readIndex store.crates s refcountIndexKey = some l
  counted : ∀ d, need ledger pending d ≤ persistedCount store.crates s d
  stored : ∀ d, 0 < need ledger pending d → (s.find d).isSome
  hashes : ∀ d raw, isChunkDigest d = true → s.find d = some raw → store.Holds raw d

/-- The fields of a running instance respect a ledger and a pending list. -/
structure Live (ledger : List Version) (pending : List String) (f : Fields) : Prop where
  manifest : ∀ fileId digests, f.manifest.tryGet fileId = some digests →
    ⟨fileId, digests⟩ ∈ ledger
  counted : ∀ d, need ledger pending d ≤ f.refcount.countOf d

/-! ### Distinct keys -/

theorem manifestIndexKey_ne_refcountIndexKey : manifestIndexKey ≠ refcountIndexKey := by decide

theorem refcountIndexKey_ne_manifestKey (fileId : String) :
    refcountIndexKey ≠ manifestKey fileId := by
  rw [← refcountKey_indexName]
  exact refcountKey_ne_manifestKey _ _

theorem manifestIndexKey_ne_refcountKey (digest : String) :
    manifestIndexKey ≠ refcountKey digest := by
  rw [← manifestKey_indexName]
  exact manifestKey_ne_refcountKey _ _

theorem refcountIndexKey_ne_refcountKey {digest : String} (h : isChunkDigest digest = true) :
    refcountIndexKey ≠ refcountKey digest := by
  intro hk
  rw [refcountKey_eq_indexKey.mp hk.symm] at h
  exact absurd h (by simp)

namespace Persisted

variable {store : ChunkStore} {known : Version → Prop} {ledger ledger' : List Version}
  {pending pending' : List String} {s s' : State} {digest fileId : String} {o : Option Bytes}

theorem isListed (h : Persisted store known ledger pending s)
    (hd : 0 < need ledger pending digest) : IsListed store.crates s digest :=
  isListed_of_pos (Nat.lt_of_lt_of_le hd (h.counted digest))

/-- A smaller ledger, as long as it still has every persisted version. -/
theorem mono (h : Persisted store known ledger pending s) (hk : ∀ v ∈ ledger', known v)
    (hn : ∀ d, need ledger' pending' d ≤ need ledger pending d)
    (hr : ∀ fileId raw r, fileId ≠ indexName → s.find (manifestKey fileId) = some raw →
      store.crates.serde.manifestFromSlice raw = .ok r → ⟨fileId, r.digests⟩ ∈ ledger →
        ⟨fileId, r.digests⟩ ∈ ledger') :
    Persisted store known ledger' pending' s where
  known := hk
  valid d hd := h.valid d (Nat.lt_of_lt_of_le hd (hn d))
  record fileId raw hf hraw := by
    obtain ⟨r, hdec, hmem⟩ := h.record fileId raw hf hraw
    exact ⟨r, hdec, hr fileId raw r hf hraw hdec hmem⟩
  index := h.index
  refIndex := h.refIndex
  counted d := (hn d).trans (h.counted d)
  stored d hd := h.stored d (Nat.lt_of_lt_of_le hd (hn d))
  hashes := h.hashes

theorem drop (h : Persisted store known ledger pending s) : Persisted store known ledger [] s :=
  h.mono h.known (need_nil_le ledger pending) fun _ _ _ _ _ _ hm ↦ hm

theorem push (h : Persisted store known ledger pending s) (hd : isChunkDigest digest = true)
    (hs : (s.find digest).isSome)
    (hc : need ledger pending digest + 1 ≤ persistedCount store.crates s digest) :
    Persisted store known ledger (digest :: pending) s where
  known := h.known
  valid e he := by
    by_cases hed : e = digest
    · rw [hed]
      exact hd
    · exact h.valid e (by rwa [need_cons_ne hed] at he)
  record := h.record
  index := h.index
  refIndex := h.refIndex
  counted e := by
    by_cases hed : e = digest
    · rw [hed, need_cons_self]
      exact hc
    · rw [need_cons_ne hed]
      exact h.counted e
  stored e he := by
    by_cases hed : e = digest
    · rw [hed]
      exact hs
    · exact h.stored e (by rwa [need_cons_ne hed] at he)
  hashes := h.hashes

/-! ### Writes, by the kind of their key -/

/-- A write under a chunk name: a blob that hashes to it, or no blob where none is needed. -/
theorem wroteBlob (h : Persisted store known ledger pending s)
    (hd : isChunkDigest digest = true) (hw : Wrote s s' digest o)
    (hsome : ∀ raw, o = some raw → store.Holds raw digest)
    (hnone : o = none → need ledger pending digest = 0) :
    Persisted store known ledger pending s' := by
  have hmeta : ∀ k, isChunkDigest k = false → s'.find k = s.find k := fun k hk ↦
    hw.find_ne (ne_of_isChunkDigest hd hk).symm
  refine ⟨h.known, h.valid, ?_, ?_, ?_, ?_, ?_, ?_⟩
  · intro fileId raw hf hraw
    rw [hmeta _ (by simp)] at hraw
    exact h.record fileId raw hf hraw
  · rw [readIndex_congr (hmeta _ (by simp))]
    exact h.index
  · rw [readIndex_congr (hmeta _ (by simp))]
    exact h.refIndex
  · intro d
    rw [persistedCount_congr (hmeta _ (by simp)) (hmeta _ (by simp))]
    exact h.counted d
  · intro d hneed
    rw [hw.find]
    split
    · cases o with
      | some raw => rfl
      | none =>
        have h0 := hnone rfl
        simp_all
    · exact h.stored d hneed
  · intro d raw hd' hraw
    rw [hw.find] at hraw
    split at hraw
    · rename_i hdd
      rw [hdd]
      exact hsome raw hraw
    · exact h.hashes d raw hd' hraw

theorem wroteRefcount (h : Persisted store known ledger pending s)
    (hd : isChunkDigest digest = true) (hw : Wrote s s' (refcountKey digest) o)
    (hc : need ledger pending digest ≤ recordCount store.crates s' digest) :
    Persisted store known ledger pending s' := by
  have hne : refcountIndexKey ≠ refcountKey digest := refcountIndexKey_ne_refcountKey hd
  have hblob : ∀ d, isChunkDigest d = true → s'.find d = s.find d := fun d hd' ↦
    hw.find_ne (ne_of_isChunkDigest hd' (by simp))
  refine ⟨h.known, h.valid, ?_, ?_, ?_, ?_, ?_, ?_⟩
  · intro fileId raw hf hraw
    rw [hw.find_ne (manifestKey_ne_refcountKey _ _)] at hraw
    exact h.record fileId raw hf hraw
  · rw [readIndex_congr (hw.find_ne (manifestIndexKey_ne_refcountKey _))]
    exact h.index
  · rw [readIndex_congr (hw.find_ne hne)]
    exact h.refIndex
  · intro d
    rcases Nat.eq_zero_or_pos (need ledger pending d) with h0 | hpos
    · rw [h0]
      exact Nat.zero_le _
    · have hl : IsListed store.crates s' d :=
        (isListed_congr (hw.find_ne hne)).mpr (h.isListed hpos)
      by_cases hdd : d = digest
      · rw [persistedCount_of_isListed hl, hdd]
        exact hc
      · rw [persistedCount_congr (hw.find_ne hne) (hw.find_ne (mt refcountKey_inj.mp hdd))]
        exact h.counted d
  · intro d hneed
    rw [hblob d (h.valid d hneed)]
    exact h.stored d hneed
  · intro d raw hd' hraw
    rw [hblob d hd'] at hraw
    exact h.hashes d raw hd' hraw

theorem wroteRefcountIndex {l : List String} (h : Persisted store known ledger pending s)
    (hw : Wrote s s' refcountIndexKey (some (store.crates.serde.stringsToVec l)))
    (hl : ∀ d, 0 < need ledger pending d → d ∈ l) :
    Persisted store known ledger pending s' := by
  have hread : readIndex store.crates s' refcountIndexKey = some l :=
    readIndex_of_strings hw.find_self
  have hblob : ∀ d, isChunkDigest d = true → s'.find d = s.find d := fun d hd' ↦
    hw.find_ne (ne_of_isChunkDigest hd' (by simp))
  refine ⟨h.known, h.valid, ?_, ?_, ⟨l, hread⟩, ?_, ?_, ?_⟩
  · intro fileId raw hf hraw
    rw [hw.find_ne (refcountIndexKey_ne_manifestKey _).symm] at hraw
    exact h.record fileId raw hf hraw
  · rw [readIndex_congr (hw.find_ne manifestIndexKey_ne_refcountIndexKey)]
    exact h.index
  · intro d
    rcases Nat.eq_zero_or_pos (need ledger pending d) with h0 | hpos
    · rw [h0]
      exact Nat.zero_le _
    · rw [persistedCount_of_isListed ((isListed_of_readIndex hread).mpr (hl d hpos)),
        recordCount_congr (hw.find_ne (refcountIndexKey_ne_refcountKey (h.valid d hpos)).symm),
        ← persistedCount_of_isListed (h.isListed hpos)]
      exact h.counted d
  · intro d hneed
    rw [hblob d (h.valid d hneed)]
    exact h.stored d hneed
  · intro d raw hd' hraw
    rw [hblob d hd'] at hraw
    exact h.hashes d raw hd' hraw

/-- A write under the manifest prefix: every record left is in the ledger, and the index, which is
one of these keys, never lists its own name. -/
theorem wroteManifest (h : Persisted store known ledger pending s)
    (hw : Wrote s s' (manifestKey fileId) o)
    (hr : fileId ≠ indexName → ∀ raw, o = some raw →
      ∃ r, store.crates.serde.manifestFromSlice raw = .ok r ∧ ⟨fileId, r.digests⟩ ∈ ledger)
    (hi : fileId = indexName → ∀ l, readIndex store.crates s' manifestIndexKey = some l →
      indexName ∉ l) :
    Persisted store known ledger pending s' := by
  have hblob : ∀ d, isChunkDigest d = true → s'.find d = s.find d := fun d hd' ↦
    hw.find_ne (ne_of_isChunkDigest hd' (by simp))
  refine ⟨h.known, h.valid, ?_, ?_, ?_, ?_, ?_, ?_⟩
  · intro g raw hg hraw
    rw [hw.find] at hraw
    split at hraw
    · rename_i hkey
      obtain rfl := manifestKey_inj.mp hkey
      exact hr hg raw hraw
    · exact h.record g raw hg hraw
  · by_cases hf : fileId = indexName
    · exact hi hf
    · rw [readIndex_congr (hw.find_ne fun hk ↦ hf (manifestKey_eq_indexKey.mp hk.symm))]
      exact h.index
  · rw [readIndex_congr (hw.find_ne (refcountIndexKey_ne_manifestKey _))]
    exact h.refIndex
  · intro d
    rw [persistedCount_congr (hw.find_ne (refcountIndexKey_ne_manifestKey _))
      (hw.find_ne (refcountKey_ne_manifestKey _ _))]
    exact h.counted d
  · intro d hneed
    rw [hblob d (h.valid d hneed)]
    exact h.stored d hneed
  · intro d raw hd' hraw
    rw [hblob d hd'] at hraw
    exact h.hashes d raw hd' hraw

theorem wroteManifestIndex {l : List String} (h : Persisted store known ledger pending s)
    (hw : Wrote s s' manifestIndexKey (some (store.crates.serde.stringsToVec l)))
    (hl : indexName ∉ l) : Persisted store known ledger pending s' := by
  have hw' : Wrote s s' (manifestKey indexName) (some (store.crates.serde.stringsToVec l)) := by
    rwa [manifestKey_indexName]
  refine h.wroteManifest hw' (fun hne ↦ absurd rfl hne) fun _ l' hl' ↦ ?_
  rw [readIndex_of_strings hw.find_self] at hl'
  cases hl'
  exact hl

end Persisted

namespace Live

variable {ledger ledger' : List Version} {pending pending' : List String} {f : Fields}

theorem drop (h : Live ledger pending f) : Live ledger [] f :=
  ⟨h.manifest, fun d ↦ (need_nil_le ledger pending d).trans (h.counted d)⟩

end Live

end Chunkstore

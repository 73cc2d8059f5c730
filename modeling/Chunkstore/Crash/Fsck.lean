import Chunkstore.Crash.Openable

/-!
# Fsck on any backend

What `fsck` reports and what it leaves, whatever the backend holds: the digests of the refcount
table without a blob, and the blobs outside the table, which repairing deletes. The report is a
function of the state, so it can be compared with what the claims of the documentation expect of it.
-/

open Effects Program

namespace Chunkstore

variable {s : State} {R : ChunkStoreError → State → Prop}

/-- The digests that `fsck` takes to be live. -/
def liveDigests (s : State) : List String := s.fields.refcount.iterRefs.map Prod.fst

/-- The live digests without a blob. -/
def missingOf (s : State) : List String := (liveDigests s).filter fun d ↦ (s.find d).isNone

/-- The blobs that no live digest names, as far as the backend lists its keys. -/
def orphansOf (s : State) : List String :=
  if s.backend.lists then
    s.backend.data.keys.filter fun k ↦ isChunkDigest k && !(liveDigests s).contains k
  else []

theorem mem_liveDigests {d : String} :
    d ∈ liveDigests s ↔ (s.fields.refcount.counts.find d).isSome := by
  rw [liveDigests, List.mem_map, Option.isSome_iff_exists]
  constructor
  · rintro ⟨⟨e, r⟩, hm, rfl⟩
    exact ⟨r, RefCount.mem_iterRefs.mp hm⟩
  · rintro ⟨r, hr⟩
    exact ⟨(d, r), RefCount.mem_iterRefs.mpr hr, rfl⟩

theorem mem_orphansOf {k : String} : k ∈ orphansOf s ↔ s.backend.lists = true ∧
    isChunkDigest k = true ∧ (s.find k).isSome ∧ s.fields.refcount.counts.find k = none := by
  rw [orphansOf]
  split
  · rename_i hlists
    rw [List.mem_filter, Bool.and_eq_true, Bool.not_eq_true', ← Bool.not_eq_true,
      List.contains_iff_mem, mem_liveDigests, Bool.not_eq_true, Option.isSome_eq_false_iff,
      Option.isNone_iff_eq_none, Table.mem_keys]
    constructor
    · rintro ⟨hk, hc, hn⟩
      exact ⟨hlists, hc, hk, hn⟩
    · rintro ⟨-, hc, hk, hn⟩
      exact ⟨hk, hc, hn⟩
  · rename_i hlists
    exact ⟨fun hk ↦ absurd hk List.not_mem_nil, fun h ↦ absurd h.1 hlists⟩

theorem nodup_missingOf (s : State) : (missingOf s).Nodup := by
  refine List.Nodup.filter _ ?_
  have hkeys := s.fields.refcount.counts.nodupKeys
  rw [liveDigests, RefCount.iterRefs, Table.pairs, List.map_map]
  exact hkeys

theorem nodup_orphansOf (s : State) : (orphansOf s).Nodup := by
  rw [orphansOf]
  split
  · exact List.Nodup.filter _ s.backend.data.nodupKeys
  · exact List.nodup_nil

theorem mem_missingOf {d : String} :
    d ∈ missingOf s ↔ (s.fields.refcount.counts.find d).isSome ∧ s.find d = none := by
  rw [missingOf, List.mem_filter, mem_liveDigests, Option.isNone_iff_eq_none]

private theorem quietly_missingBlobs_filter (live : List String) :
    quietly (flat (ChunkStore.missingBlobs live)) (fun missing s' ↦
      missing = live.filter (fun d ↦ (s.find d).isNone) ∧ s' = s) R s := by
  induction live with
  | nil => exact quietly_pure ⟨rfl, rfl⟩
  | cons d live ih =>
    simp only [ChunkStore.missingBlobs, flat_bind, flat_unlocked, flat_pure]
    refine quietly_bind (quietly_existsKey (quietly_bind (quietly_mono ih ?_ fun _ _ h ↦ h)))
    rintro _ s ⟨rfl, rfl⟩
    refine quietly_pure ⟨?_, rfl⟩
    cases hd : s.find d with
    | none => rw [List.filter_cons_of_pos (by rw [hd]; rfl)]; rfl
    | some raw => rw [List.filter_cons_of_neg (by rw [hd]; exact Bool.false_ne_true)]; rfl

private theorem quietly_unlinkAll (keys : List String) :
    quietly (flat (ChunkStore.unlinkAll keys)) (fun n s' ↦ n = keys.length ∧
      s'.fields = s.fields ∧ s'.backend.lists = s.backend.lists ∧
        ∀ k, s'.find k = if k ∈ keys then none else s.find k) R s := by
  induction keys generalizing s with
  | nil => exact quietly_pure ⟨rfl, rfl, rfl, fun k ↦ (if_neg List.not_mem_nil).symm⟩
  | cons key keys ih =>
    simp only [ChunkStore.unlinkAll, flat_bind, flat_unlocked, flat_pure]
    refine quietly_bind (quietly_delete (quietly_bind (quietly_mono ih ?_ fun _ _ h ↦ h)))
    rintro n s' ⟨rfl, hf, hl, hfind⟩
    refine quietly_pure ⟨rfl, hf, hl, fun k ↦ ?_⟩
    rw [hfind, State.find_del]
    by_cases hk : k = key
    · rw [if_pos hk, ite_self, if_pos (hk ▸ List.mem_cons_self)]
    · rw [if_neg hk]
      exact if_congr (by rw [List.mem_cons, or_iff_right hk]) rfl rfl

/-- **Fsck** reports what the state says, and repairing deletes the orphans and nothing else. -/
theorem quietly_fsck_report (repair : Bool) :
    quietly (flat (ChunkStore.fsck repair)) (fun report s' ↦
      report = ⟨missingOf s, orphansOf s, if repair then (orphansOf s).length else 0⟩ ∧
        s'.fields = s.fields ∧
          ∀ k, s'.find k = if repair ∧ k ∈ orphansOf s then none else s.find k) R s := by
  have horphans : quietly (collectOrphans (liveDigests s))
      (fun orphans s' ↦ orphans = orphansOf s ∧ s' = s) R s := by
    refine quietly_bind (quietly_listKeys ?_)
    rw [BackendCall.run, orphansOf]
    split
    · refine quietly_pure ⟨?_, rfl⟩
      rename_i hnone
      split at hnone
      · cases hnone
      · rw [if_neg (by assumption)]
    · refine quietly_pure ⟨?_, rfl⟩
      rename_i keys hkeys
      split at hkeys
      · cases hkeys
        rw [if_pos (by assumption)]
        exact congrArg (List.filter _) (List.filter_eq_self.mpr fun k _ ↦ by simp)
      · cases hkeys
  simp only [ChunkStore.fsck, flat_bind, flat_locked, flat_unlocked, flat_ite, flat_pure]
  refine quietly_bind (quietly_field (quietly_bind (quietly_mono (quietly_missingBlobs_filter _) ?_
    fun _ _ h ↦ h)))
  rintro _ _ ⟨rfl, rfl⟩
  refine quietly_bind (quietly_mono horphans ?_ fun _ _ h ↦ h)
  rintro _ _ ⟨rfl, rfl⟩
  split
  · rename_i hr
    refine quietly_bind (quietly_mono (quietly_unlinkAll _) ?_ fun _ _ h ↦ h)
    rintro n s' ⟨rfl, hf, -, hfind⟩
    refine quietly_pure ⟨rfl, hf, fun k ↦ ?_⟩
    rw [hfind]
    exact if_congr (and_iff_right hr).symm rfl rfl
  · rename_i hr
    exact quietly_pure ⟨rfl, rfl, fun k ↦ (if_neg fun h ↦ hr h.1).symm⟩

end Chunkstore

import Chunkstore.Outside.Referenced

/-!
# Fsck among foreign keys

The reports and the repairs of `fsck` on a backend that others write to as well: they may put
anything under keys outside the metadata, and delete blobs. Three views are related here, the
reference counts, the list of keys and the manifests, and what relates them is that every digest of
the manifest is counted.

## Main result

* `ChunkStore.fsck_exact`: `fsck` is sound, complete and idempotent, and reads do not notice it.
-/

open Effects

namespace Chunkstore

section Idle

private theorem idle_missingBlobs (live : List String) :
    Makes Call.Idle (flat (ChunkStore.missingBlobs live)) := by
  induction live with
  | nil => exact makes_pure _
  | cons d live ih =>
    simp only [ChunkStore.missingBlobs, flat_bind, flat_unlocked, flat_pure]
    exact (makes_backendCall fun _ ↦ rfl).bind fun _ ↦ ih.bind fun _ ↦ makes_pure _

theorem idle_fsck : Makes Call.Idle (flat (ChunkStore.fsck false)) := by
  simp only [ChunkStore.fsck, flat_bind, flat_locked, flat_unlocked, Bool.false_eq_true, if_false,
    flat_pure]
  refine (makes_field fun _ ↦ rfl).bind fun refs ↦ (idle_missingBlobs _).bind fun missing ↦
    Makes.bind ?_ fun orphans ↦ makes_pure _
  exact (makes_backendCall fun _ ↦ rfl).bind fun keys ↦ by cases keys <;> exact makes_pure _

end Idle

namespace ChunkStore

/-- The states reached from an empty backend that can list its keys, by operations that return, puts
of foreign keys and deletions of blobs. -/
inductive Reached (store : ChunkStore) : State → Prop
  | start : Reached store (store.exec .reopen (.empty true)).2
  | op {s : State} (h : Reached store s) (op : Op) (hok : (store.exec op s).1.isOk = true) :
      Reached store (store.exec op s).2
  | put {s : State} (h : Reached store s) (key : String) (data : Bytes) (hm : OffManifest key)
      (hr : OffRefcount key) : Reached store (s.put key data)
  | delete {s : State} (h : Reached store s) (key : String) (hd : isChunkDigest key = true) :
      Reached store (s.del key)

variable {store : ChunkStore} {s : State}

private theorem referenced_empty (store : ChunkStore) (lists : Bool) :
    Referenced store [] (.empty lists) := by
  have hindex : readIndex store.crates (.empty lists) refcountIndexKey = some [] :=
    readIndex_of_find_none rfl
  refine ⟨(rep_empty store (fun _ ↦ True) lists).manifest, ⟨.new, ⟨⟨[], hindex, fun d hd ↦
    absurd hd List.not_mem_nil⟩, fun d ↦ ?_, fun d r hr ↦ by cases hr⟩, fun _ ↦ rfl⟩, fun _ ↦ rfl⟩
  rw [persistedRef_of_readIndex hindex, if_neg List.not_mem_nil]
  rfl

/-- **The run lemma.** Every reference stays counted. -/
theorem Reached.referenced (h : Reached store s) : Referenced store [] s := by
  induction h with
  | start =>
    refine referenced_exec (referenced_empty store true) ?_
    rw [(exec_reopen (rep_empty store (fun _ ↦ True) true)).1]
    rfl
  | op _ op hok ih => exact referenced_exec ih hok
  | put _ key data hm hr ih =>
    refine ih.of_find rfl fun k hk ↦ State.find_put_ne ?_
    rintro rfl
    exact hk.elim (fun h ↦ h hm) fun h ↦ h hr
  | delete _ key hd ih =>
    refine ih.of_find rfl fun k hk ↦ State.find_del_ne ?_
    rintro rfl
    exact hk.elim (fun h ↦ h (offManifest_of_isChunkDigest hd))
      fun h ↦ h (offRefcount_of_isChunkDigest hd)

private theorem Reached.lists (h : Reached store s) : s.backend.lists = true := by
  induction h with
  | start => exact lists_eval _ _
  | op _ op _ ih => exact (lists_eval _ _).trans ih
  | put _ _ _ _ _ ih => exact ih
  | delete _ _ _ ih => exact ih

theorem exec_read_eq (fileId : String) (s : State) :
    store.exec (.read fileId) s = ((store.readFile s fileId).map .bytes, s) := by
  rw [exec, perform, flat_map, map_eq_pure_bind, ExceptT.run_bind, Handler.eval_bind, eval_read]
  cases store.readFile s fileId <;> rfl

/-- **Fsck is sound, complete and idempotent.** On every reached state, `fsck(false)` changes
nothing and reports the counted digests without a blob as missing, and the chunk names without a
count as orphans. `fsck(true)` deletes those orphans and nothing else: no metadata and no counted
blob. A `fsck` after it finds no orphans and the same missing blobs. Every file reads as before. -/
theorem fsck_exact (store : ChunkStore) (s : State) (h : store.Reached s) :
    ∃ missing orphans : List String,
      (missing.Nodup ∧ ∀ d, d ∈ missing ↔
        (s.fields.refcount.counts.find d).isSome ∧ s.find d = none) ∧
      (orphans.Nodup ∧ ∀ k, k ∈ orphans ↔ isChunkDigest k = true ∧ (s.find k).isSome ∧
        s.fields.refcount.counts.find k = none) ∧
      store.exec (.fsck false) s = (.ok (.report ⟨missing, orphans, 0⟩), s) ∧
      let s' := (store.exec (.fsck true) s).2
      ((store.exec (.fsck true) s).1 = .ok (.report ⟨missing, orphans, orphans.length⟩) ∧
        s'.fields = s.fields ∧ ∀ k, s'.find k = if k ∈ orphans then none else s.find k) ∧
      ((∀ f, manifestKey f ∉ orphans) ∧ (∀ d, refcountKey d ∉ orphans) ∧
        ∀ d, (s.fields.refcount.counts.find d).isSome → d ∉ orphans) ∧
      (∀ repair, (store.exec (.fsck repair) s').1 = .ok (.report ⟨missing, [], 0⟩)) ∧
      ∀ f, (store.exec (.read f) s').1 = (store.exec (.read f) s).1 := by
  have hr := h.referenced
  have horphan : ∀ k, k ∈ orphansOf s ↔ isChunkDigest k = true ∧ (s.find k).isSome ∧
      s.fields.refcount.counts.find k = none := fun k ↦
    mem_orphansOf.trans (and_iff_right h.lists)
  have hcounted : ∀ d, (s.fields.refcount.counts.find d).isSome → d ∉ orphansOf s :=
    fun d hd hmem ↦ by
    rw [((horphan d).mp hmem).2.2] at hd
    cases hd
  obtain ⟨hres, hfields, hfind⟩ := exec_fsck true s
  simp only [if_true, true_and] at hres hfind
  refine ⟨missingOf s, orphansOf s, ⟨nodup_missingOf s, fun d ↦ mem_missingOf⟩,
    ⟨nodup_orphansOf s, horphan⟩, Prod.ext (exec_fsck false s).1 ?_, ⟨hres, hfields, hfind⟩,
    ⟨fun f hf ↦ ?_, fun d hd ↦ ?_, hcounted⟩, fun repair ↦ ?_, fun f ↦ ?_⟩
  · rw [exec, perform, flat_map]
    exact eval_of_idle idle_fsck.map s
  · have hdig := ((horphan _).mp hf).1
    rw [isChunkDigest_manifestKey] at hdig
    cases hdig
  · have hdig := ((horphan _).mp hd).1
    rw [isChunkDigest_refcountKey] at hdig
    cases hdig
  · -- the orphans are gone, and none of them was counted
    have hmissing : missingOf (store.exec (.fsck true) s).2 = missingOf s := by
      rw [missingOf, missingOf, liveDigests, hfields]
      refine List.filter_congr fun d hd ↦ ?_
      rw [hfind, if_neg (hcounted d (mem_liveDigests.mp hd))]
    have hnone : orphansOf (store.exec (.fsck true) s).2 = [] := by
      refine List.eq_nil_iff_forall_not_mem.mpr fun k hk ↦ ?_
      obtain ⟨-, hdig, hsome, hno⟩ := mem_orphansOf.mp hk
      rw [hfields] at hno
      rw [hfind] at hsome
      split at hsome
      · cases hsome
      · rename_i hk'
        exact hk' ((horphan k).mpr ⟨hdig, hsome, hno⟩)
    rw [(exec_fsck repair _).1, hmissing, hnone]
    cases repair <;> rfl
  · rw [exec_read_eq, exec_read_eq]
    refine congrArg (Except.map Reply.bytes)
      (readFile_congr (by rw [hfields]) fun digests hd d hmem ↦ ?_)
    rw [hfind, if_neg (hcounted d (hr.isSome_of_mem hd hmem))]

/-- A fresh store next to which somebody has put a blob under the digest of `a`. -/
def foreign : State :=
  (smallStore.exec .reopen (.empty true)).2.put (digestHex smallStore.crates.sha256 [0x61]) [0x62]

private theorem reached_foreign : smallStore.Reached foreign :=
  .put .start _ _ (offManifest_of_isChunkDigest (isChunkDigest_digestHex _ _))
    (offRefcount_of_isChunkDigest (isChunkDigest_digestHex _ _))

theorem fsck_exact_foreign :
    (smallStore.exec (.fsck true) foreign).2.find (digestHex smallStore.crates.sha256 [0x61])
      = none := by
  obtain ⟨_, orphans, -, horphans, -, hrepair, -⟩ := fsck_exact smallStore foreign reached_foreign
  rw [hrepair.2.2, if_pos]
  exact (horphans.2 _).mpr ⟨isChunkDigest_digestHex _ _, by decide +kernel, by decide +kernel⟩

end ChunkStore

end Chunkstore

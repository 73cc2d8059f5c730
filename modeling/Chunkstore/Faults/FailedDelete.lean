import Chunkstore.Exact.Runs
import Chunkstore.Faults.Interrupted

/-!
# Deletes that fail

A delete takes the file out of the live manifest first. When one of its backend calls fails it gives
up, and what it had still to do is known to nobody: a second delete does not find the file. So
whether the store ends up as after a delete that did not fail is whether the failing call came after
everything that matters, and nearly every call is followed by something that does.

## Main result

* `ChunkStore.failed_delete_retried`: the second delete never completes the first, and exactly one
  failing call leaves nothing to complete.
-/

open Effects Program

namespace Chunkstore

/-! ## One stop among many -/

/-- `P` holds at no place of a list, but at the last one if `C` does. -/
def OnlyLast {α : Type} (P : α → Prop) (C : Prop) (l : List α) : Prop :=
  ∀ (k : ℕ) (hk : k < l.length), P l[k] ↔ C ∧ k + 1 = l.length

section OnlyLast

variable {α : Type} {P : α → Prop} {C C' : Prop} {l l' : List α} {a : α}

theorem onlyLast_of_not (hl : ∀ a ∈ l, ¬P a) (hC : ¬C) : OnlyLast P C l := fun _ _ ↦
  iff_of_false (hl _ (List.getElem_mem _)) fun h ↦ hC h.1

theorem OnlyLast.congr (h : OnlyLast P C l) (hC : C ↔ C') : OnlyLast P C' l := fun k hk ↦
  (h k hk).trans (and_congr_left fun _ ↦ hC)

theorem OnlyLast.append (hl : ∀ a ∈ l, ¬P a) (hne : l' ≠ []) (h : OnlyLast P C l') :
    OnlyLast P C (l ++ l') := by
  intro k hk
  have hpos := List.length_pos_iff.mpr hne
  by_cases hkl : k < l.length
  · rw [List.getElem_append_left hkl, List.length_append]
    exact iff_of_false (hl _ (List.getElem_mem _)) fun h' ↦ by omega
  · have hkl' : k - l.length < l'.length := by
      rw [List.length_append] at hk
      omega
    rw [List.getElem_append_right (Nat.le_of_not_lt hkl), h _ hkl', List.length_append]
    exact and_congr_right fun _ ↦ by omega

theorem onlyLast_concat (hl : ∀ a ∈ l, ¬P a) (ha : P a ↔ C) : OnlyLast P C (l ++ [a]) := by
  refine OnlyLast.append hl (List.cons_ne_nil a []) fun k hk ↦ ?_
  obtain rfl : k = 0 := Nat.lt_one_iff.mp hk
  exact ha.trans (and_iff_left rfl).symm

end OnlyLast

/-! ## Releasing a reference -/

section Release

variable {store : ChunkStore} {seen : Bytes → Prop} {pin : Option Pin} {held : String → ℕ}
  {s s₁ : State} {digest : String} {digests : List String} {r : ChunkRef}

def RefCount.recordedSize (rc : RefCount) (digest : String) : ℕ := (rc.sizeOf digest).getD 0

theorem RefCount.recordedSize_of_find {rc : RefCount} (hr : rc.counts.find digest = some r) :
    rc.recordedSize digest = r.size := by
  rw [recordedSize, sizeOf, hr]
  rfl

private theorem givesUp_chunkSize (digest : String) :
    GivesUp (flat (store.chunkSize digest)).run := by
  simp only [ChunkStore.chunkSize, flat_bind, flat_locked, flat_ite, flat_pure, flat_unlocked]
  refine givesUp_bind (givesUp_field _) fun size ↦ givesUp_ite _ (givesUp_pure _) ?_
  refine givesUp_bind (givesUp_backendCall _) fun raw ↦ ?_
  cases raw with
  | none => exact givesUp_throw _
  | some raw =>
    rw [flat_bind, flat_ofExcept]
    exact givesUp_bind (givesUp_ofExcept _) fun _ ↦ givesUp_pure _

theorem givesUp_readStringList (crates : Crates) (key : String) :
    GivesUp (readStringList crates key).run := by
  refine givesUp_bind (givesUp_backendCall _) fun raw ↦ ?_
  cases raw with
  | none => exact givesUp_pure _
  | some raw =>
    dsimp only
    cases crates.serde.stringsFromSlice raw with
    | ok l => exact givesUp_pure _
    | error e => exact givesUp_throw _

private theorem givesUp_releaseDigest (digest : String) :
    GivesUp (flat (store.releaseDigest digest)).run := by
  simp only [ChunkStore.releaseDigest, flat_bind, flat_locked, flat_ite, flat_unlocked]
  refine givesUp_bind (givesUp_chunkSize digest) fun size ↦
    givesUp_bind (givesUp_fieldOrThrow _) fun remaining ↦ givesUp_ite _ ?_ ?_
  · refine givesUp_bind (givesUp_backendCall _) fun _ ↦ givesUp_bind ?_ fun _ ↦
      givesUp_bind (givesUp_field _) fun _ ↦ givesUp_field _
    exact givesUp_bind (givesUp_backendCall _) fun _ ↦
      givesUp_bind (givesUp_readStringList _ _) fun _ ↦ givesUp_backendCall _
  · refine givesUp_bind (givesUp_bind (givesUp_ofExcept _) fun _ ↦ givesUp_bind
      (givesUp_backendCall _) fun _ ↦ givesUp_bind (givesUp_readStringList _ _) fun _ ↦ ?_)
      fun _ ↦ givesUp_field _
    exact givesUp_ite _ (givesUp_pure _) (givesUp_backendCall _)

private theorem givesUp_releaseDigests (digests : List String) :
    GivesUp (flat (store.releaseDigests digests)).run := by
  induction digests with
  | nil => exact givesUp_pure _
  | cons d digests ih =>
    rw [ChunkStore.releaseDigests, flat_bind]
    exact givesUp_bind (givesUp_releaseDigest d) fun _ ↦ ih

theorem givesUp_delete (fileId : String) : GivesUp (flat (store.delete fileId)).run := by
  simp only [ChunkStore.delete, flat_bind, flat_locked, flat_unlocked]
  refine givesUp_bind (givesUp_fieldOrThrow _) fun digests ↦
    givesUp_bind ?_ fun _ ↦ givesUp_releaseDigests digests
  exact givesUp_bind (givesUp_backendCall _) fun _ ↦
    givesUp_bind (givesUp_readStringList _ _) fun _ ↦ givesUp_backendCall _

/-- The size of a counted chunk is the one recorded, looked up in the blob when that is zero. -/
theorem walks_chunkSize (h : Rep store seen pin held s)
    (hr : s.fields.refcount.counts.find digest = some r) :
    Walks (flat (store.chunkSize digest)) s r.size s (if 0 < r.size then [] else [s]) := by
  have hsize : s.fields.refcount.sizeOf digest = some r.size := by
    rw [RefCount.sizeOf, hr]
    rfl
  simp only [ChunkStore.chunkSize, flat_bind, flat_locked, flat_ite, flat_pure, flat_unlocked]
  rw [← List.nil_append (if 0 < r.size then [] else [s])]
  refine (Walks.access (.refcountSizeOf digest) s).bind ?_
  dsimp only [FieldAccess.run]
  rw [hsize, Option.getD_some, State.withFields_fields]
  by_cases h0 : 0 < r.size
  · rw [if_pos h0, if_pos h0]
    exact Walks.pure _ _
  · rw [if_neg h0, if_neg h0]
    have hzero : r.size = 0 := Nat.eq_zero_of_not_pos h0
    obtain ⟨-, raw, -, hraw⟩ := h.blob_of_pos (h.refcount.countOf_pos hr)
    refine (Walks.get digest s).bind ?_
    rw [hraw]
    dsimp only
    rw [flat_bind, flat_ofExcept, h.blobs.empty digest r raw hr hzero hraw, ofExcept_ok, pure_bind,
      hzero]
    exact Walks.pure _ _

theorem Walks.spec {α : Type} {p : BackendM α} {a : α} {l : List State} {Q : α → State → Prop}
    {R : ChunkStoreError → State → Prop} (hw : Walks p s a s₁ l) (h : quietly p Q R s) :
    Q a s₁ := by
  have hspec := quietly_eval h
  rw [hw.eval] at hspec
  exact hspec

theorem Rep.of_walks {l : List State} (h : Rep store seen pin (plusOne held digest) s)
    (hw : Walks (flat (store.releaseDigest digest)) s () s₁ l) :
    Rep store seen pin held s₁ ∧ s₁.fields.manifest = s.fields.manifest :=
  hw.spec (precisely_releaseDigest (R := fun _ _ ↦ False) h).quietly

theorem eq_of_mem_pre {n : ℕ} {x : State} (hx : x ∈ if 0 < n then [] else [s]) : x = s := by
  split at hx
  · exact absurd hx List.not_mem_nil
  · exact List.mem_singleton.mp hx

/-- What releasing a reference does, and in which states it calls the backend. -/
structure Releases (store : ChunkStore) (digest : String) (r : ChunkRef) (s s₁ : State)
    (l : List State) : Prop where
  walks : Walks (flat (store.releaseDigest digest)) s () s₁ l
  calls : l ≠ []
  refcount : s₁.fields.refcount.counts = if r.count - 1 = 0
    then s.fields.refcount.counts.unset digest
    else s.fields.refcount.counts.set digest ⟨r.count - 1, r.size⟩
  total : s₁.fields.stats.totalBytes = s.fields.stats.totalBytes - r.size
  tables : ∀ t ∈ l, t.fields.refcount = s.fields.refcount ∨ t.fields.refcount = s₁.fields.refcount
  only : OnlyLast (Alike s₁)
    (1 < r.count ∧ (r.size = 0 ∨ s.fields.stats.totalBytes = 0)) l

/-- **The last reference**: whatever call fails, something is left. -/
theorem releases_last (h : Rep store seen pin (plusOne held digest) s)
    (hr : s.fields.refcount.counts.find digest = some r) (h1 : r.count = 1) :
    ∃ s₁ l, Releases store digest r s s₁ l := by
  obtain ⟨hd, -⟩ := h.refcount.valid digest r hr
  have hne : digest ≠ indexName := ne_of_isChunkDigest hd isChunkDigest_indexName
  obtain ⟨index, hindex, -, hmem⟩ := h.refcount.index
  have h0 : r.count - 1 = 0 := by omega
  have hdec := RefCount.decrement_of_find hr
  rw [if_pos h0, h0] at hdec
  -- after the decrement, after each of the three writes, and at the end
  set t :=
    s.withFields { s.fields with refcount := ⟨s.fields.refcount.counts.unset digest⟩ } with ht
  set u := t.del digest with hu
  set v := u.del (refcountKey digest) with hv
  set w := v.put refcountIndexKey (store.crates.serde.stringsToVec (index.filter (· ≠ digest)))
    with hw
  set w' := w.withFields { w.fields with stats := w.fields.stats.removeUniqueChunk r.size } with hw'
  set s₁ :=
    w'.withFields { w'.fields with stats := w'.fields.stats.removeReference r.size } with hs₁
  have hwalk : Walks (flat (store.releaseDigest digest)) s () s₁
      ((if 0 < r.size then [] else [s]) ++ [t, u, v, v]) := by
    simp only [ChunkStore.releaseDigest, flat_bind, flat_locked, flat_ite, flat_unlocked]
    refine (walks_chunkSize h hr).bind ?_
    have hrun : (FieldAccess.run (.refcountDecrement digest) s.fields) = (.ok 0, t.fields) := by
      rw [FieldAccess.run, hdec]
      rfl
    rw [← List.nil_append [t, u, v, v]]
    refine (Walks.accessOrThrow (congrArg Prod.fst hrun)).bind ?_
    rw [if_pos rfl, hrun]
    have hindex' : readIndex store.crates u refcountIndexKey = some index :=
      (readIndex_congr (State.find_del_ne (ne_of_isChunkDigest hd
        isChunkDigest_refcountIndexKey).symm)).trans hindex
    rw [show [t, u, v, v] = [t] ++ [u, v, v] from rfl]
    refine (Walks.delete digest t).bind ?_
    rw [← List.append_nil [u, v, v]]
    refine (Walks.unlist (refcountKey_ne_indexKey hne).symm hindex').bind ?_
    rw [← List.nil_append []]
    refine (Walks.access (.statsRemoveUniqueChunk r.size) w).bind ?_
    exact Walks.access (.statsRemoveReference r.size) w'
  have hrep := (h.of_walks hwalk).1
  have hnone : s₁.fields.refcount.counts.find digest = none := Table.find_unset_self _ _
  refine ⟨s₁, _, hwalk, List.append_ne_nil_of_right_ne_nil _ (List.cons_ne_nil _ _), ?_, ?_,
    fun x hx ↦ ?_, onlyLast_of_not (fun x hx halike ↦ ?_) ?_⟩
  · rw [if_pos h0]
    rfl
  · rfl
  · rcases List.mem_append.mp hx with hx | hx
    · exact Or.inl (congrArg (·.fields.refcount) (eq_of_mem_pre hx))
    · right
      simp only [List.mem_cons, List.not_mem_nil, or_false] at hx
      rcases hx with rfl | rfl | rfl | rfl <;> rfl
  · rcases List.mem_append.mp hx with hx | hx
    · -- before the decrement there is an entry
      have hrefs := halike.refs digest
      rw [eq_of_mem_pre hx, hr, hnone] at hrefs
      cases hrefs
    · simp only [List.mem_cons, List.not_mem_nil, or_false, or_self] at hx
      rcases hx with rfl | rfl | rfl
      · -- before the first write there is a blob
        have hblob : (t.find digest).isSome = true :=
          (h.blobs.present digest hd).trans (congrArg Option.isSome hr)
        rw [halike.find, hrep.blobs.present digest hd, hnone] at hblob
        cases hblob
      · -- before the second one there is a record
        have hrec : u.find (refcountKey digest) = s.find (refcountKey digest) :=
          State.find_del_ne (ne_of_isChunkDigest hd (isChunkDigest_refcountKey digest)).symm
        rw [halike.find, h.refcount.record digest hne, hrep.refcount.record digest hne, hr,
          hnone] at hrec
        cases hrec
      · -- before the last one the digest is listed
        obtain ⟨index', hindex', -, hmem'⟩ := hrep.refcount.index
        have hv : readIndex store.crates v refcountIndexKey = some index :=
          (readIndex_congr ((State.find_del_ne (refcountKey_ne_indexKey hne).symm).trans
            (State.find_del_ne (ne_of_isChunkDigest hd isChunkDigest_refcountIndexKey).symm))).trans
              hindex
        rw [readIndex_congr (halike.find _), hindex'] at hv
        have hlisted := (hmem' digest).mp (Option.some.inj hv ▸ (hmem digest).mpr (by rw [hr]; rfl))
        rw [hnone] at hlisted
        cases hlisted
  · omega

/-- **One of several references**: all that may be left is the total. -/
theorem releases_more (h : Rep store seen pin (plusOne held digest) s)
    (hr : s.fields.refcount.counts.find digest = some r) (h1 : 1 < r.count) :
    ∃ s₁ l, Releases store digest r s s₁ l := by
  obtain ⟨hd, -⟩ := h.refcount.valid digest r hr
  have hne : digest ≠ indexName := ne_of_isChunkDigest hd isChunkDigest_indexName
  obtain ⟨index, hindex, -, hmem⟩ := h.refcount.index
  have hin : digest ∈ index := (hmem digest).mpr (by rw [hr]; rfl)
  have h0 : r.count - 1 ≠ 0 := by omega
  have hdec := RefCount.decrement_of_find hr
  rw [if_neg h0] at hdec
  -- after the decrement, after the record was put, and at the end
  set t := s.withFields { s.fields with refcount := ⟨s.fields.refcount.counts.set digest
    ⟨r.count - 1, r.size⟩⟩ } with ht
  set u :=
    t.put (refcountKey digest) (store.crates.serde.refcountToVec ⟨r.count - 1, r.size⟩) with hu
  have hwalk : Walks (flat (store.releaseDigest digest)) s ()
      (u.withFields { u.fields with stats := u.fields.stats.removeReference r.size })
      (((if 0 < r.size then [] else [s]) ++ [t]) ++ [u]) := by
    simp only [ChunkStore.releaseDigest, flat_bind, flat_locked, flat_ite, flat_unlocked]
    rw [List.append_assoc]
    refine (walks_chunkSize h hr).bind ?_
    have hrun : (FieldAccess.run (.refcountDecrement digest) s.fields)
        = (.ok (r.count - 1), t.fields) := by
      rw [FieldAccess.run, hdec]
      rfl
    rw [← List.nil_append ([t] ++ [u])]
    refine (Walks.accessOrThrow (congrArg Prod.fst hrun)).bind ?_
    rw [if_neg h0, hrun, ← List.append_nil ([t] ++ [u])]
    have hindex' : readIndex store.crates t refcountIndexKey = some index := hindex
    refine (Walks.saveRefcount hd hindex' hin).bind ?_
    exact Walks.access (.statsRemoveReference r.size) u
  refine ⟨_, _, hwalk, List.append_ne_nil_of_right_ne_nil _ (List.cons_ne_nil _ _), ?_, rfl,
    fun x hx ↦ ?_, onlyLast_concat (fun x hx halike ↦ ?_) ?_⟩
  · rw [if_neg h0]
    rfl
  · rcases List.mem_append.mp hx with hx | hx
    · rcases List.mem_append.mp hx with hx | hx
      · exact Or.inl (congrArg (·.fields.refcount) (eq_of_mem_pre hx))
      · exact Or.inr (congrArg (·.fields.refcount) (List.mem_singleton.mp hx))
    · exact Or.inr (congrArg (·.fields.refcount) (List.mem_singleton.mp hx))
  · rcases List.mem_append.mp hx with hx | hx
    · -- before the decrement the count differs
      have hrefs := halike.refs digest
      rw [eq_of_mem_pre hx, hr] at hrefs
      have hcount :=
        congrArg ChunkRef.count (Option.some.inj (hrefs.trans (Table.find_set_self _ _ _)))
      dsimp only at hcount
      omega
    · -- before the put the record differs
      have hrec := h.refcount.record digest hne
      have hfind := halike.find (refcountKey digest)
      rw [List.mem_singleton.mp hx] at hfind
      rw [hr, Option.map_some] at hrec
      have hvec := Option.some.inj (hrec.symm.trans (hfind.trans (State.find_put_self _ _ _)))
      have hback := congrArg store.crates.serde.refcountFromSlice hvec
      rw [store.crates.serde.refcount_roundtrip, store.crates.serde.refcount_roundtrip] at hback
      have hcount : r.count = r.count - 1 := by
        injection hback with hback
        injection hback with hback
        exact congrArg RefCountRecord.count hback
      omega
  · constructor
    · intro halike
      have htotal : s.fields.stats.totalBytes = s.fields.stats.totalBytes - r.size := halike.total
      exact ⟨h1, by omega⟩
    · rintro ⟨-, hzero⟩
      refine ⟨fun _ ↦ rfl, fun _ ↦ rfl, fun _ ↦ rfl, fun _ ↦ rfl, ?_, rfl⟩
      change s.fields.stats.totalBytes = s.fields.stats.totalBytes - r.size
      omega

theorem exists_releases (h : Rep store seen pin (plusOne held digest) s) :
    ∃ r s₁ l, s.fields.refcount.counts.find digest = some r ∧ Releases store digest r s s₁ l := by
  have hpos : 0 < s.fields.refcount.countOf digest := by
    rw [h.counted, plusOne, if_pos rfl]
    omega
  obtain ⟨r, hr⟩ := RefcountSynced.find_of_pos hpos
  have hcount := (h.refcount.valid digest r hr).2
  by_cases h1 : r.count = 1
  · obtain ⟨s₁, l, hrel⟩ := releases_last h hr h1
    exact ⟨r, s₁, l, hr, hrel⟩
  · obtain ⟨s₁, l, hrel⟩ := releases_more h hr (by omega)
    exact ⟨r, s₁, l, hr, hrel⟩

/-! ## Releasing a list -/

/-- The last digest of a list keeps a reference, and the total would not get any smaller with it. -/
def LastIsFree (s : State) (digests : List String) : Prop :=
  ∃ others digest, digests = others ++ [digest] ∧
    others.count digest + 1 < s.fields.refcount.countOf digest ∧
    (s.fields.refcount.recordedSize digest = 0 ∨
      s.fields.stats.totalBytes ≤ (others.map s.fields.refcount.recordedSize).sum)

theorem lastIsFree_congr (hr : s₁.fields.refcount = s.fields.refcount)
    (hs : s₁.fields.stats = s.fields.stats) : LastIsFree s₁ digests ↔ LastIsFree s digests := by
  rw [LastIsFree, LastIsFree, hr, hs]

private theorem lastIsFree_singleton (hr : s.fields.refcount.counts.find digest = some r) :
    (1 < r.count ∧ (r.size = 0 ∨ s.fields.stats.totalBytes = 0)) ↔ LastIsFree s [digest] := by
  have hsize := RefCount.recordedSize_of_find hr
  have hcount := RefCount.countOf_of_find hr
  constructor
  · rintro ⟨h1, h0⟩
    refine ⟨[], digest, rfl, ?_, ?_⟩
    · rw [hcount]
      exact h1
    · rw [hsize]
      exact h0.imp_right fun h ↦ h.le
  · rintro ⟨others, d, hd, h1, h0⟩
    obtain ⟨rfl, rfl⟩ : others = [] ∧ digest = d := by
      cases others with
      | nil => exact ⟨rfl, List.cons.inj hd |>.1⟩
      | cons o others => exact absurd (List.cons.inj hd).2.symm (by simp)
    rw [hcount] at h1
    rw [hsize] at h0
    exact ⟨h1, h0.imp_right Nat.le_zero.mp⟩

private theorem lastIsFree_cons {l : List State} (hrel : Releases store digest r s s₁ l)
    (hr : s.fields.refcount.counts.find digest = some r) (hpos : 0 < r.count)
    (hcounted : ∀ d ∈ digests, 0 < s₁.fields.refcount.countOf d) (hne : digests ≠ []) :
    LastIsFree s₁ digests ↔ LastIsFree s (digest :: digests) := by
  have hcount : ∀ d, s.fields.refcount.countOf d
      = s₁.fields.refcount.countOf d + if d = digest then 1 else 0 := fun d ↦ by
    have hc := hrel.refcount
    by_cases hd : d = digest
    · rw [if_pos hd, hd, RefCount.countOf_of_find hr]
      split at hc
      · rw [RefCount.countOf_of_counts_unset hc, if_pos rfl]
        omega
      · rw [RefCount.countOf_of_counts_set hc, if_pos rfl]
        omega
    · rw [if_neg hd]
      split at hc
      · rw [RefCount.countOf_of_counts_unset hc, if_neg hd, Nat.add_zero]
      · rw [RefCount.countOf_of_counts_set hc, if_neg hd, Nat.add_zero]
  have hcons : ∀ (others : List String) d, (digest :: others).count d
      = others.count d + if d = digest then 1 else 0 := fun others d ↦ by
    rw [List.count_cons]
    exact congrArg _ (if_congr (beq_iff_eq.trans eq_comm) rfl rfl)
  have hsize : ∀ d ∈ digests, s₁.fields.refcount.recordedSize d
      = s.fields.refcount.recordedSize d := fun d hmem ↦ by
    have hc := hrel.refcount
    by_cases hd : d = digest
    · have hp := hcounted d hmem
      split at hc
      · rw [RefCount.countOf_of_counts_unset hc, if_pos hd] at hp
        exact absurd hp (Nat.lt_irrefl 0)
      · rw [hd, RefCount.recordedSize_of_find hr]
        exact RefCount.recordedSize_of_find (r := ⟨r.count - 1, r.size⟩)
          (by rw [hc, Table.find_set_self])
    · rw [RefCount.recordedSize, RefCount.recordedSize, RefCount.sizeOf, RefCount.sizeOf]
      split at hc
      · rw [hc, Table.find_unset_ne hd]
      · rw [hc, Table.find_set_ne hd]
  have hsum : ∀ others : List String, (∀ d ∈ others, d ∈ digests) →
      (s.fields.stats.totalBytes ≤ ((digest :: others).map s.fields.refcount.recordedSize).sum ↔
        s₁.fields.stats.totalBytes ≤ (others.map s₁.fields.refcount.recordedSize).sum) :=
    fun others hsub ↦ by
      rw [hrel.total, List.map_cons, List.sum_cons, RefCount.recordedSize_of_find hr,
        List.map_congr_left fun d hd ↦ hsize d (hsub d hd)]
      omega
  constructor
  · rintro ⟨others, d, rfl, h1, h0⟩
    refine ⟨digest :: others, d, rfl, ?_, ?_⟩
    · rw [hcount, hcons]
      omega
    · rw [← hsize d (List.mem_append_right _ (List.mem_singleton_self d)),
        hsum others fun o ho ↦ List.mem_append_left _ ho]
      exact h0
  · rintro ⟨others, d, hd, h1, h0⟩
    cases others with
    | nil => exact absurd (List.cons.inj hd).2 hne
    | cons o others =>
      obtain ⟨rfl, rfl⟩ := List.cons.inj hd
      refine ⟨others, d, rfl, ?_, ?_⟩
      · rw [hcount, hcons] at h1
        omega
      · rw [← hsize d (List.mem_append_right _ (List.mem_singleton_self d)),
          hsum others fun o ho ↦ List.mem_append_left _ ho] at h0
        exact h0

/-- **Releasing a list**: whichever call fails, something is left, except for the last one of a list
whose last digest is free. -/
theorem walks_releaseDigests (h : Rep store seen pin (plusList held digests) s) :
    ∃ s' l, Walks (flat (store.releaseDigests digests)) s () s' l ∧ (digests ≠ [] → l ≠ []) ∧
      OnlyLast (Alike s') (LastIsFree s digests) l := by
  induction digests generalizing s with
  | nil =>
    exact ⟨s, [], Walks.pure () s, fun hne ↦ absurd rfl hne,
      fun k hk ↦ absurd hk (Nat.not_lt_zero k)⟩
  | cons d ds ih =>
    rw [plusList_cons] at h
    obtain ⟨r, s₁, l₁, hr, hrel⟩ := exists_releases h
    obtain ⟨h₁, hm₁⟩ := h.of_walks hrel.walks
    obtain ⟨s', l₂, hwalk, hcalls, honly⟩ := ih h₁
    refine ⟨s', l₁ ++ l₂, ?_, fun _ ↦ List.append_ne_nil_of_left_ne_nil hrel.calls l₂, ?_⟩
    · rw [ChunkStore.releaseDigests, flat_bind]
      exact hrel.walks.bind hwalk
    by_cases hne : ds = []
    · subst hne
      obtain ⟨heval, hstops⟩ := hwalk
      obtain rfl : s₁ = s' := (Prod.mk.inj heval).2
      obtain rfl : [] = l₂ := hstops
      rw [List.append_nil]
      exact hrel.only.congr (lastIsFree_singleton hr)
    · have hcounted : ∀ e ∈ ds, held e < s₁.fields.refcount.countOf e := fun e he ↦ by
        have hpos := List.count_pos_iff.mpr he
        rw [h₁.counted, plusList]
        omega
      refine (OnlyLast.append (fun t ht halike ↦ ?_) (hcalls hne) honly).congr
        (lastIsFree_cons hrel hr (h.refcount.valid d r hr).2
          (fun e he ↦ Nat.zero_lt_of_lt (hcounted e he)) hne)
      -- the next digest has not been released yet
      obtain ⟨e, ds', rfl⟩ := List.exists_cons_of_ne_nil hne
      obtain ⟨h', hm'⟩ := hwalk.spec (precisely_releaseDigests (R := fun _ _ ↦ False) _ h₁).quietly
      have ht' : s'.fields.refcount.countOf e = t.fields.refcount.countOf e := by
        rw [RefCount.countOf_eq, RefCount.countOf_eq, halike.refs]
      have hfinal := h'.counted e
      have hnext := h₁.counted e
      have hstart := h.counted e
      have hcons : (e :: ds').count e = ds'.count e + 1 := List.count_cons_self
      rw [plusOne, plusList] at hstart
      rw [plusList] at hnext
      rw [hm', hm₁] at hfinal
      rw [hm₁] at hnext
      rcases hrel.tables t ht with htab | htab
      · rw [htab] at ht'
        omega
      · rw [htab] at ht'
        omega

end Release

/-! ## Deletes -/

/-- A request that puts nothing into the manifest. -/
def Call.Sparing {γ : Type} : Call γ → Prop
  | .field (.construct _ _) => False
  | .field (.manifestInsert _ _ _) => False
  | _ => True

theorem Call.Storing.sparing {γ : Type} {c : Call γ} (h : c.Storing) : c.Sparing := by
  cases c with
  | backend c => trivial
  | field a => cases a <;> trivial

/-- There is nothing about the file in the manifest. -/
def Manifest.Lacks (m : Manifest) (fileId : String) : Prop :=
  m.files.find fileId = none ∧ m.fileBytes.find fileId = none

private theorem Manifest.Lacks.remove {m : Manifest} {fileId : String} (h : m.Lacks fileId)
    (g : String) :
    (m.remove g).2.Lacks fileId := by
  refine ⟨(Table.find_unset _ _ _).trans ?_, (Table.find_unset _ _ _).trans ?_⟩
  · rw [h.1, ite_self]
  · rw [h.2, ite_self]

theorem lacks_handle {fileId : String} {γ : Type} (c : Call γ) (s : State) (hc : c.Sparing)
    (h : s.fields.manifest.Lacks fileId) :
    (callHandler.handle c s).2.fields.manifest.Lacks fileId := by
  cases c with
  | backend c => exact h
  | field a =>
    cases a with
    | construct m rc => exact hc.elim
    | manifestInsert f ds n => exact hc.elim
    | manifestRemove g => exact h.remove g
    | refcountIncrement d n =>
      rw [callHandler]
      dsimp only
      rw [FieldAccess.run]
      cases s.fields.refcount.increment d n <;> exact h
    | refcountDecrement d =>
      rw [callHandler]
      dsimp only
      rw [FieldAccess.run]
      cases s.fields.refcount.decrement d <;> exact h
    | _ => exact h

namespace ChunkStore

variable (self : ChunkStore)

/-- What an operation returns, and leaves, when its backend call number `k` fails with `e`, without
effect. -/
def execFailing (e : ChunkStoreError) (op : Op) (k : ℕ) (s : State) :
    Except ChunkStoreError Reply × State := evalFailing e (flat (self.perform op)).run k s

/-- How many backend calls an operation makes when none fails. -/
def callsOf (op : Op) (s : State) : ℕ := (stops (flat (self.perform op)).run s).length

variable {self} {store : ChunkStore} {s : State} {fileId : String} {digests : List String}

private theorem sparing_releaseDigests (digests : List String) :
    Makes Call.Sparing (flat (store.releaseDigests digests)) := by
  induction digests with
  | nil => exact makes_pure _
  | cons d digests ih =>
    rw [releaseDigests, flat_bind]
    refine Makes.bind ?_ fun _ ↦ ih
    simp only [releaseDigest, flat_bind, flat_locked, flat_ite, flat_unlocked]
    refine Makes.bind ((makes_chunkSize store d).mono fun _ h ↦ h.sparing) fun size ↦
      (makes_fieldOrThrow trivial).bind fun remaining ↦ makes_ite ?_ ?_
    · exact (makes_backendCall trivial).bind fun _ ↦
        ((confined_removeRefcount (K := fun _ ↦ True) trivial trivial).mono
          fun _ h ↦ h.storing.sparing).bind fun _ ↦
            (makes_field trivial).bind fun _ ↦ makes_field trivial
    · exact ((confined_saveRefcount (K := fun _ ↦ True) trivial trivial).mono
        fun _ h ↦ h.storing.sparing).bind fun _ ↦ makes_field trivial

/-- Wherever a delete stops, the file is not in the manifest any more. -/
private theorem lacks_of_mem_stops {t : State}
    (ht : t ∈ stops (flat (store.perform (.delete fileId))).run s) :
    t.fields.manifest.Lacks fileId := by
  have hlacks : (s.fields.manifest.remove fileId).2.Lacks fileId :=
    ⟨Table.find_unset_self _ _, Table.find_unset_self _ _⟩
  have hrest : ∀ digests, Makes Call.Sparing (do
      removeManifest store.crates fileId
      flat (store.releaseDigests digests)) := fun digests ↦
    ((confined_removeManifest (K := fun _ ↦ True) trivial trivial).mono
      fun _ h ↦ h.storing.sparing).bind fun _ ↦ sparing_releaseDigests digests
  rw [perform, flat_map, stops_map] at ht
  simp only [delete, flat_bind, flat_locked, flat_unlocked] at ht
  rw [ExceptT.run_bind, stops_bind] at ht
  refine forall_mem_stops (I := fun t ↦ t.fields.manifest.Lacks fileId) (P := Call.Sparing) ?_
    (fun c s hc h ↦ lacks_handle c s hc h) hlacks t ht
  generalize (callHandler.eval (fieldOrThrow (.manifestRemove fileId)).run s).1 = r
  cases r with
  | ok digests => exact hrest digests
  | error e => trivial

theorem exec_delete_of_lacks (h : s.fields.manifest.Lacks fileId) :
    store.exec (.delete fileId) s = (.error (.notFound s!"file {fileId}"), s) := by
  have hremove : s.fields.manifest.remove fileId
      = (.error (.notFound s!"file {fileId}"), s.fields.manifest) := by
    rw [Manifest.remove, Manifest.get, h.1, Table.unset_of_find_none h.1,
      Table.unset_of_find_none h.2]
  have hrun : FieldAccess.run (.manifestRemove fileId) s.fields
      = (.error (.notFound s!"file {fileId}"), s.fields) := by rw [FieldAccess.run, hremove]
  have hfield : callHandler.eval (fieldOrThrow (.manifestRemove fileId)).run s
      = (.error (.notFound s!"file {fileId}"), s) := by
    change ((FieldAccess.run (.manifestRemove fileId) s.fields).1,
      s.withFields (FieldAccess.run (.manifestRemove fileId) s.fields).2) = _
    rw [hrun, State.withFields_fields]
  rw [exec, perform, flat_map, map_eq_pure_bind]
  simp only [delete, flat_bind, flat_locked, flat_unlocked, bind_assoc]
  rw [ExceptT.run_bind, Handler.eval_bind, hfield]
  rfl

variable {seen : Bytes → Prop} {held : String → ℕ}

/-- **A delete**: whichever call fails, something is left, except for the last one of a list whose
last digest is free. -/
theorem walks_delete (h : Rep store seen none held s)
    (hget : s.fields.manifest.tryGet fileId = some digests) :
    ∃ s' l, Walks (flat (store.delete fileId)) s () s' l ∧
      OnlyLast (Alike s') (LastIsFree s digests) l := by
  have hname := (h.manifest.name fileId (by rw [hget]; rfl)).2
  obtain ⟨index, hindex, -, hmem⟩ := h.manifest.index
  have hlisted : fileId ∈ index := (hmem fileId).mpr (by rw [hget]; rfl)
  -- after the removal, and after the deletion of the record
  set t := s.withFields { s.fields with manifest := (s.fields.manifest.remove fileId).2 } with ht
  set u := t.del (manifestKey fileId) with hu
  have hfirst : Walks (removeManifest store.crates fileId) t () _ [t, u, u] :=
    Walks.unlist (manifestKey_ne_indexKey hname).symm hindex
  obtain ⟨h₁, hf₁⟩ := hfirst.spec (quietly_removeManifest_rep (R := fun _ _ ↦ False) h
    (fun p hp ↦ by cases hp) hget)
  obtain ⟨s', l, hrest, hcalls, honly⟩ := walks_releaseDigests h₁
  have hwalk : Walks (flat (store.delete fileId)) s () s' ([t, u, u] ++ l) := by
    simp only [delete, flat_bind, flat_locked, flat_unlocked]
    have hremove : (FieldAccess.run (.manifestRemove fileId) s.fields).1 = .ok digests := by
      rw [Manifest.tryGet] at hget
      rw [FieldAccess.run, Manifest.remove, Manifest.get, hget]
    rw [← List.nil_append ([t, u, u] ++ l)]
    exact (Walks.accessOrThrow hremove).bind (hfirst.bind hrest)
  obtain ⟨-, h', hm'⟩ := hwalk.spec (precisely_deleteFile h fun p hp ↦ by cases hp).quietly
  have hleft : ∀ x ∈ [t, u, u], ¬Alike s' x := fun x hx halike ↦ by
    -- until the last call the file is listed
    obtain ⟨index', hindex', -, hmem'⟩ := h'.manifest.index
    have hx' : readIndex store.crates x manifestIndexKey = some index := by
      simp only [List.mem_cons, List.not_mem_nil, or_false, or_self] at hx
      rcases hx with rfl | rfl
      · exact hindex
      · exact (readIndex_congr (State.find_del_ne (manifestKey_ne_indexKey hname).symm)).trans
          hindex
    rw [readIndex_congr (halike.find _), hindex'] at hx'
    have hsome := (hmem' fileId).mp (Option.some.inj hx' ▸ hlisted)
    rw [hm', Manifest.tryGet] at hsome
    exact absurd (hsome.symm.trans (congrArg Option.isSome (Table.find_unset_self _ _)))
      (by decide)
  refine ⟨s', _, hwalk, ?_⟩
  by_cases hne : digests = []
  · subst hne
    obtain rfl : [] = l := hrest.stops
    refine onlyLast_of_not hleft ?_
    rintro ⟨others, d, hd, -⟩
    exact absurd hd.symm (by simp)
  · exact (honly.congr (lastIsFree_congr (by rw [hf₁]) (by rw [hf₁]))).append hleft (hcalls hne)

/-- **A failed delete is never completed by a second one.** In every state, for every file that is
stored and every backend call of its delete, when that call fails: the delete throws, and a second
delete finds no such file and changes nothing. So, in a state reached by operations on a backend
that works, the store is as after a delete that did not fail if and only if the failing call was its
last one, the last digest of the file is also referenced elsewhere, and taking its size off the
total changes nothing. -/
theorem failed_delete_retried (store : ChunkStore) (s : State) (fileId : String)
    (digests : List String) (hf : s.fields.manifest.tryGet fileId = some digests)
    (e : ChunkStoreError) (k : ℕ) (hk : k < store.callsOf (.delete fileId) s) :
    let failed := store.execFailing e (.delete fileId) k s
    (failed.1 = .error e ∧
      store.exec (.delete fileId) failed.2 = (.error (.notFound s!"file {fileId}"), failed.2)) ∧
    ∀ lists ops, (∀ op ∈ ops, ¬store.CommitsIndexName op) → s = (store.run lists ops).2 →
      (Alike (store.exec (.delete fileId) s).2 (store.exec (.delete fileId) failed.2).2 ↔
        LastIsFree s digests ∧ k + 1 = store.callsOf (.delete fileId) s) := by
  intro failed
  have hgives : GivesUp (flat (store.perform (.delete fileId))).run := by
    rw [perform, flat_map]
    exact givesUp_map _ (givesUp_delete fileId)
  have hfailed : failed = (.error e, (stops (flat (store.perform (.delete fileId))).run s)[k]) :=
    evalFailing_eq hgives e hk
  have hretry : store.exec (.delete fileId) failed.2
      = (.error (.notFound s!"file {fileId}"), failed.2) := by
    rw [hfailed]
    exact exec_delete_of_lacks (lacks_of_mem_stops (List.getElem_mem hk))
  refine ⟨⟨by rw [hfailed], hretry⟩, fun lists ops hops hs ↦ ?_⟩
  obtain ⟨held, h⟩ : ∃ held, Rep store (store.Ingested ops) none held s := by
    rw [hs]
    exact rep_execAll (rep_start store (store.Ingested ops) lists)
      (fun op hop c hc ↦ ⟨op, hop, hc⟩) hops
  obtain ⟨s', l, hwalk, honly⟩ := walks_delete h hf
  have hperform : Walks (flat (store.perform (.delete fileId))) s .done s' l := by
    rw [perform, flat_map]
    exact hwalk.map _
  have hlast := honly k (hperform.stops ▸ hk)
  rw [hretry, hfailed, callsOf, exec, hperform.eval]
  simp only [hperform.stops]
  exact hlast

def emptyTwins : List Op := [.ingest "f" (.chunks [[]]), .ingest "g" (.chunks [[]])]

/-- The last call of deleting the first of them is a look at the index. -/
theorem failed_delete_retried_last :
    let s := (smallStore.run true emptyTwins).2
    let failed := smallStore.execFailing (.backendError "down") (.delete "f") 5 s
    Alike (smallStore.exec (.delete "f") s).2 (smallStore.exec (.delete "f") failed.2).2 :=
  ((failed_delete_retried smallStore (smallStore.run true emptyTwins).2 "f"
    [digestHex smallStore.crates.sha256 []] (by decide +kernel) (.backendError "down") 5
    (by decide +kernel)).2 true emptyTwins (fun op hop ↦ by
      simp only [emptyTwins, List.mem_cons, List.not_mem_nil, or_false] at hop
      rcases hop with rfl | rfl <;> exact fun hc ↦ absurd hc.1 (by decide)) rfl).mpr
      ⟨⟨[], _, rfl, by decide +kernel, Or.inl (by decide +kernel)⟩, by decide +kernel⟩

/-- A delete whose first call fails has taken the file out of the manifest, and its chunk stays
counted whatever is tried. -/
theorem failed_delete_lost : ¬∀ (store : ChunkStore) (lists : Bool) (ops : List Op),
    (∀ r ∈ (store.run lists ops).1, ∃ reply, r = .ok reply) →
    ∀ (fileId : String) (e : ChunkStoreError) (k : ℕ),
      ((store.run lists ops).2.fields.manifest.tryGet fileId).isSome →
      k < store.callsOf (.delete fileId) (store.run lists ops).2 →
      let s := (store.run lists ops).2
      let failed := store.execFailing e (.delete fileId) k s
      Alike (store.exec (.delete fileId) s).2 (store.exec (.delete fileId) failed.2).2 := by
  intro h
  have halike := h smallStore true [.ingest "f" (.bytes [0x61])]
    (exists_reply_of_all (by decide +kernel)) "f" (.backendError "down") 0 (by decide +kernel)
    (by decide +kernel)
  have hrefs := halike.refs (digestHex smallStore.crates.sha256 [0x61])
  revert hrefs
  decide +kernel

end ChunkStore

end Chunkstore

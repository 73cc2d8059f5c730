import Mathlib.Data.List.Induction
import Mathlib.Data.List.Infix
import Chunkstore.Crash.Enlisted
import Chunkstore.Crash.Missing
import Chunkstore.Faults.Process

/-!
# What an interrupted ingest leaves

An ingest that is cut off before its manifest record is written has put blobs, refcount records and
the names of some digests on the refcount index. `fsck` goes by the counts, so it takes the blobs
without a name for orphans, and those with one for live chunks, though no file refers to them.

## Main result

* `ChunkStore.leftovers_reclaimed_iff`: after reopening and repairing, every blob is referred to by
  a file exactly when that was so of the counted blobs before the ingest, the ingest has not come to
  write the refcount index, and it has put no blob at all if the backend cannot list its keys.
-/

open Effects Program

namespace Chunkstore

/-! ## The writes of storing -/

/-- What a write of storing a chunk is: the blob of a digest that has none, a record with a count,
or a further name on the index, of a digest with a record and a blob. -/
def StoringWrite (crates : Crates) (s : State) : BackendWrite → Prop
  | .delete _ => False
  | .put key data =>
    (isChunkDigest key = true ∧ s.find key = none) ∨
    (∃ d count size, isChunkDigest d = true ∧ key = refcountKey d ∧ 0 < count ∧
      data = crates.serde.refcountToVec ⟨count, size⟩) ∨
    key = refcountIndexKey ∧ ∃ l d, readIndex crates s key = some l ∧ d ∉ l ∧
      data = crates.serde.stringsToVec (l ++ [d]) ∧ isChunkDigest d = true ∧
        0 < recordCount crates s d ∧ (s.find d).isSome

section Storing

variable {store : ChunkStore} {s : State} {digest : String} {chunk : Bytes}

private theorem carefully_saveRefcount_storing {count size : ℕ} (hd : isChunkDigest digest = true)
    (hc : 0 < count) (hb : (s.find digest).isSome) :
    carefully (StoringWrite store.crates) (saveRefcount store.crates digest count size)
      (fun _ _ ↦ True) (fun _ _ ↦ True) s := by
  have hne : digest ≠ indexName := ne_of_isChunkDigest hd isChunkDigest_indexName
  rw [saveRefcount_eq, validateDigest_eq_ok.mpr hd, ofExcept_ok, pure_bind]
  refine carefully_bind (carefully_put
    (Or.inr (Or.inl ⟨digest, count, size, hd, rfl, hc, rfl⟩)) ?_)
  refine carefully_bind (wpx_readStringList (fun _ ↦ watched_of_none rfl) (fun l hl ↦ ?_)
    fun _ _ ↦ trivial)
  split
  · exact carefully_pure trivial
  · rename_i hdl
    refine carefully_put (Or.inr (Or.inr ⟨rfl, l, digest, hl, hdl, rfl, hd, ?_, ?_⟩)) trivial
    · rw [recordCount_of_find (State.find_put_self _ _ _)]
      exact hc
    · rw [State.find_put_ne (ne_of_isChunkDigest hd (isChunkDigest_refcountKey digest))]
      exact hb

/-- **Storing a chunk** writes nothing else. -/
theorem carefully_storeChunk_storing (hd : isChunkDigest digest = true) :
    carefully (StoringWrite store.crates) (flat (store.storeChunk digest chunk))
      (fun _ _ ↦ True) (fun _ _ ↦ True) s := by
  simp only [ChunkStore.storeChunk, flat_bind, flat_ofExcept, flat_locked, flat_ite, flat_pure]
  refine carefully_bind (carefully_ofExcept (fun blob _ ↦ ?_) fun _ _ ↦ trivial)
  have hput : carefully (StoringWrite store.crates) (ChunkStore.putBlob digest blob)
      (fun _ s' ↦ (s'.find digest).isSome) (fun _ _ ↦ True) s := by
    refine carefully_bind (carefully_existsKey ?_)
    cases hf : s.find digest with
    | some raw =>
      refine carefully_pure ?_
      rw [hf]
      rfl
    | none =>
      refine carefully_bind (carefully_put (Or.inl ⟨hd, hf⟩) (carefully_pure ?_))
      rw [State.find_put_self]
      rfl
  refine carefully_bind (carefully_mono hput (fun present s₁ hb ↦ ?_) fun _ _ h ↦ h)
  refine carefully_bind (carefully_bind (carefully_fieldOrThrow (fun n hn ↦ ?_) fun _ _ ↦ trivial))
  have hpos : 0 < n := by
    rw [FieldAccess.run] at hn
    cases hinc : s₁.fields.refcount.increment digest chunk.length with
    | error e =>
      rw [hinc] at hn
      cases hn
    | ok r =>
      rw [hinc] at hn
      cases hn
      obtain ⟨hcount, -⟩ := RefCount.increment_eq_ok hinc
      rw [hcount]
      exact Nat.succ_pos _
  refine carefully_bind (carefully_field (carefully_mono
    (carefully_saveRefcount_storing hd hpos hb) (fun _ s₂ _ ↦ ?_) fun _ _ h ↦ h))
  split
  · exact carefully_bind (carefully_field (carefully_pure trivial))
  · exact carefully_bind (carefully_field (carefully_pure trivial))

theorem carefully_consume_storing (stream : Stream) :
    carefully (StoringWrite store.crates)
      (flat (stream.consume store.accept ChunkStore.IngestSession.new))
      (fun _ _ ↦ True) (fun _ _ ↦ True) s := by
  simp only [Stream.consume, flat_bind, flat_foldlM]
  refine carefully_bind (carefully_mono (wpx_foldlM (J := fun _ _ _ ↦ True) (R := fun _ _ ↦ True)
    ?_ _ _ s trivial) (fun session s' _ ↦ ?_) fun _ _ h ↦ h)
  · intro c l session s₁ _
    simp only [ChunkStore.accept, flat_bind, flat_pure]
    exact carefully_bind (carefully_mono
      (carefully_storeChunk_storing (isChunkDigest_digestHex _ c)) (fun _ _ _ ↦ trivial)
      fun _ _ h ↦ h)
  · cases stream.error with
    | some e => exact carefully_throw trivial
    | none => exact carefully_pure trivial

end Storing

/-! ## What they add up to -/

/-- `b` is what writes of storing have made of `s`. -/
structure Grown (crates : Crates) (s : State) (ws : List BackendWrite) (b : State) : Prop where
  enlisted : Enlisted crates b
  manifests : ∀ f, b.find (manifestKey f) = s.find (manifestKey f)
  blobs : ∀ d, isChunkDigest d = true →
    ((b.find d).isSome ↔ (s.find d).isSome ∨ ∃ w ∈ ws, w.key = d)
  fresh : ∀ w ∈ ws, isChunkDigest w.key = true → s.find w.key = none
  kept : ∀ d, IsListed crates s d → IsListed crates b d
  unlisted : (∀ w ∈ ws, w.key ≠ refcountIndexKey) → ∀ d, IsListed crates b d →
    IsListed crates s d
  listed : ∀ w ∈ ws, w.key = refcountIndexKey →
    ∃ d, IsListed crates b d ∧ (b.find d).isSome ∧ ¬IsListed crates s d

/-- Some persisted file refers to the digest. -/
def Referred (crates : Crates) (s : State) (d : String) : Prop :=
  ∃ f r, persistedFile crates s f = some r ∧ d ∈ r.digests

section Growth

variable {crates : Crates} {s b : State} {ws : List BackendWrite} {w : BackendWrite}

theorem Grown.refl (h : Enlisted crates s) : Grown crates s [] s where
  enlisted := h
  manifests _ := rfl
  blobs _ _ := (or_iff_left fun ⟨_, hw, _⟩ ↦ absurd hw List.not_mem_nil).symm
  fresh _ hw := absurd hw List.not_mem_nil
  kept _ hd := hd
  unlisted _ _ hd := hd
  listed _ hw := absurd hw List.not_mem_nil

private theorem Grown.put_blob {key : String} {data : Bytes} (h : Grown crates s ws b)
    (hk : isChunkDigest key = true) (hnone : b.find key = none) :
    Grown crates s (ws ++ [.put key data]) (b.put key data) := by
  have hne : ∀ k, isChunkDigest k = false → (b.put key data).find k = b.find k := fun k hkf ↦
    State.find_put_ne (ne_of_isChunkDigest hk hkf).symm
  have hi := hne _ isChunkDigest_refcountIndexKey
  have hblob : ∀ d, (b.find d).isSome → ((b.put key data).find d).isSome := fun d hd ↦ by
    rw [State.find_put]
    split
    · rfl
    · exact hd
  refine ⟨h.enlisted.of_find fun d ↦ hne _ (isChunkDigest_refcountKey d), fun f ↦ ?_, fun d hd ↦ ?_,
    fun w hw hc ↦ ?_, fun d hd ↦ (isListed_congr hi).mpr (h.kept d hd), fun hno d hd ↦ ?_,
    fun w hw hkey ↦ ?_⟩
  · rw [hne _ (isChunkDigest_manifestKey f), h.manifests]
  · rw [State.find_put]
    split
    · rename_i hdk
      exact iff_of_true rfl (Or.inr ⟨_, List.mem_concat_self, hdk.symm⟩)
    · rename_i hdk
      rw [h.blobs d hd]
      refine or_congr_right ⟨fun ⟨w, hw, hwd⟩ ↦ ⟨w, List.mem_append_left _ hw, hwd⟩, ?_⟩
      rintro ⟨w, hw, hwd⟩
      rcases List.mem_append.mp hw with hw | hw
      · exact ⟨w, hw, hwd⟩
      · rw [List.mem_singleton.mp hw] at hwd
        exact absurd hwd.symm hdk
  · rcases List.mem_append.mp hw with hw | hw
    · exact h.fresh w hw hc
    · rw [List.mem_singleton.mp hw]
      have hb := h.blobs key hk
      rw [hnone] at hb
      have hs : ¬(s.find key).isSome := fun hs ↦ Bool.noConfusion (hb.mpr (Or.inl hs))
      rwa [Bool.not_eq_true, Option.isSome_eq_false_iff, Option.isNone_iff_eq_none] at hs
  · exact h.unlisted (fun w hw ↦ hno w (List.mem_append_left _ hw)) d ((isListed_congr hi).mp hd)
  · rcases List.mem_append.mp hw with hw | hw
    · obtain ⟨d, hd, hb, hs⟩ := h.listed w hw hkey
      exact ⟨d, (isListed_congr hi).mpr hd, hblob d hb, hs⟩
    · rw [List.mem_singleton.mp hw] at hkey
      exact absurd hkey (ne_of_isChunkDigest hk isChunkDigest_refcountIndexKey)

/-- A put of a refcount record or of the refcount index, as far as the other keys go. -/
private theorem Grown.put_refcount {d : String} {data : Bytes} (h : Grown crates s ws b)
    (hen : Enlisted crates (b.put (refcountKey d) data))
    (hlisted : ∀ e, IsListed crates b e → IsListed crates (b.put (refcountKey d) data) e)
    (hno : refcountKey d ≠ refcountIndexKey → ∀ e,
      IsListed crates (b.put (refcountKey d) data) e → IsListed crates b e)
    (hnew : refcountKey d = refcountIndexKey → ∃ e,
      IsListed crates (b.put (refcountKey d) data) e ∧ (b.find e).isSome ∧ ¬IsListed crates s e) :
    Grown crates s (ws ++ [.put (refcountKey d) data]) (b.put (refcountKey d) data) := by
  have hchunk : ∀ e, (b.find e).isSome → ((b.put (refcountKey d) data).find e).isSome :=
    fun e he ↦ by
    rw [State.find_put]
    split
    · rfl
    · exact he
  refine ⟨hen, fun f ↦ ?_, fun e he ↦ ?_, fun w hw hc ↦ ?_, fun e he ↦ hlisted e (h.kept e he),
    fun hnone e he ↦ ?_, fun w hw hkey ↦ ?_⟩
  · rw [State.find_put_ne (manifestKey_ne_refcountKey f d), h.manifests]
  · rw [State.find_put_ne (ne_of_isChunkDigest he (isChunkDigest_refcountKey d)), h.blobs e he]
    refine or_congr_right ⟨fun ⟨w, hw, hwd⟩ ↦ ⟨w, List.mem_append_left _ hw, hwd⟩, ?_⟩
    rintro ⟨w, hw, hwd⟩
    rcases List.mem_append.mp hw with hw | hw
    · exact ⟨w, hw, hwd⟩
    · rw [List.mem_singleton.mp hw] at hwd
      exact absurd hwd.symm (ne_of_isChunkDigest he (isChunkDigest_refcountKey d))
  · rcases List.mem_append.mp hw with hw | hw
    · exact h.fresh w hw hc
    · rw [List.mem_singleton.mp hw] at hc
      exact absurd hc
        (by rw [BackendWrite.key, isChunkDigest_refcountKey]; exact Bool.false_ne_true)
  · exact h.unlisted (fun w hw ↦ hnone w (List.mem_append_left _ hw)) e
      (hno (hnone _ List.mem_concat_self) e he)
  · rcases List.mem_append.mp hw with hw | hw
    · obtain ⟨e, he, hb, hs⟩ := h.listed w hw hkey
      exact ⟨e, hlisted e he, hchunk e hb, hs⟩
    · rw [List.mem_singleton.mp hw] at hkey
      obtain ⟨e, he, hb, hs⟩ := hnew hkey
      exact ⟨e, he, hchunk e hb, hs⟩

/-- **One more write.** -/
theorem Grown.write (h : Grown crates s ws b) (hw : StoringWrite crates b w) :
    Grown crates s (ws ++ [w]) (w.apply b) := by
  cases w with
  | delete key => exact hw.elim
  | put key data =>
    rcases hw with ⟨hk, hnone⟩ | ⟨d, count, size, hd, rfl, hc, rfl⟩ |
      ⟨rfl, l, d, hl, hdl, rfl, hd, hc, hb⟩
    · exact h.put_blob hk hnone
    · have hne := refcountKey_ne_indexKey (ne_of_isChunkDigest hd isChunkDigest_indexName)
      have hi : (b.put (refcountKey d)
          (crates.serde.refcountToVec ⟨count, size⟩)).find refcountIndexKey
          = b.find refcountIndexKey := State.find_put_ne hne.symm
      refine h.put_refcount ⟨by rw [readIndex_congr hi]; exact h.enlisted.index, fun e he ↦ ?_⟩
        (fun e he ↦ (isListed_congr hi).mpr he) (fun _ e he ↦ (isListed_congr hi).mp he)
        fun heq ↦ absurd heq hne
      have he := h.enlisted.listed e ((isListed_congr hi).mp he)
      by_cases hed : e = d
      · rw [hed, recordCount_of_find (State.find_put_self _ _ _)]
        exact ⟨hd, hc⟩
      · rw [recordCount_congr (State.find_put_ne (mt refcountKey_inj.mp hed))]
        exact he
    · rw [← refcountKey_indexName]
      have hi := readIndex_of_strings (State.find_put_self b refcountIndexKey
        (crates.serde.stringsToVec (l ++ [d])))
      rw [← refcountKey_indexName] at hi
      have hiff : ∀ e, IsListed crates
          (b.put (refcountKey indexName) (crates.serde.stringsToVec (l ++ [d]))) e ↔
            IsListed crates b e ∨ e = d := fun e ↦ by
        rw [isListed_of_readIndex (refcountKey_indexName ▸ hi), isListed_of_readIndex hl,
          List.mem_append, List.mem_singleton]
      refine h.put_refcount ⟨⟨_, refcountKey_indexName ▸ hi⟩, fun e he ↦ ?_⟩
        (fun e he ↦ (hiff e).mpr (Or.inl he)) (fun hne ↦ absurd refcountKey_indexName hne)
        fun _ ↦ ⟨d, (hiff d).mpr (Or.inr rfl), hb, fun hs ↦ ?_⟩
      · have hchunk : isChunkDigest e = true ∧ 0 < recordCount crates b e := by
          rcases (hiff e).mp he with he | rfl
          · exact h.enlisted.listed e he
          · exact ⟨hd, hc⟩
        rw [recordCount_congr (State.find_put_ne (mt refcountKey_inj.mp
          (ne_of_isChunkDigest hchunk.1 isChunkDigest_indexName)))]
        exact hchunk
      · exact hdl ((isListed_of_readIndex hl).mp (h.kept d hs))

theorem Grown.of_writes (h : Enlisted crates s)
    (hws : ∀ ws₀ w, ws₀ ++ [w] <+: ws →
      StoringWrite crates (ws₀.foldl BackendWrite.apply s) w) :
    Grown crates s ws (ws.foldl BackendWrite.apply s) := by
  induction ws using List.reverseRecOn with
  | nil => exact .refl h
  | append_singleton ws w ih =>
    rw [List.foldl_append]
    exact (ih fun ws₀ w₀ hpre ↦ hws ws₀ w₀ (hpre.trans (List.prefix_append _ _))).write
      (hws ws w List.prefix_rfl)

end Growth

/-! ## The writes of an ingest -/

namespace ChunkStore

variable {store : ChunkStore} {s : State} {fileId : String}

/-- The writes of a program that may throw: those of its first part, then those of the rest. -/
theorem events_bind_run {α β : Type} (p : BackendM α) (f : α → BackendM β) (s : State) :
    callHandler.events Call.write (p >>= f).run s
      = callHandler.events Call.write p.run s ++
        match callHandler.eval p.run s with
        | (.ok a, s') => callHandler.events Call.write (f a).run s'
        | (.error _, _) => [] := by
  rw [ExceptT.run_bind, Handler.events_bind]
  refine congrArg _ ?_
  cases callHandler.eval p.run s with
  | mk r s' => cases r <;> rfl

theorem events_field_bind {γ α : Type} (a : FieldAccess γ) (f : γ → BackendM α) (s : State) :
    callHandler.events Call.write (field a >>= f).run s
      = callHandler.events Call.write (f (a.run s.fields).1).run
        (s.withFields (a.run s.fields).2) := rfl

/-- A commit writes the record first, if it writes at all. -/
private theorem events_commit (store : ChunkStore) (session : IngestSession) (fileId : String)
    (s : State) :
    ∀ w ∈ (callHandler.events Call.write (flat (store.commit session fileId)).run s).head?,
      w.key = manifestKey fileId := by
  rw [flat_commit, exchange]
  simp only [bind_assoc, pure_bind]
  rw [events_field_bind, events_bind_run]
  intro w hw
  rw [show callHandler.events Call.write (fieldOrThrow (.manifestInsert fileId session.digests
    session.fileBytes)).run _ = [] from rfl, List.nil_append] at hw
  cases hrun : callHandler.eval (fieldOrThrow (.manifestInsert fileId session.digests
      session.fileBytes)).run (s.withFields
        ((FieldAccess.manifestTryGet fileId).run s.fields).2) with
  | mk r s' =>
    rw [hrun] at hw
    cases r with
    | error e => cases hw
    | ok _ =>
      dsimp only at hw
      rw [saveManifest_eq, bind_assoc] at hw
      cases hv : session.digests.forM validateDigest with
      | error e =>
        rw [hv] at hw
        cases hw
      | ok _ =>
        rw [hv, ofExcept_ok, pure_bind, bind_assoc, events_bind_run] at hw
        obtain rfl := Option.some.inj hw
        rfl

/-- A first part of the writes of an ingest that does not touch the record is one of the writes of
storing the chunks. -/
private theorem prefix_events_consume {input : IngestInput} {ws : List BackendWrite}
    (hws : ws <+: store.writesOf (.ingest fileId input) s)
    (hno : ∀ w ∈ ws, w.key ≠ manifestKey fileId) :
    ws <+: callHandler.events Call.write
      (flat ((input.stream store.crates).consume store.accept IngestSession.new)).run s := by
  rw [writesOf, perform, flat_map, ingestInput_eq, ingestStream, flat_bind, map_eq_pure_bind,
    bind_assoc, events_bind_run] at hws
  rcases List.prefix_or_prefix_of_prefix hws (List.prefix_append _ _) with hpre | ⟨rest, rfl⟩
  · exact hpre
  · rw [List.prefix_append_right_inj] at hws
    cases rest with
    | nil =>
      rw [List.append_nil]
    | cons w rest =>
      exfalso
      refine hno w (List.mem_append_right _ List.mem_cons_self) ?_
      revert hws
      split
      · rename_i session s' _
        intro hws
        rw [events_bind_run] at hws
        have hcommit := events_commit store session fileId s'
        revert hws hcommit
        cases callHandler.events Call.write (flat (store.commit session fileId)).run s' with
        | nil =>
          intro hws
          split at hws
          · cases List.prefix_nil.mp hws
          · cases List.prefix_nil.mp hws
        | cons w' ws' =>
          intro hws hcommit
          rw [List.cons_append, List.cons_prefix_cons] at hws
          rw [hws.1]
          exact hcommit w' rfl
      · intro hws
        cases List.prefix_nil.mp hws

/-- **What an interrupted ingest has made of the backend.** -/
theorem grown_of_prefix {input : IngestInput} {ws : List BackendWrite}
    (h : Enlisted store.crates s) (hws : ws <+: store.writesOf (.ingest fileId input) s)
    (hno : ∀ w ∈ ws, w.key ≠ manifestKey fileId) :
    Grown store.crates (crash s) ws (ws.foldl BackendWrite.apply (crash s)) := by
  refine Grown.of_writes (h.of_find fun _ ↦ rfl) fun ws₀ w hpre ↦ ?_
  refine holds_at_event (P := StoringWrite store.crates) crash_handle
    (fun s' c r s'' w' hstep hw' ↦ ?_) (wp_callHandler (carefully_consume_storing _))
    (hpre.trans (prefix_events_consume hws hno))
  exact hstep w' hw'

/-! ## What files refer to -/

/-- What a persisted file refers to is listed and has a blob. -/
theorem listed_of_referred {known : Version → Prop} {d : String} (h : Safe store known s)
    (hd : Referred store.crates s d) : IsListed store.crates s d ∧ (s.find d).isSome := by
  obtain ⟨ledger, hg⟩ := h
  obtain ⟨f, r, hr, hmem⟩ := hd
  rw [persistedFile] at hr
  split at hr
  · rename_i hf
    have hindex : f ≠ indexName := by
      cases hl : readIndex store.crates s manifestIndexKey with
      | none =>
        rw [hl] at hf
        exact absurd hf List.not_mem_nil
      | some l =>
        rw [hl] at hf
        rintro rfl
        exact hg.persisted.index l hl hf
    rw [manifestRecord] at hr
    cases hraw : s.find (manifestKey f) with
    | none =>
      rw [hraw] at hr
      cases hr
    | some raw =>
      obtain ⟨r', hdec, hv⟩ := hg.persisted.record f raw hindex hraw
      rw [hraw, Option.bind_some, hdec] at hr
      obtain rfl := Option.some.inj hr
      have hpos : 0 < need ledger [] d :=
        Nat.lt_of_lt_of_le (List.count_pos_iff.mpr hmem) (count_le_need hv [] d)
      exact ⟨hg.persisted.isListed hpos, hg.persisted.stored d hpos⟩
  · cases hr

/-- What is safe under faults holds after the one run without any. -/
theorem safely_eval {α : Type} {I : State → Prop} {p : BackendM α} {Q : α → State → Prop}
    (h : safely I p Q s) :
    outcome Q (fun _ ↦ I) (callHandler.eval p.run s).1 (callHandler.eval p.run s).2 :=
  wp_steps (c := (p.run, s)) h (Handler.steps_eval faulty_step_handle p.run s)

theorem safe_reopen {known : Version → Prop} (h : SafeAtRest store known s)
    (hok : (store.exec .reopen s).1.isOk = true) : Safe store known (store.exec .reopen s).2 := by
  have hsafe := safely_eval (p := flat (store.perform .reopen))
    (Q := fun _ s' ↦ Safe store known s') (by
      rw [perform, flat_map]
      exact safely_map (safely_reopen h))
  change outcome _ _ (store.exec .reopen s).1 (store.exec .reopen s).2 at hsafe
  cases hr : (store.exec .reopen s).1 with
  | ok reply =>
    rw [hr] at hsafe
    exact hsafe
  | error e =>
    rw [hr] at hok
    cases hok

theorem safe_exec (ht : Tended store.crates s) (h : Safe store (fun _ ↦ True) s) (op : Op) :
    Safe store (fun _ ↦ True) (store.exec op s).2 := by
  by_cases hop : op = .reopen
  · subst hop
    cases hr : (store.exec .reopen s).1 with
    | ok reply => exact safe_reopen (Process.safeAtRest_of_safe h) (by rw [hr]; rfl)
    | error e =>
      have hsame := quietly_eval (p := flat (store.perform .reopen)) (s := s)
        (Q := fun _ _ ↦ True) (R := fun _ s' ↦ s' = s) (by
          rw [perform, flat_map]
          exact quietly_map (quietly_mono (quietly_reopen (quietly_openStore_tended ht))
            (fun _ _ _ ↦ trivial) fun _ _ hs ↦ hs))
      change outcome _ _ (store.exec .reopen s).1 (store.exec .reopen s).2 at hsame
      rw [hr] at hsame
      rw [show (store.exec .reopen s).2 = s from hsame]
      exact h
  · have hsafe := safely_eval (safely_perform hop h fun _ _ ↦ trivial)
    change outcome _ _ (store.exec op s).1 (store.exec op s).2 at hsafe
    cases hr : (store.exec op s).1 with
    | ok reply =>
      rw [hr] at hsafe
      exact hsafe
    | error e =>
      rw [hr] at hsafe
      exact hsafe

/-- **The run lemma.** -/
theorem safe_execAll (ht : Tended store.crates s) (h : Safe store (fun _ ↦ True) s)
    (ops : List Op) : Safe store (fun _ ↦ True) (store.execAll ops s).2 := by
  induction ops generalizing s with
  | nil => exact h
  | cons op ops ih => exact ih (tended_exec ht op) (safe_exec ht h op)

theorem safe_run (store : ChunkStore) (lists : Bool) (ops : List Op) :
    Safe store (fun _ ↦ True) (store.run lists ops).2 :=
  safe_execAll (tended_run store lists []) (Process.safe_mono (fun _ _ ↦ trivial)
    (safe_reopen (Process.inv_start lists)
      (isOk_reopen_iff.mpr (fit_empty store.crates lists).sound.openable))) ops

/-! ## After the repair -/

theorem isSome_repaired {b : State} (h : (store.exec .reopen b).1.isOk = true) {d : String}
    (hd : isChunkDigest d = true) :
    ((store.exec (.fsck true) (store.exec .reopen b).2).2.find d).isSome ↔
      (b.find d).isSome ∧ (b.backend.lists = true → 0 < persistedCount store.crates b d) := by
  have hopened := opened_of_isOk h
  have hlists : (store.exec .reopen b).2.backend.lists = b.backend.lists := lists_eval _ b
  have hfind := hopened.find d (offRefcount_of_isChunkDigest hd)
  have horphan := mem_orphansOf (s := (store.exec .reopen b).2) (k := d)
  rw [hlists, hfind, ← Option.isNone_iff_eq_none, ← Option.isSome_eq_false_iff,
    ← Bool.not_eq_true, hopened.isSome_iff] at horphan
  rw [(exec_fsck true _).2.2]
  split
  · rename_i hk
    obtain ⟨hl, -, -, hno⟩ := horphan.mp hk.2
    exact iff_of_false Bool.noConfusion fun hb ↦ hno (hb.2 hl)
  · rename_i hk
    rw [hfind]
    refine ⟨fun hs ↦ ⟨hs, fun hl ↦ ?_⟩, fun hb ↦ hb.1⟩
    by_contra hno
    exact hk ⟨rfl, horphan.mpr ⟨hl, hd, hs, hno⟩⟩

theorem lists_writes (ws : List BackendWrite) (s : State) :
    (ws.foldl BackendWrite.apply s).backend.lists = s.backend.lists := by
  induction ws generalizing s with
  | nil => rfl
  | cons w ws ih =>
    rw [List.foldl_cons, ih]
    cases w <;> rfl

theorem persistedFile_congr {crates : Crates} {b : State}
    (h : ∀ f, b.find (manifestKey f) = s.find (manifestKey f)) (f : String) :
    persistedFile crates b f = persistedFile crates s f := by
  rw [persistedFile, persistedFile, readIndex_congr (manifestKey_indexName ▸ h indexName),
    manifestRecord, manifestRecord, h]

private theorem referred_iff {b : State} {d : String} (h : Opened store.crates b s) :
    (∃ f digests, s.fields.manifest.tryGet f = some digests ∧ d ∈ digests) ↔
      Referred store.crates b d := by
  refine exists_congr fun f ↦ ?_
  rw [Manifest.tryGet, (h.files f).1]
  cases persistedFile store.crates b f with
  | none =>
    refine iff_of_false ?_ ?_
    · rintro ⟨_, h, -⟩
      cases h
    · rintro ⟨_, h, -⟩
      cases h
  | some r =>
    constructor
    · rintro ⟨digests, hr, hd⟩
      obtain rfl := Option.some.inj hr
      exact ⟨r, rfl, hd⟩
    · rintro ⟨r', hr, hd⟩
      obtain rfl := Option.some.inj hr
      exact ⟨r.digests, rfl, hd⟩

private theorem persistedCount_pos_iff {crates : Crates} {d : String} (h : Enlisted crates s) :
    0 < persistedCount crates s d ↔ IsListed crates s d := by
  refine ⟨isListed_of_pos, fun hd ↦ ?_⟩
  rw [persistedCount_of_isListed hd]
  exact (h.listed d hd).2

/-- What an ingest must not have done before it is cut off, and how the store was before it. -/
structure Reclaimable (crates : Crates) (s : State) (ws : List BackendWrite) : Prop where
  before : ∀ d, isChunkDigest d = true → (s.find d).isSome →
    (s.backend.lists = true → IsListed crates s d) → Referred crates s d
  index : ∀ w ∈ ws, w.key ≠ refcountIndexKey
  blobs : s.backend.lists = true ∨ ∀ w ∈ ws, isChunkDigest w.key = false

/-- **What `fsck` reclaims of an interrupted ingest.** Cut an ingest off before its manifest record
is written, after any run. If what is left can be opened, then after repairing every blob is one
that a file refers to, exactly when that was so of the blobs `fsck` would have kept before the
ingest, no name was put on the refcount index, and no blob was put where keys cannot be listed. -/
theorem leftovers_reclaimed_iff (store : ChunkStore) (lists : Bool) (ops : List Op)
    (fileId : String) (input : IngestInput) (ws : List BackendWrite)
    (hws : ws <+: store.writesOf (.ingest fileId input) (store.run lists ops).2)
    (hno : ∀ w ∈ ws, w.key ≠ manifestKey fileId)
    (hopen : (store.exec .reopen
      (ws.foldl BackendWrite.apply (crash (store.run lists ops).2))).1.isOk = true) :
    (let opened := (store.exec .reopen
        (ws.foldl BackendWrite.apply (crash (store.run lists ops).2))).2
      ∀ d, isChunkDigest d = true → ((store.exec (.fsck true) opened).2.find d).isSome →
        ∃ f digests, opened.fields.manifest.tryGet f = some digests ∧ d ∈ digests) ↔
      Reclaimable store.crates (store.run lists ops).2 ws := by
  have htended := tended_run store lists ops
  have hsafe := safe_run store lists ops
  revert htended hsafe hopen hws
  generalize (store.run lists ops).2 = s
  intro hws hopen htended hsafe
  have hgrown := grown_of_prefix htended.toEnlisted hws hno
  revert hgrown hopen
  generalize hb : ws.foldl BackendWrite.apply (crash s) = b
  intro hopen hgrown
  have hlists : b.backend.lists = s.backend.lists := hb ▸ lists_writes ws (crash s)
  have hreferred : ∀ d, (∃ f digests, (store.exec .reopen b).2.fields.manifest.tryGet f
      = some digests ∧ d ∈ digests) ↔ Referred store.crates s d := fun d ↦ by
    rw [referred_iff (opened_of_isOk hopen), Referred, Referred]
    exact exists_congr fun f ↦ by rw [persistedFile_congr hgrown.manifests f]; rfl
  have hspec : (∀ d, isChunkDigest d = true →
      ((store.exec (.fsck true) (store.exec .reopen b).2).2.find d).isSome →
        ∃ f digests, (store.exec .reopen b).2.fields.manifest.tryGet f = some digests ∧
          d ∈ digests) ↔
      ∀ d, isChunkDigest d = true → (b.find d).isSome →
        (s.backend.lists = true → IsListed store.crates b d) → Referred store.crates s d := by
    refine forall_congr' fun d ↦ forall_congr' fun hd ↦ ?_
    rw [isSome_repaired hopen hd, hreferred, hlists, persistedCount_pos_iff hgrown.enlisted,
      and_imp]
  refine hspec.trans ⟨fun h ↦ ⟨fun d hd hs hl ↦ ?_, fun w hw hkey ↦ ?_, ?_⟩, fun h d hd hs hl ↦ ?_⟩
  · exact h d hd ((hgrown.blobs d hd).mpr (Or.inl hs)) fun hls ↦ hgrown.kept d (hl hls)
  · obtain ⟨d, hlisted, hblob, hnew⟩ := hgrown.listed w hw hkey
    exact hnew (listed_of_referred hsafe (h d (hgrown.enlisted.listed d hlisted).1 hblob
      fun _ ↦ hlisted)).1
  · refine or_iff_not_imp_left.mpr fun hl w hw ↦ ?_
    by_contra hc
    rw [Bool.not_eq_false] at hc
    have hblob := (listed_of_referred hsafe (h w.key hc ((hgrown.blobs _ hc).mpr
      (Or.inr ⟨w, hw, rfl⟩)) fun hls ↦ absurd hls hl)).2
    rw [show s.find w.key = none from hgrown.fresh w hw hc] at hblob
    cases hblob
  · have hback : s.backend.lists = true → IsListed store.crates s d := fun hls ↦
      hgrown.unlisted h.index d (hl hls)
    refine h.before d hd ?_ hback
    rcases (hgrown.blobs d hd).mp hs with hs | ⟨w, hw, rfl⟩
    · exact hs
    · rcases h.blobs with hls | hnone
      · exact htended.blob _ (hback hls)
      · rw [hnone w hw] at hd
        cases hd

/-- An ingest cut off with a blob and a record, before its digest is on the index. -/
theorem leftovers_reclaimed_iff_unlisted :
    let s := (smallStore.run true [.ingest "g" (.bytes [0x62])]).2
    let ws := (smallStore.writesOf (.ingest "f" (.bytes [0x61])) s).take 2
    (let opened := (smallStore.exec .reopen (ws.foldl BackendWrite.apply (crash s))).2
      ∀ d, isChunkDigest d = true → ((smallStore.exec (.fsck true) opened).2.find d).isSome →
        ∃ f digests, opened.fields.manifest.tryGet f = some digests ∧ d ∈ digests) ↔
      Reclaimable smallCrates s ws :=
  leftovers_reclaimed_iff smallStore true [.ingest "g" (.bytes [0x62])] "f" (.bytes [0x61]) _
    (List.take_prefix _ _) (by decide +kernel) (by decide +kernel)

/-- An ingest cut off once its digest is on the index: the blob is taken for a live chunk. -/
theorem leftovers_stay : ¬∀ (store : ChunkStore) (lists : Bool) (ops : List Op) (fileId : String)
    (input : IngestInput) (ws : List BackendWrite),
    ws <+: store.writesOf (.ingest fileId input) (store.run lists ops).2 →
    (∀ w ∈ ws, w.key ≠ manifestKey fileId) →
    (store.exec .reopen
      (ws.foldl BackendWrite.apply (crash (store.run lists ops).2))).1.isOk = true →
    let opened := (store.exec .reopen
      (ws.foldl BackendWrite.apply (crash (store.run lists ops).2))).2
    ∀ d, isChunkDigest d = true → ((store.exec (.fsck true) opened).2.find d).isSome →
      ∃ f digests, opened.fields.manifest.tryGet f = some digests ∧ d ∈ digests := by
  intro h
  obtain ⟨f, digests, hf, hd⟩ := h smallStore true [] "f" (.bytes [0x61])
    ((smallStore.writesOf (.ingest "f" (.bytes [0x61])) (smallStore.run true []).2).take 3)
    (List.take_prefix _ _) (by decide +kernel) (by decide +kernel)
    (digestHex smallCrates.sha256 [0x61]) (isChunkDigest_digestHex _ _) (by decide +kernel)
  have hnone : ∀ f, ((smallStore.exec .reopen
      (((smallStore.writesOf (.ingest "f" (.bytes [0x61])) (smallStore.run true []).2).take 3).foldl
        BackendWrite.apply (crash (smallStore.run true []).2))).2.fields.manifest.tryGet f)
          = none :=
    fun f ↦ Table.find_of_keys_eq_nil (by decide +kernel) f
  rw [hnone] at hf
  cases hf

end ChunkStore

end Chunkstore

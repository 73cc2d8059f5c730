import Chunkstore.Exact.Afresh

/-!
# Reopening is invisible

Reopening gives a store that is *alike*: it agrees with the one before at every key and in every
field but `gc_chunks`, though its tables may be ordered otherwise. Most programs only look things
up, and cannot tell alike states apart (`Uses.eval_congr`). The two that look at a whole table,
`fsck` and `stats`, are covered by what they return on a store in sync.

## Main result

* `ChunkStore.reopen_invisible`: without a codec and without collisions, opening the backend after
  any run rebuilds the live instance, the indexes list the records without repetition, and runs that
  differ in reopens only return the same but for `gc_chunks`.
-/

open Effects Program

namespace Chunkstore

/-! ## Programs that only look things up -/

/-- A request whose answer does not depend on the order of a table, nor on the statistics. -/
def Call.Blind : {δ : Type} → Call δ → Prop
  | _, .backend (.listKeys _) => False
  | _, .field .refcountIterRefs => False
  | _, .field .statsGet => False
  | _, _ => True

/-- A program of such requests. -/
def Blind {α : Type} (p : BackendM α) : Prop := Makes Call.Blind p

theorem Call.Storing.blind {δ : Type} {c : Call δ} (h : c.Storing) : c.Blind := by
  cases c with
  | backend c =>
    cases c with
    | listKeys pre => exact h.elim
    | get | put | existsKey | delete => trivial
  | field a =>
    cases a with
    | refcountIterRefs | statsGet => exact h.elim
    | _ => trivial

section Requests

variable {rc rc' : RefCount} {digest : String} {size : ℕ}

private theorem RefCount.increment_congr (digest : String) (size : ℕ)
    (h : ∀ d, rc'.counts.find d = rc.counts.find d) :
    (∃ e, rc.increment digest size = .error e ∧ rc'.increment digest size = .error e) ∨
      ∃ n t t', rc.increment digest size = .ok (n, t) ∧ rc'.increment digest size = .ok (n, t') ∧
        ∀ d, t'.counts.find d = t.counts.find d := by
  have hset : ∀ r : ChunkRef, ∀ d,
      (rc'.counts.set digest r).find d = (rc.counts.set digest r).find d := fun r d ↦ by
    rw [Table.find_set, Table.find_set, h]
  rw [RefCount.increment, RefCount.increment, h]
  split
  · exact Or.inr ⟨_, _, _, rfl, rfl, hset _⟩
  · split
    · exact Or.inl ⟨_, rfl, rfl⟩
    · exact Or.inr ⟨_, _, _, rfl, rfl, hset _⟩

private theorem RefCount.decrement_congr (digest : String)
    (h : ∀ d, rc'.counts.find d = rc.counts.find d) :
    (∃ e, rc.decrement digest = .error e ∧ rc'.decrement digest = .error e) ∨
      ∃ n t t', rc.decrement digest = .ok (n, t) ∧ rc'.decrement digest = .ok (n, t') ∧
        ∀ d, t'.counts.find d = t.counts.find d := by
  cases hf : rc.counts.find digest with
  | none =>
    exact Or.inl ⟨_, decrement_of_find_none hf, decrement_of_find_none (by rw [h, hf])⟩
  | some r =>
    refine Or.inr ⟨_, _, _, decrement_of_find hf, decrement_of_find (by rw [h, hf]), fun d ↦ ?_⟩
    split
    · rw [Table.find_unset, Table.find_unset, h]
    · rw [Table.find_set, Table.find_set, h]

/-- A look-up gets the same answer from alike states and leaves alike states. -/
theorem alike_handle {δ : Type} (e : Call δ) (s s' : State) (he : e.Blind) (h : Alike s s') :
    (callHandler.handle e s).1 = (callHandler.handle e s').1 ∧
      Alike (callHandler.handle e s).2 (callHandler.handle e s').2 := by
  have hfind : ∀ k, s'.backend.data.find k = s.backend.data.find k := h.find
  cases e with
  | backend c =>
    cases c with
    | get key => exact ⟨congrArg Except.ok (hfind key).symm, h⟩
    | existsKey key =>
      exact ⟨congrArg (fun o ↦ Except.ok (Option.isSome o)) (hfind key).symm, h⟩
    | put key data =>
      refine ⟨rfl, fun k ↦ ?_, h.files, h.fileBytes, h.refs, h.total, h.stored⟩
      exact (State.find_put s' key k data).trans
        ((by rw [h.find] : _ = _).trans (State.find_put s key k data).symm)
    | delete key =>
      refine ⟨rfl, fun k ↦ ?_, h.files, h.fileBytes, h.refs, h.total, h.stored⟩
      exact (State.find_del s' key k).trans
        ((by rw [h.find] : _ = _).trans (State.find_del s key k).symm)
    | listKeys pre => exact he.elim
  | field a =>
    cases a with
    | construct m rc => exact ⟨rfl, h.find, fun _ ↦ rfl, fun _ ↦ rfl, fun _ ↦ rfl, rfl, rfl⟩
    | manifestTryGet f => exact ⟨(h.files f).symm, h⟩
    | manifestGet f =>
      refine ⟨?_, h⟩
      change s.fields.manifest.get f = s'.fields.manifest.get f
      rw [Manifest.get, Manifest.get, h.files]
    | manifestInsert f ds n =>
      rw [callHandler]
      dsimp only
      rw [FieldAccess.run, FieldAccess.run]
      by_cases hf : f = ""
      · rw [hf, Manifest.insert_empty, Manifest.insert_empty]
        exact ⟨rfl, h⟩
      · rw [Manifest.insert_eq_ok hf, Manifest.insert_eq_ok hf]
        refine ⟨rfl, h.find, fun g ↦ ?_, fun g ↦ ?_, h.refs, h.total, h.stored⟩
        · exact (Table.find_set _ _ _ _).trans
            ((by rw [h.files] : _ = _).trans (Table.find_set _ _ _ _).symm)
        · exact (Table.find_set _ _ _ _).trans
            ((by rw [h.fileBytes] : _ = _).trans (Table.find_set _ _ _ _).symm)
    | manifestRemove f =>
      refine ⟨?_, h.find, fun g ↦ ?_, fun g ↦ ?_, h.refs, h.total, h.stored⟩
      · change s.fields.manifest.get f = s'.fields.manifest.get f
        rw [Manifest.get, Manifest.get, h.files]
      · exact (Table.find_unset _ _ _).trans
          ((by rw [h.files] : _ = _).trans (Table.find_unset _ _ _).symm)
      · exact (Table.find_unset _ _ _).trans
          ((by rw [h.fileBytes] : _ = _).trans (Table.find_unset _ _ _).symm)
    | refcountIncrement d n =>
      rw [callHandler]
      dsimp only
      rw [FieldAccess.run, FieldAccess.run]
      rcases RefCount.increment_congr d n h.refs with
        ⟨e, he, he'⟩ | ⟨n, t, t', ht, ht', htt⟩
      · rw [he, he']
        exact ⟨rfl, h⟩
      · rw [ht, ht']
        exact ⟨rfl, h.find, h.files, h.fileBytes, htt, h.total, h.stored⟩
    | refcountDecrement d =>
      rw [callHandler]
      dsimp only
      rw [FieldAccess.run, FieldAccess.run]
      rcases RefCount.decrement_congr d h.refs with
        ⟨e, he, he'⟩ | ⟨n, t, t', ht, ht', htt⟩
      · rw [he, he']
        exact ⟨rfl, h⟩
      · rw [ht, ht']
        exact ⟨rfl, h.find, h.files, h.fileBytes, htt, h.total, h.stored⟩
    | refcountGet d => exact ⟨congrArg (Option.map _) (h.refs d).symm, h⟩
    | refcountSizeOf d => exact ⟨congrArg (Option.map _) (h.refs d).symm, h⟩
    | refcountIterRefs => exact he.elim
    | statsAddReference n =>
      exact ⟨rfl, h.find, h.files, h.fileBytes, h.refs, congrArg (· + n) h.total, h.stored⟩
    | statsAddUniqueChunk n =>
      exact ⟨rfl, h.find, h.files, h.fileBytes, h.refs, congrArg (· + n) h.total,
        congrArg (· + n) h.stored⟩
    | statsRemoveReference n =>
      exact ⟨rfl, h.find, h.files, h.fileBytes, h.refs, congrArg (· - n) h.total, h.stored⟩
    | statsRemoveUniqueChunk n =>
      exact ⟨rfl, h.find, h.files, h.fileBytes, h.refs, h.total, congrArg (· - n) h.stored⟩
    | statsReplace st => exact ⟨rfl, h.find, h.files, h.fileBytes, h.refs, rfl, rfl⟩
    | statsGet => exact he.elim

/-- A program that only looks things up returns the same from alike states. -/
theorem Blind.eval {α : Type} {p : BackendM α} (hp : Blind p) {s s' : State} (h : Alike s s') :
    (callHandler.eval p.run s).1 = (callHandler.eval p.run s').1 ∧
      Alike (callHandler.eval p.run s).2 (callHandler.eval p.run s').2 :=
  Uses.eval_congr hp alike_handle h

end Requests

/-! ## The operations that only look things up -/

section Operations

variable (store : ChunkStore) (digest fileId : String)

theorem Confined.blind {K : String → Prop} {α : Type} {p : BackendM α} (h : Confined K p) :
    Blind p := h.mono fun _ hc ↦ hc.storing.blind

private theorem blind_releaseDigest : Blind (flat (store.releaseDigest digest)) := by
  simp only [ChunkStore.releaseDigest, flat_bind, flat_locked, flat_ite, flat_unlocked]
  refine (Makes.mono (makes_chunkSize store digest) fun _ h ↦ h.blind).bind fun size ↦
    (makes_fieldOrThrow trivial).bind fun remaining ↦ makes_ite ?_ ?_
  · exact (makes_backendCall trivial).bind fun _ ↦
      (confined_removeRefcount (K := fun _ ↦ True) trivial trivial).blind.bind
      fun _ ↦ (makes_field trivial).bind fun _ ↦ makes_field trivial
  · exact (confined_saveRefcount (K := fun _ ↦ True) trivial trivial).blind.bind fun _ ↦
      makes_field trivial

theorem blind_releaseDigests (digests : List String) :
    Blind (flat (store.releaseDigests digests)) := by
  induction digests with
  | nil => exact makes_pure _
  | cons d digests ih =>
    rw [ChunkStore.releaseDigests, flat_bind]
    exact (blind_releaseDigest store d).bind fun _ ↦ ih

theorem blind_ingestStream (stream : Stream) : Blind (flat (store.ingestStream fileId stream)) := by
  simp only [ChunkStore.ingestStream, Stream.consume, flat_bind, flat_foldlM, bind_assoc]
  refine (makes_foldlM (fun session chunk ↦ ?_) _ _).bind fun session ↦ ?_
  · simp only [ChunkStore.accept, flat_bind, flat_pure]
    exact (Makes.mono (makes_storeChunk store _ _) fun _ h ↦ h.blind).bind fun _ ↦ makes_pure _
  · refine Makes.bind (by cases stream.error <;> trivial) fun session ↦ ?_
    simp only [ChunkStore.commit, ChunkStore.peekDigests, flat_bind, flat_locked, flat_unlocked]
    refine (makes_field trivial).bind fun old ↦ (makes_fieldOrThrow trivial).bind fun _ ↦
      (confined_saveManifest (K := fun _ ↦ True) trivial trivial).blind.bind fun _ ↦ ?_
    cases old with
    | none => trivial
    | some old =>
      dsimp only
      rw [flat_bind]
      exact (blind_releaseDigests store old).bind fun _ ↦ makes_pure _

theorem blind_delete : Blind (flat (store.delete fileId)) := by
  simp only [ChunkStore.delete, flat_bind, flat_locked, flat_unlocked]
  exact (makes_fieldOrThrow trivial).bind fun digests ↦
    (confined_removeManifest (K := fun _ ↦ True) trivial trivial).blind.bind fun _ ↦
      blind_releaseDigests store digests

theorem blind_readChunkByDigest : Blind (flat (store.readChunkByDigest digest)) := by
  simp only [ChunkStore.readChunkByDigest, flat_bind, flat_unlocked]
  refine (makes_backendCall trivial).bind fun o ↦ ?_
  cases o with
  | none => exact makes_throw _
  | some stored =>
    simp only [flat_bind, flat_ofExcept, flat_pure]
    exact (makes_ofExcept _).bind fun _ ↦ (makes_ofExcept _).bind fun _ ↦ makes_pure _

private theorem blind_writeChunks (digests : List String) (writer : Writer) :
    ((store.writeChunks digests writer).translate Block.body).Uses Call.Blind := by
  induction digests generalizing writer with
  | nil => trivial
  | cons d digests ih =>
    rw [ChunkStore.writeChunks, translate_bind]
    refine Uses.bind (blind_readChunkByDigest store d) fun r ↦ ?_
    cases r with
    | error e => trivial
    | ok chunk =>
      dsimp only
      split
      · trivial
      · exact ih _

theorem blind_read : Blind (flat (store.read fileId)) := by
  rw [Blind, Makes, flat, ExceptT.run_mk, ChunkStore.read, ExceptT.run_mk, translate_bind,
    ChunkStore.readToWriter, translate_bind]
  refine Uses.bind (Uses.bind (p := (flat (ChunkStore.digestsForFile fileId)).run) ?_ fun r ↦ ?_)
    fun r ↦ ?_
  · rw [ChunkStore.digestsForFile, flat_locked]
    exact makes_fieldOrThrow trivial
  · cases r with
    | error e => trivial
    | ok digests => exact blind_writeChunks store digests .vec
  · trivial

end Operations

/-! ## Runs with and without reopens -/

namespace ChunkStore

def Op.isReopen : Op → Bool
  | .reopen => true
  | _ => false

/-- A reply but for `gc_chunks`. -/
def Reply.forgetGc : Reply → Reply
  | .stats st => .stats { st with gcChunks := 0 }
  | reply => reply

/-- The results of a run but for those of its reopens, and but for `gc_chunks`. -/
def laterResults : List Op → List (Except ChunkStoreError Reply) →
    List (Except ChunkStoreError Reply)
  | op :: ops, r :: rs =>
    if op.isReopen then laterResults ops rs
    else r.map Reply.forgetGc :: laterResults ops rs
  | _, _ => []

def withoutReopens (ops : List Op) : List Op := ops.filter fun op ↦ !op.isReopen

/-- What opening the backend of `s` rebuilds. -/
structure Rebuilt (s s' : State) : Prop where
  manifest : ∀ fileId, s'.fields.manifest.tryGet fileId = s.fields.manifest.tryGet fileId
  refcount : ∀ d, s'.fields.refcount.counts.find d = s.fields.refcount.counts.find d
  total : s'.fields.stats.totalBytes = s.fields.stats.totalBytes
  stored : s'.fields.stats.storedBytes = s.fields.stats.storedBytes
  gc : s'.fields.stats.gcChunks = 0

/-- Each index lists exactly the names that have a record, once. The index is no record. -/
structure IndexesExact (crates : Crates) (s : State) : Prop where
  manifest : ∃ l, readIndex crates s manifestIndexKey = some l ∧ l.Nodup ∧
    ∀ fileId, fileId ∈ l ↔ fileId ≠ indexName ∧ (s.find (manifestKey fileId)).isSome
  refcount : ∃ l, readIndex crates s refcountIndexKey = some l ∧ l.Nodup ∧
    ∀ d, d ∈ l ↔ d ≠ indexName ∧ (s.find (refcountKey d)).isSome

variable {store : ChunkStore} {seen : Bytes → Prop} {held : String → ℕ} {s t : State} {op : Op}
  {ops : List Op}

theorem indexesExact_of_rep {pin : Option Pin} (h : Rep store seen pin held s) :
    IndexesExact store.crates s := by
  constructor
  · obtain ⟨l, hl, hnd, hmem⟩ := h.manifest.index
    refine ⟨l, hl, hnd, fun f ↦ ?_⟩
    rw [hmem]
    constructor
    · intro hf
      obtain ⟨ds, hds⟩ := Option.isSome_iff_exists.mp hf
      obtain ⟨n, hn⟩ := Option.isSome_iff_exists.mp ((h.manifest.bytes f).trans hf)
      have hfiles : s.fields.manifest.files.find f = some ds := hds
      refine ⟨(h.manifest.name f hf).2, ?_⟩
      rw [h.manifest.record f (h.manifest.name f hf).2, Manifest.record, hfiles,
        Option.bind_some, hn]
      rfl
    · rintro ⟨hf, hs⟩
      rw [h.manifest.record f hf, Option.isSome_map, Manifest.record] at hs
      cases hfiles : s.fields.manifest.files.find f with
      | some ds => rw [Manifest.tryGet, hfiles]; rfl
      | none =>
        rw [hfiles] at hs
        cases hs
  · obtain ⟨l, hl, hnd, hmem⟩ := h.refcount.index
    refine ⟨l, hl, hnd, fun d ↦ ?_⟩
    rw [hmem]
    constructor
    · intro hd
      obtain ⟨r, hr⟩ := Option.isSome_iff_exists.mp hd
      have hne := ne_of_isChunkDigest (h.refcount.valid d r hr).1 isChunkDigest_indexName
      exact ⟨hne, by rw [h.refcount.record d hne, Option.isSome_map]; exact hd⟩
    · rintro ⟨hd, hs⟩
      rwa [h.refcount.record d hd, Option.isSome_map] at hs

theorem exec_reopen_of_quietly {Q : State → Prop}
    (h : quietly (flat (openStore store.crates)) (fun _ s' ↦ Q s') (fun _ _ ↦ False) s) :
    (store.exec .reopen s).1 = .ok .done ∧ Q (store.exec .reopen s).2 := by
  have hspec := quietly_eval (quietly_reopen h)
  rw [exec, perform, flat_map, ExceptT.run_map, map_eq_pure_bind, Handler.eval_bind]
  revert hspec
  cases (callHandler.eval (flat store.reopen).run s).1 with
  | ok _ => exact fun hspec ↦ ⟨rfl, hspec⟩
  | error e => exact fun hspec ↦ hspec.elim

theorem exec_reopen_alike (h : Rep store seen none held s) (hc : store.codec = none)
    (hnc : NoCollision store.crates.sha256 seen) :
    (store.exec .reopen s).1 = .ok .done ∧ Alike s (store.exec .reopen s).2 ∧
      (store.exec .reopen s).2.fields.stats.gcChunks = 0 :=
  exec_reopen_of_quietly (quietly_openStore_alike h hc hnc)

/-- Alike states in sync give the same result, but for `gc_chunks`, and alike states. -/
theorem exec_alike (h : Rep store seen none held s) (ha : Alike s t)
    (hop : op.isReopen = false) :
    (store.exec op s).1.map Reply.forgetGc = (store.exec op t).1.map Reply.forgetGc ∧
      Alike (store.exec op s).2 (store.exec op t).2 := by
  have ht := h.of_alike ha
  have hblind : Blind (flat (store.perform op)) →
      (store.exec op s).1.map Reply.forgetGc = (store.exec op t).1.map Reply.forgetGc ∧
        Alike (store.exec op s).2 (store.exec op t).2 := fun hb ↦
    ⟨congrArg (Except.map Reply.forgetGc) (hb.eval ha).1, (hb.eval ha).2⟩
  cases op with
  | ingest fileId input =>
    refine hblind ?_
    rw [perform, flat_map, ingestInput_eq]
    exact (blind_ingestStream store fileId _).map
  | delete fileId =>
    refine hblind ?_
    rw [perform, flat_map]
    exact (blind_delete store fileId).map
  | read fileId =>
    refine hblind ?_
    rw [perform, flat_map]
    exact (blind_read store fileId).map
  | readChunk digest =>
    refine hblind ?_
    rw [perform, flat_map]
    exact (blind_readChunkByDigest store digest).map
  | chunkRefcount digest =>
    refine hblind ?_
    rw [perform, flat_map, ChunkStore.chunkRefcount, flat_locked]
    exact (makes_field trivial).map
  | stats =>
    refine ⟨?_, ha⟩
    change Except.ok (Reply.forgetGc (.stats s.fields.stats))
      = Except.ok (Reply.forgetGc (.stats t.fields.stats))
    rw [Reply.forgetGc, Reply.forgetGc, ha.total, ha.stored]
  | fsck repair =>
    have hfsck : ∀ u, Rep store seen none held u →
        (store.exec (.fsck repair) u).1 = .ok (.report {}) ∧
          (store.exec (.fsck repair) u).2 = u := fun u hu ↦ by
      have hspec := exec_spec (.fsck repair) hu (fun c hc ↦ absurd hc List.not_mem_nil)
        fun p hp ↦ by cases hp
      revert hspec
      cases (store.exec (.fsck repair) u).1 with
      | ok reply =>
        rintro ⟨-, hu', rfl⟩
        exact ⟨rfl, hu'⟩
      | error e =>
        rintro (hc | ⟨-, ht⟩)
        · exact hc.elim
        · exact ht.elim
    rw [(hfsck s h).1, (hfsck s h).2, (hfsck t ht).1, (hfsck t ht).2]
    exact ⟨rfl, ha⟩
  | reopen => cases hop

/-- **The run lemma.** A run returns what it returns without its reopens. -/
theorem laterResults_withoutReopens (hc : store.codec = none)
    (hnc : NoCollision store.crates.sha256 seen) (h : Rep store seen none held s)
    (ha : Alike s t) (hs : ∀ op ∈ ops, ∀ chunk ∈ store.chunksOf op, seen chunk)
    (ht : ∀ op ∈ ops, ¬store.CommitsIndexName op) :
    laterResults ops (store.execAll ops s).1
      = laterResults (withoutReopens ops) (store.execAll (withoutReopens ops) t).1 := by
  induction ops generalizing s t held with
  | nil => rfl
  | cons op ops ih =>
    have hs' := fun o ho ↦ hs o (List.mem_cons_of_mem op ho)
    have ht' := fun o ho ↦ ht o (List.mem_cons_of_mem op ho)
    obtain ⟨held', h'⟩ := rep_exec h (hs op List.mem_cons_self) (fun p hp ↦ by cases hp)
      (ht op List.mem_cons_self)
    rw [withoutReopens, execAll, laterResults]
    cases hop : op.isReopen with
    | true =>
      obtain rfl : op = .reopen := by cases op <;> first | rfl | cases hop
      rw [List.filter_cons_of_neg (by simp [hop]), if_pos rfl]
      exact ih h' ((exec_reopen_alike h hc hnc).2.1.symm.trans ha) hs' ht'
    | false =>
      obtain ⟨hr, ha'⟩ := exec_alike h ha hop
      rw [List.filter_cons_of_pos (by simp [hop]), if_neg Bool.false_ne_true, execAll, laterResults,
        hop, if_neg Bool.false_ne_true, hr]
      exact congrArg _ (ih h' ha' hs' ht')

/-- A run without an error never commits a file named like the index. -/
private theorem not_commitsIndexName_of_ok (h : Rep store seen none held s)
    (hs : ∀ op ∈ ops, ∀ chunk ∈ store.chunksOf op, seen chunk)
    (hok : ∀ r ∈ (store.execAll ops s).1, ∃ reply, r = .ok reply) :
    ∀ op ∈ ops, ¬store.CommitsIndexName op := by
  induction ops generalizing s with
  | nil => exact fun op hop ↦ absurd hop List.not_mem_nil
  | cons op ops ih =>
    obtain ⟨reply, hr⟩ := hok _ List.mem_cons_self
    have hspec := exec_spec op h (hs op List.mem_cons_self) fun p hp ↦ by cases hp
    rw [hr] at hspec
    intro o ho
    rcases List.mem_cons.mp ho with rfl | ho
    · cases o with
      | ingest fileId input =>
        obtain ⟨-, -, -, hname, -⟩ := hspec
        exact fun hc ↦ hname hc.1
      | _ => exact fun hc ↦ hc.elim
    · exact ih hspec.1 (fun o ho ↦ hs o (List.mem_cons_of_mem op ho))
        (fun r hr' ↦ hok r (List.mem_cons_of_mem _ hr')) o ho

private theorem ingested_withoutReopens {chunk : Bytes} :
    store.Ingested (withoutReopens ops) chunk ↔ store.Ingested ops chunk := by
  constructor
  · rintro ⟨op, hop, hchunk⟩
    exact ⟨op, List.mem_of_mem_filter hop, hchunk⟩
  · rintro ⟨op, hop, hchunk⟩
    refine ⟨op, List.mem_filter.mpr ⟨hop, ?_⟩, hchunk⟩
    cases op <;> first | rfl | exact absurd hchunk List.not_mem_nil

/-- **Reopening is invisible.** Without a codec, and without a collision among the chunks ingested,
after a run in which every operation returned: opening the backend, whatever the fields are before,
rebuilds the live instance, the two indexes list exactly the records, and every run that differs
from this one in reopens only returns the same results but for `gc_chunks`. -/
theorem reopen_invisible (store : ChunkStore) (hc : store.codec = none) (lists : Bool)
    (ops : List Op) (hnc : NoCollision store.crates.sha256 (store.Ingested ops))
    (hok : ∀ r ∈ (store.run lists ops).1, ∃ reply, r = .ok reply) :
    (∀ fields : Fields,
        (store.exec .reopen ⟨(store.run lists ops).2.backend, fields⟩).1 = .ok .done ∧
          Rebuilt (store.run lists ops).2
            (store.exec .reopen ⟨(store.run lists ops).2.backend, fields⟩).2) ∧
      IndexesExact store.crates (store.run lists ops).2 ∧
      ∀ ops', withoutReopens ops' = withoutReopens ops →
        laterResults ops' (store.run lists ops').1 = laterResults ops (store.run lists ops).1 := by
  have hstart := rep_start store (store.Ingested ops) lists
  have hs : ∀ op ∈ ops, ∀ chunk ∈ store.chunksOf op, store.Ingested ops chunk := fun op hop c hcm ↦
    ⟨op, hop, hcm⟩
  have h : Rep store (store.Ingested ops) none (fun _ ↦ 0) (store.run lists ops).2 :=
    rep_execAll_of_ok hstart hs hok
  obtain ⟨hdone, ha, hgc⟩ := exec_reopen_alike h hc hnc
  refine ⟨fun fields ↦ ?_, indexesExact_of_rep h, fun ops' heq ↦ ?_⟩
  · have hfresh : store.exec .reopen ⟨(store.run lists ops).2.backend, fields⟩
        = store.exec .reopen (store.run lists ops).2 := exec_reopen_fields hdone
    rw [hfresh]
    exact ⟨hdone, ha.files, ha.refs, ha.total, ha.stored, hgc⟩
  have ht := not_commitsIndexName_of_ok hstart hs hok
  have hs' : ∀ op ∈ ops', ∀ chunk ∈ store.chunksOf op, store.Ingested ops chunk :=
    fun op hop c hcm ↦ by
      rw [← ingested_withoutReopens, ← heq, ingested_withoutReopens]
      exact ⟨op, hop, hcm⟩
  have ht' : ∀ op ∈ ops', ¬store.CommitsIndexName op := fun op hop hci ↦ by
    have hmem : op ∈ withoutReopens ops' :=
      List.mem_filter.mpr ⟨hop, by cases op <;> first | rfl | exact hci.elim⟩
    rw [heq] at hmem
    exact ht op (List.mem_of_mem_filter hmem) hci
  have h₁ := laterResults_withoutReopens hc hnc hstart (Alike.refl _) hs ht
  have h₂ := laterResults_withoutReopens hc hnc hstart (Alike.refl _) hs' ht'
  rw [heq] at h₂
  exact h₂.trans h₁.symm

/-- Two files that share a chunk, one of them replaced, and a reopening in between. -/
theorem reopen_invisible_shared :
    laterResults (.reopen :: sharedOps) (smallStore.run true (.reopen :: sharedOps)).1
      = laterResults sharedOps (smallStore.run true sharedOps).1 :=
  (reopen_invisible smallStore rfl true sharedOps (noCollision_ingested (by decide +kernel))
    (exists_reply_of_all (by decide +kernel))).2.2 (.reopen :: sharedOps) rfl

end ChunkStore

end Chunkstore

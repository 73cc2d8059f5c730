import Mathlib.Algebra.BigOperators.Pi
import Chunkstore.Accounting.Summed
import Chunkstore.Concurrent.Blobs

/-!
# Ingesting new files

Threads that ingest new files, each under an id of its own, never release anything: what a commit
looks up is never there. So of the state they share nothing is taken away, and what a thread has
stored and not committed yet is all that stands between the state and its files.

A store decides whether a blob is there under one lock, counts under a second and adds to the
statistics under a third. What a thread carries from one to the next is its `Share`.

## Main result

* `ChunkStore.concurrent_ingests_exact_iff`: when all threads have returned, every new digest has
  been put once, counts and files are exact, and so are the sums if they were so before.
-/

open Effects Program

namespace Chunkstore

/-! ## Puts -/

/-- One for a put under a key. -/
def Call.puts (key : String) {γ : Type} : Call γ → State → ℕ
  | .backend (.put k _), _ => if k = key then 1 else 0
  | _, _ => 0

/-- How often a block puts, key by key. -/
def Block.puts {γ : Type} (s : State) (b : Block γ) : String → ℕ :=
  fun key ↦ callHandler.tally (Call.puts key) b.body s

/-- The world of threads with this tally. -/
abbrev putsWorld : Machine Block (State × (String → ℕ)) := threadWorld Block.puts fun _ _ ↦ True

theorem Call.Keeping.puts_eq_zero {γ : Type} {c : Call γ} (h : c.Keeping) (s : State)
    {digest : String} (hd : isChunkDigest digest = true) : c.puts digest s = 0 := by
  cases c with
  | field a => rfl
  | backend c =>
    cases c with
    | put key data => exact if_neg (ne_of_isChunkDigest hd h).symm
    | get | existsKey | listKeys | delete => rfl

/-! ## Sums -/

/-- The blobs of a state that are chunks. -/
def State.blobs (s : State) : Finset String := (s.backend.data.keys.filter isChunkDigest).toFinset

/-- The digests of all files weighed, each as often as it is listed. -/
def Manifest.weight (size : String → ℕ) (m : Manifest) : ℕ :=
  m.files.sumBy fun digests ↦ (digests.map size).sum

section Sums

variable {s s' : State} {digest fileId : String} {size : String → ℕ} {m m' : Manifest}

theorem mem_blobs : digest ∈ s.blobs ↔ isChunkDigest digest = true ∧ (s.find digest).isSome := by
  rw [State.blobs, List.mem_toFinset, List.mem_filter, Table.mem_keys, and_comm]
  exact Iff.rfl

theorem blobs_congr (h : ∀ d, isChunkDigest d = true → s'.find d = s.find d) :
    s'.blobs = s.blobs := by
  refine Finset.ext fun d ↦ ?_
  rw [mem_blobs, mem_blobs]
  exact and_congr_right fun hd ↦ by rw [h d hd]

/-- A new blob adds its weight. -/
theorem sum_blobs_new (hd : isChunkDigest digest = true) (hold : s.find digest = none)
    (hnew : (s'.find digest).isSome) (h : ∀ k, k ≠ digest → s'.find k = s.find k) :
    ∑ d ∈ s'.blobs, size d = size digest + ∑ d ∈ s.blobs, size d := by
  have hins : s'.blobs = insert digest s.blobs := by
    refine Finset.ext fun d ↦ ?_
    rw [Finset.mem_insert, mem_blobs, mem_blobs]
    by_cases hdd : d = digest
    · rw [hdd]
      exact ⟨fun _ ↦ Or.inl rfl, fun _ ↦ ⟨hd, hnew⟩⟩
    · rw [h d hdd, or_iff_right hdd]
  rw [hins, Finset.sum_insert]
  rw [mem_blobs, hold]
  exact fun h ↦ Bool.noConfusion h.2

/-- A new file adds the weight of its list. -/
theorem weight_of_updated {digests : List String} (h : m.Updated m' fileId (some digests))
    (hnew : m.tryGet fileId = none) :
    m'.weight size = m.weight size + (digests.map size).sum := by
  have hset : m'.weight size
      = Table.sumBy (fun digests ↦ (digests.map size).sum) (m.files.set fileId digests) :=
    Table.sumBy_congr _ fun g ↦ (h g).trans (Table.find_set _ _ _ _).symm
  have hsum := Table.sumBy_set (fun digests ↦ (digests.map size).sum) m.files fileId digests
  rw [show m.files.find fileId = none from hnew] at hsum
  exact hset.trans hsum

end Sums

/-! ## Shares -/

/-- What a thread owns: the files it has still to commit; the blobs that it has found or put and not
counted; and of what it has not committed, the references it has counted, the bytes it has added to
the total, and the bytes it has put and not added to what is stored. -/
@[ext] structure Share where
  files : String → ℕ
  blobs : String → ℕ
  references : String → ℕ
  bytes : ℕ
  debt : ℕ

namespace Share

instance : Add Share where
  add r f := ⟨r.files + f.files, r.blobs + f.blobs, r.references + f.references, r.bytes + f.bytes,
    r.debt + f.debt⟩

instance : Zero Share where
  zero := ⟨0, 0, 0, 0, 0⟩

instance : AddCommMonoid Share where
  add_assoc _ _ _ := Share.ext (add_assoc _ _ _) (add_assoc _ _ _) (add_assoc _ _ _)
    (add_assoc _ _ _) (add_assoc _ _ _)
  zero_add _ := Share.ext (zero_add _) (zero_add _) (zero_add _) (zero_add _) (zero_add _)
  add_zero _ := Share.ext (add_zero _) (add_zero _) (add_zero _) (add_zero _) (add_zero _)
  add_comm _ _ := Share.ext (add_comm _ _) (add_comm _ _) (add_comm _ _) (add_comm _ _)
    (add_comm _ _)
  nsmul := nsmulRec

@[simp] theorem files_add (r f : Share) (g : String) : (r + f).files g = r.files g + f.files g :=
  rfl

@[simp] theorem blobs_add (r f : Share) (d : String) : (r + f).blobs d = r.blobs d + f.blobs d :=
  rfl

@[simp] theorem references_add (r f : Share) (d : String) :
    (r + f).references d = r.references d + f.references d := rfl

@[simp] theorem bytes_add (r f : Share) : (r + f).bytes = r.bytes + f.bytes := rfl

@[simp] theorem debt_add (r f : Share) : (r + f).debt = r.debt + f.debt := rfl

/-- What a thread owns that has the files of `ops` still to ingest. -/
def owed (ops : List ChunkStore.Op) : Share :=
  ⟨fun f ↦ (ops.map ChunkStore.Op.file).count (some f), 0, 0, 0, 0⟩

/-- What a thread owns that has stored these chunks of a file. -/
def stored (crates : Crates) (fileId : String) (chunks : List Bytes) : Share :=
  ⟨fun f ↦ [some fileId].count (some f), 0,
    fun d ↦ (chunks.map (digestHex crates.sha256)).count d, (chunks.map List.length).sum, 0⟩

theorem stored_append (crates : Crates) (fileId : String) (chunks : List Bytes) (chunk : Bytes) :
    stored crates fileId (chunks ++ [chunk]) = stored crates fileId chunks
      + ⟨0, 0, fun d ↦ [digestHex crates.sha256 chunk].count d, chunk.length, 0⟩ := by
  refine Share.ext rfl rfl (funext fun d ↦ ?_) ?_ rfl
  · change ((chunks ++ [chunk]).map _).count d = _
    rw [List.map_append, List.count_append]
    rfl
  · change ((chunks ++ [chunk]).map List.length).sum = _
    rw [List.map_append, List.sum_append]
    rfl

theorem owed_cons (op : ChunkStore.Op) (ops : List ChunkStore.Op) :
    owed (op :: ops) = owed [op] + owed ops := by
  refine Share.ext (funext fun f ↦ ?_) rfl rfl rfl rfl
  change ((op :: ops).map _).count _ = ([op].map _).count _ + (ops.map _).count _
  rw [List.map_cons, ← List.singleton_append, List.count_append]
  rfl

end Share

/-! ## The invariant -/

/-- What a run of ingests keeps: `ops` are the ingests of all threads, `start` is the state they
began in, and `size` weighs the digest of every chunk by its length. -/
structure Ingesting (store : ChunkStore) (seen : Bytes → Prop) (size : String → ℕ)
    (ops : List ChunkStore.Op) (start : State) (r : Share) (c : State × (String → ℕ)) : Prop where
  pending : ∀ f, 0 < r.files f → r.files f = 1 ∧ c.1.fields.manifest.tryGet f = none
  committed : ∀ f input, .ingest f input ∈ ops → r.files f = 0 →
    (input.stream store.crates).error = none ∧ c.1.fields.manifest.tryGet f
      = some ((input.stream store.crates).chunks.map (digestHex store.crates.sha256))
  others : ∀ f, (∀ op ∈ ops, op.file ≠ some f) →
    c.1.fields.manifest.tryGet f = start.fields.manifest.tryGet f
  puts : ∀ d, isChunkDigest d = true → c.2 d = 0 ∧ c.1.find d = start.find d ∨
    c.2 d = 1 ∧ start.find d = none ∧ (c.1.find d).isSome ∧
      ∃ chunk, store.Ingested ops chunk ∧ digestHex store.crates.sha256 chunk = d
  good : ∀ d raw, isChunkDigest d = true → c.1.find d = some raw →
    ∃ data, seen data ∧ store.decodeBlob raw = .ok data ∧ digestHex store.crates.sha256 data = d
  backed : ∀ d, 0 < r.blobs d ∨ 0 < c.1.fields.refcount.countOf d →
    isChunkDigest d = true ∧ (c.1.find d).isSome
  counts : ∀ d, c.1.fields.refcount.countOf d
    = c.1.fields.manifest.occurrences d + r.references d
  mirrors : Mirrors store.crates c.1.fields.refcount c.1
  total : c.1.fields.stats.totalBytes + start.fields.manifest.weight size
    = start.fields.stats.totalBytes + c.1.fields.manifest.weight size + r.bytes
  stored : c.1.fields.stats.storedBytes + r.debt + ∑ d ∈ start.blobs, size d
    = start.fields.stats.storedBytes + ∑ d ∈ c.1.blobs, size d

section Blocks

variable {store : ChunkStore} {seen : Bytes → Prop} {size : String → ℕ} {ops : List ChunkStore.Op}
  {start s s' : State} {r r' : Share} {w w' : String → ℕ} {digest fileId : String} {chunk : Bytes}

theorem Ingesting.aside (h : Ingesting store seen size ops start r (s, w))
    (hf : s'.fields = s.fields) (hfind : ∀ k, OffManifest k → s'.find k = s.find k)
    (hw : ∀ d, isChunkDigest d = true → w' d = w d) :
    Ingesting store seen size ops start r (s', w') := by
  have hblob : ∀ d, isChunkDigest d = true → s'.find d = s.find d := fun d hd ↦
    hfind d (offManifest_of_isChunkDigest hd)
  refine ⟨fun f hpos ↦ ?_, fun f input hin h0 ↦ ?_, fun f hno ↦ ?_, fun d hd ↦ ?_,
    fun d raw hd hraw ↦ ?_, fun d hd ↦ ?_, fun d ↦ ?_, ?_, ?_, ?_⟩
  · rw [hf]
    exact h.pending f hpos
  · rw [hf]
    exact h.committed f input hin h0
  · rw [hf]
    exact h.others f hno
  · dsimp only
    rw [hw d hd, hblob d hd]
    exact h.puts d hd
  · exact h.good d raw hd (hblob d hd ▸ hraw)
  · rw [hf] at hd
    obtain ⟨hdig, hsome⟩ := h.backed d hd
    exact ⟨hdig, (congrArg Option.isSome (hblob d hdig)).trans hsome⟩
  · rw [hf]
    exact h.counts d
  · rw [hf]
    exact h.mirrors.of_find fun d ↦ hfind _ (offManifest_refcountKey d)
  · rw [hf]
    exact h.total
  · rw [hf, blobs_congr hblob]
    exact h.stored

theorem puts_eq_of_keeping {γ : Type} {b : Block γ} (hb : b.Of Call.Keeping) {d : String}
    (hd : isChunkDigest d = true) : (w + b.puts s) d = w d := by
  have h0 : b.puts s d = 0 := Handler.tally_eq_zero hb (fun c s hc ↦ hc.puts_eq_zero s hd) s
  rw [Pi.add_apply, h0, Nat.add_zero]

private theorem puts_putBlob {blob : Bytes} (d : String) :
    (Block.locked .blob (ChunkStore.putBlob digest blob).run).puts s d
      = if digest = d ∧ s.find digest = none then 1 else 0 := by
  rw [Block.puts, ChunkStore.putBlob]
  cases hf : (s.find digest).isSome with
  | true =>
    rw [if_neg fun h ↦ by rw [h.2] at hf; cases hf]
    change 0 + callHandler.tally (Call.puts d)
      (if (s.find digest).isSome = true then _ else _ : BackendM Bool).run s = _
    rw [hf]
    rfl
  | false =>
    have hnone : s.find digest = none :=
      Option.isNone_iff_eq_none.mp (Option.isSome_eq_false_iff.mp hf)
    rw [if_congr (and_iff_left hnone) rfl rfl]
    change 0 + callHandler.tally (Call.puts d)
      (if (s.find digest).isSome = true then _ else _ : BackendM Bool).run s = _
    rw [hf]
    exact Nat.zero_add _

/-- **The blob**: found or put, it is there from then on. What was put is not accounted for yet. -/
theorem owns_putBlob_ingesting {blob : Bytes} (hs : seen chunk) (hin : store.Ingested ops chunk)
    (hblob : store.encodeBlob chunk = .ok blob)
    (hsize : size (digestHex store.crates.sha256 chunk) = chunk.length) :
    owns putsWorld (Ingesting store seen size ops start) (locked .blob
      (ChunkStore.putBlob (digestHex store.crates.sha256 chunk) blob)).run
      (fun present r' ↦ r' = r + ⟨0, fun d ↦ [digestHex store.crates.sha256 chunk].count d, 0, 0,
        if present then 0 else chunk.length⟩) r := by
  set digest := digestHex store.crates.sha256 chunk with hdigest
  have hdig : isChunkDigest digest = true := isChunkDigest_digestHex _ _
  refine owns_locked fun f s w hi _ ↦
    quietly_mono (quietly_putBlob (R := fun _ _ ↦ True)) ?_ fun _ _ h ↦ h
  rintro present s' ⟨rfl, hf, hfind, hself⟩
  have hsome : (s'.find digest).isSome := by
    rw [hself]
    rfl
  have hsame : ∀ d, (s.find d).isSome → s'.find d = s.find d := by
    intro d hd
    by_cases hdd : d = digest
    · obtain ⟨raw, hraw⟩ := Option.isSome_iff_exists.mp hd
      rw [hdd] at hraw ⊢
      rw [hself, hraw, Option.getD_some]
    · exact hfind d hdd
  refine ⟨_, ⟨fun g hpos ↦ ?_, fun g input hg h0 ↦ ?_, fun g hno ↦ ?_, fun d hd ↦ ?_,
    fun d raw hd hraw ↦ ?_, fun d hd ↦ ?_, fun d ↦ ?_, ?_, ?_, ?_⟩, rfl⟩
  · rw [hf]
    exact hi.pending g hpos
  · rw [hf]
    exact hi.committed g input hg h0
  · rw [hf]
    exact hi.others g hno
  · dsimp only
    rw [Pi.add_apply, puts_putBlob]
    by_cases hnew : digest = d ∧ s.find digest = none
    · obtain ⟨rfl, hnone⟩ := hnew
      rw [if_pos ⟨rfl, hnone⟩]
      rcases hi.puts digest hd with ⟨h0, hold⟩ | ⟨-, -, hthere, -⟩
      · exact Or.inr ⟨by rw [show w digest = 0 from h0], by rw [← hold]; exact hnone, hsome,
          chunk, hin, rfl⟩
      · rw [show s.find digest = none from hnone] at hthere
        cases hthere
    · rw [if_neg hnew, Nat.add_zero]
      have hd' : s'.find d = s.find d := by
        by_cases hdd : d = digest
        · refine hsame d (Option.ne_none_iff_isSome.mp fun hnone ↦ hnew ⟨hdd.symm, hdd ▸ hnone⟩)
        · exact hfind d hdd
      rw [hd']
      exact hi.puts d hd
  · by_cases hdd : d = digest
    · rw [hdd] at hraw ⊢
      cases hold : s.find digest with
      | some raw' =>
        rw [hsame digest (by rw [hold]; rfl)] at hraw
        exact hi.good digest raw hdig hraw
      | none =>
        rw [hself, hold, Option.getD_none] at hraw
        obtain rfl := Option.some.inj hraw
        exact ⟨chunk, hs, store.decodeBlob_encodeBlob hblob, rfl⟩
    · exact hi.good d raw hd ((hfind d hdd).symm.trans hraw)
  · by_cases hdd : d = digest
    · rw [hdd]
      exact ⟨hdig, hsome⟩
    · rw [hf] at hd
      have hcount : [digest].count d = 0 :=
        List.count_eq_zero_of_not_mem fun hm ↦ hdd (List.mem_singleton.mp hm)
      obtain ⟨hd', hthere⟩ := hi.backed d (hd.imp_left fun hpos ↦ by
        dsimp only [Share.blobs_add] at hpos ⊢
        omega)
      exact ⟨hd', (congrArg Option.isSome (hfind d hdd)).trans hthere⟩
  · rw [hf]
    exact hi.counts d
  · rw [hf]
    exact hi.mirrors.of_find fun d ↦
      hfind _ (ne_of_isChunkDigest hdig (isChunkDigest_refcountKey d)).symm
  · rw [hf]
    exact hi.total
  · have hst := hi.stored
    rw [hf]
    dsimp only [Share.debt_add] at hst ⊢
    cases hold : s.find digest with
    | some raw =>
      have hsame' : s'.blobs = s.blobs := by
        refine blobs_congr fun d _ ↦ ?_
        by_cases hdd : d = digest
        · exact hsame d (by rw [hdd, hold]; rfl)
        · exact hfind d hdd
      rw [Option.isSome_some, if_pos rfl, hsame', Nat.add_zero]
      exact hst
    | none =>
      rw [Option.isSome_none, if_neg Bool.false_ne_true, sum_blobs_new hdig hold hsome hfind, hsize]
      omega

/-- **The count**: the thread holds the reference from then on. -/
theorem owns_countChunk_ingesting {held : Share} {n debt : ℕ}
    (hdig : isChunkDigest digest = true) :
    owns putsWorld (Ingesting store seen size ops start)
      (locked .refcount (store.countChunk digest n)).run
      (fun _ r' ↦ r' = held + ⟨0, 0, fun d ↦ [digest].count d, 0, debt⟩)
      (held + ⟨0, fun d ↦ [digest].count d, 0, 0, debt⟩) := by
  refine owns_locked fun f s w hi _ ↦
    quietly_mono (quietly_countChunk hi.mirrors hdig) ?_ fun _ _ h ↦ h
  rintro _ s' ⟨count, rc, hinc, hf, hrc, hfind⟩
  have hblob : ∀ d, isChunkDigest d = true → s'.find d = s.find d := fun d hd ↦
    hfind d (offRefcount_of_isChunkDigest hd)
  have hkeep : (Block.locked .refcount (store.countChunk digest n).run).Of Call.Keeping :=
    (makes_fieldOrThrow trivial).bind fun _ ↦ (makes_field trivial).bind fun _ ↦
      (confined_saveRefcount (K := fun k ↦ isChunkDigest k = false)
        (isChunkDigest_refcountKey _) isChunkDigest_refcountIndexKey).mono fun _ hc ↦ hc.keeping
  have hcount : ∀ d, s'.fields.refcount.countOf d
      = s.fields.refcount.countOf d + [digest].count d := by
    intro d
    rw [hf]
    dsimp only
    rw [RefCount.countOf_increment hinc d, List.count_singleton]
    by_cases hdd : d = digest
    · rw [if_pos hdd, hdd, if_pos (beq_self_eq_true digest)]
    · rw [if_neg hdd, if_neg (by simpa using fun h ↦ hdd h.symm), Nat.add_zero]
  refine ⟨_, ⟨fun g hpos ↦ ?_, fun g input hg h0 ↦ ?_, fun g hno ↦ ?_, fun d hd ↦ ?_,
    fun d raw hd hraw ↦ ?_, fun d hd ↦ ?_, fun d ↦ ?_, ?_, ?_, ?_⟩, rfl⟩
  · rw [hf]
    exact hi.pending g hpos
  · rw [hf]
    exact hi.committed g input hg h0
  · rw [hf]
    exact hi.others g hno
  · dsimp only
    rw [puts_eq_of_keeping hkeep hd, hblob d hd]
    exact hi.puts d hd
  · exact hi.good d raw hd (hblob d hd ▸ hraw)
  · obtain ⟨hd', hthere⟩ := hi.backed d (by
      dsimp only [Share.blobs_add, Pi.zero_apply] at hd ⊢
      rw [hcount d] at hd
      omega)
    exact ⟨hd', (congrArg Option.isSome (hblob d hd')).trans hthere⟩
  · have hc := hi.counts d
    rw [hcount d, hf]
    dsimp only [Share.references_add, Pi.zero_apply] at hc ⊢
    omega
  · rw [hf]
    exact hrc
  · rw [hf]
    exact hi.total
  · rw [hf, blobs_congr hblob]
    exact hi.stored

/-- **The statistics**: the bytes are the thread's from then on, and its debt is settled. -/
theorem Ingesting.restated {held f : Share} {count : String → ℕ} {n debt : ℕ} {stats : Stats}
    (h : Ingesting store seen size ops start (held + ⟨0, 0, count, 0, debt⟩ + f) (s, w))
    (ht : stats.totalBytes = s.fields.stats.totalBytes + n)
    (hst : stats.storedBytes = s.fields.stats.storedBytes + debt) :
    Ingesting store seen size ops start (held + ⟨0, 0, count, n, 0⟩ + f)
      (s.withFields { s.fields with stats := stats }, w) := by
  refine ⟨h.pending, h.committed, h.others, h.puts, h.good, h.backed, h.counts,
    h.mirrors.of_find fun _ ↦ rfl, ?_, ?_⟩
  · have htotal := h.total
    dsimp only [Share.bytes_add, State.fields_withFields] at htotal ⊢
    omega
  · have hstored := h.stored
    rw [show (s.withFields { s.fields with stats := stats }).blobs = s.blobs from rfl]
    dsimp only [Share.debt_add, State.fields_withFields] at hstored ⊢
    omega

private theorem owns_stats_ingesting {held : Share} {count : String → ℕ} {n debt : ℕ}
    {a : FieldAccess Unit} (update : Stats → Stats) (ha : (Call.field a).Keeping)
    (hrun : ∀ f : Fields, a.run f = ((), { f with stats := update f.stats }))
    (ht : ∀ stats, (update stats).totalBytes = stats.totalBytes + n)
    (hst : ∀ stats, (update stats).storedBytes = stats.storedBytes + debt) :
    owns putsWorld (Ingesting store seen size ops start) (locked .stats (field a)).run
      (fun _ r' ↦ r' = held + ⟨0, 0, count, n, 0⟩) (held + ⟨0, 0, count, 0, debt⟩) := by
  refine owns_locked fun f s w hi _ ↦ quietly_field ⟨_, ?_, rfl⟩
  rw [hrun]
  have hkeep : (Block.locked .stats (field a).run).Of Call.Keeping := makes_field ha
  exact (hi.restated (ht _) (hst _)).aside rfl (fun _ _ ↦ rfl) fun d hd ↦
    puts_eq_of_keeping hkeep hd

/-- **Storing a chunk** of a run. -/
theorem owns_storeChunk_ingesting (hs : seen chunk) (hin : store.Ingested ops chunk)
    (hsize : size (digestHex store.crates.sha256 chunk) = chunk.length) :
    owns putsWorld (Ingesting store seen size ops start)
      (store.storeChunk (digestHex store.crates.sha256 chunk) chunk).run
      (fun _ r' ↦ r' = r + ⟨0, 0, fun d ↦ [digestHex store.crates.sha256 chunk].count d,
        chunk.length, 0⟩) r := by
  refine owns_storeChunk
    (B := fun present r' ↦ r' = r + ⟨0, fun d ↦ [digestHex store.crates.sha256 chunk].count d, 0, 0,
      if present then 0 else chunk.length⟩)
    (C := fun present r' ↦ r' = r + ⟨0, 0, fun d ↦ [digestHex store.crates.sha256 chunk].count d, 0,
      if present then 0 else chunk.length⟩)
    (fun blob hb ↦ owns_putBlob_ingesting hs hin hb hsize) (fun present r' h ↦ ?_) (fun r' h ↦ ?_)
    fun r' h ↦ ?_
  · rw [h]
    exact owns_countChunk_ingesting (isChunkDigest_digestHex _ _)
  · rw [h]
    exact owns_stats_ingesting (·.addReference chunk.length) trivial (fun _ ↦ rfl) (fun _ ↦ rfl)
      fun _ ↦ rfl
  · rw [h]
    exact owns_stats_ingesting (·.addUniqueChunk chunk.length) trivial (fun _ ↦ rfl)
      (fun _ ↦ rfl) fun _ ↦ rfl

/-- A backend call that writes persisted manifests only. -/
def Block.Files {γ : Type} : Block γ → Prop
  | .call c => c.Confined fun k ↦ ∃ f, k = manifestKey f
  | .locked _ _ => False

private theorem keeps_saveManifest_ingesting {digests : List String} {fileBytes : ℕ}
    {K : Share → Prop}
    (h : K r) : owns putsWorld (Ingesting store seen size ops start)
      (unlocked (saveManifest store.crates fileId digests fileBytes)).run (fun _ ↦ K) r := by
  have hconf : Confined (fun k ↦ ∃ f, k = manifestKey f)
      (saveManifest store.crates fileId digests fileBytes) :=
    confined_saveManifest ⟨fileId, rfl⟩ ⟨indexName, manifestKey_indexName.symm⟩
  have htakes : Takes Block.Files (unlocked (saveManifest store.crates fileId digests fileBytes)) :=
    takes_unlocked hconf fun _ hc ↦ hc
  refine htakes.keeps (fun b r s w hb hi _ ↦ ?_) h
  cases b with
  | locked lock body => exact hb.elim
  | call c =>
    obtain ⟨hf, hfind⟩ := Call.Confined.handled hb s
    refine hi.aside hf (fun k hk ↦ hfind k fun ⟨f, hkf⟩ ↦ hk f hkf) fun d hd ↦
      puts_eq_of_keeping (b := .call c) ⟨?_, fun _ ↦ trivial⟩ hd
    cases c with
    | field a => trivial
    | backend c =>
      cases c with
      | put | delete =>
        obtain ⟨f, rfl⟩ := hb
        exact isChunkDigest_manifestKey f
      | get | existsKey | listKeys => trivial

/-- **Looking up** a list that is not there. -/
theorem owns_peekDigests_ingesting (hr : 0 < r.files fileId) :
    owns putsWorld (Ingesting store seen size ops start) (ChunkStore.peekDigests fileId).run
      (fun old r' ↦ old = none ∧ r' = r) r := by
  refine owns_locked fun f s w hi _ ↦ quietly_field ⟨_, hi.aside rfl (fun _ _ ↦ rfl) fun d hd ↦
    puts_eq_of_keeping (b := .locked .manifest (field (.manifestTryGet fileId)).run)
      (makes_field trivial) hd, ?_, rfl⟩
  refine (hi.pending fileId ?_).2
  rw [Share.files_add]
  omega

/-- **The commit**: what the thread held for a file is the manifest's. -/
theorem owns_insert_ingesting {input : ChunkStore.IngestInput} (hop : .ingest fileId input ∈ ops)
    (hunique : ∀ input', .ingest fileId input' ∈ ops → input' = input)
    (he : (input.stream store.crates).error = none)
    (hsize : ∀ chunk ∈ (input.stream store.crates).chunks,
      size (digestHex store.crates.sha256 chunk) = chunk.length) {fileBytes : ℕ} :
    owns putsWorld (Ingesting store seen size ops start)
      (locked .manifest (fieldOrThrow (.manifestInsert fileId
        ((input.stream store.crates).chunks.map (digestHex store.crates.sha256)) fileBytes))).run
      (fun _ r' ↦ r' = 0) (.stored store.crates fileId (input.stream store.crates).chunks) := by
  set chunks := (input.stream store.crates).chunks
  refine owns_locked fun f s w hi _ ↦ quietly_fieldOrThrow (fun _ hok ↦ ?_) fun _ _ ↦ trivial
  have hputs : (Block.locked .manifest (fieldOrThrow (.manifestInsert fileId
      (chunks.map (digestHex store.crates.sha256)) fileBytes)).run).puts s = 0 := rfl
  rw [hputs, add_zero]
  rw [FieldAccess.run] at hok ⊢
  cases hins : s.fields.manifest.insert fileId (chunks.map (digestHex store.crates.sha256))
      fileBytes with
  | error e =>
    rw [hins] at hok
    cases hok
  | ok m =>
    have hup := Manifest.updated_of_insert hins
    have hfiles : ∀ g, (Share.stored store.crates fileId chunks + f).files g
        = (if g = fileId then 1 else 0) + f.files g := fun g ↦ by
      change [some fileId].count (some g) + _ = _
      rw [List.count_singleton]
      by_cases hg : g = fileId
      · rw [if_pos hg, hg, if_pos (beq_self_eq_true _)]
      · rw [if_neg hg, if_neg (by simpa using fun h ↦ hg h.symm)]
    obtain ⟨hone, hnew⟩ := hi.pending fileId (by rw [hfiles, if_pos rfl]; omega)
    rw [hfiles, if_pos rfl] at hone
    refine ⟨0, ⟨fun g hpos ↦ ?_, fun g input' hg h0 ↦ ?_, fun g hno ↦ ?_, fun d hd ↦ ?_,
      hi.good, fun d hd ↦ hi.backed d hd, fun d ↦ ?_, hi.mirrors.of_find fun _ ↦ rfl, ?_,
      hi.stored⟩, rfl⟩
    · change 0 + f.files g = 1 ∧ m.tryGet g = none
      have hg : g ≠ fileId := by
        rintro rfl
        change 0 < 0 + f.files g at hpos
        omega
      have hold := hi.pending g
      rw [hfiles, if_neg hg] at hold
      rw [hup g, if_neg hg]
      exact hold hpos
    · by_cases hgf : g = fileId
      · rw [hgf] at hg ⊢
        obtain rfl := hunique input' hg
        exact ⟨he, (hup fileId).trans (if_pos rfl)⟩
      · have hold := hi.committed g input' hg (by rw [hfiles, if_neg hgf]; exact h0)
        exact ⟨hold.1, ((hup g).trans (if_neg hgf)).trans hold.2⟩
    · have hgf : g ≠ fileId := fun h ↦ hno _ hop (congrArg some h.symm)
      exact ((hup g).trans (if_neg hgf)).trans (hi.others g hno)
    · exact hi.puts d hd
    · have hc := hi.counts d
      have hocc := hup.occurrences d
      rw [hnew, Option.getD_none, List.count_nil, Option.getD_some] at hocc
      change _ = _ + ((chunks.map (digestHex store.crates.sha256)).count d + f.references d) at hc
      change s.fields.refcount.countOf d = m.occurrences d + (0 + f.references d)
      dsimp only at hc
      omega
    · have ht := hi.total
      have hw : m.weight size = _ := weight_of_updated hup hnew
      have hlen : ((chunks.map (digestHex store.crates.sha256)).map size).sum
          = (chunks.map List.length).sum := by
        rw [List.map_map]
        exact congrArg List.sum (List.map_congr_left hsize)
      change _ = _ + ((chunks.map List.length).sum + f.bytes) at ht
      change s.fields.stats.totalBytes + _ = _ + m.weight size + (0 + f.bytes)
      dsimp only at ht
      omega

/-- **An ingest of a new file** gives back all it owned. -/
theorem owns_ingestStream_ingesting {input : ChunkStore.IngestInput}
    (hop : .ingest fileId input ∈ ops)
    (hunique : ∀ input', .ingest fileId input' ∈ ops → input' = input)
    (hs : ∀ chunk ∈ (input.stream store.crates).chunks, seen chunk)
    (hsize : ∀ chunk, seen chunk → size (digestHex store.crates.sha256 chunk) = chunk.length) :
    owns putsWorld (Ingesting store seen size ops start)
      (store.ingestStream fileId (input.stream store.crates)).run (fun _ r ↦ r = 0)
      (.stored store.crates fileId []) := by
  set stream := input.stream store.crates with hstream
  have hfile : ∀ chunks, 0 < (Share.stored store.crates fileId chunks).files fileId :=
    fun chunks ↦ by
    change 0 < [some fileId].count (some fileId)
    rw [List.count_singleton_self]
    exact Nat.one_pos
  refine owns_mono (owns_ingestStream
    (J := fun l r ↦ ∃ done, done ++ l = stream.chunks ∧ r = .stored store.crates fileId done)
    (K := fun old r ↦ old = [] ∧ stream.error = none ∧
      r = .stored store.crates fileId stream.chunks)
    (N := fun old r ↦ old = [] ∧ r = 0) (L := fun ds r ↦ ds = [] ∧ r = 0)
    ⟨[], rfl, rfl⟩ ?_ ?_ ?_ ?_ ?_) fun _ _ h ↦ h.2
  · rintro chunk l r ⟨done, hdone, rfl⟩
    have hmem : chunk ∈ stream.chunks := by
      rw [← hdone]
      exact List.mem_append_right _ List.mem_cons_self
    refine owns_mono (owns_storeChunk_ingesting (hs chunk hmem) ⟨_, hop, hmem⟩
      (hsize chunk (hs chunk hmem))) fun _ r hr ↦ ⟨done ++ [chunk], ?_, ?_⟩
    · rw [List.append_assoc]
      exact hdone
    · rw [hr, Share.stored_append]
  · rintro r he ⟨done, hdone, rfl⟩
    rw [List.append_nil] at hdone
    rw [hdone]
    refine owns_mono (owns_peekDigests_ingesting (hfile _)) ?_
    rintro _ _ ⟨rfl, rfl⟩
    exact ⟨rfl, he, rfl⟩
  · rintro old r ⟨hold, he, rfl⟩
    exact owns_mono (owns_insert_ingesting hop hunique he fun c hc ↦ hsize c (hs c hc))
      fun _ r hr ↦ ⟨hold, hr⟩
  · rintro old r ⟨hold, rfl⟩
    exact keeps_saveManifest_ingesting ⟨hold, rfl⟩
  · rintro d ds r ⟨hcons, -⟩
    cases hcons

/-- **A thread** gives back all it owned, once its files are ingested. -/
theorem owns_thread_ingesting {l : List ChunkStore.Op} (hl : ∀ op ∈ l, op ∈ ops)
    (hops : ∀ op ∈ ops, ∃ f input, op = .ingest f input)
    (hunique : ∀ f input input', .ingest f input ∈ ops → .ingest f input' ∈ ops → input' = input)
    (hs : ∀ op ∈ ops, ∀ chunk ∈ store.chunksOf op, seen chunk)
    (hsize : ∀ chunk, seen chunk → size (digestHex store.crates.sha256 chunk) = chunk.length) :
    owns putsWorld (Ingesting store seen size ops start) (store.thread l) (fun _ r ↦ r = 0)
      (.owed l) := by
  refine owns_mono (owns_thread (J := fun l r ↦ (∀ op ∈ l, op ∈ ops) ∧ r = .owed l) ?_ l ⟨hl, rfl⟩)
    fun _ _ h ↦ h.2
  rintro op l r ⟨hl, rfl⟩
  have hop := hl op List.mem_cons_self
  obtain ⟨f, input, rfl⟩ := hops op hop
  have hingest := @owns_ingestStream_ingesting store seen size ops start _ _ hop
    (fun input' h ↦ hunique f input input' hop h) (hs _ hop) hsize
  rw [Share.owed_cons, ChunkStore.perform, ChunkStore.ingestInput_eq]
  refine owns_map (owns_mono (owns_frame hingest) ?_)
  rintro _ _ ⟨_, rfl, rfl⟩
  exact ⟨fun op hm ↦ hl op (List.mem_cons_of_mem _ hm), zero_add _⟩

end Blocks

/-! ## Before and after -/

section Whole

variable {store : ChunkStore} {seen : Bytes → Prop} {size : String → ℕ} {s : State}
  {m : ChunkStore.FileMap} {held : String → ℕ}

def Manifest.digests (m : Manifest) : List String := (m.files.pairs.flatMap Prod.snd).dedup

theorem mem_digests {d : String} : d ∈ s.fields.manifest.digests ↔ s.Lists d := by
  rw [Manifest.digests, List.mem_dedup, List.mem_flatMap]
  constructor
  · rintro ⟨⟨f, digests⟩, hf, hd⟩
    exact ⟨f, digests, Table.mem_pairs.mp hf, hd⟩
  · rintro ⟨f, digests, hf, hd⟩
    exact ⟨(f, digests), Table.mem_pairs.mpr hf, hd⟩

theorem lists_of_occurrences_pos {d : String} (h : 0 < s.fields.manifest.occurrences d) :
    s.Lists d := by
  rw [Manifest.occurrences, Table.sumBy_eq_sum, Finset.sum_pos_iff] at h
  obtain ⟨f, -, hf⟩ := h
  cases hget : s.fields.manifest.files.find f with
  | none =>
    rw [hget] at hf
    cases hf
  | some digests =>
    rw [hget] at hf
    exact ⟨f, digests, hget, List.count_pos_iff.mp hf⟩

/-- The statistics are the sums over the files and over the distinct chunks. -/
structure Totalled (store : ChunkStore) (files : ChunkStore.FileMap) (s : State) : Prop where
  total : s.fields.stats.totalBytes
    = (s.fields.manifest.files.keys.map fun f ↦ ((files f).getD []).length).sum
  stored : s.fields.stats.storedBytes
    = (s.fields.manifest.digests.map fun d ↦ (store.content s d).length).sum

/-- The files of a state are those of a map, and its blobs are those of the listed digests. -/
structure Whole (store : ChunkStore) (seen : Bytes → Prop) (m : ChunkStore.FileMap) (s : State) :
    Prop where
  files : ChunkStore.Represents store seen m s
  blobs : ∀ d, isChunkDigest d = true ∧ (s.find d).isSome ↔ s.Lists d
  good : ∀ d raw, isChunkDigest d = true → s.find d = some raw →
    ∃ data, seen data ∧ store.decodeBlob raw = .ok data ∧ digestHex store.crates.sha256 data = d

namespace Whole

theorem content (h : Whole store seen m s) {d : String} (hd : s.Lists d) :
    store.Readable s d ∧ seen (store.content s d) ∧
      digestHex store.crates.sha256 (store.content s d) = d := by
  obtain ⟨hdig, hsome⟩ := (h.blobs d).mpr hd
  obtain ⟨raw, hraw⟩ := Option.isSome_iff_exists.mp hsome
  obtain ⟨data, hseen, hdec, hdata⟩ := h.good d raw hdig hraw
  rw [ChunkStore.content_of_find hraw hdec]
  exact ⟨⟨raw, hraw, data, hdec, hdata⟩, hseen, hdata⟩

theorem exec_read (h : Whole store seen m s) (hnc : NoCollision store.crates.sha256 seen)
    (fileId : String) : (store.exec (.read fileId) s).1 = m.read fileId := by
  have hread : (store.exec (.read fileId) s).1 = _ := ChunkStore.exec_read_of_readable
    fun digests hget d hd ↦ (h.content ⟨fileId, digests, hget, hd⟩).1
  rw [hread, ChunkStore.FileMap.read]
  have hf := h.files fileId
  cases hm : m fileId with
  | none =>
    rw [hm] at hf
    rw [hf]
  | some data =>
    rw [hm] at hf
    obtain ⟨chunks, hseen, rfl, hget⟩ := hf
    rw [hget]
    dsimp only
    rw [flatMap_content fun c hc ↦ ?_]
    obtain ⟨-, hs, hdig⟩ := h.content ⟨fileId, _, hget, List.mem_map_of_mem hc⟩
    exact hnc _ c hs (hseen c hc) hdig

/-- The sums in terms of the weights of the digests. -/
theorem totalled_iff (h : Whole store seen m s)
    (hsize : ∀ chunk, seen chunk → size (digestHex store.crates.sha256 chunk) = chunk.length) :
    Totalled store m s ↔ s.fields.stats.totalBytes = s.fields.manifest.weight size ∧
      s.fields.stats.storedBytes = ∑ d ∈ s.blobs, size d := by
  have htotal : s.fields.manifest.weight size
      = (s.fields.manifest.files.keys.map fun f ↦ ((m f).getD []).length).sum := by
    rw [Manifest.weight, Table.sumBy_eq_sum, List.sum_toFinset _ s.fields.manifest.files.nodup_keys]
    refine congrArg List.sum (List.map_congr_left fun f _ ↦ ?_)
    have hf := h.files f
    cases hm : m f with
    | none =>
      rw [hm, Manifest.tryGet] at hf
      rw [hf]
      rfl
    | some data =>
      rw [hm] at hf
      obtain ⟨chunks, hseen, rfl, hget⟩ := hf
      rw [Manifest.tryGet] at hget
      rw [hget, Option.map_some, Option.getD_some, Option.getD_some, List.length_flatten,
        List.map_map]
      exact congrArg List.sum (List.map_congr_left fun c hc ↦ hsize c (hseen c hc))
  have hstored : ∑ d ∈ s.blobs, size d
      = (s.fields.manifest.digests.map fun d ↦ (store.content s d).length).sum := by
    rw [Manifest.digests, ← List.sum_toFinset _ (List.nodup_dedup _)]
    refine Finset.sum_congr (Finset.ext fun d ↦ ?_) fun d hd ↦ ?_
    · rw [mem_blobs, h.blobs, List.mem_toFinset]
      exact mem_digests.symm
    · obtain ⟨-, hs, hdig⟩ := h.content (mem_digests.mp (List.mem_toFinset.mp hd))
      rw [← hsize _ hs, hdig]
  rw [htotal, hstored]
  exact ⟨fun ht ↦ ⟨ht.total, ht.stored⟩, fun ht ↦ ⟨ht.1, ht.2⟩⟩

end Whole

theorem Rep.whole (h : Rep store seen none (fun _ ↦ 0) s)
    (hm : ChunkStore.Represents store seen m s) : Whole store seen m s := by
  refine ⟨hm, fun d ↦ ⟨fun hd ↦ ?_, fun hd ↦ ?_⟩, h.blobs.holds⟩
  · obtain ⟨r, hr⟩ := Option.isSome_iff_exists.mp ((h.blobs.present d hd.1).symm.trans hd.2)
    have hpos := h.refcount.countOf_pos hr
    rw [h.counted, Nat.add_zero] at hpos
    exact lists_of_occurrences_pos hpos
  · have hpos := hd.occurrences_pos
    rw [← Nat.add_zero (s.fields.manifest.occurrences d), ← h.counted] at hpos
    obtain ⟨r, raw, hr, hraw⟩ := h.blob_of_pos hpos
    exact ⟨(h.refcount.valid d r hr).1, by rw [hraw]; rfl⟩

theorem NoCollision.exists_size {sha256 : Sha256} (h : NoCollision sha256 seen) :
    ∃ size : String → ℕ, ∀ chunk, seen chunk → size (digestHex sha256 chunk) = chunk.length := by
  classical
  refine ⟨fun d ↦ if hd : ∃ chunk, seen chunk ∧ digestHex sha256 chunk = d
    then hd.choose.length else 0, fun chunk hs ↦ ?_⟩
  have hd : ∃ c, seen c ∧ digestHex sha256 c = digestHex sha256 chunk := ⟨chunk, hs, rfl⟩
  dsimp only
  rw [dif_pos hd, h _ chunk hd.choose_spec.1 hs hd.choose_spec.2]

end Whole

/-! ## Runs -/

namespace ChunkStore

variable {store : ChunkStore} {seen : Bytes → Prop} {size : String → ℕ} {s s' : State}
  {m : FileMap} {puts : String → ℕ}

theorem ingesting_start {ops : List Op} (h : Rep store seen none (fun _ ↦ 0) s)
    (hnd : (ops.map Op.file).Nodup)
    (hnew : ∀ f, some f ∈ ops.map Op.file → s.fields.manifest.tryGet f = none) :
    Ingesting store seen size ops s (.owed ops) (s, 0) where
  pending f hpos := by
    have hmem := List.count_pos_iff.mp hpos
    exact ⟨List.count_eq_one_of_mem hnd hmem, hnew f hmem⟩
  committed f input hop h0 :=
    absurd (List.mem_map.mpr ⟨_, hop, rfl⟩ : some f ∈ ops.map Op.file) (List.count_eq_zero.mp h0)
  others _ _ := rfl
  puts _ _ := Or.inl ⟨rfl, rfl⟩
  good := h.blobs.holds
  backed d hd := by
    rcases hd with h0 | hpos
    · cases h0
    · obtain ⟨r, raw, hr, hraw⟩ := h.blob_of_pos hpos
      exact ⟨(h.refcount.valid d r hr).1, by rw [hraw]; rfl⟩
  counts := h.counted
  mirrors := h.refcount.mirrors
  total := rfl
  stored := rfl

private theorem sum_owed (work : List (List Op)) :
    (work.map Share.owed).sum = .owed work.flatten := by
  induction work with
  | nil => rfl
  | cons ops work ih =>
    rw [List.map_cons, List.sum_cons, ih, List.flatten_cons]
    refine Share.ext (funext fun f ↦ ?_) rfl rfl rfl rfl
    change (ops.map _).count _ + (work.flatten.map _).count _
      = ((ops ++ work.flatten).map _).count _
    rw [List.map_append, List.count_append]

/-- At the end the state is whole again, with the new files. -/
private theorem whole_of_ingesting {ops : List Op}
    (h : Ingesting store seen size ops s 0 (s', puts))
    (hw : Whole store seen m s) (hops : ∀ op ∈ ops, ∃ f input, op = .ingest f input)
    (hnd : (ops.map Op.file).Nodup)
    (hnew : ∀ f, some f ∈ ops.map Op.file → s.fields.manifest.tryGet f = none)
    (hs : ∀ op ∈ ops, ∀ chunk ∈ store.chunksOf op, seen chunk) :
    Whole store seen (ops.foldl FileMap.after m) s' := by
  have hcases : ∀ f, (∃ input, .ingest f input ∈ ops) ∨ ∀ op ∈ ops, op.file ≠ some f := by
    intro f
    by_cases hf : ∃ op ∈ ops, op.file = some f
    · obtain ⟨op, hop, hfile⟩ := hf
      obtain ⟨g, input, rfl⟩ := hops op hop
      cases hfile
      exact Or.inl ⟨input, hop⟩
    · exact Or.inr fun op hop hfile ↦ hf ⟨op, hop, hfile⟩
  refine ⟨fun f ↦ ?_, fun d ↦ ⟨fun hd ↦ ?_, fun hd ↦ ?_⟩, h.good⟩
  · rcases hcases f with ⟨input, hop⟩ | hno
    · obtain ⟨he, hget⟩ := h.committed f input hop rfl
      rw [FileMap.foldl_after_ingest hnd hop]
      exact ⟨_, hs _ hop, flatten_stream he, hget⟩
    · rw [FileMap.foldl_after_of_ne hno]
      have hf := hw.files f
      rw [← h.others f hno] at hf
      exact hf
  · rcases h.puts d hd.1 with ⟨-, hfind⟩ | ⟨-, -, -, chunk, ⟨op, hop, hc⟩, hdig⟩
    · have hsome := hd.2
      rw [show s'.find d = s.find d from hfind] at hsome
      obtain ⟨f, digests, hget, hmem⟩ := (hw.blobs d).mp ⟨hd.1, hsome⟩
      refine ⟨f, digests, ?_, hmem⟩
      rcases hcases f with ⟨input, hop⟩ | hno
      · rw [hnew f (List.mem_map.mpr ⟨_, hop, rfl⟩)] at hget
        cases hget
      · exact (h.others f hno).trans hget
    · obtain ⟨f, input, rfl⟩ := hops op hop
      refine ⟨f, _, (h.committed f input hop rfl).2, ?_⟩
      rw [← hdig]
      exact List.mem_map_of_mem hc
  · refine h.backed d (Or.inr ?_)
    have hpos := hd.occurrences_pos
    rw [← Nat.add_zero (s'.fields.manifest.occurrences d)] at hpos
    exact hpos.trans_eq (h.counts d).symm

/-- What a run of ingests is to end in: `files` are the files there should be, `puts` tells how
often the run put each blob. -/
structure IngestedExactly (store : ChunkStore) (files : FileMap) (ops : List Op) (s s' : State)
    (puts : String → ℕ) : Prop where
  /-- Each digest that was not there has been put once, the others not at all. -/
  puts : ∀ op ∈ ops, ∀ chunk ∈ store.chunksOf op,
    puts (digestHex store.crates.sha256 chunk)
      = if (s.find (digestHex store.crates.sha256 chunk)).isSome then 0 else 1
  counts : ∀ d, s'.fields.refcount.countOf d = s'.fields.manifest.occurrences d
  persisted : ∀ d, persistedCount store.crates s' d = s'.fields.manifest.occurrences d
  totalled : Totalled store files s'
  read : ∀ fileId, (store.exec (.read fileId) s').1 = files.read fileId

/-- **Concurrent ingests.** An instance has come out of operations that all returned. Threads ingest
new files on it, each under an id of its own, and their blocks interleave in any way. When all have
returned, each new digest has been put once, the counts in memory and on the backend are the
occurrences over all files, every file reads back its bytes, and the statistics are the sums over
all files and over the distinct chunks: this if and only if they were so before. -/
theorem concurrent_ingests_exact_iff (store : ChunkStore) (lists : Bool) (ops : List Op)
    (hok : ∀ r ∈ (store.run lists ops).1, ∃ reply, r = .ok reply) (work : List (List Op))
    (hwork : ∀ op ∈ work.flatten, ∃ fileId input, op = .ingest fileId input)
    (hdistinct : (work.flatten.map Op.file).Nodup)
    (hnew : ∀ fileId, some fileId ∈ work.flatten.map Op.file →
      (store.run lists ops).2.fields.manifest.tryGet fileId = none)
    (hnc : NoCollision store.crates.sha256 (store.Ingested (ops ++ work.flatten)))
    (s' : State) (puts : String → ℕ) (results : List (List Reply))
    (h : (blockHandler.tallied Block.puts).toMachine.PoolSteps
      (store.threads work, ((store.run lists ops).2, 0)) (returned results, (s', puts))) :
    store.IngestedExactly ((ops ++ work.flatten).foldl FileMap.after .empty) work.flatten
        (store.run lists ops).2 s' puts ↔
      Totalled store (ops.foldl FileMap.after .empty) (store.run lists ops).2 := by
  obtain ⟨size, hsize⟩ := hnc.exists_size
  have hseen : ∀ op ∈ ops ++ work.flatten, ∀ chunk ∈ store.chunksOf op,
      store.Ingested (ops ++ work.flatten) chunk := fun op hop c hc ↦ ⟨op, hop, hc⟩
  have hseen₀ : ∀ op ∈ ops, ∀ chunk ∈ store.chunksOf op, _ := fun op hop ↦
    hseen op (List.mem_append_left _ hop)
  have hseen₁ : ∀ op ∈ work.flatten, ∀ chunk ∈ store.chunksOf op, _ := fun op hop ↦
    hseen op (List.mem_append_right _ hop)
  have hrep := rep_execAll_of_ok (rep_start store _ lists) hseen₀ hok
  obtain ⟨-, -, hm⟩ := (represents_start store _ lists).execAll hnc (rep_start store _ lists) hseen₀
    (ingestsReturned_of_ok hok)
  have hw : Whole store _ _ (store.run lists ops).2 := hrep.whole hm
  have hunique : ∀ f input input', .ingest f input ∈ work.flatten →
      .ingest f input' ∈ work.flatten → input' = input := fun f input input' hop hop' ↦
    (Op.ingest.inj (List.inj_on_of_nodup_map hdistinct hop' hop rfl)).2
  have hend : Ingesting store (store.Ingested (ops ++ work.flatten)) size work.flatten
      (store.run lists ops).2 0 (s', puts) := by
    rw [← List.sum_map_zero (l := work)]
    refine pool_returns (fun ops hops ↦ owns_thread_ingesting
      (fun op hop ↦ List.mem_flatten_of_mem hops hop) hwork hunique hseen₁ hsize) ?_ h.given
    rw [sum_owed]
    exact ingesting_start hrep hdistinct hnew
  have hw' := whole_of_ingesting hend hw hwork hdistinct hnew hseen₁
  have hiff : Totalled store (work.flatten.foldl FileMap.after (ops.foldl FileMap.after .empty)) s'
      ↔ Totalled store (ops.foldl FileMap.after .empty) (store.run lists ops).2 := by
    have ht := hend.total
    have hst := hend.stored
    rw [hw'.totalled_iff hsize, hw.totalled_iff hsize]
    change _ = _ + 0 at ht
    change _ + 0 + _ = _ at hst
    dsimp only at ht hst
    omega
  rw [List.foldl_append, ← hiff]
  refine ⟨fun he ↦ he.totalled, fun ht ↦ ⟨fun op hop chunk hc ↦ ?_, hend.counts, fun d ↦ ?_, ht,
    hw'.exec_read hnc⟩⟩
  · obtain ⟨f, input, rfl⟩ := hwork op hop
    have hlisted : s'.Lists (digestHex store.crates.sha256 chunk) :=
      ⟨f, _, (hend.committed f input hop rfl).2, List.mem_map_of_mem hc⟩
    obtain ⟨hdig, hthere⟩ := (hw'.blobs _).mpr hlisted
    rcases hend.puts _ hdig with ⟨h0, hfind⟩ | ⟨h1, hnone, -⟩
    · dsimp only at h0 hfind
      rw [h0, ← hfind, if_pos hthere]
    · refine h1.trans (if_neg fun hold ↦ ?_).symm
      rw [hnone] at hold
      cases hold
  · exact (hend.mirrors.persistedCount d).trans (hend.counts d)

/-- The statistics are the sums at the start, unless a reopening has measured a blob whose length is
not that of its chunk. -/
theorem totalled_of_measured (store : ChunkStore) (lists : Bool) (ops : List Op)
    (hok : ∀ r ∈ (store.run lists ops).1, ∃ reply, r = .ok reply)
    (hnc : NoCollision store.crates.sha256 (store.Ingested ops))
    (hm : store.MeasuredThroughout lists ops) :
    Totalled store (ops.foldl FileMap.after .empty) (store.run lists ops).2 := by
  have hseen : ∀ op ∈ ops, ∀ chunk ∈ store.chunksOf op, store.Ingested ops chunk :=
    fun op hop c hc ↦ ⟨op, hop, hc⟩
  obtain ⟨size, hsize⟩ := hnc.exists_size
  obtain ⟨-, -, hrepr⟩ :=
    (represents_start store _ lists).execAll hnc (rep_start store _ lists) hseen
    (ingestsReturned_of_ok hok)
  have hrep : Rep store (store.Ingested ops) none (fun _ ↦ 0) (store.run lists ops).2 :=
    rep_execAll_of_ok (rep_start store _ lists) hseen hok
  have hw : Whole store (store.Ingested ops) _ (store.run lists ops).2 := hrep.whole hrepr
  have hacc := accounted_run lists hnc hseen hok hm
  have hlisted : ∀ d, (store.run lists ops).2.Lists d →
      (store.content (store.run lists ops).2 d).length = size d := fun d hd ↦ by
    obtain ⟨-, hs, hdig⟩ := hw.content hd
    rw [← hsize _ hs, hdig]
  refine (hw.totalled_iff hsize).mpr ⟨?_, ?_⟩
  · rw [total_eq_files hrep hacc, Manifest.weight, Table.sumBy_eq_sum, Table.sumBy_eq_sum]
    refine Finset.sum_congr rfl fun f _ ↦ ?_
    cases hf : (store.run lists ops).2.fields.manifest.files.find f with
    | none => rfl
    | some digests =>
      refine congrArg List.sum (List.map_congr_left fun d hd ↦ ?_)
      obtain ⟨r, hr⟩ := RefcountSynced.find_of_pos (hrep.countOf_pos hf hd)
      rw [sizeIn_eq_content hrep hacc hnc (by rw [hr]; rfl)]
      exact hlisted d ⟨f, digests, hf, hd⟩
  · rw [stored_eq_contents hrep hacc hnc,
      ← List.sum_toFinset _ ((store.run lists ops).2.backend.data.nodup_keys.filter isChunkDigest)]
    exact Finset.sum_congr rfl fun d hd ↦ hlisted d ((hw.blobs d).mp (mem_blobs.mp hd))

/-- Two threads that ingest two files of the same chunk. -/
def sameChunk : List (List Op) :=
  [[.ingest "f" (.bytes [0x61])], [.ingest "g" (.bytes [0x61])]]

theorem sameChunk_ingests :
    ∀ op ∈ sameChunk.flatten, ∃ fileId input, op = .ingest fileId input := by
  intro op hop
  rcases List.mem_cons.mp hop with rfl | hop
  · exact ⟨_, _, rfl⟩
  · rw [List.mem_singleton.mp hop]
    exact ⟨_, _, rfl⟩

def sameChunkReplies : List (List Reply) :=
  [[.digests [digestHex smallCrates.sha256 [0x61]]],
    [.digests [digestHex smallCrates.sha256 [0x61]]]]

/-- The end of the run in which the threads take turns. -/
def sameChunkEnd (store : ChunkStore) (s : State) : State × (String → ℕ) :=
  ((blockHandler.tallied Block.puts).schedule (List.replicate 8 [0, 1]).flatten
    (store.threads sameChunk, (s, 0))).2

theorem concurrent_ingests_exact_iff_sameChunk :
    smallStore.IngestedExactly (([] ++ sameChunk.flatten).foldl FileMap.after .empty)
        sameChunk.flatten (smallStore.run true []).2
        (sameChunkEnd smallStore (smallStore.run true []).2).1
        (sameChunkEnd smallStore (smallStore.run true []).2).2 ↔
      Totalled smallStore .empty (smallStore.run true []).2 :=
  concurrent_ingests_exact_iff smallStore true []
    (exists_reply_of_all (by decide +kernel)) sameChunk
    sameChunk_ingests (by decide) (fun _ _ ↦ by rfl) (noCollision_ingested (by decide +kernel)) _ _
    sameChunkReplies (by
      rw [Prod.mk.eta]
      exact schedule_returns _ _ _ sameChunkReplies (by decide +kernel))

/-- Before the ingests a file of the empty chunk was stored through a codec that puts a byte in
front, and the store was opened again: the empty chunk is counted as one byte. -/
theorem concurrent_ingests_not_exact : ¬∀ (store : ChunkStore) (lists : Bool) (ops : List Op),
    (∀ r ∈ (store.run lists ops).1, ∃ reply, r = .ok reply) → ∀ work : List (List Op),
    (∀ op ∈ work.flatten, ∃ fileId input, op = .ingest fileId input) →
    (work.flatten.map Op.file).Nodup →
    (∀ fileId, some fileId ∈ work.flatten.map Op.file →
      (store.run lists ops).2.fields.manifest.tryGet fileId = none) →
    NoCollision store.crates.sha256 (store.Ingested (ops ++ work.flatten)) →
    ∀ (s' : State) (puts : String → ℕ) (results : List (List Reply)),
      (blockHandler.tallied Block.puts).toMachine.PoolSteps
        (store.threads work, ((store.run lists ops).2, 0)) (returned results, (s', puts)) →
      store.IngestedExactly ((ops ++ work.flatten).foldl FileMap.after .empty) work.flatten
        (store.run lists ops).2 s' puts := by
  intro h
  have hnew : ∀ fileId, some fileId ∈ sameChunk.flatten.map Op.file →
      ((coded smallCrates framed).run true
        [.ingest "e" (.chunks [[]]), .reopen]).2.fields.manifest.tryGet fileId = none := by
    intro fileId hf
    rcases List.mem_cons.mp hf with hf | hf
    · obtain rfl := Option.some.inj hf
      decide +kernel
    · obtain rfl := Option.some.inj (List.mem_singleton.mp hf)
      decide +kernel
  have hexact := h (coded smallCrates framed) true [.ingest "e" (.chunks [[]]), .reopen]
    (exists_reply_of_all (by decide +kernel)) sameChunk sameChunk_ingests (by decide) hnew
    (noCollision_ingested (by decide +kernel))
    (sameChunkEnd (coded smallCrates framed) ((coded smallCrates framed).run true
      [.ingest "e" (.chunks [[]]), .reopen]).2).1
    (sameChunkEnd (coded smallCrates framed) ((coded smallCrates framed).run true
      [.ingest "e" (.chunks [[]]), .reopen]).2).2 sameChunkReplies (by
        rw [Prod.mk.eta]
        exact schedule_returns _ _ _ sameChunkReplies (by decide +kernel))
  have htotal := hexact.totalled.total
  revert htotal
  decide +kernel

end ChunkStore

end Chunkstore

import Chunkstore.Chunking.Streaming
import Chunkstore.Refinement.FileMap

/-!
# What a streaming ingest stores

The bindings hand the store a reader of their own. Whether bytes are lost on the way can be seen
from outside: an ingest that returns is followed by a read. `IngestInput.Stores` says that such a
read returns given bytes, unless the ingest fails.

## Main results

* `ChunkStore.ingest_returns`: without a codec and without collisions an ingest fails only on its
  input or its file id.
* `ChunkStore.IngestInput.stores_contents_iff`: of an input that is not refused, exactly its
  contents are stored.
-/

open Effects

namespace Chunkstore

/-! ## Readers that fail -/

namespace Reader

/-- The first error that a reader reports before the end of its input. -/
def failure : Reader → Option String
  | [] => none
  | .error e :: _ => some e
  | .ok block :: reader => if block.1.length = 0 then none else failure reader

theorem delivers_contents {reader : Reader} (h : reader.failure = none) :
    reader.Delivers reader.contents := by
  induction reader with
  | nil => exact .exhausted
  | cons r reader ih =>
    cases r with
    | error e => cases h
    | ok block =>
      rw [failure] at h
      rw [contents]
      split at h
      · rename_i h0
        rw [if_pos h0]
        exact .ended (List.length_eq_zero_iff.mp h0)
      · rename_i h0
        rw [if_neg h0]
        exact .read (mt List.length_eq_zero_iff.mpr h0) (ih h)

theorem stream_of_failure {fastcdc : FastCdc} {reader : Reader} {chunker : Chunker} {e : String}
    (h : reader.failure = some e) : (chunker.stream fastcdc reader).error ≠ none := by
  induction reader generalizing chunker with
  | nil => cases h
  | cons r reader ih =>
    cases r with
    | error e => exact Option.some_ne_none _
    | ok block =>
      rw [failure] at h
      split at h
      · cases h
      · rename_i h0
        rw [Chunker.stream, if_neg h0]
        cases hf : chunker.feed block.1 with
        | error e => exact Option.some_ne_none _
        | ok r => exact ih h

end Reader

namespace ChunkStore

variable {store : ChunkStore} {seen : Bytes → Prop} {held : String → ℕ} {s : State} {data : Bytes}

/-- **An ingest returns.** A store without a codec, in sync, refuses an ingest only for its input or
its file id, as long as chunks do not collide. -/
theorem ingest_returns (fileId : String) (input : IngestInput) (h : Rep store seen none held s)
    (hp : store.Plain seen) (hs : ∀ chunk ∈ (input.stream store.crates).chunks, seen chunk)
    (he : (input.stream store.crates).error = none) (hname : fileId ≠ indexName)
    (hne : fileId ≠ "") :
    ∃ reply, (store.exec (.ingest fileId input) s).1 = .ok reply := by
  have hrefused : quietly (flat (store.perform (.ingest fileId input))) (fun _ _ ↦ True)
      (fun _ _ ↦ False) s := by
    rw [perform, flat_map, ingestInput_eq]
    refine quietly_map (quietly_mono (precisely_ingestStream h hs fun p hp ↦ by cases hp).quietly
      (fun _ _ _ ↦ trivial) ?_)
    rintro e s' (⟨hindex, -⟩ | ⟨-, -, hempty⟩)
    · exact hname hindex
    · exact hne (hempty hp he)
  have hspec := quietly_eval hrefused
  rw [exec]
  revert hspec
  cases (callHandler.eval (flat (store.perform (.ingest fileId input))).run s).1 with
  | ok reply => exact fun _ ↦ ⟨reply, rfl⟩
  | error e => exact fun hspec ↦ hspec.elim

/-! ## Stored or refused -/

/-- An ingest of the input fails, or stores `data`: whatever the run before, a read of the file that
follows the ingest returns `data`. -/
def IngestInput.Stores (input : IngestInput) (data : Bytes) : Prop :=
  ∀ (store : ChunkStore) (lists : Bool) (ops : List Op) (fileId : String),
    NoCollision store.crates.sha256 (store.Ingested (ops ++ [.ingest fileId input])) →
    IngestsReturned ops (store.run lists ops).1 →
      (∃ e, (store.exec (.ingest fileId input) (store.run lists ops).2).1 = .error e) ∨
      (store.exec (.read fileId) (store.run lists (ops ++ [.ingest fileId input])).2).1
        = .ok (.bytes data)

/-- An ingest of the input fails, whatever the run before. -/
def IngestInput.Refused (input : IngestInput) : Prop :=
  ∀ (store : ChunkStore) (lists : Bool) (ops : List Op) (fileId : String),
    NoCollision store.crates.sha256 (store.Ingested (ops ++ [.ingest fileId input])) →
    IngestsReturned ops (store.run lists ops).1 →
      ∃ e, (store.exec (.ingest fileId input) (store.run lists ops).2).1 = .error e

private theorem ingestsReturned_concat {ops : List Op} {op : Op} {s : State}
    (h : IngestsReturned ops (store.execAll ops s).1)
    (hop : IngestReturned op (store.exec op (store.execAll ops s).2).1) :
    IngestsReturned (ops ++ [op]) (store.execAll (ops ++ [op]) s).1 := by
  induction ops generalizing s with
  | nil => exact ⟨hop, trivial⟩
  | cons o ops ih => exact ⟨h.1, ih h.2 hop⟩

/-- After an ingest that returned, the file reads as the contents of the input. -/
theorem read_ingested (store : ChunkStore) (lists : Bool) {ops : List Op} {fileId : String}
    {input : IngestInput}
    (hnc : NoCollision store.crates.sha256 (store.Ingested (ops ++ [.ingest fileId input])))
    (hops : IngestsReturned ops (store.run lists ops).1)
    (hok : ∃ reply, (store.exec (.ingest fileId input) (store.run lists ops).2).1 = .ok reply) :
    (store.exec (.read fileId) (store.run lists (ops ++ [.ingest fileId input])).2).1
      = .ok (.bytes input.contents) := by
  have hread := (refines_fileMap store lists _ hnc (ingestsReturned_concat hops hok)).2.1 fileId
  have hmap : (ops ++ [Op.ingest fileId input]).foldl FileMap.after .empty fileId
      = some input.contents := by
    rw [List.foldl_append]
    exact if_pos rfl
  rw [hread, FileMap.read, hmap]

namespace IngestInput

theorem stores_contents (input : IngestInput) : input.Stores input.contents := by
  intro store lists ops fileId hnc hops
  cases hr : (store.exec (.ingest fileId input) (store.run lists ops).2).1 with
  | error e => exact Or.inl ⟨e, rfl⟩
  | ok reply => exact Or.inr (read_ingested store lists hnc hops ⟨reply, hr⟩)

private theorem error_of_returned {store : ChunkStore} {lists : Bool} {ops : List Op}
    {fileId : String}
    {input : IngestInput} {reply : Reply}
    (hnc : NoCollision store.crates.sha256 (store.Ingested (ops ++ [.ingest fileId input])))
    (hops : IngestsReturned ops (store.run lists ops).1)
    (hr : (store.exec (.ingest fileId input) (store.run lists ops).2).1 = .ok reply) :
    (input.stream store.crates).error = none := by
  obtain ⟨-, ⟨held, hrep⟩, -⟩ := (represents_start store _ lists).execAll hnc
    (rep_start store _ lists) (fun op hop c hc ↦ ⟨op, List.mem_append_left _ hop, hc⟩) hops
  have hspec := exec_spec (.ingest fileId input) hrep
    (fun c hc ↦ ⟨_, List.mem_append_right _ List.mem_cons_self, hc⟩) fun p hp ↦ by cases hp
  rw [run] at hr
  rw [hr] at hspec
  exact hspec.2.2.1

private theorem refused_of_error {input : IngestInput}
    (h : ∀ crates : Crates, (input.stream crates).error ≠ none) : input.Refused := by
  intro store lists ops fileId hnc hops
  cases hr : (store.exec (.ingest fileId input) (store.run lists ops).2).1 with
  | error e => exact ⟨e, rfl⟩
  | ok reply => exact absurd (error_of_returned hnc hops hr) (h store.crates)

theorem Refused.stores {input : IngestInput} (h : input.Refused) (data : Bytes) :
    input.Stores data :=
  fun store lists ops fileId hnc hops ↦ Or.inl (h store lists ops fileId hnc hops)

/-- An input of at most one chunk is ingested, and what is read is its contents and nothing else. -/
private theorem eq_contents_of_stores {input : IngestInput} {data : Bytes} (hs : input.Stores data)
    (he : (input.stream smallCrates).error = none)
    (hone : ∀ a ∈ (input.stream smallCrates).chunks, ∀ b ∈ (input.stream smallCrates).chunks,
      a = b) :
    data = input.contents := by
  have hnc : NoCollision smallStore.crates.sha256
      (smallStore.Ingested ([] ++ [.ingest "f" input])) := by
    rintro a b ⟨_, hop, ha⟩ ⟨_, hop', hb⟩ -
    obtain rfl := List.mem_singleton.mp hop
    obtain rfl := List.mem_singleton.mp hop'
    exact hone a ha b hb
  have hret := ingest_returns "f" input
    (rep_start smallStore (smallStore.Ingested ([] ++ [.ingest "f" input])) true) ⟨rfl, hnc⟩
    (fun c hc ↦ ⟨.ingest "f" input, List.mem_singleton_self _, hc⟩) he (by decide) (by decide)
  have hread := read_ingested smallStore true hnc trivial hret
  rcases hs smallStore true [] "f" hnc trivial with ⟨e, herr⟩ | hdata
  · obtain ⟨reply, hok⟩ := hret
    cases hok.symm.trans herr
  · rw [hread] at hdata
    exact (Reply.bytes.inj (Except.ok.inj hdata)).symm

/-! ## Readers -/

variable {reader : Reader} {n : ℕ} {data : Bytes}

/-- A reader that fails is refused by both streaming variants. -/
theorem refused_of_failure {e : String} (h : reader.failure = some e) (n : ℕ) :
    (readerFixed reader n).Refused ∧ (readerCdc reader).Refused := by
  refine ⟨refused_of_error fun crates ↦ ?_, refused_of_error fun crates ↦ ?_⟩
  · rw [stream]
    split
    · exact Option.some_ne_none _
    · exact Reader.stream_of_failure h
  · exact Reader.stream_of_failure h

theorem eq_contents_of_readerFixed (h : reader.failure = none)
    (hs : (readerFixed reader (reader.contents.length + 1)).Stores data) :
    data = reader.contents := by
  have hd := Reader.delivers_contents h
  have hchunks : (readerFixed reader (reader.contents.length + 1)).stream smallCrates
      = ⟨List.windows (reader.contents.length + 1) reader.contents, none⟩ := by
    rw [stream_readerFixed hd, stream, dif_neg (Nat.succ_ne_zero _), bufferStream_fixed]
  refine eq_contents_of_stores hs (by rw [hchunks]) ?_
  rw [hchunks]
  by_cases hnil : reader.contents = []
  · rw [hnil, List.windows_nil]
    exact fun a ha ↦ absurd ha List.not_mem_nil
  · rw [List.windows_of_length_le (Nat.succ_pos _) hnil (Nat.le_succ _)]
    intro a ha b hb
    rw [List.mem_singleton.mp ha, List.mem_singleton.mp hb]

/-- **What is stored of a reader that does not fail is its contents.** -/
theorem stores_contents_iff (h : reader.failure = none) :
    (∀ n, (readerFixed reader n).Stores data ∧ (readerCdc reader).Stores data) ↔
      data = reader.contents := by
  constructor
  · exact fun hs ↦ eq_contents_of_readerFixed h (hs _).1
  · rintro rfl n
    exact ⟨stores_contents _, stores_contents _⟩

end IngestInput

end ChunkStore

end Chunkstore

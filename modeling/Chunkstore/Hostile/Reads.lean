import Mathlib.Data.List.Infix
import Chunkstore.Refinement.FileMap

/-!
# Reads against a hostile backend

During a read the backend answers as it likes, each time anew, and between any two steps everything
may change: that covers corruption, concurrent deletes and replacements, and stale readers. What a
read returns is verified chunk by chunk, so it is fixed by the digest list taken at the start.

A hash has collisions, so that the bytes are *the* data of an ingest can only be said of chunks that
do not collide with those ingested. `ChunkStore.Verified` compares the two at each place.

## Main result

* `ChunkStore.reads_verified`.
-/

open Effects Program

namespace Chunkstore

/-- A backend that answers anything, under fields that are what they are. -/
def hostileCall : Machine Call State where
  step
    | s, .backend _, _, s' => s'.fields = s.fields
    | s, .field a, r, s' => r = (a.run s.fields).1 ∧ s' = s.withFields (a.run s.fields).2

/-- The world of a thread among others on a hostile backend: after every block everything may have
changed. -/
def hostile : Machine Block State where
  step
    | s, .call c, r, _ => ∃ s', hostileCall.step s c r s'
    | s, .locked _ body, r, _ => ∃ s', hostileCall.Steps (body, s) (.ret r, s')

section Rules

variable {α γ : Type} {Q : α → State → Prop} {R : ChunkStoreError → State → Prop} {s : State}

/-- Whatever the backend answers, the continuation is prepared for it. -/
theorem wpx_hostile_backend {c : BackendCall α} (hQ : ∀ a s', Q a s') (hR : ∀ e s', R e s') :
    wpx hostile .any (unlocked (backendCall c)) Q R s := by
  refine fun r s' _ ↦ ⟨trivial, ?_⟩
  cases r with
  | ok a => exact hQ a s'
  | error e => exact hR e s'

/-- A locked access to the fields sees them as they are when it runs. -/
theorem wpx_hostile_field {lock : Mutex} {a : FieldAccess (Except ChunkStoreError α)}
    (hQ : ∀ r, (a.run s.fields).1 = .ok r → ∀ s', Q r s')
    (hR : ∀ e, (a.run s.fields).1 = .error e → ∀ s', R e s') :
    wpx hostile .any (locked lock (fieldOrThrow a)) Q R s := by
  rintro r s' ⟨s₁, hsteps⟩
  have hrun : r = (a.run s.fields).1 :=
    wp_steps (M := hostileCall) (G := .any) (Q := fun r _ ↦ r = (a.run s.fields).1)
      (c := ((fieldOrThrow a).run, s)) (fun r s' hs ↦ ⟨trivial, hs.1⟩) hsteps
  refine ⟨trivial, ?_⟩
  cases r with
  | ok b => exact hQ b hrun.symm s'
  | error e => exact hR e hrun.symm s'

theorem wpx_hostile_ofExcept {r : Except ChunkStoreError α} (hQ : ∀ a, r = .ok a → ∀ s', Q a s')
    (hR : ∀ e s', R e s') : wpx hostile .any (ofExcept r : StoreM α) Q R s := by
  cases r with
  | ok a => exact hQ a rfl s
  | error e => exact hR e s

end Rules

/-! ## Writing -/

/-- A writer gets a beginning of the buffer, and all of it when nothing fails. -/
theorem writeAll_out (results : List WriteResult) (buf out : Bytes) :
    ∃ b, (writeAll results buf out).2.out = out ++ b ∧ b <+: buf ∧
      ((writeAll results buf out).1 = .ok () → b = buf) := by
  induction results, buf, out using writeAll.induct with
  | case1 results out => exact ⟨[], by rw [writeAll, List.append_nil], List.nil_prefix, fun _ ↦ rfl⟩
  | case2 buf out hne => exact ⟨buf, by rw [writeAll_nil], List.prefix_refl buf, fun _ ↦ rfl⟩
  | case3 results buf out hne =>
    refine ⟨[], ?_, List.nil_prefix, fun h ↦ ?_⟩
    · rw [writeAll, List.append_nil]
      exact hne
    · rw [writeAll] at h
      · cases h
      · exact hne
  | case4 n results buf out hne ih =>
    obtain ⟨b, hout, hpre, hall⟩ := ih
    rw [writeAll]
    · refine ⟨buf.take (n + 1) ++ b, by rw [hout, List.append_assoc], ?_, fun h ↦ ?_⟩
      · conv_rhs => rw [← List.take_append_drop (n + 1) buf]
        exact (List.prefix_append_right_inj _).mpr hpre
      · rw [hall h, List.take_append_drop]
    · exact hne
  | case5 results buf out hne ih =>
    rw [writeAll]
    · exact ih
    · exact hne
  | case6 msg results buf out hne =>
    refine ⟨[], ?_, List.nil_prefix, fun h ↦ ?_⟩
    · rw [writeAll, List.append_nil]
      exact hne
    · rw [writeAll] at h
      · cases h
      · exact hne

namespace ChunkStore

variable (store : ChunkStore)

/-! ## Reading -/

/-- Chunks whose digests begin a list. -/
def Begins (chunks : List Bytes) (digests : List String) : Prop :=
  chunks.map (digestHex store.crates.sha256) <+: digests

/-- Two lists of chunks with no collision at any place. -/
def NoCollisionAt (chunks ingested : List Bytes) : Prop :=
  ∀ e ∈ chunks.zip ingested,
    digestHex store.crates.sha256 e.1 = digestHex store.crates.sha256 e.2 → e.1 = e.2

/-- The data a reader may get of a digest list: the concatenation of chunks that have these digests
in this order, hence the data of whichever ingest produced the list. -/
def Verified (digests : List String) (data : Bytes) : Prop :=
  ∃ chunks : List Bytes, chunks.map (digestHex store.crates.sha256) = digests ∧
    data = chunks.flatten ∧
    ∀ input : IngestInput, (input.stream store.crates).error = none →
      digests = (input.stream store.crates).chunks.map (digestHex store.crates.sha256) →
        store.NoCollisionAt chunks (input.stream store.crates).chunks → data = input.contents

/-- The same for a beginning of the data. -/
def VerifiedPrefix (digests : List String) (data : Bytes) : Prop :=
  ∃ chunks : List Bytes, store.Begins chunks digests ∧ data <+: chunks.flatten ∧
    ∀ input : IngestInput, (input.stream store.crates).error = none →
      digests = (input.stream store.crates).chunks.map (digestHex store.crates.sha256) →
        store.NoCollisionAt chunks (input.stream store.crates).chunks → data <+: input.contents

variable {store} {chunks ingested : List Bytes} {digests : List String} {data : Bytes} {s : State}

/-- Without a collision at any place, chunks that begin a list are those ingested. -/
theorem Begins.isPrefix
    (h : store.Begins chunks (ingested.map (digestHex store.crates.sha256)))
    (hnc : store.NoCollisionAt chunks ingested) : chunks <+: ingested := by
  induction chunks generalizing ingested with
  | nil => exact List.nil_prefix
  | cons c chunks ih =>
    cases ingested with
    | nil => exact absurd (List.prefix_nil.mp h) (List.cons_ne_nil _ _)
    | cons d ingested =>
      rw [Begins, List.map_cons, List.map_cons, List.cons_prefix_cons] at h
      refine List.cons_prefix_cons.mpr ⟨hnc (c, d) List.mem_cons_self h.1, ih h.2 fun e he ↦ ?_⟩
      exact hnc e (List.mem_cons_of_mem _ he)

theorem verifiedPrefix_of_begins (h : store.Begins chunks digests) (hd : data <+: chunks.flatten) :
    store.VerifiedPrefix digests data := by
  refine ⟨chunks, h, hd, fun input he hdig hnc ↦ ?_⟩
  rw [hdig] at h
  obtain ⟨rest, hrest⟩ := Begins.isPrefix h hnc
  rw [← flatten_stream he, ← hrest, List.flatten_append]
  exact hd.trans (List.prefix_append _ _)

theorem verified_of_map (h : chunks.map (digestHex store.crates.sha256) = digests) :
    store.Verified digests chunks.flatten := by
  refine ⟨chunks, h, rfl, fun input he hdig hnc ↦ ?_⟩
  have hb : store.Begins chunks
      ((input.stream store.crates).chunks.map (digestHex store.crates.sha256)) := by
    rw [Begins, h, hdig]
  have hlen : chunks.length = (input.stream store.crates).chunks.length := by
    have hl := congrArg List.length (h.trans hdig)
    rwa [List.length_map, List.length_map] at hl
  rw [← flatten_stream he, (Begins.isPrefix hb hnc).eq_of_length hlen]

/-- A chunk that is returned hashes to what was asked for, whatever the backend answered. -/
theorem wpx_readChunkByDigest (digest : String) :
    wpx hostile .any (store.readChunkByDigest digest)
      (fun chunk _ ↦ digestHex store.crates.sha256 chunk = digest) (fun _ _ ↦ True) s := by
  rw [readChunkByDigest, wpx_bind]
  refine wpx_hostile_backend (fun o s' ↦ ?_) fun _ _ ↦ trivial
  cases o with
  | none => trivial
  | some stored =>
    dsimp only
    rw [wpx_bind]
    refine wpx_hostile_ofExcept (fun chunk _ s' ↦ ?_) fun _ _ ↦ trivial
    rw [wpx_bind]
    exact wpx_hostile_ofExcept (fun _ hv _ ↦ verifyDigest_eq_ok.mp hv) fun _ _ ↦ trivial

/-- What a writer has got when the loop ends: verified chunks in order, all of them if it ends
well. -/
def Delivered (store : ChunkStore) (digests : List String) (out : Bytes)
    (r : Except ChunkStoreError Unit × Writer) : Prop :=
  ∃ chunks data, store.Begins chunks digests ∧ data <+: chunks.flatten ∧ r.2.out = out ++ data ∧
    (r.1 = .ok () → chunks.map (digestHex store.crates.sha256) = digests ∧ data = chunks.flatten)

/-- **The loop invariant**: whatever was written so far, the rest is delivered after it. -/
theorem wp_writeChunks_hostile (digests : List String) (writer : Writer) :
    wp hostile .any (store.writeChunks digests writer)
      (fun r _ ↦ store.Delivered digests writer.out r) s := by
  induction digests generalizing writer s with
  | nil =>
    exact ⟨[], [], List.prefix_refl _, List.prefix_refl _, (List.append_nil _).symm,
      fun _ ↦ ⟨rfl, rfl⟩⟩
  | cons d digests ih =>
    have hnone : ∀ e, store.Delivered (d :: digests) writer.out (.error e, writer) := fun e ↦
      ⟨[], [], List.nil_prefix, List.prefix_refl _, (List.append_nil _).symm, fun h ↦ by cases h⟩
    rw [writeChunks, wp_bind]
    refine wp_post (wpx_readChunkByDigest d) fun r s' hr ↦ ?_
    cases r with
    | error e => exact hnone e
    | ok chunk =>
      have hdig : digestHex store.crates.sha256 chunk = d := hr
      obtain ⟨b, hout, hpre, hall⟩ := writeAll_out writer.results chunk writer.out
      dsimp only
      split
      · rename_i e writer' hw
        rw [hw] at hout
        refine ⟨[chunk], b, ?_, ?_, hout, fun h ↦ by cases h⟩
        · rw [Begins, List.map_cons, hdig]
          exact List.cons_prefix_cons.mpr ⟨rfl, List.nil_prefix⟩
        · rw [List.flatten_cons, List.flatten_nil, List.append_nil]
          exact hpre
      · rename_i writer' hw
        rw [hw] at hout hall
        refine wp_post (ih writer') fun r s'' hr ↦ ?_
        obtain ⟨chunks, data, hb, hd, ho, hok⟩ := hr
        refine ⟨chunk :: chunks, chunk ++ data, ?_, ?_, ?_, fun h ↦ ?_⟩
        · rw [Begins, List.map_cons, hdig]
          exact List.cons_prefix_cons.mpr ⟨rfl, hb⟩
        · rw [List.flatten_cons]
          exact (List.prefix_append_right_inj _).mpr hd
        · rw [ho, hout, hall rfl, List.append_assoc]
        · rw [List.map_cons, hdig, (hok h).1, List.flatten_cons, (hok h).2]
          exact ⟨rfl, rfl⟩

private theorem wp_readToWriter_hostile (fileId : String) (writer : Writer) :
    wp hostile .any (store.readToWriter fileId writer)
      (fun r _ ↦ match s.fields.manifest.tryGet fileId with
        | some digests => store.Delivered digests writer.out r
        | none => (∃ e, r.1 = .error e) ∧ r.2 = writer) s := by
  have hget : wpx hostile .any (digestsForFile fileId)
      (fun digests _ ↦ s.fields.manifest.tryGet fileId = some digests)
      (fun _ _ ↦ s.fields.manifest.tryGet fileId = none) s := by
    rw [digestsForFile]
    refine wpx_hostile_field (fun digests hok _ ↦ ?_) fun e herr _ ↦ ?_
    · rw [FieldAccess.run, Manifest.get] at hok
      rw [Manifest.tryGet]
      split at hok <;> cases hok
      assumption
    · rw [FieldAccess.run, Manifest.get] at herr
      rw [Manifest.tryGet]
      split at herr <;> cases herr
      assumption
  rw [readToWriter, wp_bind]
  refine wp_post hget fun r s' hr ↦ ?_
  cases r with
  | error e =>
    have hnone : s.fields.manifest.tryGet fileId = none := hr
    rw [hnone]
    exact ⟨⟨e, rfl⟩, rfl⟩
  | ok digests =>
    have hsome : s.fields.manifest.tryGet fileId = some digests := hr
    rw [hsome]
    exact wp_writeChunks_hostile digests writer

/-- **Reads are tamper-evident.** Whatever the backend answers at each step and whatever other
threads do meanwhile: a read that returns has the verified data of the list the manifest had at the
start; a read to a writer that fails has given it a beginning of that data; a chunk that is returned
hashes to the key it was asked for under. -/
theorem reads_verified (store : ChunkStore) (fileId : String) (s : State) :
    (∀ data s', hostile.Steps ((store.read fileId).run, s) (.ret (.ok data), s') →
      ∃ digests, s.fields.manifest.tryGet fileId = some digests ∧ store.Verified digests data) ∧
    (∀ writer e writer' s',
      hostile.Steps (store.readToWriter fileId writer, s) (.ret (.error e, writer'), s') →
        ∃ data, writer'.out = writer.out ++ data ∧
          match s.fields.manifest.tryGet fileId with
          | some digests => store.VerifiedPrefix digests data
          | none => data = []) ∧
    (∀ key data s', hostile.Steps ((store.readChunk key).run, s) (.ret (.ok data), s') →
      digestHex store.crates.sha256 data = key) := by
  refine ⟨fun data s' hs ↦ ?_, fun writer e writer' s' hs ↦ ?_, fun key data s' hs ↦ ?_⟩
  · have hw : wp hostile .any (store.read fileId).run (fun r _ ↦ ∀ data, r = .ok data →
        ∃ digests, s.fields.manifest.tryGet fileId = some digests ∧ store.Verified digests data)
        s := by
      rw [read, ExceptT.run_mk, wp_bind]
      refine wp_post (wp_readToWriter_hostile fileId .vec) fun r s' hr ↦ ?_
      rintro data hdata
      obtain ⟨r, writer⟩ := r
      cases hm : s.fields.manifest.tryGet fileId with
      | none =>
        rw [hm] at hr
        obtain ⟨⟨e, he⟩, -⟩ := hr
        dsimp only at he
        subst he
        cases hdata
      | some digests =>
        rw [hm] at hr
        obtain ⟨chunks, b, -, -, hout, hok⟩ := hr
        cases r with
        | error e => cases hdata
        | ok u =>
          cases hdata
          obtain ⟨hmap, rfl⟩ := hok rfl
          refine ⟨digests, rfl, ?_⟩
          rw [show writer.out = chunks.flatten from hout]
          exact verified_of_map hmap
    exact wp_steps hw hs data rfl
  · have hr := wp_steps (wp_readToWriter_hostile fileId writer) hs
    cases hm : s.fields.manifest.tryGet fileId with
    | none =>
      rw [hm] at hr
      refine ⟨[], ?_, rfl⟩
      rw [show writer' = writer from hr.2, List.append_nil]
    | some digests =>
      rw [hm] at hr
      obtain ⟨chunks, b, hb, hpre, hout, -⟩ := hr
      exact ⟨b, hout, verifiedPrefix_of_begins hb hpre⟩
  · exact wp_steps (c := ((store.readChunk key).run, s))
      (Q := outcome (fun chunk _ ↦ digestHex store.crates.sha256 chunk = key) fun _ _ ↦ True)
      (wpx_readChunkByDigest key) hs

private theorem hostile_step_handle {γ : Type} (b : Block γ) (s : State) :
    hostile.step s b (blockHandler.handle b s).1 (blockHandler.handle b s).2 := by
  have hcall : ∀ {δ : Type} (c : Call δ) (s : State),
      hostileCall.step s c (callHandler.handle c s).1 (callHandler.handle c s).2 := by
    intro δ c s
    cases c with
    | backend c => exact rfl
    | field a => exact ⟨rfl, rfl⟩
  cases b with
  | call c => exact ⟨_, hcall c s⟩
  | locked lock body => exact ⟨_, Handler.steps_eval (M := hostileCall) hcall body s⟩

/-- A file that was ingested and is read. -/
theorem reads_verified_ingested : ∃ digests,
    (smallStore.run true [.ingest "f" (.bytes [0x61])]).2.fields.manifest.tryGet "f"
      = some digests ∧
      smallStore.Verified digests [0x61] := by
  refine (reads_verified smallStore "f" _).1 [0x61] (blockHandler.eval (smallStore.read "f").run
    (smallStore.run true [.ingest "f" (.bytes [0x61])]).2).2 ?_
  have hok : (blockHandler.eval (smallStore.read "f").run
      (smallStore.run true [.ingest "f" (.bytes [0x61])]).2).1 = .ok [0x61] := by decide +kernel
  have hsteps := Handler.steps_eval (M := hostile) hostile_step_handle (smallStore.read "f").run
    (smallStore.run true [.ingest "f" (.bytes [0x61])]).2
  rwa [hok] at hsteps

end ChunkStore

end Chunkstore

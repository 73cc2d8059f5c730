import Mathlib.Algebra.Group.Pi.Basic
import Mathlib.Algebra.Group.Prod
import Chunkstore.Concurrent.Blocks
import Chunkstore.Effects.Trace

/-!
# Blobs under concurrency

A blob is unlinked by a thread that has made up its mind earlier: a release that took the last
reference, a repair that did not find the digest among the counted ones. In between another thread
may find the blob present and rely on it.

What has to be known of a digest at the unlinking is that no file lists it and that no ingest has
checked for its blob without having committed since. The first is a matter of the state. For the
second, a run is given a tally of the checks and of the commits.

## Main results

In runs in which every blob is unlinked under that condition:

* `ChunkStore.concurrent_blobs_kept`: every digest of every file keeps its blob.
* `ChunkStore.concurrent_files_kept`: every file reads back the bytes it was ingested with.
-/

open Effects Program

namespace Chunkstore

/-- A digest is in the list of some file. -/
def State.Lists (s : State) (digest : String) : Prop :=
  ∃ fileId digests, s.fields.manifest.tryGet fileId = some digests ∧ digest ∈ digests

theorem State.Lists.occurrences_pos {s : State} {digest : String} (h : s.Lists digest) :
    0 < s.fields.manifest.occurrences digest := by
  obtain ⟨fileId, digests, hget, hd⟩ := h
  exact (List.count_pos_iff.mpr hd).trans_le (Manifest.count_le_occurrences hget digest)

/-- Every digest that is listed is a chunk name and has a blob. -/
def State.Backed (s : State) : Prop :=
  ∀ d, s.Lists d → isChunkDigest d = true ∧ (s.find d).isSome

/-! ## Chunks stored and chunks committed -/

/-- One for the check for a blob. -/
def Call.checks (digest : String) {γ : Type} : Call γ → State → ℕ
  | .backend (.existsKey key), _ => if key = digest then 1 else 0
  | _, _ => 0

/-- How often a digest occurs in a list that is inserted. -/
def Call.inserts (digest : String) {γ : Type} : Call γ → State → ℕ
  | .field (.manifestInsert _ digests _), _ => digests.count digest
  | _, _ => 0

/-- How often a block stores a chunk of a digest. -/
def Block.stores (digest : String) (s : State) {γ : Type} : Block γ → ℕ
  | .locked .blob body => callHandler.tally (Call.checks digest) body s
  | _ => 0

/-- What a block stores and what it commits, digest by digest. -/
def Block.chunks {γ : Type} (s : State) (b : Block γ) : (String → ℕ) × (String → ℕ) :=
  (fun d ↦ b.stores d s, fun d ↦ callHandler.tally (Call.inserts d) b.body s)

/-- A blob that is unlinked is listed by no file, and every ingest that has stored its chunk has
committed. -/
def Call.Spares (c : State × (String → ℕ) × (String → ℕ)) {γ : Type} : Call γ → Prop
  | .backend (.delete key) => isChunkDigest key = true →
    c.1.fields.manifest.occurrences key = 0 ∧ c.2.1 key = c.2.2 key
  | _ => True

/-- The condition under which a step is taken. -/
def Block.Spares (c : State × (String → ℕ) × (String → ℕ)) {γ : Type} : Block γ → Prop
  | .call e => e.Spares c
  | .locked _ _ => True

instance (c : State × (String → ℕ) × (String → ℕ)) {γ : Type} (e : Call γ) :
    Decidable (e.Spares c) :=
  match e with
  | .backend (.delete key) => inferInstanceAs (Decidable (isChunkDigest key = true →
    c.1.fields.manifest.occurrences key = 0 ∧ c.2.1 key = c.2.2 key))
  | .backend (.get _) => .isTrue trivial
  | .backend (.put _ _) => .isTrue trivial
  | .backend (.existsKey _) => .isTrue trivial
  | .backend (.listKeys _) => .isTrue trivial
  | .field _ => .isTrue trivial

instance (c : State × (String → ℕ) × (String → ℕ)) {γ : Type} (b : Block γ) :
    Decidable (b.Spares c) :=
  match b with
  | .call e => inferInstanceAs (Decidable (e.Spares c))
  | .locked _ _ => .isTrue trivial

/-- The world of threads with this tally and this condition. -/
abbrev sparingWorld : Machine Block (State × (String → ℕ) × (String → ℕ)) :=
  threadWorld Block.chunks fun c b ↦ b.Spares c

/-! ## The invariant -/

/-- `r` counts the chunks that threads have stored and not yet committed. They and what is listed
have blobs, all blobs are good and all lists come from somewhere. -/
structure Kept (good : Bytes → String → Prop) (source : String → List String → Prop)
    (r : String → ℕ) (c : State × (String → ℕ) × (String → ℕ)) : Prop where
  pending : ∀ d, c.2.1 d = c.2.2 d + r d
  backed : ∀ d, 0 < r d ∨ c.1.Lists d → isChunkDigest d = true ∧ (c.1.find d).isSome
  good : ∀ d raw, isChunkDigest d = true → c.1.find d = some raw → good raw d
  source : ∀ fileId digests, c.1.fields.manifest.tryGet fileId = some digests →
    source fileId digests

/-- A request that writes no chunk and commits nothing. -/
def Call.Keeping {γ : Type} : Call γ → Prop
  | .backend (.put key _) => isChunkDigest key = false
  | .backend (.delete key) => isChunkDigest key = false
  | .field (.construct _ _) => False
  | .field (.manifestInsert _ _ _) => False
  | _ => True

/-- The unlinking of a key. -/
def Call.Unlinks {γ : Type} : Call γ → Prop
  | .backend (.delete _) => True
  | _ => False

/-- A block of such requests that does not store a chunk, or an unlinking. -/
def Block.Keeping {γ : Type} : Block γ → Prop
  | .call c => c.Unlinks ∨ c.Keeping
  | .locked lock body => lock ≠ .blob ∧ body.Uses Call.Keeping

theorem Call.Looking.keeping {γ : Type} {c : Call γ} (h : c.Looking) : c.Keeping := by
  cases c with
  | backend c =>
    cases c with
    | get | existsKey | listKeys => trivial
    | put | delete => exact h.elim
  | field a =>
    cases a with
    | manifestGet | refcountGet | refcountSizeOf | refcountIterRefs | statsGet => trivial
    | _ => exact h.elim

theorem Call.Confined.keeping {γ : Type} {c : Call γ}
    (h : c.Confined fun k ↦ isChunkDigest k = false) : c.Keeping := by
  cases c with
  | backend c =>
    cases c with
    | put key data => exact h
    | delete key => exact h
    | get | existsKey => trivial
    | listKeys => exact h.elim
  | field a => exact h.elim

section Invariant

variable {store : ChunkStore} {good : Bytes → String → Prop} {source : String → List String → Prop}
  {r held : String → ℕ} {s s' : State} {w w' : (String → ℕ) × (String → ℕ)} {digest fileId : String}

theorem Kept.frame (h : Kept good source r (s, w))
    (hfind : ∀ d, isChunkDigest d = true → 0 < r d ∨ s.Lists d → s'.find d = s.find d)
    (hraw : ∀ d raw, isChunkDigest d = true → s'.find d = some raw → s.find d = some raw)
    (hm : ∀ f l, s'.fields.manifest.tryGet f = some l → s.fields.manifest.tryGet f = some l) :
    Kept good source r (s', w) where
  pending := h.pending
  backed d hd := by
    have hd' : 0 < r d ∨ s.Lists d := hd.imp id fun ⟨f, l, hget, hl⟩ ↦ ⟨f, l, hm f l hget, hl⟩
    obtain ⟨hdig, hsome⟩ := h.backed d hd'
    exact ⟨hdig, (congrArg Option.isSome (hfind d hdig hd')).trans hsome⟩
  good d raw hdig hraw' := h.good d raw hdig (hraw d raw hdig hraw')
  source f l hget := h.source f l (hm f l hget)

theorem tryGet_of_keeping {γ : Type} {a : FieldAccess γ} (ha : (Call.field a).Keeping) {f : Fields}
    {g : String} {l : List String} (h : (a.run f).2.manifest.tryGet g = some l) :
    f.manifest.tryGet g = some l := by
  cases a with
  | construct | manifestInsert => exact ha.elim
  | manifestRemove k =>
    have hup := Manifest.updated_remove f.manifest k g
    change (f.manifest.remove k).2.tryGet g = some l at h
    rw [h] at hup
    split at hup
    · cases hup
    · exact hup.symm
  | refcountIncrement d n =>
    rw [FieldAccess.run] at h
    split at h <;> exact h
  | refcountDecrement d =>
    rw [FieldAccess.run] at h
    split at h <;> exact h
  | _ => exact h

private theorem eval_keeping {α : Type} {p : Program Call α} (hp : p.Uses Call.Keeping)
    (s : State) :
    (∀ d, isChunkDigest d = true → (callHandler.eval p s).2.find d = s.find d) ∧
      ∀ f l, (callHandler.eval p s).2.fields.manifest.tryGet f = some l →
        s.fields.manifest.tryGet f = some l := by
  refine wp_eval (H := callHandler) (G := .any) (Uses.wp hp (I := fun s' ↦
    (∀ d, isChunkDigest d = true → s'.find d = s.find d) ∧
      ∀ f l, s'.fields.manifest.tryGet f = some l → s.fields.manifest.tryGet f = some l)
    (fun c s₁ x s₂ hc hi hs ↦ ⟨trivial, ?_⟩) ⟨fun _ _ ↦ rfl, fun _ _ h ↦ h⟩)
  obtain rfl := (Prod.mk.inj hs).2
  cases c with
  | backend c =>
    cases c with
    | get | existsKey | listKeys => exact hi
    | put key data =>
      exact ⟨fun d hd ↦ (State.find_put_ne (ne_of_isChunkDigest hd hc)).trans (hi.1 d hd), hi.2⟩
    | delete key =>
      exact ⟨fun d hd ↦ (State.find_del_ne (ne_of_isChunkDigest hd hc)).trans (hi.1 d hd), hi.2⟩
  | field a => exact ⟨hi.1, fun f l hget ↦ hi.2 f l (tryGet_of_keeping hc hget)⟩

private theorem tally_inserts_eq_zero {α : Type} {p : Program Call α} (hp : p.Uses Call.Keeping)
    (s : State) (d : String) : callHandler.tally (Call.inserts d) p s = 0 :=
  Handler.tally_eq_zero hp (fun c s hc ↦ by
    cases c with
    | backend c => rfl
    | field a =>
      cases a with
      | manifestInsert => exact hc.elim
      | _ => rfl) s

/-- Blocks that do not matter keep the invariant, an unlinking under the condition among them. -/
theorem Kept.keeping {γ : Type} {b : Block γ} (hb : b.Keeping) (h : Kept good source r (s, w))
    (hs : b.Spares (s, w)) :
    Kept good source r ((callHandler.eval b.body s).2, w + b.chunks s) := by
  have hof : b.Of Call.Keeping → (∀ d, b.stores d s = 0) →
      Kept good source r ((callHandler.eval b.body s).2, w + b.chunks s) := by
    intro hb hstores
    obtain ⟨hfind, hm⟩ := eval_keeping hb s
    have hzero : b.chunks s = 0 :=
      Prod.ext (funext hstores) (funext fun d ↦ tally_inserts_eq_zero hb s d)
    rw [hzero, add_zero]
    exact h.frame (fun d hd _ ↦ hfind d hd) (fun d raw hd hraw ↦ (hfind d hd).symm.trans hraw) hm
  cases b with
  | locked lock body =>
    refine hof hb.2 fun d ↦ ?_
    cases lock with
    | blob => exact absurd rfl hb.1
    | manifest | refcount | stats => rfl
  | call c =>
    rcases hb with hunlink | hkeep
    · cases c with
      | field a => exact hunlink.elim
      | backend c =>
        cases c with
        | get | put | existsKey | listKeys => exact hunlink.elim
        | delete key =>
          have hzero : (Block.call (.backend (.delete key))).chunks s = 0 := rfl
          rw [hzero, add_zero]
          have hne : ∀ d, isChunkDigest d = true → 0 < r d ∨ s.Lists d → d ≠ key := by
            rintro d hd hneed rfl
            obtain ⟨hocc, hw⟩ := hs hd
            have hp := h.pending d
            rcases hneed with hr | hl
            · dsimp only at hp hw
              omega
            · exact absurd hocc (Nat.pos_iff_ne_zero.mp hl.occurrences_pos)
          refine h.frame (fun d hd hneed ↦ State.find_del_ne (hne d hd hneed))
            (fun d raw _ hraw ↦ ?_) fun _ _ hget ↦ hget
          change (s.del key).find d = some raw at hraw
          rw [State.find_del] at hraw
          split at hraw
          · cases hraw
          · exact hraw
    · exact hof ⟨hkeep, fun _ ↦ trivial⟩ fun _ ↦ rfl

/-! ## Storing and committing -/

/-- Storing a chunk is one check for its blob. -/
private theorem stores_putBlob {blob : Bytes} (d : String) :
    (Block.locked .blob (ChunkStore.putBlob digest blob).run).stores d s = [digest].count d := by
  have hchecks : (Block.locked .blob (ChunkStore.putBlob digest blob).run).stores d s
      = (if digest = d then 1 else 0) + 0 := by
    rw [Block.stores, ChunkStore.putBlob]
    cases hf : (s.find digest).isSome with
    | true =>
      change _ + callHandler.tally (Call.checks d)
        (if (s.find digest).isSome = true then _ else _ : BackendM Bool).run s = _
      rw [hf]
      rfl
    | false =>
      change _ + callHandler.tally (Call.checks d)
        (if (s.find digest).isSome = true then _ else _ : BackendM Bool).run s = _
      rw [hf]
      rfl
  rw [hchecks, List.count_singleton, Nat.add_zero]
  by_cases hd : digest = d
  · rw [if_pos hd, if_pos (by simpa using hd)]
  · rw [if_neg hd, if_neg (by simpa using hd)]

private theorem chunks_putBlob (blob : Bytes) :
    (Block.locked .blob (ChunkStore.putBlob digest blob).run).chunks s
      = (fun d ↦ [digest].count d, 0) :=
  Prod.ext (funext fun d ↦ stores_putBlob d) (funext fun d ↦
    Handler.tally_eq_zero (makes_putBlob digest blob) (fun c s hc ↦ by
      cases c with
      | backend c => rfl
      | field a =>
        cases a with
        | manifestInsert => exact hc.elim
        | _ => rfl) s)

/-- Storing a chunk: its blob is there, and is needed from then on. -/
theorem owns_putBlob_kept {blob : Bytes} (hdig : isChunkDigest digest = true)
    (hgood : good blob digest) :
    owns sparingWorld (Kept good source) (locked .blob (ChunkStore.putBlob digest blob)).run
      (fun _ r' ↦ r' = fun d ↦ r d + [digest].count d) r := by
  refine owns_locked fun f s w hi _ ↦
    quietly_mono (quietly_putBlob (R := fun _ _ ↦ True)) ?_ fun _ _ h ↦ h
  rintro present s' ⟨-, hf, hfind, hblob⟩
  have hlists : ∀ d, s'.Lists d → s.Lists d := by
    rintro d ⟨g, l, hget, hd⟩
    rw [hf] at hget
    exact ⟨g, l, hget, hd⟩
  refine ⟨_, ⟨fun d ↦ ?_, fun d hd ↦ ?_, fun d raw hd hraw ↦ ?_, fun g l hget ↦ ?_⟩, rfl⟩
  · have hp := hi.pending d
    rw [chunks_putBlob]
    change w.1 d + [digest].count d = w.2 d + 0 + (r d + [digest].count d + f d)
    dsimp only [Pi.add_apply] at hp
    omega
  · by_cases hde : d = digest
    · rw [hde]
      exact ⟨hdig, by rw [hblob]; rfl⟩
    · have hold : 0 < (r + f) d ∨ s.Lists d := by
        refine hd.imp (fun hr ↦ ?_) (hlists d)
        have hcount : [digest].count d = 0 :=
          List.count_eq_zero_of_not_mem fun hm ↦ hde (List.mem_singleton.mp hm)
        dsimp only [Pi.add_apply] at hr ⊢
        omega
      rw [hfind d hde]
      exact hi.backed d hold
  · by_cases hde : d = digest
    · rw [hde] at hraw hd ⊢
      rw [hblob] at hraw
      cases hold : s.find digest with
      | some raw' =>
        rw [hold] at hraw
        cases hraw
        exact hi.good digest _ hd hold
      | none =>
        rw [hold] at hraw
        cases hraw
        exact hgood
    · rw [hfind d hde] at hraw
      exact hi.good d raw hd hraw
  · rw [hf] at hget
    exact hi.source g l hget

/-- Committing a list: its chunks are listed from then on. -/
theorem owns_insert_kept (held : String → ℕ) {digests : List String} {fileBytes : ℕ}
    (hr : ∀ d, r d = held d + digests.count d) (hsource : source fileId digests) :
    owns sparingWorld (Kept good source)
      (locked .manifest (fieldOrThrow (.manifestInsert fileId digests fileBytes))).run
      (fun _ r' ↦ r' = held) r := by
  refine owns_locked fun f s w hi _ ↦ quietly_fieldOrThrow (fun _ hok ↦ ?_) fun _ _ ↦ trivial
  rw [FieldAccess.run] at hok ⊢
  cases hins : s.fields.manifest.insert fileId digests fileBytes with
  | error e =>
    rw [hins] at hok
    cases hok
  | ok m =>
    have hup := Manifest.updated_of_insert hins
    refine ⟨held, ⟨fun d ↦ ?_, fun d hd ↦ ?_, hi.good, fun g l hget ↦ ?_⟩, rfl⟩
    · have hp := hi.pending d
      rw [Pi.add_apply, hr d] at hp
      change w.1 d + 0 = w.2 d + (digests.count d + 0) + (held d + f d)
      dsimp only at hp
      omega
    · refine hi.backed d ?_
      rcases hd with hheld | ⟨g, l, hget, hl⟩
      · refine Or.inl ?_
        have hrd := hr d
        dsimp only [Pi.add_apply] at hheld ⊢
        omega
      · change m.tryGet g = some l at hget
        rw [hup g] at hget
        split at hget
        · cases hget
          refine Or.inl ?_
          have hrd := hr d
          have hpos := List.count_pos_iff.mpr hl
          dsimp only [Pi.add_apply]
          omega
        · exact Or.inr ⟨g, l, hget, hl⟩
    · change m.tryGet g = some l at hget
      rw [hup g] at hget
      split at hget
      · rename_i hg
        cases hget
        rw [hg]
        exact hsource
      · exact hi.source g l hget

/-! ## Code that does not matter -/

theorem Block.Looks.keeping {γ : Type} {b : Block γ} (h : b.Looks) : b.Keeping := by
  cases b with
  | call c => exact Or.inr (Call.Looking.keeping h)
  | locked lock body => exact ⟨h.1, Uses.mono h.2 fun _ hc ↦ hc.keeping⟩

theorem takes_keeping_field {α : Type} {lock : Mutex} {a : FieldAccess α} (hl : lock ≠ .blob)
    (h : (Call.field a).Keeping) : Takes Block.Keeping (locked lock (field a)) :=
  takes_locked ⟨hl, makes_field h⟩

theorem takes_keeping_confined {α : Type} {p : BackendM α}
    (h : Confined (fun k ↦ isChunkDigest k = false) p) : Takes Block.Keeping (unlocked p) :=
  takes_unlocked h fun _ hc ↦ Or.inr hc.keeping

theorem takes_keeping_releaseDigest : Takes Block.Keeping (store.releaseDigest digest) := by
  have hremove : Confined (fun k ↦ isChunkDigest k = false) (removeRefcount store.crates digest) :=
    confined_removeRefcount (isChunkDigest_refcountKey digest) isChunkDigest_refcountIndexKey
  refine ((takes_chunkSize store digest).mono fun _ hb ↦ hb.keeping).bind fun size ↦
    Takes.bind (takes_locked ⟨by decide, makes_fieldOrThrow trivial⟩) fun remaining ↦ ?_
  dsimp only
  split
  · exact Takes.bind ⟨Or.inl trivial, fun _ ↦ trivial⟩ fun _ ↦
      (takes_keeping_confined hremove).bind fun _ ↦
        Takes.bind (takes_keeping_field (by decide) trivial) fun _ ↦
          takes_keeping_field (by decide) trivial
  · exact Takes.bind (takes_keeping_confined (confined_saveRefcount
      (isChunkDigest_refcountKey digest) isChunkDigest_refcountIndexKey)) fun _ ↦
        takes_keeping_field (by decide) trivial

private theorem takes_keeping_releaseDigests (digests : List String) :
    Takes Block.Keeping (store.releaseDigests digests) := by
  induction digests with
  | nil => exact takes_pure _
  | cons d digests ih => exact takes_keeping_releaseDigest.bind fun _ ↦ ih

private theorem takes_keeping_delete : Takes Block.Keeping (store.delete fileId) :=
  Takes.bind (takes_locked ⟨by decide, makes_fieldOrThrow trivial⟩) fun digests ↦
    (takes_keeping_confined (confined_removeManifest (isChunkDigest_manifestKey fileId)
      isChunkDigest_manifestIndexKey)).bind fun _ ↦ takes_keeping_releaseDigests digests

theorem keeps_keeping {α : Type} {p : StoreM α} (hp : Takes Block.Keeping p)
    {K : (String → ℕ) → Prop} (h : K r) :
    owns sparingWorld (Kept good source) p.run (fun _ ↦ K) r :=
  hp.keeps (fun _ _ _ _ hb hi hs ↦ hi.keeping hb hs) h

/-! ## Operations -/

/-- **Ingest**, of chunks whose blobs are good and a list that comes from somewhere. -/
theorem owns_ingestStream_kept {stream : Stream}
    (hgood : ∀ chunk ∈ stream.chunks, ∀ blob, store.encodeBlob chunk = .ok blob →
      good blob (digestHex store.crates.sha256 chunk))
    (hsource : stream.error = none →
      source fileId (stream.chunks.map (digestHex store.crates.sha256))) :
    owns sparingWorld (Kept good source) (store.ingestStream fileId stream).run
      (fun _ r ↦ r = 0) 0 := by
  have hcons : ∀ (e : String) (l : List String) (d : String),
      (e :: l).count d = l.count d + [e].count d := fun e l d ↦ by
    rw [← List.singleton_append, List.count_append, Nat.add_comm]
  refine owns_mono (owns_ingestStream
    (J := fun l r ↦ (∀ c ∈ l, c ∈ stream.chunks) ∧
      ∀ d, r d + (l.map (digestHex store.crates.sha256)).count d
        = (stream.chunks.map (digestHex store.crates.sha256)).count d)
    (K := fun _ r ↦ stream.error = none ∧
      ∀ d, r d = (stream.chunks.map (digestHex store.crates.sha256)).count d)
    (N := fun _ r ↦ r = 0) (L := fun _ r ↦ r = 0)
    ⟨fun _ hc ↦ hc, fun d ↦ Nat.zero_add _⟩ (fun chunk l r hJ ↦ ?_) (fun r he hJ ↦ ?_)
    (fun old r hK ↦ ?_) (fun old r hK ↦ ?_) fun d ds r hL ↦ ?_) fun _ r h ↦ h
  · have hdone : (∀ c ∈ l, c ∈ stream.chunks) ∧ ∀ d,
        r d + [digestHex store.crates.sha256 chunk].count d
          + (l.map (digestHex store.crates.sha256)).count d
          = (stream.chunks.map (digestHex store.crates.sha256)).count d := by
      refine ⟨fun c hc ↦ hJ.1 c (List.mem_cons_of_mem chunk hc), fun d ↦ ?_⟩
      have hJd := hJ.2 d
      rw [List.map_cons, hcons] at hJd
      omega
    refine owns_storeChunk
      (B := fun _ r' ↦ r' = fun d ↦ r d + [digestHex store.crates.sha256 chunk].count d)
      (C := fun _ r' ↦ r' = fun d ↦ r d + [digestHex store.crates.sha256 chunk].count d)
      (fun blob hb ↦ owns_putBlob_kept (isChunkDigest_digestHex _ _)
        (hgood chunk (hJ.1 chunk List.mem_cons_self) blob hb)) (fun present r' h ↦ ?_)
      (fun r' h ↦ ?_) fun r' h ↦ ?_
    · refine keeps_keeping (takes_locked ⟨by decide, ?_⟩) h
      refine (makes_fieldOrThrow trivial).bind fun _ ↦ (makes_field trivial).bind fun _ ↦ ?_
      exact (confined_saveRefcount (K := fun k ↦ isChunkDigest k = false)
        (isChunkDigest_refcountKey _) isChunkDigest_refcountIndexKey).mono fun _ hc ↦ hc.keeping
    · rw [h]
      exact keeps_keeping (takes_keeping_field (by decide) (by trivial)) hdone
    · rw [h]
      exact keeps_keeping (takes_keeping_field (by decide) (by trivial)) hdone
  · exact keeps_keeping (takes_keeping_field (by decide) (by trivial)) ⟨he, hJ.2⟩
  · refine owns_insert_kept 0 (fun d ↦ ?_) (hsource hK.1)
    rw [hK.2 d]
    exact (Nat.zero_add _).symm
  · exact keeps_keeping (takes_keeping_confined (confined_saveManifest
      (isChunkDigest_manifestKey fileId) isChunkDigest_manifestIndexKey)) hK
  · exact keeps_keeping takes_keeping_releaseDigest hL

/-- **An operation** has nothing pending before and nothing after. -/
theorem owns_perform_kept {op : ChunkStore.Op} (hop : op ≠ .reopen)
    (hgood : ∀ chunk ∈ store.chunksOf op, ∀ blob, store.encodeBlob chunk = .ok blob →
      good blob (digestHex store.crates.sha256 chunk))
    (hsource : ∀ fileId input, op = .ingest fileId input →
      (input.stream store.crates).error = none →
        source fileId ((input.stream store.crates).chunks.map (digestHex store.crates.sha256))) :
    owns sparingWorld (Kept good source) (store.perform op).run (fun _ r ↦ r = 0) 0 := by
  have hlook : ∀ {op : ChunkStore.Op}, op.Inspects →
      owns sparingWorld (Kept good source) (store.perform op).run (fun _ r ↦ r = 0) 0 :=
    fun h ↦ keeps_keeping ((takes_inspect store _ h).mono fun _ hb ↦ hb.keeping) rfl
  cases op with
  | ingest fileId input =>
    rw [ChunkStore.perform, ChunkStore.ingestInput_eq]
    exact owns_map (owns_ingestStream_kept hgood (hsource fileId input rfl))
  | delete fileId => exact owns_map (keeps_keeping takes_keeping_delete rfl)
  | read | readChunk | stats | chunkRefcount => exact hlook trivial
  | fsck repair =>
    exact owns_map (keeps_keeping (takes_fsck (fun _ hb ↦ hb.keeping) (fun _ ↦ Or.inl trivial)
      repair) rfl)
  | reopen => exact absurd rfl hop

/-- **Runs** keep the invariant. -/
theorem kept_of_returned {work : List (List ChunkStore.Op)} {results : List (List ChunkStore.Reply)}
    (hwork : ∀ ops ∈ work, ∀ op ∈ ops, op ≠ .reopen)
    (hgood : ∀ ops ∈ work, ∀ op ∈ ops, ∀ chunk ∈ store.chunksOf op, ∀ blob,
      store.encodeBlob chunk = .ok blob → good blob (digestHex store.crates.sha256 chunk))
    (hsource : ∀ ops ∈ work, ∀ fileId input, .ingest fileId input ∈ ops →
      (input.stream store.crates).error = none →
        source fileId ((input.stream store.crates).chunks.map (digestHex store.crates.sha256)))
    (h : Kept good source 0 (s, w))
    (hs : sparingWorld.PoolSteps (store.threads work, (s, w))
      (ChunkStore.returned results, (s', w'))) : Kept good source 0 (s', w') := by
  have hzero : (work.map fun _ ↦ (0 : String → ℕ)).sum = 0 := List.sum_eq_zero fun r hr ↦ by
    obtain ⟨_, -, rfl⟩ := List.mem_map.mp hr
    rfl
  rw [← hzero]
  refine pool_returns (fun ops hops ↦
    (?_ : owns sparingWorld (Kept good source) (store.thread ops) (fun _ r ↦ r = 0)
      ((fun _ ↦ 0 : List ChunkStore.Op → String → ℕ) ops))) (by rwa [hzero]) hs
  refine owns_mono (owns_thread (J := fun l r ↦ (∀ op ∈ l, op ∈ ops) ∧ r = 0)
    (fun op l r hJ ↦ ?_) ops ⟨fun _ h ↦ h, rfl⟩) fun _ _ h ↦ h.2
  have hop := hJ.1 op List.mem_cons_self
  rw [hJ.2]
  refine owns_mono (owns_perform_kept (hwork ops hops op hop) (hgood ops hops op hop)
    fun fileId input heq ↦ hsource ops hops fileId input (heq ▸ hop)) fun _ r hr ↦
      ⟨fun o ho ↦ hJ.1 o (List.mem_cons_of_mem op ho), hr⟩

end Invariant

/-! ## Runs -/

namespace ChunkStore

variable (store : ChunkStore)

/-- **Repairing while ingesting.** Threads ingest files, repair and do anything else on one
instance, and their blocks interleave in any way. If every blob that is unlinked is then listed by
no file and has no ingest that stored its chunk and has still to commit, every digest of every file
has its blob when all threads have returned. -/
theorem concurrent_blobs_kept (work : List (List Op))
    (hwork : ∀ ops ∈ work, ∀ op ∈ ops, op ≠ .reopen) (s s' : State) (hs : s.Backed)
    (chunks : (String → ℕ) × (String → ℕ)) (results : List (List Reply))
    (h : ((blockHandler.tallied Block.chunks).toMachine.given fun c b ↦ b.Spares c).PoolSteps
      (store.threads work, (s, 0)) (returned results, (s', chunks))) : s'.Backed := by
  have hstart : Kept (fun _ _ ↦ True) (fun _ _ ↦ True) 0 (s, 0) :=
    ⟨fun _ ↦ rfl, fun d hd ↦ hs d (hd.resolve_left (Nat.lt_irrefl 0)), fun _ _ _ _ ↦ trivial,
      fun _ _ _ ↦ trivial⟩
  have hend := kept_of_returned hwork (fun _ _ _ _ _ _ _ _ ↦ trivial)
    (fun _ _ _ _ _ _ ↦ trivial) hstart h
  exact fun d hd ↦ hend.backed d (Or.inr hd)

/-- One thread ingests a file, the other repairs. -/
def repairWork : List (List Op) := [[.ingest "f" (.bytes [0x61])], [.fsck true]]

theorem repairWork_ne_reopen : ∀ ops ∈ repairWork, ∀ op ∈ ops, op ≠ .reopen := by
  intro ops hops op hop
  rcases List.mem_cons.mp hops with rfl | hops
  · rw [List.mem_singleton.mp hop]
    exact fun h ↦ by cases h
  · rw [List.mem_singleton.mp hops] at hop
    rw [List.mem_singleton.mp hop]
    exact fun h ↦ by cases h

def orphanStart : State := (State.empty true).put (digestHex smallCrates.sha256 [0x61]) [0x61]

private theorem backed_orphanStart : orphanStart.Backed := by
  rintro d ⟨f, l, hget, -⟩
  cases hget

/-- The end of the run in which the repair comes before the ingest. -/
def repairFirst : State × (String → ℕ) × (String → ℕ) :=
  ((blockHandler.tallied Block.chunks).schedule (List.replicate 3 1 ++ List.replicate 8 0)
    (smallStore.threads repairWork, (orphanStart, 0))).2

def repairFirstReplies : List (List Reply) :=
  [[.digests [digestHex smallCrates.sha256 [0x61]]],
    [.report ⟨[], [digestHex smallCrates.sha256 [0x61]], 1⟩]]

/-- The repair unlinks the orphan before the ingest checks for it. -/
theorem concurrent_blobs_kept_first : repairFirst.1.Backed :=
  concurrent_blobs_kept smallStore repairWork repairWork_ne_reopen orphanStart repairFirst.1
    backed_orphanStart repairFirst.2 repairFirstReplies
    (by
      rw [Prod.mk.eta]
      exact schedule_returns_given _ _ _ repairFirstReplies (fun c b ↦ b.Spares c)
        (by decide +kernel) (by decide +kernel))

/-- The repair lists the keys after the ingest has put its blob and unlinks it, as the digest was
not counted when the repair began. -/
theorem concurrent_blobs_lost : ¬∀ (store : ChunkStore) (work : List (List Op)) (s s' : State)
    (results : List (List Reply)),
    (∀ ops ∈ work, ∀ op ∈ ops, op = .fsck true ∨ ∃ fileId input, op = .ingest fileId input) →
      s.Backed →
      blockHandler.toMachine.PoolSteps (store.threads work, s) (returned results, s') →
      s'.Backed := by
  intro h
  have hwork : ∀ ops ∈ repairWork, ∀ op ∈ ops,
      op = .fsck true ∨ ∃ fileId input, op = .ingest fileId input := by
    intro ops hops op hop
    rcases List.mem_cons.mp hops with rfl | hops
    · exact Or.inr ⟨"f", .bytes [0x61], List.mem_singleton.mp hop⟩
    · rw [List.mem_singleton.mp hops] at hop
      exact Or.inl (List.mem_singleton.mp hop)
  have hsteps := schedule_returns blockHandler
    ([1, 0] ++ List.replicate 2 1 ++ List.replicate 7 0)
    (smallStore.threads repairWork, .empty true) repairFirstReplies (by decide +kernel)
  have hbacked := h smallStore repairWork (.empty true) _ repairFirstReplies hwork
    (fun d ⟨f, l, hget, _⟩ ↦ by cases hget) hsteps
  have hlists := hbacked (digestHex smallCrates.sha256 [0x61])
    ⟨"f", [digestHex smallCrates.sha256 [0x61]], by decide +kernel, List.mem_singleton.mpr rfl⟩
  revert hlists
  decide +kernel

/-! ## Files -/

/-- The contents of the blobs of a state. -/
def Stocked (s : State) (chunk : Bytes) : Prop :=
  ∃ d raw, isChunkDigest d = true ∧ s.find d = some raw ∧ store.decodeBlob raw = .ok chunk

/-- Every digest that is listed has a blob, and every blob is that of its digest. -/
structure Intact (s : State) : Prop where
  backed : s.Backed
  holds : ∀ d raw, isChunkDigest d = true → s.find d = some raw → store.Holds raw d

variable {store}

theorem content_of_find {s : State} {d : String} {raw data : Bytes} (hraw : s.find d = some raw)
    (hdec : store.decodeBlob raw = .ok data) : store.content s d = data := by
  rw [content, hraw, Option.bind_some, hdec]
  rfl

private theorem Intact.readable {s : State} (h : store.Intact s) {d : String} (hd : s.Lists d) :
    store.Readable s d := by
  obtain ⟨hdig, hsome⟩ := h.backed d hd
  obtain ⟨raw, hraw⟩ := Option.isSome_iff_exists.mp hsome
  exact ⟨raw, hraw, h.holds d raw hdig hraw⟩

variable (store)

/-- **Ingesting while deleting.** Threads ingest, delete and replace files and do anything else on
one instance, and their blocks interleave in any way. If every blob that is unlinked is then listed
by no file and has no ingest that stored its chunk and has still to commit, every file reads back
its bytes when all threads have returned: what it read back before, or the bytes of an ingest of the
run. -/
theorem concurrent_files_kept (work : List (List Op))
    (hwork : ∀ ops ∈ work, ∀ op ∈ ops, op ≠ .reopen) (s s' : State) (hs : store.Intact s)
    (hnc : NoCollision store.crates.sha256 fun chunk ↦
      store.Stocked s chunk ∨ store.Ingested work.flatten chunk)
    (chunks : (String → ℕ) × (String → ℕ)) (results : List (List Reply))
    (h : ((blockHandler.tallied Block.chunks).toMachine.given fun c b ↦ b.Spares c).PoolSteps
      (store.threads work, (s, 0)) (returned results, (s', chunks)))
    (fileId : String) (digests : List String)
    (hget : s'.fields.manifest.tryGet fileId = some digests) :
    (s.fields.manifest.tryGet fileId = some digests ∧
        (store.exec (.read fileId) s').1 = (store.exec (.read fileId) s).1) ∨
      ∃ input, .ingest fileId input ∈ work.flatten ∧
        (input.stream store.crates).error = none ∧
        digests = (input.stream store.crates).chunks.map (digestHex store.crates.sha256) ∧
        (store.exec (.read fileId) s').1
          = .ok (.bytes (input.stream store.crates).chunks.flatten) := by
  have hstart : Kept
      (fun raw d ↦ ∃ data, (store.Stocked s data ∨ store.Ingested work.flatten data) ∧
        store.decodeBlob raw = .ok data ∧ digestHex store.crates.sha256 data = d)
      (fun f l ↦ s.fields.manifest.tryGet f = some l ∨ ∃ input, .ingest f input ∈ work.flatten ∧
        (input.stream store.crates).error = none ∧
        l = (input.stream store.crates).chunks.map (digestHex store.crates.sha256)) 0 (s, 0) := by
    refine ⟨fun _ ↦ rfl, fun d hd ↦ hs.backed d (hd.resolve_left (Nat.lt_irrefl 0)),
      fun d raw hd hraw ↦ ?_, fun f l hf ↦ Or.inl hf⟩
    obtain ⟨data, hdec, hdig⟩ := hs.holds d raw hd hraw
    exact ⟨data, Or.inl ⟨d, raw, hd, hraw, hdec⟩, hdec, hdig⟩
  have hend := kept_of_returned hwork
    (fun ops hops op hop chunk hchunk blob hblob ↦ ⟨chunk,
      Or.inr ⟨op, List.mem_flatten_of_mem hops hop, hchunk⟩,
      store.decodeBlob_encodeBlob hblob, rfl⟩)
    (fun ops hops f input hin he ↦ Or.inr ⟨input, List.mem_flatten_of_mem hops hin, he, rfl⟩)
    hstart h
  have hblob : ∀ d ∈ digests, ∃ raw data, s'.find d = some raw ∧
      (store.Stocked s data ∨ store.Ingested work.flatten data) ∧
        store.decodeBlob raw = .ok data ∧ digestHex store.crates.sha256 data = d := by
    intro d hd
    obtain ⟨hdig, hsome⟩ := hend.backed d (Or.inr ⟨fileId, digests, hget, hd⟩)
    obtain ⟨raw, hraw⟩ := Option.isSome_iff_exists.mp hsome
    obtain ⟨data, hdata⟩ := hend.good d raw hdig hraw
    exact ⟨raw, data, hraw, hdata⟩
  have hread : (store.exec (.read fileId) s').1
      = .ok (.bytes (digests.flatMap (store.content s'))) := by
    rw [exec_read_of_readable, hget]
    intro l hl d hd
    rw [hget] at hl
    cases hl
    obtain ⟨raw, data, hraw, -, hdec, hdig⟩ := hblob d hd
    exact ⟨raw, hraw, data, hdec, hdig⟩
  rcases hend.source fileId digests hget with hold | ⟨input, hin, he, hl⟩
  · refine Or.inl ⟨hold, ?_⟩
    have hreadable : ∀ d ∈ digests, store.Readable s d :=
      fun d hd ↦ hs.readable ⟨fileId, digests, hold, hd⟩
    have hread₀ : (store.exec (.read fileId) s).1
        = .ok (.bytes (digests.flatMap (store.content s))) := by
      rw [exec_read_of_readable, hold]
      intro l hl d hd
      rw [hold] at hl
      cases hl
      exact hreadable d hd
    have hcontent : digests.flatMap (store.content s') = digests.flatMap (store.content s) := by
      rw [List.flatMap_def, List.flatMap_def]
      refine congrArg List.flatten (List.map_congr_left fun d hd ↦ ?_)
      obtain ⟨raw, data, hraw, hseen, hdec, hdig⟩ := hblob d hd
      obtain ⟨raw₀, hraw₀, data₀, hdec₀, hdig₀⟩ := hreadable d hd
      rw [content_of_find hraw hdec, content_of_find hraw₀ hdec₀]
      refine hnc data data₀ hseen (Or.inl ⟨d, raw₀, ?_, hraw₀, hdec₀⟩) (hdig.trans hdig₀.symm)
      exact (hs.backed d ⟨fileId, digests, hold, hd⟩).1
    rw [hread, hread₀, hcontent]
  · refine Or.inr ⟨input, hin, he, hl, ?_⟩
    rw [hread, hl, flatMap_content fun c hc ↦ ?_]
    obtain ⟨raw, data, hraw, hseen, hdec, hdig⟩ := hblob _ (hl ▸ List.mem_map_of_mem hc)
    rw [content_of_find hraw hdec]
    exact hnc data c hseen (Or.inr ⟨_, hin, hc⟩) hdig

/-- One thread ingests a file, the other another one of the same chunk and deletes it. -/
def sharedWork : List (List Op) :=
  [[.ingest "f" (.bytes [0x61])], [.ingest "g" (.bytes [0x61]), .delete "g"]]

theorem sharedWork_changes : ∀ ops ∈ sharedWork, ∀ op ∈ ops,
    op ≠ .reopen ∧ op.file.isSome ∧ ∀ chunk ∈ smallStore.chunksOf op, chunk = [0x61] := by
  have hchunks : ((IngestInput.bytes [0x61]).stream smallCrates).chunks = [[0x61]] := by
    decide +kernel
  have hingest : ∀ f, Op.ingest f (.bytes [0x61]) ≠ .reopen ∧
      (Op.ingest f (.bytes [0x61])).file.isSome ∧
        ∀ chunk ∈ smallStore.chunksOf (.ingest f (.bytes [0x61])), chunk = [0x61] := by
    intro f
    refine ⟨fun h ↦ (nomatch h), rfl, fun chunk hc ↦ ?_⟩
    change chunk ∈ ((IngestInput.bytes [0x61]).stream smallCrates).chunks at hc
    rw [hchunks] at hc
    exact List.mem_singleton.mp hc
  intro ops hops op hop
  rcases List.mem_cons.mp hops with rfl | hops
  · rw [List.mem_singleton.mp hop]
    exact hingest "f"
  · rw [List.mem_singleton.mp hops] at hop
    rcases List.mem_cons.mp hop with rfl | hop
    · exact hingest "g"
    · rw [List.mem_singleton.mp hop]
      exact ⟨fun h ↦ (nomatch h), rfl, fun chunk hc ↦ absurd hc List.not_mem_nil⟩

theorem intact_empty (lists : Bool) : store.Intact (.empty lists) where
  backed := by
    rintro d ⟨f, l, hget, -⟩
    cases hget
  holds := by
    intro d raw _ hraw
    cases hraw

theorem noCollision_sharedWork : NoCollision smallStore.crates.sha256 fun chunk ↦
    smallStore.Stocked (.empty true) chunk ∨ smallStore.Ingested sharedWork.flatten chunk := by
  have hone : ∀ chunk, smallStore.Stocked (.empty true) chunk ∨
      smallStore.Ingested sharedWork.flatten chunk → chunk = [0x61] := by
    rintro chunk (⟨d, raw, -, hraw, -⟩ | ⟨op, hop, hc⟩)
    · cases hraw
    · obtain ⟨ops, hops, hop⟩ := List.mem_flatten.mp hop
      exact (sharedWork_changes ops hops op hop).2.2 chunk hc
  exact fun a b ha hb _ ↦ (hone a ha).trans (hone b hb).symm

/-- The end of the run in which the delete comes before the ingest. -/
def deleteFirst : State × (String → ℕ) × (String → ℕ) :=
  ((blockHandler.tallied Block.chunks).schedule (List.replicate 20 1 ++ List.replicate 8 0)
    (smallStore.threads sharedWork, (.empty true, 0))).2

def sharedWorkReplies : List (List Reply) :=
  [[.digests [digestHex smallCrates.sha256 [0x61]]],
    [.digests [digestHex smallCrates.sha256 [0x61]], .done]]

/-- The delete unlinks the blob before the ingest checks for it. -/
theorem concurrent_files_kept_first :
    ((State.empty true).fields.manifest.tryGet "f"
          = some [digestHex smallCrates.sha256 [0x61]] ∧
        (smallStore.exec (.read "f") deleteFirst.1).1
          = (smallStore.exec (.read "f") (.empty true)).1) ∨
      ∃ input, .ingest "f" input ∈ sharedWork.flatten ∧
        (input.stream smallStore.crates).error = none ∧
        [digestHex smallCrates.sha256 [0x61]]
          = (input.stream smallStore.crates).chunks.map (digestHex smallStore.crates.sha256) ∧
        (smallStore.exec (.read "f") deleteFirst.1).1
          = .ok (.bytes (input.stream smallStore.crates).chunks.flatten) :=
  concurrent_files_kept smallStore sharedWork
    (fun ops hops op hop ↦ (sharedWork_changes ops hops op hop).1) (.empty true) deleteFirst.1
    (intact_empty smallStore true) noCollision_sharedWork deleteFirst.2 sharedWorkReplies
    (by
      rw [Prod.mk.eta]
      exact schedule_returns_given _ _ _ sharedWorkReplies (fun c b ↦ b.Spares c)
        (by decide +kernel) (by decide +kernel))
    "f" [digestHex smallCrates.sha256 [0x61]] (by decide +kernel)

/-- The ingest finds the blob after the delete has taken the last reference and before it unlinks:
the ingest does not put it again, and its file has lost its bytes. -/
theorem concurrent_files_lost : ¬∀ (store : ChunkStore) (work : List (List Op)) (s s' : State)
    (results : List (List Reply)),
    (∀ ops ∈ work, ∀ op ∈ ops, op ≠ .reopen ∧ op.file.isSome) →
    (work.Pairwise fun ops ops' ↦ ∀ op ∈ ops, ∀ op' ∈ ops', op.file ≠ op'.file) →
    store.Intact s →
    (NoCollision store.crates.sha256 fun chunk ↦
      store.Stocked s chunk ∨ store.Ingested work.flatten chunk) →
    blockHandler.toMachine.PoolSteps (store.threads work, s) (returned results, s') →
    ∀ fileId digests, s'.fields.manifest.tryGet fileId = some digests →
      ∃ bytes, (store.exec (.read fileId) s').1 = .ok (.bytes bytes) := by
  intro h
  have hfiles : sharedWork.Pairwise fun ops ops' ↦
      ∀ op ∈ ops, ∀ op' ∈ ops', op.file ≠ op'.file := by
    refine List.pairwise_pair.mpr fun op hop op' hop' ↦ ?_
    rw [List.mem_singleton.mp hop]
    rcases List.mem_cons.mp hop' with rfl | hop'
    · decide
    · rw [List.mem_singleton.mp hop']
      decide
  have hsteps := schedule_returns blockHandler
    (List.replicate 14 1 ++ [0] ++ List.replicate 6 1 ++ List.replicate 7 0)
    (smallStore.threads sharedWork, .empty true) sharedWorkReplies (by decide +kernel)
  obtain ⟨bytes, hread⟩ := h smallStore sharedWork (.empty true) _ sharedWorkReplies
    (fun ops hops op hop ↦ ⟨(sharedWork_changes ops hops op hop).1,
      (sharedWork_changes ops hops op hop).2.1⟩) hfiles (intact_empty smallStore true)
    noCollision_sharedWork hsteps "f" [digestHex smallCrates.sha256 [0x61]] (by decide +kernel)
  have hlost : (smallStore.exec (.read "f") (blockHandler.schedule
      (List.replicate 14 1 ++ [0] ++ List.replicate 6 1 ++ List.replicate 7 0)
      (smallStore.threads sharedWork, .empty true)).2).1.isOk = false := by decide +kernel
  rw [hread] at hlost
  cases hlost

end ChunkStore

end Chunkstore

import Mathlib.Algebra.Group.Pi.Basic
import Mathlib.Algebra.Group.Pi.Lemmas
import Chunkstore.Codec.Transparent
import Chunkstore.Concurrent.Ingests

/-!
# Index lists under concurrency

The names of the persisted files are on one list, which a commit reads and writes back with its own
name appended, after it has let go of the manifest lock. A name that another commit has put on the
list in between is lost. Reopening finds what the list names, so the files of lost names are gone,
although their records are there.

The list of the counted digests is written in the same way, by releases. There a list that was read
earlier may name a digest whose record has been removed since, and the backend cannot be opened any
more.

So what has to be known of a put is that it takes no name off the one list and spoils no name of the
other.

## Main result

* `ChunkStore.concurrent_files_survive`: in runs of ingests whose puts do neither, every ingested
  file is there after reopening.
-/

open Effects Program

namespace Chunkstore

/-! ## Puts that retain what there is -/

instance (crates : Crates) (s : State) (digest : String) : Decidable (LacksSize crates s digest) :=
  decidable_of_iff (∃ r ∈ refcountRecord crates s digest, r.2 = 0 ∧ 0 < r.1) <| by
    constructor
    · rintro ⟨⟨count, size⟩, hr, h0, hpos⟩
      dsimp only at h0 hpos
      subst h0
      exact ⟨count, hr, hpos⟩
    · rintro ⟨count, hr, hpos⟩
      exact ⟨(count, 0), hr, rfl, hpos⟩

instance (crates : Crates) (s : State) (digest : String) :
    Decidable (RefcountLoads crates s digest) :=
  inferInstanceAs (Decidable
    ((isChunkDigest digest = true ∧ (refcountRecord crates s digest).isSome) ∧
      (LacksSize crates s digest → (s.find digest).isSome)))

/-- No name has gone from the manifest index, and every listed digest whose count cannot be loaded
was listed before and could not be loaded then. -/
structure Retains (crates : Crates) (s s' : State) : Prop where
  readable : (readIndex crates s' manifestIndexKey).isSome
  names : ∀ f ∈ (readIndex crates s manifestIndexKey).getD [],
    f ∈ (readIndex crates s' manifestIndexKey).getD []
  refcounts : ∀ d ∈ (readIndex crates s' refcountIndexKey).getD [],
    RefcountLoads crates s' d ∨ IsListed crates s d ∧ ¬RefcountLoads crates s d

instance (crates : Crates) (s s' : State) : Decidable (Retains crates s s') :=
  decidable_of_iff ((readIndex crates s' manifestIndexKey).isSome ∧
    (∀ f ∈ (readIndex crates s manifestIndexKey).getD [],
      f ∈ (readIndex crates s' manifestIndexKey).getD []) ∧
    ∀ d ∈ (readIndex crates s' refcountIndexKey).getD [],
      RefcountLoads crates s' d ∨ IsListed crates s d ∧ ¬RefcountLoads crates s d)
    ⟨fun h ↦ ⟨h.1, h.2.1, h.2.2⟩, fun h ↦ ⟨h.readable, h.names, h.refcounts⟩⟩

/-- The condition on a request: a put retains what there is. -/
def Call.Retains (crates : Crates) (s : State) {γ : Type} : Call γ → Prop
  | .backend (.put key data) => Chunkstore.Retains crates s (s.put key data)
  | _ => True

instance (crates : Crates) (s : State) {γ : Type} (c : Call γ) : Decidable (c.Retains crates s) :=
  match c with
  | .backend (.put key data) =>
    inferInstanceAs (Decidable (Chunkstore.Retains crates s (s.put key data)))
  | .backend (.get _) => .isTrue trivial
  | .backend (.delete _) => .isTrue trivial
  | .backend (.existsKey _) => .isTrue trivial
  | .backend (.listKeys _) => .isTrue trivial
  | .field _ => .isTrue trivial

/-- The condition on a block: every put in it retains what there is then. -/
def Block.Retains (crates : Crates) (s : State) {γ : Type} (b : Block γ) : Prop :=
  callHandler.Meets (fun s c ↦ c.Retains crates s) b.body s

instance (crates : Crates) (s : State) {γ : Type} (b : Block γ) : Decidable (b.Retains crates s) :=
  Handler.decidableMeets callHandler (fun s c ↦ c.Retains crates s) b.body s

/-- The world of threads under this condition. -/
abbrev retainingWorld (crates : Crates) : Machine Block (State × ℕ) :=
  threadWorld (fun _ _ ↦ 0) fun c b ↦ b.Retains crates c.1

/-! ## What a thread owns -/

/-- A file whose record has still to be put, a file that has still to be put on the index, a name
that was read off the index, a digest that is being unlinked. -/
inductive Token
  | unsaved (fileId : String)
  | unlisted (fileId : String)
  | known (fileId : String)
  | doomed (digest : String)
  deriving DecidableEq

/-- The tokens that a thread owns. -/
abbrev Tokens := Token → ℕ

namespace Tokens

def one (t : Token) : Tokens := Pi.single t 1

theorem one_apply (t t' : Token) : one t t' = if t' = t then 1 else 0 := Pi.single_apply t 1 t'

/-- The tokens of a list that was read off the manifest index. -/
def knows (l : List String) : Tokens
  | .known f => l.count f
  | _ => 0

/-- What a thread owns that has the files of `ops` still to ingest. -/
def owed (ops : List ChunkStore.Op) : Tokens
  | .unsaved f => (ops.map ChunkStore.Op.file).count (some f)
  | _ => 0

theorem owed_cons (op : ChunkStore.Op) (ops : List ChunkStore.Op) :
    owed (op :: ops) = owed [op] + owed ops := by
  funext t
  cases t with
  | unsaved f =>
    change ((op :: ops).map _).count _ = ([op].map _).count _ + (ops.map _).count _
    rw [List.map_cons, ← List.singleton_append, List.count_append]
    rfl
  | unlisted | known | doomed => rfl

theorem owed_ingest (fileId : String) (input : ChunkStore.IngestInput) :
    owed [.ingest fileId input] = one (.unsaved fileId) := by
  funext t
  rw [one_apply]
  cases t with
  | unsaved f =>
    change [some fileId].count (some f) = _
    rw [List.count_singleton]
    refine if_congr ?_ rfl rfl
    rw [beq_iff_eq, Option.some.injEq, Token.unsaved.injEq, eq_comm]
  | unlisted | known | doomed => rfl

theorem sum_owed (work : List (List ChunkStore.Op)) : (work.map owed).sum = owed work.flatten := by
  induction work with
  | nil =>
    funext t
    cases t <;> rfl
  | cons ops work ih =>
    rw [List.map_cons, List.sum_cons, ih, List.flatten_cons]
    funext t
    cases t with
    | unsaved f =>
      change (ops.map _).count _ + (work.flatten.map _).count _
        = ((ops ++ work.flatten).map _).count _
      rw [List.map_append, List.count_append]
    | unlisted | known | doomed => rfl

end Tokens

/-! ## The invariant -/

/-- What a run of the ingests `ops` keeps. -/
structure Indexing (store : ChunkStore) (ops : List ChunkStore.Op) (r : Tokens) (s : State) :
    Prop where
  manifests : ManifestsLoad store.crates s none
  named : indexName ∉ (readIndex store.crates s manifestIndexKey).getD []
  refcounts : ∃ l, readIndex store.crates s refcountIndexKey = some l ∧
    ∀ d ∈ l, r (.doomed d) = 0 → RefcountLoads store.crates s d
  lists : ∀ f digests, s.fields.manifest.tryGet f = some digests → ∀ d ∈ digests,
    isChunkDigest d = true
  once : ∀ f, r (.unsaved f) + r (.unlisted f) ≤ 1
  known : ∀ f, 0 < r (.known f) → f ∈ (readIndex store.crates s manifestIndexKey).getD []
  saved : ∀ f input, .ingest f input ∈ ops → r (.unsaved f) = 0 → f ≠ "" ∧ f ≠ indexName ∧
    ∃ n, s.find (manifestKey f) = some (store.crates.serde.manifestToVec
      ⟨(input.stream store.crates).chunks.map (digestHex store.crates.sha256), n⟩)
  listed : ∀ f input, .ingest f input ∈ ops → r (.unsaved f) = 0 → r (.unlisted f) = 0 →
    f ∈ (readIndex store.crates s manifestIndexKey).getD []

/-- A request that changes no persisted manifest and no list in memory, deletes nothing, and writes
a list over the refcount index if anything. -/
def Call.Tame (crates : Crates) {γ : Type} : Call γ → Prop
  | .backend (.put key data) =>
    OffManifest key ∧ (key = refcountIndexKey → ∃ l, data = crates.serde.stringsToVec l)
  | .backend (.delete _) => False
  | .backend _ => True
  | .field a => (Call.field a).Keeping

theorem Call.Looking.tame {crates : Crates} {γ : Type} {c : Call γ} (h : c.Looking) :
    c.Tame crates := by
  cases c with
  | backend c =>
    cases c with
    | get | existsKey | listKeys => trivial
    | put | delete => exact h.elim
  | field a => exact h.keeping

section Steps

variable {store : ChunkStore} {ops : List ChunkStore.Op} {r r' : Tokens} {s s' : State}
  {key digest fileId : String} {o : Option Bytes}

theorem Indexing.wrote (h : Indexing store ops r s) (hw : Wrote s s' key o) (hk : OffManifest key)
    (hr : ∀ t, (∀ d, t ≠ .doomed d) → r' t = r t)
    (hrefs : ∃ l, readIndex store.crates s' refcountIndexKey = some l ∧
      ∀ d ∈ l, r' (.doomed d) = 0 → RefcountLoads store.crates s' d) :
    Indexing store ops r' s' := by
  have hm : readIndex store.crates s' manifestIndexKey
      = readIndex store.crates s manifestIndexKey :=
    readIndex_congr (hw.find_ne hk.ne_indexKey.symm)
  refine ⟨h.manifests.of_wrote hw hk, ?_, hrefs, ?_, fun f ↦ ?_, fun f hf ↦ ?_,
    fun f input hop h0 ↦ ?_, fun f input hop h0 h1 ↦ ?_⟩
  · rw [hm]
    exact h.named
  · rw [hw.fields]
    exact h.lists
  · rw [hr (.unsaved f) (fun d h ↦ by cases h), hr (.unlisted f) (fun d h ↦ by cases h)]
    exact h.once f
  · rw [hr (.known f) fun d h ↦ by cases h] at hf
    rw [hm]
    exact h.known f hf
  · rw [hr (.unsaved f) fun d h ↦ by cases h] at h0
    rw [hw.find_ne (hk f).symm]
    exact h.saved f input hop h0
  · rw [hr (.unsaved f) fun d h ↦ by cases h] at h0
    rw [hr (.unlisted f) fun d h ↦ by cases h] at h1
    rw [hm]
    exact h.listed f input hop h0 h1

private theorem Indexing.retained {data : Bytes} (h : Indexing store ops r s) (hk : OffManifest key)
    (hl : key = refcountIndexKey → ∃ l, data = store.crates.serde.stringsToVec l)
    (hret : Retains store.crates s (s.put key data)) : Indexing store ops r (s.put key data) := by
  obtain ⟨l, hread, hloads⟩ := h.refcounts
  refine h.wrote (wrote_put s key data) hk (fun _ _ ↦ rfl) ?_
  obtain ⟨l', hread'⟩ : ∃ l', readIndex store.crates (s.put key data) refcountIndexKey
      = some l' := by
    by_cases hkey : key = refcountIndexKey
    · obtain ⟨l', rfl⟩ := hl hkey
      rw [hkey]
      exact ⟨l', readIndex_of_strings (s.find_put_self _ _)⟩
    · exact ⟨l, (readIndex_congr (s.find_put_ne (Ne.symm hkey))).trans hread⟩
  refine ⟨l', hread', fun d hd h0 ↦ ?_⟩
  rcases hret.refcounts d (by rw [hread']; exact hd) with hload | ⟨hlisted, hno⟩
  · exact hload
  · exact absurd (hloads d ((isListed_of_readIndex hread).mp hlisted) h0) hno

/-- Tame requests keep the invariant. -/
theorem Indexing.handle {γ : Type} {c : Call γ} (hc : c.Tame store.crates)
    (hret : c.Retains store.crates s) (h : Indexing store ops r s) :
    Indexing store ops r (callHandler.handle c s).2 := by
  cases c with
  | backend c =>
    cases c with
    | get | existsKey | listKeys => exact h
    | delete => exact hc.elim
    | put key data => exact h.retained hc.1 hc.2 hret
  | field a =>
    exact ⟨h.manifests, h.named, h.refcounts,
      fun f digests hget ↦ h.lists f digests (tryGet_of_keeping hc hget),
      h.once, h.known, h.saved, h.listed⟩

theorem Indexing.putRecord {f : Tokens} {input : ChunkStore.IngestInput} {n : ℕ}
    (h : Indexing store ops (.one (.unsaved fileId) + f) s) (hne : fileId ≠ "")
    (hunique : ∀ input', .ingest fileId input' ∈ ops → input' = input)
    (hret : Retains store.crates s (s.put (manifestKey fileId) (store.crates.serde.manifestToVec
      ⟨(input.stream store.crates).chunks.map (digestHex store.crates.sha256), n⟩))) :
    Indexing store ops (.one (.unlisted fileId) + f)
      (s.put (manifestKey fileId) (store.crates.serde.manifestToVec
        ⟨(input.stream store.crates).chunks.map (digestHex store.crates.sha256), n⟩)) := by
  set digests :=
    (input.stream store.crates).chunks.map (digestHex store.crates.sha256) with hdigests
  set s' := s.put (manifestKey fileId) (store.crates.serde.manifestToVec ⟨digests, n⟩)
  have hw : Wrote s s' (manifestKey fileId)
      (some (store.crates.serde.manifestToVec ⟨digests, n⟩)) :=
    wrote_put s _ _
  have hname : fileId ≠ indexName := by
    rintro rfl
    have hread := hret.readable
    rw [readIndex_of_manifest (manifestKey_indexName ▸ hw.find_self)] at hread
    cases hread
  have hm : readIndex store.crates s' manifestIndexKey
      = readIndex store.crates s manifestIndexKey :=
    readIndex_congr (hw.find_ne (manifestKey_ne_indexKey hname).symm)
  have hloads : ManifestLoads store.crates s' fileId := by
    refine ⟨hne, _, _, hw.find_self, store.crates.serde.manifest_roundtrip _, fun d hd ↦ ?_⟩
    obtain ⟨chunk, -, rfl⟩ := List.mem_map.mp (hdigests ▸ hd)
    exact isChunkDigest_digestHex _ _
  obtain ⟨l, hl, hall⟩ := h.refcounts
  refine ⟨h.manifests.mono (hw.find_ne (manifestKey_ne_indexKey hname).symm) fun g _ hb ↦ ⟨hb, ?_⟩,
    ?_, ⟨l, ?_, fun d hd h0 ↦ ?_⟩, h.lists, fun g ↦ ?_, fun g hg ↦ ?_, fun g input' hop h0 ↦ ?_,
    fun g input' hop h0 h1 ↦ ?_⟩
  · intro hg
    by_cases hgf : g = fileId
    · rw [hgf]
      exact hloads
    · exact hg.of_find (hw.find_ne (mt manifestKey_inj.mp hgf))
  · rw [hm]
    exact h.named
  · rw [readIndex_congr (hw.find_ne (refcountKey_indexName ▸ refcountKey_ne_manifestKey _ _))]
    exact hl
  · have hload := hall d hd h0
    exact hload.of_find (hw.find_ne (refcountKey_ne_manifestKey _ _)) fun hb ↦ by
      rwa [hw.find_ne (offManifest_of_isChunkDigest hload.1.1 fileId)]
  · have hg := h.once g
    simp only [Pi.add_apply, Tokens.one_apply, Token.unsaved.injEq, Token.unlisted.injEq,
      reduceCtorEq, if_false] at hg ⊢
    omega
  · rw [hm]
    exact h.known g hg
  · by_cases hgf : g = fileId
    · rw [hgf] at hop ⊢
      rw [hunique input' hop]
      exact ⟨hne, hname, n, hw.find_self⟩
    · rw [hw.find_ne (mt manifestKey_inj.mp hgf)]
      refine h.saved g input' hop ?_
      simp only [Pi.add_apply, Tokens.one_apply, Token.unsaved.injEq, hgf, reduceCtorEq,
        if_false] at h0 ⊢
      exact h0
  · rw [hm]
    simp only [Pi.add_apply, Tokens.one_apply, Token.unlisted.injEq, reduceCtorEq,
      if_false] at h0 h1
    have hgf : g ≠ fileId := by
      rintro rfl
      rw [if_pos rfl] at h1
      omega
    refine h.listed g input' hop ?_ ?_
    · simp only [Pi.add_apply, Tokens.one_apply, Token.unsaved.injEq, hgf, if_false]
      exact h0
    · simp only [Pi.add_apply, Tokens.one_apply, reduceCtorEq, if_false]
      rw [if_neg hgf] at h1
      exact h1

theorem Indexing.putName {f : Tokens} {input : ChunkStore.IngestInput} {l : List String}
    (h : Indexing store ops (.one (.unlisted fileId) + .knows l + f) s)
    (hop : .ingest fileId input ∈ ops)
    (hret : Retains store.crates s
      (s.put manifestIndexKey (store.crates.serde.stringsToVec (l ++ [fileId])))) :
    Indexing store ops (0 + f)
      (s.put manifestIndexKey (store.crates.serde.stringsToVec (l ++ [fileId]))) := by
  set s' := s.put manifestIndexKey (store.crates.serde.stringsToVec (l ++ [fileId]))
  have hw : Wrote s s' manifestIndexKey (some (store.crates.serde.stringsToVec (l ++ [fileId]))) :=
    wrote_put s _ _
  have hread : readIndex store.crates s' manifestIndexKey = some (l ++ [fileId]) :=
    readIndex_of_strings hw.find_self
  have hnames := hret.names
  rw [hread, Option.getD_some] at hnames
  have htokens : ∀ t, (∀ g, t ≠ .unlisted g) → (∀ g, t ≠ .known g) →
      (Tokens.one (.unlisted fileId) + .knows l + f) t = f t := by
    intro t h₁ h₂
    cases t with
    | unlisted g => exact absurd rfl (h₁ g)
    | known g => exact absurd rfl (h₂ g)
    | unsaved | doomed =>
      simp only [Pi.add_apply, Tokens.one_apply, Tokens.knows, reduceCtorEq, if_false, Nat.zero_add]
  have honce := h.once fileId
  simp only [Pi.add_apply, Tokens.one_apply, Tokens.knows, reduceCtorEq, if_false, if_true] at honce
  obtain ⟨hne, hname, n, hrec⟩ := h.saved fileId input hop
    (by rw [htokens _ (fun g h ↦ by cases h) (fun g h ↦ by cases h)]; omega)
  have hloads : ∀ g ∈ l ++ [fileId], g ≠ indexName ∧ ManifestLoads store.crates s g := by
    intro g hg
    rcases List.mem_append.mp hg with hg | hg
    · have hlisted := h.known g (by
        have hpos := List.count_pos_iff.mpr hg
        simp only [Pi.add_apply, Tokens.knows]
        omega)
      obtain ⟨l₀, hl₀, hall⟩ := h.manifests
      have hnamed := h.named
      rw [hl₀, Option.getD_some] at hlisted hnamed
      exact ⟨fun heq ↦ hnamed (heq ▸ hlisted), hall g hlisted (Option.not_mem_none g)⟩
    · rw [List.mem_singleton.mp hg]
      refine ⟨hname, hne, _, _, hrec, store.crates.serde.manifest_roundtrip _, fun d hd ↦ ?_⟩
      obtain ⟨chunk, -, rfl⟩ := List.mem_map.mp hd
      exact isChunkDigest_digestHex _ _
  obtain ⟨refs, hrefs, hall⟩ := h.refcounts
  refine ⟨(indexLoads_iff hread).mpr fun g hg ↦ (hloads g hg).2.of_find
      (hw.find_ne (manifestKey_ne_indexKey (hloads g hg).1)), ?_, ⟨refs, ?_, fun d hd h0 ↦ ?_⟩,
    h.lists, fun g ↦ ?_, fun g hg ↦ ?_, fun g input' hop' h0 ↦ ?_, fun g input' hop' h0 h1 ↦ ?_⟩
  · rw [hread, Option.getD_some]
    exact fun hm ↦ (hloads indexName hm).1 rfl
  · rw [readIndex_congr (hw.find_ne offManifest_refcountIndexKey.ne_indexKey)]
    exact hrefs
  · have hload := hall d hd (by
      rw [htokens _ (fun g h ↦ by cases h) (fun g h ↦ by cases h)]
      rwa [zero_add] at h0)
    exact hload.of_find (hw.find_ne (offManifest_refcountKey d).ne_indexKey) fun hb ↦ by
      rwa [hw.find_ne (offManifest_of_isChunkDigest hload.1.1).ne_indexKey]
  · have hg := h.once g
    rw [htokens _ (fun g h ↦ by cases h) (fun g h ↦ by cases h)] at hg
    simp only [Pi.add_apply] at hg
    rw [zero_add]
    omega
  · rw [zero_add] at hg
    rw [hread, Option.getD_some]
    refine hnames g (h.known g ?_)
    rw [Pi.add_apply]
    omega
  · rw [zero_add] at h0
    obtain ⟨hne', hname', n', hrec'⟩ := h.saved g input' hop'
      (by rw [htokens _ (fun g h ↦ by cases h) (fun g h ↦ by cases h)]; exact h0)
    exact ⟨hne', hname', n', (hw.find_ne (manifestKey_ne_indexKey hname')).trans hrec'⟩
  · rw [zero_add] at h0 h1
    rw [hread, Option.getD_some]
    by_cases hgf : g = fileId
    · rw [hgf]
      exact List.mem_append_right _ (List.mem_singleton_self _)
    · refine hnames g (h.listed g input' hop' ?_ ?_)
      · rw [htokens _ (fun g h ↦ by cases h) (fun g h ↦ by cases h)]
        exact h0
      · simp only [Pi.add_apply, Tokens.one_apply, Tokens.knows, Token.unlisted.injEq, hgf,
          if_false]
        omega

/-- What a thread may make of its tokens: know what is listed, and be done with a listed file. -/
private theorem Indexing.retoken (h : Indexing store ops r s)
    (hdoomed : ∀ d, r (.doomed d) ≤ r' (.doomed d))
    (hunsaved : ∀ f, r' (.unsaved f) = r (.unsaved f))
    (hunlisted : ∀ f, r' (.unlisted f) = r (.unlisted f) ∨ r' (.unlisted f) = 0 ∧
      f ∈ (readIndex store.crates s manifestIndexKey).getD [])
    (hknown : ∀ f, 0 < r' (.known f) → 0 < r (.known f) ∨
      f ∈ (readIndex store.crates s manifestIndexKey).getD []) : Indexing store ops r' s := by
  obtain ⟨refs, hrefs, hall⟩ := h.refcounts
  refine ⟨h.manifests, h.named, ⟨refs, hrefs, fun d hd h0 ↦ hall d hd ?_⟩, h.lists, fun f ↦ ?_,
    fun f hf ↦ (hknown f hf).elim (h.known f) id, fun f input hop h0 ↦ ?_,
    fun f input hop h0 h1 ↦ ?_⟩
  · exact Nat.le_zero.mp (h0 ▸ hdoomed d)
  · have hf := h.once f
    rcases hunlisted f with heq | ⟨heq, -⟩
    · rw [hunsaved, heq]
      exact hf
    · rw [hunsaved, heq]
      omega
  · exact h.saved f input hop (by rw [← hunsaved, h0])
  · rcases hunlisted f with heq | ⟨-, hf⟩
    · exact h.listed f input hop (by rw [← hunsaved, h0]) (by rw [← heq, h1])
    · exact hf

/-- The name of the file was on the list that was read, or more is known. -/
theorem Indexing.readNames {f : Tokens} {l : List String}
    (h : Indexing store ops (.one (.unlisted fileId) + f) s)
    (hl : readIndex store.crates s manifestIndexKey = some l) :
    if fileId ∈ l then Indexing store ops (0 + f) s
      else Indexing store ops (.one (.unlisted fileId) + .knows l + f) s := by
  split
  · rename_i hmem
    refine h.retoken (fun d ↦ ?_) (fun g ↦ ?_) (fun g ↦ ?_) fun g hg ↦ Or.inl ?_
    · simp only [Pi.add_apply, Tokens.one_apply, reduceCtorEq, if_false, Pi.zero_apply, le_refl]
    · simp only [Pi.add_apply, Tokens.one_apply, reduceCtorEq, if_false, Pi.zero_apply]
    · by_cases hgf : g = fileId
      · have honce := h.once fileId
        simp only [Pi.add_apply, Tokens.one_apply, if_true] at honce
        refine Or.inr ⟨?_, ?_⟩
        · rw [hgf, zero_add]
          omega
        · rw [hgf, hl]
          exact hmem
      · refine Or.inl ?_
        simp only [Pi.add_apply, Tokens.one_apply, Token.unlisted.injEq, hgf, if_false,
          Pi.zero_apply]
    · simpa only [Pi.add_apply, Tokens.one_apply, reduceCtorEq, if_false, Pi.zero_apply] using hg
  · refine h.retoken (fun d ↦ ?_) (fun g ↦ ?_) (fun g ↦ Or.inl ?_) fun g hg ↦ ?_
    · simp only [Pi.add_apply, Tokens.knows, Nat.add_zero, le_refl]
    · simp only [Pi.add_apply, Tokens.knows, Nat.add_zero]
    · simp only [Pi.add_apply, Tokens.knows, Nat.add_zero]
    · simp only [Pi.add_apply, Tokens.knows] at hg ⊢
      by_cases hgl : g ∈ l
      · refine Or.inr ?_
        rw [hl]
        exact hgl
      · rw [List.count_eq_zero_of_not_mem hgl, Nat.add_zero] at hg
        exact Or.inl hg

theorem Indexing.unlink {f : Tokens} (h : Indexing store ops (r + f) s)
    (hdig : isChunkDigest digest = true) (hkey : key = digest ∨ key = refcountKey digest)
    (hr : ∀ t, (∀ d, t ≠ .doomed d) → r' t = r t) (hd : 0 < r' (.doomed digest))
    (hdoomed : ∀ d, d ≠ digest → r' (.doomed d) = r (.doomed d)) :
    Indexing store ops (r' + f) (s.del key) := by
  have hw := wrote_del s key
  have hoff : OffManifest key := by
    rcases hkey with rfl | rfl
    · exact offManifest_of_isChunkDigest hdig
    · exact offManifest_refcountKey digest
  have hindex : refcountIndexKey ≠ key := by
    rcases hkey with rfl | rfl
    · exact (ne_of_isChunkDigest hdig isChunkDigest_refcountIndexKey).symm
    · exact (refcountKey_ne_indexKey (ne_of_isChunkDigest hdig isChunkDigest_indexName)).symm
  obtain ⟨l, hl, hall⟩ := h.refcounts
  refine h.wrote hw hoff (fun t ht ↦ by rw [Pi.add_apply, Pi.add_apply, hr t ht])
    ⟨l, (readIndex_congr (hw.find_ne hindex)).trans hl, fun d hd' h0 ↦ ?_⟩
  rw [Pi.add_apply] at h0
  have hne : d ≠ digest := by
    rintro rfl
    omega
  rw [hdoomed d hne, ← Pi.add_apply] at h0
  have hload := hall d hd' h0
  refine hload.of_find (hw.find_ne ?_) fun hb ↦ ?_
  · rcases hkey with rfl | rfl
    · exact (ne_of_isChunkDigest hdig (isChunkDigest_refcountKey d)).symm
    · exact mt refcountKey_inj.mp hne
  · rw [hw.find_ne ?_]
    · exact hb
    · rcases hkey with rfl | rfl
      · exact hne
      · exact ne_of_isChunkDigest hload.1.1 (isChunkDigest_refcountKey digest)

theorem Indexing.unlist {f : Tokens} {l : List String}
    (h : Indexing store ops (.one (.doomed digest) + f) s)
    (hret : Retains store.crates s (s.put refcountIndexKey
      (store.crates.serde.stringsToVec (l.filter (· ≠ digest))))) :
    Indexing store ops (0 + f) (s.put refcountIndexKey
      (store.crates.serde.stringsToVec (l.filter (· ≠ digest)))) := by
  have hread : readIndex store.crates (s.put refcountIndexKey (store.crates.serde.stringsToVec
      (l.filter (· ≠ digest)))) refcountIndexKey = some (l.filter (· ≠ digest)) :=
    readIndex_of_strings (s.find_put_self _ _)
  obtain ⟨l₀, hl₀, hall⟩ := h.refcounts
  refine h.wrote (wrote_put s _ _) offManifest_refcountIndexKey (fun t ht ↦ ?_)
    ⟨_, hread, fun d hd h0 ↦ ?_⟩
  · cases t with
    | doomed d => exact absurd rfl (ht d)
    | known | unsaved | unlisted =>
      simp only [Pi.add_apply, Tokens.one_apply, reduceCtorEq, if_false, Pi.zero_apply]
  · rcases hret.refcounts d (by rw [hread]; exact hd) with hload | ⟨hlisted, hno⟩
    · exact hload
    · refine absurd (hall d ((isListed_of_readIndex hl₀).mp hlisted) ?_) hno
      have hne : d ≠ digest := of_decide_eq_true (List.mem_filter.mp hd).2
      simp only [Pi.add_apply, Tokens.one_apply, Token.doomed.injEq, hne, if_false]
      exact h0

end Steps

/-! ## Phases -/

section Phases

variable {store : ChunkStore} {ops : List ChunkStore.Op} {r : Tokens} {fileId digest : String}

theorem keeps_tame {α : Type} {p : StoreM α} (hp : Takes (Block.Of (Call.Tame store.crates)) p)
    {K : Tokens → Prop} (h : K r) : owns (retainingWorld store.crates)
      (fun r c ↦ Indexing store ops r c.1) p.run (fun _ ↦ K) r :=
  hp.keeps (fun _ r _ _ hb hi hret ↦ Uses.keeps (H := callHandler) (J := Indexing store ops r) hb
    (fun _ _ hc hret hi ↦ hi.handle hc hret) hi hret) h

theorem keeps_looks {α : Type} {p : StoreM α} (hp : Takes Block.Looks p) {K : Tokens → Prop}
    (h : K r) : owns (retainingWorld store.crates) (fun r c ↦ Indexing store ops r c.1) p.run
      (fun _ ↦ K) r :=
  keeps_tame (hp.mono fun _ hb ↦ hb.of fun _ hc ↦ hc.tame) h

theorem keeps_tame_field {α : Type} {lock : Mutex} {a : FieldAccess α} (ha : (Call.field a).Keeping)
    {K : Tokens → Prop} (h : K r) : owns (retainingWorld store.crates)
      (fun r c ↦ Indexing store ops r c.1) (locked lock (field a)).run (fun _ ↦ K) r :=
  have hc : (Call.field a).Tame store.crates := ha
  keeps_tame (takes_locked_of_makes (makes_field hc)) h

theorem owns_readStringList {key : String} {Q : List String → Tokens → Prop}
    (h : ∀ f s l, Indexing store ops (r + f) s → readIndex store.crates s key = some l →
      ∃ r', Indexing store ops (r' + f) s ∧ Q l r') :
    owns (retainingWorld store.crates) (fun r c ↦ Indexing store ops r c.1)
      (unlocked (readStringList store.crates key)).run Q r := by
  rw [readStringList, unlocked_bind]
  refine owns_bind (owns_call fun f s w hi _ ↦ ?_)
  rw [show (BackendCall.run (.get key) s.backend).1 = s.find key from rfl]
  cases hraw : s.find key with
  | none =>
    obtain ⟨r', hi', hq⟩ := h f s [] hi (readIndex_of_find_none hraw)
    exact ⟨r', hi', hq⟩
  | some raw =>
    dsimp only
    cases hl : store.crates.serde.stringsFromSlice raw with
    | ok l =>
      obtain ⟨r', hi', hq⟩ := h f s l hi (by rw [readIndex_of_find hraw, hl]; rfl)
      exact ⟨r', hi', hq⟩
    | error e => exact ⟨r, hi, trivial⟩

theorem owns_put {key : String} {data : Bytes} {r' : Tokens}
    (h : ∀ f s, Indexing store ops (r + f) s → Retains store.crates s (s.put key data) →
      Indexing store ops (r' + f) (s.put key data)) :
    owns (retainingWorld store.crates) (fun r c ↦ Indexing store ops r c.1)
      (unlocked (backendCall (.put key data))).run (fun _ r ↦ r = r') r :=
  owns_call fun f s _ hi hret ↦ ⟨r', h f s hi hret.1, rfl⟩

/-- **Saving a manifest** puts the record, and the name on the index. -/
theorem owns_saveManifest_indexing {input : ChunkStore.IngestInput} {n : ℕ}
    (hop : .ingest fileId input ∈ ops) (hne : fileId ≠ "")
    (hunique : ∀ input', .ingest fileId input' ∈ ops → input' = input) :
    owns (retainingWorld store.crates) (fun r c ↦ Indexing store ops r c.1)
      (unlocked (saveManifest store.crates fileId
        ((input.stream store.crates).chunks.map (digestHex store.crates.sha256)) n)).run
      (fun _ r ↦ r = 0) (.one (.unsaved fileId)) := by
  have hdigests : ∀ d ∈ (input.stream store.crates).chunks.map (digestHex store.crates.sha256),
      isChunkDigest d = true := by
    intro d hd
    obtain ⟨chunk, -, rfl⟩ := List.mem_map.mp hd
    exact isChunkDigest_digestHex _ _
  rw [saveManifest_eq, forM_validateDigest hdigests, ofExcept_ok, pure_bind, unlocked_bind]
  refine owns_bind (owns_mono (owns_put fun f s hi hret ↦
    hi.putRecord hne hunique hret) ?_)
  rintro _ _ rfl
  rw [listName, unlocked_bind]
  refine owns_bind (owns_mono (owns_readStringList (Q := fun l r ↦
    r = if fileId ∈ l then 0 else .one (.unlisted fileId) + .knows l) fun f s l hi hl ↦ ?_) ?_)
  · have hread := hi.readNames hl
    refine ⟨_, ?_, rfl⟩
    by_cases hmem : fileId ∈ l
    · rw [if_pos hmem] at hread ⊢
      exact hread
    · rw [if_neg hmem] at hread ⊢
      exact hread
  · rintro l _ rfl
    split
    · exact owns_pure rfl
    · exact owns_put fun f s hi hret ↦ hi.putName hop hret

theorem makes_tame_saveRefcount {count size : ℕ} (hdig : isChunkDigest digest = true) :
    Makes (Call.Tame store.crates) (saveRefcount store.crates digest count size) := by
  have hkey : refcountKey digest ≠ refcountIndexKey :=
    refcountKey_ne_indexKey (ne_of_isChunkDigest hdig isChunkDigest_indexName)
  have hread : Makes (Call.Tame store.crates) (readStringList store.crates refcountIndexKey) :=
    (confined_readStringList (K := fun _ ↦ False)).mono fun c hc ↦ by
      cases c with
      | field a => exact hc.elim
      | backend c =>
        cases c with
        | put | delete | listKeys => exact hc.elim
        | get | existsKey => trivial
  refine (makes_ofExcept _).bind fun _ ↦
    (makes_backendCall ⟨offManifest_refcountKey digest, ?_⟩).bind fun _ ↦ hread.bind fun l ↦
      makes_ite (makes_pure _)
        (makes_backendCall ⟨offManifest_refcountIndexKey, fun _ ↦ ⟨_, rfl⟩⟩)
  exact fun h ↦ absurd h hkey

private theorem takes_tame_storeChunk {data : Bytes} (hdig : isChunkDigest digest = true) :
    Takes (Block.Of (Call.Tame store.crates)) (store.storeChunk digest data) := by
  have hput : ∀ blob, Makes (Call.Tame store.crates) (ChunkStore.putBlob digest blob) := by
    refine fun blob ↦ (makes_backendCall trivial).bind fun _ ↦ makes_ite (makes_pure _)
      ((makes_backendCall ⟨offManifest_of_isChunkDigest hdig, fun h ↦ ?_⟩).bind fun _ ↦
        makes_pure _)
    exact absurd h (ne_of_isChunkDigest hdig isChunkDigest_refcountIndexKey)
  have hcount : Makes (Call.Tame store.crates) (store.countChunk digest data.length) :=
    (makes_fieldOrThrow trivial).bind fun _ ↦ (makes_field trivial).bind fun _ ↦
      makes_tame_saveRefcount hdig
  refine (takes_ofExcept _).bind fun blob ↦ (takes_locked_of_makes (hput blob)).bind fun present ↦
    (takes_locked_of_makes hcount).bind fun _ ↦ takes_ite ?_ ?_
  · exact (takes_locked_of_makes (makes_field trivial)).bind fun _ ↦ takes_pure _
  · exact (takes_locked_of_makes (makes_field trivial)).bind fun _ ↦ takes_pure _

/-- **Releasing a digest.** From the unlinking of its blob until its name is off the index the
thread answers for it. -/
theorem owns_releaseDigest_indexing (hdig : isChunkDigest digest = true) :
    owns (retainingWorld store.crates) (fun r c ↦ Indexing store ops r c.1)
      (store.releaseDigest digest).run (fun _ r ↦ r = 0) 0 := by
  refine owns_releaseDigest (A := fun r ↦ r = 0) (B := fun _ r ↦ r = 0)
    (U := fun r ↦ r = .one (.doomed digest)) (V := fun r ↦ r = 0)
    (C := fun r ↦ r = 0) rfl ?_ ?_ ?_ ?_ ?_ ?_ ?_
  · exact fun r h ↦ keeps_looks (takes_chunkSize store digest) h
  · exact fun r h ↦ keeps_tame (takes_locked_of_makes (makes_fieldOrThrow (by trivial))) h
  · rintro r rfl
    refine owns_call fun f s w hi _ ↦
      ⟨_, hi.unlink hdig (Or.inl rfl) (fun t ht ↦ ?_) ?_ fun d hd ↦ ?_,
      rfl⟩
    · rw [Tokens.one_apply, if_neg (ht digest)]
      rfl
    · rw [Tokens.one_apply, if_pos rfl]
      exact Nat.one_pos
    · rw [Tokens.one_apply, if_neg fun h ↦ hd (Token.doomed.inj h)]
      rfl
  · rintro r rfl
    rw [removeRefcount_eq, unlocked_bind, unlistName, unlocked_bind]
    refine owns_bind (owns_mono (owns_call (Q := fun _ r ↦ r = .one (.doomed digest))
      fun f s w hi _ ↦ ⟨_, hi.unlink hdig (Or.inr rfl) (fun _ _ ↦ rfl) ?_ fun _ _ ↦ rfl, rfl⟩) ?_)
    · rw [Tokens.one_apply, if_pos rfl]
      exact Nat.one_pos
    · rintro _ _ rfl
      refine owns_bind (owns_mono (owns_readStringList (Q := fun _ r ↦ r = .one (.doomed digest))
        fun f s l hi _ ↦ ⟨_, hi, rfl⟩) ?_)
      rintro l _ rfl
      exact owns_put fun f s hi hret ↦ hi.unlist hret
  · exact fun _ r h ↦ keeps_tame_field (by trivial) h
  · exact fun _ _ r h ↦ keeps_tame (takes_unlocked_of_makes (makes_tame_saveRefcount hdig)) h
  · exact fun _ r h ↦ keeps_tame_field (by trivial) h

/-- **An ingest** of the run. -/
theorem owns_ingestStream_indexing {input : ChunkStore.IngestInput}
    (hop : .ingest fileId input ∈ ops)
    (hunique : ∀ input', .ingest fileId input' ∈ ops → input' = input) :
    owns (retainingWorld store.crates) (fun r c ↦ Indexing store ops r c.1)
      (store.ingestStream fileId (input.stream store.crates)).run (fun _ r ↦ r = 0)
      (.one (.unsaved fileId)) := by
  have hdigests : ∀ d ∈ (input.stream store.crates).chunks.map (digestHex store.crates.sha256),
      isChunkDigest d = true := by
    intro d hd
    obtain ⟨chunk, -, rfl⟩ := List.mem_map.mp hd
    exact isChunkDigest_digestHex _ _
  refine owns_mono (owns_ingestStream (J := fun _ r ↦ r = .one (.unsaved fileId))
    (K := fun old r ↦ (∀ d ∈ old, isChunkDigest d = true) ∧ r = .one (.unsaved fileId))
    (N := fun old r ↦ (∀ d ∈ old, isChunkDigest d = true) ∧ fileId ≠ "" ∧
      r = .one (.unsaved fileId))
    (L := fun ds r ↦ (∀ d ∈ ds, isChunkDigest d = true) ∧ r = 0) rfl ?_ ?_ ?_ ?_ ?_)
    fun _ _ h ↦ h.2
  · exact fun chunk l r h ↦ keeps_tame (takes_tame_storeChunk (isChunkDigest_digestHex _ _)) h
  · rintro r - rfl
    refine owns_locked fun f s w hi _ ↦ quietly_field ⟨_, hi, fun d hd ↦ ?_, rfl⟩
    rw [FieldAccess.run] at hd
    cases hget : s.fields.manifest.tryGet fileId with
    | none =>
      rw [hget] at hd
      cases hd
    | some old =>
      rw [hget] at hd
      exact hi.lists fileId old hget d hd
  · rintro old r ⟨hold, rfl⟩
    refine owns_locked fun f s w hi _ ↦ quietly_fieldOrThrow (fun _ hok ↦ ?_) fun _ _ ↦ trivial
    rw [FieldAccess.run] at hok ⊢
    cases hins : s.fields.manifest.insert fileId ((input.stream store.crates).chunks.map
        (digestHex store.crates.sha256))
        ((input.stream store.crates).chunks.map List.length).sum with
    | error e =>
      rw [hins] at hok
      cases hok
    | ok m =>
      have hne : fileId ≠ "" := by
        rintro rfl
        rw [Manifest.insert_empty] at hins
        cases hins
      refine ⟨_,
        ⟨hi.manifests, hi.named, hi.refcounts, fun g digests hget d hd ↦ ?_, hi.once, hi.known,
        hi.saved, hi.listed⟩, hold, hne, rfl⟩
      change m.tryGet g = some digests at hget
      rw [Manifest.updated_of_insert hins g] at hget
      split at hget
      · obtain rfl := Option.some.inj hget
        exact hdigests d hd
      · exact hi.lists g digests hget d hd
  · rintro old r ⟨hold, hne, rfl⟩
    exact owns_mono (owns_saveManifest_indexing hop hne hunique) fun _ r hr ↦ ⟨hold, hr⟩
  · rintro d ds r ⟨hds, rfl⟩
    exact owns_mono (owns_releaseDigest_indexing (hds d List.mem_cons_self)) fun _ r hr ↦
      ⟨fun e he ↦ hds e (List.mem_cons_of_mem d he), hr⟩

/-- **A thread** that has ingested its files owns nothing any more. -/
theorem owns_thread_indexing {l : List ChunkStore.Op} (hl : ∀ op ∈ l, op ∈ ops)
    (hops : ∀ op ∈ ops, ∃ f input, op = .ingest f input)
    (hunique : ∀ f input input', .ingest f input ∈ ops → .ingest f input' ∈ ops → input' = input) :
    owns (retainingWorld store.crates) (fun r c ↦ Indexing store ops r c.1) (store.thread l)
      (fun _ r ↦ r = 0) (.owed l) := by
  refine owns_mono
    (owns_thread (J := fun l r ↦ (∀ op ∈ l, op ∈ ops) ∧ r = .owed l) ?_ l ⟨hl, rfl⟩) ?_
  · rintro op l r ⟨hl, rfl⟩
    have hop := hl op List.mem_cons_self
    obtain ⟨f, input, rfl⟩ := hops op hop
    rw [Tokens.owed_cons, Tokens.owed_ingest, ChunkStore.perform, ChunkStore.ingestInput_eq]
    refine owns_map (owns_mono (owns_frame (owns_ingestStream_indexing hop fun input' h ↦
      hunique f input input' hop h)) ?_)
    rintro _ _ ⟨_, rfl, rfl⟩
    exact ⟨fun op hm ↦ hl op (List.mem_cons_of_mem _ hm), zero_add _⟩
  · rintro _ _ ⟨-, rfl⟩
    funext t
    cases t <;> rfl

end Phases

/-! ## Runs -/

namespace ChunkStore

variable {store : ChunkStore} {s : State}

private theorem indexing_start {ops : List Op} (h : Fit store.crates s)
    (hnd : (ops.map Op.file).Nodup) :
    Indexing store ops (.owed ops) s := by
  have hunsaved : ∀ f input, .ingest f input ∈ ops → Tokens.owed ops (.unsaved f) ≠ 0 :=
    fun f input hop h0 ↦ absurd (List.mem_map.mpr ⟨_, hop, rfl⟩ : some f ∈ ops.map Op.file)
      (List.count_eq_zero.mp h0)
  obtain ⟨l, hl, hall⟩ := h.sound.refcounts
  refine ⟨h.sound.manifests, h.sound.named, ⟨l, hl, fun d hd _ ↦ hall d hd (Option.not_mem_none d)⟩,
    fun f digests hget ↦ (h.listed f digests hget).2, fun f ↦ List.nodup_iff_count_le_one.mp hnd _,
    fun f hf ↦ (by cases hf), fun f input hop h0 ↦ absurd h0 (hunsaved f input hop),
    fun f input hop h0 ↦ absurd h0 (hunsaved f input hop)⟩

/-- **Concurrently ingested files after a restart.** Threads ingest files under distinct ids on one
instance, and their blocks interleave in any way. If no put of the run takes a name off the manifest
index or spoils a reference count, the backend can be opened when all threads have returned, and
every ingested file is found with its list. -/
theorem concurrent_files_survive (store : ChunkStore) (work : List (List Op))
    (hwork : ∀ op ∈ work.flatten, ∃ fileId input, op = .ingest fileId input)
    (hdistinct : (work.flatten.map Op.file).Nodup) (s s' : State) (hs : Fit store.crates s)
    (results : List (List Reply))
    (h : (blockHandler.toMachine.given fun s b ↦ b.Retains store.crates s).PoolSteps
      (store.threads work, s) (returned results, s')) :
    (store.exec .reopen s').1 = .ok .done ∧ ∀ fileId input, .ingest fileId input ∈ work.flatten →
      (store.exec .reopen s').2.fields.manifest.tryGet fileId
        = some ((input.stream store.crates).chunks.map (digestHex store.crates.sha256)) := by
  obtain ⟨w', hsteps⟩ := Handler.poolSteps_tallied (fun _ _ ↦ 0) h 0
  have hunique : ∀ f input input', .ingest f input ∈ work.flatten →
      .ingest f input' ∈ work.flatten → input' = input := fun f input input' hop hop' ↦
    (Op.ingest.inj (List.inj_on_of_nodup_map hdistinct hop' hop rfl)).2
  have hend : Indexing store work.flatten 0 s' := by
    have hreturned : (fun (r : Tokens) (c : State × ℕ) ↦ Indexing store work.flatten r c.1)
        (work.map fun _ ↦ (0 : Tokens)).sum (s', w') := by
      refine pool_returns (M := retainingWorld store.crates) (fun ops hops ↦
        owns_thread_indexing (fun op hop ↦ List.mem_flatten_of_mem hops hop) hwork hunique)
        ?_ hsteps
      rw [Tokens.sum_owed]
      exact indexing_start hs hdistinct
    rwa [List.sum_map_zero] at hreturned
  obtain ⟨refs, hrefs, hall⟩ := hend.refcounts
  have hopen : Openable store.crates s' :=
    ⟨hend.manifests, (indexLoads_iff hrefs).mpr fun d hd ↦ hall d hd rfl⟩
  obtain ⟨hdone, hopened⟩ := @exec_reopen_of_quietly store _ _
    (quietly_mono quietly_openStore_opened (fun _ _ ho ↦ ho) fun _ _ hno ↦ hno hopen)
  refine ⟨hdone, fun f input hop ↦ ?_⟩
  obtain ⟨-, -, n, hrecord⟩ := hend.saved f input hop rfl
  have hfile : persistedFile store.crates s' f
      = some ⟨(input.stream store.crates).chunks.map (digestHex store.crates.sha256), n⟩ := by
    rw [persistedFile, if_pos (hend.listed f input hop rfl rfl), manifestRecord, hrecord,
      Option.bind_some, store.crates.serde.manifest_roundtrip]
    rfl
  rw [Manifest.tryGet, (hopened.files f).1, hfile]
  rfl

theorem concurrent_files_survive_sameChunk :
    let s' := (blockHandler.schedule (List.replicate 8 0 ++ List.replicate 8 1)
      (smallStore.threads sameChunk, .empty true)).2
    (smallStore.exec .reopen s').1 = .ok .done ∧ ∀ fileId input,
      .ingest fileId input ∈ sameChunk.flatten →
        (smallStore.exec .reopen s').2.fields.manifest.tryGet fileId
          = some ((input.stream smallStore.crates).chunks.map
            (digestHex smallStore.crates.sha256)) :=
  concurrent_files_survive smallStore sameChunk sameChunk_ingests (by decide) (.empty true) _
    (fit_empty _ true) sameChunkReplies (schedule_returns_given _ _ _ sameChunkReplies
      (fun s b ↦ b.Retains smallStore.crates s) (by decide +kernel) (by decide +kernel))

/-- The threads take turns: both read the manifest index before either puts it. -/
theorem concurrent_files_not_survive : ¬∀ (store : ChunkStore) (work : List (List Op)),
    (∀ op ∈ work.flatten, ∃ fileId input, op = .ingest fileId input) →
    (work.flatten.map Op.file).Nodup → ∀ (lists : Bool) (s' : State) (results : List (List Reply)),
      blockHandler.toMachine.PoolSteps (store.threads work, .empty lists) (returned results, s') →
      (store.exec .reopen s').1 = .ok .done ∧ ∀ fileId input, .ingest fileId input ∈ work.flatten →
        (store.exec .reopen s').2.fields.manifest.tryGet fileId
          = some ((input.stream store.crates).chunks.map (digestHex store.crates.sha256)) := by
  intro h
  obtain ⟨-, hfiles⟩ := h smallStore sameChunk sameChunk_ingests (by decide) true _ sameChunkReplies
    (schedule_returns blockHandler (List.replicate 8 [0, 1]).flatten
      (smallStore.threads sameChunk, .empty true) sameChunkReplies (by decide +kernel))
  have hlost := hfiles "f" (.bytes [0x61]) List.mem_cons_self
  revert hlost
  decide +kernel

end ChunkStore

end Chunkstore

import Chunkstore.Bindings.GoBridge

/-!
# Stores in a bucket

The S3 backends of the bindings put a prefix and a `/` before every key, so that several stores can
be kept in one bucket (`backend_s3.go`, and `_key` in `backend.py` and `async_s3_backend.py`). That
does not always keep them apart: under the prefix `a/_manifest` are the manifests of the store under
`a`.

The bucket itself is behind a client library. It is taken to be a map of objects, whose listing
gives every key once, in pages.

## Main results

* `S3Backend.keysApart_iff`: the stores under two prefixes have no object in common if and only if
  neither prefix is, or is below, a directory of the other's metadata.
* `S3Backend.serves_prefixes`: stores under such prefixes, in any interleaving, do what they do
  alone.
* `S3Backend.mem_listChunkKeys`: listing the chunks under a prefix gives those of its store.
-/

open Effects

namespace Chunkstore

namespace S3Backend

/-! ## Object keys -/

/-- `NewS3Backend`: slashes around a prefix do not count, and without one it is `chunks`. -/
def prefixOf (option : String) : String :=
  let trimmed := ((option.toList.dropWhile (· = '/')).reverse.dropWhile (· = '/')).reverse
  if trimmed = [] ∧ option = "" then "chunks" else String.ofList trimmed

def objectKey (pre key : String) : String := if pre = "" then key else pre ++ "/" ++ key

/-- A path below another, where the empty one is the root. -/
def under (p k : List Char) : List Char := if p = [] then k else p ++ '/' :: k

variable {p q k k' : List Char} {pre pre' key key' : String}

theorem toList_objectKey (pre key : String) :
    (objectKey pre key).toList = under pre.toList key.toList := by
  rw [objectKey, under]
  split
  · rename_i h
    rw [if_pos (String.toList_eq_nil_iff.mpr h)]
  · rename_i h
    rw [if_neg (mt String.toList_eq_nil_iff.mp h), String.toList_append, String.toList_append]
    exact List.append_assoc _ _ _

theorem objectKey_inj (h : objectKey pre key = objectKey pre key') : key = key' := by
  rw [objectKey, objectKey] at h
  split at h
  · exact h
  · exact (String.append_right_inj (pre ++ "/")).mp h

theorem under_eq_append {p k : List Char} (h : p ≠ []) : under p k = p ++ '/' :: k := if_neg h

theorem under_eq_under (h : under p k = under q k') :
    p = q ∨ (∃ r, q = under p r ∧ k = r ++ '/' :: k') ∨
      ∃ r, p = under q r ∧ k' = r ++ '/' :: k := by
  by_cases hp : p = []
  · by_cases hq : q = []
    · exact Or.inl (hp.trans hq.symm)
    · rw [under, if_pos hp, under_eq_append hq] at h
      exact Or.inr (Or.inl ⟨q, (if_pos hp).symm, h⟩)
  by_cases hq : q = []
  · rw [under_eq_append hp, under, if_pos hq] at h
    exact Or.inr (Or.inr ⟨p, (if_pos hq).symm, h.symm⟩)
  -- one prefix continues the other, behind a slash
  rw [under_eq_append hp, under_eq_append hq, List.append_eq_append_iff] at h
  rcases h with ⟨a, rfl, ha⟩ | ⟨a, rfl, ha⟩
  · cases a with
    | nil => exact Or.inl (List.append_nil p).symm
    | cons c r =>
      obtain ⟨rfl, rfl⟩ := List.cons.inj ha
      exact Or.inr (Or.inl ⟨r, (under_eq_append hp).symm, rfl⟩)
  · cases a with
    | nil => exact Or.inl (List.append_nil q)
    | cons c r =>
      obtain ⟨rfl, rfl⟩ := List.cons.inj ha
      exact Or.inr (Or.inr ⟨r, (under_eq_append hq).symm, rfl⟩)

/-- A prefix that is a directory of the metadata of another, or below its manifests. -/
def Inside (pre pre' : String) : Prop :=
  pre' = objectKey pre "_refcount" ∨ pre' = objectKey pre "_manifest" ∨
    (objectKey pre "_manifest/").toList <+: pre'.toList

instance (pre pre' : String) : Decidable (Inside pre pre') :=
  inferInstanceAs (Decidable (_ ∨ _ ∨ _))

/-- The stores under two prefixes have no object in common. -/
def KeysApart (sc sc' : Scope) (pre pre' : String) : Prop :=
  ∀ key key', sc.Key key → sc'.Key key' → objectKey pre key ≠ objectKey pre' key'

section Keys

variable {sc sc' : Scope} {r : List Char}

private theorem slash_not_mem_entry {digest : String}
    (hd : isChunkDigest digest = true ∨ digest = indexName) : '/' ∉ digest.toList := by
  rcases hd with hd | rfl
  · intro hmem
    rw [isChunkDigest_eq_false hmem (by decide)] at hd
    cases hd
  · decide

private theorem split_dir {dir rest : List Char} (hdir : '/' ∉ dir)
    (h : dir ++ '/' :: rest = r ++ '/' :: k') :
    r = dir ∨ dir ++ ['/'] <+: r ∧ '/' ∈ rest := by
  rw [List.append_eq_append_iff] at h
  rcases h with ⟨a, rfl, ha⟩ | ⟨a, rfl, ha⟩
  · cases a with
    | nil => exact Or.inl (List.append_nil dir)
    | cons c a =>
      obtain ⟨rfl, rfl⟩ := List.cons.inj ha
      refine Or.inr ⟨⟨a, (List.append_cons dir '/' a).symm⟩, ?_⟩
      exact List.mem_append_right _ List.mem_cons_self
  · cases a with
    | nil => exact Or.inl (List.append_nil r).symm
    | cons c a =>
      obtain ⟨rfl, -⟩ := List.cons.inj ha
      exact absurd (List.mem_append_right _ List.mem_cons_self) hdir

/-- What stands before a slash of a key is a directory of metadata, or below the manifests. -/
theorem split_key (hkey : sc.Key key) (h : key.toList = r ++ '/' :: k') :
    r = "_refcount".toList ∨ r = "_manifest".toList ∨ "_manifest/".toList <+: r := by
  cases hkey with
  | blob hd =>
    refine absurd ?_ (slash_not_mem_entry (Or.inl hd))
    rw [h]
    exact List.mem_append_right _ List.mem_cons_self
  | @refcount digest hd =>
    have heq : "_refcount".toList ++ '/' :: digest.toList = r ++ '/' :: k' := by
      rw [← h, toList_refcountKey]
      rfl
    rcases split_dir (by decide) heq with hr | ⟨-, hmem⟩
    · exact Or.inl hr
    · exact absurd hmem (slash_not_mem_entry hd)
  | @manifest fileId hf =>
    have heq : "_manifest".toList ++ '/' :: fileId.toList = r ++ '/' :: k' := by
      rw [← h, toList_manifestKey]
      rfl
    rcases split_dir (by decide) heq with hr | ⟨hpre, -⟩
    · exact Or.inr (Or.inl hr)
    · exact Or.inr (Or.inr hpre)

theorem under_under (hr : r ≠ []) : under (under p r) k = under p (r ++ '/' :: k) := by
  by_cases hp : p = []
  · rw [under, under, if_pos hp, if_neg hr, under, if_pos hp]
  · rw [under_eq_append hp, under_eq_append hp, under_eq_append]
    · exact List.append_assoc _ _ _
    · exact mt List.append_eq_nil_iff.mp fun h ↦ hp h.1

theorem under_append (p k l : List Char) : under p (k ++ l) = under p k ++ l := by
  by_cases hp : p = []
  · rw [under, under, if_pos hp, if_pos hp]
  · rw [under_eq_append hp, under_eq_append hp, List.append_assoc]
    rfl

private theorem objectKey_eq_iff :
    pre' = objectKey pre key ↔ pre'.toList = under pre.toList key.toList := by
  rw [← toList_objectKey, String.toList_inj]

theorem inside_iff : Inside pre pre' ↔ ∃ r, pre'.toList = under pre.toList r ∧
    (r = "_refcount".toList ∨ r = "_manifest".toList ∨ "_manifest/".toList <+: r) := by
  rw [Inside, objectKey_eq_iff, objectKey_eq_iff, toList_objectKey]
  constructor
  · rintro (h | h | ⟨x, h⟩)
    · exact ⟨_, h, Or.inl rfl⟩
    · exact ⟨_, h, Or.inr (Or.inl rfl)⟩
    · exact ⟨_, h.symm.trans (under_append _ _ x).symm, Or.inr (Or.inr ⟨x, rfl⟩)⟩
  · rintro ⟨r, h, rfl | rfl | ⟨x, rfl⟩⟩
    · exact Or.inl h
    · exact Or.inr (Or.inl h)
    · exact Or.inr (Or.inr ⟨x, (under_append _ _ x).symm.trans h.symm⟩)

/-- Where neither prefix is inside the other, no keys meet. -/
theorem keysApart (hne : pre ≠ pre') (h : ¬Inside pre pre') (h' : ¬Inside pre' pre) :
    KeysApart sc sc' pre pre' := by
  intro key key' hkey hkey' heq
  rw [String.ext_iff, toList_objectKey, toList_objectKey] at heq
  rcases under_eq_under heq with hpre | ⟨r, hpre, hr⟩ | ⟨r, hpre, hr⟩
  · exact hne (String.toList_inj.mp hpre)
  · exact h (inside_iff.mpr ⟨r, hpre, split_key hkey hr⟩)
  · exact h' (inside_iff.mpr ⟨r, hpre, split_key hkey' hr⟩)

/-- Any files but the index. -/
def anyFile : Scope := ⟨fun f ↦ f ≠ indexName, fun _ ↦ True, False⟩

private theorem exists_isChunkDigest : ∃ d, isChunkDigest d = true :=
  ⟨digestHex (fun _ ↦ .replicate 32 0) [], isChunkDigest_digestHex _ _⟩

private theorem not_keysApart (h : Inside pre pre') : ¬KeysApart anyFile anyFile pre pre' := by
  obtain ⟨r, hpre, hr⟩ := inside_iff.mp h
  obtain ⟨digest, hd⟩ := exists_isChunkDigest
  have hrne : r ≠ [] := by
    rcases hr with rfl | rfl | ⟨x, rfl⟩
    · decide
    · decide
    · exact List.cons_ne_nil _ _
  obtain ⟨key, hkey, hsplit⟩ : ∃ key, anyFile.Key key ∧
      key.toList = r ++ '/' :: digest.toList := by
    rcases hr with rfl | rfl | ⟨x, rfl⟩
    · exact ⟨refcountKey digest, .refcount (Or.inl hd),
        toList_refcountKey _⟩
    · refine ⟨manifestKey digest, .manifest (Or.inl ?_), toList_manifestKey _⟩
      rintro rfl
      exact absurd hd (by decide)
    · -- a file in a directory of the same name
      refine ⟨manifestKey (.ofList (x ++ '/' :: digest.toList)),
        .manifest (Or.inl fun hindex ↦ ?_), ?_⟩
      · have hmem : '/' ∈ indexName.toList := by
          rw [← hindex, String.toList_ofList]
          exact List.mem_append_right _ List.mem_cons_self
        exact absurd hmem (by decide)
      · rw [toList_manifestKey, String.toList_ofList]
        exact (List.append_assoc _ _ _).symm
  intro hapart
  refine hapart key digest hkey (.blob hd) ?_
  rw [String.ext_iff, toList_objectKey, toList_objectKey, hpre, hsplit, under_under hrne]

theorem KeysApart.symm (h : KeysApart sc sc' pre pre') : KeysApart sc' sc pre' pre :=
  fun key key' hkey hkey' heq ↦ h key' key hkey' hkey heq.symm

/-- **Two prefixes keep apart** what is stored under them, for any files, if and only if they differ
and neither is inside the metadata of the other. -/
theorem keysApart_iff (pre pre' : String) :
    KeysApart anyFile anyFile pre pre' ↔ pre ≠ pre' ∧ ¬Inside pre pre' ∧ ¬Inside pre' pre := by
  constructor
  · intro h
    refine ⟨?_, fun hin ↦ not_keysApart hin h, fun hin ↦ not_keysApart hin h.symm⟩
    rintro rfl
    exact h _ _ Scope.key_manifestIndexKey Scope.key_manifestIndexKey rfl
  · rintro ⟨hne, h, h'⟩
    exact keysApart hne h h'

end Keys

/-! ## The backend -/

/-- The client of one bucket: calls on objects, where a missing one is no error, and the pages of
`ListObjectsV2` under a prefix. -/
structure S3Client (T : Type) where
  object : ChunkBackend T
  pages : String → T → List (List String) → Prop

section Backend

variable {T : Type} {client : S3Client T} {B : Backend → T → Prop} {sc : Scope} {t t' : T}

/-- A call on an object. -/
def OnObject {γ : Type} : Call γ → Prop
  | .backend (.listKeys _) => False
  | _ => True

/-- The bucket is a map of objects, and a listing gives the keys under a prefix once each. -/
structure S3Client.Keeps (client : S3Client T) (B : Backend → T → Prop) : Prop where
  object : client.object.Realises (fun _ c ↦ OnObject c) B
  pages : ∀ (m : Backend) (t : T) (pre : String) (pages : List (List String)), B m t →
    client.pages pre t pages → pages.flatten.Nodup ∧
      ∀ key, key ∈ pages.flatten ↔ pre.toList <+: key.toList ∧ (m.data.find key).isSome

/-- A call of the store, as it is made for the object. -/
def objectCall (pre : String) {γ : Type} : BackendCall γ → BackendCall γ
  | .get key => .get (objectKey pre key)
  | .put key data => .put (objectKey pre key) data
  | .existsKey key => .existsKey (objectKey pre key)
  | .delete key => .delete (objectKey pre key)
  | .listKeys p => .listKeys p

/-- `S3Backend`: `Get`, `Put`, `Exists` and `Delete` of an object. -/
def backend (client : S3Client T) (pre : String) : ChunkBackend T where
  call c := client.object.call (objectCall pre c)

/-- The objects under a prefix are those of a map. -/
def Holds (B : Backend → T → Prop) (sc : Scope) (pre : String) (m : Backend) (t : T) : Prop :=
  ∃ objects, B objects t ∧
    ∀ key, sc.Key key → objects.data.find (objectKey pre key) = m.data.find key

theorem onObject_objectCall {γ : Type} {c : BackendCall γ} (hl : ¬sc.listing)
    (hc : (Call.backend c).On sc) (pre : String) : OnObject (Call.backend (objectCall pre c)) := by
  cases c with
  | listKeys => exact hl hc
  | _ => trivial

private theorem realises (hclient : client.Keeps B) (hl : ¬sc.listing) (pre : String) :
    (backend client pre).Realises (fun _ c ↦ c.On sc) (Holds B sc pre) where
  answers := by
    rintro γ c s t hc ⟨objects, hB, -⟩
    exact hclient.object.answers (objectCall pre c) ⟨objects, s.fields⟩ t
      (onObject_objectCall hl hc pre) hB
  agrees := by
    rintro γ c s t r t' hc ⟨objects, hB, hsame⟩ hcall
    obtain ⟨hr, hB'⟩ := hclient.object.agrees (objectCall pre c) ⟨objects, s.fields⟩ t r t'
      (onObject_objectCall hl hc pre) hB hcall
    cases c with
    | get key =>
      rw [hr]
      exact ⟨congrArg Except.ok (hsame key hc), objects, hB', hsame⟩
    | existsKey key =>
      rw [hr]
      refine ⟨?_, objects, hB', hsame⟩
      change Except.ok (objects.data.find (objectKey pre key)).isSome = _
      rw [hsame key (.blob hc)]
      rfl
    | put key data =>
      refine ⟨hr, _, hB', fun other hother ↦ ?_⟩
      change (objects.data.set (objectKey pre key) data).find (objectKey pre other)
        = (s.backend.data.set key data).find other
      rw [Table.find_set, Table.find_set, hsame other hother]
      exact if_congr ⟨objectKey_inj, congrArg _⟩ rfl rfl
    | delete key =>
      refine ⟨hr, _, hB', fun other hother ↦ ?_⟩
      change (objects.data.unset (objectKey pre key)).find (objectKey pre other)
        = (s.backend.data.unset key).find other
      rw [Table.find_unset, Table.find_unset, hsame other hother]
      exact if_congr ⟨objectKey_inj, congrArg _⟩ rfl rfl
    | listKeys => exact absurd hc hl

private theorem apart {β : Type} (hclient : client.Keeps B) (hl : ¬sc.listing) {pre : β → String}
    (hpre : ∀ b b', b ≠ b' → KeysApart sc sc (pre b) (pre b')) :
    ChunkBackend.Apart (fun b ↦ backend client (pre b)) (fun _ ↦ fun _ c ↦ c.On sc)
      fun b ↦ Holds B sc (pre b) where
  realises b := realises hclient hl (pre b)
  frame := by
    rintro b γ c s t r t' hc - hcall b' m hne ⟨objects, hB, hsame⟩
    obtain ⟨-, hB'⟩ := hclient.object.agrees (objectCall (pre b) c) ⟨objects, s.fields⟩ t r t'
      (onObject_objectCall hl hc (pre b)) hB hcall
    refine ⟨_, hB', fun key hkey ↦ (?_ : _ = _).trans (hsame key hkey)⟩
    cases c with
    | get | existsKey => rfl
    | put other data => exact Table.find_set_ne (hpre b' b hne key other hkey hc.1)
    | delete other => exact Table.find_unset_ne (hpre b' b hne key other hkey hc)
    | listKeys => exact absurd hc hl

/-- **Stores in one bucket do what they do alone.** Programs that open stores under prefixes of
which none is inside the metadata of another, in any interleaving, with fewer than `2 ^ 64` sessions
in all: what a program has returned is what its sessions return on a map, and the objects under its
prefix are those of the map. Every run can be completed. -/
theorem serves_prefixes {β : Type} (crates : Crates) (client : S3Client T) (B : Backend → T → Prop)
    (hclient : client.Keeps B) (pre : β → String)
    (hpre : ∀ b b', b ≠ b' → pre b ≠ pre b' ∧ ¬Inside (pre b) (pre b') ∧ ¬Inside (pre b') (pre b))
    (work : List (β × List (List ChunkStore.Op))) (hapart : (work.map Prod.fst).Nodup)
    (hseq : (work.map fun q ↦ q.2.length).sum < 2 ^ 64)
    (hcovers : ∀ q ∈ work, GoBridge.goScope.Covers ⟨crates, none⟩ q.2.flatten)
    (hshort : ∀ q ∈ work, callHandler.Meets (fun _ c ↦ GoBridge.Short c)
      (ChunkStore.serve ⟨crates, none⟩ (ChunkStore.opsOf q.2)) (.empty false))
    (t : T) (lists : Bool) (hempty : B ⟨∅, lists⟩ t)
    (c' : List (Party GoBridge.GoCall (GoBridge.GoStore β) _) × GoBridge.GoProcess β T)
    (hsteps : (GoBridge.goWorld fun b ↦ backend client (pre b)).SharedSteps
      (GoBridge.programs ⟨crates, none⟩ work, ⟨0, ∅, t⟩) c') :
    (∃ c'', (GoBridge.goWorld fun b ↦ backend client (pre b)).SharedSteps c' c'' ∧
        ∀ Q ∈ c''.1, ∃ rs, Q.program = .ret rs) ∧
      List.Forall₂ (fun q Q ↦ ∀ rs, Q.program = .ret rs →
        rs = (GoBridge.visits ⟨crates, none⟩ q.2 (.empty false)).1.map some ∧
          Q.own.fields = (GoBridge.visits ⟨crates, none⟩ q.2 (.empty false)).2.fields ∧
          Holds B GoBridge.goScope (pre q.1)
            (GoBridge.visits ⟨crates, none⟩ q.2 (.empty false)).2.backend c'.2.outside)
      work c'.1 := by
  have hkeys : ∀ b b', b ≠ b' → KeysApart GoBridge.goScope GoBridge.goScope (pre b) (pre b') :=
    fun b b' hne ↦ keysApart (hpre b b' hne).1 (hpre b b' hne).2.1 (hpre b b' hne).2.2
  exact GoBridge.serves_apart crates (fun _ ↦ GoBridge.crosses_goScope)
    (apart hclient not_false hkeys) work hapart hseq hcovers hshort t
    (fun q _ ↦ ⟨⟨∅, lists⟩, hempty, fun _ _ ↦ rfl⟩) hsteps

/-- A bucket in memory, with a listing cut into pages in any way. -/
def memoryClient : S3Client Backend where
  object := .memory
  pages pre m pages := pages.flatten = m.data.keys.filter fun key ↦ pre.toList <+: key.toList

theorem keeps_memoryClient : memoryClient.Keeps Eq where
  object := ChunkBackend.realises_memory _
  pages := by
    rintro m t pre pages rfl hpages
    rw [show pages.flatten = _ from hpages]
    refine ⟨(Table.nodup_keys m.data).filter _, fun key ↦ ?_⟩
    rw [List.mem_filter, Table.mem_keys, decide_eq_true_iff]
    exact and_comm

/-- Two prefixes, where one starts like the other. -/
def twoPrefixes : Bool → String
  | false => prefixOf ""
  | true => prefixOf "/chunks2/_refcount/"

theorem serves_prefixes_two : ∃ c',
    (GoBridge.goWorld fun b ↦ backend memoryClient (twoPrefixes b)).SharedSteps
      (GoBridge.programs smallStore GoBridge.twoPrograms, ⟨0, ∅, ⟨∅, true⟩⟩) c' ∧
    List.Forall₂ (fun q Q ↦ ∃ rs, Q.program = .ret rs ∧
      rs = (GoBridge.visits smallStore q.2 (.empty false)).1.map some)
        GoBridge.twoPrograms c'.1 := by
  have happly := serves_prefixes smallCrates memoryClient Eq keeps_memoryClient twoPrefixes
    (by decide) GoBridge.twoPrograms (by decide) (by decide) GoBridge.covers_twoPrograms
    (by decide +kernel)
    ⟨∅, true⟩ true rfl
  obtain ⟨⟨c', hsteps, hret⟩, -⟩ := happly _ .refl
  obtain ⟨-, hall⟩ := happly c' hsteps
  refine ⟨c', hsteps, ((List.forall₂_and_left _ _).mpr ⟨hret, hall.flip⟩).flip.imp ?_⟩
  rintro q Q ⟨⟨rs, hrs⟩, hmap⟩
  exact ⟨rs, hrs, (hmap rs hrs).1⟩

end Backend

/-! ## Listing the chunks -/

/-- `digestKeyPattern`: 64 digits, none of them a capital. -/
def isDigestKey (rel : String) : Bool :=
  rel.toList.length = 64 && rel.toList.all fun c ↦ ('0' ≤ c && c ≤ '9') || ('a' ≤ c && c ≤ 'f')

/-- `strings.TrimPrefix`. -/
def trimPrefix (key pre : String) : String :=
  if pre.toList <+: key.toList then .ofList (key.toList.drop pre.toList.length) else key

/-- What is listed: everything under the prefix. -/
def listPrefix (pre : String) : String :=
  let p := objectKey pre ""
  if p ≠ "" ∧ ¬['/'] <:+ p.toList then p ++ "/" else p

/-- What `ListChunkKeys` makes of one object. -/
def chunkKey (pre key : String) : Option String :=
  let rel := trimPrefix key (listPrefix pre)
  if rel = "" ∨ '/' ∈ rel.toList then none else if isDigestKey rel then some rel else none

def addChunkKey (keys : List String) : Option String → List String
  | some rel => keys ++ [rel]
  | none => keys

def addPage (pre : String) (keys page : List String) : List String :=
  page.foldl (fun keys key ↦ addChunkKey keys (chunkKey pre key)) keys

/-- `ListChunkKeys`, page by page. -/
def listChunkKeys (pre : String) (pages : List (List String)) : List String :=
  pages.foldl (addPage pre) []

section Listing

variable {pre d : String}

private theorem addChunkKey_eq (keys : List String) (rel : Option String) :
    addChunkKey keys rel = keys ++ rel.toList := by
  cases rel with
  | none => exact (List.append_nil keys).symm
  | some rel => rfl

private theorem addPage_eq (pre : String) (keys page : List String) :
    addPage pre keys page = keys ++ page.filterMap (chunkKey pre) := by
  rw [addPage, List.filterMap_eq_flatMap_toList]
  induction page generalizing keys with
  | nil => exact (List.append_nil keys).symm
  | cons key page ih =>
    rw [List.foldl_cons, ih, addChunkKey_eq, List.flatMap_cons, List.append_assoc]

/-- Pages do not matter. -/
theorem listChunkKeys_eq (pre : String) (pages : List (List String)) :
    listChunkKeys pre pages = pages.flatten.filterMap (chunkKey pre) := by
  suffices hall : ∀ keys, pages.foldl (addPage pre) keys
      = keys ++ pages.flatten.filterMap (chunkKey pre) from hall []
  induction pages with
  | nil => exact fun keys ↦ (List.append_nil keys).symm
  | cons page pages ih =>
    intro keys
    rw [List.foldl_cons, addPage_eq, ih, List.flatten_cons, List.filterMap_append,
      List.append_assoc]

private theorem toList_listPrefix (pre : String) :
    (listPrefix pre).toList = under pre.toList [] := by
  have hobject : (objectKey pre "").toList = under pre.toList [] := toList_objectKey pre ""
  rw [listPrefix]
  by_cases hpre : pre.toList = []
  · rw [if_neg]
    · exact hobject
    · rintro ⟨hne, -⟩
      refine hne (String.toList_eq_nil_iff.mp ?_)
      rw [hobject, under, if_pos hpre]
  · rw [if_neg]
    · exact hobject
    · rintro ⟨-, hsuffix⟩
      refine hsuffix ?_
      rw [hobject, under_eq_append hpre]
      exact List.suffix_append _ _

theorem under_eq_listPrefix (pre key : String) :
    (objectKey pre key).toList = (listPrefix pre).toList ++ key.toList := by
  rw [toList_objectKey, toList_listPrefix, ← under_append, List.nil_append]

private theorem chunkKey_eq_some {key : String} (hkey : (listPrefix pre).toList <+: key.toList) :
    chunkKey pre key = some d ↔ key = objectKey pre d ∧ isDigestKey d = true := by
  obtain ⟨rest, hrest⟩ := hkey
  have htrim : trimPrefix key (listPrefix pre) = .ofList rest := by
    rw [trimPrefix, if_pos ⟨rest, hrest⟩, ← hrest, List.drop_left]
  have hobject : key = objectKey pre (.ofList rest) := by
    rw [String.ext_iff, under_eq_listPrefix, String.toList_ofList, hrest]
  rw [chunkKey, htrim]
  constructor
  · intro h
    split at h
    · cases h
    · split at h
      · rename_i hdigest
        obtain rfl := Option.some.inj h
        exact ⟨hobject, hdigest⟩
      · cases h
  · rintro ⟨heq, hdigest⟩
    obtain rfl : String.ofList rest = d := objectKey_inj (hobject.symm.trans heq)
    -- a digest is not empty and has no slash
    rw [if_neg, if_pos hdigest]
    rw [isDigestKey, Bool.and_eq_true, decide_eq_true_iff, List.all_eq_true] at hdigest
    rintro (hnil | hslash)
    · rw [hnil] at hdigest
      exact absurd hdigest.1 (by decide)
    · exact absurd (hdigest.2 _ hslash) (by decide)

private theorem isChunkDigest_of_isDigestKey (h : isDigestKey d = true) :
    isChunkDigest d = true := by
  rw [isDigestKey, Bool.and_eq_true, decide_eq_true_iff, List.all_eq_true] at h
  have hall : ∀ c ∈ d.toList, isAsciiHexdigit c = true := by
    intro c hc
    have hc := h.2 c hc
    rw [isAsciiHexdigit, hc, Bool.true_or]
  have hsize : d.utf8ByteSize = 64 := by
    rw [← String.ofList_toList (s := d),
      utf8ByteSize_ofList fun c hc ↦ utf8Size_of_isAsciiHexdigit (hall c hc), h.1]
  rw [isChunkDigest_eq_chars, hsize, List.all_eq_true.mpr hall]
  rfl

/-- **Listing the chunks under a prefix** gives, once each, the chunks that its store holds,
whatever else is in the bucket and however the listing is cut into pages. -/
theorem mem_listChunkKeys {T : Type} (client : S3Client T) (B : Backend → T → Prop)
    (hclient : client.Keeps B) (sc : Scope) (pre : String) (m : Backend) (t : T)
    (hholds : Holds B sc pre m t) (pages : List (List String))
    (hpages : client.pages (listPrefix pre) t pages) :
    (listChunkKeys pre pages).Nodup ∧
      ∀ d, d ∈ listChunkKeys pre pages ↔ isDigestKey d = true ∧ (m.data.find d).isSome := by
  obtain ⟨objects, hB, hsame⟩ := hholds
  obtain ⟨hnodup, hmem⟩ := hclient.pages objects t (listPrefix pre) pages hB hpages
  rw [listChunkKeys_eq]
  constructor
  · -- different objects are different keys
    refine List.pairwise_filterMap.mpr (List.Pairwise.imp_of_mem ?_ hnodup)
    intro key key' hkey hkey' hne d hd d' hd' heq
    obtain ⟨rfl, -⟩ := (chunkKey_eq_some ((hmem key).mp hkey).1).mp hd
    obtain ⟨rfl, -⟩ := (chunkKey_eq_some ((hmem key').mp hkey').1).mp hd'
    exact hne (congrArg _ heq)
  · intro d
    rw [List.mem_filterMap]
    constructor
    · rintro ⟨key, hkey, hsome⟩
      obtain ⟨hpre, hfind⟩ := (hmem key).mp hkey
      obtain ⟨rfl, hd⟩ := (chunkKey_eq_some hpre).mp hsome
      rw [hsame d (.blob (isChunkDigest_of_isDigestKey hd))] at hfind
      exact ⟨hd, hfind⟩
    · rintro ⟨hd, hfind⟩
      have hpre : (listPrefix pre).toList <+: (objectKey pre d).toList :=
        ⟨_, (under_eq_listPrefix pre d).symm⟩
      refine ⟨objectKey pre d, (hmem _).mpr ⟨hpre, ?_⟩, (chunkKey_eq_some hpre).mpr ⟨rfl, hd⟩⟩
      rw [hsame d (.blob (isChunkDigest_of_isDigestKey hd))]
      exact hfind

def digestOf (b : UInt8) : String := digestHex knownSha256 [b]

/-- A store with one chunk. -/
def oneChunk : Backend where
  data := ((∅ : Table String Bytes).set (digestOf 0x61) [0x61]).set
    (refcountKey (digestOf 0x61)) [0x31]
  lists := true

/-- It is kept under `p`, next to another under `q`. -/
def twoStores : Backend where
  data := (((∅ : Table String Bytes).set (objectKey "p" (digestOf 0x61)) [0x61]).set
    (objectKey "p" (refcountKey (digestOf 0x61))) [0x31]).set (objectKey "q" (digestOf 0x62)) [0x62]
  lists := true

private theorem holds_oneChunk : Holds Eq anyFile "p" oneChunk twoStores := by
  refine ⟨twoStores, rfl, fun key _ ↦ ?_⟩
  have hne : objectKey "p" key ≠ objectKey "q" (digestOf 0x62) := by
    intro h
    rw [String.ext_iff, toList_objectKey, toList_objectKey] at h
    exact absurd (List.cons.inj h).1 (by decide)
  rw [twoStores, oneChunk, Table.find_set_ne hne, Table.find_set, Table.find_set, Table.find_set,
    Table.find_set]
  exact if_congr ⟨objectKey_inj, congrArg _⟩ rfl (if_congr ⟨objectKey_inj, congrArg _⟩ rfl rfl)

theorem mem_listChunkKeys_two : ∃ pages, pages.length = 2 ∧
    digestOf 0x61 ∈ listChunkKeys "p" pages ∧ digestOf 0x62 ∉ listChunkKeys "p" pages := by
  have hpages : [objectKey "p" (refcountKey (digestOf 0x61)), objectKey "p" (digestOf 0x61)]
      = twoStores.data.keys.filter fun key ↦ (listPrefix "p").toList <+: key.toList := by
    decide +kernel
  have hlist := mem_listChunkKeys memoryClient Eq keeps_memoryClient anyFile "p" oneChunk twoStores
    holds_oneChunk [[objectKey "p" (refcountKey (digestOf 0x61))], [objectKey "p" (digestOf 0x61)]]
    hpages
  refine ⟨_, rfl, (hlist.2 _).mpr (by decide +kernel), fun hmem ↦ ?_⟩
  exact absurd ((hlist.2 _).mp hmem) (by decide +kernel)

end Listing

end S3Backend

end Chunkstore

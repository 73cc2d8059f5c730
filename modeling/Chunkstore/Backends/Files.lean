import Chunkstore.Backends.Directory

/-!
# A store on the file system

The file-system backend of the core looks before it acts: `get` and `exists` ask for the metadata of
a path, and `delete` removes only what is there (`fs_backend.rs`). On the keys of
`Directory.FileIds` its calls are those of the map, and none fails as long as `Directory.Short`
leaves room for the paths. So a store in a fresh directory is a store on the map.

## Main result

* `FsBackend.serves_map`: a store in a fresh directory returns what it returns on the map, and
  leaves the files of the map, no more and no less.
-/

open Effects Program UnixFs

namespace Chunkstore

namespace FsBackend

open Directory (TidyKey FileIds Short OnDisk)

variable (self : FsBackend) (fs : FileSystem)

/-- Whether there is anything under a key, be it a directory. -/
def existsKey (key : String) : Option Bool := do
  let path ← self.locate key
  return (stat fs (self.path key) path).isSome

/-- The relative paths of the files below the root, in whatever order the directories give them. -/
def Lists (fs : FileSystem) (pre : String) (keys : List String) : Prop :=
  keys.Nodup ∧ ∀ key, key ∈ keys ↔ pre.toList <+: key.toList ∧
    ∃ place data, fs.read place = some data ∧ key.toList = List.intercalate ['/'] place

/-- A call that returns what is computed for it, or throws. -/
def Follows {γ : Type} (o : Option (γ × FileSystem)) (r : Except ChunkStoreError γ)
    (fs : FileSystem) : Prop :=
  match o with
  | some a => r = .ok a.1 ∧ fs = a.2
  | none => ∃ e, r = .error e

/-- The backend, with whatever the counter of its process gives to a put, a `u64`. -/
def backend : ChunkBackend FileSystem where
  call
    | .get key, fs, r, fs' => Follows ((self.get fs key).map fun value ↦ (value, fs)) r fs'
    | .put key data, fs, r, fs' =>
      ∃ unique < 2 ^ 64, Follows ((self.put fs key data unique).map fun fs ↦ ((), fs)) r fs'
    | .existsKey key, fs, r, fs' => Follows ((self.existsKey fs key).map fun b ↦ (b, fs)) r fs'
    | .delete key, fs, r, fs' => Follows ((self.delete fs key).map fun fs ↦ ((), fs)) r fs'
    | .listKeys pre, fs, r, fs' => ∃ keys, Lists fs pre keys ∧ r = .ok (some keys) ∧ fs' = fs

variable {self fs}

theorem exists_follows {γ : Type} (o : Option (γ × FileSystem)) : ∃ r fs, Follows o r fs := by
  cases o with
  | some a => exact ⟨.ok a.1, a.2, rfl, rfl⟩
  | none => exact ⟨.error (.backendError ""), .empty, _, rfl⟩

/-! ## Tidy keys -/

section Tidy

variable {sc : Scope} {b : Backend} {fs fs' : FileSystem} {key : String} {data : Bytes} {unique : ℕ}

theorem asksDir_of_tidyKey (h : TidyKey key) : asksDir key.toList = false := by
  have hne := Directory.segments_ne_nil key.toList
  rw [asksDir, List.getLast?_eq_some_getLast hne, Option.any_some,
    (h _ (List.getLast_mem hne)).isName, Bool.not_true]

private theorem accepts_of_tidyKey (h : TidyKey key) : ∃ path, self.keyToPath key = .ok path :=
  ⟨_, keyToPath_eq_ok_iff.mpr ⟨⟨h.ne_empty, h.plain, isAbsolute_eq_false.mp h.relative, h.noParent⟩,
    rfl⟩⟩

theorem locate_of_tidyKey (h : TidyKey key) :
    self.locate key = some ⟨UnixPath.names key.toList, false⟩ :=
  locate_eq_some.mpr ⟨accepts_of_tidyKey h, by rw [asksDir_of_tidyKey h]⟩

theorem stat_plain (fs : FileSystem) {text : UnixPath.Path} (htext : UnixPath.Admissible text)
    (place : Place) : stat fs text ⟨place, false⟩ = fs.entry place := by
  rw [stat, if_neg (not_not.mpr htext)]
  cases fs.entry place with
  | none => rfl
  | some e => cases e <;> rfl

theorem isTmp_tmpPlace (place : Place) (unique : ℕ) : Directory.IsTmp (tmpPlace place unique) :=
  ⟨_, _, rfl, List.suffix_append _ _⟩

/-- What a temporary name adds: a dot, the digits of the counter, and `.tmp`. -/
private theorem tmpName_suffix (hunique : unique < 2 ^ 64) :
    ∃ s, (∀ name, tmpName name unique = name ++ s) ∧
    '/' ∉ s ∧ nul ∉ s ∧ UnixPath.byteLength s ≤ Directory.tmpMax := by
  have hdigits : (toString unique).toList = Nat.toDigits 10 unique := by
    rw [Nat.toString_eq_repr, Nat.repr_eq_ofList_toDigits, String.toList_ofList]
  have hdigit : ∀ c ∈ (toString unique).toList, c.isDigit = true := fun c hc ↦
    Nat.isDigit_of_mem_toDigits (by decide) (by decide) (hdigits ▸ hc)
  -- a counter of 64 bits has at most 20 digits, of a byte each
  have hlen : (toString unique).toList.length ≤ 20 := by
    rw [hdigits]
    exact (Nat.length_toDigits_le_iff (by decide) (by decide)).mpr
      (hunique.trans_le (by decide))
  have hascii : UnixPath.byteLength (toString unique).toList = (toString unique).toList.length :=
    UnixPath.byteLength_of_ascii fun c hc ↦
      utf8Size_of_isAsciiHexdigit (isAsciiHexdigit_of_isDigit (hdigit c hc))
  have hmem {c : Char} (hc : c.isDigit = false) (hc' : c ∉ ['.']) (hc'' : c ∉ ".tmp".toList) :
      c ∉ ['.'] ++ (toString unique).toList ++ ".tmp".toList := by
    rw [List.mem_append, List.mem_append, not_or, not_or]
    refine ⟨⟨hc', fun h ↦ ?_⟩, hc''⟩
    rw [hdigit c h] at hc
    cases hc
  refine ⟨['.'] ++ (toString unique).toList ++ ".tmp".toList, fun name ↦ ?_,
    hmem (by decide) (by decide) (by decide), hmem (by decide) (by decide) (by decide), ?_⟩
  · rw [tmpName, List.append_assoc, List.append_assoc]
    rfl
  · rw [UnixPath.byteLength_append, UnixPath.byteLength_append, hascii]
    change 1 + _ + 4 ≤ 25
    omega

/-! ## The backend is the map -/

section Calls

variable (hids : FileIds sc.file) (hshort : Short self.root sc.file) (h : OnDisk sc b fs)

include hids hshort

theorem admissible_path (hkey : sc.Key key) : UnixPath.Admissible (self.path key) :=
  hshort.admissible hids hkey

private theorem admissible_tmpPath (hkey : sc.Key key) (hunique : unique < 2 ^ 64) :
    UnixPath.Admissible (tmpPath (self.path key) (UnixPath.names key.toList) unique) := by
  obtain ⟨s, hs, hsep, hnul, hlen⟩ := tmpName_suffix hunique
  have hlast : (UnixPath.segments key.toList).getLast?
      = some ((UnixPath.names key.toList).getLast?.getD []) := by
    rw [(hids.tidyKey hkey).names,
      List.getLast?_eq_some_getLast (Directory.segments_ne_nil key.toList)]
    rfl
  rw [tmpPath, UnixPath.withFileName, hs]
  exact hshort.admissible_rename hids hkey hlast (UnixPath.parentSegments_sublist _) hsep hnul hlen

include h

theorem get_onDisk (hkey : sc.Key key) : self.get fs key = some (b.data.find key) := by
  have htidy := hids.tidyKey hkey
  rw [get_eq (locate_of_tidyKey htidy), ← h.read_eq hids hkey,
    leads_eq_true.mpr ⟨asksDir_of_tidyKey htidy, admissible_path hids hshort hkey⟩]
  rfl

private theorem existsKey_onDisk (hkey : sc.Key key) :
    self.existsKey fs key = some (b.data.find key).isSome := by
  change (self.locate key).bind _ = _
  rw [locate_of_tidyKey (hids.tidyKey hkey), ← h.isSome_entry hids hkey,
    ← stat_plain fs (admissible_path hids hshort hkey)]
  rfl

private theorem put_onDisk (hkey : sc.Key key) (data : Bytes) (hunique : unique < 2 ^ 64) :
    ∃ fs', self.put fs key data unique = some fs' ∧
      OnDisk sc ((BackendCall.put key data).run b).2 fs' := by
  obtain ⟨fs', hreplace, h'⟩ := h.replace hids hkey data (isTmp_tmpPlace _ unique) (by
    rw [tmpPlace, List.dropLast_concat])
  refine ⟨fs', ?_, h'⟩
  change (self.locate key).bind _ = _
  rw [locate_of_tidyKey (hids.tidyKey hkey), ← hreplace, Option.bind_some, writeAtomic,
    if_neg (not_or.mpr ⟨not_not.mpr (admissible_path hids hshort hkey),
      not_not.mpr (admissible_tmpPath hids hshort hkey hunique)⟩)]
  change (fs.mkdirAll (UnixPath.names key.toList).dropLast).bind _ = _
  refine Option.bind_congr fun fs₁ _ ↦ ?_
  rw [if_neg (hids.names_ne_nil hkey)]
  rfl

private theorem delete_onDisk (hkey : sc.Key key) :
    ∃ fs', self.delete fs key = some fs' ∧
      OnDisk sc ((BackendCall.delete key).run b).2 fs' := by
  change ∃ fs', (self.locate key).bind _ = _ ∧ _
  rw [locate_of_tidyKey (hids.tidyKey hkey)]
  change ∃ fs', (if (stat fs (self.path key) ⟨UnixPath.names key.toList, false⟩).isSome then
    fs.unlink (UnixPath.names key.toList) else some fs) = _ ∧ _
  rw [stat_plain fs (admissible_path hids hshort hkey)]
  split
  · rename_i hsome
    exact h.unlink hids hkey hsome
  · rename_i hnone
    rw [Option.not_isSome_iff_eq_none] at hnone
    exact ⟨fs, rfl, h.delete_none hids hkey hnone⟩

end Calls

/-- **The backend is the map** for the calls of a store with such files. -/
theorem realises (self : FsBackend) (hids : FileIds sc.file) (hshort : Short self.root sc.file)
    (hl : ¬sc.listing) :
    self.backend.Realises (fun _ c ↦ c.On sc) (OnDisk sc) where
  answers c s fs hc h := by
    cases c with
    | get | existsKey | delete => exact exists_follows _
    | put key data =>
      obtain ⟨r, fs', hfollows⟩ := exists_follows ((self.put fs key data 0).map fun fs ↦ ((), fs))
      exact ⟨r, fs', 0, by decide, hfollows⟩
    | listKeys => exact absurd hc hl
  agrees c s fs r fs' hc h hcall := by
    cases c with
    | get key =>
      change Follows ((self.get fs key).map _) r fs' at hcall
      rw [get_onDisk hids hshort h hc] at hcall
      obtain ⟨rfl, rfl⟩ := hcall
      exact ⟨rfl, h⟩
    | existsKey key =>
      change Follows ((self.existsKey fs key).map _) r fs' at hcall
      rw [existsKey_onDisk hids hshort h (.blob hc)] at hcall
      obtain ⟨rfl, rfl⟩ := hcall
      exact ⟨rfl, h⟩
    | put key data =>
      obtain ⟨unique, hunique, hcall⟩ := hcall
      obtain ⟨fs₁, hput, h'⟩ := put_onDisk hids hshort h hc.1 data hunique
      rw [hput] at hcall
      obtain ⟨rfl, rfl⟩ := hcall
      exact ⟨rfl, h'⟩
    | delete key =>
      change Follows ((self.delete fs key).map _) r fs' at hcall
      obtain ⟨fs₁, hdelete, h'⟩ := delete_onDisk hids hshort h hc
      rw [hdelete] at hcall
      obtain ⟨rfl, rfl⟩ := hcall
      exact ⟨rfl, h'⟩
    | listKeys => exact absurd hc hl

end Tidy

/-! ## A store in a fresh directory -/

/-- An operation on such files: a chunk is asked for by its digest, and keys are not listed. -/
def Op.OnFiles (ids : String → Prop) : ChunkStore.Op → Prop
  | .ingest fileId _ => ids fileId
  | .readChunk digest => isChunkDigest digest = true
  | .fsck _ => False
  | _ => True

/-- Such files, with any values. -/
def filesScope (ids : String → Prop) : Scope := ⟨ids, fun _ ↦ True, False⟩

private theorem covers_onFiles (store : ChunkStore) {ids : String → Prop} {ops : List ChunkStore.Op}
    (hids : FileIds ids) (hops : ∀ op ∈ ops, Op.OnFiles ids op) :
    (filesScope ids).Covers store ops where
  records := ⟨fun _ ↦ trivial, fun _ ↦ trivial, fun _ ↦ trivial⟩
  index h := hids.index _ h (by decide)
  within op hop := by
    have hon := hops op hop
    cases op with
    | ingest => exact ⟨hon, fun _ _ _ _ ↦ trivial⟩
    | readChunk => exact hon
    | fsck => exact hon
    | _ => trivial

/-- **A store in a fresh directory is a store on the map,** if the root and the file ids leave room
for the paths. Whatever the counter of the process gives to the puts, every operation returns what
it returns on the map, the instance holds the same, and the files below the root are those of the
map. So a run whose ingests return and whose chunks do not collide is one of the map from file ids
to contents. -/
theorem serves_map (self : FsBackend) (store : ChunkStore) (lists : Bool) (ids : String → Prop)
    (ops : List ChunkStore.Op) (hids : FileIds ids) (hshort : Short self.root ids)
    (hops : ∀ op ∈ ops, Op.OnFiles ids op) :
    (∃ rs x, self.backend.world.Ends (store.serve (.reopen :: ops)) (.empty, .empty) rs x) ∧
      ∀ rs fs f, self.backend.world.Ends (store.serve (.reopen :: ops))
        (.empty, .empty) rs (fs, f) →
        rs = (store.exec .reopen (.empty lists)).1 :: (store.run lists ops).1 ∧
          f = (store.run lists ops).2.fields ∧
          (∀ place data, fs.read place = some data ↔ ∃ key,
            (store.run lists ops).2.find key = some data ∧ UnixPath.names key.toList = place) ∧
          (NoCollision store.crates.sha256 (store.Ingested ops) →
            ChunkStore.IngestsReturned ops rs.tail →
              ChunkStore.FileMap.empty.Explains ops rs.tail) := by
  have hcovers := covers_onFiles store hids hops
  have hreal : self.backend.Realises (fun _ c ↦ c.On (filesScope ids)) (OnDisk (filesScope ids)) :=
    self.realises hids hshort not_false
  obtain ⟨hends, hall⟩ := hreal.serve store (hcovers.meets lists) (Directory.onDisk_empty lists)
  refine ⟨⟨_, hends⟩, fun rs fs f h ↦ ?_⟩
  obtain ⟨rfl, rfl, hdisk⟩ := hall rs fs f h
  refine ⟨rfl, rfl, fun place data ↦ ⟨hdisk.only place data, ?_⟩, fun hnc hok ↦ ?_⟩
  · rintro ⟨key, hkey, rfl⟩
    exact hdisk.held key data hkey
  · exact (ChunkStore.represents_run store lists hnc (fun op hop chunk hchunk ↦ ⟨op, hop, hchunk⟩)
      hok).1

/-- Two files, one in a directory. -/
def twoIds (fileId : String) : Prop := fileId = "a" ∨ fileId = "d/b"

theorem fileIds_twoIds : FileIds twoIds where
  tidy := by
    rintro f (rfl | rfl)
    · exact (by decide : ∀ name ∈ UnixPath.segments "a".toList, Directory.TidyName name)
    · exact (by decide : ∀ name ∈ UnixPath.segments "d/b".toList, Directory.TidyName name)
  apart := by
    rintro f g (rfl | rfl) (rfl | rfl) h
    · rfl
    · exact absurd h (by decide)
    · exact absurd h (by decide)
    · rfl
  index := by
    rintro f (rfl | rfl)
    · decide
    · decide

theorem short_twoIds {root : UnixPath.Path} (hnul : nul ∉ root)
    (hnames : ∀ name ∈ UnixPath.segments root, UnixPath.byteLength name ≤ UnixPath.nameMax)
    (hpath : UnixPath.byteLength root + 75 + Directory.tmpMax < UnixPath.pathMax) :
    Short root twoIds where
  noNul := hnul
  names := hnames
  path := hpath
  fileNames := by
    rintro f (rfl | rfl)
    · decide
    · decide
  filePath f hf := by
    have hlen : UnixPath.byteLength f.toList ≤ 3 := by
      rcases hf with rfl | rfl
      · decide
      · decide
    omega

theorem serves_map_two : ∃ rs fs f, (FsBackend.mk "root".toList).backend.world.Ends
    (smallStore.serve [.reopen, .ingest "a" (.bytes [0x61]), .ingest "d/b" (.bytes [0x62]),
      .delete "a", .read "d/b"]) (.empty, .empty) rs (fs, f) ∧
    rs.getLast? = some (.ok (.bytes [0x62])) := by
  obtain ⟨⟨rs, ⟨fs, f⟩, hends⟩, hall⟩ := serves_map (.mk "root".toList) smallStore true twoIds
    [.ingest "a" (.bytes [0x61]), .ingest "d/b" (.bytes [0x62]), .delete "a", .read "d/b"]
    fileIds_twoIds (short_twoIds (by decide) (by decide) (by decide)) (by
      intro op hop
      simp only [List.mem_cons, List.not_mem_nil, or_false] at hop
      rcases hop with rfl | rfl | rfl | rfl
      · exact Or.inl rfl
      · exact Or.inr rfl
      · trivial
      · trivial)
  refine ⟨rs, fs, f, hends, ?_⟩
  rw [(hall rs fs f hends).1]
  decide +kernel

end FsBackend

end Chunkstore

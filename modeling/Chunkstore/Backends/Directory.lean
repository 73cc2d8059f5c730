import Chunkstore.Backends.Scope
import Chunkstore.Fs.KeyMap

/-!
# The directory of a store

The file-system backends of the core and of the bindings lay their files out alike: the value of a
key is in the file whose path is the key, written under a name that ends in `.tmp` and renamed. So
the files are a map when the keys keep apart: no two lead to one file, none leads to a directory of
another, and none to a temporary file. The keys of a store do when the file ids are relative paths
in normal form, of which none is a directory of another and no segment ends in `.tmp`.

What a call leaves that fails is not modelled: it may leave anything.

## Main results

* `Directory.OnDisk.read_eq`, `Directory.OnDisk.replace` and `Directory.OnDisk.unlink`: on the keys
  of a store, looking up, writing and removing a file is what it is on the map.
-/

open UnixFs

namespace Chunkstore

namespace Directory

open FsBackend (manifestDir refcountDir)

/-! ## Tidy keys -/

/-- A segment that names something, and does not end like a temporary file. -/
structure TidyName (name : UnixPath.Path) : Prop where
  isName : UnixPath.isName name = true
  noParent : name ≠ ['.', '.']
  plain : '\\' ∉ name
  noNul : nul ∉ name
  noTmp : ¬".tmp".toList <:+ name

instance (name : UnixPath.Path) : Decidable (TidyName name) :=
  decidable_of_iff (UnixPath.isName name = true ∧ name ≠ ['.', '.'] ∧ '\\' ∉ name ∧ nul ∉ name ∧
    ¬".tmp".toList <:+ name) ⟨fun ⟨h₁, h₂, h₃, h₄, h₅⟩ ↦ ⟨h₁, h₂, h₃, h₄, h₅⟩,
      fun ⟨h₁, h₂, h₃, h₄, h₅⟩ ↦ ⟨h₁, h₂, h₃, h₄, h₅⟩⟩

/-- A key of tidy segments. -/
def TidyKey (key : String) : Prop := ∀ name ∈ UnixPath.segments key.toList, TidyName name

section Tidy

variable {key : String}

theorem segments_ne_nil (p : UnixPath.Path) : UnixPath.segments p ≠ [] := List.splitOn_ne_nil _ _

theorem TidyKey.names (h : TidyKey key) :
    UnixPath.names key.toList = UnixPath.segments key.toList :=
  List.filter_eq_self.mpr fun name hname ↦ (h name hname).isName

theorem TidyKey.ne_empty (h : TidyKey key) : key ≠ "" := by
  rintro rfl
  exact absurd (h [] List.mem_cons_self).isName (by decide)

theorem TidyKey.plain (h : TidyKey key) : '\\' ∉ key.toList :=
  UnixPath.not_mem_of_segments (by decide) fun name hname ↦ (h name hname).plain

theorem TidyKey.noNul (h : TidyKey key) : nul ∉ key.toList :=
  UnixPath.not_mem_of_segments (by decide) fun name hname ↦ (h name hname).noNul

theorem TidyKey.relative (h : TidyKey key) : UnixPath.isAbsolute key.toList = false := by
  refine FsBackend.isAbsolute_eq_false.mpr fun hhead ↦ ?_
  -- what is in front of the separator is no name
  obtain ⟨q, hq⟩ : ∃ q, key.toList = [] ++ '/' :: q := List.head?_eq_some_iff.mp hhead
  rw [TidyKey, hq, UnixPath.segments_append_sep] at h
  exact absurd (h [] List.mem_cons_self).isName (by decide)

theorem TidyKey.noParent (h : TidyKey key) : ['.', '.'] ∉ UnixPath.segments key.toList :=
  fun hmem ↦ (h _ hmem).noParent rfl

/-- A place whose last name ends like that of a temporary file. -/
def IsTmp (place : Place) : Prop := ∃ front name, place = front ++ [name] ∧ ".tmp".toList <:+ name

/-- A tidy key leads to no temporary file, nor below one. -/
theorem TidyKey.not_tmp (h : TidyKey key) {place : Place} (htmp : IsTmp place) :
    ¬place <+: UnixPath.names key.toList := by
  rintro hpre
  obtain ⟨front, name, rfl, hname⟩ := htmp
  rw [h.names] at hpre
  exact (h name (hpre.subset (List.mem_append_right _ List.mem_cons_self))).noTmp hname

theorem tidyName_digest {digest : String} (hd : isChunkDigest digest = true) :
    TidyName digest.toList := by
  have hother (c : Char) (hc : isAsciiHexdigit c = false) : c ∉ digest.toList := by
    intro hmem
    rw [isChunkDigest_eq_false hmem hc] at hd
    cases hd
  have hdot := hother '.' (by decide)
  refine ⟨?_, fun h ↦ hdot (h ▸ List.mem_cons_self), hother _ (by decide), hother _ (by decide),
    fun h ↦ ?_⟩
  · rw [UnixPath.isName, decide_eq_true_iff]
    refine ⟨fun h ↦ ?_, fun h ↦ hdot (h ▸ List.mem_cons_self)⟩
    rw [String.toList_eq_nil_iff.mp h] at hd
    exact absurd hd (by decide)
  · exact hdot (h.subset (by decide))

theorem segments_digest {digest : String} (hd : isChunkDigest digest = true) :
    UnixPath.segments digest.toList = [digest.toList] := by
  refine List.splitOn_eq_singleton fun hmem ↦ ?_
  rw [isChunkDigest_eq_false hmem (by decide)] at hd
  cases hd

theorem segments_refcountKey (digest : String) : UnixPath.segments (refcountKey digest).toList
    = refcountDir :: UnixPath.segments digest.toList := by
  have hkey : (refcountKey digest).toList = refcountDir ++ '/' :: digest.toList := by
    rw [toList_refcountKey]
    rfl
  rw [hkey, UnixPath.segments_append_sep]
  rfl

theorem segments_manifestKey (fileId : String) : UnixPath.segments (manifestKey fileId).toList
    = manifestDir :: UnixPath.segments fileId.toList := by
  have hkey : (manifestKey fileId).toList = manifestDir ++ '/' :: fileId.toList := by
    rw [toList_manifestKey]
    rfl
  rw [hkey, UnixPath.segments_append_sep]
  rfl

theorem segments_indexName : UnixPath.segments indexName.toList = [indexName.toList] := by decide

end Tidy

/-! ## The keys of a store -/

/-- File ids that are relative paths in normal form without a segment that ends in `.tmp`, none of
them the directory of another or of the index. -/
structure FileIds (ids : String → Prop) : Prop where
  tidy : ∀ f, ids f → TidyKey f
  apart : ∀ f g, ids f → ids g →
    UnixPath.segments f.toList <+: UnixPath.segments g.toList → f = g
  index : ∀ f, ids f → (UnixPath.segments f.toList).head? ≠ some indexName.toList

section Keys

variable {sc : Scope} {key key' : String}

theorem FileIds.tidyKey (h : FileIds sc.file) (hkey : sc.Key key) : TidyKey key := by
  intro name hname
  cases hkey with
  | blob hd =>
    rw [segments_digest hd] at hname
    rw [List.mem_singleton.mp hname]
    exact tidyName_digest hd
  | @refcount digest hd =>
    rw [segments_refcountKey] at hname
    rcases List.mem_cons.mp hname with rfl | hname
    · exact (by decide : TidyName refcountDir)
    · rcases hd with hd | rfl
      · rw [segments_digest hd] at hname
        rw [List.mem_singleton.mp hname]
        exact tidyName_digest hd
      · rw [segments_indexName] at hname
        rw [List.mem_singleton.mp hname]
        exact (by decide : TidyName indexName.toList)
  | @manifest fileId hf =>
    rw [segments_manifestKey] at hname
    rcases List.mem_cons.mp hname with rfl | hname
    · exact (by decide : TidyName manifestDir)
    · rcases hf with hf | rfl
      · exact h.tidy fileId hf name hname
      · rw [segments_indexName] at hname
        rw [List.mem_singleton.mp hname]
        exact (by decide : TidyName indexName.toList)

theorem segments_entry {digest : String} (hd : isChunkDigest digest = true ∨ digest = indexName) :
    UnixPath.segments digest.toList = [digest.toList] := by
  rcases hd with hd | rfl
  · exact segments_digest hd
  · exact segments_indexName

private theorem toList_ne_dir {digest : String} (hd : isChunkDigest digest = true)
    {dir : UnixPath.Path}
    (hdir : '_' ∈ dir) : digest.toList ≠ dir := by
  intro heq
  rw [isChunkDigest_eq_false (heq ▸ hdir) (by decide)] at hd
  cases hd

private theorem head?_of_isPrefix {l l' : List UnixPath.Path} (h : l <+: l') (hl : l ≠ []) :
    l.head? = l'.head? := by
  obtain ⟨name, rest, rfl⟩ := List.exists_cons_of_ne_nil hl
  obtain ⟨tail, rfl⟩ := h
  rfl

/-- Of two keys of a store, none leads to a directory of the other. -/
theorem FileIds.apart_keys (h : FileIds sc.file) (hkey : sc.Key key) (hkey' : sc.Key key')
    (hpre : UnixPath.segments key.toList <+: UnixPath.segments key'.toList) : key = key' := by
  cases hkey with
  | blob hd =>
    rw [segments_digest hd] at hpre
    cases hkey' with
    | blob hd' =>
      rw [segments_digest hd', List.cons_prefix_cons] at hpre
      exact String.toList_inj.mp hpre.1
    | refcount =>
      rw [segments_refcountKey, List.cons_prefix_cons] at hpre
      exact absurd hpre.1 (toList_ne_dir hd (by decide))
    | manifest =>
      rw [segments_manifestKey, List.cons_prefix_cons] at hpre
      exact absurd hpre.1 (toList_ne_dir hd (by decide))
  | refcount hd =>
    rw [segments_refcountKey] at hpre
    cases hkey' with
    | blob hd' =>
      rw [segments_digest hd', List.cons_prefix_cons] at hpre
      exact absurd hpre.1.symm (toList_ne_dir hd' (by decide))
    | refcount hd' =>
      rw [segments_refcountKey, List.cons_prefix_cons, segments_entry hd, segments_entry hd',
        List.cons_prefix_cons] at hpre
      exact congrArg refcountKey (String.toList_inj.mp hpre.2.1)
    | manifest =>
      rw [segments_manifestKey, List.cons_prefix_cons] at hpre
      exact absurd hpre.1 (by decide)
  | @manifest f hf =>
    rw [segments_manifestKey] at hpre
    cases hkey' with
    | blob hd' =>
      rw [segments_digest hd', List.cons_prefix_cons] at hpre
      exact absurd hpre.1.symm (toList_ne_dir hd' (by decide))
    | refcount =>
      rw [segments_refcountKey, List.cons_prefix_cons] at hpre
      exact absurd hpre.1 (by decide)
    | @manifest g hg =>
      rw [segments_manifestKey, List.cons_prefix_cons] at hpre
      refine congrArg manifestKey ?_
      rcases hf with hf | rfl
      · rcases hg with hg | rfl
        · exact h.apart f g hf hg hpre.2
        · -- only the name of the index leads to the index
          refine absurd ?_ (h.index f hf)
          rw [head?_of_isPrefix hpre.2 (segments_ne_nil _), segments_indexName]
          rfl
      · rcases hg with hg | rfl
        · refine absurd ?_ (h.index g hg)
          rw [← head?_of_isPrefix hpre.2 (segments_ne_nil _), segments_indexName]
          rfl
        · rfl

/-! ## Room for the keys -/

/-- The most bytes that a temporary name adds to that of its file: `.`, a counter and `.tmp`. -/
def tmpMax : ℕ := 25

/-- A root and file ids that leave room for the paths of a store and of its temporary files. -/
structure Short (root : UnixPath.Path) (ids : String → Prop) : Prop where
  noNul : nul ∉ root
  names : ∀ name ∈ UnixPath.segments root, UnixPath.byteLength name ≤ UnixPath.nameMax
  path : UnixPath.byteLength root + 75 + tmpMax < UnixPath.pathMax
  fileNames : ∀ f, ids f → ∀ name ∈ UnixPath.segments f.toList,
    UnixPath.byteLength name + tmpMax ≤ UnixPath.nameMax
  filePath : ∀ f, ids f →
    UnixPath.byteLength root + 11 + UnixPath.byteLength f.toList + tmpMax < UnixPath.pathMax

theorem byteLength_digest {digest : String} (hd : isChunkDigest digest = true) :
    UnixPath.byteLength digest.toList = 64 := by
  rw [isChunkDigest_eq_chars, Bool.and_eq_true, beq_iff_eq] at hd
  rw [UnixPath.byteLength_toList, hd.1]

variable {root : UnixPath.Path} {parent : List UnixPath.Path} {last s : UnixPath.Path}

theorem Short.byteLength_name (h : Short root sc.file) (hkey : sc.Key key) :
    ∀ name ∈ UnixPath.segments key.toList,
      UnixPath.byteLength name + tmpMax ≤ UnixPath.nameMax := by
  have hentry {digest : String} (hd : isChunkDigest digest = true ∨ digest = indexName)
      (name : UnixPath.Path) (hname : name ∈ UnixPath.segments digest.toList) :
      UnixPath.byteLength name + tmpMax ≤ UnixPath.nameMax := by
    rw [segments_entry hd] at hname
    rw [List.mem_singleton.mp hname]
    rcases hd with hd | rfl
    · rw [byteLength_digest hd]
      decide
    · decide
  intro name hname
  cases hkey with
  | blob hd => exact hentry (Or.inl hd) name hname
  | refcount hd =>
    rw [segments_refcountKey] at hname
    rcases List.mem_cons.mp hname with rfl | hname
    · decide
    · exact hentry hd name hname
  | @manifest fileId hf =>
    rw [segments_manifestKey] at hname
    rcases List.mem_cons.mp hname with rfl | hname
    · decide
    · rcases hf with hf | rfl
      · exact h.fileNames fileId hf name hname
      · exact hentry (Or.inr rfl) name hname

theorem Short.byteLength_key (h : Short root sc.file) (hkey : sc.Key key) :
    UnixPath.byteLength root + 1 + UnixPath.byteLength key.toList + tmpMax < UnixPath.pathMax := by
  have hpath := h.path
  have hindex : UnixPath.byteLength indexName.toList = 9 := by decide
  cases hkey with
  | blob hd =>
    rw [byteLength_digest hd]
    omega
  | @refcount digest hd =>
    have hpre : UnixPath.byteLength refcountPrefix.toList = 10 := by decide
    have hlen : UnixPath.byteLength digest.toList ≤ 64 := by
      rcases hd with hd | rfl
      · exact (byteLength_digest hd).le
      · exact hindex.trans_le (by decide)
    rw [toList_refcountKey, UnixPath.byteLength_append, hpre]
    omega
  | @manifest fileId hf =>
    have hpre : UnixPath.byteLength manifestPrefix.toList = 10 := by decide
    rw [toList_manifestKey, UnixPath.byteLength_append, hpre]
    rcases hf with hf | rfl
    · have hfile := h.filePath fileId hf
      omega
    · rw [hindex]
      omega

/-- The path of a key, and that of a file next to it with a name that is not much longer. -/
theorem Short.admissible (h : Short root sc.file) (hids : FileIds sc.file) (hkey : sc.Key key) :
    UnixPath.Admissible (UnixPath.join root key.toList) := by
  refine UnixPath.admissible_join h.names (fun name hname ↦ ?_) (hids.tidyKey hkey).relative h.noNul
    (hids.tidyKey hkey).noNul ((Nat.le_add_right _ tmpMax).trans_lt (h.byteLength_key hkey))
  exact (Nat.le_add_right _ tmpMax).trans (h.byteLength_name hkey name hname)

theorem Short.admissible_rename (h : Short root sc.file) (hids : FileIds sc.file)
    (hkey : sc.Key key) (hlast : (UnixPath.segments key.toList).getLast? = some last)
    (hparent : parent.Sublist (UnixPath.segments (UnixPath.join root key.toList)).dropLast)
    (hsep : '/' ∉ s) (hnul : nul ∉ s) (hs : UnixPath.byteLength s ≤ tmpMax) :
    UnixPath.Admissible (['/'].intercalate (parent ++ [last ++ s])) := by
  obtain ⟨front, hjoin, -⟩ := UnixPath.segments_join root (hids.tidyKey hkey).relative
  have hlen := h.byteLength_key hkey
  have hjoinLen := UnixPath.byteLength_join_le root (hids.tidyKey hkey).relative
  refine (h.admissible hids hkey).rename ?_ hparent hsep hnul ?_ (by omega)
  · rw [hjoin, List.getLast?_append, hlast]
    rfl
  · exact (Nat.add_le_add_left hs _).trans
      (h.byteLength_name hkey last (List.mem_of_getLast? hlast))

end Keys

/-! ## The files are the map -/

/-- The files are those of the map, whose keys are those of a store, and every directory is one of
such a key. -/
structure OnDisk (sc : Scope) (b : Backend) (fs : FileSystem) : Prop where
  held : ∀ key data, b.data.find key = some data → fs.read (UnixPath.names key.toList) = some data
  only : ∀ place data, fs.read place = some data →
    ∃ key, b.data.find key = some data ∧ UnixPath.names key.toList = place
  keys : ∀ key data, b.data.find key = some data → sc.Key key
  dirs : ∀ place, fs.entry place = some .dir →
    ∃ key, sc.Key key ∧ place <+: (UnixPath.names key.toList).dropLast

/-- A file written under a temporary name, and renamed. -/
def replace (fs : FileSystem) (tmp place : Place) (data : Bytes) : Option FileSystem := do
  let fs ← fs.mkdirAll place.dropLast
  let (fs, ino) ← fs.create tmp
  (fs.write ino 0 data).rename tmp place

section OnDisk

variable {sc : Scope} {b : Backend} {fs fs' : FileSystem} {key : String} {data : Bytes}
  {place tmp : Place}

theorem onDisk_empty (lists : Bool) : OnDisk sc ⟨∅, lists⟩ .empty where
  held key data h := by cases h
  only place data h := by
    obtain ⟨ino, hino, -⟩ := FileSystem.read_eq_some.mp h
    change (if place = [] then some Entry.dir else none) = _ at hino
    split at hino <;> cases hino
  keys key data h := by cases h
  dirs place h := by
    change (if place = [] then some Entry.dir else none) = _ at h
    split at h
    · rename_i hplace
      exact ⟨manifestIndexKey, Scope.key_manifestIndexKey, hplace ▸ List.nil_prefix⟩
    · cases h

theorem FileIds.names_ne_nil (h : FileIds sc.file) (hkey : sc.Key key) :
    UnixPath.names key.toList ≠ [] := by
  rw [(h.tidyKey hkey).names]
  exact segments_ne_nil _

theorem FileIds.eq_of_prefix (h : FileIds sc.file) {key' : String} (hkey : sc.Key key)
    (hkey' : sc.Key key') (hpre : UnixPath.names key.toList <+: UnixPath.names key'.toList) :
    key = key' := by
  rw [(h.tidyKey hkey).names, (h.tidyKey hkey').names] at hpre
  exact h.apart_keys hkey hkey' hpre

theorem FileIds.not_prefix_dropLast (h : FileIds sc.file) (hkey : sc.Key key) {key' : String}
    (hkey' : sc.Key key') :
    ¬UnixPath.names key'.toList <+: (UnixPath.names key.toList).dropLast := by
  intro hpre
  have heq := h.eq_of_prefix hkey' hkey (hpre.trans (List.dropLast_prefix _))
  rw [heq] at hpre
  have hlen := hpre.length_le
  have hpos := List.length_pos_iff.mpr (h.names_ne_nil hkey)
  rw [List.length_dropLast] at hlen
  omega

namespace OnDisk

variable (hids : FileIds sc.file)

include hids

theorem read_eq (h : OnDisk sc b fs) (hkey : sc.Key key) :
    fs.read (UnixPath.names key.toList) = b.data.find key := by
  refine Option.ext fun data ↦ ⟨fun hread ↦ ?_, h.held key data⟩
  obtain ⟨other, hother, hplace⟩ := h.only _ data hread
  obtain rfl := hids.eq_of_prefix (h.keys other data hother) hkey (hplace ▸ List.prefix_rfl)
  exact hother

theorem not_dir (h : OnDisk sc b fs) (hkey : sc.Key key) :
    fs.entry (UnixPath.names key.toList) ≠ some .dir := by
  intro hdir
  obtain ⟨other, hother, hpre⟩ := h.dirs _ hdir
  exact hids.not_prefix_dropLast hother hkey hpre

theorem isSome_entry (h : OnDisk sc b fs) (hkey : sc.Key key) :
    (fs.entry (UnixPath.names key.toList)).isSome = (b.data.find key).isSome := by
  rw [← h.read_eq hids hkey, FileSystem.read]
  cases hentry : fs.entry (UnixPath.names key.toList) with
  | none => rfl
  | some e =>
    cases e with
    | dir => exact absurd hentry (h.not_dir hids hkey)
    | file ino => rfl

theorem read_parents (h : OnDisk sc b fs) (hkey : sc.Key key)
    (hpre : place <+: (UnixPath.names key.toList).dropLast) : fs.read place = none := by
  refine Option.eq_none_iff_forall_ne_some.mpr fun d hread ↦ ?_
  obtain ⟨other, hother, rfl⟩ := h.only place d hread
  exact hids.not_prefix_dropLast hkey (h.keys other d hother) hpre

private theorem put (h : OnDisk sc b fs) (hkey : sc.Key key)
    (hread : fs'.read = Function.update fs.read (UnixPath.names key.toList) (some data))
    (hdirs : ∀ place, fs'.entry place = some .dir →
      fs.entry place = some .dir ∨ place <+: (UnixPath.names key.toList).dropLast) :
    OnDisk sc ((BackendCall.put key data).run b).2 fs' := by
  have hfind (other : String) : ((BackendCall.put key data).run b).2.data.find other
      = if other = key then some data else b.data.find other := Table.find_set _ _ _ _
  constructor
  · -- no other key leads to the place that is written
    intro other d hother
    rw [hfind] at hother
    rw [hread]
    split at hother
    · rename_i heq
      rw [heq, Function.update_self]
      exact hother
    · rename_i hne
      rw [Function.update_of_ne, h.held other d hother]
      intro hplace
      exact hne (hids.eq_of_prefix (h.keys other d hother) hkey (hplace ▸ List.prefix_rfl))
  · intro place d hd
    rw [hread] at hd
    by_cases hplace : place = UnixPath.names key.toList
    · rw [hplace, Function.update_self] at hd
      exact ⟨key, by rw [hfind, if_pos rfl, hd], hplace.symm⟩
    · rw [Function.update_of_ne hplace] at hd
      obtain ⟨other, hother, rfl⟩ := h.only place d hd
      refine ⟨other, ?_, rfl⟩
      rw [hfind, if_neg, hother]
      rintro rfl
      exact hplace rfl
  · intro other d hother
    rw [hfind] at hother
    split at hother
    · rename_i heq
      exact heq ▸ hkey
    · exact h.keys other d hother
  · intro place hdir
    rcases hdirs place hdir with hdir | hpre
    · exact h.dirs place hdir
    · exact ⟨key, hkey, hpre⟩

theorem delete (h : OnDisk sc b fs) (hkey : sc.Key key)
    (hread : fs'.read = Function.update fs.read (UnixPath.names key.toList) none)
    (hdirs : ∀ place, fs'.entry place = some .dir → fs.entry place = some .dir) :
    OnDisk sc ((BackendCall.delete key).run b).2 fs' := by
  have hfind (other : String) : ((BackendCall.delete key).run b).2.data.find other
      = if other = key then none else b.data.find other := Table.find_unset _ _ _
  constructor
  · -- no other key leads to the place that is cleared
    intro other d hother
    rw [hfind] at hother
    rw [hread]
    split at hother
    · cases hother
    · rename_i hne
      rw [Function.update_of_ne, h.held other d hother]
      intro hplace
      exact hne (hids.eq_of_prefix (h.keys other d hother) hkey (hplace ▸ List.prefix_rfl))
  · intro place d hd
    rw [hread] at hd
    by_cases hplace : place = UnixPath.names key.toList
    · rw [hplace, Function.update_self] at hd
      cases hd
    · rw [Function.update_of_ne hplace] at hd
      obtain ⟨other, hother, rfl⟩ := h.only place d hd
      refine ⟨other, ?_, rfl⟩
      rw [hfind, if_neg, hother]
      rintro rfl
      exact hplace rfl
  · intro other d hother
    rw [hfind] at hother
    split at hother
    · cases hother
    · exact h.keys other d hother
  · exact fun place hdir ↦ h.dirs place (hdirs place hdir)

/-- **Writing a file** under a temporary name and renaming it is a put. -/
theorem replace (h : OnDisk sc b fs) (hkey : sc.Key key) (data : Bytes) (htmp : IsTmp tmp)
    (hparent : tmp.dropLast = (UnixPath.names key.toList).dropLast) :
    ∃ fs', Directory.replace fs tmp (UnixPath.names key.toList) data = some fs' ∧
      OnDisk sc ((BackendCall.put key data).run b).2 fs' := by
  have hfree {other : String} (hother : sc.Key other) : ¬tmp <+: UnixPath.names other.toList :=
    (hids.tidyKey hother).not_tmp htmp
  obtain ⟨fs₁, hmkdir, -, hentry⟩ := FileSystem.mkdirAll_of_read fun q hq ↦
    h.read_parents hids hkey hq
  have hdir : fs₁.entry (UnixPath.names key.toList).dropLast = some .dir := by
    rw [hentry, if_pos List.prefix_rfl]
  have hout {place : Place} (hpre : ¬place <+: (UnixPath.names key.toList).dropLast) :
      fs₁.entry place = fs.entry place := by rw [hentry, if_neg hpre]
  -- nothing stands where the temporary file goes
  have hnone : fs.read tmp = none := by
    refine Option.eq_none_iff_forall_ne_some.mpr fun d hread ↦ ?_
    obtain ⟨other, hother, hplace⟩ := h.only tmp d hread
    exact hfree (h.keys other d hother) (hplace ▸ List.prefix_rfl)
  have htmpDir : fs₁.entry tmp ≠ some .dir := by
    rw [hout fun hpre ↦ hfree hkey (hpre.trans (List.dropLast_prefix _))]
    intro hdir
    obtain ⟨other, hother, hpre⟩ := h.dirs _ hdir
    exact hfree hother (hpre.trans (List.dropLast_prefix _))
  obtain ⟨fs₂, ino, hcreate⟩ := FileSystem.create_of_entry htmpDir (hparent ▸ hdir)
  obtain ⟨hino, hempty, hsame, -⟩ := FileSystem.create_spec hcreate
  have hgone : Function.update fs.read tmp none = fs.read :=
    Function.update_eq_self_iff.mpr hnone.symm
  have hne : tmp ≠ UnixPath.names key.toList := fun heq ↦ hfree hkey (heq ▸ List.prefix_rfl)
  have htarget : fs₂.entry (UnixPath.names key.toList) ≠ some .dir := by
    rw [hsame _ hne.symm, hout (hids.not_prefix_dropLast hkey hkey)]
    exact h.not_dir hids hkey
  have hdir₂ : fs₂.entry (UnixPath.names key.toList).dropLast = some .dir := by
    rw [hsame _ fun heq ↦ htmpDir (heq ▸ hdir), hdir]
  have hwritten : (fs₂.write ino 0 data).entry tmp = some (.file ino) := hino
  obtain ⟨fs', hrename⟩ := FileSystem.rename_of_entry hwritten htarget hdir₂
  have hreplace : Directory.replace fs tmp (UnixPath.names key.toList) data = some fs' := by
    change (fs.mkdirAll (UnixPath.names key.toList).dropLast).bind _ = _
    rw [hmkdir]
    change (fs₁.create tmp).bind _ = _
    rw [hcreate]
    exact hrename
  refine ⟨fs', hreplace, h.put hids hkey ?_ fun place hplace ↦ ?_⟩
  · rw [FileSystem.read_rename hrename, FileSystem.read_write hino, FileSystem.read_create hcreate,
      FileSystem.read_mkdirAll hmkdir, Function.update_idem, Function.update_idem,
      Function.update_self, hempty,
      show FileSystem.splice [] 0 data = data from FileSystem.splice_append [] data, hgone]
  · -- the new directories are those of the key
    obtain ⟨ino', -, hfile, -, hgone, hrest⟩ := FileSystem.rename_spec hrename
    by_cases hp : place = UnixPath.names key.toList
    · rw [hp, hfile] at hplace
      cases hplace
    by_cases hp' : place = tmp
    · rw [hp', hgone hne] at hplace
      cases hplace
    rw [hrest place hp' hp] at hplace
    change fs₂.entry place = _ at hplace
    rw [hsame place hp', hentry] at hplace
    split at hplace
    · rename_i hpre
      exact Or.inr hpre
    · exact Or.inl hplace

/-- **Removing the file** of a key, if there is one. -/
theorem unlink (h : OnDisk sc b fs) (hkey : sc.Key key)
    (hsome : (fs.entry (UnixPath.names key.toList)).isSome) :
    ∃ fs', fs.unlink (UnixPath.names key.toList) = some fs' ∧
      OnDisk sc ((BackendCall.delete key).run b).2 fs' := by
  obtain ⟨fs', hunlink⟩ : ∃ fs', fs.unlink (UnixPath.names key.toList) = some fs' := by
    rw [FileSystem.unlink]
    split
    · exact ⟨_, rfl⟩
    · rename_i hfile
      obtain ⟨e, he⟩ := Option.isSome_iff_exists.mp hsome
      cases e with
      | dir => exact absurd he (h.not_dir hids hkey)
      | file ino => exact absurd he (hfile ino)
  obtain ⟨-, hgone, hsame⟩ := FileSystem.unlink_spec hunlink
  refine ⟨fs', hunlink, h.delete hids hkey (FileSystem.read_unlink hunlink) fun place hdir ↦ ?_⟩
  by_cases hp : place = UnixPath.names key.toList
  · rw [hp, hgone] at hdir
    cases hdir
  · rwa [hsame place hp] at hdir

theorem delete_none (h : OnDisk sc b fs) (hkey : sc.Key key)
    (hnone : fs.entry (UnixPath.names key.toList) = none) :
    OnDisk sc ((BackendCall.delete key).run b).2 fs := by
  refine h.delete hids hkey (Function.update_eq_self_iff.mpr ?_).symm fun _ hdir ↦ hdir
  rw [FileSystem.read, hnone]

end OnDisk

end OnDisk

end Directory

end Chunkstore

import Chunkstore.Backends.Files
import Chunkstore.Bindings.GoBackend
import Chunkstore.Bindings.GoBridge

/-!
# One directory, two languages

A directory is opened by the core, which Python's `ChunkStore.open` and Go's `OpenFilesystem` use
for it, or by Go's own `FilesystemBackend` through the callbacks (`backend.go`). The two turn keys
into paths differently, name their temporary files differently, and take different things for
errors: what `Get` and `Exists` of Go call missing is what `os.IsNotExist` says of the error, and
`os.Remove` takes away a directory that is empty. A path that is too long is nothing to the core,
unless it writes, and an error to Go.

On the keys of a store with tidy file ids the differences do not show, if there is room for their
paths. So the sessions may change hands.

## Main result

* `SharedDirectory.serves_languages`: sessions of either backend, one after the other on one
  directory, return what one run on the map returns.
-/

open Effects Program UnixFs

namespace Chunkstore

open UnixPath (Path segments isAbsolute isName names)

open Directory (TidyKey FileIds Short OnDisk)

/-! ## The calls of the Go backend -/

namespace GoBackend

variable (cwd : Path) (self : GoBackend) (fs : FileSystem)

/-- Where an absolute path is, seen from the root. -/
def below (path : Path) : Place := (names path).drop (CleanPath.place cwd self.root).length

/-- The path of a key that is a list of names. -/
def filePath (key : String) : Path :=
  '/' :: ['/'].intercalate (CleanPath.place cwd self.root ++ names key.toList)

/-- `os.IsNotExist` of the error where nothing is found. With a file in the way it is another one,
as it is where the directory of a name is there that is too long. -/
def isNotExist (path : Path) : Bool :=
  UnixPath.Passable path && (fs.entry (self.below cwd path)).isNone
    && !(self.below cwd path).inits.any fun p ↦ (fs.read p).isSome
      || fs.entry p.dropLast = some .dir
        && UnixPath.nameMax < UnixPath.byteLength (p.getLast?.getD [])

/-- `Get`, which is `none` if it returns an error. -/
def get (key : String) : Option (Option Bytes) := do
  let path ← self.keyPath cwd key
  if ¬UnixPath.Passable path then none
  match fs.read (self.below cwd path) with
  | some data => return some data
  | none => if self.isNotExist cwd fs path then return none else none

/-- `Put`. The root itself cannot be replaced by a file. -/
def put (key : String) (data : Bytes) : Option FileSystem := do
  let path ← self.keyPath cwd key
  if ¬UnixPath.Admissible path ∨ ¬UnixPath.Admissible (tmpPath path) then none
  if self.below cwd path = [] then none
  Directory.replace fs (self.below cwd (tmpPath path)) (self.below cwd path) data

def existsKey (key : String) : Option Bool := do
  let path ← self.keyPath cwd key
  if ¬UnixPath.Passable path then none
  if (fs.entry (self.below cwd path)).isSome then return true
  else if self.isNotExist cwd fs path then return false
  else none

/-- `os.Remove` below the root: a file, or a directory with nothing in it. -/
inductive Removes (place : Place) : FileSystem → Prop
  | file {fs' : FileSystem} (h : fs.unlink place = some fs') : Removes place fs'
  | dir {fs' : FileSystem} (hdir : fs.entry place = some .dir) (hbelow : place ≠ [])
      (hempty : ∀ name, fs.entry (place ++ [name]) = none)
      (hentry : fs'.entry = Function.update fs.entry place none)
      (hcontent : fs'.content = fs.content) : Removes place fs'

/-- `Delete`: what is there is removed, or it is an error. -/
inductive Deletes (key : String) : Except ChunkStoreError Unit → FileSystem → Prop
  | removed {path : Path} {fs' : FileSystem} (hpath : self.keyPath cwd key = some path)
      (hlong : UnixPath.Passable path) (h : Removes fs (self.below cwd path) fs') :
      Deletes key (.ok ()) fs'
  | missing {path : Path} (hpath : self.keyPath cwd key = some path)
      (h : self.isNotExist cwd fs path = true) : Deletes key (.ok ()) fs
  | failed {e : ChunkStoreError} (h : ∀ path, self.keyPath cwd key = some path →
      self.isNotExist cwd fs path = false ∧
        (UnixPath.Passable path → ∀ fs', ¬Removes fs (self.below cwd path) fs')) :
      Deletes key (.error e) fs

/-- The backend. It has no call that lists keys. -/
def backend : ChunkBackend FileSystem where
  call
    | .get key, fs, r, fs' =>
      FsBackend.Follows ((self.get cwd fs key).map fun value ↦ (value, fs)) r fs'
    | .put key data, fs, r, fs' =>
      FsBackend.Follows ((self.put cwd fs key data).map fun fs ↦ ((), fs)) r fs'
    | .existsKey key, fs, r, fs' =>
      FsBackend.Follows ((self.existsKey cwd fs key).map fun b ↦ (b, fs)) r fs'
    | .delete key, fs, r, fs' => Deletes cwd self fs key r fs'
    | .listKeys _, fs, r, fs' => r = .ok none ∧ fs' = fs

/-! ## Tidy keys -/

section Tidy

variable {cwd self} {sc : Scope} {b : Backend} {fs fs' : FileSystem} {key : String} {data : Bytes}
  {path : Path}

private theorem elements_of_tidyKey (h : TidyKey key) :
    CleanPath.elements key.toList = names key.toList := by
  have hnames : ∀ s ∈ segments key.toList, isName s = true := fun s hs ↦ (h s hs).isName
  rw [CleanPath.elements, CleanPath.foldl_step_names hnames h.noParent, List.nil_append, h.names]

theorem keyPath_of_tidyKey (hcwd : isAbsolute cwd = true)
    (hroot : CleanPath.place cwd self.root ≠ []) (h : TidyKey key) :
    self.keyPath cwd key = some (self.filePath cwd key) := by
  refine (keyPath_eq_some hcwd h.relative).mpr ⟨h.ne_empty, h.plain, ?_, Or.inl hroot, ?_⟩
  · rw [elements_of_tidyKey h, h.names]
    exact fun hhead ↦ h.noParent (List.mem_of_mem_head? hhead)
  · rw [elements_of_tidyKey h, filePath]

theorem below_text {l : List Path} (hl : ∀ s ∈ l, isName s = true ∧ '/' ∉ s) :
    self.below cwd ('/' :: ['/'].intercalate (CleanPath.place cwd self.root ++ l)) = l := by
  rw [below, CleanPath.names_text, List.drop_left]
  intro s hs
  exact (List.mem_append.mp hs).elim (CleanPath.place_names s) (hl s)

theorem names_of_tidyKey (h : TidyKey key) : ∀ s ∈ names key.toList, isName s = true ∧ '/' ∉ s := by
  intro s hs
  rw [h.names] at hs
  exact ⟨(h s hs).isName, UnixPath.not_mem_of_mem_segments hs⟩

theorem below_of_tidyKey (h : TidyKey key) :
    self.below cwd (self.filePath cwd key) = names key.toList :=
  below_text (names_of_tidyKey h)

theorem names_eq_concat (h : TidyKey key) : ∃ front last, names key.toList = front ++ [last] := by
  have hne : names key.toList ≠ [] := by
    rw [h.names]
    exact Directory.segments_ne_nil _
  exact ⟨_, _, (List.dropLast_append_getLast hne).symm⟩

theorem below_tmpPath (h : TidyKey key) :
    Directory.IsTmp (self.below cwd (tmpPath (self.filePath cwd key))) ∧
      (self.below cwd (tmpPath (self.filePath cwd key))).dropLast
        = (names key.toList).dropLast := by
  have hnames := names_of_tidyKey h
  obtain ⟨front, last, hkey⟩ := names_eq_concat h
  rw [filePath, hkey]
  rw [hkey] at hnames
  have htmp :
      tmpPath ('/' :: ['/'].intercalate (CleanPath.place cwd self.root ++ (front ++ [last])))
      = '/' :: ['/'].intercalate
        (CleanPath.place cwd self.root ++ (front ++ [last ++ ".tmp".toList])) := by
    rw [tmpPath, List.cons_append, ← List.append_assoc, UnixPath.intercalate_concat_append,
      List.append_assoc]
  obtain ⟨hname, hsep⟩ := hnames last (List.mem_append_right _ List.mem_cons_self)
  rw [htmp, below_text]
  · refine ⟨⟨front, _, rfl, List.suffix_append _ _⟩, ?_⟩
    rw [List.dropLast_concat, List.dropLast_concat]
  · intro s hs
    rcases List.mem_append.mp hs with hs | hs
    · exact hnames s (List.mem_append_left _ hs)
    · rw [List.mem_singleton.mp hs]
      constructor
      · -- the name of a temporary file is too long for a dot
        rw [isName, decide_eq_true_iff]
        refine ⟨List.append_ne_nil_of_right_ne_nil _ (by decide), fun hdot ↦ ?_⟩
        have hlen := congrArg List.length hdot
        rw [List.length_append] at hlen
        exact absurd hlen (by change ¬(_ + 4 = 1); omega)
      · rw [List.mem_append, not_or]
        exact ⟨hsep, by decide⟩

theorem filePath_eq_join (hcwd : isAbsolute cwd = true)
    (hroot : CleanPath.place cwd self.root ≠ []) (h : TidyKey key) :
    self.filePath cwd key = UnixPath.join (CleanPath.abs cwd self.root) key.toList := by
  rw [filePath, h.names, CleanPath.abs_eq hcwd,
    CleanPath.join_text hroot CleanPath.place_names h.relative]

/-! ## The Go backend is the map -/

section Calls

variable (hcwd : isAbsolute cwd = true) (hroot : CleanPath.place cwd self.root ≠ [])
  (hids : FileIds sc.file) (hshort : Short (CleanPath.abs cwd self.root) sc.file)
  (h : OnDisk sc b fs)

include hcwd hroot hids hshort

theorem admissible_filePath (hkey : sc.Key key) : UnixPath.Admissible (self.filePath cwd key) := by
  rw [filePath_eq_join hcwd hroot (hids.tidyKey hkey)]
  exact hshort.admissible hids hkey

theorem admissible_tmpPath (hkey : sc.Key key) :
    UnixPath.Admissible (tmpPath (self.filePath cwd key)) := by
  have htidy := hids.tidyKey hkey
  obtain ⟨front, last, hnames⟩ := names_eq_concat htidy
  rw [htidy.names] at hnames
  have hjoin := filePath_eq_join hcwd hroot htidy
  obtain ⟨above, hsegments, -⟩ := UnixPath.segments_join (CleanPath.abs cwd self.root)
    htidy.relative
  rw [hnames, ← List.append_assoc] at hsegments
  have htmp : tmpPath (self.filePath cwd key)
      = ['/'].intercalate (above ++ front ++ [last ++ ".tmp".toList]) := by
    rw [tmpPath, hjoin, ← UnixPath.intercalate_concat_append, ← hsegments,
      UnixPath.intercalate_segments]
  rw [htmp]
  refine hshort.admissible_rename hids hkey ?_ ?_ (by decide) (by decide) (by decide)
  · rw [hnames, List.getLast?_concat]
  · rw [hsegments, List.dropLast_concat]

include h

/-- In the files of a map nothing is in the way of a key, and no name of it is too long. -/
theorem isNotExist_onDisk (hkey : sc.Key key) :
    self.isNotExist cwd fs (self.filePath cwd key) = (fs.entry (names key.toList)).isNone := by
  have htidy := hids.tidyKey hkey
  have hadm := admissible_filePath hcwd hroot hids hshort hkey
  rw [isNotExist, below_of_tidyKey htidy, decide_eq_true hadm.toPassable, Bool.true_and]
  cases hentry : fs.entry (names key.toList) with
  | some e => rfl
  | none =>
    rw [Option.isNone_none, Bool.true_and, Bool.not_eq_true', List.any_eq_false]
    intro p hp
    rw [List.mem_inits] at hp
    rw [Bool.not_eq_true, Bool.or_eq_false_iff, Bool.and_eq_false_iff]
    constructor
    · rw [Option.isSome_eq_false_iff, Option.isNone_iff_eq_none]
      by_cases heq : p = names key.toList
      · rw [heq, FileSystem.read, hentry]
      · refine h.read_parents hids hkey ?_
        obtain ⟨rest, hrest⟩ := hp
        have hne : rest ≠ [] := by
          rintro rfl
          exact heq (by rw [← hrest, List.append_nil])
        rw [← hrest, List.dropLast_append_of_ne_nil hne]
        exact List.prefix_append _ _
    · refine Or.inr (decide_eq_false (Nat.not_lt.mpr ?_))
      cases hlast : p.getLast? with
      | none => exact Nat.zero_le _
      | some name =>
        have hname := hp.subset (List.mem_of_getLast? hlast)
        rw [htidy.names] at hname
        exact (Nat.le_add_right _ Directory.tmpMax).trans (hshort.byteLength_name hkey name hname)

theorem get_onDisk (hkey : sc.Key key) : self.get cwd fs key = some (b.data.find key) := by
  have htidy := hids.tidyKey hkey
  have hadm := admissible_filePath hcwd hroot hids hshort hkey
  change (self.keyPath cwd key).bind _ = _
  rw [keyPath_of_tidyKey hcwd hroot htidy, Option.bind_some, if_neg (not_not.mpr hadm.toPassable),
    below_of_tidyKey htidy, isNotExist_onDisk hcwd hroot hids hshort h hkey, h.read_eq hids hkey]
  have hentry := h.isSome_entry hids hkey
  cases hfind : b.data.find key with
  | some data => rfl
  | none =>
    rw [hfind] at hentry
    rw [Option.isSome_eq_false_iff.mp hentry]
    rfl

private theorem existsKey_onDisk (hkey : sc.Key key) :
    self.existsKey cwd fs key = some (b.data.find key).isSome := by
  have htidy := hids.tidyKey hkey
  have hadm := admissible_filePath hcwd hroot hids hshort hkey
  change (self.keyPath cwd key).bind _ = _
  rw [keyPath_of_tidyKey hcwd hroot htidy, Option.bind_some, if_neg (not_not.mpr hadm.toPassable),
    below_of_tidyKey htidy, isNotExist_onDisk hcwd hroot hids hshort h hkey,
    ← h.isSome_entry hids hkey]
  cases fs.entry (names key.toList) with
  | some e => rfl
  | none => rfl

private theorem put_onDisk (hkey : sc.Key key) (data : Bytes) :
    ∃ fs', self.put cwd fs key data = some fs' ∧
      OnDisk sc ((BackendCall.put key data).run b).2 fs' := by
  have htidy := hids.tidyKey hkey
  have hadm := admissible_filePath hcwd hroot hids hshort hkey
  have hadm' := admissible_tmpPath hcwd hroot hids hshort hkey
  obtain ⟨htmp, hparent⟩ := @below_tmpPath cwd self key htidy
  obtain ⟨fs', hreplace, h'⟩ := h.replace hids hkey data htmp hparent
  refine ⟨fs', ?_, h'⟩
  change (self.keyPath cwd key).bind _ = _
  rw [keyPath_of_tidyKey hcwd hroot htidy, Option.bind_some,
    if_neg (not_or.mpr ⟨not_not.mpr hadm, not_not.mpr hadm'⟩), below_of_tidyKey htidy,
    if_neg (hids.names_ne_nil hkey)]
  exact hreplace

private theorem delete_onDisk (hkey : sc.Key key) :
    (∃ r fs', Deletes cwd self fs key r fs') ∧ ∀ r fs', Deletes cwd self fs key r fs' →
      r = .ok () ∧ OnDisk sc ((BackendCall.delete key).run b).2 fs' := by
  have htidy := hids.tidyKey hkey
  have hpath := @keyPath_of_tidyKey cwd self key hcwd hroot htidy
  have hbelow := @below_of_tidyKey cwd self key htidy
  have hpassable := (admissible_filePath hcwd hroot hids hshort hkey).toPassable
  have hmissing := isNotExist_onDisk hcwd hroot hids hshort h hkey
  cases hentry : fs.entry (names key.toList) with
  | none =>
    -- nothing can be removed, and what is missing is no error
    rw [hentry] at hmissing
    constructor
    · exact ⟨_, _, .missing hpath (by rw [hmissing]; rfl)⟩
    · intro r fs' hdelete
      cases hdelete with
      | missing => exact ⟨rfl, h.delete_none hids hkey hentry⟩
      | removed hpath' _ hremoves =>
        obtain rfl := Option.some.inj (hpath.symm.trans hpath')
        rw [hbelow] at hremoves
        cases hremoves with
        | file hunlink =>
          rw [FileSystem.unlink] at hunlink
          split at hunlink
          · rename_i hfile
            rw [hentry] at hfile
            cases hfile
          · cases hunlink
        | dir hdir =>
          rw [hentry] at hdir
          cases hdir
      | failed hfailed =>
        have hexists := (hfailed _ hpath).1
        rw [hmissing] at hexists
        cases hexists
  | some e =>
    rw [hentry] at hmissing
    -- what is there is a file, so it is the file that is removed
    obtain ⟨fs₁, hunlink, h₁⟩ := h.unlink hids hkey (by rw [hentry]; rfl)
    have hremoved : Removes fs (self.below cwd (self.filePath cwd key)) fs₁ := by
      rw [hbelow]
      exact .file hunlink
    constructor
    · exact ⟨_, _, .removed hpath hpassable hremoved⟩
    · intro r fs' hdelete
      cases hdelete with
      | removed hpath' _ hremoves =>
        obtain rfl := Option.some.inj (hpath.symm.trans hpath')
        rw [hbelow] at hremoves
        cases hremoves with
        | file hunlink' =>
          obtain rfl := Option.some.inj (hunlink.symm.trans hunlink')
          exact ⟨rfl, h₁⟩
        | dir hdir => exact absurd hdir (h.not_dir hids hkey)
      | missing hpath' hnone =>
        obtain rfl := Option.some.inj (hpath.symm.trans hpath')
        rw [hmissing] at hnone
        cases hnone
      | failed hfailed => exact absurd hremoved ((hfailed _ hpath).2 hpassable fs₁)

end Calls

/-- **The Go backend is the map** for the calls of a store with such files, if its root is not
`/`. -/
theorem realises (self : GoBackend) (hcwd : isAbsolute cwd = true)
    (hroot : CleanPath.place cwd self.root ≠ []) (hids : FileIds sc.file)
    (hshort : Short (CleanPath.abs cwd self.root) sc.file) (hl : ¬sc.listing) :
    (self.backend cwd).Realises (fun _ c ↦ c.On sc) (OnDisk sc) where
  answers c s fs hc h := by
    cases c with
    | get | put | existsKey => exact FsBackend.exists_follows _
    | delete key => exact (delete_onDisk hcwd hroot hids hshort h hc).1
    | listKeys => exact absurd hc hl
  agrees c s fs r fs' hc h hcall := by
    cases c with
    | get key =>
      change FsBackend.Follows ((self.get cwd fs key).map _) r fs' at hcall
      rw [get_onDisk hcwd hroot hids hshort h hc] at hcall
      obtain ⟨rfl, rfl⟩ := hcall
      exact ⟨rfl, h⟩
    | put key data =>
      change FsBackend.Follows ((self.put cwd fs key data).map _) r fs' at hcall
      obtain ⟨fs₁, hput, h'⟩ := put_onDisk hcwd hroot hids hshort h hc.1 data
      rw [hput] at hcall
      obtain ⟨rfl, rfl⟩ := hcall
      exact ⟨rfl, h'⟩
    | existsKey key =>
      change FsBackend.Follows ((self.existsKey cwd fs key).map _) r fs' at hcall
      rw [existsKey_onDisk hcwd hroot hids hshort h (.blob hc)] at hcall
      obtain ⟨rfl, rfl⟩ := hcall
      exact ⟨rfl, h⟩
    | delete key => exact (delete_onDisk hcwd hroot hids hshort h hc).2 r fs' hcall
    | listKeys => exact absurd hc hl

end Tidy

end GoBackend

/-! ## Sessions of either -/

namespace SharedDirectory

/-- What opens a directory: the backend of the core, or that of Go in its working directory. -/
inductive Opener
  | core (self : FsBackend)
  | go (cwd : Path) (self : GoBackend)

def Opener.backend : Opener → ChunkBackend FileSystem
  | .core self => self.backend
  | .go cwd self => GoBridge.viaCallbacks (some (self.backend cwd))

/-- The root leaves room for the paths of such files. A working directory is an absolute path, and
the root of a backend of Go is not `/`. -/
def Opener.Valid (ids : String → Prop) : Opener → Prop
  | .core self => Short self.root ids
  | .go cwd self => isAbsolute cwd = true ∧ CleanPath.place cwd self.root ≠ [] ∧
      Short (CleanPath.abs cwd self.root) ids

/-- Such files, with values that are not empty. -/
def sharedScope (ids : String → Prop) : Scope := ⟨ids, fun v ↦ v ≠ [], False⟩

section Sessions

variable {ids : String → Prop}

private theorem crosses_sharedScope (hids : FileIds ids) : GoBridge.Crosses (sharedScope ids) where
  file f hf := (hids.tidy f hf).noNul
  value _ hv := hv

/-- Whoever opens the directory has the map in it. -/
private theorem Opener.realises {opener : Opener} (hvalid : opener.Valid ids) (hids : FileIds ids) :
    opener.backend.Realises (fun _ c ↦ c.On (sharedScope ids) ∧ GoBridge.Short c)
      fun m t ↦ OnDisk (sharedScope ids) m t ∧ GoBridge.Crossed m := by
  have hcross := crosses_sharedScope hids
  cases opener with
  | go cwd self =>
    exact GoBridge.realises_viaCallbacks hcross
      (self.realises hvalid.1 hvalid.2.1 hids hvalid.2.2 not_false)
  | core self =>
    have hreal : self.backend.Realises (fun _ c ↦ c.On (sharedScope ids))
        (OnDisk (sharedScope ids)) := self.realises hids hvalid not_false
    constructor
    · intro γ c s t hc hR
      exact hreal.answers c s t hc.1 hR.1
    · intro γ c s t r t' hc hR hcall
      obtain ⟨hr, hR'⟩ := hreal.agrees c s t r t' hc.1 hR.1 hcall
      exact ⟨hr, hR', hR.2.run hcross hc.1 hc.2⟩

/-- **Sessions change hands.** A fresh directory is opened again and again, by the core or by Go,
for files with tidy ids, room for their paths and values that cross to Go. What the sessions return
is what one run on the map returns, and the files below the root are those of the map. So if the
ingests returned and the chunks do not collide, the sessions together are one map from file ids to
contents. -/
theorem serves_languages (crates : Crates) (ids : String → Prop)
    (work : List (Opener × List ChunkStore.Op)) (hids : FileIds ids)
    (hvalid : ∀ q ∈ work, q.1.Valid ids)
    (hcovers : (sharedScope ids).Covers ⟨crates, none⟩ (work.map Prod.snd).flatten)
    (hshort : callHandler.Meets (fun _ c ↦ GoBridge.Short c)
      (ChunkStore.serve ⟨crates, none⟩ (ChunkStore.opsOf (work.map Prod.snd))) (.empty false)) :
    (∃ rss fs,
      ChunkBackend.Succession ⟨crates, none⟩ (work.map fun q ↦ (q.1.backend, q.2)) .empty rss
        fs) ∧
      ∀ rss fs, ChunkBackend.Succession ⟨crates, none⟩
        (work.map fun q ↦ (q.1.backend, q.2)) .empty rss
          fs →
        rss.flatten
            = (ChunkStore.execAll ⟨crates, none⟩ (ChunkStore.opsOf (work.map Prod.snd))
              (.empty false)).1 ∧
          (∀ place data, fs.read place = some data ↔ ∃ key,
            (ChunkStore.execAll ⟨crates, none⟩ (ChunkStore.opsOf (work.map Prod.snd))
              (.empty false)).2.find key = some data ∧ names key.toList = place) ∧
          (NoCollision crates.sha256
              (ChunkStore.Ingested ⟨crates, none⟩ (ChunkStore.opsOf (work.map Prod.snd))) →
            ChunkStore.IngestsReturned (ChunkStore.opsOf (work.map Prod.snd)) rss.flatten →
              ChunkStore.FileMap.empty.Explains (ChunkStore.opsOf (work.map Prod.snd))
                rss.flatten) := by
  have hops : (work.map fun q ↦ (q.1.backend, q.2)).map Prod.snd = work.map Prod.snd := by
    rw [List.map_map]
    rfl
  have hreal : ∀ q ∈ work.map fun q ↦ (q.1.backend, q.2),
      q.1.Realises (fun _ c ↦ c.On (sharedScope ids) ∧ GoBridge.Short c)
        fun m t ↦ OnDisk (sharedScope ids) m t ∧ GoBridge.Crossed m := by
    intro q hq
    obtain ⟨⟨opener, ops⟩, hmem, rfl⟩ := List.mem_map.mp hq
    exact Opener.realises (hvalid _ hmem) hids
  have hwithin : ∀ q ∈ work.map fun q ↦ (q.1.backend, q.2), ∀ op ∈ q.2,
      ChunkStore.Within ⟨crates, none⟩ (sharedScope ids) op := by
    intro q hq op hop
    obtain ⟨⟨opener, ops⟩, hmem, rfl⟩ := List.mem_map.mp hq
    exact hcovers.within op (List.mem_flatten.mpr ⟨ops, List.mem_map_of_mem hmem, hop⟩)
  have hempty : OnDisk (sharedScope ids) (State.empty false).backend .empty ∧
      GoBridge.Crossed (State.empty false).backend :=
    ⟨Directory.onDisk_empty false, rfl, fun key data hfind ↦ by cases hfind⟩
  have hmeets : callHandler.Meets (fun _ c ↦ c.On (sharedScope ids) ∧ GoBridge.Short c)
      (ChunkStore.serve ⟨crates, none⟩ (ChunkStore.opsOf (work.map Prod.snd))) (.empty false) :=
    ChunkStore.meets_and (ChunkStore.meets_opsOf hcovers) hshort
  rw [← hops] at hmeets
  have hreturns := ChunkBackend.Succession.returns hreal hcovers.index (syncedIn_empty _ _ false)
    hwithin hmeets hempty
  rw [hops] at hreturns
  refine ⟨hreturns.1, fun rss fs hs ↦ ?_⟩
  obtain ⟨hrss, hdisk, -⟩ := hreturns.2 rss fs hs
  refine ⟨hrss, fun place data ↦ ⟨hdisk.only place data, ?_⟩, fun hnc hok ↦ ?_⟩
  · rintro ⟨key, hkey, rfl⟩
    exact hdisk.held key data hkey
  · -- there is nothing in the map yet, and nothing in the store
    have hstart : ChunkStore.Represents ⟨crates, none⟩ (ChunkStore.Ingested ⟨crates, none⟩
        (ChunkStore.opsOf (work.map Prod.snd))) .empty (.empty false) := fun _ ↦ rfl
    rw [hrss] at hok ⊢
    exact (hstart.execAll hnc (ChunkStore.rep_empty _ _ _)
      (fun op hop chunk hchunk ↦ ⟨op, hop, hchunk⟩) hok).1

/-- The core, then Go, then the core again. -/
def threeSessions : List (Opener × List ChunkStore.Op) :=
  [(.core ⟨"store".toList⟩, [.ingest "a" (.bytes [0x61])]),
    (.go "/home".toList ⟨"store".toList⟩, [.ingest "d/b" (.bytes [0x62]), .read "a"]),
    (.core ⟨"/home/store".toList⟩, [.delete "a", .read "d/b"])]

private theorem covers_threeSessions :
    (sharedScope FsBackend.twoIds).Covers smallStore (threeSessions.map Prod.snd).flatten := by
  refine ⟨GoBridge.records_small fun _ hv ↦ hv, fun h ↦ ?_, fun op hop ↦ ?_⟩
  · exact h.elim (by decide) (by decide)
  · simp only [threeSessions, List.map_cons, List.map_nil, List.flatten_cons, List.flatten_nil,
      List.cons_append, List.nil_append, List.append_nil, List.mem_cons, List.not_mem_nil,
      or_false] at hop
    rcases hop with rfl | rfl | rfl | rfl | rfl
    · exact GoBridge.within_small (fun _ hv ↦ hv) (Or.inl rfl) (b := 0x61) (by decide +kernel)
    · exact GoBridge.within_small (fun _ hv ↦ hv) (Or.inr rfl) (b := 0x62) (by decide +kernel)
    · trivial
    · trivial
    · trivial

theorem serves_languages_three : ∃ rss fs, ChunkBackend.Succession smallStore
    (threeSessions.map fun q ↦ (q.1.backend, q.2)) .empty rss fs ∧
      rss.flatten = [.ok .done, .ok (.digests [digestHex knownSha256 [0x61]]), .ok .done,
        .ok (.digests [digestHex knownSha256 [0x62]]), .ok (.bytes [0x61]), .ok .done, .ok .done,
        .ok (.bytes [0x62])] := by
  have hvalid : ∀ q ∈ threeSessions, q.1.Valid FsBackend.twoIds := by
    intro q hq
    simp only [threeSessions, List.mem_cons, List.not_mem_nil, or_false] at hq
    rcases hq with rfl | rfl | rfl
    · exact FsBackend.short_twoIds (by decide) (by decide) (by decide)
    · exact ⟨by decide, by decide, FsBackend.short_twoIds (by decide) (by decide) (by decide)⟩
    · exact FsBackend.short_twoIds (by decide) (by decide) (by decide)
  obtain ⟨⟨rss, fs, hs⟩, hall⟩ := serves_languages smallCrates FsBackend.twoIds threeSessions
    FsBackend.fileIds_twoIds hvalid covers_threeSessions (by decide +kernel)
  refine ⟨rss, fs, hs, ?_⟩
  rw [(hall rss fs hs).1]
  decide +kernel

end Sessions

end SharedDirectory

end Chunkstore

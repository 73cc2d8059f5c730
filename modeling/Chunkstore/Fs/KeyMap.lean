import Chunkstore.Data.PathLimits
import Chunkstore.Data.UnixFs
import Chunkstore.Fs.FsBackend

/-!
# The file system as a map

What `put`, `get` and `delete` of the file-system backend do to the files below its root
(`fs_backend.rs`). A value is written to a temporary file next to the one it is for, whose name is
made of the key and a counter of the process, and renamed. So a backend holds one value for every
*path*, and temporary names are paths too. A path that is too long, or has a name that is, can be
looked for but not written.

A call that returns an error is `none`.

## Main result

* `FsBackend.run_keyMap`: the backend is a map from keys to values as long as no call has a key, or
  a temporary name, that leads to the file of another key.
-/

open UnixFs

namespace Chunkstore

namespace FsBackend

/-- Whether a path asks for a directory: it ends in `/` or in a segment `.`. -/
def asksDir (p : UnixPath.Path) : Bool := !((UnixPath.segments p).getLast?.any UnixPath.isName)

/-- Where a path leads to below the root. -/
structure Location where
  place : Place
  asksDir : Bool

variable (self : FsBackend) (fs : FileSystem)

/-- The path of a key, if the key is accepted. -/
def path (key : String) : UnixPath.Path := UnixPath.join self.root key.toList

/-- The location of a key that is accepted. -/
def locate (key : String) : Option Location :=
  match self.keyToPath key with
  | .ok _ => some ⟨UnixPath.names key.toList, asksDir key.toList⟩
  | .error _ => none

/-- `metadata` of a path and where it leads: nothing is found under a path that the system turns
down, and no file under one that asks for a directory. -/
def stat (text : UnixPath.Path) (path : Location) : Option Entry :=
  if ¬UnixPath.Admissible text then none
  else
    match fs.entry path.place with
    | some (.file ino) => if path.asksDir then none else some (.file ino)
    | e => e

def isFile (text : UnixPath.Path) (path : Location) : Bool :=
  match stat fs text path with
  | some (.file _) => true
  | _ => false

/-- The name of the temporary file of a write. -/
def tmpName (name : UnixPath.Path) (unique : ℕ) : UnixPath.Path :=
  name ++ '.' :: (toString unique).toList ++ ".tmp".toList

def tmpPlace (place : Place) (unique : ℕ) : Place :=
  place.dropLast ++ [tmpName (place.getLast?.getD []) unique]

def tmpPath (text : UnixPath.Path) (place : Place) (unique : ℕ) : UnixPath.Path :=
  UnixPath.withFileName text (tmpName (place.getLast?.getD []) unique)

/-- `write_atomic`, with what the counter of the process gives. -/
def writeAtomic (text : UnixPath.Path) (path : Location) (data : Bytes) (unique : ℕ) :
    Option FileSystem := do
  -- else the directory cannot be made, or the temporary file not created or renamed
  if ¬UnixPath.Admissible text ∨ ¬UnixPath.Admissible (tmpPath text path.place unique) then none
  let fs ← fs.mkdirAll path.place.dropLast
  if path.place = [] then none
  let (fs, ino) ← fs.create (tmpPlace path.place unique)
  let fs := fs.write ino 0 data
  if path.asksDir then none
  fs.rename (tmpPlace path.place unique) path.place

def get (key : String) : Option (Option Bytes) := do
  let path ← self.locate key
  if !isFile fs (self.path key) path then
    return none
  return fs.read path.place

def put (key : String) (data : Bytes) (unique : ℕ) : Option FileSystem := do
  let path ← self.locate key
  writeAtomic fs (self.path key) path data unique

def delete (key : String) : Option FileSystem := do
  let path ← self.locate key
  if (stat fs (self.path key) path).isSome then
    fs.unlink path.place
  else
    return fs

/-- Whether there can be a file under a key. -/
def leads (key : String) : Bool := !asksDir key.toList && UnixPath.Admissible (self.path key)

/-! ## Calls -/

/-- A call of the backend. A put comes with what the counter of the process gives it. -/
inductive FsCall
  | put (key : String) (data : Bytes) (unique : ℕ)
  | get (key : String)
  | delete (key : String)

def FsCall.key : FsCall → String
  | .put key _ _ => key
  | .get key => key
  | .delete key => key

/-- What a call returns, which is a value for `get` only, and the files after it. -/
def exec : FsCall → FileSystem → Option (Option Bytes × FileSystem)
  | .put key data unique, fs => (self.put fs key data unique).map fun fs ↦ (none, fs)
  | .get key, fs => (self.get fs key).map fun value ↦ (value, fs)
  | .delete key, fs => (self.delete fs key).map fun fs ↦ (none, fs)

/-- A run of calls that all return without an error. -/
def execAll : List FsCall → FileSystem → Option (List (Option Bytes) × FileSystem)
  | [], fs => some ([], fs)
  | c :: calls, fs => do
    let (reply, fs) ← self.exec c fs
    let (replies, fs) ← execAll calls fs
    return (reply :: replies, fs)

end FsBackend

/-! ## The map -/

/-- What a key-value store holds: a map from keys to values. -/
abbrev KeyMap := String → Option Bytes

namespace KeyMap

open FsBackend (FsCall)

def empty : KeyMap := fun _ ↦ none

def after (m : KeyMap) : FsCall → KeyMap
  | .put key data _ => Function.update m key (some data)
  | .get _ => m
  | .delete key => Function.update m key none

def reply (m : KeyMap) : FsCall → Option Bytes
  | .get key => m key
  | _ => none

def replies : KeyMap → List FsCall → List (Option Bytes)
  | _, [] => []
  | m, c :: calls => m.reply c :: replies (m.after c) calls

variable (self : FsBackend)

/-- If the key leads to a file, no other key that holds a value leads there. -/
def Alone (m : KeyMap) (key : String) : Prop :=
  self.leads key = true → ∀ other data, m other = some data → other ≠ key →
    UnixPath.names other.toList ≠ UnixPath.names key.toList

/-- A call keeps to its own file: no other key that holds a value leads there, nor to the temporary
file of the call. -/
def Apart (m : KeyMap) (c : FsCall) : Prop :=
  m.Alone self c.key ∧
    match c with
    | .put key _ unique => ∀ other data, m other = some data →
        UnixPath.names other.toList ≠ FsBackend.tmpPlace (UnixPath.names key.toList) unique
    | _ => True

/-- Every call of a run keeps to its own file. -/
def AllApart : KeyMap → List FsCall → Prop
  | _, [] => True
  | m, c :: calls => m.Apart self c ∧ AllApart (m.after c) calls

end KeyMap

namespace FsBackend

variable {self : FsBackend} {fs fs' : FileSystem} {m : KeyMap} {key : String} {data : Bytes}
  {unique : ℕ} {path : Location}

/-! ## Single calls -/

theorem locate_eq_some : self.locate key = some path ↔
    (∃ p, self.keyToPath key = .ok p) ∧ path = ⟨UnixPath.names key.toList, asksDir key.toList⟩ := by
  rw [locate]
  cases self.keyToPath key with
  | ok p =>
    rw [Option.some_inj, eq_comm]
    exact (and_iff_right ⟨p, rfl⟩).symm
  | error e => exact iff_of_false (fun h ↦ nomatch h) fun ⟨⟨p, hp⟩, _⟩ ↦ nomatch hp

theorem leads_eq_true :
    self.leads key = true ↔ asksDir key.toList = false ∧ UnixPath.Admissible (self.path key) := by
  rw [leads, Bool.and_eq_true, Bool.not_eq_true', decide_eq_true_iff]

theorem stat_eq_file {text : UnixPath.Path} {ino : ℕ} : stat fs text path = some (.file ino) ↔
    (path.asksDir = false ∧ UnixPath.Admissible text) ∧ fs.entry path.place = some (.file ino) := by
  rw [stat]
  by_cases htext : UnixPath.Admissible text
  · rw [if_neg (not_not.mpr htext), and_iff_left htext]
    split
    · rename_i ino' hp
      rw [hp]
      cases path.asksDir with
      | true => exact iff_of_false (fun h ↦ nomatch h) fun h ↦ nomatch h.1
      | false => exact (and_iff_right rfl).symm
    · rename_i hp
      exact iff_of_false (hp ino) fun h ↦ hp ino h.2
  · rw [if_pos htext]
    exact iff_of_false (fun h ↦ nomatch h) fun h ↦ htext h.1.2

/-- What is found under a key that leads to no file is no file. -/
theorem stat_of_not_leads (hpath : self.locate key = some path) (h : self.leads key = false) :
    (stat fs (self.path key) path).isSome → fs.unlink path.place = none := by
  obtain ⟨-, rfl⟩ := locate_eq_some.mp hpath
  intro hsome
  rw [FileSystem.unlink]
  split
  · rename_i ino hfile
    rw [stat, hfile] at hsome
    split at hsome
    · cases hsome
    · rename_i hadm
      have hdir : asksDir key.toList = true := by
        by_contra hdir
        rw [leads_eq_true.mpr ⟨Bool.eq_false_iff.mpr hdir, not_not.mp hadm⟩] at h
        cases h
      dsimp only at hsome
      rw [hdir] at hsome
      cases hsome
  · rfl

/-- A key has a value if there is a file at its place, and it leads to a file. -/
theorem get_eq (h : self.locate key = some path) :
    self.get fs key = some (if self.leads key then fs.read path.place else none) := by
  have hget : self.get fs key
      = if !isFile fs (self.path key) path then some none else some (fs.read path.place) := by
    change (self.locate key).bind _ = _
    rw [h]
    rfl
  obtain ⟨-, rfl⟩ := locate_eq_some.mp h
  rw [hget, isFile]
  split
  · rename_i ino hstat
    rw [leads_eq_true.mpr (stat_eq_file.mp hstat).1]
    rfl
  · rename_i hstat
    cases hleads : self.leads key with
    | false => rfl
    | true =>
      have hread : fs.read (UnixPath.names key.toList) = none := by
        rw [Option.eq_none_iff_forall_ne_some]
        intro d hd
        obtain ⟨ino, hino, -⟩ := FileSystem.read_eq_some.mp hd
        exact hstat ino (stat_eq_file.mpr ⟨leads_eq_true.mp hleads, hino⟩)
      rw [if_pos rfl, hread]
      rfl

theorem tmpPlace_ne (h : path.place ≠ []) : tmpPlace path.place unique ≠ path.place := by
  intro heq
  have hlast := congrArg List.getLast? heq
  rw [tmpPlace, List.getLast?_concat, List.getLast?_eq_some_getLast h, Option.getD_some,
    Option.some_inj] at hlast
  have hlen := congrArg List.length hlast
  rw [tmpName, List.length_append, List.length_append, List.length_cons] at hlen
  omega

/-- A write leaves its data at the place, and no temporary file. -/
theorem writeAtomic_spec {text : UnixPath.Path}
    (h : writeAtomic fs text path data unique = some fs') :
    (path.asksDir = false ∧ UnixPath.Admissible text) ∧
      fs'.read = Function.update
        (Function.update fs.read (tmpPlace path.place unique) none) path.place (some data) := by
  rw [writeAtomic] at h
  by_cases htext : ¬UnixPath.Admissible text ∨ ¬UnixPath.Admissible (tmpPath text path.place unique)
  · rw [if_pos htext] at h
    cases h
  rw [if_neg htext] at h
  obtain ⟨fs₁, hmkdir, h⟩ := Option.bind_eq_some_iff.mp h
  by_cases hplace : path.place = []
  · rw [if_pos hplace] at h
    cases h
  rw [if_neg hplace] at h
  obtain ⟨⟨fs₂, ino⟩, hcreate, h⟩ := Option.bind_eq_some_iff.mp h
  dsimp only at h
  cases hdir : path.asksDir with
  | true =>
    rw [hdir] at h
    cases h
  | false =>
    rw [hdir] at h
    obtain ⟨hentry, hempty, -, -⟩ := FileSystem.create_spec hcreate
    -- the temporary file holds the data before it is renamed
    have hwritten : (fs₂.write ino 0 data).read
        = Function.update fs.read (tmpPlace path.place unique) (some data) := by
      rw [FileSystem.read_write hentry, FileSystem.read_create hcreate,
        FileSystem.read_mkdirAll hmkdir, Function.update_idem, hempty]
      exact congrArg (Function.update _ _) (congrArg some (FileSystem.splice_append [] data))
    refine ⟨⟨rfl, not_not.mp (not_or.mp htext).1⟩, ?_⟩
    rw [FileSystem.read_rename h, hwritten, Function.update_idem, Function.update_self]

theorem put_spec (h : self.put fs key data unique = some fs') :
    self.leads key = true ∧
      fs'.read = Function.update
        (Function.update fs.read (tmpPlace (UnixPath.names key.toList) unique) none)
        (UnixPath.names key.toList) (some data) := by
  change (self.locate key).bind _ = _ at h
  obtain ⟨path, hpath, hwrite⟩ := Option.bind_eq_some_iff.mp h
  obtain ⟨hleads, hread⟩ := writeAtomic_spec hwrite
  obtain ⟨-, rfl⟩ := locate_eq_some.mp hpath
  exact ⟨leads_eq_true.mpr hleads, hread⟩

/-- A deletion takes away the file at the place, if the key leads to a file. -/
theorem delete_spec (h : self.delete fs key = some fs') :
    fs'.read = if self.leads key then
        Function.update fs.read (UnixPath.names key.toList) none
      else fs.read := by
  obtain ⟨path, hpath, h⟩ := Option.bind_eq_some_iff.mp h
  change (if (stat fs (self.path key) path).isSome then fs.unlink path.place else some fs)
    = some fs' at h
  obtain ⟨-, rfl⟩ := locate_eq_some.mp hpath
  cases hleads : self.leads key with
  | false =>
    split at h
    · rename_i hstat
      rw [stat_of_not_leads hpath hleads hstat] at h
      cases h
    · cases h
      rfl
  | true =>
    rw [if_pos rfl]
    split at h
    · exact FileSystem.read_unlink h
    · rename_i hstat
      cases h
      refine (Function.update_eq_self_iff.mpr ?_).symm
      symm
      rw [Option.eq_none_iff_forall_ne_some]
      intro d hd
      obtain ⟨ino, hino, -⟩ := FileSystem.read_eq_some.mp hd
      rw [stat_eq_file.mpr ⟨leads_eq_true.mp hleads, hino⟩] at hstat
      exact hstat rfl

/-! ## The files of a map -/

/-- The files are those of the keys that hold a value, each at its own place. -/
structure Agrees (backend : FsBackend) (fs : FileSystem) (m : KeyMap) : Prop where
  leads : ∀ key data, m key = some data → backend.leads key = true
  held : ∀ key data, m key = some data → fs.read (UnixPath.names key.toList) = some data
  only : ∀ p data, fs.read p = some data → ∃ key, m key = some data ∧ UnixPath.names key.toList = p
  single : ∀ key key' data data', m key = some data → m key' = some data' →
    UnixPath.names key.toList = UnixPath.names key'.toList → key = key'

theorem agrees_empty : self.Agrees .empty .empty where
  leads := fun _ _ h ↦ nomatch h
  held := fun _ _ h ↦ nomatch h
  only := fun p data h ↦ by
    obtain ⟨ino, hino, -⟩ := FileSystem.read_eq_some.mp h
    change (if p = [] then some Entry.dir else none) = _ at hino
    split at hino <;> cases hino
  single := fun _ _ _ _ h ↦ nomatch h

theorem Agrees.get (h : self.Agrees fs m) (halone : m.Alone self key)
    (hpath : ∃ p, self.keyToPath key = .ok p) : self.get fs key = some (m key) := by
  rw [get_eq (locate_eq_some.mpr ⟨hpath, rfl⟩)]
  cases hkey : m key with
  | some data =>
    rw [h.leads key data hkey, if_pos rfl]
    exact congrArg some (h.held key data hkey)
  | none =>
    split
    · rename_i hleads
      refine congrArg some (Option.eq_none_iff_forall_ne_some.mpr fun data hread ↦ ?_)
      -- a file there would be another key's
      obtain ⟨other, hother, hplace⟩ := h.only _ data hread
      exact halone hleads other data hother
        (fun heq ↦ nomatch (heq ▸ hother).symm.trans hkey) hplace
    · rfl

private theorem Agrees.put (h : self.Agrees fs m) (hapart : m.Apart self (.put key data unique))
    (hput : self.put fs key data unique = some fs') :
    self.Agrees fs' (m.after (.put key data unique)) := by
  obtain ⟨hleads, hread⟩ := put_spec hput
  obtain ⟨hapart, htmp⟩ := hapart
  have halone (other : String) (d : Bytes) (hother : m other = some d) (hne : other ≠ key) :
      UnixPath.names other.toList ≠ UnixPath.names key.toList := hapart hleads other d hother hne
  have hkey : ∀ other d, (m.after (.put key data unique)) other = some d →
      other = key ∧ d = data ∨ other ≠ key ∧ m other = some d := by
    intro other d hother
    by_cases heq : other = key
    · rw [heq, KeyMap.after, Function.update_self] at hother
      exact Or.inl ⟨heq, (Option.some.inj hother).symm⟩
    · rw [KeyMap.after, Function.update_of_ne heq] at hother
      exact Or.inr ⟨heq, hother⟩
  constructor
  · intro other d hother
    rcases hkey other d hother with ⟨rfl, -⟩ | ⟨-, hold⟩
    · exact hleads
    · exact h.leads other d hold
  · intro other d hother
    rw [hread]
    rcases hkey other d hother with ⟨rfl, rfl⟩ | ⟨hne, hold⟩
    · exact Function.update_self ..
    · rw [Function.update_of_ne (halone other d hold hne),
        Function.update_of_ne (htmp other d hold)]
      exact h.held other d hold
  · intro p d hp
    rw [hread] at hp
    by_cases hplace : p = UnixPath.names key.toList
    · rw [hplace, Function.update_self] at hp
      exact ⟨key, (Function.update_self ..).trans hp, hplace.symm⟩
    · rw [Function.update_of_ne hplace] at hp
      by_cases hptmp : p = tmpPlace (UnixPath.names key.toList) unique
      · rw [hptmp, Function.update_self] at hp
        cases hp
      · rw [Function.update_of_ne hptmp] at hp
        obtain ⟨other, hother, rfl⟩ := h.only p d hp
        have hne : other ≠ key := fun heq ↦ hplace (congrArg (UnixPath.names ·.toList) heq)
        exact ⟨other, (Function.update_of_ne hne _ _).trans hother, rfl⟩
  · intro k k' d d' hk hk' hplace
    rcases hkey k d hk with ⟨rfl, -⟩ | ⟨hne, hold⟩
    · rcases hkey k' d' hk' with ⟨rfl, -⟩ | ⟨hne', hold'⟩
      · rfl
      · exact absurd hplace.symm (halone k' d' hold' hne')
    · rcases hkey k' d' hk' with ⟨rfl, -⟩ | ⟨-, hold'⟩
      · exact absurd hplace (halone k d hold hne)
      · exact h.single k k' d d' hold hold' hplace

private theorem Agrees.delete (h : self.Agrees fs m) (halone : m.Alone self key)
    (hdelete : self.delete fs key = some fs') : self.Agrees fs' (m.after (.delete key)) := by
  have hread := delete_spec hdelete
  have hkey : ∀ other d, (m.after (.delete key)) other = some d ↔
      other ≠ key ∧ m other = some d := by
    intro other d
    by_cases heq : other = key
    · rw [heq, KeyMap.after, Function.update_self]
      exact iff_of_false (fun h ↦ nomatch h) fun h ↦ h.1 rfl
    · rw [KeyMap.after, Function.update_of_ne heq, and_iff_right heq]
  cases hleads : self.leads key with
  | false =>
    -- neither a file nor a value is taken away
    have hnone : m key = none := by
      rw [Option.eq_none_iff_forall_ne_some]
      intro d hd
      rw [h.leads key d hd] at hleads
      cases hleads
    rw [hleads, if_neg Bool.false_ne_true] at hread
    have hsame : m.after (.delete key) = m := Function.update_eq_self_iff.mpr hnone.symm
    rw [hsame]
    refine ⟨h.leads, ?_, ?_, h.single⟩
    · rw [hread]
      exact h.held
    · rw [hread]
      exact h.only
  | true =>
    rw [hleads, if_pos rfl] at hread
    refine ⟨fun other d hother ↦ h.leads other d ((hkey other d).mp hother).2,
      fun other d hother ↦ ?_, fun p d hp ↦ ?_, fun k k' d d' hk hk' hplace ↦ ?_⟩
    · obtain ⟨hne, hold⟩ := (hkey other d).mp hother
      rw [hread, Function.update_of_ne (halone hleads other d hold hne)]
      exact h.held other d hold
    · rw [hread] at hp
      by_cases hplace : p = UnixPath.names key.toList
      · rw [hplace, Function.update_self] at hp
        cases hp
      · rw [Function.update_of_ne hplace] at hp
        obtain ⟨other, hother, rfl⟩ := h.only p d hp
        have hne : other ≠ key := fun heq ↦ hplace (congrArg (UnixPath.names ·.toList) heq)
        exact ⟨other, (hkey other d).mpr ⟨hne, hother⟩, rfl⟩
    · exact h.single k k' d d' ((hkey k d).mp hk).2 ((hkey k' d').mp hk').2 hplace

theorem Agrees.exec {c : FsCall} {reply : Option Bytes} (h : self.Agrees fs m)
    (hapart : m.Apart self c)
    (hexec : self.exec c fs = some (reply, fs')) :
    reply = m.reply c ∧ self.Agrees fs' (m.after c) := by
  cases c with
  | put key data unique =>
    obtain ⟨fs₁, hput, heq⟩ := Option.map_eq_some_iff.mp hexec
    cases heq
    exact ⟨rfl, h.put hapart hput⟩
  | get key =>
    obtain ⟨value, hget, heq⟩ := Option.map_eq_some_iff.mp hexec
    cases heq
    have hpath : ∃ p, self.keyToPath key = .ok p := by
      obtain ⟨path, hpath, -⟩ := Option.bind_eq_some_iff.mp hget
      exact (locate_eq_some.mp hpath).1
    exact ⟨Option.some.inj (hget.symm.trans (h.get hapart.1 hpath)), h⟩
  | delete key =>
    obtain ⟨fs₁, hdelete, heq⟩ := Option.map_eq_some_iff.mp hexec
    cases heq
    exact ⟨rfl, h.delete hapart.1 hdelete⟩

theorem Agrees.execAll {calls : List FsCall} {replies : List (Option Bytes)} (h : self.Agrees fs m)
    (hapart : m.AllApart self calls) (hrun : self.execAll calls fs = some (replies, fs')) :
    replies = m.replies calls ∧ self.Agrees fs' (calls.foldl KeyMap.after m) := by
  induction calls generalizing fs m replies with
  | nil =>
    cases hrun
    exact ⟨rfl, h⟩
  | cons c calls ih =>
    obtain ⟨⟨reply, fs₁⟩, hexec, hrun⟩ := Option.bind_eq_some_iff.mp hrun
    obtain ⟨⟨replies', fs₂⟩, hrun, heq⟩ := Option.bind_eq_some_iff.mp hrun
    cases heq
    obtain ⟨hreply, hagrees⟩ := h.exec hapart.1 hexec
    obtain ⟨hreplies, hagrees'⟩ := ih hagrees hapart.2 hrun
    exact ⟨by rw [hreply, hreplies]; rfl, hagrees'⟩

/-- **The backend is a map.** In a run of calls on an empty backend that all return without an
error, and of which each keeps to its own file, every `get` returns the last value that was put
under its key and not deleted since. After the run, and so after each part of it, a key gets its
value in the same sense, if no other key that holds a value leads to its file; and files whose
manifests are held do not share the place of their manifests. -/
theorem run_keyMap (self : FsBackend) (calls : List FsCall) (replies : List (Option Bytes))
    (fs : FileSystem) (hrun : self.execAll calls .empty = some (replies, fs))
    (hapart : KeyMap.empty.AllApart self calls) :
    replies = KeyMap.empty.replies calls ∧
      (∀ key, (∃ p, self.keyToPath key = .ok p) →
        (calls.foldl KeyMap.after .empty).Alone self key →
          self.get fs key = some (calls.foldl KeyMap.after .empty key)) ∧
      ∀ f g a b, calls.foldl KeyMap.after .empty (manifestKey f) = some a →
        calls.foldl KeyMap.after .empty (manifestKey g) = some b → f ≠ g →
          UnixPath.names (manifestKey f).toList ≠ UnixPath.names (manifestKey g).toList := by
  obtain ⟨hreplies, hagrees⟩ := agrees_empty.execAll hapart hrun
  refine ⟨hreplies, fun key hpath halone ↦ hagrees.get halone hpath,
    fun f g a b hf hg hne hplace ↦ ?_⟩
  exact hne (manifestKey_inj.mp (hagrees.single _ _ a b hf hg hplace))

/-- Two keys, of which the first is read. -/
def twoCalls : List FsCall := [.put "a" [1] 0, .put "b" [2] 1, .get "a"]

theorem run_keyMap_two :
    ((FsBackend.mk "root".toList).execAll twoCalls .empty).map (·.1)
      = some (KeyMap.empty.replies twoCalls) := by
  have hfirst : ∀ other data, KeyMap.empty.after (.put "a" [1] 0) other = some data →
      other = "a" := by
    intro other data h
    by_contra hne
    rw [KeyMap.after, Function.update_of_ne hne] at h
    cases h
  have hapart : KeyMap.empty.AllApart (.mk "root".toList) twoCalls := by
    have hempty (other : String) (data : Bytes) : KeyMap.empty other ≠ some data :=
      (Option.some_ne_none data).symm
    refine ⟨⟨fun _ _ _ h ↦ absurd h (hempty _ _), fun _ _ h ↦ absurd h (hempty _ _)⟩,
      ⟨fun _ other data h _ ↦ ?_, fun other data h ↦ ?_⟩, ⟨fun _ other data h hne ↦ ?_, trivial⟩,
      trivial⟩
    · rw [hfirst other data h]
      decide
    · rw [hfirst other data h]
      decide
    · rw [KeyMap.after] at h
      by_cases hb : other = "b"
      · rw [hb]
        decide
      · rw [Function.update_of_ne hb] at h
        exact absurd (hfirst other data h) hne
  cases hrun : (FsBackend.mk "root".toList).execAll twoCalls .empty with
  | none => exact absurd (congrArg Option.isSome hrun) (by decide)
  | some r => exact congrArg some (run_keyMap (.mk "root".toList) twoCalls r.1 r.2 hrun hapart).1

/-- Two spellings of one path are two keys for one file. -/
theorem not_keyMap : ¬∀ (self : FsBackend) (calls : List FsCall) (replies : List (Option Bytes))
    (fs : FileSystem), self.execAll calls .empty = some (replies, fs) →
      replies = KeyMap.empty.replies calls := by
  intro h
  have hrun : ((FsBackend.mk "root".toList).execAll
      [.put "a" [1] 0, .put "./a" [2] 1, .get "a"] .empty).map (·.1)
        = some [none, none, some [2]] := by decide
  obtain ⟨⟨replies, fs⟩, hrun, hreplies⟩ := Option.map_eq_some_iff.mp hrun
  have heq := h _ _ _ _ hrun
  rw [show replies = [none, none, some [2]] from hreplies] at heq
  exact absurd heq (by decide)

/-- A temporary file takes the place of a key with its name. -/
example : ((FsBackend.mk "root".toList).execAll
    [.put "a.0.tmp" [1] 7, .put "a" [2] 0, .get "a.0.tmp"] .empty).map (·.1)
      = some [none, none, none] := by decide

end FsBackend

end Chunkstore

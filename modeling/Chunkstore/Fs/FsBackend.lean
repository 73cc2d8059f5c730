import Chunkstore.Core.Persistence
import Chunkstore.Data.UnixPath

/-!
# Keys on the file system

How the file-system backend turns a key into a path on Unix (`fs_backend.rs`), and which keys it
takes: those whose path stays below the root. The path of a key is its text joined to the root, so a
path that is not normalised is what the file system is asked for; what it leads to is
`UnixPath.normalise`.

## Main result

* `FsBackend.keyToPath_confined`: the accepted keys are exactly those that name something below the
  root, each leads to its own segments there, and the record of a file stays apart from the chunks
  and the reference counts.
-/

namespace Chunkstore

open UnixPath (Path Component)

/-- Filesystem-backed chunk and metadata storage. -/
structure FsBackend where
  root : Path

namespace FsBackend

variable (self : FsBackend)

/-- The check of one component of a key. -/
def checkComponent (key : String) : Component → Except ChunkStoreError Unit
  | .normal _ => .ok ()
  | .curDir => .ok ()
  | _ => .error (.invalidArgument s!"invalid key path component in {key}")

def keyToPath (key : String) : Except ChunkStoreError Path := do
  if key.isEmpty then throw (.invalidArgument "key cannot be empty")
  if '\\' ∈ key.toList then throw (.invalidArgument "key cannot contain backslashes")
  let rel := key.toList
  (UnixPath.components rel).forM (checkComponent key)
  let path := UnixPath.join self.root rel
  if !UnixPath.startsWith path self.root then
    throw (.invalidArgument s!"key escapes backend root: {key}")
  return path

/-! ## Which keys are accepted -/

/-- A key that names something below the root: not empty, without a backslash, relative, and without
a segment `..`. -/
structure Accepts (key : String) : Prop where
  nonempty : key ≠ ""
  plain : '\\' ∉ key.toList
  relative : key.toList.head? ≠ some '/'
  inside : ['.', '.'] ∉ UnixPath.segments key.toList

variable {self} {key : String} {path : Path}

theorem isAbsolute_eq_false {p : Path} : UnixPath.isAbsolute p = false ↔ p.head? ≠ some '/' := by
  rw [UnixPath.isAbsolute, beq_eq_false_iff_ne]

private theorem forM_checkComponent (key : String) (cs : List Component) :
    cs.forM (checkComponent key)
      = if Component.rootDir ∈ cs ∨ Component.parentDir ∈ cs then
          .error (.invalidArgument s!"invalid key path component in {key}")
        else .ok () := by
  induction cs with
  | nil => rfl
  | cons c cs ih =>
    rw [List.forM_eq_forM] at ih
    rw [List.forM_eq_forM, List.forM_cons]
    cases c with
    | rootDir => rfl
    | parentDir => simp [checkComponent]; rfl
    | curDir => exact ih.trans (if_congr (by simp) rfl rfl)
    | normal name => exact ih.trans (if_congr (by simp) rfl rfl)

theorem rootDir_or_parentDir_mem_components {p : Path} :
    Component.rootDir ∈ UnixPath.components p ∨ Component.parentDir ∈ UnixPath.components p ↔
      p.head? = some '/' ∨ ['.', '.'] ∈ UnixPath.segments p := by
  have hroot : Component.rootDir ∉ UnixPath.body p := fun h ↦ by
    rcases UnixPath.isNormal_or_parentDir_of_mem_body h with ⟨_, h⟩ | h <;> cases h
  rw [UnixPath.components, List.mem_append, List.mem_append, UnixPath.parentDir_mem_body_iff]
  cases ha : UnixPath.isAbsolute p with
  | true =>
    rw [UnixPath.isAbsolute, beq_iff_eq] at ha
    simp [ha]
  | false =>
    have ha' := isAbsolute_eq_false.mp ha
    cases UnixPath.beginsWithCurDir p with
    | true => simp [ha', hroot]
    | false => simp [ha', hroot]

/-- **`key_to_path`**: three checks, each with its error, and the key joined to the root. The last
check of the source never fails. -/
theorem keyToPath_eq (self : FsBackend) (key : String) :
    self.keyToPath key
      = if key = "" then .error (.invalidArgument "key cannot be empty")
        else if '\\' ∈ key.toList then .error (.invalidArgument "key cannot contain backslashes")
        else if key.toList.head? = some '/' ∨ ['.', '.'] ∈ UnixPath.segments key.toList then
          .error (.invalidArgument s!"invalid key path component in {key}")
        else .ok (UnixPath.join self.root key.toList) := by
  rw [keyToPath]
  by_cases hempty : key = ""
  · rw [if_pos (String.isEmpty_iff.mpr hempty), if_pos hempty]
    rfl
  rw [if_neg (mt String.isEmpty_iff.mp hempty), if_neg hempty]
  by_cases hplain : '\\' ∈ key.toList
  · rw [if_pos hplain, if_pos hplain]
    rfl
  rw [if_neg hplain, if_neg hplain]
  dsimp only
  rw [forM_checkComponent]
  simp only [rootDir_or_parentDir_mem_components]
  by_cases hbad : key.toList.head? = some '/' ∨ ['.', '.'] ∈ UnixPath.segments key.toList
  · rw [if_pos hbad, if_pos hbad]
    rfl
  · rw [if_neg hbad, if_neg hbad, UnixPath.startsWith_join self.root
      (isAbsolute_eq_false.mpr fun h ↦ hbad (Or.inl h))]
    rfl

theorem keyToPath_eq_ok_iff :
    self.keyToPath key = .ok path ↔ Accepts key ∧ path = UnixPath.join self.root key.toList := by
  rw [keyToPath_eq]
  constructor
  · intro h
    split at h
    · cases h
    · rename_i hempty
      split at h
      · cases h
      · rename_i hplain
        split at h
        · cases h
        · rename_i hbad
          cases h
          exact ⟨⟨hempty, hplain, fun h ↦ hbad (Or.inl h), fun h ↦ hbad (Or.inr h)⟩, rfl⟩
  · rintro ⟨h, rfl⟩
    rw [if_neg h.nonempty, if_neg h.plain, if_neg (not_or.mpr ⟨h.relative, h.inside⟩)]

/-- An accepted key leads to its segments below the root. -/
theorem normalise_of_keyToPath (h : self.keyToPath key = .ok path) :
    UnixPath.normalise path
      = UnixPath.normalise self.root ++ (UnixPath.names key.toList).map .normal := by
  obtain ⟨ha, rfl⟩ := keyToPath_eq_ok_iff.mp h
  exact UnixPath.normalise_join_of_not_mem self.root (isAbsolute_eq_false.mpr ha.relative) ha.inside

/-! ## The first segment of a key -/

def manifestDir : Path := "_manifest".toList

def refcountDir : Path := "_refcount".toList

theorem names_append_sep (p q : Path) :
    UnixPath.names (p ++ '/' :: q) = UnixPath.names p ++ UnixPath.names q := by
  rw [UnixPath.names, UnixPath.segments_append_sep, List.filter_append]
  rfl

theorem names_manifestKey (fileId : String) :
    UnixPath.names (manifestKey fileId).toList
      = manifestDir :: UnixPath.names fileId.toList := by
  have hkey : (manifestKey fileId).toList = manifestDir ++ '/' :: fileId.toList := by
    rw [toList_manifestKey]
    rfl
  rw [hkey, names_append_sep]
  rfl

private theorem names_refcountKey (digest : String) :
    UnixPath.names (refcountKey digest).toList
      = refcountDir :: UnixPath.names digest.toList := by
  have hkey : (refcountKey digest).toList = refcountDir ++ '/' :: digest.toList := by
    rw [toList_refcountKey]
    rfl
  rw [hkey, names_append_sep]
  rfl

private theorem names_of_isChunkDigest {digest : String} (h : isChunkDigest digest = true) :
    ∀ name ∈ UnixPath.names digest.toList, name = digest.toList := by
  have hslash : '/' ∉ digest.toList := fun hmem ↦ by
    rw [isChunkDigest_eq_false hmem (by decide)] at h
    cases h
  intro name hname
  have hseg := (List.mem_filter.mp hname).1
  rw [UnixPath.segments, List.splitOn_eq_singleton hslash] at hseg
  exact List.mem_singleton.mp hseg

private theorem toList_ne_manifestDir {digest : String} (h : isChunkDigest digest = true) :
    digest.toList ≠ manifestDir := fun heq ↦ by
  rw [isChunkDigest_eq_false (c := '_') (by rw [heq]; decide) (by decide)] at h
  cases h

/-- **`FsBackend` confines every key.** A key is accepted exactly when it is not empty, has no
backslash, does not begin with `/` and has no segment `..`. Its path then leads to the non-empty
segments other than `.` below the root. The record of a file is at or below the manifests, and leads
neither to a chunk nor to a reference count. -/
theorem keyToPath_confined (self : FsBackend) (key : String) :
    ((∃ path, self.keyToPath key = .ok path) ↔
        key ≠ "" ∧ '\\' ∉ key.toList ∧ key.toList.head? ≠ some '/' ∧
          ['.', '.'] ∉ key.toList.splitOn '/') ∧
      (∀ path, self.keyToPath key = .ok path →
        UnixPath.normalise path = UnixPath.normalise self.root
          ++ ((key.toList.splitOn '/').filter fun s ↦ s ≠ [] ∧ s ≠ ['.']).map .normal) ∧
      ∀ fileId path, self.keyToPath (manifestKey fileId) = .ok path →
        UnixPath.normalise self.root ++ [.normal "_manifest".toList] <+: UnixPath.normalise path ∧
          ∀ other path', isChunkDigest other = true ∨ (∃ digest, other = refcountKey digest) →
            self.keyToPath other = .ok path' →
              UnixPath.normalise path' ≠ UnixPath.normalise path := by
  refine ⟨⟨?_, ?_⟩, fun path h ↦ ?_, fun fileId path h ↦ ?_⟩
  · rintro ⟨path, h⟩
    obtain ⟨ha, -⟩ := keyToPath_eq_ok_iff.mp h
    exact ⟨ha.nonempty, ha.plain, ha.relative, ha.inside⟩
  · rintro ⟨hne, hplain, hrel, hin⟩
    exact ⟨_, keyToPath_eq_ok_iff.mpr ⟨⟨hne, hplain, hrel, hin⟩, rfl⟩⟩
  · rw [normalise_of_keyToPath h]
    rfl
  · have hpath := normalise_of_keyToPath h
    rw [names_manifestKey, List.map_cons] at hpath
    refine ⟨⟨(UnixPath.names fileId.toList).map .normal, ?_⟩, fun other path' hother h' heq ↦ ?_⟩
    · rw [hpath, List.append_assoc]
      rfl
    · rw [hpath, normalise_of_keyToPath h', List.append_cancel_left_eq] at heq
      rcases hother with hdigest | ⟨digest, rfl⟩
      · -- the first segment of the chunk's path would be the directory of the manifests
        obtain ⟨name, hname, hdir⟩ := List.mem_map.mp (heq ▸ List.mem_cons_self :
          Component.normal manifestDir ∈ (UnixPath.names other.toList).map .normal)
        cases hdir
        exact toList_ne_manifestDir hdigest (names_of_isChunkDigest hdigest _ hname).symm
      · rw [names_refcountKey, List.map_cons] at heq
        exact absurd (Component.normal.inj (List.cons.inj heq).1) (by decide)

example : (FsBackend.mk "store".toList).keyToPath "../escape"
    = .error (.invalidArgument "invalid key path component in ../escape") := by decide

end FsBackend

end Chunkstore

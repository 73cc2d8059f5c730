import Chunkstore.Data.UnixPath
import Mathlib.Algebra.Order.BigOperators.Group.List
import Mathlib.Algebra.Order.Ring.Nat
import Mathlib.Data.List.DropRight

/-!
# Which paths the system takes

A system call turns a path down that has a NUL or is too long, and one that has a name that is too
long. The limits are those of Linux, in bytes of UTF-8.

A file that is written under a temporary name needs room for that name too: `Admissible.rename` says
how much.
-/

namespace UnixPath

/-- The most bytes of a name (`NAME_MAX`). -/
def nameMax : ℕ := 255

/-- The most bytes of a path, with the one that ends it (`PATH_MAX`). -/
def pathMax : ℕ := 4096

def byteLength (p : Path) : ℕ := (p.map Char.utf8Size).sum

/-- A path that the system looks at. -/
structure Passable (p : Path) : Prop where
  noNul : '\x00' ∉ p
  short : byteLength p < pathMax

/-- A path that there can be a file under. -/
structure Admissible (p : Path) : Prop extends Passable p where
  names : ∀ s ∈ segments p, byteLength s ≤ nameMax

instance (p : Path) : Decidable (Passable p) :=
  decidable_of_iff ('\x00' ∉ p ∧ byteLength p < pathMax)
    ⟨fun h ↦ ⟨h.1, h.2⟩, fun h ↦ ⟨h.noNul, h.short⟩⟩

instance (p : Path) : Decidable (Admissible p) :=
  decidable_of_iff (Passable p ∧ ∀ s ∈ segments p, byteLength s ≤ nameMax)
    ⟨fun h ↦ ⟨h.1, h.2⟩, fun h ↦ ⟨h.toPassable, h.names⟩⟩

/-- The segments of `Path::parent`, which has nothing at its end but its first segment and names. -/
def parentSegments (p : Path) : List Path :=
  match (segments p).dropLast with
  | [] => []
  | s :: parent => s :: parent.rdropWhile fun t ↦ !isName t

/-- `Path::with_file_name`, for a path that ends in a name. -/
def withFileName (p name : Path) : Path := ['/'].intercalate (parentSegments p ++ [name])

variable {p q s last : Path} {parent : List Path}

/-! ## Lengths -/

theorem byteLength_append (p q : Path) : byteLength (p ++ q) = byteLength p + byteLength q := by
  rw [byteLength, List.map_append, List.sum_append]
  rfl

theorem byteLength_of_ascii (h : ∀ c ∈ p, c.utf8Size = 1) : byteLength p = p.length := by
  induction p with
  | nil => rfl
  | cons c p ih =>
    obtain ⟨hc, hp⟩ := List.forall_mem_cons.mp h
    rw [← List.singleton_append, byteLength_append, ih hp, List.length_append]
    exact congrArg (· + p.length) hc

theorem byteLength_toList (s : String) : byteLength s.toList = s.utf8ByteSize := by
  rw [← String.ofList_toList (s := s)]
  generalize s.toList = l
  rw [String.toList_ofList]
  induction l with
  | nil => rfl
  | cons c l ih =>
    rw [String.ofList_cons, String.utf8ByteSize_append, String.utf8ByteSize_singleton, ← ih]
    rfl

/-- Each segment takes a byte for the separator, but the last. -/
private theorem byteLength_intercalate {l : List Path} (hl : l ≠ []) :
    byteLength (['/'].intercalate l) + 1 = (l.map fun s ↦ byteLength s + 1).sum := by
  induction l with
  | nil => exact absurd rfl hl
  | cons s l ih =>
    cases l with
    | nil => rw [List.intercalate_singleton, List.map_singleton, List.sum_singleton]
    | cons t l =>
      rw [List.map_cons, List.sum_cons, ← ih (List.cons_ne_nil t l), List.intercalate_cons_cons,
        byteLength_append, byteLength_append]
      change byteLength s + 1 + _ + 1 = _
      omega

/-! ## Temporary names -/

theorem parentSegments_sublist (p : Path) : (parentSegments p).Sublist (segments p).dropLast := by
  rw [parentSegments]
  split
  · exact List.nil_sublist _
  · rename_i s parent h
    rw [h]
    exact (List.rdropWhile_prefix _ _).sublist.cons_cons s

/-- **A file next to another.** What its name adds to that of the other has to fit into the
limits. -/
theorem Admissible.rename (h : Admissible p) (hlast : (segments p).getLast? = some last)
    (hparent : parent.Sublist (segments p).dropLast) (hsep : '/' ∉ s) (hnul : '\x00' ∉ s)
    (hname : byteLength last + byteLength s ≤ nameMax)
    (hpath : byteLength p + byteLength s < pathMax) :
    Admissible (['/'].intercalate (parent ++ [last ++ s])) := by
  obtain ⟨front, hfront⟩ := List.getLast?_eq_some_iff.mp hlast
  rw [hfront, List.dropLast_concat] at hparent
  have hmem : ∀ t ∈ parent ++ [last ++ s], t ∈ segments p ∨ t = last ++ s := by
    intro t ht
    rcases List.mem_append.mp ht with ht | ht
    · exact Or.inl (hfront ▸ List.mem_append_left _ (hparent.subset ht))
    · exact Or.inr (List.mem_singleton.mp ht)
  have hne : parent ++ [last ++ s] ≠ [] :=
    List.append_ne_nil_of_right_ne_nil _ (List.cons_ne_nil _ [])
  have hmemLast : last ∈ segments p := List.mem_of_getLast? hlast
  refine ⟨⟨fun hc ↦ ?_, ?_⟩, fun t ht ↦ ?_⟩
  · rcases mem_of_mem_intercalate hc with hc | ⟨t, ht, hc⟩
    · exact absurd hc (by decide)
    · rcases hmem t ht with ht | rfl
      · exact h.noNul (mem_of_mem_segments ht hc)
      · exact (List.mem_append.mp hc).elim (fun hc ↦ h.noNul (mem_of_mem_segments hmemLast hc)) hnul
  · -- the parent has no segment that was not there
    have hsum := (hparent.map fun t ↦ byteLength t + 1).sum_le_sum fun _ _ ↦ Nat.zero_le _
    have hold := byteLength_intercalate (List.splitOn_ne_nil '/' p)
    have hnew := byteLength_intercalate hne
    change byteLength (['/'].intercalate (segments p)) + 1 = ((segments p).map _).sum at hold
    rw [intercalate_segments, hfront, List.map_append, List.sum_append, List.map_singleton,
      List.sum_singleton] at hold
    rw [List.map_append, List.sum_append, List.map_singleton, List.sum_singleton,
      byteLength_append] at hnew
    omega
  · rw [segments, List.splitOn_intercalate '/' (fun t ht ↦ ?_) hne] at ht
    · rcases hmem t ht with ht | rfl
      · exact h.names t ht
      · rwa [byteLength_append]
    · rcases hmem t ht with ht | rfl
      · exact not_mem_of_mem_segments ht
      · rw [List.mem_append, not_or]
        exact ⟨not_mem_of_mem_segments hmemLast, hsep⟩

/-! ## Joined paths -/

theorem segments_join (p : Path) (hq : isAbsolute q = false) :
    ∃ front, segments (join p q) = front ++ segments q ∧ ∀ s ∈ front, s ∈ segments p := by
  rw [join, if_neg (Bool.eq_false_iff.mp hq)]
  split
  · rename_i h
    -- no separator is put after nothing, or after one
    by_cases hp : p = []
    · exact ⟨[], by rw [hp]; rfl, fun s hs ↦ absurd hs List.not_mem_nil⟩
    · obtain ⟨front, rfl⟩ := List.getLast?_eq_some_iff.mp (h.resolve_left hp)
      rw [List.append_assoc, List.singleton_append, segments_append_sep, segments_append_sep]
      exact ⟨_, rfl, fun s hs ↦ List.mem_append_left _ hs⟩
  · exact ⟨_, segments_append_sep p q, fun s hs ↦ hs⟩

theorem byteLength_join_le (p : Path) (hq : isAbsolute q = false) :
    byteLength (join p q) ≤ byteLength p + 1 + byteLength q := by
  rw [join, if_neg (Bool.eq_false_iff.mp hq)]
  split
  · rw [byteLength_append]
    omega
  · rw [byteLength_append]
    change byteLength p + (1 + byteLength q) ≤ _
    omega

private theorem mem_join {c : Char} (h : c ∈ join p q) : c ∈ p ∨ c = '/' ∨ c ∈ q := by
  rw [join] at h
  split at h
  · exact Or.inr (Or.inr h)
  · split at h
    · exact (List.mem_append.mp h).imp_right Or.inr
    · rwa [List.mem_append, List.mem_cons] at h

/-- A joined path is admissible if there is room for both. -/
theorem admissible_join (hp : ∀ s ∈ segments p, byteLength s ≤ nameMax)
    (hq : ∀ s ∈ segments q, byteLength s ≤ nameMax) (hrel : isAbsolute q = false)
    (hnul : '\x00' ∉ p) (hnul' : '\x00' ∉ q)
    (hpath : byteLength p + 1 + byteLength q < pathMax) : Admissible (join p q) := by
  obtain ⟨front, hjoin, hfront⟩ := segments_join p hrel
  refine ⟨⟨fun hc ↦ ?_, (byteLength_join_le p hrel).trans_lt hpath⟩, fun s hs ↦ ?_⟩
  · rcases mem_join hc with hc | hc | hc
    · exact hnul hc
    · exact absurd hc (by decide)
    · exact hnul' hc
  · rw [hjoin, List.mem_append] at hs
    exact hs.elim (fun hs ↦ hp s (hfront s hs)) (hq s)

end UnixPath

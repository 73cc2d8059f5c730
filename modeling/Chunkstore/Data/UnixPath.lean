import Mathlib.Data.List.Basic
import Mathlib.Data.List.Infix

/-!
# Unix paths

Paths as a Unix file system and the standard library of Rust read them. A path is a text; `/`
separates its segments, empty segments and `.` are skipped, and `..` is kept as a component of its
own. A leading `/` makes it absolute, and a leading `.` is the one `.` that is a component.

`join` is textual, so where a joined path leads to has to be derived: `normalise_join` says that the
names of a relative path are walked from where the base leads.
-/

namespace UnixPath

/-- The text of a path. The characters that matter are ASCII. -/
abbrev Path := List Char

/-- A component of a path. -/
inductive Component
  | rootDir
  | curDir
  | parentDir
  | normal (name : Path)
  deriving DecidableEq, Repr

def segments (p : Path) : List Path := p.splitOn '/'

/-- What a segment behind the front of a path stands for. -/
def parseSegment (s : Path) : Option Component :=
  if s = [] ∨ s = ['.'] then none else if s = ['.', '.'] then some .parentDir else some (.normal s)

/-- A segment that is a name, neither empty nor `.`. -/
def isName (s : Path) : Bool := s ≠ [] ∧ s ≠ ['.']

/-- The non-empty segments other than `.`. -/
def names (p : Path) : List Path := (segments p).filter isName

/-- The components behind the front. -/
def body (p : Path) : List Component := (segments p).filterMap parseSegment

def isAbsolute (p : Path) : Bool := p.head? == some '/'

/-- Whether a relative path begins with a segment `.`. -/
def beginsWithCurDir : Path → Bool
  | ['.'] => true
  | '.' :: '/' :: _ => true
  | _ => false

/-- `Path::components`. -/
def components (p : Path) : List Component :=
  (if isAbsolute p then [.rootDir] else if beginsWithCurDir p then [.curDir] else []) ++ body p

/-- `Path::join`: an absolute path replaces the base, any other is appended behind a separator. -/
def join (p q : Path) : Path :=
  if isAbsolute q then q
  else if p = [] ∨ p.getLast? = some '/' then p ++ q
  else p ++ '/' :: q

/-- `Path::starts_with`, which compares components. -/
def startsWith (p q : Path) : Bool := (components q).isPrefixOf (components p)

/-- One step of a walk: `..` goes back where there is somewhere to go back from. -/
def walk : List Component → Component → List Component
  | at_, .curDir => at_
  | at_, .rootDir => at_ ++ [.rootDir]
  | at_, .normal name => at_ ++ [.normal name]
  | at_, .parentDir =>
    match at_.getLast? with
    | some (.normal _) => at_.dropLast
    | some .rootDir => at_
    | _ => at_ ++ [.parentDir]

/-- Where a path leads to: its components without `.`, and without `..` as far as possible. -/
def normalise (p : Path) : List Component := (components p).foldl walk []

/-! ## Segments -/

variable {p q : Path} {s : Path}

theorem not_mem_of_mem_segments (h : s ∈ segments p) : '/' ∉ s := by
  rw [segments, List.splitOn_eq_splitOnP] at h
  induction p generalizing s with
  | nil =>
    rw [List.mem_singleton.mp h]
    exact List.not_mem_nil
  | cons c p ih =>
    rw [List.splitOnP_cons_eq_if_modifyHead] at h
    split at h
    · rcases List.mem_cons.mp h with rfl | h
      · exact List.not_mem_nil
      · exact ih h
    · rename_i hc
      -- the first segment of the rest grows by one character
      cases hsplit : p.splitOnP (· == '/') with
      | nil => exact absurd hsplit (List.splitOnP_ne_nil _ _)
      | cons t l =>
        rw [hsplit] at h ih
        rcases List.mem_cons.mp h with rfl | h
        · rw [List.mem_cons, not_or]
          exact ⟨fun heq ↦ hc (by rw [← heq]; rfl), ih List.mem_cons_self⟩
        · exact ih (List.mem_cons_of_mem t h)

theorem segments_append_sep (p q : Path) : segments (p ++ '/' :: q) = segments p ++ segments q :=
  List.splitOn_append_cons_self p q

theorem body_append_sep (p q : Path) : body (p ++ '/' :: q) = body p ++ body q := by
  rw [body, segments_append_sep, List.filterMap_append]
  rfl

theorem mem_body_iff {c : Component} : c ∈ body p ↔ ∃ s ∈ segments p, parseSegment s = some c :=
  List.mem_filterMap

private theorem parseSegment_eq_parentDir : parseSegment s = some .parentDir ↔ s = ['.', '.'] := by
  rw [parseSegment]
  split
  · rename_i h
    constructor
    · intro h'
      cases h'
    · rintro rfl
      rcases h with h | h <;> cases h
  · split
    · rename_i h
      exact ⟨fun _ ↦ h, fun _ ↦ rfl⟩
    · rename_i h
      exact ⟨fun h' ↦ (nomatch h'), fun h' ↦ absurd h' h⟩

theorem isNormal_or_parentDir_of_mem_body {c : Component} (h : c ∈ body p) :
    (∃ name, c = .normal name) ∨ c = .parentDir := by
  obtain ⟨s, -, hs⟩ := mem_body_iff.mp h
  rw [parseSegment] at hs
  split at hs
  · cases hs
  · split at hs
    · cases hs
      exact Or.inr rfl
    · cases hs
      exact Or.inl ⟨s, rfl⟩

theorem parentDir_mem_body_iff : Component.parentDir ∈ body p ↔ ['.', '.'] ∈ segments p := by
  rw [mem_body_iff]
  constructor
  · rintro ⟨s, hs, hc⟩
    exact parseSegment_eq_parentDir.mp hc ▸ hs
  · exact fun h ↦ ⟨_, h, parseSegment_eq_parentDir.mpr rfl⟩

theorem body_of_not_mem (h : ['.', '.'] ∉ segments p) :
    body p = (names p).map .normal := by
  rw [body, names]
  revert h
  generalize segments p = l
  intro h
  induction l with
  | nil => rfl
  | cons s l ih =>
    obtain ⟨hs, hl⟩ := not_or.mp (mt List.mem_cons.mpr h)
    by_cases hskip : s = [] ∨ s = ['.']
    · have hnone : parseSegment s = none := by rw [parseSegment, if_pos hskip]
      have hkeep : ¬isName s = true := by
        rw [isName, decide_eq_true_iff, not_and_or, not_not, not_not]
        exact hskip
      rw [List.filterMap_cons_none hnone, List.filter_cons_of_neg hkeep, ih hl]
    · have hsome : parseSegment s = some (.normal s) := by
        rw [parseSegment, if_neg hskip, if_neg (Ne.symm hs)]
      have hkeep : isName s = true := by
        rw [isName, decide_eq_true_iff]
        exact not_or.mp hskip
      rw [List.filterMap_cons_some hsome, List.filter_cons_of_pos hkeep, ih hl, List.map_cons]

/-! ## Texts made of segments -/

theorem intercalate_append {l l' : List Path} (hl : l ≠ []) (hl' : l' ≠ []) :
    ['/'].intercalate (l ++ l') = ['/'].intercalate l ++ '/' :: ['/'].intercalate l' := by
  induction l with
  | nil => exact absurd rfl hl
  | cons s l ih =>
    cases l with
    | nil =>
      rw [List.singleton_append, List.intercalate_cons_of_ne_nil hl', List.intercalate_singleton,
        List.append_assoc, List.singleton_append]
    | cons t l =>
      rw [List.cons_append, List.intercalate_cons_of_ne_nil (List.append_ne_nil_of_left_ne_nil
        (List.cons_ne_nil t l) l'), ih (List.cons_ne_nil t l), List.intercalate_cons_cons]
      simp only [List.append_assoc]

theorem intercalate_concat_append (l : List Path) (s t : Path) :
    ['/'].intercalate (l ++ [s]) ++ t = ['/'].intercalate (l ++ [s ++ t]) := by
  by_cases hl : l = []
  · rw [hl, List.nil_append, List.nil_append, List.intercalate_singleton,
      List.intercalate_singleton]
  · rw [intercalate_append hl (List.cons_ne_nil _ _), intercalate_append hl (List.cons_ne_nil _ _),
      List.intercalate_singleton, List.intercalate_singleton, List.append_assoc, List.cons_append]

theorem intercalate_segments (p : Path) : ['/'].intercalate (segments p) = p :=
  List.intercalate_splitOn '/'

theorem mem_of_mem_intercalate {l : List Path} {c : Char} (h : c ∈ ['/'].intercalate l) :
    c = '/' ∨ ∃ s ∈ l, c ∈ s := by
  induction l with
  | nil => exact absurd h List.not_mem_nil
  | cons s l ih =>
    by_cases hl : l = []
    · rw [hl, List.intercalate_singleton] at h
      exact Or.inr ⟨s, List.mem_cons_self, h⟩
    · rw [List.intercalate_cons_of_ne_nil hl, List.mem_append, List.mem_append] at h
      rcases h with (h | h) | h
      · exact Or.inr ⟨s, List.mem_cons_self, h⟩
      · exact Or.inl (List.mem_singleton.mp h)
      · exact (ih h).imp_right fun ⟨t, ht, hc⟩ ↦ ⟨t, List.mem_cons_of_mem s ht, hc⟩

theorem not_mem_of_segments {c : Char} (hc : c ≠ '/') (h : ∀ s ∈ segments p, c ∉ s) : c ∉ p := by
  intro hmem
  rw [← intercalate_segments p] at hmem
  rcases mem_of_mem_intercalate hmem with hsep | ⟨s, hs, hmem⟩
  · exact hc hsep
  · exact h s hs hmem

private theorem mem_intercalate_of_mem {l : List Path} {c : Char} (hs : s ∈ l) (hc : c ∈ s) :
    c ∈ ['/'].intercalate l := by
  induction l with
  | nil => exact absurd hs List.not_mem_nil
  | cons t l ih =>
    by_cases hl : l = []
    · rw [hl, List.mem_singleton] at hs
      rwa [hl, List.intercalate_singleton, ← hs]
    · rw [List.intercalate_cons_of_ne_nil hl, List.mem_append, List.mem_append]
      rcases List.mem_cons.mp hs with rfl | hs
      · exact Or.inl (Or.inl hc)
      · exact Or.inr (ih hs)

theorem mem_of_mem_segments {c : Char} (hs : s ∈ segments p) (hc : c ∈ s) : c ∈ p :=
  intercalate_segments p ▸ mem_intercalate_of_mem hs hc

/-! ## Joining -/

theorem isAbsolute_append (h : p ≠ []) (q : Path) : isAbsolute (p ++ q) = isAbsolute p := by
  rw [isAbsolute, isAbsolute, List.head?_append_of_ne_nil _ h]

/-- Whether a path begins with `.` shows before its first separator. -/
private theorem beginsWithCurDir_append_sep (h : p ≠ []) (q : Path) :
    beginsWithCurDir (p ++ '/' :: q) = beginsWithCurDir p := by
  match p with
  | [] => exact absurd rfl h
  | [c] =>
    by_cases hc : c = '.'
    · subst hc
      rfl
    · rw [List.singleton_append, beginsWithCurDir, beginsWithCurDir]
      all_goals simp_all
  | c :: c' :: p =>
    rw [List.cons_append, List.cons_append]
    by_cases hc : c = '.' ∧ c' = '/'
    · obtain ⟨rfl, rfl⟩ := hc
      rfl
    · rw [beginsWithCurDir, beginsWithCurDir]
      all_goals simp_all

private theorem components_append_sep (h : p ≠ []) (q : Path) :
    components (p ++ '/' :: q) = components p ++ body q := by
  rw [components, components, isAbsolute_append h, beginsWithCurDir_append_sep h, body_append_sep,
    List.append_assoc]

/-- **Joining.** A relative path adds its names behind the components of a base. -/
theorem components_join (hp : p ≠ []) (hq : isAbsolute q = false) :
    components (join p q) = components p ++ body q := by
  rw [join, if_neg (Bool.eq_false_iff.mp hq)]
  split
  · rename_i h
    obtain ⟨front, rfl⟩ := List.getLast?_eq_some_iff.mp (h.resolve_left hp)
    rw [List.append_assoc, List.singleton_append]
    by_cases hfront : front = []
    · subst hfront
      rfl
    · rw [components_append_sep hfront, components_append_sep hfront]
      exact congrArg (· ++ body q) (List.append_nil _).symm
  · exact components_append_sep hp q

private theorem join_nil (hq : isAbsolute q = false) : join [] q = q := by
  rw [join, if_neg (Bool.eq_false_iff.mp hq), if_pos (Or.inl rfl), List.nil_append]

/-- A joined relative path is found below the base. -/
theorem startsWith_join (p : Path) (hq : isAbsolute q = false) :
    startsWith (join p q) p = true := by
  rw [startsWith, List.isPrefixOf_iff_prefix]
  by_cases hp : p = []
  · subst hp
    exact List.nil_prefix
  · rw [components_join hp hq]
    exact List.prefix_append _ _

/-! ## Where a path leads to -/

private theorem foldl_walk_normal (names : List Path) (start : List Component) :
    (names.map Component.normal).foldl walk start = start ++ names.map .normal := by
  induction names generalizing start with
  | nil => exact (List.append_nil start).symm
  | cons name names ih =>
    rw [List.map_cons, List.foldl_cons, ih, walk, List.append_assoc, List.singleton_append]

/-- The names of a relative path are walked from where the base leads to. -/
private theorem normalise_join (p : Path) (hq : isAbsolute q = false) :
    normalise (join p q) = (body q).foldl walk (normalise p) := by
  by_cases hp : p = []
  · subst hp
    rw [join_nil hq, normalise, components, hq]
    cases beginsWithCurDir q with
    | false => rfl
    | true => rfl
  · rw [normalise, components_join hp hq, List.foldl_append]
    rfl

/-- **Confinement.** A relative path without `..` leads from a base to the names it is made of. -/
theorem normalise_join_of_not_mem (p : Path) (hq : isAbsolute q = false)
    (h : ['.', '.'] ∉ segments q) :
    normalise (join p q) = normalise p ++ (names q).map .normal := by
  rw [normalise_join p hq, body_of_not_mem h, foldl_walk_normal]

end UnixPath

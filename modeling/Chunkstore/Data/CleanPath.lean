import Chunkstore.Data.UnixPath

/-!
# Cleaned paths

Go's `path/filepath` on Unix. Unlike the paths of Rust, a path is rewritten before it is used:
`Clean` drops empty segments and `.`, and takes every `..` together with the segment before it.
Where that leaves a `..` at the front, the path climbs out of the directory it is relative to.

`place_join` says where a joined path leads, and `abs_eq` that the absolute path is the text of it.
-/

namespace CleanPath

open UnixPath (Path segments isAbsolute isName)

def dotdot : Path := ['.', '.']

/-- One segment in `Clean`. Above the root there is nothing, so a rooted path drops a `..` there. -/
def step (rooted : Bool) (out : List Path) (s : Path) : List Path :=
  if !isName s then out
  else if s = dotdot then
    if out = [] then (if rooted then [] else [dotdot])
    else if out.getLast? = some dotdot then out ++ [dotdot]
    else out.dropLast
  else out ++ [s]

/-- The segments that `Clean` leaves. -/
def elements (p : Path) : List Path := (segments p).foldl (step (isAbsolute p)) []

/-- `filepath.Clean`. -/
def clean (p : Path) : Path :=
  if isAbsolute p then '/' :: ['/'].intercalate (elements p)
  else if elements p = [] then ['.']
  else ['/'].intercalate (elements p)

/-- `filepath.Join` of two paths. -/
def join (p q : Path) : Path :=
  if p = [] then (if q = [] then [] else clean q) else clean (p ++ '/' :: q)

/-- `filepath.Abs`, in a working directory. -/
def abs (cwd p : Path) : Path := if isAbsolute p then clean p else join cwd p

/-! ## The elements -/

variable {p q cwd : Path} {s : Path} {out base : List Path}

/-- A step keeps the elements or takes the last one away, or adds its segment. -/
theorem mem_step {rooted : Bool} {t : Path} (h : t ∈ step rooted out s) :
    t ∈ out ∨ t = s ∧ isName s = true := by
  rw [step] at h
  split at h
  · exact Or.inl h
  · rename_i hs
    have hname : isName s = true := by simpa using hs
    split at h
    · rename_i hdot
      split at h
      · split at h
        · exact absurd h List.not_mem_nil
        · exact Or.inr ⟨(List.mem_singleton.mp h).trans hdot.symm, hname⟩
      · split at h
        · exact (List.mem_append.mp h).imp_right fun h ↦
            ⟨(List.mem_singleton.mp h).trans hdot.symm, hname⟩
        · exact Or.inl (List.mem_of_mem_dropLast h)
    · exact (List.mem_append.mp h).imp_right fun h ↦ ⟨List.mem_singleton.mp h, hname⟩

theorem mem_foldl_step {rooted : Bool} {l : List Path} {t : Path}
    (h : t ∈ l.foldl (step rooted) base) : t ∈ base ∨ t ∈ l ∧ isName t = true := by
  induction l generalizing base with
  | nil => exact Or.inl h
  | cons s l ih =>
    rcases ih h with hbase | ⟨hl, hname⟩
    · rcases mem_step hbase with hout | ⟨rfl, hname⟩
      · exact Or.inl hout
      · exact Or.inr ⟨List.mem_cons_self, hname⟩
    · exact Or.inr ⟨List.mem_cons_of_mem s hl, hname⟩

theorem isName_of_mem_elements (h : s ∈ elements p) : isName s = true ∧ '/' ∉ s := by
  rcases mem_foldl_step h with hnil | ⟨hseg, hname⟩
  · exact absurd hnil List.not_mem_nil
  · exact ⟨hname, UnixPath.not_mem_of_mem_segments hseg⟩

theorem foldl_step_skip {rooted : Bool} (h : isName s = false) : step rooted out s = out := by
  rw [step, h]
  rfl

theorem step_dotdot {rooted : Bool} (out : List Path) : step rooted out dotdot
    = if out = [] then (if rooted then [] else [dotdot])
      else if out.getLast? = some dotdot then out ++ [dotdot] else out.dropLast := rfl

theorem step_name {rooted : Bool} (h : isName s = true) (hs : s ≠ dotdot) :
    step rooted out s = out ++ [s] := by
  rw [step, h, if_neg hs]
  rfl

theorem foldl_step_names {rooted : Bool} {l : List Path} (h : ∀ s ∈ l, isName s = true)
    (hdot : dotdot ∉ l) : l.foldl (step rooted) base = base ++ l := by
  induction l generalizing base with
  | nil => exact (List.append_nil base).symm
  | cons s l ih =>
    obtain ⟨hs, hl⟩ := List.forall_mem_cons.mp h
    obtain ⟨hne, hdot⟩ := not_or.mp (mt List.mem_cons.mpr hdot)
    rw [List.foldl_cons, step_name hs (Ne.symm hne), ih hl hdot, List.append_assoc,
      List.singleton_append]

theorem dotdot_not_mem_foldl {l : List Path} (h : dotdot ∉ base) :
    dotdot ∉ l.foldl (step true) base := by
  induction l generalizing base with
  | nil => exact h
  | cons s l ih =>
    refine ih ?_
    by_cases hname : isName s = true
    · by_cases hs : s = dotdot
      · rw [hs, step_dotdot]
        split
        · exact List.not_mem_nil
        · split
          · rename_i hlast
            exact absurd (List.mem_of_getLast? hlast) h
          · exact fun hmem ↦ h (List.mem_of_mem_dropLast hmem)
      · rw [step_name hname hs, List.mem_append, not_or]
        exact ⟨h, fun hmem ↦ hs (List.mem_singleton.mp hmem).symm⟩
    · rwa [foldl_step_skip (by simpa using hname)]

/-- In a relative path every `..` that is left stands behind others at the front. -/
theorem head?_of_dotdot_mem {l : List Path} (h : dotdot ∈ base → base.head? = some dotdot)
    (hmem : dotdot ∈ l.foldl (step false) base) :
    (l.foldl (step false) base).head? = some dotdot := by
  induction l generalizing base with
  | nil => exact h hmem
  | cons s l ih =>
    refine ih ?_ hmem
    by_cases hname : isName s = true
    · by_cases hs : s = dotdot
      · rw [hs, step_dotdot]
        split
        · exact fun _ ↦ rfl
        · rename_i hne
          split
          · rename_i hlast
            intro _
            rw [List.head?_append_of_ne_nil _ hne]
            exact h (List.mem_of_getLast? hlast)
          · intro hdrop
            have hhead := h (List.mem_of_mem_dropLast hdrop)
            rw [← List.dropLast_append_getLast hne,
              List.head?_append_of_ne_nil _ (List.ne_nil_of_mem hdrop)] at hhead
            exact hhead
      · rw [step_name hname hs]
        intro hmem
        rcases List.mem_append.mp hmem with hout | hlast
        · rw [List.head?_append_of_ne_nil _ (List.ne_nil_of_mem hout)]
          exact h hout
        · exact absurd (List.mem_singleton.mp hlast).symm hs
    · rwa [foldl_step_skip (by simpa using hname)]

/-! ## Where a path leads -/

/-- The elements that a path leads to from others. -/
def walkFrom (base : List Path) (p : Path) : List Path := (segments p).foldl (step true) base

/-- The elements that a path leads to from a working directory. -/
def place (cwd p : Path) : List Path :=
  if isAbsolute p then walkFrom [] p else walkFrom (walkFrom [] cwd) p

theorem walkFrom_append_sep (base : List Path) (p q : Path) :
    walkFrom base (p ++ '/' :: q) = walkFrom (walkFrom base p) q := by
  rw [walkFrom, UnixPath.segments_append_sep, List.foldl_append]
  rfl

theorem foldl_elements (base : List Path) (l : List Path) :
    (l.foldl (step false) []).foldl (step true) base = l.foldl (step true) base := by
  -- the segments one by one from the left, so that the last one is a step on both sides
  induction l using List.reverseRecOn with
  | nil => rfl
  | append_singleton l s ih =>
    rw [List.foldl_append, List.foldl_append]
    change (step false (l.foldl (step false) []) s).foldl (step true) base
      = step true (l.foldl (step true) base) s
    rw [← ih]
    have hnames : ∀ t ∈ l.foldl (step false) [], isName t = true := fun t ht ↦
      ((mem_foldl_step ht).resolve_left List.not_mem_nil).2
    generalize l.foldl (step false) [] = out at hnames
    by_cases hname : isName s = true
    · by_cases hs : s = dotdot
      · rw [hs, step_dotdot out]
        by_cases hnil : out = []
        · rw [if_pos hnil, hnil]
          rfl
        · rw [if_neg hnil]
          by_cases hlast : out.getLast? = some dotdot
          · rw [if_pos hlast, List.foldl_append]
            rfl
          · -- a name at the end that is added and taken away again
            rw [if_neg hlast]
            obtain ⟨front, t, rfl⟩ := (List.eq_nil_or_concat out).resolve_left hnil
            rw [List.concat_eq_append] at *
            rw [List.getLast?_concat, Option.some_inj] at hlast
            rw [List.dropLast_concat, List.foldl_append, List.foldl_cons, List.foldl_nil,
              step_name (hnames t (List.mem_append_right _ List.mem_cons_self)) hlast, step_dotdot,
              if_neg (List.append_ne_nil_of_right_ne_nil _ (List.cons_ne_nil _ _)),
              List.getLast?_concat, if_neg (mt Option.some.inj hlast), List.dropLast_concat]
      · rw [step_name hname hs, List.foldl_append]
        rfl
    · rw [foldl_step_skip (by simpa using hname), foldl_step_skip (by simpa using hname)]

/-! ## The texts -/

theorem walkFrom_intercalate {l : List Path} (h : ∀ s ∈ l, '/' ∉ s) :
    walkFrom base (['/'].intercalate l) = l.foldl (step true) base := by
  by_cases hl : l = []
  · rw [hl]
    rfl
  · rw [walkFrom, segments, List.splitOn_intercalate '/' h hl]

theorem walkFrom_sep (base : List Path) (p : Path) : walkFrom base ('/' :: p) = walkFrom base p :=
  walkFrom_append_sep base [] p

theorem elements_not_sep : ∀ s ∈ elements p, '/' ∉ s := fun _ h ↦ (isName_of_mem_elements h).2

theorem intercalate_names {l : List Path} (hne : l ≠ [])
    (h : ∀ s ∈ l, isName s = true ∧ '/' ∉ s) :
    ∃ c t, ['/'].intercalate l = c :: t ∧ c ≠ '/' := by
  obtain ⟨s, l, rfl⟩ := List.exists_cons_of_ne_nil hne
  obtain ⟨hname, hsep⟩ := h s List.mem_cons_self
  obtain ⟨c, t, rfl⟩ : ∃ c t, s = c :: t := by
    refine List.exists_cons_of_ne_nil fun hnil ↦ ?_
    rw [hnil] at hname
    exact absurd hname (by decide)
  have hc : c ≠ '/' := fun heq ↦ hsep (heq ▸ List.mem_cons_self)
  cases l with
  | nil => exact ⟨c, t, List.intercalate_singleton, hc⟩
  | cons u l => exact ⟨c, _, List.intercalate_cons_cons, hc⟩

theorem isAbsolute_clean (p : Path) : isAbsolute (clean p) = isAbsolute p := by
  rw [clean]
  split
  · rename_i h
    exact h.symm
  · rename_i h
    rw [Bool.not_eq_true] at h
    split
    · exact h.symm
    · rename_i hne
      obtain ⟨c, t, htext, hc⟩ := intercalate_names hne fun s hs ↦ isName_of_mem_elements hs
      rw [h, htext]
      simpa [isAbsolute] using hc

theorem clean_ne_nil (p : Path) : clean p ≠ [] := by
  rw [clean]
  split
  · exact List.cons_ne_nil _ _
  · split
    · exact List.cons_ne_nil _ _
    · rename_i hne
      obtain ⟨c, t, htext, -⟩ := intercalate_names hne fun s hs ↦ isName_of_mem_elements hs
      rw [htext]
      exact List.cons_ne_nil c t

theorem walkFrom_clean (h : isAbsolute p = false) (base : List Path) :
    walkFrom base (clean p) = walkFrom base p := by
  have helements : (elements p).foldl (step true) base = walkFrom base p := by
    rw [elements, h]
    exact foldl_elements base (segments p)
  rw [clean, h, if_neg Bool.false_ne_true, ← helements]
  split
  · rename_i hnil
    rw [hnil]
    rfl
  · exact walkFrom_intercalate elements_not_sep

/-- The elements of an absolute path are what it leads to. -/
theorem clean_of_isAbsolute (h : isAbsolute p = true) :
    clean p = '/' :: ['/'].intercalate (walkFrom [] p) := by
  rw [clean, if_pos h, elements, h]
  rfl

private theorem walkFrom_clean_of_isAbsolute (h : isAbsolute p = true) :
    walkFrom [] (clean p) = walkFrom [] p := by
  have helements : elements p = walkFrom [] p := by
    rw [elements, h]
    rfl
  have hnames : ∀ s ∈ walkFrom [] p, isName s = true ∧ '/' ∉ s := by
    rw [← helements]
    exact fun s hs ↦ isName_of_mem_elements hs
  rw [clean_of_isAbsolute h, walkFrom_sep, walkFrom_intercalate fun s hs ↦ (hnames s hs).2,
    foldl_step_names (fun s hs ↦ (hnames s hs).1) (dotdot_not_mem_foldl List.not_mem_nil),
    List.nil_append]

/-- `filepath.Abs` writes down what a path leads to. -/
theorem abs_eq (hcwd : isAbsolute cwd = true) (p : Path) :
    abs cwd p = '/' :: ['/'].intercalate (place cwd p) := by
  rw [abs, place]
  cases hp : isAbsolute p with
  | true =>
    rw [if_pos rfl, if_pos rfl, clean_of_isAbsolute hp]
  | false =>
    have hne : cwd ≠ [] := by
      rintro rfl
      cases hcwd
    have habs : isAbsolute (cwd ++ '/' :: p) = true :=
      (UnixPath.isAbsolute_append hne _).trans hcwd
    rw [if_neg Bool.false_ne_true, if_neg Bool.false_ne_true, join, if_neg hne,
      clean_of_isAbsolute habs, walkFrom_append_sep]

/-- **Joining.** A relative path leads on from where the base leads. -/
theorem place_join (hq : isAbsolute q = false) (hne : q ≠ []) (p : Path) :
    place cwd (join p q) = walkFrom (place cwd p) q := by
  rw [join]
  by_cases hp : p = []
  · rw [if_pos hp, if_neg hne, hp, place, isAbsolute_clean, hq, if_neg Bool.false_ne_true,
      walkFrom_clean hq]
    rfl
  · rw [if_neg hp, place, place, isAbsolute_clean, UnixPath.isAbsolute_append hp]
    cases habs : isAbsolute p with
    | true =>
      rw [if_pos rfl, if_pos rfl, walkFrom_clean_of_isAbsolute
        ((UnixPath.isAbsolute_append hp _).trans habs), walkFrom_append_sep]
    | false =>
      rw [if_neg Bool.false_ne_true, if_neg Bool.false_ne_true, walkFrom_clean
        ((UnixPath.isAbsolute_append hp _).trans habs), walkFrom_append_sep]

theorem walkFrom_of_head? (h : isAbsolute p = false) (hhead : (elements p).head? ≠ some dotdot)
    (base : List Path) : walkFrom base p = base ++ elements p := by
  have hdot : dotdot ∉ elements p := by
    rw [elements, h] at hhead ⊢
    exact fun hmem ↦ hhead (head?_of_dotdot_mem (fun hnil ↦ absurd hnil List.not_mem_nil) hmem)
  have helements : (elements p).foldl (step true) base = walkFrom base p := by
    rw [elements, h]
    exact foldl_elements base (segments p)
  rw [← helements, foldl_step_names (fun s hs ↦ (isName_of_mem_elements hs).1) hdot]

/-- The text of a cleaned path shows whether it climbs out. -/
theorem clean_climbs_iff (h : isAbsolute p = false) :
    (clean p = dotdot ∨ dotdot ++ ['/'] <+: clean p) ↔ (elements p).head? = some dotdot := by
  rw [clean, h, if_neg Bool.false_ne_true]
  by_cases hnil : elements p = []
  · rw [if_pos hnil, hnil]
    refine iff_of_false ?_ fun h ↦ nomatch h
    rintro (h | h) <;> revert h <;> decide
  rw [if_neg hnil]
  have hseg : segments (['/'].intercalate (elements p)) = elements p :=
    List.splitOn_intercalate '/' elements_not_sep hnil
  constructor
  · rintro (htext | ⟨rest, htext⟩)
    · rw [← hseg, htext]
      rfl
    · rw [← hseg, ← htext, List.append_assoc, List.singleton_append, UnixPath.segments_append_sep]
      rfl
  · intro hhead
    obtain ⟨l, hl⟩ : ∃ l, elements p = dotdot :: l := by
      cases hp : elements p with
      | nil => exact absurd hp hnil
      | cons s l =>
        rw [hp] at hhead
        exact ⟨l, by rw [Option.some.inj hhead]⟩
    rw [hl]
    cases l with
    | nil => exact Or.inl List.intercalate_singleton
    | cons s l =>
      refine Or.inr ⟨['/'].intercalate (s :: l), ?_⟩
      rw [List.intercalate_cons_cons]

theorem place_names : ∀ s ∈ place cwd p, isName s = true ∧ '/' ∉ s := by
  have hwalk (base : List Path) (hbase : ∀ s ∈ base, isName s = true ∧ '/' ∉ s) (q : Path) :
      ∀ s ∈ walkFrom base q, isName s = true ∧ '/' ∉ s := by
    intro s hs
    rcases mem_foldl_step hs with hs | ⟨hs, hname⟩
    · exact hbase s hs
    · exact ⟨hname, UnixPath.not_mem_of_mem_segments hs⟩
  have hempty := hwalk [] fun _ hs ↦ absurd hs List.not_mem_nil
  rw [place]
  split
  · exact hempty p
  · exact hwalk _ (hempty cwd) p

theorem names_text {l : List Path} (h : ∀ s ∈ l, isName s = true ∧ '/' ∉ s) :
    UnixPath.names ('/' :: ['/'].intercalate l) = l := by
  have hsep : segments ('/' :: ['/'].intercalate l) = [] :: segments (['/'].intercalate l) :=
    UnixPath.segments_append_sep [] _
  rw [UnixPath.names, hsep, List.filter_cons_of_neg (by decide)]
  by_cases hl : l = []
  · rw [hl]
    rfl
  · rw [segments, List.splitOn_intercalate '/' (fun s hs ↦ (h s hs).2) hl]
    exact List.filter_eq_self.mpr fun s hs ↦ (h s hs).1

/-- A relative path is joined to such a text, which does not end in a separator. -/
theorem join_text {l : List Path} (hne : l ≠ []) (h : ∀ s ∈ l, isName s = true ∧ '/' ∉ s)
    (hq : isAbsolute q = false) :
    UnixPath.join ('/' :: ['/'].intercalate l) q = '/' :: ['/'].intercalate (l ++ segments q) := by
  have hend : ('/' :: ['/'].intercalate l).getLast? ≠ some '/' := by
    obtain ⟨front, last, rfl⟩ : ∃ front last, l = front ++ [last] :=
      ⟨_, _, (List.dropLast_append_getLast hne).symm⟩
    obtain ⟨hname, hsep⟩ := h last (List.mem_append_right _ List.mem_cons_self)
    rw [isName, decide_eq_true_iff] at hname
    have htext := UnixPath.intercalate_concat_append front [] last
    rw [List.nil_append] at htext
    rw [← htext, ← List.cons_append, List.getLast?_append_of_ne_nil _ hname.1]
    exact fun hlast ↦ hsep (List.mem_of_getLast? hlast)
  have hsegments : segments q ≠ [] := List.splitOn_ne_nil _ _
  rw [UnixPath.join, if_neg (Bool.eq_false_iff.mp hq),
    if_neg (not_or.mpr ⟨List.cons_ne_nil _ _, hend⟩), UnixPath.intercalate_append hne hsegments,
    UnixPath.intercalate_segments, List.cons_append]

end CleanPath

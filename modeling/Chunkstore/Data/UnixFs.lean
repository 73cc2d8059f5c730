import Chunkstore.Data.UnixPath
import Mathlib.Data.List.Infix
import Mathlib.Logic.Function.Basic

/-!
# A Unix file system

Directories and files by the names that lead to them from a root, with the system calls that make,
write and rename them. A file is a number, its inode: a process that has opened a file keeps writing
to its inode, whatever happens to the name. There are no links, so a file has one name.

A system call that fails is `none`.
-/

namespace UnixFs

open UnixPath (Path)

/-- The names that lead from the root to a file or a directory. -/
abbrev Place := List Path

/-- What stands at a place: a directory, or the file of an inode. -/
inductive Entry
  | dir
  | file (ino : ℕ)
  deriving DecidableEq

structure FileSystem where
  entry : Place → Option Entry
  content : ℕ → List UInt8
  /-- The first inode that was never used. -/
  next : ℕ
  root : entry [] = some .dir
  parent : ∀ p name, entry (p ++ [name]) ≠ none → entry p = some .dir
  fresh : ∀ p ino, entry p = some (.file ino) → ino < next
  single : ∀ p q ino, entry p = some (.file ino) → entry q = some (.file ino) → p = q

namespace FileSystem

/-- A file system that is an empty directory. -/
def empty : FileSystem where
  entry := fun p ↦ if p = [] then some .dir else none
  content := fun _ ↦ []
  next := 0
  root := if_pos rfl
  parent := fun p name h ↦
    absurd (if_neg (List.append_ne_nil_of_right_ne_nil p (List.cons_ne_nil name []))) h
  fresh := fun p ino h ↦ by
    split at h <;> cases h
  single := fun p q ino h ↦ by
    split at h <;> cases h

variable (fs : FileSystem)

def read (p : Place) : Option (List UInt8) :=
  match fs.entry p with
  | some (.file ino) => some (fs.content ino)
  | _ => none

/-- A directory with its parents, those that are missing (`mkdir -p`). -/
def mkdirAll (p : Place) : Option FileSystem :=
  if p.inits.any fun q ↦ (fs.read q).isSome then none
  else some
    { fs with
      entry := fun q ↦ if q <+: p then some .dir else fs.entry q
      root := if_pos List.nil_prefix
      parent := fun q name h ↦ by
        split at h
        · rename_i hq
          exact if_pos ((List.prefix_append q [name]).trans hq)
        · rw [fs.parent q name h, ite_self]
      fresh := fun q ino h ↦ by
        split at h
        · cases h
        · exact fs.fresh q ino h
      single := fun q r ino hq hr ↦ by
        split at hq
        · cases hq
        · split at hr
          · cases hr
          · exact fs.single q r ino hq hr }

/-- Taking away the name of a file. -/
def erase (p : Place) (h : fs.entry p ≠ some .dir) : FileSystem :=
  { fs with
    entry := Function.update fs.entry p none
    root := by
      rw [Function.update_of_ne, fs.root]
      rintro rfl
      exact h fs.root
    parent := fun q name hq ↦ by
      have hdir : fs.entry q = some .dir := by
        by_cases hp : q ++ [name] = p
        · rw [hp, Function.update_self] at hq
          exact absurd rfl hq
        · rw [Function.update_of_ne hp] at hq
          exact fs.parent q name hq
      rw [Function.update_of_ne, hdir]
      rintro rfl
      exact h hdir
    fresh := fun q ino hq ↦ by
      by_cases hp : q = p
      · rw [hp, Function.update_self] at hq
        cases hq
      · rw [Function.update_of_ne hp] at hq
        exact fs.fresh q ino hq
    single := fun q r ino hq hr ↦ by
      by_cases hqp : q = p
      · rw [hqp, Function.update_self] at hq
        cases hq
      · by_cases hrp : r = p
        · rw [hrp, Function.update_self] at hr
          cases hr
        · rw [Function.update_of_ne hqp] at hq
          rw [Function.update_of_ne hrp] at hr
          exact fs.single q r ino hq hr }

variable {fs} in
theorem entry_erase_eq_some {p q : Place} {h : fs.entry p ≠ some .dir} {e : Entry} :
    (fs.erase p h).entry q = some e ↔ q ≠ p ∧ fs.entry q = some e := by
  change Function.update fs.entry p none q = some e ↔ _
  by_cases hq : q = p
  · rw [hq, Function.update_self]
    exact iff_of_false (Option.some_ne_none e).symm fun h ↦ h.1 rfl
  · rw [Function.update_of_ne hq, and_iff_right hq]

/-- Giving a name to a file that has none, in a directory. -/
def bind (p : Place) (ino : ℕ) (hp : fs.entry p ≠ some .dir)
    (hdir : fs.entry p.dropLast = some .dir)
    (hino : ino < fs.next) (hfree : ∀ q, fs.entry q ≠ some (.file ino)) : FileSystem :=
  { fs with
    entry := Function.update fs.entry p (some (.file ino))
    root := by
      rw [Function.update_of_ne, fs.root]
      rintro rfl
      exact hp fs.root
    parent := fun q name hq ↦ by
      have hq' : fs.entry q = some .dir := by
        by_cases hqp : q ++ [name] = p
        · rw [← hqp, List.dropLast_concat] at hdir
          exact hdir
        · rw [Function.update_of_ne hqp] at hq
          exact fs.parent q name hq
      rw [Function.update_of_ne, hq']
      rintro rfl
      exact hp hq'
    fresh := fun q ino' hq ↦ by
      by_cases hqp : q = p
      · rw [hqp, Function.update_self] at hq
        cases hq
        exact hino
      · rw [Function.update_of_ne hqp] at hq
        exact fs.fresh q ino' hq
    single := fun q r ino' hq hr ↦ by
      by_cases hqp : q = p <;> by_cases hrp : r = p
      · rw [hqp, hrp]
      · rw [hqp, Function.update_self] at hq
        rw [Function.update_of_ne hrp] at hr
        cases hq
        exact absurd hr (hfree r)
      · rw [hrp, Function.update_self] at hr
        rw [Function.update_of_ne hqp] at hq
        cases hr
        exact absurd hq (hfree q)
      · rw [Function.update_of_ne hqp] at hq
        rw [Function.update_of_ne hrp] at hr
        exact fs.single q r ino' hq hr }

/-- The inode `next`, as an empty file without a name. -/
def allocate : FileSystem :=
  { fs with
    content := Function.update fs.content fs.next []
    next := fs.next + 1
    fresh := fun p ino h ↦ (fs.fresh p ino h).trans (Nat.lt_succ_self _) }

/-- Opening a file for writing, with what was in it cut off; a file that is not there is made. Gives
the inode that is open. -/
def create (p : Place) : Option (FileSystem × ℕ) :=
  match hp : fs.entry p with
  | some .dir => none
  | some (.file ino) => some ({ fs with content := Function.update fs.content ino [] }, ino)
  | none =>
    if hdir : fs.entry p.dropLast = some .dir then
      some (fs.allocate.bind p fs.next (fun h ↦ nomatch hp.symm.trans h) hdir (Nat.lt_succ_self _)
        fun q h ↦ (fs.fresh q _ h).ne rfl, fs.next)
    else none

/-- Bytes written over others from an offset on. A gap is filled with zeros. -/
def splice (old : List UInt8) (offset : ℕ) (bytes : List UInt8) : List UInt8 :=
  old.take offset ++ List.replicate (offset - old.length) 0 ++ bytes
    ++ old.drop (offset + bytes.length)

def write (ino offset : ℕ) (bytes : List UInt8) : FileSystem :=
  { fs with content := Function.update fs.content ino (splice (fs.content ino) offset bytes) }

/-- Another name for a file. A file that has that name is replaced. -/
def rename (p q : Place) : Option FileSystem :=
  match hp : fs.entry p with
  | some (.file ino) =>
    if hq : fs.entry q ≠ some .dir ∧ fs.entry q.dropLast = some .dir then
      have hpdir : fs.entry p ≠ some .dir := fun h ↦ nomatch hp.symm.trans h
      some ((fs.erase p hpdir).bind q ino (fun h ↦ hq.1 (entry_erase_eq_some.mp h).2)
        (entry_erase_eq_some.mpr ⟨fun h ↦ hpdir (h ▸ hq.2), hq.2⟩) (fs.fresh p ino hp) fun r h ↦
          have hr := entry_erase_eq_some.mp h
          hr.1 (fs.single r p ino hr.2 hp))
    else none
  | _ => none

def unlink (p : Place) : Option FileSystem :=
  match hp : fs.entry p with
  | some (.file _) => some (fs.erase p fun h ↦ nomatch hp.symm.trans h)
  | _ => none

/-! ## What is in the files -/

variable {fs} {fs' : FileSystem} {p q : Place} {ino : ℕ}

theorem read_eq_some {data : List UInt8} :
    fs.read p = some data ↔ ∃ ino, fs.entry p = some (.file ino) ∧ fs.content ino = data := by
  rw [read]
  split
  · rename_i ino hp
    rw [hp, Option.some_inj]
    exact ⟨fun h ↦ ⟨ino, rfl, h⟩, fun ⟨_, hino, h⟩ ↦ by cases hino; exact h⟩
  · rename_i hp
    exact iff_of_false (fun h ↦ nomatch h) fun ⟨ino, hino, _⟩ ↦ hp ino hino

theorem read_of_entry (h : fs.entry p = some (.file ino)) : fs.read p = some (fs.content ino) :=
  read_eq_some.mpr ⟨ino, h, rfl⟩

theorem read_congr (he : fs'.entry p = fs.entry p)
    (hc : ∀ ino, fs.entry p = some (.file ino) → fs'.content ino = fs.content ino) :
    fs'.read p = fs.read p := by
  rw [read, read, he]
  split
  · rename_i ino hp
    rw [hc ino hp]
  · rfl

theorem mkdirAll_spec (h : fs.mkdirAll p = some fs') :
    fs'.content = fs.content ∧
      ∀ q ino, fs'.entry q = some (.file ino) ↔ fs.entry q = some (.file ino) := by
  rw [mkdirAll] at h
  split at h
  · cases h
  · rename_i hany
    cases h
    refine ⟨rfl, fun q ino ↦ ?_⟩
    change (if q <+: p then some Entry.dir else fs.entry q) = _ ↔ _
    split
    · rename_i hq
      -- a file on the way would have been an error
      refine iff_of_false (fun h ↦ nomatch h) fun hfile ↦ hany ?_
      refine List.any_eq_true.mpr ⟨q, (List.mem_inits _ _).mpr hq, ?_⟩
      rw [read_of_entry hfile]
      rfl
    · rfl

/-- Directories can be made where no file is in the way. -/
theorem mkdirAll_of_read (h : ∀ q, q <+: p → fs.read q = none) :
    ∃ fs', fs.mkdirAll p = some fs' ∧ fs'.content = fs.content ∧
      ∀ q, fs'.entry q = if q <+: p then some .dir else fs.entry q := by
  have hany : ¬(p.inits.any fun q ↦ (fs.read q).isSome) = true := by
    intro hany
    obtain ⟨q, hq, hsome⟩ := List.any_eq_true.mp hany
    rw [h q ((List.mem_inits _ _).mp hq)] at hsome
    cases hsome
  exact ⟨_, if_neg hany, rfl, fun _ ↦ rfl⟩

theorem create_of_entry (h : fs.entry p ≠ some .dir) (hdir : fs.entry p.dropLast = some .dir) :
    ∃ fs' ino, fs.create p = some (fs', ino) := by
  rw [create]
  split
  · rename_i hp
    exact absurd hp h
  · exact ⟨_, _, rfl⟩
  · rw [dif_pos hdir]
    exact ⟨_, _, rfl⟩

theorem rename_of_entry (h : fs.entry p = some (.file ino)) (hq : fs.entry q ≠ some .dir)
    (hdir : fs.entry q.dropLast = some .dir) : ∃ fs', fs.rename p q = some fs' := by
  rw [rename]
  split
  · rw [dif_pos ⟨hq, hdir⟩]
    exact ⟨_, rfl⟩
  · rename_i hp
    exact absurd h (hp ino)

/-- Opening a file changes nothing at other places, and leaves the file empty. -/
theorem create_spec (h : fs.create p = some (fs', ino)) :
    fs'.entry p = some (.file ino) ∧ fs'.content ino = [] ∧
      (∀ q, q ≠ p → fs'.entry q = fs.entry q) ∧
      ∀ ino', ino' ≠ ino → fs'.content ino' = fs.content ino' := by
  rw [create] at h
  split at h
  · cases h
  · rename_i ino' hp
    cases h
    exact ⟨hp, Function.update_self .., fun _ _ ↦ rfl, fun _ hne ↦ Function.update_of_ne hne _ _⟩
  · split at h
    · cases h
      exact ⟨Function.update_self .., Function.update_self ..,
        fun _ hq ↦ Function.update_of_ne hq _ _,
        fun _ hne ↦ Function.update_of_ne hne _ _⟩
    · cases h

theorem rename_spec (h : fs.rename p q = some fs') :
    ∃ ino, fs.entry p = some (.file ino) ∧ fs'.entry q = some (.file ino) ∧
      fs'.content = fs.content ∧ (p ≠ q → fs'.entry p = none) ∧
      ∀ r, r ≠ p → r ≠ q → fs'.entry r = fs.entry r := by
  rw [rename] at h
  split at h
  · rename_i ino hp
    split at h
    · cases h
      refine ⟨ino, hp, Function.update_self .., rfl, fun hpq ↦ ?_, fun r hrp hrq ↦ ?_⟩
      · exact (Function.update_of_ne hpq _ _).trans (Function.update_self ..)
      · exact (Function.update_of_ne hrq _ _).trans (Function.update_of_ne hrp _ _)
    · cases h
  · cases h

theorem unlink_spec (h : fs.unlink p = some fs') :
    fs'.content = fs.content ∧ fs'.entry p = none ∧ ∀ q, q ≠ p → fs'.entry q = fs.entry q := by
  rw [unlink] at h
  split at h
  · cases h
    exact ⟨rfl, Function.update_self .., fun q hq ↦ Function.update_of_ne hq _ _⟩
  · cases h

theorem read_mkdirAll (h : fs.mkdirAll p = some fs') : fs'.read = fs.read := by
  obtain ⟨hcontent, hfile⟩ := mkdirAll_spec h
  funext q
  refine Option.ext fun data ↦ ?_
  rw [read_eq_some, read_eq_some, hcontent]
  exact exists_congr fun ino ↦ and_congr_left fun _ ↦ hfile q ino

theorem read_create (h : fs.create p = some (fs', ino)) :
    fs'.read = Function.update fs.read p (some []) := by
  obtain ⟨hp, hempty, hother, hcontent⟩ := create_spec h
  funext q
  by_cases hq : q = p
  · rw [hq, Function.update_self, read_of_entry hp, hempty]
  · rw [Function.update_of_ne hq]
    refine read_congr (hother q hq) fun ino' hino' ↦ hcontent ino' ?_
    rintro rfl
    exact hq (fs'.single q p ino' ((hother q hq).trans hino') hp)

theorem read_write {offset : ℕ} {bytes : List UInt8} (h : fs.entry p = some (.file ino)) :
    (fs.write ino offset bytes).read
      = Function.update fs.read p (some (splice (fs.content ino) offset bytes)) := by
  funext q
  by_cases hq : q = p
  · rw [hq, Function.update_self, show (fs.write ino offset bytes).read p = _ from read_of_entry h]
    exact congrArg some (Function.update_self ..)
  · rw [Function.update_of_ne hq]
    refine read_congr rfl fun ino' hino' ↦ Function.update_of_ne ?_ _ _
    rintro rfl
    exact hq (fs.single q p ino' hino' h)

theorem read_rename (h : fs.rename p q = some fs') :
    fs'.read = Function.update (Function.update fs.read p none) q (fs.read p) := by
  obtain ⟨ino, hp, hq, hcontent, hgone, hother⟩ := rename_spec h
  funext r
  by_cases hrq : r = q
  · rw [hrq, Function.update_self, read_of_entry hq, read_of_entry hp, hcontent]
  · rw [Function.update_of_ne hrq]
    by_cases hrp : r = p
    · rw [hrp, Function.update_self, read, hgone (hrp ▸ hrq)]
    · rw [Function.update_of_ne hrp]
      exact read_congr (hother r hrp hrq) fun _ _ ↦ congrFun hcontent _

theorem read_unlink (h : fs.unlink p = some fs') : fs'.read = Function.update fs.read p none := by
  obtain ⟨hcontent, hgone, hother⟩ := unlink_spec h
  funext q
  by_cases hq : q = p
  · rw [hq, Function.update_self, read, hgone]
  · rw [Function.update_of_ne hq]
    exact read_congr (hother q hq) fun _ _ ↦ congrFun hcontent _

theorem splice_append (old bytes : List UInt8) : splice old old.length bytes = old ++ bytes := by
  rw [splice, List.take_length, Nat.sub_self, List.drop_of_length_le (Nat.le_add_right _ _),
    List.replicate_zero, List.append_nil, List.append_nil]

end FileSystem

end UnixFs

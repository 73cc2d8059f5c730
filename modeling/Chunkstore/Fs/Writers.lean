import Chunkstore.Fs.KeyMap

/-!
# Writers of one blob

Processes that share a root put the same blob, each with the counter of its own for temporary names
(`write_atomic` in `fs_backend.rs`). Between the system calls of one put any of the others may come,
and a temporary file that two of them open is one inode.

Every put is a writer of its own here, with the value that the counter gave it. A step belongs to a
writer, and comes with how many bytes a `write` takes, if it is one. The names of blobs are far from
being too long, and how long paths are is not looked at in a step.

## Main result

* `FsBackend.writers_atomic`: as long as no put opens the temporary file of another put that is
  still writing, the blob is there completely or not at all, and every put returns `Ok`.
-/

open UnixFs

namespace Chunkstore

namespace FsBackend

/-- How far a put has got in `write_atomic`: before `create_dir_all`, before `File::create`, with an
open file of which so many bytes are written, before the rename, or at its end. -/
inductive WriterPhase
  | start
  | ready
  | writing (ino written : ℕ)
  | synced (ino : ℕ)
  | returned
  | failed
  deriving DecidableEq

/-- The inode of the temporary file, from its creation to the rename. -/
def WriterPhase.temporary : WriterPhase → Option ℕ
  | .writing ino _ => some ino
  | .synced ino => some ino
  | _ => none

/-- The files, and how far each put has got. -/
structure Writing (ι : Type) where
  fs : FileSystem
  phase : ι → WriterPhase

variable {ι : Type} [DecidableEq ι] (place : Place) (data : Bytes) (unique : ι → ℕ)

namespace Writing

/-- Before any step. -/
def begin (fs : FileSystem) : Writing ι := ⟨fs, fun _ ↦ .start⟩

/-- The next system call of one put. A write takes `k + 1` bytes, or all that are left. -/
def step (i : ι) (k : ℕ) (w : Writing ι) : Writing ι :=
  match w.phase i with
  | .start =>
    match w.fs.mkdirAll place.dropLast with
    | none => { w with phase := Function.update w.phase i .failed }
    | some fs => ⟨fs, Function.update w.phase i .ready⟩
  | .ready =>
    match w.fs.create (tmpPlace place (unique i)) with
    | none => { w with phase := Function.update w.phase i .failed }
    | some (fs, ino) => ⟨fs, Function.update w.phase i (.writing ino 0)⟩
  | .writing ino written =>
    if written < data.length then
      let bytes := (data.drop written).take (k + 1)
      ⟨w.fs.write ino written bytes,
        Function.update w.phase i (.writing ino (written + bytes.length))⟩
    else { w with phase := Function.update w.phase i (.synced ino) }
  | .synced _ =>
    match w.fs.rename (tmpPlace place (unique i)) place with
    | none => { w with phase := Function.update w.phase i .failed }
    | some fs => ⟨fs, Function.update w.phase i .returned⟩
  | .returned => w
  | .failed => w

/-- Steps of any writers in any order. -/
def run (steps : List (ι × ℕ)) (w : Writing ι) : Writing ι :=
  steps.foldl (fun w s ↦ step place data unique s.1 s.2 w) w

/-- A put that has created its temporary file and not renamed it. -/
def Active (w : Writing ι) (i : ι) : Prop := (w.phase i).temporary ≠ none

/-- A put that is about to create its temporary file: no other that is still writing has one of that
name. -/
def Clear (w : Writing ι) (i : ι) : Prop :=
  w.phase i = .ready → ∀ j, j ≠ i → w.Active j →
    tmpPlace place (unique j) ≠ tmpPlace place (unique i)

/-- Every step of a run is clear of the other writers. -/
def AllClear : Writing ι → List (ι × ℕ) → Prop
  | _, [] => True
  | w, s :: steps => w.Clear place unique s.1 ∧ AllClear (step place data unique s.1 s.2 w) steps

/-! ## What every step keeps -/

variable {place data unique} {w : Writing ι} {i : ι} {k : ℕ}

variable (data) in
/-- How many bytes the temporary file holds. -/
def written : WriterPhase → ℕ
  | .writing _ n => n
  | .synced _ => data.length
  | _ => 0

variable (place data unique w) in
/-- The blob is there completely or not at all, the temporary files are those of their writers and
hold what these have written, and nothing stands in the way of a write. -/
structure Consistent : Prop where
  parents : ∀ q, q <+: place.dropLast → w.fs.read q = none
  dir : ∀ i, w.phase i ≠ .start → w.fs.entry place.dropLast = some .dir
  free : ∀ p, p = place ∨ (∃ i, p = tmpPlace place (unique i)) → w.fs.entry p ≠ some .dir
  value : w.fs.read place = none ∨ w.fs.read place = some data
  temporary : ∀ i ino, (w.phase i).temporary = some ino →
    w.fs.entry (tmpPlace place (unique i)) = some (.file ino) ∧
      written data (w.phase i) ≤ data.length ∧
        w.fs.content ino = data.take (written data (w.phase i))
  apart : ∀ i j, i ≠ j → w.Active i → w.Active j →
    tmpPlace place (unique i) ≠ tmpPlace place (unique j)
  working : ∀ i, w.phase i ≠ .failed

omit [DecidableEq ι] in
theorem active_of_temporary {ino : ℕ} (h : (w.phase i).temporary = some ino) : w.Active i := by
  rw [Active, h]
  exact Option.some_ne_none ino

/-- A step of one writer keeps the others if it keeps their files. -/
theorem Consistent.update (h : w.Consistent place data unique) {fs : FileSystem} {x : WriterPhase}
    (hparents : ∀ q, q <+: place.dropLast → fs.read q = none)
    (hdir : fs.entry place.dropLast = some .dir)
    (hfree : ∀ p, p = place ∨ (∃ i, p = tmpPlace place (unique i)) → fs.entry p ≠ some .dir)
    (hvalue : fs.read place = none ∨ fs.read place = some data)
    (hother : ∀ j ino, j ≠ i → (w.phase j).temporary = some ino →
      fs.entry (tmpPlace place (unique j)) = some (.file ino) ∧
        fs.content ino = w.fs.content ino)
    (hself : ∀ ino, x.temporary = some ino →
      fs.entry (tmpPlace place (unique i)) = some (.file ino) ∧
        written data x ≤ data.length ∧ fs.content ino = data.take (written data x))
    (hapart : x.temporary ≠ none → ∀ j, j ≠ i → w.Active j →
      tmpPlace place (unique j) ≠ tmpPlace place (unique i))
    (hx : x ≠ .failed) :
    Consistent place data unique ⟨fs, Function.update w.phase i x⟩ := by
  have hphase (j : ι) (hj : j ≠ i) : Function.update w.phase i x j = w.phase j :=
    Function.update_of_ne hj _ _
  refine ⟨hparents, fun _ _ ↦ hdir, hfree, hvalue, fun j ino hj ↦ ?_, fun j l hjl hj hl ↦ ?_,
    fun j ↦ ?_⟩
  · by_cases hji : j = i
    · subst hji
      change (Function.update w.phase j x j).temporary = some ino at hj
      change _ ∧ written data (Function.update w.phase j x j) ≤ _ ∧
        _ = data.take (written data (Function.update w.phase j x j))
      rw [Function.update_self] at hj ⊢
      exact hself ino hj
    · change (Function.update w.phase i x j).temporary = some ino at hj
      change _ ∧ written data (Function.update w.phase i x j) ≤ _ ∧
        _ = data.take (written data (Function.update w.phase i x j))
      rw [hphase j hji] at hj ⊢
      obtain ⟨hentry, hcontent⟩ := hother j ino hji hj
      rw [hcontent]
      exact ⟨hentry, (h.temporary j ino hj).2⟩
  · change (Function.update w.phase i x j).temporary ≠ none at hj
    change (Function.update w.phase i x l).temporary ≠ none at hl
    by_cases hji : j = i
    · subst hji
      rw [Function.update_self] at hj
      rw [hphase l (Ne.symm hjl)] at hl
      exact (hapart hj l (Ne.symm hjl) hl).symm
    · rw [hphase j hji] at hj
      by_cases hli : l = i
      · subst hli
        rw [Function.update_self] at hl
        exact hapart hl j hji hj
      · rw [hphase l hli] at hl
        exact h.apart j l hjl hj hl
  · change Function.update w.phase i x j ≠ .failed
    by_cases hji : j = i
    · rwa [hji, Function.update_self]
    · rw [hphase j hji]
      exact h.working j

/-! ### The steps of a put -/

theorem dropLast_tmpPlace (place : Place) (u : ℕ) : (tmpPlace place u).dropLast = place.dropLast :=
  List.dropLast_concat

omit [DecidableEq ι] in
theorem not_prefix_dropLast (hplace : place ≠ []) {p : Place}
    (hp : p = place ∨ ∃ i, p = tmpPlace place (unique i)) : ¬p <+: place.dropLast := by
  intro h
  have hlen := h.length_le
  have hpos := List.length_pos_iff.mpr hplace
  rcases hp with rfl | ⟨i, rfl⟩
  · rw [List.length_dropLast] at hlen
    omega
  · rw [tmpPlace, List.length_append, List.length_singleton] at hlen
    omega

theorem tmpPlace_ne_place (hplace : place ≠ []) (u : ℕ) : tmpPlace place u ≠ place :=
  @tmpPlace_ne u ⟨place, false⟩ hplace

theorem Consistent.mkdir (h : w.Consistent place data unique) (hplace : place ≠ []) :
    ∃ fs, w.fs.mkdirAll place.dropLast = some fs ∧
      Consistent place data unique ⟨fs, Function.update w.phase i .ready⟩ := by
  obtain ⟨fs, hmkdir, hcontent, hentry⟩ := FileSystem.mkdirAll_of_read h.parents
  have hread := FileSystem.read_mkdirAll hmkdir
  have hkeep (p : Place) (hp : p = place ∨ ∃ i, p = tmpPlace place (unique i)) :
      fs.entry p = w.fs.entry p := by
    rw [hentry, if_neg (not_prefix_dropLast hplace hp)]
  refine ⟨fs, hmkdir, h.update ?_ ?_ ?_ ?_ ?_ ?_ ?_ ?_⟩
  · rw [hread]
    exact h.parents
  · rw [hentry, if_pos List.prefix_rfl]
  · intro p hp
    rw [hkeep p hp]
    exact h.free p hp
  · rw [hread]
    exact h.value
  · intro j ino _ hj
    rw [hkeep _ (Or.inr ⟨j, rfl⟩), hcontent]
    exact ⟨(h.temporary j ino hj).1, rfl⟩
  · intro ino hino
    cases hino
  · intro hno
    exact absurd rfl hno
  · intro hno
    cases hno

/-- A temporary file that no other writer has open can be opened. -/
theorem Consistent.create (h : w.Consistent place data unique) (hplace : place ≠ [])
    (hi : w.phase i = .ready) (hclear : w.Clear place unique i) :
    ∃ fs ino, w.fs.create (tmpPlace place (unique i)) = some (fs, ino) ∧
      Consistent place data unique ⟨fs, Function.update w.phase i (.writing ino 0)⟩ := by
  have hready : w.phase i ≠ .start := by
    rw [hi]
    exact WriterPhase.noConfusion
  obtain ⟨fs, ino, hcreate⟩ := FileSystem.create_of_entry (h.free _ (Or.inr ⟨i, rfl⟩))
    ((congrArg w.fs.entry (dropLast_tmpPlace place _)).trans (h.dir i hready))
  obtain ⟨hopen, hempty, hentry, hcontent⟩ := FileSystem.create_spec hcreate
  have hread (p : Place) (hp : p ≠ tmpPlace place (unique i)) : fs.read p = w.fs.read p := by
    rw [FileSystem.read_create hcreate, Function.update_of_ne hp]
  have hparent (q : Place) (hq : q <+: place.dropLast) : q ≠ tmpPlace place (unique i) :=
    fun heq ↦ not_prefix_dropLast hplace (Or.inr ⟨i, heq⟩) hq
  refine ⟨fs, ino, hcreate, h.update ?_ ?_ ?_ ?_ ?_ ?_ ?_ ?_⟩
  · intro q hq
    rw [hread q (hparent q hq)]
    exact h.parents q hq
  · rw [hentry _ (hparent _ List.prefix_rfl)]
    exact h.dir i hready
  · intro p hp
    by_cases hpi : p = tmpPlace place (unique i)
    · rw [hpi, hopen]
      intro heq
      cases heq
    · rw [hentry p hpi]
      exact h.free p hp
  · rw [hread place (tmpPlace_ne_place hplace _).symm]
    exact h.value
  · intro j ino' hj hino'
    have hactive : w.Active j := active_of_temporary hino'
    have hne := hclear hi j hj hactive
    have hentry' := (hentry _ hne).trans (h.temporary j ino' hino').1
    refine ⟨hentry', hcontent ino' ?_⟩
    rintro rfl
    exact hne (fs.single _ _ _ hentry' hopen)
  · rintro _ ⟨⟩
    exact ⟨hopen, Nat.zero_le _, hempty⟩
  · exact fun _ ↦ hclear hi
  · intro hno
    cases hno

omit [DecidableEq ι] in
private theorem splice_take {n : ℕ} (hn : n ≤ data.length) (m : ℕ) :
    FileSystem.splice (data.take n) n ((data.drop n).take m)
      = data.take (n + ((data.drop n).take m).length) := by
  have hlen : (data.take n).length = n := by rw [List.length_take, Nat.min_eq_left hn]
  have happend := FileSystem.splice_append (data.take n) ((data.drop n).take m)
  rw [hlen] at happend
  rw [happend, List.take_add, List.length_take, ← List.take_take, List.take_length]

theorem Consistent.write (h : w.Consistent place data unique) (hplace : place ≠ []) {ino n : ℕ}
    (hi : w.phase i = .writing ino n) (m : ℕ) :
    Consistent place data unique ⟨w.fs.write ino n ((data.drop n).take m),
      Function.update w.phase i (.writing ino (n + ((data.drop n).take m).length))⟩ := by
  have hino : (w.phase i).temporary = some ino := by
    rw [hi]
    rfl
  obtain ⟨hopen, hle, hcontent⟩ := h.temporary i ino hino
  rw [hi] at hle hcontent
  change n ≤ data.length at hle
  change w.fs.content ino = data.take n at hcontent
  have hread (p : Place) (hp : p ≠ tmpPlace place (unique i)) :
      (w.fs.write ino n ((data.drop n).take m)).read p = w.fs.read p := by
    rw [FileSystem.read_write hopen, Function.update_of_ne hp]
  have hlen : ((data.drop n).take m).length ≤ data.length - n := by
    rw [List.length_take, List.length_drop]
    exact Nat.min_le_right _ _
  refine h.update ?_ ?_ ?_ ?_ ?_ ?_ ?_ ?_
  · intro q hq
    rw [hread q fun heq ↦ not_prefix_dropLast hplace (Or.inr ⟨i, heq⟩) hq]
    exact h.parents q hq
  · exact h.dir i (by rw [hi]; exact WriterPhase.noConfusion)
  · exact h.free
  · rw [hread place (tmpPlace_ne_place hplace _).symm]
    exact h.value
  · intro j ino' hj hino'
    have hentry := (h.temporary j ino' hino').1
    refine ⟨hentry, Function.update_of_ne ?_ _ _⟩
    rintro rfl
    have hactive (l : ι) (hl : (w.phase l).temporary = some ino') : w.Active l :=
      active_of_temporary hl
    exact h.apart j i hj (hactive j hino') (hactive i hino) (w.fs.single _ _ _ hentry hopen)
  · rintro _ ⟨⟩
    refine ⟨hopen, by change n + _ ≤ _; omega, ?_⟩
    change Function.update w.fs.content ino _ ino = data.take (n + _)
    rw [Function.update_self, hcontent, splice_take hle]
  · intro _ j hj hactive
    exact h.apart j i hj hactive (active_of_temporary hino)
  · intro hno
    cases hno

/-- A file that is written completely takes the place of the blob. -/
private theorem Consistent.rename (h : w.Consistent place data unique) (hplace : place ≠ [])
    {ino : ℕ}
    (hi : w.phase i = .synced ino) :
    ∃ fs, w.fs.rename (tmpPlace place (unique i)) place = some fs ∧
      Consistent place data unique ⟨fs, Function.update w.phase i .returned⟩ := by
  have hino : (w.phase i).temporary = some ino := by
    rw [hi]
    rfl
  obtain ⟨hopen, -, hcontent⟩ := h.temporary i ino hino
  rw [hi] at hcontent
  have hdir := h.dir i (by rw [hi]; exact WriterPhase.noConfusion)
  obtain ⟨fs, hrename⟩ := FileSystem.rename_of_entry hopen (h.free place (Or.inl rfl)) hdir
  have hread := FileSystem.read_rename hrename
  obtain ⟨ino', hopen', hplace', hsame, hgone, hentry⟩ := FileSystem.rename_spec hrename
  have hparent (q : Place) (hq : q <+: place.dropLast) :
      q ≠ tmpPlace place (unique i) ∧ q ≠ place :=
    ⟨fun heq ↦ not_prefix_dropLast hplace (Or.inr ⟨i, heq⟩) hq,
      fun heq ↦ @not_prefix_dropLast _ _ unique hplace _ (Or.inl heq) hq⟩
  refine ⟨fs, hrename, h.update ?_ ?_ ?_ ?_ ?_ ?_ ?_ ?_⟩
  · intro q hq
    rw [hread, Function.update_of_ne (hparent q hq).2, Function.update_of_ne (hparent q hq).1]
    exact h.parents q hq
  · obtain ⟨htmp, hne⟩ := hparent _ List.prefix_rfl
    rw [hentry _ htmp hne]
    exact hdir
  · intro p hp
    by_cases hpp : p = place
    · rw [hpp, hplace']
      intro heq
      cases heq
    · by_cases hpi : p = tmpPlace place (unique i)
      · rw [hpi, hgone (tmpPlace_ne_place hplace _)]
        intro heq
        cases heq
      · rw [hentry p hpi hpp]
        exact h.free p hp
  · -- this is where the blob comes to be
    refine Or.inr ?_
    rw [hread, Function.update_self, FileSystem.read_of_entry hopen, hcontent]
    exact congrArg some List.take_length
  · intro j ino'' hj hino''
    have hactive (l : ι) (ino : ℕ) (hl : (w.phase l).temporary = some ino) : w.Active l :=
      active_of_temporary hl
    rw [hentry _ (h.apart j i hj (hactive j _ hino'') (hactive i _ hino))
      (tmpPlace_ne_place hplace _), hsame]
    exact ⟨(h.temporary j ino'' hino'').1, rfl⟩
  · intro ino hno
    cases hno
  · intro hno
    exact absurd rfl hno
  · intro hno
    cases hno

private theorem Consistent.sync (h : w.Consistent place data unique) {ino n : ℕ}
    (hi : w.phase i = .writing ino n) (hn : ¬n < data.length) :
    Consistent place data unique ⟨w.fs, Function.update w.phase i (.synced ino)⟩ := by
  have hino : (w.phase i).temporary = some ino := by
    rw [hi]
    rfl
  obtain ⟨hopen, hle, hcontent⟩ := h.temporary i ino hino
  rw [hi] at hle hcontent
  refine h.update h.parents ?_ h.free h.value ?_ ?_ ?_ ?_
  · exact h.dir i (by rw [hi]; exact WriterPhase.noConfusion)
  · exact fun j ino' _ hj ↦ ⟨(h.temporary j ino' hj).1, rfl⟩
  · rintro _ ⟨⟩
    have hall : n = data.length := Nat.le_antisymm hle (Nat.le_of_not_lt hn)
    subst hall
    exact ⟨hopen, Nat.le_refl _, hcontent⟩
  · intro _ j hj hactive
    exact h.apart j i hj hactive (active_of_temporary hino)
  · intro hno
    cases hno

variable (data) in
/-- How many steps of a put are done at least. -/
def rank : WriterPhase → ℕ
  | .start => 0
  | .ready => 1
  | .writing _ n => 2 + n
  | .synced _ => 3 + data.length
  | .returned => 4 + data.length
  | .failed => 0

/-- **A step that is clear of the other writers keeps the blob whole,** and brings its own put
further. -/
theorem Consistent.step (h : w.Consistent place data unique) (hplace : place ≠ [])
    (hclear : w.Clear place unique i) (k : ℕ) :
    ∃ fs x, step place data unique i k w = ⟨fs, Function.update w.phase i x⟩ ∧
      min (4 + data.length) (rank data (w.phase i) + 1) ≤ rank data x ∧
        Consistent place data unique ⟨fs, Function.update w.phase i x⟩ := by
  rw [Writing.step]
  split
  · rename_i hi
    obtain ⟨fs, hmkdir, hnext⟩ := h.mkdir (i := i) hplace
    rw [hmkdir, hi]
    exact ⟨fs, .ready, rfl, Nat.min_le_right _ _, hnext⟩
  · rename_i hi
    obtain ⟨fs, ino, hcreate, hnext⟩ := h.create hplace hi hclear
    rw [hcreate, hi]
    exact ⟨fs, .writing ino 0, rfl, Nat.min_le_right _ _, hnext⟩
  · rename_i ino n hi
    rw [hi]
    split
    · rename_i hn
      refine ⟨_, _, rfl, ?_, h.write hplace hi (k + 1)⟩
      have hlen : ((data.drop n).take (k + 1)).length = min (k + 1) (data.length - n) := by
        rw [List.length_take, List.length_drop]
      change _ ≤ 2 + (n + _)
      rw [hlen]
      refine (Nat.min_le_right _ _).trans ?_
      change 2 + n + 1 ≤ _
      omega
    · rename_i hn
      refine ⟨_, _, rfl, ?_, h.sync hi hn⟩
      have hle := (h.temporary i ino (by rw [hi]; rfl)).2.1
      rw [hi] at hle
      change n ≤ data.length at hle
      refine (Nat.min_le_right _ _).trans ?_
      change 2 + n + 1 ≤ 3 + data.length
      omega
  · rename_i ino hi
    obtain ⟨fs, hrename, hnext⟩ := h.rename hplace hi
    rw [hrename]
    exact ⟨fs, .returned, rfl, Nat.min_le_left _ _, hnext⟩
  · rename_i hi
    have hsame : Function.update w.phase i .returned = w.phase :=
      Function.update_eq_self_iff.mpr hi.symm
    refine ⟨w.fs, .returned, ?_, Nat.min_le_left _ _, ?_⟩
    · rw [hsame]
    · rw [hsame]
      exact h
  · rename_i hi
    exact absurd hi (h.working i)

/-- In a run whose steps are clear of the other writers, the blob stays whole and every put gets as
far as it has taken steps. -/
theorem Consistent.run (h : w.Consistent place data unique) (hplace : place ≠ [])
    {steps : List (ι × ℕ)} (hclear : AllClear place data unique w steps) :
    (run place data unique steps w).Consistent place data unique ∧
      ∀ i, min (4 + data.length) (rank data (w.phase i) + (steps.map (·.1)).count i)
        ≤ rank data ((run place data unique steps w).phase i) := by
  induction steps generalizing w with
  | nil => exact ⟨h, fun i ↦ Nat.min_le_right _ _⟩
  | cons s steps ih =>
    obtain ⟨hfirst, hrest⟩ := hclear
    obtain ⟨fs, x, hstep, hrank, hnext⟩ := h.step hplace hfirst s.2
    rw [hstep] at hrest
    obtain ⟨hrun, hranks⟩ := ih hnext hrest
    have heq : Writing.run place data unique (s :: steps) w
        = Writing.run place data unique steps ⟨fs, Function.update w.phase s.1 x⟩ :=
      congrArg (Writing.run place data unique steps) hstep
    rw [heq]
    refine ⟨hrun, fun i ↦ ?_⟩
    refine le_trans ?_ (hranks i)
    change _ ≤ min _ (rank data (Function.update w.phase s.1 x i) + _)
    rw [List.map_cons, List.count_cons]
    by_cases hi : i = s.1
    · subst hi
      rw [Function.update_self, beq_self_eq_true, if_pos rfl]
      omega
    · rw [Function.update_of_ne hi, if_neg (by simpa using Ne.symm hi)]
      exact Nat.le_refl _

end Writing

open Writing

/-- Files among which the puts can begin: the blob is not there or complete, and no file or
directory is in the way of the directory, the blob or a temporary file. -/
structure Startable (fs : FileSystem) (place : Place) (data : Bytes) (unique : ι → ℕ) : Prop where
  parents : ∀ q, q <+: place.dropLast → fs.read q = none
  free : ∀ p, p = place ∨ (∃ i, p = tmpPlace place (unique i)) → fs.entry p ≠ some .dir
  value : fs.read place = none ∨ fs.read place = some data

/-- **A blob is written completely or not at all.** Any number of puts of the same data under one
key, with any values of their counters, take their steps in any order; each creates its temporary
file only while no other put that is still writing has one of that name. Then at any moment `get` of
the key returns nothing or the complete data, no put has failed, and a put that took as many steps
as it has system calls has returned. -/
theorem writers_atomic (self : FsBackend) (key : String) (place : Place) (data : Bytes)
    (unique : ι → ℕ) (fs : FileSystem) (steps : List (ι × ℕ))
    (hkey : self.locate key = some ⟨place, false⟩) (hplace : place ≠ [])
    (hstart : Startable fs place data unique)
    (hclear : AllClear place data unique (begin fs) steps) :
    (self.get (run place data unique steps (begin fs)).fs key = some none ∨
        self.get (run place data unique steps (begin fs)).fs key = some (some data)) ∧
      ∀ i, (run place data unique steps (begin fs)).phase i ≠ .failed ∧
        (4 + data.length ≤ (steps.map (·.1)).count i →
          (run place data unique steps (begin fs)).phase i = .returned) := by
  have hbegin : Consistent place data unique (begin fs : Writing ι) :=
    ⟨hstart.parents, fun _ hi ↦ absurd rfl hi, hstart.free, hstart.value,
      fun _ _ hi ↦ (nomatch hi), fun _ _ _ hi ↦ absurd rfl hi, fun _ hi ↦ (nomatch hi)⟩
  obtain ⟨hrun, hranks⟩ := hbegin.run hplace hclear
  have hget := @get_eq self (run place data unique steps (begin fs)).fs _ _ hkey
  rw [hget]
  refine ⟨?_, fun i ↦ ⟨hrun.working i, fun hcount ↦ ?_⟩⟩
  · cases self.leads key with
    | true => exact hrun.value.imp (congrArg some) (congrArg some)
    | false => exact Or.inl rfl
  have hrank := hranks i
  rw [Nat.min_eq_left (hcount.trans (Nat.le_add_left _ _))] at hrank
  -- only a put that has returned is that far
  revert hrank
  cases hphase : (run place data unique steps (begin fs)).phase i with
  | returned => exact fun _ ↦ rfl
  | writing ino n =>
    intro hrank
    have hle := (hrun.temporary i ino (by rw [hphase]; rfl)).2.1
    rw [hphase] at hle
    change n ≤ data.length at hle
    change _ ≤ 2 + n at hrank
    omega
  | start => intro hrank; exact absurd hrank (by change ¬_ ≤ 0; omega)
  | ready => intro hrank; exact absurd hrank (by change ¬_ ≤ 1; omega)
  | synced ino => intro hrank; exact absurd hrank (by change ¬_ ≤ 3 + _; omega)
  | failed => exact absurd hphase (hrun.working i)

variable {place : Place} {unique : ι → ℕ} in
theorem allClear_of_ne {data : Bytes}
    (h : ∀ i j, j ≠ i → tmpPlace place (unique j) ≠ tmpPlace place (unique i))
    (steps : List (ι × ℕ)) (w : Writing ι) : AllClear place data unique w steps := by
  induction steps generalizing w with
  | nil => trivial
  | cons s steps ih => exact ⟨fun _ j hj _ ↦ h s.1 j hj, ih _⟩

def twoBytes : Bytes := [1, 2]

/-- Two puts that take turns, one byte at a time, the second with the next value of the counter. -/
def turns : List (Bool × ℕ) := [(false, 0), (true, 0), (false, 0), (true, 0), (false, 0), (true, 0)]

omit [DecidableEq ι] in
private theorem startable_empty (key : UnixPath.Path) (data : Bytes) (unique : ι → ℕ) :
    Startable .empty [key] data unique := by
  have hentry (p : Place) (hp : p ≠ []) : FileSystem.empty.entry p = none := if_neg hp
  have hread (p : Place) : FileSystem.empty.read p = none := by
    rw [FileSystem.read]
    split
    · rename_i ino h
      change (if p = [] then some Entry.dir else none) = _ at h
      split at h <;> cases h
    · rfl
  refine ⟨fun q _ ↦ hread q, ?_, Or.inl (hread _)⟩
  rintro p (rfl | ⟨i, rfl⟩)
  · rw [hentry _ (List.cons_ne_nil _ _)]
    intro h
    cases h
  · have hne : tmpPlace [key] (unique i) ≠ [] :=
      List.append_ne_nil_of_right_ne_nil _ (List.cons_ne_nil _ _)
    rw [hentry _ hne]
    intro h
    cases h

theorem writers_atomic_turns :
    ((FsBackend.mk "root".toList).get (run ["k".toList] twoBytes (fun i : Bool ↦ i.toNat) turns
          (begin .empty)).fs "k" = some none ∨
        (FsBackend.mk "root".toList).get (run ["k".toList] twoBytes (fun i : Bool ↦ i.toNat) turns
          (begin .empty)).fs "k" = some (some twoBytes)) ∧
      ∀ i, (run ["k".toList] twoBytes (fun i : Bool ↦ i.toNat) turns (begin .empty)).phase i
        ≠ .failed ∧
        (4 + twoBytes.length ≤ (turns.map (·.1)).count i →
          (run ["k".toList] twoBytes (fun i : Bool ↦ i.toNat) turns (begin .empty)).phase i
            = .returned) := by
  have hkey : (FsBackend.mk "root".toList).locate "k" = some ⟨["k".toList], false⟩ :=
    locate_eq_some.mpr ⟨⟨_, keyToPath_eq_ok_iff.mpr
      ⟨⟨by decide, by decide, by decide, by decide⟩, rfl⟩⟩,
        congrArg₂ Location.mk (by decide) (by decide)⟩
  refine writers_atomic (.mk "root".toList) "k" ["k".toList] twoBytes (fun i : Bool ↦ i.toNat)
    .empty turns hkey (by decide) (startable_empty _ _ _) (allClear_of_ne ?_ turns _)
  rintro (_ | _) (_ | _) hne
  · exact absurd rfl hne
  · decide
  · decide
  · exact absurd rfl hne

/-- Two processes whose counters both begin at zero: the second cuts off what the first has written,
and the first renames it. -/
theorem not_writers_atomic : ¬∀ (steps : List (Bool × ℕ)),
    ((FsBackend.mk "root".toList).get (run ["k".toList] twoBytes (fun _ : Bool ↦ 0) steps
          (begin .empty)).fs "k" = some none ∨
        (FsBackend.mk "root".toList).get (run ["k".toList] twoBytes (fun _ : Bool ↦ 0) steps
          (begin .empty)).fs "k" = some (some twoBytes)) ∧
      ∀ i, (run ["k".toList] twoBytes (fun _ : Bool ↦ 0) steps (begin .empty)).phase i
        ≠ .failed := by
  intro h
  have hget :=
    (h [(false, 0), (false, 0), (false, 1), (false, 0), (true, 0), (true, 0), (false, 0)]).1
  exact absurd hget (by decide)

/-- The put of the second then fails, since its temporary file is gone. -/
example : (run ["k".toList] twoBytes (fun _ : Bool ↦ 0)
    [(false, 0), (false, 0), (false, 1), (false, 0), (true, 0), (true, 0), (false, 0), (true, 1),
      (true, 0), (true, 0)] (begin .empty)).phase true = .failed := by decide

end FsBackend

end Chunkstore

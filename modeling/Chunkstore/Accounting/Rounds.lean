import Mathlib.Algebra.Order.BigOperators.Group.List
import Mathlib.Data.List.Dedup
import Mathlib.Data.List.Induction
import Chunkstore.Crash.Openable

/-!
# The loop of `rebuild_stats` on `u64`s

The counters of the source are `u64`s. An addition or a multiplication whose result does not fit
panics in a debug build and wraps in a release build, so each is looked at on its own:
`Stats.results` are the exact results of the operations of one round, and `rebuildStatWrapping` is
the round as a release build makes it.

The entries come out of a hash map in an order that is not said. An entry without a size whose blob
is gone ends the loop with an error, and which rounds come before it depends on that order. So what
is said about the rounds is said for every order.

## Main result

* `opensExactly_iff`: on a backend that loads, opening makes no operation that does not fit, and
  sums up exactly, if and only if the sizes times the counts sum up to a `u64`. Entries that cannot
  be sized count for nothing.
-/

open Effects Program

namespace Chunkstore

/-! ## Rounds -/

/-- A result on a `u64` that wraps. -/
def wrap (n : ℕ) : ℕ := n % (u64Max + 1)

theorem wrap_of_le {n : ℕ} (h : n ≤ u64Max) : wrap n = n := Nat.mod_eq_of_lt (Nat.lt_succ_of_le h)

theorem wrap_add_wrap (a b : ℕ) : wrap (wrap a + wrap b) = wrap (a + b) :=
  (Nat.add_mod a b (u64Max + 1)).symm

theorem wrap_wrap_add (a b : ℕ) : wrap (wrap a + b) = wrap (a + b) := Nat.mod_add_mod a _ b

namespace Stats

/-- What a round of `rebuild_stats` makes of the statistics. -/
def round (stats : Stats) (size count : ℕ) : Stats :=
  { stats with
    storedBytes := stats.storedBytes + size
    totalBytes := stats.totalBytes + size * count }

/-- The round on `u64`s that wrap. -/
def roundWrapping (stats : Stats) (size count : ℕ) : Stats :=
  { stats with
    storedBytes := wrap (stats.storedBytes + size)
    totalBytes := wrap (stats.totalBytes + wrap (size * count)) }

/-- The exact results of the `u64` operations of a round. -/
def results (stats : Stats) (size count : ℕ) : List ℕ :=
  [stats.storedBytes + size, size * count, stats.totalBytes + size * count]

variable {α : Type} (size count : α → ℕ)

theorem foldl_round (l : List α) (stats : Stats) :
    (l.foldl (fun st a ↦ st.round (size a) (count a)) stats).storedBytes
        = stats.storedBytes + (l.map size).sum ∧
      (l.foldl (fun st a ↦ st.round (size a) (count a)) stats).totalBytes
        = stats.totalBytes + (l.map fun a ↦ size a * count a).sum := by
  induction l generalizing stats with
  | nil => exact ⟨rfl, rfl⟩
  | cons a l ih =>
    obtain ⟨hst, hto⟩ := ih (stats.round (size a) (count a))
    rw [List.foldl_cons, hst, hto, List.map_cons, List.sum_cons, List.map_cons, List.sum_cons,
      ← Nat.add_assoc, ← Nat.add_assoc]
    exact ⟨rfl, rfl⟩

/-- Rounds that wrap sum up to what the sums wrap to. -/
theorem foldl_roundWrapping (l : List α) (stats : Stats) {m n : ℕ}
    (hm : stats.storedBytes = wrap m) (hn : stats.totalBytes = wrap n) :
    (l.foldl (fun st a ↦ st.roundWrapping (size a) (count a)) stats).storedBytes
        = wrap (m + (l.map size).sum) ∧
      (l.foldl (fun st a ↦ st.roundWrapping (size a) (count a)) stats).totalBytes
        = wrap (n + (l.map fun a ↦ size a * count a).sum) := by
  induction l generalizing stats m n with
  | nil => exact ⟨hm, hn⟩
  | cons a l ih =>
    rw [List.foldl_cons, List.map_cons, List.sum_cons, List.map_cons, List.sum_cons,
      ← Nat.add_assoc, ← Nat.add_assoc]
    refine ih _ ?_ ?_
    · rw [roundWrapping, hm, wrap_wrap_add]
    · rw [roundWrapping, hn, wrap_add_wrap]

end Stats

/-! ## The loop -/

namespace ChunkStore

variable (self : ChunkStore)

/-- The size that a round of `rebuild_stats` goes by. -/
def entrySize (entry : String × ChunkRef) : StoreM ℕ :=
  if 0 < entry.2.size then pure entry.2.size else self.chunkSize entry.1

theorem rebuildStat_eq (stats : Stats) (entry : String × ChunkRef) :
    self.rebuildStat stats entry = (do
      let size ← self.entrySize entry
      return stats.round size entry.2.count) := by
  rw [rebuildStat, entrySize]
  split <;> rfl

/-- One round of the loop of `rebuild_stats` in a release build. -/
def rebuildStatWrapping (stats : Stats) (entry : String × ChunkRef) : StoreM Stats := do
  let size ← self.entrySize entry
  return stats.roundWrapping size entry.2.count

end ChunkStore

/-- What code returns in a state on a fault-free backend. -/
def Returns {α : Type} (p : StoreM α) (s : State) (a : α) : Prop :=
  (callHandler.eval (flat p).run s).1 = .ok a

/-- An entry whose size is recorded or can be looked up. -/
def Sizable (s : State) (e : String × ChunkRef) : Prop := e.2.size = 0 → (s.find e.1).isSome

instance (s : State) (e : String × ChunkRef) : Decidable (Sizable s e) :=
  inferInstanceAs (Decidable (e.2.size = 0 → (s.find e.1).isSome))

section Loop

variable {crates : Crates} {s : State} {e : String × ChunkRef} {l : List (String × ChunkRef)}

theorem returns_iff {α : Type} {p : StoreM α} {P : Prop} {a₀ a : α}
    (h : quietly (flat p) (fun a _ ↦ P ∧ a = a₀) (fun _ _ ↦ ¬P) s) :
    Returns p s a ↔ P ∧ a = a₀ := by
  have hrun := quietly_eval h
  rw [Returns]
  cases hr : (callHandler.eval (flat p).run s).1 with
  | ok b =>
    rw [hr] at hrun
    obtain ⟨hp, rfl⟩ := hrun
    exact ⟨fun hb ↦ ⟨hp, (Except.ok.inj hb).symm⟩, fun hb ↦ by rw [hb.2]⟩
  | error err =>
    rw [hr] at hrun
    refine ⟨fun hb ↦ ?_, fun hb ↦ absurd hb.1 hrun⟩
    cases hb

/-- The size of an entry is found exactly when the entry can be sized. -/
theorem quietly_entrySize (he : e ∈ s.fields.refcount.iterRefs) :
    quietly (flat ((ChunkStore.mk crates none).entrySize e))
      (fun size s' ↦ s' = s ∧ Sizable s e ∧ size = rebuiltSize s e) (fun _ _ ↦ ¬Sizable s e) s := by
  obtain ⟨d, r⟩ := e
  simp only [ChunkStore.entrySize, flat_ite, flat_pure]
  split
  · rename_i hpos
    exact quietly_pure ⟨rfl, fun h0 ↦ absurd h0 (Nat.pos_iff_ne_zero.mp hpos),
      (if_pos hpos).symm⟩
  · rename_i hpos
    have h0 : r.size = 0 := Nat.eq_zero_of_not_pos hpos
    simp only [ChunkStore.chunkSize, flat_bind, flat_locked, flat_ite, flat_pure, flat_unlocked]
    refine quietly_bind (quietly_field ?_)
    dsimp only [FieldAccess.run, State.withFields_fields]
    rw [RefCount.sizeOf, RefCount.mem_iterRefs.mp he, Option.map_some, Option.getD_some,
      if_neg hpos]
    refine quietly_bind (quietly_get ?_)
    cases hraw : s.find d with
    | none =>
      refine quietly_throw fun hsize ↦ ?_
      have hsome := hsize h0
      rw [hraw] at hsome
      cases hsome
    | some raw =>
      refine quietly_pure ⟨rfl, fun _ ↦ by rw [hraw]; rfl, ?_⟩
      rw [rebuiltSize, if_neg hpos, hraw]
      rfl

/-- A loop over entries returns exactly when each can be sized. -/
theorem returns_rounds (g : Stats → ℕ → ℕ → Stats)
    (hl : ∀ e ∈ l, e ∈ s.fields.refcount.iterRefs) {st st' : Stats} :
    Returns (l.foldlM (fun st e ↦ do
        let size ← (ChunkStore.mk crates none).entrySize e
        return g st size e.2.count) st) s st' ↔
      (∀ e ∈ l, Sizable s e) ∧ st' = l.foldl (fun st e ↦ g st (rebuiltSize s e) e.2.count) st := by
  refine returns_iff ?_
  simp only [flat_foldlM, flat_bind, flat_pure]
  refine quietly_mono (quietly_foldlM_loads (J := fun rest st' ↦
    rest.foldl (fun st e ↦ g st (rebuiltSize s e) e.2.count) st'
      = l.foldl (fun st e ↦ g st (rebuiltSize s e) e.2.count) st)
    (L := Sizable s) (fun e he rest st' hj ↦ ?_) st rfl) (fun st' s' h ↦ ⟨h.2.1, h.2.2⟩)
    fun _ _ h ↦ h
  refine quietly_bind (quietly_mono (quietly_entrySize (hl e he)) ?_ fun _ _ h ↦ h)
  rintro size s' ⟨rfl, hsize, rfl⟩
  exact quietly_pure ⟨rfl, hsize, hj⟩

theorem returns_entrySize (he : e ∈ s.fields.refcount.iterRefs) {size : ℕ} :
    Returns ((ChunkStore.mk crates none).entrySize e) s size ↔
      Sizable s e ∧ size = rebuiltSize s e :=
  returns_iff (quietly_mono (quietly_entrySize he) (fun _ _ h ↦ h.2) fun _ _ h ↦ h)

theorem rebuiltSize_of_not_sizable (h : ¬Sizable s e) : rebuiltSize s e = 0 := by
  have h0 : e.2.size = 0 := by
    by_contra hne
    exact h fun h0 ↦ absurd h0 hne
  have hnone : s.find e.1 = none := by
    rw [← Option.isNone_iff_eq_none, ← Option.not_isSome, Bool.not_eq_true', ← Bool.not_eq_true]
    exact fun hsome ↦ h fun _ ↦ hsome
  rw [rebuiltSize, h0, if_neg (Nat.lt_irrefl 0), hnone]
  rfl

end Loop

/-! ## Opening exactly -/

/-- In every order of the entries, the operations of every round that the loop gets to fit. -/
def RoundsFit (store : ChunkStore) (s : State) : Prop :=
  ∀ done entry rest, (done ++ entry :: rest).Perm s.fields.refcount.iterRefs →
    ∀ stats size, Returns (done.foldlM store.rebuildStat {}) s stats →
      Returns (store.entrySize entry) s size →
        ∀ n ∈ stats.results size entry.2.count, n ≤ u64Max

section Definitions

variable (crates : Crates) (s : State)

/-- The entries that a backend has refcount records for. -/
def persistedRefs : List (String × ChunkRef) :=
  ((readIndex crates s refcountIndexKey).getD []).dedup.filterMap fun d ↦
    (persistedRef crates s d).map fun r ↦ (d, r)

/-- The sizes times the counts of all records, a size that is not recorded being that of the
blob. -/
def persistedTotal : ℕ :=
  ((persistedRefs crates s).map fun e ↦ rebuiltSize s e * e.2.count).sum

/-- The sizes of all records. -/
def persistedStored : ℕ := ((persistedRefs crates s).map (rebuiltSize s)).sum

/-- No operation of opening overflows, and on `u64`s the loop sums up exactly. -/
structure OpensExactly : Prop where
  fits : ∀ s₁, callHandler.eval (loadMetadata crates).run s = (.ok (), s₁) →
    RoundsFit ⟨crates, none⟩ s₁
  sums : ∀ s₁, callHandler.eval (loadMetadata crates).run s = (.ok (), s₁) →
    ∀ order : List (String × ChunkRef), order.Perm s₁.fields.refcount.iterRefs → ∀ stats,
      Returns (order.foldlM (ChunkStore.mk crates none).rebuildStatWrapping {}) s₁ stats →
        stats.totalBytes = persistedTotal crates s ∧ stats.storedBytes = persistedStored crates s

/-- The sums of a backend that loads are `u64`s. -/
def OpenFits : Prop :=
  ManifestsLoad crates s none ∧ CountsLoad crates s → persistedTotal crates s ≤ u64Max

end Definitions

/-! ### The records and the entries -/

theorem map_fst_filterMap {κ V : Type} (o : κ → Option V) (l : List κ) :
    (l.filterMap fun k ↦ (o k).map fun v ↦ (k, v)).map Prod.fst
      = l.filter fun k ↦ (o k).isSome := by
  induction l with
  | nil => rfl
  | cons k l ih =>
    cases hk : o k with
    | none =>
      rw [List.filterMap_cons_none (by rw [hk]; rfl), List.filter_cons_of_neg (by simp [hk]), ih]
    | some v =>
      rw [List.filterMap_cons_some (by rw [hk]; rfl), List.filter_cons_of_pos (by simp [hk]),
        List.map_cons, ih]

section Loaded

variable {crates : Crates} {s s₁ : State} {e : String × ChunkRef} {l : List (String × ChunkRef)}

theorem Opened.loaded (h : Opened crates s s₁) : Loaded crates s s₁ :=
  ⟨h.openable.manifests, h.openable.refcounts.counts, h.find, h.files, h.mirrors, h.refs, h.sized⟩

theorem isListed_of_persistedRef {d : String} (h : (persistedRef crates s d).isSome) :
    IsListed crates s d := by
  by_contra hno
  rw [persistedRef, if_neg hno] at h
  cases h

theorem mem_persistedRefs : e ∈ persistedRefs crates s ↔ persistedRef crates s e.1 = some e.2 := by
  rw [persistedRefs, List.mem_filterMap]
  constructor
  · rintro ⟨d, -, hd⟩
    obtain ⟨r, hr, rfl⟩ := Option.map_eq_some_iff.mp hd
    exact hr
  · intro he
    exact ⟨e.1, List.mem_dedup.mpr (isListed_of_persistedRef (by rw [he]; rfl)), by rw [he]; rfl⟩

private theorem Loaded.exists_entry (h : Loaded crates s s₁) (he : e ∈ persistedRefs crates s) :
    ∃ r, s₁.fields.refcount.counts.find e.1 = some r ∧ r.count = e.2.count ∧
      rebuiltSize s₁ (e.1, r) = rebuiltSize s e := by
  have hrec := mem_persistedRefs.mp he
  rcases h.refs e.1 with hr | ⟨r₀, raw, hr₀, h0, hraw, hr⟩
  · rw [hrec] at hr
    have hd := (h.mirrors.valid _ _ hr).1
    exact ⟨e.2, hr,
      rfl, by rw [rebuiltSize, rebuiltSize, h.find _ (offRefcount_of_isChunkDigest hd)]⟩
  · rw [hrec] at hr₀
    obtain rfl := Option.some.inj hr₀
    have hd := (h.mirrors.valid _ _ hr).1
    refine ⟨_, hr, rfl, ?_⟩
    rw [rebuiltSize, rebuiltSize, h.find _ (offRefcount_of_isChunkDigest hd), hraw, h0,
      if_neg (Nat.lt_irrefl 0), Option.getD_some]
    split <;> rfl

theorem Loaded.sum_entries (h : Loaded crates s s₁) (F : ℕ → ℕ → ℕ) :
    (s₁.fields.refcount.iterRefs.map fun e ↦ F (rebuiltSize s₁ e) e.2.count).sum
      = ((persistedRefs crates s).map fun e ↦ F (rebuiltSize s e) e.2.count).sum := by
  -- both are sums over the same digests, of what is found for each in memory
  let g : String → ℕ := fun d ↦
    ((s₁.fields.refcount.counts.find d).map fun r ↦ F (rebuiltSize s₁ (d, r)) r.count).getD 0
  have hentries : s₁.fields.refcount.iterRefs.map (fun e ↦ F (rebuiltSize s₁ e) e.2.count)
      = (s₁.fields.refcount.iterRefs.map Prod.fst).map g := by
    rw [List.map_map]
    refine List.map_congr_left fun e he ↦ ?_
    change _ = g e.1
    have hfind : s₁.fields.refcount.counts.find e.1 = some e.2 := RefCount.mem_iterRefs.mp he
    dsimp only [g]
    rw [hfind]
    rfl
  have hrecords : (persistedRefs crates s).map (fun e ↦ F (rebuiltSize s e) e.2.count)
      = ((persistedRefs crates s).map Prod.fst).map g := by
    rw [List.map_map]
    refine List.map_congr_left fun e he ↦ ?_
    change _ = g e.1
    obtain ⟨r, hr, hcount, hsize⟩ := h.exists_entry he
    dsimp only [g]
    rw [hr, Option.map_some, Option.getD_some, hcount, hsize]
  have hkeys : s₁.fields.refcount.iterRefs.map Prod.fst = s₁.fields.refcount.counts.keys := by
    rw [RefCount.iterRefs, Table.pairs, List.map_map]
    rfl
  have hperm : (s₁.fields.refcount.iterRefs.map Prod.fst).Perm
      ((persistedRefs crates s).map Prod.fst) := by
    rw [hkeys, persistedRefs, map_fst_filterMap]
    refine (List.perm_ext_iff_of_nodup (Table.nodup_keys _)
      ((List.nodup_dedup _).filter _)).mpr fun d ↦ ?_
    rw [Table.mem_keys, List.mem_filter, List.mem_dedup]
    constructor
    · intro hsome
      have hrec : (persistedRef crates s d).isSome := by
        rcases h.refs d with hr | ⟨r, -, hr, -⟩
        · rwa [← hr]
        · rw [hr]
          rfl
      exact ⟨isListed_of_persistedRef hrec, hrec⟩
    · rintro ⟨-, hrec⟩
      obtain ⟨r, hr⟩ := Option.isSome_iff_exists.mp hrec
      obtain ⟨r', hr', -⟩ := h.exists_entry (e := (d, r)) (mem_persistedRefs.mpr hr)
      rw [hr']
      rfl
  rw [hentries, hrecords]
  exact (hperm.map g).sum_eq

theorem sum_filter_sizable (l : List (String × ChunkRef)) :
    ((l.filter fun e ↦ decide (Sizable s e)).map fun e ↦ rebuiltSize s e * e.2.count).sum
      = (l.map fun e ↦ rebuiltSize s e * e.2.count).sum := by
  induction l with
  | nil => rfl
  | cons e l ih =>
    by_cases he : Sizable s e
    · rw [List.filter_cons, if_pos (decide_eq_true he), List.map_cons, List.sum_cons, ih,
        List.map_cons, List.sum_cons]
    · rw [List.filter_cons, if_neg (by simpa using he), ih, List.map_cons, List.sum_cons,
        rebuiltSize_of_not_sizable he, Nat.zero_mul, Nat.zero_add]

theorem sum_size_le (hl : ∀ e ∈ l, 0 < e.2.count) :
    (l.map (rebuiltSize s)).sum ≤ (l.map fun e ↦ rebuiltSize s e * e.2.count).sum :=
  List.sum_le_sum fun e he ↦ Nat.le_mul_of_pos_right _ (hl e he)

variable {st : Stats}

private theorem returns_rebuild (hl : ∀ e ∈ l, e ∈ s.fields.refcount.iterRefs) :
    Returns (l.foldlM (ChunkStore.mk crates none).rebuildStat {}) s st ↔ (∀ e ∈ l, Sizable s e) ∧
      st = l.foldl (fun st e ↦ st.round (rebuiltSize s e) e.2.count) {} := by
  refine Iff.trans ?_ (@returns_rounds crates _ _ Stats.round hl _ _)
  exact iff_of_eq (congrArg (fun f ↦ Returns (l.foldlM f {}) s st)
    (funext fun _ ↦ funext fun _ ↦ ChunkStore.rebuildStat_eq _ _ _))

private theorem returns_rebuildWrapping (hl : ∀ e ∈ l, e ∈ s.fields.refcount.iterRefs) :
    Returns (l.foldlM (ChunkStore.mk crates none).rebuildStatWrapping {}) s st ↔
      (∀ e ∈ l, Sizable s e) ∧
        st = l.foldl (fun st e ↦ st.roundWrapping (rebuiltSize s e) e.2.count) {} :=
  @returns_rounds crates _ _ Stats.roundWrapping hl _ _

/-- **The rounds fit** exactly when the entries take no more than a `u64`. -/
theorem roundsFit_iff (hcount : ∀ e ∈ s.fields.refcount.iterRefs, 0 < e.2.count) :
    RoundsFit ⟨crates, none⟩ s ↔
      (s.fields.refcount.iterRefs.map fun e ↦ rebuiltSize s e * e.2.count).sum ≤ u64Max := by
  constructor
  · intro h
    -- the order in which every entry that can be sized comes before every one that cannot
    rw [← sum_filter_sizable]
    have hperm := List.filter_append_perm (fun e ↦ decide (Sizable s e)) s.fields.refcount.iterRefs
    generalize hsized : s.fields.refcount.iterRefs.filter (fun e ↦ decide (Sizable s e)) = sized
      at hperm ⊢
    have hmem : ∀ e ∈ sized, e ∈ s.fields.refcount.iterRefs ∧ Sizable s e := fun e he ↦ by
      rw [← hsized, List.mem_filter, decide_eq_true_iff] at he
      exact he
    cases sized using List.reverseRecOn with
    | nil => exact Nat.zero_le _
    | append_singleton done entry ih =>
      clear ih
      rw [List.append_assoc] at hperm
      have hentry := hmem entry (List.mem_append_right _ (List.mem_singleton_self _))
      have hdone : ∀ e ∈ done, e ∈ s.fields.refcount.iterRefs ∧ Sizable s e := fun e he ↦
        hmem e (List.mem_append_left _ he)
      have hfit := h done entry _ hperm _ _
        ((returns_rebuild fun e he ↦ (hdone e he).1).mpr ⟨fun e he ↦ (hdone e he).2, rfl⟩)
        ((returns_entrySize hentry.1).mpr ⟨hentry.2, rfl⟩) _
        (List.mem_cons_of_mem _ (List.mem_cons_of_mem _ (List.mem_singleton_self _)))
      rw [(Stats.foldl_round (rebuiltSize s) (fun e ↦ e.2.count) done {}).2,
        show ({} : Stats).totalBytes = 0 from rfl, Nat.zero_add] at hfit
      rw [List.map_append, List.sum_append, List.map_singleton, List.sum_singleton]
      exact hfit
  · intro h done entry rest hperm stats size hstats hsize n hn
    have hall : ∀ e ∈ done ++ entry :: rest, e ∈ s.fields.refcount.iterRefs := fun e he ↦
      hperm.mem_iff.mp he
    have hdone : ∀ e ∈ done, e ∈ s.fields.refcount.iterRefs := fun e he ↦
      hall e (List.mem_append_left _ he)
    have hentry : entry ∈ s.fields.refcount.iterRefs :=
      hall entry (List.mem_append_right _ List.mem_cons_self)
    obtain ⟨-, rfl⟩ := (returns_rebuild hdone).mp hstats
    obtain ⟨-, rfl⟩ := (returns_entrySize hentry).mp hsize
    obtain ⟨hst, hto⟩ := Stats.foldl_round (rebuiltSize s) (fun e ↦ e.2.count) done {}
    have hsum := (hperm.map fun e ↦ rebuiltSize s e * e.2.count).sum_eq
    rw [List.map_append, List.sum_append, List.map_cons, List.sum_cons] at hsum
    have hle := sum_size_le (s := s) fun e he ↦ hcount e (hdone e he)
    have hself := Nat.le_mul_of_pos_right (rebuiltSize s entry) (hcount entry hentry)
    rw [Stats.results, hst, hto] at hn
    simp only [List.mem_cons, List.not_mem_nil, or_false, Nat.zero_add] at hn
    rcases hn with rfl | rfl | rfl
    all_goals omega

end Loaded

/-- **Opening exactly.** Opening a backend that loads makes no operation that does not fit, and sums
up exactly, if and only if the sizes times the counts sum up to a `u64`. -/
theorem opensExactly_iff (crates : Crates) (s : State) :
    OpensExactly crates s ↔ OpenFits crates s := by
  have hload := quietly_eval (p := loadMetadata crates) (s := s) quietly_loadMetadata
  constructor
  · rintro ⟨hfits, -⟩ hloads
    cases hr : (callHandler.eval (loadMetadata crates).run s).1 with
    | error e =>
      rw [hr] at hload
      exact absurd hloads hload
    | ok u =>
      rw [hr] at hload
      have hcount : ∀ e ∈ (callHandler.eval (loadMetadata crates).run s).2.fields.refcount.iterRefs,
          0 < e.2.count := fun e he ↦ (hload.mirrors.valid e.1 e.2 (RefCount.mem_iterRefs.mp he)).2
      have h := (roundsFit_iff hcount).mp (hfits _ (Prod.ext hr rfl))
      rwa [hload.sum_entries fun size count ↦ size * count] at h
  · intro h
    have hloaded : ∀ s₁, callHandler.eval (loadMetadata crates).run s = (.ok (), s₁) →
        Loaded crates s s₁ := fun s₁ hs ↦ by
      rw [hs] at hload
      exact hload
    have hcount : ∀ s₁, Loaded crates s s₁ → ∀ e ∈ s₁.fields.refcount.iterRefs, 0 < e.2.count :=
      fun s₁ hl e he ↦ (hl.mirrors.valid e.1 e.2 (RefCount.mem_iterRefs.mp he)).2
    refine ⟨fun s₁ hs ↦ ?_, fun s₁ hs order hperm stats hstats ↦ ?_⟩
    · have hl := hloaded s₁ hs
      rw [roundsFit_iff (hcount s₁ hl), hl.sum_entries fun size count ↦ size * count]
      exact h ⟨hl.manifests, hl.counts⟩
    · have hl := hloaded s₁ hs
      have hfits := h ⟨hl.manifests, hl.counts⟩
      obtain ⟨-, rfl⟩ := (returns_rebuildWrapping fun e he ↦ hperm.mem_iff.mp he).mp hstats
      obtain ⟨hst, hto⟩ := Stats.foldl_roundWrapping (rebuiltSize s₁) (fun e ↦ e.2.count) order {}
        (m := 0) (n := 0) rfl rfl
      have hle := sum_size_le (s := s₁) (hcount s₁ hl)
      have htotal := hl.sum_entries fun size count ↦ size * count
      have hstored := hl.sum_entries fun size _ ↦ size
      rw [(hperm.map fun e ↦ rebuiltSize s₁ e * e.2.count).sum_eq, Nat.zero_add, htotal] at hto
      rw [(hperm.map (rebuiltSize s₁)).sum_eq, Nat.zero_add, hstored] at hst
      rw [htotal, hstored] at hle
      exact ⟨hto.trans (wrap_of_le hfits), hst.trans (wrap_of_le (hle.trans hfits))⟩

end Chunkstore

import Mathlib.Algebra.Group.Pi.Basic
import Mathlib.Algebra.Group.Prod
import Chunkstore.Accounting.Mirrored
import Chunkstore.Concurrent.Blocks
import Chunkstore.Effects.Trace

/-!
# Reference counts under concurrency

An ingest looks up the list it replaces in one critical section, inserts its own in another and
releases the list it has looked up later. In between another thread may exchange the entry: then a
list is released twice, or never.

So what is looked up and what is replaced are two quantities of a run. Each digest of a list that
was looked up is a reference that will be released, each digest of a list that was replaced is one
that has left the manifest, and the counts are off by the difference.

## Main result

`ChunkStore.concurrent_counts_iff`: when threads that started on exact counts have all returned, the
counts are exact if and only if, digest by digest, as much was looked up as was replaced.
-/

open Effects Program

namespace Chunkstore

/-- The counts are the occurrences over the manifest, and every entry counts something. -/
structure State.Exact (s : State) : Prop where
  counts : ∀ d, s.fields.refcount.countOf d = s.fields.manifest.occurrences d
  positive : ∀ d r, s.fields.refcount.counts.find d = some r → 0 < r.count

/-! ## Lists looked up and lists replaced -/

/-- How often a digest occurs in the list that an ingest looks up. -/
def Call.lookedUp (digest : String) {γ : Type} : Call γ → State → ℕ
  | .field (.manifestTryGet fileId), s =>
    ((s.fields.manifest.tryGet fileId).getD []).count digest
  | _, _ => 0

/-- How often a digest occurs in the list that an insertion replaces. -/
def Call.replaced (digest : String) {γ : Type} : Call γ → State → ℕ
  | .field (.manifestInsert fileId _ _), s =>
    ((s.fields.manifest.tryGet fileId).getD []).count digest
  | _, _ => 0

/-- What a block looks up and what it replaces, digest by digest. -/
def Block.lists {γ : Type} (s : State) (b : Block γ) : (String → ℕ) × (String → ℕ) :=
  (fun d ↦ callHandler.tally (Call.lookedUp d) b.body s,
    fun d ↦ callHandler.tally (Call.replaced d) b.body s)

/-! ## The invariant -/

/-- Every reference is one of the manifest or is held by a thread, except for the difference between
what was looked up and what was replaced. -/
structure Ledgered (held : String → ℕ) (c : State × (String → ℕ) × (String → ℕ)) : Prop where
  counts : ∀ d, c.1.fields.refcount.countOf d + c.2.1 d
    = c.1.fields.manifest.occurrences d + held d + c.2.2 d
  positive : ∀ d r, c.1.fields.refcount.counts.find d = some r → 0 < r.count

/-- The world of threads with this tally. -/
abbrev listsWorld : Machine Block (State × (String → ℕ) × (String → ℕ)) :=
  threadWorld Block.lists fun _ _ ↦ True

/-- A request that neither moves a list nor a count, and looks no list up. -/
def Call.Uncounting {γ : Type} : Call γ → Prop
  | .field (.construct _ _) => False
  | .field (.manifestTryGet _) => False
  | .field (.manifestInsert _ _ _) => False
  | .field (.manifestRemove _) => False
  | .field (.refcountIncrement _ _) => False
  | .field (.refcountDecrement _) => False
  | _ => True

theorem Call.Looking.uncounting {γ : Type} {c : Call γ} (h : c.Looking) : c.Uncounting := by
  cases c with
  | backend c => trivial
  | field a =>
    cases a with
    | manifestGet | refcountGet | refcountSizeOf | refcountIterRefs | statsGet => trivial
    | _ => exact h.elim

theorem Call.Confined.uncounting {K : String → Prop} {γ : Type} {c : Call γ} (h : c.Confined K) :
    c.Uncounting := by
  cases c with
  | backend c => trivial
  | field a => exact h.elim

section Invariant

variable {store : ChunkStore} {held held' r : String → ℕ} {s s' : State}
  {w : (String → ℕ) × (String → ℕ)} {digest fileId : String}

theorem lists_eq_zero {γ : Type} {b : Block γ} {C : {δ : Type} → Call δ → Prop} (hb : b.Of C)
    (hC : ∀ {δ : Type} (c : Call δ) (s : State) (d : String), C c →
      c.lookedUp d s = 0 ∧ c.replaced d s = 0) (s : State) : b.lists s = 0 :=
  Prod.ext (funext fun d ↦ Handler.tally_eq_zero hb (fun c s hc ↦ (hC c s d hc).1) s)
    (funext fun d ↦ Handler.tally_eq_zero hb (fun c s hc ↦ (hC c s d hc).2) s)

private theorem Call.Storing.weightless {γ : Type} {c : Call γ} (h : c.Storing) (s : State)
    (d : String) :
    c.lookedUp d s = 0 ∧ c.replaced d s = 0 := by
  cases c with
  | backend c => exact ⟨rfl, rfl⟩
  | field a =>
    cases a with
    | manifestTryGet | manifestInsert => exact h.elim
    | _ => exact ⟨rfl, rfl⟩

private theorem Call.Uncounting.weightless {γ : Type} {c : Call γ} (h : c.Uncounting) (s : State)
    (d : String) : c.lookedUp d s = 0 ∧ c.replaced d s = 0 := by
  cases c with
  | backend c => exact ⟨rfl, rfl⟩
  | field a =>
    cases a with
    | manifestTryGet | manifestInsert => exact h.elim
    | _ => exact ⟨rfl, rfl⟩

theorem Ledgered.uncounting {γ : Type} {b : Block γ} (hb : b.Of Call.Uncounting)
    (h : Ledgered held (s, w)) : Ledgered held ((callHandler.eval b.body s).2, w + b.lists s) := by
  have hsame : (callHandler.eval b.body s).2.fields.manifest = s.fields.manifest ∧
      (callHandler.eval b.body s).2.fields.refcount = s.fields.refcount := by
    refine wp_eval (H := callHandler) (G := .any) (Uses.wp hb (I := fun s' ↦
      s'.fields.manifest = s.fields.manifest ∧ s'.fields.refcount = s.fields.refcount)
      (fun c s₁ x s₂ hc hi hs ↦ ⟨trivial, ?_⟩) ⟨rfl, rfl⟩)
    obtain rfl := (Prod.mk.inj hs).2
    cases c with
    | backend c => exact hi
    | field a =>
      cases a with
      | construct | manifestTryGet | manifestInsert | manifestRemove | refcountIncrement
      | refcountDecrement => exact hc.elim
      | _ => exact hi
  rw [lists_eq_zero hb (fun c s d hc ↦ hc.weightless s d), add_zero]
  refine ⟨fun d ↦ ?_, fun d r ↦ ?_⟩
  · rw [hsame.1, hsame.2]
    exact h.counts d
  · rw [hsame.2]
    exact h.positive d r

/-- Counting a reference, which the thread holds from then on. -/
theorem owns_countChunk_ledgered {size : ℕ} :
    owns listsWorld Ledgered (locked .refcount (store.countChunk digest size)).run
      (fun _ r' ↦ r' = fun d ↦ r d + [digest].count d) r := by
  refine owns_locked fun f s w hi _ ↦ ?_
  have hb : (Block.locked .refcount (store.countChunk digest size).run).Of Call.Storing :=
    makes_countChunk store digest size
  rw [lists_eq_zero hb (fun _ s d hc ↦ hc.weightless s d), add_zero]
  refine quietly_bind (quietly_fieldOrThrow (fun n hn ↦ ?_) fun _ _ ↦ trivial)
  rw [FieldAccess.run] at hn ⊢
  cases hinc : s.fields.refcount.increment digest size with
  | error e =>
    rw [hinc] at hn
    cases hn
  | ok x =>
    obtain ⟨n', rc⟩ := x
    rw [hinc] at hn
    cases hn
    refine quietly_bind (quietly_field (quietly_mono (quietly_confined
      (K := fun _ ↦ True) (confined_saveRefcount trivial trivial)) (fun _ s' h ↦ ⟨_, ?_, rfl⟩)
      fun _ _ _ ↦ trivial))
    refine ⟨fun d ↦ ?_, fun d x hx ↦ ?_⟩
    · have hc := RefCount.countOf_increment hinc d
      have hi' := hi.counts d
      rw [h.1]
      dsimp only [Pi.add_apply, FieldAccess.run, State.fields_withFields] at hi' ⊢
      rw [hc, List.count_singleton]
      by_cases hd : d = digest
      · subst hd
        rw [if_pos rfl, if_pos (by simp)]
        omega
      · rw [if_neg hd, if_neg (by simpa using fun h ↦ hd h.symm)]
        omega
    · rw [h.1] at hx
      obtain ⟨rfl, hcounts⟩ := RefCount.increment_eq_ok hinc
      dsimp only [FieldAccess.run, State.fields_withFields] at hx
      rw [hcounts, Table.find_set] at hx
      split at hx
      · cases hx
        exact Nat.succ_pos _
      · exact hi.positive d x hx

/-- Looking up a list: the thread holds the references that it will release. -/
theorem owns_peekDigests_ledgered :
    owns listsWorld Ledgered (ChunkStore.peekDigests fileId).run
      (fun old r' ↦ r' = fun d ↦ r d + (old.getD []).count d) r := by
  refine owns_locked fun f s w hi _ ↦ quietly_field ⟨_, ⟨fun d ↦ ?_, hi.positive⟩, rfl⟩
  have hc := hi.counts d
  change _ + (w.1 d + (((s.fields.manifest.tryGet fileId).getD []).count d + 0))
    = _ + (r d + ((s.fields.manifest.tryGet fileId).getD []).count d + f d) + (w.2 d + 0)
  dsimp only [Pi.add_apply, FieldAccess.run, State.withFields_fields] at hc ⊢
  omega

/-- Inserting a list: what the thread held for it is the manifest's. -/
theorem owns_insert_ledgered (held : String → ℕ) {digests : List String} {fileBytes : ℕ}
    (hr : ∀ d, r d = held d + digests.count d) :
    owns listsWorld Ledgered
      (locked .manifest (fieldOrThrow (.manifestInsert fileId digests fileBytes))).run
      (fun _ r' ↦ r' = held) r := by
  refine owns_locked fun f s w hi _ ↦ quietly_fieldOrThrow (fun _ hok ↦ ?_) fun _ _ ↦ trivial
  rw [FieldAccess.run] at hok ⊢
  cases hins : s.fields.manifest.insert fileId digests fileBytes with
  | error e =>
    rw [hins] at hok
    cases hok
  | ok m =>
    refine ⟨held, ⟨fun d ↦ ?_, hi.positive⟩, rfl⟩
    have hc := hi.counts d
    have hocc := (Manifest.updated_of_insert hins).occurrences d
    rw [Pi.add_apply, hr d] at hc
    rw [Option.getD_some] at hocc
    change _ + (w.1 d + 0) = m.occurrences d + (held d + f d)
      + (w.2 d + (((s.fields.manifest.tryGet fileId).getD []).count d + 0))
    dsimp only [State.fields_withFields] at hc ⊢
    omega

theorem owns_remove_ledgered :
    owns listsWorld Ledgered (locked .manifest (fieldOrThrow (.manifestRemove fileId))).run
      (fun digests r' ↦ r' = fun d ↦ r d + digests.count d) r := by
  refine owns_locked fun f s w hi _ ↦ quietly_fieldOrThrow (fun digests hok ↦ ?_) fun _ _ ↦ trivial
  have hget : s.fields.manifest.tryGet fileId = some digests := by
    rw [FieldAccess.run, Manifest.remove, Manifest.get] at hok
    split at hok
    · cases hok
      assumption
    · cases hok
  refine ⟨_, ⟨fun d ↦ ?_, hi.positive⟩, rfl⟩
  have hc := hi.counts d
  have hocc := (Manifest.updated_remove s.fields.manifest fileId).occurrences d
  rw [hget, Option.getD_some, Option.getD_none, List.count_nil] at hocc
  change _ + (w.1 d + 0) = (s.fields.manifest.remove fileId).2.occurrences d
    + (r d + digests.count d + f d) + (w.2 d + 0)
  dsimp only [Pi.add_apply, FieldAccess.run, State.fields_withFields] at hc ⊢
  omega

theorem owns_decrement_ledgered (held : String → ℕ) (hr : ∀ d, r d = held d + [digest].count d) :
    owns listsWorld Ledgered (locked .refcount (fieldOrThrow (.refcountDecrement digest))).run
      (fun _ r' ↦ r' = held) r := by
  refine owns_locked fun f s w hi _ ↦ quietly_fieldOrThrow (fun n hn ↦ ?_) fun _ _ ↦ trivial
  rw [FieldAccess.run] at hn ⊢
  cases hdec : s.fields.refcount.decrement digest with
  | error e =>
    rw [hdec] at hn
    cases hn
  | ok x =>
    obtain ⟨n', rc⟩ := x
    cases hx : s.fields.refcount.counts.find digest with
    | none =>
      rw [RefCount.decrement_of_find_none hx] at hdec
      cases hdec
    | some ref =>
      have hpos := hi.positive digest ref hx
      refine ⟨held, ⟨fun d ↦ ?_, fun d ref' hx' ↦ ?_⟩, rfl⟩
      · have hc := hi.counts d
        obtain ⟨-, hcount⟩ := RefCount.countOf_decrement hdec d
        have hone : 0 < s.fields.refcount.countOf digest := by
          rw [RefCount.countOf_of_find hx]
          exact hpos
        rw [Pi.add_apply, hr d, List.count_singleton] at hc
        change rc.countOf d + (w.1 d + 0) = _ + (held d + f d) + (w.2 d + 0)
        rw [hcount]
        dsimp only [State.fields_withFields] at hc ⊢
        by_cases hd : d = digest
        · subst hd
          rw [if_pos rfl]
          rw [if_pos (by simp)] at hc
          omega
        · rw [if_neg hd]
          rw [if_neg (by simpa using fun h ↦ hd h.symm)] at hc
          omega
      · rw [RefCount.decrement_of_find hx] at hdec
        obtain ⟨-, rfl⟩ := Prod.mk.inj (Except.ok.inj hdec)
        dsimp only [State.fields_withFields] at hx'
        split at hx'
        · rw [Table.find_unset] at hx'
          split at hx'
          · cases hx'
          · exact hi.positive d ref' hx'
        · rename_i h0
          rw [Table.find_set] at hx'
          split at hx'
          · cases hx'
            exact Nat.pos_of_ne_zero h0
          · exact hi.positive d ref' hx'

/-! ## Operations -/

theorem keeps_uncounting {α : Type} {p : StoreM α} (hp : Takes (Block.Of Call.Uncounting) p)
    {K : (String → ℕ) → Prop} (h : K r) : owns listsWorld Ledgered p.run (fun _ ↦ K) r :=
  hp.keeps (fun _ _ _ _ hb hi _ ↦ hi.uncounting hb) h

theorem keeps_looking {α : Type} {p : StoreM α} (hp : Takes Block.Looks p)
    {K : (String → ℕ) → Prop} (h : K r) : owns listsWorld Ledgered p.run (fun _ ↦ K) r :=
  keeps_uncounting (hp.mono fun _ hb ↦ hb.of fun _ hc ↦ hc.uncounting) h

theorem keeps_confined {α : Type} {P : String → Prop} {p : BackendM α} (hp : Confined P p)
    {K : (String → ℕ) → Prop} (h : K r) :
    owns listsWorld Ledgered (unlocked p).run (fun _ ↦ K) r :=
  keeps_uncounting (takes_unlocked_of_makes (hp.mono fun _ hc ↦ hc.uncounting)) h

theorem keeps_field {α : Type} {lock : Mutex} {a : FieldAccess α} (ha : (Call.field a).Uncounting)
    {K : (String → ℕ) → Prop} (h : K r) :
    owns listsWorld Ledgered (locked lock (field a)).run (fun _ ↦ K) r :=
  keeps_uncounting (takes_locked_of_makes (makes_field ha)) h

private theorem keeps_call {α : Type} {c : BackendCall α} {K : (String → ℕ) → Prop} (h : K r) :
    owns listsWorld Ledgered (unlocked (backendCall c)).run (fun _ ↦ K) r :=
  keeps_uncounting (takes_unlocked_of_makes (makes_backendCall (by trivial))) h

theorem count_cons_eq (digest : String) (digests : List String) (d : String) :
    (digest :: digests).count d = digests.count d + [digest].count d := by
  rw [← List.singleton_append, List.count_append, Nat.add_comm]

private theorem owns_storeChunk_ledgered {data : Bytes} :
    owns listsWorld Ledgered (store.storeChunk digest data).run
      (fun _ r' ↦ r' = fun d ↦ r d + [digest].count d) r := by
  have hput : ∀ blob, Makes Call.Uncounting (ChunkStore.putBlob digest blob) := fun blob ↦
    (makes_backendCall trivial).bind fun _ ↦ makes_ite (makes_pure _)
      ((makes_backendCall trivial).bind fun _ ↦ makes_pure _)
  refine owns_storeChunk (B := fun _ r' ↦ r' = r)
    (C := fun _ r' ↦ r' = fun d ↦ r d + [digest].count d) (fun blob _ ↦ ?_) (fun present r' h ↦ ?_)
    (fun r' h ↦ ?_) fun r' h ↦ ?_
  · exact keeps_uncounting (takes_locked_of_makes (hput blob)) rfl
  · rw [h]
    exact owns_countChunk_ledgered
  · exact keeps_field (by trivial) h
  · exact keeps_field (by trivial) h

/-- Releasing the first of the digests that the thread holds. -/
theorem owns_releaseDigest_ledgered {digests : List String}
    (hr : ∀ d, r d = (digest :: digests).count d) :
    owns listsWorld Ledgered (store.releaseDigest digest).run
      (fun _ r' ↦ ∀ d, r' d = digests.count d) r := by
  refine owns_releaseDigest (A := fun r' ↦ r' = r) (U := fun r' ↦ ∀ d, r' d = digests.count d)
    (V := fun r' ↦ ∀ d, r' d = digests.count d) (C := fun r' ↦ ∀ d, r' d = digests.count d)
    (B := fun _ r' ↦ ∀ d, r' d = digests.count d) rfl (fun r' h ↦ ?_) (fun r' h ↦ ?_)
    (fun r' h ↦ ?_) (fun r' h ↦ ?_) (fun _ r' h ↦ ?_) (fun _ _ r' h ↦ ?_) fun _ r' h ↦ ?_
  · exact keeps_looking (takes_chunkSize store digest) h
  · rw [h]
    refine owns_mono (owns_decrement_ledgered (fun d ↦ digests.count d) fun d ↦ ?_)
      fun _ r' h d ↦ by rw [h]
    rw [hr d, count_cons_eq]
  · exact keeps_call h
  · exact keeps_confined (P := fun _ ↦ True) (confined_removeRefcount trivial trivial) h
  · exact keeps_field (by trivial) h
  · exact keeps_confined (P := fun _ ↦ True) (confined_saveRefcount trivial trivial) h
  · exact keeps_field (by trivial) h

private theorem owns_ingestStream_ledgered (stream : Stream) :
    owns listsWorld Ledgered (store.ingestStream fileId stream).run (fun _ r ↦ r = 0) 0 := by
  refine owns_mono (owns_ingestStream
    (J := fun l r ↦ ∀ d, r d + (l.map (digestHex store.crates.sha256)).count d
      = (stream.chunks.map (digestHex store.crates.sha256)).count d)
    (K := fun old r ↦ ∀ d, r d = old.count d
      + (stream.chunks.map (digestHex store.crates.sha256)).count d)
    (N := fun old r ↦ ∀ d, r d = old.count d) (L := fun ds r ↦ ∀ d, r d = ds.count d)
    (fun d ↦ Nat.zero_add _) (fun chunk l r hJ ↦ ?_) (fun r _ hJ ↦ ?_) (fun old r hK ↦ ?_)
    (fun old r hK ↦ ?_) fun _ _ r hL ↦ owns_releaseDigest_ledgered (r := r) hL)
    fun _ r h ↦ funext h
  · refine owns_mono owns_storeChunk_ledgered fun _ r' h d ↦ ?_
    have hJd := hJ d
    rw [List.map_cons, count_cons_eq] at hJd
    rw [h]
    dsimp only
    omega
  · refine owns_mono owns_peekDigests_ledgered fun old r' h d ↦ ?_
    have hJd := hJ d
    rw [List.map_nil, List.count_nil] at hJd
    rw [h]
    dsimp only
    omega
  · refine owns_mono (owns_insert_ledgered (fun d ↦ old.count d) hK) fun _ r' h d ↦ ?_
    rw [h]
  · exact keeps_confined (P := fun _ ↦ True) (confined_saveManifest trivial trivial) hK

private theorem owns_delete_ledgered :
    owns listsWorld Ledgered (store.delete fileId).run (fun _ r ↦ r = 0) 0 := by
  refine owns_mono (owns_deleteFile (K := fun ds r ↦ ∀ d, r d = ds.count d)
    (L := fun ds r ↦ ∀ d, r d = ds.count d) (owns_mono owns_remove_ledgered fun ds r h d ↦ ?_)
    (fun ds r hK ↦ ?_) fun _ _ r hL ↦ owns_releaseDigest_ledgered (r := r) hL) fun _ r h ↦ funext h
  · rw [h]
    exact Nat.zero_add _
  · exact keeps_confined (P := fun _ ↦ True) (confined_removeManifest trivial trivial) hK

/-- **An operation** holds nothing before and nothing after. -/
theorem owns_perform_ledgered {op : ChunkStore.Op} (hop : op ≠ .reopen) :
    owns listsWorld Ledgered (store.perform op).run (fun _ r ↦ r = 0) 0 := by
  cases op with
  | ingest fileId input =>
    rw [ChunkStore.perform, ChunkStore.ingestInput_eq]
    exact owns_map (owns_ingestStream_ledgered _)
  | delete fileId => exact owns_map owns_delete_ledgered
  | read fileId => exact keeps_looking (takes_inspect store (.read fileId) trivial) rfl
  | readChunk d => exact keeps_looking (takes_inspect store (.readChunk d) trivial) rfl
  | stats => exact keeps_looking (takes_inspect store .stats trivial) rfl
  | chunkRefcount d => exact keeps_looking (takes_inspect store (.chunkRefcount d) trivial) rfl
  | fsck repair =>
    exact owns_map (keeps_uncounting (takes_fsck (fun _ hb ↦ hb.of fun _ hc ↦ hc.uncounting)
      (fun _ ↦ ⟨trivial, fun _ ↦ trivial⟩) repair) rfl)
  | reopen => exact absurd rfl hop

end Invariant

/-! ## Runs -/

namespace ChunkStore

/-- **Counts after a concurrent run.** Threads ingest, delete and look at files, the same ones or
others, on one instance, and their blocks interleave in any way. If the counts were exact at the
start and all threads have returned, the counts are exact if and only if what the ingests looked up
is what they replaced: every list that an insertion took out of the manifest had been looked up by
an ingest to be released, and was not released by another one too. -/
theorem concurrent_counts_iff (store : ChunkStore) (work : List (List Op))
    (hwork : ∀ ops ∈ work, ∀ op ∈ ops, op ≠ .reopen) (s s' : State) (hs : s.Exact)
    (lists : (String → ℕ) × (String → ℕ)) (results : List (List Reply))
    (h : (blockHandler.tallied Block.lists).toMachine.PoolSteps
      (store.threads work, (s, 0)) (returned results, (s', lists))) :
    s'.Exact ↔ ∀ d, lists.1 d = lists.2 d := by
  have hthread : ∀ ops ∈ work, owns listsWorld Ledgered (store.thread ops) (fun _ r ↦ r = 0) 0 := by
    refine fun ops hops ↦ owns_mono (owns_thread
      (J := fun l r ↦ (∀ op ∈ l, op ≠ .reopen) ∧ r = 0) (fun op l r hJ ↦ ?_) ops
      ⟨hwork ops hops, rfl⟩) fun _ _ h ↦ h.2
    rw [hJ.2]
    exact owns_mono (owns_perform_ledgered (hJ.1 op List.mem_cons_self)) fun _ r hr ↦
      ⟨fun o ho ↦ hJ.1 o (List.mem_cons_of_mem op ho), hr⟩
  have hzero : (work.map fun _ ↦ (0 : String → ℕ)).sum = 0 := List.sum_eq_zero fun r hr ↦ by
    obtain ⟨_, -, rfl⟩ := List.mem_map.mp hr
    rfl
  have hend : Ledgered 0 (s', lists) := by
    rw [← hzero]
    refine pool_returns hthread ?_ h.given
    rw [hzero]
    exact ⟨fun d ↦ congrArg (· + 0) (hs.counts d), hs.positive⟩
  constructor
  · intro hs' d
    have hc := hend.counts d
    rw [Pi.zero_apply, hs'.counts d] at hc
    dsimp only at hc
    omega
  · refine fun heq ↦ ⟨fun d ↦ ?_, hend.positive⟩
    have hc := hend.counts d
    dsimp only at hc
    rw [Pi.zero_apply, heq d] at hc
    omega

theorem exact_empty (lists : Bool) : (State.empty lists).Exact :=
  ⟨fun _ ↦ rfl, fun _ _ hr ↦ by cases hr⟩

/-- Two threads that ingest the same file. -/
def sameFile : List (List Op) :=
  [[.ingest "f" (.bytes [0x61])], [.ingest "f" (.bytes [0x61])]]

def sameFileReplies : List (List Reply) :=
  [[.digests [digestHex smallCrates.sha256 [0x61]]],
    [.digests [digestHex smallCrates.sha256 [0x61]]]]

theorem sameFile_ne_reopen : ∀ ops ∈ sameFile, ∀ op ∈ ops, op ≠ .reopen := by
  intro ops hops op hop
  rcases List.mem_cons.mp hops with rfl | hops
  · rw [List.mem_singleton.mp hop]
    exact fun h ↦ by cases h
  · rw [List.mem_singleton.mp hops] at hop
    rw [List.mem_singleton.mp hop]
    exact fun h ↦ by cases h

/-- The end of the run in which the threads come one after the other. -/
def serialEnd : State × (String → ℕ) × (String → ℕ) :=
  ((blockHandler.tallied Block.lists).schedule (List.replicate 8 0 ++ List.replicate 12 1)
    (smallStore.threads sameFile, (.empty true, 0))).2

/-- The second thread looks up what it replaces. -/
theorem concurrent_counts_iff_serial :
    serialEnd.1.Exact ↔ ∀ d, serialEnd.2.1 d = serialEnd.2.2 d :=
  concurrent_counts_iff smallStore sameFile sameFile_ne_reopen (.empty true) serialEnd.1
    (exact_empty true) serialEnd.2 sameFileReplies
    (by
      rw [Prod.mk.eta]
      exact schedule_returns _ _ _ sameFileReplies (by decide +kernel))

/-- Both threads look up the list of the file before either inserts its own: the list that the
second insertion replaces is released by nobody. -/
theorem concurrent_counts_lost : ¬∀ (store : ChunkStore) (work : List (List Op)) (s s' : State)
    (results : List (List Reply)), (∀ ops ∈ work, ∀ op ∈ ops, op ≠ .reopen) → s.Exact →
      blockHandler.toMachine.PoolSteps (store.threads work, s) (returned results, s') →
      s'.Exact := by
  intro h
  have hexact := h smallStore sameFile (.empty true) _ sameFileReplies sameFile_ne_reopen
    (exact_empty true)
    (schedule_returns blockHandler
      (List.replicate 4 0 ++ List.replicate 4 1 ++ List.replicate 8 0 ++ List.replicate 12 1)
      _ sameFileReplies (by decide +kernel))
  have hcount := hexact.counts (digestHex smallCrates.sha256 [0x61])
  revert hcount
  decide +kernel

end ChunkStore

end Chunkstore

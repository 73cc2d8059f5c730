import Chunkstore.Crash.Operations
import Chunkstore.Effects.Trace
import Chunkstore.Exact.Runs

/-!
# Every crash point of a run

The backend writes of a run of ingests and deletes, in order. A crash leaves what a first part of
them made of the empty backend.

`ChunkStore.crash_openable_iff` says of every crash point whether the backend can be opened: as long
as no write has put a manifest record over the manifest index, it can be exactly when the last write
is not one of the three that break a listed name.
-/

open Effects Program

namespace Chunkstore

namespace ChunkStore

variable (store : ChunkStore)

/-! ## The writes of a run -/

/-- What a crash leaves: the backend. -/
def crash (s : State) : State := ⟨s.backend, .empty⟩

/-- The backend writes of an operation. -/
def writesOf (op : Op) (s : State) : List BackendWrite :=
  callHandler.events Call.write (flat (store.perform op)).run s

/-- The backend writes of operations one after the other. -/
def writesOfAll : List Op → State → List BackendWrite
  | [], _ => []
  | op :: ops, s => store.writesOf op s ++ writesOfAll ops (store.exec op s).2

def runWrites (lists : Bool) (ops : List Op) : List BackendWrite :=
  store.writesOf .reopen (.empty lists) ++
    store.writesOfAll ops (store.exec .reopen (.empty lists)).2

/-- The state that writes make of an empty backend. -/
def crashed (lists : Bool) (ws : List BackendWrite) : State :=
  ws.foldl BackendWrite.apply (.empty lists)

variable {store} {s : State} {op : Op}

theorem crash_handle {γ : Type} (c : Call γ) (s : State) :
    crash (callHandler.handle c s).2 = c.write.toList.foldl BackendWrite.apply (crash s) := by
  cases c with
  | backend c => cases c <;> rfl
  | field a => rfl

theorem crash_exec (op : Op) (s : State) :
    crash (store.exec op s).2 = (store.writesOf op s).foldl BackendWrite.apply (crash s) :=
  view_eval crash_handle _ s

private theorem openable_congr {crates : Crates} {s s' : State} (h : s'.backend = s.backend) :
    Openable crates s' ↔ Openable crates s := by
  obtain ⟨b, f⟩ := s
  obtain ⟨b', f'⟩ := s'
  obtain rfl : b' = b := h
  exact ⟨fun h ↦ ⟨h.manifests, h.refcounts⟩, fun h ↦ ⟨h.manifests, h.refcounts⟩⟩

theorem crashSafe_crash {crates : Crates} {w : BackendWrite} :
    CrashSafe crates (crash s) w ↔ CrashSafe crates s w := by
  have hopen : Openable crates (w.apply (crash s)) ↔ Openable crates (w.apply s) :=
    openable_congr (by cases w <;> rfl)
  have hbreaks : w.Breaks crates (crash s) ↔ w.Breaks crates s := by cases w <;> exact Iff.rfl
  rw [CrashSafe, CrashSafe, hopen, hbreaks]

theorem isOk_reopen_iff : (store.exec .reopen s).1.isOk = true ↔ Openable store.crates s := by
  have hspec : quietly (flat (store.perform .reopen)) (fun _ _ ↦ Openable store.crates s)
      (fun _ _ ↦ ¬Openable store.crates s) s := by
    rw [perform, flat_map]
    exact quietly_map (quietly_reopen quietly_openStore_iff)
  have hrun := quietly_eval hspec
  change outcome _ _ (store.exec .reopen s).1 (store.exec .reopen s).2 at hrun
  cases hr : (store.exec .reopen s).1 with
  | ok reply =>
    rw [hr] at hrun
    exact iff_of_true rfl hrun
  | error e =>
    rw [hr] at hrun
    exact iff_of_false (fun h ↦ Bool.noConfusion h) hrun

/-! ## Every crash point -/

private theorem readable_of_not_garbles {crates : Crates} {w : BackendWrite}
    (hw : ¬w.Garbles crates)
    (h : ¬Garbled crates s) : ¬Garbled crates (w.apply s) := by
  intro hg
  cases w with
  | put key data =>
    by_cases hk : key = manifestIndexKey
    · subst hk
      exact hw ⟨rfl, (readIndex_of_find (s.find_put_self _ _)).symm.trans hg⟩
    · exact h ((readIndex_congr (s.find_put_ne (Ne.symm hk))).symm.trans hg)
  | delete key =>
    by_cases hk : key = manifestIndexKey
    · subst hk
      cases (readIndex_of_find_none (s.find_del_self _)).symm.trans hg
    · exact h ((readIndex_congr (s.find_del_ne (Ne.symm hk))).symm.trans hg)

theorem readable_of_writes {crates : Crates} {ws : List BackendWrite}
    (hw : ∀ w ∈ ws, ¬w.Garbles crates) (h : ¬Garbled crates s) :
    ¬Garbled crates (ws.foldl BackendWrite.apply s) := by
  induction ws generalizing s with
  | nil => exact h
  | cons w ws ih =>
    exact ih (fun w' hw' ↦ hw w' (List.mem_cons_of_mem w hw'))
      (readable_of_not_garbles (hw w List.mem_cons_self) h)

/-- **The step lemma.** An ingest or a delete makes crash-safe writes only. It ends on a fit
backend, unless it fails and has garbled the index. -/
theorem carefully_perform (h : Fit store.crates s) (hop : op.file.isSome) :
    carefully (CrashSafe store.crates) (flat (store.perform op)) (fun _ ↦ Fit store.crates)
      (fun _ s' ↦ Fit store.crates s' ∨ Garbled store.crates s') s := by
  cases op with
  | ingest fileId input =>
    rw [perform, flat_map, ingestInput_eq, map_eq_pure_bind]
    exact carefully_bind (carefully_mono (carefully_ingestStream h)
      (fun _ _ h ↦ carefully_pure h) fun _ _ h ↦ h)
  | delete fileId =>
    rw [perform, flat_map, map_eq_pure_bind]
    exact carefully_bind (carefully_mono (carefully_deleteFile h)
      (fun _ _ h ↦ carefully_pure h) fun _ _ h ↦ h)
  | read | readChunk | fsck | stats | chunkRefcount | reopen => cases hop

/-- Every write of an operation is crash safe. -/
theorem crashSafe_of_prefix (h : Fit store.crates s) (hop : op.file.isSome)
    {ws : List BackendWrite} {w : BackendWrite} (hws : ws ++ [w] <+: store.writesOf op s) :
    CrashSafe store.crates (ws.foldl BackendWrite.apply (crash s)) w := by
  refine holds_at_event (P := CrashSafe store.crates) crash_handle
    (fun s c r s' w hstep hw ↦ ?_) (wp_callHandler (carefully_perform h hop)) hws
  exact crashSafe_crash.mpr (hstep w hw)

private theorem not_garbled_of_fit {crates : Crates} (h : Fit crates s) : ¬Garbled crates s := by
  obtain ⟨l, hl, -⟩ := h.sound.manifests
  intro hg
  cases hl.symm.trans hg

/-- What an operation leaves: a fit backend, unless it has failed and garbled the index. -/
theorem outcome_fit (h : Fit store.crates s) (hop : op.file.isSome) :
    outcome (fun _ ↦ Fit store.crates) (fun _ s' ↦ Fit store.crates s' ∨ Garbled store.crates s')
      (store.exec op s).1 (store.exec op s).2 :=
  wp_eval (wp_callHandler (carefully_perform h hop))

theorem fit_exec (h : Fit store.crates s) (hop : op.file.isSome)
    (hw : ∀ w ∈ store.writesOf op s, ¬w.Garbles store.crates) :
    Fit store.crates (store.exec op s).2 := by
  have hpost := @outcome_fit store s op h hop
  cases hr : (store.exec op s).1 with
  | ok reply =>
    rw [hr] at hpost
    exact hpost
  | error e =>
    rw [hr] at hpost
    refine hpost.resolve_right fun hg ↦ ?_
    have h₀ : ¬Garbled store.crates s := not_garbled_of_fit h
    have hread := readable_of_writes (s := crash s) hw h₀
    rw [← crash_exec] at hread
    exact hread hg

theorem fit_execAll {ops : List Op} (h : Fit store.crates s) (hops : ∀ op ∈ ops, op.file.isSome)
    (hok : ∀ r ∈ (store.execAll ops s).1, ∃ reply, r = .ok reply) :
    Fit store.crates (store.execAll ops s).2 := by
  induction ops generalizing s with
  | nil => exact h
  | cons op ops ih =>
    have hpost := @outcome_fit store s op h (hops op List.mem_cons_self)
    obtain ⟨reply, hr⟩ := hok _ List.mem_cons_self
    rw [hr] at hpost
    exact ih hpost (fun o ho ↦ hops o (List.mem_cons_of_mem op ho))
      fun r hr' ↦ hok r (List.mem_cons_of_mem _ hr')

/-- **Every write of a run**, up to the first outside `K`: what the writes of each operation
satisfy is satisfied by those of the run, if operations that write in `K` keep the invariant `I`. -/
theorem holds_at_write {I : State → Prop} {P : State → BackendWrite → Prop}
    {K : BackendWrite → Prop} {ops : List Op}
    (hin : ∀ op ∈ ops, ∀ s, I s → ∀ ws w, ws ++ [w] <+: store.writesOf op s →
      P (ws.foldl BackendWrite.apply (crash s)) w)
    (hnext : ∀ op ∈ ops, ∀ s, I s → (∀ w ∈ store.writesOf op s, K w) → I (store.exec op s).2)
    (h : I s) {ws : List BackendWrite} {w : BackendWrite}
    (hws : ws ++ [w] <+: store.writesOfAll ops s) (hg : ∀ w' ∈ ws ++ [w], K w') :
    P (ws.foldl BackendWrite.apply (crash s)) w := by
  induction ops generalizing s ws with
  | nil =>
    rw [writesOfAll, List.prefix_nil] at hws
    exact absurd hws (List.append_ne_nil_of_right_ne_nil _ (List.cons_ne_nil w []))
  | cons op ops ih =>
    rw [writesOfAll] at hws
    rcases List.prefix_or_prefix_of_prefix hws (List.prefix_append _ _) with hcut | ⟨rest, hrest⟩
    · exact hin op List.mem_cons_self s h ws w hcut
    · -- the cut falls after this operation, or at its very end
      rcases List.eq_nil_or_concat rest with rfl | ⟨rest, w', rfl⟩
      · rw [List.append_nil] at hrest
        exact hin op List.mem_cons_self s h ws w (hrest ▸ List.prefix_rfl)
      · rw [List.concat_eq_append, ← List.append_assoc] at hrest
        obtain ⟨rfl, hw⟩ := List.append_inj' hrest rfl
        obtain rfl := List.singleton_inj.mp hw
        rw [List.append_assoc, List.prefix_append_right_inj] at hws
        have hI := hnext op List.mem_cons_self s h fun w' hw' ↦ hg w' (by simp [hw'])
        rw [List.foldl_append, ← crash_exec]
        exact ih (fun o ho ↦ hin o (List.mem_cons_of_mem op ho))
          (fun o ho ↦ hnext o (List.mem_cons_of_mem op ho)) hI hws fun w' hw' ↦
            hg w' (by rw [List.append_assoc]; exact List.mem_append_right _ hw')

/-- Every write of a run is crash safe, up to the first that garbles the index. -/
private theorem crashSafe_of_prefix_all {ops : List Op} (h : Fit store.crates s)
    (hops : ∀ op ∈ ops, op.file.isSome) {ws : List BackendWrite} {w : BackendWrite}
    (hws : ws ++ [w] <+: store.writesOfAll ops s)
    (hg : ∀ w' ∈ ws ++ [w], ¬w'.Garbles store.crates) :
    CrashSafe store.crates (ws.foldl BackendWrite.apply (crash s)) w :=
  holds_at_write (I := Fit store.crates)
    (fun op hop _ h _ _ hws ↦ crashSafe_of_prefix h (hops op hop) hws)
    (fun op hop _ h hw ↦ fit_exec h (hops op hop) hw) h hws hg

theorem exec_reopen_empty (store : ChunkStore) (lists : Bool) :
    store.writesOf .reopen (.empty lists) = [] ∧
      (store.exec .reopen (.empty lists)).2 = .empty lists := by
  obtain ⟨crates, codec⟩ := store
  cases codec <;> exact ⟨rfl, rfl⟩

theorem fit_empty (crates : Crates) (lists : Bool) : Fit crates (.empty lists) := by
  have hfind : ∀ k, (State.empty lists).find k = none := fun _ ↦ rfl
  have hindex := fun key ↦ (readIndex_of_find_none (hfind key) : readIndex crates _ key = _)
  refine ⟨⟨(indexLoads_iff (hindex _)).mpr fun f hf ↦ ?_,
    (indexLoads_iff (hindex _)).mpr fun d hd ↦ ?_, ?_⟩, fun f digests hget ↦ ?_⟩
  · exact absurd hf List.not_mem_nil
  · exact absurd hd List.not_mem_nil
  · rw [hindex, Option.getD_some]
    exact List.not_mem_nil
  · cases hget

/-- **What a crash leaves can be opened, or not.** Cut the writes of a run of ingests and deletes
anywhere before one that puts a manifest record over the manifest index. Opening what is left
succeeds exactly when the last write did not delete the record of a listed file, the record of a
listed digest, or the blob of a listed digest without a size. -/
theorem crash_openable_iff (store : ChunkStore) (lists : Bool) (ops : List Op)
    (hops : ∀ op ∈ ops, op.file.isSome) (ws : List BackendWrite)
    (hws : ws <+: store.runWrites lists ops) (hg : ∀ w ∈ ws, ¬w.Garbles store.crates) :
    (store.exec .reopen (crashed lists ws)).1.isOk = true ↔
      ∀ w ∈ ws.getLast?, ¬w.Breaks store.crates (crashed lists ws.dropLast) := by
  obtain ⟨hnone, hstart⟩ := exec_reopen_empty store lists
  rw [runWrites, hnone, hstart, List.nil_append] at hws
  rw [isOk_reopen_iff]
  rcases List.eq_nil_or_concat ws with rfl | ⟨ws, w, rfl⟩
  · refine iff_of_true (fit_empty store.crates lists).sound.openable fun w hw ↦ ?_
    cases hw
  · rw [List.concat_eq_append] at hws hg ⊢
    have hsafe := crashSafe_of_prefix_all (fit_empty store.crates lists) hops hws hg
    have hiff := hsafe (hg w (List.mem_append_right _ (List.mem_singleton_self w)))
    rw [List.getLast?_concat, List.dropLast_concat, crashed, List.foldl_append]
    refine hiff.trans ⟨fun hb w' hw' ↦ ?_, fun hb ↦ hb w rfl⟩
    obtain rfl := Option.some.inj (Option.mem_def.mp hw')
    exact hb

def deletedOps : List Op := [.ingest "f" (.bytes [0x61]), .delete "f"]

/-- A crash right after the name of the deleted file is off the index. -/
theorem crash_openable_iff_deleted :
    (smallStore.exec .reopen
        (crashed true ((smallStore.runWrites true deletedOps).take 7))).1.isOk = true ↔
      ∀ w ∈ ((smallStore.runWrites true deletedOps).take 7).getLast?,
        ¬w.Breaks smallCrates
          (crashed true ((smallStore.runWrites true deletedOps).take 7).dropLast) :=
  crash_openable_iff smallStore true deletedOps (by decide) _ (List.take_prefix _ _)
    (by decide +kernel)

/-- A crash after the record of a deleted file is gone, and before its name is off the index. -/
theorem crash_unopenable : ¬∀ (store : ChunkStore) (lists : Bool) (ops : List Op),
    (∀ op ∈ ops, op.file.isSome) → ∀ ws, ws <+: store.runWrites lists ops →
      (store.exec .reopen (crashed lists ws)).1.isOk = true := by
  intro h
  have hopen := h smallStore true deletedOps (by decide)
    ((smallStore.runWrites true deletedOps).take 6) (List.take_prefix _ _)
  revert hopen
  decide +kernel

end ChunkStore

end Chunkstore

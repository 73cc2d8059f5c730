import Chunkstore.Core.Crates
import Chunkstore.Faults.Operations

/-!
# Processes that fail and crash

A process opens the store, runs operations one after the other and may crash between any two
requests, losing its fields and keeping the backend. Backend calls fail as they like.

## Main result

* `Process.reachable_intact`: at every point of every such run, each file that the persisted
  manifest lists with a record, and each file of the live manifest, is a version that some ingest of
  that file was given, and all its chunks are stored under their digests.
-/

open Effects Program

namespace Chunkstore

section Opening

variable {store : ChunkStore} {known : Version → Prop} {ledger : List Version} {s : State}
  {I : State → Prop}

/-! ## Opening -/

/-- Opening loads versions of the ledger only. -/
theorem safely_loadManifests (hI : I s) (h : Persisted store known ledger [] s) :
    safely I (loadManifests store.crates)
      (fun m s' ↦ s' = s ∧ ∀ fileId ds, m.tryGet fileId = some ds → ⟨fileId, ds⟩ ∈ ledger) s := by
  refine safely_bind (safely_readStringList hI fun index hindex ↦ ?_)
  have hne := h.index index hindex
  refine safely_mono (safely_foldlM (J := fun l m s' ↦ s' = s ∧ indexName ∉ l ∧
    ∀ fileId ds, m.tryGet fileId = some ds → ⟨fileId, ds⟩ ∈ ledger) ?_ index _ s
      ⟨rfl, hne, fun fileId ds hm ↦ by cases hm⟩) fun m s' hm ↦ ⟨hm.1, hm.2.2⟩
  rintro fileId l m s' ⟨rfl, hl, hm⟩
  have hf : fileId ≠ indexName := fun hf ↦ hl (hf ▸ List.mem_cons_self)
  refine safely_bind (safely_get hI ?_)
  cases hraw : s'.find (manifestKey fileId) with
  | none => exact safely_throw hI
  | some raw =>
    obtain ⟨r, hdec, hmem⟩ := h.record fileId raw hf hraw
    dsimp only
    rw [hdec]
    refine safely_bind (safely_ofExcept hI fun _ _ ↦ safely_ofExcept hI fun m' hm' ↦ ?_)
    refine ⟨rfl, fun hc ↦ hl (List.mem_cons_of_mem _ hc), fun g ds hg ↦ ?_⟩
    rw [Manifest.insert] at hm'
    split at hm'
    · cases hm'
    · cases hm'
      rw [Manifest.tryGet, Table.find_set] at hg
      split at hg
      · rename_i hgf
        cases hg
        rw [hgf]
        exact hmem
      · exact hm g ds hg

private theorem countOf_loaded {rc : RefCount} {d : String} {r : ℕ × ℕ} {raw : Bytes}
    (hraw : s.find (refcountKey d) = some raw)
    (hr : parseRefcountRecord store.crates raw d = .ok r) (hz : rc.countOf d = 0 ∨
      rc.countOf d = recordCount store.crates s d) (e : String) :
    (if 0 < r.1 then rc.set d r.1 r.2 else rc).countOf e
      = if e = d then recordCount store.crates s d else rc.countOf e := by
  have hrec : recordCount store.crates s d = r.1 := by
    rw [recordCount, hraw]
    dsimp only
    rw [hr]
    rfl
  split
  · rw [RefCount.countOf_set, hrec]
  · split
    · rename_i hed
      rw [hed, hrec]
      omega
    · rfl

private theorem safely_loadRefcounts (hI : I s) :
    safely I (loadRefcounts store.crates)
      (fun rc s' ↦ s' = s ∧ ∀ d, rc.countOf d = persistedCount store.crates s d) s := by
  refine safely_bind (safely_readStringList hI fun index hindex ↦ ?_)
  refine safely_mono (safely_foldlM (J := fun l rc s' ↦ s' = s ∧
    (∀ d, rc.countOf d = 0 ∨ rc.countOf d = recordCount store.crates s d) ∧
    (∀ d ∈ l, d ∈ index) ∧ ∀ d, d ∉ l → rc.countOf d = persistedCount store.crates s d) ?_ index _ s
      ⟨rfl, fun _ ↦ Or.inl rfl, fun _ hd ↦ hd, fun d hd ↦ ?_⟩) fun rc s' hrc ↦
        ⟨hrc.1, fun d ↦ hrc.2.2.2 d List.not_mem_nil⟩
  · rintro d l rc s' ⟨rfl, hz, hsub, hrc⟩
    refine safely_bind (safely_ofExcept hI fun _ _ ↦ safely_bind (safely_get hI ?_))
    cases hraw : s'.find (refcountKey d) with
    | none => exact safely_throw hI
    | some raw =>
      refine safely_bind (safely_ofExcept hI fun r hr ↦ ?_)
      have hcount := countOf_loaded hraw hr (hz d)
      have hd : persistedCount store.crates s' d = recordCount store.crates s' d :=
        persistedCount_of_isListed
          ((isListed_of_readIndex hindex).mpr (hsub d List.mem_cons_self))
      have hJ : s' = s' ∧
          (∀ e, (if 0 < r.1 then rc.set d r.1 r.2 else rc).countOf e = 0 ∨
            (if 0 < r.1 then rc.set d r.1 r.2 else rc).countOf e
              = recordCount store.crates s' e) ∧
          (∀ e ∈ l, e ∈ index) ∧
          ∀ e, e ∉ l → (if 0 < r.1 then rc.set d r.1 r.2 else rc).countOf e
            = persistedCount store.crates s' e := by
        refine ⟨rfl, fun e ↦ ?_, fun e he ↦ hsub e (List.mem_cons_of_mem d he), fun e he ↦ ?_⟩
        · rw [hcount]
          split
          · rename_i hed
            exact Or.inr (by rw [hed])
          · exact hz e
        · rw [hcount]
          split
          · rename_i hed
            rw [hed, hd]
          · rename_i hed
            refine hrc e fun hmem ↦ ?_
            rcases List.mem_cons.mp hmem with h | h
            · exact hed h
            · exact he h
      split
      · rename_i hpos
        rw [if_pos hpos] at hJ
        exact safely_pure hJ
      · rename_i hpos
        rw [if_neg hpos] at hJ
        exact safely_pure hJ
  · rw [persistedCount_of_not_isListed fun hl ↦ hd ((isListed_of_readIndex hindex).mp hl)]
    rfl

private theorem safely_backfillRefcountSizes {rc : RefCount} (h : Persisted store known ledger [] s)
    (hrc : ∀ d, need ledger [] d ≤ rc.countOf d) :
    safely (SafeAtRest store known) (backfillRefcountSizes store.crates rc)
      (fun rc' s' ↦ Persisted store known ledger [] s' ∧ ∀ d, need ledger [] d ≤ rc'.countOf d)
      s := by
  rw [backfillRefcountSizes]
  refine safely_mono (safely_foldlM (J := fun l rc' s' ↦ Persisted store known ledger [] s' ∧
    (∀ d, need ledger [] d ≤ rc'.countOf d) ∧ ∀ e ∈ l, need ledger [] e.1 ≤ e.2) ?_ _ rc s
      ⟨h, hrc, fun e he ↦ ?_⟩) fun rc' s' h' ↦ ⟨h'.1, h'.2.1⟩
  · rintro ⟨d, count⟩ l rc' s' ⟨hp, hc, hl⟩
    have hl' : ∀ e ∈ l, need ledger [] e.1 ≤ e.2 := fun e he ↦ hl e (List.mem_cons_of_mem _ he)
    refine safely_bind (safely_get ⟨ledger, hp⟩ ?_)
    cases s'.find d with
    | none => exact safely_pure ⟨hp, hc, hl'⟩
    | some data =>
      dsimp only
      split
      · rename_i hd
        refine safely_bind (safely_saveRefcount hp hd (hl _ List.mem_cons_self)
          (fun s' _ hp' ↦ ⟨ledger, hp'⟩) fun s' _ hp' _ _ ↦ safely_pure ⟨hp', fun e ↦ ?_, hl'⟩)
        rw [RefCount.countOf_set]
        split
        · rename_i hed
          rw [hed]
          exact hl _ List.mem_cons_self
        · exact hc e
      · exact safely_pure ⟨hp, hc, hl'⟩
  · rw [List.mem_map] at he
    obtain ⟨⟨d, r⟩, hmem, rfl⟩ := he
    have hfind := RefCount.mem_iterRefs.mp (List.mem_of_mem_filter hmem)
    have hd := hrc d
    rwa [RefCount.countOf_of_find hfind] at hd

private theorem safely_rebuildStats (hI : I s)
    (hstats : ∀ stats, I (s.withFields { s.fields with stats := stats })) :
    safely I (flat store.rebuildStats)
      (fun _ s' ↦ ∃ stats, s' = s.withFields { s.fields with stats := stats }) s := by
  simp only [ChunkStore.rebuildStats, flat_bind, flat_locked, flat_foldlM]
  refine safely_bind (safely_peek rfl hI ?_)
  refine safely_bind (safely_mono (safely_foldlM (J := fun _ _ s' ↦ s' = s) ?_ _ _ s rfl)
    fun stats s' hs' ↦ ?_)
  · rintro ⟨d, r⟩ l stats s' rfl
    simp only [ChunkStore.rebuildStat, flat_bind, flat_ite, flat_pure]
    split
    · exact safely_bind (safely_pure (safely_pure rfl))
    · exact safely_bind (safely_mono (safely_chunkSize hI) fun _ s' hs' ↦ safely_pure hs')
  · subst hs'
    exact safely_field (hstats stats) ⟨stats, rfl⟩

/-- **Opening finds a running instance that respects the ledger.** -/
theorem safely_openStore (h : SafeAtRest store known s) :
    safely (SafeAtRest store known) (flat (openStore store.crates))
      (fun _ s' ↦ Safe store known s') s := by
  obtain ⟨ledger, hp⟩ := h
  simp only [openStore, flat_bind, flat_unlocked, flat_pure]
  refine safely_bind (safely_mono (safely_loadManifests ⟨ledger, hp⟩ hp) ?_)
  rintro manifest _ ⟨rfl, hman⟩
  refine safely_bind (safely_mono (safely_loadRefcounts ⟨ledger, hp⟩) ?_)
  rintro loaded _ ⟨rfl, hrc⟩
  refine safely_bind (safely_mono (safely_backfillRefcountSizes hp fun d ↦ ?_) ?_)
  · rw [hrc]
    exact hp.counted d
  · rintro refcount s' ⟨hp', hrc'⟩
    have hg : Guarded store known ledger [] (s'.withFields ⟨manifest, refcount, {}⟩) :=
      Guarded.withFields hp' ⟨hman, hrc'⟩
    refine safely_bind (safely_field ⟨ledger, hg.persisted⟩ ?_)
    refine safely_bind (safely_mono (safely_rebuildStats ⟨ledger, hg.persisted⟩ fun stats ↦
      ⟨ledger, (hg.withStats stats).persisted⟩) ?_)
    rintro _ _ ⟨stats, rfl⟩
    exact safely_pure (hg.withStats stats).safe

theorem safely_reopen (h : SafeAtRest store known s) :
    safely (SafeAtRest store known) (flat store.reopen) (fun _ s' ↦ Safe store known s') s := by
  rw [ChunkStore.reopen]
  cases store.codec with
  | none =>
    rw [flat_bind]
    exact safely_bind (safely_mono (safely_openStore h) fun _ _ hs ↦ safely_pure hs)
  | some codec =>
    simp only [openWithCodec, flat_bind, bind_assoc]
    exact safely_bind (safely_mono (safely_openStore h) fun _ _ hs ↦
      safely_bind (safely_pure (safely_pure hs)))

end Opening

/-! ## Processes -/

/-- What a process is doing. -/
inductive Activity
  | down
  | opening (p : Program Call (Except ChunkStoreError Unit))
  | idle
  | busy (p : Program Call (Except ChunkStoreError ChunkStore.Reply))

/-- A process on a backend, with the ingests begun so far, in this process or an earlier one. -/
structure Process where
  activity : Activity
  state : State
  begun : List (String × ChunkStore.IngestInput)

namespace Process

variable (store : ChunkStore)

/-- The ingests begun once an operation has started. -/
def record (begun : List (String × ChunkStore.IngestInput)) :
    ChunkStore.Op → List (String × ChunkStore.IngestInput)
  | .ingest fileId input => (fileId, input) :: begun
  | _ => begun

/-- No process yet, on an empty backend. -/
def start (lists : Bool) : Process := ⟨.down, .empty lists, []⟩

/-- One step of a process: opening the store, starting an operation, one request with or without a
fault, the end of a program, a crash. -/
inductive Step : Process → Process → Prop
  | boot {s b} : Step ⟨.down, s, b⟩ ⟨.opening (flat store.reopen).run, s.withFields .empty, b⟩
  | opening {p p' s s' b} (h : (faulty True).Step (p, s) (p', s')) :
      Step ⟨.opening p, s, b⟩ ⟨.opening p', s', b⟩
  | opened {s b} : Step ⟨.opening (.ret (.ok ())), s, b⟩ ⟨.idle, s, b⟩
  | failed {s b} (e : ChunkStoreError) :
      Step ⟨.opening (.ret (.error e)), s, b⟩ ⟨.down, s.withFields .empty, b⟩
  | begin {s b} (op : ChunkStore.Op) (h : op ≠ .reopen) :
      Step ⟨.idle, s, b⟩ ⟨.busy (flat (store.perform op)).run, s, record b op⟩
  | running {p p' s s' b} (h : (faulty True).Step (p, s) (p', s')) :
      Step ⟨.busy p, s, b⟩ ⟨.busy p', s', b⟩
  | finished {s b} (r : Except ChunkStoreError ChunkStore.Reply) :
      Step ⟨.busy (.ret r), s, b⟩ ⟨.idle, s, b⟩
  | crash {a s b} : Step ⟨a, s, b⟩ ⟨.down, s.withFields .empty, b⟩

/-- The processes of all runs on a backend that starts empty. -/
def Reachable (lists : Bool) (p : Process) : Prop :=
  Relation.ReflTransGen (Step store) (start lists) p

/-- The fields of the live instance, if one is running. -/
def live (p : Process) : Option Fields :=
  match p.activity with
  | .idle | .busy _ => some p.state.fields
  | .down | .opening _ => none

/-- A digest list that an ingest of the file was given in full, with all its chunks stored. -/
def Backed (p : Process) (fileId : String) (digests : List String) : Prop :=
  (∃ input, (fileId, input) ∈ p.begun ∧ (input.stream store.crates).error = none ∧
    digests = (input.stream store.crates).chunks.map (digestHex store.crates.sha256)) ∧
  ∀ d ∈ digests, ∃ raw, p.state.find d = some raw ∧ store.Holds raw d

/-- No committed file has lost a chunk. -/
structure Intact (p : Process) : Prop where
  persisted : ∀ index fileId raw,
    readIndex store.crates p.state manifestIndexKey = some index → fileId ∈ index →
      p.state.find (manifestKey fileId) = some raw →
        ∃ r, store.crates.serde.manifestFromSlice raw = .ok r ∧ Backed store p fileId r.digests
  live : ∀ f fileId digests, p.live = some f → f.manifest.tryGet fileId = some digests →
    Backed store p fileId digests

/-- The versions the begun ingests may commit. -/
def known (begun : List (String × ChunkStore.IngestInput)) (v : Version) : Prop :=
  ∃ input, (v.fileId, input) ∈ begun ∧ (input.stream store.crates).error = none ∧
    v.digests = (input.stream store.crates).chunks.map (digestHex store.crates.sha256)

/-- The invariant of a process: what the rest of its program will need. -/
def Inv (p : Process) : Prop :=
  match p.activity with
  | .down => SafeAtRest store (known store p.begun) p.state
  | .opening q => SafeAtRest store (known store p.begun) p.state ∧
    wp (faulty True) (.into (SafeAtRest store (known store p.begun))) q
      (outcome (fun _ s ↦ Safe store (known store p.begun) s)
        fun _ s ↦ SafeAtRest store (known store p.begun) s) p.state
  | .idle => Safe store (known store p.begun) p.state
  | .busy q => Safe store (known store p.begun) p.state ∧
    wp (faulty True) (.into (Safe store (known store p.begun))) q
      (outcome (fun _ s ↦ Safe store (known store p.begun) s)
        fun _ s ↦ Safe store (known store p.begun) s) p.state

variable {store} {known' : Version → Prop} {s s' : State} {p p' : Process}

theorem safeAtRest_of_safe {known : Version → Prop} (h : Safe store known s) :
    SafeAtRest store known s := by
  obtain ⟨ledger, hg⟩ := h
  exact ⟨ledger, hg.persisted⟩

theorem safeAtRest_withFields {known : Version → Prop} (f : Fields)
    (h : SafeAtRest store known s) : SafeAtRest store known (s.withFields f) := by
  obtain ⟨ledger, hp⟩ := h
  exact ⟨ledger, hp.known, hp.valid, hp.record, hp.index, hp.refIndex, hp.counted, hp.stored,
    hp.hashes⟩

theorem safe_mono {known known' : Version → Prop} (hk : ∀ v, known v → known' v)
    (h : Safe store known s) : Safe store known' s := by
  obtain ⟨ledger, hp, hl⟩ := h
  exact ⟨ledger, ⟨fun v hv ↦ hk v (hp.known v hv), hp.valid, hp.record, hp.index, hp.refIndex,
    hp.counted, hp.stored, hp.hashes⟩, hl⟩

theorem inv_start (lists : Bool) : Inv store (start lists) := by
  refine ⟨[], fun v hv ↦ absurd hv List.not_mem_nil, fun d hd ↦ absurd hd (Nat.lt_irrefl 0), ?_, ?_,
    ⟨[], ?_⟩, fun d ↦ Nat.zero_le _, fun d hd ↦ absurd hd (Nat.lt_irrefl 0), ?_⟩
  · intro fileId raw _ hraw
    cases hraw
  · intro l hl
    rw [readIndex_of_find_none rfl] at hl
    cases hl
    exact List.not_mem_nil
  · exact readIndex_of_find_none rfl
  · intro d raw _ hraw
    cases hraw

/-- Whatever a process is doing, its backend is safe to stop on. -/
theorem Inv.atRest (h : Inv store p) : SafeAtRest store (known store p.begun) p.state := by
  obtain ⟨a, s, b⟩ := p
  cases a with
  | down => exact h
  | opening q => exact h.1
  | idle => exact safeAtRest_of_safe h
  | busy q => exact safeAtRest_of_safe h.1

/-- **The step lemma.** Every step of a process keeps the invariant. -/
theorem Inv.step (h : Inv store p) (hs : Step store p p') : Inv store p' := by
  cases hs with
  | boot =>
    have hr := safeAtRest_withFields .empty h
    exact ⟨hr, safely_reopen hr⟩
  | opening hs =>
    exact ⟨wp_steps_into h.1 h.2 (.single hs), wp_step h.2 hs⟩
  | opened => exact h.2
  | failed e => exact safeAtRest_withFields _ h.1
  | @begin _ b op hop =>
    have hk : ∀ v, known store b v → known store (record b op) v := by
      rintro v ⟨input, hm, he, hd⟩
      refine ⟨input, ?_, he, hd⟩
      cases op <;> first | exact hm | exact List.mem_cons_of_mem _ hm
    have hs := safe_mono hk h
    refine ⟨hs, safely_perform hop hs fun v hv ↦ ?_⟩
    cases op with
    | ingest fileId input =>
      obtain ⟨he, rfl⟩ := hv
      exact ⟨input, List.mem_cons_self, he, rfl⟩
    | _ => exact hv.elim
  | running hs => exact ⟨wp_steps_into h.1 h.2 (.single hs), wp_step h.2 hs⟩
  | finished r =>
    cases r with
    | ok _ => exact h.2
    | error _ => exact h.2
  | crash => exact safeAtRest_withFields _ h.atRest

/-- **The run lemma.** Every reachable process has the invariant. -/
theorem inv_of_reachable {lists : Bool} (h : Reachable store lists p) : Inv store p := by
  induction h with
  | refl => exact inv_start lists
  | tail _ hs ih => exact ih.step hs

private theorem backed_of_mem {ledger : List Version} {fileId : String} {digests : List String}
    (h : Persisted store (known store p.begun) ledger [] p.state)
    (hm : ⟨fileId, digests⟩ ∈ ledger) : Backed store p fileId digests := by
  refine ⟨h.known _ hm, fun d hd ↦ ?_⟩
  have hpos : 0 < need ledger [] d :=
    Nat.lt_of_lt_of_le (List.count_pos_iff.mpr hd) (count_le_need hm [] d)
  obtain ⟨raw, hraw⟩ := Option.isSome_iff_exists.mp (h.stored d hpos)
  exact ⟨raw, hraw, h.hashes d raw (h.valid d hpos) hraw⟩

/-- **No committed file ever loses a chunk**, whatever fails and wherever the process crashes. -/
theorem reachable_intact {lists : Bool} (h : Reachable store lists p) : Intact store p := by
  have hinv := inv_of_reachable h
  refine ⟨fun index fileId raw hindex hmem hraw ↦ ?_, fun f fileId digests hf hget ↦ ?_⟩
  · obtain ⟨ledger, hp⟩ := hinv.atRest
    have hne : fileId ≠ indexName := fun hf ↦ hp.index index hindex (hf ▸ hmem)
    obtain ⟨r, hdec, hm⟩ := hp.record fileId raw hne hraw
    exact ⟨r, hdec, backed_of_mem hp hm⟩
  · have hsafe : Safe store (known store p.begun) p.state ∧ f = p.state.fields := by
      obtain ⟨a, s, b⟩ := p
      cases a with
      | down => cases hf
      | opening q => cases hf
      | idle => exact ⟨hinv, (Option.some.inj hf).symm⟩
      | busy q => exact ⟨hinv.1, (Option.some.inj hf).symm⟩
    obtain ⟨⟨ledger, hg⟩, rfl⟩ := hsafe
    exact backed_of_mem hg.persisted (hg.live.manifest fileId digests hget)

/-! ### Runs without a fault -/

variable {lists : Bool} {b : List (String × ChunkStore.IngestInput)}

private theorem reachable_open {store : ChunkStore} {s : State}
    (h : Reachable store lists ⟨.down, s, b⟩)
    (hok : (callHandler.eval (flat store.reopen).run (s.withFields .empty)).1 = .ok ()) :
    Reachable store lists
      ⟨.idle, (callHandler.eval (flat store.reopen).run (s.withFields .empty)).2, b⟩ := by
  have hsteps := Handler.steps_eval (M := faulty True) faulty_step_handle (flat store.reopen).run
    (s.withFields .empty)
  rw [hok] at hsteps
  have hopening := Relation.ReflTransGen.lift (p := Step store)
    (fun c : Program Call _ × State ↦ ⟨.opening c.1, c.2, b⟩)
    (fun _ _ hs ↦ Step.opening hs) _ _ hsteps
  exact ((h.tail .boot).trans hopening).tail .opened

theorem reachable_perform {store : ChunkStore} {s : State}
    (h : Reachable store lists ⟨.idle, s, b⟩) {op : ChunkStore.Op} (hop : op ≠ .reopen) :
    Reachable store lists
      ⟨.idle, (callHandler.eval (flat (store.perform op)).run s).2, record b op⟩ := by
  have hsteps := Handler.steps_eval (M := faulty True) faulty_step_handle
    (flat (store.perform op)).run s
  have hrunning := Relation.ReflTransGen.lift (p := Step store)
    (fun c : Program Call _ × State ↦ ⟨.busy c.1, c.2, record b op⟩)
    (fun _ _ hs ↦ Step.running hs) _ _ hsteps
  exact ((h.tail (.begin op hop)).trans hrunning).tail (.finished _)

/-- A process that ingested a file, and crashed. -/
theorem reachable_intact_crashed : Intact smallStore
    ⟨.down, ((callHandler.eval (flat (smallStore.perform (.ingest "f" (.chunks [[0x61]])))).run
      (callHandler.eval (flat smallStore.reopen).run (State.empty true)).2).2).withFields .empty,
      [("f", .chunks [[0x61]])]⟩ :=
  reachable_intact <| .tail (reachable_perform (b := [])
    (reachable_open (s := .empty true) .refl (by decide +kernel)) fun h ↦ by cases h) .crash

end Process

end Chunkstore

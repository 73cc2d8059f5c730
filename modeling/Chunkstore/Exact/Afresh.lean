import Chunkstore.Core.Footprint
import Chunkstore.Exact.Runs

/-!
# Opening afresh

Opening reads the backend and replaces every field, so the instance that was there does not matter:
a process that opens a backend gets what any other would get.

## Main result

* `exec_reopen_fields`: opening makes the same instance and the same backend out of a backend,
  whatever the fields were before.
-/

open Effects Program

namespace Chunkstore

def Call.ToBackend {γ : Type} : Call γ → Prop
  | .backend _ => True
  | .field _ => False

section Opening

variable {crates : Crates} {store : ChunkStore} {b : Backend} {f f' : Fields} {α : Type}

theorem toBackend_readStringList (key : String) :
    Makes Call.ToBackend (readStringList crates key) := by
  refine Makes.bind (makes_backendCall trivial) fun raw ↦ ?_
  cases raw with
  | none => exact makes_pure _
  | some raw =>
    dsimp only
    cases crates.serde.stringsFromSlice raw with
    | ok l => exact makes_pure l
    | error e => exact makes_throw _

theorem toBackend_loadManifests : Makes Call.ToBackend (loadManifests crates) := by
  refine (toBackend_readStringList _).bind fun index ↦ makes_foldlM (fun m fileId ↦ ?_) _ _
  refine Makes.bind (makes_backendCall trivial) fun raw ↦ ?_
  cases raw with
  | none => exact makes_throw _
  | some raw =>
    dsimp only
    cases crates.serde.manifestFromSlice raw with
    | error e => exact makes_throw _
    | ok record => exact (makes_ofExcept _).bind fun _ ↦ makes_ofExcept _

private theorem toBackend_loadRefcounts : Makes Call.ToBackend (loadRefcounts crates) := by
  refine (toBackend_readStringList _).bind fun index ↦ makes_foldlM (fun rc digest ↦ ?_) _ _
  refine Makes.bind (makes_ofExcept _) fun _ ↦ Makes.bind (makes_backendCall trivial) fun raw ↦ ?_
  cases raw with
  | none => exact makes_throw _
  | some raw =>
    exact (makes_ofExcept _).bind fun r ↦ makes_ite (makes_pure _) (makes_pure _)

private theorem toBackend_backfillRefcountSizes (rc : RefCount) :
    Makes Call.ToBackend (backfillRefcountSizes crates rc) := by
  refine makes_foldlM (fun rc entry ↦ ?_) _ _
  refine Makes.bind (makes_backendCall trivial) fun raw ↦ ?_
  cases raw with
  | none => exact makes_pure _
  | some data =>
    refine makes_ite (Makes.bind ?_ fun _ ↦ makes_pure _) (makes_pure _)
    rw [saveRefcount_eq, listName]
    exact (makes_ofExcept _).bind fun _ ↦ (makes_backendCall trivial).bind fun _ ↦
      (toBackend_readStringList _).bind fun _ ↦ makes_ite (makes_pure _) (makes_backendCall trivial)

/-- What is loaded, before there is an instance. -/
def loading (crates : Crates) : BackendM (Manifest × RefCount) := do
  let manifest ← loadManifests crates
  let loaded ← loadRefcounts crates
  let refcount ← backfillRefcountSizes crates loaded
  return (manifest, refcount)

theorem toBackend_loading : Makes Call.ToBackend (loading crates) :=
  toBackend_loadManifests.bind fun _ ↦ toBackend_loadRefcounts.bind fun _ ↦
    (toBackend_backfillRefcountSizes _).bind fun _ ↦ makes_pure _

theorem flat_reopen_eq (store : ChunkStore) : flat store.reopen = (do
    let r ← loading store.crates
    field (.construct r.1 r.2)
    flat (ChunkStore.mk store.crates none).rebuildStats) := by
  have hopen : flat (openStore store.crates) >>= (fun _ ↦ pure ()) = (do
      let r ← loading store.crates
      field (.construct r.1 r.2)
      flat (ChunkStore.mk store.crates none).rebuildStats) := by
    simp only [openStore, loading, flat_bind, flat_unlocked, flat_pure, bind_assoc, pure_bind,
      bind_pure_unit]
  rw [← hopen, ChunkStore.reopen]
  -- a codec is set after everything is loaded
  cases store.codec with
  | none => rw [flat_bind]; rfl
  | some codec =>
    simp only [openWithCodec, flat_bind, bind_assoc]
    rfl

/-- Code that only makes requests to the backend cannot tell instances apart. -/
theorem eval_toBackend {p : BackendM α} (hp : Makes Call.ToBackend p) (b : Backend)
    (f f' : Fields) :
    callHandler.eval p.run ⟨b, f'⟩ = ((callHandler.eval p.run ⟨b, f⟩).1,
      ⟨(callHandler.eval p.run ⟨b, f⟩).2.backend, f'⟩) := by
  obtain ⟨hr, hb, hf⟩ : (callHandler.eval p.run ⟨b, f⟩).1 = (callHandler.eval p.run ⟨b, f'⟩).1 ∧
      (callHandler.eval p.run ⟨b, f'⟩).2.backend = (callHandler.eval p.run ⟨b, f⟩).2.backend ∧
        (callHandler.eval p.run ⟨b, f'⟩).2.fields = f' := by
    -- side by side: the backends stay equal, and the second run keeps its fields
    refine Uses.eval_congr (H := callHandler)
      (R := fun s s' ↦ s'.backend = s.backend ∧ s'.fields = f') hp ?_ ⟨rfl, rfl⟩
    rintro δ c ⟨b₁, f₁⟩ ⟨b₂, f₂⟩ hc ⟨rfl, rfl⟩
    cases c with
    | field a => exact hc.elim
    | backend c => exact ⟨rfl, rfl, rfl⟩
  refine Prod.ext hr.symm ?_
  rw [← hb]
  exact congrArg (State.mk (callHandler.eval p.run ⟨b, f'⟩).2.backend) hf

/-- **Opening makes the instance out of the backend alone.** -/
theorem exec_reopen_fields {reply : ChunkStore.Reply}
    (h : (store.exec .reopen ⟨b, f⟩).1 = .ok reply) :
    store.exec .reopen ⟨b, f'⟩ = store.exec .reopen ⟨b, f⟩ := by
  have hload := eval_toBackend (@toBackend_loading store.crates) b f f'
  rw [ChunkStore.exec, ChunkStore.perform, ChunkStore.flat_map, flat_reopen_eq, ExceptT.run_map,
    map_eq_pure_bind, Handler.eval_bind, ExceptT.run_bind, Handler.eval_bind] at h ⊢
  rw [ChunkStore.exec, ChunkStore.perform, ChunkStore.flat_map, flat_reopen_eq, ExceptT.run_map,
    map_eq_pure_bind, Handler.eval_bind, ExceptT.run_bind, Handler.eval_bind, hload]
  cases hr : (callHandler.eval (loading store.crates).run ⟨b, f⟩).1 with
  | ok r =>
    -- the fields are replaced
    rfl
  | error e =>
    rw [hr] at h
    cases h

end Opening

end Chunkstore

import Chunkstore.Backends.Implementation

/-!
# Backends that keep apart

Several backends may be kept in one place: directories of a disk, prefixes of a bucket. They are
*apart* if each is a map for its own calls, and what one is called for leaves the others as they
are.
-/

open Effects

namespace Chunkstore

namespace ChunkBackend

variable {β T : Type}

/-- Each of the backends realises a map, and no call of one changes what another holds. -/
structure Apart (impl : β → ChunkBackend T) (P : β → {γ : Type} → State → Call γ → Prop)
    (R : β → Backend → T → Prop) : Prop where
  realises : ∀ b, (impl b).Realises (P b) (R b)
  frame : ∀ (b : β) {γ : Type} (c : BackendCall γ) (s : State) (t : T)
    (r : Except ChunkStoreError γ) (t' : T), P b s (.backend c) → R b s.backend t →
      (impl b).call c t r t' → ∀ b' m, b' ≠ b → R b' m t → R b' m t'

/-- The map itself, as `MemoryBackend` is. -/
def memory : ChunkBackend Backend where
  call c b r b' := r = .ok (c.run b).1 ∧ b' = (c.run b).2

/-- Backends each of which has a place of its own. -/
def each [DecidableEq β] (impl : β → ChunkBackend T) (b : β) : ChunkBackend (β → T) where
  call c t r t' := ∃ t₁, (impl b).call c (t b) r t₁ ∧ t' = Function.update t b t₁

theorem realises_memory (P : {γ : Type} → State → Call γ → Prop) : memory.Realises P Eq where
  answers c s t _ _ := ⟨_, _, rfl, rfl⟩
  agrees c s t r t' _ hR hcall := by
    obtain ⟨rfl, rfl⟩ := hcall
    rw [hR]
    exact ⟨rfl, rfl⟩

/-- Backends in places of their own are apart. -/
theorem apart_each [DecidableEq β] {impl : β → ChunkBackend T}
    {P : β → {γ : Type} → State → Call γ → Prop} {R : β → Backend → T → Prop}
    (h : ∀ b, (impl b).Realises (P b) (R b)) : Apart (each impl) P fun b m t ↦ R b m (t b) where
  realises b :=
    { answers := by
        intro γ c s t hp hR
        obtain ⟨r, t₁, hcall⟩ := (h b).answers c s (t b) hp hR
        exact ⟨r, _, t₁, hcall, rfl⟩
      agrees := by
        rintro γ c s t r t' hp hR ⟨t₁, hcall, rfl⟩
        obtain ⟨hr, hR₁⟩ := (h b).agrees c s (t b) r t₁ hp hR hcall
        refine ⟨hr, ?_⟩
        rw [Function.update_self]
        exact hR₁ }
  frame := by
    rintro b γ c s t r t' - - ⟨t₁, -, rfl⟩ b' m hne hR
    rw [Function.update_of_ne hne]
    exact hR

end ChunkBackend

end Chunkstore

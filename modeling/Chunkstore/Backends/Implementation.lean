import Chunkstore.Effects.Simulation
import Chunkstore.Processes.Readers

/-!
# Implementations of the backend

A store works on anything that can be called like a backend. An implementation has states of its own
and may answer a call in several ways. It *realises* the map of keys and values for the calls that
meet a condition if it answers them as the map does; then a store on it is a store on the map, for
every run whose calls meet the condition.

## Main result

* `ChunkBackend.Realises.serve`: a store on the implementation returns what it returns on the map,
  holds the same in memory, and leaves the implementation related to the map.
-/

open Effects Program

namespace Chunkstore

/-- The character that ends a C string. -/
def nul : Char := .ofNat 0

/-- What can be called like a backend: which answers and states may follow a call. -/
structure ChunkBackend (T : Type) where
  call {γ : Type} : BackendCall γ → T → Except ChunkStoreError γ → T → Prop

namespace ChunkBackend

variable {T : Type}

/-- A store on an implementation. -/
def world (self : ChunkBackend T) : Machine Call (T × Fields) where
  step
    | x, .backend c, r, y => self.call c x.1 r y.1 ∧ y.2 = x.2
    | x, .field a, r, y => r = (a.run x.2).1 ∧ y = (x.1, (a.run x.2).2)

/-- The implementation answers as the map does, for calls that meet `P`, and stays related to it. -/
structure Realises (b : ChunkBackend T) (P : {γ : Type} → State → Call γ → Prop)
    (R : Backend → T → Prop) : Prop where
  answers : ∀ {γ : Type} (c : BackendCall γ) (s : State) (t : T), P s (.backend c) →
    R s.backend t → ∃ r t', b.call c t r t'
  agrees : ∀ {γ : Type} (c : BackendCall γ) (s : State) (t : T) (r : Except ChunkStoreError γ)
    (t' : T), P s (.backend c) → R s.backend t → b.call c t r t' →
      r = .ok (c.run s.backend).1 ∧ R (c.run s.backend).2 t'

/-- The states of a store on the map and of one on the implementation. -/
structure Same (R : Backend → T → Prop) (s : State) (x : T × Fields) : Prop where
  backend : R s.backend x.1
  fields : x.2 = s.fields

namespace Realises

variable {self : ChunkBackend T} {P : {γ : Type} → State → Call γ → Prop} {R : Backend → T → Prop}
  {s : State} {t : T}

private theorem implements (h : self.Realises P R) :
    Implements self.world callHandler P (Same R) where
  answers c s x hp hR := by
    cases c with
    | backend c =>
      obtain ⟨r, t', hcall⟩ := h.answers c s x.1 hp hR.backend
      exact ⟨r, (t', x.2), hcall, rfl⟩
    | field a => exact ⟨_, _, rfl, rfl⟩
  agrees c s x r y hp hR hstep := by
    cases c with
    | backend c =>
      obtain ⟨hcall, hfields⟩ := hstep
      obtain ⟨hr, hR'⟩ := h.agrees c s x.1 r y.1 hp hR.backend hcall
      exact ⟨hr, hR', hfields.trans hR.fields⟩
    | field a =>
      obtain ⟨rfl, rfl⟩ := hstep
      rw [hR.fields]
      exact ⟨rfl, hR.backend, rfl⟩

/-- **A store on the implementation.** It comes to the end of its operations, and however it does,
it has returned what it returns on the map, and holds the same. -/
theorem serve (h : self.Realises P R) (store : ChunkStore) {ops : List ChunkStore.Op}
    (hp : callHandler.Meets P (store.serve ops) s) (hR : R s.backend t) :
    (∃ x, self.world.Ends (store.serve ops) (t, s.fields) (store.execAll ops s).1 x) ∧
      ∀ rs t' f', self.world.Ends (store.serve ops) (t, s.fields) rs (t', f') →
        rs = (store.execAll ops s).1 ∧ f' = (store.execAll ops s).2.fields ∧
          R (store.execAll ops s).2.backend t' := by
  have hsame : Same R s (t, s.fields) := ⟨hR, rfl⟩
  rw [← store.eval_serve]
  constructor
  · obtain ⟨x, hends, -⟩ := h.implements.ends hp hsame
    exact ⟨x, hends⟩
  · intro rs t' f' hends
    obtain ⟨hrs, hsame'⟩ := h.implements.eval hp hsame hends
    exact ⟨hrs, hsame'.fields, hsame'.backend⟩

end Realises

end ChunkBackend

namespace ChunkStore

variable {store : ChunkStore} {P : {γ : Type} → State → Call γ → Prop} {ops : List Op} {s : State}

theorem meets_serve (h : ∀ ops₀ op, ops₀ ++ [op] <+: ops →
    callHandler.Meets P (flat (store.perform op)).run (store.execAll ops₀ s).2) :
    callHandler.Meets P (store.serve ops) s := by
  induction ops generalizing s with
  | nil => trivial
  | cons op ops ih =>
    rw [serve, Handler.meets_bind, Handler.meets_bind]
    refine ⟨h [] op (List.prefix_append [op] ops), ih fun ops₀ op' hop ↦ ?_, trivial⟩
    exact h (op :: ops₀) op' ((List.prefix_cons_inj op).mpr hop)

end ChunkStore

end Chunkstore

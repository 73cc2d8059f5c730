import Chunkstore.Core.Metadata
import Chunkstore.Effects.Program

/-!
# The backend, the guarded fields, and what a store operation may ask for

A store operation talks to two things: the key-value backend (`trait ChunkBackend`), one call at a
time, and the fields of the instance that sit behind locks. Both appear as requests of a program, so
that one translation of the source serves every reading of it.

* `callHandler` answers each request as a fault-free backend does.
* `faulty F` lets, when `F` holds, any backend call fail, its write having taken effect or not.

## Blocks

Code that runs while a lock is held is a `Block.locked`, a whole program as one request; a backend
call made without a lock is a `Block.call`. Concurrent threads interleave blocks. A single thread
cannot tell the difference, and `flat` forgets the locks.
-/

open Effects

namespace Chunkstore

/-! ## Backends -/

/-- A key-value backend. `lists` is whether it can list its keys. -/
structure Backend where
  data : Table String Bytes
  lists : Bool

/-- The calls of `trait ChunkBackend`, indexed by the type of a successful answer. -/
inductive BackendCall : Type → Type
  | get (key : String) : BackendCall (Option Bytes)
  | put (key : String) (data : Bytes) : BackendCall Unit
  | existsKey (key : String) : BackendCall Bool
  | delete (key : String) : BackendCall Unit
  | listKeys (pre : String) : BackendCall (Option (List String))

namespace BackendCall

/-- What a fault-free backend does, as `MemoryBackend` does it. -/
def run {γ : Type} : BackendCall γ → Backend → γ × Backend
  | .get key, b => (b.data.find key, b)
  | .put key data, b => ((), { b with data := b.data.set key data })
  | .existsKey key, b => ((b.data.find key).isSome, b)
  | .delete key, b => ((), { b with data := b.data.unset key })
  | .listKeys pre, b =>
    (if b.lists then some (b.data.keys.filter fun k ↦ k.startsWith pre) else none, b)

end BackendCall

/-! ## Guarded fields -/

/-- The fields of an instance that sit behind locks. -/
structure Fields where
  manifest : Manifest
  refcount : RefCount
  stats : Stats

/-- The fields before anything is loaded. -/
def Fields.empty : Fields := ⟨.new, .new, {}⟩

/-- The accesses a store operation makes to the guarded fields. -/
inductive FieldAccess : Type → Type
  | construct (manifest : Manifest) (refcount : RefCount) : FieldAccess Unit
  | manifestTryGet (fileId : String) : FieldAccess (Option (List String))
  | manifestGet (fileId : String) : FieldAccess (Except ChunkStoreError (List String))
  | manifestInsert (fileId : String) (digests : List String) (fileBytes : ℕ) :
      FieldAccess (Except ChunkStoreError Unit)
  | manifestRemove (fileId : String) : FieldAccess (Except ChunkStoreError (List String))
  | refcountIncrement (digest : String) (size : ℕ) : FieldAccess (Except ChunkStoreError ℕ)
  | refcountDecrement (digest : String) : FieldAccess (Except ChunkStoreError ℕ)
  | refcountGet (digest : String) : FieldAccess (Option ℕ)
  | refcountSizeOf (digest : String) : FieldAccess (Option ℕ)
  | refcountIterRefs : FieldAccess (List (String × ChunkRef))
  | statsAddReference (size : ℕ) : FieldAccess Unit
  | statsAddUniqueChunk (size : ℕ) : FieldAccess Unit
  | statsRemoveReference (size : ℕ) : FieldAccess Unit
  | statsRemoveUniqueChunk (size : ℕ) : FieldAccess Unit
  | statsReplace (stats : Stats) : FieldAccess Unit
  | statsGet : FieldAccess Stats

namespace FieldAccess

def run {γ : Type} : FieldAccess γ → Fields → γ × Fields
  | .construct manifest refcount, _ => ((), ⟨manifest, refcount, {}⟩)
  | .manifestTryGet fileId, f => (f.manifest.tryGet fileId, f)
  | .manifestGet fileId, f => (f.manifest.get fileId, f)
  | .manifestInsert fileId digests fileBytes, f =>
    match f.manifest.insert fileId digests fileBytes with
    | .ok m => (.ok (), { f with manifest := m })
    | .error e => (.error e, f)
  | .manifestRemove fileId, f =>
    ((f.manifest.remove fileId).1, { f with manifest := (f.manifest.remove fileId).2 })
  | .refcountIncrement digest size, f =>
    match f.refcount.increment digest size with
    | .ok r => (.ok r.1, { f with refcount := r.2 })
    | .error e => (.error e, f)
  | .refcountDecrement digest, f =>
    match f.refcount.decrement digest with
    | .ok r => (.ok r.1, { f with refcount := r.2 })
    | .error e => (.error e, f)
  | .refcountGet digest, f => (f.refcount.get digest, f)
  | .refcountSizeOf digest, f => (f.refcount.sizeOf digest, f)
  | .refcountIterRefs, f => (f.refcount.iterRefs, f)
  | .statsAddReference size, f => ((), { f with stats := f.stats.addReference size })
  | .statsAddUniqueChunk size, f => ((), { f with stats := f.stats.addUniqueChunk size })
  | .statsRemoveReference size, f => ((), { f with stats := f.stats.removeReference size })
  | .statsRemoveUniqueChunk size, f => ((), { f with stats := f.stats.removeUniqueChunk size })
  | .statsReplace stats, f => ((), { f with stats := stats })
  | .statsGet, f => (f.stats, f)

end FieldAccess

/-! ## Requests and worlds -/

/-- One request of a store operation. A backend call may answer with an error. -/
inductive Call : Type → Type 1
  | backend {γ : Type} (c : BackendCall γ) : Call (Except ChunkStoreError γ)
  | field {γ : Type} (a : FieldAccess γ) : Call γ

/-- The backend together with the fields of the instance on it. -/
structure State where
  backend : Backend
  fields : Fields

namespace State

/-- An empty backend, before anything is opened on it. -/
def empty (lists : Bool) : State := ⟨⟨∅, lists⟩, .empty⟩

/-- What the backend holds under a key. -/
def find (s : State) (key : String) : Option Bytes := s.backend.data.find key

def put (s : State) (key : String) (data : Bytes) : State :=
  { s with backend := { s.backend with data := s.backend.data.set key data } }

def del (s : State) (key : String) : State :=
  { s with backend := { s.backend with data := s.backend.data.unset key } }

def withFields (s : State) (fields : Fields) : State := { s with fields := fields }

variable (s : State) (key k : String) (data : Bytes) (f : Fields)

theorem find_put : (s.put key data).find k = if k = key then some data else s.find k :=
  Table.find_set _ _ _ _

theorem find_del : (s.del key).find k = if k = key then none else s.find k :=
  Table.find_unset _ _ _

@[simp] theorem find_put_self : (s.put key data).find key = some data := Table.find_set_self _ _ _

@[simp] theorem find_del_self : (s.del key).find key = none := Table.find_unset_self _ _

@[simp] theorem find_withFields : (s.withFields f).find k = s.find k := rfl

@[simp] theorem fields_put : (s.put key data).fields = s.fields := rfl

@[simp] theorem fields_del : (s.del key).fields = s.fields := rfl

@[simp] theorem fields_withFields : (s.withFields f).fields = f := rfl

@[simp] theorem withFields_fields : s.withFields s.fields = s := rfl

variable {s key k data}

theorem find_put_ne (h : k ≠ key) : (s.put key data).find k = s.find k := by
  rw [find_put, if_neg h]

theorem find_del_ne (h : k ≠ key) : (s.del key).find k = s.find k := by rw [find_del, if_neg h]

end State

/-- The fault-free world. -/
def callHandler : Handler Call State where
  handle
    | .backend c, s => (.ok (c.run s.backend).1, { s with backend := (c.run s.backend).2 })
    | .field a, s => ((a.run s.fields).1, { s with fields := (a.run s.fields).2 })

/-- The world in which, when `F` holds, any backend call may fail, its write having taken effect or
not. -/
def faulty (F : Prop) : Machine Call State where
  step
    | s, .backend c, r, s' =>
      (r = .ok (c.run s.backend).1 ∧ s' = { s with backend := (c.run s.backend).2 }) ∨
        (F ∧ (∃ e, r = .error e) ∧ (s' = s ∨ s' = { s with backend := (c.run s.backend).2 }))
    | s, .field a, r, s' => r = (a.run s.fields).1 ∧ s' = { s with fields := (a.run s.fields).2 }

/-- Code that runs under a lock, or that has no lock to take. -/
abbrev BackendM := ExceptT ChunkStoreError (Program Call)

/-- The locks of an instance. -/
inductive Mutex
  | manifest
  | refcount
  | stats
  | blob
  deriving DecidableEq

/-- What a thread does in one step: one request, or everything it does while it holds a lock. -/
inductive Block : Type → Type 1
  | call {γ : Type} (c : Call γ) : Block γ
  | locked {γ : Type} (lock : Mutex) (body : Program Call γ) : Block γ

/-- The code of a store operation. -/
abbrev StoreM := ExceptT ChunkStoreError (Program Block)

def backendCall {γ : Type} (c : BackendCall γ) : BackendM γ :=
  ExceptT.mk (Program.request (.backend c))

/-- An access to a guarded field that cannot fail. -/
def field {γ : Type} (a : FieldAccess γ) : BackendM γ :=
  ExceptT.lift (Program.request (.field a))

/-- An access to a guarded field that can fail. -/
def fieldOrThrow {γ : Type} (a : FieldAccess (Except ChunkStoreError γ)) : BackendM γ :=
  ExceptT.mk (Program.request (.field a))

variable {α β : Type}

/-- A result carried over from pure code, the `?` of the source. -/
def ofExcept {m : Type → Type*} [Monad m] : Except ChunkStoreError α → ExceptT ChunkStoreError m α
  | .ok a => pure a
  | .error e => throw e

/-- Code that runs while a lock is held. -/
def locked (lock : Mutex) (body : BackendM α) : StoreM α :=
  ExceptT.mk (Program.request (.locked lock body.run))

/-- Code that runs with no lock held, each request on its own. -/
def unlocked (p : BackendM α) : StoreM α :=
  ExceptT.mk (p.run.translate fun c ↦ Program.request (.call c))

/-- What a block does, one request after the other. -/
def Block.body {γ : Type} : Block γ → Program Call γ
  | .call c => Program.request c
  | .locked _ body => body

/-- The fault-free world of blocks, each of which runs as a whole. -/
def blockHandler : Handler Block State where
  handle b s := callHandler.eval b.body s

/-- The program of a single thread, with the locks forgotten. -/
def flat (p : StoreM α) : BackendM α := ExceptT.mk (p.run.translate Block.body)

@[simp] theorem ofExcept_ok {m : Type → Type*} [Monad m] (a : α) :
    (ofExcept (.ok a) : ExceptT ChunkStoreError m α) = pure a := rfl

@[simp] theorem ofExcept_error {m : Type → Type*} [Monad m] (e : ChunkStoreError) :
    (ofExcept (.error e) : ExceptT ChunkStoreError m α) = throw e := rfl

@[simp] theorem flat_pure (a : α) : flat (pure a) = pure a := rfl

@[simp] theorem flat_throw (e : ChunkStoreError) : flat (throw e : StoreM α) = throw e := rfl

@[simp] theorem flat_ofExcept (r : Except ChunkStoreError α) :
    flat (ofExcept r) = ofExcept r := by cases r <;> rfl

@[simp] theorem flat_locked (lock : Mutex) (body : BackendM α) : flat (locked lock body) = body :=
  Program.translate_request Block.body (.locked lock body.run)

@[simp] theorem flat_unlocked (p : BackendM α) : flat (unlocked p) = p :=
  Program.translate_translate _ Block.body
    (fun c ↦ Program.translate_request Block.body (Block.call c))
    p.run

@[simp] theorem flat_bind (p : StoreM α) (f : α → StoreM β) :
    flat (p >>= f) = flat p >>= fun a ↦ flat (f a) := by
  refine ExceptT.ext ?_
  rw [ExceptT.run_bind, flat, ExceptT.run_mk, ExceptT.run_bind, Program.translate_bind]
  exact congrArg _ (funext fun r ↦ by cases r <;> rfl)

@[simp] theorem flat_ite (c : Prop) [Decidable c] (p q : StoreM α) :
    flat (if c then p else q) = if c then flat p else flat q := apply_ite flat c p q

theorem unlocked_bind (p : BackendM α) (f : α → BackendM β) :
    unlocked (p >>= f) = unlocked p >>= fun a ↦ unlocked (f a) := by
  refine ExceptT.ext ?_
  rw [ExceptT.run_bind, unlocked, ExceptT.run_mk, ExceptT.run_bind, Program.translate_bind]
  exact congrArg _ (funext fun r ↦ by cases r <;> rfl)

theorem flat_foldlM {σ : Type} (f : σ → α → StoreM σ) (l : List α) (st : σ) :
    flat (l.foldlM f st) = l.foldlM (fun st a ↦ flat (f st a)) st := by
  induction l generalizing st with
  | nil => rfl
  | cons a l ih =>
    rw [List.foldlM_cons, List.foldlM_cons, flat_bind]
    exact congrArg _ (funext ih)

/-! ## Rules of the faulty world -/

section Rules

open Program

variable {F : Prop} {G : Machine Call State} {γ : Type} {Q : γ → State → Prop}
  {R : ChunkStoreError → State → Prop} {s : State}

/-- A backend call succeeds with its effect, or fails with or without it. -/
theorem wpx_backendCall (c : BackendCall γ) :
    wpx (faulty F) G (backendCall c) Q R s ↔
      (G.step s (Call.backend c) (.ok (c.run s.backend).1)
          { s with backend := (c.run s.backend).2 } ∧
        Q (c.run s.backend).1 { s with backend := (c.run s.backend).2 }) ∧
      (F → ∀ e, (G.step s (Call.backend c) (.error e) s ∧ R e s) ∧
        G.step s (Call.backend c) (.error e) { s with backend := (c.run s.backend).2 } ∧
          R e { s with backend := (c.run s.backend).2 }) := by
  constructor
  · exact fun h ↦ ⟨h _ _ (Or.inl ⟨rfl, rfl⟩), fun hF e ↦
      ⟨h _ _ (Or.inr ⟨hF, ⟨e, rfl⟩, Or.inl rfl⟩), h _ _ (Or.inr ⟨hF, ⟨e, rfl⟩, Or.inr rfl⟩)⟩⟩
  · rintro ⟨hok, herr⟩ r s' (⟨rfl, rfl⟩ | ⟨hF, ⟨e, rfl⟩, rfl | rfl⟩)
    · exact hok
    · exact (herr hF e).1
    · exact (herr hF e).2

/-- A call that leaves the backend alone either answers or fails. -/
theorem wpx_readCall {c : BackendCall γ} (hc : (c.run s.backend).2 = s.backend) :
    wpx (faulty F) G (backendCall c) Q R s ↔
      (G.step s (Call.backend c) (.ok (c.run s.backend).1) s ∧ Q (c.run s.backend).1 s) ∧
      (F → ∀ e, G.step s (Call.backend c) (.error e) s ∧ R e s) := by
  rw [wpx_backendCall, hc]
  exact and_congr_right fun _ ↦ forall_congr' fun _ ↦ forall_congr' fun _ ↦ and_self_iff

theorem wpx_get {key : String} {Q : Option Bytes → State → Prop} :
    wpx (faulty F) G (backendCall (.get key)) Q R s ↔
      (G.step s (Call.backend (.get key)) (.ok (s.find key)) s ∧ Q (s.find key) s) ∧
      (F → ∀ e, G.step s (Call.backend (.get key)) (.error e) s ∧ R e s) :=
  wpx_readCall rfl

theorem wpx_existsKey {key : String} {Q : Bool → State → Prop} :
    wpx (faulty F) G (backendCall (.existsKey key)) Q R s ↔
      (G.step s (Call.backend (.existsKey key)) (.ok (s.find key).isSome) s ∧
        Q (s.find key).isSome s) ∧
      (F → ∀ e, G.step s (Call.backend (.existsKey key)) (.error e) s ∧ R e s) :=
  wpx_readCall rfl

theorem wpx_put {key : String} {data : Bytes} {Q : Unit → State → Prop} :
    wpx (faulty F) G (backendCall (.put key data)) Q R s ↔
      (G.step s (Call.backend (.put key data)) (.ok ()) (s.put key data) ∧
        Q () (s.put key data)) ∧
      (F → ∀ e, (G.step s (Call.backend (.put key data)) (.error e) s ∧ R e s) ∧
        G.step s (Call.backend (.put key data)) (.error e) (s.put key data) ∧
          R e (s.put key data)) :=
  wpx_backendCall _

theorem wpx_delete {key : String} {Q : Unit → State → Prop} :
    wpx (faulty F) G (backendCall (.delete key)) Q R s ↔
      (G.step s (Call.backend (.delete key)) (.ok ()) (s.del key) ∧ Q () (s.del key)) ∧
      (F → ∀ e, (G.step s (Call.backend (.delete key)) (.error e) s ∧ R e s) ∧
        G.step s (Call.backend (.delete key)) (.error e) (s.del key) ∧ R e (s.del key)) :=
  wpx_backendCall _

theorem wpx_field (a : FieldAccess γ) :
    wpx (faulty F) G (field a) Q R s ↔
      G.step s (Call.field a) (a.run s.fields).1 (s.withFields (a.run s.fields).2) ∧
        Q (a.run s.fields).1 (s.withFields (a.run s.fields).2) := by
  constructor
  · exact fun h ↦ h _ _ ⟨rfl, rfl⟩
  · rintro h r s' ⟨rfl, rfl⟩
    exact h

theorem wpx_fieldOrThrow (a : FieldAccess (Except ChunkStoreError γ)) :
    wpx (faulty F) G (fieldOrThrow a) Q R s ↔
      G.step s (Call.field a) (a.run s.fields).1 (s.withFields (a.run s.fields).2) ∧
        outcome Q R (a.run s.fields).1 (s.withFields (a.run s.fields).2) := by
  constructor
  · exact fun h ↦ h _ _ ⟨rfl, rfl⟩
  · rintro h r s' ⟨rfl, rfl⟩
    exact h

theorem ends_backendCall (c : BackendCall γ) (s : State) :
    (faulty F).Ends (backendCall c).run s (.ok (c.run s.backend).1)
      { s with backend := (c.run s.backend).2 } :=
  .single (.req (Or.inl ⟨rfl, rfl⟩))

theorem ends_failBefore (c : BackendCall γ) (e : ChunkStoreError) (s : State) :
    (faulty True).Ends (backendCall c).run s (.error e) s :=
  .single (.req (Or.inr ⟨trivial, ⟨e, rfl⟩, Or.inl rfl⟩))

theorem ends_failAfter (c : BackendCall γ) (e : ChunkStoreError) (s : State) :
    (faulty True).Ends (backendCall c).run s (.error e)
      { s with backend := (c.run s.backend).2 } :=
  .single (.req (Or.inr ⟨trivial, ⟨e, rfl⟩, Or.inr rfl⟩))

theorem ends_field (a : FieldAccess γ) (s : State) :
    (faulty F).Ends (field a).run s (.ok (a.run s.fields).1) (s.withFields (a.run s.fields).2) :=
  .single (.req ⟨rfl, rfl⟩)

theorem ends_fieldOrThrow (a : FieldAccess (Except ChunkStoreError γ)) (s : State) :
    (faulty F).Ends (fieldOrThrow a).run s (a.run s.fields).1
      (s.withFields (a.run s.fields).2) :=
  .single (.req ⟨rfl, rfl⟩)

theorem wpx_ofExcept (r : Except ChunkStoreError γ) :
    wpx (faulty F) G (ofExcept r) Q R s ↔ outcome Q R r s := by cases r <;> rfl

/-- What a fault-free backend does may happen in every world. -/
theorem faulty_step_handle {δ : Type} (c : Call δ) (s : State) :
    (faulty F).step s c (callHandler.handle c s).1 (callHandler.handle c s).2 := by
  cases c with
  | backend c => exact Or.inl ⟨rfl, rfl⟩
  | field a => exact ⟨rfl, rfl⟩

/-- The fault-free world is the one in which faults are not allowed. -/
theorem faulty_step_of_not (hF : ¬F) {δ : Type} (s : State) (c : Call δ) (r : δ) (s' : State) :
    (faulty F).step s c r s' ↔ callHandler.toMachine.step s c r s' := by
  cases c with
  | backend c =>
    refine ⟨?_, ?_⟩
    · rintro (⟨rfl, rfl⟩ | ⟨h, -⟩)
      · rfl
      · exact absurd h hF
    · intro h
      obtain ⟨rfl, rfl⟩ := Prod.mk.inj h
      exact Or.inl ⟨rfl, rfl⟩
  | field a =>
    refine ⟨?_, ?_⟩
    · rintro ⟨rfl, rfl⟩
      rfl
    · intro h
      obtain ⟨rfl, rfl⟩ := Prod.mk.inj h
      exact ⟨rfl, rfl⟩

end Rules

end Chunkstore

import Chunkstore.Core.Footprint
import Chunkstore.Exact.Reopen

/-!
# Backend writes

The writes an operation makes on a fault-free backend, one after the other. A crash leaves the state
after one of them, so what a crash may do to a backend is said of every write: `carefully P`
composes a statement `P` about each write of a program.
-/

open Effects Program

namespace Chunkstore

/-- A write of the backend. -/
inductive BackendWrite
  | put (key : String) (data : Bytes)
  | delete (key : String)
  deriving DecidableEq, Repr

namespace BackendWrite

def apply (s : State) : BackendWrite → State
  | .put key data => s.put key data
  | .delete key => s.del key

def key : BackendWrite → String
  | .put key _ => key
  | .delete key => key

/-- What a write leaves under its key. -/
def data : BackendWrite → Option Bytes
  | .put _ data => some data
  | .delete _ => none

theorem wrote (s : State) (w : BackendWrite) : Wrote s (w.apply s) w.key w.data := by
  cases w with
  | put key data => exact wrote_put s key data
  | delete key => exact wrote_del s key

end BackendWrite

/-- The write of a request, if it is one. -/
def Call.write {γ : Type} : Call γ → Option BackendWrite
  | .backend (.put key data) => some (.put key data)
  | .backend (.delete key) => some (.delete key)
  | .backend (.get _) => none
  | .backend (.existsKey _) => none
  | .backend (.listKeys _) => none
  | .field _ => none

/-- The guarantee that `P` holds of every write. -/
def watched (P : State → BackendWrite → Prop) : Machine Call State where
  step s c _ _ := ∀ w, c.write = some w → P s w

/-- On a fault-free backend every write of `p` satisfies `P`, and `p` returns into `Q` or throws
into `R`. -/
def carefully {α : Type} (P : State → BackendWrite → Prop) (p : BackendM α) (Q : α → State → Prop)
    (R : ChunkStoreError → State → Prop) (s : State) : Prop :=
  wpx (faulty False) (watched P) p Q R s

section Rules

variable {α β : Type} {P : State → BackendWrite → Prop} {crates : Crates} {s : State} {key : String}
  {Q Q' : α → State → Prop} {R R' : ChunkStoreError → State → Prop}

theorem carefully_pure {a : α} (h : Q a s) : carefully P (pure a) Q R s := h

theorem carefully_throw {e : ChunkStoreError} (h : R e s) :
    carefully P (throw e : BackendM α) Q R s := h

theorem carefully_bind {p : BackendM α} {f : α → BackendM β} {Q : β → State → Prop}
    (h : carefully P p (fun a s' ↦ carefully P (f a) Q R s') R s) :
    carefully P (p >>= f) Q R s := (wpx_bind p f).mpr h

theorem carefully_mono {p : BackendM α} (h : carefully P p Q R s)
    (hQ : ∀ a s', Q a s' → Q' a s') (hR : ∀ e s', R e s' → R' e s') :
    carefully P p Q' R' s := wpx_mono h hQ hR

theorem quietly_of_carefully {p : BackendM α} (h : carefully P p Q R s) : quietly p Q R s :=
  wp_mono h (fun _ _ _ _ _ ↦ trivial) fun _ _ h ↦ h

theorem carefully_ofExcept {r : Except ChunkStoreError α} (hQ : ∀ a, r = .ok a → Q a s)
    (hR : ∀ e, r = .error e → R e s) : carefully P (ofExcept r) Q R s := by
  refine (wpx_ofExcept r).mpr ?_
  cases r with
  | ok a => exact hQ a rfl
  | error e => exact hR e rfl

theorem watched_of_none {δ : Type} {c : Call δ} {r : δ} {s' : State} (h : c.write = none) :
    (watched P).step s c r s' := fun w hw ↦ by
  rw [h] at hw
  cases hw

theorem carefully_get {Q : Option Bytes → State → Prop} (hQ : Q (s.find key) s) :
    carefully P (backendCall (.get key)) Q R s :=
  wpx_get.mpr ⟨⟨watched_of_none rfl, hQ⟩, False.elim⟩

theorem carefully_existsKey {Q : Bool → State → Prop} (hQ : Q (s.find key).isSome s) :
    carefully P (backendCall (.existsKey key)) Q R s :=
  wpx_existsKey.mpr ⟨⟨watched_of_none rfl, hQ⟩, False.elim⟩

theorem carefully_field {a : FieldAccess α}
    (hQ : Q (a.run s.fields).1 (s.withFields (a.run s.fields).2)) :
    carefully P (field a) Q R s :=
  (wpx_field a).mpr ⟨watched_of_none rfl, hQ⟩

theorem carefully_fieldOrThrow {a : FieldAccess (Except ChunkStoreError α)}
    (hQ : ∀ r, (a.run s.fields).1 = .ok r → Q r (s.withFields (a.run s.fields).2))
    (hR : ∀ e, (a.run s.fields).1 = .error e → R e (s.withFields (a.run s.fields).2)) :
    carefully P (fieldOrThrow a) Q R s := by
  refine (wpx_fieldOrThrow a).mpr ⟨watched_of_none rfl, ?_⟩
  cases h : (a.run s.fields).1 with
  | ok r => exact hQ r h
  | error e => exact hR e h

theorem carefully_readStringList {l : List String} {Q : List String → State → Prop}
    (hl : readIndex crates s key = some l) (hQ : Q l s) :
    carefully P (readStringList crates key) Q R s := by
  refine wpx_readStringList (fun _ ↦ watched_of_none rfl) (fun l' hl' ↦ ?_) ?_
  · rw [hl] at hl'
    cases hl'
    exact hQ
  · rintro (hF | hn)
    · exact hF.elim
    · rw [hl] at hn
      cases hn

theorem carefully_put {data : Bytes} {Q : Unit → State → Prop} (hP : P s (.put key data))
    (hQ : Q () (s.put key data)) : carefully P (backendCall (.put key data)) Q R s := by
  refine wpx_put.mpr ⟨⟨fun w hw ↦ ?_, hQ⟩, False.elim⟩
  cases hw
  exact hP

theorem carefully_delete {Q : Unit → State → Prop} (hP : P s (.delete key))
    (hQ : Q () (s.del key)) : carefully P (backendCall (.delete key)) Q R s := by
  refine wpx_delete.mpr ⟨⟨fun w hw ↦ ?_, hQ⟩, False.elim⟩
  cases hw
  exact hP

/-- What every write to some keys keeps, code that is confined to them keeps. -/
theorem carefully_confined {K : String → Prop} {p : BackendM α} {I : State → Prop}
    (hp : Confined K p) (h : I s)
    (hw : ∀ s (w : BackendWrite), K w.key → I s → P s w ∧ I (w.apply s)) :
    carefully P p (fun _ ↦ I) (fun _ ↦ I) s := by
  refine wp_post (hp.wp (fun c s r s' hc hI hs ↦ ?_) h) fun r s' hr ↦ by cases r <;> exact hr
  cases c with
  | field a => exact hc.elim
  | backend c =>
    obtain ⟨-, rfl⟩ := hs.resolve_right fun h ↦ h.1
    cases c with
    | get | existsKey | listKeys => exact ⟨watched_of_none rfl, hI⟩
    | put key data =>
      refine ⟨fun w hw' ↦ ?_, (hw s (.put key data) hc hI).2⟩
      obtain rfl := Option.some.inj hw'
      exact (hw s (.put key data) hc hI).1
    | delete key =>
      refine ⟨fun w hw' ↦ ?_, (hw s (.delete key) hc hI).2⟩
      obtain rfl := Option.some.inj hw'
      exact (hw s (.delete key) hc hI).1

end Rules

end Chunkstore

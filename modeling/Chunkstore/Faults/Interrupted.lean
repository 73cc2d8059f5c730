import Chunkstore.Core.Footprint

/-!
# One failing call

A run in which one backend call fails, without effect, while the ones before it work. When the code
gives up at a failing call, as everything written with `?` does, such a run ends in the state in
which the run without a failure makes that call: `evalFailing_eq`. So a question about every failing
call of an operation is one about the states in which its undisturbed run calls the backend, its
`stops`.
-/

open Effects Program

namespace Chunkstore

/-! ## The failing run -/

section Failing

variable {α β : Type}

/-- The run in which the backend call number `k` fails with `e`, and no other call does. -/
def evalFailing (e : ChunkStoreError) : Program Call α → ℕ → State → α × State
  | .ret a, _, s => (a, s)
  | .req (.field a) next, k, s =>
    evalFailing e (next (a.run s.fields).1) k (s.withFields (a.run s.fields).2)
  | .req (.backend _) next, 0, s => callHandler.eval (next (.error e)) s
  | .req (.backend c) next, k + 1, s =>
    evalFailing e (next (.ok (c.run s.backend).1)) k { s with backend := (c.run s.backend).2 }

/-- The states in which the undisturbed run calls the backend. -/
def stops : Program Call α → State → List State
  | .ret _, _ => []
  | .req (.field a) next, s =>
    stops (next (a.run s.fields).1) (s.withFields (a.run s.fields).2)
  | .req (.backend c) next, s =>
    s :: stops (next (.ok (c.run s.backend).1)) { s with backend := (c.run s.backend).2 }

/-- A program that ends with the error of a failing call. -/
def GivesUp : Program Call (Except ChunkStoreError α) → Prop
  | .ret _ => True
  | .req (.field _) next => ∀ r, GivesUp (next r)
  | .req (.backend _) next =>
    (∀ e, next (.error e) = .ret (.error e)) ∧ ∀ r, GivesUp (next (.ok r))

/-- **A failing run** of code that gives up stops where the undisturbed run makes the call. -/
theorem evalFailing_eq {p : Program Call (Except ChunkStoreError α)} (hp : GivesUp p)
    (e : ChunkStoreError) {k : ℕ} {s : State} (hk : k < (stops p s).length) :
    evalFailing e p k s = (.error e, (stops p s)[k]) := by
  induction p generalizing k s with
  | ret a => exact absurd hk (Nat.not_lt_zero k)
  | req c next ih =>
    cases c with
    | field a => exact ih _ (hp _) hk
    | backend c =>
      cases k with
      | zero =>
        rw [evalFailing, hp.1]
        rfl
      | succ k => exact ih _ (hp.2 _) (Nat.lt_of_succ_lt_succ hk)

theorem stops_bind (p : Program Call α) (f : α → Program Call β) (s : State) :
    stops (p >>= f) s
      = stops p s ++ stops (f (callHandler.eval p s).1) (callHandler.eval p s).2 := by
  induction p generalizing s with
  | ret a => rfl
  | req c next ih =>
    cases c with
    | field a => exact ih _ _
    | backend c => exact congrArg (s :: ·) (ih _ _)

theorem stops_map (f : α → β) (p : BackendM α) (s : State) :
    stops (f <$> p).run s = stops p.run s := by
  rw [map_eq_pure_bind, ExceptT.run_bind, stops_bind]
  cases (callHandler.eval p.run s).1 <;> exact List.append_nil _

theorem forall_mem_stops {P : {δ : Type} → Call δ → Prop} {I : State → Prop} {p : Program Call α}
    (hp : p.Uses P) (hI : ∀ {δ : Type} (c : Call δ) (s : State), P c → I s →
      I (callHandler.handle c s).2) {s : State} (h : I s) : ∀ t ∈ stops p s, I t := by
  induction p generalizing s with
  | ret a => exact fun t ht ↦ absurd ht List.not_mem_nil
  | req c next ih =>
    have hnext := hI c s hp.1 h
    cases c with
    | field a => exact ih _ (hp.2 _) hnext
    | backend c =>
      intro t ht
      rcases List.mem_cons.mp ht with rfl | ht
      · exact h
      · exact ih _ (hp.2 _) hnext t ht

end Failing

/-! ### Code that gives up -/

section GivesUp

variable {α β σ : Type}

theorem givesUp_pure (a : α) : GivesUp (pure a : BackendM α).run := trivial

theorem givesUp_throw (e : ChunkStoreError) : GivesUp (throw e : BackendM α).run := trivial

theorem givesUp_ofExcept (r : Except ChunkStoreError α) :
    GivesUp (ofExcept r : BackendM α).run := by
  cases r <;> trivial

theorem givesUp_backendCall (c : BackendCall α) : GivesUp (backendCall c).run :=
  ⟨fun _ ↦ rfl, fun _ ↦ trivial⟩

theorem givesUp_field (a : FieldAccess α) : GivesUp (field a).run := fun _ ↦ trivial

theorem givesUp_fieldOrThrow (a : FieldAccess (Except ChunkStoreError α)) :
    GivesUp (fieldOrThrow a).run := fun _ ↦ trivial

theorem givesUp_bind {p : BackendM α} {f : α → BackendM β} (hp : GivesUp p.run)
    (hf : ∀ a, GivesUp (f a).run) : GivesUp (p >>= f).run := by
  rw [ExceptT.run_bind]
  generalize p.run = q at hp
  induction q with
  | ret r => cases r with
    | ok a => exact hf a
    | error e => trivial
  | req c next ih =>
    cases c with
    | field a => exact fun r ↦ ih r (hp r)
    | backend c =>
      refine ⟨fun e ↦ ?_, fun r ↦ ih _ (hp.2 r)⟩
      exact congrArg (· >>= _) (hp.1 e)

theorem givesUp_map {p : BackendM α} (f : α → β) (hp : GivesUp p.run) : GivesUp (f <$> p).run := by
  rw [map_eq_pure_bind]
  exact givesUp_bind hp fun a ↦ givesUp_pure (f a)

theorem givesUp_ite (c : Prop) [Decidable c] {p q : BackendM α} (hp : GivesUp p.run)
    (hq : GivesUp q.run) : GivesUp (if c then p else q).run := by
  split
  · exact hp
  · exact hq

end GivesUp

/-! ## Undisturbed runs with their stops -/

/-- From `s`, `p` returns `a` in `s'`, and calls the backend in the states of `l` on the way. -/
structure Walks {α : Type} (p : BackendM α) (s : State) (a : α) (s' : State) (l : List State) :
    Prop where
  eval : callHandler.eval p.run s = (.ok a, s')
  stops : stops p.run s = l

namespace Walks

variable {α β : Type} {p : BackendM α} {f : α → BackendM β} {s s' s'' : State} {a : α} {b : β}
  {l l' : List State} {crates : Crates} {digest fileId key : String} {index : List String}

theorem bind (hp : Walks p s a s' l) (hf : Walks (f a) s' b s'' l') :
    Walks (p >>= f) s b s'' (l ++ l') where
  eval := by
    rw [ExceptT.run_bind, Handler.eval_bind, hp.eval]
    exact hf.eval
  stops := by
    rw [ExceptT.run_bind, stops_bind, hp.eval, hp.stops]
    exact congrArg (l ++ ·) hf.stops

theorem pure (a : α) (s : State) : Walks (Pure.pure a) s a s [] := ⟨rfl, rfl⟩

theorem map (f : α → β) (hp : Walks p s a s' l) : Walks (f <$> p) s (f a) s' l := by
  rw [map_eq_pure_bind, ← List.append_nil l]
  exact hp.bind (pure (f a) s')

theorem call (c : BackendCall α) (s : State) :
    Walks (backendCall c) s (c.run s.backend).1 { s with backend := (c.run s.backend).2 } [s] :=
  ⟨rfl, rfl⟩

theorem get (key : String) (s : State) : Walks (backendCall (.get key)) s (s.find key) s [s] :=
  ⟨rfl, rfl⟩

theorem put (key : String) (data : Bytes) (s : State) :
    Walks (backendCall (.put key data)) s () (s.put key data) [s] := ⟨rfl, rfl⟩

theorem delete (key : String) (s : State) :
    Walks (backendCall (.delete key)) s () (s.del key) [s] := ⟨rfl, rfl⟩

theorem access (a : FieldAccess α) (s : State) :
    Walks (field a) s (a.run s.fields).1 (s.withFields (a.run s.fields).2) [] := ⟨rfl, rfl⟩

theorem accessOrThrow {a : FieldAccess (Except ChunkStoreError α)} {r : α}
    (h : (a.run s.fields).1 = .ok r) :
    Walks (fieldOrThrow a) s r (s.withFields (a.run s.fields).2) [] := by
  refine ⟨Prod.ext h rfl, ?_⟩
  rw [fieldOrThrow, ExceptT.run_mk, request, Chunkstore.stops]
  rfl

theorem readStringList (h : readIndex crates s key = some index) :
    Walks (Chunkstore.readStringList crates key) s index s [s] := by
  refine (get key s).bind ?_
  cases hf : s.find key with
  | none =>
    rw [readIndex_of_find_none hf] at h
    cases h
    exact pure _ _
  | some raw =>
    rw [readIndex_of_find hf] at h
    dsimp only
    cases hr : crates.serde.stringsFromSlice raw with
    | error e =>
      rw [hr] at h
      cases h
    | ok l =>
      rw [hr] at h
      cases h
      exact pure _ _

/-- Taking a name off an index, after what was said under it was deleted. -/
theorem unlist {name : String} (hne : key ≠ name)
    (h : readIndex crates s key = some index) :
    Walks (do
      backendCall (.delete name)
      let index ← Chunkstore.readStringList crates key
      writeStringList crates key (index.filter (· ≠ digest))) s ()
      ((s.del name).put key (crates.serde.stringsToVec (index.filter (· ≠ digest))))
      [s, s.del name, s.del name] :=
  (delete name s).bind ((readStringList ((readIndex_congr (State.find_del_ne hne)).trans h)).bind
    (put _ _ _))

theorem saveRefcount {count size : ℕ} (hd : isChunkDigest digest = true)
    (h : readIndex crates s refcountIndexKey = some index) (hmem : digest ∈ index) :
    Walks (Chunkstore.saveRefcount crates digest count size) s ()
      (s.put (refcountKey digest) (crates.serde.refcountToVec ⟨count, size⟩))
      [s, s.put (refcountKey digest) (crates.serde.refcountToVec ⟨count, size⟩)] := by
  have hne : digest ≠ indexName := ne_of_isChunkDigest hd isChunkDigest_indexName
  have hindex : readIndex crates
      (s.put (refcountKey digest) (crates.serde.refcountToVec ⟨count, size⟩)) refcountIndexKey
        = some index :=
    (readIndex_congr (State.find_put_ne fun hk ↦ hne (refcountKey_eq_indexKey.mp hk.symm))).trans h
  rw [Chunkstore.saveRefcount, validateDigest_eq_ok.mpr hd, ofExcept_ok, pure_bind]
  refine (put _ _ s).bind ((readStringList hindex).bind ?_)
  rw [if_pos hmem]
  exact pure _ _

end Walks

end Chunkstore

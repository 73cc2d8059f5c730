import Chunkstore.Backends.Scope
import Chunkstore.Exact.Afresh
import Chunkstore.Refinement.FileMap

/-!
# Sessions

Processes that use a store one after the other, each through a backend of its own. All that one
leaves to the next is what the backends keep; the instance is gone with the process.

Nothing is lost with it. Opening makes an instance out of the backend and of nothing else, so the
sessions are one run that opens the store again and again.

## Main result

* `ChunkBackend.Succession.returns`: sessions on backends that realise the map, whatever they are,
  return what one run on the map returns.
-/

open Effects Program

namespace Chunkstore

/-! ## Opening forgets the instance -/

section Opening

variable {store : ChunkStore} {b : Backend} {f f' : Fields} {P : {γ : Type} → Call γ → Prop}

private theorem meets_toBackend {p : Program Call α} (hp : p.Uses Call.ToBackend)
    (h : callHandler.Meets (fun _ c ↦ P c) p ⟨b, f⟩) :
    callHandler.Meets (fun _ c ↦ P c) p ⟨b, f'⟩ := by
  induction p generalizing b with
  | ret a => trivial
  | req c next ih =>
    cases c with
    | field a => exact hp.1.elim
    | backend c => exact ⟨h.1, ih _ (hp.2 _) h.2⟩

theorem meets_reopen_fields {reply : ChunkStore.Reply}
    (h : (store.exec .reopen ⟨b, f⟩).1 = .ok reply)
    (hp : callHandler.Meets (fun _ c ↦ P c) (flat (store.perform .reopen)).run ⟨b, f⟩) :
    callHandler.Meets (fun _ c ↦ P c) (flat (store.perform .reopen)).run ⟨b, f'⟩ := by
  have hload := eval_toBackend (@toBackend_loading store.crates) b f f'
  rw [ChunkStore.perform, ChunkStore.flat_map, flat_reopen_eq, ExceptT.run_map, map_eq_pure_bind,
    Handler.meets_bind, ExceptT.run_bind, Handler.meets_bind] at hp ⊢
  rw [ChunkStore.exec, ChunkStore.perform, ChunkStore.flat_map, flat_reopen_eq, ExceptT.run_map,
    map_eq_pure_bind, Handler.eval_bind, ExceptT.run_bind, Handler.eval_bind] at h
  obtain ⟨⟨hmeets, hrest⟩, -⟩ := hp
  refine ⟨⟨meets_toBackend toBackend_loading hmeets, ?_⟩, trivial⟩
  rw [hload]
  cases hr : (callHandler.eval (loading store.crates).run ⟨b, f⟩).1 with
  | ok r =>
    rw [hr] at hrest
    exact hrest
  | error e =>
    rw [hr] at h
    cases h

end Opening

/-! ## Several sessions -/

namespace ChunkStore

/-- The operations of the sessions, with what opens them. -/
def opsOf (work : List (List ChunkStore.Op)) : List ChunkStore.Op :=
  work.flatMap fun ops ↦ .reopen :: ops

section Runs

variable {P : {γ : Type} → State → Call γ → Prop} {α : Type} {store : ChunkStore}
  {work : List (List Op)} {s : State}

theorem meets_serve_append (ops ops' : List Op) (s : State) :
    callHandler.Meets P (store.serve (ops ++ ops')) s ↔
      callHandler.Meets P (store.serve ops) s ∧
        callHandler.Meets P (store.serve ops') (store.execAll ops s).2 := by
  induction ops generalizing s with
  | nil => exact (iff_of_eq (true_and _)).symm
  | cons op ops ih =>
    have htail (l : List Op) : callHandler.Meets P (store.serve (op :: l)) s ↔
        callHandler.Meets P (flat (store.perform op)).run s ∧
          callHandler.Meets P (store.serve l) (store.exec op s).2 := by
      rw [serve, Handler.meets_bind, Handler.meets_bind]
      exact and_congr_right fun _ ↦ and_iff_left trivial
    rw [List.cons_append, htail, htail, ih, and_assoc]
    rfl

theorem meets_and {P' : {γ : Type} → State → Call γ → Prop} {p : Program Call α}
    (h : callHandler.Meets P p s) (h' : callHandler.Meets P' p s) :
    callHandler.Meets (fun s c ↦ P s c ∧ P' s c) p s := by
  induction p generalizing s with
  | ret a => trivial
  | req c next ih => exact ⟨⟨h.1, h'.1⟩, ih _ h.2 h'.2⟩

theorem meets_opsOf {sc : Scope} (h : sc.Covers store work.flatten) :
    callHandler.Meets (fun _ c ↦ c.On sc) (store.serve (opsOf work)) (.empty false) := by
  cases work with
  | nil => trivial
  | cons ops work =>
    refine Scope.Covers.meets ⟨h.records, h.index, ?_⟩ false
    rw [List.flatten_cons] at h
    intro op hop
    rcases List.mem_append.mp hop with hop | hop
    · exact h.within op (List.mem_append_left _ hop)
    · obtain ⟨ops', hops', hmem⟩ := List.mem_flatMap.mp hop
      rcases List.mem_cons.mp hmem with rfl | hmem
      · trivial
      · exact h.within op (List.mem_append_right _ (List.mem_flatten.mpr ⟨ops', hops', hmem⟩))

end Runs

end ChunkStore

namespace ChunkBackend

variable {T : Type}

/-- Processes one after the other, each with a backend of its own on what the last one has left. -/
inductive Succession (store : ChunkStore) : List (ChunkBackend T × List ChunkStore.Op) → T →
    List (List (Except ChunkStoreError ChunkStore.Reply)) → T → Prop
  | nil {t : T} : Succession store [] t [] t
  | cons {b : ChunkBackend T} {ops : List ChunkStore.Op}
      {work : List (ChunkBackend T × List ChunkStore.Op)} {t t' t'' : T} {f : Fields}
      {rs : List (Except ChunkStoreError ChunkStore.Reply)}
      {rss : List (List (Except ChunkStoreError ChunkStore.Reply))}
      (hfirst : b.world.Ends (store.serve (.reopen :: ops)) (t, .empty) rs (t', f))
      (hrest : Succession store work t' rss t'') :
      Succession store ((b, ops) :: work) t (rs :: rss) t''

section Succession

variable {P : {γ : Type} → Call γ → Prop} {R : Backend → T → Prop} {sc : Scope} {store : ChunkStore}
  {work : List (ChunkBackend T × List ChunkStore.Op)} {ops : List ChunkStore.Op} {s : State} {t : T}

private theorem serve_fresh (h : SyncedIn sc store s)
    (hp : callHandler.Meets (fun _ c ↦ P c) (store.serve (.reopen :: ops)) s) :
    store.execAll (.reopen :: ops) ⟨s.backend, .empty⟩ = store.execAll (.reopen :: ops) s ∧
      callHandler.Meets (fun _ c ↦ P c) (store.serve (.reopen :: ops)) ⟨s.backend, .empty⟩ := by
  obtain ⟨reply, hopen⟩ := h.reopens
  have hfresh : store.exec .reopen ⟨s.backend, .empty⟩ = store.exec .reopen s :=
    exec_reopen_fields hopen
  constructor
  · rw [ChunkStore.execAll, ChunkStore.execAll, hfresh]
  · rw [← List.singleton_append, ChunkStore.meets_serve_append, ChunkStore.serve,
      Handler.meets_bind] at hp ⊢
    refine ⟨⟨meets_reopen_fields hopen hp.1.1, trivial⟩, ?_⟩
    have hrest := hp.2
    rw [ChunkStore.execAll, ChunkStore.execAll] at hrest ⊢
    rw [hfresh]
    exact hrest

/-- **Sessions are one run.** -/
theorem Succession.returns (hreal : ∀ q ∈ work, q.1.Realises (fun _ c ↦ P c) R)
    (hindex : ¬sc.file indexName) (h : SyncedIn sc store s)
    (hops : ∀ q ∈ work, ∀ op ∈ q.2, store.Within sc op)
    (hp : callHandler.Meets (fun _ c ↦ P c) (store.serve (ChunkStore.opsOf (work.map Prod.snd))) s)
    (hR : R s.backend t) :
    (∃ rss t', Succession store work t rss t') ∧ ∀ rss t', Succession store work t rss t' →
      rss.flatten = (store.execAll (ChunkStore.opsOf (work.map Prod.snd)) s).1 ∧
        R (store.execAll (ChunkStore.opsOf (work.map Prod.snd)) s).2.backend t' := by
  induction work generalizing s t with
  | nil =>
    refine ⟨⟨[], t, .nil⟩, fun rss t' hs ↦ ?_⟩
    cases hs
    exact ⟨rfl, hR⟩
  | cons q work ih =>
    obtain ⟨b, ops⟩ := q
    rw [List.map_cons, ChunkStore.opsOf, List.flatMap_cons] at hp ⊢
    rw [ChunkStore.meets_serve_append] at hp
    -- the session is the next part of the run, from an instance that does not matter
    obtain ⟨hfresh, hmeets⟩ := serve_fresh h hp.1
    obtain ⟨⟨x, hends⟩, hall⟩ := (hreal _ List.mem_cons_self).serve store hmeets hR
    have hopened : SyncedIn sc store (store.exec .reopen s).2 := h.exec hindex trivial
    have hsynced := hopened.execAll hindex (hops _ List.mem_cons_self)
    have hrest {t' : T} (hR' : R (store.execAll (.reopen :: ops) s).2.backend t') :=
      ih (fun q hq ↦ hreal q (List.mem_cons_of_mem _ hq)) hsynced
        (fun q hq ↦ hops q (List.mem_cons_of_mem _ hq)) hp.2 hR'
    rw [ChunkStore.execAll_append]
    rw [hfresh] at hends hall
    constructor
    · obtain ⟨-, -, hR'⟩ := hall _ _ _ hends
      obtain ⟨⟨rss, t', hsucc⟩, -⟩ := hrest hR'
      exact ⟨_, t', .cons hends hsucc⟩
    · intro rss t' hs
      cases hs with
      | cons hfirst hsucc =>
        obtain ⟨rfl, -, hR'⟩ := hall _ _ _ hfirst
        obtain ⟨hflat, hR''⟩ := (hrest hR').2 _ _ hsucc
        rw [List.flatten_cons, hflat]
        exact ⟨rfl, hR''⟩

end Succession

end ChunkBackend

end Chunkstore

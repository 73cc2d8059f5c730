import Chunkstore.Backends.Apart
import Chunkstore.Backends.Sessions
import Chunkstore.Bindings.GoBytes
import Chunkstore.Effects.Separate

/-!
# Stores on Go backends

The core calls a Go backend through four C callbacks and a pointer. `Open` does not pass a Go
pointer: it registers the backend under the next number of a counter, passes the number, and the
callbacks look it up. All stores of a process share the counter and the registry.

So a store must find its own backend there whatever the others open and close, and nothing may get
lost between the core and Go: a key with a NUL is turned down, an empty value is taken for none, and
a value of 2 GiB loses its length.

## Main result

* `GoBridge.serves_maps`: in any interleaving every store does what it does alone on a map.
-/

open Effects Program

namespace Chunkstore

namespace GoBridge

/-! ## The callbacks -/

/-- `CallbackBackend::cstr`, which turns down a key with a NUL. -/
def cstr (key : String) : Except ChunkStoreError Unit :=
  if nul ∈ key.toList then
    .error (.invalidArgument ("nul byte found in provided data at position: " ++
      toString ((key.toList.takeWhile (· ≠ nul)).map Char.utf8Size).sum))
  else .ok ()

/-- `chunkstore_go_backend_get`: the buffer it hands over, or `none` for `CHUNKSTORE_ERR`. -/
def goBackendGet : Except ChunkStoreError (Option Bytes) → Option CBuffer
  | .error _ => none
  | .ok none => some ⟨none, 0⟩
  | .ok (some data) => some (if data.length = 0 then ⟨none, 0⟩ else GoBytes.vecBuffer data)

/-- `CallbackBackend::get`, from what the callback hands over. -/
def callbackGet (key : String) : Option CBuffer → Except ChunkStoreError (Option Bytes)
  | none => .error (.backendError ("get failed for key " ++ key))
  | some ⟨none, _⟩ => .ok none
  | some ⟨some data, length⟩ =>
    if length = 0 then .ok none else .ok (some (data.take length.toNat))

/-- What `put`, `exists` and `delete` of `CallbackBackend` make of an answer from Go, of which an
error only is known to be one. -/
def callbackStatus {γ : Type} (what key : String) :
    Option (Except ChunkStoreError γ) → Except ChunkStoreError γ
  | some (.ok a) => .ok a
  | _ => .error (.backendError (what ++ " failed for key " ++ key))

section Calls

variable {γ T : Type}

/-- The key of a call. Keys are not listed through the bridge. -/
def keyOf : BackendCall γ → Option String
  | .get key | .put key _ | .existsKey key | .delete key => some key
  | .listKeys _ => none

/-- The call as it arrives in Go. A put may make Go panic, which is `none`. -/
def handOver : BackendCall γ → Option (BackendCall γ)
  | .put key data => (GoBytes.backendPut data).map fun payload ↦ .put key payload
  | c => some c

/-- The answer as it arrives in the core. There is none from Go if there is no bridge. -/
def handBack : BackendCall γ → Option (Except ChunkStoreError γ) → Except ChunkStoreError γ
  | .get key, answer => callbackGet key (answer.bind goBackendGet)
  | .put key _, answer => callbackStatus "put" key answer
  | .existsKey key, answer => callbackStatus "exists" key answer
  | .delete key, answer => callbackStatus "delete" key answer
  | .listKeys _, _ => .ok none

/-- `CallbackBackend` with the callbacks of `callbacks.go`: the key becomes a C string, the bridge
is looked up, and the backend is called. -/
def viaCallbacks (bridge : Option (ChunkBackend T)) : ChunkBackend T where
  call c t r t' :=
    match (keyOf c).map cstr, bridge with
    | some (.error e), _ => r = .error e ∧ t' = t
    | some (.ok _), some b =>
      ∃ c' answer, handOver c = some c' ∧ b.call c' t answer t' ∧ r = handBack c (some answer)
    | some (.ok _), none | none, _ => r = handBack c none ∧ t' = t

end Calls

/-! ## What crosses -/

/-- Files and values that cross: no file id has a NUL, and no value is empty. -/
structure Crosses (sc : Scope) : Prop where
  file : ∀ f, sc.file f → nul ∉ f.toList
  value : ∀ v, sc.value v → v ≠ []

/-- A put of less than 2 GiB. -/
def Short {γ : Type} : Call γ → Prop
  | .backend (.put _ data) => data.length < 2 ^ 31
  | _ => True

instance decidableShort {γ : Type} : (c : Call γ) → Decidable (Short c)
  | .backend (.put _ data) => inferInstanceAs (Decidable (data.length < 2 ^ 31))
  | .backend (.get _) | .backend (.existsKey _) | .backend (.delete _) | .backend (.listKeys _)
  | .field _ => .isTrue trivial

/-- A map that cannot be listed, whose values cross. -/
structure Crossed (b : Backend) : Prop where
  lists : b.lists = false
  value : ∀ key data, b.data.find key = some data → data ≠ [] ∧ data.length < 2 ^ 31

section Crosses

variable {T : Type} {sc : Scope} {key : String} {data : Bytes} {b : Backend}

private theorem cstr_eq_ok (h : nul ∉ key.toList) : cstr key = .ok () := if_neg h

private theorem nul_not_mem_digest {digest : String} (hd : isChunkDigest digest = true) :
    nul ∉ digest.toList := by
  intro hmem
  rw [isChunkDigest_eq_false hmem (by decide)] at hd
  cases hd

private theorem Crosses.cstr (h : Crosses sc) (hkey : sc.Key key) : cstr key = .ok () := by
  refine cstr_eq_ok ?_
  cases hkey with
  | blob hd => exact nul_not_mem_digest hd
  | @refcount digest hd =>
    rw [toList_refcountKey, List.mem_append, not_or]
    refine ⟨by decide, ?_⟩
    rcases hd with hd | rfl
    · exact nul_not_mem_digest hd
    · decide
  | @manifest fileId hf =>
    rw [toList_manifestKey, List.mem_append, not_or]
    refine ⟨by decide, ?_⟩
    rcases hf with hf | rfl
    · exact h.file fileId hf
    · decide

private theorem Crossed.get (h : Crossed b) :
    callbackGet key (goBackendGet (.ok (b.data.find key))) = .ok (b.data.find key) := by
  cases hfind : b.data.find key with
  | none => rfl
  | some data =>
    obtain ⟨hne, hlen⟩ := h.value key data hfind
    have hpos : data.length ≠ 0 := fun h0 ↦ hne (List.length_eq_zero_iff.mp h0)
    have hn : (UInt64.ofNat data.length).toNat = data.length :=
      UInt64.toNat_ofNat_of_lt' (hlen.trans (by decide))
    rw [goBackendGet, if_neg hpos, GoBytes.vecBuffer, callbackGet, hn, List.take_length, if_neg]
    intro h0
    rw [h0] at hn
    exact hpos hn.symm

theorem Crossed.run (h : Crossed b) (hcross : Crosses sc) {γ : Type} {c : BackendCall γ}
    (hc : (Call.backend c).On sc) (hshort : Short (Call.backend c)) : Crossed (c.run b).2 := by
  cases c with
  | put key data =>
    refine ⟨h.lists, fun other d hfind ↦ ?_⟩
    change (b.data.set key data).find other = some d at hfind
    rw [Table.find_set] at hfind
    split at hfind
    · cases hfind
      exact ⟨hcross.value data hc.2, hshort⟩
    · exact h.value other d hfind
  | delete key =>
    refine ⟨h.lists, fun other d hfind ↦ ?_⟩
    change (b.data.unset key).find other = some d at hfind
    rw [Table.find_unset] at hfind
    split at hfind
    · cases hfind
    · exact h.value other d hfind
  | get | existsKey | listKeys => exact h

/-- A call in scope arrives in Go as it was made. -/
theorem viaCallbacks_call {self : ChunkBackend T} (hcross : Crosses sc) {γ : Type}
    {c : BackendCall γ} (hc : (Call.backend c).On sc) (hshort : Short (Call.backend c))
    (hkey : (keyOf c).isSome) {t t' : T} {r : Except ChunkStoreError γ} :
    (viaCallbacks (some self)).call c t r t' ↔
      ∃ answer, self.call c t answer t' ∧ r = handBack c (some answer) := by
  -- the key is a C string, and the value comes whole
  have harrives : (keyOf c).map GoBridge.cstr = some (.ok ()) ∧ handOver c = some c := by
    cases c with
    | get key | delete key => exact ⟨congrArg some (hcross.cstr hc), rfl⟩
    | existsKey key => exact ⟨congrArg some (hcross.cstr (.blob hc)), rfl⟩
    | put key data =>
      have hput : GoBytes.backendPut data = some data :=
        (GoBytes.fromBuffer_vecBuffer_eq_iff (hshort.trans (by decide))).mpr hshort
      refine ⟨congrArg some (hcross.cstr hc.1), ?_⟩
      rw [handOver, hput]
      rfl
    | listKeys => cases hkey
  rw [viaCallbacks]
  dsimp only
  rw [harrives.1]
  constructor
  · rintro ⟨c', answer, hc', hcall, hr⟩
    obtain rfl := Option.some.inj (harrives.2.symm.trans hc')
    exact ⟨answer, hcall, hr⟩
  · rintro ⟨answer, hcall, hr⟩
    exact ⟨c, answer, harrives.2, hcall, hr⟩

/-- **Across the bridge a map is a map,** as long as nothing gets lost on it. -/
theorem realises_viaCallbacks {self : ChunkBackend T} {R : Backend → T → Prop} (hcross : Crosses sc)
    (h : self.Realises (fun _ c ↦ c.On sc) R) :
    (viaCallbacks (some self)).Realises (fun _ c ↦ c.On sc ∧ Short c)
      fun m t ↦ R m t ∧ Crossed m where
  answers c s t hc hR := by
    cases hkey : keyOf c with
    | none =>
      cases c with
      | listKeys => exact ⟨_, _, rfl, rfl⟩
      | _ => cases hkey
    | some key =>
      obtain ⟨answer, t', hcall⟩ := h.answers c s t hc.1 hR.1
      refine ⟨_, t', (viaCallbacks_call hcross hc.1 hc.2 ?_).mpr ⟨answer, hcall, rfl⟩⟩
      rw [hkey]
      rfl
  agrees c s t r t' hc hR hcall := by
    obtain ⟨hR, hm⟩ := hR
    have hm' := hm.run hcross hc.1 hc.2
    cases hkey : keyOf c with
    | none =>
      cases c with
      | listKeys =>
        obtain ⟨rfl, rfl⟩ := hcall
        rw [BackendCall.run, hm.lists]
        exact ⟨rfl, hR, hm⟩
      | _ => cases hkey
    | some key =>
      obtain ⟨answer, hanswer, rfl⟩ :=
        (viaCallbacks_call hcross hc.1 hc.2 (by rw [hkey]; rfl)).mp hcall
      obtain ⟨rfl, hR'⟩ := h.agrees c s t answer t' hc.1 hR hanswer
      refine ⟨?_, hR', hm'⟩
      -- only what is found could get lost on the way back
      cases c with
      | get key => exact hm.get
      | put | existsKey | delete => rfl
      | listKeys => cases hkey

end Crosses

/-! ## The process -/

/-- What a Go program asks for: a bridge to be registered or taken out, and what the core asks
for. -/
inductive GoCall : Type → Type 1
  | registerBridge : GoCall Unit
  | unregisterBridge : GoCall Unit
  | core {γ : Type} (c : Call γ) : GoCall γ

/-- The variables of the package, and what the backends keep. -/
structure GoProcess (β T : Type) where
  bridgeSeq : ℕ
  bridgeRegistry : Table UInt64 β
  outside : T

/-- A `Store`: its backend, the id of its bridge, and the fields of its instance of the core. -/
structure GoStore (β : Type) where
  backend : β
  bridgeID : UInt64
  fields : Fields

section Process

variable {β T : Type}

/-- The process. The counter is one of 64 bits, so ids come again after `2 ^ 64` of them. -/
def goWorld (impl : β → ChunkBackend T) : Machine GoCall (GoProcess β T × GoStore β) where
  step
    | (g, l), .registerBridge, _, (g', l') =>
      let id := UInt64.ofNat (g.bridgeSeq + 1)
      g' = { g with
        bridgeSeq := g.bridgeSeq + 1, bridgeRegistry := g.bridgeRegistry.set id l.backend } ∧
        l' = { l with bridgeID := id }
    | (g, l), .unregisterBridge, _, (g', l') =>
      g' = (if l.bridgeID = 0 then g
        else { g with bridgeRegistry := g.bridgeRegistry.unset l.bridgeID }) ∧
        l' = { l with bridgeID := 0 }
    | (g, l), .core (.backend c), r, (g', l') =>
      ∃ t, (viaCallbacks ((g.bridgeRegistry.find l.bridgeID).map impl)).call c g.outside r t ∧
        g' = { g with outside := t } ∧ l' = l
    | (g, l), .core (.field a), r, (g', l') =>
      r = (a.run l.fields).1 ∧ g' = g ∧ l' = { l with fields := (a.run l.fields).2 }

/-- A request of the core. -/
def core {γ : Type} (c : Call γ) : Program GoCall γ := request (.core c)

/-- `Open`, then operations, then `Close`: what the operations return, or `none` if the core could
not create a store. -/
def session (store : ChunkStore) (ops : List ChunkStore.Op) :
    Program GoCall (Option (List (Except ChunkStoreError ChunkStore.Reply))) := do
  request .registerBridge
  match ← (flat (store.perform .reopen)).run.translate core with
  | .error _ =>
    request .unregisterBridge
    return none
  | .ok _ =>
    let rs ← (store.serve ops).translate core
    request .unregisterBridge
    return some rs

/-- Sessions one after the other. -/
def sessions (store : ChunkStore) : List (List ChunkStore.Op) →
    Program GoCall (List (Option (List (Except ChunkStoreError ChunkStore.Reply))))
  | [] => return []
  | ops :: work => do
    let r ← session store ops
    let rs ← sessions store work
    return r :: rs

/-- The sessions on a map: each opens the store again. -/
def visits (store : ChunkStore) : List (List ChunkStore.Op) → State →
    List (List (Except ChunkStoreError ChunkStore.Reply)) × State
  | [], s => ([], s)
  | ops :: work, s =>
    let r := store.execAll ops (store.exec .reopen s).2
    let rs := visits store work r.2
    (r.1 :: rs.1, rs.2)

/-- Go programs that have not opened anything yet, each with its backend and its sessions. -/
def programs (store : ChunkStore) (work : List (β × List (List ChunkStore.Op))) :
    List (Party GoCall (GoStore β)
      (List (Option (List (Except ChunkStoreError ChunkStore.Reply))))) :=
  work.map fun q ↦ ⟨sessions store q.2, q.1, 0, .empty⟩

/-! ## A program alone -/

/-- A store on a map, and whether it is open. -/
structure Alone where
  state : State
  isOpen : Bool

/-- A program on a map of its own. -/
def aloneHandler : Handler GoCall Alone where
  handle
    | .registerBridge, x => ((), { x with isOpen := true })
    | .unregisterBridge, x => ((), { x with isOpen := false })
    | .core c, x =>
      ((callHandler.handle c x.state).1, { x with state := (callHandler.handle c x.state).2 })

/-- A store is opened when it is closed, and used when it is open; its calls meet a condition. -/
def Permitted (P : {γ : Type} → State → Call γ → Prop) {γ : Type} : Alone → GoCall γ → Prop
  | x, .registerBridge => x.isOpen = false
  | x, .unregisterBridge => x.isOpen = true
  | x, .core c => x.isOpen = true ∧ P x.state c

section Alone

variable {P : {γ : Type} → State → Call γ → Prop} {α : Type} {store : ChunkStore} {s : State}
  {ops : List ChunkStore.Op} {work : List (List ChunkStore.Op)}

theorem eval_core (p : Program Call α) (s : State) (isOpen : Bool) :
    aloneHandler.eval (p.translate core) ⟨s, isOpen⟩
      = ((callHandler.eval p s).1, ⟨(callHandler.eval p s).2, isOpen⟩) := by
  induction p generalizing s with
  | ret a => rfl
  | req c next ih => exact ih _ _

private theorem meets_core {p : Program Call α} (h : callHandler.Meets P p s) :
    aloneHandler.Meets (Permitted P) (p.translate core) ⟨s, true⟩ := by
  induction p generalizing s with
  | ret a => trivial
  | req c next ih => exact ⟨⟨rfl, h.1⟩, ih _ h.2⟩

private theorem eval_session {reply : ChunkStore.Reply} (h : (store.exec .reopen s).1 = .ok reply) :
    aloneHandler.eval (session store ops) ⟨s, false⟩
      = (some (store.execAll ops (store.exec .reopen s).2).1,
        ⟨(store.execAll ops (store.exec .reopen s).2).2, false⟩) := by
  have hopen : aloneHandler.eval ((flat (store.perform .reopen)).run.translate core) ⟨s, true⟩
      = (.ok reply, ⟨(store.exec .reopen s).2, true⟩) := by
    rw [eval_core, ← h]
    rfl
  rw [session, request_bind, Handler.eval]
  change aloneHandler.eval (_ >>= _) ⟨s, true⟩ = _
  rw [Handler.eval_bind, hopen]
  change aloneHandler.eval (_ >>= _) _ = _
  rw [Handler.eval_bind, eval_core, store.eval_serve]
  rfl

private theorem meets_session {reply : ChunkStore.Reply} (h : (store.exec .reopen s).1 = .ok reply)
    (hp : callHandler.Meets P (store.serve (.reopen :: ops)) s) :
    aloneHandler.Meets (Permitted P) (session store ops) ⟨s, false⟩ := by
  have hopen : aloneHandler.eval ((flat (store.perform .reopen)).run.translate core) ⟨s, true⟩
      = (.ok reply, ⟨(store.exec .reopen s).2, true⟩) := by
    rw [eval_core, ← h]
    rfl
  rw [← List.singleton_append, ChunkStore.meets_serve_append] at hp
  obtain ⟨hreopen, hops⟩ := hp
  rw [ChunkStore.serve, Handler.meets_bind] at hreopen
  rw [session, request_bind, Handler.Meets]
  refine ⟨rfl, ?_⟩
  change aloneHandler.Meets (Permitted P) (_ >>= _) ⟨s, true⟩
  rw [Handler.meets_bind, hopen]
  refine ⟨meets_core hreopen.1, ?_⟩
  change aloneHandler.Meets (Permitted P) (_ >>= _) _
  rw [Handler.meets_bind]
  refine ⟨meets_core hops, ?_⟩
  rw [eval_core]
  exact ⟨rfl, trivial⟩

/-- **A program alone** opens its store every time, and returns what the map gives. -/
theorem sessions_alone {sc : Scope} (hindex : ¬sc.file indexName) (h : SyncedIn sc store s)
    (hops : ∀ op ∈ work.flatten, store.Within sc op)
    (hp : callHandler.Meets P (store.serve (ChunkStore.opsOf work)) s) :
    aloneHandler.eval (sessions store work) ⟨s, false⟩
        = ((visits store work s).1.map some, ⟨(visits store work s).2, false⟩) ∧
      aloneHandler.Meets (Permitted P) (sessions store work) ⟨s, false⟩ := by
  induction work generalizing s with
  | nil => exact ⟨rfl, trivial⟩
  | cons ops work ih =>
    rw [List.flatten_cons, List.forall_mem_append] at hops
    rw [ChunkStore.opsOf, List.flatMap_cons, ChunkStore.meets_serve_append] at hp
    obtain ⟨reply, hopen⟩ := h.reopens
    have hopened : SyncedIn sc store (store.exec .reopen s).2 := h.exec hindex trivial
    have hsynced := hopened.execAll hindex hops.1
    obtain ⟨hrest, hmeets⟩ := ih hsynced hops.2 hp.2
    have hsession := @eval_session store s ops reply hopen
    constructor
    · rw [sessions, Handler.eval_bind, hsession, Handler.eval_bind, hrest]
      rfl
    · rw [sessions, Handler.meets_bind, Handler.meets_bind, hsession]
      exact ⟨meets_session hopen hp.1, hmeets, trivial⟩

end Alone

/-! ## Programs together -/

/-- What a program sees: the fields are its own, its backend is related to its map, and while the
store is open its id leads to its backend. Ids in use have been given out. -/
structure Sees (R : β → Backend → T → Prop) (g : GoProcess β T) (l : GoStore β) (x : Alone) :
    Prop where
  fields : l.fields = x.state.fields
  backend : R l.backend x.state.backend g.outside
  given : ∀ id b, g.bridgeRegistry.find id = some b → id.toNat ≤ g.bridgeSeq
  bridge : x.isOpen = true → l.bridgeID ≠ 0 ∧ g.bridgeRegistry.find l.bridgeID = some l.backend

section Together

variable {impl : β → ChunkBackend T} {sc : β → Scope} {R : β → Backend → T → Prop}

theorem toNat_bridgeID {n : ℕ} (h : n + 1 < 2 ^ 64) : (UInt64.ofNat (n + 1)).toNat = n + 1 :=
  UInt64.toNat_ofNat_of_lt' h

private theorem bridgeID_fresh {g : GoProcess β T} (h : g.bridgeSeq + 1 < 2 ^ 64)
    (hgiven : ∀ id b, g.bridgeRegistry.find id = some b → id.toNat ≤ g.bridgeSeq) :
    UInt64.ofNat (g.bridgeSeq + 1) ≠ 0 ∧
      ∀ id b, g.bridgeRegistry.find id = some b → id ≠ UInt64.ofNat (g.bridgeSeq + 1) := by
  have hn := toNat_bridgeID h
  constructor
  · intro h0
    rw [h0] at hn
    exact absurd hn.symm (Nat.succ_ne_zero _)
  · rintro id b hfind rfl
    have hle := hgiven _ b hfind
    rw [hn] at hle
    exact Nat.not_succ_le_self _ hle

/-- **Programs on backends that are apart keep apart,** as long as no id is given out again. -/
theorem separates (hcross : ∀ b, Crosses (sc b))
    (h : ChunkBackend.Apart impl (fun b ↦ fun _ c ↦ c.On (sc b)) R) :
    Separates (goWorld impl) aloneHandler GoStore.backend
      (fun b ↦ Permitted fun _ c ↦ c.On (sc b) ∧ Short c)
      (Sees fun b m t ↦ R b m t ∧ Crossed m) fun g ↦ g.bridgeSeq < 2 ^ 64 where
  back e g l r g' l' hstep hlt := by
    cases e with
    | registerBridge =>
      obtain ⟨rfl, -⟩ := hstep
      exact (Nat.lt_succ_self _).trans hlt
    | unregisterBridge =>
      obtain ⟨rfl, -⟩ := hstep
      split at hlt <;> exact hlt
    | core c =>
      cases c with
      | backend c =>
        obtain ⟨t, -, rfl, -⟩ := hstep
        exact hlt
      | field a =>
        obtain ⟨-, rfl, -⟩ := hstep
        exact hlt
  answers e g l x hsees hp := by
    cases e with
    | registerBridge | unregisterBridge => exact ⟨(), _, _, rfl, rfl⟩
    | core c =>
      cases c with
      | backend c =>
        have hbridge := (hsees.bridge hp.1).2
        obtain ⟨r, t, hcall⟩ := (realises_viaCallbacks (hcross _) (h.realises l.backend)).answers c
          x.state g.outside hp.2 hsees.backend
        refine ⟨r, _, _, t, ?_, rfl, rfl⟩
        rw [hbridge]
        exact hcall
      | field a => exact ⟨_, _, _, rfl, rfl, rfl⟩
  agrees e g l x r g' l' hsees hp hlt hstep := by
    cases e with
    | registerBridge =>
      obtain ⟨rfl, rfl⟩ := hstep
      obtain ⟨hne, -⟩ := bridgeID_fresh hlt hsees.given
      refine ⟨rfl, ⟨hsees.fields, hsees.backend, fun id b hfind ↦ ?_, fun _ ↦
        ⟨hne, Table.find_set_self _ _ _⟩⟩, rfl⟩
      change (g.bridgeRegistry.set _ _).find id = some b at hfind
      rw [Table.find_set] at hfind
      split at hfind
      · rename_i hid
        rw [hid, toNat_bridgeID hlt]
      · exact (hsees.given id b hfind).trans (Nat.le_succ _)
    | unregisterBridge =>
      obtain ⟨rfl, rfl⟩ := hstep
      refine ⟨rfl, ⟨hsees.fields, ?_, fun id b hfind ↦ ?_, fun hopen ↦ by cases hopen⟩, rfl⟩
      · split <;> exact hsees.backend
      · split at hfind
        · rename_i h0
          rw [if_pos h0]
          exact hsees.given id b hfind
        · rename_i h0
          rw [if_neg h0]
          change (g.bridgeRegistry.unset _).find id = some b at hfind
          rw [Table.find_unset] at hfind
          split at hfind
          · cases hfind
          · exact hsees.given id b hfind
    | core c =>
      cases c with
      | backend c =>
        obtain ⟨t, hcall, rfl, rfl⟩ := hstep
        rw [(hsees.bridge hp.1).2] at hcall
        obtain ⟨hr, hR⟩ := (realises_viaCallbacks (hcross _) (h.realises l'.backend)).agrees c
          x.state g.outside r t hp.2 hsees.backend hcall
        exact ⟨hr, ⟨hsees.fields, hR, hsees.given, hsees.bridge⟩, rfl⟩
      | field a =>
        obtain ⟨rfl, rfl, rfl⟩ := hstep
        refine ⟨?_, ⟨?_, hsees.backend, hsees.given, hsees.bridge⟩, rfl⟩
        · rw [hsees.fields]
          rfl
        · change (a.run l.fields).2 = (a.run x.state.fields).2
          rw [hsees.fields]
  frame e g l x r g' l' hsees hp hlt hstep m y hne hother := by
    cases e with
    | registerBridge =>
      obtain ⟨rfl, rfl⟩ := hstep
      obtain ⟨-, hfresh⟩ := bridgeID_fresh hlt hsees.given
      refine ⟨hother.fields, hother.backend, fun id b hfind ↦ ?_, fun hopen ↦ ?_⟩
      · change (g.bridgeRegistry.set _ _).find id = some b at hfind
        rw [Table.find_set] at hfind
        split at hfind
        · rename_i hid
          rw [hid, toNat_bridgeID hlt]
        · exact (hsees.given id b hfind).trans (Nat.le_succ _)
      · obtain ⟨h0, hbridge⟩ := hother.bridge hopen
        exact ⟨h0, (Table.find_set_ne (hfresh _ _ hbridge)).trans hbridge⟩
    | unregisterBridge =>
      obtain ⟨rfl, rfl⟩ := hstep
      rw [if_neg (hsees.bridge hp).1]
      refine ⟨hother.fields, hother.backend, fun id b hfind ↦ ?_, fun hopen ↦ ?_⟩
      · change (g.bridgeRegistry.unset _).find id = some b at hfind
        rw [Table.find_unset] at hfind
        split at hfind
        · cases hfind
        · exact hsees.given id b hfind
      · -- the bridge taken out leads to another backend
        obtain ⟨h0, hbridge⟩ := hother.bridge hopen
        refine ⟨h0, (Table.find_unset_ne fun hid ↦ hne ?_).trans hbridge⟩
        rw [hid, (hsees.bridge hp).2] at hbridge
        exact (Option.some.inj hbridge).symm
    | core c =>
      cases c with
      | backend c =>
        obtain ⟨t, hcall, rfl, rfl⟩ := hstep
        rw [(hsees.bridge hp.1).2] at hcall
        refine ⟨hother.fields, ⟨?_, hother.backend.2⟩, hother.given, hother.bridge⟩
        cases hkey : keyOf c with
        | none =>
          cases c with
          | listKeys =>
            obtain ⟨-, rfl⟩ := hcall
            exact hother.backend.1
          | _ => cases hkey
        | some key =>
          obtain ⟨answer, hanswer, -⟩ :=
            (viaCallbacks_call (hcross _) hp.2.1 hp.2.2 (by rw [hkey]; rfl)).mp hcall
          exact h.frame l'.backend c x.state g.outside answer t hp.2.1 hsees.backend.1 hanswer _ _
            hne hother.backend.1
      | field a =>
        obtain ⟨-, rfl, rfl⟩ := hstep
        exact hother

/-- The one request that takes an id. -/
def Registers {γ : Type} : GoCall γ → Prop
  | .registerBridge => True
  | _ => False

private theorem atMost_core {α : Type} (p : Program Call α) (n : ℕ) :
    (p.translate core).AtMost Registers n := by
  induction p with
  | ret a => trivial
  | req c next ih => exact Or.inl ⟨id, ih⟩

private theorem atMost_session (store : ChunkStore) (ops : List ChunkStore.Op) :
    (session store ops).AtMost Registers 1 := by
  refine Or.inr ⟨trivial, 0, rfl, fun _ ↦ ?_⟩
  change AtMost Registers ((flat (store.perform .reopen)).run.translate core >>= _) (0 + 0)
  refine AtMost.bind (atMost_core _ 0) fun r ↦ ?_
  cases r with
  | error e => exact Or.inl ⟨id, fun _ ↦ trivial⟩
  | ok reply =>
    change AtMost Registers ((store.serve ops).translate core >>= _) (0 + 0)
    refine AtMost.bind (atMost_core _ 0) fun rs ↦ ?_
    exact Or.inl ⟨id, fun _ ↦ trivial⟩

private theorem atMost_sessions (store : ChunkStore) (work : List (List ChunkStore.Op)) :
    (sessions store work).AtMost Registers work.length := by
  induction work with
  | nil => trivial
  | cons ops work ih =>
    rw [List.length_cons, Nat.add_comm]
    exact (atMost_session store ops).bind fun r ↦ AtMost.bind (n := 0) ih fun rs ↦ trivial

/-- No more ids are given out than there are sessions. -/
private theorem bridgeSeq_le {store : ChunkStore} {work : List (β × List (List ChunkStore.Op))}
    {t : T}
    {c' : List (Party GoCall (GoStore β) _) × GoProcess β T}
    (hsteps : (goWorld impl).SharedSteps (programs store work, ⟨0, ∅, t⟩) c') :
    c'.2.bridgeSeq ≤ (work.map fun q ↦ q.2.length).sum := by
  -- the counter goes up by one with every registration, and with nothing else
  have hcost {γ : Type} (e : GoCall γ) (g : GoProcess β T) (l : GoStore β) (r : γ)
      (g' : GoProcess β T) (l' : GoStore β) (hstep : (goWorld impl).step (g, l) e r (g', l')) :
      g'.bridgeSeq = g.bridgeSeq ∨ Registers e ∧ g'.bridgeSeq = g.bridgeSeq + 1 := by
    cases e with
    | registerBridge =>
      obtain ⟨rfl, -⟩ := hstep
      exact Or.inr ⟨trivial, rfl⟩
    | unregisterBridge =>
      obtain ⟨rfl, -⟩ := hstep
      refine Or.inl ?_
      split <;> rfl
    | core c =>
      cases c with
      | backend c =>
        obtain ⟨t, -, rfl, -⟩ := hstep
        exact Or.inl rfl
      | field a =>
        obtain ⟨-, rfl, -⟩ := hstep
        exact Or.inl rfl
  have hprograms : List.Forall₂ (fun Q n ↦ Q.program.AtMost Registers n)
      (programs (β := β) store work) (work.map fun q ↦ q.2.length) := by
    rw [programs, List.forall₂_map_left_iff, List.forall₂_map_right_iff]
    exact List.forall₂_same.mpr fun q _ ↦ atMost_sessions store q.2
  exact (hsteps.spent GoProcess.bridgeSeq hcost hprograms).trans (Nat.zero_add _).le

/-- Programs whose backends are apart, of fewer than `2 ^ 64` sessions in all. -/
theorem serves_apart (crates : Crates) (hcross : ∀ b, Crosses (sc b))
    (h : ChunkBackend.Apart impl (fun b ↦ fun _ c ↦ c.On (sc b)) R)
    (work : List (β × List (List ChunkStore.Op))) (hapart : (work.map Prod.fst).Nodup)
    (hseq : (work.map fun q ↦ q.2.length).sum < 2 ^ 64)
    (hcovers : ∀ q ∈ work, (sc q.1).Covers ⟨crates, none⟩ q.2.flatten)
    (hshort : ∀ q ∈ work, callHandler.Meets (fun _ c ↦ Short c)
      (ChunkStore.serve ⟨crates, none⟩ (ChunkStore.opsOf q.2)) (.empty false))
    (t : T) (hempty : ∀ q ∈ work, R q.1 ⟨∅, false⟩ t)
    {c' : List (Party GoCall (GoStore β) _) × GoProcess β T}
    (hsteps : (goWorld impl).SharedSteps (programs ⟨crates, none⟩ work, ⟨0, ∅, t⟩) c') :
    (∃ c'', (goWorld impl).SharedSteps c' c'' ∧ ∀ Q ∈ c''.1, ∃ rs, Q.program = .ret rs) ∧
      List.Forall₂ (fun q Q ↦ ∀ rs, Q.program = .ret rs →
        rs = (visits ⟨crates, none⟩ q.2 (.empty false)).1.map some ∧
          Q.own.fields = (visits ⟨crates, none⟩ q.2 (.empty false)).2.fields ∧
          R q.1 (visits ⟨crates, none⟩ q.2 (.empty false)).2.backend c'.2.outside) work c'.1 := by
  -- the ids are fresh as long as the counter has not come around
  have hbound (c : List (Party GoCall (GoStore β) _) × GoProcess β T)
      (hc : (goWorld impl).SharedSteps (programs ⟨crates, none⟩ work, ⟨0, ∅, t⟩) c) :
      c.2.bridgeSeq < 2 ^ 64 := (bridgeSeq_le hc).trans_lt hseq
  let parties := work.map fun q ↦
    ((⟨sessions ⟨crates, none⟩ q.2, q.1, 0, .empty⟩, ⟨.empty false, false⟩) :
      Party GoCall (GoStore β) _ × Alone)
  have halone (q : β × List (List ChunkStore.Op)) (hq : q ∈ work) :=
    @sessions_alone (fun _ c ↦ c.On (sc q.1) ∧ Short c) ⟨crates, none⟩ (.empty false) q.2 (sc q.1)
      (hcovers q hq).index (syncedIn_empty (sc q.1) ⟨crates, none⟩ false) (hcovers q hq).within
      (ChunkStore.meets_and (ChunkStore.meets_opsOf (hcovers q hq)) (hshort q hq))
  -- nothing is registered, and every program alone does as it should
  have hstarted : ∀ Q ∈ parties, Started aloneHandler GoStore.backend
      (fun b ↦ Permitted fun _ c ↦ c.On (sc b) ∧ Short c) (Sees fun b m t ↦ R b m t ∧ Crossed m)
      (⟨0, ∅, t⟩ : GoProcess β T) Q := by
    intro Q hQ
    obtain ⟨q, hq, rfl⟩ := List.mem_map.mp hQ
    refine ⟨⟨rfl, ⟨hempty q hq, rfl, fun _ _ hfind ↦ ?_⟩, fun _ _ hfind ↦ ?_, fun hopen ↦ ?_⟩,
      (halone q hq).2⟩
    · cases hfind
    · cases hfind
    · cases hopen
  have hnodup : (parties.map fun Q ↦ Q.1.own.backend).Nodup := by
    rw [List.map_map]
    exact hapart
  have hprograms : programs ⟨crates, none⟩ work = parties.map Prod.fst := by
    rw [programs, List.map_map]
    rfl
  rw [hprograms] at hsteps hbound
  have hseparates := separates hcross h
  refine ⟨hseparates.completes hstarted hnodup hbound hsteps, ?_⟩
  have hall := hseparates.sharedSteps hstarted hnodup hsteps (hbound c' hsteps)
  rw [List.forall₂_map_left_iff] at hall
  refine List.Forall₂.imp ?_ ((List.forall₂_and_left _ _).mpr ⟨fun q hq ↦ (halone q hq).1, hall⟩)
  rintro q Q ⟨heval, hQ⟩ rs hret
  have hwho : Q.own.backend = q.1 := hQ.who_eq
  obtain ⟨hrs, hsees⟩ := hQ.returned hret
  rw [heval] at hrs hsees
  exact ⟨hrs, hsees.fields, hwho ▸ hsees.backend.1⟩

/-- **Every store does what it does alone on a map,** in any interleaving of programs that open
stores on backends of their own, operate on them and close them, with fewer than `2 ^ 64` sessions
in all. What a program has returned is what its sessions return on the map, and its backend then
holds what the map does. Every run can be completed: no lookup fails, and Go does not panic. -/
theorem serves_maps [DecidableEq β] (crates : Crates) (impl : β → ChunkBackend T) (sc : β → Scope)
    (R : β → Backend → T → Prop) (hcross : ∀ b, Crosses (sc b))
    (hreal : ∀ b, (impl b).Realises (fun _ c ↦ c.On (sc b)) (R b))
    (work : List (β × List (List ChunkStore.Op))) (hapart : (work.map Prod.fst).Nodup)
    (hseq : (work.map fun q ↦ q.2.length).sum < 2 ^ 64)
    (hcovers : ∀ q ∈ work, (sc q.1).Covers ⟨crates, none⟩ q.2.flatten)
    (hshort : ∀ q ∈ work, callHandler.Meets (fun _ c ↦ Short c)
      (ChunkStore.serve ⟨crates, none⟩ (ChunkStore.opsOf q.2)) (.empty false))
    (t : β → T) (hempty : ∀ q ∈ work, R q.1 ⟨∅, false⟩ (t q.1))
    (c' : List (Party GoCall (GoStore β) _) × GoProcess β (β → T))
    (hsteps : (goWorld (ChunkBackend.each impl)).SharedSteps
      (programs ⟨crates, none⟩ work, ⟨0, ∅, t⟩) c') :
    (∃ c'', (goWorld (ChunkBackend.each impl)).SharedSteps c' c'' ∧
        ∀ Q ∈ c''.1, ∃ rs, Q.program = .ret rs) ∧
      List.Forall₂ (fun q Q ↦ ∀ rs, Q.program = .ret rs →
        rs = (visits ⟨crates, none⟩ q.2 (.empty false)).1.map some ∧
          Q.own.fields = (visits ⟨crates, none⟩ q.2 (.empty false)).2.fields ∧
          R q.1 (visits ⟨crates, none⟩ q.2 (.empty false)).2.backend (c'.2.outside q.1))
      work c'.1 :=
  serves_apart crates hcross (ChunkBackend.apart_each hreal) work hapart hseq hcovers hshort t
    hempty hsteps

/-- Any files but the index, with values that are not empty. -/
def goScope : Scope := ⟨fun f ↦ nul ∉ f.toList ∧ f ≠ indexName, fun v ↦ v ≠ [], False⟩

theorem crosses_goScope : Crosses goScope := ⟨fun _ hf ↦ hf.1, fun _ hv ↦ hv⟩

/-- Two programs with files of the same name, one in two sessions. -/
def twoPrograms : List (Bool × List (List ChunkStore.Op)) :=
  [(false, [[.ingest "a" (.bytes [0x61])], [.read "a"]]),
    (true, [[.ingest "a" (.bytes [0x62]), .read "a", .delete "a"]])]

theorem records_small {sc : Scope} (hv : ∀ v, v ≠ [] → sc.value v) :
    sc.Records smallStore.crates := by
  refine ⟨fun l ↦ hv _ fun h ↦ ?_, fun r ↦ hv _ fun h ↦ ?_, fun r ↦ hv _ fun h ↦ ?_⟩
  · cases l <;> cases h
  · cases h
  · cases h

theorem within_small {sc : Scope} (hv : ∀ v, v ≠ [] → sc.value v) {fileId : String}
    (hf : sc.file fileId) {input : ChunkStore.IngestInput} {b : UInt8}
    (hchunks : (input.stream smallStore.crates).chunks = [[b]]) :
    smallStore.Within sc (.ingest fileId input) := by
  refine ⟨hf, fun chunk hchunk blob hblob ↦ hv _ ?_⟩
  rw [hchunks, List.mem_singleton] at hchunk
  obtain rfl : chunk = blob := Except.ok.inj hblob
  rw [hchunk]
  exact List.cons_ne_nil _ _

theorem covers_twoPrograms : ∀ q ∈ twoPrograms, goScope.Covers smallStore q.2.flatten := by
  have hfile : goScope.file "a" := ⟨by decide, by decide⟩
  intro q hq
  simp only [twoPrograms, List.mem_cons, List.not_mem_nil, or_false] at hq
  refine ⟨records_small fun _ hv ↦ hv, fun h ↦ h.2 rfl, fun op hop ↦ ?_⟩
  rcases hq with rfl | rfl
  · simp only [List.flatten_cons, List.flatten_nil, List.cons_append, List.nil_append,
      List.mem_cons, List.not_mem_nil, or_false] at hop
    rcases hop with rfl | rfl
    · exact within_small (fun _ hv ↦ hv) hfile (b := 0x61) (by decide +kernel)
    · trivial
  · simp only [List.flatten_cons, List.flatten_nil, List.append_nil, List.mem_cons,
      List.not_mem_nil, or_false] at hop
    rcases hop with rfl | rfl | rfl
    · exact within_small (fun _ hv ↦ hv) hfile (b := 0x62) (by decide +kernel)
    · trivial
    · trivial

theorem serves_maps_two : ∃ c', (goWorld (ChunkBackend.each fun _ : Bool ↦ .memory)).SharedSteps
    (programs smallStore twoPrograms, ⟨0, ∅, fun _ ↦ ⟨∅, false⟩⟩) c' ∧
    List.Forall₂ (fun q Q ↦ ∃ rs, Q.program = .ret rs ∧
      rs.getLast? = some (some (if q.1 then [.ok (.digests [digestHex knownSha256 [0x62]]),
        .ok (.bytes [0x62]), .ok .done] else [.ok (.bytes [0x61])]))) twoPrograms c'.1 := by
  have happly := serves_maps smallCrates (fun _ : Bool ↦ .memory) (fun _ ↦ goScope) (fun _ ↦ Eq)
    (fun _ ↦ crosses_goScope) (fun _ ↦ ChunkBackend.realises_memory _) twoPrograms (by decide)
    (by decide) covers_twoPrograms (by decide +kernel) (fun _ ↦ ⟨∅, false⟩) (fun _ _ ↦ rfl)
  obtain ⟨⟨c', hsteps, hret⟩, -⟩ := happly _ .refl
  obtain ⟨-, hall⟩ := happly c' hsteps
  have hresult : ∀ q ∈ twoPrograms,
      ((visits ⟨smallCrates, none⟩ q.2 (.empty false)).1.map some).getLast? = some (some
        (if q.1 then [.ok (.digests [digestHex knownSha256 [0x62]]), .ok (.bytes [0x62]), .ok .done]
          else [.ok (.bytes [0x61])])) := by
    decide +kernel
  refine ⟨c', hsteps, ?_⟩
  have hreturned := (List.forall₂_and_left _ _).mpr ⟨hresult, hall⟩
  refine ((List.forall₂_and_left _ _).mpr ⟨hret, hreturned.flip⟩).flip.imp ?_
  rintro q Q ⟨⟨rs, hrs⟩, hlast, hmap⟩
  refine ⟨rs, hrs, ?_⟩
  rw [(hmap rs hrs).1, hlast]

end Together

end Process

end GoBridge

end Chunkstore

import Mathlib.Logic.Relation

/-!
# Programs over requests

A program is a finite-depth tree: it returns, or it issues a request and continues with the answer.
The requests `E : Type → Type u` are a family indexed by the type of their answers, so that one
program can be run against several worlds: a fault-free one, one in which requests fail, one shared
with other programs.

## What a world is

A `Machine` is the relation between a state, a request, an answer and the state afterwards. Nothing
is said about determinism; `Handler` is the deterministic and executable case, and
`Handler.toMachine` its graph.

## Weakest preconditions with a guarantee

`Program.wp M G p Q s` says that every run of `p` from `s` in `M` performs only steps allowed by `G`
and ends in `Q`. The guarantee is what speaks about the states *between* two requests, which is
where a crash or another party observes the program; a postcondition alone cannot. Both are composed
by `wp_bind`, and the lifting to exceptions, `Program.wpx`, splits the postcondition by outcome.
-/

universe u v w

namespace Effects

/-- A program over the requests `E`: it returns, or issues a request and continues with the
answer. -/
inductive Program (E : Type → Type u) (α : Type) : Type (max 1 u)
  | ret (a : α) : Program E α
  | req {β : Type} (e : E β) (next : β → Program E α) : Program E α

namespace Program

variable {E : Type → Type u} {α β γ ε : Type}

/-- Sequencing: the second program is grafted onto every leaf of the first. -/
def bind : Program E α → (α → Program E β) → Program E β
  | .ret a, f => f a
  | .req e next, f => .req e fun r ↦ (next r).bind f

instance : Monad (Program E) where
  pure := .ret
  bind := bind

@[simp] theorem pure_eq_ret (a : α) : (pure a : Program E α) = .ret a := rfl

@[simp] theorem ret_bind (a : α) (f : α → Program E β) :
    (Program.ret a : Program E α) >>= f = f a :=
  rfl

@[simp] theorem req_bind {δ : Type} (e : E δ) (next : δ → Program E α) (f : α → Program E β) :
    Program.req e next >>= f = .req e fun r ↦ next r >>= f := rfl

theorem bind_ret (p : Program E α) : p >>= Program.ret = p := by
  induction p with
  | ret a => rfl
  | req e next ih => rw [req_bind]; exact congrArg (Program.req e) (funext ih)

theorem bind_bind (p : Program E α) (f : α → Program E β) (g : β → Program E γ) :
    p >>= f >>= g = p >>= fun a ↦ f a >>= g := by
  induction p with
  | ret a => rfl
  | req e next ih =>
    rw [req_bind, req_bind, req_bind]
    exact congrArg (Program.req e) (funext ih)

instance : LawfulMonad (Program E) :=
  .mk' (Program E) (fun p ↦ bind_ret p) (fun _ _ ↦ rfl) bind_bind

/-- The program that issues one request and returns the answer. -/
def request (e : E β) : Program E β := .req e .ret

@[simp] theorem request_bind (e : E β) (f : β → Program E α) :
    request e >>= f = .req e f := rfl

/-! ### Programs over other requests -/

variable {E' : Type → Type v}

/-- Replace every request by a program over other requests. -/
def translate (f : {δ : Type} → E δ → Program E' δ) : Program E α → Program E' α
  | .ret a => .ret a
  | .req e next => f e >>= fun r ↦ (next r).translate f

@[simp] theorem translate_ret (f : {δ : Type} → E δ → Program E' δ) (a : α) :
    (ret a : Program E α).translate f = .ret a := rfl

theorem translate_bind (f : {δ : Type} → E δ → Program E' δ) (p : Program E α)
    (g : α → Program E β) :
    (p >>= g).translate f = p.translate f >>= fun a ↦ (g a).translate f := by
  induction p with
  | ret a => rfl
  | req e next ih =>
    rw [req_bind, translate, translate, bind_assoc]
    exact congrArg _ (funext ih)

theorem translate_request (f : {δ : Type} → E δ → Program E' δ) {δ : Type} (e : E δ) :
    (request e).translate f = f e := bind_ret (f e)

/-- Translating there and back by requests that undo each other. -/
theorem translate_translate (f : {δ : Type} → E δ → Program E' δ)
    (g : {δ : Type} → E' δ → Program E δ)
    (h : ∀ {δ : Type} (e : E δ), (f e).translate g = request e) (p : Program E α) :
    (p.translate f).translate g = p := by
  induction p with
  | ret a => rfl
  | req e next ih =>
    rw [translate, translate_bind, h, request_bind]
    exact congrArg _ (funext ih)

end Program

/-! ## Worlds -/

/-- A world: which answer and which next state a request may get. -/
structure Machine (E : Type → Type u) (S : Type v) where
  /-- `step s e r s'`: in `s` the request `e` may be answered by `r`, leaving `s'`. -/
  step : {β : Type} → S → E β → β → S → Prop

/-- A deterministic, executable world. -/
structure Handler (E : Type → Type u) (S : Type v) where
  /-- The answer and the next state. -/
  handle : {β : Type} → E β → S → β × S

namespace Handler

variable {E : Type → Type u} {S : Type v} (H : Handler E S)

/-- The graph of a handler. -/
def toMachine : Machine E S where
  step s e r s' := H.handle e s = (r, s')

def eval {α : Type} : Program E α → S → α × S
  | .ret a, s => (a, s)
  | .req e next, s => eval (next (H.handle e s).1) (H.handle e s).2

variable {α β : Type}

@[simp] theorem eval_ret (a : α) (s : S) : H.eval (.ret a) s = (a, s) := rfl

theorem eval_bind (p : Program E α) (f : α → Program E β) (s : S) :
    H.eval (p >>= f) s = H.eval (f (H.eval p s).1) (H.eval p s).2 := by
  induction p generalizing s with
  | ret a => rfl
  | req e next ih => exact ih _ _

end Handler

namespace Machine

variable {E : Type → Type u} {S : Type v}

def any : Machine E S where
  step _ _ _ _ := True

/-- The guarantee that every state after a step satisfies `I`. -/
def into (I : S → Prop) : Machine E S where
  step _ _ _ s' := I s'

@[simp] theorem any_step {β : Type} (s : S) (e : E β) (r : β) (s' : S) :
    (any : Machine E S).step s e r s' := trivial

@[simp] theorem into_step {β : Type} (I : S → Prop) (s : S) (e : E β) (r : β) (s' : S) :
    (into I : Machine E S).step s e r s' ↔ I s' := Iff.rfl

/-- One step of a program in a world. -/
inductive Step (M : Machine E S) {α : Type} : Program E α × S → Program E α × S → Prop
  | req {β : Type} {e : E β} {next : β → Program E α} {s s' : S} {r : β} (h : M.step s e r s') :
      Step M (.req e next, s) (next r, s')

abbrev Steps (M : Machine E S) {α : Type} : Program E α × S → Program E α × S → Prop :=
  Relation.ReflTransGen M.Step

end Machine

theorem Handler.steps_eval {E : Type → Type u} {S : Type v} {α : Type} {H : Handler E S}
    {M : Machine E S}
    (hM : ∀ {β : Type} (e : E β) (s : S), M.step s e (H.handle e s).1 (H.handle e s).2)
    (p : Program E α) (s : S) : M.Steps (p, s) (.ret (H.eval p s).1, (H.eval p s).2) := by
  induction p generalizing s with
  | ret a => exact .refl
  | req e next ih => exact .head (.req (hM e s)) (ih _ _)

/-! ## Runs to the end -/

namespace Machine

variable {E : Type → Type u} {S : Type v} {M : Machine E S} {α β ε : Type}

/-- The world can take a program from `s` to its end. -/
def Ends (M : Machine E S) (p : Program E α) (s : S) (a : α) (s' : S) : Prop :=
  M.Steps (p, s) (.ret a, s')

theorem ends_ret (a : α) (s : S) : M.Ends (.ret a) s a s := .refl

theorem ends_req {γ : Type} {e : E γ} {next : γ → Program E α} {s s' s'' : S} {r : γ} {a : α}
    (h : M.step s e r s') (hn : M.Ends (next r) s' a s'') : M.Ends (.req e next) s a s'' :=
  .head (.req h) hn

theorem Ends.bind {p : Program E α} {f : α → Program E β} {s s' s'' : S} {a : α} {b : β}
    (h : M.Ends p s a s') (hf : M.Ends (f a) s' b s'') : M.Ends (p >>= f) s b s'' := by
  induction p generalizing s with
  | ret a' =>
    rcases Relation.ReflTransGen.cases_head h with heq | ⟨c, hs, -⟩
    · cases heq
      exact hf
    · cases hs
  | req e next ih =>
    rcases Relation.ReflTransGen.cases_head h with heq | ⟨c, hs, hrest⟩
    · cases heq
    · cases hs with
      | req hs => exact ends_req hs (ih _ hrest)

theorem Ends.bind_ok {p : ExceptT ε (Program E) α} {f : α → ExceptT ε (Program E) β} {s s' s'' : S}
    {a : α} {r : Except ε β} (h : M.Ends p.run s (.ok a) s') (hf : M.Ends (f a).run s' r s'') :
    M.Ends (p >>= f).run s r s'' := by
  rw [ExceptT.run_bind]
  exact Ends.bind h hf

theorem Ends.bind_error {p : ExceptT ε (Program E) α} {f : α → ExceptT ε (Program E) β} {s s' : S}
    {e : ε} (h : M.Ends p.run s (.error e) s') : M.Ends (p >>= f).run s (.error e) s' := by
  rw [ExceptT.run_bind]
  exact Ends.bind h (ends_ret _ _)

end Machine

/-! ## Programs that cannot tell states apart -/

namespace Program

variable {E : Type → Type u} {S : Type v} {α β : Type} {P : {δ : Type} → E δ → Prop}

/-- Every request the program can issue satisfies `P`. -/
def Uses (P : {δ : Type} → E δ → Prop) : Program E α → Prop
  | .ret _ => True
  | .req e next => P e ∧ ∀ r, (next r).Uses P

theorem Uses.bind {p : Program E α} {f : α → Program E β} (hp : p.Uses P)
    (hf : ∀ a, (f a).Uses P) : (p >>= f).Uses P := by
  induction p with
  | ret a => exact hf a
  | req e next ih => exact ⟨hp.1, fun r ↦ ih r (hp.2 r)⟩

theorem Uses.mono {P' : {δ : Type} → E δ → Prop} {p : Program E α} (hp : p.Uses P)
    (h : ∀ {δ : Type} (e : E δ), P e → P' e) : p.Uses P' := by
  induction p with
  | ret a => trivial
  | req e next ih => exact ⟨h e hp.1, fun r ↦ ih r (hp.2 r)⟩

theorem Uses.translate {E' : Type → Type v} {P' : {δ : Type} → E' δ → Prop}
    {f : {δ : Type} → E δ → Program E' δ} {p : Program E α} (hp : p.Uses P)
    (hf : ∀ {δ : Type} (e : E δ), P e → (f e).Uses P') : (p.translate f).Uses P' := by
  induction p with
  | ret a => trivial
  | req e next ih => exact (hf e hp.1).bind fun r ↦ ih r (hp.2 r)

/-- A program whose requests respect a relation returns the same from related states and leaves
related states. -/
theorem Uses.eval_congr {H : Handler E S} {R : S → S → Prop} {p : Program E α} (hp : p.Uses P)
    (hR : ∀ {δ : Type} (e : E δ) (s s' : S), P e → R s s' →
      (H.handle e s).1 = (H.handle e s').1 ∧ R (H.handle e s).2 (H.handle e s').2)
    {s s' : S} (h : R s s') :
    (H.eval p s).1 = (H.eval p s').1 ∧ R (H.eval p s).2 (H.eval p s').2 := by
  induction p generalizing s s' with
  | ret a => exact ⟨rfl, h⟩
  | req e next ih =>
    obtain ⟨hr, hs⟩ := hR e s s' hp.1 h
    rw [Handler.eval, Handler.eval, ← hr]
    exact ih _ (hp.2 _) hs

end Program

/-! ## Weakest preconditions -/

namespace Program

variable {E : Type → Type u} {S : Type v} {M M' G G' : Machine E S} {α β : Type}

/-- Every run of the program from `s` performs only steps allowed by `G` and ends in `Q`. -/
def wp (M G : Machine E S) : Program E α → (α → S → Prop) → S → Prop
  | .ret a, Q, s => Q a s
  | .req e next, Q, s => ∀ r s', M.step s e r s' → G.step s e r s' ∧ wp M G (next r) Q s'

@[simp] theorem wp_ret (a : α) (Q : α → S → Prop) (s : S) :
    wp M G (.ret a : Program E α) Q s ↔ Q a s := Iff.rfl

theorem wp_req {δ : Type} (e : E δ) (next : δ → Program E α) (Q : α → S → Prop) (s : S) :
    wp M G (.req e next) Q s ↔ ∀ r s', M.step s e r s' → G.step s e r s' ∧ wp M G (next r) Q s' :=
  Iff.rfl

theorem wp_bind (p : Program E α) (f : α → Program E β) (Q : β → S → Prop) (s : S) :
    wp M G (p >>= f) Q s ↔ wp M G p (fun a s' ↦ wp M G (f a) Q s') s := by
  induction p generalizing s with
  | ret a => rfl
  | req e next ih =>
    rw [req_bind, wp_req, wp_req]
    exact forall_congr' fun r ↦ forall_congr' fun s' ↦ imp_congr_right fun _ ↦
      and_congr_right fun _ ↦ ih r s'

/-- The consequence rule, in the postcondition and in the guarantee. -/
theorem wp_mono {p : Program E α} {Q Q' : α → S → Prop} {s : S} (h : wp M G p Q s)
    (hG : ∀ {δ : Type} (s : S) (e : E δ) (r : δ) (s' : S), G.step s e r s' → G'.step s e r s')
    (hQ : ∀ a s', Q a s' → Q' a s') : wp M G' p Q' s := by
  induction p generalizing s with
  | ret a => exact hQ _ _ h
  | req e next ih => exact fun r s' hs ↦ ⟨hG _ _ _ _ (h r s' hs).1, ih r (h r s' hs).2⟩

theorem wp_post {p : Program E α} {Q Q' : α → S → Prop} {s : S} (h : wp M G p Q s)
    (hQ : ∀ a s', Q a s' → Q' a s') : wp M G p Q' s :=
  wp_mono h (fun _ _ _ _ hg ↦ hg) hQ

theorem wp_true (p : Program E α) (s : S) : wp M .any p (fun _ _ ↦ True) s := by
  induction p generalizing s with
  | ret a => trivial
  | req e next ih => exact fun r s' _ ↦ ⟨trivial, ih r s'⟩

theorem wp_and {p : Program E α} {Q Q' : α → S → Prop} {s : S} (h : wp M G p Q s)
    (h' : wp M G' p Q' s) : wp M G p (fun a s' ↦ Q a s' ∧ Q' a s') s := by
  induction p generalizing s with
  | ret a => exact ⟨h, h'⟩
  | req e next ih => exact fun r s' hs ↦ ⟨(h r s' hs).1, ih r (h r s' hs).2 (h' r s' hs).2⟩

/-- What every request of a program keeps, the program keeps. -/
theorem Uses.wp {P : {δ : Type} → E δ → Prop} {p : Program E α} (hp : p.Uses P) {I : S → Prop}
    (hI : ∀ {δ : Type} (e : E δ) (s : S) (r : δ) (s' : S), P e → I s → M.step s e r s' →
      G.step s e r s' ∧ I s') {s : S} (h : I s) : Program.wp M G p (fun _ ↦ I) s := by
  induction p generalizing s with
  | ret a => exact h
  | req e next ih =>
    intro r s' hs
    obtain ⟨hg, h'⟩ := hI e s r s' hp.1 h hs
    exact ⟨hg, ih r (hp.2 r) h'⟩

theorem Uses.guarantee {P : {δ : Type} → E δ → Prop} {p : Program E α} (hp : p.Uses P)
    (hG : ∀ {δ : Type} (e : E δ) (s : S) (r : δ) (s' : S), P e → G'.step s e r s')
    {Q : α → S → Prop} {s : S} (h : Program.wp M G p Q s) : Program.wp M G' p Q s := by
  induction p generalizing s with
  | ret a => exact h
  | req e next ih => exact fun r s' hs ↦ ⟨hG e s r s' hp.1, ih r (hp.2 r) (h r s' hs).2⟩

/-- **Adequacy, one step.** A step of the program is a step of the world, allowed by the
guarantee, and what remains still meets the postcondition. -/
theorem wp_step {p p' : Program E α} {Q : α → S → Prop} {s s' : S} (h : wp M G p Q s)
    (hs : M.Step (p, s) (p', s')) : wp M G p' Q s' := by
  cases hs with
  | req hs => exact (h _ _ hs).2

/-- **Adequacy.** Whatever a run reaches still meets the postcondition. -/
theorem wp_steps {c c' : Program E α × S} {Q : α → S → Prop} (h : wp M G c.1 Q c.2)
    (hs : M.Steps c c') : wp M G c'.1 Q c'.2 := by
  induction hs with
  | refl => exact h
  | tail _ hs ih => exact wp_step ih hs

/-- A state invariant that holds at the start and that every step guarantees holds at every point
of a run. -/
theorem wp_steps_into {I : S → Prop} {c c' : Program E α × S} {Q : α → S → Prop}
    (hI : I c.2) (h : wp M (.into I) c.1 Q c.2) (hs : M.Steps c c') : I c'.2 := by
  induction hs with
  | refl => exact hI
  | tail hs' hs ih =>
    have hw := wp_steps h hs'
    cases hs with
    | req hs => exact (hw _ _ hs).1

/-- In a deterministic world the weakest precondition speaks about the one run. -/
theorem wp_eval {H : Handler E S} {p : Program E α} {Q : α → S → Prop} {s : S}
    (h : wp H.toMachine G p Q s) : Q (H.eval p s).1 (H.eval p s).2 := by
  induction p generalizing s with
  | ret a => exact h
  | req e next ih => exact ih _ (h _ _ rfl).2

theorem wp_of_eval {H : Handler E S} {p : Program E α} {Q : α → S → Prop} {s : S}
    (h : Q (H.eval p s).1 (H.eval p s).2) : wp H.toMachine .any p Q s := by
  induction p generalizing s with
  | ret a => exact h
  | req e next ih =>
    intro r s' hs
    rw [Handler.eval, show H.handle e s = (r, s') from hs] at h
    exact ⟨trivial, ih _ h⟩

/-! ### Programs that may throw -/

variable {ε : Type}

/-- The postcondition for an outcome: `Q` for a value, `R` for an error. -/
def outcome (Q : α → S → Prop) (R : ε → S → Prop) : Except ε α → S → Prop
  | .ok a => Q a
  | .error e => R e

@[simp] theorem outcome_ok (Q : α → S → Prop) (R : ε → S → Prop) (a : α) :
    outcome Q R (.ok a) = Q a := rfl

@[simp] theorem outcome_error (Q : α → S → Prop) (R : ε → S → Prop) (e : ε) :
    outcome Q R (.error e) = R e := rfl

/-- The weakest precondition of a program that may throw: `Q` when it returns, `R` when it
throws. -/
def wpx (M G : Machine E S) (p : ExceptT ε (Program E) α) (Q : α → S → Prop) (R : ε → S → Prop)
    (s : S) : Prop :=
  wp M G p.run (outcome Q R) s

variable {Q Q' : α → S → Prop} {R R' : ε → S → Prop} {s : S}

@[simp] theorem wpx_pure (a : α) :
    wpx M G (pure a : ExceptT ε (Program E) α) Q R s ↔ Q a s := Iff.rfl

@[simp] theorem wpx_throw (e : ε) :
    wpx M G (throw e : ExceptT ε (Program E) α) Q R s ↔ R e s := Iff.rfl

theorem wpx_bind (p : ExceptT ε (Program E) α) (f : α → ExceptT ε (Program E) β)
    {Q : β → S → Prop} :
    wpx M G (p >>= f) Q R s ↔ wpx M G p (fun a s' ↦ wpx M G (f a) Q R s') R s := by
  unfold wpx
  rw [ExceptT.run_bind, wp_bind]
  exact iff_of_eq (congrArg (wp M G p.run · s) (funext fun r ↦ by cases r <;> rfl))

theorem wpx_mono {p : ExceptT ε (Program E) α} (h : wpx M G p Q R s)
    (hQ : ∀ a s', Q a s' → Q' a s') (hR : ∀ e s', R e s' → R' e s') : wpx M G p Q' R' s := by
  refine wp_post h fun r s' hr ↦ ?_
  cases r with
  | ok a => exact hQ a s' hr
  | error e => exact hR e s' hr

/-- The loop rule: `J` speaks about what is left of the list. -/
theorem wpx_foldlM {σ : Type} {f : σ → α → ExceptT ε (Program E) σ} {J : List α → σ → S → Prop}
    (hstep : ∀ a l st s, J (a :: l) st s → wpx M G (f st a) (J l) R s) (l : List α) (st : σ) (s : S)
    (h : J l st s) : wpx M G (l.foldlM f st) (J []) R s := by
  induction l generalizing st s with
  | nil => exact h
  | cons a l ih =>
    rw [List.foldlM_cons]
    exact (wpx_bind _ _).mpr (wpx_mono (hstep a l st s h) (fun st' s' h' ↦ ih st' s' h')
      fun _ _ h ↦ h)

end Program

end Effects

import Chunkstore.Effects.Threads

/-!
# Implementing a handler

A handler says what requests are for. A machine over other states *implements* it for the requests
that meet a condition, up to a relation, if it answers every such request as the handler does and
stays related. The condition may speak of the abstract state, so it is enough that the one run of
the handler meets it.

## Main results

* `Implements.steps`: every run of the machine is one of the handler, with related states.
* `Implements.ends`: a program that is run comes to its end, with what the handler returns.
-/

universe u v w

namespace Effects

variable {E : Type → Type u} {S : Type v} {T : Type w} {α : Type}

/-- The guarantee that every request meets a condition, in the state it is made in. -/
def Machine.asking (P : {β : Type} → S → E β → Prop) : Machine E S where
  step s e _ _ := P s e

theorem Program.meets_of_wp {H : Handler E S} {P : {β : Type} → S → E β → Prop} {p : Program E α}
    {Q : α → S → Prop} {s : S} (h : Program.wp H.toMachine (.asking P) p Q s) : H.Meets P p s := by
  induction p generalizing s with
  | ret a => trivial
  | req e next ih =>
    obtain ⟨hp, hnext⟩ := h _ _ rfl
    exact ⟨hp, ih _ hnext⟩

/-- `M` does on its states what `H` does on those related to them, for the requests that meet
`P`. -/
structure Implements (M : Machine E T) (H : Handler E S) (P : {β : Type} → S → E β → Prop)
    (R : S → T → Prop) : Prop where
  answers : ∀ {β : Type} (e : E β) (s : S) (t : T), P s e → R s t → ∃ r t', M.step t e r t'
  agrees : ∀ {β : Type} (e : E β) (s : S) (t : T) (r : β) (t' : T), P s e → R s t →
    M.step t e r t' → r = (H.handle e s).1 ∧ R (H.handle e s).2 t'

namespace Implements

variable {M : Machine E T} {H : Handler E S} {P : {β : Type} → S → E β → Prop} {R : S → T → Prop}
  {p p' : Program E α} {s : S} {t t' : T}

/-- **Every run is one of the handler.** What is left of the program still meets the condition. -/
theorem steps (h : Implements M H P R) (hp : H.Meets P p s) (hR : R s t)
    (hsteps : M.Steps (p, t) (p', t')) :
    ∃ s', H.toMachine.Steps (p, s) (p', s') ∧ R s' t' ∧ H.Meets P p' s' := by
  suffices hall : ∀ c, M.Steps (p, t) c →
      ∃ s', H.toMachine.Steps (p, s) (c.1, s') ∧ R s' c.2 ∧ H.Meets P c.1 s' from hall _ hsteps
  intro c hc
  induction hc with
  | refl => exact ⟨s, .refl, hR, hp⟩
  | tail _ hs ih =>
    obtain ⟨s', hsteps', hR', hp'⟩ := ih
    rcases hs with ⟨hstep⟩
    obtain ⟨rfl, hR''⟩ := h.agrees _ _ _ _ _ hp'.1 hR' hstep
    exact ⟨_, hsteps'.tail (.req rfl), hR'', hp'.2⟩

theorem eval (h : Implements M H P R) (hp : H.Meets P p s) (hR : R s t) {a : α}
    (hends : M.Ends p t a t') : a = (H.eval p s).1 ∧ R (H.eval p s).2 t' := by
  obtain ⟨s', hsteps, hR', -⟩ := h.steps hp hR hends
  have heval : H.eval p s = (a, s') := by
    have hw : Program.wp H.toMachine .any p (fun a s' ↦ H.eval p s = (a, s')) s :=
      Program.wp_of_eval rfl
    exact Program.wp_steps hw hsteps
  rw [heval]
  exact ⟨rfl, hR'⟩

/-- **A program that is run comes to its end.** -/
theorem ends (h : Implements M H P R) (hp : H.Meets P p s) (hR : R s t) :
    ∃ t', M.Ends p t (H.eval p s).1 t' ∧ R (H.eval p s).2 t' := by
  induction p generalizing s t with
  | ret a => exact ⟨t, Machine.ends_ret _ _, hR⟩
  | req e next ih =>
    obtain ⟨r, t₁, hstep⟩ := h.answers e s t hp.1 hR
    obtain ⟨rfl, hR₁⟩ := h.agrees e s t r t₁ hp.1 hR hstep
    obtain ⟨t', hends, hR'⟩ := ih _ hp.2 hR₁
    exact ⟨t', Machine.ends_req hstep hends, hR'⟩

end Implements

end Effects

import Chunkstore.Effects.Program

/-!
# Two programs side by side

In a deterministic world two programs can be compared run for run. `rwp H p q Q s t` says that `p`
from `s` and `q` from `t` return the same, and that the states they leave are related by `Q`, which
may speak about the value returned. Programs built in the same way from comparable parts are
comparable; `Uses.rwp` compares a program with itself.
-/

universe u v

namespace Effects

namespace Program

variable {E : Type → Type u} {S : Type v} {H : Handler E S} {α β ε σ : Type}

/-- The two programs return the same and leave related states. -/
def rwp (H : Handler E S) (p q : Program E α) (Q : α → S → S → Prop) (s t : S) : Prop :=
  (H.eval p s).1 = (H.eval q t).1 ∧ Q (H.eval q t).1 (H.eval p s).2 (H.eval q t).2

section Rules

variable {p q : Program E α} {Q Q' : α → S → S → Prop} {s t : S}

theorem rwp_ret {a : α} (h : Q a s t) : rwp H (.ret a) (.ret a) Q s t := ⟨rfl, h⟩

theorem rwp_bind {f g : α → Program E β} {Q : β → S → S → Prop}
    (h : rwp H p q (fun a s' t' ↦ rwp H (f a) (g a) Q s' t') s t) :
    rwp H (p >>= f) (q >>= g) Q s t := by
  obtain ⟨hr, hrest⟩ := h
  rw [rwp, Handler.eval_bind, Handler.eval_bind, hr]
  exact hrest

theorem rwp_mono (h : rwp H p q Q s t) (hQ : ∀ a s' t', Q a s' t' → Q' a s' t') :
    rwp H p q Q' s t := ⟨h.1, hQ _ _ _ h.2⟩

theorem rwp_and_eval {P : α → S → Prop} (h : rwp H p q Q s t)
    (hP : P (H.eval q t).1 (H.eval q t).2) :
    rwp H p q (fun a s' t' ↦ Q a s' t' ∧ P a t') s t := ⟨h.1, h.2, hP⟩

/-- A program whose requests respect a relation is comparable with itself. -/
theorem Uses.rwp {P : {δ : Type} → E δ → Prop} (hp : p.Uses P) {R : S → S → Prop}
    (hR : ∀ {δ : Type} (e : E δ) (s s' : S), P e → R s s' →
      (H.handle e s).1 = (H.handle e s').1 ∧ R (H.handle e s).2 (H.handle e s').2)
    (h : R s t) : Program.rwp H p p (fun _ ↦ R) s t := hp.eval_congr hR h

end Rules

/-! ## Programs that may throw -/

/-- The postcondition for two equal outcomes. -/
def outcomes (Q : α → S → S → Prop) (T : ε → S → S → Prop) : Except ε α → S → S → Prop
  | .ok a => Q a
  | .error e => T e

/-- The two programs return the same, or throw the same, and leave related states. -/
def rwpx (H : Handler E S) (p q : ExceptT ε (Program E) α) (Q : α → S → S → Prop)
    (T : ε → S → S → Prop) (s t : S) : Prop :=
  rwp H p.run q.run (outcomes Q T) s t

section Rules

variable {p q : ExceptT ε (Program E) α} {Q Q' : α → S → S → Prop} {T T' : ε → S → S → Prop}
  {s t : S}

theorem rwpx_pure {a : α} (h : Q a s t) :
    rwpx H (pure a : ExceptT ε (Program E) α) (pure a) Q T s t := ⟨rfl, h⟩

theorem rwpx_throw {e : ε} (h : T e s t) :
    rwpx H (throw e : ExceptT ε (Program E) α) (throw e) Q T s t := ⟨rfl, h⟩

theorem rwpx_bind {f g : α → ExceptT ε (Program E) β} {Q : β → S → S → Prop}
    (h : rwpx H p q (fun a s' t' ↦ rwpx H (f a) (g a) Q T s' t') T s t) :
    rwpx H (p >>= f) (q >>= g) Q T s t := by
  rw [rwpx, ExceptT.run_bind, ExceptT.run_bind]
  refine rwp_bind (rwp_mono h fun r s' t' hr ↦ ?_)
  cases r with
  | ok a => exact hr
  | error e => exact rwp_ret hr

theorem rwpx_mono (h : rwpx H p q Q T s t) (hQ : ∀ a s' t', Q a s' t' → Q' a s' t')
    (hT : ∀ e s' t', T e s' t' → T' e s' t') : rwpx H p q Q' T' s t := by
  refine rwp_mono h fun r s' t' hr ↦ ?_
  cases r with
  | ok a => exact hQ a s' t' hr
  | error e => exact hT e s' t' hr

theorem rwpx_map {f : α → β} {Q : β → S → S → Prop}
    (h : rwpx H p q (fun a ↦ Q (f a)) T s t) : rwpx H (f <$> p) (f <$> q) Q T s t := by
  rw [map_eq_pure_bind, map_eq_pure_bind]
  exact rwpx_bind (rwpx_mono h (fun _ _ _ hq ↦ rwpx_pure hq) fun _ _ _ ht ↦ ht)

/-- The loop rule: `J` speaks about what is left of the list. -/
theorem rwpx_foldlM {f g : σ → α → ExceptT ε (Program E) σ} {J : List α → σ → S → S → Prop}
    (hstep : ∀ a l st s t, J (a :: l) st s t → rwpx H (f st a) (g st a) (J l) T s t)
    (l : List α) (st : σ) (h : J l st s t) :
    rwpx H (l.foldlM f st) (l.foldlM g st) (J []) T s t := by
  induction l generalizing st s t with
  | nil => exact rwpx_pure h
  | cons a l ih =>
    rw [List.foldlM_cons, List.foldlM_cons]
    exact rwpx_bind (rwpx_mono (hstep a l st s t h) (fun st' _ _ h' ↦ ih st' h') fun _ _ _ h ↦ h)

end Rules

end Program

end Effects

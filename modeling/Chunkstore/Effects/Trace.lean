import Mathlib.Data.Nat.Notation
import Chunkstore.Effects.Program

/-!
# The events of a run

What an outside observer keeps of a run is a list of events, at most one for each request, and a
view of the state that moves by events only. A run that is cut off is a first part of that list.

The link to weakest preconditions is `Program.holds_at_event`: what the guarantee says about every
request holds at the last event of every first part of the list, wherever the run is cut.

What an observer counts is a `Handler.tally`: a weight for each request, summed over the run.
-/

universe u v w

namespace Effects

namespace Handler

variable {E : Type → Type u} {S : Type v} {W : Type w}

/-- The events of the run of a program, in order. -/
def events (H : Handler E S) (obs : {β : Type} → E β → Option W) {α : Type} :
    Program E α → S → List W
  | .ret _, _ => []
  | .req e next, s =>
    (obs e).toList ++ events H obs (next (H.handle e s).1) (H.handle e s).2

/-- The weights of the requests of a run, summed. -/
def tally (H : Handler E S) (weigh : {β : Type} → E β → S → ℕ) {α : Type} : Program E α → S → ℕ
  | .ret _, _ => 0
  | .req e next, s => weigh e s + tally H weigh (next (H.handle e s).1) (H.handle e s).2

variable {H : Handler E S} {weigh : {β : Type} → E β → S → ℕ} {α β : Type}

theorem events_bind {obs : {β : Type} → E β → Option W} (p : Program E α) (f : α → Program E β)
    (s : S) : H.events obs (p >>= f) s
      = H.events obs p s ++ H.events obs (f (H.eval p s).1) (H.eval p s).2 := by
  induction p generalizing s with
  | ret a => rfl
  | req e next ih =>
    rw [Program.req_bind, events, events, eval, ih, List.append_assoc]

theorem tally_bind (p : Program E α) (f : α → Program E β) (s : S) :
    H.tally weigh (p >>= f) s
      = H.tally weigh p s + H.tally weigh (f (H.eval p s).1) (H.eval p s).2 := by
  induction p generalizing s with
  | ret a => exact (Nat.zero_add _).symm
  | req e next ih =>
    rw [Program.req_bind, tally, tally, eval, ih, Nat.add_assoc]

theorem tally_eq_zero {P : {δ : Type} → E δ → Prop} {p : Program E α} (hp : p.Uses P)
    (hP : ∀ {δ : Type} (e : E δ) (s : S), P e → weigh e s = 0) (s : S) :
    H.tally weigh p s = 0 := by
  induction p generalizing s with
  | ret a => rfl
  | req e next ih => rw [tally, hP e s hp.1, ih _ (hp.2 _)]

end Handler

namespace Program

variable {E : Type → Type u} {S : Type v} {V W : Type w} {α : Type} {H : Handler E S}
  {obs : {β : Type} → E β → Option W} {view : S → V} {app : V → W → V}

/-- A view that moves by events only is, after the run, what the events made of it. -/
theorem view_eval (hview : ∀ {β : Type} (e : E β) (s : S),
      view (H.handle e s).2 = (obs e).toList.foldl app (view s)) (p : Program E α) (s : S) :
    view (H.eval p s).2 = (H.events obs p s).foldl app (view s) := by
  induction p generalizing s with
  | ret a => rfl
  | req e next ih => rw [Handler.eval, Handler.events, List.foldl_append, ih, hview]

/-- **Every cut.** What the guarantee says about a request holds at the last event before the
cut. -/
theorem holds_at_event {P : V → W → Prop} {G : Machine E S} {Q : α → S → Prop}
    (hview : ∀ {β : Type} (e : E β) (s : S),
      view (H.handle e s).2 = (obs e).toList.foldl app (view s))
    (hG : ∀ {β : Type} (s : S) (e : E β) (r : β) (s' : S) (w : W), G.step s e r s' →
      obs e = some w → P (view s) w)
    {p : Program E α} {s : S} (h : wp H.toMachine G p Q s) {ws : List W} {w : W}
    (hw : ws ++ [w] <+: H.events obs p s) : P (ws.foldl app (view s)) w := by
  induction p generalizing s ws with
  | ret a =>
    rw [Handler.events, List.prefix_nil] at hw
    exact absurd hw (List.append_ne_nil_of_right_ne_nil _ (List.cons_ne_nil w []))
  | req e next ih =>
    obtain ⟨hg, hn⟩ := h _ _ rfl
    rw [Handler.events] at hw
    cases ho : obs e with
    | none =>
      rw [ho, Option.toList_none, List.nil_append] at hw
      have hv := hview e s
      rw [ho, Option.toList_none, List.foldl_nil] at hv
      rw [← hv]
      exact ih _ hn hw
    | some w₀ =>
      rw [ho, Option.toList_some, List.singleton_append] at hw
      -- either the cut is right after this request, or it falls into the rest of the run
      cases ws with
      | nil =>
        rw [List.nil_append, List.cons_prefix_cons] at hw
        rw [hw.1]
        exact hG _ _ _ _ _ hg ho
      | cons w₁ ws =>
        rw [List.cons_append, List.cons_prefix_cons] at hw
        obtain ⟨rfl, hw⟩ := hw
        have hv := hview e s
        rw [ho, Option.toList_some, List.foldl_cons, List.foldl_nil] at hv
        rw [List.foldl_cons, ← hv]
        exact ih _ hn hw

end Program

end Effects

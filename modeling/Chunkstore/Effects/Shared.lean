import Chunkstore.Effects.Threads

/-!
# Processes with state of their own

The programs of a pool share the whole state. Processes share a part of it only: a step of one is a
step on what is shared and on what is its own, and nobody else sees the latter.

## One process among others

What the others do reaches a process through the shared part alone. So its run is one of the world
in which the shared part is, before each request, any of the states the system passes through
(`Machine.among`, `Machine.SharedSteps.among`), and a statement about that world is one about every
interleaving.

A property of the shared part that every request keeps, each process whatever it holds for itself,
is kept by the system (`Machine.SharedSteps.invariant`).

A property that each process keeps as long as the others do is kept by all of them together
(`Machine.SharedSteps.kept`).

## Silent company

Processes that leave the shared part as it is do not disturb the one that works on it: whatever the
interleaving, it is where it would be alone (`Machine.SharedSteps.alone`). What the silent ones need
for that may be a property of the states in which the working one can be.
-/

universe u v w

namespace Effects

/-- A process: a program, and the part of the state that no other process sees. -/
structure Party (E : Type → Type u) (L : Type w) (α : Type) where
  program : Program E α
  own : L

namespace Machine

variable {E : Type → Type u} {S : Type v} {L : Type w} {α : Type} {M : Machine E (S × L)}
  {V V' : S → Prop} {c c' d : List (Party E L α) × S}

/-- A step of one process. -/
inductive SharedStep (M : Machine E (S × L)) :
    List (Party E L α) × S → List (Party E L α) × S → Prop
  | of {l₁ l₂ : List (Party E L α)} {p p' : Program E α} {own own' : L} {s s' : S}
      (h : M.Step (p, (s, own)) (p', (s', own'))) :
      SharedStep M (l₁ ++ ⟨p, own⟩ :: l₂, s) (l₁ ++ ⟨p', own'⟩ :: l₂, s')

/-- Any number of steps of any processes. -/
abbrev SharedSteps (M : Machine E (S × L)) :
    List (Party E L α) × S → List (Party E L α) × S → Prop :=
  Relation.ReflTransGen M.SharedStep

/-! ## One process among others -/

/-- The world of a process when the shared part is, before each request, any state of `V`. -/
def among (M : Machine E (S × L)) (V : S → Prop) : Machine E L where
  step l e r l' := ∃ s s', V s ∧ M.step (s, l) e r (s', l')

theorem among_mono (hV : ∀ s, V s → V' s) {x y : Program E α × L} (h : (M.among V).Steps x y) :
    (M.among V').Steps x y := by
  refine Relation.ReflTransGen.mono (fun x y hxy ↦ ?_) _ _ h
  rcases hxy with ⟨s, s', hs, hstep⟩
  exact .req ⟨s, s', hV s hs, hstep⟩

/-- The shared states of a run. -/
def Visits (M : Machine E (S × L)) (c c' : List (Party E L α) × S) (s : S) : Prop :=
  ∃ d, M.SharedSteps c d ∧ M.SharedSteps d c' ∧ d.2 = s

theorem Visits.trans {s : S} (h : M.Visits c d s) (hd : M.SharedSteps d c') : M.Visits c c' s := by
  obtain ⟨e, hce, hed, rfl⟩ := h
  exact ⟨e, hce, hed.trans hd, rfl⟩

/-- **Every process runs among the states the system passes through.** -/
theorem SharedSteps.among (h : M.SharedSteps c c') :
    List.Forall₂ (fun P P' : Party E L α ↦
      (M.among (M.Visits c c')).Steps (P.program, P.own) (P'.program, P'.own)) c.1 c'.1 := by
  induction h with
  | refl => exact List.forall₂_same.mpr fun _ _ ↦ .refl
  | @tail d e hcd hde ih =>
    have hold := ih.imp fun _ _ hsteps ↦
      among_mono (fun _ hs ↦ hs.trans (.single hde)) hsteps
    rcases hde with ⟨⟨hstep⟩⟩
    rename_i l₁ l₂ own own' s s' β e next r
    -- the steps so far, and one more of the process whose turn it is
    obtain ⟨k₁, k', h₁, h', hk⟩ := Program.forall₂_append_left hold.flip
    obtain ⟨P, k₂, hP, h₂, rfl⟩ := List.forall₂_cons_left_iff.mp h'
    rw [hk]
    refine List.rel_append h₁.flip (List.Forall₂.cons (hP.tail (.req ⟨s, s', ?_, hstep⟩)) h₂.flip)
    exact ⟨_, hcd, .single (.of (.req hstep)), rfl⟩

/-- What the requests of all processes keep, the system keeps. That a process makes no other
requests is said of it in a world that answers anything. -/
theorem SharedSteps.invariant {T : Type v} {t : T} {P : {β : Type} → E β → Prop} {I : S → Prop}
    (hI : ∀ {β : Type} (e : E β) (s : S) (l : L) (r : β) (s' : S) (l' : L), P e → I s →
      M.step (s, l) e r (s', l') → I s')
    (h : M.SharedSteps c c')
    (hc : ∀ Q ∈ c.1, Program.wp (.any : Machine E T) ⟨fun _ e _ _ ↦ P e⟩ Q.program
      (fun _ _ ↦ True) t)
    (hi : I c.2) :
    I c'.2 ∧ ∀ Q ∈ c'.1, Program.wp (.any : Machine E T) ⟨fun _ e _ _ ↦ P e⟩ Q.program
      (fun _ _ ↦ True) t := by
  induction h with
  | refl => exact ⟨hi, hc⟩
  | tail hbefore hs ih =>
    obtain ⟨hi', hc'⟩ := ih
    rcases hs with ⟨⟨hstep⟩⟩
    rename_i l₁ l₂ own own' s s' β e next r
    obtain ⟨hp, hnext⟩ := hc' _ (List.mem_append_right _ List.mem_cons_self) r t trivial
    refine ⟨hI e s own r s' own' hp hi' hstep, fun Q hQ ↦ ?_⟩
    rcases List.mem_append.mp hQ with hQ | hQ
    · exact hc' _ (List.mem_append_left _ hQ)
    · rcases List.mem_cons.mp hQ with rfl | hQ
      · exact hnext
      · exact hc' _ (List.mem_append_right _ (List.mem_cons_of_mem _ hQ))

/-- The guarantee that a request keeps a property of the shared part. -/
def keeping (M : Machine E (S × L)) (V : S → Prop) : Machine E L where
  step l e _ l' := ∀ s r s', V s → M.step (s, l) e r (s', l') → V s'

/-- **A property that each process keeps, relying on the others to keep it,** is kept by the
system. -/
theorem SharedSteps.kept (h : M.SharedSteps c c')
    (hc : ∀ Q ∈ c.1, Program.wp (M.among V) (M.keeping V) Q.program (fun _ _ ↦ True) Q.own)
    (hV : V c.2) :
    V c'.2 ∧ ∀ Q ∈ c'.1,
      Program.wp (M.among V) (M.keeping V) Q.program (fun _ _ ↦ True) Q.own := by
  induction h with
  | refl => exact ⟨hV, hc⟩
  | tail hbefore hs ih =>
    obtain ⟨hV', hc'⟩ := ih
    rcases hs with ⟨⟨hstep⟩⟩
    rename_i l₁ l₂ own own' s s' β e next r
    -- the process whose turn it is relies on what the others have kept so far
    obtain ⟨hkeeps, hnext⟩ := hc' _ (List.mem_append_right _ List.mem_cons_self) r own'
      ⟨s, s', hV', hstep⟩
    refine ⟨hkeeps s r s' hV' hstep, fun Q hQ ↦ ?_⟩
    rcases List.mem_append.mp hQ with hQ | hQ
    · exact hc' _ (List.mem_append_left _ hQ)
    · rcases List.mem_cons.mp hQ with rfl | hQ
      · exact hnext
      · exact hc' _ (List.mem_append_right _ (List.mem_cons_of_mem _ hQ))

theorem SharedSteps.among_get (h : M.SharedSteps c c') {i : ℕ} {P P' : Party E L α}
    (hi : c.1[i]? = some P) (hi' : c'.1[i]? = some P') :
    (M.among (M.Visits c c')).Steps (P.program, P.own) (P'.program, P'.own) := by
  obtain ⟨hlt, rfl⟩ := List.getElem?_eq_some_iff.mp hi
  obtain ⟨hlt', rfl⟩ := List.getElem?_eq_some_iff.mp hi'
  exact h.among.get hlt hlt'

/-! ## Taking turns -/

end Machine

namespace Handler

variable {E : Type → Type u} {S : Type v} {L : Type w} {α : Type}

/-- The next request of the `i`-th process. -/
def turn (H : Handler E (S × L)) (c : List (Party E L α) × S) (i : ℕ) :
    List (Party E L α) × S :=
  match c.1[i]? with
  | some ⟨.req e next, own⟩ =>
    let r := H.handle e (c.2, own)
    (c.1.set i ⟨next r.1, r.2.2⟩, r.2.1)
  | _ => c

/-- The run of processes that take turns as a list says. -/
def turns (H : Handler E (S × L)) (is : List ℕ) (c : List (Party E L α) × S) :
    List (Party E L α) × S := is.foldl H.turn c

/-- In a world that allows what the handler does, processes may take turns as they like. -/
theorem sharedSteps_turns {H : Handler E (S × L)} {M : Machine E (S × L)}
    (hM : ∀ {β : Type} (e : E β) (x : S × L), M.step x e (H.handle e x).1 (H.handle e x).2)
    (is : List ℕ) (c : List (Party E L α) × S) : M.SharedSteps c (H.turns is c) := by
  induction is generalizing c with
  | nil => exact .refl
  | cons i is ih =>
    rw [turns, List.foldl_cons]
    refine .trans ?_ (ih _)
    obtain ⟨l, s⟩ := c
    rw [turn]
    split
    · rename_i β e next own hi
      obtain ⟨hlt, hget⟩ := List.getElem?_eq_some_iff.mp hi
      have hsplit : l = l.take i ++ ⟨.req e next, own⟩ :: l.drop (i + 1) := by
        rw [← hget, List.getElem_cons_drop, List.take_append_drop]
      dsimp only
      rw [List.set_eq_take_append_cons_drop, if_pos hlt]
      nth_rewrite 1 [hsplit]
      exact .single (.of (.req (hM e (s, own))))
    · exact .refl

end Handler

namespace Machine

variable {E : Type → Type u} {S : Type v} {L : Type w} {α : Type} {M : Machine E (S × L)}
  {c' : List (Party E L α) × S}

/-! ## Silent company -/

/-- The guarantee that a request leaves the shared part as it is. -/
def silent (M : Machine E (S × L)) : Machine E L where
  step _ e _ _ := ∀ s l r s' l', M.step (s, l) e r (s', l') → s' = s

/-- **Silent processes do not disturb.** The first process works, and the others are silent as long
as the shared part is in a state in which it can be when the first works alone. Then it always is,
and the first process is where it would be alone. -/
theorem SharedSteps.alone {J : S → Prop} {P : Party E L α} {others : List (Party E L α)} {s : S}
    (hJ : ∀ x, M.Steps (P.program, (s, P.own)) x → J x.2.1)
    (hsilent : ∀ Q ∈ others, Program.wp (M.among J) M.silent Q.program (fun _ _ ↦ True) Q.own)
    (h : M.SharedSteps (P :: others, s) c') :
    ∃ P' others', c'.1 = P' :: others' ∧
      M.Steps (P.program, (s, P.own)) (P'.program, (c'.2, P'.own)) ∧
        ∀ Q ∈ others', Program.wp (M.among J) M.silent Q.program (fun _ _ ↦ True) Q.own := by
  induction h with
  | refl => exact ⟨P, others, rfl, .refl, hsilent⟩
  | tail hbefore hs ih =>
    obtain ⟨P', others', heq, hsteps, hsilent'⟩ := ih
    rcases hs with ⟨⟨hstep⟩⟩
    rename_i l₁ l₂ own own' s₁ s₂ β e next r
    -- the party itself makes the step, or one of the others, which leaves what is shared
    cases l₁ with
    | nil =>
      obtain ⟨rfl, rfl⟩ := List.cons.inj heq
      exact ⟨_, _, rfl, hsteps.tail (.req hstep), hsilent'⟩
    | cons Q l₁ =>
      obtain ⟨rfl, rfl⟩ := List.cons.inj heq
      obtain ⟨hquiet, hnext⟩ := hsilent' _ (List.mem_append_right _ List.mem_cons_self) r own'
        ⟨s₁, s₂, hJ _ hsteps, hstep⟩
      obtain rfl : s₂ = s₁ := hquiet s₁ own r s₂ own' hstep
      refine ⟨_, _, rfl, hsteps, fun Q' hQ' ↦ ?_⟩
      rcases List.mem_append.mp hQ' with hQ' | hQ'
      · exact hsilent' _ (List.mem_append_left _ hQ')
      · rcases List.mem_cons.mp hQ' with rfl | hQ'
        · exact hnext
        · exact hsilent' _ (List.mem_append_right _ (List.mem_cons_of_mem _ hQ'))

end Machine

end Effects

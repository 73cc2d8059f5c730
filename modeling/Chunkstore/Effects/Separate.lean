import Mathlib.Algebra.GroupWithZero.Nat
import Mathlib.Data.List.Forall2
import Mathlib.Data.List.Nodup
import Chunkstore.Effects.Shared
import Chunkstore.Effects.Simulation

/-!
# Parties in regions of their own

Parties that share a part of the state need not share all of it: each may work in a region of which
the others know nothing, and have in common only what hands the regions out. `Separates` says so of
a machine, one request at a time. A request is answered from the region of the party that makes it,
and is nothing to a party of another region.

## Main results

* `Separates.sharedSteps`: in any interleaving, what a party has done is what it does alone.
* `AsAlone.returned`: what it has returned is what it returns alone.
* `Separates.completes`: every run can be completed.
* `Machine.SharedSteps.spent`: what parties use up of a resource is bounded by what they may use.
-/

universe u v w x y

namespace Effects

variable {E : Type → Type u} {S : Type v} {L : Type w} {X : Type x} {ι : Type y} {α : Type}

/-- Each party, which is in the region `who`, sees of the shared part and of its own a state of the
handler. Its requests that meet `P` are answered as the handler does, and leave other regions as
they are. All this holds while `I` does, which no step brings about. -/
structure Separates (M : Machine E (S × L)) (H : Handler E X) (who : L → ι)
    (P : ι → {β : Type} → X → E β → Prop) (V : S → L → X → Prop) (I : S → Prop) : Prop where
  back : ∀ {β : Type} (e : E β) (s : S) (l : L) (r : β) (s' : S) (l' : L),
    M.step (s, l) e r (s', l') → I s' → I s
  answers : ∀ {β : Type} (e : E β) (s : S) (l : L) (x : X), V s l x → P (who l) x e →
    ∃ r s' l', M.step (s, l) e r (s', l')
  agrees : ∀ {β : Type} (e : E β) (s : S) (l : L) (x : X) (r : β) (s' : S) (l' : L),
    V s l x → P (who l) x e → I s' → M.step (s, l) e r (s', l') →
      r = (H.handle e x).1 ∧ V s' l' (H.handle e x).2 ∧ who l' = who l
  frame : ∀ {β : Type} (e : E β) (s : S) (l : L) (x : X) (r : β) (s' : S) (l' : L),
    V s l x → P (who l) x e → I s' → M.step (s, l) e r (s', l') →
      ∀ m y, who m ≠ who l → V s m y → V s' m y

/-- A party that sees a state from which its run meets the condition. -/
structure Started (H : Handler E X) (who : L → ι) (P : ι → {β : Type} → X → E β → Prop)
    (V : S → L → X → Prop) (s : S) (Q : Party E L α × X) : Prop where
  sees : V s Q.1.own Q.2
  meets : H.Meets (P (who Q.1.own)) Q.1.program Q.2

/-- What has become of a party is what has become of it alone. -/
def AsAlone (H : Handler E X) (who : L → ι) (P : ι → {β : Type} → X → E β → Prop)
    (V : S → L → X → Prop) (s : S) (Q : Party E L α × X) (Q' : Party E L α) : Prop :=
  ∃ x', H.toMachine.Steps (Q.1.program, Q.2) (Q'.program, x') ∧ who Q'.own = who Q.1.own ∧
    Started H who P V s (Q', x')

namespace Separates

variable {M : Machine E (S × L)} {H : Handler E X} {who : L → ι}
  {P : ι → {β : Type} → X → E β → Prop} {V : S → L → X → Prop} {I : S → Prop}
  {parties : List (Party E L α × X)} {s : S} {c' : List (Party E L α) × S}

theorem asAlone_of_step (h : Separates M H who P V I) {β : Type} {e : E β} {l l' : L} {x : X}
    {r : β} {s' : S} (hsees : V s l x) (hp : P (who l) x e) (hi : I s')
    (hstep : M.step (s, l) e r (s', l'))
    {Q : Party E L α × X} {Q' : Party E L α} (hQ : AsAlone H who P V s Q Q')
    (hne : who Q.1.own ≠ who l) : AsAlone H who P V s' Q Q' := by
  obtain ⟨x', hsteps, hwho, hstarted⟩ := hQ
  have hother : who Q'.own ≠ who l := hwho ▸ hne
  exact ⟨x', hsteps, hwho, h.frame e s l x r s' l' hsees hp hi hstep _ _ hother hstarted.sees,
    hstarted.meets⟩

/-- **In any interleaving every party is where it would be alone.** -/
theorem sharedSteps (h : Separates M H who P V I)
    (hstarted : ∀ Q ∈ parties, Started H who P V s Q)
    (hapart : (parties.map fun Q ↦ who Q.1.own).Nodup)
    (hsteps : M.SharedSteps (parties.map Prod.fst, s) c') (hi : I c'.2) :
    List.Forall₂ (AsAlone H who P V c'.2) parties c'.1 := by
  induction hsteps with
  | refl =>
    rw [List.forall₂_map_right_iff]
    exact List.forall₂_same.mpr fun Q hQ ↦ ⟨Q.2, .refl, rfl, hstarted Q hQ⟩
  | tail hbefore hs ih =>
    rcases hs with ⟨⟨hstep⟩⟩
    rename_i l₁ l₂ own own' s₁ s₂ β e next r
    have hall := ih (h.back e s₁ own r s₂ own' hstep hi)
    -- the party whose turn it is, between those whose turn it is not
    obtain ⟨k₁, k', h₁, h', rfl⟩ := Program.forall₂_append_left hall.flip
    obtain ⟨Q, k₂, hQ, h₂, rfl⟩ := List.forall₂_cons_left_iff.mp h'
    obtain ⟨x', hreach, hwho, hgo⟩ := hQ
    obtain ⟨hp, hmeets⟩ := hgo.meets
    obtain ⟨rfl, hsees, hwho'⟩ := h.agrees e s₁ own x' r s₂ own' hgo.sees hp hi hstep
    rw [List.map_append, List.map_cons, List.nodup_middle, List.nodup_cons] at hapart
    have hne : ∀ Q' ∈ k₁ ++ k₂, who Q'.1.own ≠ who own := by
      intro Q' hQ' heq
      refine hapart.1 ?_
      rw [← List.map_append, ← hwho, ← heq]
      exact List.mem_map_of_mem hQ'
    have hkeep {k : List (Party E L α × X)} {m : List (Party E L α)}
        (hk : List.Forall₂ (AsAlone H who P V s₁) k m) (hmem : ∀ Q' ∈ k, Q' ∈ k₁ ++ k₂) :
        List.Forall₂ (AsAlone H who P V s₂) k m :=
      ((List.forall₂_and_left _ _).mpr ⟨fun Q' hQ' ↦ hne Q' (hmem Q' hQ'), hk⟩).imp
        fun _ _ hQ' ↦ h.asAlone_of_step hgo.sees hp hi hstep hQ'.2 hQ'.1
    refine List.rel_append (hkeep h₁.flip fun _ ↦ List.mem_append_left _) (.cons ?_
      (hkeep h₂.flip fun _ ↦ List.mem_append_right _))
    exact ⟨_, hreach.tail (.req rfl), hwho'.trans hwho, hsees, by rw [hwho']; exact hmeets⟩

/-- **Every run can be completed:** whoever has not returned can go on, and so all can in turn. -/
theorem completes (h : Separates M H who P V I)
    (hstarted : ∀ Q ∈ parties, Started H who P V s Q)
    (hapart : (parties.map fun Q ↦ who Q.1.own).Nodup)
    (hi : ∀ c, M.SharedSteps (parties.map Prod.fst, s) c → I c.2)
    (hsteps : M.SharedSteps (parties.map Prod.fst, s) c') :
    ∃ c'', M.SharedSteps c' c'' ∧ ∀ Q ∈ c''.1, ∃ a, Q.program = .ret a := by
  -- one party is taken to its end
  have hone : ∀ (p : Program E α) (l₁ l₂ : List (Party E L α)) (own : L) (s₁ : S),
      M.SharedSteps (parties.map Prod.fst, s) (l₁ ++ ⟨p, own⟩ :: l₂, s₁) →
        ∃ a own' s₂, M.SharedSteps (l₁ ++ ⟨p, own⟩ :: l₂, s₁) (l₁ ++ ⟨.ret a, own'⟩ :: l₂, s₂) := by
    intro p
    induction p with
    | ret a => exact fun _ _ own s₁ _ ↦ ⟨a, own, s₁, .refl⟩
    | req e next ih =>
      intro l₁ l₂ own s₁ hreach
      have hall := h.sharedSteps hstarted hapart hreach (hi _ hreach)
      obtain ⟨-, k', -, h', -⟩ := Program.forall₂_append_left hall.flip
      obtain ⟨Q, -, ⟨x', -, -, hgo⟩, -, -⟩ := List.forall₂_cons_left_iff.mp h'
      obtain ⟨r, s₂, own₂, hstep⟩ := h.answers e s₁ own x' hgo.sees hgo.meets.1
      have hnext : M.SharedStep (l₁ ++ ⟨.req e next, own⟩ :: l₂, s₁)
          (l₁ ++ ⟨next r, own₂⟩ :: l₂, s₂) := .of (.req hstep)
      obtain ⟨a, own', s', hrest⟩ := ih r l₁ l₂ own₂ s₂ (hreach.tail hnext)
      exact ⟨a, own', s', .head hnext hrest⟩
  -- and then the others
  have hrest : ∀ (l₂ l₁ : List (Party E L α)) (s₁ : S),
      M.SharedSteps (parties.map Prod.fst, s) (l₁ ++ l₂, s₁) →
        ∃ l₂' s₂, M.SharedSteps (l₁ ++ l₂, s₁) (l₁ ++ l₂', s₂) ∧
          ∀ Q ∈ l₂', ∃ a, Q.program = .ret a := by
    intro l₂
    induction l₂ with
    | nil => exact fun l₁ s₁ _ ↦ ⟨[], s₁, .refl, fun Q hQ ↦ absurd hQ List.not_mem_nil⟩
    | cons Q l₂ ih =>
      intro l₁ s₁ hreach
      obtain ⟨a, own', s₂, hQ⟩ := hone Q.program l₁ l₂ Q.own s₁ hreach
      have hreach₂ := hreach.trans hQ
      rw [List.append_cons] at hreach₂
      obtain ⟨l₂', s₃, hl₂, hret⟩ := ih (l₁ ++ [⟨.ret a, own'⟩]) s₂ hreach₂
      rw [← List.append_cons, ← List.append_cons] at hl₂
      refine ⟨⟨.ret a, own'⟩ :: l₂', s₃, hQ.trans hl₂, fun Q' hQ' ↦ ?_⟩
      rcases List.mem_cons.mp hQ' with rfl | hQ'
      · exact ⟨a, rfl⟩
      · exact hret Q' hQ'
  obtain ⟨l', s', hsteps', hret⟩ := hrest c'.1 [] c'.2 hsteps
  exact ⟨(l', s'), hsteps', hret⟩

end Separates

section AsAlone

variable {H : Handler E X} {who : L → ι} {P : ι → {β : Type} → X → E β → Prop}
  {V : S → L → X → Prop} {s : S} {Q : Party E L α × X} {Q' : Party E L α}

theorem AsAlone.who_eq (h : AsAlone H who P V s Q Q') : who Q'.own = who Q.1.own := by
  obtain ⟨x', -, hwho, -⟩ := h
  exact hwho

/-- **What a party has returned is what it returns alone.** -/
theorem AsAlone.returned {a : α} (h : AsAlone H who P V s Q Q') (hret : Q'.program = .ret a) :
    a = (H.eval Q.1.program Q.2).1 ∧ V s Q'.own (H.eval Q.1.program Q.2).2 := by
  obtain ⟨x', hsteps, -, hgo⟩ := h
  rw [hret] at hsteps
  have hends : H.eval Q.1.program Q.2 = (a, x') := by
    have hw : Program.wp H.toMachine .any Q.1.program
        (fun a x' ↦ H.eval Q.1.program Q.2 = (a, x')) Q.2 := Program.wp_of_eval rfl
    exact Program.wp_steps hw hsteps
  rw [hends]
  exact ⟨rfl, hgo.sees⟩

end AsAlone

/-! ## Resources

Requests that use something up, such as the values of a counter, are counted. -/

namespace Program

/-- A program makes at most so many requests of a kind. -/
def AtMost (C : {β : Type} → E β → Prop) : Program E α → ℕ → Prop
  | .ret _, _ => True
  | .req e next, n => (¬C e ∧ ∀ r, (next r).AtMost C n) ∨
      (C e ∧ ∃ m, n = m + 1 ∧ ∀ r, (next r).AtMost C m)

variable {C : {β : Type} → E β → Prop} {β : Type}

theorem AtMost.mono {p : Program E α} {m n : ℕ} (h : p.AtMost C m) (hle : m ≤ n) :
    p.AtMost C n := by
  induction p generalizing m n with
  | ret a => trivial
  | req e next ih =>
    rcases h with ⟨hC, hnext⟩ | ⟨hC, m', rfl, hnext⟩
    · exact Or.inl ⟨hC, fun r ↦ ih r (hnext r) hle⟩
    · obtain ⟨n', rfl⟩ := Nat.exists_eq_add_of_lt hle
      exact Or.inr ⟨hC, m' + n', rfl, fun r ↦ ih r (hnext r) (Nat.le_add_right m' n')⟩

theorem AtMost.bind {p : Program E α} {f : α → Program E β} {m n : ℕ} (h : p.AtMost C m)
    (hf : ∀ a, (f a).AtMost C n) : (p >>= f).AtMost C (m + n) := by
  induction p generalizing m with
  | ret a => exact (hf a).mono (Nat.le_add_left n m)
  | req e next ih =>
    rcases h with ⟨hC, hnext⟩ | ⟨hC, m', rfl, hnext⟩
    · exact Or.inl ⟨hC, fun r ↦ ih r (hnext r)⟩
    · exact Or.inr ⟨hC, m' + n, Nat.succ_add_eq_add_succ m' n, fun r ↦ ih r (hnext r)⟩

end Program

/-- **What parties use up is bounded by what they may use.** Only a request of the kind uses
something up, and one at a time. -/
theorem Machine.SharedSteps.spent {M : Machine E (S × L)} {C : {β : Type} → E β → Prop}
    {c c' : List (Party E L α) × S} (cost : S → ℕ)
    (hcost : ∀ {β : Type} (e : E β) (s : S) (l : L) (r : β) (s' : S) (l' : L),
      M.step (s, l) e r (s', l') → cost s' = cost s ∨ C e ∧ cost s' = cost s + 1)
    (h : M.SharedSteps c c') {ns : List ℕ}
    (hc : List.Forall₂ (fun Q n ↦ Q.program.AtMost C n) c.1 ns) :
    cost c'.2 ≤ cost c.2 + ns.sum := by
  suffices hall : ∃ ns', List.Forall₂ (fun Q n ↦ Q.program.AtMost C n) c'.1 ns' ∧
      cost c'.2 + ns'.sum ≤ cost c.2 + ns.sum by
    obtain ⟨ns', -, hle⟩ := hall
    exact Nat.le_trans (Nat.le_add_right _ _) hle
  -- what is spent and what may still be spent stay below what could be spent at first
  induction h with
  | refl => exact ⟨ns, hc, Nat.le_refl _⟩
  | tail hbefore hs ih =>
    obtain ⟨ns', hns', hle⟩ := ih
    rcases hs with ⟨⟨hstep⟩⟩
    rename_i l₁ l₂ own own' s s' β e next r
    obtain ⟨n₁, k', h₁, h', rfl⟩ := Program.forall₂_append_left hns'
    obtain ⟨n, n₂, hn, h₂, rfl⟩ := List.forall₂_cons_left_iff.mp h'
    have hnow := hcost e s own r s' own' hstep
    rw [List.sum_append, List.sum_cons] at hle
    dsimp only at hle ⊢
    rcases hn with ⟨hC, hnext⟩ | ⟨hC, m, rfl, hnext⟩
    · have hsame : cost s' = cost s := hnow.resolve_right fun hC' ↦ hC hC'.1
      refine ⟨n₁ ++ n :: n₂, List.rel_append h₁ (.cons (hnext r) h₂), ?_⟩
      rw [List.sum_append, List.sum_cons, hsame]
      exact hle
    · refine ⟨n₁ ++ m :: n₂, List.rel_append h₁ (.cons (hnext r) h₂), ?_⟩
      rw [List.sum_append, List.sum_cons]
      rcases hnow with hnow | ⟨-, hnow⟩ <;> omega

end Effects

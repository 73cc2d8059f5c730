import Mathlib.Algebra.BigOperators.Group.List.Basic
import Mathlib.Data.List.Forall2
import Chunkstore.Effects.Program

/-!
# Programs side by side

A pool is a list of programs over one state; a step of the pool is a step of one of them. Which one
is not said, so what holds of every run holds under every schedule. `Handler.schedule` runs one
schedule.

## Ownership

What one program of a pool may rely on between two of its requests is what no other program can take
away. `Program.owns` gives each program a resource of its own, an element of a commutative monoid,
and asks that each request turn it into another one while the invariant, which speaks about the sum
of all resources and the state, is kept whatever the rest of the sum is. So the requests are looked
at one at a time, and a pool of such programs keeps the invariant: `Program.sound_steps`.

A program that will throw owes nothing any more. Where only runs in which every program returns are
of interest, the invariant may be given up with it.
-/

universe u v w

namespace Effects

variable {E : Type → Type u} {S : Type v} {α β ε : Type}

/-! ## Pools -/

/-- Programs that run side by side. -/
abbrev Pool (E : Type → Type u) (α : Type) := List (Program E α)

namespace Machine

/-- A step of one program of a pool. -/
inductive PoolStep (M : Machine E S) : Pool E α × S → Pool E α × S → Prop
  | of {l₁ l₂ : Pool E α} {p p' : Program E α} {s s' : S} (h : M.Step (p, s) (p', s')) :
      PoolStep M (l₁ ++ p :: l₂, s) (l₁ ++ p' :: l₂, s')

/-- Any number of steps of a pool. -/
abbrev PoolSteps (M : Machine E S) : Pool E α × S → Pool E α × S → Prop :=
  Relation.ReflTransGen M.PoolStep

/-- The steps of a world before which a condition holds. -/
def given (M : Machine E S) (P : {β : Type} → S → E β → Prop) : Machine E S where
  step s e r s' := P s e ∧ M.step s e r s'

/-- What every request keeps, a pool keeps. -/
theorem PoolSteps.invariant {M : Machine E S} {I : S → Prop} {c c' : Pool E α × S}
    (hI : ∀ {β : Type} (e : E β) (s : S) (r : β) (s' : S), I s → M.step s e r s' → I s')
    (h : M.PoolSteps c c') (hc : I c.2) : I c'.2 := by
  induction h with
  | refl => exact hc
  | tail _ hs ih =>
    rcases hs with ⟨⟨hs⟩⟩
    exact hI _ _ _ _ ih hs

theorem PoolSteps.given {M : Machine E S} {c c' : Pool E α × S} (h : M.PoolSteps c c') :
    (M.given fun _ _ ↦ True).PoolSteps c c' := by
  refine Relation.ReflTransGen.mono (fun c c' hc ↦ ?_) _ _ h
  rcases hc with ⟨⟨hc⟩⟩
  exact .of (.req ⟨trivial, hc⟩)

end Machine

/-! ## Schedules -/

namespace Program

/-- The result of a program that has returned. -/
def result? : Program E α → Option α
  | .ret a => some a
  | .req _ _ => none

theorem eq_ret_of_result? {p : Program E α} {a : α} (h : p.result? = some a) : p = .ret a := by
  cases p with
  | ret b => exact congrArg Program.ret (Option.some.inj h)
  | req e next => cases h

end Program

theorem Pool.eq_map_ret {pool : Pool E α} {results : List α}
    (h : pool.map Program.result? = results.map some) : pool = results.map .ret := by
  induction pool generalizing results with
  | nil =>
    rw [List.map_nil, eq_comm, List.map_eq_nil_iff] at h
    rw [h]
    rfl
  | cons p pool ih =>
    cases results with
    | nil => cases h
    | cons a results =>
      rw [List.map_cons, List.map_cons, List.cons.injEq] at h
      rw [List.map_cons, ih h.2, Program.eq_ret_of_result? h.1]

namespace Handler

variable (H : Handler E S) {W : Type w}

/-- The world with a tally of what the requests weigh in the states they are made in. -/
def tallied [Add W] (weigh : {β : Type} → S → E β → W) : Handler E (S × W) where
  handle e c := ((H.handle e c.1).1, (H.handle e c.1).2, c.2 + weigh c.1 e)

/-- The next request of the `i`-th program of a pool. -/
def stepAt (i : ℕ) (c : Pool E α × S) : Pool E α × S :=
  match c.1[i]? with
  | some (.req e next) => (c.1.set i (next (H.handle e c.2).1), (H.handle e c.2).2)
  | _ => c

/-- The run of a pool under a schedule, which says whose turn it is. -/
def schedule (is : List ℕ) (c : Pool E α × S) : Pool E α × S := is.foldl (fun c i ↦ H.stepAt i c) c

/-- Whether a condition holds before every request of a schedule. -/
def admits (P : {β : Type} → S → E β → Bool) : List ℕ → Pool E α × S → Bool
  | [], _ => true
  | i :: is, c =>
    (match c.1[i]? with
      | some (.req e _) => P c.2 e
      | _ => true) && admits P is (H.stepAt i c)

variable {H} {P : {β : Type} → S → E β → Bool}

theorem schedule_steps {is : List ℕ} {c : Pool E α × S} (h : H.admits P is c = true) :
    (H.toMachine.given fun s e ↦ P s e = true).PoolSteps c (H.schedule is c) := by
  induction is generalizing c with
  | nil => exact .refl
  | cons i is ih =>
    rw [admits, Bool.and_eq_true] at h
    have hrest := ih h.2
    rw [schedule, List.foldl_cons]
    refine .trans ?_ hrest
    obtain ⟨pool, s⟩ := c
    cases hi : pool[i]? with
    | none =>
      rw [stepAt, hi]
    | some p =>
      cases p with
      | ret a =>
        rw [stepAt, hi]
      | req e next =>
        have hcond : P s e = true := by
          have hh := h.1
          rw [hi] at hh
          exact hh
        obtain ⟨hlt, hget⟩ := List.getElem?_eq_some_iff.mp hi
        have hsplit : pool = pool.take i ++ .req e next :: pool.drop (i + 1) := by
          rw [← hget, List.getElem_cons_drop, List.take_append_drop]
        have hset : pool.set i (next (H.handle e s).1)
            = pool.take i ++ next (H.handle e s).1 :: pool.drop (i + 1) :=
          List.set_eq_take_append_cons_drop.trans (if_pos hlt)
        rw [stepAt, hi]
        dsimp only
        rw [hset]
        nth_rewrite 1 [hsplit]
        exact .single (.of (.req ⟨hcond, rfl⟩))

theorem schedule_poolSteps (is : List ℕ) (c : Pool E α × S) :
    H.toMachine.PoolSteps c (H.schedule is c) := by
  have hall : ∀ (is : List ℕ) (c : Pool E α × S), H.admits (fun _ _ ↦ true) is c = true := by
    intro is
    induction is with
    | nil => exact fun _ ↦ rfl
    | cons i is ih =>
      intro c
      rw [admits, ih, Bool.and_true]
      split <;> rfl
  refine Relation.ReflTransGen.mono (fun c c' hs ↦ ?_) _ _ (schedule_steps (hall is c))
  rcases hs with ⟨⟨hs⟩⟩
  exact .of (.req hs.2)

/-- Every request of the run of a program meets a condition, in the state it is made in. -/
def Meets (H : Handler E S) (P : {β : Type} → S → E β → Prop) : Program E α → S → Prop
  | .ret _, _ => True
  | .req e next, s => P s e ∧ Meets H P (next (H.handle e s).1) (H.handle e s).2

instance decidableMeets (H : Handler E S) (P : {β : Type} → S → E β → Prop)
    [∀ {β : Type} (s : S) (e : E β), Decidable (P s e)] :
    (p : Program E α) → (s : S) → Decidable (H.Meets P p s)
  | .ret _, _ => .isTrue trivial
  | .req e next, s =>
    @instDecidableAnd _ _ inferInstance
      (decidableMeets H P (next (H.handle e s).1) (H.handle e s).2)

theorem meets_bind {P : {δ : Type} → S → E δ → Prop} (p : Program E α) (f : α → Program E β)
    (s : S) : H.Meets P (p >>= f) s ↔
      H.Meets P p s ∧ H.Meets P (f (H.eval p s).1) (H.eval p s).2 := by
  induction p generalizing s with
  | ret a => exact (iff_of_eq (true_and _)).symm
  | req e next ih =>
    rw [Program.req_bind, Meets, Meets, eval, ih, and_assoc]

/-- A tally changes nothing: a run under a condition on the state is one with a tally. -/
theorem poolSteps_tallied {W : Type w} [Add W] {P : {β : Type} → S → E β → Prop}
    (weigh : {β : Type} → S → E β → W) {l l' : Pool E α} {s s' : S}
    (h : (H.toMachine.given P).PoolSteps (l, s) (l', s')) (w : W) :
    ∃ w', ((H.tallied weigh).toMachine.given fun c e ↦ P c.1 e).PoolSteps (l, (s, w))
      (l', (s', w')) := by
  suffices hall : ∀ c, (H.toMachine.given P).PoolSteps (l, s) c → ∃ w',
      ((H.tallied weigh).toMachine.given fun c e ↦ P c.1 e).PoolSteps (l, (s, w))
        (c.1, (c.2, w')) from hall _ h
  intro c hc
  induction hc with
  | refl => exact ⟨w, .refl⟩
  | tail _ hs ih =>
    obtain ⟨w₁, hw⟩ := ih
    rcases hs with ⟨⟨hp, hs⟩⟩
    obtain ⟨rfl, rfl⟩ := Prod.mk.inj hs
    exact ⟨_, hw.tail (.of (.req ⟨hp, rfl⟩))⟩

end Handler

/-! ## Ownership -/

namespace Program

/-- Every end of the program is an error. -/
def Throws : Program E (Except ε α) → Prop
  | .ret r => r.isOk = false
  | .req _ next => ∀ r, (next r).Throws

variable {ρ : Type w} [AddCommMonoid ρ] (M : Machine E S) (I : ρ → S → Prop)

/-- Each request of the program turns its resource into another one and keeps the invariant,
whatever the resources of others are; when it returns, its result and its resource satisfy `Q`. -/
def owns : Program E (Except ε α) → (α → ρ → Prop) → ρ → Prop
  | .ret (.ok a), Q, r => Q a r
  | .ret (.error _), _, _ => True
  | .req e next, Q, r => ∀ f s x s', I (r + f) s → M.step s e x s' →
      (∃ r', I (r' + f) s' ∧ owns (next x) Q r') ∨ (next x).Throws

variable {M I} {Q Q' : α → ρ → Prop} {r f : ρ}

theorem Throws.bind {p : ExceptT ε (Program E) α} {g : α → ExceptT ε (Program E) β}
    (h : p.run.Throws) : (p >>= g).run.Throws := by
  rw [ExceptT.run_bind]
  generalize p.run = q at h
  induction q with
  | ret a =>
    cases a with
    | ok a => cases h
    | error e => rfl
  | req e next ih => exact fun x ↦ ih x (h x)

/-- The consequence rule. -/
theorem owns_mono {p : Program E (Except ε α)} (h : owns M I p Q r) (hQ : ∀ a r, Q a r → Q' a r) :
    owns M I p Q' r := by
  induction p generalizing r with
  | ret a =>
    cases a with
    | ok a => exact hQ a r h
    | error e => trivial
  | req e next ih =>
    intro f s x s' hi hs
    rcases h f s x s' hi hs with ⟨r', hi', h'⟩ | ht
    · exact Or.inl ⟨r', hi', ih x h'⟩
    · exact Or.inr ht

/-- The frame rule: a resource that is not needed stays. -/
theorem owns_frame {p : Program E (Except ε α)} (h : owns M I p Q r) :
    owns M I p (fun a r' ↦ ∃ r₀, r' = r₀ + f ∧ Q a r₀) (r + f) := by
  induction p generalizing r with
  | ret a =>
    cases a with
    | ok a => exact ⟨r, rfl, h⟩
    | error e => trivial
  | req e next ih =>
    intro f' s x s' hi hs
    rw [add_assoc] at hi
    rcases h (f + f') s x s' hi hs with ⟨r', hi', h'⟩ | ht
    · refine Or.inl ⟨r' + f, ?_, ih x h'⟩
      rwa [add_assoc]
    · exact Or.inr ht

/-- The rule of one request. -/
theorem owns_request {e : E (Except ε α)}
    (h : ∀ f s x s', I (r + f) s → M.step s e x s' →
      match x with
      | .ok a => ∃ r', I (r' + f) s' ∧ Q a r'
      | .error _ => True) : owns M I (request e) Q r := by
  intro f s x s' hi hs
  have hx := h f s x s' hi hs
  cases x with
  | ok a =>
    obtain ⟨r', hi', hq⟩ := hx
    exact Or.inl ⟨r', hi', hq⟩
  | error err => exact Or.inr rfl

section Except

variable {g : α → ExceptT ε (Program E) β} {R : β → ρ → Prop}

theorem owns_pure {a : α} (h : Q a r) :
    owns M I (pure a : ExceptT ε (Program E) α).run Q r := h

theorem owns_throw (e : ε) : owns M I (throw e : ExceptT ε (Program E) α).run Q r := trivial

theorem owns_bind {p : ExceptT ε (Program E) α}
    (h : owns M I p.run (fun a r' ↦ owns M I (g a).run R r') r) :
    owns M I (p >>= g).run R r := by
  rw [ExceptT.run_bind]
  generalize p.run = q at h
  induction q generalizing r with
  | ret a =>
    cases a with
    | ok a => exact h
    | error e => trivial
  | req e next ih =>
    intro f s x s' hi hs
    rcases h f s x s' hi hs with ⟨r', hi', h'⟩ | ht
    · exact Or.inl ⟨r', hi', ih x h'⟩
    · exact Or.inr (by
        have hbind := Throws.bind (p := ExceptT.mk (next x)) (g := g) ht
        rwa [ExceptT.run_bind] at hbind)

/-- The loop rule. -/
theorem owns_foldlM {σ : Type} {g : σ → α → ExceptT ε (Program E) σ} {J : List α → σ → ρ → Prop}
    (hstep : ∀ a l st r, J (a :: l) st r → owns M I (g st a).run (J l) r) (l : List α) (st : σ)
    (r : ρ) (h : J l st r) : owns M I (l.foldlM g st).run (J []) r := by
  induction l generalizing st r with
  | nil => exact h
  | cons a l ih =>
    rw [List.foldlM_cons]
    exact owns_bind (owns_mono (hstep a l st r h) fun st' r' h' ↦ ih st' r' h')

end Except

/-- A program whose requests keep the invariant with the resources as they are needs none of its
own. -/
theorem Uses.owns {P : {δ : Type} → E δ → Prop} {p : Program E (Except ε α)} (hp : p.Uses P)
    (hP : ∀ {δ : Type} (e : E δ) (r : ρ) (s : S) (x : δ) (s' : S), P e → I r s → M.step s e x s' →
      I r s') : Program.owns M I p (fun _ r' ↦ r' = r) r := by
  induction p with
  | ret a =>
    cases a with
    | ok a => rfl
    | error e => trivial
  | req e next ih =>
    exact fun f s x s' hi hs ↦ Or.inl ⟨r, hP e _ s x s' hp.1 hi hs, ih x (hp.2 x)⟩

theorem Uses.meets {H : Handler E S} {P : {δ : Type} → E δ → Prop}
    {C : {δ : Type} → S → E δ → Prop} {p : Program E β} (hp : p.Uses P)
    (hC : ∀ {δ : Type} (e : E δ) (s : S), P e → C s e) (s : S) : H.Meets C p s := by
  induction p generalizing s with
  | ret b => trivial
  | req e next ih => exact ⟨hC e s hp.1, ih _ (hp.2 _) _⟩

/-- Requests that keep an invariant under a condition, in a run that meets the condition. -/
theorem Uses.keeps {H : Handler E S} {P : {δ : Type} → E δ → Prop}
    {C : {δ : Type} → S → E δ → Prop} {J : S → Prop} {p : Program E β} (hp : p.Uses P)
    (hJ : ∀ {δ : Type} (e : E δ) (s : S), P e → C s e → J s → J (H.handle e s).2) {s : S}
    (h : J s) (hm : H.Meets C p s) : J (H.eval p s).2 := by
  induction p generalizing s with
  | ret b => exact h
  | req e next ih => exact ih _ (hp.2 _) (hJ e s hp.1 hm.1 h) hm.2

/-! ### Pools of programs with resources -/

/-- Each program of a pool has what it needs for its postcondition, and the invariant holds of the
sum of what they have, unless some program will throw. -/
def Sound (M : Machine E S) (I : ρ → S → Prop) (specs : List (α → ρ → Prop))
    (c : Pool E (Except ε α) × S) : Prop :=
  (∃ p ∈ c.1, p.Throws) ∨ ∃ owned : List ((α → ρ → Prop) × ρ), owned.map Prod.fst = specs ∧
    List.Forall₂ (fun p o ↦ Program.owns M I p o.1 o.2) c.1 owned ∧
      I (owned.map Prod.snd).sum c.2

variable {specs : List (α → ρ → Prop)} {c c' : Pool E (Except ε α) × S}

theorem forall₂_append_left {γ δ : Type*} {R : γ → δ → Prop} {l₁ l₂ : List γ} {m : List δ}
    (h : List.Forall₂ R (l₁ ++ l₂) m) :
    ∃ m₁ m₂, List.Forall₂ R l₁ m₁ ∧ List.Forall₂ R l₂ m₂ ∧ m = m₁ ++ m₂ := by
  induction l₁ generalizing m with
  | nil => exact ⟨[], m, .nil, h, rfl⟩
  | cons a l₁ ih =>
    obtain ⟨b, m', hab, hrest, rfl⟩ := List.forall₂_cons_left_iff.mp h
    obtain ⟨m₁, m₂, h₁, h₂, rfl⟩ := ih hrest
    exact ⟨b :: m₁, m₂, .cons hab h₁, h₂, rfl⟩

/-- A step of one program leaves the others with what they have. -/
theorem sound_step (h : Sound M I specs c) (hs : M.PoolStep c c') : Sound M I specs c' := by
  rcases hs with ⟨⟨hs⟩⟩
  rename_i l₁ l₂ s s' δ e next x
  rcases h with ⟨p, hp, ht⟩ | ⟨owned, hspecs, hall, hi⟩
  · left
    rcases List.mem_append.mp hp with hp | hp
    · exact ⟨p, List.mem_append_left _ hp, ht⟩
    · rcases List.mem_cons.mp hp with rfl | hp
      · exact ⟨next x, List.mem_append_right _ List.mem_cons_self, ht x⟩
      · exact ⟨p, List.mem_append_right _ (List.mem_cons_of_mem _ hp), ht⟩
  · obtain ⟨o₁, o', h₁, h', rfl⟩ := forall₂_append_left hall
    obtain ⟨o, o₂, ho, h₂, rfl⟩ := List.forall₂_cons_left_iff.mp h'
    have hsum : ∀ r : ρ, (o₁.map Prod.snd).sum + (r + (o₂.map Prod.snd).sum)
        = r + ((o₁.map Prod.snd).sum + (o₂.map Prod.snd).sum) := fun r ↦ add_left_comm _ _ _
    rw [List.map_append, List.sum_append, List.map_cons, List.sum_cons, hsum] at hi
    rcases ho _ s x s' hi hs with ⟨r', hi', hn⟩ | ht
    · refine Or.inr ⟨o₁ ++ (o.1, r') :: o₂, ?_, ?_, ?_⟩
      · rw [← hspecs, List.map_append, List.map_append, List.map_cons, List.map_cons]
      · exact List.rel_append h₁ (List.Forall₂.cons hn h₂)
      · rw [List.map_append, List.sum_append, List.map_cons, List.sum_cons, hsum]
        exact hi'
    · exact Or.inl ⟨next x, List.mem_append_right _ List.mem_cons_self, ht⟩

/-- **A pool keeps the invariant**, under every schedule. -/
theorem sound_steps (h : Sound M I specs c) (hs : M.PoolSteps c c') : Sound M I specs c' := by
  induction hs with
  | refl => exact h
  | tail _ hs ih => exact sound_step ih hs

/-- Once every program has returned, its postcondition holds of what it has. -/
theorem sound_finished {results : List α} {s : S}
    (h : Sound M I specs (results.map fun a ↦ (.ret (.ok a) : Program E (Except ε α)), s)) :
    ∃ owned : List ((α → ρ → Prop) × ρ), owned.map Prod.fst = specs ∧
      List.Forall₂ (fun a o ↦ o.1 a o.2) results owned ∧ I (owned.map Prod.snd).sum s := by
  rcases h with ⟨p, hp, ht⟩ | ⟨owned, hspecs, hall, hi⟩
  · obtain ⟨a, -, rfl⟩ := List.mem_map.mp hp
    cases ht
  · exact ⟨owned, hspecs, List.forall₂_map_left_iff.mp hall, hi⟩

end Program

end Effects

import Mathlib.Data.List.AList
import Mathlib.Algebra.GroupWithZero.Nat
import Mathlib.Algebra.Order.Group.Nat
import Mathlib.Algebra.BigOperators.Group.List.Basic

/-!
# Finite tables

A hash map from keys to values of one type, as an association list with distinct keys. Two tables
are interchangeable when they agree at every key; what a table *sums* to depends only on that.
-/

universe u v

/-- A finite map with values of one type. -/
abbrev Table (κ : Type u) (V : Type v) := AList fun _ : κ ↦ V

namespace Table

variable {κ : Type u} {V : Type v} [DecidableEq κ]

/-- The value at a key, at its plain type. -/
def find (t : Table κ V) (k : κ) : Option V := AList.lookup k t

def set (t : Table κ V) (k : κ) (v : V) : Table κ V := AList.insert k v t

def unset (t : Table κ V) (k : κ) : Table κ V := AList.erase k t

def pairs (t : Table κ V) : List (κ × V) := t.entries.map fun e ↦ (e.1, e.2)

variable (t : Table κ V) (k k' : κ) (v : V)

@[simp] theorem find_empty : find (∅ : Table κ V) k = none := AList.lookup_empty k

theorem find_set : (t.set k v).find k' = if k' = k then some v else t.find k' := by
  by_cases h : k' = k
  · subst h
    rw [if_pos rfl, find, set, AList.lookup_insert]
  · rw [if_neg h, find, set, AList.lookup_insert_ne h, find]

theorem find_unset : (t.unset k).find k' = if k' = k then none else t.find k' := by
  by_cases h : k' = k
  · subst h
    rw [if_pos rfl, find, unset, AList.lookup_erase]
  · rw [if_neg h, find, unset, AList.lookup_erase_ne h, find]

@[simp] theorem find_set_self : (t.set k v).find k = some v := by rw [find_set, if_pos rfl]

@[simp] theorem find_unset_self : (t.unset k).find k = none := by rw [find_unset, if_pos rfl]

variable {t k k' v}

theorem find_set_ne (h : k' ≠ k) : (t.set k v).find k' = t.find k' := by rw [find_set, if_neg h]

theorem find_unset_ne (h : k' ≠ k) : (t.unset k).find k' = t.find k' := by
  rw [find_unset, if_neg h]

theorem mem_pairs : (k, v) ∈ t.pairs ↔ t.find k = some v := by
  rw [pairs, List.mem_map, find, ← Option.mem_def, AList.mem_lookup_iff]
  constructor
  · rintro ⟨e, he, heq⟩
    obtain ⟨rfl, rfl⟩ := Prod.mk.inj heq
    exact he
  · exact fun h ↦ ⟨⟨k, v⟩, h, rfl⟩

theorem mem_keys : k ∈ t.keys ↔ (t.find k).isSome := by
  rw [← AList.mem_keys, find, AList.lookup_isSome]

theorem unset_of_find_none (h : t.find k = none) : t.unset k = t := by
  refine AList.ext (List.kerase_of_notMem_keys fun hk ↦ ?_)
  have hs : (t.find k).isSome := mem_keys.mp hk
  rw [h] at hs
  cases hs

theorem find_of_keys_eq_nil (h : t.keys = []) (k : κ) : t.find k = none := by
  rw [← Option.isNone_iff_eq_none, ← Option.not_isSome, Bool.not_eq_true', ← Bool.not_eq_true,
    ← mem_keys, h]
  exact List.not_mem_nil

omit [DecidableEq κ] in
theorem nodup_keys (t : Table κ V) : t.keys.Nodup := AList.keys_nodup t

/-! ## Sums over a table -/

/-- The sum of `g` over the values of a table. -/
def sumBy (g : V → ℕ) (t : Table κ V) : ℕ := (t.entries.map fun e ↦ g e.2).sum

omit [DecidableEq κ] in
@[simp] theorem sumBy_empty (g : V → ℕ) : sumBy g (∅ : Table κ V) = 0 := rfl

private theorem sum_kerase (g : V → ℕ) (k : κ) (l : List ((_ : κ) × V)) :
    ((l.kerase k).map fun e ↦ g e.2).sum + ((l.dlookup k).map g).getD 0
      = (l.map fun e ↦ g e.2).sum := by
  induction l with
  | nil => rfl
  | cons e l ih =>
    obtain ⟨k', v⟩ := e
    by_cases h : k = k'
    · subst h
      have hk : (⟨k, v⟩ :: l : List ((_ : κ) × V)).kerase k = l := List.kerase_cons_eq rfl
      rw [hk, List.dlookup_cons_eq, List.map_cons, List.sum_cons]
      exact Nat.add_comm _ _
    · have hk : (⟨k', v⟩ :: l : List ((_ : κ) × V)).kerase k = ⟨k', v⟩ :: l.kerase k :=
        List.kerase_cons_ne h
      rw [hk, List.dlookup_cons_ne _ _ h, List.map_cons, List.sum_cons, List.map_cons,
        List.sum_cons, Nat.add_assoc, ih]

theorem sumBy_unset (g : V → ℕ) (t : Table κ V) (k : κ) :
    sumBy g (t.unset k) + ((t.find k).map g).getD 0 = sumBy g t :=
  sum_kerase g k t.entries

/-- Setting a key exchanges its old contribution for the new one. -/
theorem sumBy_set (g : V → ℕ) (t : Table κ V) (k : κ) (v : V) :
    sumBy g (t.set k v) + ((t.find k).map g).getD 0 = sumBy g t + g v := by
  have h : sumBy g (t.set k v) = g v + sumBy g (t.unset k) := by
    rw [sumBy, set, AList.entries_insert, List.map_cons, List.sum_cons]
    rfl
  rw [h, Nat.add_assoc, sumBy_unset, Nat.add_comm]

theorem le_sumBy (g : V → ℕ) {t : Table κ V} {k : κ} {v : V} (h : t.find k = some v) :
    g v ≤ sumBy g t := by
  have hs := sumBy_unset g t k
  rw [h, Option.map_some, Option.getD_some] at hs
  omega

theorem sumBy_congr (g : V → ℕ) {t t' : Table κ V} (h : ∀ k, t.find k = t'.find k) :
    sumBy g t = sumBy g t' := by
  have hp : t.entries.Perm t'.entries :=
    List.lookup_ext t.nodupKeys t'.nodupKeys fun k v ↦ by
      have hk := h k
      rw [find, find] at hk
      exact iff_of_eq (congrArg (v ∈ ·) hk)
  exact (hp.map _).sum_eq

end Table

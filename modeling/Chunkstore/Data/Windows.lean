import Mathlib.Algebra.Order.Floor.Div
import Mathlib.Data.List.Basic

/-!
# Windows of a list

The canonical split of a list into consecutive windows of one length, of which only the last may be
shorter. Window `i` is given by its bounds, so that nothing about an algorithm is built in;
`windows_append` is the equation that a loop draining whole windows off the front follows.
-/

universe u

namespace List

variable {α : Type u} {n : ℕ} {l l' : List α}

/-- The elements from `i * n` up to `(i + 1) * n`, or up to the end. -/
def window (n : ℕ) (l : List α) (i : ℕ) : List α :=
  (l.take (min ((i + 1) * n) l.length)).drop (i * n)

/-- The windows of length `n` one after the other. -/
def windows (n : ℕ) (l : List α) : List (List α) :=
  (List.range (l.length ⌈/⌉ n)).map (window n l)

theorem window_eq (n : ℕ) (l : List α) (i : ℕ) : window n l i = (l.drop (i * n)).take n := by
  have hn : (i + 1) * n - i * n = n := by rw [Nat.add_mul, Nat.one_mul, Nat.add_sub_cancel_left]
  rw [window, ← List.take_take, List.take_length, List.drop_take, hn]

theorem window_zero (n : ℕ) (l : List α) : window n l 0 = l.take n := by
  rw [window_eq, Nat.zero_mul, List.drop_zero]

theorem window_succ (n : ℕ) (l : List α) (i : ℕ) :
    window n l (i + 1) = window n (l.drop n) i := by
  rw [window_eq, window_eq, List.drop_drop, Nat.add_mul, Nat.one_mul, Nat.add_comm n]

theorem length_window (n : ℕ) (l : List α) (i : ℕ) :
    (window n l i).length = min n (l.length - i * n) := by
  rw [window_eq, List.length_take, List.length_drop]

theorem length_windows (n : ℕ) (l : List α) : (windows n l).length = l.length ⌈/⌉ n := by
  rw [windows, List.length_map, List.length_range]

theorem getElem?_windows {i : ℕ} (hi : i < l.length ⌈/⌉ n) :
    (windows n l)[i]? = some (window n l i) := by
  rw [windows, List.getElem?_map, List.getElem?_range hi]
  rfl

@[simp] theorem windows_nil (n : ℕ) : windows n ([] : List α) = [] := by
  rw [windows, List.length_nil, zero_ceilDiv]
  rfl

/-- A window begins before the end exactly when it is one of those counted. -/
theorem lt_ceilDiv_iff (hn : 0 < n) {i : ℕ} : i < l.length ⌈/⌉ n ↔ i * n < l.length := by
  rw [← not_le, ceilDiv_le_iff_le_mul hn, not_le, Nat.mul_comm]

theorem windows_of_ne_nil (hn : 0 < n) (hl : l ≠ []) :
    windows n l = l.take n :: windows n (l.drop n) := by
  have hpos : 0 < l.length := List.length_pos_iff.mpr hl
  have hcount : l.length ⌈/⌉ n = (l.drop n).length ⌈/⌉ n + 1 := by
    refine eq_of_forall_lt_iff fun i ↦ ?_
    cases i with
    | zero => simp [lt_ceilDiv_iff hn, hpos]
    | succ i =>
      rw [Nat.add_lt_add_iff_right, lt_ceilDiv_iff hn, lt_ceilDiv_iff hn, List.length_drop,
        Nat.add_mul, Nat.one_mul]
      omega
  rw [windows, hcount, List.range_succ_eq_map, List.map_cons, List.map_map, window_zero]
  exact congrArg _ (List.map_congr_left fun i _ ↦ window_succ n l i)

/-- **Draining.** A whole window can be taken off the front before the rest of the list is there. -/
theorem windows_append (hn : 0 < n) (h : n ≤ l.length) (l' : List α) :
    windows n (l ++ l') = l.take n :: windows n (l.drop n ++ l') := by
  have hl : l ++ l' ≠ [] := by
    intro h0
    rw [(List.append_eq_nil_iff.mp h0).1, List.length_nil] at h
    omega
  rw [windows_of_ne_nil hn hl, List.take_append_of_le_length h, List.drop_append_of_le_length h]

theorem windows_of_length_le (hn : 0 < n) (hl : l ≠ []) (h : l.length ≤ n) : windows n l = [l] := by
  rw [windows_of_ne_nil hn hl, List.take_of_length_le h, List.drop_of_length_le h, windows_nil]

private theorem flatten_windows (hn : 0 < n) (l : List α) : (windows n l).flatten = l := by
  induction hk : l.length using Nat.strong_induction_on generalizing l with
  | _ k ih =>
    by_cases hl : l = []
    · rw [hl, windows_nil, List.flatten_nil]
    · have hpos : 0 < l.length := List.length_pos_iff.mpr hl
      have hlt : (l.drop n).length < k := by rw [List.length_drop]; omega
      rw [windows_of_ne_nil hn hl, List.flatten_cons, ih _ hlt _ rfl, List.take_append_drop]

/-- `ls` is the canonical split of `l` into pieces of length `n`. -/
structure IsSplit (n : ℕ) (l : List α) (ls : List (List α)) : Prop where
  count : ls.length = l.length ⌈/⌉ n
  nth : ∀ i < l.length ⌈/⌉ n,
    ls[i]? = some ((l.take (min ((i + 1) * n) l.length)).drop (i * n))
  flatten : ls.flatten = l
  full : ∀ p ∈ ls.dropLast, p.length = n
  last : ∀ p ∈ ls.getLast?, 0 < p.length ∧ p.length ≤ n
  empty : l = [] → ls = []

theorem isSplit_windows (hn : 0 < n) (l : List α) : IsSplit n l (windows n l) where
  count := length_windows n l
  nth i hi := getElem?_windows hi
  flatten := flatten_windows hn l
  full p hp := by
    obtain ⟨i, hi⟩ := List.mem_iff_getElem?.mp hp
    rw [List.getElem?_dropLast, length_windows] at hi
    split at hi
    · rename_i hlt
      rw [getElem?_windows (by omega)] at hi
      cases hi
      -- the window after it begins before the end
      have hnext : (i + 1) * n < l.length := (lt_ceilDiv_iff hn).mp (by omega)
      rw [Nat.add_mul, Nat.one_mul] at hnext
      rw [length_window]
      omega
    · cases hi
  last p hp := by
    rw [Option.mem_def, List.getLast?_eq_getElem?, length_windows] at hp
    have hpos : 0 < l.length ⌈/⌉ n := by
      by_contra h0
      rw [List.getElem?_eq_none (by rw [length_windows]; omega)] at hp
      cases hp
    rw [getElem?_windows (Nat.sub_lt hpos Nat.one_pos)] at hp
    cases hp
    have hbegin := (lt_ceilDiv_iff hn).mp (Nat.sub_lt hpos Nat.one_pos)
    rw [length_window]
    omega
  empty hl := by rw [hl, windows_nil]

private theorem take_windows (hn : 0 < n) (k : ℕ) (l : List α) :
    (windows n l).take k = windows n (l.take (k * n)) := by
  induction k generalizing l with
  | zero => rw [List.take_zero, Nat.zero_mul, List.take_zero, windows_nil]
  | succ k ih =>
    by_cases hl : l = []
    · rw [hl, windows_nil, List.take_nil, List.take_nil, windows_nil]
    · have hfront : l.take ((k + 1) * n) ≠ [] := by
        rw [Ne, List.take_eq_nil_iff, not_or]
        exact ⟨Nat.mul_ne_zero k.succ_ne_zero (Nat.pos_iff_ne_zero.mp hn), hl⟩
      have hle : n ≤ (k + 1) * n := Nat.le_mul_of_pos_left n k.succ_pos
      have hsub : (k + 1) * n - n = k * n := by rw [Nat.add_mul, Nat.one_mul, Nat.add_sub_cancel]
      rw [windows_of_ne_nil hn hl, List.take_succ_cons, ih, windows_of_ne_nil hn hfront,
        List.take_take, min_eq_left hle, List.drop_take, hsub]

theorem take_windows_congr (hn : 0 < n) {k : ℕ} (h : l.take (k * n) = l'.take (k * n)) :
    (windows n l).take k = (windows n l').take k := by
  rw [take_windows hn, take_windows hn, h]

end List

import Chunkstore.Core.Chunker
import Chunkstore.Data.Windows

/-!
# Fixed-size chunking

What a `FixedChunker` emits over any number of `feed` calls. A call drains every whole chunk it can,
and what it leaves in the buffer is all that carries over, so the chunks emitted are the windows of
the bytes fed so far, wherever the calls cut them.

## Main result

* `FixedChunker.outputs_canonical`: the outputs of the feeds followed by `finish` are the canonical
  split of the input.
-/

namespace Chunkstore

namespace FixedChunker

/-! ## The loop of `feed` -/

/-- The runs of the `while` loop of `feed`, from a buffer to the chunks it emits and the buffer it
ends with. -/
inductive FeedLoop (chunkSize : ℕ) : Bytes → List Bytes → Bytes → Prop
  | done {buffer : Bytes} (h : buffer.length < chunkSize) : FeedLoop chunkSize buffer [] buffer
  | drain {buffer rest : Bytes} {out : List Bytes} (h : chunkSize ≤ buffer.length)
      (hloop : FeedLoop chunkSize (buffer.drop chunkSize) out rest) :
      FeedLoop chunkSize buffer (buffer.take chunkSize :: out) rest

private theorem feedLoop_drain {n : ℕ} (hn : 0 < n) {fuel : ℕ} {buffer : Bytes}
    (h : buffer.length ≤ fuel) :
    FeedLoop n buffer (drain n fuel buffer).1 (drain n fuel buffer).2 := by
  induction fuel generalizing buffer with
  | zero =>
    refine .done ?_
    omega
  | succ fuel ih =>
    rw [drain]
    split
    · rename_i hle
      exact .drain hle (ih (by rw [List.length_drop]; omega))
    · exact .done (Nat.lt_of_not_le (by assumption))

/-- The loop of a `feed` call ends. -/
theorem feedLoop_feed (c : FixedChunker) (data : Bytes) :
    FeedLoop c.chunkSize (c.buffer ++ data) (c.feed data).1 (c.feed data).2.buffer :=
  feedLoop_drain c.chunkSize_pos le_rfl

theorem FeedLoop.lt {n : ℕ} {buffer rest : Bytes} {out : List Bytes}
    (h : FeedLoop n buffer out rest) : rest.length < n := by
  induction h with
  | done h => exact h
  | drain _ _ ih => exact ih

/-- The loop emits the first windows of whatever the buffer is the beginning of. -/
theorem FeedLoop.windows {n : ℕ} (hn : 0 < n) {buffer rest : Bytes} {out : List Bytes}
    (h : FeedLoop n buffer out rest) (more : Bytes) :
    List.windows n (buffer ++ more) = out ++ List.windows n (rest ++ more) := by
  induction h with
  | done _ => rfl
  | drain hle _ ih => rw [List.windows_append hn hle, ih, List.cons_append]

/-! ## Any number of calls -/

@[simp] theorem chunkSize_feed (c : FixedChunker) (data : Bytes) :
    (c.feed data).2.chunkSize = c.chunkSize := rfl

/-- `feed` on one piece of the input after the other, with all the chunks they return. -/
def feedAll (c : FixedChunker) : List Bytes → List Bytes × FixedChunker
  | [] => ([], c)
  | piece :: pieces =>
    let r := c.feed piece
    let rest := feedAll r.2 pieces
    (r.1 ++ rest.1, rest.2)

/-- The outputs of the feeds followed by `finish`. -/
def outputs (c : FixedChunker) (pieces : List Bytes) : List Bytes :=
  (c.feedAll pieces).1 ++ (c.feedAll pieces).2.finish.1

@[simp] theorem chunkSize_feedAll (c : FixedChunker) (pieces : List Bytes) :
    (c.feedAll pieces).2.chunkSize = c.chunkSize := by
  induction pieces generalizing c with
  | nil => rfl
  | cons piece pieces ih => exact ih _

theorem length_feedAll_lt {c : FixedChunker} (hc : c.buffer.length < c.chunkSize)
    (pieces : List Bytes) : (c.feedAll pieces).2.buffer.length < c.chunkSize := by
  induction pieces generalizing c with
  | nil => exact hc
  | cons piece pieces ih => exact ih (c.feedLoop_feed piece).lt

private theorem windows_feedAll (c : FixedChunker) (pieces : List Bytes) :
    List.windows c.chunkSize (c.buffer ++ pieces.flatten)
      = (c.feedAll pieces).1
        ++ List.windows c.chunkSize (c.feedAll pieces).2.buffer := by
  induction pieces generalizing c with
  | nil => rw [List.flatten_nil, List.append_nil]; rfl
  | cons piece pieces ih =>
    rw [List.flatten_cons, ← List.append_assoc,
      (c.feedLoop_feed piece).windows c.chunkSize_pos pieces.flatten]
    rw [← c.chunkSize_feed piece, ih (c.feed piece).2, chunkSize_feed, ← List.append_assoc]
    rfl

theorem finish_eq_windows {c : FixedChunker} (hc : c.buffer.length < c.chunkSize) :
    c.finish.1 = List.windows c.chunkSize c.buffer := by
  rw [finish]
  by_cases hb : c.buffer = []
  · rw [if_pos (List.isEmpty_iff.mpr hb), hb, List.windows_nil]
  · rw [if_neg (mt List.isEmpty_iff.mp hb),
      List.windows_of_length_le c.chunkSize_pos hb (Nat.le_of_lt hc)]

private theorem finish_eq_new (c : FixedChunker) :
    c.finish.2 = new c.chunkSize c.chunkSize_pos := by
  rw [finish, new]
  by_cases hb : c.buffer = []
  · rw [if_pos (List.isEmpty_iff.mpr hb), ← hb]
  · rw [if_neg (mt List.isEmpty_iff.mp hb)]

/-- The outputs are the windows of the input, however it is cut into calls. -/
private theorem outputs_eq_windows {c : FixedChunker} (hc : c.buffer.length < c.chunkSize)
    (pieces : List Bytes) :
    c.outputs pieces = List.windows c.chunkSize (c.buffer ++ pieces.flatten) := by
  have hlt := length_feedAll_lt hc pieces
  rw [← chunkSize_feedAll c pieces] at hlt
  rw [outputs, windows_feedAll, finish_eq_windows hlt, chunkSize_feedAll]

theorem outputs_new (n : ℕ) (hn : 0 < n) (pieces : List Bytes) :
    (new n hn).outputs pieces = List.windows n pieces.flatten :=
  outputs_eq_windows (c := new n hn) hn pieces

/-- **Fixed chunking is the canonical split**, however the input arrives: the outputs of the feeds
followed by `finish` are the windows of the input, the loop of every call ends, `finish` leaves the
chunker as new, and inputs that agree on their first `k` windows have the first `k` chunks in
common. -/
theorem outputs_canonical (n : ℕ) (hn : 0 < n) (pieces : List Bytes) :
    List.IsSplit n pieces.flatten ((new n hn).outputs pieces) ∧
      (∀ (c : FixedChunker) (data : Bytes),
        FeedLoop c.chunkSize (c.buffer ++ data) (c.feed data).1 (c.feed data).2.buffer) ∧
      ((new n hn).feedAll pieces).2.finish.2 = new n hn ∧
      ∀ (k : ℕ) (pieces' : List Bytes),
        pieces.flatten.take (k * n) = pieces'.flatten.take (k * n) →
          ((new n hn).outputs pieces).take k = ((new n hn).outputs pieces').take k := by
  refine ⟨?_, feedLoop_feed, ?_, fun k pieces' h ↦ ?_⟩
  · rw [outputs_new]
    exact List.isSplit_windows hn pieces.flatten
  · rw [finish_eq_new]
    congr 1
    exact chunkSize_feedAll _ pieces
  · rw [outputs_new, outputs_new]
    exact List.take_windows_congr hn h

/-- Seven bytes in four calls, one of them empty and one longer than a chunk. -/
theorem outputs_canonical_seven :
    List.IsSplit 3 [1, 2, 3, 4, 5, 6, 7]
      ((new 3 (by decide)).outputs [[1], [], [2, 3, 4, 5, 6], [7]]) :=
  (outputs_canonical 3 (by decide) [[1], [], [2, 3, 4, 5, 6], [7]]).1

example : (new 3 (by decide)).outputs [[1], [], [2, 3, 4, 5, 6], [7]]
    = [[1, 2, 3], [4, 5, 6], [7]] := by decide

end FixedChunker

end Chunkstore

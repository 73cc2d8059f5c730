import Chunkstore.Bindings.QueueReader

/-!
# Ingest of an asynchronous iterator

`ingest_aiter` (`async_store.py`) runs three parties: a producer task that puts the blocks of an
iterator into a queue of at most 8 items, each from a thread that waits while the queue is full, a
thread that runs `ingest_reader` on the other end and waits while it is empty, and the coroutine
itself, which waits for the thread and then, whatever came of it, for the task.

## Main result

* `AsyncIngest.never_stuck_iff`: which iterators and which outcomes of the store let `ingest_aiter`
  come to its end in every run.
-/

namespace Chunkstore

namespace AsyncIngest

def maxsize : ℕ := 8

/-- What an asynchronous iterator does: it yields blocks, then ends normally or raises. -/
structure Iterator where
  blocks : List Bytes
  normal : Bool

/-- What the store does with its reader: it reads to the end, or raises after so many reads. -/
inductive Outcome
  | finishes
  | raises (reads : ℕ)

/-- The producer task: waiting for the iterator, in `buf.put`, or at its end. -/
inductive Producer
  | iterating (rest : List Bytes)
  | putting (item : Option Bytes) (rest : List Bytes)
  | finished

/-- The thread of `ingest_reader`: between two reads, in a read, or at its end. -/
inductive Consumer
  | between (reader : QueueReader) (reads : ℕ)
  | filling (reader : QueueReader) (reads : ℕ)
  | finished

/-- The coroutine: waiting for the thread, for the task, or at its end. -/
inductive Main
  | ingesting
  | awaitingTask
  | returned
  deriving DecidableEq

structure State where
  producer : Producer
  queue : List (Option Bytes)
  consumer : Consumer
  main : Main

def start (it : Iterator) : State := ⟨.iterating it.blocks, [], .between .new 0, .ingesting⟩

/-- One step of one party. -/
inductive Step (it : Iterator) (outcome : Outcome) : State → State → Prop
  | yields {b : Bytes} {rest : List Bytes} {q : List (Option Bytes)} {c : Consumer} {m : Main} :
    Step it outcome ⟨.iterating (b :: rest), q, c, m⟩ ⟨.putting (some b) rest, q, c, m⟩
  | ends {q : List (Option Bytes)} {c : Consumer} {m : Main} : it.normal = true →
    Step it outcome ⟨.iterating [], q, c, m⟩ ⟨.putting none [], q, c, m⟩
  | raises {q : List (Option Bytes)} {c : Consumer} {m : Main} : it.normal = false →
    Step it outcome ⟨.iterating [], q, c, m⟩ ⟨.finished, q, c, m⟩
  | put {b : Bytes} {rest : List Bytes} {q : List (Option Bytes)} {c : Consumer} {m : Main} :
    q.length < maxsize →
    Step it outcome ⟨.putting (some b) rest, q, c, m⟩ ⟨.iterating rest, q ++ [some b], c, m⟩
  | putEnd {rest : List Bytes} {q : List (Option Bytes)} {c : Consumer} {m : Main} :
    q.length < maxsize →
    Step it outcome ⟨.putting none rest, q, c, m⟩ ⟨.finished, q ++ [none], c, m⟩
  | fails {p : Producer} {q : List (Option Bytes)} {r : QueueReader} {reads : ℕ} {m : Main} :
    outcome = .raises reads →
    Step it outcome ⟨p, q, .between r reads, m⟩ ⟨p, q, .finished, m⟩
  | read {p : Producer} {q : List (Option Bytes)} {r : QueueReader} {reads : ℕ} {m : Main} :
    (∀ k, outcome = .raises k → k ≠ reads) →
    Step it outcome ⟨p, q, .between r reads, m⟩ ⟨p, q, .filling r reads, m⟩
  | get {p : Producer} {item : Option Bytes} {q : List (Option Bytes)} {r : QueueReader} {reads : ℕ}
    {m : Main} : r.waits PyReader.bufLen = true →
    Step it outcome ⟨p, item :: q, .filling r reads, m⟩ ⟨p, q, .filling (r.accept item) reads, m⟩
  | gives {p : Producer} {q : List (Option Bytes)} {r : QueueReader} {reads : ℕ} {m : Main} :
    r.waits PyReader.bufLen = false → r.buf ≠ [] →
    Step it outcome ⟨p, q, .filling r reads, m⟩
      ⟨p, q, .between { r with buf := r.buf.drop PyReader.bufLen } (reads + 1), m⟩
  | givesNothing {p : Producer} {q : List (Option Bytes)} {r : QueueReader} {reads : ℕ} {m : Main} :
    r.waits PyReader.bufLen = false → r.buf = [] →
    Step it outcome ⟨p, q, .filling r reads, m⟩ ⟨p, q, .finished, m⟩
  | joins {p : Producer} {q : List (Option Bytes)} :
    Step it outcome ⟨p, q, .finished, .ingesting⟩ ⟨p, q, .finished, .awaitingTask⟩
  | returns {q : List (Option Bytes)} {c : Consumer} :
    Step it outcome ⟨.finished, q, c, .awaitingTask⟩ ⟨.finished, q, c, .returned⟩

/-- The states of a run. -/
inductive Reachable (it : Iterator) (outcome : Outcome) : State → Prop
  | start : Reachable it outcome (start it)
  | next {s t : State} : Reachable it outcome s → Step it outcome s t → Reachable it outcome t

/-- What is left of the blocks when so many bytes are taken, block by block; `none` if there are not
enough. -/
def unread : ℕ → List Bytes → Option (List Bytes)
  | 0, blocks => some blocks
  | _ + 1, [] => none
  | n + 1, b :: blocks => unread (n + 1 - b.length) blocks

/-- The end marker, which an iterator that raises does not leave. -/
def endItems (it : Iterator) : List (Option Bytes) := if it.normal then [none] else []

/-- A store that reads to the end needs an iterator that ends normally. One that raises needs it if
the blocks are too short for its reads; otherwise what its reads leave in the producer must fit into
the queue. -/
def Fits (it : Iterator) : Outcome → Prop
  | .finishes => it.normal = true
  | .raises k =>
    match unread (k * PyReader.bufLen) it.blocks with
    | none => it.normal = true
    | some rest => rest.length + (endItems it).length ≤ maxsize

variable {it : Iterator} {outcome : Outcome} {s t : State}

theorem unread_zero (blocks : List Bytes) : unread 0 blocks = some blocks := by
  cases blocks <;> rfl

theorem unread_nil {n : ℕ} (hn : 0 < n) : unread n [] = none := by
  cases n with
  | zero => cases hn
  | succ n => rfl

theorem unread_cons {n : ℕ} (hn : 0 < n) (b : Bytes) (blocks : List Bytes) :
    unread n (b :: blocks) = unread (n - b.length) blocks := by
  cases n with
  | zero => cases hn
  | succ n => rfl

/-! ## What every step keeps -/

/-- The items that the producer has not put yet. -/
def Producer.future (it : Iterator) : Producer → List (Option Bytes)
  | .iterating rest => rest.map some ++ endItems it
  | .putting (some b) rest => some b :: (rest.map some ++ endItems it)
  | .putting none _ => [none]
  | .finished => []

/-- The items that the thread has not taken yet. -/
def ahead (it : Iterator) (s : State) : List (Option Bytes) := s.queue ++ s.producer.future it

/-- A reader that has taken so much of the stream that `n` more bytes than its buffer holds are at
`n` of what is ahead. -/
def Follows (it : Iterator) (taken : ℕ) (need : ℕ → ℕ) (items : List (Option Bytes)) : Prop :=
  ∃ rest, items = rest.map some ++ endItems it ∧
    ∀ m, unread (taken + m) it.blocks = unread (need m) rest

/-- A reader that has seen the end marker: there are not so many bytes in the stream. -/
def Ended (it : Iterator) (taken : ℕ) (items : List (Option Bytes)) : Prop :=
  it.normal = true ∧ items = [] ∧ ∀ m, unread (taken + m) it.blocks = none

/-- What the thread has read fits with what is ahead of it. -/
def ConsumerOk (it : Iterator) (outcome : Outcome) (items : List (Option Bytes)) : Consumer → Prop
  | .between r reads =>
    (∀ k, outcome = .raises k → reads ≤ k) ∧
      if r.eof then Ended it (reads * PyReader.bufLen) items
      else Follows it (reads * PyReader.bufLen) (· - r.buf.length) items
  | .filling r reads =>
    (∀ k, outcome = .raises k → reads < k) ∧
      if r.eof then Ended it ((reads + 1) * PyReader.bufLen) items
      else Follows it ((reads + 1) * PyReader.bufLen) (PyReader.bufLen + · - r.buf.length) items
  | .finished =>
    (it.normal = true ∧ items = [] ∧
        ∀ k, outcome = .raises k → unread (k * PyReader.bufLen) it.blocks = none) ∨
      ∃ k rest, outcome = .raises k ∧ unread (k * PyReader.bufLen) it.blocks = some rest ∧
        items.length = rest.length + (endItems it).length

structure Inv (it : Iterator) (outcome : Outcome) (s : State) : Prop where
  bounded : s.queue.length ≤ maxsize
  consumer : ConsumerOk it outcome (ahead it s) s.consumer
  joined : s.main ≠ .ingesting → s.consumer = .finished
  done : s.main = .returned → s.producer = .finished

theorem inv_start (it : Iterator) (outcome : Outcome) : Inv it outcome (start it) where
  bounded := Nat.zero_le _
  consumer := by
    refine ⟨fun _ _ ↦ Nat.zero_le _, it.blocks, rfl, fun m ↦ ?_⟩
    rw [Nat.zero_mul, Nat.zero_add]
    rfl
  joined := fun h ↦ absurd rfl h
  done := fun h ↦ nomatch h

/-! ### Steps of the thread -/

variable {items : List (Option Bytes)} {r : QueueReader} {reads : ℕ}

theorem ConsumerOk.fails (h : ConsumerOk it outcome items (.between r reads))
    (ho : outcome = .raises reads) : ConsumerOk it outcome items .finished := by
  obtain ⟨-, h⟩ := h
  split at h
  · obtain ⟨hnormal, hitems, hnone⟩ := h
    refine Or.inl ⟨hnormal, hitems, fun k hk ↦ ?_⟩
    cases ho.symm.trans hk
    have hzero := hnone 0
    rwa [Nat.add_zero] at hzero
  · obtain ⟨rest, hitems, hunread⟩ := h
    refine Or.inr ⟨reads, rest, ho, ?_, ?_⟩
    · have hzero := hunread 0
      dsimp only at hzero
      rwa [Nat.add_zero, Nat.zero_sub, unread_zero] at hzero
    · rw [hitems, List.length_append, List.length_map]

theorem ConsumerOk.read (h : ConsumerOk it outcome items (.between r reads))
    (ho : ∀ k, outcome = .raises k → k ≠ reads) :
    ConsumerOk it outcome items (.filling r reads) := by
  obtain ⟨hle, h⟩ := h
  have hsucc (m : ℕ) : (reads + 1) * PyReader.bufLen + m
      = reads * PyReader.bufLen + (PyReader.bufLen + m) := by
    rw [Nat.succ_mul, Nat.add_assoc]
  refine ⟨fun k hk ↦ lt_of_le_of_ne (hle k hk) (ho k hk).symm, ?_⟩
  by_cases heof : r.eof = true
  · rw [if_pos heof] at h ⊢
    obtain ⟨hnormal, hitems, hnone⟩ := h
    exact ⟨hnormal, hitems, fun m ↦ by rw [hsucc, hnone]⟩
  · rw [if_neg heof] at h ⊢
    obtain ⟨rest, hitems, hunread⟩ := h
    exact ⟨rest, hitems, fun m ↦ by rw [hsucc, hunread]⟩

theorem waits_iff : r.waits PyReader.bufLen = true ↔
    r.eof = false ∧ r.buf.length < PyReader.bufLen := by
  rw [QueueReader.waits, Bool.and_eq_true, Bool.not_eq_true', decide_eq_true_iff]

theorem ConsumerOk.get {item : Option Bytes}
    (h : ConsumerOk it outcome (item :: items) (.filling r reads))
    (hw : r.waits PyReader.bufLen = true) :
    ConsumerOk it outcome items (.filling (r.accept item) reads) := by
  obtain ⟨heof, hlen⟩ := waits_iff.mp hw
  obtain ⟨hlt, h⟩ := h
  rw [heof, if_neg Bool.false_ne_true] at h
  obtain ⟨rest, hitems, hunread⟩ := h
  have hpos (m : ℕ) : 0 < PyReader.bufLen + m - r.buf.length := by omega
  refine ⟨hlt, ?_⟩
  cases rest with
  | nil =>
    -- only the end marker is left
    cases hnormal : it.normal with
    | false =>
      rw [endItems, hnormal] at hitems
      cases hitems
    | true =>
      rw [endItems, hnormal] at hitems
      cases hitems
      exact ⟨hnormal, rfl, fun m ↦ by rw [hunread, unread_nil (hpos m)]⟩
  | cons b rest =>
    rw [List.map_cons, List.cons_append] at hitems
    cases hitems
    change if r.eof then _ else _
    rw [heof, if_neg Bool.false_ne_true]
    refine ⟨rest, rfl, fun m ↦ ?_⟩
    change _ = unread (PyReader.bufLen + m - (r.buf ++ b).length) rest
    rw [hunread, unread_cons (hpos m), List.length_append, Nat.sub_sub]

private theorem ConsumerOk.gives (h : ConsumerOk it outcome items (.filling r reads))
    (hw : r.waits PyReader.bufLen = false) :
    ConsumerOk it outcome items
      (.between { r with buf := r.buf.drop PyReader.bufLen } (reads + 1)) := by
  obtain ⟨hlt, h⟩ := h
  refine ⟨fun k hk ↦ hlt k hk, ?_⟩
  change if r.eof then _ else _
  split at h
  · rename_i heof
    rwa [if_pos heof]
  · rename_i heof
    rw [if_neg heof]
    obtain ⟨rest, hitems, hunread⟩ := h
    refine ⟨rest, hitems, fun m ↦ ?_⟩
    have hlen : PyReader.bufLen ≤ r.buf.length := by
      by_contra hlen
      rw [waits_iff.mpr ⟨Bool.eq_false_iff.mpr heof, Nat.lt_of_not_le hlen⟩] at hw
      cases hw
    have hneed : PyReader.bufLen + m - r.buf.length
        = m - (r.buf.drop PyReader.bufLen).length := by
      rw [List.length_drop]
      omega
    exact (hunread m).trans (congrArg (unread · rest) hneed)

private theorem ConsumerOk.givesNothing (h : ConsumerOk it outcome items (.filling r reads))
    (hw : r.waits PyReader.bufLen = false) (hbuf : r.buf = []) :
    ConsumerOk it outcome items .finished := by
  obtain ⟨hlt, h⟩ := h
  have heof : r.eof = true := by
    by_contra heof
    have hlen : r.buf.length < PyReader.bufLen := by
      rw [hbuf, PyReader.bufLen]
      exact Nat.succ_pos _
    rw [waits_iff.mpr ⟨Bool.eq_false_iff.mpr heof, hlen⟩] at hw
    cases hw
  rw [heof, if_pos rfl] at h
  obtain ⟨hnormal, hitems, hnone⟩ := h
  refine Or.inl ⟨hnormal, hitems, fun k hk ↦ ?_⟩
  obtain ⟨m, rfl⟩ := Nat.exists_eq_add_of_le (Nat.succ_le_of_lt (hlt k hk))
  rw [Nat.add_mul, hnone]

/-! ### Steps of a run -/

theorem future_nil (it : Iterator) (p : Producer) (hp : p ≠ .finished) (h : p.future it = []) :
    it.normal = false ∧ p = .iterating [] := by
  cases p with
  | iterating rest =>
    rw [Producer.future, List.append_eq_nil_iff, List.map_eq_nil_iff] at h
    obtain ⟨rfl, hend⟩ := h
    rw [endItems] at hend
    split at hend
    · cases hend
    · rename_i hn
      exact ⟨Bool.eq_false_iff.mpr hn, rfl⟩
  | putting item rest => cases item <;> cases h
  | finished => exact absurd rfl hp

/-- **Every step keeps the invariant.** -/
theorem Inv.step (h : Inv it outcome s) (hst : Step it outcome s t) : Inv it outcome t := by
  obtain ⟨hbounded, hconsumer, hjoined, hdone⟩ := h
  cases hst with
  | yields => exact ⟨hbounded, hconsumer, hjoined, fun hm ↦ nomatch hdone hm⟩
  | ends hnormal =>
    refine ⟨hbounded, ?_, hjoined, fun hm ↦ nomatch hdone hm⟩
    rw [ahead, Producer.future, endItems, hnormal] at hconsumer
    exact hconsumer
  | raises hnormal =>
    refine ⟨hbounded, ?_, hjoined, fun _ ↦ rfl⟩
    rw [ahead, Producer.future, endItems, hnormal] at hconsumer
    exact hconsumer
  | put hq =>
    refine ⟨?_, ?_, hjoined, fun hm ↦ nomatch hdone hm⟩
    · rw [List.length_append]
      exact hq
    · change ConsumerOk it outcome ((_ ++ [_]) ++ _) _
      rw [List.append_assoc]
      exact hconsumer
  | putEnd hq =>
    refine ⟨?_, ?_, hjoined, fun _ ↦ rfl⟩
    · rw [List.length_append]
      exact hq
    · change ConsumerOk it outcome ((_ ++ [_]) ++ _) _
      rw [List.append_assoc]
      exact hconsumer
  | fails ho => exact ⟨hbounded, hconsumer.fails ho, fun _ ↦ rfl, hdone⟩
  | read ho => exact ⟨hbounded, hconsumer.read ho, fun hm ↦ (nomatch hjoined hm), hdone⟩
  | get hw =>
    exact ⟨(Nat.le_succ _).trans hbounded, hconsumer.get hw, fun hm ↦ (nomatch hjoined hm), hdone⟩
  | gives hw => exact ⟨hbounded, hconsumer.gives hw, fun hm ↦ (nomatch hjoined hm), hdone⟩
  | givesNothing hw hbuf =>
    exact ⟨hbounded, hconsumer.givesNothing hw hbuf, fun _ ↦ rfl, hdone⟩
  | joins => exact ⟨hbounded, hconsumer, fun _ ↦ rfl, fun hm ↦ nomatch hm⟩
  | returns => exact ⟨hbounded, hconsumer, fun _ ↦ hjoined (fun hm ↦ (nomatch hm)), fun _ ↦ rfl⟩

theorem Reachable.inv (h : Reachable it outcome s) : Inv it outcome s := by
  induction h with
  | start => exact inv_start it outcome
  | next _ hst ih => exact ih.step hst

/-! ## No state is stuck -/

/-- A producer that is not at its end has a step, if there is room in the queue. -/
theorem step_producer {p : Producer} (hp : p ≠ .finished) {q : List (Option Bytes)}
    (hq : q.length < maxsize) (c : Consumer) (m : Main) :
    ∃ t, Step it outcome ⟨p, q, c, m⟩ t := by
  cases p with
  | iterating rest =>
    cases rest with
    | nil =>
      cases hn : it.normal with
      | true => exact ⟨_, .ends hn⟩
      | false => exact ⟨_, .raises hn⟩
    | cons b rest => exact ⟨_, .yields⟩
  | putting item rest =>
    cases item with
    | none => exact ⟨_, .putEnd hq⟩
    | some b => exact ⟨_, .put hq⟩
  | finished => exact absurd rfl hp

/-- The thread waits on an empty queue with no producer left only if the iterator does not fit. -/
private theorem ConsumerOk.not_starved (h : ConsumerOk it outcome [] (.filling r reads))
    (hw : r.waits PyReader.bufLen = true) : ¬Fits it outcome := by
  obtain ⟨heof, hlen⟩ := waits_iff.mp hw
  obtain ⟨hlt, h⟩ := h
  rw [heof, if_neg Bool.false_ne_true] at h
  obtain ⟨rest, hitems, hunread⟩ := h
  obtain ⟨hrest, hend⟩ := List.append_eq_nil_iff.mp hitems.symm
  rw [List.map_eq_nil_iff] at hrest
  have hnormal : it.normal ≠ true := by
    intro hn
    rw [endItems, hn] at hend
    cases hend
  intro hfits
  cases outcome with
  | finishes => exact hnormal hfits
  | raises k =>
    -- the reads that are left ask for more than there is
    obtain ⟨m, rfl⟩ := Nat.exists_eq_add_of_le (Nat.succ_le_of_lt (hlt k rfl))
    have hnone := hunread (m * PyReader.bufLen)
    rw [hrest, unread_nil (by dsimp only; omega), ← Nat.add_mul] at hnone
    rw [Fits, hnone] at hfits
    exact hnormal hfits

/-- The producer waits on a full queue with no reader left only if the iterator does not fit. -/
private theorem ConsumerOk.room {p : Producer} {q : List (Option Bytes)} (hp : p.future it ≠ [])
    (h : ConsumerOk it outcome (q ++ p.future it) .finished) (hfits : Fits it outcome) :
    q.length < maxsize := by
  rcases h with ⟨-, hitems, -⟩ | ⟨k, rest, ho, hunread, hlen⟩
  · exact absurd (List.append_eq_nil_iff.mp hitems).2 hp
  · rw [ho, Fits, hunread] at hfits
    have hpos := List.length_pos_iff.mpr hp
    rw [List.length_append] at hlen
    change rest.length + _ ≤ maxsize at hfits
    omega

/-- A state that fits has a step, until the coroutine returns. -/
theorem Inv.exists_step (h : Inv it outcome s) (hfits : Fits it outcome) (hm : s.main ≠ .returned) :
    ∃ t, Step it outcome s t := by
  obtain ⟨p, q, c, m⟩ := s
  obtain ⟨hbounded, hconsumer, hjoined, -⟩ := h
  cases c with
  | between r reads =>
    by_cases ho : outcome = .raises reads
    · exact ⟨_, .fails ho⟩
    · exact ⟨_, .read fun k hk heq ↦ ho (heq ▸ hk)⟩
  | filling r reads =>
    by_cases hw : r.waits PyReader.bufLen = true
    · cases q with
      | cons item q => exact ⟨_, .get hw⟩
      | nil =>
        by_cases hp : p = .finished
        · subst hp
          exact absurd hfits (hconsumer.not_starved hw)
        · exact step_producer hp (by decide) _ _
    · rw [Bool.not_eq_true] at hw
      by_cases hbuf : r.buf = []
      · exact ⟨_, .givesNothing hw hbuf⟩
      · exact ⟨_, .gives hw hbuf⟩
  | finished =>
    cases m with
    | ingesting => exact ⟨_, .joins⟩
    | awaitingTask =>
      by_cases hp : p = .finished
      · subst hp
        exact ⟨_, .returns⟩
      · by_cases hfuture : p.future it = []
        · obtain ⟨hn, rfl⟩ := future_nil it p hp hfuture
          exact ⟨_, .raises hn⟩
        · exact step_producer hp (hconsumer.room hfuture hfits) _ _
    | returned => exact absurd rfl hm

/-! ## Every run comes to an end -/

def bytesOf (items : List (Option Bytes)) : ℕ := (items.map fun i ↦ (i.getD []).length).sum

def Producer.turn : Producer → ℕ
  | .iterating _ => 1
  | _ => 0

def Consumer.turn : Consumer → ℕ
  | .between _ _ => 2
  | .filling _ _ => 1
  | .finished => 0

/-- The bytes in the buffer of the reader. -/
def Consumer.buffered : Consumer → ℕ
  | .between r _ => r.buf.length
  | .filling r _ => r.buf.length
  | .finished => 0

def Main.turn : Main → ℕ
  | .ingesting => 2
  | .awaitingTask => 1
  | .returned => 0

/-- What is left to do: every item is put and taken, and every byte is read. -/
def remaining (it : Iterator) (s : State) : ℕ :=
  3 * (s.producer.future it).length + s.producer.turn + s.queue.length
    + 3 * (s.consumer.buffered + bytesOf s.queue + bytesOf (s.producer.future it))
    + s.consumer.turn + s.main.turn

private theorem bytesOf_append (items items' : List (Option Bytes)) :
    bytesOf (items ++ items') = bytesOf items + bytesOf items' := by
  rw [bytesOf, List.map_append, List.sum_append]
  rfl

theorem bytesOf_cons (item : Option Bytes) (items : List (Option Bytes)) :
    bytesOf (item :: items) = (item.getD []).length + bytesOf items := rfl

private theorem length_buf_accept (r : QueueReader) (item : Option Bytes) :
    (r.accept item).buf.length = r.buf.length + (item.getD []).length := by
  cases item with
  | none => rfl
  | some b => exact List.length_append

theorem remaining_step (hst : Step it outcome s t) : remaining it t < remaining it s := by
  have hpos : 0 < PyReader.bufLen := Nat.succ_pos _
  cases hst with
  | yields =>
    simp only [remaining, Producer.future, Producer.turn, List.map_cons, List.cons_append]
    omega
  | ends hnormal =>
    simp only [remaining, Producer.future, Producer.turn, endItems, hnormal, List.map_nil,
      List.nil_append, if_true]
    omega
  | raises hnormal =>
    simp only [remaining, Producer.future, Producer.turn, endItems, hnormal, List.map_nil,
      List.nil_append, Bool.false_eq_true, if_false]
    omega
  | put hq =>
    simp only [remaining, Producer.future, Producer.turn, List.length_append, List.length_cons,
      List.length_nil, bytesOf_append, bytesOf_cons]
    have hnil : bytesOf [] = 0 := rfl
    omega
  | putEnd hq =>
    simp only [remaining, Producer.future, Producer.turn, List.length_append, List.length_cons,
      List.length_nil, bytesOf_append, bytesOf_cons]
    have hnil : bytesOf [] = 0 := rfl
    have hnone : ((none : Option Bytes).getD []).length = 0 := rfl
    omega
  | fails ho =>
    simp only [remaining, Consumer.turn, Consumer.buffered]
    omega
  | read ho =>
    simp only [remaining, Consumer.turn, Consumer.buffered]
    omega
  | get hw =>
    simp only [remaining, Consumer.turn, Consumer.buffered, List.length_cons, bytesOf_cons,
      length_buf_accept]
    omega
  | @gives p q r reads m hw hbuf =>
    -- at least one byte leaves the buffer
    have hlen := List.length_pos_iff.mpr hbuf
    simp only [remaining, Consumer.turn, Consumer.buffered, List.length_drop]
    omega
  | givesNothing hw hbuf =>
    simp only [remaining, Consumer.turn, Consumer.buffered]
    omega
  | joins =>
    simp only [remaining, Main.turn]
    omega
  | returns =>
    simp only [remaining, Main.turn]
    omega

theorem Reachable.exists_last (h : Reachable it outcome s) :
    ∃ t, Reachable it outcome t ∧ ∀ u, ¬Step it outcome t u := by
  induction hn : remaining it s using Nat.strong_induction_on generalizing s with
  | _ n ih =>
    subst hn
    by_cases hstep : ∃ t, Step it outcome s t
    · obtain ⟨t, hst⟩ := hstep
      exact ih _ (remaining_step hst) (h.next hst) rfl
    · exact ⟨s, h, fun u hu ↦ hstep ⟨u, hu⟩⟩

/-- A run that comes to its end shows that the iterator fits. -/
theorem Inv.fits (h : Inv it outcome s) (hm : s.main = .returned) : Fits it outcome := by
  obtain ⟨p, q, c, m⟩ := s
  obtain ⟨hbounded, hconsumer, hjoined, hdone⟩ := h
  obtain rfl : p = .finished := hdone hm
  obtain rfl : c = .finished := hjoined fun hne ↦ nomatch hm.symm.trans hne
  rcases hconsumer with ⟨hnormal, -, hnone⟩ | ⟨k, rest, rfl, hunread, hlen⟩
  · cases outcome with
    | finishes => exact hnormal
    | raises k =>
      rw [Fits, hnone k rfl]
      exact hnormal
  · rw [Fits, hunread]
    change rest.length + (endItems it).length ≤ maxsize
    rw [← hlen, ahead, Producer.future, List.append_nil]
    exact hbounded

/-- **`ingest_aiter` never gets stuck** if and only if the iterator fits what the store does: a
store that reads to the end needs a normal end of the iterator, and one that raises needs either
this, where the blocks are too short for its reads, or room in the queue for what it leaves
unread. -/
theorem never_stuck_iff (it : Iterator) (outcome : Outcome) :
    (∀ s, Reachable it outcome s → s.main ≠ .returned → ∃ t, Step it outcome s t) ↔
      Fits it outcome := by
  constructor
  · intro hall
    have hstart : Reachable it outcome _ := .start
    obtain ⟨t, ht, hlast⟩ := hstart.exists_last
    by_cases hm : t.main = .returned
    · exact ht.inv.fits hm
    · obtain ⟨u, hu⟩ := hall t ht hm
      exact absurd hu (hlast u)
  · exact fun hfits s hs hm ↦ hs.inv.exists_step hfits hm

/-- An iterator that raises at once leaves the reader waiting. -/
theorem not_never_stuck : ¬∀ (it : Iterator) (outcome : Outcome) (s : State),
    Reachable it outcome s → s.main ≠ .returned → ∃ t, Step it outcome s t := by
  intro h
  have hreach : Reachable ⟨[], false⟩ .finishes ⟨.finished, [], .filling .new 0, .ingesting⟩ :=
    (Reachable.start.next (.raises rfl)).next (.read fun k hk ↦ nomatch hk)
  have hwaits : QueueReader.new.waits PyReader.bufLen = true :=
    waits_iff.mpr ⟨rfl, Nat.succ_pos _⟩
  obtain ⟨t, hst⟩ := h _ _ _ hreach (fun hm ↦ nomatch hm)
  cases hst with
  | gives hw => cases hw.symm.trans hwaits
  | givesNothing hw => cases hw.symm.trans hwaits

end AsyncIngest

end Chunkstore

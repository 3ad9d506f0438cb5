import Pintos.Lib.RingBuffer
import Pintos.Lib.Fifo
import Pintos.Lib.Simulation

/-!
# The array queue (`lib/kernel/queue.c`)

`struct array_queue` is a ring of `capacity + 1` words with one slot kept empty,
so that an empty queue (`head == tail`) differs from a full one
(`head == (tail + 1) % capacity`). `queue_init` stores `capacity + 1` as a
`uint32_t` and asks `malloc` for `(capacity + 1) * sizeof (uint32_t)` bytes, a
`size_t` product.

`queue_peek`, `queue_dequeue` and `queue_enqueue` run under `queue->lock`. A
call whose wait loop would wait is not enabled, and its thread makes the call
once it can run through. So every interleaving of callers is a sequence of
whole calls, a run of `queueStep` over the calls' events (`Fifo.Event`): what
each call was given or returned. An access to `buffer` past the block `malloc`
returned is undefined, and the call is not enabled either.

When `(capacity + 1) * 4` fits in a `size_t`, the queue and the abstract FIFO of
`capacity` items run the same event lists, and the ring holds the FIFO's items
(`array_queue_bounded_fifo`). Past that the product wraps: for
`capacity = 2 ^ 30` the buffer is 4 bytes long and the first enqueue stores past
it (`queue_init_wraps_buffer_size`).
-/

namespace Pintos.Kernel

/-- `struct array_queue`: the `buffer` `malloc` returned and its size in bytes,
`capacity` (the true capacity plus one), `discard_mode`, and `head` and
`tail`. -/
structure ArrayQueue where
  buffer : Nat → UInt32
  bufferSize : Nat
  capacity : Nat
  discardMode : Bool
  head : Nat
  tail : Nat

namespace ArrayQueue

/-- `queue->buffer[i]`, or `none` past the buffer. -/
def load (q : ArrayQueue) (i : Nat) : Option UInt32 :=
  if 4 * i + 4 ≤ q.bufferSize then some (q.buffer i) else none

/-- `queue->buffer[i] = v`, or `none` past the buffer. -/
def store (q : ArrayQueue) (i : Nat) (v : UInt32) : Option (Nat → UInt32) :=
  if 4 * i + 4 ≤ q.bufferSize then some (Bytes.update q.buffer i v) else none

end ArrayQueue

open ArrayQueue

/-- `queue_init (queue, capacity, discard_mode)`, with `block` what `malloc`
returns for a size that is not `0`; `malloc (0)` returns `NULL`. On `NULL` the
thread exits and there is no queue. -/
def queueInit (block : Option (Nat → UInt32)) (capacity : Nat) (discardMode : Bool) :
    Option ArrayQueue :=
  let size := (capacity + 1) * 4 % 2 ^ 32
  match if size = 0 then none else block with
  | none => none
  | some buffer => some ⟨buffer, size, (capacity + 1) % 2 ^ 32, discardMode, 0, 0⟩

/-- `queue_empty (queue)`. -/
def queueEmpty (q : ArrayQueue) : Bool := q.head == q.tail

/-- `queue_full (queue)`. -/
def queueFull (q : ArrayQueue) : Bool := q.head == (q.tail + 1) % q.capacity

/-- `queue_peek (queue)`: `-1` when the queue is empty. -/
def queuePeek (q : ArrayQueue) : Option UInt32 :=
  if queueEmpty q then some 0xFFFFFFFF else q.load ((q.head + 1) % q.capacity)

/-- `queue_dequeue (queue)`: the item and the queue; `none` while it waits on
`items_avail`. -/
def queueDequeue (q : ArrayQueue) : Option (UInt32 × ArrayQueue) :=
  if queueEmpty q then none
  else
    let head := (q.head + 1) % q.capacity
    (q.load head).map fun item => (item, { q with head := head })

/-- `queue_enqueue (queue, item)`: the item is dropped when the queue is full in
discard mode; `none` while it waits on `slots_avail`. -/
def queueEnqueue (q : ArrayQueue) (item : UInt32) : Option ArrayQueue :=
  if q.discardMode && queueFull q then some q
  else if queueFull q then none
  else
    let tail := (q.tail + 1) % q.capacity
    (q.store tail item).map fun buffer => { q with tail := tail, buffer := buffer }

/-- A whole call, as the event of what it was given or returned. -/
def queueStep (q : ArrayQueue) : Fifo.Event UInt32 → Option ArrayQueue
  | .enqueue item => queueEnqueue q item
  | .dequeue item =>
    match queueDequeue q with
    | some (x, q') => if x = item then some q' else none
    | none => none
  | .peek item =>
    match queuePeek q with
    | some x => if x = item then some q else none
    | none => none

namespace ArrayQueue

/-- The items in the ring, front first. -/
def contents (q : ArrayQueue) : List UInt32 :=
  RingBuffer.items q.buffer q.capacity q.head (RingBuffer.count q.capacity q.head q.tail)

/-- A queue `queue_init` made with capacity `c` and discard mode `d`, as every
call keeps it: its indices lie in the ring and the ring in the buffer. -/
structure Inv (c : Nat) (d : Bool) (q : ArrayQueue) : Prop where
  capacity_eq : q.capacity = c + 1
  discard_eq : q.discardMode = d
  head_lt : q.head < q.capacity
  tail_lt : q.tail < q.capacity
  in_bounds : 4 * q.capacity ≤ q.bufferSize

/-- The queue holds the items of the abstract FIFO. -/
def Refines (c : Nat) (d : Bool) (q : ArrayQueue) (items : List UInt32) : Prop :=
  q.Inv c d ∧ q.contents = items

variable {c : Nat} {d : Bool} {q : ArrayQueue} {i : Nat}

theorem Inv.load (hq : q.Inv c d) (hi : i < q.capacity) : q.load i = some (q.buffer i) := by
  have := hq.in_bounds
  rw [ArrayQueue.load, if_pos (by omega)]

theorem Inv.store (hq : q.Inv c d) (hi : i < q.capacity) (v : UInt32) :
    q.store i v = some (Bytes.update q.buffer i v) := by
  have := hq.in_bounds
  rw [ArrayQueue.store, if_pos (by omega)]

theorem length_contents (q : ArrayQueue) :
    q.contents.length = RingBuffer.count q.capacity q.head q.tail := by
  simp [contents]

theorem Inv.length_le (hq : q.Inv c d) : q.contents.length ≤ c := by
  have hlt := RingBuffer.count_lt hq.head_lt hq.tail_lt
  rw [length_contents]
  rw [hq.capacity_eq] at hlt ⊢
  omega

theorem Inv.empty_iff (hq : q.Inv c d) : queueEmpty q = true ↔ q.contents = [] := by
  rw [← List.length_eq_zero_iff, length_contents,
    RingBuffer.count_eq_zero_iff hq.head_lt hq.tail_lt]
  simp [queueEmpty]

theorem Inv.full_iff (hq : q.Inv c d) : queueFull q = true ↔ q.contents.length = c := by
  rw [length_contents, queueFull, beq_iff_eq, RingBuffer.full_iff hq.head_lt hq.tail_lt,
    hq.capacity_eq]
  omega

/-- Taking the front item keeps the invariant. -/
theorem Inv.pop (hq : q.Inv c d) : Inv c d { q with head := (q.head + 1) % q.capacity } :=
  ⟨hq.capacity_eq, hq.discard_eq, Nat.mod_lt _ (by have := hq.head_lt; omega), hq.tail_lt,
    hq.in_bounds⟩

/-- Adding an item keeps the invariant. -/
theorem Inv.push (hq : q.Inv c d) (buf : Nat → UInt32) :
    Inv c d { q with tail := (q.tail + 1) % q.capacity, buffer := buf } :=
  ⟨hq.capacity_eq, hq.discard_eq, hq.head_lt, Nat.mod_lt _ (by have := hq.head_lt; omega),
    hq.in_bounds⟩

/-- A queue that is not empty gives its front item, and the rest follow. -/
theorem Inv.contents_pop (hq : q.Inv c d) (hne : queueEmpty q = false) :
    q.contents = q.buffer ((q.head + 1) % q.capacity) ::
      { q with head := (q.head + 1) % q.capacity }.contents := by
  have hne' : q.head ≠ q.tail := by simpa [queueEmpty] using hne
  exact RingBuffer.items_count_pop q.buffer hq.head_lt hq.tail_lt hne'

/-- A queue that is not full takes an item at its end. -/
theorem Inv.contents_push (hq : q.Inv c d) (hnf : queueFull q = false) (v : UInt32) :
    { q with
      tail := (q.tail + 1) % q.capacity
      buffer := Bytes.update q.buffer ((q.tail + 1) % q.capacity) v }.contents =
      q.contents ++ [v] := by
  have hnf' : q.head ≠ (q.tail + 1) % q.capacity := by simpa [queueFull] using hnf
  exact RingBuffer.items_count_push q.buffer v hq.head_lt hq.tail_lt hnf'

end ArrayQueue

open ArrayQueue

section Lockstep

variable {c : Nat} {d : Bool} {q : ArrayQueue} {items : List UInt32}

/-- `queue_enqueue` does what the FIFO's enqueue does. -/
theorem enqueue_lockstep (hq : q.Refines c d items) (x : UInt32) :
    Option.Rel (Refines c d) (queueEnqueue q x) (Fifo.step c d 0xFFFFFFFF items (.enqueue x)) := by
  obtain ⟨hinv, rfl⟩ := hq
  have hle := hinv.length_le
  unfold queueEnqueue
  simp only [Fifo.step]
  cases hf : queueFull q
  · -- a free slot: the item goes in after the last one
    have hlt : q.contents.length < c := by
      have := hinv.full_iff.not.mp (by simp [hf])
      omega
    have hslot := hinv.store (Nat.mod_lt (q.tail + 1) (by have := hinv.head_lt; omega)) x
    rw [if_neg (by simp), if_neg (by simp), if_pos hlt, hslot, Option.map_some]
    exact .some ⟨hinv.push _, hinv.contents_push hf x⟩
  · -- full: dropped in discard mode, and the caller waits otherwise
    have hlen : ¬q.contents.length < c := by
      have := hinv.full_iff.mp hf
      omega
    rw [if_neg hlen, hinv.discard_eq]
    cases d
    · simp only [Bool.false_and, Bool.false_eq_true, if_false, if_true]
      exact .none
    · simp only [Bool.and_self, if_true]
      exact .some ⟨hinv, rfl⟩

/-- `queue_dequeue` returns and removes the FIFO's oldest item. -/
theorem dequeue_lockstep (hq : q.Refines c d items) (x : UInt32) :
    Option.Rel (Refines c d) (queueStep q (.dequeue x)) (Fifo.step c d 0xFFFFFFFF items (.dequeue x)) := by
  obtain ⟨hinv, rfl⟩ := hq
  simp only [queueStep, queueDequeue]
  cases he : queueEmpty q
  · -- the front item sits in the slot after `head`
    have hslot := hinv.load (Nat.mod_lt (q.head + 1) (by have := hinv.head_lt; omega))
    rw [if_neg (by simp), hslot, Option.map_some, hinv.contents_pop he]
    simp only [Fifo.step]
    by_cases hx : q.buffer ((q.head + 1) % q.capacity) = x
    · rw [if_pos hx, if_pos hx]
      exact .some ⟨hinv.pop, rfl⟩
    · rw [if_neg hx, if_neg hx]
      exact .none
  · rw [if_pos rfl, hinv.empty_iff.mp he]
    exact .none

/-- `queue_peek` returns the FIFO's oldest item, or `-1`, and changes nothing. -/
theorem peek_lockstep (hq : q.Refines c d items) (x : UInt32) :
    Option.Rel (Refines c d) (queueStep q (.peek x)) (Fifo.step c d 0xFFFFFFFF items (.peek x)) := by
  obtain ⟨hinv, rfl⟩ := hq
  simp only [queueStep, queuePeek, Fifo.step]
  cases he : queueEmpty q
  · have hslot := hinv.load (Nat.mod_lt (q.head + 1) (by have := hinv.head_lt; omega))
    rw [if_neg (by simp), hslot, hinv.contents_pop he, List.headD_cons]
    dsimp only
    by_cases hx : q.buffer ((q.head + 1) % q.capacity) = x
    · rw [if_pos hx, if_pos hx]
      exact .some ⟨hinv, hinv.contents_pop he⟩
    · rw [if_neg hx, if_neg hx]
      exact .none
  · rw [if_pos rfl, hinv.empty_iff.mp he, List.headD_nil]
    dsimp only
    by_cases hx : (0xFFFFFFFF : UInt32) = x
    · rw [if_pos hx, if_pos hx]
      exact .some ⟨hinv, hinv.empty_iff.mp he⟩
    · rw [if_neg hx, if_neg hx]
      exact .none

/-- The array queue and the FIFO of `c` items move in lockstep. -/
theorem queue_lockstep :
    Lts.Lockstep queueStep (Fifo.step c d 0xFFFFFFFF) (Refines c d) := by
  intro q items ev hq
  cases ev with
  | enqueue x => exact enqueue_lockstep hq x
  | dequeue x => exact dequeue_lockstep hq x
  | peek x => exact peek_lockstep hq x

end Lockstep

/-- `queue_init` with a capacity whose buffer size fits in a `size_t` makes an
empty queue. -/
theorem queueInit_refines {block : Option (Nat → UInt32)} {c : Nat} {d : Bool} {q : ArrayQueue}
    (hc : (c + 1) * 4 < 2 ^ 32) (h : queueInit block c d = some q) : q.Refines c d [] := by
  unfold queueInit at h
  dsimp only at h
  rw [Nat.mod_eq_of_lt hc, if_neg (by omega)] at h
  cases block with
  | none => cases h
  | some buffer =>
    cases h
    have hcap : (c + 1) % 2 ^ 32 = c + 1 := Nat.mod_eq_of_lt (by omega)
    refine ⟨⟨hcap, rfl, ?_, ?_, ?_⟩, ?_⟩
    · show 0 < (c + 1) % 2 ^ 32
      omega
    · show 0 < (c + 1) % 2 ^ 32
      omega
    · show 4 * ((c + 1) % 2 ^ 32) ≤ (c + 1) * 4
      omega
    · show RingBuffer.items buffer _ 0 (RingBuffer.count _ 0 0) = []
      rw [RingBuffer.count, Nat.zero_add, Nat.sub_zero, Nat.mod_self]
      rfl

/-- For every capacity `c` whose buffer size `(c + 1) * 4` fits in a `size_t`,
the queue `queue_init` makes runs exactly the event lists the FIFO of `c` items
runs, in discard mode or not. After each run it holds the FIFO's items, at most
`c` of them, between `head` and `tail` in `[0, c]`. -/
theorem array_queue_bounded_fifo {block : Option (Nat → UInt32)} {c : Nat} {d : Bool}
    {q : ArrayQueue} (hc : (c + 1) * 4 < 2 ^ 32) (h : queueInit block c d = some q)
    (evs : List (Fifo.Event UInt32)) :
    Option.Rel (fun q' items => q'.contents = items ∧ items.length ≤ c ∧ q'.head ≤ c ∧ q'.tail ≤ c)
      (Lts.run queueStep q evs) (Lts.run (Fifo.step c d 0xFFFFFFFF) [] evs) := by
  refine Lts.rel_mono ?_ (queue_lockstep.run evs (queueInit_refines hc h))
  rintro q' items ⟨hinv, rfl⟩
  have hh := hinv.head_lt
  have ht := hinv.tail_lt
  rw [hinv.capacity_eq] at hh ht
  exact ⟨rfl, hinv.length_le, by omega, by omega⟩

/-- The read-ahead queue of `filesys/cache.c`: `MAX_CACHE_SIZE` items, discard
mode. -/
theorem array_queue_bounded_fifo_read_ahead :
    ∃ q, queueInit (some fun _ => 0) 64 true = some q ∧
      Option.Rel (fun q' items => q'.contents = items ∧ items.length ≤ 64 ∧ q'.head ≤ 64 ∧ q'.tail ≤ 64)
        (Lts.run queueStep q [.enqueue 3, .peek 3, .dequeue 3])
        (Lts.run (Fifo.step 64 true 0xFFFFFFFF) [] [.enqueue 3, .peek 3, .dequeue 3]) :=
  ⟨_, rfl, array_queue_bounded_fifo (by decide)
    (show queueInit (some fun _ => 0) 64 true = some _ from rfl) _⟩

/-- Along every run of a queue `queue_init` made, the items dequeued and then
those still held are the items enqueued, with some left out only in discard
mode: no item is duplicated, reordered or, without discard mode, lost. -/
theorem array_queue_no_lost_items {block : Option (Nat → UInt32)} {c : Nat} {d : Bool}
    {q q' : ArrayQueue} (hc : (c + 1) * 4 < 2 ^ 32) (h : queueInit block c d = some q)
    {evs : List (Fifo.Event UInt32)} (hrun : Lts.run queueStep q evs = some q') :
    (Fifo.dequeued evs ++ q'.contents).Sublist (Fifo.enqueued evs) ∧
      (d = false → Fifo.dequeued evs ++ q'.contents = Fifo.enqueued evs) := by
  have hrel := queue_lockstep.run evs (queueInit_refines hc h)
  rw [hrun] at hrel
  -- the FIFO runs the same events, to the items the queue holds
  obtain ⟨items, hfifo, -, hcont⟩ : ∃ items, Lts.run (Fifo.step c d 0xFFFFFFFF) [] evs = some items ∧
      q'.Refines c d items := by
    cases hr : Lts.run (Fifo.step c d 0xFFFFFFFF) [] evs with
    | none => rw [hr] at hrel; cases hrel
    | some items => rw [hr] at hrel; cases hrel with | some hR => exact ⟨items, rfl, hR⟩
  rw [hcont]
  refine ⟨by simpa using Fifo.run_sublist evs hfifo, ?_⟩
  rintro rfl
  simpa using (Fifo.run_conserves evs hfifo).symm

/-- A queue of capacity `64` in blocking mode, after the items `1` and `2` went in
and `1` came out. -/
theorem array_queue_no_lost_items_two :
    ∃ q q', queueInit (some fun _ => 0) 64 false = some q ∧
      Lts.run queueStep q [.enqueue 1, .enqueue 2, .dequeue 1] = some q' ∧
      (Fifo.dequeued [.enqueue 1, .enqueue 2, .dequeue 1] ++ q'.contents).Sublist
        (Fifo.enqueued [.enqueue (1 : UInt32), .enqueue 2, .dequeue 1]) ∧
      (false = false → Fifo.dequeued [.enqueue 1, .enqueue 2, .dequeue 1] ++ q'.contents =
        Fifo.enqueued [.enqueue (1 : UInt32), .enqueue 2, .dequeue 1]) :=
  ⟨_, _, rfl, rfl, array_queue_no_lost_items (by decide)
    (show queueInit (some fun _ => 0) 64 false = some _ from rfl) rfl⟩

/-- With `capacity = 2 ^ 30` the `size_t` product `(capacity + 1) * 4` wraps to
`4`: the buffer holds one word while the ring has `2 ^ 30 + 1` slots. The first
enqueue, onto the empty queue, stores into slot 1, past the buffer, where the
FIFO of `2 ^ 30` items takes the item. -/
theorem queue_init_wraps_buffer_size (junk : Nat → UInt32) (item : UInt32) :
    ∃ q, queueInit (some junk) (2 ^ 30) false = some q ∧ q.bufferSize = 4 ∧
      q.capacity = 2 ^ 30 + 1 ∧ queueFull q = false ∧ (q.tail + 1) % q.capacity = 1 ∧
      q.store 1 item = none ∧ queueStep q (.enqueue item) = none ∧
      Fifo.step (2 ^ 30) false 0xFFFFFFFF [] (.enqueue item) = some [item] :=
  ⟨_, rfl, rfl, rfl, rfl, rfl, rfl, rfl, rfl⟩

end Pintos.Kernel

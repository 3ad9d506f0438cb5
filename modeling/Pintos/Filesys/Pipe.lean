import Pintos.Lib.RingBuffer
import Pintos.Lib.Reach

/-!
# Pipes (`filesys/pipe.c`)

A pipe is a ring of `capacity + 1` bytes under one lock, with two condition
variables. `pipe_open` creates one of capacity 4095 and sets its two ends.
`pipe_read` and `pipe_write` move one byte per `pipe_dequeue` or
`pipe_enqueue`, and each of these runs as one section under `pipe->lock`. A
section whose wait loop would wait is not enabled here, and the thread takes
the step once the section can run through. `pipe_dequeue` on an empty pipe
whose write end is closed gives `0`. `pipe_enqueue` on a full pipe whose read
end is closed drops its byte. Both loops stop at a `0` byte: they move it but
do not count it.

One reader and one writer use the pipe, each through its own end until it
closes it. Beside the code's state, the model records what the two have done:
* `delivered`: the bytes counted by returned `pipe_read` calls;
* `counted`: the bytes counted by returned `pipe_write` calls;
* `taken`: the bytes taken from the ring;
* `sent`: the bytes put into the ring;
* `pushed`: the bytes handed to `pipe_enqueue`.
-/

namespace Pintos.Filesys

/-- `struct pipe`: the ring `buffer` of `capacity` slots, `head` the slot before
the front byte and `tail` the last byte's, and whether `read_end` and
`write_end` are set. -/
structure Pipe where
  buffer : Nat → UInt8
  capacity : Nat
  head : Nat
  tail : Nat
  readOpen : Bool
  writeOpen : Bool

namespace Pipe

/-- `pipe_create (capacity)` over the bytes `junk` that `malloc` left in the
buffer: one slot more than `capacity`, so that a full ring differs from an empty
one. -/
def create (junk : Nat → UInt8) (capacity : Nat) : Pipe :=
  ⟨junk, capacity + 1, 0, 0, false, false⟩

/-- `pipe_empty (pipe)`. -/
def empty (p : Pipe) : Bool := p.head == p.tail

/-- `pipe_full (pipe)`. -/
def full (p : Pipe) : Bool := p.head == (p.tail + 1) % p.capacity

/-- `pipe_dequeue (pipe)`: the byte and the pipe; `0` from an empty pipe whose
write end is closed; `none` while it waits on `items_avail`. -/
def dequeue (p : Pipe) : Option (UInt8 × Pipe) :=
  if p.empty then
    if p.writeOpen then none else some (0, p)
  else
    let head := (p.head + 1) % p.capacity
    some (p.buffer head, { p with head := head })

/-- `pipe_enqueue (pipe, item)`: the byte is dropped when the pipe is full and
its read end closed; `none` while it waits on `slots_avail`. -/
def enqueue (p : Pipe) (item : UInt8) : Option Pipe :=
  if p.full then
    if p.readOpen then none else some p
  else
    let tail := (p.tail + 1) % p.capacity
    some { p with tail := tail, buffer := Bytes.update p.buffer tail item }

/-- The number of bytes in the ring. -/
def size (p : Pipe) : Nat := RingBuffer.count p.capacity p.head p.tail

/-- The bytes in the ring, front first. -/
def contents (p : Pipe) : List UInt8 := RingBuffer.items p.buffer p.capacity p.head p.size

/-- The ring's indices lie inside it. -/
structure WF (p : Pipe) : Prop where
  cap_pos : 0 < p.capacity
  head_lt : p.head < p.capacity
  tail_lt : p.tail < p.capacity

variable {p p' : Pipe} {item : UInt8}

/-- What `pipe_dequeue` can do. -/
theorem dequeue_eq_some (h : p.dequeue = some (item, p')) :
    (p.empty = true ∧ p.writeOpen = false ∧ item = 0 ∧ p' = p) ∨
      (p.empty = false ∧ item = p.buffer ((p.head + 1) % p.capacity) ∧
        p' = { p with head := (p.head + 1) % p.capacity }) := by
  unfold dequeue at h
  cases he : p.empty <;> cases hw : p.writeOpen <;> simp [he, hw] at h
  · exact .inr ⟨rfl, h.1.symm, h.2.symm⟩
  · exact .inr ⟨rfl, h.1.symm, h.2.symm⟩
  · exact .inl ⟨rfl, rfl, h.1.symm, h.2.symm⟩

/-- What `pipe_enqueue` can do. -/
theorem enqueue_eq_some (h : p.enqueue item = some p') :
    (p.full = true ∧ p.readOpen = false ∧ p' = p) ∨
      (p.full = false ∧ p' = { p with
        tail := (p.tail + 1) % p.capacity
        buffer := Bytes.update p.buffer ((p.tail + 1) % p.capacity) item }) := by
  unfold enqueue at h
  cases hf : p.full <;> cases hr : p.readOpen <;> simp [hf, hr] at h
  · exact .inr ⟨rfl, h.symm⟩
  · exact .inr ⟨rfl, h.symm⟩
  · exact .inl ⟨rfl, rfl, h.symm⟩

/-- Taking the front byte keeps the ring well formed. -/
theorem WF.pop (hp : p.WF) : WF { p with head := (p.head + 1) % p.capacity } :=
  ⟨hp.cap_pos, Nat.mod_lt _ hp.cap_pos, hp.tail_lt⟩

/-- Adding a byte keeps the ring well formed. -/
theorem WF.push (hp : p.WF) (buf : Nat → UInt8) :
    WF { p with tail := (p.tail + 1) % p.capacity, buffer := buf } :=
  ⟨hp.cap_pos, hp.head_lt, Nat.mod_lt _ hp.cap_pos⟩

/-- A pipe that is not empty gives its front byte, and the rest follow. -/
theorem contents_pop (hp : p.WF) (hne : p.empty = false) :
    p.contents = p.buffer ((p.head + 1) % p.capacity) ::
      { p with head := (p.head + 1) % p.capacity }.contents := by
  have hne' : p.head ≠ p.tail := by simpa [empty] using hne
  exact RingBuffer.items_count_pop p.buffer hp.head_lt hp.tail_lt hne'

/-- A pipe that is not full takes a byte at its end. -/
theorem contents_push (hp : p.WF) (hnf : p.full = false) (b : UInt8) :
    { p with
      tail := (p.tail + 1) % p.capacity
      buffer := Bytes.update p.buffer ((p.tail + 1) % p.capacity) b }.contents =
      p.contents ++ [b] := by
  have hnf' : p.head ≠ (p.tail + 1) % p.capacity := by simpa [full] using hnf
  exact RingBuffer.items_count_push p.buffer b hp.head_lt hp.tail_lt hnf'

end Pipe

/-- Where the reading thread is. -/
inductive ReaderPc where
  | idle
  /-- In `pipe_read (pipe, buffer, size)`, with the bytes `got` stored so far. -/
  | reading (size : Int) (got : List UInt8)
  /-- Its end closed by `pipe_close`. -/
  | closed
  deriving DecidableEq

/-- Where the writing thread is. -/
inductive WriterPc where
  | idle
  /-- In `pipe_write (pipe, buffer, size)`, with `rest` the bytes of `buffer`
  still to go and `put` those enqueued and counted. -/
  | writing (rest put : List UInt8)
  /-- Its end closed by `pipe_close`. -/
  | closed
  deriving DecidableEq

/-- The bytes the read in progress has counted. -/
def ReaderPc.got : ReaderPc → List UInt8
  | .reading _ got => got
  | _ => []

/-- The bytes the write in progress has counted. -/
def WriterPc.put : WriterPc → List UInt8
  | .writing _ put => put
  | _ => []

/-- A pipe with its reader and writer, the last values `pipe_read` and
`pipe_write` returned, and the record of the bytes. -/
structure PipeSys where
  pipe : Pipe
  reader : ReaderPc
  writer : WriterPc
  readRet : Int
  writeRet : Int
  delivered : List UInt8
  counted : List UInt8
  taken : List UInt8
  sent : List UInt8
  pushed : List UInt8

/-- A move of the reader or the writer. -/
inductive PipeAct where
  /-- `pipe_read` for `size` bytes. -/
  | read (size : Int)
  /-- The reader's next round: the test `bytes_read < size`, `pipe_dequeue`,
  the test of its byte. -/
  | readNext
  | closeRead
  /-- `pipe_write` of `src`, the `size` bytes of its buffer (none for
  `size ≤ 0`). -/
  | write (src : List UInt8)
  /-- The writer's next round: the test `bytes_written < size`, `pipe_enqueue`,
  the test of its byte. -/
  | writeNext
  | closeWrite

namespace PipeSys

/-- `pipe_open`: a pipe of capacity 4095 with both ends set. -/
def init (junk : Nat → UInt8) : PipeSys :=
  ⟨{ Pipe.create junk 4095 with readOpen := true, writeOpen := true }, .idle, .idle, 0, 0,
    [], [], [], [], []⟩

/-- `pipe_read` returns the number of bytes it stored before a `0`. -/
def readReturn (S : PipeSys) (got : List UInt8) : PipeSys :=
  { S with reader := .idle, readRet := got.length, delivered := S.delivered ++ got }

/-- `pipe_write` returns the number of bytes it enqueued before a `0`. -/
def writeReturn (S : PipeSys) (put : List UInt8) : PipeSys :=
  { S with writer := .idle, writeRet := put.length, counted := S.counted ++ put }

/-- The reader's round in `pipe_read (pipe, buffer, size)` after `got`. -/
def readNext (S : PipeSys) (size : Int) (got : List UInt8) : Option PipeSys :=
  if got.length < size then do
    let (item, p) ← S.pipe.dequeue
    let S' := { S with pipe := p, taken := if S.pipe.empty then S.taken else S.taken ++ [item] }
    if item = 0 then some (S'.readReturn got)
    else some { S' with reader := .reading size (got ++ [item]) }
  else some (S.readReturn got)

/-- The writer's round in `pipe_write`, `rest` to go after `put`. -/
def writeNext (S : PipeSys) : List UInt8 → List UInt8 → Option PipeSys
  | [], put => some (S.writeReturn put)
  | b :: rest, put => do
    let p ← S.pipe.enqueue b
    let S' := { S with
      pipe := p
      pushed := S.pushed ++ [b]
      sent := if S.pipe.full then S.sent else S.sent ++ [b] }
    if b = 0 then some (S'.writeReturn put)
    else some { S' with writer := .writing rest (put ++ [b]) }

/-- One move; `pipe_close` of an end clears it and signals the other side. -/
def step (S : PipeSys) : PipeAct → Option PipeSys
  | .read size => if S.reader = .idle then some { S with reader := .reading size [] } else none
  | .readNext =>
    match S.reader with
    | .reading size got => S.readNext size got
    | _ => none
  | .closeRead =>
    if S.reader = .idle then
      some { S with reader := .closed, pipe := { S.pipe with readOpen := false } }
    else none
  | .write src => if S.writer = .idle then some { S with writer := .writing src [] } else none
  | .writeNext =>
    match S.writer with
    | .writing rest put => S.writeNext rest put
    | _ => none
  | .closeWrite =>
    if S.writer = .idle then
      some { S with writer := .closed, pipe := { S.pipe with writeOpen := false } }
    else none

variable {S S' : PipeSys} {size : Int} {got : List UInt8}

/-- What holds of every reachable state: the ring is well formed and holds the
bytes sent and not yet taken; the sent bytes are the pushed ones up to the first
drop, and a drop leaves the pipe full with its read end closed; an end is closed
exactly when its thread has closed it; and the bytes each side has counted, in
returned calls and in the call in progress, are the nonzero bytes it moved. -/
structure Inv (S : PipeSys) : Prop where
  wf : S.pipe.WF
  fifo : S.taken ++ S.pipe.contents = S.sent
  sent_prefix : S.sent <+: S.pushed
  dropped : S.sent ≠ S.pushed → S.pipe.readOpen = false ∧ S.pipe.full = true
  reader_closed : S.reader = .closed ↔ S.pipe.readOpen = false
  writer_closed : S.writer = .closed ↔ S.pipe.writeOpen = false
  read_count : S.delivered ++ S.reader.got = S.taken.filter (· != 0)
  write_count : S.counted ++ S.writer.put = S.pushed.filter (· != 0)

theorem inv_init (junk : Nat → UInt8) : Inv (init junk) where
  wf := ⟨by simp [init, Pipe.create], by simp [init, Pipe.create], by simp [init, Pipe.create]⟩
  fifo := by simp [init, Pipe.create, Pipe.contents, Pipe.size, RingBuffer.count, RingBuffer.items]
  sent_prefix := List.prefix_refl _
  dropped := fun h => absurd rfl h
  reader_closed := by simp [init]
  writer_closed := by simp [init]
  read_count := rfl
  write_count := rfl

/-- A reader in `pipe_read` has its end open. -/
theorem Inv.readOpen (hI : Inv S) (hr : S.reader = .reading size got) : S.pipe.readOpen = true := by
  cases hro : S.pipe.readOpen
  · rw [← hI.reader_closed, hr] at hro
    cases hro
  · rfl

/-- While the read end is open nothing has been dropped. -/
theorem Inv.sent_eq (hI : Inv S) (hopen : S.pipe.readOpen = true) : S.sent = S.pushed := by
  by_contra hne
  rw [(hI.dropped hne).1] at hopen
  cases hopen

/-- The return of `pipe_read` keeps the invariant. -/
theorem Inv.readReturn (hI : Inv S) (hr : S.reader = .reading size got) :
    Inv (S.readReturn got) where
  wf := hI.wf
  fifo := hI.fifo
  sent_prefix := hI.sent_prefix
  dropped := hI.dropped
  reader_closed := by simp [PipeSys.readReturn, hI.readOpen hr]
  writer_closed := hI.writer_closed
  read_count := by simpa [PipeSys.readReturn, hr, ReaderPc.got] using hI.read_count
  write_count := hI.write_count

/-- Taking the front byte from the ring keeps the invariant, the byte counted
when it is not `0`. -/
theorem Inv.take (hI : Inv S) (hr : S.reader = .reading size got) (hne : S.pipe.empty = false)
    (item : UInt8) (hitem : item = S.pipe.buffer ((S.pipe.head + 1) % S.pipe.capacity)) :
    Inv { S with
      pipe := { S.pipe with head := (S.pipe.head + 1) % S.pipe.capacity }
      taken := S.taken ++ [item]
      reader := .reading size (got ++ [item].filter (· != 0)) } where
  wf := hI.wf.pop
  fifo := by
    rw [← hI.fifo, Pipe.contents_pop hI.wf hne, hitem, List.append_assoc]
    rfl
  sent_prefix := hI.sent_prefix
  dropped := fun h => absurd (hI.sent_eq (hI.readOpen hr)) h
  reader_closed := by simp [hI.readOpen hr]
  writer_closed := hI.writer_closed
  read_count := by
    have := hI.read_count
    rw [hr] at this
    simp only [ReaderPc.got, List.filter_append] at this ⊢
    rw [← this, List.append_assoc]
  write_count := hI.write_count

/-- The reader's round keeps the invariant. -/
theorem Inv.readNext (hI : Inv S) (hr : S.reader = .reading size got)
    (h : S.readNext size got = some S') : Inv S' := by
  unfold PipeSys.readNext at h
  split at h
  · obtain ⟨⟨item, p⟩, hdq, h⟩ := Option.bind_eq_some_iff.mp h
    rcases Pipe.dequeue_eq_some hdq with ⟨hemp, -, rfl, rfl⟩ | ⟨hne, hitem, rfl⟩
    · -- an empty pipe with its write end closed gives `0` and takes nothing
      simp only [hemp, if_true, Option.some.injEq] at h
      subst h
      exact hI.readReturn hr
    · have htake := hI.take hr hne item hitem
      simp only [hne, Bool.false_eq_true, if_false] at h
      by_cases h0 : item = 0
      · -- a `0` ends the read uncounted
        rw [if_pos h0, Option.some.injEq] at h
        subst h h0
        simp only [List.filter_singleton, bne_self_eq_false, cond_false, List.append_nil] at htake
        exact htake.readReturn rfl
      · rw [if_neg h0, Option.some.injEq] at h
        subst h
        simpa [List.filter_singleton, h0] using htake
  · cases h
    exact hI.readReturn hr

/-- A writer in `pipe_write` has its end open. -/
theorem Inv.writeOpen (hI : Inv S) (hw : S.writer = .writing rest put) :
    S.pipe.writeOpen = true := by
  cases hwo : S.pipe.writeOpen
  · rw [← hI.writer_closed, hw] at hwo
    cases hwo
  · rfl

/-- The return of `pipe_write` keeps the invariant. -/
theorem Inv.writeReturn (hI : Inv S) (hw : S.writer = .writing rest put) :
    Inv (S.writeReturn put) where
  wf := hI.wf
  fifo := hI.fifo
  sent_prefix := hI.sent_prefix
  dropped := hI.dropped
  reader_closed := hI.reader_closed
  writer_closed := by simp [PipeSys.writeReturn, hI.writeOpen hw]
  read_count := hI.read_count
  write_count := by simpa [PipeSys.writeReturn, hw, WriterPc.put] using hI.write_count

/-- Handing a byte to `pipe_enqueue` keeps the invariant, the byte counted when
it is not `0`: it is added to a ring that is not full, and dropped from a full
one whose read end is closed. -/
theorem Inv.push (hI : Inv S) (hw : S.writer = .writing (b :: rest) put) {p : Pipe}
    (hq : S.pipe.enqueue b = some p) :
    Inv { S with
      pipe := p
      pushed := S.pushed ++ [b]
      sent := if S.pipe.full then S.sent else S.sent ++ [b]
      writer := .writing rest (put ++ [b].filter (· != 0)) } := by
  have hcount : S.counted ++ (put ++ [b].filter (· != 0)) = (S.pushed ++ [b]).filter (· != 0) := by
    have := hI.write_count
    rw [hw] at this
    simp only [WriterPc.put] at this
    rw [List.filter_append, ← this, List.append_assoc]
  rcases Pipe.enqueue_eq_some hq with ⟨hf, hro, rfl⟩ | ⟨hnf, rfl⟩
  · -- dropped: the pipe stays full with its read end closed
    simp only [hf, if_true]
    exact {
      wf := hI.wf
      fifo := hI.fifo
      sent_prefix := hI.sent_prefix.trans (List.prefix_append _ _)
      dropped := fun _ => ⟨hro, hf⟩
      reader_closed := hI.reader_closed
      writer_closed := by simp [hI.writeOpen hw]
      read_count := hI.read_count
      write_count := hcount }
  · -- added at the end of the ring; nothing was dropped before, since the
    -- pipe is not full
    have hsent : S.sent = S.pushed := by
      by_contra hne
      rw [(hI.dropped hne).2] at hnf
      cases hnf
    simp only [hnf, Bool.false_eq_true, if_false]
    exact {
      wf := hI.wf.push _
      fifo := by rw [Pipe.contents_push hI.wf hnf, ← List.append_assoc, hI.fifo]
      sent_prefix := by simp only [hsent, List.prefix_refl]
      dropped := fun h => absurd (by rw [hsent]) h
      reader_closed := hI.reader_closed
      writer_closed := by simp [hI.writeOpen hw]
      read_count := hI.read_count
      write_count := hcount }

/-- The writer's round keeps the invariant. -/
theorem Inv.writeNext (hI : Inv S) (hw : S.writer = .writing rest put)
    (h : S.writeNext rest put = some S') : Inv S' := by
  cases rest with
  | nil =>
    cases h
    exact hI.writeReturn hw
  | cons b rest =>
    obtain ⟨p, hq, h⟩ := Option.bind_eq_some_iff.mp h
    have hpush := hI.push hw hq
    by_cases h0 : b = 0
    · -- a `0` ends the write uncounted
      rw [if_pos h0, Option.some.injEq] at h
      subst h h0
      simp only [List.filter_singleton, bne_self_eq_false, cond_false, List.append_nil] at hpush
      exact hpush.writeReturn rfl
    · rw [if_neg h0, Option.some.injEq] at h
      subst h
      simpa [List.filter_singleton, h0] using hpush

/-- What a move can do: start a read, run the reader's round, close the read
end, start a write, run the writer's round, or close the write end, each only
from the state its thread must be in. -/
theorem step_cases {a : PipeAct} (h : S.step a = some S') :
    (∃ size, S.reader = .idle ∧ S' = { S with reader := .reading size [] }) ∨
    (∃ size got, S.reader = .reading size got ∧ S.readNext size got = some S') ∨
    (S.reader = .idle ∧
      S' = { S with reader := .closed, pipe := { S.pipe with readOpen := false } }) ∨
    (∃ src, S.writer = .idle ∧ S' = { S with writer := .writing src [] }) ∨
    (∃ rest put, S.writer = .writing rest put ∧ S.writeNext rest put = some S') ∨
    (S.writer = .idle ∧
      S' = { S with writer := .closed, pipe := { S.pipe with writeOpen := false } }) := by
  cases a with
  | read size =>
    simp only [PipeSys.step] at h
    split at h
    · exact .inl ⟨size, ‹_›, (Option.some.inj h).symm⟩
    · cases h
  | readNext =>
    simp only [PipeSys.step] at h
    split at h
    · exact .inr (.inl ⟨_, _, ‹_›, h⟩)
    · cases h
  | closeRead =>
    simp only [PipeSys.step] at h
    split at h
    · exact .inr (.inr (.inl ⟨‹_›, (Option.some.inj h).symm⟩))
    · cases h
  | write src =>
    simp only [PipeSys.step] at h
    split at h
    · exact .inr (.inr (.inr (.inl ⟨src, ‹_›, (Option.some.inj h).symm⟩)))
    · cases h
  | writeNext =>
    simp only [PipeSys.step] at h
    split at h
    · exact .inr (.inr (.inr (.inr (.inl ⟨_, _, ‹_›, h⟩))))
    · cases h
  | closeWrite =>
    simp only [PipeSys.step] at h
    split at h
    · exact .inr (.inr (.inr (.inr (.inr ⟨‹_›, (Option.some.inj h).symm⟩))))
    · cases h

/-- Every move keeps the invariant. -/
theorem Inv.step (hI : Inv S) {a : PipeAct} (h : S.step a = some S') : Inv S' := by
  rcases step_cases h with ⟨size, hidle, rfl⟩ | ⟨size, got, hr, h⟩ | ⟨hidle, rfl⟩ |
    ⟨src, hidle, rfl⟩ | ⟨rest, put, hw, h⟩ | ⟨hidle, rfl⟩
  · exact { hI with
      reader_closed := by simp [← hI.reader_closed, hidle]
      read_count := by simpa [hidle, ReaderPc.got] using hI.read_count }
  · exact hI.readNext hr h
  · exact { hI with
      wf := ⟨hI.wf.cap_pos, hI.wf.head_lt, hI.wf.tail_lt⟩
      dropped := fun hne => ⟨rfl, (hI.dropped hne).2⟩
      reader_closed := by simp
      read_count := by simpa [hidle, ReaderPc.got] using hI.read_count }
  · exact { hI with
      writer_closed := by simp [← hI.writer_closed, hidle]
      write_count := by simpa [hidle, WriterPc.put] using hI.write_count }
  · exact hI.writeNext hw h
  · exact { hI with
      wf := ⟨hI.wf.cap_pos, hI.wf.head_lt, hI.wf.tail_lt⟩
      writer_closed := by simp
      write_count := by simpa [hidle, WriterPc.put] using hI.write_count }

theorem inv_of_reachable {junk : Nat → UInt8} (h : Lts.Reachable PipeSys.step (init junk) S) :
    Inv S :=
  h.rec_inv (inv_init junk) fun _ _ _ hI hs => hI.step hs

/-- What the reader has counted, in returned calls and in the call in progress,
is a prefix of what the writer has counted: the bytes taken are a prefix of the
bytes sent, which are a prefix of the bytes pushed, and each side counts the
nonzero ones. -/
theorem Inv.read_prefix_write (hI : Inv S) :
    S.delivered ++ S.reader.got <+: S.counted ++ S.writer.put := by
  rw [hI.read_count, hI.write_count]
  exact (List.IsPrefix.trans ⟨_, hI.fifo⟩ hI.sent_prefix).filter _

/-- The ring never holds more than `capacity - 1` bytes. -/
theorem Inv.size_lt (hI : Inv S) : S.pipe.size + 1 ≤ S.pipe.capacity :=
  RingBuffer.count_lt hI.wf.head_lt hI.wf.tail_lt

/-- The reader's round leaves the ring's size alone and the writer's record. -/
theorem readNext_frame (h : S.readNext size got = some S') :
    S'.pipe.capacity = S.pipe.capacity ∧ S'.writer = S.writer ∧ S'.pipe.writeOpen = S.pipe.writeOpen := by
  unfold PipeSys.readNext at h
  split at h
  · obtain ⟨⟨item, p⟩, hdq, h⟩ := Option.bind_eq_some_iff.mp h
    have hp : p.capacity = S.pipe.capacity ∧ p.writeOpen = S.pipe.writeOpen := by
      rcases Pipe.dequeue_eq_some hdq with ⟨-, -, -, rfl⟩ | ⟨-, -, rfl⟩ <;> exact ⟨rfl, rfl⟩
    dsimp only at h
    split at h <;> (cases h; exact ⟨hp.1, rfl, hp.2⟩)
  · cases h
    exact ⟨rfl, rfl, rfl⟩

/-- The writer's round leaves the ring's size alone and the reader's record. -/
theorem writeNext_frame (h : S.writeNext rest put = some S') :
    S'.pipe.capacity = S.pipe.capacity ∧ S'.reader = S.reader ∧ S'.delivered = S.delivered := by
  cases rest with
  | nil =>
    cases h
    exact ⟨rfl, rfl, rfl⟩
  | cons b rest =>
    obtain ⟨p, hq, h⟩ := Option.bind_eq_some_iff.mp h
    have hp : p.capacity = S.pipe.capacity := by
      rcases Pipe.enqueue_eq_some hq with ⟨-, -, rfl⟩ | ⟨-, rfl⟩ <;> rfl
    dsimp only at h
    split at h <;> (cases h; exact ⟨hp, rfl, rfl⟩)

/-- No move changes the ring's size. -/
theorem step_capacity {a : PipeAct} (h : S.step a = some S') :
    S'.pipe.capacity = S.pipe.capacity := by
  rcases step_cases h with ⟨_, -, rfl⟩ | ⟨_, _, -, h⟩ | ⟨-, rfl⟩ | ⟨_, -, rfl⟩ | ⟨_, _, -, h⟩ |
    ⟨-, rfl⟩
  · rfl
  · exact (readNext_frame h).1
  · rfl
  · rfl
  · exact (writeNext_frame h).1
  · rfl

/-- Once the read end is closed the reader counts nothing more: the reader is
done, and no move of the writer touches what it counted. -/
theorem readClosed_preserved (d : List UInt8) :
    Lts.Preserved PipeSys.step (fun S => S.reader = .closed ∧ S.delivered = d) := by
  rintro S a S' ⟨hc, hd⟩ h
  rcases step_cases h with ⟨_, hidle, -⟩ | ⟨_, _, hr, -⟩ | ⟨hidle, -⟩ | ⟨_, -, rfl⟩ |
    ⟨_, _, -, h⟩ | ⟨-, rfl⟩
  -- the reader's own moves need it running
  · rw [hc] at hidle; cases hidle
  · rw [hc] at hr; cases hr
  · rw [hc] at hidle; cases hidle
  -- the writer's leave what the reader counted
  · exact ⟨hc, hd⟩
  · obtain ⟨-, hr, hdel⟩ := writeNext_frame h
    exact ⟨hr.trans hc, hdel.trans hd⟩
  · exact ⟨hc, hd⟩

/-- In a drained pipe whose write end is closed, the reader's round returns what
it has stored: `pipe_dequeue` gives `0` and takes nothing. -/
theorem readNext_drained (he : S.pipe.empty = true) (hw : S.pipe.writeOpen = false) :
    S.readNext size got = some (S.readReturn got) := by
  unfold PipeSys.readNext
  split
  · simp [Pipe.dequeue, he, hw]
  · rfl

/-- A drained pipe whose write end is closed stays so, and the reader counts
nothing more. -/
theorem drained_preserved (c : List UInt8) :
    Lts.Preserved PipeSys.step (fun S => S.writer = .closed ∧ S.pipe.writeOpen = false ∧
      S.pipe.empty = true ∧ S.delivered ++ S.reader.got = c) := by
  rintro S a S' ⟨hwc, hw, he, hc⟩ h
  rcases step_cases h with ⟨_, hidle, rfl⟩ | ⟨size, got, hr, h⟩ | ⟨hidle, rfl⟩ |
    ⟨_, hidle, -⟩ | ⟨_, _, hwr, -⟩ | ⟨hidle, -⟩
  -- the reader's moves take nothing from the drained ring
  · refine ⟨hwc, hw, he, ?_⟩
    simpa [hidle, ReaderPc.got] using hc
  · rw [readNext_drained he hw, Option.some.injEq] at h
    subst h
    refine ⟨hwc, hw, he, ?_⟩
    simpa [PipeSys.readReturn, hr, ReaderPc.got] using hc
  · refine ⟨hwc, hw, he, ?_⟩
    simpa [hidle, ReaderPc.got] using hc
  -- the writer has closed its end and makes no move
  · rw [hwc] at hidle; cases hidle
  · rw [hwc] at hwr; cases hwr
  · rw [hwc] at hidle; cases hidle

/-- `pipe_open` makes a ring of 4096 slots, and no move changes that. -/
theorem capacity_of_reachable {junk : Nat → UInt8} (h : Lts.Reachable PipeSys.step (init junk) S) :
    S.pipe.capacity = 4096 :=
  h.rec_inv (P := fun S => S.pipe.capacity = 4096) rfl fun _ _ _ hc hs => (step_capacity hs).trans hc

/-- The law of the pipe at `S`, the bytes counted by the write in progress
included: what the reader has counted is a prefix of what the writer has
counted; the ring of 4096 slots holds at most 4095 bytes, with its indices
inside it; once the read end is closed no run changes what the reader counted;
and once the write end is closed and the pipe drained, every run keeps it
drained, the reader counts nothing more, and a read that has begun returns 0 at
its first round. -/
def StreamLaw (S : PipeSys) : Prop :=
  S.delivered ++ S.reader.got <+: S.counted ++ S.writer.put ∧
    S.pipe.capacity = 4096 ∧ S.pipe.size ≤ 4095 ∧ S.pipe.head < 4096 ∧ S.pipe.tail < 4096 ∧
    (S.pipe.readOpen = false →
      ∀ as S', Lts.run PipeSys.step S as = some S' → S'.delivered = S.delivered) ∧
    (S.pipe.writeOpen = false → S.pipe.empty = true →
      ∀ as S', Lts.run PipeSys.step S as = some S' →
        S'.pipe.empty = true ∧ S'.delivered ++ S'.reader.got = S.delivered ++ S.reader.got ∧
        ∀ size, S'.reader = .reading size [] →
          ∃ S'', S'.step .readNext = some S'' ∧ S''.readRet = 0 ∧ S''.reader = .idle)

theorem pipe_stream_law (junk : Nat → UInt8) (S : PipeSys)
    (hS : Lts.Reachable PipeSys.step (init junk) S) : StreamLaw S := by
  have hI := inv_of_reachable hS
  have hcap := capacity_of_reachable hS
  refine ⟨hI.read_prefix_write, hcap, ?_, hcap ▸ hI.wf.head_lt, hcap ▸ hI.wf.tail_lt, ?_, ?_⟩
  · have := hI.size_lt
    omega
  · intro hro as S' hrun
    exact ((readClosed_preserved S.delivered).run ⟨hI.reader_closed.mpr hro, rfl⟩ hrun).2
  · intro hwo he as S' hrun
    obtain ⟨-, hw', he', hc'⟩ :=
      (drained_preserved _).run ⟨hI.writer_closed.mpr hwo, hwo, he, rfl⟩ hrun
    refine ⟨he', hc', fun size hr => ⟨S'.readReturn [], ?_, by simp [PipeSys.readReturn], rfl⟩⟩
    simp only [PipeSys.step, hr]
    exact readNext_drained he' hw'

/-- The writer sends `ab` and closes its end; the reader reads both bytes: the
pipe is drained with its write end closed. -/
theorem pipe_stream_law_drained :
    ∃ S, Lts.Reachable PipeSys.step (init fun _ => 0) S ∧ S.delivered = [97, 98] ∧
      S.pipe.writeOpen = false ∧ S.pipe.empty = true ∧ StreamLaw S := by
  have hrun : (Lts.run PipeSys.step (init fun _ => 0)
      [.write [97, 98], .writeNext, .writeNext, .writeNext, .closeWrite, .read 2, .readNext,
        .readNext, .readNext]).map
      (fun S => decide (S.delivered = [97, 98] ∧ S.pipe.writeOpen = false ∧ S.pipe.empty = true)) =
      some true := by
    decide +kernel
  obtain ⟨S, hS, hd, hw, he⟩ := Lts.exists_reachable_of_run_decide _ hrun
  exact ⟨S, hS, hd, hw, he, pipe_stream_law _ _ hS⟩

/-- A read can count a byte of a write that has not returned: `pipe_write` of
`ab` enqueues `a`, and a `pipe_read` of one byte takes it and returns 1 while
the write is still in its loop. -/
theorem read_counts_unreturned_write :
    ∃ S, Lts.Reachable PipeSys.step (init fun _ => 0) S ∧ ¬ S.delivered <+: S.counted :=
  Lts.exists_reachable_of_run_decide [.write [97, 98], .writeNext, .read 1, .readNext, .readNext]
    (by decide +kernel)

end PipeSys

end Pintos.Filesys

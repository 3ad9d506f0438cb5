import Mathlib
import Pintos.Lib.Reach
import Pintos.Lib.RingBuffer

/-!
# The interrupt queue (`devices/intq.c`)

An interrupt queue is a ring of `INTQ_BUFSIZE` bytes shared between kernel
threads and interrupt handlers, as a monitor under its spinlock: `head` is
where the next byte is written and `tail` where the next one is read, so it is
empty when they meet and full one slot earlier. A thread that finds the queue
empty in `intq_getc` records itself in `not_empty` and blocks (`wait`); the
next `intq_putc` wakes it (`signal`), and it tests the queue again. `intq_putc`
waits on `not_full` the same way. Interrupt handlers call the same functions
on a queue that is not empty, or not full, and never wait.

`IntqSys` is the queue with the position of every thread in this protocol, and
`intqStep` runs one thread's pass under the lock, or one interrupt handler's
call. Along every interleaving:

* the bytes read, in order, followed by the bytes still queued, are the bytes
  written, in order (`intq_fifo`), and the ring holds at most 63 of them
  (`length_intqItems_lt`);
* a thread recorded in `not_empty` is blocked in `intq_getc` on an empty queue,
  and one recorded in `not_full` is blocked in `intq_putc` on a full one
  (`intqInv_of_reachable`), so `signal` only wakes threads that wait;
* when only one thread ever reads (or only one ever writes), that thread is
  never blocked without being the recorded waiter, so the next write (read)
  wakes it (`intq_single_waiter`). Two readers break this: the second `wait`
  overwrites the first one's record.
-/

namespace Pintos.Devices

/-- `INTQ_BUFSIZE`. -/
def intqBufsize : Nat := 64

/-- `next (pos)`: the position after `pos`. -/
def nextPos (pos : Nat) : Nat := (pos + 1) % intqBufsize

/-- `struct intq`: the threads waiting for the queue to be not full and not
empty, the buffer, `head`, where new data is written, and `tail`, where old
data is read. -/
structure Intq where
  notFull : Option Nat
  notEmpty : Option Nat
  buf : Nat → UInt8
  head : Nat
  tail : Nat

/-- `intq_init (q)`: no waiters and `head = tail = 0`; the buffer holds what
was in memory. -/
def intqInit (buf : Nat → UInt8) : Intq := ⟨none, none, buf, 0, 0⟩

/-- `intq_empty (q)`. -/
def intqEmpty (q : Intq) : Bool := q.head == q.tail

/-- `intq_full (q)`. -/
def intqFull (q : Intq) : Bool := nextPos q.head == q.tail

/-- The two waiter slots: `&q->not_full` and `&q->not_empty`. -/
inductive IntqWaiter where
  | notFull
  | notEmpty
deriving DecidableEq

/-- The thread a waiter slot holds. -/
def Intq.waiter (q : Intq) : IntqWaiter → Option Nat
  | .notFull => q.notFull
  | .notEmpty => q.notEmpty

/-- A store to a waiter slot. -/
def Intq.setWaiter (q : Intq) : IntqWaiter → Option Nat → Intq
  | .notFull, t => { q with notFull := t }
  | .notEmpty, t => { q with notEmpty := t }

/-- Where a thread is in the queue's protocol. A woken thread is ready to test
the queue again. -/
inductive IntqPc where
  | idle
  | getcBlocked
  | getcReady
  | putcBlocked (byte : UInt8)
  | putcReady (byte : UInt8)
deriving DecidableEq

/-- `thread_unblock`: a blocked thread becomes ready. -/
def IntqPc.unblock : IntqPc → IntqPc
  | .getcBlocked => .getcReady
  | .putcBlocked byte => .putcReady byte
  | pc => pc

/-- The queue and the threads that use it. -/
structure IntqSys where
  q : Intq
  pc : Nat → IntqPc

/-- Thread `t` moves to `pc`. -/
def IntqSys.setPc (S : IntqSys) (t : Nat) (pc : IntqPc) : IntqSys :=
  ⟨S.q, Function.update S.pc t pc⟩

/-- `wait (q, waiter)` by thread `t`: it records itself and blocks at `blocked`. -/
def wait (S : IntqSys) (w : IntqWaiter) (t : Nat) (blocked : IntqPc) : IntqSys :=
  ⟨S.q.setWaiter w (some t), Function.update S.pc t blocked⟩

/-- `signal (q, waiter)`: the recorded thread, if any, is woken and the record
cleared. -/
def signal (S : IntqSys) (w : IntqWaiter) : IntqSys :=
  match S.q.waiter w with
  | some t => ⟨S.q.setWaiter w none, Function.update S.pc t (S.pc t).unblock⟩
  | none => S

/-- The end of `intq_getc`, past its loop: `tail` advanced past the byte it
reads, and `not_full` signalled. -/
def IntqSys.take (S : IntqSys) : IntqSys :=
  signal ⟨{ S.q with tail := nextPos S.q.tail }, S.pc⟩ .notFull

/-- The end of `intq_putc`, past its loop: `byte` stored at `head`, `head`
advanced, and `not_empty` signalled. -/
def IntqSys.give (S : IntqSys) (byte : UInt8) : IntqSys :=
  signal ⟨{ S.q with buf := Bytes.update S.q.buf S.q.head byte, head := nextPos S.q.head }, S.pc⟩
    .notEmpty

/-- One pass of `intq_getc` by thread `t` from its loop test: it waits on
`not_empty`, or returns the byte at `tail`. -/
def intqGetc (S : IntqSys) (t : Nat) : IntqSys × Option UInt8 :=
  if intqEmpty S.q then (wait S .notEmpty t .getcBlocked, none)
  else (S.take.setPc t .idle, some (S.q.buf S.q.tail))

/-- One pass of `intq_putc` by thread `t` from its loop test: it waits on
`not_full`, or stores `byte` and returns. -/
def intqPutc (S : IntqSys) (t : Nat) (byte : UInt8) : IntqSys × Bool :=
  if intqFull S.q then (wait S .notFull t (.putcBlocked byte), false)
  else ((S.give byte).setPc t .idle, true)

/-- A pass of a thread or a call of an interrupt handler, with what it returns:
for a thread's `getc` the byte or `none` when it waits, for its `putc` whether
it stored the byte. -/
inductive IntqEvent where
  | getc (t : Nat) (byte : Option UInt8)
  | putc (t : Nat) (byte : UInt8) (done : Bool)
  | irqGetc (byte : UInt8)
  | irqPutc (byte : UInt8)

/-- One event. A thread runs `intq_getc` when it is idle or was woken from it,
and likewise `intq_putc`; an interrupt handler's call asserts that it will not
wait, so it is only taken on a queue that is not empty, or not full. -/
def intqStep (S : IntqSys) : IntqEvent → Option IntqSys
  | .getc t byte =>
    if S.pc t = .idle ∨ S.pc t = .getcReady then
      if (intqGetc S t).2 = byte then some (intqGetc S t).1 else none
    else none
  | .putc t byte done =>
    if S.pc t = .idle ∨ S.pc t = .putcReady byte then
      if (intqPutc S t byte).2 = done then some (intqPutc S t byte).1 else none
    else none
  | .irqGetc byte =>
    if intqEmpty S.q then none
    else if S.q.buf S.q.tail = byte then some S.take else none
  | .irqPutc byte => if intqFull S.q then none else some (S.give byte)

/-- A fresh queue and idle threads. -/
def intqSysInit (buf : Nat → UInt8) : IntqSys := ⟨intqInit buf, fun _ => .idle⟩

/-- The bytes events read. -/
def readBytes : List IntqEvent → List UInt8
  | [] => []
  | .getc _ (some byte) :: evs => byte :: readBytes evs
  | .irqGetc byte :: evs => byte :: readBytes evs
  | _ :: evs => readBytes evs

/-- The bytes events write. -/
def writtenBytes : List IntqEvent → List UInt8
  | [] => []
  | .putc _ byte true :: evs => byte :: writtenBytes evs
  | .irqPutc byte :: evs => byte :: writtenBytes evs
  | _ :: evs => writtenBytes evs

/-! ## What a step does -/

section Steps

variable {S S' : IntqSys} {w : IntqWaiter}

@[simp] theorem Intq.waiter_notEmpty (q : Intq) : q.waiter .notEmpty = q.notEmpty := rfl

@[simp] theorem Intq.waiter_notFull (q : Intq) : q.waiter .notFull = q.notFull := rfl

@[simp] theorem Intq.waiter_setWaiter (q : Intq) (w : IntqWaiter) (t : Option Nat) :
    (q.setWaiter w t).waiter w = t := by
  cases w <;> rfl

theorem Intq.waiter_setWaiter_ne (q : Intq) {w w' : IntqWaiter} (h : w ≠ w') (t : Option Nat) :
    (q.setWaiter w t).waiter w' = q.waiter w' := by
  cases w <;> cases w' <;> simp_all [Intq.setWaiter, Intq.waiter]

@[simp] theorem Intq.setWaiter_buf (q : Intq) (w : IntqWaiter) (t : Option Nat) :
    (q.setWaiter w t).buf = q.buf := by
  cases w <;> rfl

@[simp] theorem Intq.setWaiter_head (q : Intq) (w : IntqWaiter) (t : Option Nat) :
    (q.setWaiter w t).head = q.head := by
  cases w <;> rfl

@[simp] theorem Intq.setWaiter_tail (q : Intq) (w : IntqWaiter) (t : Option Nat) :
    (q.setWaiter w t).tail = q.tail := by
  cases w <;> rfl

/-- What `signal` does: nothing without a record; else it wakes the recorded
thread, clears the record and keeps the ring. -/
theorem signal_cases (S : IntqSys) (w : IntqWaiter) :
    (S.q.waiter w = none ∧ signal S w = S) ∨
      ∃ t, S.q.waiter w = some t ∧
        signal S w = ⟨S.q.setWaiter w none, Function.update S.pc t (S.pc t).unblock⟩ := by
  unfold signal
  cases h : S.q.waiter w with
  | none => exact .inl ⟨rfl, rfl⟩
  | some t => exact .inr ⟨t, rfl, rfl⟩

@[simp] theorem signal_buf (S : IntqSys) (w : IntqWaiter) : (signal S w).q.buf = S.q.buf := by
  rcases signal_cases S w with ⟨-, h⟩ | ⟨t, -, h⟩ <;> simp [h]

@[simp] theorem signal_head (S : IntqSys) (w : IntqWaiter) : (signal S w).q.head = S.q.head := by
  rcases signal_cases S w with ⟨-, h⟩ | ⟨t, -, h⟩ <;> simp [h]

@[simp] theorem signal_tail (S : IntqSys) (w : IntqWaiter) : (signal S w).q.tail = S.q.tail := by
  rcases signal_cases S w with ⟨-, h⟩ | ⟨t, -, h⟩ <;> simp [h]

@[simp] theorem signal_waiter_self (S : IntqSys) (w : IntqWaiter) : (signal S w).q.waiter w = none := by
  rcases signal_cases S w with ⟨hn, h⟩ | ⟨t, -, h⟩
  · rw [h]
    exact hn
  · simp [h]

theorem signal_waiter_ne (S : IntqSys) {w w' : IntqWaiter} (hw : w ≠ w') :
    (signal S w).q.waiter w' = S.q.waiter w' := by
  rcases signal_cases S w with ⟨-, h⟩ | ⟨t, -, h⟩ <;> rw [h]
  exact Intq.waiter_setWaiter_ne _ hw _

/-- `signal` changes only the pc of the thread it wakes. -/
theorem signal_pc_of_ne (S : IntqSys) (w : IntqWaiter) {u : Nat} (hu : S.q.waiter w ≠ some u) :
    (signal S w).pc u = S.pc u := by
  rcases signal_cases S w with ⟨-, h⟩ | ⟨t, ht, h⟩ <;> rw [h]
  have hne : u ≠ t := fun h => hu (h ▸ ht)
  exact Function.update_of_ne hne _ _

theorem signal_pc_self (S : IntqSys) (w : IntqWaiter) {t : Nat} (ht : S.q.waiter w = some t) :
    (signal S w).pc t = (S.pc t).unblock := by
  unfold signal
  rw [ht]
  exact Function.update_self _ _ _

end Steps

/-! ## The ring holds the queued bytes -/

section Ring

/-- The slot before `p`: the ring's head in `RingBuffer`'s convention, where
items start one slot after it. -/
def before (p : Nat) : Nat := (p + intqBufsize - 1) % intqBufsize

/-- The queued bytes, oldest first. -/
def intqItems (q : Intq) : List UInt8 :=
  RingBuffer.items q.buf intqBufsize (before q.tail)
    (RingBuffer.count intqBufsize (before q.tail) (before q.head))

theorem before_lt (p : Nat) : before p < intqBufsize := Nat.mod_lt _ (by decide)

theorem succ_before {p : Nat} (hp : p < intqBufsize) : (before p + 1) % intqBufsize = p := by
  unfold before intqBufsize at *
  omega

theorem before_nextPos {p : Nat} (hp : p < intqBufsize) : before (nextPos p) = p := by
  unfold before nextPos intqBufsize at *
  omega

theorem intqEmpty_iff {q : Intq} (hh : q.head < intqBufsize) (ht : q.tail < intqBufsize) :
    intqEmpty q = true ↔ before q.tail = before q.head := by
  unfold intqEmpty before intqBufsize at *
  simp only [beq_iff_eq]
  omega

theorem intqFull_iff {q : Intq} (hh : q.head < intqBufsize) (ht : q.tail < intqBufsize) :
    intqFull q = true ↔ before q.tail = (before q.head + 1) % intqBufsize := by
  unfold intqFull nextPos before intqBufsize at *
  simp only [beq_iff_eq]
  omega

theorem length_intqItems_lt {q : Intq} : (intqItems q).length < intqBufsize := by
  rw [intqItems, RingBuffer.length_items]
  exact RingBuffer.count_lt (before_lt _) (before_lt _)

/-- Taking from a queue that is not empty pops its oldest byte, the one at `tail`. -/
theorem intqItems_take {S : IntqSys} (hh : S.q.head < intqBufsize) (ht : S.q.tail < intqBufsize)
    (hne : intqEmpty S.q = false) : intqItems S.q = S.q.buf S.q.tail :: intqItems S.take.q := by
  have hne' : before S.q.tail ≠ before S.q.head := by
    intro h
    rw [← intqEmpty_iff hh ht] at h
    rw [h] at hne
    cases hne
  unfold intqItems
  rw [RingBuffer.items_count_pop _ (before_lt _) (before_lt _) hne', succ_before ht]
  simp [IntqSys.take, before_nextPos ht]

/-- Giving to a queue that is not full appends the byte. -/
theorem intqItems_give {S : IntqSys} (hh : S.q.head < intqBufsize) (ht : S.q.tail < intqBufsize)
    (hnf : intqFull S.q = false) (byte : UInt8) :
    intqItems (S.give byte).q = intqItems S.q ++ [byte] := by
  have hnf' : before S.q.tail ≠ (before S.q.head + 1) % intqBufsize := by
    intro h
    rw [← intqFull_iff hh ht] at h
    rw [h] at hnf
    cases hnf
  have hpush := RingBuffer.items_count_push S.q.buf byte (before_lt _) (before_lt _) hnf'
  rw [succ_before hh] at hpush
  simp only [intqItems, IntqSys.give, signal_buf, signal_head, signal_tail, before_nextPos hh]
  exact hpush

end Ring

/-! ## The invariant -/

/-- The ring's indices are in range, and a recorded waiter is blocked on the
condition it waits for, which is false. -/
structure IntqInv (S : IntqSys) : Prop where
  head_lt : S.q.head < intqBufsize
  tail_lt : S.q.tail < intqBufsize
  notEmpty_waits : ∀ t, S.q.notEmpty = some t → S.pc t = .getcBlocked ∧ intqEmpty S.q = true
  notFull_waits : ∀ t, S.q.notFull = some t →
    (∃ byte, S.pc t = .putcBlocked byte) ∧ intqFull S.q = true

section Inv

variable {S S' : IntqSys}

theorem intqInv_init (buf : Nat → UInt8) : IntqInv (intqSysInit buf) where
  head_lt := show 0 < 64 by decide
  tail_lt := show 0 < 64 by decide
  notEmpty_waits := fun _ h => by cases h
  notFull_waits := fun _ h => by cases h

theorem nextPos_lt (p : Nat) : nextPos p < intqBufsize := Nat.mod_lt _ (by decide)

/-- A queue that was not empty is not full once a byte is taken from it. -/
theorem intqFull_take (hi : IntqInv S) (hne : intqEmpty S.q = false) :
    intqFull S.take.q = false := by
  have hh := hi.head_lt
  have ht := hi.tail_lt
  simp only [intqEmpty, intqFull, IntqSys.take, signal_head, signal_tail, nextPos, intqBufsize,
    beq_eq_false_iff_ne, ne_eq] at hh ht hne ⊢
  omega

/-- A queue that was not full is not empty once a byte is given to it. -/
theorem intqEmpty_give (hi : IntqInv S) (hnf : intqFull S.q = false) (byte : UInt8) :
    intqEmpty (S.give byte).q = false := by
  have hh := hi.head_lt
  have ht := hi.tail_lt
  simp only [intqEmpty, intqFull, IntqSys.give, signal_head, signal_tail, nextPos, intqBufsize,
    beq_eq_false_iff_ne, ne_eq] at hh ht hnf ⊢
  omega

@[simp] theorem wait_q_buf (S : IntqSys) (w : IntqWaiter) (t : Nat) (pc : IntqPc) :
    (wait S w t pc).q.buf = S.q.buf := by
  simp [wait]

@[simp] theorem wait_q_head (S : IntqSys) (w : IntqWaiter) (t : Nat) (pc : IntqPc) :
    (wait S w t pc).q.head = S.q.head := by
  simp [wait]

@[simp] theorem wait_q_tail (S : IntqSys) (w : IntqWaiter) (t : Nat) (pc : IntqPc) :
    (wait S w t pc).q.tail = S.q.tail := by
  simp [wait]

/-- What one event can do: a thread waits on an empty (full) queue, or takes
(gives) a byte and returns; an interrupt handler takes or gives a byte. -/
theorem intqStep_cases {e : IntqEvent} (h : intqStep S e = some S') :
    (∃ t, e = .getc t none ∧ (S.pc t = .idle ∨ S.pc t = .getcReady) ∧
      intqEmpty S.q = true ∧ S' = wait S .notEmpty t .getcBlocked) ∨
    (∃ t, e = .getc t (some (S.q.buf S.q.tail)) ∧ (S.pc t = .idle ∨ S.pc t = .getcReady) ∧
      intqEmpty S.q = false ∧ S' = S.take.setPc t .idle) ∨
    (∃ t byte, e = .putc t byte false ∧ (S.pc t = .idle ∨ S.pc t = .putcReady byte) ∧
      intqFull S.q = true ∧ S' = wait S .notFull t (.putcBlocked byte)) ∨
    (∃ t byte, e = .putc t byte true ∧ (S.pc t = .idle ∨ S.pc t = .putcReady byte) ∧
      intqFull S.q = false ∧ S' = (S.give byte).setPc t .idle) ∨
    (e = .irqGetc (S.q.buf S.q.tail) ∧ intqEmpty S.q = false ∧ S' = S.take) ∨
    (∃ byte, e = .irqPutc byte ∧ intqFull S.q = false ∧ S' = S.give byte) := by
  cases e with
  | getc t byte =>
    simp only [intqStep, intqGetc] at h
    split at h
    · rename_i hpc
      cases hE : intqEmpty S.q
      · simp only [hE, Bool.false_eq_true, if_false] at h
        split at h
        · rename_i hb
          cases h
          exact .inr (.inl ⟨t, by rw [← hb], hpc, rfl, rfl⟩)
        · cases h
      · simp only [hE, if_true] at h
        split at h
        · rename_i hb
          cases h
          exact .inl ⟨t, by rw [← hb], hpc, rfl, rfl⟩
        · cases h
    · cases h
  | putc t byte done =>
    simp only [intqStep, intqPutc] at h
    split at h
    · rename_i hpc
      cases hF : intqFull S.q
      · simp only [hF, Bool.false_eq_true, if_false] at h
        split at h
        · rename_i hd
          cases h
          exact .inr (.inr (.inr (.inl ⟨t, byte, by rw [← hd], hpc, rfl, rfl⟩)))
        · cases h
      · simp only [hF, if_true] at h
        split at h
        · rename_i hd
          cases h
          exact .inr (.inr (.inl ⟨t, byte, by rw [← hd], hpc, rfl, rfl⟩))
        · cases h
    · cases h
  | irqGetc byte =>
    simp only [intqStep] at h
    split at h
    · cases h
    · split at h
      · rename_i hE hb
        cases h
        exact .inr (.inr (.inr (.inr (.inl ⟨by rw [hb], by simpa using hE, rfl⟩))))
      · cases h
  | irqPutc byte =>
    simp only [intqStep] at h
    split at h
    · cases h
    · rename_i hF
      cases h
      exact .inr (.inr (.inr (.inr (.inr ⟨byte, rfl, by simpa using hF, rfl⟩))))

/-- A state without recorded waiters and with indices in range keeps the
invariant. -/
theorem IntqInv.of_no_waiters (hh : S.q.head < intqBufsize) (ht : S.q.tail < intqBufsize)
    (hne : S.q.notEmpty = none) (hnf : S.q.notFull = none) : IntqInv S where
  head_lt := hh
  tail_lt := ht
  notEmpty_waits := fun _ h => by rw [hne] at h; cases h
  notFull_waits := fun _ h => by rw [hnf] at h; cases h

/-- A queue with a byte in it has no thread recorded as waiting for one. -/
theorem IntqInv.notEmpty_eq_none (hi : IntqInv S) (hE : intqEmpty S.q = false) :
    S.q.notEmpty = none := by
  cases h : S.q.notEmpty with
  | none => rfl
  | some u =>
    have := (hi.notEmpty_waits u h).2
    rw [hE] at this
    cases this

/-- A queue with a free slot has no thread recorded as waiting for one. -/
theorem IntqInv.notFull_eq_none (hi : IntqInv S) (hF : intqFull S.q = false) :
    S.q.notFull = none := by
  cases h : S.q.notFull with
  | none => rfl
  | some u =>
    have := (hi.notFull_waits u h).2
    rw [hF] at this
    cases this

@[simp] theorem take_notFull (S : IntqSys) : S.take.q.notFull = none :=
  signal_waiter_self _ .notFull

@[simp] theorem take_notEmpty (S : IntqSys) : S.take.q.notEmpty = S.q.notEmpty :=
  signal_waiter_ne _ (show IntqWaiter.notFull ≠ .notEmpty by decide)

@[simp] theorem take_head (S : IntqSys) : S.take.q.head = S.q.head := signal_head _ _

@[simp] theorem take_tail (S : IntqSys) : S.take.q.tail = nextPos S.q.tail := signal_tail _ _

@[simp] theorem give_notEmpty (S : IntqSys) (byte : UInt8) : (S.give byte).q.notEmpty = none :=
  signal_waiter_self _ .notEmpty

@[simp] theorem give_notFull (S : IntqSys) (byte : UInt8) :
    (S.give byte).q.notFull = S.q.notFull :=
  signal_waiter_ne _ (show IntqWaiter.notEmpty ≠ .notFull by decide)

@[simp] theorem give_head (S : IntqSys) (byte : UInt8) : (S.give byte).q.head = nextPos S.q.head :=
  signal_head _ _

@[simp] theorem give_tail (S : IntqSys) (byte : UInt8) : (S.give byte).q.tail = S.q.tail :=
  signal_tail _ _

theorem IntqInv.take (hi : IntqInv S) (hE : intqEmpty S.q = false) : IntqInv S.take :=
  IntqInv.of_no_waiters (by simpa using hi.head_lt) (by simpa using nextPos_lt S.q.tail)
    (by simpa using hi.notEmpty_eq_none hE) (take_notFull S)

theorem IntqInv.give (hi : IntqInv S) (hF : intqFull S.q = false) (byte : UInt8) :
    IntqInv (S.give byte) :=
  IntqInv.of_no_waiters (by simpa using nextPos_lt S.q.head) (by simpa using hi.tail_lt)
    (give_notEmpty S byte) (by simpa using hi.notFull_eq_none hF)

theorem IntqInv.setPc_of_no_waiters (hi : IntqInv S) (hne : S.q.notEmpty = none)
    (hnf : S.q.notFull = none) (t : Nat) (pc : IntqPc) : IntqInv (S.setPc t pc) :=
  IntqInv.of_no_waiters hi.head_lt hi.tail_lt hne hnf

/-- A thread that waits records itself on a queue whose condition is false; the
other slot names a thread blocked in the other call, so not this one. -/
theorem IntqInv.wait_notEmpty (hi : IntqInv S) {t : Nat}
    (hpc : S.pc t = .idle ∨ S.pc t = .getcReady) (hE : intqEmpty S.q = true) :
    IntqInv (wait S .notEmpty t .getcBlocked) where
  head_lt := by simpa using hi.head_lt
  tail_lt := by simpa using hi.tail_lt
  notEmpty_waits u h := by
    have hu : u = t := by simpa [wait, Intq.setWaiter] using h.symm
    subst hu
    exact ⟨Function.update_self _ _ _, by simpa [intqEmpty, wait] using hE⟩
  notFull_waits u h := by
    obtain ⟨⟨byte, hb⟩, hfull⟩ := hi.notFull_waits u (by simpa [wait, Intq.setWaiter] using h)
    have hne : u ≠ t := by
      rintro rfl
      rcases hpc with hpc | hpc <;> rw [hpc] at hb <;> cases hb
    refine ⟨⟨byte, ?_⟩, by simpa [intqFull, wait] using hfull⟩
    simpa [wait, Function.update_of_ne hne] using hb

theorem IntqInv.wait_notFull (hi : IntqInv S) {t : Nat} {byte : UInt8}
    (hpc : S.pc t = .idle ∨ S.pc t = .putcReady byte) (hF : intqFull S.q = true) :
    IntqInv (wait S .notFull t (.putcBlocked byte)) where
  head_lt := by simpa using hi.head_lt
  tail_lt := by simpa using hi.tail_lt
  notEmpty_waits u h := by
    obtain ⟨hb, hempty⟩ := hi.notEmpty_waits u (by simpa [wait, Intq.setWaiter] using h)
    have hne : u ≠ t := by
      rintro rfl
      rcases hpc with hpc | hpc <;> rw [hpc] at hb <;> cases hb
    refine ⟨?_, by simpa [intqEmpty, wait] using hempty⟩
    simpa [wait, Function.update_of_ne hne] using hb
  notFull_waits u h := by
    have hu : u = t := by simpa [wait, Intq.setWaiter] using h.symm
    subst hu
    exact ⟨⟨byte, Function.update_self _ _ _⟩, by simpa [intqFull, wait] using hF⟩

/-- **One step keeps the invariant.** -/
theorem IntqInv.step (hi : IntqInv S) {e : IntqEvent} (h : intqStep S e = some S') :
    IntqInv S' := by
  rcases intqStep_cases h with ⟨t, -, hpc, hE, rfl⟩ | ⟨t, -, -, hE, rfl⟩ |
    ⟨t, byte, -, hpc, hF, rfl⟩ | ⟨t, byte, -, -, hF, rfl⟩ | ⟨-, hE, rfl⟩ | ⟨byte, -, hF, rfl⟩
  · exact hi.wait_notEmpty hpc hE
  · exact (hi.take hE).setPc_of_no_waiters (by simpa using hi.notEmpty_eq_none hE)
      (take_notFull S) t .idle
  · exact hi.wait_notFull hpc hF
  · exact (hi.give hF byte).setPc_of_no_waiters (give_notEmpty S byte)
      (by simpa using hi.notFull_eq_none hF) t .idle
  · exact hi.take hE
  · exact hi.give hF byte

/-- **The waiter invariant.** In every state reached from `intq_init` by any
interleaving of threads and interrupt handlers, the indices are in range, a
thread recorded in `not_empty` is blocked in `intq_getc` on an empty queue, and
one recorded in `not_full` is blocked in `intq_putc` on a full one. -/
theorem intqInv_of_reachable {buf : Nat → UInt8} {S : IntqSys}
    (h : Lts.Reachable intqStep (intqSysInit buf) S) : IntqInv S :=
  h.rec_inv (intqInv_init buf) fun _ _ _ hi hs => hi.step hs

theorem intqInv_of_reachable_waiting :
    ∃ S, Lts.Reachable intqStep (intqSysInit fun _ => 0) S ∧ S.q.notEmpty = some 1 ∧
      IntqInv S :=
  have hrun : Lts.run intqStep (intqSysInit fun _ => 0) [.getc 1 none] =
      some (wait (intqSysInit fun _ => 0) .notEmpty 1 .getcBlocked) := rfl
  ⟨_, Lts.reachable_of_run hrun, rfl, intqInv_of_reachable (Lts.reachable_of_run hrun)⟩

end Inv

/-! ## Bytes come out in the order they went in -/

section Fifo

variable {S S' : IntqSys}

theorem readBytes_cons (e : IntqEvent) (evs : List IntqEvent) :
    readBytes (e :: evs) = readBytes [e] ++ readBytes evs := by
  cases e with
  | getc t byte => cases byte <;> rfl
  | putc t byte done => rfl
  | irqGetc byte => rfl
  | irqPutc byte => rfl

theorem writtenBytes_cons (e : IntqEvent) (evs : List IntqEvent) :
    writtenBytes (e :: evs) = writtenBytes [e] ++ writtenBytes evs := by
  cases e with
  | getc t byte => rfl
  | putc t byte done => cases done <;> rfl
  | irqGetc byte => rfl
  | irqPutc byte => rfl

theorem intqItems_wait (S : IntqSys) (w : IntqWaiter) (t : Nat) (pc : IntqPc) :
    intqItems (wait S w t pc).q = intqItems S.q := by
  simp [intqItems]

/-- What one event does to the queued bytes: a read takes the oldest, a write
appends, and a wait changes nothing. -/
theorem intqItems_step (hi : IntqInv S) {e : IntqEvent} (h : intqStep S e = some S') :
    readBytes [e] ++ intqItems S'.q = intqItems S.q ++ writtenBytes [e] := by
  rcases intqStep_cases h with ⟨t, rfl, -, -, rfl⟩ | ⟨t, rfl, -, hE, rfl⟩ |
    ⟨t, byte, rfl, -, -, rfl⟩ | ⟨t, byte, rfl, -, hF, rfl⟩ | ⟨rfl, hE, rfl⟩ | ⟨byte, rfl, hF, rfl⟩
  · simp [readBytes, writtenBytes, intqItems_wait]
  · rw [intqItems_take hi.head_lt hi.tail_lt hE]
    simp [readBytes, writtenBytes, IntqSys.setPc]
  · simp [readBytes, writtenBytes, intqItems_wait]
  · exact intqItems_give hi.head_lt hi.tail_lt hF byte
  · rw [intqItems_take hi.head_lt hi.tail_lt hE]
    simp [readBytes, writtenBytes]
  · exact intqItems_give hi.head_lt hi.tail_lt hF byte

/-- Along a run, the bytes read followed by those left are the bytes there at
the start followed by those written. -/
theorem intqItems_run :
    ∀ {evs : List IntqEvent} {S S' : IntqSys}, IntqInv S → Lts.run intqStep S evs = some S' →
      readBytes evs ++ intqItems S'.q = intqItems S.q ++ writtenBytes evs
  | [], S, S', _, h => by
    simp only [Lts.run_nil, Option.some.injEq] at h
    subst h
    simp [readBytes, writtenBytes]
  | e :: evs, S, S', hi, h => by
    rw [Lts.run_cons] at h
    obtain ⟨S₁, h₁, hrest⟩ := Option.bind_eq_some_iff.mp h
    have hstep := intqItems_step hi h₁
    have hrun := intqItems_run (hi.step h₁) hrest
    rw [readBytes_cons, writtenBytes_cons, List.append_assoc, hrun, ← List.append_assoc, hstep,
      List.append_assoc]

theorem intqItems_init (buf : Nat → UInt8) : intqItems (intqSysInit buf).q = [] := by
  have hcount : RingBuffer.count intqBufsize (before 0) (before 0) = 0 := by decide
  simp only [intqItems, intqSysInit, intqInit, hcount]
  rfl

/-- **FIFO.** Along every interleaving of threads and interrupt handlers from
`intq_init`, the bytes read, in order, followed by the bytes still queued, are
the bytes written, in order: none is lost, duplicated or reordered. -/
theorem intq_fifo {buf : Nat → UInt8} {evs : List IntqEvent} {S : IntqSys}
    (hrun : Lts.run intqStep (intqSysInit buf) evs = some S) :
    readBytes evs ++ intqItems S.q = writtenBytes evs := by
  rw [intqItems_run (intqInv_init buf) hrun, intqItems_init, List.nil_append]

theorem intq_fifo_wakeup :
    Lts.run intqStep (intqSysInit fun _ => 0)
        [.getc 1 none, .irqPutc 7, .irqPutc 8, .getc 1 (some 7)] =
      some ((((wait (intqSysInit fun _ => 0) .notEmpty 1 .getcBlocked).give 7).give 8).take.setPc
        1 .idle) ∧
    readBytes [.getc 1 none, .irqPutc 7, .irqPutc 8, .getc 1 (some 7)] ++
        intqItems ((((wait (intqSysInit fun _ => 0) .notEmpty 1 .getcBlocked).give 7).give 8).take.setPc
          1 .idle).q =
      writtenBytes [.getc 1 none, .irqPutc 7, .irqPutc 8, .getc 1 (some 7)] :=
  ⟨rfl, intq_fifo rfl⟩

end Fifo

/-! ## A single reader (or writer) is never forgotten -/

/-- The waiter slot a thread's event may wait on, and the thread. -/
def IntqEvent.user : IntqEvent → Option (IntqWaiter × Nat)
  | .getc t _ => some (.notEmpty, t)
  | .putc t _ _ => some (.notFull, t)
  | .irqGetc _ => none
  | .irqPutc _ => none

/-- The slot a thread inside a call may wait on. -/
def IntqPc.side : IntqPc → Option IntqWaiter
  | .idle => none
  | .getcBlocked => some .notEmpty
  | .getcReady => some .notEmpty
  | .putcBlocked _ => some .notFull
  | .putcReady _ => some .notFull

/-- The slot a blocked thread waits on. -/
def IntqPc.blockedOn : IntqPc → Option IntqWaiter
  | .getcBlocked => some .notEmpty
  | .putcBlocked _ => some .notFull
  | _ => none

/-- What keeps a blocked waiter's condition false. -/
def IntqWaiter.blocks (q : Intq) : IntqWaiter → Bool
  | .notEmpty => intqEmpty q
  | .notFull => intqFull q

/-- Thread `c` is the only one inside calls that wait on `w`, and it is the
recorded waiter whenever it is blocked on `w`. -/
structure SoleWaiter (w : IntqWaiter) (c : Nat) (S : IntqSys) : Prop where
  others : ∀ t, t ≠ c → (S.pc t).side ≠ some w
  recorded : (S.pc c).blockedOn = some w → S.q.waiter w = some c

section Sole

variable {w : IntqWaiter} {c : Nat} {S S' : IntqSys}

@[simp] theorem IntqPc.side_unblock (pc : IntqPc) : pc.unblock.side = pc.side := by
  cases pc <;> rfl

@[simp] theorem IntqPc.blockedOn_unblock (pc : IntqPc) : pc.unblock.blockedOn = none := by
  cases pc <;> rfl

theorem SoleWaiter.signal (h : SoleWaiter w c S) (w' : IntqWaiter) : SoleWaiter w c (signal S w') := by
  rcases signal_cases S w' with ⟨-, hs⟩ | ⟨u, hu, hs⟩
  · rwa [hs]
  rw [hs]
  constructor
  · intro t ht
    by_cases htu : t = u
    · subst htu
      simpa using h.others t ht
    · simpa [Function.update_of_ne htu] using h.others t ht
  · intro hc
    dsimp only at hc ⊢
    by_cases hcu : c = u
    · subst hcu
      simp at hc
    · rw [Function.update_of_ne hcu] at hc
      have hrec := h.recorded hc
      by_cases hw : w' = w
      · subst hw
        rw [hu] at hrec
        exact absurd (Option.some.inj hrec).symm hcu
      · rwa [Intq.waiter_setWaiter_ne _ hw]

theorem SoleWaiter.wait (h : SoleWaiter w c S) {w' : IntqWaiter} {t : Nat} {blocked : IntqPc}
    (hblocked : blocked.blockedOn = some w') (hside : blocked.side = some w')
    (huser : w' = w → t = c) : SoleWaiter w c (Pintos.Devices.wait S w' t blocked) := by
  constructor
  · intro u hu
    by_cases hut : u = t
    · subst hut
      simp only [Pintos.Devices.wait, Function.update_self, hside]
      intro hw
      exact hu (huser (Option.some.inj hw))
    · simpa [Pintos.Devices.wait, Function.update_of_ne hut] using h.others u hu
  · intro hc
    by_cases hct : c = t
    · subst hct
      simp only [Pintos.Devices.wait, Function.update_self, hblocked] at hc
      rw [← Option.some.inj hc]
      simp [Pintos.Devices.wait]
    · simp only [Pintos.Devices.wait, Function.update_of_ne hct] at hc
      have hrec := h.recorded hc
      by_cases hw : w' = w
      · exact absurd (huser hw).symm hct
      · simpa [Pintos.Devices.wait, Intq.waiter_setWaiter_ne _ hw] using hrec

theorem SoleWaiter.setPc_idle (h : SoleWaiter w c S) (t : Nat) :
    SoleWaiter w c (S.setPc t .idle) := by
  constructor
  · intro u hu
    by_cases hut : u = t
    · subst hut
      simp [IntqSys.setPc, IntqPc.side]
    · simpa [IntqSys.setPc, Function.update_of_ne hut] using h.others u hu
  · intro hc
    by_cases hct : c = t
    · subst hct
      simp [IntqSys.setPc, IntqPc.blockedOn] at hc
    · simpa [IntqSys.setPc, Function.update_of_ne hct] using h.recorded (by
        simpa [IntqSys.setPc, Function.update_of_ne hct] using hc)

/-- Moving the ring's indices and storing a byte change no waiter and no thread. -/
theorem SoleWaiter.ring (h : SoleWaiter w c S) (q : Intq) (hnf : q.notFull = S.q.notFull)
    (hne : q.notEmpty = S.q.notEmpty) : SoleWaiter w c ⟨q, S.pc⟩ := by
  constructor
  · exact h.others
  · intro hc
    have hrec := h.recorded hc
    cases w <;> simpa [hnf, hne] using hrec

theorem SoleWaiter.take (h : SoleWaiter w c S) : SoleWaiter w c S.take := by
  unfold IntqSys.take
  exact (h.ring { S.q with tail := nextPos S.q.tail } rfl rfl).signal _

theorem SoleWaiter.give (h : SoleWaiter w c S) (byte : UInt8) : SoleWaiter w c (S.give byte) := by
  unfold IntqSys.give
  exact (h.ring { S.q with buf := Bytes.update S.q.buf S.q.head byte, head := nextPos S.q.head }
    rfl rfl).signal _

/-- **One step keeps `c` the sole waiter on `w`** when the event is not another
thread's call on `w`. -/
theorem SoleWaiter.step (h : SoleWaiter w c S) {e : IntqEvent}
    (huser : ∀ t, e.user = some (w, t) → t = c) (hs : intqStep S e = some S') :
    SoleWaiter w c S' := by
  rcases intqStep_cases hs with ⟨t, rfl, -, -, rfl⟩ | ⟨t, rfl, -, -, rfl⟩ |
    ⟨t, byte, rfl, -, -, rfl⟩ | ⟨t, byte, rfl, -, -, rfl⟩ | ⟨rfl, -, rfl⟩ | ⟨byte, rfl, -, rfl⟩
  · exact h.wait rfl rfl fun hw => huser t (by rw [← hw]; rfl)
  · exact h.take.setPc_idle t
  · exact h.wait rfl rfl fun hw => huser t (by rw [← hw]; rfl)
  · exact (h.give byte).setPc_idle t
  · exact h.take
  · exact h.give byte

theorem soleWaiter_init (buf : Nat → UInt8) (w : IntqWaiter) (c : Nat) :
    SoleWaiter w c (intqSysInit buf) where
  others _ _ := by simp [intqSysInit, IntqPc.side]
  recorded hc := by simp [intqSysInit, IntqPc.blockedOn] at hc

theorem soleWaiter_run :
    ∀ {evs : List IntqEvent} {S S' : IntqSys}, SoleWaiter w c S → IntqInv S →
      (∀ e ∈ evs, ∀ t, e.user = some (w, t) → t = c) → Lts.run intqStep S evs = some S' →
      SoleWaiter w c S' ∧ IntqInv S'
  | [], S, S', h, hi, _, hr => by
    simp only [Lts.run_nil, Option.some.injEq] at hr
    subst hr
    exact ⟨h, hi⟩
  | e :: evs, S, S', h, hi, huser, hr => by
    rw [Lts.run_cons] at hr
    obtain ⟨S₁, h₁, hrest⟩ := Option.bind_eq_some_iff.mp hr
    exact soleWaiter_run (h.step (huser e List.mem_cons_self) h₁) (hi.step h₁)
      (fun e' he' => huser e' (List.mem_cons_of_mem e he')) hrest

/-- **No lost wakeup for a single reader or writer.** Along any interleaving from
`intq_init` in which thread `c` is the only thread that calls the function that
waits on `w` (`intq_getc` for `not_empty`, `intq_putc` for `not_full`), whenever
`c` is blocked on `w` it is the recorded waiter, so the next write (read) wakes
it, and the queue is still empty (full). -/
theorem intq_single_waiter {buf : Nat → UInt8} {evs : List IntqEvent}
    (huser : ∀ e ∈ evs, ∀ t, e.user = some (w, t) → t = c)
    (hrun : Lts.run intqStep (intqSysInit buf) evs = some S)
    (hblocked : (S.pc c).blockedOn = some w) :
    S.q.waiter w = some c ∧ w.blocks S.q = true := by
  obtain ⟨hsole, hi⟩ := soleWaiter_run (soleWaiter_init buf w c) (intqInv_init buf) huser hrun
  have hrec := hsole.recorded hblocked
  refine ⟨hrec, ?_⟩
  cases w with
  | notEmpty => exact (hi.notEmpty_waits c hrec).2
  | notFull => exact (hi.notFull_waits c hrec).2

theorem intq_single_waiter_reader :
    (∀ e ∈ [IntqEvent.getc 1 none, .putc 2 5 true, .getc 1 (some 5), .getc 1 none],
        ∀ t, e.user = some (.notEmpty, t) → t = 1) ∧
      Lts.run intqStep (intqSysInit fun _ => 0)
          [.getc 1 none, .putc 2 5 true, .getc 1 (some 5), .getc 1 none] =
        some (wait ((((wait (intqSysInit fun _ => 0) .notEmpty 1 .getcBlocked).give 5).setPc 2
          .idle).take.setPc 1 .idle) .notEmpty 1 .getcBlocked) ∧
      (wait ((((wait (intqSysInit fun _ => 0) .notEmpty 1 .getcBlocked).give 5).setPc 2
          .idle).take.setPc 1 .idle) .notEmpty 1 .getcBlocked).q.waiter .notEmpty = some 1 ∧
      IntqWaiter.blocks (wait ((((wait (intqSysInit fun _ => 0) .notEmpty 1 .getcBlocked).give 5).setPc 2
          .idle).take.setPc 1 .idle) .notEmpty 1 .getcBlocked).q .notEmpty = true :=
  have huser : ∀ e ∈ [IntqEvent.getc 1 none, .putc 2 5 true, .getc 1 (some 5), .getc 1 none],
      ∀ t, e.user = some (.notEmpty, t) → t = 1 := by
    intro e he t ht
    simp only [List.mem_cons, List.not_mem_nil, or_false] at he
    rcases he with rfl | rfl | rfl | rfl <;> simp [IntqEvent.user] at ht <;> omega
  ⟨huser, rfl, intq_single_waiter huser rfl rfl⟩

end Sole

end Pintos.Devices

import Mathlib
import Pintos.Lib.Reach

/-!
# Reader-writer locks (`filesys/rw-lock.c`)

A `struct rw_lock` is a monitor: every function body runs with `monitor_lock`
held, so each is one atomic section, and `cond_wait` gives the monitor up. The
two condition variables keep their waiters in arrival order, as Pintos'
`struct condition` does; a signal moves the first waiter to the ready state,
and that thread re-enters the monitor later, in a step of its own.

The entry sections below return whether the calling thread holds the lock
afterwards (`true`) or waits on a condition (`false`); a release returns the
threads it woke. `RwSys` runs any number of threads against one lock, one
monitor section per step.
-/

namespace Pintos.Filesys

/-- `enum _rw_mode`. -/
inductive RwMode where
  | unlocked
  | readLocked
  | writeLocked
  deriving DecidableEq, Repr

/-- `struct rw_lock`; the two conditions as their queues of waiting threads. -/
structure RwLock where
  numReaders : Int
  numWriters : Int
  pendingReaders : Int
  pendingWriter : Bool
  readerNext : Bool
  mode : RwMode
  canRead : List Nat
  canWrite : List Nat
  deriving DecidableEq, Repr

/-- `rw_lock_init`. -/
def rwLockInit : RwLock :=
  { numReaders := 0, numWriters := 0, pendingReaders := 0, pendingWriter := false,
    readerNext := false, mode := .unlocked, canRead := [], canWrite := [] }

/-- The guard of `read_lock_acquire`'s wait loop. -/
def RwLock.readMustWait (l : RwLock) : Bool :=
  (decide (0 < l.numWriters) || l.pendingWriter) && !l.readerNext

/-- The guard of `write_lock_acquire`'s wait loop. -/
def RwLock.writeMustWait (l : RwLock) : Bool :=
  decide (0 < l.numReaders) || decide (0 < l.numWriters) || l.readerNext

/-- One test of `read_lock_acquire`'s loop: wait on `can_read`, or take the lock. -/
def readLockCheck (l : RwLock) (t : Nat) : RwLock × Bool :=
  if l.readMustWait then
    ({ l with pendingReaders := l.pendingReaders + 1, canRead := l.canRead ++ [t] }, false)
  else ({ l with numReaders := l.numReaders + 1 }, true)

/-- `read_lock_acquire`, from entering the monitor to the first wait or the return. -/
def readLockAcquire (l : RwLock) (t : Nat) : RwLock × Bool := readLockCheck l t

/-- A reader woken on `can_read` re-enters the monitor: `pending_readers--`,
then the loop test again. -/
def readLockResume (l : RwLock) (t : Nat) : RwLock × Bool :=
  readLockCheck { l with pendingReaders := l.pendingReaders - 1 } t

/-- One test of `write_lock_acquire`'s loop, with its `ASSERT (num_writers == 1)`
(`none`: the kernel panics). -/
def writeLockCheck (l : RwLock) (t : Nat) : Option (RwLock × Bool) :=
  if l.writeMustWait then
    some ({ l with pendingWriter := true, canWrite := l.canWrite ++ [t] }, false)
  else if l.numWriters + 1 = 1 then some ({ l with numWriters := l.numWriters + 1 }, true)
  else none

/-- `write_lock_acquire`, from entering the monitor to the first wait or the return. -/
def writeLockAcquire (l : RwLock) (t : Nat) : Option (RwLock × Bool) := writeLockCheck l t

/-- A writer woken on `can_write`: `pending_writer = false`, then the loop test. -/
def writeLockResume (l : RwLock) (t : Nat) : Option (RwLock × Bool) :=
  writeLockCheck { l with pendingWriter := false } t

/-- `write_lock_try_acquire`: it tests the holders only, not `reader_next`. -/
def writeLockTryAcquire (l : RwLock) : RwLock × Bool :=
  if 0 < l.numReaders ∨ 0 < l.numWriters then (l, false)
  else ({ l with numWriters := l.numWriters + 1 }, true)

/-- `cond_signal` on a queue of waiters: the first one is woken. -/
def condSignal : List Nat → List Nat × List Nat
  | [] => ([], [])
  | t :: ts => ([t], ts)

/-- `read_lock_release`; returns the lock and the writer it woke, if any. -/
def readLockRelease (l : RwLock) : RwLock × List Nat :=
  let (woken, rest) := condSignal l.canWrite
  ({ l with numReaders := l.numReaders - 1, readerNext := false, canWrite := rest }, woken)

/-- `write_lock_release`, with its `ASSERT (num_writers == 0)`: with no pending
reader it signals one writer, otherwise it hands the turn to the readers and
wakes all of them. Returns the lock, the writers woken and the readers woken. -/
def writeLockRelease (l : RwLock) : Option (RwLock × List Nat × List Nat) :=
  if l.numWriters - 1 ≠ 0 then none
  else if l.pendingReaders = 0 then
    let (woken, rest) := condSignal l.canWrite
    some ({ l with numWriters := l.numWriters - 1, canWrite := rest }, woken, [])
  else
    some ({ l with numWriters := l.numWriters - 1, readerNext := true, canRead := [] },
      [], l.canRead)

/-! ## A lock one thread uses alone -/

/-- Some thread holds the lock, as `num_readers` and `num_writers` say. -/
def RwLock.held (l : RwLock) : Bool := decide (0 < l.numReaders) || decide (0 < l.numWriters)

/-- The lock as one thread alone leaves it between calls: nobody waits, a writer
excludes readers, and `mode` records how the holder took it. -/
structure RwLock.Quiet (l : RwLock) : Prop where
  readers_nonneg : 0 ≤ l.numReaders
  writers : l.numWriters = 0 ∨ (l.numWriters = 1 ∧ l.numReaders = 0)
  pending_readers : l.pendingReaders = 0
  pending_writer : l.pendingWriter = false
  reader_next : l.readerNext = false
  can_read : l.canRead = []
  can_write : l.canWrite = []
  read_mode : 0 < l.numReaders → l.mode = .readLocked
  write_mode : l.numWriters = 1 → l.mode = .writeLocked

theorem rwLockInit_quiet : rwLockInit.Quiet where
  readers_nonneg := le_refl 0
  writers := .inl rfl
  pending_readers := rfl
  pending_writer := rfl
  reader_next := rfl
  can_read := rfl
  can_write := rfl
  read_mode h := absurd h (lt_irrefl 0)
  write_mode h := absurd h (by decide)

theorem rwLockInit_held : rwLockInit.held = false := rfl

/-- `write_lock_try_acquire` succeeds exactly on a lock nobody holds. -/
theorem writeLockTryAcquire_snd (l : RwLock) : (writeLockTryAcquire l).2 = !l.held := by
  unfold writeLockTryAcquire RwLock.held
  by_cases h : 0 < l.numReaders ∨ 0 < l.numWriters
  · rw [if_pos h]
    rcases h with h | h <;> simp [h]
  · rw [if_neg h]
    simp only [not_or, not_lt] at h
    simp [h.1, h.2]

theorem writeLockTryAcquire_of_held {l : RwLock} (h : l.held = true) :
    writeLockTryAcquire l = (l, false) := by
  unfold writeLockTryAcquire
  rw [if_pos (by simpa [RwLock.held] using h)]

section Quiet

variable {l : RwLock}

theorem RwLock.Quiet.numReaders_eq (h : l.Quiet) (hf : l.held = false) : l.numReaders = 0 := by
  have := h.readers_nonneg
  simp [RwLock.held] at hf
  omega

theorem RwLock.Quiet.numWriters_eq (h : l.Quiet) (hf : l.held = false) : l.numWriters = 0 := by
  rcases h.writers with h | h
  · exact h
  · simp [RwLock.held, h.1] at hf

/-- A free lock that `write_lock_try_acquire` takes and `write_lock_release`
gives back is as before: nobody waits to be signalled. -/
theorem RwLock.Quiet.try_release (h : l.Quiet) (hf : l.held = false) :
    writeLockRelease (writeLockTryAcquire l).1 = some (l, [], []) := by
  have hw := h.numWriters_eq hf
  have hr := h.numReaders_eq hf
  have hp := h.pending_readers
  have hc := h.can_write
  cases l
  simp only at hw hr hp hc
  subst hw hr hp hc
  simp [writeLockTryAcquire, writeLockRelease, condSignal]

/-- How `write_lock_acquire` and `read_lock_acquire` go for the only thread: a
writer gets a free lock, a reader a lock with no writer, anything else waits. -/
theorem RwLock.Quiet.writeLockAcquire_eq (h : l.Quiet) (t : Nat) :
    writeLockAcquire l t =
      if l.held then some ({ l with pendingWriter := true, canWrite := l.canWrite ++ [t] }, false)
      else some ({ l with numWriters := 1 }, true) := by
  unfold writeLockAcquire writeLockCheck RwLock.writeMustWait RwLock.held
  simp only [h.reader_next, Bool.or_false]
  split
  · rfl
  · rename_i hw
    simp only [Bool.or_eq_true, decide_eq_true_eq, not_or, not_lt] at hw
    have hw0 : l.numWriters = 0 := by have := h.writers; omega
    simp [hw0]

theorem RwLock.Quiet.readLockAcquire_eq (h : l.Quiet) (t : Nat) :
    readLockAcquire l t =
      if 0 < l.numWriters then
        ({ l with pendingReaders := l.pendingReaders + 1, canRead := l.canRead ++ [t] }, false)
      else ({ l with numReaders := l.numReaders + 1 }, true) := by
  unfold readLockAcquire readLockCheck RwLock.readMustWait
  simp [h.pending_writer, h.reader_next]

/-- `write_lock_try_acquire` takes a free lock. -/
theorem RwLock.Quiet.try_held (h : l.Quiet) (hf : l.held = false) :
    (writeLockTryAcquire l).1.held = true := by
  have hw := h.numWriters_eq hf
  have hr := h.numReaders_eq hf
  simp [writeLockTryAcquire, RwLock.held, hw, hr]

@[simp] theorem RwLock.held_setMode (l : RwLock) (m : RwMode) :
    { l with mode := m }.held = l.held := rfl

/-- A free lock stays quiet whatever `mode` records. -/
theorem RwLock.Quiet.setMode (h : l.Quiet) (hf : l.held = false) (m : RwMode) :
    { l with mode := m }.Quiet := by
  have hw := h.numWriters_eq hf
  have hr := h.numReaders_eq hf
  exact ⟨h.readers_nonneg, h.writers, h.pending_readers, h.pending_writer, h.reader_next,
    h.can_read, h.can_write, fun h' => absurd h' (by simp [hr]),
    fun h' => absurd h' (by simp [hw])⟩

/-- A writer that took a free lock gives it back as it found it, but for `mode`. -/
theorem RwLock.Quiet.write_release (h : l.Quiet) (hf : l.held = false) (m : RwMode) :
    writeLockRelease { l with numWriters := 1, mode := m } = some ({ l with mode := m }, [], []) := by
  have hw := h.numWriters_eq hf
  have hp := h.pending_readers
  have hc := h.can_write
  cases l
  simp only at hw hp hc
  subst hw hp hc
  simp [writeLockRelease, condSignal]

end Quiet

/-! ## What each operation does to `num_readers` -/

section Readers

variable {l l' : RwLock} {t : Nat}

/-- A test of `read_lock_acquire`'s loop counts one more reader exactly when it
takes the lock. -/
theorem readLockCheck_numReaders (l : RwLock) (t : Nat) :
    (readLockCheck l t).1.numReaders =
      l.numReaders + if (readLockCheck l t).2 then 1 else 0 := by
  unfold readLockCheck
  split <;> simp

/-- While a reader is in, a writer's test waits. -/
theorem writeLockCheck_of_reader (hr : 0 < l.numReaders) (t : Nat) :
    writeLockCheck l t =
      some ({ l with pendingWriter := true, canWrite := l.canWrite ++ [t] }, false) := by
  simp [writeLockCheck, RwLock.writeMustWait, hr]

@[simp] theorem writeLockTryAcquire_numReaders (l : RwLock) :
    (writeLockTryAcquire l).1.numReaders = l.numReaders := by
  unfold writeLockTryAcquire
  split <;> rfl

theorem writeLockRelease_numReaders {ws rs : List Nat}
    (h : writeLockRelease l = some (l', ws, rs)) : l'.numReaders = l.numReaders := by
  unfold writeLockRelease at h
  split_ifs at h <;> cases h <;> rfl

@[simp] theorem readLockRelease_numReaders (l : RwLock) :
    (readLockRelease l).1.numReaders = l.numReaders - 1 :=
  rfl

end Readers

/-! ## Threads on one lock -/

/-- Where a thread is with respect to the lock. -/
inductive RwPc where
  | idle
  | readWait
  | readWoken
  | reading
  | writeWait
  | writeWoken
  | writing
  deriving DecidableEq, Repr

/-- The calls a thread makes. -/
inductive RwCall where
  | readLockAcquire
  | writeLockAcquire
  | writeLockTryAcquire
  | readLockRelease
  | writeLockRelease
  deriving DecidableEq, Repr

/-- One lock and the threads using it. -/
structure RwSys where
  lock : RwLock
  pc : Nat → RwPc

/-- The initial system: the lock just initialised, every thread idle. -/
def RwSys.init : RwSys := { lock := rwLockInit, pc := fun _ => .idle }

/-- Mark woken threads ready to re-enter the monitor. -/
def wakeAll (pc : Nat → RwPc) (woken : List Nat) (p : RwPc) : Nat → RwPc :=
  fun u => if u ∈ woken then p else pc u

/-- A step: thread `t` starts a call (`some c`) or, woken, re-enters the
monitor (`none`). -/
def RwSys.step (s : RwSys) : Nat × Option RwCall → Option RwSys
  | (t, some .readLockAcquire) =>
    if s.pc t ≠ .idle then none else
    let (l, ok) := readLockAcquire s.lock t
    some { lock := l, pc := Function.update s.pc t (if ok then .reading else .readWait) }
  | (t, some .writeLockAcquire) =>
    if s.pc t ≠ .idle then none else
    (writeLockAcquire s.lock t).map fun (l, ok) =>
      { lock := l, pc := Function.update s.pc t (if ok then .writing else .writeWait) }
  | (t, some .writeLockTryAcquire) =>
    if s.pc t ≠ .idle then none else
    let (l, ok) := writeLockTryAcquire s.lock
    some { lock := l, pc := Function.update s.pc t (if ok then .writing else .idle) }
  | (t, some .readLockRelease) =>
    if s.pc t ≠ .reading then none else
    let (l, woken) := readLockRelease s.lock
    some { lock := l, pc := wakeAll (Function.update s.pc t .idle) woken .writeWoken }
  | (t, some .writeLockRelease) =>
    if s.pc t ≠ .writing then none else
    (writeLockRelease s.lock).map fun (l, writers, readers) =>
      let pc := Function.update s.pc t .idle
      { lock := l, pc := wakeAll (wakeAll pc writers .writeWoken) readers .readWoken }
  | (t, none) =>
    match s.pc t with
    | .readWoken =>
      let (l, ok) := readLockResume s.lock t
      some { lock := l, pc := Function.update s.pc t (if ok then .reading else .readWait) }
    | .writeWoken =>
      (writeLockResume s.lock t).map fun (l, ok) =>
        { lock := l, pc := Function.update s.pc t (if ok then .writing else .writeWait) }
    | _ => none

/-- The counters count the holders: over any finite set of threads outside which
every thread is idle, `num_readers` is the number reading and `num_writers` the
number writing. -/
def RwSys.Counted (s : RwSys) : Prop :=
  ∀ T : Finset Nat, (∀ t, t ∉ T → s.pc t = .idle) →
    s.lock.numReaders = ((T.filter fun t => s.pc t = .reading).card : Int) ∧
    s.lock.numWriters = ((T.filter fun t => s.pc t = .writing).card : Int)

/-- Reader-writer exclusion: never a writer together with a reader, at most one
writer, and the counters equal the holders. -/
def RwSys.Exclusive (s : RwSys) : Prop :=
  ¬ (1 ≤ s.lock.numWriters ∧ 1 ≤ s.lock.numReaders) ∧ s.lock.numWriters ≤ 1 ∧ s.Counted

/-- Thread 0 writes while thread 1 waits to read; 0's release hands the turn to
the readers and wakes 1; thread 2's `write_lock_try_acquire` gets in before 1
re-enters the monitor, and 1 then passes its loop test on `reader_next` alone. -/
def trySlipSchedule : List (Nat × Option RwCall) :=
  [(0, some .writeLockAcquire), (1, some .readLockAcquire), (0, some .writeLockRelease),
    (2, some .writeLockTryAcquire), (1, none)]

theorem rw_lock_exclusion_violated :
    ¬ ∀ s, Lts.Reachable RwSys.step RwSys.init s → s.Exclusive := by
  intro hall
  have hrun : (Lts.run RwSys.step RwSys.init trySlipSchedule).map
      (fun s => (s.lock.numReaders, s.lock.numWriters)) = some (1, 1) := by decide
  obtain ⟨s, hs, hcnt⟩ := Option.map_eq_some_iff.mp hrun
  simp only [Prod.mk.injEq] at hcnt
  exact (hall s (Lts.reachable_of_run hs)).1 ⟨by omega, by omega⟩

/-- Thread 0 writes while thread 1 waits to read; 0's release hands the turn to the
readers. -/
def readersTurn : List (Nat × Option RwCall) :=
  [(0, some .writeLockAcquire), (1, some .readLockAcquire), (0, some .writeLockRelease)]

/-- After `readersTurn`, thread 2 calls `write_lock_acquire` and waits, since
`reader_next` is set; thread 3 then calls `read_lock_acquire` and takes a read
hold at once, though a writer waits and none has had the lock since: only a
`read_lock_release` clears `reader_next`. -/
theorem reader_overtakes_waiting_writer :
    ∃ s s', Lts.Reachable RwSys.step RwSys.init s ∧
      Lts.run RwSys.step s [(2, some .writeLockAcquire), (3, some .readLockAcquire)] = some s' ∧
      s'.pc 2 = .writeWait ∧ s'.pc 3 = .reading :=
  Lts.exists_run_of_run_decide readersTurn _ (by decide)

end Pintos.Filesys

import Pintos.Threads.Scheduler
import Pintos.Lib.Reach

/-!
# Semaphores and locks on several CPUs (`threads/synch.c`)

One semaphore, its `waiters` list and spinlock, the ready-queue spinlock and
ready list of each CPU, and the threads that call `sema_down`, `sema_try_down`,
`sema_up`, and `lock_acquire`, `lock_try_acquire`, `lock_release` of the lock
built on it. Each section under a spinlock is one atomic step, taken only while
the spinlock is free; a thread in `thread_block` holds its CPU's ready-queue
lock from `lock_own_ready_queue` until it has set its status and switched away,
and `thread_unblock` takes the ready-queue lock of the CPU the woken thread
belongs to (`t->cpu`, which no step changes: `balance_load` is never called).

A CPU runs one thread at a time; the model lets every running thread step, so it
has more interleavings than the machine and what holds of it holds there. The
scheduler's choice of the next thread is any thread on the CPU's ready list.
`ups` and `downs` count the completed `sema_up` calls and the successful downs,
which the code does not keep.
-/

namespace Pintos.Threads

/-- Where a thread is in a call on the semaphore or the lock. -/
inductive SemaPc where
  /-- Outside the semaphore's calls. -/
  | idle
  /-- `spinlock_acquire (&sema->lock)` in `sema_down`, then the test of its loop. -/
  | downLock
  /-- `thread_block`: `lock_own_ready_queue ()`, with the semaphore's lock held. -/
  | blockRq
  /-- `thread_block`: `spinlock_release (lk)`, with both locks held. -/
  | blockRelease
  /-- `thread_block`: the status becomes `THREAD_BLOCKED` and the CPU switches away. -/
  | blockSet
  /-- Switched away; when its CPU runs it again it goes back to `downLock`. -/
  | blocked
  /-- `spinlock_acquire (&sema->lock)` in `sema_up`, then the test of `waiters`. -/
  | upLock
  /-- `thread_unblock (t)` of the waiter `sema_up` popped, with the semaphore's lock
  held. -/
  | unblock (t : Nat)
  /-- `lock->holder = thread_current ()` after the semaphore's down. -/
  | setHolder
  deriving DecidableEq, Repr

/-- A call a thread makes. -/
inductive SemaCall where
  | down
  | tryDown
  | up
  | acquire
  | tryAcquire
  | release
  deriving DecidableEq, Repr

/-- The calls of the lock: the semaphore of a lock is used by nothing else. -/
def SemaCall.isLock : SemaCall → Bool
  | .acquire | .tryAcquire | .release => true
  | _ => false

/-- A move of thread `t`: a new call, the next atomic step of its call, its CPU
switching to it (`schedule` and the `unlock_own_ready_queue` after it), or
`thread_yield` outside a call. -/
inductive SemaAct where
  | call (c : SemaCall)
  | next
  | dispatch
  | yield
  deriving DecidableEq, Repr

/-- The semaphore, the lock's holder, and the threads and CPUs around them. -/
structure SemaSys where
  value : Nat
  waiters : List Nat
  semaLock : Option Nat
  cpu : Nat → Nat
  rqLock : Nat → Option Nat
  readyList : Nat → List Nat
  status : Nat → ThreadStatus
  pc : Nat → SemaPc
  forLock : Nat → Bool
  holder : Option Nat
  ups : Nat
  downs : Nat

namespace SemaSys

open Function (update)

/-- `sema_init (sema, value)` and `lock_init` over threads that all run outside
the semaphore's calls, thread `t` on CPU `cpu t`. -/
def init (value : Nat) (cpu : Nat → Nat) : SemaSys :=
  ⟨value, [], none, cpu, fun _ => none, fun _ => [], fun _ => .running, fun _ => .idle,
    fun _ => false, none, 0, 0⟩

/-- The test of `sema_down`'s loop, with the semaphore's lock just taken: block,
or take a unit and return (to `lock_acquire`'s holder update when the down is
its). -/
def downTest (S : SemaSys) (t : Nat) : SemaSys :=
  if S.value = 0 then
    { S with waiters := S.waiters ++ [t], semaLock := some t, pc := update S.pc t .blockRq }
  else
    { S with
      value := S.value - 1
      downs := S.downs + 1
      pc := update S.pc t (if S.forLock t then .setHolder else .idle) }

/-- The test of `sema_up`, with the semaphore's lock just taken: wake the first
waiter, or add the unit and return. `value` is an `unsigned`, so `value++`
wraps at `2 ^ 32`. -/
def upTest (S : SemaSys) (t : Nat) : SemaSys :=
  match S.waiters with
  | [] => { S with value := (S.value + 1) % 2 ^ 32, ups := S.ups + 1, pc := update S.pc t .idle }
  | w :: ws => { S with waiters := ws, semaLock := some t, pc := update S.pc t (.unblock w) }

/-- `thread_unblock (w)` under `w`'s CPU's ready-queue lock (its `ASSERT` that `w`
is blocked, `sched_unblock` putting it on the ready list), then the rest of
`sema_up`: `value++` and the release of the semaphore's lock. -/
def unblockUp (S : SemaSys) (t w : Nat) : Option SemaSys :=
  if S.status w = .blocked then
    some { S with
      status := update S.status w .ready
      readyList := update S.readyList (S.cpu w) (S.readyList (S.cpu w) ++ [w])
      value := (S.value + 1) % 2 ^ 32
      ups := S.ups + 1
      semaLock := none
      pc := update S.pc t .idle }
  else none

/-- The next atomic step of thread `t`'s call. -/
def advance (S : SemaSys) (t : Nat) : Option SemaSys :=
  match S.pc t with
  | .idle => none
  | .downLock => if S.semaLock = none then some (S.downTest t) else none
  | .blockRq =>
    if S.rqLock (S.cpu t) = none then
      some { S with
        rqLock := update S.rqLock (S.cpu t) (some t)
        pc := update S.pc t .blockRelease }
    else none
  | .blockRelease => some { S with semaLock := none, pc := update S.pc t .blockSet }
  | .blockSet =>
    some { S with
      status := update S.status t .blocked
      rqLock := update S.rqLock (S.cpu t) none
      pc := update S.pc t .blocked }
  | .blocked => none
  | .upLock => if S.semaLock = none then some (S.upTest t) else none
  | .unblock w => if S.rqLock (S.cpu w) = none then S.unblockUp t w else none
  | .setHolder => some { S with holder := some t, pc := update S.pc t .idle }

/-- `sema_try_down`: one section under the semaphore's lock; `lock_try_acquire`
goes on to its holder update when it got the unit. -/
def tryDown (S : SemaSys) (t : Nat) (forLock : Bool) : Option SemaSys :=
  if S.semaLock = none then
    if S.value = 0 then some S
    else
      some { S with
        value := S.value - 1
        downs := S.downs + 1
        pc := update S.pc t (if forLock then .setHolder else .idle) }
  else none

/-- Thread `t` starts a call; the lock's calls panic when `t` holds the lock
(`lock_acquire`, `lock_try_acquire`) or does not (`lock_release`). -/
def start (S : SemaSys) (t : Nat) : SemaCall → Option SemaSys
  | .down => some { S with pc := update S.pc t .downLock, forLock := update S.forLock t false }
  | .tryDown => S.tryDown t false
  | .up => some { S with pc := update S.pc t .upLock, forLock := update S.forLock t false }
  | .acquire =>
    if S.holder = some t then none
    else some { S with pc := update S.pc t .downLock, forLock := update S.forLock t true }
  | .tryAcquire => if S.holder = some t then none else S.tryDown t true
  | .release =>
    if S.holder = some t then
      some { S with
        holder := none
        pc := update S.pc t .upLock
        forLock := update S.forLock t true }
    else none

/-- Thread `t`'s CPU, its ready-queue lock free, switches to `t` from its ready
list; a thread woken in `sema_down` goes back to the semaphore's lock. -/
def dispatch (S : SemaSys) (t : Nat) : SemaSys :=
  { S with
    status := update S.status t .running
    readyList := update S.readyList (S.cpu t) ((S.readyList (S.cpu t)).erase t)
    pc := update S.pc t (if S.pc t = .blocked then .downLock else S.pc t) }

/-- `thread_yield` of a running thread outside the semaphore's calls. -/
def yield (S : SemaSys) (t : Nat) : SemaSys :=
  { S with
    status := update S.status t .ready
    readyList := update S.readyList (S.cpu t) (S.readyList (S.cpu t) ++ [t]) }

/-- One move of one thread. -/
def step (S : SemaSys) : Nat × SemaAct → Option SemaSys
  | (t, .call c) => if S.status t = .running ∧ S.pc t = .idle then S.start t c else none
  | (t, .next) => if S.status t = .running then S.advance t else none
  | (t, .dispatch) =>
    if S.status t = .ready ∧ t ∈ S.readyList (S.cpu t) ∧ S.rqLock (S.cpu t) = none then
      some (S.dispatch t)
    else none
  | (t, .yield) =>
    if S.status t = .running ∧ S.pc t = .idle ∧ S.rqLock (S.cpu t) = none then
      some (S.yield t)
    else none

/-- The moves of threads that use the semaphore only through the lock. -/
def lockStep (S : SemaSys) : Nat × SemaAct → Option SemaSys
  | (t, .call c) => if c.isLock then S.step (t, .call c) else none
  | m => S.step m

/-- Thread `t` holds the lock: its down is done and its release not begun. -/
def Holds (S : SemaSys) (t : Nat) : Prop := S.pc t = .setHolder ∨ S.holder = some t

end SemaSys

end Pintos.Threads

import Pintos.Threads.Scheduler
import Pintos.Lib.Reach

/-!
# Threads on several CPUs (`threads/thread.c`)

The thread table, one `struct ready_queue` per CPU, and the thread each CPU is
running (`running_thread ()`). The operations take the ready-queue spinlock
they need for their whole scheduling part, so each is one atomic step:
`thread_create` (through `wake_up_new_thread`), `thread_block`,
`thread_unblock`, `thread_yield`, `thread_exit`, and the timer's `thread_tick`.
`schedule` runs `next_thread_to_run`, switches, and does the status update of
`thread_schedule_tail`; a dying thread's page is freed there, and nothing reads
its entry afterwards.
-/

namespace Pintos.Threads

/-- The threads, the CPUs' ready queues and what each CPU runs. -/
structure Sched where
  threads : Nat → Thread
  cpus : Nat → ReadyQueue
  ncpu : Nat
  running : Nat → Nat
  nextTid : Nat
  startedOthers : Bool

/-- `init_thread`: zeroed (`cpu` is `NULL`), blocked, with its nice value. -/
def initThread (nice : Int) : Thread :=
  { status := .blocked, cpu := none, nice := nice, vruntime := 0, timerStart := 0,
    timerStop := 0 }

/-- `choose_cpu_for_new_thread`. -/
def chooseCpuForNewThread (S : Sched) (t : Nat) : Nat :=
  if S.startedOthers then t % S.ncpu else 0

/-- `wake_up_new_thread`. -/
def wakeUpNewThread (S : Sched) (t : Nat) (now : Int) : Sched :=
  let c := chooseCpuForNewThread S t
  let th := modifyThread S.threads t fun x => { x with status := .ready, cpu := some c }
  let (th, rq, _) := schedUnblock th (S.cpus c) t true now
  { S with threads := th, cpus := Function.update S.cpus c rq }

/-- `wake_up_new_thread` with its results named. -/
theorem wakeUpNewThread_eq (S : Sched) (t : Nat) (now : Int) :
    wakeUpNewThread S t now =
      let c := chooseCpuForNewThread S t
      let th := modifyThread S.threads t fun x => { x with status := .ready, cpu := some c }
      { S with
        threads := (schedUnblock th (S.cpus c) t true now).1
        cpus := Function.update S.cpus c (schedUnblock th (S.cpus c) t true now).2.1 } :=
  rfl

/-- `thread_create`: `ok = false` when one of its allocations fails (it returns
`TID_ERROR` and changes nothing); `init_thread` asserts the nice range. -/
def threadCreate (S : Sched) (nice : Int) (ok : Bool) (now : Int) : Option Sched :=
  if !ok then some S
  else if ¬ (-20 ≤ nice ∧ nice ≤ 19) then none
  else
    let t := S.nextTid
    some (wakeUpNewThread
      { S with threads := Function.update S.threads t (initThread nice), nextTid := t + 1 } t now)

/-- `schedule` on CPU `c`: `next_thread_to_run`, the switch (with `rq.curr` set
to `NULL` for the idle thread), and `thread_schedule_tail`'s status update. -/
def schedule (S : Sched) (c : Nat) (now : Int) : Sched :=
  let cur := S.running c
  let (picked, th, rq) := schedPickNext S.threads (S.cpus c) now
  let nxt := picked.getD rq.idleThread
  let th := modifyThread th nxt fun x => { x with status := .running }
  if cur ≠ nxt then
    { S with
      threads := th
      running := Function.update S.running c nxt
      cpus := Function.update S.cpus c
        { rq with curr := if nxt = rq.idleThread then none else some nxt } }
  else { S with threads := th, cpus := Function.update S.cpus c rq }

/-- `thread_block` by the thread running on CPU `c`. -/
def threadBlock (S : Sched) (c : Nat) (now : Int) : Sched :=
  let cur := S.running c
  let th := modifyThread S.threads cur fun x => { x with status := .blocked }
  schedule { S with threads := schedBlock th cur now } c now

/-- `thread_unblock (t)`, with its assertions that `t` is a thread, has a CPU
and is blocked. -/
def threadUnblock (S : Sched) (t : Nat) (now : Int) : Option Sched :=
  if S.nextTid ≤ t then none else
  match (S.threads t).cpu with
  | none => none
  | some c =>
    if (S.threads t).status ≠ .blocked then none else
    let th := modifyThread S.threads t fun x => { x with status := .ready }
    let (th, rq, _) := schedUnblock th (S.cpus c) t false now
    some { S with threads := th, cpus := Function.update S.cpus c rq }

/-- What a successful `thread_unblock (t)` found and did. -/
theorem threadUnblock_eq {S S' : Sched} {t : Nat} {now : Int}
    (h : threadUnblock S t now = some S') :
    ∃ c, t < S.nextTid ∧ (S.threads t).cpu = some c ∧ (S.threads t).status = .blocked ∧
      let th := modifyThread S.threads t fun x => { x with status := .ready }
      S' = { S with
        threads := (schedUnblock th (S.cpus c) t false now).1
        cpus := Function.update S.cpus c (schedUnblock th (S.cpus c) t false now).2.1 } := by
  unfold threadUnblock at h
  split at h
  · cases h
  rename_i hlt
  split at h
  · cases h
  rename_i c hc
  split at h
  · cases h
  rename_i hst
  cases h
  exact ⟨c, by omega, hc, not_not.mp hst, rfl⟩

/-- `thread_yield` by the thread running on CPU `c`; the idle thread is not queued. -/
def threadYield (S : Sched) (c : Nat) (now : Int) : Sched :=
  let cur := S.running c
  let th := modifyThread S.threads cur fun x => { x with status := .ready }
  let (th, rq) :=
    if cur ≠ (S.cpus c).idleThread then schedYield th (S.cpus c) cur now else (th, S.cpus c)
  schedule { S with threads := th, cpus := Function.update S.cpus c rq } c now

/-- `do_thread_exit` by the thread running on CPU `c`. Should `schedule` come back
to it (the idle thread with nothing ready), `NOT_REACHED` panics: `none`. -/
def doThreadExit (S : Sched) (c : Nat) (now : Int) : Option Sched :=
  let cur := S.running c
  let S' := schedule
    { S with threads := modifyThread S.threads cur (fun x => { x with status := .dying }) } c now
  if S'.running c = cur then none else some S'

/-- `thread_tick` on CPU `c`: `sched_tick`; a yield it asks for happens later as
a `thread_yield`. -/
def threadTick (S : Sched) (c : Nat) (now : Int) : Sched :=
  let (rq, _) := schedTick S.threads (S.cpus c) (S.running c) now
  { S with cpus := Function.update S.cpus c rq }

/-- `t` is the idle thread of some CPU. -/
def Sched.isIdle (S : Sched) (t : Nat) : Bool :=
  (List.range S.ncpu).any fun c => (S.cpus c).idleThread = t

/-- The scheduling operations. -/
inductive SchedOp where
  | threadCreate (nice : Int) (ok : Bool)
  | threadBlock
  | threadUnblock (t : Nat)
  | threadYield
  | threadExit
  | threadTick
  deriving DecidableEq, Repr

/-- One operation on CPU `c` at clock reading `now`. `thread_unblock` is called by
`sema_up`, the timer's wake-up and `intq`, each on a thread taken from its own
wait list, which the idle thread never enters. -/
def Sched.step (S : Sched) : Nat × SchedOp × Int → Option Sched
  | (c, op, now) =>
    if S.ncpu ≤ c then none else
    match op with
    | .threadCreate nice ok => threadCreate S nice ok now
    | .threadBlock => some (threadBlock S c now)
    | .threadUnblock t => if S.isIdle t then none else threadUnblock S t now
    | .threadYield => some (threadYield S c now)
    | .threadExit => doThreadExit S c now
    | .threadTick => some (threadTick S c now)

/-- After boot on `n` CPUs: CPU `c` runs its boot thread `2c` and has the idle
thread `2c + 1` (nice `NICE_MAX`), both bound to it; no thread is ready. -/
def Sched.boot (n : Nat) (started : Bool) : Sched :=
  { threads := fun t =>
      if t < 2 * n then
        { status := if t % 2 = 0 then .running else .blocked, cpu := some (t / 2),
          nice := if t % 2 = 0 then 0 else 19, vruntime := 0, timerStart := 0, timerStop := 0 }
      else initThread 0
    cpus := fun c =>
      { curr := some (2 * c), idleThread := 2 * c + 1, threadTicks := 0, readyList := [],
        nrReady := 0, minVruntime := 0, lastTime := 0, active := 1 }
    ncpu := n, running := fun c => 2 * c, nextTid := 2 * n, startedOthers := started }

end Pintos.Threads

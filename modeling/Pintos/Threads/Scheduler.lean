import Mathlib

/-!
# The CFS scheduler (`threads/scheduler.c`)

The functions of `scheduler.c` over one CPU's `struct ready_queue` and the
thread table (threads by tid). Every function runs with the ready queue's
spinlock held and interrupts off, so `timer_gettime ()` returns one clock
reading `now` throughout a call. `int64_t` values are integers (the clock is far
from `2^63`); C division truncates toward zero (`Int.tdiv`). `thread_ticks` is
`unsigned`, kept modulo `2^32`.
-/

namespace Pintos.Threads

/-- `NICE_DEFAULT`. -/
def niceDefault : Int := 0

/-- The entries of `prio_to_weight`, for nice values `-20` to `19`. -/
def prioToWeightTable : List Int :=
  [88761, 71755, 56483, 46273, 36291, 29154, 23254, 18705, 14949, 11916,
    9548, 7620, 6100, 4904, 3906, 3121, 2501, 1991, 1586, 1277,
    1024, 820, 655, 526, 423, 335, 272, 215, 172, 137,
    110, 87, 70, 56, 45, 36, 29, 23, 18, 15]

/-- `prio_to_weight[i]`; an index outside the table reads `0`. -/
def prioToWeight (i : Int) : Int :=
  if 0 ≤ i then prioToWeightTable.getD i.toNat 0 else 0

/-- `enum thread_status`. -/
inductive ThreadStatus where
  | running
  | ready
  | blocked
  | dying
  deriving DecidableEq, Repr

/-- The fields of `struct thread` that scheduling reads and writes. -/
structure Thread where
  status : ThreadStatus
  cpu : Option Nat
  nice : Int
  vruntime : Int
  timerStart : Int
  timerStop : Int
  deriving DecidableEq, Repr

/-- `struct ready_queue` (its spinlock is the atomicity of each call). -/
structure ReadyQueue where
  curr : Option Nat
  idleThread : Nat
  threadTicks : Nat
  readyList : List Nat
  nrReady : Nat
  minVruntime : Int
  lastTime : Int
  active : Int
  deriving DecidableEq, Repr

/-- `enum sched_return_action`. -/
inductive SchedReturn where
  | returnNone
  | returnYield
  deriving DecidableEq, Repr

/-- Change thread `t` of the table. -/
def modifyThread (th : Nat → Thread) (t : Nat) (f : Thread → Thread) : Nat → Thread :=
  Function.update th t (f (th t))

@[simp] theorem modifyThread_self (th : Nat → Thread) (t : Nat) (f : Thread → Thread) :
    modifyThread th t f t = f (th t) := by
  simp [modifyThread]

@[simp] theorem modifyThread_ne (th : Nat → Thread) {t u : Nat} (f : Thread → Thread)
    (h : u ≠ t) : modifyThread th t f u = th u := by
  simp [modifyThread, h]

theorem modifyThread_apply (th : Nat → Thread) (t : Nat) (f : Thread → Thread) (u : Nat) :
    modifyThread th t f u = if u = t then f (th t) else th u := by
  simp [modifyThread, Function.update_apply]

/-- A change that keeps the thread's status keeps every thread's status. -/
theorem modifyThread_status {th : Nat → Thread} {t : Nat} {f : Thread → Thread}
    (hf : ∀ x, (f x).status = x.status) (u : Nat) :
    (modifyThread th t f u).status = (th u).status := by
  rw [modifyThread_apply]
  split <;> simp_all

/-- A change that keeps the thread's CPU keeps every thread's CPU. -/
theorem modifyThread_cpu {th : Nat → Thread} {t : Nat} {f : Thread → Thread}
    (hf : ∀ x, (f x).cpu = x.cpu) (u : Nat) :
    (modifyThread th t f u).cpu = (th u).cpu := by
  rw [modifyThread_apply]
  split <;> simp_all

/-- Two changes to one thread are one change. -/
theorem modifyThread_modifyThread (th : Nat → Thread) (t : Nat) (f g : Thread → Thread) :
    modifyThread (modifyThread th t f) t g = modifyThread th t (g ∘ f) := by
  funext u
  simp only [modifyThread_apply]
  split <;> simp_all

/-- `max` of `scheduler.c`. -/
def max64 (x y : Int) : Int := if x > y then x else y

/-- `min` of `scheduler.c`: a first argument of `0` never wins. -/
def min64 (x y : Int) : Int := if x < y ∧ x ≠ 0 then x else y

/-- `INT64_MAX`. -/
def int64Max : Int := 2 ^ 63 - 1

/-- `calc_vruntime`. -/
def calcVruntime (t : Thread) (bonus : Int) : Int :=
  let d := t.timerStop - t.timerStart
  let w0 := prioToWeight (niceDefault + bonus)
  let w := prioToWeight (t.nice + bonus)
  t.vruntime + (d * w0).tdiv w

/-- `set_min_vruntime`. -/
def setMinVruntime (th : Nat → Thread) (rq : ReadyQueue) : ReadyQueue :=
  let m0 := match rq.curr with
    | some c => min64 (th c).vruntime int64Max
    | none => int64Max
  let m := rq.readyList.foldl (fun m t => min64 (th t).vruntime m) m0
  { rq with minVruntime := if m = int64Max then 0 else m }

@[simp] theorem setMinVruntime_readyList (th : Nat → Thread) (rq : ReadyQueue) :
    (setMinVruntime th rq).readyList = rq.readyList := rfl

@[simp] theorem setMinVruntime_nrReady (th : Nat → Thread) (rq : ReadyQueue) :
    (setMinVruntime th rq).nrReady = rq.nrReady := rfl

@[simp] theorem setMinVruntime_curr (th : Nat → Thread) (rq : ReadyQueue) :
    (setMinVruntime th rq).curr = rq.curr := rfl

@[simp] theorem setMinVruntime_idleThread (th : Nat → Thread) (rq : ReadyQueue) :
    (setMinVruntime th rq).idleThread = rq.idleThread := rfl

/-- `queue_weight`: the ready threads only. -/
def queueWeight (th : Nat → Thread) (rq : ReadyQueue) : Int :=
  rq.readyList.foldl (fun w t => w + prioToWeight ((th t).nice + 20)) 0

/-- `queue_total_weight`: the running thread too, and never `0`. -/
def queueTotalWeight (th : Nat → Thread) (rq : ReadyQueue) : Int :=
  let w0 := match rq.curr with
    | some c => prioToWeight ((th c).nice + 20)
    | none => 0
  let w := rq.readyList.foldl (fun w t => w + prioToWeight ((th t).nice + 20)) w0
  if w = 0 then 1 else w

/-- `find_thread`: the ready thread with the least `(vruntime, tid)`, starting
from the front. -/
def findThread (th : Nat → Thread) (rq : ReadyQueue) (front : Nat) : Nat :=
  rq.readyList.foldl (fun best t =>
    if (th t).vruntime < (th best).vruntime ∨
        ((th t).vruntime = (th best).vruntime ∧ t < best) then t else best) front

/-- `calc_ideal_runtime`. -/
def calcIdealRuntime (th : Nat → Thread) (rq : ReadyQueue) (curr : Nat) : Int :=
  let nanos : Int := 4000000
  let n : Int := if rq.curr.isSome then rq.nrReady + 1 else rq.nrReady
  let w := prioToWeight ((th curr).nice + 20)
  let s := queueTotalWeight th rq
  (nanos * n * w).tdiv s

/-- `get_thread_weight`. -/
def getThreadWeight (th : Nat → Thread) (t : Nat) : Int := prioToWeight ((th t).nice + 20)

/-- The vruntime bookkeeping of `sched_unblock` before the push: the running
thread is charged, and `t` gets its starting vruntime. -/
def unblockCharge (th : Nat → Thread) (rq : ReadyQueue) (t : Nat) (initial : Bool)
    (now : Int) : (Nat → Thread) × ReadyQueue :=
  match rq.curr, initial with
  | some c, false =>
    let th := modifyThread th c fun x => { x with timerStop := now }
    let th := modifyThread th c fun x => { x with vruntime := calcVruntime x 20 }
    let th := modifyThread th c fun x => { x with timerStart := now }
    let rq := setMinVruntime th rq
    let th := modifyThread th t fun x => { x with vruntime := calcVruntime x 0 }
    let th := modifyThread th t fun x =>
      { x with vruntime := max64 x.vruntime (rq.minVruntime - 20000000) }
    (th, rq)
  | some c, true =>
    let th := modifyThread th c fun x => { x with timerStop := now }
    let th := modifyThread th c fun x => { x with vruntime := calcVruntime x 20 }
    let rq := if (th c).timerStop - (th c).timerStart ≠ 0 then setMinVruntime th rq else rq
    let th := modifyThread th c fun x => { x with timerStart := now }
    let th := modifyThread th t fun x =>
      { x with vruntime := if rq.minVruntime ≠ 0 then rq.minVruntime else (th c).vruntime }
    (th, rq)
  | none, _ => (th, rq)

section Charge

variable (th : Nat → Thread) (rq : ReadyQueue) (t : Nat) (initial : Bool) (now : Int)

/-- The bookkeeping moves no thread: statuses stay. -/
@[simp] theorem unblockCharge_status (u : Nat) :
    ((unblockCharge th rq t initial now).1 u).status = (th u).status := by
  unfold unblockCharge
  split <;> simp (disch := intro; rfl) only [modifyThread_status]

/-- The bookkeeping moves no thread: CPUs stay. -/
@[simp] theorem unblockCharge_cpu (u : Nat) :
    ((unblockCharge th rq t initial now).1 u).cpu = (th u).cpu := by
  unfold unblockCharge
  split <;> simp (disch := intro; rfl) only [modifyThread_cpu]

/-- The queue keeps its list, count, current and idle thread. -/
theorem unblockCharge_queue :
    (unblockCharge th rq t initial now).2.readyList = rq.readyList ∧
      (unblockCharge th rq t initial now).2.nrReady = rq.nrReady ∧
      (unblockCharge th rq t initial now).2.curr = rq.curr ∧
      (unblockCharge th rq t initial now).2.idleThread = rq.idleThread := by
  unfold unblockCharge
  split
  · simp
  · dsimp only
    split <;> simp
  · simp

end Charge

/-- `sched_unblock (rq, t, initial)`. -/
def schedUnblock (th : Nat → Thread) (rq : ReadyQueue) (t : Nat) (initial : Bool)
    (now : Int) : (Nat → Thread) × ReadyQueue × SchedReturn :=
  let (th, rq) := unblockCharge th rq t initial now
  let rq := { rq with readyList := rq.readyList ++ [t], nrReady := rq.nrReady + 1 }
  (th, rq, if rq.curr.isNone ∨ initial = false then .returnYield else .returnNone)

section Unblock

variable (th : Nat → Thread) (rq : ReadyQueue) (t : Nat) (initial : Bool) (now : Int)

/-- `sched_unblock` appends `t` and counts it. -/
theorem schedUnblock_queue :
    (schedUnblock th rq t initial now).2.1.readyList = rq.readyList ++ [t] ∧
      (schedUnblock th rq t initial now).2.1.nrReady = rq.nrReady + 1 ∧
      (schedUnblock th rq t initial now).2.1.curr = rq.curr ∧
      (schedUnblock th rq t initial now).2.1.idleThread = rq.idleThread := by
  obtain ⟨h1, h2, h3, h4⟩ := unblockCharge_queue th rq t initial now
  simp [schedUnblock, h1, h2, h3, h4]

@[simp] theorem schedUnblock_status (u : Nat) :
    ((schedUnblock th rq t initial now).1 u).status = (th u).status := by
  simp [schedUnblock]

@[simp] theorem schedUnblock_cpu (u : Nat) :
    ((schedUnblock th rq t initial now).1 u).cpu = (th u).cpu := by
  simp [schedUnblock]

end Unblock

/-- `sched_yield (rq, current)`. -/
def schedYield (th : Nat → Thread) (rq : ReadyQueue) (cur : Nat) (now : Int) :
    (Nat → Thread) × ReadyQueue :=
  let rq := { rq with readyList := rq.readyList ++ [cur], nrReady := rq.nrReady + 1 }
  let th := modifyThread th cur fun x => { x with timerStop := now }
  let th := modifyThread th cur fun x => { x with vruntime := calcVruntime x 20 }
  (th, rq)

section Yield

variable (th : Nat → Thread) (rq : ReadyQueue) (cur : Nat) (now : Int)

@[simp] theorem schedYield_readyList : (schedYield th rq cur now).2.readyList = rq.readyList ++ [cur] :=
  rfl

@[simp] theorem schedYield_nrReady : (schedYield th rq cur now).2.nrReady = rq.nrReady + 1 := rfl

@[simp] theorem schedYield_curr : (schedYield th rq cur now).2.curr = rq.curr := rfl

@[simp] theorem schedYield_idleThread : (schedYield th rq cur now).2.idleThread = rq.idleThread :=
  rfl

@[simp] theorem schedYield_status (u : Nat) :
    ((schedYield th rq cur now).1 u).status = (th u).status := by
  simp (disch := intro; rfl) only [schedYield, modifyThread_status]

@[simp] theorem schedYield_cpu (u : Nat) : ((schedYield th rq cur now).1 u).cpu = (th u).cpu := by
  simp (disch := intro; rfl) only [schedYield, modifyThread_cpu]

end Yield

/-- `sched_pick_next (rq)`: `none` on an empty ready list. -/
def schedPickNext (th : Nat → Thread) (rq : ReadyQueue) (now : Int) :
    Option Nat × (Nat → Thread) × ReadyQueue :=
  match rq.readyList with
  | [] => (none, th, rq)
  | front :: _ =>
    let ret := findThread th rq front
    (some ret, modifyThread th ret (fun x => { x with timerStart := now }),
      { rq with readyList := rq.readyList.erase ret, nrReady := rq.nrReady - 1 })

/-- `find_thread` returns a thread it looked at: the front or a listed one. -/
theorem findThread_mem (th : Nat → Thread) (rq : ReadyQueue) {front : Nat}
    (h : front ∈ rq.readyList) : findThread th rq front ∈ rq.readyList := by
  unfold findThread
  -- the running choice is always the front or one of the listed threads
  suffices ∀ (l : List Nat) (b : Nat), b ∈ rq.readyList → (∀ x ∈ l, x ∈ rq.readyList) →
      l.foldl (fun best t => if (th t).vruntime < (th best).vruntime ∨
        ((th t).vruntime = (th best).vruntime ∧ t < best) then t else best) b ∈ rq.readyList from
    this _ _ h fun _ hx => hx
  intro l
  induction l with
  | nil => intro b hb _; exact hb
  | cons x l ih =>
    intro b hb hl
    simp only [List.foldl_cons]
    apply ih _ _ fun y hy => hl y (List.mem_cons_of_mem _ hy)
    split
    · exact hl x List.mem_cons_self
    · exact hb

/-- `sched_pick_next` either finds the list empty and changes nothing, or removes
and returns a listed thread, stamping only its `timer_start`. -/
theorem schedPickNext_cases (th : Nat → Thread) (rq : ReadyQueue) (now : Int) :
    (rq.readyList = [] ∧ schedPickNext th rq now = (none, th, rq)) ∨
    ∃ t ∈ rq.readyList, (schedPickNext th rq now).1 = some t ∧
      (schedPickNext th rq now).2.2 =
        { rq with readyList := rq.readyList.erase t, nrReady := rq.nrReady - 1 } ∧
      (schedPickNext th rq now).2.1 = modifyThread th t fun x => { x with timerStart := now } := by
  unfold schedPickNext
  split
  · exact .inl ⟨‹_›, rfl⟩
  · rename_i front rest hl
    exact .inr ⟨_, findThread_mem th rq (by rw [hl]; exact List.mem_cons_self), rfl, rfl, rfl⟩

/-- `sched_tick (rq, current)`. -/
def schedTick (th : Nat → Thread) (rq : ReadyQueue) (current : Nat) (now : Int) :
    ReadyQueue × SchedReturn :=
  let ideal := calcIdealRuntime th rq current
  let ticks := ((rq.threadTicks : Int) + (now - rq.lastTime)) % 2 ^ 32
  let rq := { rq with threadTicks := ticks.toNat, lastTime := now }
  if ideal ≤ rq.threadTicks then ({ rq with threadTicks := 0 }, .returnYield)
  else (rq, .returnNone)

/-- `sched_tick` touches only the tick count and the last tick time. -/
theorem schedTick_queue (th : Nat → Thread) (rq : ReadyQueue) (cur : Nat) (now : Int) :
    (schedTick th rq cur now).1.readyList = rq.readyList ∧
      (schedTick th rq cur now).1.nrReady = rq.nrReady ∧
      (schedTick th rq cur now).1.curr = rq.curr ∧
      (schedTick th rq cur now).1.idleThread = rq.idleThread := by
  unfold schedTick
  dsimp only
  split <;> simp

/-- `sched_block (rq, current)`. -/
def schedBlock (th : Nat → Thread) (cur : Nat) (now : Int) : Nat → Thread :=
  modifyThread th cur fun x => { x with timerStop := now }

@[simp] theorem schedBlock_status (th : Nat → Thread) (cur : Nat) (now : Int) (u : Nat) :
    (schedBlock th cur now u).status = (th u).status := by
  simp (disch := intro; rfl) only [schedBlock, modifyThread_status]

@[simp] theorem schedBlock_cpu (th : Nat → Thread) (cur : Nat) (now : Int) (u : Nat) :
    (schedBlock th cur now u).cpu = (th u).cpu := by
  simp (disch := intro; rfl) only [schedBlock, modifyThread_cpu]

end Pintos.Threads

import Pintos.Threads.ReadyQueues

/-!
# Load balancing (`balance_load` in `threads/thread.c`)

`balance_load` runs on an idle CPU (its call in `idle ()` is commented out). It
scans the active CPUs other than its own for the largest `queue_weight`; if that
load is at least twice its own, it steals threads from the front and the back of
that CPU's ready list in turn until the stolen weight reaches half the
difference, rewrites each stolen thread's `vruntime` by the difference of the
two queues' `min_vruntime`, pushes it onto its own list, and recomputes the
victim's `min_vruntime`. The spinlocks it holds make the whole call one atomic
step.

Neither queue's `nr_ready` nor a stolen thread's `cpu` changes, and the
`vruntime` is shifted the opposite way to the CFS specification's
`vruntime - busiest_min_vruntime + my_min_vruntime`
(`balance_load_breaks_queues`).
-/

namespace Pintos.Threads

/-- The scan for the busiest CPU: the first active CPU other than `self` with the
largest `queue_weight`, if that weight is above `0`, and the weight. -/
def findBusiest (S : Sched) (self : Nat) : Option Nat × Int :=
  (List.range S.ncpu).foldl (fun acc index =>
    if (S.cpus index).active = 0 ∨ index = self then acc
    else
      let currLoad := queueWeight S.threads (S.cpus index)
      if currLoad > acc.2 then (some index, currLoad) else acc) (none, 0)

/-- The stealing loop, while the stolen weight is below `imbalance`: a thread
popped from the front of the victim's list, then from the back, in turn, its
`vruntime` less `minVruntimeDiff` (at least `0`), pushed onto the front of this
CPU's list. `none` when a pop finds the victim's list empty, which fails the
`ASSERT` of `list_pop_front`. -/
def stealLoop (imbalance minVruntimeDiff : Int) :
    Nat → (Nat → Thread) → List Nat → List Nat → Int → Bool →
      Option ((Nat → Thread) × List Nat × List Nat)
  | 0, _, _, _, _, _ => none
  | fuel + 1, th, victim, mine, stolenWeight, front =>
    if stolenWeight < imbalance then
      match if front then victim.head? else victim.getLast? with
      | none => none
      | some stolen =>
        let victim := if front then victim.tail else victim.dropLast
        let stolenWeight := stolenWeight + getThreadWeight th stolen
        let v := (th stolen).vruntime - minVruntimeDiff
        let th := modifyThread th stolen fun x => { x with vruntime := if v < 0 then 0 else v }
        stealLoop imbalance minVruntimeDiff fuel th victim (stolen :: mine) stolenWeight !front
    else some (th, victim, mine)

/-- `balance_load ()` on CPU `self`. -/
def balanceLoad (S : Sched) (self : Nat) : Option Sched :=
  let me := S.cpus self
  if me.active = 0 then some S else
  match findBusiest S self with
  | (none, _) => some S
  | (some max, maxLoad) =>
    let myLoad := queueWeight S.threads me
    if maxLoad ≥ 2 * myLoad then
      let imbalance := (maxLoad - myLoad).tdiv 2
      let minVruntimeDiff := me.minVruntime - (S.cpus max).minVruntime
      let victim := (S.cpus max).readyList
      match stealLoop imbalance minVruntimeDiff (victim.length + 1) S.threads victim
          me.readyList 0 true with
      | none => none
      | some (th, victim, mine) =>
        let cpus := Function.update S.cpus self { me with readyList := mine }
        let cpus := Function.update cpus max
          (setMinVruntime th { S.cpus max with readyList := victim })
        some { S with threads := th, cpus := cpus }
    else some S

/-- Two CPUs: CPU 0 idle with nothing ready and `min_vruntime` 100; CPU 1 running
thread 2 with threads 4 and 5 ready (`vruntime` 50 and 60, nice 0) and
`min_vruntime` 50. -/
def twoCpuImbalance : Sched where
  threads := fun t =>
    if t = 0 then ⟨.running, some 0, 19, 0, 0, 0⟩
    else if t = 1 then ⟨.blocked, some 1, 19, 0, 0, 0⟩
    else if t = 2 then ⟨.running, some 1, 0, 50, 0, 0⟩
    else if t = 4 then ⟨.ready, some 1, 0, 50, 0, 0⟩
    else if t = 5 then ⟨.ready, some 1, 0, 60, 0, 0⟩
    else initThread 0
  cpus := fun c =>
    if c = 0 then ⟨none, 0, 0, [], 0, 100, 0, 1⟩ else ⟨some 2, 1, 0, [4, 5], 2, 50, 0, 1⟩
  ncpu := 2
  running := fun c => if c = 0 then 0 else 2
  nextTid := 6
  startedOthers := true

theorem twoCpuImbalance_cpu {c : Nat} (hc : c < twoCpuImbalance.ncpu) : c = 0 ∨ c = 1 := by
  change c < 2 at hc
  omega

theorem twoCpuImbalance_consistent : twoCpuImbalance.QueuesConsistent where
  nr_ready := by
    intro c hc
    rcases twoCpuImbalance_cpu hc with rfl | rfl <;> rfl
  ready_status := by
    intro c hc t ht
    rcases twoCpuImbalance_cpu hc with rfl | rfl
    · simp [twoCpuImbalance] at ht
    · simp [twoCpuImbalance] at ht
      rcases ht with rfl | rfl <;> rfl
  ready_cpu := by
    intro c hc t ht
    rcases twoCpuImbalance_cpu hc with rfl | rfl
    · simp [twoCpuImbalance] at ht
    · simp [twoCpuImbalance] at ht
      rcases ht with rfl | rfl <;> rfl
  nodup := by
    intro c hc
    rcases twoCpuImbalance_cpu hc with rfl | rfl <;> decide
  disjoint := by
    intro c hc c' hc' hne
    rcases twoCpuImbalance_cpu hc with rfl | rfl <;> rcases twoCpuImbalance_cpu hc' with rfl | rfl <;>
      simp_all [twoCpuImbalance]
  idle_off := by
    intro c hc
    unfold Sched.OnReadyList
    rcases twoCpuImbalance_cpu hc with rfl | rfl <;> decide
  curr_none := by
    intro c hc
    rcases twoCpuImbalance_cpu hc with rfl | rfl <;> decide
  curr_some := by
    intro c hc t ht
    rcases twoCpuImbalance_cpu hc with rfl | rfl
    · simp [twoCpuImbalance] at ht
    · simp [twoCpuImbalance] at ht
      subst ht
      unfold Sched.OnReadyList
      decide

/-- On a consistent configuration where idle CPU 0 finds CPU 1 twice as loaded,
`balance_load` moves thread 4 onto CPU 0's list but leaves its `cpu` at CPU 1 and
CPU 0's `nr_ready` at `0`, and gives it `vruntime` `0` where the specification
asks for `50 - 50 + 100`. -/
theorem balance_load_breaks_queues :
    ∃ S', twoCpuImbalance.QueuesConsistent ∧
      twoCpuImbalance.running 0 = (twoCpuImbalance.cpus 0).idleThread ∧
      balanceLoad twoCpuImbalance 0 = some S' ∧
      4 ∈ (S'.cpus 0).readyList ∧ (S'.threads 4).cpu = some 1 ∧
      (S'.cpus 0).nrReady ≠ (S'.cpus 0).readyList.length ∧
      (S'.threads 4).vruntime ≠ (twoCpuImbalance.threads 4).vruntime -
        (twoCpuImbalance.cpus 1).minVruntime + (twoCpuImbalance.cpus 0).minVruntime := by
  have h : (balanceLoad twoCpuImbalance 0).map (fun S' =>
      decide (4 ∈ (S'.cpus 0).readyList ∧ (S'.threads 4).cpu = some 1 ∧
        (S'.cpus 0).nrReady ≠ (S'.cpus 0).readyList.length ∧
        (S'.threads 4).vruntime ≠ (twoCpuImbalance.threads 4).vruntime -
          (twoCpuImbalance.cpus 1).minVruntime + (twoCpuImbalance.cpus 0).minVruntime)) =
      some true := by
    decide +kernel
  obtain ⟨S', hbal, hobs⟩ := Option.map_eq_some_iff.mp h
  exact ⟨S', twoCpuImbalance_consistent, rfl, hbal, of_decide_eq_true hobs⟩

end Pintos.Threads

import Mathlib
import Pintos.Lib.ArgMin
import Pintos.Threads.Thread

/-!
# The rules of `doc/cfs.texi` against `scheduler.c`

`cfs.texi` gives the scheduler's rules: every weight is an entry of the 40-entry
`prio_to_weight`; `min_vruntime` only grows and no vruntime shrinks; a woken
thread starts at `max (vruntime, min_vruntime - 20000000)` and preempts the
running thread when the CPU is idle or its vruntime is lower; `sched_pick_next`
takes the least `(vruntime, tid)`; a tick preempts the running thread once it
has run its ideal runtime since it was picked.

`sched_pick_next` keeps its rule on every queue (`pick_next_least`). The others
fail on short runs from boot on one CPU, with the clock going forward
(`Sched.clockStep`): a woken thread with a negative nice value is charged with
`prio_to_weight[nice]`, before the table; the sleeper bonus places a woken thread
below `min_vruntime`, and the next `set_min_vruntime` takes it; every wake-up
returns `RETURN_YIELD`; and `thread_ticks`, reset only when `sched_tick` asks for
a yield, carries the time of the thread that blocked into the slice of the next.
-/

namespace Pintos.Threads

/-- `NICE_MIN <= nice && nice <= NICE_MAX`, which `init_thread` asserts. -/
def NiceInRange (x : Thread) : Prop := -20 ≤ x.nice ∧ x.nice ≤ 19

instance (x : Thread) : Decidable (NiceInRange x) := inferInstanceAs (Decidable (_ ∧ _))

/-- An index of the 40 entries of `prio_to_weight`. -/
def WeightIndex (i : Int) : Prop := 0 ≤ i ∧ i < 40

instance (i : Int) : Decidable (WeightIndex i) := inferInstanceAs (Decidable (_ ∧ _))

/-- The entries of `prio_to_weight` that `calc_vruntime (t, bonus)` reads: `w0`,
then `w`. -/
def calcVruntimeIndices (x : Thread) (bonus : Int) : List Int :=
  [niceDefault + bonus, x.nice + bonus]

/-- The entries that `sched_unblock (rq, t, initial)` reads: those of
`calc_vruntime` on the running thread with bonus 20 and, on a wake-up, on `t`
with bonus 0. -/
def schedUnblockIndices (th : Nat → Thread) (rq : ReadyQueue) (t : Nat) (initial : Bool) :
    List Int :=
  match rq.curr, initial with
  | some c, false => calcVruntimeIndices (th c) 20 ++ calcVruntimeIndices (th t) 0
  | some c, true => calcVruntimeIndices (th c) 20
  | none, _ => []

/-- The entries that `sched_tick (rq, cur)` reads, through `calc_ideal_runtime`
and `queue_total_weight`. -/
def schedTickIndices (th : Nat → Thread) (rq : ReadyQueue) (cur : Nat) : List Int :=
  ((th cur).nice + 20) :: (rq.curr.toList ++ rq.readyList).map fun u => (th u).nice + 20

section Weights

variable {th : Nat → Thread} {rq : ReadyQueue}

/-- With bonus 20, `calc_vruntime` stays in the table. -/
theorem calcVruntimeIndices_twenty {x : Thread} (hx : NiceInRange x) :
    ∀ i ∈ calcVruntimeIndices x 20, WeightIndex i := by
  simp only [calcVruntimeIndices, niceDefault, List.mem_cons, List.not_mem_nil, or_false]
  rintro i (rfl | rfl) <;> simp only [WeightIndex, NiceInRange] at hx ⊢ <;> omega

/-- With bonus 0, `calc_vruntime` stays in the table exactly for a nice value of
at least 0. -/
theorem calcVruntimeIndices_zero_iff {x : Thread} (hx : NiceInRange x) :
    (∀ i ∈ calcVruntimeIndices x 0, WeightIndex i) ↔ 0 ≤ x.nice := by
  simp only [calcVruntimeIndices, niceDefault, List.mem_cons, List.not_mem_nil, or_false,
    forall_eq_or_imp, forall_eq, WeightIndex]
  simp only [NiceInRange] at hx
  omega

/-- Between threads whose nice values `thread_create` allows, `sched_unblock`
leaves the table exactly on a wake-up, on a CPU that runs a thread, of a thread
with a negative nice value. -/
theorem schedUnblockIndices_weightIndex_iff {t : Nat} {initial : Bool}
    (hc : ∀ c, rq.curr = some c → NiceInRange (th c)) (ht : NiceInRange (th t)) :
    (∀ i ∈ schedUnblockIndices th rq t initial, WeightIndex i) ↔
      rq.curr = none ∨ initial = true ∨ 0 ≤ (th t).nice := by
  unfold schedUnblockIndices
  split
  · rename_i c hcur
    have hcurr := calcVruntimeIndices_twenty (hc c hcur)
    simp only [List.mem_append, hcur, reduceCtorEq, Bool.false_eq_true, false_or]
    rw [← calcVruntimeIndices_zero_iff ht]
    exact ⟨fun h i hi => h i (.inr hi), fun h i => Or.rec (hcurr i) (h i)⟩
  · rename_i c hcur
    simp only [hcur, reduceCtorEq, true_or, or_true, iff_true]
    exact calcVruntimeIndices_twenty (hc c hcur)
  · rename_i hcur
    simp [hcur]

/-- `sched_tick` stays in the table while the running and ready threads have nice
values `thread_create` allows. -/
theorem schedTickIndices_weightIndex {cur : Nat} (hcur : NiceInRange (th cur))
    (hq : ∀ u ∈ rq.curr.toList ++ rq.readyList, NiceInRange (th u)) :
    ∀ i ∈ schedTickIndices th rq cur, WeightIndex i := by
  simp only [schedTickIndices, List.mem_cons, List.mem_map]
  rintro i (rfl | ⟨u, hu, rfl⟩)
  · simp only [WeightIndex, NiceInRange] at hcur ⊢
    omega
  · have hu' := hq u hu
    simp only [WeightIndex, NiceInRange] at hu' ⊢
    omega

end Weights

/-- A thread created with nice value `-1` runs, blocks, and is woken while CPU 0
runs the boot thread: `sched_unblock` charges it with `prio_to_weight[-1]`. -/
theorem wake_up_reads_before_weight_table :
    ∃ S, Lts.Reachable Sched.step (Sched.boot 1 false) S ∧ ∃ t c now,
      NiceInRange (S.threads t) ∧ (S.threads t).cpu = some c ∧
      (S.step (c, .threadUnblock t, now)).isSome ∧
      ∃ i ∈ schedUnblockIndices S.threads (S.cpus c) t false,
        ¬ WeightIndex i ∧ prioToWeight i = 0 := by
  obtain ⟨S, hS, hP⟩ : ∃ S, Lts.Reachable Sched.step (Sched.boot 1 false) S ∧
      NiceInRange (S.threads 2) ∧ (S.threads 2).cpu = some 0 ∧
      (S.step (0, .threadUnblock 2, 300)).isSome ∧
      ∃ i ∈ schedUnblockIndices S.threads (S.cpus 0) 2 false,
        ¬ WeightIndex i ∧ prioToWeight i = 0 :=
    Lts.exists_reachable_of_run_decide
      [(0, .threadCreate (-1) true, 0), (0, .threadYield, 100), (0, .threadBlock, 200)]
      (by decide)
  exact ⟨S, hS, 2, 0, 300, hP⟩

/-- `Sched.step` with the clock's last reading beside the state: `timer_gettime ()`
never goes back. -/
def Sched.clockStep (S : Sched × Int) : Nat × SchedOp × Int → Option (Sched × Int)
  | (c, op, now) => if S.2 ≤ now then (S.1.step (c, op, now)).map fun S' => (S', now) else none

/-- A thread runs 100 ns and blocks, and is woken 50 ms later, when `min_vruntime`
is the boot thread's 50000100: the sleeper bonus places it at 30000100, and the
`set_min_vruntime` of the next `thread_create` takes it. -/
theorem min_vruntime_moves_back :
    ∃ S S' a, Lts.Reachable Sched.clockStep (Sched.boot 1 false, 0) S ∧
      Sched.clockStep S a = some S' ∧ (S'.1.cpus 0).minVruntime < (S.1.cpus 0).minVruntime := by
  obtain ⟨S, S', hS, hst, hlt⟩ : ∃ S S', Lts.Reachable Sched.clockStep (Sched.boot 1 false, 0) S ∧
      Sched.clockStep S (0, .threadCreate 0 true, 50000300) = some S' ∧
      (S'.1.cpus 0).minVruntime < (S.1.cpus 0).minVruntime :=
    Lts.exists_step_of_run_decide
      [(0, .threadCreate 0 true, 0), (0, .threadYield, 100), (0, .threadBlock, 200),
        (0, .threadUnblock 2, 50000200)]
      _ (by decide)
  exact ⟨S, S', _, hS, hst, hlt⟩

/-- A thread runs 1 ms and blocks, and is woken 100 ns later: its vruntime is then
1000000 against the running boot thread's 200, and `sched_unblock` still returns
`RETURN_YIELD`. -/
theorem wake_up_yields_to_later_vruntime :
    ∃ S, Lts.Reachable Sched.clockStep (Sched.boot 1 false, 0) S ∧ ∃ t c now cur,
      (Sched.clockStep S (c, .threadUnblock t, now)).isSome ∧ (S.1.threads t).cpu = some c ∧
      (S.1.cpus c).curr = some cur ∧
      let r := schedUnblock (modifyThread S.1.threads t fun x => { x with status := .ready })
        (S.1.cpus c) t false now
      (r.1 cur).vruntime ≤ (r.1 t).vruntime ∧ r.2.2 = .returnYield := by
  obtain ⟨S, hS, hP⟩ : ∃ S, Lts.Reachable Sched.clockStep (Sched.boot 1 false, 0) S ∧
      (Sched.clockStep S (0, .threadUnblock 2, 1000200)).isSome ∧
      (S.1.threads 2).cpu = some 0 ∧ (S.1.cpus 0).curr = some 0 ∧
      let r := schedUnblock (modifyThread S.1.threads 2 fun x => { x with status := .ready })
        (S.1.cpus 0) 2 false 1000200
      (r.1 0).vruntime ≤ (r.1 2).vruntime ∧ r.2.2 = .returnYield :=
    Lts.exists_reachable_of_run_decide
      [(0, .threadCreate 0 true, 0), (0, .threadYield, 100), (0, .threadBlock, 1000100)]
      (by decide)
  exact ⟨S, hS, 2, 0, 1000200, 0, hP⟩

/-- `find_thread`'s order: `(vruntime, tid)`, lexicographically. -/
def pickKey (th : Nat → Thread) (t : Nat) : Int ×ₗ Nat := toLex ((th t).vruntime, t)

/-- `find_thread` is the scan for the least key, seeded with the list's front. -/
theorem findThread_eq_scanMin (th : Nat → Thread) (rq : ReadyQueue) (front : Nat) :
    findThread th rq front = ArgMin.scanMin (pickKey th) front rq.readyList := by
  simp only [findThread, ArgMin.scanMin, pickKey, Prod.Lex.toLex_lt_toLex]

/-- `sched_pick_next` on a non-empty list. -/
theorem schedPickNext_of_cons {th : Nat → Thread} {rq : ReadyQueue} {front : Nat}
    {rest : List Nat} (h : rq.readyList = front :: rest) (now : Int) :
    schedPickNext th rq now =
      (some (findThread th rq front),
        modifyThread th (findThread th rq front) (fun x => { x with timerStart := now }),
        { rq with
          readyList := rq.readyList.erase (findThread th rq front)
          nrReady := rq.nrReady - 1 }) := by
  unfold schedPickNext
  split
  · rename_i hnil
    rw [h] at hnil
    cases hnil
  · rename_i front' rest' hcons
    rw [h, List.cons.injEq] at hcons
    rw [hcons.1]

/-- On a queue whose `nr_ready` counts its list, `sched_pick_next` returns `NULL`
and changes nothing when the list is empty; otherwise it returns the thread with
the least `(vruntime, tid)`, takes it out of its place in the list, keeps the
others in their order, and lowers `nr_ready` by one. -/
theorem pick_next_least (th : Nat → Thread) (rq : ReadyQueue) (now : Int)
    (hn : rq.nrReady = rq.readyList.length) :
    (rq.readyList = [] → schedPickNext th rq now = (none, th, rq)) ∧
    (rq.readyList ≠ [] → ∃ t l₁ l₂, rq.readyList = l₁ ++ t :: l₂ ∧
      (schedPickNext th rq now).1 = some t ∧
      (∀ u ∈ rq.readyList, pickKey th t ≤ pickKey th u) ∧
      (schedPickNext th rq now).2.2 =
        { rq with readyList := l₁ ++ l₂, nrReady := rq.nrReady - 1 } ∧
      (schedPickNext th rq now).2.2.nrReady + 1 = rq.nrReady) := by
  refine ⟨fun h => by simp [schedPickNext, h], fun hne => ?_⟩
  obtain ⟨front, rest, hl⟩ := List.exists_cons_of_ne_nil hne
  have hmem : findThread th rq front ∈ rq.readyList :=
    findThread_mem th rq (by rw [hl]; exact List.mem_cons_self)
  obtain ⟨l₁, l₂, -, hsplit, herase⟩ := List.exists_erase_eq hmem
  have hpos : 0 < rq.nrReady := by simp [hn, hl]
  refine ⟨_, l₁, l₂, hsplit, by rw [schedPickNext_of_cons hl], fun u hu => ?_, ?_, ?_⟩
  · rw [findThread_eq_scanMin]
    exact ArgMin.scanMin_le_of_mem _ _ hu
  · rw [schedPickNext_of_cons hl, herase]
  · rw [schedPickNext_of_cons hl]
    dsimp only
    omega

/-- Two ready threads of equal vruntime, listed in the order 3, 2. -/
theorem pick_next_least_tie :
    (⟨none, 1, 0, [3, 2], 2, 0, 0, 1⟩ : ReadyQueue).nrReady =
      (⟨none, 1, 0, [3, 2], 2, 0, 0, 1⟩ : ReadyQueue).readyList.length ∧
    ((⟨none, 1, 0, [3, 2], 2, 0, 0, 1⟩ : ReadyQueue).readyList = [] →
      schedPickNext (fun _ => initThread 0) ⟨none, 1, 0, [3, 2], 2, 0, 0, 1⟩ 0 =
        (none, fun _ => initThread 0, ⟨none, 1, 0, [3, 2], 2, 0, 0, 1⟩)) ∧
    ((⟨none, 1, 0, [3, 2], 2, 0, 0, 1⟩ : ReadyQueue).readyList ≠ [] → ∃ t l₁ l₂,
      (⟨none, 1, 0, [3, 2], 2, 0, 0, 1⟩ : ReadyQueue).readyList = l₁ ++ t :: l₂ ∧
      (schedPickNext (fun _ => initThread 0) ⟨none, 1, 0, [3, 2], 2, 0, 0, 1⟩ 0).1 = some t ∧
      (∀ u ∈ (⟨none, 1, 0, [3, 2], 2, 0, 0, 1⟩ : ReadyQueue).readyList,
        pickKey (fun _ => initThread 0) t ≤ pickKey (fun _ => initThread 0) u) ∧
      (schedPickNext (fun _ => initThread 0) ⟨none, 1, 0, [3, 2], 2, 0, 0, 1⟩ 0).2.2 =
        { (⟨none, 1, 0, [3, 2], 2, 0, 0, 1⟩ : ReadyQueue) with
          readyList := l₁ ++ l₂
          nrReady := (⟨none, 1, 0, [3, 2], 2, 0, 0, 1⟩ : ReadyQueue).nrReady - 1 } ∧
      (schedPickNext (fun _ => initThread 0) ⟨none, 1, 0, [3, 2], 2, 0, 0, 1⟩ 0).2.2.nrReady + 1 =
        (⟨none, 1, 0, [3, 2], 2, 0, 0, 1⟩ : ReadyQueue).nrReady) :=
  ⟨rfl, pick_next_least (fun _ => initThread 0) ⟨none, 1, 0, [3, 2], 2, 0, 0, 1⟩ 0 rfl⟩

/-- The boot thread runs 3 ms with a new thread ready, and blocks; the new thread is
picked, and a tick 1 ms later preempts it, though its ideal runtime is 4 ms:
`thread_ticks` still holds the boot thread's 3 ms. -/
theorem tick_preempts_before_ideal_runtime :
    ∃ S S' a c, Lts.Reachable Sched.clockStep (Sched.boot 1 false, 0) S ∧
      Sched.clockStep S a = some S' ∧ S'.1.running c ≠ S.1.running c ∧
      (S'.1.cpus c).curr = some (S'.1.running c) ∧ ∃ now,
        (Sched.clockStep S' (c, .threadTick, now)).isSome ∧
        now - S'.2 < calcIdealRuntime S'.1.threads (S'.1.cpus c) (S'.1.running c) ∧
        (schedTick S'.1.threads (S'.1.cpus c) (S'.1.running c) now).2 = .returnYield := by
  obtain ⟨S, S', hS, hst, hrun, hcurr, htick, hlt, hyield⟩ : ∃ S S',
      Lts.Reachable Sched.clockStep (Sched.boot 1 false, 0) S ∧
      Sched.clockStep S (0, .threadBlock, 3000000) = some S' ∧
      S'.1.running 0 ≠ S.1.running 0 ∧ (S'.1.cpus 0).curr = some (S'.1.running 0) ∧
      (Sched.clockStep S' (0, .threadTick, 4000000)).isSome ∧
      4000000 - S'.2 < calcIdealRuntime S'.1.threads (S'.1.cpus 0) (S'.1.running 0) ∧
      (schedTick S'.1.threads (S'.1.cpus 0) (S'.1.running 0) 4000000).2 = .returnYield :=
    Lts.exists_step_of_run_decide [(0, .threadCreate 0 true, 0), (0, .threadTick, 3000000)]
      _ (by decide)
  exact ⟨S, S', _, 0, hS, hst, hrun, hcurr, 4000000, htick, hlt, hyield⟩

end Pintos.Threads

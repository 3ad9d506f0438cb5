import Mathlib
import Pintos.Threads.Thread

/-!
# Consistency of the per-CPU ready queues

`Sched.QueuesConsistent` is the property of every reachable state: for each CPU,
`nr_ready` counts `ready_list`; every listed thread is `THREAD_READY` and bound
to that CPU; no thread is listed twice or on two CPUs; no idle thread is listed;
and `rq.curr` is `NULL` exactly when the CPU runs its idle thread, otherwise the
CPU's running thread, which is `THREAD_RUNNING` and listed nowhere.

It follows from a smaller inductive invariant, `Sched.Inv`. The cross-CPU facts
come from the `cpu` field: a listed thread is bound to its CPU, so it is on one
list only, and a running thread is not `READY`, so it is not listed. Every
operation but `thread_unblock`, `thread_create` and `thread_tick` ends in
`schedule`; `Sched.PreSchedule` is the state they hand to it, and
`schedule_inv` turns that into `Sched.Inv` once for all of them.
-/

namespace Pintos.Threads

/-- `t` is on the ready list of some CPU. -/
def Sched.OnReadyList (S : Sched) (t : Nat) : Prop := ∃ c < S.ncpu, t ∈ (S.cpus c).readyList

/-- The consistency of the per-CPU ready queues. -/
structure Sched.QueuesConsistent (S : Sched) : Prop where
  nr_ready : ∀ c < S.ncpu, (S.cpus c).nrReady = (S.cpus c).readyList.length
  ready_status : ∀ c < S.ncpu, ∀ t ∈ (S.cpus c).readyList, (S.threads t).status = .ready
  ready_cpu : ∀ c < S.ncpu, ∀ t ∈ (S.cpus c).readyList, (S.threads t).cpu = some c
  nodup : ∀ c < S.ncpu, (S.cpus c).readyList.Nodup
  disjoint : ∀ c < S.ncpu, ∀ c' < S.ncpu, c ≠ c' →
    ∀ t ∈ (S.cpus c).readyList, t ∉ (S.cpus c').readyList
  idle_off : ∀ c < S.ncpu, ¬ S.OnReadyList (S.cpus c).idleThread
  curr_none : ∀ c < S.ncpu, (S.cpus c).curr = none ↔ S.running c = (S.cpus c).idleThread
  curr_some : ∀ c < S.ncpu, ∀ t, (S.cpus c).curr = some t →
    t = S.running c ∧ (S.threads t).status = .running ∧ ¬ S.OnReadyList t

/-- What holds of the queues both between operations and when `schedule` starts. -/
structure Sched.Base (S : Sched) : Prop where
  nr_ready : ∀ c < S.ncpu, (S.cpus c).nrReady = (S.cpus c).readyList.length
  nodup : ∀ c < S.ncpu, (S.cpus c).readyList.Nodup
  ready : ∀ c < S.ncpu, ∀ t ∈ (S.cpus c).readyList,
    (S.threads t).status = .ready ∧ (S.threads t).cpu = some c
  idle_off : ∀ c < S.ncpu, (S.cpus c).idleThread ∉ (S.cpus c).readyList
  idle_cpu : ∀ c < S.ncpu, (S.threads (S.cpus c).idleThread).cpu = some c
  curr : ∀ c < S.ncpu, (S.cpus c).curr =
    if S.running c = (S.cpus c).idleThread then none else some (S.running c)
  cpu_lt : ∀ t c, (S.threads t).cpu = some c → c < S.ncpu
  fresh : ∀ t, S.nextTid ≤ t → (S.threads t).cpu = none

/-- The inductive invariant: every CPU's running thread is `THREAD_RUNNING` and
bound to it. -/
structure Sched.Inv (S : Sched) : Prop extends S.Base where
  running : ∀ c < S.ncpu,
    (S.threads (S.running c)).status = .running ∧ (S.threads (S.running c)).cpu = some c

/-- The state `schedule` starts from on CPU `c`: the thread running there has
given up the CPU (it may have queued itself), the other CPUs are as usual. -/
structure Sched.PreSchedule (S : Sched) (c : Nat) : Prop extends S.Base where
  lt : c < S.ncpu
  running_other : ∀ c' < S.ncpu, c' ≠ c →
    (S.threads (S.running c')).status = .running ∧ (S.threads (S.running c')).cpu = some c'
  cur_cpu : (S.threads (S.running c)).cpu = some c

section Consistency

variable {S : Sched}

/-- A listed thread is listed on its own CPU only. -/
theorem Sched.Base.mem_eq {c c' t : Nat} (h : S.Base) (hc : c < S.ncpu) (hc' : c' < S.ncpu)
    (ht : t ∈ (S.cpus c).readyList) (ht' : t ∈ (S.cpus c').readyList) : c = c' := by
  have h1 := (h.ready c hc t ht).2
  rw [(h.ready c' hc' t ht').2] at h1
  exact (Option.some.inj h1).symm

/-- A `THREAD_RUNNING` thread is listed nowhere. -/
theorem Sched.Base.not_onReadyList {t : Nat} (h : S.Base)
    (hs : (S.threads t).status = .running) : ¬ S.OnReadyList t := by
  rintro ⟨c, hc, ht⟩
  rw [(h.ready c hc t ht).1] at hs
  cases hs

/-- No idle thread is listed, on its CPU or another. -/
theorem Sched.Base.idle_not_onReadyList {c : Nat} (h : S.Base) (hc : c < S.ncpu) :
    ¬ S.OnReadyList (S.cpus c).idleThread := by
  rintro ⟨c', hc', ht⟩
  have hcpu := (h.ready c' hc' _ ht).2
  rw [h.idle_cpu c hc] at hcpu
  obtain rfl := Option.some.inj hcpu
  exact h.idle_off c hc ht

theorem Sched.Inv.queuesConsistent (h : S.Inv) : S.QueuesConsistent where
  nr_ready := h.nr_ready
  ready_status c hc t ht := (h.ready c hc t ht).1
  ready_cpu c hc t ht := (h.ready c hc t ht).2
  nodup := h.nodup
  disjoint c hc c' hc' hne t ht ht' := hne (h.mem_eq hc hc' ht ht')
  idle_off c hc := h.idle_not_onReadyList hc
  curr_none c hc := by
    rw [h.curr c hc]
    split <;> simp_all
  curr_some c hc t ht := by
    rw [h.curr c hc] at ht
    split at ht
    · cases ht
    · obtain rfl := Option.some.inj ht
      have hs := (h.running c hc).1
      exact ⟨rfl, hs, h.not_onReadyList hs⟩

end Consistency

section Schedule

variable {S : Sched} {c : Nat}

/-- `schedule` in one shape for both of its cases: it runs `p` (a listed thread
it unlinked, or the idle thread when nothing is listed), sets `rq.curr` from `p`
and marks `p` running. When `p` is the thread already running, `rq.curr` is
already right (`Base.curr`), so the shape covers that branch too. -/
theorem schedule_eq (h : S.PreSchedule c) (now : Int) :
    ∃ p th L nr,
      ((p ∈ (S.cpus c).readyList ∧ L = (S.cpus c).readyList.erase p ∧
          nr = (S.cpus c).nrReady - 1) ∨
        ((S.cpus c).readyList = [] ∧ p = (S.cpus c).idleThread ∧ L = (S.cpus c).readyList ∧
          nr = (S.cpus c).nrReady)) ∧
      (∀ u, (th u).status = (S.threads u).status ∧ (th u).cpu = (S.threads u).cpu) ∧
      schedule S c now =
        { S with
          threads := modifyThread th p fun x => { x with status := .running }
          running := Function.update S.running c p
          cpus := Function.update S.cpus c
            { S.cpus c with
              readyList := L
              nrReady := nr
              curr := if p = (S.cpus c).idleThread then none else some p } } := by
  have hcurr := h.curr c h.lt
  rcases schedPickNext_cases S.threads (S.cpus c) now with ⟨hnil, hpick⟩ | ⟨t, ht, h1, h2, h3⟩
  · -- nothing is ready: the idle thread is next
    refine ⟨_, S.threads, _, _, .inr ⟨hnil, rfl, rfl, rfl⟩, fun u => ⟨rfl, rfl⟩, ?_⟩
    unfold schedule
    rw [hpick]
    dsimp only
    split
    · simp
    · rename_i hcur
      have hcur : S.running c = (S.cpus c).idleThread := by simpa using hcur
      simp only [hcur, if_true] at hcurr
      simp only [Option.getD_none, if_true]
      rw [← hcurr]
      -- the queue record is the old one; only the `running` entry is rewritten
      congr 1
      rw [← hcur, Function.update_eq_self]
  · -- `t` is picked
    refine ⟨t, modifyThread S.threads t fun x => { x with timerStart := now }, _, _,
      .inl ⟨ht, rfl, rfl⟩, fun u => ⟨modifyThread_status (by intro; rfl) u,
        modifyThread_cpu (by intro; rfl) u⟩, ?_⟩
    have hpick : schedPickNext S.threads (S.cpus c) now =
        (some t, modifyThread S.threads t (fun x => { x with timerStart := now }),
          { S.cpus c with
            readyList := (S.cpus c).readyList.erase t
            nrReady := (S.cpus c).nrReady - 1 }) :=
      Prod.ext h1 (Prod.ext h3 h2)
    unfold schedule
    rw [hpick]
    dsimp only
    split
    · rfl
    · rename_i hcur
      have hcur : S.running c = t := by simpa using hcur
      rw [hcur] at hcurr
      simp only [Option.getD_some, ← hcur, Function.update_eq_self]
      rw [hcur, ← hcurr]

/-- **`schedule` restores the invariant.** -/
theorem schedule_inv (h : S.PreSchedule c) (now : Int) : (schedule S c now).Inv := by
  obtain ⟨p, th, L, nr, hcase, hth, heq⟩ := schedule_eq h now
  have hc := h.lt
  -- `p` is bound to `c`, and the new list is the old one without `p`
  have hp_cpu : (S.threads p).cpu = some c := by
    rcases hcase with ⟨hp, -, -⟩ | ⟨-, rfl, -, -⟩
    · exact (h.ready c hc p hp).2
    · exact h.idle_cpu c hc
  have hL : L.Nodup ∧ nr = L.length ∧ p ∉ L ∧ ∀ u ∈ L, u ∈ (S.cpus c).readyList := by
    have hnd := h.nodup c hc
    rcases hcase with ⟨hp, rfl, rfl⟩ | ⟨hnil, rfl, rfl, rfl⟩
    · refine ⟨hnd.erase p, ?_, hnd.not_mem_erase, fun u hu => List.mem_of_mem_erase hu⟩
      rw [List.length_erase_of_mem hp, h.nr_ready c hc]
    · rw [hnil]
      exact ⟨List.nodup_nil, by rw [h.nr_ready c hc, hnil], List.not_mem_nil, fun _ hu => hu⟩
  obtain ⟨hLnd, hLlen, hpL, hLsub⟩ := hL
  have hst : ∀ u, (modifyThread th p (fun x => { x with status := .running }) u).status =
      if u = p then .running else (S.threads u).status := by
    intro u
    rw [modifyThread_apply]
    split <;> simp [hth]
  have hcpu : ∀ u, (modifyThread th p (fun x => { x with status := .running }) u).cpu =
      (S.threads u).cpu := by
    intro u
    rw [modifyThread_apply]
    split <;> simp_all
  have hne : ∀ u c', c' ≠ c → (S.threads u).cpu = some c' → u ≠ p := by
    rintro u c' hc' hu rfl
    rw [hp_cpu] at hu
    exact hc' (Option.some.inj hu).symm
  rw [heq]
  refine ⟨⟨?_, ?_, ?_, ?_, ?_, ?_, ?_, ?_⟩, ?_⟩
  · intro c' hc'
    by_cases e : c' = c
    · subst e; simpa using hLlen
    · simpa [Function.update_apply, e] using h.nr_ready c' hc'
  · intro c' hc'
    by_cases e : c' = c
    · subst e; simpa using hLnd
    · simpa [Function.update_apply, e] using h.nodup c' hc'
  · intro c' hc' u hu
    by_cases e : c' = c
    · subst e
      simp only [Function.update_self] at hu
      have hup : u ≠ p := fun hup => hpL (hup ▸ hu)
      rw [hst, if_neg hup, hcpu]
      exact h.ready c' hc' u (hLsub u hu)
    · simp only [Function.update_apply, e, if_false] at hu
      have hu' := h.ready c' hc' u hu
      rw [hst, if_neg (hne u c' e hu'.2), hcpu]
      exact hu'
  · intro c' hc'
    by_cases e : c' = c
    · subst e
      simp only [Function.update_self]
      exact fun hi => h.idle_off c' hc' (hLsub _ hi)
    · simpa [Function.update_apply, e] using h.idle_off c' hc'
  · intro c' hc'
    by_cases e : c' = c
    · subst e; simpa [hcpu] using h.idle_cpu c' hc'
    · simpa [Function.update_apply, e, hcpu] using h.idle_cpu c' hc'
  · intro c' hc'
    by_cases e : c' = c
    · subst e; simp
    · simpa [Function.update_apply, e] using h.curr c' hc'
  · intro u c' hu
    rw [hcpu] at hu
    exact h.cpu_lt u c' hu
  · intro u hu
    rw [hcpu]
    exact h.fresh u hu
  · intro c' hc'
    by_cases e : c' = c
    · subst e
      dsimp only
      rw [Function.update_self, hst, if_pos rfl, hcpu, hp_cpu]
      exact ⟨rfl, rfl⟩
    · have hr := h.running_other c' hc' e
      simp only [Function.update_apply, e, if_false, hst, hcpu]
      rw [if_neg (hne _ c' e hr.2)]
      exact hr

end Schedule

section Operations

variable {S : Sched} {c : Nat}

/-- Giving up the CPU: a change to the thread running on `c` that keeps its CPU
leaves the state ready for `schedule`; the running thread is listed nowhere, so
no listed thread changes. -/
theorem Sched.Inv.preSchedule_modify (h : S.Inv) (hc : c < S.ncpu) (f : Thread → Thread)
    (hf : ∀ x, (f x).cpu = x.cpu) :
    { S with threads := modifyThread S.threads (S.running c) f }.PreSchedule c := by
  have hoff := h.not_onReadyList (h.running c hc).1
  have hcpu : ∀ u, (modifyThread S.threads (S.running c) f u).cpu = (S.threads u).cpu :=
    modifyThread_cpu hf
  -- a thread listed, or running on another CPU, is not the one that changed
  have hkeep : ∀ u, u ≠ S.running c → modifyThread S.threads (S.running c) f u = S.threads u :=
    fun u hu => modifyThread_ne _ _ hu
  refine ⟨⟨h.nr_ready, h.nodup, fun c' hc' u hu => ?_, h.idle_off, fun c' hc' => ?_,
    fun c' hc' => h.curr c' hc', fun u c' hu => h.cpu_lt u c' (by rwa [hcpu] at hu),
    fun u hu => by rw [hcpu]; exact h.fresh u hu⟩, hc, fun c' hc' hne => ?_, ?_⟩
  · have hne : u ≠ S.running c := fun e => hoff ⟨c', hc', e ▸ hu⟩
    dsimp only
    rw [hkeep u hne]
    exact h.ready c' hc' u hu
  · dsimp only
    rw [hcpu]
    exact h.idle_cpu c' hc'
  · have hr := h.running c' hc'
    have hne' : S.running c' ≠ S.running c := by
      intro e
      have h2 := (h.running c hc).2
      rw [← e, hr.2] at h2
      exact hne (Option.some.inj h2)
    dsimp only
    rw [hkeep _ hne']
    exact hr
  · dsimp only
    rw [hcpu]
    exact (h.running c hc).2

/-- `thread_yield` can queue its thread: the yielding thread, now `READY` and not
the idle thread, is appended to its own CPU's list. -/
theorem Sched.PreSchedule.push_cur (h : S.PreSchedule c) (rq : ReadyQueue)
    (hst : (S.threads (S.running c)).status = .ready)
    (hoff : S.running c ∉ (S.cpus c).readyList) (hidle : S.running c ≠ (S.cpus c).idleThread)
    (hrq : rq.readyList = (S.cpus c).readyList ++ [S.running c] ∧
      rq.nrReady = (S.cpus c).nrReady + 1 ∧ rq.curr = (S.cpus c).curr ∧
      rq.idleThread = (S.cpus c).idleThread) :
    { S with cpus := Function.update S.cpus c rq }.PreSchedule c := by
  obtain ⟨h1, h2, h3, h4⟩ := hrq
  have hc := h.lt
  refine ⟨⟨fun c' hc' => ?_, fun c' hc' => ?_, fun c' hc' u hu => ?_, fun c' hc' => ?_,
    fun c' hc' => ?_, fun c' hc' => ?_, h.cpu_lt, h.fresh⟩, hc, h.running_other, h.cur_cpu⟩
  all_goals by_cases e : c' = c
  all_goals first
    | (subst e; simp only [Function.update_self] at *)
    | simp only [Function.update_apply, e, if_false] at *
  · rw [h1, h2, List.length_append, h.nr_ready c' hc', List.length_singleton]
  · exact h.nr_ready c' hc'
  · rw [h1]
    exact List.Nodup.append (h.nodup c' hc') (List.nodup_singleton _)
      (List.disjoint_singleton.mpr hoff)
  · exact h.nodup c' hc'
  · rw [h1, List.mem_append, List.mem_singleton] at hu
    rcases hu with hu | rfl
    · exact h.ready c' hc' u hu
    · exact ⟨hst, h.cur_cpu⟩
  · exact h.ready c' hc' u hu
  · rw [h1, h4, List.mem_append, List.mem_singleton]
    rintro (hi | hi)
    · exact h.idle_off c' hc' hi
    · exact hidle hi.symm
  · exact h.idle_off c' hc'
  · rw [h4]
    exact h.idle_cpu c' hc'
  · exact h.idle_cpu c' hc'
  · rw [h3, h4]
    exact h.curr c' hc'
  · exact h.curr c' hc'

/-- A queue change that keeps the list, the count, `curr` and the idle thread
keeps the invariant. -/
theorem Sched.Inv.setQueue (h : S.Inv) (rq : ReadyQueue)
    (hrq : rq.readyList = (S.cpus c).readyList ∧ rq.nrReady = (S.cpus c).nrReady ∧
      rq.curr = (S.cpus c).curr ∧ rq.idleThread = (S.cpus c).idleThread) :
    { S with cpus := Function.update S.cpus c rq }.Inv := by
  have hq : ∀ c', (Function.update S.cpus c rq c').readyList = (S.cpus c').readyList ∧
      (Function.update S.cpus c rq c').nrReady = (S.cpus c').nrReady ∧
      (Function.update S.cpus c rq c').curr = (S.cpus c').curr ∧
      (Function.update S.cpus c rq c').idleThread = (S.cpus c').idleThread := by
    intro c'
    by_cases e : c' = c
    · subst e
      simpa using hrq
    · simp [e]
  refine ⟨⟨fun c' hc' => ?_, fun c' hc' => ?_, fun c' hc' u hu => ?_, fun c' hc' => ?_,
    fun c' hc' => ?_, fun c' hc' => ?_, h.cpu_lt, h.fresh⟩, h.running⟩
  all_goals obtain ⟨h1, h2, h3, h4⟩ := hq c'
  · rw [h1, h2]; exact h.nr_ready c' hc'
  · rw [h1]; exact h.nodup c' hc'
  · rw [h1] at hu; exact h.ready c' hc' u hu
  · rw [h1, h4]; exact h.idle_off c' hc'
  · rw [h4]; exact h.idle_cpu c' hc'
  · rw [h3, h4]; exact h.curr c' hc'

/-- Making thread `t` ready on CPU `c`, as `thread_unblock` and `wake_up_new_thread`
do: `t` was listed nowhere, ran nowhere and is no CPU's idle thread; it becomes
`READY` on `c` and is appended to `c`'s list; no other thread's status or CPU
changes, and the threads from `n` on are still unused. -/
theorem Sched.Inv.push_ready (h : S.Inv) (hc : c < S.ncpu) {t : Nat}
    (hoff : ¬ S.OnReadyList t) (hrun : ∀ c' < S.ncpu, S.running c' ≠ t)
    (hidle : ∀ c' < S.ncpu, (S.cpus c').idleThread ≠ t) (th : Nat → Thread)
    (hth : ∀ u, u ≠ t → (th u).status = (S.threads u).status ∧ (th u).cpu = (S.threads u).cpu)
    (ht : (th t).status = .ready ∧ (th t).cpu = some c) (n : Nat)
    (hfresh : ∀ u, n ≤ u → (th u).cpu = none) (rq : ReadyQueue)
    (hrq : rq.readyList = (S.cpus c).readyList ++ [t] ∧
      rq.nrReady = (S.cpus c).nrReady + 1 ∧ rq.curr = (S.cpus c).curr ∧
      rq.idleThread = (S.cpus c).idleThread) :
    { S with threads := th, cpus := Function.update S.cpus c rq, nextTid := n }.Inv := by
  obtain ⟨h1, h2, h3, h4⟩ := hrq
  have hne : ∀ c' < S.ncpu, ∀ u ∈ (S.cpus c').readyList, u ≠ t :=
    fun c' hc' u hu e => hoff ⟨c', hc', e ▸ hu⟩
  refine ⟨⟨fun c' hc' => ?_, fun c' hc' => ?_, fun c' hc' u hu => ?_, fun c' hc' => ?_,
    fun c' hc' => ?_, fun c' hc' => ?_, fun u c' hu => ?_, hfresh⟩, fun c' hc' => ?_⟩
  rotate_right 2
  · -- `cpu_lt`: `t` is bound to `c`, any other thread as before
    by_cases e : u = t
    · subst e
      rw [ht.2] at hu
      exact Option.some.inj hu ▸ hc
    · exact h.cpu_lt u c' (by rw [← (hth u e).2]; exact hu)
  · -- `running`: no running thread is `t`
    rw [(hth _ (hrun c' hc')).1, (hth _ (hrun c' hc')).2]
    exact h.running c' hc'
  all_goals by_cases e : c' = c
  all_goals first
    | (subst e; simp only [Function.update_self] at *)
    | simp only [Function.update_apply, e, if_false] at *
  · rw [h1, h2, List.length_append, h.nr_ready c' hc', List.length_singleton]
  · exact h.nr_ready c' hc'
  · rw [h1]
    exact List.Nodup.append (h.nodup c' hc') (List.nodup_singleton _)
      (List.disjoint_singleton.mpr fun ht' => hne c' hc' t ht' rfl)
  · exact h.nodup c' hc'
  · rw [h1, List.mem_append, List.mem_singleton] at hu
    rcases hu with hu | rfl
    · rw [(hth u (hne c' hc' u hu)).1, (hth u (hne c' hc' u hu)).2]
      exact h.ready c' hc' u hu
    · exact ht
  · rw [(hth u (hne c' hc' u hu)).1, (hth u (hne c' hc' u hu)).2]
    exact h.ready c' hc' u hu
  · rw [h1, h4, List.mem_append, List.mem_singleton]
    rintro (hi | hi)
    · exact h.idle_off c' hc' hi
    · exact hidle c' hc' hi
  · exact h.idle_off c' hc'
  · rw [h4, (hth _ (hidle c' hc')).2]
    exact h.idle_cpu c' hc'
  · rw [(hth _ (hidle c' hc')).2]
    exact h.idle_cpu c' hc'
  · rw [h3, h4]
    exact h.curr c' hc'
  · exact h.curr c' hc'

theorem threadBlock_inv (h : S.Inv) (hc : c < S.ncpu) (now : Int) :
    (threadBlock S c now).Inv := by
  unfold threadBlock schedBlock
  dsimp only
  rw [modifyThread_modifyThread]
  exact schedule_inv (h.preSchedule_modify hc _ (by intro; rfl)) now

theorem threadYield_inv (h : S.Inv) (hc : c < S.ncpu) (now : Int) :
    (threadYield S c now).Inv := by
  unfold threadYield
  dsimp only
  split
  · -- an ordinary thread appends itself to its CPU's list
    rename_i hidle
    unfold schedYield
    dsimp only
    rw [modifyThread_modifyThread, modifyThread_modifyThread]
    have hpre := h.preSchedule_modify hc
      ((fun x => { x with vruntime := calcVruntime x 20 }) ∘
        (fun x => { x with timerStop := now }) ∘ fun x => { x with status := .ready })
      fun _ => rfl
    refine schedule_inv (hpre.push_cur _ ?_ ?_ hidle ?_) now
    · simp
    · exact fun hl => h.not_onReadyList (h.running c hc).1 ⟨c, hc, hl⟩
    · exact ⟨rfl, rfl, rfl, rfl⟩
  · -- the idle thread is not queued
    dsimp only
    rw [Function.update_eq_self]
    exact schedule_inv (h.preSchedule_modify hc _ (by intro; rfl)) now

theorem doThreadExit_inv (h : S.Inv) (hc : c < S.ncpu) (now : Int) {S' : Sched}
    (hS : doThreadExit S c now = some S') : S'.Inv := by
  unfold doThreadExit at hS
  dsimp only at hS
  split at hS
  · cases hS
  · cases hS
    exact schedule_inv (h.preSchedule_modify hc _ (by intro; rfl)) now

theorem threadTick_inv (h : S.Inv) (now : Int) : (threadTick S c now).Inv :=
  h.setQueue _ (schedTick_queue S.threads (S.cpus c) (S.running c) now)

/-- `Sched.isIdle` is the idle thread of some CPU. -/
theorem Sched.isIdle_eq_false {t : Nat} (h : S.isIdle t = false) :
    ∀ c' < S.ncpu, (S.cpus c').idleThread ≠ t := by
  simpa [Sched.isIdle] using h

theorem threadUnblock_inv (h : S.Inv) {t : Nat} (hidle : S.isIdle t = false) (now : Int)
    {S' : Sched} (hS : threadUnblock S t now = some S') : S'.Inv := by
  obtain ⟨c0, hlt, hcpu, hst, rfl⟩ := threadUnblock_eq hS
  -- a blocked thread is neither listed nor running
  have hoff : ¬ S.OnReadyList t := by
    rintro ⟨c', hc', hl⟩
    rw [(h.ready c' hc' t hl).1] at hst
    cases hst
  have hrun : ∀ c' < S.ncpu, S.running c' ≠ t := by
    intro c' hc' e
    rw [← e, (h.running c' hc').1] at hst
    cases hst
  refine h.push_ready (h.cpu_lt t c0 hcpu) hoff hrun (Sched.isIdle_eq_false hidle) _
    (fun u hu => ?_) ?_ S.nextTid (fun u hu => ?_) _ (schedUnblock_queue _ _ _ _ _)
  · simp only [schedUnblock_status, schedUnblock_cpu, modifyThread_ne _ _ hu, and_self]
  · simp only [schedUnblock_status, schedUnblock_cpu, modifyThread_self, hcpu, and_self]
  · have hu' : u ≠ t := by omega
    rw [schedUnblock_cpu, modifyThread_ne _ _ hu']
    exact h.fresh u hu

/-- `choose_cpu_for_new_thread` picks a CPU. -/
theorem chooseCpuForNewThread_lt (t : Nat) (hn : 0 < S.ncpu) :
    chooseCpuForNewThread S t < S.ncpu := by
  unfold chooseCpuForNewThread
  split
  · exact Nat.mod_lt t hn
  · exact hn

theorem threadCreate_inv (h : S.Inv) (hn : 0 < S.ncpu) (nice : Int) (ok : Bool) (now : Int)
    {S' : Sched} (hS : threadCreate S nice ok now = some S') : S'.Inv := by
  unfold threadCreate at hS
  split at hS
  · cases hS
    exact h
  split at hS
  · cases hS
  cases hS
  -- the new thread `nextTid` is unused: bound to no CPU, so listed and running nowhere
  have hnew := h.fresh S.nextTid (Nat.le_refl _)
  have hoff : ¬ S.OnReadyList S.nextTid := by
    rintro ⟨c', hc', hl⟩
    rw [(h.ready c' hc' _ hl).2] at hnew
    cases hnew
  have hrun : ∀ c' < S.ncpu, S.running c' ≠ S.nextTid := by
    intro c' hc' e
    rw [← e, (h.running c' hc').2] at hnew
    cases hnew
  have hidle : ∀ c' < S.ncpu, (S.cpus c').idleThread ≠ S.nextTid := by
    intro c' hc' e
    rw [← e, h.idle_cpu c' hc'] at hnew
    cases hnew
  rw [wakeUpNewThread_eq]
  refine h.push_ready (chooseCpuForNewThread_lt _ hn) hoff hrun hidle _ (fun u hu => ?_) ?_
    (S.nextTid + 1) (fun u hu => ?_) _ (schedUnblock_queue _ _ _ _ _)
  · simp only [schedUnblock_status, schedUnblock_cpu, modifyThread_ne _ _ hu,
      Function.update_of_ne hu, and_self]
  · -- the new thread's CPU was chosen before it was counted
    simp only [schedUnblock_status, schedUnblock_cpu, modifyThread_self]
    exact ⟨trivial, rfl⟩
  · have hu' : u ≠ S.nextTid := by omega
    rw [schedUnblock_cpu, modifyThread_ne _ _ hu']
    dsimp only
    rw [Function.update_of_ne hu']
    exact h.fresh u (by omega)

end Operations

section Run

/-- After boot every CPU runs its boot thread and no thread is ready. -/
theorem Sched.boot_inv (n : Nat) (started : Bool) : (Sched.boot n started).Inv where
  nr_ready _ _ := rfl
  nodup _ _ := List.nodup_nil
  ready _ _ _ ht := absurd ht List.not_mem_nil
  idle_off _ _ := List.not_mem_nil
  idle_cpu c hc := by
    -- the idle thread `2c + 1` is bound to `c`
    simp only [Sched.boot] at hc ⊢
    rw [if_pos (by omega)]
    dsimp only
    congr 1
    omega
  curr c _ := by simp [Sched.boot]
  cpu_lt t c ht := by
    simp only [Sched.boot] at ht ⊢
    split at ht
    · cases ht
      omega
    · cases ht
  fresh t ht := by
    simp only [Sched.boot] at ht ⊢
    rw [if_neg (by omega)]
    rfl
  running c hc := by
    -- the boot thread `2c` runs on `c`
    simp only [Sched.boot] at hc ⊢
    rw [if_pos (by omega)]
    dsimp only
    rw [if_pos (by omega)]
    exact ⟨rfl, by congr 1; omega⟩

/-- Every scheduling operation keeps the invariant. -/
theorem Sched.step_inv : Lts.Preserved Sched.step Sched.Inv := by
  rintro S ⟨c, op, now⟩ S' h hs
  dsimp only [Sched.step] at hs
  by_cases hn : S.ncpu ≤ c
  · rw [if_pos hn] at hs
    cases hs
  rw [if_neg hn] at hs
  have hc : c < S.ncpu := by omega
  cases op with
  | threadCreate nice ok => exact threadCreate_inv h (by omega) nice ok now hs
  | threadBlock =>
    cases hs
    exact threadBlock_inv h hc now
  | threadUnblock t =>
    dsimp only at hs
    by_cases hi : S.isIdle t
    · rw [if_pos hi] at hs
      cases hs
    · rw [if_neg hi] at hs
      exact threadUnblock_inv h (by simpa using hi) now hs
  | threadYield =>
    cases hs
    exact threadYield_inv h hc now
  | threadExit => exact doThreadExit_inv h hc now hs
  | threadTick =>
    cases hs
    exact threadTick_inv h now

theorem ready_queues_consistent (n : Nat) (started : Bool) {S : Sched}
    (h : Lts.Reachable Sched.step (Sched.boot n started) S) : S.QueuesConsistent :=
  (Lts.Reachable.rec_inv (Sched.boot_inv n started) Sched.step_inv h).queuesConsistent

/-- On two CPUs, CPU 0 yields right after boot: its boot thread is queued and
picked again. -/
theorem ready_queues_consistent_after_yield :
    Lts.Reachable Sched.step (Sched.boot 2 true) (threadYield (Sched.boot 2 true) 0 0) ∧
      (threadYield (Sched.boot 2 true) 0 0).QueuesConsistent :=
  have hr : Lts.Reachable Sched.step (Sched.boot 2 true) (threadYield (Sched.boot 2 true) 0 0) :=
    .step (0, .threadYield, 0) .init rfl
  ⟨hr, ready_queues_consistent 2 true hr⟩

end Run

end Pintos.Threads


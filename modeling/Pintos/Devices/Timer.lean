import Mathlib
import Pintos.Lib.Reach

/-!
# Sleeping on the timer (`devices/timer.c`)

`timer_sleep (n)` computes its wake tick `this_wait.when = n + timer_ticks ()` with
interrupts on, then takes `waiting_threads_lock`, inserts itself into
`waiting_threads` with `list_insert_ordered` under `timer_sleep_lessThan` and
blocks. CPU 0's `timer_interrupt` increments `ticks`, and
`awaken_sleeping_threads` walks the list: it stops at the first waiter due after
`ticks`, passes over one due at `ticks`, and unblocks and removes one due before.

The section under the spinlock (the insertion with `thread_block`, or the whole
walk) is one atomic step; reading `ticks` is another, and a timer interrupt may
come between the two. Ticks are `Int`: `int64_t` values that do not overflow.

The walk removes exactly the waiters due before `ticks` because the list is
sorted (`awakenSleepingThreads_eq`), and a waiter inserted at tick `ti` with wake
tick `w` is unblocked by the interrupt that takes `ticks` past `max w ti`
(`blocked_run`), which is later than `w + 1` when an interrupt came between the
read of `ticks` and the insertion.
-/

namespace Pintos.Devices

open Function (update)

section InsertOrdered

variable {α : Type}

/-- `list_insert_ordered (list, elem, less, aux)`: `elem` goes before the first
element it is `less` than. -/
def listInsertOrdered (less : α → α → Bool) (elem : α) : List α → List α
  | [] => [elem]
  | e :: es => if less elem e then elem :: e :: es else e :: listInsertOrdered less elem es

theorem listInsertOrdered_eq_orderedInsert (less : α → α → Bool) (elem : α) (l : List α) :
    listInsertOrdered less elem l = l.orderedInsert (fun a b => less a b = true) elem := by
  induction l with
  | nil => rfl
  | cons e es ih => simp [listInsertOrdered, ih]

@[simp] theorem mem_listInsertOrdered {less : α → α → Bool} {elem y : α} {l : List α} :
    y ∈ listInsertOrdered less elem l ↔ y = elem ∨ y ∈ l := by
  rw [listInsertOrdered_eq_orderedInsert, List.mem_orderedInsert]

theorem perm_listInsertOrdered (less : α → α → Bool) (elem : α) (l : List α) :
    (listInsertOrdered less elem l).Perm (elem :: l) := by
  rw [listInsertOrdered_eq_orderedInsert]
  exact List.perm_orderedInsert _ elem l

/-- The new element goes after every element it is not `less` than that comes
before the first one it is: with a `less` on keys, after every equal key. -/
theorem listInsertOrdered_eq_take_drop (less : α → α → Bool) (elem : α) (l : List α) :
    listInsertOrdered less elem l =
      (l.takeWhile fun b => !less elem b) ++ elem :: l.dropWhile fun b => !less elem b := by
  rw [listInsertOrdered_eq_orderedInsert, List.orderedInsert_eq_take_drop]
  simp

variable {β : Type} [LinearOrder β]

/-- Inserting under `key a < key b` keeps a list sorted by `key`. -/
theorem pairwise_listInsertOrdered (key : α → β) (elem : α) {l : List α}
    (h : l.Pairwise fun a b => key a ≤ key b) :
    (listInsertOrdered (fun a b => decide (key a < key b)) elem l).Pairwise
      fun a b => key a ≤ key b := by
  induction l with
  | nil => simp [listInsertOrdered]
  | cons e es ih =>
    obtain ⟨he, hes⟩ := List.pairwise_cons.mp h
    unfold listInsertOrdered
    split
    · rename_i hlt
      have hlt : key elem < key e := of_decide_eq_true hlt
      refine List.Pairwise.cons ?_ h
      intro y hy
      rcases List.mem_cons.mp hy with rfl | hy
      · exact le_of_lt hlt
      · exact le_trans (le_of_lt hlt) (he y hy)
    · rename_i hge
      have hge : key e ≤ key elem := not_lt.mp fun hlt => hge (decide_eq_true hlt)
      refine List.Pairwise.cons ?_ (ih hes)
      intro y hy
      rcases mem_listInsertOrdered.mp hy with rfl | hy
      · exact hge
      · exact he y hy

end InsertOrdered

/-- A `struct waiting_thread`: the thread to wake and its wake tick. -/
structure Waiter where
  toWake : Nat
  when : Int
  deriving DecidableEq, Repr

/-- `timer_sleep_lessThan`. -/
def timerSleepLessThan (a b : Waiter) : Bool := decide (a.when < b.when)

/-- Where a thread is in `timer_sleep`. -/
inductive SleepPc where
  /-- Outside `timer_sleep`. -/
  | running
  /-- `this_wait.when` computed, before `spinlock_acquire (&waiting_threads_lock)`. -/
  | computed (when : Int)
  /-- On `waiting_threads`, blocked. -/
  | blocked (when : Int)
  /-- Unblocked, not yet returned from `timer_sleep`. -/
  | ready (when : Int)
  deriving DecidableEq, Repr

/-- `thread_unblock (t)` on the status of `t`: `ASSERT (t->status == THREAD_BLOCKED)`. -/
def threadUnblock (pc : Nat → SleepPc) (t : Nat) : Option (Nat → SleepPc) :=
  match pc t with
  | .blocked w => some (update pc t (.ready w))
  | _ => none

/-- `awaken_sleeping_threads` with `ticks` just incremented: the waiters left on
`waiting_threads` and the threads' places after the unblocks. -/
def awakenSleepingThreads (ticks : Int) (pc : Nat → SleepPc) :
    List Waiter → Option (List Waiter × (Nat → SleepPc))
  | [] => some ([], pc)
  | w :: ws =>
    if w.when > ticks then some (w :: ws, pc)
    else if w.when < ticks then do
      let pc ← threadUnblock pc w.toWake
      awakenSleepingThreads ticks pc ws
    else do
      let (rest, pc) ← awakenSleepingThreads ticks pc ws
      return (w :: rest, pc)

/-- The threads of the waiters in `l` due before `ticks`, in list order. -/
def dueBefore (ticks : Int) (l : List Waiter) : List Nat :=
  (l.filter fun x => decide (x.when < ticks)).map Waiter.toWake

theorem mem_dueBefore {ticks : Int} {l : List Waiter} {u : Nat} :
    u ∈ dueBefore ticks l ↔ ∃ x ∈ l, x.when < ticks ∧ x.toWake = u := by
  simp [dueBefore, and_assoc]

theorem dueBefore_cons (ticks : Int) (w : Waiter) (ws : List Waiter) :
    dueBefore ticks (w :: ws) =
      if w.when < ticks then w.toWake :: dueBefore ticks ws else dueBefore ticks ws := by
  unfold dueBefore
  by_cases h : w.when < ticks <;> simp [h]

/-- The place of a thread after `thread_unblock`. -/
def SleepPc.unblock : SleepPc → SleepPc
  | .blocked w => .ready w
  | p => p

/-- On a list sorted by wake tick whose waiters are blocked threads, each once,
`awaken_sleeping_threads` keeps the waiters due at or after `ticks` and
unblocks the others: stopping at the first later waiter skips none. -/
theorem awakenSleepingThreads_eq (ticks : Int) {pc : Nat → SleepPc} {l : List Waiter}
    (hs : l.Pairwise fun a b => a.when ≤ b.when) (hn : (l.map Waiter.toWake).Nodup)
    (hb : ∀ x ∈ l, pc x.toWake = .blocked x.when) :
    awakenSleepingThreads ticks pc l =
      some (l.filter (fun x => decide (ticks ≤ x.when)),
        fun u => if u ∈ dueBefore ticks l then (pc u).unblock else pc u) := by
  induction l generalizing pc with
  | nil => simp [awakenSleepingThreads, dueBefore]
  | cons w ws ih =>
    obtain ⟨hle, hs⟩ := List.pairwise_cons.mp hs
    obtain ⟨hw, hn⟩ := List.nodup_cons.mp hn
    have hws : ∀ x ∈ ws, x.toWake ≠ w.toWake := fun x hx he =>
      hw (List.mem_map.mpr ⟨x, hx, he⟩)
    rcases lt_trichotomy ticks w.when with hgt | heq | hlt
    · -- the walk stops here, and every later waiter is due later still
      have hall : ∀ x ∈ w :: ws, ticks ≤ x.when := by
        intro x hx
        rcases List.mem_cons.mp hx with rfl | hx
        · exact le_of_lt hgt
        · exact le_trans (le_of_lt hgt) (hle x hx)
      have hnone : dueBefore ticks (w :: ws) = [] := by
        simp only [dueBefore, List.map_eq_nil_iff, List.filter_eq_nil_iff]
        intro x hx
        simpa using hall x hx
      rw [awakenSleepingThreads, if_pos hgt, hnone, List.filter_eq_self.mpr (by simpa using hall)]
      simp
    · have hrest := ih hs hn fun x hx => hb x (List.mem_cons_of_mem w hx)
      rw [awakenSleepingThreads, if_neg (by omega), if_neg (by omega), hrest]
      simp [dueBefore_cons, heq]
    · have hu : threadUnblock pc w.toWake = some (update pc w.toWake (.ready w.when)) := by
        simp [threadUnblock, hb w List.mem_cons_self]
      have hb' : ∀ x ∈ ws, update pc w.toWake (.ready w.when) x.toWake = .blocked x.when :=
        fun x hx => by
          rw [Function.update_of_ne (hws x hx)]
          exact hb x (List.mem_cons_of_mem w hx)
      rw [awakenSleepingThreads, if_neg (by omega), if_pos hlt, hu, Option.bind_eq_bind,
        Option.bind_some, ih hs hn hb', dueBefore_cons, if_pos hlt,
        List.filter_cons_of_neg (by simpa using hlt)]
      congr 2
      funext u
      by_cases hu : u = w.toWake
      · subst hu
        have hnot : w.toWake ∉ dueBefore ticks ws := fun h => by
          obtain ⟨x, hx, -, he⟩ := mem_dueBefore.mp h
          exact hws x hx he
        simp [hnot, hb w List.mem_cons_self, SleepPc.unblock]
      · simp [hu]

/-- The timer's tick count, `waiting_threads`, and the threads that sleep on it. -/
structure TimerSys where
  ticks : Int
  waitingThreads : List Waiter
  pc : Nat → SleepPc

/-- A move: thread `t` enters `timer_sleep (n)` and reads `ticks`; `t` inserts
itself and blocks; CPU 0 takes a timer interrupt; an unblocked `t` returns. -/
inductive TimerStep where
  | sleep (t : Nat) (n : Int)
  | insert (t : Nat)
  | interrupt
  | resume (t : Nat)
  deriving DecidableEq, Repr

namespace TimerSys

/-- `timer_init`: no tick yet, no sleeper. -/
def init : TimerSys := ⟨0, [], fun _ => .running⟩

/-- One atomic step. -/
def step (S : TimerSys) : TimerStep → Option TimerSys
  | .sleep t n =>
    match S.pc t with
    | .running => some { S with pc := update S.pc t (.computed (n + S.ticks)) }
    | _ => none
  | .insert t =>
    match S.pc t with
    | .computed w =>
      some { S with
        waitingThreads := listInsertOrdered timerSleepLessThan ⟨t, w⟩ S.waitingThreads
        pc := update S.pc t (.blocked w) }
    | _ => none
  | .interrupt => do
    let (waiting, pc) ← awakenSleepingThreads (S.ticks + 1) S.pc S.waitingThreads
    return { ticks := S.ticks + 1, waitingThreads := waiting, pc := pc }
  | .resume t =>
    match S.pc t with
    | .ready _ => some { S with pc := update S.pc t .running }
    | _ => none


/-! ## The invariant -/

/-- What every reachable state keeps: `waiting_threads` is sorted by wake tick,
holds each thread at most once, and holds exactly the blocked threads with their
wake ticks. -/
structure Inv (S : TimerSys) : Prop where
  sorted : S.waitingThreads.Pairwise fun a b => a.when ≤ b.when
  nodup : (S.waitingThreads.map Waiter.toWake).Nodup
  blocked_iff : ∀ t w, S.pc t = .blocked w ↔ ⟨t, w⟩ ∈ S.waitingThreads

variable {S S' : TimerSys}

theorem Inv.blocked_of_mem (hI : S.Inv) {x : Waiter} (hx : x ∈ S.waitingThreads) :
    S.pc x.toWake = .blocked x.when :=
  (hI.blocked_iff x.toWake x.when).mpr hx

theorem Inv.not_mem_of_ne (hI : S.Inv) {t : Nat} (ht : ∀ w, S.pc t ≠ .blocked w) :
    t ∉ S.waitingThreads.map Waiter.toWake := by
  simp only [List.mem_map, not_exists, not_and]
  intro x hx he
  subst he
  exact ht x.when (hI.blocked_of_mem hx)

theorem Inv.mem_dueBefore_iff (hI : S.Inv) {t : Nat} {w ticks : Int} (h : S.pc t = .blocked w) :
    t ∈ dueBefore ticks S.waitingThreads ↔ w < ticks := by
  have hmem := (hI.blocked_iff t w).mp h
  rw [mem_dueBefore]
  constructor
  · rintro ⟨x, hx, hlt, rfl⟩
    have hx' : x = ⟨x.toWake, w⟩ := List.inj_on_of_nodup_map hI.nodup hx hmem rfl
    rw [hx'] at hlt
    exact hlt
  · intro hlt
    exact ⟨_, hmem, hlt, rfl⟩

/-- A timer interrupt, on the invariant: `awaken_sleeping_threads` never finds a
waiter that is not blocked, and unblocks exactly the waiters due before the new
tick. -/
theorem Inv.step_interrupt (hI : S.Inv) :
    S.step .interrupt =
      some ⟨S.ticks + 1, S.waitingThreads.filter fun x => decide (S.ticks + 1 ≤ x.when),
        fun u => if u ∈ dueBefore (S.ticks + 1) S.waitingThreads then (S.pc u).unblock
          else S.pc u⟩ := by
  simp only [step, awakenSleepingThreads_eq _ hI.sorted hI.nodup fun _ => hI.blocked_of_mem]
  rfl

theorem unblock_ne_blocked (p : SleepPc) (w : Int) : p.unblock ≠ .blocked w := by
  cases p <;> simp [SleepPc.unblock]

/-- A thread's move between places off `waiting_threads` keeps the invariant. -/
theorem Inv.setPc (hI : S.Inv) {t : Nat} {p : SleepPc} (ht : ∀ w, S.pc t ≠ .blocked w)
    (hp : ∀ w, p ≠ .blocked w) : { S with pc := update S.pc t p }.Inv := by
  refine ⟨hI.sorted, hI.nodup, fun u w => ?_⟩
  by_cases hu : u = t
  · subst hu
    simp only [Function.update_self, hp w, false_iff]
    exact fun hmem => ht w (hI.blocked_of_mem hmem)
  · simp only [Function.update_of_ne hu]
    exact hI.blocked_iff u w

theorem inv_init : init.Inv :=
  ⟨List.Pairwise.nil, List.nodup_nil, fun _ _ => by simp [init]⟩

theorem Inv.step (hI : S.Inv) {a : TimerStep} (hst : S.step a = some S') : S'.Inv := by
  cases a with
  | sleep t n =>
    simp only [TimerSys.step] at hst
    split at hst <;> simp only [Option.some.injEq, reduceCtorEq] at hst
    rename_i hrun
    subst hst
    exact hI.setPc (by simp [hrun]) (by simp)
  | insert t =>
    simp only [TimerSys.step] at hst
    split at hst <;> simp only [Option.some.injEq, reduceCtorEq] at hst
    rename_i w hcomp
    subst hst
    have hfree : t ∉ S.waitingThreads.map Waiter.toWake :=
      hI.not_mem_of_ne fun w' => by rw [hcomp]; exact SleepPc.noConfusion
    refine ⟨pairwise_listInsertOrdered Waiter.when ⟨t, w⟩ hI.sorted, ?_, fun u w' => ?_⟩
    · rw [((perm_listInsertOrdered _ _ _).map Waiter.toWake).nodup_iff]
      exact List.nodup_cons.mpr ⟨hfree, hI.nodup⟩
    · rw [mem_listInsertOrdered]
      by_cases hu : u = t
      · subst hu
        have hnot : (⟨u, w'⟩ : Waiter) ∉ S.waitingThreads := fun h =>
          hfree (List.mem_map.mpr ⟨_, h, rfl⟩)
        simp [hnot, eq_comm]
      · simp [hu, hI.blocked_iff u w']
  | interrupt =>
    rw [hI.step_interrupt, Option.some.injEq] at hst
    subst hst
    refine ⟨hI.sorted.filter _, (List.filter_sublist.map _).nodup hI.nodup, fun u w => ?_⟩
    simp only [List.mem_filter, decide_eq_true_eq]
    by_cases hdue : u ∈ dueBefore (S.ticks + 1) S.waitingThreads
    · rw [if_pos hdue]
      simp only [unblock_ne_blocked, false_iff, not_and, not_le]
      intro hmem
      exact (hI.mem_dueBefore_iff ((hI.blocked_iff u w).mpr hmem)).mp hdue
    · rw [if_neg hdue, hI.blocked_iff u w]
      refine ⟨fun hmem => ⟨hmem, not_lt.mp fun hlt => hdue ?_⟩, And.left⟩
      exact (hI.mem_dueBefore_iff ((hI.blocked_iff u w).mpr hmem)).mpr hlt
  | resume t =>
    simp only [TimerSys.step] at hst
    split at hst <;> simp only [Option.some.injEq, reduceCtorEq] at hst
    rename_i w hready
    subst hst
    exact hI.setPc (by simp [hready]) (by simp)

theorem inv_of_reachable (h : Lts.Reachable step init S) : S.Inv :=
  Lts.Reachable.rec_inv inv_init (fun _ _ _ hI hst => hI.step hst) h

end TimerSys

end Pintos.Devices

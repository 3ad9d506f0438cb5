import Pintos.Lib.Reach

/-!
# The parent/child bond (`userprog/process.c`)

`thread_create` gives each new process a `struct maternal_bond` shared with its
parent: the child's exit status, a `load` and an `exit` semaphore, and a
`reference_counter` set to 2 and guarded by the bond's spinlock. Each side drops
its reference with `is_orphan_or_zombie`, and the side that brings the counter
to 0 frees the bond. The parent drops its reference in `process_wait` and, for
the children it has not waited for, in `process_exit`; after a failed load,
`process_execute` waits for the child's exit and frees the bond without dropping
its reference. The child drops its reference in `process_exit`, then signals
`exit`, then frees the bond if it dropped the last reference.

Each spinlock section, and each stretch of code between two, is one step; a
`sema_down` that would block is a step that cannot be taken, and so is a step on
a bond already freed. A thread's place in these functions is a `BondPc`; the
rest of the process (page tables, files, the printing of the exit status) does
not touch the bond's counter and is not modelled.

The child signals `exit` after dropping its reference. A parent that exits in
between drops the last reference and frees the bond the child is about to
signal (`bond_freed_before_exit_signal`).
-/

namespace Pintos.Userprog

/-- `struct maternal_bond`: its fields, the semaphores as their values. -/
structure Bond where
  tid : Nat
  status : Int
  loadFail : Bool
  referenceCounter : Int
  load : Nat
  exit : Nat
  deriving DecidableEq, Repr

/-- Where a thread is in the functions that use bonds. -/
inductive BondPc where
  /-- Not created yet. -/
  | unborn
  /-- Running its program, between system calls. -/
  | user
  /-- A new process in `process_start`, before `load` returns. -/
  | loading
  /-- `process_execute`, at `sema_down (&bond->load)` for the child's bond `b`. -/
  | execLoad (b : Nat)
  /-- The load failed: at `sema_down (&bond->exit)`. -/
  | execExit (b : Nat)
  /-- The child has exited: `list_remove` and `free` of `b`. -/
  | execFree (b : Nat)
  /-- `process_wait`, at `sema_down (&bond->exit)`. -/
  | waitExit (b : Nat)
  /-- `list_remove (&bond->elem)` and `is_orphan_or_zombie (bond)`. -/
  | waitReap (b : Nat)
  /-- Read `bond->status`, and free the bond if the counter reached 0. -/
  | waitFree (b : Nat) (reap : Bool)
  /-- `process_exit`, at the head of the loop over the children list. -/
  | exitChildren
  /-- The loop dropped the reference to `b`: `list_remove`, and `free` if `reap`. -/
  | exitChild (b : Nat) (reap : Bool)
  /-- `is_orphan_or_zombie (cur->bond)`. -/
  | exitOwn
  /-- `sema_up (&cur->bond->exit)`. -/
  | exitUp (reap : Bool)
  /-- `free (cur->bond)` if `reap`. -/
  | exitFree (reap : Bool)
  /-- Past `process_exit`. -/
  | dead
  deriving DecidableEq, Repr

/-- The bonds in the kernel heap and, for each thread, its place, its own bond,
its children's bonds (`children`, front first) and what its last
`process_wait` or `process_execute` returned. -/
structure BondSys where
  heap : Nat → Option Bond
  pc : Nat → BondPc
  bond : Nat → Option Nat
  children : Nat → List Nat
  ret : Nat → Option Int

/-- What a thread does next: `process_execute` whose `thread_create` made thread
`child` with its bond at `b`, the result of a new process's `load`,
`process_wait (tid)`, `sys_exit (status)`, or the next step of the call it is
in. -/
inductive BondMove where
  | exec (child b : Nat)
  | load (ok : Bool)
  | wait (tid : Nat)
  | exit (status : Int)
  | next
  deriving DecidableEq, Repr

/-- `TID_ERROR`, also the `-1` of a failed `process_wait`. -/
def tidError : Int := -1

namespace BondSys

/-- The initial process, thread 0, with its bond at 0; its parent, the kernel's
main thread, is not modelled and keeps its reference. -/
def init : BondSys where
  heap := Function.update (fun _ => none) 0 (some ⟨0, 0, false, 2, 0, 0⟩)
  pc := Function.update (fun _ => .unborn) 0 .user
  bond := Function.update (fun _ => none) 0 (some 0)
  children := fun _ => []
  ret := fun _ => none

/-- Thread `t` moves to `p`. -/
def setPc (S : BondSys) (t : Nat) (p : BondPc) : BondSys :=
  { S with pc := Function.update S.pc t p }

/-- The bond at `b` becomes `o`. -/
def setBond (S : BondSys) (b : Nat) (o : Bond) : BondSys :=
  { S with heap := Function.update S.heap b (some o) }

/-- Change the bond at `b`; `none` if it has been freed. -/
def modifyBond (S : BondSys) (b : Nat) (f : Bond → Bond) : Option BondSys :=
  (S.heap b).map fun o => S.setBond b (f o)

/-- `free (b)`; `none` if it has been freed already. -/
def freeBond (S : BondSys) (b : Nat) : Option BondSys :=
  (S.heap b).map fun _ => { S with heap := Function.update S.heap b none }

/-- `is_orphan_or_zombie (b)`: decrement the counter under the spinlock, and
whether it reached 0. -/
def release (S : BondSys) (b : Nat) : Option (BondSys × Bool) :=
  (S.heap b).map fun o =>
    let o' := { o with referenceCounter := o.referenceCounter - 1 }
    (S.setBond b o', o'.referenceCounter == 0)

/-- `list_remove (&bond->elem)` from thread `t`'s children. -/
def unlink (S : BondSys) (t b : Nat) : BondSys :=
  { S with children := Function.update S.children t ((S.children t).erase b) }

/-- `find_child (tid)`: the first bond on the children list with that `tid`. -/
def findChild (S : BondSys) (t tid : Nat) : Option Nat :=
  (S.children t).find? fun b => (S.heap b).map (·.tid) == some tid

/-- One step of thread `t`. -/
def step (S : BondSys) : Nat × BondMove → Option BondSys
  | (t, .exec c b) =>
    -- `thread_create` sets up the bond and pushes it on the parent's list
    if S.pc t ≠ .user ∨ S.pc c ≠ .unborn ∨ S.heap b ≠ none then none else
    some { S with
      heap := Function.update S.heap b (some ⟨c, 0, true, 2, 0, 0⟩)
      pc := Function.update (Function.update S.pc c .loading) t (.execLoad b)
      bond := Function.update S.bond c (some b)
      children := Function.update S.children t (b :: S.children t) }
  | (t, .load ok) =>
    -- `load` clears `load_fail` on success and signals `load`; on failure
    -- `sys_exit (-1)` records the status
    if S.pc t ≠ .loading then none else
    match S.bond t with
    | none => none
    | some b =>
      (S.modifyBond b fun o => { o with
        loadFail := if ok then false else o.loadFail
        load := o.load + 1
        status := if ok then o.status else -1 }).map fun S' =>
        S'.setPc t (if ok then .user else .exitChildren)
  | (t, .wait c) =>
    if S.pc t ≠ .user then none else
    match S.findChild t c with
    | none => some { S with ret := Function.update S.ret t (some tidError) }
    | some b => some (S.setPc t (.waitExit b))
  | (t, .exit status) =>
    if S.pc t ≠ .user then none else
    match S.bond t with
    | none => none
    | some b => (S.modifyBond b fun o => { o with status := status }).map
      (·.setPc t .exitChildren)
  | (t, .next) =>
    match S.pc t with
    | .execLoad b =>
      match S.heap b with
      | some o =>
        if o.load = 0 then none else
        let S' := S.setBond b { o with load := o.load - 1 }
        if o.loadFail then some (S'.setPc t (.execExit b))
        else some ({ S' with ret := Function.update S.ret t (some o.tid) }.setPc t .user)
      | none => none
    | .execExit b =>
      match S.heap b with
      | some o =>
        if o.exit = 0 then none else
        some ((S.setBond b { o with exit := o.exit - 1 }).setPc t (.execFree b))
      | none => none
    | .execFree b =>
      ((S.unlink t b).freeBond b).map fun S' =>
        { S' with ret := Function.update S.ret t (some tidError) }.setPc t .user
    | .waitExit b =>
      match S.heap b with
      | some o =>
        if o.exit = 0 then none else
        some ((S.setBond b { o with exit := o.exit - 1 }).setPc t (.waitReap b))
      | none => none
    | .waitReap b => ((S.unlink t b).release b).map fun (S', reap) => S'.setPc t (.waitFree b reap)
    | .waitFree b reap =>
      match S.heap b with
      | some o =>
        let S' := { S with ret := Function.update S.ret t (some o.status) }.setPc t .user
        if reap then S'.freeBond b else some S'
      | none => none
    | .exitChildren =>
      match S.children t with
      | [] => some (S.setPc t .exitOwn)
      | b :: _ => (S.release b).map fun (S', reap) => S'.setPc t (.exitChild b reap)
    | .exitChild b reap =>
      let S' := (S.unlink t b).setPc t .exitChildren
      if reap then S'.freeBond b else some S'
    | .exitOwn =>
      match S.bond t with
      | none => none
      | some b => (S.release b).map fun (S', reap) => S'.setPc t (.exitUp reap)
    | .exitUp reap =>
      match S.bond t with
      | none => none
      | some b => (S.modifyBond b fun o => { o with exit := o.exit + 1 }).map
          (·.setPc t (.exitFree reap))
    | .exitFree reap =>
      match S.bond t with
      | none => none
      | some b =>
        let S' := S.setPc t .dead
        if reap then S'.freeBond b else some S'
    | _ => none

/-- The bond of the call thread `t` is in, if that call still reads or writes
it. -/
def callBond : BondPc → Option Nat
  | .execLoad b | .execExit b | .execFree b | .waitExit b | .waitReap b | .waitFree b _
  | .exitChild b _ => some b
  | _ => none

/-- Whether a thread at this place still reads or writes its own bond: until its
`sema_up` of `exit`, and at its `free` if it dropped the last reference. -/
def usesOwn : BondPc → Bool
  | .user | .loading | .exitChildren | .exitChild _ _ | .exitOwn | .exitUp _ => true
  | .exitFree reap => reap
  | _ => false

/-- Thread `t` has yet to use the bond at `b`: its own, one on its children list,
or the one of the call it is in. -/
def Uses (S : BondSys) (t b : Nat) : Prop :=
  b ∈ S.children t ∨ (S.bond t = some b ∧ usesOwn (S.pc t) = true) ∨
    callBond (S.pc t) = some b

/-- No bond is freed while a thread has yet to use it. -/
def BondsSafe (S : BondSys) : Prop := ∀ t b, S.Uses t b → S.heap b ≠ none

end BondSys

/-- Thread 0 starts thread 1, whose load succeeds; thread 1 exits and drops its
reference; thread 0 exits before thread 1 signals `exit`, drops the last
reference and frees the bond. -/
def exitRace : List (Nat × BondMove) :=
  [(0, .exec 1 1), (1, .load true), (0, .next), (1, .exit 0), (1, .next), (1, .next),
    (0, .exit 0), (0, .next), (0, .next)]

theorem bond_freed_before_exit_signal :
    ¬ ∀ S, Lts.Reachable BondSys.step BondSys.init S → S.BondsSafe := by
  intro hall
  have hrun : (Lts.run BondSys.step BondSys.init exitRace).map
      (fun S => (S.pc 1, S.bond 1, S.heap 1)) = some (.exitUp false, some 1, none) := by
    decide
  obtain ⟨S, hS, he⟩ := Option.map_eq_some_iff.mp hrun
  simp only [Prod.mk.injEq] at he
  obtain ⟨hpc, hb, hheap⟩ := he
  exact hall S (Lts.reachable_of_run hS) 1 1 (.inr (.inl ⟨hb, by rw [hpc]; rfl⟩)) hheap

end Pintos.Userprog

import Pintos.Lib.Reach

/-!
# The table of open inodes under concurrency (`filesys/inode.c`)

`open_inodes` lists the in-memory `struct inode`s, "so that opening a single
inode twice returns the same `struct inode`". `inode_open` searches the list
holding `open_inodes_lock`, releases the lock, allocates a new inode, takes the
lock again only to push it, and sets its fields after releasing it.
`inode_close` decrements `open_cnt` without the lock and unlinks the inode when
the count reaches zero.

Each `open_inodes_lock` section is one step, and so is each stretch of code
between two sections. A thread's place in the code is an `OpenPc`; the
references a thread holds are listed in `held`. The release of a removed
inode's sectors reads the disk and belongs to the file-system model; here the
closing thread goes from unlinking straight to `free`.
-/

namespace Pintos.Filesys

/-- The fields of an in-memory `struct inode` that these functions use. -/
structure InodeObj where
  sector : Nat
  openCnt : Int
  removed : Bool
  denyWriteCnt : Int
  deriving DecidableEq, Repr

/-- Where a thread is inside `inode_open` or `inode_close`. -/
inductive OpenPc where
  /-- Not inside either function. -/
  | idle
  /-- `inode_open (s)` found no inode for `s` and released the lock. -/
  | openMissed (s : Nat)
  /-- `malloc` returned the inode at address `a`. -/
  | openAllocated (s a : Nat)
  /-- `a` is on `open_inodes`, its fields not yet set. -/
  | openLinked (s a : Nat)
  /-- `inode_close (a)` brought `open_cnt` to zero. -/
  | closeLast (a : Nat)
  /-- `a` is off `open_inodes`, not yet freed. -/
  | closeUnlinked (a : Nat)
  deriving DecidableEq, Repr

/-- The inode heap, the list of open inodes and the threads. -/
structure InodeTable where
  heap : Nat → Option InodeObj
  openInodes : List Nat
  pc : Nat → OpenPc
  held : Nat → List Nat

/-- No inode allocated, no thread in the inode code. -/
def InodeTable.init : InodeTable :=
  { heap := fun _ => none, openInodes := [], pc := fun _ => .idle, held := fun _ => [] }

/-- What a thread does next: start a call, answer `inode_open`'s `malloc` (the
block and its old contents, or `NULL`), or run the next section of its call. -/
inductive InodeMove where
  | inodeOpen (s : Nat)
  | inodeReopen (a : Nat)
  | inodeClose (a : Nat)
  | malloc (r : Option (Nat × InodeObj))
  | next
  deriving DecidableEq, Repr

/-- The sector of the inode at `a`, as `inode->sector` reads it. -/
def InodeTable.sectorOf (T : InodeTable) (a : Nat) : Option Nat := (T.heap a).map (·.sector)

/-- The search loop of `inode_open`: the first listed inode for `sector`. -/
def InodeTable.lookup (T : InodeTable) (sector : Nat) : Option Nat :=
  T.openInodes.find? fun a => T.sectorOf a = some sector

/-- Change the inode at `a`. -/
def InodeTable.modify (T : InodeTable) (a : Nat) (f : InodeObj → InodeObj) : InodeTable :=
  { T with heap := Function.update T.heap a ((T.heap a).map f) }

/-- `inode_reopen`: `open_cnt++`. -/
def inodeReopen (T : InodeTable) (a : Nat) : InodeTable :=
  T.modify a fun o => { o with openCnt := o.openCnt + 1 }

/-- Thread `t` is at `p` and holds the references `h`. -/
def InodeTable.setThread (T : InodeTable) (t : Nat) (p : OpenPc) (h : List Nat) : InodeTable :=
  { T with pc := Function.update T.pc t p, held := Function.update T.held t h }

/-- One step of thread `t`. -/
def InodeTable.step (T : InodeTable) : Nat × InodeMove → Option InodeTable
  | (t, .inodeOpen s) =>
    if T.pc t ≠ .idle then none else
    -- the first section: search, and on a hit `inode_reopen` under the lock
    match T.lookup s with
    | some a => some ((inodeReopen T a).setThread t .idle (a :: T.held t))
    | none => some (T.setThread t (.openMissed s) (T.held t))
  | (t, .malloc r) =>
    match T.pc t, r with
    | .openMissed _, none => some (T.setThread t .idle (T.held t))
    | .openMissed s, some (a, junk) =>
      if T.heap a ≠ none then none else
      some ({ T with heap := Function.update T.heap a (some junk) }.setThread t
        (.openAllocated s a) (T.held t))
    | _, _ => none
  | (t, .inodeReopen a) =>
    if T.pc t ≠ .idle ∨ a ∉ T.held t then none else
    some ((inodeReopen T a).setThread t .idle (a :: T.held t))
  | (t, .inodeClose a) =>
    if T.pc t ≠ .idle ∨ a ∉ T.held t then none else
    match T.heap a with
    | none => none
    | some o =>
      let T' := T.modify a fun o => { o with openCnt := o.openCnt - 1 }
      some (T'.setThread t (if o.openCnt - 1 = 0 then .closeLast a else .idle)
        ((T.held t).erase a))
  | (t, .next) =>
    match T.pc t with
    | .openAllocated s a =>
      -- the second section: `list_push_front`, with no second search
      some ({ T with openInodes := a :: T.openInodes }.setThread t (.openLinked s a) (T.held t))
    | .openLinked s a =>
      let o : InodeObj := { sector := s, openCnt := 1, removed := false, denyWriteCnt := 0 }
      some ({ T with heap := Function.update T.heap a (some o) }.setThread t .idle
        (a :: T.held t))
    | .closeLast a =>
      some ({ T with openInodes := T.openInodes.erase a }.setThread t (.closeUnlinked a)
        (T.held t))
    | .closeUnlinked a =>
      some ({ T with heap := Function.update T.heap a none }.setThread t .idle (T.held t))
    | _ => none

/-- One `struct inode` per sector on `open_inodes`, and `inode_open` returns the
listed one: a thread inside `inode_open (s)` past its search, or holding an
inode of sector `s`, holds the first listed inode for `s`. -/
def InodeTable.UniquePerSector (T : InodeTable) : Prop :=
  (T.openInodes.filterMap T.sectorOf).Nodup ∧
    ∀ t a s, a ∈ T.held t → T.sectorOf a = some s → T.lookup s = some a

/-- Threads 0 and 1 open sector 5 together: both searches miss before either
inode is linked, and each thread then links its own. -/
def openRaceSchedule : List (Nat × InodeMove) :=
  [(0, .inodeOpen 5), (1, .inodeOpen 5),
    (0, .malloc (some (1, ⟨0, 0, false, 0⟩))), (0, .next), (0, .next),
    (1, .malloc (some (2, ⟨0, 0, false, 0⟩))), (1, .next), (1, .next)]

theorem open_inodes_duplicate_sector :
    ¬ ∀ T, Lts.Reachable InodeTable.step InodeTable.init T → T.UniquePerSector := by
  intro hall
  have hrun : (Lts.run InodeTable.step InodeTable.init openRaceSchedule).map
      (fun T => T.openInodes.filterMap T.sectorOf) = some [5, 5] := by decide
  obtain ⟨T, hT, hsec⟩ := Option.map_eq_some_iff.mp hrun
  have hnd := (hall T (Lts.reachable_of_run hT)).1
  rw [hsec] at hnd
  exact absurd hnd (by decide)

end Pintos.Filesys

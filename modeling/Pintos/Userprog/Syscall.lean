import Pintos.Filesys.Filesys

/-!
# The files of a process (`userprog/syscall.c`, `userprog/process.c`)

A process has a table of `FD_MAX` descriptors, each `NULL` or a `struct file`,
an `exec_file` and a `current_dir`. `thread_create` gives a child the parent's
current directory reopened and `file_dup`s each descriptor and the executable;
the system calls open, close and duplicate descriptors and run the file system's
calls from the current directory; `load` opens the executable, denies writes to
it and makes it `exec_file` in place of the old one whether or not the load
succeeds; `process_exit` closes each descriptor, then `exec_file` and
`current_dir`.

Both `sys_close` and `process_exit` close a descriptor with
`dir_close (file_get_directory (file))` and then `file_close (file)`. The
`struct dir` of a directory file shares the file's reference to the inode, and
`file_close` closes that inode again on the file's last reference.

A step is one process making one call. The loop of `process_exit` takes a step
for each descriptor it closes, so that other processes run in between, as they
can. Process 0 is the first process as `thread_create` makes it for the kernel's
main thread; its own `load` is not modelled. Pipes, reads and writes, page
tables and the bond are not modelled here.
-/

namespace Pintos.Userprog

open Pintos.Filesys Bytes

/-- `FD_MAX`. -/
def fdMax : Nat := 1024

/-- `EMFILE`. -/
def emfile : Int := 124

/-- `ENOENT`. -/
def enoent : Int := 129

/-- Where a process is in its life; `exiting fd` is `process_exit`'s loop at
descriptor `fd`. -/
inductive ProcState where
  | unborn
  | running
  | exiting (fd : Nat)
  | dead
  deriving DecidableEq, Repr

/-- The files of a process: `fd_table`, `exec_file` and `current_dir`. -/
structure Proc where
  state : ProcState
  fdTable : Nat → Nat
  execFile : Nat
  currentDir : Nat

/-- A thread id no process has yet. -/
def Proc.unborn : Proc := ⟨.unborn, fun _ => 0, 0, 0⟩

/-- The file system and the processes. -/
structure Sys where
  fs : Fs
  procs : Nat → Proc

/-- A call of a process. `exec2` loads `fileName`; `valid` answers whether its
ELF headers check out and its segments and arguments fit, which `load` finds out
through `file_read` and so never for a directory. `exitNext` is the next turn of
`process_exit`. -/
inductive SysCall where
  | create (path : List UInt8) (initialSize : Nat)
  | remove (path : List UInt8)
  | «open» (path : List UInt8)
  | close (fd : Int)
  | dup2 (oldFd newFd : Int)
  | pipe
  | chdir (path : List UInt8)
  | mkdir (path : List UInt8)
  | fork (child : Nat)
  | exec2 (fileName : List UInt8) (valid : Bool)
  | exit
  | exitNext
  deriving DecidableEq, Repr

/-! ## Descriptors -/

/-- `get_file_from_fd (fd)`. -/
def getFileFromFd (P : Proc) (fd : Int) : Nat :=
  if fd < 0 ∨ fdMax ≤ fd then 0 else P.fdTable fd.toNat

/-- `set_next_fd (file)`: the lowest free descriptor, or `-EMFILE`. -/
def setNextFd (P : Proc) (file : Nat) : Proc × Int :=
  match (List.range fdMax).find? fun fd => P.fdTable fd = 0 with
  | some fd => ({ P with fdTable := update P.fdTable fd file }, fd)
  | none => (P, -emfile)

/-- `set_next_fd` on a table with a free slot takes the lowest one. -/
theorem setNextFd_of_lowest {P : Proc} {file k : Nat} (hk : k < fdMax) (hfree : P.fdTable k = 0)
    (hbelow : ∀ fd < k, P.fdTable fd ≠ 0) :
    setNextFd P file = ({ P with fdTable := update P.fdTable k file }, (k : Int)) := by
  have hfind : (List.range fdMax).find? (fun fd => P.fdTable fd = 0) = some k :=
    List.find?_range_eq_some.mpr ⟨decide_eq_true hfree, List.mem_range.mpr hk,
      fun j hj => by rw [Bool.not_eq_true', decide_eq_false_iff_not]; exact hbelow j hj⟩
  unfold setNextFd
  rw [hfind]

/-- `set_next_fd` on a full table reports `-EMFILE` and changes nothing. -/
theorem setNextFd_of_full {P : Proc} {file : Nat} (h : ∀ fd < fdMax, P.fdTable fd ≠ 0) :
    setNextFd P file = (P, -emfile) := by
  have hfind : (List.range fdMax).find? (fun fd => P.fdTable fd = 0) = none :=
    List.find?_range_eq_none.mpr fun i hi => by
      rw [Bool.not_eq_true', decide_eq_false_iff_not]; exact h i hi
  unfold setNextFd
  rw [hfind]

/-- `sys_open (filename)`. -/
def sysOpen (F : Fs) (P : Proc) (filename : List UInt8) : Option (Fs × Proc × Int) := do
  let (F, file) ← F.filesysOpen P.currentDir filename
  if file = 0 then return (F, P, -enoent)
  let (P, fd) := setNextFd P file
  if fd = -emfile then return (← F.fileClose file, P, fd)
  return (F, P, fd)

/-- `sys_close (fd)`. -/
def sysClose (F : Fs) (P : Proc) (fd : Int) : Option (Fs × Proc) := do
  let file := getFileFromFd P fd
  if file = 0 then return (F, P)
  let f ← F.files file
  let F ← F.dirClose f.dir
  let F ← F.fileClose file
  return (F, { P with fdTable := update P.fdTable fd.toNat 0 })

/-- `sys_dup2 (old_fd, new_fd)`. The source stores into `fd_table[new_fd]`
without checking `new_fd`; a store outside the table fails here. -/
def sysDup2 (F : Fs) (P : Proc) (oldFd newFd : Int) : Option (Fs × Proc × Int) := do
  let file := getFileFromFd P oldFd
  if file = 0 then return (F, P, -1)
  if oldFd = newFd then return (F, P, newFd)
  let F ← F.fileClose (getFileFromFd P newFd)
  let F ← F.fileDup file
  if newFd < 0 ∨ fdMax ≤ newFd then none
  return (F, { P with fdTable := update P.fdTable newFd.toNat file }, newFd)

/-- `sys_filesize (fd)`. -/
def sysFilesize (F : Fs) (P : Proc) (fd : Int) : Option Int := do
  let file := getFileFromFd P fd
  if file = 0 then return -einvf
  return (← F.fileLength file)

/-- `sys_isdir (fd)`: whether the file has a `struct dir`. -/
def sysIsdir (F : Fs) (P : Proc) (fd : Int) : Option Bool := do
  let file := getFileFromFd P fd
  if file = 0 then return false
  let f ← F.files file
  return f.dir != 0

/-- `sys_inumber (fd)`: `inode_get_inumber (file_get_inode (file))`. -/
def sysInumber (F : Fs) (P : Proc) (fd : Int) : Option Int := do
  let file := getFileFromFd P fd
  if file = 0 then return -1
  let f ← F.files file
  return (← F.inodeGetInumber f.inode)

/-- The calls on a descriptor that names an allocated file: `sys_isdir` reads
only the file, while `sys_filesize` and `sys_inumber` go through `file->inode`
and fail exactly when no inode is there, as for a console file. -/
theorem fdCalls_of_file {F : Fs} {P : Proc} {fd : Int} {f : FileObj}
    (hfile : getFileFromFd P fd ≠ 0) (hf : F.files (getFileFromFd P fd) = some f) :
    sysIsdir F P fd = some (f.dir != 0) ∧
      (sysFilesize F P fd = none ↔ F.inodes f.inode = none) ∧
      (sysInumber F P fd = none ↔ F.inodes f.inode = none) := by
  refine ⟨by simp [sysIsdir, hfile, hf], ?_, ?_⟩
  · cases hi : F.inodes f.inode <;>
      simp [sysFilesize, Fs.fileLength, Fs.inodeLength, Fs.sectorOf, hfile, hf, hi]
  · cases hi : F.inodes f.inode <;>
      simp [sysInumber, Fs.inodeGetInumber, Fs.sectorOf, hfile, hf, hi]

/-- `sys_pipe (pipefd)`: the two values stored in `pipefd` and the result. -/
def sysPipe (F : Fs) (P : Proc) : Option (Fs × Proc × (Int × Int) × Int) := do
  let (F, readEnd, writeEnd) := F.pipeOpen
  let (P, fd0) := setNextFd P readEnd
  let (P, fd1) := setNextFd P writeEnd
  if fd0 = -1 ∨ fd1 = -1 then
    let F ← F.fileClose readEnd
    let F ← F.fileClose writeEnd
    return (F, P, (fd0, fd1), -1)
  return (F, P, (fd0, fd1), 0)

/-- `sys_dup2 (old_fd, new_fd)` onto a free slot of the table shares the file
there and raises its reference count. -/
theorem sysDup2_into_free {F : Fs} {P : Proc} (oldFd : Int) (newFd : Nat) {f : FileObj}
    (hold : getFileFromFd P oldFd ≠ 0) (hne : oldFd ≠ newFd) (hnew : newFd < fdMax)
    (hfree : P.fdTable newFd = 0) (hf : F.files (getFileFromFd P oldFd) = some f)
    (hpos : 0 < f.refCount) :
    sysDup2 F P oldFd newFd =
      some (F.setFile (getFileFromFd P oldFd) { f with refCount := f.refCount + 1 },
        { P with fdTable := update P.fdTable newFd (getFileFromFd P oldFd) }, (newFd : Int)) := by
  have hin : ¬((newFd : Int) < 0 ∨ fdMax ≤ (newFd : Int)) := by omega
  have hclose : getFileFromFd P newFd = 0 := by
    rw [getFileFromFd, if_neg hin, Int.toNat_natCast, hfree]
  simp [sysDup2, hold, hne, hclose, Fs.fileClose, Fs.fileDup, hf, Int.not_le.mpr hpos,
    Nat.not_le.mpr hnew]

/-- `sys_pipe` on a table with one free slot `k`: the read end goes into `k`, and
the write end finds the table full, so the call returns 0 with `pipefd[1]` set to
`-EMFILE` and the write end in no slot. -/
theorem sysPipe_of_one_free {F : Fs} {P : Proc} {k : Nat} (hk : k < fdMax)
    (hfree : P.fdTable k = 0) (hfull : ∀ fd < fdMax, fd ≠ k → P.fdTable fd ≠ 0) :
    sysPipe F P =
      some (F.pipeOpen.1, { P with fdTable := update P.fdTable k (F.next + 1) },
        ((k : Int), -emfile), 0) := by
  obtain ⟨F', hopen⟩ : ∃ F', F.pipeOpen = (F', F.next + 1, F.next + 2) := ⟨_, rfl⟩
  have hread : setNextFd P (F.next + 1) =
      ({ P with fdTable := update P.fdTable k (F.next + 1) }, (k : Int)) :=
    setNextFd_of_lowest hk hfree fun fd hfd => hfull fd (by omega) (by omega)
  have hwrite : setNextFd { P with fdTable := update P.fdTable k (F.next + 1) } (F.next + 2) =
      ({ P with fdTable := update P.fdTable k (F.next + 1) }, -emfile) := by
    apply setNextFd_of_full
    intro fd hfd
    by_cases hfk : fd = k
    · simp [update, hfk]
    · simp [update, hfk, hfull fd hfd hfk]
  simp only [sysPipe, hopen, hread, hwrite]
  simp [emfile]

/-- `sys_chdir (dir)`. -/
def sysChdir (F : Fs) (P : Proc) (dir : List UInt8) : Option (Fs × Proc × Bool) := do
  let (F, chdir) ← F.dirTraversePath P.currentDir dir true
  if chdir = 0 then return (F, P, false)
  let (F, d) ← F.dirReopen chdir
  return (F, { P with currentDir := d }, true)

/-! ## Processes -/

/-- `load (file_name)` as far as files go; `valid` as in `SysCall.exec2`. -/
def load (F : Fs) (P : Proc) (fileName : List UInt8) (valid : Bool) :
    Option (Fs × Proc × Bool) := do
  let (F, file) ← F.filesysOpen P.currentDir fileName
  let (F, success) ← if file = 0 then pure (F, false) else do
      let F ← F.fileDenyWrite file
      let f ← F.files file
      pure (F, valid && f.type == .reg)
  let F ← F.fileClose P.execFile
  return (F, { P with execFile := file }, success)

/-- What `thread_create` does for the files of a child of the process `parent`. -/
def threadCreate (F : Fs) (parent : Proc) : Option (Fs × Proc) := do
  let (F, cwd) ← if parent.currentDir ≠ 0 then F.dirReopen parent.currentDir else pure (F, 0)
  let F ← (List.range fdMax).foldlM (fun F i => F.fileDup (parent.fdTable i)) F
  let F ← F.fileDup parent.execFile
  return (F, ⟨.running, parent.fdTable, parent.execFile, cwd⟩)

/-- The turn of `process_exit`'s loop at the first descriptor in use from `fd`
on; past the last, the closing of `exec_file` and `current_dir`. Turns at empty
slots change nothing and are not steps. -/
def exitStep (F : Fs) (P : Proc) (fd : Nat) : Option (Fs × Proc) :=
  match (List.range' fd (fdMax - fd)).find? fun i => P.fdTable i ≠ 0 with
  | some i => do
    let f ← F.files (P.fdTable i)
    let F ← F.dirClose f.dir
    let F ← F.fileClose (P.fdTable i)
    return (F, { P with state := .exiting (i + 1) })
  | none => do
    let F ← F.fileClose P.execFile
    let F ← F.dirClose P.currentDir
    return (F, { P with state := .dead })

namespace Sys

/-- The process `p` becomes `P` over the file system `F`. -/
def set (S : Sys) (p : Nat) (F : Fs) (P : Proc) : Sys := ⟨F, update S.procs p P⟩

/-- The first process, as `thread_create` makes it for the main thread, which
has no descriptor table: the console on descriptors 0 and 1. -/
def boot (F : Fs) : Sys :=
  let (F, stdin) := F.fileOpenConsole .stdin
  let (F, stdout) := F.fileOpenConsole .stdout
  ⟨F, update (fun _ => Proc.unborn) 0
    ⟨.running, update (update (fun _ => 0) 0 stdin) 1 stdout, 0, 0⟩⟩

/-- The process `p` makes the call `c`. -/
def step (S : Sys) : Nat × SysCall → Option Sys
  | (p, c) =>
    let P := S.procs p
    match P.state, c with
    | .running, .create path initialSize =>
      (S.fs.filesysCreate P.currentDir path initialSize).map fun r => S.set p r.1 P
    | .running, .remove path => (S.fs.filesysRemove P.currentDir path).map fun r => S.set p r.1 P
    | .running, .mkdir path =>
      (S.fs.filesysDirCreate P.currentDir path 0).map fun r => S.set p r.1 P
    | .running, .open path => (sysOpen S.fs P path).map fun r => S.set p r.1 r.2.1
    | .running, .close fd => (sysClose S.fs P fd).map fun r => S.set p r.1 r.2
    | .running, .dup2 oldFd newFd => (sysDup2 S.fs P oldFd newFd).map fun r => S.set p r.1 r.2.1
    | .running, .pipe => (sysPipe S.fs P).map fun r => S.set p r.1 r.2.1
    | .running, .chdir path => (sysChdir S.fs P path).map fun r => S.set p r.1 r.2.1
    | .running, .fork child =>
      if (S.procs child).state = .unborn then
        (threadCreate S.fs P).map fun r => ⟨r.1, update S.procs child r.2⟩
      else none
    | .running, .exec2 fileName valid =>
      (load S.fs P fileName valid).map fun r =>
        S.set p r.1 (if r.2.2 then r.2.1 else { r.2.1 with state := .exiting 0 })
    | .running, .exit => some (S.set p S.fs { P with state := .exiting 0 })
    | .exiting fd, .exitNext => (exitStep S.fs P fd).map fun r => S.set p r.1 r.2
    | _, _ => none

theorem step_dup2 {S : Sys} {p : Nat} {oldFd newFd : Int} (h : (S.procs p).state = .running) :
    S.step (p, .dup2 oldFd newFd) =
      (sysDup2 S.fs (S.procs p) oldFd newFd).map fun r => S.set p r.1 r.2.1 := by
  unfold Sys.step
  dsimp only
  rw [h]

/-- Every descriptor of a running process names a file still allocated, with its
inode and, for a directory, its `struct dir`. -/
def DescriptorsLive (S : Sys) : Prop :=
  ∀ p fd, (S.procs p).state = .running → fd < fdMax → (S.procs p).fdTable fd ≠ 0 →
    ∃ f, S.fs.files ((S.procs p).fdTable fd) = some f ∧
      (f.inode ≠ 0 → S.fs.inodes f.inode ≠ none) ∧
      (f.dir ≠ 0 → S.fs.dirs f.dir ≠ none)

/-- Every file that denies writes holds one of its inode's `deny_write_cnt`,
which the inode's `open_cnt` bounds. -/
def DenialsCounted (S : Sys) : Prop :=
  ∀ file f, S.fs.files file = some f → f.denyWrite = true →
    ∃ o, S.fs.inodes f.inode = some o ∧ 0 < o.denyWriteCnt ∧ o.denyWriteCnt ≤ o.openCnt

/-- A state that a run of `calls` reaches on a disk of `size` sectors holding
`old` once formatted, and what `o` observes there. -/
theorem exists_reachable_of_run {α : Type} (size : Nat) (old : Nat → Nat → UInt8)
    (calls : List (Nat × SysCall)) {o : Sys → Option α} {v : α}
    (h : ((filesysInit size old).bind fun F₀ => Lts.run step (boot F₀) calls).bind o = some v) :
    ∃ F₀ S, filesysInit size old = some F₀ ∧ Lts.Reachable step (boot F₀) S ∧
      o S = some v :=
  Lts.exists_reachable_of_run_bind h

end Sys

/-- Make the directory `"d"`, open it, duplicate descriptor 2 onto 3 and close 2. -/
def dupThenClose : List (Nat × SysCall) :=
  [(0, .mkdir [100]), (0, .open [100]), (0, .dup2 2 3), (0, .close 2)]

theorem closing_duplicate_frees_dir :
    ¬ ∀ size old F₀, filesysInit size old = some F₀ →
      ∀ S, Lts.Reachable Sys.step (Sys.boot F₀) S → S.DescriptorsLive := by
  intro hall
  obtain ⟨F₀, S, h₀, hS, ho⟩ := Sys.exists_reachable_of_run 8 (fun _ _ => 0) dupThenClose
    (v := (.running, 14, ⟨.dir, 11, 0, false, 1, 15⟩, none))
    (o := fun S => (S.fs.files ((S.procs 0).fdTable 3)).map fun f =>
      ((S.procs 0).state, (S.procs 0).fdTable 3, f, S.fs.dirs f.dir)) (by decide +kernel)
  obtain ⟨f, hf, he⟩ := Option.map_eq_some_iff.mp ho
  simp only [Prod.mk.injEq] at he
  obtain ⟨hrun, hfd, rfl, hdir⟩ := he
  obtain ⟨f', hf', -, hlive⟩ :=
    hall 8 _ F₀ h₀ S hS 0 3 hrun (by decide) (by rw [hfd]; decide)
  rw [hf, Option.some.injEq] at hf'
  subst hf'
  exact hlive (by decide) hdir

/-- Make the directory `"d"`, open it twice and load it with `exec2`; the load
fails, and `process_exit` closes descriptors 0 to 3. -/
def execOpenDir : List (Nat × SysCall) :=
  [(0, .mkdir [100]), (0, .open [100]), (0, .open [100]), (0, .exec2 [100] true),
    (0, .exitNext), (0, .exitNext), (0, .exitNext), (0, .exitNext)]

theorem exec_denial_outlives_inode :
    ¬ ∀ size old F₀, filesysInit size old = some F₀ →
      ∀ S, Lts.Reachable Sys.step (Sys.boot F₀) S → S.DenialsCounted := by
  intro hall
  obtain ⟨F₀, S, h₀, hS, ho⟩ := Sys.exists_reachable_of_run 8 (fun _ _ => 0) execOpenDir
    (v := (⟨.dir, 11, 0, true, 1, 21⟩, none))
    (o := fun S => (S.fs.files (S.procs 0).execFile).map fun f => (f, S.fs.inodes f.inode))
    (by decide +kernel)
  obtain ⟨f, hf, he⟩ := Option.map_eq_some_iff.mp ho
  simp only [Prod.mk.injEq] at he
  obtain ⟨rfl, hfreed⟩ := he
  obtain ⟨o, hinode, -⟩ := hall 8 _ F₀ h₀ S hS _ _ hf rfl
  rw [hfreed] at hinode
  cases hinode

/-- Make the directory `"d"`, change into it, and make `"e"` there. -/
def chdirMkdir : List (Nat × SysCall) := [(0, .mkdir [100]), (0, .chdir [100]), (0, .mkdir [101])]

/-- After `chdirMkdir`, the relative path `"e/f"` is resolved from the process's
current directory: the loop opens `"e"` and closes the directory it came from,
which is the `struct dir` that `current_dir` points to. -/
theorem relative_path_closes_current_dir :
    ∃ F₀ S, filesysInit 8 (fun _ _ => 0) = some F₀ ∧ Lts.Reachable Sys.step (Sys.boot F₀) S ∧
      (S.procs 0).state = .running ∧ S.fs.dirs (S.procs 0).currentDir ≠ none ∧
      ∃ F dir, S.fs.dirTraversePath (S.procs 0).currentDir [101, 47, 102] false = some (F, dir) ∧
        dir ≠ 0 ∧ F.dirs (S.procs 0).currentDir = none := by
  obtain ⟨F₀, S, h₀, hS, ho⟩ := Sys.exists_reachable_of_run 8 (fun _ _ => 0) chdirMkdir
    (v := true)
    (o := fun S => (S.fs.dirTraversePath (S.procs 0).currentDir [101, 47, 102] false).map fun r =>
      decide ((S.procs 0).state = .running) && (S.fs.dirs (S.procs 0).currentDir).isSome &&
        r.2 != 0 && (r.1.dirs (S.procs 0).currentDir).isNone)
    (by decide +kernel)
  obtain ⟨⟨F, dir⟩, hr, hb⟩ := Option.map_eq_some_iff.mp ho
  simp only [Bool.and_eq_true, decide_eq_true_eq, bne_iff_ne, Option.isSome_iff_ne_none,
    Option.isNone_iff_eq_none] at hb
  obtain ⟨⟨⟨hrun, hlive⟩, hdir⟩, hclosed⟩ := hb
  exact ⟨F₀, S, h₀, hS, hrun, hlive, F, dir, hr, hdir, hclosed⟩

/-- At boot, process 0 calls `dup2 (0, 1024)`: descriptor 0 holds the console,
`file_close (get_file_from_fd (1024))` closes `NULL` and `file_dup` succeeds, so
the call fails only at its store into `fd_table[1024]`, one past the table. -/
theorem dup2_stores_past_table :
    ∃ F₀ S F, filesysInit 8 (fun _ _ => 0) = some F₀ ∧ Lts.Reachable Sys.step (Sys.boot F₀) S ∧
      (S.procs 0).state = .running ∧ getFileFromFd (S.procs 0) 0 ≠ 0 ∧
      (S.fs.fileClose (getFileFromFd (S.procs 0) 1024)).bind
        (·.fileDup (getFileFromFd (S.procs 0) 0)) = some F ∧
      sysDup2 S.fs (S.procs 0) 0 1024 = none := by
  obtain ⟨F₀, S, h₀, hS, ho⟩ := Sys.exists_reachable_of_run 8 (fun _ _ => 0) []
    (v := true)
    (o := fun S => some (decide ((S.procs 0).state = .running) && getFileFromFd (S.procs 0) 0 != 0 &&
      ((S.fs.fileClose (getFileFromFd (S.procs 0) 1024)).bind
        (·.fileDup (getFileFromFd (S.procs 0) 0))).isSome &&
      (sysDup2 S.fs (S.procs 0) 0 1024).isNone))
    (by decide +kernel)
  simp only [Option.some.injEq, Bool.and_eq_true, decide_eq_true_eq, bne_iff_ne,
    Option.isNone_iff_eq_none] at ho
  obtain ⟨⟨⟨hrun, hfile⟩, hsome⟩, hnone⟩ := ho
  obtain ⟨F, hF⟩ := Option.isSome_iff_exists.mp hsome
  exact ⟨F₀, S, F, h₀, hS, hrun, hfile, hF, hnone⟩

/-- At boot, descriptor 0 of process 0 is the console's `STDIN` file, which has
no inode: `sys_filesize (0)` and `sys_inumber (0)` both read through its `NULL`
`file->inode`, in `inode_length` and `inode_get_inumber`. -/
theorem console_filesize_reads_null_inode :
    ∃ F₀ S f, filesysInit 8 (fun _ _ => 0) = some F₀ ∧ Lts.Reachable Sys.step (Sys.boot F₀) S ∧
      (S.procs 0).state = .running ∧ getFileFromFd (S.procs 0) 0 ≠ 0 ∧
      S.fs.files (getFileFromFd (S.procs 0) 0) = some f ∧ f.type = .stdin ∧ f.inode = 0 ∧
      S.fs.inodes 0 = none ∧
      sysFilesize S.fs (S.procs 0) 0 = none ∧ sysInumber S.fs (S.procs 0) 0 = none := by
  obtain ⟨F₀, S, h₀, hS, ho⟩ := Sys.exists_reachable_of_run 8 (fun _ _ => 0) []
    (v := true)
    (o := fun S => (S.fs.files (getFileFromFd (S.procs 0) 0)).map fun f =>
      decide ((S.procs 0).state = .running) && getFileFromFd (S.procs 0) 0 != 0 &&
        f.type == .stdin && f.inode == 0 && (S.fs.inodes 0).isNone)
    (by decide +kernel)
  obtain ⟨f, hf, hb⟩ := Option.map_eq_some_iff.mp ho
  simp only [Bool.and_eq_true, decide_eq_true_eq, bne_iff_ne, beq_iff_eq,
    Option.isNone_iff_eq_none] at hb
  obtain ⟨⟨⟨⟨hrun, hfile⟩, htype⟩, hinode⟩, hnull⟩ := hb
  obtain ⟨-, hsize, hnum⟩ := fdCalls_of_file hfile hf
  rw [hinode] at hsize hnum
  exact ⟨F₀, S, f, h₀, hS, hrun, hfile, hf, htype, hinode, hnull, hsize.mpr hnull, hnum.mpr hnull⟩

/-- Process 0 duplicates descriptor 0 onto descriptors 2 to `n + 1`. -/
def dupStdin (n : Nat) : List (Nat × SysCall) :=
  (List.range' 2 n).map fun (i : Nat) => (0, .dup2 0 (i : Int))

theorem dupStdin_succ (n : Nat) :
    dupStdin (n + 1) = dupStdin n ++ [(0, .dup2 0 ((n + 2 : Nat) : Int))] := by
  rw [dupStdin, dupStdin, List.range'_concat, List.map_append, List.map_singleton]
  congr 4
  omega

/-- After `dupStdin n`, descriptors 0 and 2 to `n + 1` share the console input,
descriptor 1 is the console output, and the other slots are free. -/
theorem run_dupStdin {F₀ : Fs} (hnext : 0 < F₀.next) :
    ∀ n, n + 2 ≤ fdMax → ∃ S, Lts.run Sys.step (Sys.boot F₀) (dupStdin n) = some S ∧
      (S.procs 0).state = .running ∧ S.fs.next = F₀.next + 2 ∧
      (∀ i, (S.procs 0).fdTable i =
        if i = 1 then F₀.next + 1 else if i = 0 ∨ 2 ≤ i ∧ i < n + 2 then F₀.next else 0) ∧
      ∃ f, S.fs.files F₀.next = some f ∧ 0 < f.refCount := by
  intro n
  induction n with
  | zero =>
    intro _
    refine ⟨_, rfl, rfl, rfl, fun i => ?_, ⟨.stdin, 0, 0, false, 1, 0⟩, ?_, by decide⟩
    · by_cases h1 : i = 1
      · simp [Sys.boot, Fs.fileOpenConsole, Fs.setFile, Fs.alloc, update, h1]
      · by_cases h0 : i = 0
        · simp [Sys.boot, Fs.fileOpenConsole, Fs.alloc, update, h0]
        · simp [Sys.boot, Fs.fileOpenConsole, Fs.alloc, update, h0, h1]
          omega
    · simp [Sys.boot, Fs.fileOpenConsole, Fs.setFile, Fs.alloc, update]
  | succ n ih =>
    intro hn
    obtain ⟨S, hrun, hstate, hS, htable, f, hf, hpos⟩ := ih (by omega)
    have hget : getFileFromFd (S.procs 0) 0 = F₀.next := by
      simp [getFileFromFd, htable, fdMax]
    have hdup := sysDup2_into_free (F := S.fs) 0 (n + 2) (by rw [hget]; omega) (by omega) (by omega) (by rw [htable]; simp)
      (hget ▸ hf) hpos
    rw [hget] at hdup
    refine ⟨S.set 0 (S.fs.setFile F₀.next { f with refCount := f.refCount + 1 })
        { S.procs 0 with fdTable := update (S.procs 0).fdTable (n + 2) F₀.next }, ?_, ?_, ?_,
      fun i => ?_, { f with refCount := f.refCount + 1 }, ?_, by simp; omega⟩
    · rw [dupStdin_succ, Lts.run_append, hrun, Option.bind_some, Lts.run_singleton]
      rw [Sys.step_dup2 hstate, hdup]
      rfl
    · simp [Sys.set, update, hstate]
    · simp [Sys.set, Fs.setFile, hS]
    · simp only [Sys.set, update, if_true, htable]
      split_ifs <;> omega
    · simp [Sys.set, Fs.setFile, update]

/-- Process 0 fills descriptors 2 to 1022 with `dup2`, which leaves only
descriptor 1023 free, and calls `pipe`: the read end goes into 1023,
`pipefd[1]` receives `-EMFILE`, and the call returns 0 with the write end open
on `open_files` and in no slot. -/
theorem pipe_one_free_slot_returns_zero :
    ∃ F₀ S F P, filesysInit 8 (fun _ _ => 0) = some F₀ ∧
      Lts.Reachable Sys.step (Sys.boot F₀) S ∧ (S.procs 0).state = .running ∧
      (∀ fd < fdMax, (S.procs 0).fdTable fd = 0 ↔ fd = 1023) ∧
      sysPipe S.fs (S.procs 0) = some (F, P, (1023, -emfile), 0) ∧
      P.fdTable 1023 = S.fs.next + 1 ∧ S.fs.next + 2 ∈ F.openFiles ∧
      ∀ fd, P.fdTable fd ≠ S.fs.next + 2 := by
  have hinit : (filesysInit 8 (fun _ _ => 0)).map Fs.next = some 8 := by decide +kernel
  obtain ⟨F₀, h₀, hnext⟩ := Option.map_eq_some_iff.mp hinit
  obtain ⟨S, hrun, hstate, hS, htable, -⟩ := run_dupStdin (by omega : 0 < F₀.next) 1021
    (by decide)
  have hfree : ∀ fd < fdMax, (S.procs 0).fdTable fd = 0 ↔ fd = 1023 := by
    intro fd hfd
    simp only [fdMax] at hfd
    constructor
    · intro h
      rw [htable] at h
      split_ifs at h <;> omega
    · rintro rfl
      rw [htable]
      simp
  have hpipe := sysPipe_of_one_free (F := S.fs) (k := 1023) (by decide)
    ((hfree 1023 (by decide)).mpr rfl) fun fd hfd hne h => hne ((hfree fd hfd).mp h)
  refine ⟨F₀, S, _, _, h₀, Lts.reachable_of_run hrun, hstate, hfree, hpipe, by simp [update], ?_,
    fun fd => ?_⟩
  · simp [Fs.pipeOpen, Fs.filePipeEnds, Fs.alloc, Fs.setFile]
  · simp only [update, htable, hS]
    split_ifs <;> omega

end Pintos.Userprog

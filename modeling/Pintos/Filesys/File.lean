import Pintos.Filesys.Directory

/-!
# Open files (`filesys/file.c`)

A `struct file` holds an inode, a position, whether it denies writes to its
inode, and a reference count that `file_dup` raises for each descriptor that
shares it; `file_close` lowers the count and, at zero, lets writes through
again, closes the inode and frees the file. A file on a directory also holds a
`struct dir` for that inode, opened by `file_open`; `file_close` does not close
it. A console file and a pipe end have no inode; the pipe itself is not
modelled here.
-/

namespace Pintos.Filesys

/-- `EINVF`. -/
def einvf : Int := 13

/-- `EISDIR`. -/
def eisdir : Int := 123

namespace Fs

/-- The file at `a` becomes `f`. -/
def setFile (F : Fs) (a : Nat) (f : FileObj) : Fs :=
  { F with files := Bytes.update F.files a (some f) }

/-- `file_open (inode)`, which takes over the caller's reference to `inode`. -/
def fileOpen (F : Fs) (inode : Nat) : Option (Fs × Nat) := do
  if inode = 0 then return (F, 0)
  let (F, file) := F.alloc
  let isDir ← F.inodeIsDir inode
  let (F, type, dir) := if isDir then
      let (F, d) := F.dirOpen inode
      (F, FileType.dir, d)
    else (F, FileType.reg, 0)
  let F := F.setFile file ⟨type, inode, 0, false, 1, dir⟩
  return ({ F with openFiles := file :: F.openFiles }, file)

/-- `file_open_console (type)` for `STDIN` or `STDOUT`. -/
def fileOpenConsole (F : Fs) (type : FileType) : Fs × Nat :=
  let (F, file) := F.alloc
  let F := F.setFile file ⟨type, 0, 0, false, 1, 0⟩
  ({ F with openFiles := file :: F.openFiles }, file)

/-- `file_allow_write (file)`. -/
def fileAllowWrite (F : Fs) (file : Nat) : Option Fs := do
  let f ← F.files file
  if !f.denyWrite then return F
  (F.setFile file { f with denyWrite := false }).inodeAllowWrite f.inode

/-- `file_deny_write (file)`. -/
def fileDenyWrite (F : Fs) (file : Nat) : Option Fs := do
  let f ← F.files file
  if f.denyWrite then return F
  (F.setFile file { f with denyWrite := true }).inodeDenyWrite f.inode

/-- `file_close (file)`. -/
def fileClose (F : Fs) (file : Nat) : Option Fs := do
  if file = 0 then return F
  let f ← F.files file
  let f := { f with refCount := f.refCount - 1 }
  let F := F.setFile file f
  if f.refCount ≠ 0 then return F
  let F ← F.fileAllowWrite file
  let F ← F.inodeClose f.inode
  let F := { F with openFiles := F.openFiles.erase file }
  return { F with files := Bytes.update F.files file none }

/-- `file_dup (file)`. -/
def fileDup (F : Fs) (file : Nat) : Option Fs := do
  if file = 0 then return F
  let f ← F.files file
  if f.refCount ≤ 0 then none
  return F.setFile file { f with refCount := f.refCount + 1 }

/-- `file_pipe_ends (pipe, &read_end, &write_end)`: two `PIPE` files with one
reference each and no inode, each pushed on the front of `open_files`. -/
def filePipeEnds (F : Fs) : Fs × Nat × Nat :=
  let (F, readEnd) := F.alloc
  let (F, writeEnd) := F.alloc
  let F := F.setFile readEnd ⟨.pipe, 0, 0, false, 1, 0⟩
  let F := { F with openFiles := readEnd :: F.openFiles }
  let F := F.setFile writeEnd ⟨.pipe, 0, 0, false, 1, 0⟩
  ({ F with openFiles := writeEnd :: F.openFiles }, readEnd, writeEnd)

/-- `pipe_open (&read_end, &write_end)`: `pipe_create (4095)`, then the two ends;
`malloc` does not fail here. -/
def pipeOpen (F : Fs) : Fs × Nat × Nat :=
  let (F, _) := F.alloc
  F.filePipeEnds

theorem pipeOpen_ends (F : Fs) : F.pipeOpen.2 = (F.next + 1, F.next + 2) := rfl

/-- `file_length (file)`: `inode_length (file->inode)`. -/
def fileLength (F : Fs) (file : Nat) : Option Nat := do
  let f ← F.files file
  F.inodeLength f.inode

/-- `file_seek (file, new_pos)`. -/
def fileSeek (F : Fs) (file newPos : Nat) : Option Fs :=
  (F.files file).map fun f => F.setFile file { f with pos := newPos }

/-- `file_write (file, buffer, size)` on a file or directory: the bytes written,
or minus the error number. -/
def fileWrite (F : Fs) (file : Nat) (buffer : Nat → UInt8) (size : Nat) :
    Option (Fs × Int) := do
  if file = 0 then return (F, -einvf)
  let f ← F.files file
  match f.type with
  | .dir => return (F, -eisdir)
  | .reg =>
    let (F, written) ← F.inodeWriteAt f.inode buffer size f.pos
    return (F.setFile file { f with pos := f.pos + written }, written)
  | _ => none

end Fs

end Pintos.Filesys

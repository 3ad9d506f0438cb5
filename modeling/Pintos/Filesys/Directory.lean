import Pintos.Filesys.Inode
import Pintos.Threads.Palloc

/-!
# Directories (`filesys/directory.c`)

A directory is an inode whose data is an array of 20-byte `struct dir_entry`s:
the inode's sector, a name of at most `NAME_MAX` bytes ended by `NUL`, and
`in_use`. The functions scan the array with `inode_read_at` until a read comes
up short; `findEntry` is that loop, shared by `lookup`, the free-slot search of
`dir_add`, the emptiness check of `dir_remove` and `dir_readdir`.

`dir_traverse_path` resolves a path: the tokens `strtok_r` cuts out of a copy
of the path, opening each directory and closing the one before, and stopping
before the token that starts where `file_name` points. It starts from the root
when the copy, as the first `strtok_r` left it, still has a slash (the path
starts with one) or the thread has no current directory, and from the current
directory otherwise. Strings are lists of bytes without their `NUL`.
-/

namespace Pintos.Filesys

open Bytes

/-- `NAME_MAX`. -/
def nameMax : Nat := 14

/-- `sizeof (struct dir_entry)`. -/
def dirEntrySize : Nat := 20

/-- `'/'`. -/
def slash : UInt8 := 47

/-- `"."`. -/
def dot : List UInt8 := [46]

/-- `".."`. -/
def dotdot : List UInt8 := [46, 46]

/-- `ROOT_DIR_SECTOR`. -/
def rootDirSector : Nat := 1

/-! ## Entries -/

/-- `e.inode_sector` of an entry read as the bytes `e`. -/
def entrySector (e : List UInt8) : Nat := getWord (fun i => e.getD i 0) 0

/-- `e.name`, up to its `NUL`. -/
def entryName (e : List UInt8) : List UInt8 :=
  ((e.drop 4).take (nameMax + 1)).takeWhile (· ≠ 0)

/-- `e.in_use`. -/
def entryInUse (e : List UInt8) : Bool := e.getD 19 0 != 0

/-- An entry in use with a name other than `"."` and `".."`. -/
def entryListed (e : List UInt8) : Bool :=
  entryInUse e && entryName e != dot && entryName e != dotdot

/-- The bytes `dir_add` writes for `name` (at most `NAME_MAX` bytes) and
`sector`. The bytes of the name field after its `NUL` are left over from the
last entry read and nothing reads them; here they are zero. -/
def newEntry (name : List UInt8) (sector : Nat) : Nat → UInt8 := fun i =>
  if i < 4 then UInt8.ofNat (sector / 256 ^ i)
  else if i < 4 + name.length then name.getD (i - 4) 0
  else if i = dirEntrySize - 1 then 1 else 0

/-- The bytes `e` with `in_use` cleared, as `dir_remove` writes them back. -/
def clearedEntry (e : List UInt8) : Nat → UInt8 := fun i =>
  if i = dirEntrySize - 1 then 0 else e.getD i 0

/-! ## Paths -/

/-- The tokens `strtok_r (…, "/", …)` cuts out of `s`, each with its offset,
from offset `i` on; `cur` is the token being read. -/
def tokensFrom : List UInt8 → Nat → Option (Nat × List UInt8) → List (Nat × List UInt8)
  | [], _, cur => cur.toList
  | c :: s, i, cur =>
    if c = slash then cur.toList ++ tokensFrom s (i + 1) none
    else tokensFrom s (i + 1) (some (match cur with
      | none => (i, [c])
      | some (j, t) => (j, t ++ [c])))

/-- The tokens of `s` in the order successive `strtok_r` calls return them. -/
def tokens (s : List UInt8) : List (Nat × List UInt8) := tokensFrom s 0 none

/-- `strrchr (s, '/')`: the offset of the last slash. -/
def lastSlash (s : List UInt8) : Option Nat :=
  ((List.range s.length).filter fun i => s.getD i 0 = slash).getLast?

/-- The copy as a string once the first `strtok_r` has cut its first token: the
slashes before the token and the token, with the slash after it overwritten by
`NUL`. -/
def cutFirstToken (s : List UInt8) : List UInt8 :=
  let lead := s.takeWhile (· = slash)
  lead ++ (s.drop lead.length).takeWhile (· ≠ slash)

/-- The cut copy keeps a slash exactly when the path starts with one. -/
theorem slash_mem_cutFirstToken_iff (s : List UInt8) :
    slash ∈ cutFirstToken s ↔ s.head? = some slash := by
  cases s with
  | nil => simp [cutFirstToken]
  | cons c s =>
    by_cases hc : c = slash
    · subst hc
      simp [cutFirstToken]
    · have hlead : (c :: s).takeWhile (· = slash) = [] := by simp [hc]
      simp only [cutFirstToken, hlead, List.length_nil, List.drop_zero, List.nil_append,
        List.head?_cons, Option.some.injEq]
      constructor
      · intro h
        have hall := List.all_eq_true.mp List.all_takeWhile slash h
        simp at hall
      · intro h
        exact absurd h hc

/-- `file_name_from_path (path)`: what follows the last slash. -/
def fileNameFromPath (path : List UInt8) : List UInt8 :=
  match lastSlash path with
  | some i => path.drop (i + 1)
  | none => path

namespace Fs

/-- The entries of the directory whose inode is at sector `s`, as the disk holds
them. -/
def entriesOf (F : Fs) (s : Nat) : List (List UInt8) :=
  (List.range (F.word s lengthOfs / dirEntrySize)).map fun k =>
    F.readAt s dirEntrySize (k * dirEntrySize)

/-- The sector that the entry in use named `name` of the directory at sector `s`
points to. -/
def entryOf (F : Fs) (s : Nat) (name : List UInt8) : Option Nat :=
  ((F.entriesOf s).find? fun e => entryInUse e && entryName e == name).map entrySector

/-! ## Opening and closing -/

/-- `dir_create (sector, entry_cnt)`. -/
def dirCreate (F : Fs) (sector entryCnt : Nat) : Option (Fs × Bool) :=
  F.inodeCreate sector (entryCnt * dirEntrySize) true

/-- `dir_open (inode)`: a new `struct dir` at position 0; `NULL` for a `NULL`
inode. -/
def dirOpen (F : Fs) (inode : Nat) : Fs × Nat :=
  if inode = 0 then (F, 0) else
  let (F, d) := F.alloc
  ({ F with dirs := Bytes.update F.dirs d (some ⟨inode, 0⟩) }, d)

/-- `dir_open_root ()`. -/
def dirOpenRoot (F : Fs) : Fs × Nat :=
  let (F, inode) := F.inodeOpen rootDirSector
  F.dirOpen inode

/-- `dir_reopen (dir)`. -/
def dirReopen (F : Fs) (dir : Nat) : Option (Fs × Nat) := do
  let d ← F.dirs dir
  let F ← F.inodeReopen d.inode
  return F.dirOpen d.inode

/-- `dir_close (dir)`. -/
def dirClose (F : Fs) (dir : Nat) : Option Fs := do
  if dir = 0 then return F
  let d ← F.dirs dir
  let F ← F.inodeClose d.inode
  return { F with dirs := Bytes.update F.dirs dir none }

/-! ## The entry array -/

/-- Read entries of the directory `inode` from `ofs` on, at most `fuel` of them,
until one satisfies `p`: the offset the loop stops at, and the entry there if it
satisfies `p` (none when a read came up short). -/
def findEntry (F : Fs) (inode : Nat) (p : List UInt8 → Bool) :
    Nat → Nat → Option (Nat × Option (List UInt8))
  | 0, ofs => some (ofs, none)
  | fuel + 1, ofs => do
    let e ← F.inodeReadAt inode dirEntrySize ofs
    if e.length ≠ dirEntrySize then return (ofs, none)
    if p e then return (ofs, some e)
    F.findEntry inode p fuel (ofs + dirEntrySize)

/-- Enough passes for `findEntry` over the directory `inode`: every pass but the
last reads a whole entry below its length. -/
def entryFuel (F : Fs) (inode : Nat) : Nat :=
  ((F.inodeLength inode).getD 0) / dirEntrySize + 1

/-- `lookup (dir, name, &e, &ofs)` for the directory's inode: the entry in use
named `name`, and its offset. -/
def lookup (F : Fs) (inode : Nat) (name : List UInt8) : Option (Option (List UInt8 × Nat)) := do
  let (ofs, e) ← F.findEntry inode (fun e => entryInUse e && entryName e == name)
    (F.entryFuel inode) 0
  return e.map (·, ofs)

/-- `dir_lookup (dir, name, &inode)`: the inode of the entry opened, or `NULL`. -/
def dirLookup (F : Fs) (dir : Nat) (name : List UInt8) : Option (Fs × Nat) := do
  let d ← F.dirs dir
  match ← F.lookup d.inode name with
  | some (e, _) => return F.inodeOpen (entrySector e)
  | none => return (F, 0)

/-- `dir_add (dir, name, inode_sector)`: the entry goes into the first free slot
or at the end. -/
def dirAdd (F : Fs) (dir : Nat) (name : List UInt8) (inodeSector : Nat) :
    Option (Fs × Bool) := do
  if name = [] ∨ name.length > nameMax then return (F, false)
  let d ← F.dirs dir
  if (← F.lookup d.inode name).isSome then return (F, false)
  let (ofs, _) ← F.findEntry d.inode (fun e => !entryInUse e) (F.entryFuel d.inode) 0
  let (F, n) ← F.inodeWriteAt d.inode (newEntry name inodeSector) dirEntrySize ofs
  return (F, n == dirEntrySize)

/-- `dir_remove (dir, name)`: a directory only if it lists nothing but `"."` and
`".."`. -/
def dirRemove (F : Fs) (dir : Nat) (name : List UInt8) : Option (Fs × Bool) := do
  let d ← F.dirs dir
  match ← F.lookup d.inode name with
  | none => return (F, false)
  | some (e, ofs) =>
    let (F, inode) := F.inodeOpen (entrySector e)
    let nonEmpty ← if ← F.inodeIsDir inode then do
        let (_, x) ← F.findEntry inode entryListed (F.entryFuel inode) 0
        pure x.isSome
      else pure false
    if nonEmpty then return (← F.inodeClose inode, false)
    let (F, n) ← F.inodeWriteAt d.inode (clearedEntry e) dirEntrySize ofs
    if n ≠ dirEntrySize then return (← F.inodeClose inode, false)
    let F ← F.inodeRemove inode
    return (← F.inodeClose inode, true)

/-- `dir_readdir (dir, name)`: the next listed name from the directory's
position on. -/
def dirReaddir (F : Fs) (dir : Nat) : Option (Fs × Option (List UInt8)) := do
  let d ← F.dirs dir
  let (ofs, e) ← F.findEntry d.inode entryListed (F.entryFuel d.inode) d.pos
  let pos := if e.isSome then ofs + dirEntrySize else ofs
  let F := { F with dirs := Bytes.update F.dirs dir (some { d with pos := pos }) }
  return (F, e.map fun e => (entryName e).take nameMax)

/-! ## Paths -/

/-- The loop of `dir_traverse_path` over the tokens left, from the directory
`dir`; `fileName` is the offset `file_name` points at. -/
def traverseLoop (isDir : Bool) (fileName : Option Nat) :
    List (Nat × List UInt8) → Fs → Nat → Option (Fs × Nat)
  | [], F, dir => some (F, dir)
  | (pos, name) :: rest, F, dir => do
    if dir = 0 then return (F, 0)
    if some pos = fileName ∧ isDir = false then return (F, dir)
    let (F, inode) ← F.dirLookup dir name
    if inode = 0 then return (← F.dirClose dir, 0)
    let (F, next) := F.dirOpen inode
    let F ← F.dirClose dir
    -- `rightmost_dir` ends the loop after this token
    if some pos = fileName then return (F, next)
    traverseLoop isDir fileName rest F next

/-- `dir_traverse_path (path, is_dir)` for a thread whose `current_dir` is `cwd`.
Without a slash, `dir_name` and `file_name` are both `path`, the copy is left
whole, and after the lookup the source reads `path_ptr` uninitialized, which
here reads `NULL`. -/
def dirTraversePath (F : Fs) (cwd : Nat) (path : List UInt8) (isDir : Bool) :
    Option (Fs × Nat) := do
  let pathCopy := path.take (Threads.pgSize - 1)
  let (F, dir) ← if slash ∈ cutFirstToken pathCopy ∨ cwd = 0 then some F.dirOpenRoot else do
      let d ← F.dirs cwd
      let o ← F.inodes d.inode
      pure (F, if o.removed then 0 else cwd)
  if slash ∈ path then
    traverseLoop isDir ((lastSlash pathCopy).map (· + 1)) (tokens pathCopy) F dir
  else traverseLoop isDir (some 0) [(0, path)] F dir

end Fs

end Pintos.Filesys

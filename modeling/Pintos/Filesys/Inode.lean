import Pintos.Kernel.Bitmap
import Pintos.Filesys.OpenInodes
import Pintos.Lib.Bytes

/-!
# Indexed inodes (`filesys/inode.c`, `filesys/free-map.c`)

An on-disk inode is one sector: the file's length, whether it is a directory,
123 direct entries, one indirect table of 128 entries and one doubly indirect
table of 128 indirect tables. An entry of `-1` maps no sector. `byte_to_sector`
finds the sector that holds a byte and, on a write, allocates the missing data
sector and tables from the free map, answering `-2` when the free map has none
left and `-1` past the last table.

`Fs` is the state these functions share: each sector's bytes as the buffer
cache presents them (by `cache_refines_disk` a client of the cache reads the
disk it wrote), the number of sectors of the device, the free map, and the
`struct inode`, `struct dir` and `struct file` objects in the kernel heap.
Pointers are addresses, `0` is `NULL`, and `malloc` hands out fresh addresses. A
function whose `ASSERT` fails, or that follows a pointer to a freed object,
returns `none`, and so does `block_read`'s `check_sector` past the end of the
device.

`byte_to_sector` on a read changes nothing (`byteToSector_read`). Past the
doubly indirect tree it answers `-1`, which `inode_write_at` takes for a sector
number: a whole sector goes into the cache under that number, and a partial one
makes `cache_read_block` read the device there, which panics.
-/

namespace Pintos.Filesys

open Pintos.Kernel Bytes

/-! ## The on-disk inode -/

/-- `BLOCK_SECTOR_SIZE`. -/
def blockSectorSize : Nat := 512

/-- `NUM_DIRECT`. -/
def numDirect : Nat := 123

/-- `NUM_INDIRECT`: the entries of an indirect table. -/
def numIndirect : Nat := 128

/-- `NUM_DOUBLE_INDIRECT`: the sectors the doubly indirect tree maps. -/
def numDoubleIndirect : Nat := 16384

/-- `(block_sector_t) -1`: an empty entry, and "no sector". -/
def sectorNone : Nat := 0xFFFFFFFF

/-- `(block_sector_t) -2`: the free map ran out. -/
def sectorNoSpace : Nat := 0xFFFFFFFE

/-- The offset of `length` in `struct inode_disk`. -/
def lengthOfs : Nat := 0

/-- The offset of `is_dir`. -/
def isDirOfs : Nat := 4

/-- The offset of `direct[i]`, after `magic`. -/
def directOfs (i : Nat) : Nat := 12 + 4 * i

/-- The offset of `indirect`. -/
def indirectOfs : Nat := 504

/-- The offset of `double_indirect`. -/
def doubleIndirectOfs : Nat := 508

/-! ## The state -/

/-- `struct dir`. -/
structure DirObj where
  inode : Nat
  pos : Nat
  deriving DecidableEq, Repr

/-- `file_type`. -/
inductive FileType where
  | stdin
  | stdout
  | reg
  | dir
  | pipe
  deriving DecidableEq, Repr

/-- `struct file`, without its pipe. -/
structure FileObj where
  type : FileType
  inode : Nat
  pos : Nat
  denyWrite : Bool
  refCount : Int
  dir : Nat
  deriving DecidableEq, Repr

/-- The disk, the free map, the heap objects of the file system, the lists
`open_inodes` and `open_files` (front first), and the next address `malloc`
hands out. -/
structure Fs where
  disk : Nat → Nat → UInt8
  /-- `block_size (fs_device)`. -/
  sectors : Nat
  freeMap : Bitmap
  inodes : Nat → Option InodeObj
  openInodes : List Nat
  dirs : Nat → Option DirObj
  files : Nat → Option FileObj
  openFiles : List Nat
  next : Nat

namespace Fs

/-- The word at byte `ofs` of sector `s`. -/
def word (F : Fs) (s ofs : Nat) : Nat := getWord (F.disk s) ofs

/-- Store the word `v` at byte `ofs` of sector `s`. -/
def setWord (F : Fs) (s ofs v : Nat) : Fs :=
  { F with disk := update F.disk s (Bytes.setWord (F.disk s) ofs v) }

/-- `cache_zero_block` on sector `s`. -/
def zeroSector (F : Fs) (s : Nat) : Fs :=
  { F with disk := update F.disk s fun _ => 0 }

/-- `malloc`: a fresh address. -/
def alloc (F : Fs) : Fs × Nat := ({ F with next := F.next + 1 }, F.next)

/-- The inode at `a` becomes `o`. -/
def setInode (F : Fs) (a : Nat) (o : InodeObj) : Fs :=
  { F with inodes := update F.inodes a (some o) }

/-- `inode->sector`; `none` for a pointer to no inode. -/
def sectorOf (F : Fs) (inode : Nat) : Option Nat := (F.inodes inode).map (·.sector)

/-! ## The free map -/

/-- `free_map_allocate (1, &sector)`: the lowest free sector, now in use. -/
def freeMapAllocate (F : Fs) : Option (Fs × Nat) :=
  match F.freeMap.scanAndFlip 0 1 false with
  | (_, none) => none
  | (m, some s) => some ({ F with freeMap := m }, s)

/-- `free_map_release (sector, 1)`; its `ASSERT` wants the sector in use. The
copy of the free map in its file is not modelled. -/
def freeMapRelease (F : Fs) (sector : Nat) : Option Fs :=
  if F.freeMap.all sector 1 = some true then
    some { F with freeMap := F.freeMap.setMultiple sector 1 false }
  else none

/-! ## `byte_to_sector` -/

/-- An entry of a table at byte `ofs` of sector `t`, as each lookup reads it:
`-1` for an empty entry on a read; on a write a new sector from the free map,
stored in the entry, or `-2`. -/
def lookupEntry (F : Fs) (t ofs : Nat) (write : Bool) : Fs × Nat :=
  let sector := F.word t ofs
  if write = false ∧ sector = sectorNone then (F, sectorNone)
  else if write = true ∧ sector = sectorNone then
    match F.freeMapAllocate with
    | none => (F, sectorNoSpace)
    | some (F, new) => (F.setWord t ofs new, new)
  else (F, sector)

/-- `access_indirect_block (indirect, write)`: a new table has every entry
`-1`. -/
def accessIndirectBlock (F : Fs) (indirect : Nat) (write : Bool) : Fs × Nat :=
  if write = false ∧ indirect = sectorNone then (F, sectorNone)
  else if write = true ∧ indirect = sectorNone then
    match F.freeMapAllocate with
    | none => (F, sectorNoSpace)
    | some (F, indirect) =>
      ((List.range numIndirect).foldl (fun F i => F.setWord indirect (4 * i) sectorNone)
        (F.zeroSector indirect), indirect)
  else (F, indirect)

/-- `lookup_direct_table` for the inode at sector `s`. The read-ahead of the next
entry leaves the disk as it is and is not modelled, here and below. -/
def lookupDirectTable (F : Fs) (s mapping : Nat) (write : Bool) : Fs × Nat :=
  F.lookupEntry s (directOfs mapping) write

/-- `lookup_indirect_table`. -/
def lookupIndirectTable (F : Fs) (s mapping : Nat) (write : Bool) : Fs × Nat :=
  let (F, indirect) := F.accessIndirectBlock (F.word s indirectOfs) write
  if indirect = sectorNone ∨ indirect = sectorNoSpace then (F, indirect) else
  (F.setWord s indirectOfs indirect).lookupEntry indirect (4 * (mapping - numDirect)) write

/-- `lookup_double_indirect_table`. -/
def lookupDoubleIndirectTable (F : Fs) (s mapping : Nat) (write : Bool) : Fs × Nat :=
  let (F, doubleIndirect) := F.accessIndirectBlock (F.word s doubleIndirectOfs) write
  if doubleIndirect = sectorNone ∨ doubleIndirect = sectorNoSpace then (F, doubleIndirect) else
  let F := F.setWord s doubleIndirectOfs doubleIndirect
  let index := (mapping - numDirect - numIndirect) / numIndirect
  let (F, indirect) := F.accessIndirectBlock (F.word doubleIndirect (4 * index)) write
  if indirect = sectorNone ∨ indirect = sectorNoSpace then (F, indirect) else
  let F := if F.word doubleIndirect (4 * index) ≠ indirect then
    F.setWord doubleIndirect (4 * index) indirect else F
  F.lookupEntry indirect (4 * ((mapping - numDirect - numIndirect) % numIndirect)) write

/-- `byte_to_sector (inode, pos, write)` for the inode at sector `s`. -/
def byteToSector (F : Fs) (s pos : Nat) (write : Bool) : Fs × Nat :=
  let mapping := pos / blockSectorSize
  if mapping < numDirect then F.lookupDirectTable s mapping write
  else if mapping < numDirect + numIndirect then F.lookupIndirectTable s mapping write
  else if mapping < numDirect + numIndirect + numDoubleIndirect then
    F.lookupDoubleIndirectTable s mapping write
  else (F, sectorNone)

/-! ## Opening and closing -/

/-- `inode_open (sector)`: the inode on `open_inodes` for `sector`, reopened, or a
new one pushed on the front. -/
def inodeOpen (F : Fs) (sector : Nat) : Fs × Nat :=
  match F.openInodes.find? fun a => F.sectorOf a == some sector with
  | some a =>
    match F.inodes a with
    | some o => (F.setInode a { o with openCnt := o.openCnt + 1 }, a)
    | none => (F, a)
  | none =>
    let (F, a) := F.alloc
    let F := F.setInode a ⟨sector, 1, false, 0⟩
    ({ F with openInodes := a :: F.openInodes }, a)

/-- `inode_reopen (inode)`. -/
def inodeReopen (F : Fs) (inode : Nat) : Option Fs :=
  if inode = 0 then some F else
  (F.inodes inode).map fun o => F.setInode inode { o with openCnt := o.openCnt + 1 }

/-- The sectors `inode_close` gives back for a removed inode at sector `s`: the
data sectors `byte_to_sector` finds below its length, its indirect table, the
indirect tables its doubly indirect table lists and that table, and `s`. -/
def releaseSectors (F : Fs) (s : Nat) : Option Fs := do
  let length := F.word s lengthOfs
  let F ← (List.range ((length + blockSectorSize - 1) / blockSectorSize)).foldlM
    (fun F k =>
      let (F, sector) := F.byteToSector s (k * blockSectorSize) false
      if sector ≠ sectorNone then F.freeMapRelease sector else some F) F
  let indirect := F.word s indirectOfs
  let F ← if indirect ≠ sectorNone then F.freeMapRelease indirect else some F
  let doubleIndirect := F.word s doubleIndirectOfs
  let F ← if doubleIndirect ≠ sectorNone then do
      let F ← (List.range numIndirect).foldlM
        (fun F i =>
          let e := F.word doubleIndirect (4 * i)
          if e ≠ sectorNone then F.freeMapRelease e else some F) F
      F.freeMapRelease doubleIndirect
    else some F
  F.freeMapRelease s

/-- `inode_close (inode)`: the last close unlinks and frees the inode and, if it
was removed, releases its sectors. -/
def inodeClose (F : Fs) (inode : Nat) : Option Fs := do
  if inode = 0 then return F
  let o ← F.inodes inode
  let o := { o with openCnt := o.openCnt - 1 }
  let F := F.setInode inode o
  if o.openCnt ≠ 0 then return F
  let F := { F with openInodes := F.openInodes.erase inode }
  let F ← if o.removed then F.releaseSectors o.sector else some F
  return { F with inodes := update F.inodes inode none }

/-- `inode_remove (inode)`. -/
def inodeRemove (F : Fs) (inode : Nat) : Option Fs :=
  (F.inodes inode).map fun o => F.setInode inode { o with removed := true }

/-- `inode_deny_write (inode)`. -/
def inodeDenyWrite (F : Fs) (inode : Nat) : Option Fs := do
  let o ← F.inodes inode
  let o := { o with denyWriteCnt := o.denyWriteCnt + 1 }
  if o.denyWriteCnt ≤ o.openCnt then some (F.setInode inode o) else none

/-- `inode_allow_write (inode)`. -/
def inodeAllowWrite (F : Fs) (inode : Nat) : Option Fs := do
  let o ← F.inodes inode
  if 0 < o.denyWriteCnt ∧ o.denyWriteCnt ≤ o.openCnt then
    some (F.setInode inode { o with denyWriteCnt := o.denyWriteCnt - 1 })
  else none

/-- `inode_length (inode)`. -/
def inodeLength (F : Fs) (inode : Nat) : Option Nat :=
  (F.sectorOf inode).map fun s => F.word s lengthOfs

/-- `inode_is_dir (inode)`. -/
def inodeIsDir (F : Fs) (inode : Nat) : Option Bool :=
  (F.sectorOf inode).map fun s => F.word s isDirOfs == 1

/-- `inode_get_inumber (inode)`: `inode->sector`. -/
def inodeGetInumber (F : Fs) (inode : Nat) : Option Nat := F.sectorOf inode

/-! ## Reading and writing -/

/-- The loop of `inode_read_at` on the inode at sector `s` of length `length`,
for at most `fuel` passes: the bytes read from `offset`. -/
def readLoop (F : Fs) (s length : Nat) : Nat → Nat → Nat → List UInt8
  | 0, _, _ => []
  | fuel + 1, size, offset =>
    if size = 0 then [] else
    let sectorIdx := (F.byteToSector s offset false).2
    let sectorOfs := offset % blockSectorSize
    let minLeft := min (length - offset) (blockSectorSize - sectorOfs)
    let chunkSize := min size minLeft
    if chunkSize = 0 then [] else
    (if sectorIdx = sectorNone then List.replicate chunkSize 0
      else Bytes.read (F.disk sectorIdx) sectorOfs chunkSize) ++
      readLoop F s length fuel (size - chunkSize) (offset + chunkSize)

/-- `inode_read_at` on the inode at sector `s`: the bytes read. Each pass reads
at least one byte, so `size` passes finish the loop. -/
def readAt (F : Fs) (s size offset : Nat) : List UInt8 :=
  let length := F.word s lengthOfs
  if offset > length then [] else F.readLoop s length size size offset

/-- `inode_read_at (inode, buffer, size, offset)`. -/
def inodeReadAt (F : Fs) (inode size offset : Nat) : Option (List UInt8) :=
  (F.sectorOf inode).map fun s => F.readAt s size offset

/-- The loop of `inode_write_at` on the inode at sector `s`, storing `buffer`
from byte `written` on at `offset`, for at most `fuel` passes: the state, the
offset the loop ends at, and the bytes written. -/
def writeLoop (buffer : Nat → UInt8) (s : Nat) :
    Nat → Fs → Nat → Nat → Nat → Option (Fs × Nat × Nat)
  | 0, F, _, offset, written => some (F, offset, written)
  | fuel + 1, F, size, offset, written =>
    if size = 0 then some (F, offset, written) else
    let (F, sectorIdx) := F.byteToSector s offset true
    if sectorIdx = sectorNoSpace then some (F, offset, written) else
    let sectorOfs := offset % blockSectorSize
    let minLeft := min size (blockSectorSize - sectorOfs)
    let chunkSize := min size minLeft
    if chunkSize = 0 then some (F, offset, written) else
    -- a whole sector is zeroed first and then overwritten entirely; a partial one
    -- is read from the device, which `check_sector` refuses past its end
    let whole := sectorOfs = 0 ∧ chunkSize = blockSectorSize
    if ¬ whole ∧ F.sectors ≤ sectorIdx then none else
    let old := if whole then fun _ => 0 else F.disk sectorIdx
    let data := Bytes.copy old sectorOfs (fun i => buffer (written + i)) chunkSize
    let F := { F with disk := update F.disk sectorIdx data }
    writeLoop buffer s fuel F (size - chunkSize) (offset + chunkSize) (written + chunkSize)

/-- `inode_write_at (inode, buffer, size, offset)`: the state and the bytes
written; the length grows to the offset the loop ends at. -/
def inodeWriteAt (F : Fs) (inode : Nat) (buffer : Nat → UInt8) (size offset : Nat) :
    Option (Fs × Nat) := do
  let o ← F.inodes inode
  if o.denyWriteCnt ≠ 0 then return (F, 0)
  let (F, offset, written) ← writeLoop buffer o.sector size F size offset 0
  let F := if F.word o.sector lengthOfs < offset then F.setWord o.sector lengthOfs offset else F
  return (F, written)

/-- `inode_create (sector, length, is_dir)`: every entry `-1`, then a zero byte
written at `length - 1`; a failed write removes and closes the inode. -/
def inodeCreate (F : Fs) (sector length : Nat) (isDir : Bool) : Option (Fs × Bool) := do
  let F := (List.range numDirect).foldl (fun F i => F.setWord sector (directOfs i) sectorNone)
    (F.zeroSector sector)
  let F := F.setWord sector indirectOfs sectorNone
  let F := F.setWord sector doubleIndirectOfs sectorNone
  let F := F.setWord sector lengthOfs length
  let F := F.setWord sector isDirOfs (if isDir then 1 else 0)
  if length = 0 then return (F, true)
  let (F, inode) := F.inodeOpen sector
  let (F, n) ← F.inodeWriteAt inode (fun _ => 0) 1 (length - 1)
  if n ≠ 1 then
    let F ← F.inodeRemove inode
    let F ← F.inodeClose inode
    return (F, false)
  let F ← F.inodeClose inode
  return (F, true)

/-! ## Reading changes nothing -/

theorem setWord_word (F : Fs) (s ofs : Nat) : F.setWord s ofs (F.word s ofs) = F := by
  simp only [setWord, word, setWord_getWord, update_eq, Function.update_eq_self]

theorem lookupEntry_read (F : Fs) (t ofs : Nat) : (F.lookupEntry t ofs false).1 = F := by
  unfold lookupEntry
  dsimp only
  split_ifs with h₁ h₂
  · rfl
  · simp at h₂
  · rfl

theorem accessIndirectBlock_read (F : Fs) (indirect : Nat) :
    F.accessIndirectBlock indirect false = (F, indirect) := by
  unfold accessIndirectBlock
  split_ifs with h₁ h₂
  · rw [h₁.2]
  · simp at h₂
  · rfl

/-- A lookup for a read stores back only what the inode already holds:
`byte_to_sector (inode, pos, false)` leaves the state as it was. -/
theorem byteToSector_read (F : Fs) (s pos : Nat) : (F.byteToSector s pos false).1 = F := by
  unfold byteToSector
  dsimp only
  split_ifs
  · exact lookupEntry_read F _ _
  · simp only [lookupIndirectTable, accessIndirectBlock_read]
    split_ifs
    · rfl
    · rw [setWord_word, lookupEntry_read]
  · simp only [lookupDoubleIndirectTable, accessIndirectBlock_read, setWord_word, ne_eq,
      not_true_eq_false, if_false]
    split_ifs
    · rfl
    · rfl
    · exact lookupEntry_read F _ _
  · rfl

/-! ## Lookups change only the disk and the free map -/

theorem sectorOf_of_inodes {F F' : Fs} (h : F'.inodes = F.inodes) (inode : Nat) :
    F'.sectorOf inode = F.sectorOf inode := by
  unfold sectorOf
  rw [h]

@[simp] theorem setWord_inodes (F : Fs) (s ofs v : Nat) : (F.setWord s ofs v).inodes = F.inodes :=
  rfl

theorem freeMapAllocate_inodes {F F' : Fs} {n : Nat} (h : F.freeMapAllocate = some (F', n)) :
    F'.inodes = F.inodes := by
  unfold freeMapAllocate at h
  split at h
  · cases h
  · cases h
    rfl

theorem lookupEntry_inodes (F : Fs) (t ofs : Nat) (write : Bool) :
    (F.lookupEntry t ofs write).1.inodes = F.inodes := by
  unfold lookupEntry
  dsimp only
  split_ifs
  · rfl
  · split
    · rfl
    · rename_i h
      have := freeMapAllocate_inodes h
      exact this
  · rfl

theorem foldl_setWord_inodes (s : Nat) (f : Nat → Nat) (v : Nat) (l : List Nat) (F : Fs) :
    (l.foldl (fun F i => F.setWord s (f i) v) F).inodes = F.inodes := by
  induction l generalizing F with
  | nil => rfl
  | cons i l ih => exact ih _

theorem accessIndirectBlock_inodes (F : Fs) (indirect : Nat) (write : Bool) :
    (F.accessIndirectBlock indirect write).1.inodes = F.inodes := by
  unfold accessIndirectBlock
  split_ifs
  · rfl
  · split
    · rfl
    · rename_i h
      rw [foldl_setWord_inodes]
      have := freeMapAllocate_inodes h
      exact this
  · rfl

/-- `byte_to_sector` changes only the disk and the free map. -/
theorem byteToSector_inodes (F : Fs) (s pos : Nat) (write : Bool) :
    (F.byteToSector s pos write).1.inodes = F.inodes := by
  unfold byteToSector lookupDirectTable lookupIndirectTable lookupDoubleIndirectTable
  dsimp only
  split_ifs <;> simp only [lookupEntry_inodes, accessIndirectBlock_inodes, setWord_inodes]

/-- The write loop changes only the disk and the free map. -/
theorem writeLoop_inodes (buffer : Nat → UInt8) (s fuel : Nat) (F : Fs)
    (size offset written : Nat) {r : Fs × Nat × Nat}
    (h : writeLoop buffer s fuel F size offset written = some r) : r.1.inodes = F.inodes := by
  fun_induction writeLoop buffer s fuel F size offset written with
  | case1 | case2 =>
    cases h
    rfl
  | case3 _ F _ offset _ _ _ hb | case4 _ F _ offset _ _ _ _ hb _ _ _ _ _ =>
    cases h
    rw [← byteToSector_inodes F s offset true, hb]
  | case5 => cases h
  | case6 _ F _ offset _ _ _ _ hb _ _ _ _ _ _ _ _ _ _ ih =>
    rw [ih h, ← byteToSector_inodes F s offset true, hb]

end Fs

end Pintos.Filesys

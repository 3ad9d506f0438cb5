import Pintos.Filesys.File

/-!
# The file system's calls (`filesys/filesys.c`)

`filesys_create` and `filesys_dir_create` resolve the path's directory, take a
sector from the free map, make the inode there and add its entry, in one chain
of `&&`; on failure they give the sector back if one was taken.
`filesys_dir_create` then looks the new directory up again and adds `"."` and
`".."` to it. `filesys_init` formats the disk: the free map's inode in sector 0
and the root directory, with its `"."` and `".."`, in sector 1.

`FsCall` are the calls of a thread whose `current_dir` is `NULL` (a kernel
thread, or a process that never changed directory); `Fs.step` runs one of them.
-/

namespace Pintos.Filesys

open Pintos.Kernel

/-- `FREE_MAP_SECTOR`. -/
def freeMapSector : Nat := 0

namespace Fs

/-- The chain of `&&` that `filesys_create` and `filesys_dir_create` start
with: a directory, a sector from the free map, the inode `make` builds there,
and its entry in the directory. The sector (`0` if none was taken) and whether
every step succeeded. -/
def createChain (F : Fs) (dir : Nat) (name : List UInt8)
    (make : Fs → Nat → Option (Fs × Bool)) : Option (Fs × Nat × Bool) := do
  if dir = 0 then return (F, 0, false)
  match F.freeMapAllocate with
  | none => return (F, 0, false)
  | some (F, inodeSector) =>
    let (F, ok) ← make F inodeSector
    if !ok then return (F, inodeSector, false)
    let (F, ok) ← F.dirAdd dir name inodeSector
    return (F, inodeSector, ok)

/-- `filesys_create (path, initial_size)`. -/
def filesysCreate (F : Fs) (cwd : Nat) (path : List UInt8) (initialSize : Nat) :
    Option (Fs × Bool) := do
  let fileName := fileNameFromPath path
  let (F, dir) ← F.dirTraversePath cwd path false
  let (F, inodeSector, success) ←
    F.createChain dir fileName fun F s => F.inodeCreate s initialSize false
  if !success ∧ inodeSector ≠ 0 then return (← F.freeMapRelease inodeSector, false)
  return (F, success)

/-- The second `&&` chain of `filesys_dir_create`: open the directory that
`dir_lookup` found and add `"."` and `".."` to it. -/
def addDots (F : Fs) (dir inode : Nat) : Option (Fs × Bool) := do
  if inode = 0 then return (F, false)
  let (F, newDir) := F.dirOpen inode
  if newDir = 0 then return (F, false)
  let self ← F.sectorOf inode
  let (F, ok) ← F.dirAdd newDir dot self
  if !ok then return (F, false)
  let d ← F.dirs dir
  let parent ← F.sectorOf d.inode
  F.dirAdd newDir dotdot parent

/-- `filesys_dir_create (path, num_entries)`. The second phase runs whenever the
first did not give a sector back, also when it failed before taking one. -/
def filesysDirCreate (F : Fs) (cwd : Nat) (path : List UInt8) (numEntries : Nat) :
    Option (Fs × Bool) := do
  let fileName := fileNameFromPath path
  let (F, dir) ← F.dirTraversePath cwd path false
  let (F, inodeSector, success) ←
    F.createChain dir fileName fun F s => F.dirCreate s numEntries
  if !success ∧ inodeSector ≠ 0 then return (← F.freeMapRelease inodeSector, false)
  let (F, inode) ← F.dirLookup dir fileName
  let (F, success) ← F.addDots dir inode
  if !success then
    let (F, _) ← F.dirRemove dir fileName
    return (← F.freeMapRelease inodeSector, false)
  return (F, true)

/-- `filesys_open (path)`: a path that ends in a slash opens the directory it
names. -/
def filesysOpen (F : Fs) (cwd : Nat) (path : List UInt8) : Option (Fs × Nat) := do
  let fileName := fileNameFromPath path
  let (F, dir) ← F.dirTraversePath cwd path false
  if dir = 0 then return (F, 0)
  if fileName = [] ∧ slash ∈ path then
    let d ← F.dirs dir
    return ← F.fileOpen d.inode
  let (F, inode) ← F.dirLookup dir fileName
  if inode = 0 then return (F, 0)
  F.fileOpen inode

/-- `filesys_remove (path)`. -/
def filesysRemove (F : Fs) (cwd : Nat) (path : List UInt8) : Option (Fs × Bool) := do
  let fileName := fileNameFromPath path
  let (F, dir) ← F.dirTraversePath cwd path false
  if dir = 0 then return (F, false)
  F.dirRemove dir fileName

end Fs

/-- `filesys_init (true)` on a disk of `size` sectors that holds `old`:
`free_map_init`, `do_format` and `free_map_open`. The copies of the free map
that `bitmap_write` puts in its file are not modelled. -/
def filesysInit (size : Nat) (old : Nat → Nat → UInt8) : Option Fs := do
  let freeMap := ((Bitmap.createInBuf size fun _ => 0).mark freeMapSector).mark rootDirSector
  let F : Fs := ⟨old, size, freeMap, fun _ => none, [], fun _ => none, fun _ => none, [], 1⟩
  let (F, ok) ← F.inodeCreate freeMapSector (byteCnt size) false
  if !ok then none
  let (F, inode) := F.inodeOpen freeMapSector
  let (F, freeMapFile) ← F.fileOpen inode
  let (F, ok) ← F.dirCreate rootDirSector 0
  if !ok then none
  let (F, root) := F.dirOpenRoot
  if root = 0 then none
  let (F, ok) ← F.dirAdd root dot rootDirSector
  if !ok then none
  let (F, ok) ← F.dirAdd root dotdot rootDirSector
  if !ok then none
  let F ← F.fileClose freeMapFile
  let (F, inode) := F.inodeOpen freeMapSector
  let (F, _) ← F.fileOpen inode
  return F

/-- A call on the file system by a thread whose `current_dir` is `NULL`. -/
inductive FsCall where
  | create (path : List UInt8) (initialSize : Nat)
  | dirCreate (path : List UInt8) (numEntries : Nat)
  | remove (path : List UInt8)
  | «open» (path : List UInt8)
  | close (file : Nat)
  deriving DecidableEq, Repr

/-- One call, its result dropped. -/
def Fs.step (F : Fs) : FsCall → Option Fs
  | .create path initialSize => (F.filesysCreate 0 path initialSize).map (·.1)
  | .dirCreate path numEntries => (F.filesysDirCreate 0 path numEntries).map (·.1)
  | .remove path => (F.filesysRemove 0 path).map (·.1)
  | .open path => (F.filesysOpen 0 path).map (·.1)
  | .close file => F.fileClose file

/-- A file as the bytes a user sees: a length that writes extend, and the bytes
written, zero where nothing was. -/
structure ZeroFilled where
  length : Nat
  bytes : Nat → UInt8

namespace ZeroFilled

/-- Store `size` bytes of `buffer` at `offset`. -/
def write (f : ZeroFilled) (buffer : Nat → UInt8) (size offset : Nat) : ZeroFilled :=
  if size = 0 then f else
  ⟨max f.length (offset + size),
    fun i => if offset ≤ i ∧ i < offset + size then buffer (i - offset) else f.bytes i⟩

/-- Read up to `size` bytes from `offset`, none past the end. -/
def read (f : ZeroFilled) (size offset : Nat) : List UInt8 :=
  (List.range (min size (f.length - offset))).map fun i => f.bytes (offset + i)

end ZeroFilled

/-- A state that a run of `calls` reaches from a disk of `size` sectors holding
`old` once formatted, and what `o` observes there. -/
theorem exists_reachable_of_run {α : Type} (size : Nat) (old : Nat → Nat → UInt8)
    (calls : List FsCall) {o : Fs → Option α} {v : α}
    (h : ((filesysInit size old).bind fun F₀ => Lts.run Fs.step F₀ calls).bind o = some v) :
    ∃ F₀ F, filesysInit size old = some F₀ ∧ Lts.Reachable Fs.step F₀ F ∧ o F = some v :=
  Lts.exists_reachable_of_run_bind h

/-- Create the file `"f"` and open it. -/
def openNewFile : List FsCall := [.create [102] 0, .open [102]]

theorem inode_reads_stale_bytes :
    ¬ ∀ size old F₀, filesysInit size old = some F₀ → ∀ F, Lts.Reachable Fs.step F₀ F →
      ∀ inode s, F.sectorOf inode = some s → F.word s lengthOfs = 0 →
      ∀ buffer n offset F', F.inodeWriteAt inode buffer n offset = some (F', n) →
      ∀ size' offset', F'.readAt s size' offset' =
        (ZeroFilled.write ⟨0, fun _ => 0⟩ buffer n offset).read size' offset' := by
  intro hall
  obtain ⟨F₀, F, h₀, hF, ho⟩ := exists_reachable_of_run 8 (fun _ _ => 0xAA) openNewFile
    (v := (some 4, 0, 1, [0xAA, 65]))
    (o := fun F => (F.inodeWriteAt 10 (fun _ => 65) 1 1).map fun r =>
      (F.sectorOf 10, F.word 4 lengthOfs, r.2, r.1.readAt 4 2 0)) (by decide +kernel)
  obtain ⟨⟨F', n⟩, hw, he⟩ := Option.map_eq_some_iff.mp ho
  simp only [Prod.mk.injEq] at he
  obtain ⟨hs, hl, rfl, hr⟩ := he
  have h := hall 8 _ F₀ h₀ F hF 10 4 hs hl (fun _ => 65) 1 1 F' hw 2 0
  rw [hr] at h
  exact absurd h (by decide)

/-- On a formatted disk of 8 sectors, `inode_write_at` of a whole sector at
`(123 + 128 + 16384) * 512`, past the doubly indirect tree: `byte_to_sector`
answers `-1`, the sector goes into the cache under that number, and the call
returns 512. -/
theorem write_beyond_block_map :
    ¬ ∀ size old F₀, filesysInit size old = some F₀ → ∀ F, Lts.Reachable Fs.step F₀ F →
      ∀ inode ∈ F.openInodes, ∀ buffer size offset F' n,
        (numDirect + numIndirect + numDoubleIndirect) * blockSectorSize ≤ offset →
        F.inodeWriteAt inode buffer size offset = some (F', n) → n = 0 ∧ F'.disk = F.disk := by
  intro hall
  obtain ⟨F₀, F, h₀, hF, ho⟩ := exists_reachable_of_run 8 (fun _ _ => 0xAA) openNewFile
    (v := (true, 512))
    (o := fun F => (F.inodeWriteAt 10 (fun _ => 7) 512 8517120).map fun r =>
      (decide (10 ∈ F.openInodes), r.2)) (by decide +kernel)
  obtain ⟨⟨F', n⟩, hw, he⟩ := Option.map_eq_some_iff.mp ho
  simp only [Prod.mk.injEq, decide_eq_true_eq] at he
  obtain ⟨hopen, rfl⟩ := he
  have h := hall 8 _ F₀ h₀ F hF 10 hopen (fun _ => 7) 512 8517120 F' 512 (by decide) hw
  exact absurd h.1 (by decide)

theorem filesys_create_leaves_dir_open :
    ¬ ∀ size old F₀, filesysInit size old = some F₀ → ∀ F, Lts.Reachable Fs.step F₀ F →
      ∀ path initialSize F' ok, F.filesysCreate 0 path initialSize = some (F', ok) →
        ∀ a, (F'.inodes a).map (·.openCnt) = (F.inodes a).map (·.openCnt) := by
  intro hall
  obtain ⟨F₀, F, h₀, hF, ho⟩ := exists_reachable_of_run 8 (fun _ _ => 0) []
    (v := (some 1, some 2))
    (o := fun F => (F.filesysCreate 0 [102] 0).map fun r =>
      ((F.inodes 4).map (·.openCnt), (r.1.inodes 4).map (·.openCnt))) (by decide +kernel)
  obtain ⟨⟨F', ok⟩, hc, he⟩ := Option.map_eq_some_iff.mp ho
  simp only [Prod.mk.injEq] at he
  obtain ⟨hbefore, hafter⟩ := he
  have h := hall 8 _ F₀ h₀ F hF [102] 0 F' ok hc 4
  rw [hbefore, hafter] at h
  exact absurd h (by decide)

/-- Make the directory `"/d"`, then remove `"/d/."`. -/
def removeDot : List FsCall := [.dirCreate [47, 100] 0, .remove [47, 100, 47, 46]]

theorem dot_entry_removed :
    ¬ ∀ size old F₀, filesysInit size old = some F₀ → ∀ F, Lts.Reachable Fs.step F₀ F →
      ∀ name s, F.entryOf rootDirSector name = some s → F.word s isDirOfs = 1 →
        F.entryOf s dot = some s := by
  intro hall
  obtain ⟨F₀, F, h₀, hF, ho⟩ := exists_reachable_of_run 8 (fun _ _ => 0) removeDot
    (v := (some 4, 1, none))
    (o := fun F => some (F.entryOf rootDirSector [100], F.word 4 isDirOfs, F.entryOf 4 dot))
    (by decide +kernel)
  simp only [Option.some.injEq, Prod.mk.injEq] at ho
  obtain ⟨hd, hdir, hdot⟩ := ho
  have h := hall 8 _ F₀ h₀ F hF [100] 4 hd hdir
  rw [hdot] at h
  exact absurd h (by decide)

theorem dir_create_missing_parent_panics :
    ¬ ∀ size old F₀, filesysInit size old = some F₀ → ∀ F, Lts.Reachable Fs.step F₀ F →
      ∀ path numEntries, (F.dirTraversePath 0 path false).map (·.2) = some 0 →
        ∃ F', F.filesysDirCreate 0 path numEntries = some (F', false) ∧
          F'.freeMap = F.freeMap := by
  intro hall
  obtain ⟨F₀, F, h₀, hF, ho⟩ := exists_reachable_of_run 8 (fun _ _ => 0) []
    (v := (some 0, true))
    (o := fun F => some ((F.dirTraversePath 0 [47, 120, 47, 100] false).map (·.2),
      (F.filesysDirCreate 0 [47, 120, 47, 100] 0).isNone)) (by decide +kernel)
  simp only [Option.some.injEq, Prod.mk.injEq, Option.isNone_iff_eq_none] at ho
  obtain ⟨hmissing, hpanic⟩ := ho
  obtain ⟨F', hc, -⟩ := hall 8 _ F₀ h₀ F hF [47, 120, 47, 100] 0 hmissing
  rw [hpanic] at hc
  cases hc

theorem create_releases_inode_sector_twice :
    ∃ size old F₀ F F₁ s F₂, filesysInit size old = some F₀ ∧ Lts.Reachable Fs.step F₀ F ∧
      F.freeMapAllocate = some (F₁, s) ∧ F₁.inodeCreate s 1 false = some (F₂, false) ∧
      F₂.freeMap.test s = false ∧ F.filesysCreate 0 [47, 102] 1 = none := by
  obtain ⟨F₀, F, h₀, hF, ho⟩ := exists_reachable_of_run 5 (fun _ _ => 0) []
    (v := (4, false, false, true))
    (o := fun F => (F.freeMapAllocate).bind fun (F₁, s) => (F₁.inodeCreate s 1 false).map
      fun r => (s, r.2, r.1.freeMap.test s, (F.filesysCreate 0 [47, 102] 1).isNone))
    (by decide +kernel)
  obtain ⟨⟨F₁, s⟩, ha, hc⟩ := Option.bind_eq_some_iff.mp ho
  obtain ⟨⟨F₂, ok⟩, hi, he⟩ := Option.map_eq_some_iff.mp hc
  simp only [Prod.mk.injEq, Option.isNone_iff_eq_none] at he
  obtain ⟨rfl, rfl, hfree, hpanic⟩ := he
  exact ⟨5, _, F₀, F, F₁, 4, F₂, h₀, hF, ha, hi, hfree, hpanic⟩

end Pintos.Filesys

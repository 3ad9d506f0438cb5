import Pintos.Filesys.Filesys

/-!
# Reads and writes of one inode under interleaving (`filesys/inode.c`)

Threads call `inode_read_at` and `inode_write_at` on one open inode. A call is
cut at its holds of cache blocks, each one atomic step as the block locks make
it: the read of the length at the start of a read; each pass's `byte_to_sector`,
which holds the inode block (and the tables under it) and may take sectors from
the free map; each pass's hold of its data block; and the update of the length at
the end of a write. A pass computes its chunk as `readLoop` and `writeLoop` do,
and a call whose steps no other thread interleaves with returns what the
sequential `inode_read_at` and `inode_write_at` return (`read_alone`,
`write_alone`).

A writer's `byte_to_sector` stores a new sector in the block map and releases the
inode block before the writer takes the data block, and the new sector still holds
what the disk had there: a reader that maps the same offset in between reads those
bytes.
-/

namespace Pintos.Filesys

open Bytes

/-- `chunk_size` of a pass of `inode_read_at` at `offset`, in a file of `length`. -/
def readChunkSize (length size offset : Nat) : Nat :=
  min size (min (length - offset) (blockSectorSize - offset % blockSectorSize))

/-- `chunk_size` of a pass of `inode_write_at` at `offset`. -/
def writeChunkSize (size offset : Nat) : Nat :=
  min size (min size (blockSectorSize - offset % blockSectorSize))

/-- Where a thread is in its call on the inode. -/
inductive InodePc where
  | idle
  /-- `inode_read_at` with `length` read, before the `byte_to_sector` of the pass
  at `offset`; `bytes` were read so far. -/
  | readMap (length size offset : Nat) (bytes : List UInt8)
  /-- The pass at `offset` is to copy its chunk out of sector `sectorIdx`. -/
  | readData (length size offset sectorIdx : Nat) (bytes : List UInt8)
  /-- `inode_read_at` returned `bytes`. -/
  | readDone (bytes : List UInt8)
  /-- `inode_write_at` before the `byte_to_sector` of the pass at `offset`. -/
  | writeMap (buffer : Nat → UInt8) (size offset written : Nat)
  /-- The pass at `offset` is to store its chunk into sector `sectorIdx`. -/
  | writeData (buffer : Nat → UInt8) (size offset written sectorIdx : Nat)
  /-- The loop ended at `offset`; the length is to be updated. -/
  | writeLength (offset written : Nat)
  /-- `inode_write_at` returned `written`. -/
  | writeDone (written : Nat)

/-- Between calls: no call in progress. -/
def InodePc.free : InodePc → Bool
  | .idle | .readDone _ | .writeDone _ => true
  | _ => false

/-- A call a thread starts, or the next step of its call. -/
inductive InodeRwMove where
  | read (size offset : Nat)
  | write (buffer : Nat → UInt8) (size offset : Nat)
  | next

/-- The file system and the threads using the inode. -/
structure InodeSys where
  fs : Fs
  pc : Nat → InodePc

namespace InodeSys

/-- Thread `t` moves to `p` over the file system `F`. -/
def set (S : InodeSys) (t : Nat) (F : Fs) (p : InodePc) : InodeSys :=
  ⟨F, Function.update S.pc t p⟩

/-- The next step of a call on the inode at sector `s`. -/
def advance (F : Fs) (s : Nat) : InodePc → Option (Fs × InodePc)
  | .readMap length size offset bytes =>
    if size = 0 then some (F, .readDone bytes) else
    let sectorIdx := (F.byteToSector s offset false).2
    let chunkSize := readChunkSize length size offset
    if chunkSize = 0 then some (F, .readDone bytes)
    else if sectorIdx = sectorNone then
      some (F, .readMap length (size - chunkSize) (offset + chunkSize)
        (bytes ++ List.replicate chunkSize 0))
    else some (F, .readData length size offset sectorIdx bytes)
  | .readData length size offset sectorIdx bytes =>
    let chunkSize := readChunkSize length size offset
    some (F, .readMap length (size - chunkSize) (offset + chunkSize)
      (bytes ++ Bytes.read (F.disk sectorIdx) (offset % blockSectorSize) chunkSize))
  | .writeMap buffer size offset written =>
    if size = 0 then some (F, .writeLength offset written) else
    let (F, sectorIdx) := F.byteToSector s offset true
    if sectorIdx = sectorNoSpace then some (F, .writeLength offset written) else
    if writeChunkSize size offset = 0 then some (F, .writeLength offset written)
    else some (F, .writeData buffer size offset written sectorIdx)
  | .writeData buffer size offset written sectorIdx =>
    let sectorOfs := offset % blockSectorSize
    let chunkSize := writeChunkSize size offset
    let whole := sectorOfs = 0 ∧ chunkSize = blockSectorSize
    if ¬ whole ∧ F.sectors ≤ sectorIdx then none else
    let old := if whole then fun _ => 0 else F.disk sectorIdx
    let data := Bytes.copy old sectorOfs (fun i => buffer (written + i)) chunkSize
    some ({ F with disk := update F.disk sectorIdx data },
      .writeMap buffer (size - chunkSize) (offset + chunkSize) (written + chunkSize))
  | .writeLength offset written =>
    let F := if F.word s lengthOfs < offset then F.setWord s lengthOfs offset else F
    some (F, .writeDone written)
  | _ => none

/-- A step of thread `t` on the open inode `inode`. -/
def step (inode : Nat) (S : InodeSys) : Nat × InodeRwMove → Option InodeSys
  | (t, .read size offset) => do
    if !(S.pc t).free then none
    let s ← S.fs.sectorOf inode
    let length := S.fs.word s lengthOfs
    if offset > length then return S.set t S.fs (.readDone [])
    return S.set t S.fs (.readMap length size offset [])
  | (t, .write buffer size offset) => do
    if !(S.pc t).free then none
    let o ← S.fs.inodes inode
    if o.denyWriteCnt ≠ 0 then return S.set t S.fs (.writeDone 0)
    return S.set t S.fs (.writeMap buffer size offset 0)
  | (t, .next) => do
    let s ← S.fs.sectorOf inode
    let (F, p) ← advance S.fs s (S.pc t)
    return S.set t F p

/-! ## A call that no other thread interleaves with -/

variable {S : InodeSys} {inode t s : Nat}

@[simp] theorem set_set (S : InodeSys) (t : Nat) (F F' : Fs) (p p' : InodePc) :
    (S.set t F p).set t F' p' = S.set t F' p' := by
  simp [set]

/-- The next step of thread `t` is `advance` on its place. -/
theorem step_set_next {F F' : Fs} (hs : F.sectorOf inode = some s) {p p' : InodePc}
    (h : advance F s p = some (F', p')) :
    step inode (S.set t F p) (t, .next) = some (S.set t F' p') := by
  simp [step, hs, h, set]

theorem run_set_next {F F' : Fs} (hs : F.sectorOf inode = some s) {p p' : InodePc}
    (h : advance F s p = some (F', p')) (n : Nat) :
    Lts.run (step inode) (S.set t F p) (List.replicate (n + 1) (t, .next)) =
      Lts.run (step inode) (S.set t F' p') (List.replicate n (t, .next)) := by
  rw [List.replicate_succ, Lts.run_cons, step_set_next hs h, Option.bind_some]

section Read

variable {F : Fs} {length size offset : Nat} {bytes : List UInt8}

theorem advance_readMap_stop (h : size = 0 ∨ readChunkSize length size offset = 0) :
    advance F s (.readMap length size offset bytes) = some (F, .readDone bytes) := by
  rcases h with h | h <;> simp [advance, h]

theorem advance_readMap_hole (h0 : size ≠ 0) (hc : readChunkSize length size offset ≠ 0)
    (hn : (F.byteToSector s offset false).2 = sectorNone) :
    advance F s (.readMap length size offset bytes) =
      some (F, .readMap length (size - readChunkSize length size offset)
        (offset + readChunkSize length size offset)
        (bytes ++ List.replicate (readChunkSize length size offset) 0)) := by
  simp [advance, h0, hc, hn]

theorem advance_readMap_data (h0 : size ≠ 0) (hc : readChunkSize length size offset ≠ 0)
    (hn : (F.byteToSector s offset false).2 ≠ sectorNone) :
    advance F s (.readMap length size offset bytes) =
      some (F, .readData length size offset (F.byteToSector s offset false).2 bytes) := by
  simp [advance, h0, hc, hn]

/-- A pass of `readLoop`, with the chunk as the small steps compute it. -/
theorem readLoop_succ (F : Fs) (s length fuel size offset : Nat) :
    F.readLoop s length (fuel + 1) size offset =
      if size = 0 ∨ readChunkSize length size offset = 0 then [] else
      (if (F.byteToSector s offset false).2 = sectorNone then
          List.replicate (readChunkSize length size offset) 0
        else Bytes.read (F.disk (F.byteToSector s offset false).2) (offset % blockSectorSize)
          (readChunkSize length size offset)) ++
        F.readLoop s length fuel (size - readChunkSize length size offset)
          (offset + readChunkSize length size offset) := by
  rw [Fs.readLoop]
  by_cases h0 : size = 0
  · simp [h0]
  · simp only [h0, false_or, if_false, readChunkSize]

end Read

/-- The passes of a read that no other thread interleaves with are those of
`readLoop`: from the pass at `offset`, enough steps return what was read so far
followed by what `readLoop` reads. -/
theorem readMap_alone (hs : S.fs.sectorOf inode = some s) (length : Nat) :
    ∀ fuel size offset bytes, size ≤ fuel →
      ∃ n, Lts.run (step inode) (S.set t S.fs (.readMap length size offset bytes))
        (List.replicate n (t, .next)) =
        some (S.set t S.fs (.readDone (bytes ++ S.fs.readLoop s length fuel size offset)))
  | 0, size, offset, bytes, hle => by
    obtain rfl : size = 0 := by omega
    refine ⟨1, ?_⟩
    rw [run_set_next hs (advance_readMap_stop (.inl rfl))]
    simp [Fs.readLoop]
  | fuel + 1, size, offset, bytes, hle => by
    by_cases hstop : size = 0 ∨ readChunkSize length size offset = 0
    · refine ⟨1, ?_⟩
      rw [run_set_next hs (advance_readMap_stop hstop), readLoop_succ, if_pos hstop,
        List.append_nil]
      rfl
    obtain ⟨h0, hc⟩ := not_or.mp hstop
    have hle' : size - readChunkSize length size offset ≤ fuel := by omega
    by_cases hn : (S.fs.byteToSector s offset false).2 = sectorNone
    · -- a hole reads as zeros, in one step
      obtain ⟨n, hrun⟩ := readMap_alone hs length fuel _ _
        (bytes ++ List.replicate (readChunkSize length size offset) 0) hle'
      refine ⟨n + 1, ?_⟩
      rw [run_set_next hs (advance_readMap_hole h0 hc hn), hrun, readLoop_succ, if_neg hstop,
        if_pos hn, List.append_assoc]
    · obtain ⟨n, hrun⟩ := readMap_alone hs length fuel _ _
        (bytes ++ Bytes.read (S.fs.disk (S.fs.byteToSector s offset false).2)
          (offset % blockSectorSize) (readChunkSize length size offset)) hle'
      refine ⟨n + 2, ?_⟩
      rw [run_set_next hs (advance_readMap_data h0 hc hn), run_set_next hs rfl, hrun,
        readLoop_succ, if_neg hstop, if_neg hn, List.append_assoc]

/-- `inode_read_at` that no other thread interleaves with returns what the
sequential `inode_read_at` returns. -/
theorem read_alone {size offset : Nat} {bytes : List UInt8} (hfree : (S.pc t).free = true)
    (h : S.fs.inodeReadAt inode size offset = some bytes) :
    ∃ n, Lts.run (step inode) S ((t, .read size offset) :: List.replicate n (t, .next)) =
      some (S.set t S.fs (.readDone bytes)) := by
  obtain ⟨s, hs, rfl⟩ := Option.map_eq_some_iff.mp h
  by_cases hgt : offset > S.fs.word s lengthOfs
  · exact ⟨0, by simp [Lts.run_cons, step, hfree, hs, hgt, Fs.readAt]⟩
  · obtain ⟨n, hrun⟩ := readMap_alone (t := t) hs (S.fs.word s lengthOfs) size size offset []
      (Nat.le_refl _)
    exact ⟨n, by simpa [Lts.run_cons, step, hfree, hs, hgt, Fs.readAt] using hrun⟩

theorem sectorOf_byteToSector {F : Fs} (hs : F.sectorOf inode = some s) (pos : Nat) (w : Bool) :
    (F.byteToSector s pos w).1.sectorOf inode = some s := by
  rw [Fs.sectorOf_of_inodes (Fs.byteToSector_inodes F s pos w)]
  exact hs

section Write

variable {F F₁ : Fs} {buffer : Nat → UInt8} {size offset written sectorIdx : Nat}

theorem advance_writeMap_zero :
    advance F s (.writeMap buffer 0 offset written) = some (F, .writeLength offset written) :=
  rfl

theorem advance_writeMap_stop (h0 : size ≠ 0)
    (hb : F.byteToSector s offset true = (F₁, sectorIdx))
    (hstop : sectorIdx = sectorNoSpace ∨ writeChunkSize size offset = 0) :
    advance F s (.writeMap buffer size offset written) =
      some (F₁, .writeLength offset written) := by
  rcases hstop with h | h <;> simp [advance, h0, hb, h]

theorem advance_writeMap_data (h0 : size ≠ 0)
    (hb : F.byteToSector s offset true = (F₁, sectorIdx))
    (hstop : ¬(sectorIdx = sectorNoSpace ∨ writeChunkSize size offset = 0)) :
    advance F s (.writeMap buffer size offset written) =
      some (F₁, .writeData buffer size offset written sectorIdx) := by
  obtain ⟨hns, hc⟩ := not_or.mp hstop
  simp [advance, h0, hb, hns, hc]

theorem writeLoop_succ_stop (fuel : Nat) (h0 : size ≠ 0)
    (hb : F.byteToSector s offset true = (F₁, sectorIdx))
    (hstop : sectorIdx = sectorNoSpace ∨ writeChunkSize size offset = 0) :
    Fs.writeLoop buffer s (fuel + 1) F size offset written = some (F₁, offset, written) := by
  rcases hstop with h | h
  · simp only [Fs.writeLoop, h0, hb, h, if_false, if_true]
  · simp only [writeChunkSize] at h
    by_cases hns : sectorIdx = sectorNoSpace
    · simp only [Fs.writeLoop, h0, hb, hns, if_false, if_true]
    · simp only [Fs.writeLoop, h0, hb, hns, h, if_false, if_true]

/-- The data step of a pass stores what `writeLoop`'s pass stores, or both
panic on a partial sector past the end of the device. -/
theorem advance_writeData (buffer : Nat → UInt8) (written fuel : Nat) (h0 : size ≠ 0)
    (hb : F.byteToSector s offset true = (F₁, sectorIdx))
    (hstop : ¬(sectorIdx = sectorNoSpace ∨ writeChunkSize size offset = 0)) :
    (advance F₁ s (.writeData buffer size offset written sectorIdx) = none ∧
      Fs.writeLoop buffer s (fuel + 1) F size offset written = none) ∨
    ∃ F₂, advance F₁ s (.writeData buffer size offset written sectorIdx) =
        some (F₂, .writeMap buffer (size - writeChunkSize size offset)
          (offset + writeChunkSize size offset) (written + writeChunkSize size offset)) ∧
      F₂.inodes = F₁.inodes ∧
      Fs.writeLoop buffer s (fuel + 1) F size offset written =
        Fs.writeLoop buffer s fuel F₂ (size - writeChunkSize size offset)
          (offset + writeChunkSize size offset) (written + writeChunkSize size offset) := by
  obtain ⟨hns, hc⟩ := not_or.mp hstop
  simp only [writeChunkSize] at hc
  by_cases hpanic : ¬(offset % blockSectorSize = 0 ∧ writeChunkSize size offset = blockSectorSize) ∧
      F₁.sectors ≤ sectorIdx
  · simp only [writeChunkSize] at hpanic
    refine .inl ⟨?_, ?_⟩
    · simp only [advance, writeChunkSize]
      exact if_pos hpanic
    · simp only [Fs.writeLoop, h0, hb, hns, hc, if_false]
      exact if_pos hpanic
  · simp only [writeChunkSize] at hpanic
    refine .inr ⟨_, if_neg hpanic, rfl, ?_⟩
    simp only [Fs.writeLoop, h0, hb, hns, hc, if_false]
    exact (if_neg hpanic).trans rfl

end Write

/-- A write that no other thread interleaves with runs `writeLoop`. -/
theorem writeMap_alone (buffer : Nat → UInt8) :
    ∀ fuel (F : Fs) size offset written {r : Fs × Nat × Nat}, F.sectorOf inode = some s →
      size ≤ fuel → Fs.writeLoop buffer s fuel F size offset written = some r →
      ∃ n, Lts.run (step inode) (S.set t F (.writeMap buffer size offset written))
        (List.replicate n (t, .next)) = some (S.set t r.1 (.writeLength r.2.1 r.2.2))
  | 0, F, size, offset, written, r, hs, hle, hw => by
    obtain rfl : size = 0 := by omega
    cases hw
    exact ⟨1, by rw [run_set_next hs advance_writeMap_zero]; rfl⟩
  | fuel + 1, F, size, offset, written, r, hs, hle, hw => by
    by_cases h0 : size = 0
    · subst h0
      simp only [Fs.writeLoop, if_true, Option.some.injEq] at hw
      subst hw
      exact ⟨1, by rw [run_set_next hs advance_writeMap_zero]; rfl⟩
    rcases hb : F.byteToSector s offset true with ⟨F₁, sectorIdx⟩
    have hs₁ : F₁.sectorOf inode = some s := by
      simpa [hb] using sectorOf_byteToSector hs offset true
    by_cases hstop : sectorIdx = sectorNoSpace ∨ writeChunkSize size offset = 0
    · rw [writeLoop_succ_stop fuel h0 hb hstop, Option.some.injEq] at hw
      subst hw
      exact ⟨1, by rw [run_set_next hs (advance_writeMap_stop h0 hb hstop)]; rfl⟩
    -- a pass that panics leaves no result to run to
    rcases advance_writeData buffer written fuel h0 hb hstop with ⟨-, hnone⟩ | ⟨F₂, hF₂, hinodes, hloop⟩
    · rw [hnone] at hw
      cases hw
    have hs₂ : F₂.sectorOf inode = some s := by
      rw [Fs.sectorOf_of_inodes hinodes]
      exact hs₁
    have hc := (not_or.mp hstop).2
    rw [hloop] at hw
    obtain ⟨n, hrun⟩ := writeMap_alone buffer fuel F₂ (size - writeChunkSize size offset)
      (offset + writeChunkSize size offset) (written + writeChunkSize size offset) hs₂ (by omega) hw
    refine ⟨n + 2, ?_⟩
    rw [run_set_next hs (advance_writeMap_data h0 hb hstop), run_set_next hs₁ hF₂, hrun]

/-- `inode_write_at` that no other thread interleaves with leaves the state and
returns what the sequential `inode_write_at` does. -/
theorem write_alone {buffer : Nat → UInt8} {size offset written : Nat} {F : Fs}
    (hfree : (S.pc t).free = true)
    (h : S.fs.inodeWriteAt inode buffer size offset = some (F, written)) :
    ∃ n, Lts.run (step inode) S ((t, .write buffer size offset) :: List.replicate n (t, .next)) =
      some (S.set t F (.writeDone written)) := by
  rcases ho : S.fs.inodes inode with _ | o
  · simp [Fs.inodeWriteAt, ho] at h
  by_cases hd : o.denyWriteCnt = 0
  swap
  · -- a denied write returns 0 at once
    simp [Fs.inodeWriteAt, ho, hd] at h
    obtain ⟨rfl, rfl⟩ := h
    exact ⟨0, by simp [Lts.run_cons, step, hfree, ho, hd]⟩
  have hs : S.fs.sectorOf inode = some o.sector := by simp [Fs.sectorOf, ho]
  have hstart : step inode S (t, .write buffer size offset) =
      some (S.set t S.fs (.writeMap buffer size offset 0)) := by
    simp [step, hfree, ho, hd]
  rcases hw : Fs.writeLoop buffer o.sector size S.fs size offset 0 with _ | ⟨F₁, off, w⟩
  · simp [Fs.inodeWriteAt, ho, hd, hw] at h
  obtain ⟨n, hrun⟩ := writeMap_alone (S := S) (t := t) buffer size S.fs size offset 0 hs
    (Nat.le_refl _) hw
  have hs₁ : F₁.sectorOf inode = some o.sector := by
    rw [Fs.sectorOf_of_inodes (Fs.writeLoop_inodes buffer o.sector size S.fs size offset 0 hw)]
    exact hs
  simp [Fs.inodeWriteAt, ho, hd, hw] at h
  obtain ⟨rfl, rfl⟩ := h
  refine ⟨n + 1, ?_⟩
  -- the last step updates the length as `inode_write_at` does after its loop
  rw [List.replicate_succ', ← List.cons_append, Lts.run_append, Lts.run_cons, hstart,
    Option.bind_some, hrun, Option.bind_some, Lts.run_singleton, step_set_next hs₁ rfl]

end InodeSys

/-- Thread 0 writes sector-sized `'A'`s at offset 512, which maps a sector for it
and makes the file 1024 bytes long with a hole at 0. It starts a second write at
offset 0, whose `byte_to_sector` maps a new sector there; before it stores its
data, thread 1 reads 512 bytes at offset 0. -/
def staleWindow : List (Nat × InodeRwMove) :=
  [(0, .write (fun _ => 65) 512 512), (0, .next), (0, .next), (0, .next), (0, .next),
    (0, .write (fun _ => 65) 512 0), (0, .next),
    (1, .read 512 0), (1, .next), (1, .next), (1, .next)]

/-- On a disk whose free sectors hold `0xAA`, formatted with `filesys_create ("f", 0)`
and `filesys_open ("f")` run (its inode at address 10), `staleWindow` stores only
`'A'`s, yet thread 1's read returns `0xAA`s, the old contents of the sector the
second write mapped. -/
theorem reader_sees_stale_sector :
    ∃ F₀ F S bytes, filesysInit 8 (fun _ _ => 0xAA) = some F₀ ∧
      Lts.run Fs.step F₀ openNewFile = some F ∧
      (∀ t buffer size offset, (t, InodeRwMove.write buffer size offset) ∈ staleWindow →
        ∀ i, buffer i = 65) ∧
      Lts.run (InodeSys.step 10) ⟨F, fun _ => .idle⟩ staleWindow = some S ∧
      S.pc 1 = .readDone bytes ∧ bytes.length = 512 ∧ ∀ b ∈ bytes, b = 0xAA := by
  have hrun : ((filesysInit 8 (fun _ _ => 0xAA)).bind fun F₀ =>
      (Lts.run Fs.step F₀ openNewFile).bind fun F =>
        (Lts.run (InodeSys.step 10) ⟨F, fun _ => .idle⟩ staleWindow).map fun S =>
          match S.pc 1 with
          | .readDone bytes => bytes.length == 512 && bytes.all (· == 0xAA)
          | _ => false) = some true := by
    decide +kernel
  obtain ⟨F₀, h₀, h₁⟩ := Option.bind_eq_some_iff.mp hrun
  obtain ⟨F, hF, h₂⟩ := Option.bind_eq_some_iff.mp h₁
  obtain ⟨S, hS, hobs⟩ := Option.map_eq_some_iff.mp h₂
  have hwrites : ∀ t buffer size offset,
      (t, InodeRwMove.write buffer size offset) ∈ staleWindow → ∀ i, buffer i = 65 := by
    intro t buffer size offset hm i
    simp only [staleWindow, List.mem_cons, Prod.mk.injEq, reduceCtorEq, and_false,
      List.not_mem_nil, or_false, false_or, InodeRwMove.write.injEq] at hm
    rcases hm with ⟨-, rfl, -, -⟩ | ⟨-, rfl, -, -⟩ <;> rfl
  split at hobs
  · rename_i bytes hpc
    simp only [Bool.and_eq_true, beq_iff_eq, List.all_eq_true] at hobs
    exact ⟨F₀, F, S, bytes, h₀, hF, hwrites, hS, hpc, hobs.1, hobs.2⟩
  · cases hobs

end Pintos.Filesys

import Pintos.Lib.Bytes

/-!
# Partition tables (`devices/partition.c`)

`partition_scan` calls `read_partition_table (block, 0, 0, &part_nr)`. That
function checks that the sector is on the device, reads a sector, checks its
`0xaa55` signature and walks the four entries of the table at byte 446. An
empty entry is skipped. An extended entry makes it recurse: to the entry's
`offset` from the MBR, and otherwise to `offset + primary_extended_sector`.
Every other entry gets the next `part_nr` and goes to `found_partition`, which
registers it if it lies on the device.

The sector read is `block_read (block, 0, pt)`, sector 0 whatever `sector` is.
So the scan reads nothing but the MBR (`readPartitionTable_reads_sector_zero`).
An MBR whose extended entry has offset 0 makes the top-level call call itself
again, and the scan never returns (`partition_scan_never_returns`).

The recursion is modelled with fuel bounding its depth. `none` is a call whose
recursion has not returned within that depth. The `printf` lines, the name
table of `partition_type_name` and the `extra_info` text are left out, since
they change nothing a later call reads. The `malloc` of the sector buffer is
taken to succeed.
-/

namespace Pintos.Devices

/-- A block device as `partition_scan` sees it: `block_size` and the bytes of
each sector. -/
structure Block where
  size : Nat
  sector : Nat → Nat → UInt8

/-- `enum block_type`, for the partitions `found_partition` registers. -/
inductive BlockType where
  | kernel
  | filesys
  | scratch
  | swap
  | foreign
  deriving DecidableEq, Repr

/-- A partition passed to `block_register`: its `part_nr`, type, first sector
and size. -/
structure Partition where
  partNr : Nat
  type : BlockType
  start : Nat
  size : Nat
  deriving DecidableEq, Repr

/-- The fields of `struct partition_table_entry` that `read_partition_table`
reads. -/
structure PartitionTableEntry where
  type : UInt8
  offset : Nat
  size : Nat
  deriving DecidableEq, Repr

/-- Entry `i` of the table in the sector `pt`: the 16 bytes at `446 + 16 * i`,
with `type` at byte 4 and the little-endian `offset` and `size` at bytes 8
and 12. -/
def PartitionTableEntry.read (pt : Nat → UInt8) (i : Nat) : PartitionTableEntry where
  type := pt (446 + 16 * i + 4)
  offset := Bytes.getWord pt (446 + 16 * i + 8)
  size := Bytes.getWord pt (446 + 16 * i + 12)

/-- The little-endian `signature` at bytes 510 and 511. -/
def signature (pt : Nat → UInt8) : Nat := (pt 510).toNat + 256 * (pt 511).toNat

/-- The four extended partition types `read_partition_table` recurses on. -/
def isExtended (type : UInt8) : Bool :=
  type == 0x05 || type == 0x0f || type == 0x85 || type == 0xc5

/-- The `block_type` `found_partition` gives a partition type. -/
def blockTypeOf (partType : UInt8) : BlockType :=
  if partType = 0x20 then .kernel
  else if partType = 0x21 then .filesys
  else if partType = 0x22 then .scratch
  else if partType = 0x23 then .swap
  else .foreign

/-- `found_partition`: the partition it registers, or `none` when it starts or
ends past the device. `start + size` is a `block_sector_t` sum. -/
def foundPartition (B : Block) (partType : UInt8) (start size partNr : Nat) :
    Option Partition :=
  if start ≥ B.size then none
  else if (start + size) % 2 ^ 32 < start ∨ (start + size) % 2 ^ 32 > B.size then none
  else some ⟨partNr, blockTypeOf partType, start, size⟩

/-- What a scan has done so far: `*part_nr` and the partitions registered. -/
structure Scan where
  partNr : Nat
  parts : List Partition
  deriving DecidableEq, Repr

/-- One round of the loop over the entries of the table `pt` read for `sector`,
with `recurse` the recursive call of `read_partition_table`. -/
def scanEntry (B : Block) (recurse : Nat → Nat → Scan → Option Scan) (pt : Nat → UInt8)
    (sector primaryExtendedSector : Nat) (s : Scan) (i : Nat) : Option Scan :=
  let e := PartitionTableEntry.read pt i
  if e.size = 0 ∨ e.type = 0 then some s
  else if isExtended e.type then
    if sector = 0 then recurse e.offset e.offset s
    else recurse ((e.offset + primaryExtendedSector) % 2 ^ 32) primaryExtendedSector s
  else
    let partNr := s.partNr + 1
    some ⟨partNr, s.parts ++ (foundPartition B e.type ((e.offset + sector) % 2 ^ 32) e.size
      partNr).toList⟩

/-- `read_partition_table (block, sector, primary_extended_sector, part_nr)`,
its recursion at most `fuel` deep. -/
def readPartitionTable (B : Block) : Nat → Nat → Nat → Scan → Option Scan
  | 0, _, _, _ => none
  | fuel + 1, sector, primaryExtendedSector, s =>
    if sector ≥ B.size then some s
    else
      let pt := B.sector 0
      if signature pt ≠ 0xaa55 then some s
      else (List.range 4).foldlM
        (scanEntry B (readPartitionTable B fuel) pt sector primaryExtendedSector) s

/-- `partition_scan (block)`. -/
def partitionScan (B : Block) (fuel : Nat) : Option Scan :=
  readPartitionTable B fuel 0 0 ⟨0, []⟩

/-- A loop in `Option` that fails at some element, whatever it carries there,
fails. -/
theorem foldlM_eq_none_of_mem {α β : Type} {f : β → α → Option β} {x : α}
    (hx : ∀ b, f b x = none) : ∀ {l : List α} (init : β), x ∈ l → l.foldlM f init = none
  | [], _, h => absurd h List.not_mem_nil
  | y :: l, init, h => by
    rw [List.foldlM_cons]
    cases hy : f init y with
    | none => rfl
    | some b =>
      rcases List.mem_cons.mp h with rfl | hl
      · rw [hx init] at hy
        cases hy
      · exact foldlM_eq_none_of_mem hx b hl

theorem readPartitionTable_succ_of_valid {B : Block} {fuel sector pes : Nat} {s : Scan}
    (hsector : sector < B.size) (hsig : signature (B.sector 0) = 0xaa55) :
    readPartitionTable B (fuel + 1) sector pes s =
      (List.range 4).foldlM (scanEntry B (readPartitionTable B fuel) (B.sector 0) sector pes) s := by
  rw [readPartitionTable, if_neg (by omega), if_neg (by simp [hsig])]

theorem foundPartition_congr {B B' : Block} (hsize : B.size = B'.size) :
    foundPartition B = foundPartition B' := by
  funext partType start size partNr
  simp only [foundPartition, hsize]

theorem scanEntry_congr {B B' : Block} (hsize : B.size = B'.size) : scanEntry B = scanEntry B' := by
  funext recurse pt sector pes s i
  simp only [scanEntry, foundPartition_congr hsize]

/-- The scan reads the device's size and its sector 0 and nothing else: the
table in the sector a call is asked to parse is never read. -/
theorem readPartitionTable_reads_sector_zero {B B' : Block} (hsize : B.size = B'.size)
    (hsector : B.sector 0 = B'.sector 0) :
    ∀ fuel, readPartitionTable B fuel = readPartitionTable B' fuel := by
  intro fuel
  induction fuel with
  | zero => rfl
  | succ fuel ih =>
    funext sector pes s
    simp only [readPartitionTable, hsize, hsector, ih, scanEntry_congr hsize]

section Primaries

variable {B : Block} {pt : Nat → UInt8} {sector : Nat}

/-- What the loop over the entries `l` of a table with no extended entry does
from `s`: the non-empty entries are numbered on from `s.partNr`, and those that
lie on the device are registered. -/
def primaryScan (B : Block) (pt : Nat → UInt8) (sector : Nat) (l : List Nat) (s : Scan) : Scan :=
  let es := (l.map (PartitionTableEntry.read pt)).filter fun e => e.size ≠ 0 ∧ e.type ≠ 0
  ⟨s.partNr + es.length, s.parts ++ (es.zipIdx (s.partNr + 1)).filterMap fun p =>
    foundPartition B p.1.type ((p.1.offset + sector) % 2 ^ 32) p.1.size p.2⟩

theorem primaryScan_nil (s : Scan) : primaryScan B pt sector [] s = s := by
  simp [primaryScan]

theorem primaryScan_cons_empty {i : Nat} {l : List Nat} (s : Scan)
    (he : (PartitionTableEntry.read pt i).size = 0 ∨ (PartitionTableEntry.read pt i).type = 0) :
    primaryScan B pt sector (i :: l) s = primaryScan B pt sector l s := by
  have hf : ¬((PartitionTableEntry.read pt i).size ≠ 0 ∧ (PartitionTableEntry.read pt i).type ≠ 0) :=
    fun ⟨hs, ht⟩ => he.elim hs ht
  simp only [primaryScan, List.map_cons, List.filter_cons, decide_eq_true_eq, if_neg hf]

theorem primaryScan_cons_primary {i : Nat} {l : List Nat} (s : Scan)
    (he : ¬((PartitionTableEntry.read pt i).size = 0 ∨ (PartitionTableEntry.read pt i).type = 0)) :
    primaryScan B pt sector (i :: l) s =
      primaryScan B pt sector l ⟨s.partNr + 1, s.parts ++ (foundPartition B
        (PartitionTableEntry.read pt i).type
        (((PartitionTableEntry.read pt i).offset + sector) % 2 ^ 32)
        (PartitionTableEntry.read pt i).size (s.partNr + 1)).toList⟩ := by
  have hf : (PartitionTableEntry.read pt i).size ≠ 0 ∧ (PartitionTableEntry.read pt i).type ≠ 0 :=
    ⟨fun h => he (.inl h), fun h => he (.inr h)⟩
  simp only [primaryScan, List.map_cons, List.filter_cons, decide_eq_true_eq, if_pos hf,
    List.length_cons, List.zipIdx_cons, List.filterMap_cons]
  cases foundPartition B (PartitionTableEntry.read pt i).type
    (((PartitionTableEntry.read pt i).offset + sector) % 2 ^ 32)
    (PartitionTableEntry.read pt i).size (s.partNr + 1) <;> simp <;> omega

/-- The loop over entries none of which is extended makes the scan
`primaryScan` describes, whatever the recursive call would do. -/
theorem foldlM_scanEntry_primaries {recurse : Nat → Nat → Scan → Option Scan} {pes : Nat} :
    ∀ {l : List Nat} (s : Scan), (∀ i ∈ l, isExtended (PartitionTableEntry.read pt i).type = false) →
      l.foldlM (scanEntry B recurse pt sector pes) s = some (primaryScan B pt sector l s)
  | [], s, _ => by rw [primaryScan_nil]; rfl
  | i :: l, s, hno => by
    have hl : ∀ j ∈ l, isExtended (PartitionTableEntry.read pt j).type = false :=
      fun j hj => hno j (List.mem_cons_of_mem i hj)
    rw [List.foldlM_cons]
    by_cases he : (PartitionTableEntry.read pt i).size = 0 ∨ (PartitionTableEntry.read pt i).type = 0
    · have hstep : scanEntry B recurse pt sector pes s i = some s := by
        simp only [scanEntry]
        rw [if_pos he]
      rw [hstep, primaryScan_cons_empty s he]
      exact foldlM_scanEntry_primaries s hl
    · have hstep : scanEntry B recurse pt sector pes s i = some ⟨s.partNr + 1, s.parts ++
          (foundPartition B (PartitionTableEntry.read pt i).type
            (((PartitionTableEntry.read pt i).offset + sector) % 2 ^ 32)
            (PartitionTableEntry.read pt i).size (s.partNr + 1)).toList⟩ := by
        simp only [scanEntry]
        rw [if_neg he, if_neg (by simp [hno i List.mem_cons_self])]
      rw [hstep, primaryScan_cons_primary s he]
      exact foldlM_scanEntry_primaries _ hl

/-- On a device whose MBR has no extended entry, `partition_scan` returns after
reading the MBR once, having numbered its non-empty entries `1, 2, ...` in
table order and registered those that lie on the device. -/
theorem partition_scan_primaries (hdev : 0 < B.size) (hsig : signature (B.sector 0) = 0xaa55)
    (hno : ∀ i < 4, isExtended (PartitionTableEntry.read (B.sector 0) i).type = false)
    (fuel : Nat) :
    partitionScan B (fuel + 1) = some (primaryScan B (B.sector 0) 0 (List.range 4) ⟨0, []⟩) := by
  unfold partitionScan
  rw [readPartitionTable_succ_of_valid hdev hsig]
  exact foldlM_scanEntry_primaries _ fun i hi => hno i (List.mem_range.mp hi)

end Primaries

/-- A device of 100 sectors whose MBR holds a kernel partition of 20 sectors
at sector 1, an empty entry, and a file system partition of 200 sectors at
sector 40, which runs past the device. -/
def twoPrimaryMbr : Block where
  size := 100
  sector := fun _ j =>
    if j = 450 then 0x20 else if j = 454 then 1 else if j = 458 then 20
    else if j = 482 then 0x21 else if j = 486 then 40 else if j = 490 then 200
    else if j = 510 then 0x55 else if j = 511 then 0xaa else 0

theorem partition_scan_primaries_two :
    signature (twoPrimaryMbr.sector 0) = 0xaa55 ∧
      partitionScan twoPrimaryMbr 1 = some ⟨2, [⟨1, .kernel, 1, 20⟩]⟩ := by
  have h := partition_scan_primaries (B := twoPrimaryMbr) (by decide) (by decide) (by decide) 0
  exact ⟨by decide, h.trans (by decide)⟩

section SelfExtended

variable {B : Block} {i : Nat}

/-- An extended entry of the MBR with offset `0` sends the top-level call back
to itself. -/
theorem scanEntry_self_extended {recurse : Nat → Nat → Scan → Option Scan}
    (hext : isExtended (PartitionTableEntry.read (B.sector 0) i).type)
    (hsize : (PartitionTableEntry.read (B.sector 0) i).size ≠ 0)
    (hoff : (PartitionTableEntry.read (B.sector 0) i).offset = 0) (s : Scan) :
    scanEntry B recurse (B.sector 0) 0 0 s i = recurse 0 0 s := by
  have htype : (PartitionTableEntry.read (B.sector 0) i).type ≠ 0 := by
    intro h
    rw [h] at hext
    exact absurd hext (by decide)
  simp only [scanEntry]
  rw [if_neg (by simp [hsize, htype]), if_pos hext, if_pos trivial, hoff]

/-- Given an MBR whose entry `i` is a non-empty extended partition at offset
`0`, `partition_scan` recurses without end: no depth is enough for it to
return. -/
theorem partition_scan_never_returns (hdev : 0 < B.size)
    (hsig : signature (B.sector 0) = 0xaa55) (hi : i < 4)
    (hext : isExtended (PartitionTableEntry.read (B.sector 0) i).type)
    (hsize : (PartitionTableEntry.read (B.sector 0) i).size ≠ 0)
    (hoff : (PartitionTableEntry.read (B.sector 0) i).offset = 0) :
    ∀ fuel, partitionScan B fuel = none := by
  -- every call at sector 0 fails, whatever the scan so far
  have top : ∀ fuel s, readPartitionTable B fuel 0 0 s = none := by
    intro fuel
    induction fuel with
    | zero => intro s; rfl
    | succ fuel ih =>
      intro s
      rw [readPartitionTable_succ_of_valid hdev hsig]
      apply foldlM_eq_none_of_mem _ s (List.mem_range.mpr hi)
      intro s'
      rw [scanEntry_self_extended hext hsize hoff, ih]
  intro fuel
  exact top fuel _

end SelfExtended

/-- A device of 8 sectors whose MBR holds one entry, an extended partition of
one sector at offset `0`. -/
def selfExtendedMbr : Block where
  size := 8
  sector := fun _ j =>
    if j = 450 then 0x05 else if j = 458 then 1
    else if j = 510 then 0x55 else if j = 511 then 0xaa else 0

theorem partition_scan_never_returns_self_extended :
    signature (selfExtendedMbr.sector 0) = 0xaa55 ∧
      isExtended (PartitionTableEntry.read (selfExtendedMbr.sector 0) 0).type ∧
      (PartitionTableEntry.read (selfExtendedMbr.sector 0) 0).size ≠ 0 ∧
      (PartitionTableEntry.read (selfExtendedMbr.sector 0) 0).offset = 0 ∧
      ∀ fuel, partitionScan selfExtendedMbr fuel = none :=
  ⟨by decide, by decide, by decide, by decide,
    partition_scan_never_returns (i := 0) (by decide) (by decide) (by decide) (by decide) (by decide)
      (by decide)⟩

end Pintos.Devices

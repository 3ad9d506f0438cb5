import Pintos.User.MallocHeap

/-!
# `realloc`

`realloc` of the user allocator: a shrink or no-op (case 0), growth into new
memory at the epilogue (case 5), into a free next block (case 2), into a free
previous block and a free next block (case 1), into a free previous block alone
(case 4), and otherwise `malloc`, copy and `free`. As in `Malloc`, only the
blocks' tags and the lists are modelled; the payload bytes `memmove` and
`memcpy` copy are not.

Case 0 compares `use_size`, a count of words, with `oldsize`, a count of bytes,
so a block of `w` words is kept for any request of up to `4 * w` words.
-/

namespace Pintos.User

/-- `realloc`'s fallback: `malloc (size)`, then `free (ptr)` once it succeeded.
`malloc` faulting is `none`, as is `free` faulting. -/
def reallocMove (H : Heap) (ptr size : Nat) : Option (Heap × Option Nat) :=
  match malloc H size with
  | none => none
  | some (H, none) => some (H, none)
  | some (H, some newptr) => (free H ptr).map fun H => (H, some newptr)

/-- `realloc (ptr, size)`: the heap and the pointer returned, `none` for `NULL`.
A failed `extend_heap` in case 5 leaves `heap_bl` null, and `list_remove` on it
faults: `none`. -/
def realloc (H : Heap) (ptr size : Nat) : Option (Heap × Option Nat) :=
  let H := if H.heapListp = 0 then H.mmInit else H
  if size = 0 then (free H ptr).map fun H => (H, none)
  else if ptr = 0 then malloc H size
  else
    let oldblock := ptr - 1
    let oldsize := H.blkSize oldblock * wsize
    let useSize := align ((size + 2 * wsize) % 2 ^ 32) / wsize
    if useSize ≤ oldsize then some (H, some ptr)
    else
      let bpNext := H.nextBlk oldblock
      let nSize := useSize - oldsize
      if (H.mem bpNext).inuse = true ∧ (H.mem bpNext).size = 0 ∧ 0 < nSize ∧
          useSize ≠ oldsize then
        let awords := max minBlockSizeWords (align nSize / wsize)
        match H.extendHeap awords true with
        | (_, none) => none
        | (H, some heapBl) =>
          let H := H.listRemove heapBl
          let H := H.setTag oldblock { H.mem oldblock with size := (H.mem oldblock).size + awords }
          some (H.place oldblock (H.mem oldblock).size, some ptr)
      else if H.blkFree bpNext ∧ useSize ≤ (H.blkSize oldblock + H.blkSize bpNext) * wsize then
        let newsize := (H.blkSize oldblock + H.blkSize bpNext) * wsize
        let awords := max minBlockSizeWords (align ((size + 1 * wsize) % 2 ^ 32) / wsize)
        let H := (H.markBlockUsed oldblock (newsize / wsize)).listRemove bpNext
        some (H.place oldblock awords, some ptr)
      else if (H.mem oldblock).pinuse = false then
        let prevSize := (H.mem (prevBlkFooter oldblock)).size
        let bpPrev := H.prevBlk oldblock
        if H.blkFree bpNext ∧
            useSize ≤ (H.blkSize oldblock + prevSize + H.blkSize bpNext) * wsize then
          let newsize := (H.blkSize oldblock + prevSize + H.blkSize bpNext) * wsize
          let H := ((H.listRemove bpPrev).listRemove bpNext).markBlockUsed bpPrev (newsize / wsize)
          some (H.place bpPrev (newsize / wsize), some (bpPrev + 1))
        else if useSize ≤ (H.blkSize oldblock + prevSize) * wsize then
          let newsize := (H.blkSize oldblock + prevSize) * wsize
          let H := ((H.listRemove bpPrev).markBlockUsed bpPrev (newsize / wsize)).place bpPrev
            (newsize / wsize)
          let H := if H.blkFree bpNext then (H.coalesce bpNext).1 else H
          some (H, some (bpPrev + 1))
        else reallocMove H ptr size
      else reallocMove H ptr size

/-- After `malloc (1)` on a fresh heap, `realloc (p, 100)` keeps the 8-word block,
whose payload holds 28 bytes. -/
theorem realloc_keeps_short_block :
    ¬ ∀ S : MallocSys,
      Lts.Reachable MallocSys.step (MallocSys.init (fun _ => fence) 1 [true, true]) S →
        ∀ p ∈ S.live, ∀ n, 0 < n → ∀ H q, realloc S.heap p n = some (H, some q) →
          n ≤ (H.mem (q - 1)).size * wsize - wsize := by
  intro hall
  have hrun : ((MallocSys.init (fun _ => fence) 1 [true, true]).step (.malloc 1)).map
      (fun S => (S.live, (realloc S.heap 5 100).map fun r =>
        (r.2, r.2.map fun q => (r.1.mem (q - 1)).size))) =
      some ([5], some (some 5, some 8)) := by
    decide
  obtain ⟨S, hS, he⟩ := Option.map_eq_some_iff.mp hrun
  simp only [Prod.mk.injEq] at he
  obtain ⟨hlive, hr⟩ := he
  obtain ⟨⟨H, q⟩, hre, hq⟩ := Option.map_eq_some_iff.mp hr
  simp only [Prod.mk.injEq] at hq
  obtain ⟨rfl, hsz⟩ := hq
  have hcap := hall S (.step _ .init hS) 5 (by simp [hlive]) 100 (by decide) H 5 hre
  simp only [Option.map_some, Option.some.injEq] at hsz
  rw [hsz] at hcap
  exact absurd hcap (by decide)

end Pintos.User

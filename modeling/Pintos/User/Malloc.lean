import Pintos.Lib.Reach

/-!
# The user-space allocator (`lib/user/malloc.c`)

Blocks with boundary tags, a header word and (for a free block) a footer word,
between a prologue `FENCE` and an epilogue `FENCE`; free blocks are kept on 16
segregated lists, and `free` coalesces with both neighbours at once.

Addresses count 4-byte words (`WSIZE`), so `(void *) blk + WSIZE * n` is
`blk + n` and a block's payload starts one word after its header. `mem` gives
the boundary tag each word reads as. The `size:30` bit field is a `Nat`; the
list links that live in a free block's payload are the lists `segList`, in list
order. The kernel's `sbrk` is the stream of answers `grants`: each call takes
the next answer and fails once they are used up.
-/

namespace Pintos.User

/-- `struct boundary_tag`. -/
structure Tag where
  inuse : Bool
  pinuse : Bool
  size : Nat
  deriving DecidableEq, Repr

/-- `FENCE`, the prologue footer and the epilogue header. -/
def fence : Tag := { inuse := true, pinuse := false, size := 0 }

/-- `ALIGNMENT`. -/
def alignment : Nat := 16

/-- `WSIZE`, in bytes. -/
def wsize : Nat := 4

/-- `MIN_BLOCK_SIZE_WORDS`. -/
def minBlockSizeWords : Nat := 8

/-- `CHUNKSIZE`, in words. -/
def chunksize : Nat := 2 ^ 7

/-- `NUM_LISTS`. -/
def numLists : Nat := 16

/-- `align`: round a byte count up to a multiple of `ALIGNMENT`, in 32-bit `size_t`
arithmetic, where the sum wraps. -/
def align (size : Nat) : Nat := (size + alignment - 1) % 2 ^ 32 / alignment * alignment

/-- The allocator's memory and globals. -/
structure Heap where
  mem : Nat → Tag
  brk : Nat
  heapListp : Nat
  segList : Nat → List Nat
  grants : List Bool

namespace Heap

/-- Write the tag at `a`. -/
def setTag (H : Heap) (a : Nat) (t : Tag) : Heap := { H with mem := Function.update H.mem a t }

/-- `sbrk (words * WSIZE)`: the old break, or `none` for `(void *) -1`. -/
def sbrk (H : Heap) (words : Nat) : Heap × Option Nat :=
  match H.grants with
  | true :: gs => ({ H with brk := H.brk + words, grants := gs }, some H.brk)
  | false :: gs => ({ H with grants := gs }, none)
  | [] => (H, none)

/-- `list_push_back (&seg_list[i], &blk->elem)`. -/
def pushBack (H : Heap) (i blk : Nat) : Heap :=
  { H with segList := Function.update H.segList i (H.segList i ++ [blk]) }

/-- `list_remove (&blk->elem)`: the block leaves the list it is on. -/
def listRemove (H : Heap) (blk : Nat) : Heap :=
  { H with segList := fun i => (H.segList i).erase blk }

end Heap

/-- `prev_blk_footer`. -/
def prevBlkFooter (blk : Nat) : Nat := blk - 1

namespace Heap

variable (H : Heap)

/-- `blk_free`. -/
def blkFree (blk : Nat) : Bool := !(H.mem blk).inuse

/-- `blk_size`. -/
def blkSize (blk : Nat) : Nat := (H.mem blk).size

/-- `prev_blk`, through the previous block's footer. -/
def prevBlk (blk : Nat) : Nat := blk - (H.mem (prevBlkFooter blk)).size

/-- `next_blk`. -/
def nextBlk (blk : Nat) : Nat := blk + (H.mem blk).size

/-- `get_footer`. -/
def getFooter (blk : Nat) : Nat := blk + (H.mem blk).size - 1

/-- `set_header_and_footer`: the header's `inuse` and `size`, then the header
copied to the footer its new size locates. -/
def setHeaderAndFooter (blk size : Nat) (inuse : Bool) : Heap :=
  let H := H.setTag blk { H.mem blk with inuse := inuse, size := size }
  H.setTag (H.getFooter blk) (H.mem blk)

/-- `mark_block_used`: no footer; the next block's `pinuse` is set. -/
def markBlockUsed (blk size : Nat) : Heap :=
  let H := H.setTag blk { H.mem blk with inuse := true, size := size }
  H.setTag (H.nextBlk blk) { H.mem (H.nextBlk blk) with pinuse := true }

/-- `mark_block_free`. -/
def markBlockFree (blk size : Nat) : Heap :=
  let H := H.setHeaderAndFooter blk size false
  H.setTag (H.nextBlk blk) { H.mem (H.nextBlk blk) with pinuse := false }

end Heap

/-- `get_list`: the segregated list for a block of `size` words. -/
def getList (size : Nat) : Nat :=
  if size ≥ 32768 then 15
  else if size ≥ 16384 then 14
  else if size ≥ 8192 then 13
  else if size ≥ 4096 then 12
  else if size ≥ 2048 then 11
  else if size ≥ 1024 then 10
  else if size ≥ 512 then 9
  else if size ≥ 256 then 8
  else if size > 128 then 7
  else if size ≥ 64 then 6
  else if size ≥ 32 then 5
  else if size ≥ 16 then 4
  else if size ≥ 8 then 3
  else if size ≥ 4 then 2
  else if size ≥ 2 then 1
  else 0

/-- The bounds `get_non_empty_list` tests list `0`, `1`, ... against: `sizes[0]`
to `sizes[7]`, then the constants `512` to `32768`. -/
def nonEmptyBounds : List Nat :=
  [8, 24, 48, 80, 160, 320, 640, 960, 512, 1024, 2048, 4096, 8192, 16384, 32768]

namespace Heap

variable (H : Heap)

/-- The tests of `get_non_empty_list` from list `i` on. -/
def getNonEmptyListFrom (size : Nat) : List Nat → Nat → Nat
  | [], i => i
  | bound :: bounds, i =>
    if size ≤ bound ∧ H.segList i ≠ [] then i else getNonEmptyListFrom size bounds (i + 1)

/-- `get_non_empty_list`: the first list from which `find_fit` searches. -/
def getNonEmptyList (size : Nat) : Nat := H.getNonEmptyListFrom size nonEmptyBounds 0

/-- `find_fit`'s loop over one list: the first block of at least `asize` words.
`check` counts the blocks that did not fit; at 50 the list is left. -/
def findFitIn (asize : Nat) : List Nat → Nat → Option Nat × Nat
  | [], check => (none, check)
  | bp :: rest, check =>
    if asize ≤ H.blkSize bp then (some bp, check)
    else if check + 1 ≥ 50 then (none, check + 1)
    else findFitIn asize rest (check + 1)

/-- `find_fit`'s loop over the lists `index`, `index + 1`, ... -/
def findFitFrom (asize : Nat) : List Nat → Nat → Option Nat
  | [], _ => none
  | index :: rest, check =>
    match H.findFitIn asize (H.segList index) check with
    | (some bp, _) => some bp
    | (none, check) => findFitFrom asize rest check

/-- `find_fit`: first fit, from `get_non_empty_list (asize)` to the last list. -/
def findFit (asize : Nat) : Option Nat :=
  let index := H.getNonEmptyList asize
  H.findFitFrom asize (List.range' index (numLists - index)) 0

/-- `coalesce`: merge the free block `bp` with a free neighbour on either side,
and move the merged block to the list of its new size. -/
def coalesce (bp : Nat) : Heap × Nat :=
  let prevAlloc := (H.mem bp).pinuse
  let nextAlloc := !H.blkFree (H.nextBlk bp)
  let size := H.blkSize bp
  if prevAlloc && nextAlloc then (H, bp)
  else if prevAlloc && !nextAlloc then
    let bpNext := H.nextBlk bp
    let H := H.markBlockFree bp (size + H.blkSize bpNext)
    let H := (H.listRemove bpNext).listRemove bp
    (H.pushBack (getList (H.mem bp).size) bp, bp)
  else if !prevAlloc && nextAlloc then
    let bpNext := bp
    let bp := H.prevBlk bp
    let H := H.markBlockFree bp (size + H.blkSize bp)
    let H := (H.listRemove bpNext).listRemove bp
    (H.pushBack (getList (H.mem bp).size) bp, bp)
  else
    let bpNextNext := H.nextBlk bp
    let bpNext := bp
    let H' := H.markBlockFree (H.prevBlk bp)
      (size + H.blkSize (H.nextBlk bp) + H.blkSize (H.prevBlk bp))
    let bp := H'.prevBlk bp
    let H := ((H'.listRemove bpNext).listRemove bpNextNext).listRemove bp
    (H.pushBack (getList (H.mem bp).size) bp, bp)

/-- `place`: use the first `asize` words of the free block `bp`, and split the
rest off as a free block when it has at least `MIN_BLOCK_SIZE_WORDS`. -/
def place (bp asize : Nat) : Heap :=
  let csize := H.blkSize bp
  if csize - asize ≥ minBlockSizeWords then
    let H := H.markBlockUsed bp asize
    let bpNext := H.nextBlk bp
    let H := H.markBlockFree bpNext (csize - asize)
    let H := H.pushBack (getList (H.mem bpNext).size) bpNext
    (H.coalesce bpNext).1
  else H.markBlockUsed bp csize

/-- `extend_heap`: a free block of `words` over the old epilogue and the new
memory, a new epilogue, and the block coalesced with a free last block. -/
def extendHeap (words : Nat) (coal : Bool) : Heap × Option Nat :=
  match H.sbrk words with
  | (H, none) => (H, none)
  | (H, some bp) =>
    let blk := bp - 1
    let H := H.markBlockFree blk words
    let H := H.setTag (H.nextBlk blk) fence
    let H := H.pushBack (getList (H.mem blk).size) blk
    if coal then
      let (H, blk) := H.coalesce blk
      (H, some blk)
    else (H, some blk)

/-- `mm_init`: two fences, the empty lists, and a first free block of
`CHUNKSIZE` words. Its result is not used by `malloc`, so it is left out. -/
def mmInit : Heap :=
  match H.sbrk 4 with
  | (H, none) => H
  | (H, some initial) =>
    let H := H.setTag (initial + 2) fence
    let H := { H with heapListp := initial + 3 }
    let H := H.setTag (initial + 3) { fence with pinuse := true }
    let H := { H with segList := fun _ => [] }
    (H.extendHeap chunksize true).1

end Heap

/-- `malloc (size)`: the heap and the payload pointer, `none` for `NULL`. A
failed `mm_init` leaves `heap_listp` null, and the search then walks lists that
were never initialised: `none`. `size` is a `size_t`, so adding the header wraps. -/
def malloc (H : Heap) (size : Nat) : Option (Heap × Option Nat) :=
  let H := if H.heapListp = 0 then H.mmInit else H
  if size = 0 then some (H, none)
  else if H.heapListp = 0 then none
  else
    let size := (size + 1 * wsize) % 2 ^ 32
    let awords := max minBlockSizeWords (align size / wsize)
    match H.findFit awords with
    | some bp => some ((H.listRemove bp).place bp awords, some (bp + 1))
    | none =>
      let extendwords := max awords chunksize
      match H.extendHeap extendwords true with
      | (H, none) => some (H, none)
      | (H, some bp) => some ((H.listRemove bp).place bp awords, some (bp + 1))

/-- `free (bp)`, with its `ASSERT (heap_listp != 0)`. -/
def free (H : Heap) (bp : Nat) : Option Heap :=
  if H.heapListp = 0 then none
  else if bp = 0 then some H
  else
    let blk := bp - 1
    let H := H.pushBack (getList (H.mem blk).size) blk
    let H := H.markBlockFree blk (H.blkSize blk)
    some (H.coalesce blk).1

/-! ## What the helpers write -/

namespace Heap

variable (H : Heap) (a blk size : Nat) (t : Tag)

@[simp] theorem setTag_mem : (H.setTag a t).mem = Function.update H.mem a t := rfl
@[simp] theorem setTag_segList : (H.setTag a t).segList = H.segList := rfl
@[simp] theorem setTag_brk : (H.setTag a t).brk = H.brk := rfl
@[simp] theorem setTag_heapListp : (H.setTag a t).heapListp = H.heapListp := rfl
@[simp] theorem setTag_grants : (H.setTag a t).grants = H.grants := rfl

@[simp] theorem pushBack_mem (i : Nat) : (H.pushBack i blk).mem = H.mem := rfl
@[simp] theorem pushBack_brk (i : Nat) : (H.pushBack i blk).brk = H.brk := rfl
@[simp] theorem pushBack_heapListp (i : Nat) : (H.pushBack i blk).heapListp = H.heapListp := rfl
@[simp] theorem pushBack_grants (i : Nat) : (H.pushBack i blk).grants = H.grants := rfl

@[simp] theorem listRemove_mem : (H.listRemove blk).mem = H.mem := rfl
@[simp] theorem listRemove_brk : (H.listRemove blk).brk = H.brk := rfl
@[simp] theorem listRemove_heapListp : (H.listRemove blk).heapListp = H.heapListp := rfl
@[simp] theorem listRemove_grants : (H.listRemove blk).grants = H.grants := rfl
@[simp] theorem listRemove_segList (i : Nat) :
    (H.listRemove blk).segList i = (H.segList i).erase blk := rfl

@[simp] theorem markBlockFree_segList : (H.markBlockFree blk size).segList = H.segList := rfl
@[simp] theorem markBlockFree_brk : (H.markBlockFree blk size).brk = H.brk := rfl
@[simp] theorem markBlockFree_heapListp :
    (H.markBlockFree blk size).heapListp = H.heapListp := rfl
@[simp] theorem markBlockFree_grants : (H.markBlockFree blk size).grants = H.grants := rfl

@[simp] theorem markBlockUsed_segList : (H.markBlockUsed blk size).segList = H.segList := rfl
@[simp] theorem markBlockUsed_brk : (H.markBlockUsed blk size).brk = H.brk := rfl
@[simp] theorem markBlockUsed_heapListp :
    (H.markBlockUsed blk size).heapListp = H.heapListp := rfl
@[simp] theorem markBlockUsed_grants : (H.markBlockUsed blk size).grants = H.grants := rfl

/-- `mark_block_free` writes the header, the footer (a copy of the header), and
the `pinuse` bit of the next header. -/
theorem markBlockFree_mem (hs : 2 ≤ size) :
    (H.markBlockFree blk size).mem =
      Function.update
        (Function.update
          (Function.update H.mem blk { H.mem blk with inuse := false, size := size })
          (blk + size - 1) { H.mem blk with inuse := false, size := size })
        (blk + size) { H.mem (blk + size) with pinuse := false } := by
  have h₂ : blk + size ≠ blk + size - 1 := by omega
  have h₀ : size ≠ 0 := by omega
  simp [markBlockFree, setHeaderAndFooter, getFooter, nextBlk, setTag, Function.update_apply,
    h₀, h₂]

/-- `mark_block_used` writes the header and the `pinuse` bit of the next header. -/
theorem markBlockUsed_mem (hs : 0 < size) :
    (H.markBlockUsed blk size).mem =
      Function.update (Function.update H.mem blk { H.mem blk with inuse := true, size := size })
        (blk + size) { H.mem (blk + size) with pinuse := true } := by
  have h₀ : size ≠ 0 := by omega
  simp [markBlockUsed, nextBlk, setTag, h₀]

/-- Whatever the size, the header `mark_block_free` writes keeps it. -/
@[simp] theorem markBlockFree_mem_self_size : ((H.markBlockFree blk size).mem blk).size = size := by
  simp only [markBlockFree, setHeaderAndFooter, setTag, nextBlk, getFooter, Function.update_apply]
  -- the footer and the next header may fall on `blk` only when `size` is 0 or 1
  split_ifs <;> simp at * <;> omega

section Points

variable {H blk size}

theorem markBlockFree_mem_self (hs : 2 ≤ size) :
    (H.markBlockFree blk size).mem blk = { H.mem blk with inuse := false, size := size } := by
  rw [markBlockFree_mem H blk size hs]
  simp [show size ≠ 0 by omega, show blk ≠ blk + size - 1 by omega]

theorem markBlockFree_mem_footer (hs : 2 ≤ size) :
    (H.markBlockFree blk size).mem (blk + size - 1) =
      { H.mem blk with inuse := false, size := size } := by
  rw [markBlockFree_mem H blk size hs]
  simp [show blk + size - 1 ≠ blk + size by omega]

theorem markBlockFree_mem_next (hs : 2 ≤ size) :
    (H.markBlockFree blk size).mem (blk + size) = { H.mem (blk + size) with pinuse := false } := by
  rw [markBlockFree_mem H blk size hs]
  simp

theorem markBlockFree_mem_of_ne (hs : 2 ≤ size) {y : Nat} (h₁ : y ≠ blk)
    (h₂ : y ≠ blk + size - 1) (h₃ : y ≠ blk + size) :
    (H.markBlockFree blk size).mem y = H.mem y := by
  rw [markBlockFree_mem H blk size hs]
  simp [h₁, h₂, h₃]

theorem markBlockUsed_mem_self (hs : 0 < size) :
    (H.markBlockUsed blk size).mem blk = { H.mem blk with inuse := true, size := size } := by
  rw [markBlockUsed_mem H blk size hs]
  simp [show size ≠ 0 by omega]

theorem markBlockUsed_mem_next (hs : 0 < size) :
    (H.markBlockUsed blk size).mem (blk + size) = { H.mem (blk + size) with pinuse := true } := by
  rw [markBlockUsed_mem H blk size hs]
  simp

theorem markBlockUsed_mem_of_ne (hs : 0 < size) {y : Nat} (h₁ : y ≠ blk) (h₂ : y ≠ blk + size) :
    (H.markBlockUsed blk size).mem y = H.mem y := by
  rw [markBlockUsed_mem H blk size hs]
  simp [h₁, h₂]

theorem mem_pushBack_segList {i j a : Nat} :
    a ∈ (H.pushBack j blk).segList i ↔ a ∈ H.segList i ∨ (i = j ∧ a = blk) := by
  by_cases hij : i = j
  · subst hij
    simp [pushBack]
  · simp [pushBack, hij]

theorem pushBack_nodup (hnd : ∀ i, (H.segList i).Nodup) {j : Nat} (hb : blk ∉ H.segList j) :
    ∀ i, ((H.pushBack j blk).segList i).Nodup := by
  intro i
  by_cases hij : i = j
  · subst hij
    have hnd' : (H.segList i ++ [blk]).Nodup := by
      refine List.nodup_append.mpr ⟨hnd i, List.pairwise_singleton _ blk, ?_⟩
      intro a ha c hc
      rw [List.mem_singleton] at hc
      subst hc
      exact fun h => hb (h ▸ ha)
    simpa [pushBack] using hnd'
  · simpa [pushBack, hij] using hnd i

theorem listRemove_nodup (hnd : ∀ i, (H.segList i).Nodup) :
    ∀ i, ((H.listRemove blk).segList i).Nodup :=
  fun i => (hnd i).erase blk

theorem mem_listRemove_segList (hnd : ∀ i, (H.segList i).Nodup) {i a : Nat} :
    a ∈ (H.listRemove blk).segList i ↔ a ∈ H.segList i ∧ a ≠ blk := by
  rw [listRemove_segList, (hnd i).mem_erase_iff, and_comm]

@[simp] theorem foldl_listRemove_mem (rs : List Nat) : (rs.foldl listRemove H).mem = H.mem := by
  induction rs generalizing H with
  | nil => rfl
  | cons r rs ih => exact ih

theorem foldl_listRemove_nodup (hnd : ∀ i, (H.segList i).Nodup) (rs : List Nat) :
    ∀ i, ((rs.foldl listRemove H).segList i).Nodup := by
  induction rs generalizing H with
  | nil => exact hnd
  | cons r rs ih => exact ih (listRemove_nodup hnd)

theorem mem_foldl_listRemove (hnd : ∀ i, (H.segList i).Nodup) (rs : List Nat) {i a : Nat} :
    a ∈ (rs.foldl listRemove H).segList i ↔ a ∈ H.segList i ∧ a ∉ rs := by
  induction rs generalizing H with
  | nil => simp
  | cons r rs ih =>
    rw [List.foldl_cons, ih (listRemove_nodup hnd), mem_listRemove_segList hnd, List.mem_cons,
      not_or, and_assoc]

end Points

end Heap

/-! ## The four cases of `coalesce` -/

namespace Heap

variable {H : Heap} {bp : Nat}

@[simp] theorem coalesce_brk : (H.coalesce bp).1.brk = H.brk := by
  simp only [coalesce]
  split_ifs <;> simp

@[simp] theorem coalesce_heapListp : (H.coalesce bp).1.heapListp = H.heapListp := by
  simp only [coalesce]
  split_ifs <;> simp

@[simp] theorem coalesce_grants : (H.coalesce bp).1.grants = H.grants := by
  simp only [coalesce]
  split_ifs <;> simp

/-- Case 1: both neighbours in use. -/
theorem coalesce_alloc (hp : (H.mem bp).pinuse = true)
    (hn : (H.mem (H.nextBlk bp)).inuse = true) : H.coalesce bp = (H, bp) := by
  simp [coalesce, blkFree, hp, hn]

/-- Case 2: the next block is free. -/
theorem coalesce_next (hp : (H.mem bp).pinuse = true)
    (hn : (H.mem (H.nextBlk bp)).inuse = false) :
    H.coalesce bp =
      let H' := ((H.markBlockFree bp (H.blkSize bp + H.blkSize (H.nextBlk bp))).listRemove
        (H.nextBlk bp)).listRemove bp
      (H'.pushBack (getList (H'.mem bp).size) bp, bp) := by
  simp [coalesce, blkFree, hp, hn]

/-- Case 3: the previous block is free. -/
theorem coalesce_prev (hp : (H.mem bp).pinuse = false)
    (hn : (H.mem (H.nextBlk bp)).inuse = true) :
    H.coalesce bp =
      let H' := ((H.markBlockFree (H.prevBlk bp) (H.blkSize bp + H.blkSize (H.prevBlk bp))).listRemove
        bp).listRemove (H.prevBlk bp)
      (H'.pushBack (getList (H'.mem (H.prevBlk bp)).size) (H.prevBlk bp), H.prevBlk bp) := by
  simp [coalesce, blkFree, hp, hn]

/-- Case 4: both neighbours are free. -/
theorem coalesce_both (hp : (H.mem bp).pinuse = false)
    (hn : (H.mem (H.nextBlk bp)).inuse = false) :
    H.coalesce bp =
      let H' := H.markBlockFree (H.prevBlk bp)
        (H.blkSize bp + H.blkSize (H.nextBlk bp) + H.blkSize (H.prevBlk bp))
      let H'' := ((H'.listRemove bp).listRemove (H.nextBlk bp)).listRemove (H'.prevBlk bp)
      (H''.pushBack (getList (H''.mem (H'.prevBlk bp)).size) (H'.prevBlk bp), H'.prevBlk bp) := by
  simp [coalesce, blkFree, hp, hn]

end Heap

/-- A program using the allocator: the heap and the pointers `malloc` returned
that are not freed yet. -/
structure MallocSys where
  heap : Heap
  live : List Nat

/-- The calls a program makes. -/
inductive MallocCall where
  | malloc (n : Nat)
  | free (p : Nat)
  deriving DecidableEq, Repr

/-- Before the first `malloc`: `heap_listp` null, any memory, break and answers
of `sbrk`. -/
def MallocSys.init (mem : Nat → Tag) (brk : Nat) (grants : List Bool) : MallocSys :=
  { heap := { mem, brk, heapListp := 0, segList := fun _ => [], grants }, live := [] }

/-- A call; `free` only of a pointer `malloc` returned and not yet freed. -/
def MallocSys.step (S : MallocSys) : MallocCall → Option MallocSys
  | .malloc n => (malloc S.heap n).map fun (H, r) => { heap := H, live := r.toList ++ S.live }
  | .free p =>
    if p ∈ S.live then (free S.heap p).map fun H => { heap := H, live := S.live.erase p }
    else none

end Pintos.User

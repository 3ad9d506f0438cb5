import Pintos.Threads.Palloc

/-!
# The kernel allocator (`threads/malloc.c`)

A request of at most 1 kB goes to the descriptor of the smallest power of two
from 16 up that holds it. A descriptor keeps a free list of blocks; when the
list is empty, `malloc` takes a page from the kernel pool, writes an arena header
at its start and pushes every block after the header onto the list. `free` pushes
a block back, and when its arena has no block in use it unlinks all of the
arena's blocks and gives the page back. A larger request takes whole pages with
an arena header whose `free_cnt` is the page count.

An arena header is an entry of `arenas` at its page, so `block_to_arena`'s magic
check is that the entry exists; a free list is the list of its blocks' addresses,
front first. Block contents (the `0xcc` fill, `calloc`'s zeroing, `realloc`'s
copy) and the descriptors' locks are not modelled: calls run one at a time.
`size_t` is 32 bits where a sum can wrap; a failed `ASSERT`, or a list operation
on a block that is not on the list, is `none`.
-/

namespace Pintos.Threads

/-- `sizeof (struct arena)`: `magic`, `desc` and `free_cnt`, 4 bytes each. -/
def arenaSize : Nat := 12

/-- `struct desc` without its free list and lock. -/
structure Desc where
  blockSize : Nat
  blocksPerArena : Nat
  deriving DecidableEq, Repr

/-- The loop of `malloc_init` from `blockSize` on, for at most `n` more
descriptors. -/
def descsFrom (blockSize : Nat) : Nat → List Desc
  | 0 => []
  | n + 1 =>
    if blockSize < pgSize / 2 then
      ⟨blockSize, (pgSize - arenaSize) / blockSize⟩ :: descsFrom (blockSize * 2) n
    else []

/-- `descs` as `malloc_init` fills it; the array has room for 10. -/
def descs : List Desc := descsFrom 16 10

/-- `malloc_init` makes 7 descriptors, so its `ASSERT` on the array's size holds. -/
theorem descs_length : descs.length = 7 := by decide

/-- `struct arena` without its magic: the index of its descriptor, `none` for a
big block, and `free_cnt`. -/
structure Arena where
  desc : Option Nat
  freeCnt : Nat
  deriving DecidableEq, Repr

/-- The page allocator, the arena headers by page, and each descriptor's
`free_list`. -/
structure Heap where
  palloc : Palloc
  arenas : Nat → Option Arena
  freeList : Nat → List Nat

/-- The flags `0`: the kernel pool, no zeroing, no panic. -/
def noFlags : PallocFlags := ⟨false, false, false⟩

/-- `pg_round_down`. -/
def pgRoundDown (va : Nat) : Nat := va - pgOfs va

/-- The `ASSERT`s of `block_to_arena` that `b` is on a block boundary of the
arena whose header is `hdr`. -/
def blockAligned (hdr : Arena) (b : Nat) : Option Bool :=
  match hdr.desc with
  | some d => descs[d]?.map fun desc =>
    decide ((pgOfs b + 2 ^ 32 - arenaSize) % 2 ^ 32 % desc.blockSize = 0)
  | none => some (decide (pgOfs b = arenaSize))

namespace Heap

/-- The header at `a` becomes `hdr`. -/
def setArena (H : Heap) (a : Nat) (hdr : Option Arena) : Heap :=
  { H with arenas := Function.update H.arenas a hdr }

/-- Descriptor `d`'s free list becomes `l`. -/
def setFreeList (H : Heap) (d : Nat) (l : List Nat) : Heap :=
  { H with freeList := Function.update H.freeList d l }

@[simp] theorem setArena_arenas (H : Heap) (a : Nat) (hdr : Option Arena) :
    (H.setArena a hdr).arenas = Function.update H.arenas a hdr := rfl

@[simp] theorem setArena_freeList (H : Heap) (a : Nat) (hdr : Option Arena) :
    (H.setArena a hdr).freeList = H.freeList := rfl

@[simp] theorem setArena_palloc (H : Heap) (a : Nat) (hdr : Option Arena) :
    (H.setArena a hdr).palloc = H.palloc := rfl

@[simp] theorem setFreeList_freeList (H : Heap) (d : Nat) (l : List Nat) :
    (H.setFreeList d l).freeList = Function.update H.freeList d l := rfl

@[simp] theorem setFreeList_arenas (H : Heap) (d : Nat) (l : List Nat) :
    (H.setFreeList d l).arenas = H.arenas := rfl

@[simp] theorem setFreeList_palloc (H : Heap) (d : Nat) (l : List Nat) :
    (H.setFreeList d l).palloc = H.palloc := rfl

/-- `block_to_arena (b)`: the page of `b`, once its `ASSERT`s hold. -/
def blockToArena (H : Heap) (b : Nat) : Option Nat := do
  let a := pgRoundDown b
  if a = 0 then none
  let hdr ← H.arenas a
  if ← blockAligned hdr b then some a else none

/-- `arena_to_block (a, idx)`. -/
def arenaToBlock (H : Heap) (a idx : Nat) : Option Nat := do
  if a = 0 then none
  let hdr ← H.arenas a
  let d ← hdr.desc
  let desc ← descs[d]?
  if desc.blocksPerArena ≤ idx then none
  return a + arenaSize + idx * desc.blockSize

/-- The new arena `malloc` makes for descriptor `d` when its free list is empty,
its blocks pushed onto the list; `false` when there is no page. -/
def newArena (H : Heap) (d : Nat) (desc : Desc) : Option (Heap × Bool) := do
  let (P, a) ← pallocGetMultiple H.palloc noFlags 1
  match a with
  | none => return ({ H with palloc := P }, false)
  | some a =>
    let H := { H with palloc := P }.setArena a (some ⟨some d, desc.blocksPerArena⟩)
    let blocks ← (List.range desc.blocksPerArena).mapM fun i => H.arenaToBlock a i
    return (H.setFreeList d (H.freeList d ++ blocks), true)

/-- `list_pop_front` on descriptor `d`'s free list, and the block counted as used
in its arena. -/
def popBlock (H : Heap) (d : Nat) : Option (Heap × Nat) := do
  let b ← (H.freeList d).head?
  let H := H.setFreeList d (H.freeList d).tail
  let a ← H.blockToArena b
  let hdr ← H.arenas a
  return (H.setArena a (some { hdr with freeCnt := hdr.freeCnt - 1 }), b)

/-- `malloc (size)`: the block, `0` for a null pointer. -/
def malloc (H : Heap) (size : Nat) : Option (Heap × Nat) :=
  if size = 0 then some (H, 0) else
  match descs.findIdx? fun desc => size ≤ desc.blockSize with
  | none => do
    let pageCnt := (size + arenaSize + pgSize - 1) % 2 ^ 32 / pgSize
    let (P, a) ← pallocGetMultiple H.palloc noFlags pageCnt
    match a with
    | none => return ({ H with palloc := P }, 0)
    | some a =>
      return ({ H with palloc := P }.setArena a (some ⟨none, pageCnt⟩), a + arenaSize)
  | some d => do
    let desc ← descs[d]?
    let (H, ok) ← if H.freeList d = [] then H.newArena d desc else pure (H, true)
    if !ok then return (H, 0)
    H.popBlock d

/-- `calloc (a, b)`. -/
def calloc (H : Heap) (a b : Nat) : Option (Heap × Nat) :=
  let size := a * b % 2 ^ 32
  if size < a ∨ size < b then some (H, 0) else H.malloc size

/-- `block_size (block)`. -/
def blockSize (H : Heap) (block : Nat) : Option Nat := do
  let a ← H.blockToArena block
  let hdr ← H.arenas a
  match hdr.desc with
  | some d => return (← descs[d]?).blockSize
  | none => return pgSize * hdr.freeCnt - pgOfs block

/-- `list_remove` of the block `b` from descriptor `d`'s free list. -/
def unlink (H : Heap) (d b : Nat) : Option Heap :=
  if b ∈ H.freeList d then some (H.setFreeList d ((H.freeList d).erase b)) else none

/-- `free (p)`. -/
def free (H : Heap) (p : Nat) : Option Heap := do
  if p = 0 then return H
  let a ← H.blockToArena p
  let hdr ← H.arenas a
  match hdr.desc with
  | some d =>
    let desc ← descs[d]?
    let freeCnt := hdr.freeCnt + 1
    let H := (H.setFreeList d (p :: H.freeList d)).setArena a (some { hdr with freeCnt })
    if freeCnt < desc.blocksPerArena then return H
    if freeCnt ≠ desc.blocksPerArena then none
    let H ← (List.range desc.blocksPerArena).foldlM
      (fun H i => do H.unlink d (← H.arenaToBlock a i)) H
    let P ← pallocFreeMultiple H.palloc a 1
    return { H with palloc := P }.setArena a none
  | none =>
    let P ← pallocFreeMultiple H.palloc a hdr.freeCnt
    return { H with palloc := P }.setArena a none

/-- `realloc (old_block, new_size)`. -/
def realloc (H : Heap) (oldBlock newSize : Nat) : Option (Heap × Nat) := do
  if newSize = 0 then return (← H.free oldBlock, 0)
  let (H, newBlock) ← H.malloc newSize
  if oldBlock ≠ 0 ∧ newBlock ≠ 0 then
    let _ ← H.blockSize oldBlock
    return (← H.free oldBlock, newBlock)
  return (H, newBlock)

/-- Sizes near `SIZE_MAX` wrap. `malloc (SIZE_MAX)` rounds `SIZE_MAX + 12` up to
one page and returns a block of 4084 bytes; `calloc (65537, 65537)`, whose product
wraps to 131073, larger than both factors, is served with 33 pages although the
product does not fit in `size_t`. -/
theorem malloc_sizes_wrap :
    ∃ H : Heap,
      (∃ H' b, H.malloc (2 ^ 32 - 1) = some (H', b) ∧ b ≠ 0 ∧ H'.blockSize b = some 4084) ∧
      2 ^ 32 ≤ 65537 * 65537 ∧
      ∃ H' b, H.calloc 65537 65537 = some (H', b) ∧ b ≠ 0 ∧ H'.blockSize b = some 135156 := by
  let H : Heap := ⟨⟨⟨⟨64, fun _ => 0#32⟩, 0xc0100000⟩, ⟨⟨0, fun _ => 0#32⟩, 0xc0200000⟩⟩,
    fun _ => none, fun _ => []⟩
  have hm : (H.malloc (2 ^ 32 - 1)).map
      (fun r => decide (r.2 ≠ 0 ∧ r.1.blockSize r.2 = some 4084)) = some true := by
    decide +kernel
  have hc : (H.calloc 65537 65537).map
      (fun r => decide (r.2 ≠ 0 ∧ r.1.blockSize r.2 = some 135156)) = some true := by
    decide +kernel
  obtain ⟨⟨H₁, b₁⟩, hm₁, hobs₁⟩ := Option.map_eq_some_iff.mp hm
  obtain ⟨⟨H₂, b₂⟩, hc₂, hobs₂⟩ := Option.map_eq_some_iff.mp hc
  exact ⟨H, ⟨H₁, b₁, hm₁, of_decide_eq_true hobs₁⟩, by decide,
    ⟨H₂, b₂, hc₂, of_decide_eq_true hobs₂⟩⟩

end Heap

/-! ## Clients -/

/-- The heap, and the blocks it handed out that have not been freed. -/
structure MallocSys where
  heap : Heap
  live : List Nat

/-- A call of the heap's client. -/
inductive MallocCall where
  | malloc (size : Nat)
  | calloc (a b : Nat)
  | realloc (oldBlock newSize : Nat)
  | free (p : Nat)
  deriving DecidableEq, Repr

/-- The live blocks after a call that returned `b`. -/
def addLive (live : List Nat) (b : Nat) : List Nat := if b = 0 then live else b :: live

namespace MallocSys

/-- The heap after `palloc_init` and `malloc_init`. -/
def init (P : Palloc) : MallocSys := ⟨⟨P, fun _ => none, fun _ => []⟩, []⟩

/-- One call; the client frees and reallocates only blocks it holds. -/
def step (S : MallocSys) : MallocCall → Option MallocSys
  | .malloc size => (S.heap.malloc size).map fun r => ⟨r.1, addLive S.live r.2⟩
  | .calloc a b => (S.heap.calloc a b).map fun r => ⟨r.1, addLive S.live r.2⟩
  | .realloc oldBlock newSize =>
    if oldBlock = 0 ∨ oldBlock ∈ S.live then
      (S.heap.realloc oldBlock newSize).map fun r =>
        ⟨r.1, if newSize = 0 ∨ r.2 ≠ 0 then addLive (S.live.erase oldBlock) r.2 else S.live⟩
    else none
  | .free p =>
    if p = 0 ∨ p ∈ S.live then (S.heap.free p).map fun H => ⟨H, S.live.erase p⟩ else none

/-- The client's side of the contract: it frees and reallocates only `NULL` or a
block it holds. -/
def Allowed (S : MallocSys) : MallocCall → Prop
  | .realloc oldBlock _ => oldBlock = 0 ∨ oldBlock ∈ S.live
  | .free p => p = 0 ∨ p ∈ S.live
  | _ => True

end MallocSys

end Pintos.Threads

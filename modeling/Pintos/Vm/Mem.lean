import Pintos.Threads.Malloc
import Pintos.Userprog.Pagedir

/-!
# The program break (`vm/mem.c`)

`mem_sbrk (increment)` moves the running process's `heap_end` up by
`increment`. When the new break leaves the page that is mapped, it walks the
pages from the old break rounded up, with `size` the bytes still to cover, and
gives each a zeroed user frame through `mem_install_page`. A `return -1` inside
that loop leaves behind the pages it has already installed.

`heap_end` is a `uintptr_t`, so the sums on it are taken modulo `2^32`; the
loop's `size` is an `int`. The result is the value handed back to the user,
`-1` for failure. A loop of `size` rounds is enough, since each round lowers
`size` by `PGSIZE`.
-/

namespace Pintos.Vm

open Pintos.Threads Pintos.Userprog

/-- `pg_round_up (va)` for an address below `PHYS_BASE`, where the sum does not
wrap. -/
def pgRoundUp (va : Nat) : Nat := pgRoundDown (va + pgSize - 1)

/-- `mem_install_page (upage, kpage)` in the page directory `pd`: map `upage`
to `kpage`, writable, unless `upage` is already mapped. -/
def memInstallPage (K : KMem) (pd upage kpage : Nat) : Option (KMem × Bool) := do
  if (← pagedirGetPage K pd upage) ≠ 0 then return (K, false)
  pagedirSetPage K pd upage kpage true

/-- The loop of `mem_sbrk` from `upage` with `size` bytes still to cover, for at
most `fuel` rounds: `false` for a `return -1` from inside the loop. -/
def sbrkLoop (pd : Nat) : Nat → KMem → Nat → Int → Option (KMem × Bool)
  | 0, _, _, _ => none
  | fuel + 1, K, upage, size => do
    if size ≤ 0 then return (K, true)
    let (K, kpage) ← K.getPage ⟨false, true, true⟩
    if kpage = 0 then return (K, false)
    let (K, ok) ← memInstallPage K pd upage kpage
    if !ok then return (← K.freePage kpage, false)
    sbrkLoop pd fuel K (upage + pgSize) (size - pgSize)

/-- `mem_sbrk (increment)` of a process with page directory `pd` and break
`heapEnd`: the memory, the new break and the result. -/
def memSbrk (K : KMem) (pd heapEnd : Nat) (increment : Int) : Option (KMem × Nat × Int) := do
  -- heap shrinking is not supported
  if increment < 0 then return (K, heapEnd, -1)
  let newEnd := (heapEnd + increment.toNat) % 2 ^ 32
  let currentHeap := pgRoundDown newEnd
  -- `||` does not call `pagedir_get_page` when the first test holds
  let grow ← if increment > pgSize then pure true
    else do
      let page ← pagedirGetPage K pd currentHeap
      pure (page == 0)
  if grow then
    let upage := pgRoundUp heapEnd
    let size := increment - (upage - heapEnd : Nat)
    let (K, ok) ← sbrkLoop pd (size.toNat + 1) K upage size
    if !ok then return (K, heapEnd, -1)
    return (K, newEnd, heapEnd)
  return (K, newEnd, heapEnd)

/-- From a page-aligned break in an unmapped page of a present page table, with
one free user frame, `sbrk (8192)` installs the break's page and then finds no
frame for the next: it returns `-1` with the break unchanged, while the page it
installed stays mapped to a frame that was free and is now in use. -/
theorem sbrk_failure_keeps_installed_page :
    ∃ K K' pd heapEnd, pgOfs heapEnd = 0 ∧ memSbrk K pd heapEnd 8192 = some (K', heapEnd, -1) ∧
      pagedirGetPage K pd heapEnd = some 0 ∧
      ∃ frame, K.inUse frame = false ∧ pagedirGetPage K' pd heapEnd = some frame ∧
        K'.inUse frame = true := by
  let K : KMem :=
    ⟨⟨⟨⟨2, fun i => if i = 0 then 3#32 else 0#32⟩, 0xc0100000⟩,
        ⟨⟨1, fun _ => 0#32⟩, 0xc0200000⟩⟩,
      fun a => if a = 0xc0100000 then pdeCreateUser 0xc0101000 else 0⟩
  have h : (memSbrk K 0xc0100000 0x1000 8192).map (fun r =>
      decide (r.2 = (0x1000, -1) ∧ pagedirGetPage r.1 0xc0100000 0x1000 = some 0xc0200000 ∧
        r.1.inUse 0xc0200000)) = some true := by
    decide +kernel
  obtain ⟨⟨K', r⟩, hsbrk, hobs⟩ := Option.map_eq_some_iff.mp h
  obtain ⟨rfl, hmapped, hused⟩ := of_decide_eq_true hobs
  exact ⟨K, K', 0xc0100000, 0x1000, by decide, hsbrk, by decide +kernel,
    0xc0200000, by decide, hmapped, hused⟩

end Pintos.Vm

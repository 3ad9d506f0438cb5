import Pintos.Threads.Palloc
import Pintos.Lib.Bytes

/-!
# Page directories (`userprog/pagedir.c`, `threads/pte.h`)

A page directory is a kernel page of 1024 entries; an entry of a user address
below `PHYS_BASE` with `PTE_P` set holds the physical address of a page table,
whose 1024 entries map the pages of that 4 MB to frames. The kernel sees every
page through its kernel virtual address, so the model is the 32-bit word at each
kernel address and the page allocator; `palloc_get_page` under `PAL_ZERO` zeroes
its page's words.

`lookup_page` finds the entry of a page, making its page table under `create`;
`pagedir_set_page` and `pagedir_get_page` go through it. `pagedir_copy` copies
the directory with `memcpy` and then walks the user entries of the original,
giving the copy a fresh page table per present entry and a fresh frame per
present page; on a failed allocation it hands the copy to `pagedir_destroy`,
which frees every page table and frame that the copy's present user entries
point to, and the copy itself.
-/

namespace Pintos.Userprog

open Pintos.Threads

/-- `PTE_P`. -/
def pteP : Nat := 0x1

/-- `PTE_W`. -/
def pteW : Nat := 0x2

/-- `PTE_U`. -/
def pteU : Nat := 0x4

/-- `PTE_A`. -/
def pteA : Nat := 0x20

/-- `PTE_D`. -/
def pteD : Nat := 0x40

/-- `PTE_ADDR`. -/
def pteAddr : Nat := 0xfffff000

/-- `~m` as a `uint32_t`. -/
def notMask (m : Nat) : Nat := 0xffffffff ^^^ m

/-- `pd_no (va)`: `va >> PDSHIFT`. -/
def pdNo (va : Nat) : Nat := va / 2 ^ 22

/-- `pt_no (va)`: `(va & PTMASK) >> PTSHIFT`. -/
def ptNo (va : Nat) : Nat := va / pgSize % 1024

/-- `vtop (vaddr)`. -/
def vtop (vaddr : Nat) : Nat := vaddr - physBase

/-- `pde_create_user (pt)`. -/
def pdeCreateUser (pt : Nat) : Nat := vtop pt ||| pteU ||| pteP ||| pteW

/-- `pde_get_pt (pde)`. -/
def pdeGetPt (pde : Nat) : Nat := ptov (pde &&& pteAddr)

/-- `pte_create_user (page, writable)`. -/
def pteCreateUser (page : Nat) (writable : Bool) : Nat :=
  vtop page ||| pteP ||| (if writable then pteW else 0) ||| pteU

/-- `pte_get_page (pte)`. -/
def pteGetPage (pte : Nat) : Nat := ptov (pte &&& pteAddr)

/-- Whether an entry has `PTE_P`. -/
def present (e : Nat) : Bool := e &&& pteP != 0

/-- The kernel's memory as the page-table code sees it: the page allocator and
the 32-bit word at each kernel address. -/
structure KMem where
  palloc : Palloc
  word : Nat → Nat

namespace KMem

/-- `palloc_get_page (flags)`: a page, 0 for `NULL`, its words zeroed under
`PAL_ZERO`; `none` for a panic. -/
def getPage (K : KMem) (flags : PallocFlags) : Option (KMem × Nat) := do
  let (P, page) ← pallocGetMultiple K.palloc flags 1
  match page with
  | none => return ({ K with palloc := P }, 0)
  | some page =>
    let word := if flags.palZero then
        fun a => if page ≤ a ∧ a < page + pgSize then 0 else K.word a
      else K.word
    return (⟨P, word⟩, page)

/-- `palloc_free_page (page)`. `NDEBUG` is not defined, so a page other than
`NULL` is filled with `0xcc` before its bit is cleared. -/
def freePage (K : KMem) (page : Nat) : Option KMem :=
  (pallocFreeMultiple K.palloc page 1).map fun P =>
    ⟨P, if page = 0 then K.word
      else fun a => if page ≤ a ∧ a < page + pgSize then 0xcccccccc else K.word a⟩

/-- The word at `a` becomes `v`. -/
def store (K : KMem) (a v : Nat) : KMem := { K with word := Bytes.update K.word a v }

/-- `memcpy (dst, src, PGSIZE)`. -/
def copyPage (K : KMem) (dst src : Nat) : KMem :=
  { K with word := fun a => if dst ≤ a ∧ a < dst + pgSize then K.word (a - dst + src) else K.word a }

end KMem

/-- `lookup_page (pd, vaddr, create)`: the address of the page's entry, 0 for
`NULL`; `none` when the assertion on `create` fails or memory runs out in a
panic. -/
def lookupPage (K : KMem) (pd vaddr : Nat) (create : Bool) : Option (KMem × Nat) := do
  if create ∧ physBase ≤ vaddr then none
  let pde := pd + 4 * pdNo vaddr
  if K.word pde = 0 then
    if create then
      let (K, pt) ← K.getPage ⟨false, true, false⟩
      if pt = 0 then return (K, 0)
      let K := K.store pde (pdeCreateUser pt)
      return (K, pdeGetPt (K.word pde) + 4 * ptNo vaddr)
    else return (K, 0)
  return (K, pdeGetPt (K.word pde) + 4 * ptNo vaddr)

/-- `pagedir_set_page (pd, upage, kpage, writable)`. -/
def pagedirSetPage (K : KMem) (pd upage kpage : Nat) (writable : Bool) :
    Option (KMem × Bool) := do
  if pgOfs upage ≠ 0 ∨ pgOfs kpage ≠ 0 ∨ physBase ≤ upage then none
  let (K, pte) ← lookupPage K pd upage true
  if pte = 0 then return (K, false)
  if present (K.word pte) then none
  return (K.store pte (pteCreateUser kpage writable), true)

/-- `pagedir_get_page (pd, uaddr)`: the kernel address `uaddr` maps to, 0 for
`NULL`. -/
def pagedirGetPage (K : KMem) (pd uaddr : Nat) : Option Nat := do
  if physBase ≤ uaddr then none
  let (_, pte) ← lookupPage K pd uaddr false
  if pte ≠ 0 ∧ present (K.word pte) then return pteGetPage (K.word pte) + pgOfs uaddr
  return 0

/-- `pagedir_clear_page (pd, upage)`: `PTE_P` cleared in the entry of `upage`
when it is present; flushing the TLB changes no memory. -/
def pagedirClearPage (K : KMem) (pd upage : Nat) : Option KMem := do
  if pgOfs upage ≠ 0 ∨ physBase ≤ upage then none
  let (K, pte) ← lookupPage K pd upage false
  if pte ≠ 0 ∧ present (K.word pte) then return K.store pte (K.word pte &&& notMask pteP)
  return K

/-- `pagedir_is_dirty` and `pagedir_is_accessed`: whether the entry of `vpage`
exists and has `bit`. -/
def pagedirIsBit (bit : Nat) (K : KMem) (pd vpage : Nat) : Option Bool := do
  let (_, pte) ← lookupPage K pd vpage false
  return decide (pte ≠ 0 ∧ K.word pte &&& bit ≠ 0)

/-- `pagedir_set_dirty` and `pagedir_set_accessed`: `bit` of the entry of
`vpage` set to `value`, where the entry exists. -/
def pagedirSetBit (bit : Nat) (K : KMem) (pd vpage : Nat) (value : Bool) : Option KMem := do
  let (K, pte) ← lookupPage K pd vpage false
  if pte = 0 then return K
  return K.store pte (if value then K.word pte ||| bit else K.word pte &&& notMask bit)

/-- `pagedir_is_dirty (pd, vpage)`. -/
def pagedirIsDirty (K : KMem) (pd vpage : Nat) : Option Bool := pagedirIsBit pteD K pd vpage

/-- `pagedir_set_dirty (pd, vpage, dirty)`. -/
def pagedirSetDirty (K : KMem) (pd vpage : Nat) (dirty : Bool) : Option KMem :=
  pagedirSetBit pteD K pd vpage dirty

/-- `pagedir_is_accessed (pd, vpage)`. -/
def pagedirIsAccessed (K : KMem) (pd vpage : Nat) : Option Bool := pagedirIsBit pteA K pd vpage

/-- `pagedir_set_accessed (pd, vpage, accessed)`. -/
def pagedirSetAccessed (K : KMem) (pd vpage : Nat) (accessed : Bool) : Option KMem :=
  pagedirSetBit pteA K pd vpage accessed

/-- The inner loop of `pagedir_destroy` over the entries `js` of a page table:
free each present page. -/
def destroyPtes (pt : Nat) : KMem → List Nat → Option KMem
  | K, [] => some K
  | K, j :: js => do
    let pte := K.word (pt + 4 * j)
    let K ← if present pte then K.freePage (pteGetPage pte) else pure K
    destroyPtes pt K js

/-- The outer loop of `pagedir_destroy` over the user entries `is`: for each
present one, its pages and then its page table. -/
def destroyPdes (pd : Nat) : KMem → List Nat → Option KMem
  | K, [] => some K
  | K, i :: is => do
    let pde := K.word (pd + 4 * i)
    let K ← if present pde then do
        let pt := pdeGetPt pde
        let K ← destroyPtes pt K (List.range 1024)
        K.freePage pt
      else pure K
    destroyPdes pd K is

/-- `pagedir_destroy (pd)`. -/
def pagedirDestroy (K : KMem) (pd : Nat) : Option KMem := do
  if pd = 0 then return K
  let K ← destroyPdes pd K (List.range (pdNo physBase))
  K.freePage pd

/-- The inner loop of `pagedir_copy` over the entries `js` of the page table
`pt`: each present page gets a frame of its own, with the same contents and
write bit, in `ptCopy`. `false` is the `goto pagedir_copy_err`. -/
def copyPtes (pt ptCopy : Nat) : KMem → List Nat → Option (KMem × Bool)
  | K, [] => some (K, true)
  | K, j :: js => do
    let pte := K.word (pt + 4 * j)
    if !present pte then copyPtes pt ptCopy K js
    else
      let (K, kpage) ← K.getPage ⟨false, false, true⟩
      if kpage = 0 then return (K, false)
      let K := K.store (ptCopy + 4 * j) (pteCreateUser kpage (pte &&& pteW != 0))
      let K := K.copyPage kpage (pteGetPage pte)
      copyPtes pt ptCopy K js

/-- The outer loop of `pagedir_copy` over the user entries `is` of `pd`: each
present one gets a zeroed page table of its own in `pdCopy`, filled by
`copyPtes`. -/
def copyPdes (pd pdCopy : Nat) : KMem → List Nat → Option (KMem × Bool)
  | K, [] => some (K, true)
  | K, i :: is => do
    let pde := K.word (pd + 4 * i)
    if !present pde then copyPdes pd pdCopy K is
    else
      let (K, ptCopy) ← K.getPage ⟨false, true, false⟩
      if ptCopy = 0 then return (K, false)
      let K := K.store (pdCopy + 4 * i) (pdeCreateUser ptCopy)
      let (K, ok) ← copyPtes (pdeGetPt pde) ptCopy K (List.range 1024)
      if !ok then return (K, false)
      copyPdes pd pdCopy K is

/-- `pagedir_copy (pd)`: the copy, or 0 for `NULL` after `pagedir_destroy` of
what was built. -/
def pagedirCopy (K : KMem) (pd : Nat) : Option (KMem × Nat) := do
  let (K, pdCopy) ← K.getPage ⟨false, false, false⟩
  if pdCopy = 0 then return (← pagedirDestroy K pdCopy, 0)
  let K := K.copyPage pdCopy pd
  let (K, ok) ← copyPdes pd pdCopy K (List.range (pdNo physBase))
  if ok then return (K, pdCopy)
  return (← pagedirDestroy K pdCopy, 0)

/-- Whether the pool that holds `page` has it in use. -/
def KMem.inUse (K : KMem) (page : Nat) : Bool :=
  let pool := if pageFromPool K.palloc.kernelPool page then K.palloc.kernelPool
    else K.palloc.userPool
  pageFromPool pool page && pool.usedMap.test (pgNo page - pgNo pool.base)

/-- After `K'`, the page table of the first user entry of `pd` and the frame of
its first entry are free, and the page table is filled with `0xcc`, though `pd`,
in use and unchanged, still maps it. -/
def ParentFreed (K K' : KMem) (pd : Nat) : Prop :=
  let pt := pdeGetPt (K.word pd)
  let page := pteGetPage (K.word pt)
  present (K.word pd) ∧ present (K.word pt) ∧ K.inUse pd ∧ K.inUse pt ∧ K.inUse page ∧
    K'.word pd = K.word pd ∧ K'.word pt = 0xcccccccc ∧ K'.inUse pd ∧
    K'.inUse pt = false ∧ K'.inUse page = false

instance (K K' : KMem) (pd : Nat) : Decidable (ParentFreed K K' pd) := by
  unfold ParentFreed
  infer_instance

/-- A directory whose first user entry maps one page, with one kernel page free:
`pagedir_copy` takes that page for the copy, finds no page for the copy's first
page table, and `pagedir_destroy` of the copy, which still holds the original's
first entry, frees the original's page table and frame and fills them with
`0xcc`. -/
theorem pagedir_copy_frees_parent_pages :
    ∃ K K' pd, pagedirCopy K pd = some (K', 0) ∧ ParentFreed K K' pd := by
  let K : KMem :=
    ⟨⟨⟨⟨3, fun i => if i = 0 then 3#32 else 0#32⟩, 0xc0100000⟩,
        ⟨⟨1, fun i => if i = 0 then 1#32 else 0#32⟩, 0xc0200000⟩⟩,
      fun a => if a = 0xc0100000 then pdeCreateUser 0xc0101000
        else if a = 0xc0101000 then pteCreateUser 0xc0200000 true else 0⟩
  have h : (pagedirCopy K 0xc0100000).map
      (fun r => decide (r.2 = 0 ∧ ParentFreed K r.1 0xc0100000)) = some true := by
    decide +kernel
  obtain ⟨⟨K', pdCopy⟩, hcopy, hobs⟩ := Option.map_eq_some_iff.mp h
  obtain ⟨rfl, hfreed⟩ := of_decide_eq_true hobs
  exact ⟨K, K', 0xc0100000, hcopy, hfreed⟩

end Pintos.Userprog

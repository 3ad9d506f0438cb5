import Pintos.Kernel.Bitmap
import Pintos.Lib.Runs
import Pintos.Lib.Reach

/-!
# The page allocator (`threads/palloc.c`)

Memory from 1 MB to the end of RAM is split into a kernel pool and a user pool.
Each pool keeps a bitmap of its pages in use, stored in the pool's own first
pages, and hands out the pages after it. `palloc_get_multiple` takes a run of
clear bits with `bitmap_scan_and_flip`; `palloc_free_multiple` finds the pool of
a page and clears the run after asserting it was set.

Each pool refines a first-fit allocator of runs (`Runs.Alloc`): its bits are the
indices of the live runs (`Pool.Refines`), a successful scan takes exactly the
run `Alloc.alloc` takes (`Pool.refines_scan_some`), and freeing a live run is
`Alloc.free` (`Pool.refines_free`). A client that frees only what it was given
(`PallocSys`) keeps both refinements (`PallocSys.step_inv`), so its runs never
share a page (`palloc_first_fit`).

Page contents are not modelled (`PAL_ZERO`'s zeroing, the `0xcc` fill of freed
pages), nor is `pool->lock`: calls run one at a time. A `PANIC` or a failed
`ASSERT` is `none`.
-/

namespace Pintos.Threads

open Pintos.Kernel

/-- `PGSIZE`. -/
def pgSize : Nat := 4096

/-- `pg_no`: the page number of an address, `va >> PGBITS`. -/
def pgNo (va : Nat) : Nat := va / pgSize

/-- `pg_ofs`: the offset of an address in its page, `va & PGMASK`. -/
def pgOfs (va : Nat) : Nat := va % pgSize

/-- `PHYS_BASE`: where physical memory is mapped in the kernel's address space. -/
def physBase : Nat := 0xc0000000

/-- `ptov`. -/
def ptov (paddr : Nat) : Nat := paddr + physBase

/-- `struct pool`: the bitmap of pages in use and the first page it covers. -/
structure Pool where
  usedMap : Bitmap
  base : Nat

/-- The flags `palloc_get_multiple` reads (`PAL_NOCACHE` it does not). -/
structure PallocFlags where
  palAssert : Bool
  palZero : Bool
  palUser : Bool
  deriving DecidableEq, Repr

/-- `kernel_pool` and `user_pool`. -/
structure Palloc where
  kernelPool : Pool
  userPool : Pool

namespace Palloc

/-- The user pool for `PAL_USER`, otherwise the kernel pool. -/
def pool (P : Palloc) (user : Bool) : Pool := if user then P.userPool else P.kernelPool

/-- Replace one pool. -/
def setPool (P : Palloc) (user : Bool) (p : Pool) : Palloc :=
  if user then { P with userPool := p } else { P with kernelPool := p }

@[simp] theorem pool_setPool_self (P : Palloc) (u : Bool) (p : Pool) :
    (P.setPool u p).pool u = p := by
  cases u <;> rfl

@[simp] theorem pool_setPool_not (P : Palloc) (u : Bool) (p : Pool) :
    (P.setPool u p).pool (!u) = P.pool (!u) := by
  cases u <;> rfl

end Palloc

/-- `palloc_get_multiple (flags, page_cnt)`: the palloc state and the first page
of the run, `none` for a null pointer; `none` overall when `PAL_ASSERT` panics. -/
def pallocGetMultiple (P : Palloc) (flags : PallocFlags) (pageCnt : Nat) :
    Option (Palloc × Option Nat) :=
  let pool := P.pool flags.palUser
  if pageCnt = 0 then some (P, none)
  else
    let (usedMap, pageIdx) := pool.usedMap.scanAndFlip 0 pageCnt false
    let P := P.setPool flags.palUser { pool with usedMap }
    match pageIdx with
    | some pageIdx => some (P, some (pool.base + pgSize * pageIdx))
    | none => if flags.palAssert then none else some (P, none)

/-- `page_from_pool`. -/
def pageFromPool (pool : Pool) (page : Nat) : Bool :=
  let pageNo := pgNo page
  let startPage := pgNo pool.base
  let endPage := startPage + pool.usedMap.bitCnt
  decide (startPage ≤ pageNo ∧ pageNo < endPage)

/-- `palloc_free_multiple (pages, page_cnt)`; `none` when an assertion fails or
the page is in neither pool (`NOT_REACHED`). -/
def pallocFreeMultiple (P : Palloc) (pages pageCnt : Nat) : Option Palloc :=
  if pgOfs pages ≠ 0 then none
  else if pages = 0 ∨ pageCnt = 0 then some P
  else
    let user? : Option Bool :=
      if pageFromPool P.kernelPool pages then some false
      else if pageFromPool P.userPool pages then some true
      else none
    match user? with
    | none => none
    | some user =>
      let pool := P.pool user
      let pageIdx := pgNo pages - pgNo pool.base
      match pool.usedMap.all pageIdx pageCnt with
      | some true =>
        let usedMap := pool.usedMap.setMultiple pageIdx pageCnt false
        some (P.setPool user { pool with usedMap })
      | _ => none

/-- `init_pool`: a pool of `pageCnt` pages at `base` whose first pages hold the
bitmap, its words read from memory `mem` (`mem a`, the word at address `a`). -/
def initPool (base pageCnt : Nat) (mem : Nat → BitVec 32) : Option Pool :=
  let bmPages := (bitmapBufSize pageCnt + pgSize - 1) / pgSize
  if pageCnt < bmPages then none
  else some ⟨Bitmap.createInBuf (pageCnt - bmPages) (fun i => mem (base + 8 + 4 * i)),
    base + bmPages * pgSize⟩

/-- `palloc_init (user_page_limit)` on `init_ram_pages` pages of RAM. The loader
sets `init_ram_pages` to at least 256, so `free_end` is never below
`free_start`. -/
def pallocInit (initRamPages userPageLimit : Nat) (mem : Nat → BitVec 32) : Option Palloc := do
  let freeStart := ptov (1024 * 1024)
  let freeEnd := ptov (initRamPages * pgSize)
  let freePages := (freeEnd - freeStart) / pgSize
  let userPages := min (freePages / 2) userPageLimit
  let kernelPages := freePages - userPages
  let kernelPool ← initPool freeStart kernelPages mem
  let userPool ← initPool (freeStart + kernelPages * pgSize) userPages mem
  pure ⟨kernelPool, userPool⟩

/-! ## One call -/

namespace Pool

/-- The answer `palloc_get_multiple` owes for a run of `n` pages of `pool`,
leaving `pool'`: the first page of the lowest run of `n` clear bits, inside the
pool, whose bits are now set and no other bit changed; or a null pointer, only
when no run of `n` clear bits exists, with nothing changed. -/
def FirstFit (pool pool' : Pool) (n : Nat) : Option Nat → Prop
  | some pages => ∃ i, pages = pool.base + pgSize * i ∧ i + n ≤ pool.usedMap.bitCnt ∧
      pool.usedMap.Window i n false ∧ (∀ j < i, ¬ pool.usedMap.Window j n false) ∧
      pool'.base = pool.base ∧ pool'.usedMap.bitCnt = pool.usedMap.bitCnt ∧
      ∀ j, pool'.usedMap.test j = if i ≤ j ∧ j < i + n then true else pool.usedMap.test j
  | none =>
    (∀ j, j + n ≤ pool.usedMap.bitCnt → ¬ pool.usedMap.Window j n false) ∧ pool' = pool

end Pool

/-- What `palloc_get_multiple (flags, n)` owes: a first-fit answer from the pool
`flags` names, the other pool left alone; a panic only under `PAL_ASSERT` when
no run fits. -/
def Palloc.GetSpec (P : Palloc) (flags : PallocFlags) (n : Nat) :
    Option (Palloc × Option Nat) → Prop
  | some (P', r) => P'.pool (!flags.palUser) = P.pool (!flags.palUser) ∧
      (P.pool flags.palUser).FirstFit (P'.pool flags.palUser) n r
  | none => flags.palAssert = true ∧ ∀ j, j + n ≤ (P.pool flags.palUser).usedMap.bitCnt →
      ¬ (P.pool flags.palUser).usedMap.Window j n false

/-- `palloc_get_multiple` is a first fit over the bitmap of the pool asked for. -/
theorem pallocGetMultiple_spec (P : Palloc) (flags : PallocFlags) {n : Nat} (hn : 0 < n) :
    P.GetSpec flags n (pallocGetMultiple P flags n) := by
  unfold pallocGetMultiple Bitmap.scanAndFlip
  rw [if_neg (Nat.pos_iff_ne_zero.mp hn)]
  cases hs : (P.pool flags.palUser).usedMap.scan 0 n false with
  | none =>
    have hno := Bitmap.scan_none hs
    cases ha : flags.palAssert
    · exact ⟨by simp, fun j hj => hno j (Nat.zero_le _) hj, by simp⟩
    · exact ⟨ha, fun j hj => hno j (Nat.zero_le _) hj⟩
  | some i =>
    obtain ⟨-, hin, hw, hmin⟩ := Bitmap.scan_some hs
    refine ⟨by simp, i, rfl, hin, hw, fun j hj => hmin j (Nat.zero_le _) hj, by simp, by simp,
      fun j => ?_⟩
    simp [Bitmap.test_setMultiple]

/-- The answer `palloc_free_multiple (pages, n)` owes: it succeeds, and it clears
the `n` bits of `pages` in its pool, all of which were set, changing no other
bit and leaving the other pool alone. -/
def Palloc.FreeSpec (P : Palloc) (pages n : Nat) : Option Palloc → Prop
  | some P' => ∃ user i, pages = (P.pool user).base + pgSize * i ∧
      (P.pool user).usedMap.Window i n true ∧ P'.pool (!user) = P.pool (!user) ∧
      (P'.pool user).base = (P.pool user).base ∧
      (P'.pool user).usedMap.bitCnt = (P.pool user).usedMap.bitCnt ∧
      ∀ j, (P'.pool user).usedMap.test j =
        if i ≤ j ∧ j < i + n then false else (P.pool user).usedMap.test j
  | none => False

/-! ## Each pool refines a first-fit allocator -/

/-- The pool's bitmap pictures the allocator `A`: a bit is set exactly when a
live run of `A` covers it. -/
structure Pool.Refines (pool : Pool) (A : Runs.Alloc) : Prop where
  size : pool.usedMap.bitCnt = A.size
  bits : ∀ i < A.size, pool.usedMap.test i = decide (Runs.Covered A.live i)

namespace Pool

variable {pool : Pool} {A : Runs.Alloc}

/-- A run fits where the bitmap has a window of clear bits. -/
theorem Refines.fits_iff (h : pool.Refines A) {i n : Nat} :
    Runs.Fits A.size A.live i n ↔
      i + n ≤ pool.usedMap.bitCnt ∧ pool.usedMap.Window i n false := by
  rw [h.size]
  constructor
  · rintro ⟨hin, hf⟩
    refine ⟨hin, fun k hk => ?_⟩
    rw [h.bits _ (by omega)]
    simpa using hf k hk
  · rintro ⟨hin, hw⟩
    refine ⟨hin, fun k hk hc => ?_⟩
    have := hw k hk
    rw [h.bits _ (by omega)] at this
    simp [hc] at this

/-- `bitmap_scan_and_flip` takes the run `Alloc.alloc` takes, and the flipped
bitmap pictures the allocator after it. -/
theorem Refines.scan_some (h : pool.Refines A) {n i : Nat}
    (hs : pool.usedMap.scan 0 n false = some i) :
    ∃ hf, A.alloc n = some (A.take i n hf, i) ∧
      (⟨pool.usedMap.setMultiple i n true, pool.base⟩ : Pool).Refines (A.take i n hf) := by
  obtain ⟨-, hin, hw, hmin⟩ := Bitmap.scan_some hs
  have hfit : Runs.Fits A.size A.live i n := h.fits_iff.mpr ⟨hin, hw⟩
  have hfirst : Runs.firstFit A.size A.live n = some i :=
    Runs.firstFit_eq_some hfit fun j hj hf => hmin j (Nat.zero_le _) hj (h.fits_iff.mp hf).2
  obtain ⟨hf, ha⟩ := Runs.Alloc.alloc_of_firstFit hfirst
  refine ⟨hf, ha, ⟨by simp [h.size]; rfl, fun j hj => ?_⟩⟩
  simp only [Bitmap.test_setMultiple, Runs.Alloc.covered_take]
  split_ifs with hij
  · simp [hij]
  · rw [h.bits j hj]
    simp [hij]

/-- Every bit of a live run is set. -/
theorem Refines.all_live (h : pool.Refines A) {r : Runs.Run} (hr : r ∈ A.live) :
    pool.usedMap.all r.start r.len = some true := by
  have hin := A.inside r hr
  refine Bitmap.all_eq_some_true.mpr ⟨by rw [h.size]; exact hin, fun k hk => ?_⟩
  rw [h.bits _ (by omega)]
  exact decide_eq_true ⟨r, hr, Nat.le_add_right _ _, by omega⟩

/-- Clearing the bits of a live run pictures the allocator after `Alloc.free`. -/
theorem Refines.free (h : pool.Refines A) {r : Runs.Run} (hr : r ∈ A.live) :
    (⟨pool.usedMap.setMultiple r.start r.len false, pool.base⟩ : Pool).Refines (A.free r) where
  size := by simp [h.size]; rfl
  bits j hj := by
    simp only [Bitmap.test_setMultiple, Runs.Alloc.covered_free hr]
    split_ifs with hij
    · simp [Runs.Run.Mem, hij]
    · rw [h.bits j hj]
      simp [Runs.Run.Mem, hij]

end Pool

/-! ## A client of the page allocator -/

/-- The pages of a run of a pool's bits: its first page and its count. -/
def Pool.pages (pool : Pool) (r : Runs.Run) : Nat × Nat := (pool.base + pgSize * r.start, r.len)

/-- Two runs of pages, each a first page and a count, share no byte. -/
def PagesApart (r r' : Nat × Nat) : Prop :=
  ∀ a, r.1 ≤ a → a < r.1 + pgSize * r.2 → ¬ (r'.1 ≤ a ∧ a < r'.1 + pgSize * r'.2)

theorem PagesApart.symm {r r' : Nat × Nat} (h : PagesApart r r') : PagesApart r' r :=
  fun a h₁ h₂ hr => h a hr.1 hr.2 ⟨h₁, h₂⟩

instance : Std.Symm PagesApart := ⟨fun _ _ h => h.symm⟩

theorem Pool.pagesApart (pool : Pool) {r r' : Runs.Run} (h : r.Apart r') :
    PagesApart (pool.pages r) (pool.pages r') := by
  intro a h₁ h₂ h'
  simp only [Pool.pages, pgSize] at h₁ h₂ h'
  exact h ((a - pool.base) / 4096) ⟨by omega, by omega⟩ ⟨by omega, by omega⟩

/-- A client of the page allocator: the allocator, and the runs of pages it was
given and has not freed. -/
structure PallocSys where
  palloc : Palloc
  live : List (Nat × Nat)

/-- A call of the client. -/
inductive PallocCall where
  | getMultiple (flags : PallocFlags) (pageCnt : Nat)
  | freeMultiple (pages pageCnt : Nat)
  deriving DecidableEq, Repr

/-- One call; the client frees only a run it holds. -/
def PallocSys.step (S : PallocSys) : PallocCall → Option PallocSys
  | .getMultiple flags pageCnt =>
    (pallocGetMultiple S.palloc flags pageCnt).map fun (P, r) =>
      ⟨P, match r with
        | some pages => (pages, pageCnt) :: S.live
        | none => S.live⟩
  | .freeMultiple pages pageCnt =>
    if (pages, pageCnt) ∈ S.live then
      (pallocFreeMultiple S.palloc pages pageCnt).map fun P =>
        ⟨P, S.live.erase (pages, pageCnt)⟩
    else none

/-- The pools lie one after the other, page aligned, above `NULL`. -/
structure Palloc.Separated (P : Palloc) : Prop where
  kernel_pos : 0 < P.kernelPool.base
  kernel_ofs : pgOfs P.kernelPool.base = 0
  user_ofs : pgOfs P.userPool.base = 0
  apart : P.kernelPool.base + pgSize * P.kernelPool.usedMap.bitCnt ≤ P.userPool.base

/-- The runs of both pools as runs of pages, the kernel pool's first. -/
def Palloc.livePages (P : Palloc) (A : Bool → Runs.Alloc) : List (Nat × Nat) :=
  (A false).live.map ((P.pool false).pages) ++ (A true).live.map ((P.pool true).pages)

/-- The client's runs are those of two first-fit allocators, one per pool, that
the pools' bitmaps picture. -/
structure PallocSys.Inv (S : PallocSys) : Prop where
  separated : S.palloc.Separated
  pos : ∀ r ∈ S.live, 0 < r.2
  runs : ∃ A : Bool → Runs.Alloc, (∀ u, (S.palloc.pool u).Refines (A u)) ∧
    S.live.Perm (S.palloc.livePages A)

@[simp] theorem Palloc.setPool_pool (P : Palloc) (u : Bool) : P.setPool u (P.pool u) = P := by
  cases u <;> rfl

theorem Palloc.pool_setPool (P : Palloc) (u v : Bool) (p : Pool) :
    (P.setPool u p).pool v = if u = v then p else P.pool v := by
  cases u <;> cases v <;> rfl

/-- What a successful `palloc_get_multiple` did: nothing, or the run a scan
found, flipped. -/
theorem pallocGetMultiple_cases {P P' : Palloc} {flags : PallocFlags} {n : Nat} {r : Option Nat}
    (h : pallocGetMultiple P flags n = some (P', r)) :
    (P' = P ∧ r = none) ∨
      ∃ i, 0 < n ∧ (P.pool flags.palUser).usedMap.scan 0 n false = some i ∧
      P' = P.setPool flags.palUser
        ⟨(P.pool flags.palUser).usedMap.setMultiple i n true, (P.pool flags.palUser).base⟩ ∧
      r = some ((P.pool flags.palUser).base + pgSize * i) := by
  unfold pallocGetMultiple Bitmap.scanAndFlip at h
  by_cases hn : n = 0
  · simp only [hn, ↓reduceIte, Option.some.injEq, Prod.mk.injEq] at h
    exact .inl ⟨h.1.symm, h.2.symm⟩
  · rw [if_neg hn] at h
    cases hs : (P.pool flags.palUser).usedMap.scan 0 n false with
    | none =>
      cases ha : flags.palAssert
      · simp only [hs, ha, Bool.false_eq_true, ↓reduceIte, Option.some.injEq,
          Prod.mk.injEq] at h
        exact .inl ⟨by rw [← h.1]; exact Palloc.setPool_pool P _, h.2.symm⟩
      · simp [hs, ha] at h
    | some i =>
      simp only [hs, Option.some.injEq, Prod.mk.injEq] at h
      exact .inr ⟨i, Nat.pos_of_ne_zero hn, rfl, h.1.symm, h.2.symm⟩

/-- The pool a page of a run lies in is the one `palloc_free_multiple` finds. -/
theorem Palloc.Separated.owner {P : Palloc} (hP : P.Separated) {u : Bool} {s : Nat}
    (hs : s < (P.pool u).usedMap.bitCnt) :
    (if pageFromPool P.kernelPool ((P.pool u).base + pgSize * s) then some false
      else if pageFromPool P.userPool ((P.pool u).base + pgSize * s) then some true
      else none) = some u := by
  have hk := hP.kernel_ofs
  have hu := hP.user_ofs
  have ha := hP.apart
  simp only [pageFromPool, pgNo, pgOfs, pgSize] at hk hu ha ⊢
  cases u
  · simp only [Palloc.pool, Bool.false_eq_true, ↓reduceIte] at hs ⊢
    rw [if_pos (by simp only [decide_eq_true_eq]; omega)]
  · simp only [Palloc.pool, ↓reduceIte] at hs ⊢
    rw [if_neg (by simp only [decide_eq_true_eq]; omega),
      if_pos (by simp only [decide_eq_true_eq]; omega)]

/-- Each pool starts on a page boundary above `NULL`. -/
theorem Palloc.Separated.base {P : Palloc} (hP : P.Separated) (u : Bool) :
    0 < (P.pool u).base ∧ pgOfs (P.pool u).base = 0 := by
  cases u
  · exact ⟨hP.kernel_pos, hP.kernel_ofs⟩
  · exact ⟨Nat.lt_of_lt_of_le hP.kernel_pos (Nat.le_trans (Nat.le_add_right _ _) hP.apart),
      hP.user_ofs⟩

/-- `palloc_free_multiple` of a live run of a pool clears its bits. -/
theorem pallocFreeMultiple_live {P : Palloc} (hP : P.Separated) {u : Bool} {A : Runs.Alloc}
    (hA : (P.pool u).Refines A) {r : Runs.Run} (hr : r ∈ A.live) (hpos : 0 < r.len) :
    pallocFreeMultiple P ((P.pool u).base + pgSize * r.start) r.len =
      some (P.setPool u
        ⟨(P.pool u).usedMap.setMultiple r.start r.len false, (P.pool u).base⟩) := by
  have hin := A.inside r hr
  obtain ⟨hbase, hofs⟩ := hP.base u
  have hidx : pgNo ((P.pool u).base + pgSize * r.start) - pgNo (P.pool u).base = r.start := by
    simp only [pgOfs, pgNo, pgSize] at hofs ⊢
    omega
  unfold pallocFreeMultiple
  rw [if_neg (by simp only [pgOfs, pgSize] at hofs ⊢; omega),
    if_neg (by omega), hP.owner (by rw [hA.size]; omega)]
  simp only [hidx, hA.all_live hr]

/-! ## The client keeps the invariant -/

namespace Palloc

variable {P : Palloc} {A : Bool → Runs.Alloc}

theorem Separated.setPool (hP : P.Separated) {u : Bool} {m : Bitmap}
    (hc : m.bitCnt = (P.pool u).usedMap.bitCnt) :
    (P.setPool u ⟨m, (P.pool u).base⟩).Separated := by
  obtain ⟨h₁, h₂, h₃, h₄⟩ := hP
  cases u
  · simp only [pool, Bool.false_eq_true, ↓reduceIte] at hc
    exact ⟨h₁, h₂, h₃, hc ▸ h₄⟩
  · exact ⟨h₁, h₂, h₃, h₄⟩

theorem refines_setPool (hA : ∀ v, (P.pool v).Refines (A v)) {u : Bool} {p : Pool}
    {B : Runs.Alloc} (h : p.Refines B) (v : Bool) :
    ((P.setPool u p).pool v).Refines (Function.update A u B v) := by
  rw [pool_setPool]
  by_cases huv : u = v
  · subst huv
    simpa using h
  · simpa [huv, Function.update_of_ne (Ne.symm huv)] using hA v

theorem livePages_setPool (u : Bool) (m : Bitmap) :
    (P.setPool u ⟨m, (P.pool u).base⟩).livePages A = P.livePages A := by
  cases u <;> rfl

/-- The runs of a pool with one more run `r`. -/
theorem livePages_perm (A : Bool → Runs.Alloc) (u : Bool) {B C : Runs.Alloc} {r : Runs.Run}
    (h : C.live.Perm (r :: B.live)) :
    (P.livePages (Function.update A u C)).Perm
      ((P.pool u).pages r :: P.livePages (Function.update A u B)) := by
  cases u
  · simpa [livePages] using (h.map (P.pool false).pages).append_right _
  · simp only [livePages, Function.update_self, ne_eq, Bool.false_eq_true, not_false_eq_true,
      Function.update_of_ne]
    exact (((h.map _).append_left _).trans List.perm_middle)

theorem Separated.livePages_pairwise (hP : P.Separated) (hA : ∀ u, (P.pool u).Refines (A u)) :
    (P.livePages A).Pairwise PagesApart := by
  unfold livePages
  refine List.pairwise_append.mpr ⟨?_, ?_, ?_⟩
  · exact List.pairwise_map.mpr ((A false).apart.imp fun h => Pool.pagesApart _ h)
  · exact List.pairwise_map.mpr ((A true).apart.imp fun h => Pool.pagesApart _ h)
  · intro x hx y hy a h₁ h₂ hy'
    obtain ⟨r, hr, rfl⟩ := List.mem_map.mp hx
    obtain ⟨r', -, rfl⟩ := List.mem_map.mp hy
    have hin := (A false).inside r hr
    have hsz := (hA false).size
    have hap := hP.apart
    simp only [Pool.pages, pool, Bool.false_eq_true, ↓reduceIte, pgSize] at h₁ h₂ hy' hsz hap
    omega

end Palloc

namespace PallocSys

variable {S S' : PallocSys}

theorem Inv.getMultiple (h : S.Inv) {flags : PallocFlags} {n : Nat}
    (hs : S.step (.getMultiple flags n) = some S') : S'.Inv := by
  obtain ⟨⟨P', r⟩, hg, rfl⟩ := Option.map_eq_some_iff.mp hs
  obtain ⟨A, hA, hperm⟩ := h.runs
  rcases pallocGetMultiple_cases hg with ⟨rfl, rfl⟩ | ⟨i, hn, hsc, rfl, rfl⟩
  · exact h
  · obtain ⟨hf, -, hA'⟩ := (hA flags.palUser).scan_some hsc
    dsimp only
    refine ⟨h.separated.setPool (by simp), fun x hx => ?_,
      ⟨_, Palloc.refines_setPool hA hA', ?_⟩⟩
    · rcases List.mem_cons.mp hx with rfl | hx
      exacts [hn, h.pos x hx]
    · rw [Palloc.livePages_setPool]
      have := S.palloc.livePages_perm A flags.palUser (B := A flags.palUser)
        (C := (A flags.palUser).take i n hf) (r := ⟨i, n⟩) (List.Perm.refl _)
      rw [Function.update_eq_self] at this
      exact (hperm.cons _).trans this.symm

theorem Inv.freeMultiple (h : S.Inv) {pages n : Nat}
    (hs : S.step (.freeMultiple pages n) = some S') : S'.Inv := by
  simp only [step] at hs
  split_ifs at hs with hmem
  obtain ⟨P', hf, rfl⟩ := Option.map_eq_some_iff.mp hs
  obtain ⟨A, hA, hperm⟩ := h.runs
  obtain ⟨u, r, hr, hpr⟩ :
      ∃ u r, r ∈ (A u).live ∧ (S.palloc.pool u).pages r = (pages, n) := by
    rcases List.mem_append.mp (hperm.subset hmem) with hx | hx
    · obtain ⟨r, hr, he⟩ := List.mem_map.mp hx
      exact ⟨false, r, hr, he⟩
    · obtain ⟨r, hr, he⟩ := List.mem_map.mp hx
      exact ⟨true, r, hr, he⟩
  have hlen : r.len = n := congrArg Prod.snd hpr
  have hn : 0 < r.len := hlen ▸ h.pos _ hmem
  have hpg : pages = (S.palloc.pool u).base + pgSize * r.start := (congrArg Prod.fst hpr).symm
  rw [hpg, ← hlen, pallocFreeMultiple_live h.separated (hA u) hr hn, Option.some.injEq] at hf
  subst hf
  refine ⟨h.separated.setPool (by simp), fun x hx => h.pos x (List.mem_of_mem_erase hx),
    ⟨_, Palloc.refines_setPool hA ((hA u).free hr), ?_⟩⟩
  rw [Palloc.livePages_setPool]
  have h₁ := (List.perm_cons_erase hmem).symm.trans hperm
  have h₂ := S.palloc.livePages_perm A u (B := (A u).free r) (List.perm_cons_erase hr)
  rw [Function.update_eq_self, hpr] at h₂
  exact (h₁.trans h₂).cons_inv

theorem step_inv (h : S.Inv) {c : PallocCall} (hs : S.step c = some S') : S'.Inv := by
  cases c with
  | getMultiple flags n => exact h.getMultiple hs
  | freeMultiple pages n => exact h.freeMultiple hs

end PallocSys

/-! ## Boot -/

theorem initPool_some {base pageCnt : Nat} {mem : Nat → BitVec 32} {pool : Pool}
    (h : initPool base pageCnt mem = some pool) :
    ∃ bm, pool.base = base + bm * pgSize ∧ bm + pool.usedMap.bitCnt = pageCnt ∧
      ∀ i < pool.usedMap.bitCnt, pool.usedMap.test i = false := by
  simp only [initPool] at h
  split_ifs at h with hbm
  simp only [Option.some.injEq] at h
  subst h
  exact ⟨_, rfl, by simp; omega, fun i hi => Bitmap.test_createInBuf _ (by simpa using hi)⟩

/-- `palloc_init` lays the pools out one after the other, all their bits clear. -/
theorem pallocInit_some {initRamPages userPageLimit : Nat} {mem : Nat → BitVec 32} {P : Palloc}
    (h : pallocInit initRamPages userPageLimit mem = some P) :
    P.Separated ∧
      ∀ u, ∀ i < (P.pool u).usedMap.bitCnt, (P.pool u).usedMap.test i = false := by
  simp only [pallocInit, Option.bind_eq_bind, Option.bind_eq_some_iff, Option.pure_def,
    Option.some.injEq] at h
  obtain ⟨k, hk, u, hu, rfl⟩ := h
  obtain ⟨bk, hkb, hkc, hkt⟩ := initPool_some hk
  obtain ⟨bu, hub, -, hut⟩ := initPool_some hu
  refine ⟨⟨?_, ?_, ?_, ?_⟩, fun v => ?_⟩
  · simp only [hkb, ptov, physBase]
    omega
  · simp only [hkb, ptov, physBase, pgOfs, pgSize]
    omega
  · simp only [hub, ptov, physBase, pgOfs, pgSize]
    omega
  · simp only [hkb, hub, pgSize] at hkc ⊢
    omega
  · cases v
    exacts [hkt, hut]

theorem PallocSys.init_inv {initRamPages userPageLimit : Nat} {mem : Nat → BitVec 32}
    {P₀ : Palloc} (h₀ : pallocInit initRamPages userPageLimit mem = some P₀) :
    (⟨P₀, []⟩ : PallocSys).Inv := by
  obtain ⟨hsep, hclear⟩ := pallocInit_some h₀
  refine ⟨hsep, by simp, fun u => Runs.Alloc.empty (P₀.pool u).usedMap.bitCnt,
    fun u => ⟨rfl, fun i hi => ?_⟩, by simp [Palloc.livePages, Runs.Alloc.empty]⟩
  rw [hclear u i hi]
  simp [Runs.Alloc.empty, Runs.Covered]

namespace PallocSys.Inv

variable {S : PallocSys}

/-- No page is in two of the client's runs. -/
theorem pairwise (h : S.Inv) : S.live.Pairwise PagesApart := by
  obtain ⟨A, hA, hperm⟩ := h.runs
  exact hperm.symm.pairwise (h.separated.livePages_pairwise hA) fun h' => h'.symm

/-- The client holds each run once. -/
theorem nodup (h : S.Inv) : S.live.Nodup := by
  refine h.pairwise.imp_of_mem fun {x _} hx _ hxy he => ?_
  subst he
  have hpos := h.pos x hx
  exact hxy x.1 (Nat.le_refl _) (by simp only [pgSize]; omega)
    ⟨Nat.le_refl _, by simp only [pgSize]; omega⟩

/-- Every run the client holds starts on a page boundary above `NULL`. -/
theorem start (h : S.Inv) {p : Nat × Nat} (hp : p ∈ S.live) : 0 < p.1 ∧ pgOfs p.1 = 0 := by
  obtain ⟨A, -, hperm⟩ := h.runs
  obtain ⟨u, r, -, rfl⟩ : ∃ u, ∃ r ∈ (A u).live, (S.palloc.pool u).pages r = p := by
    rcases List.mem_append.mp (hperm.subset hp) with hx | hx
    · exact ⟨false, List.mem_map.mp hx⟩
    · exact ⟨true, List.mem_map.mp hx⟩
  obtain ⟨hbase, hofs⟩ := h.separated.base u
  simp only [Pool.pages, pgOfs, pgSize] at hofs ⊢
  omega

/-- Every run the client holds is freed as `palloc_free_multiple` should. -/
theorem free_spec (h : S.Inv) {p : Nat × Nat} (hp : p ∈ S.live) :
    S.palloc.FreeSpec p.1 p.2 (pallocFreeMultiple S.palloc p.1 p.2) := by
  obtain ⟨A, hA, hperm⟩ := h.runs
  obtain ⟨u, r, hr, rfl⟩ : ∃ u, ∃ r ∈ (A u).live, (S.palloc.pool u).pages r = p := by
    rcases List.mem_append.mp (hperm.subset hp) with hx | hx
    · exact ⟨false, List.mem_map.mp hx⟩
    · exact ⟨true, List.mem_map.mp hx⟩
  have hn : 0 < r.len := h.pos _ hp
  simp only [Pool.pages]
  rw [pallocFreeMultiple_live h.separated (hA u) hr hn]
  refine ⟨u, r.start, rfl, (Bitmap.all_eq_some_true.mp ((hA u).all_live hr)).2, by simp,
    by simp, by simp, fun j => ?_⟩
  simp [Bitmap.test_setMultiple]

/-- A `palloc_get_multiple` by the client keeps the invariant, with the run it
got. -/
theorem get (h : S.Inv) {flags : PallocFlags} {n : Nat} {P' : Palloc} {r : Option Nat}
    (hg : pallocGetMultiple S.palloc flags n = some (P', r)) :
    (⟨P', match r with
      | some pages => (pages, n) :: S.live
      | none => S.live⟩ : PallocSys).Inv :=
  step_inv h (c := .getMultiple flags n) (by cases r <;> simp [step, hg])

/-- The client can free a run it holds, and keeps the invariant. -/
theorem free (h : S.Inv) {p : Nat × Nat} (hp : p ∈ S.live) :
    ∃ P', pallocFreeMultiple S.palloc p.1 p.2 = some P' ∧
      (⟨P', S.live.erase p⟩ : PallocSys).Inv := by
  have hspec := h.free_spec hp
  rcases hf : pallocFreeMultiple S.palloc p.1 p.2 with _ | P'
  · rw [hf] at hspec
    exact hspec.elim
  · exact ⟨P', rfl, step_inv h (c := .freeMultiple p.1 p.2) (by simp [step, hp, hf])⟩

end PallocSys.Inv

/-- For every sequence of `palloc_get_multiple` and `palloc_free_multiple` calls
after `palloc_init`, freeing only runs handed out and not yet freed: the runs
handed out share no page; each request of `n ≥ 1` pages answers by first fit
over the bitmap of the pool it names (the lowest run of `n` clear bits, inside
the pool, now set), failing only when no such run exists; and each free of a
run held clears exactly its bits, all of which were set. -/
theorem palloc_first_fit (initRamPages userPageLimit : Nat) (mem : Nat → BitVec 32)
    {P₀ : Palloc} (h₀ : pallocInit initRamPages userPageLimit mem = some P₀) {S : PallocSys}
    (hS : Lts.Reachable PallocSys.step ⟨P₀, []⟩ S) :
    S.live.Pairwise PagesApart ∧
      (∀ flags n, 0 < n → S.palloc.GetSpec flags n (pallocGetMultiple S.palloc flags n)) ∧
      ∀ p ∈ S.live, S.palloc.FreeSpec p.1 p.2 (pallocFreeMultiple S.palloc p.1 p.2) := by
  have hI : S.Inv := Lts.Reachable.rec_inv (PallocSys.init_inv h₀)
    (fun _ _ _ hi hs => PallocSys.step_inv hi hs) hS
  exact ⟨hI.pairwise, fun flags n hn => pallocGetMultiple_spec _ flags hn,
    fun p hp => hI.free_spec hp⟩

/-- A machine with 8 free pages, 3 in each pool once the bitmaps have their page:
a kernel page and a run of two are taken, the single page is freed, and a user
page is taken. -/
theorem palloc_first_fit_after_calls :
    ∃ P₀ S, pallocInit 264 512 (fun _ => 0) = some P₀ ∧ Lts.Reachable PallocSys.step ⟨P₀, []⟩ S ∧
      S.live = [(3222294528, 1), (3222282240, 2)] ∧
      S.live.Pairwise PagesApart ∧
      (∀ flags n, 0 < n → S.palloc.GetSpec flags n (pallocGetMultiple S.palloc flags n)) ∧
      ∀ p ∈ S.live, S.palloc.FreeSpec p.1 p.2 (pallocFreeMultiple S.palloc p.1 p.2) := by
  obtain ⟨P₀, h₀⟩ : ∃ P₀, pallocInit 264 512 (fun _ => 0) = some P₀ := ⟨_, rfl⟩
  have hrun : (Lts.run PallocSys.step ⟨P₀, []⟩
      [.getMultiple ⟨false, false, false⟩ 1, .getMultiple ⟨false, false, false⟩ 2,
        .freeMultiple 3222278144 1, .getMultiple ⟨false, true, true⟩ 1]).map
      (fun S => decide (S.live = [(3222294528, 1), (3222282240, 2)])) = some true := by
    rw [Option.some.inj h₀.symm]
    decide +kernel
  obtain ⟨S, hS, hlive⟩ := Lts.exists_reachable_of_run_decide _ hrun
  exact ⟨P₀, S, h₀, hS, hlive, palloc_first_fit 264 512 (fun _ => 0) h₀ hS⟩

end Pintos.Threads

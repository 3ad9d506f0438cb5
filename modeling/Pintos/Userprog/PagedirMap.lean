import Mathlib
import Pintos.Userprog.Pagedir

/-!
# A page directory is a map from user pages to frames

What `pagedir_get_page` and `pagedir_set_page` keep in the words of a page
directory and its page tables is, for each user page, at most one frame and a
write bit (`pdMap`). `pagedir_get_page` reads that map and nothing else
(`pagedirGetPage_eq`). From a well-formed directory (`PdWf`: its page tables are
distinct kernel pages in use, other than the directory's own), `pagedir_set_page`
of an unmapped page never fails an assertion, adds exactly that mapping or, when
no page table can be had, changes nothing, and leaves the directory well-formed
and the user pool alone (`pagedirSetPage_spec`). `pagedir_create` gives a
well-formed directory with no user mapping (`pagedirCreate_spec`).

The pools are placed as `palloc_init` places them (`PoolsOk`): page-aligned,
at or above `PHYS_BASE`, below `2^32`, and apart.
-/

namespace Pintos.Userprog

open Pintos.Threads

/-! ## Entries -/

/-- A kernel virtual address of a page: aligned, at or above `PHYS_BASE`, below
`2^32`. -/
structure KPage (x : Nat) : Prop where
  aligned : pgOfs x = 0
  kernel : physBase ≤ x
  lt : x < 2 ^ 32

instance (x : Nat) : Decidable (KPage x) :=
  decidable_of_iff (pgOfs x = 0 ∧ physBase ≤ x ∧ x < 2 ^ 32)
    ⟨fun ⟨a, k, l⟩ => ⟨a, k, l⟩, fun ⟨a, k, l⟩ => ⟨a, k, l⟩⟩

/-- A kernel address, or one past it, is not a null pointer. -/
theorem add_ne_zero_of_kernel {x : Nat} (h : physBase ≤ x) (o : Nat) : x + o ≠ 0 := by
  unfold physBase at h
  omega

theorem KPage.ne_zero {x : Nat} (h : KPage x) : x ≠ 0 := add_ne_zero_of_kernel h.kernel 0

theorem KPage.vtop_eq {x : Nat} (hx : KPage x) : ∃ k, vtop x = 2 ^ 12 * k ∧ k < 2 ^ 20 := by
  have ha := hx.aligned
  have hk := hx.kernel
  have hl := hx.lt
  unfold pgOfs pgSize at ha
  unfold physBase at hk
  refine ⟨vtop x / 4096, ?_, ?_⟩ <;> unfold vtop physBase <;> omega

theorem testBit_pteAddr (j : Nat) : pteAddr.testBit j = decide (12 ≤ j ∧ j < 32) := by
  have h : pteAddr = 2 ^ 12 * (2 ^ 20 - 1) + 0 := by decide
  rw [h, Nat.testBit_two_pow_mul_add _ (by decide), Nat.testBit_two_pow_sub_one]
  by_cases hj : j < 12
  · simp [hj]
  · simp only [hj, if_false]
    exact decide_eq_decide.mpr (by omega)

/-- The flag bits of an entry fall outside `PTE_ADDR`. -/
theorem or_and_pteAddr {k f : Nat} (hk : k < 2 ^ 20) (hf : f < 2 ^ 12) :
    (2 ^ 12 * k ||| f) &&& pteAddr = 2 ^ 12 * k := by
  rw [← Nat.two_pow_add_eq_or_of_lt hf]
  apply Nat.eq_of_testBit_eq
  intro j
  rw [Nat.testBit_and, testBit_pteAddr, Nat.testBit_two_pow_mul_add _ hf,
    ← Nat.add_zero (2 ^ 12 * k), Nat.testBit_two_pow_mul_add _ (by decide)]
  by_cases hj : j < 12
  · simp [hj]
  · by_cases hj' : j < 32
    · simp [hj, hj']
      intro
      omega
    · have : k.testBit (j - 12) = false := Nat.testBit_eq_false_of_lt (by
        calc k < 2 ^ 20 := hk
          _ ≤ 2 ^ (j - 12) := Nat.pow_le_pow_right (by decide) (by omega))
      simp [hj, hj', this]

theorem ptov_or_and_pteAddr {x f : Nat} (hx : KPage x) (hf : f < 2 ^ 12) :
    ptov ((vtop x ||| f) &&& pteAddr) = x := by
  obtain ⟨k, hk, hlt⟩ := hx.vtop_eq
  have hkern := hx.kernel
  rw [hk, or_and_pteAddr hlt hf, ← hk]
  unfold ptov vtop
  omega

theorem pdeCreateUser_eq (pt : Nat) : pdeCreateUser pt = vtop pt ||| 7 := by
  unfold pdeCreateUser pteU pteP pteW
  rw [Nat.or_assoc, Nat.or_assoc]
  rfl

theorem pteCreateUser_eq (page : Nat) (writable : Bool) :
    pteCreateUser page writable = vtop page ||| (if writable then 7 else 5) := by
  unfold pteCreateUser pteP pteW pteU
  cases writable <;> simp only [Nat.or_assoc] <;> rfl

@[simp] theorem pdeGetPt_pdeCreateUser {pt : Nat} (h : KPage pt) :
    pdeGetPt (pdeCreateUser pt) = pt := by
  rw [pdeCreateUser_eq]
  exact ptov_or_and_pteAddr h (by decide)

theorem pdeCreateUser_ne_zero (pt : Nat) : pdeCreateUser pt ≠ 0 := by
  rw [pdeCreateUser_eq]
  have : 7 ≤ vtop pt ||| 7 := Nat.right_le_or
  omega

@[simp] theorem pteGetPage_pteCreateUser {page : Nat} (h : KPage page) (writable : Bool) :
    pteGetPage (pteCreateUser page writable) = page := by
  rw [pteCreateUser_eq]
  exact ptov_or_and_pteAddr h (by split <;> decide)

/-- The bit `i` of an entry below bit 12 is its flag's. -/
theorem testBit_vtop_or {x f : Nat} (hx : KPage x) (hf : f < 2 ^ 12) {i : Nat} (hi : i < 12) :
    (vtop x ||| f).testBit i = f.testBit i := by
  obtain ⟨k, hk, -⟩ := hx.vtop_eq
  rw [hk, ← Nat.two_pow_add_eq_or_of_lt hf, Nat.testBit_two_pow_mul_add _ hf, if_pos hi]

@[simp] theorem present_pteCreateUser {page : Nat} (h : KPage page) (writable : Bool) :
    present (pteCreateUser page writable) = true := by
  unfold present pteP
  rw [pteCreateUser_eq, show (1 : Nat) = 2 ^ 0 from rfl, Nat.and_two_pow,
    testBit_vtop_or h (by split <;> decide) (by decide)]
  cases writable <;> decide

@[simp] theorem pteCreateUser_writable {page : Nat} (h : KPage page) (writable : Bool) :
    (pteCreateUser page writable &&& pteW != 0) = writable := by
  unfold pteW
  rw [pteCreateUser_eq, show (2 : Nat) = 2 ^ 1 from rfl, Nat.and_two_pow,
    testBit_vtop_or h (by split <;> decide) (by decide)]
  cases writable <;> decide

@[simp] theorem present_zero : present 0 = false := rfl

theorem pdNo_eq (va : Nat) : pdNo va = pgNo va / 1024 := by
  unfold pdNo pgNo pgSize
  rw [Nat.div_div_eq_div_mul]
  norm_num

theorem ptNo_eq (va : Nat) : ptNo va = pgNo va % 1024 := rfl

/-- Two addresses inside two different pages differ. -/
theorem add_ne_add_of_ne {a b o o' : Nat} (ha : pgOfs a = 0) (hb : pgOfs b = 0) (hab : a ≠ b)
    (ho : o < pgSize) (ho' : o' < pgSize) : a + o ≠ b + o' := by
  unfold pgOfs pgSize at *
  omega

/-! ## The map -/

/-- The frame and write bit `pd` gives the user page numbered `p`: through the
directory entry of its 4 MB and the page table entry, when both are there. -/
def pdMap (K : KMem) (pd p : Nat) : Option (Nat × Bool) :=
  let pde := K.word (pd + 4 * (p / 1024))
  if pde = 0 then none else
  let pte := K.word (pdeGetPt pde + 4 * (p % 1024))
  if present pte then some (pteGetPage pte, pte &&& pteW != 0) else none

/-- The map at `p` reads two words: the directory entry and, when it is set, the
table entry. -/
theorem pdMap_congr {K K' : KMem} {pd p : Nat}
    (hpde : K'.word (pd + 4 * (p / 1024)) = K.word (pd + 4 * (p / 1024)))
    (hpte : K.word (pd + 4 * (p / 1024)) ≠ 0 →
      K'.word (pdeGetPt (K.word (pd + 4 * (p / 1024))) + 4 * (p % 1024)) =
        K.word (pdeGetPt (K.word (pd + 4 * (p / 1024))) + 4 * (p % 1024))) :
    pdMap K' pd p = pdMap K pd p := by
  unfold pdMap
  rw [hpde]
  by_cases h0 : K.word (pd + 4 * (p / 1024)) = 0
  · simp only [h0, if_true]
  · simp only [h0, if_false, hpte h0]

/-- `lookup_page` without `create` changes nothing and finds the table entry's
address, or a null pointer when the directory entry is empty. -/
theorem lookupPage_read (K : KMem) (pd va : Nat) :
    lookupPage K pd va false = some (K, if K.word (pd + 4 * pdNo va) = 0 then 0
      else pdeGetPt (K.word (pd + 4 * pdNo va)) + 4 * ptNo va) := by
  unfold lookupPage
  by_cases h0 : K.word (pd + 4 * pdNo va) = 0
  · simp only [Bool.false_eq_true, false_and, if_false, h0, if_true]
    rfl
  · simp only [Bool.false_eq_true, false_and, if_false, h0]
    rfl

/-- `pagedir_get_page` answers from the map: the frame's address at the offset,
or a null pointer. -/
theorem pagedirGetPage_eq (K : KMem) (pd : Nat) {uaddr : Nat} (hu : uaddr < physBase) :
    pagedirGetPage K pd uaddr =
      some ((pdMap K pd (pgNo uaddr)).elim 0 fun e => e.1 + pgOfs uaddr) := by
  have hnot : ¬ physBase ≤ uaddr := by omega
  simp only [pagedirGetPage, hnot, if_false, lookupPage_read, pdNo_eq, ptNo_eq, pdMap]
  simp only [Option.pure_def, Option.bind_eq_bind, Option.bind_some]
  by_cases h0 : K.word (pd + 4 * (pgNo uaddr / 1024)) = 0
  · simp only [h0, if_true, ne_eq, not_true_eq_false, false_and, if_false, Option.elim_none]
  · have hpt : pdeGetPt (K.word (pd + 4 * (pgNo uaddr / 1024))) + 4 * (pgNo uaddr % 1024) ≠ 0 := by
      unfold pdeGetPt ptov physBase
      omega
    by_cases hp : present (K.word (pdeGetPt (K.word (pd + 4 * (pgNo uaddr / 1024))) +
        4 * (pgNo uaddr % 1024))) = true
    · simp only [h0, if_false, hpt, hp, ne_eq, not_false_eq_true, and_self, if_true, Option.elim_some]
    · rw [Bool.not_eq_true] at hp
      simp only [h0, if_false, hp, Bool.false_eq_true, and_false, Option.elim_none]

/-! ## Pages from the pools -/

/-- A pool's pages are kernel pages: its first page aligned at or above
`PHYS_BASE`, its end at most `2^32`. -/
def PoolPlaced (pool : Pool) : Prop :=
  pgOfs pool.base = 0 ∧ physBase ≤ pool.base ∧ pool.base + pgSize * pool.usedMap.bitCnt ≤ 2 ^ 32

instance (pool : Pool) : Decidable (PoolPlaced pool) := inferInstanceAs (Decidable (_ ∧ _ ∧ _))

/-- The pools as `palloc_init` lays them out: each placed, and apart. -/
structure PoolsOk (P : Palloc) : Prop where
  placed : ∀ user, PoolPlaced (P.pool user)
  apart : (P.pool false).base + pgSize * (P.pool false).usedMap.bitCnt ≤ (P.pool true).base ∨
    (P.pool true).base + pgSize * (P.pool true).usedMap.bitCnt ≤ (P.pool false).base

theorem PoolsOk.kPage {P : Palloc} (h : PoolsOk P) (user : Bool) {i : Nat}
    (hi : i < (P.pool user).usedMap.bitCnt) : KPage ((P.pool user).base + pgSize * i) := by
  obtain ⟨ha, hk, hl⟩ := h.placed user
  unfold pgOfs pgSize at *
  refine ⟨?_, ?_, ?_⟩
  · unfold pgOfs pgSize
    omega
  · omega
  · have : 4096 * i + 4096 ≤ 4096 * (P.pool user).usedMap.bitCnt := by omega
    omega

/-- A page of the kernel pool and one of the user pool differ. -/
theorem PoolsOk.ne {P : Palloc} (h : PoolsOk P) {i j : Nat}
    (hi : i < (P.pool false).usedMap.bitCnt) (hj : j < (P.pool true).usedMap.bitCnt) :
    (P.pool false).base + pgSize * i ≠ (P.pool true).base + pgSize * j := by
  have := h.apart
  unfold pgSize at *
  have : 4096 * i + 4096 ≤ 4096 * (P.pool false).usedMap.bitCnt := by omega
  have : 4096 * j + 4096 ≤ 4096 * (P.pool true).usedMap.bitCnt := by omega
  omega

/-- Pools with the same pages lay out the same way. -/
theorem PoolsOk.of_shape {P P' : Palloc} (h : PoolsOk P)
    (hs : ∀ u, (P'.pool u).base = (P.pool u).base ∧
      (P'.pool u).usedMap.bitCnt = (P.pool u).usedMap.bitCnt) : PoolsOk P' := by
  refine ⟨fun u => ?_, ?_⟩
  · rw [PoolPlaced, (hs u).1, (hs u).2]
    exact h.placed u
  · rw [(hs false).1, (hs false).2, (hs true).1, (hs true).2]
    exact h.apart

/-- `pool'` is `pool` with its page `i`, free before, now in use. -/
structure PoolTakes (pool pool' : Pool) (i : Nat) : Prop where
  lt : i < pool.usedMap.bitCnt
  free : pool.usedMap.test i = false
  base_eq : pool'.base = pool.base
  bitCnt_eq : pool'.usedMap.bitCnt = pool.usedMap.bitCnt
  test_eq : ∀ j, pool'.usedMap.test j = (decide (j = i) || pool.usedMap.test j)

theorem palloc_ext_pool {P Q : Palloc} (ht : P.pool true = Q.pool true)
    (hf : P.pool false = Q.pool false) : P = Q := by
  cases P
  cases Q
  simp only [Palloc.pool, if_true, Bool.false_eq_true, if_false] at ht hf
  rw [ht, hf]

/-- `palloc_get_page (flags)` without `PAL_ASSERT`: a null pointer with nothing
changed, or a page `i` of the pool `flags` names, taken, with its words zeroed
under `PAL_ZERO`; the other pool is left alone. -/
theorem getPage_spec (K : KMem) (flags : PallocFlags) (ha : flags.palAssert = false) :
    ∃ K' page, K.getPage flags = some (K', page) ∧
      K'.palloc.pool (!flags.palUser) = K.palloc.pool (!flags.palUser) ∧
      ((page = 0 ∧ K' = K) ∨
        ∃ i, page = (K.palloc.pool flags.palUser).base + pgSize * i ∧
          PoolTakes (K.palloc.pool flags.palUser) (K'.palloc.pool flags.palUser) i ∧
          K'.word = if flags.palZero then
            (fun a => if page ≤ a ∧ a < page + pgSize then 0 else K.word a) else K.word) := by
  have hs := pallocGetMultiple_spec K.palloc flags (show 0 < 1 by decide)
  unfold KMem.getPage
  cases hg : pallocGetMultiple K.palloc flags 1 with
  | none =>
    rw [hg] at hs
    exact absurd hs.1 (by rw [ha]; decide)
  | some r =>
    obtain ⟨P', page?⟩ := r
    rw [hg] at hs
    obtain ⟨hother, hfit⟩ := hs
    cases page? with
    | none =>
      obtain ⟨-, hsame⟩ := hfit
      have hP : P' = K.palloc := by
        cases hu : flags.palUser
        · rw [hu] at hother hsame
          exact palloc_ext_pool hother hsame
        · rw [hu] at hother hsame
          exact palloc_ext_pool hsame hother
      refine ⟨K, 0, ?_, rfl, .inl ⟨rfl, rfl⟩⟩
      simp [hP]
    | some page =>
      obtain ⟨i, hpage, hin, hw, -, hbase, hcnt, htest⟩ := hfit
      refine ⟨_, page, rfl, hother, .inr ⟨i, hpage, ⟨by omega, ?_, hbase, hcnt, fun j => ?_⟩, rfl⟩⟩
      · simpa using hw 0 (by decide)
      · rw [htest j]
        by_cases hj : j = i
        · simp [hj]
        · simp only [hj, decide_false, Bool.false_or]
          rw [if_neg (by omega)]

/-! ## The invariant -/

/-- `x` is a page of `pool` in use. -/
def InUse (pool : Pool) (x : Nat) : Prop :=
  ∃ i, x = pool.base + pgSize * i ∧ i < pool.usedMap.bitCnt ∧ pool.usedMap.test i = true

/-- A page in use stays in use when another is taken. -/
theorem InUse.of_takes {pool pool' : Pool} {x i : Nat} (h : InUse pool x)
    (ht : PoolTakes pool pool' i) : InUse pool' x := by
  obtain ⟨j, rfl, hj, hused⟩ := h
  refine ⟨j, by rw [ht.base_eq], by rw [ht.bitCnt_eq]; exact hj, ?_⟩
  rw [ht.test_eq, hused, Bool.or_true]

/-- The page taken was not in use. -/
theorem InUse.ne_of_takes {pool pool' : Pool} {x i : Nat} (h : InUse pool x)
    (ht : PoolTakes pool pool' i) : x ≠ pool.base + pgSize * i := by
  obtain ⟨j, rfl, -, hused⟩ := h
  intro heq
  have hji : j = i := by
    unfold pgSize at heq
    omega
  rw [hji, ht.free] at hused
  exact Bool.false_ne_true hused

theorem inUse_of_takes {pool pool' : Pool} {i : Nat} (ht : PoolTakes pool pool' i) :
    InUse pool' (pool.base + pgSize * i) :=
  ⟨i, by rw [ht.base_eq], by rw [ht.bitCnt_eq]; exact ht.lt, by simp [ht.test_eq]⟩

theorem InUse.kPage {P : Palloc} {user : Bool} {x : Nat} (hP : PoolsOk P)
    (h : InUse (P.pool user) x) : KPage x := by
  obtain ⟨i, rfl, hi, -⟩ := h
  exact hP.kPage user hi

theorem InUse.ne_zero {P : Palloc} {user : Bool} {x : Nat} (hP : PoolsOk P)
    (h : InUse (P.pool user) x) : x ≠ 0 :=
  (h.kPage hP).ne_zero

/-- `palloc_free_page` of a page of the user pool in use passes its assertions:
the page is aligned, outside the kernel pool, and its bit is set. -/
theorem freePage_user (K : KMem) (hP : PoolsOk K.palloc) {x : Nat}
    (hx : InUse (K.palloc.pool true) x) : ∃ K', K.freePage x = some K' := by
  obtain ⟨i, rfl, hi, hused⟩ := hx
  have hy := hP.kPage true hi
  obtain ⟨hku, -, -⟩ := hP.placed true
  obtain ⟨hkk, -, -⟩ := hP.placed false
  have hap := hP.apart
  have hx0 : (K.palloc.pool true).base + pgSize * i ≠ 0 := hy.ne_zero
  have hpg : pgNo ((K.palloc.pool true).base + pgSize * i) = pgNo (K.palloc.pool true).base + i := by
    unfold pgNo pgOfs pgSize at *
    omega
  -- the page is the user pool's, not the kernel pool's
  have hkern : pageFromPool (K.palloc.pool false) ((K.palloc.pool true).base + pgSize * i) = false := by
    unfold pageFromPool
    rw [hpg, decide_eq_false_iff_not]
    unfold pgNo pgOfs pgSize at *
    omega
  have huser : pageFromPool (K.palloc.pool true) ((K.palloc.pool true).base + pgSize * i) = true := by
    unfold pageFromPool
    rw [hpg, decide_eq_true_iff]
    omega
  have hall : (K.palloc.pool true).usedMap.all i 1 = some true :=
    Pintos.Kernel.Bitmap.all_eq_some_true.mpr ⟨by omega, fun k hk => by
      rw [show i + k = i by omega]
      exact hused⟩
  have hfree : ∃ P, pallocFreeMultiple K.palloc ((K.palloc.pool true).base + pgSize * i) 1 =
      some P := by
    unfold pallocFreeMultiple
    rw [if_neg (by rw [hy.aligned]; exact fun h => h rfl), if_neg (by omega)]
    have hk : K.palloc.kernelPool = K.palloc.pool false := rfl
    have hu : K.palloc.userPool = K.palloc.pool true := rfl
    dsimp only
    rw [hk, hkern, hu, huser, if_neg Bool.false_ne_true, if_pos rfl]
    dsimp only
    rw [hpg, Nat.add_sub_cancel_left, hall]
    exact ⟨_, rfl⟩
  obtain ⟨P, hP⟩ := hfree
  exact ⟨_, by rw [KMem.freePage, hP, Option.map_some]⟩

/-- What `pagedir_set_page` needs of a directory and keeps: the pools placed,
the directory a kernel page in use, and each set user entry the entry of a page
table that is a kernel page in use, not the directory, and not another entry's. -/
structure PdWf (K : KMem) (pd : Nat) : Prop where
  pools : PoolsOk K.palloc
  pd_used : InUse (K.palloc.pool false) pd
  pde_ok : ∀ i < pdNo physBase, K.word (pd + 4 * i) ≠ 0 →
    ∃ pt, K.word (pd + 4 * i) = pdeCreateUser pt ∧ InUse (K.palloc.pool false) pt ∧ pt ≠ pd
  pde_inj : ∀ i < pdNo physBase, ∀ j < pdNo physBase, K.word (pd + 4 * i) ≠ 0 →
    K.word (pd + 4 * i) = K.word (pd + 4 * j) → i = j

theorem pdNo_physBase : pdNo physBase = 768 := by decide

/-- The entry of a user page lies in the directory's page. -/
theorem pde_lt {p : Nat} (hp : p < pgNo physBase) : 4 * (p / 1024) < pgSize := by
  unfold pgNo physBase pgSize at hp
  unfold pgSize
  omega

theorem pte_lt (p : Nat) : 4 * (p % 1024) < pgSize := by
  unfold pgSize
  omega

theorem ptNo_lt (va : Nat) : 4 * ptNo va < pgSize := pte_lt _


/-! ## `pagedir_set_page` -/

section SetPage

variable {K : KMem} {pd upage kpage : Nat}

@[simp] theorem KMem.store_palloc (K : KMem) (a v : Nat) : (K.store a v).palloc = K.palloc := rfl

theorem KMem.store_word (K : KMem) (a v b : Nat) :
    (K.store a v).word b = if b = a then v else K.word b := rfl

/-- `lookup_page` with `create` finds a directory entry that is set. -/
theorem lookupPage_create_of_ne (hva : va < physBase) (h0 : K.word (pd + 4 * pdNo va) ≠ 0) :
    lookupPage K pd va true = some (K, pdeGetPt (K.word (pd + 4 * pdNo va)) + 4 * ptNo va) := by
  have hnot : ¬ physBase ≤ va := by omega
  unfold lookupPage
  simp only [hnot, and_false, if_false, h0]
  rfl

/-- `lookup_page` with `create` on an empty directory entry: a zeroed page table
from the kernel pool, stored in the entry, or a null pointer. -/
theorem lookupPage_create_of_eq {K1 : KMem} {page : Nat} (hva : va < physBase)
    (h0 : K.word (pd + 4 * pdNo va) = 0) (hget : K.getPage ⟨false, true, false⟩ = some (K1, page)) :
    lookupPage K pd va true = if page = 0 then some (K1, 0) else
      some (K1.store (pd + 4 * pdNo va) (pdeCreateUser page),
        pdeGetPt (pdeCreateUser page) + 4 * ptNo va) := by
  have hnot : ¬ physBase ≤ va := by omega
  unfold lookupPage
  simp only [hnot, and_false, if_false, h0, if_true, hget, Option.pure_def, Option.bind_eq_bind,
    Option.bind_some]
  by_cases hp : page = 0
  · simp only [hp, if_true]
  · simp only [hp, if_false]
    rw [KMem.store_word, if_pos rfl]

/-- The table of a set user entry is a kernel page in use other than the
directory. -/
theorem PdWf.table (h : PdWf K pd) {i : Nat} (hi : i < pdNo physBase)
    (h0 : K.word (pd + 4 * i) ≠ 0) :
    ∃ pt, pdeGetPt (K.word (pd + 4 * i)) = pt ∧ K.word (pd + 4 * i) = pdeCreateUser pt ∧
      InUse (K.palloc.pool false) pt ∧ KPage pt ∧ pt ≠ pd := by
  obtain ⟨pt, hpt, hused, hne⟩ := h.pde_ok i hi h0
  have hkp := hused.kPage h.pools
  exact ⟨pt, by rw [hpt, pdeGetPt_pdeCreateUser hkp], hpt, hused, hkp, hne⟩

theorem pdNo_lt {upage : Nat} (hu : upage < physBase) : pdNo upage < pdNo physBase := by
  rw [pdNo_eq, pdNo_eq]
  unfold pgNo pgSize physBase at *
  omega

/-- The table entry of a user address whose table exists is not null. -/
theorem PdWf.pte_ne_zero (h : PdWf K pd) {va : Nat} (hu : va < physBase)
    (hpde : K.word (pd + 4 * pdNo va) ≠ 0) :
    pdeGetPt (K.word (pd + 4 * pdNo va)) + 4 * ptNo va ≠ 0 := by
  obtain ⟨pt, hget, -, -, hpt, -⟩ := h.table (pdNo_lt hu) hpde
  rw [hget]
  exact add_ne_zero_of_kernel hpt.kernel _

/-- The table entry of a user address whose table exists is none of the
directory's user entries. -/
theorem PdWf.pte_ne_pde (h : PdWf K pd) {va : Nat} (hu : va < physBase)
    (hpde : K.word (pd + 4 * pdNo va) ≠ 0) {i : Nat} (hi : i < pdNo physBase) :
    pdeGetPt (K.word (pd + 4 * pdNo va)) + 4 * ptNo va ≠ pd + 4 * i := by
  obtain ⟨pt, hget, -, -, hpt, hne⟩ := h.table (pdNo_lt hu) hpde
  rw [hget]
  apply add_ne_add_of_ne hpt.aligned (h.pd_used.kPage h.pools).aligned hne (pte_lt _)
  rw [pdNo_physBase] at hi
  unfold pgSize
  omega

theorem pgNo_lt_of_lt {a : Nat} (ha : a < physBase) : pgNo a < pgNo physBase := by
  unfold pgNo pgSize physBase at *
  omega

theorem pdNo_of_pgNo {p : Nat} (hp : p < pgNo physBase) : p / 1024 < pdNo physBase := by
  rw [pdNo_eq]
  unfold pgNo pgSize physBase at *
  omega

/-- Two user pages with the same directory and table indices are the same page. -/
theorem eq_of_div_mod {p q : Nat} (hdiv : p / 1024 = q / 1024) (hmod : p % 1024 = q % 1024) :
    p = q := by
  omega

/-- A store into the table entry of `upage`, whose table exists, keeps the
directory well-formed and changes the map only at `upage`'s page, to what the
stored entry says. -/
theorem PdWf.store_pte (h : PdWf K pd) (hu : upage < physBase)
    (hpde : K.word (pd + 4 * pdNo upage) ≠ 0) (v : Nat) :
    PdWf (K.store (pdeGetPt (K.word (pd + 4 * pdNo upage)) + 4 * ptNo upage) v) pd ∧
      ∀ p < pgNo physBase,
        pdMap (K.store (pdeGetPt (K.word (pd + 4 * pdNo upage)) + 4 * ptNo upage) v) pd p =
          if p = pgNo upage then
            (if present v then some (pteGetPage v, v &&& pteW != 0) else none)
          else pdMap K pd p := by
  obtain ⟨pt, hget, hword, hused, hpt, hne⟩ := h.table (pdNo_lt hu) hpde
  have hpd := h.pd_used.kPage h.pools
  -- the store lands in `pt`, away from the directory's entries
  have hpde_same : ∀ i < pdNo physBase,
      (K.store (pt + 4 * ptNo upage) v).word (pd + 4 * i) = K.word (pd + 4 * i) := by
    intro i hi
    rw [KMem.store_word, if_neg (Ne.symm (hget ▸ h.pte_ne_pde hu hpde hi))]
  rw [hget]
  refine ⟨⟨h.pools, h.pd_used, fun i hi h0 => ?_, fun i hi j hj h0 heq => ?_⟩, fun p hp => ?_⟩
  · rw [hpde_same i hi] at h0 ⊢
    exact h.pde_ok i hi h0
  · rw [hpde_same i hi, hpde_same j hj] at heq
    rw [hpde_same i hi] at h0
    exact h.pde_inj i hi j hj h0 heq
  have hpd_ne : pd + 4 * (p / 1024) ≠ pt + 4 * ptNo upage :=
    add_ne_add_of_ne hpd.aligned hpt.aligned (Ne.symm hne) (pde_lt hp) (pte_lt _)
  by_cases hpu : p = pgNo upage
  · subst hpu
    rw [if_pos rfl]
    unfold pdMap
    rw [KMem.store_word, if_neg hpd_ne, ← pdNo_eq, if_neg hpde, hget, ← ptNo_eq,
      KMem.store_word, if_pos rfl]
  · rw [if_neg hpu]
    apply pdMap_congr
    · rw [KMem.store_word, if_neg hpd_ne]
    · intro h0
      rw [KMem.store_word, if_neg]
      obtain ⟨pt', hget', hword', -, hpt', -⟩ := h.table (pdNo_of_pgNo hp) h0
      rw [hget']
      by_cases hsame : p / 1024 = pdNo upage
      · -- the same table: another entry of it
        have hpt_eq : pt' = pt := by rw [← hget', ← hget, hsame]
        rw [hpt_eq]
        intro heq
        apply hpu
        apply eq_of_div_mod
        · rw [hsame, pdNo_eq]
        · rw [← ptNo_eq]
          omega
      · -- another table
        have hne' : pt' ≠ pt := by
          intro heq
          apply hsame
          apply h.pde_inj _ (pdNo_of_pgNo hp) _ (pdNo_lt hu) h0
          rw [hword', hword, heq]
        exact add_ne_add_of_ne hpt'.aligned hpt.aligned hne' (pte_lt _) (pte_lt _)

/-- `pagedir_set_page` where the page's table exists: one store, into the table. -/
theorem pagedirSetPage_of_table (h : PdWf K pd) (hup : pgOfs upage = 0) (hu : upage < physBase)
    (hk : KPage kpage) (hfree : pdMap K pd (pgNo upage) = none) (w : Bool)
    (hpde : K.word (pd + 4 * pdNo upage) ≠ 0) :
    ∃ K', pagedirSetPage K pd upage kpage w = some (K', true) ∧ K'.palloc = K.palloc ∧
      PdWf K' pd ∧ ∀ p < pgNo physBase,
        pdMap K' pd p = if p = pgNo upage then some (kpage, w) else pdMap K pd p := by
  obtain ⟨pt, hget, -, -, hpt, -⟩ := h.table (pdNo_lt hu) hpde
  obtain ⟨hwf, hmap⟩ := h.store_pte hu hpde (pteCreateUser kpage w)
  rw [hget] at hwf hmap
  have hfresh : present (K.word (pt + 4 * ptNo upage)) = false := by
    unfold pdMap at hfree
    rw [← pdNo_eq, ← ptNo_eq, if_neg hpde, hget] at hfree
    by_cases hp : present (K.word (pt + 4 * ptNo upage)) = true
    · rw [if_pos hp] at hfree
      exact absurd hfree (by simp)
    · exact Bool.not_eq_true _ ▸ hp
  have hnz : pt + 4 * ptNo upage ≠ 0 := add_ne_zero_of_kernel hpt.kernel _
  refine ⟨K.store (pt + 4 * ptNo upage) (pteCreateUser kpage w), ?_, rfl, hwf, fun p hp => ?_⟩
  · have hcond : ¬ (pgOfs upage ≠ 0 ∨ pgOfs kpage ≠ 0 ∨ physBase ≤ upage) := by
      have := hk.aligned
      omega
    unfold pagedirSetPage
    simp only [hcond, if_false, lookupPage_create_of_ne hu hpde, hget, hnz, hfresh,
      Option.pure_def, Option.bind_eq_bind, Option.bind_some, Bool.false_eq_true]
  · rw [hmap p hp, present_pteCreateUser hk, if_pos rfl, pteGetPage_pteCreateUser hk,
      pteCreateUser_writable hk]

/-- An address inside one page is outside another. -/
theorem not_mem_page_of_ne {a b o : Nat} (ha : pgOfs a = 0) (hb : pgOfs b = 0) (hab : a ≠ b)
    (ho : o < pgSize) : ¬ (b ≤ a + o ∧ a + o < b + pgSize) := by
  unfold pgOfs pgSize at *
  omega

/-- `pagedir_set_page` where the page's table is missing: a page from the kernel
pool, zeroed, becomes the table, then the directory entry and the table entry
are stored; with no page to be had, nothing changes. -/
theorem pagedirSetPage_of_no_table (h : PdWf K pd) (hup : pgOfs upage = 0)
    (hu : upage < physBase) (hk : KPage kpage) (w : Bool)
    (hpde : K.word (pd + 4 * pdNo upage) = 0) :
    ∃ K' ok, pagedirSetPage K pd upage kpage w = some (K', ok) ∧
      K'.palloc.pool true = K.palloc.pool true ∧ PdWf K' pd ∧ ∀ p < pgNo physBase,
        pdMap K' pd p = if ok ∧ p = pgNo upage then some (kpage, w) else pdMap K pd p := by
  obtain ⟨K1, page, hgetp, hother, hcases⟩ :=
    getPage_spec K ⟨false, true, false⟩ rfl
  have hpd := h.pd_used.kPage h.pools
  have hcond : ¬ (pgOfs upage ≠ 0 ∨ pgOfs kpage ≠ 0 ∨ physBase ≤ upage) := by
    have := hk.aligned
    omega
  rcases hcases with ⟨rfl, rfl⟩ | ⟨i, hpage, htakes, hword1⟩
  · -- the kernel pool is full: `lookup_page` answers a null pointer
    refine ⟨_, false, ?_, rfl, h, fun p _ => by simp⟩
    unfold pagedirSetPage
    simp only [hcond, if_false, lookupPage_create_of_eq hu hpde hgetp, if_true,
      Option.pure_def, Option.bind_eq_bind, Option.bind_some, ne_eq]
  · rw [if_pos rfl] at hword1
    have hother : K1.palloc.pool true = K.palloc.pool true := hother
    have htakes : PoolTakes (K.palloc.pool false) (K1.palloc.pool false) i := htakes
    have hpage : page = (K.palloc.pool false).base + pgSize * i := hpage
    have hy : KPage page := hpage ▸ h.pools.kPage false htakes.lt
    have hy_pd : page ≠ pd := fun e => h.pd_used.ne_of_takes htakes (e ▸ hpage)
    have hy0 : page ≠ 0 := hy.ne_zero
    -- the words after the three writes, in the order they happen
    have hword3 : ∀ b,
        ((K1.store (pd + 4 * pdNo upage) (pdeCreateUser page)).store (page + 4 * ptNo upage)
          (pteCreateUser kpage w)).word b =
          if b = page + 4 * ptNo upage then pteCreateUser kpage w
          else if b = pd + 4 * pdNo upage then pdeCreateUser page
          else if page ≤ b ∧ b < page + pgSize then 0 else K.word b := by
      intro b
      rw [KMem.store_word, KMem.store_word, hword1]
    have hpde_ne : pd + 4 * pdNo upage ≠ page + 4 * ptNo upage :=
      add_ne_add_of_ne hpd.aligned hy.aligned (Ne.symm hy_pd)
        (by rw [pdNo_eq]; exact pde_lt (by unfold pgNo pgSize physBase at *; omega)) (pte_lt _)
    have hpte_ne : page + 4 * ptNo upage ≠ 0 := add_ne_zero_of_kernel hy.kernel _
    -- every entry of the new table is in its page
    have hin : ∀ q, page ≤ page + 4 * (q % 1024) ∧ page + 4 * (q % 1024) < page + pgSize :=
      fun q => ⟨by omega, by have := pte_lt q; omega⟩
    have hfresh : present ((K1.store (pd + 4 * pdNo upage) (pdeCreateUser page)).word
        (page + 4 * ptNo upage)) = false := by
      rw [KMem.store_word, if_neg (Ne.symm hpde_ne), hword1]
      dsimp only
      rw [ptNo_eq, if_pos (hin _)]
      rfl
    refine ⟨(K1.store (pd + 4 * pdNo upage) (pdeCreateUser page)).store (page + 4 * ptNo upage)
      (pteCreateUser kpage w), true, ?_, ?_, ?_, ?_⟩
    · unfold pagedirSetPage
      simp only [hcond, if_false, lookupPage_create_of_eq hu hpde hgetp, hy0,
        pdeGetPt_pdeCreateUser hy, hpte_ne, hfresh, Option.pure_def, Option.bind_eq_bind,
        Option.bind_some, Bool.false_eq_true]
    · exact hother
    · -- the directory's other entries keep their words
      have hkeep : ∀ j < pdNo physBase, j ≠ pdNo upage →
          ((K1.store (pd + 4 * pdNo upage) (pdeCreateUser page)).store (page + 4 * ptNo upage)
            (pteCreateUser kpage w)).word (pd + 4 * j) = K.word (pd + 4 * j) := by
        intro j hj hju
        have hj4 : 4 * j < pgSize := by
          rw [pdNo_physBase] at hj
          unfold pgSize
          omega
        rw [hword3, if_neg (add_ne_add_of_ne hpd.aligned hy.aligned (Ne.symm hy_pd) hj4 (ptNo_lt _)),
          if_neg (by omega), if_neg (not_mem_page_of_ne hpd.aligned hy.aligned (Ne.symm hy_pd) hj4)]
      have hnew : ((K1.store (pd + 4 * pdNo upage) (pdeCreateUser page)).store
          (page + 4 * ptNo upage) (pteCreateUser kpage w)).word (pd + 4 * pdNo upage) =
            pdeCreateUser page := by
        rw [hword3, if_neg hpde_ne, if_pos rfl]
      refine ⟨h.pools.of_shape fun u => ?_, h.pd_used.of_takes htakes, fun j hj h0 => ?_,
        fun j hj j' hj' h0 heq => ?_⟩
      · cases u
        · exact ⟨htakes.base_eq, htakes.bitCnt_eq⟩
        · exact ⟨congrArg Pool.base hother, congrArg (·.usedMap.bitCnt) hother⟩
      · by_cases hju : j = pdNo upage
        · subst hju
          rw [hnew]
          exact ⟨page, rfl, hpage ▸ inUse_of_takes htakes, hy_pd⟩
        · rw [hkeep j hj hju] at h0 ⊢
          obtain ⟨pt, hpt, hused, hne⟩ := h.pde_ok j hj h0
          exact ⟨pt, hpt, hused.of_takes htakes, hne⟩
      · -- the new table is no other entry's: it was free
        have hother_ne : ∀ k < pdNo physBase, k ≠ pdNo upage → K.word (pd + 4 * k) ≠ 0 →
            K.word (pd + 4 * k) ≠ pdeCreateUser page := by
          intro k hk hku h0 heq
          obtain ⟨pt, hpt, hused, -⟩ := h.pde_ok k hk h0
          apply hused.ne_of_takes htakes
          rw [← hpage, ← pdeGetPt_pdeCreateUser hy, ← heq, hpt,
            pdeGetPt_pdeCreateUser (hused.kPage h.pools)]
        by_cases hju : j = pdNo upage <;> by_cases hju' : j' = pdNo upage
        · rw [hju, hju']
        · rw [hju, hnew, hkeep j' hj' hju'] at heq
          exact absurd heq.symm (hother_ne j' hj' hju' (by rw [← heq]; exact pdeCreateUser_ne_zero _))
        · rw [hju', hnew, hkeep j hj hju] at heq
          rw [hkeep j hj hju] at h0
          exact absurd heq (hother_ne j hj hju h0)
        · rw [hkeep j hj hju, hkeep j' hj' hju'] at heq
          rw [hkeep j hj hju] at h0
          exact h.pde_inj j hj j' hj' h0 heq
    · intro p hp
      have hpd4 : 4 * (p / 1024) < pgSize := pde_lt hp
      have hpd_y : ∀ o < pgSize, ∀ o' < pgSize, pd + o ≠ page + o' :=
        fun o ho o' ho' => add_ne_add_of_ne hpd.aligned hy.aligned (Ne.symm hy_pd) ho ho'
      have hup4 : 4 * pdNo upage < pgSize := by
        rw [pdNo_eq]
        exact pde_lt (by unfold pgNo pgSize physBase at *; omega)
      by_cases hdiv : p / 1024 = pdNo upage
      · -- the new table: empty but for the new entry
        unfold pdMap
        rw [hword3, if_neg (hpd_y _ hpd4 _ (ptNo_lt _)), hdiv, if_pos rfl]
        simp only [pdeCreateUser_ne_zero, if_false, pdeGetPt_pdeCreateUser hy]
        by_cases hpu : p = pgNo upage
        · subst hpu
          rw [← ptNo_eq, hword3, if_pos rfl]
          simp only [present_pteCreateUser hk, if_true, pteGetPage_pteCreateUser hk,
            pteCreateUser_writable hk, and_self]
        · have hmod : p % 1024 ≠ ptNo upage := by
            intro hm
            apply hpu
            apply eq_of_div_mod
            · rw [hdiv, pdNo_eq]
            · rw [hm, ptNo_eq]
          have hne1 : page + 4 * (p % 1024) ≠ page + 4 * ptNo upage := by omega
          have hw0 : ((K1.store (pd + 4 * pdNo upage) (pdeCreateUser page)).store
              (page + 4 * ptNo upage) (pteCreateUser kpage w)).word (page + 4 * (p % 1024)) = 0 := by
            rw [hword3, if_neg hne1, if_neg (Ne.symm (hpd_y _ hup4 _ (pte_lt _))), if_pos (hin p)]
          rw [hw0]
          simp only [present_zero, Bool.false_eq_true, if_false, hpu, and_false, hpde, if_true]
      · have hpu : p ≠ pgNo upage := by
          intro e
          rw [e, ← pdNo_eq] at hdiv
          exact hdiv rfl
        rw [if_neg (by simp [hpu])]
        apply pdMap_congr
        · rw [hword3, if_neg (hpd_y _ hpd4 _ (ptNo_lt _)), if_neg (by omega),
            if_neg (not_mem_page_of_ne hpd.aligned hy.aligned (Ne.symm hy_pd) hpd4)]
        · intro h0
          obtain ⟨pt, hget, -, hused, hpt, hne⟩ := h.table (pdNo_of_pgNo hp) h0
          have hpt_y : pt ≠ page := fun e => hused.ne_of_takes htakes (e ▸ hpage)
          rw [hget, hword3,
            if_neg (add_ne_add_of_ne hpt.aligned hy.aligned hpt_y (pte_lt _) (ptNo_lt _)),
            if_neg (add_ne_add_of_ne hpt.aligned hpd.aligned hne (pte_lt _) hup4),
            if_neg (not_mem_page_of_ne hpt.aligned hy.aligned hpt_y (pte_lt _))]

/-- `pagedir_set_page (pd, upage, kpage, writable)` on a well-formed directory
where `upage` is unmapped: no assertion fails; the mapping is added (`true`), or
with no page for a table nothing changes (`false`); the directory stays
well-formed and the user pool is left alone. -/
theorem pagedirSetPage_spec (h : PdWf K pd) (hup : pgOfs upage = 0) (hu : upage < physBase)
    (hk : KPage kpage) (hfree : pdMap K pd (pgNo upage) = none) (w : Bool) :
    ∃ K' ok, pagedirSetPage K pd upage kpage w = some (K', ok) ∧
      K'.palloc.pool true = K.palloc.pool true ∧ PdWf K' pd ∧ ∀ p < pgNo physBase,
        pdMap K' pd p = if ok ∧ p = pgNo upage then some (kpage, w) else pdMap K pd p := by
  by_cases hpde : K.word (pd + 4 * pdNo upage) = 0
  · exact pagedirSetPage_of_no_table h hup hu hk w hpde
  · obtain ⟨K', hset, hpal, hwf, hmap⟩ := pagedirSetPage_of_table h hup hu hk hfree w hpde
    refine ⟨K', true, hset, by rw [hpal], hwf, fun p hp => ?_⟩
    rw [hmap p hp]
    simp only [true_and]

/-- A mapped frame is a kernel address: `pagedir_get_page` never answers a null
pointer for a mapped page. -/
theorem pdMap_frame_kernel {K : KMem} {pd p : Nat} {e : Nat × Bool} (h : pdMap K pd p = some e) :
    physBase ≤ e.1 := by
  unfold pdMap at h
  dsimp only at h
  split at h
  · cases h
  · split at h
    · cases h
      unfold pteGetPage ptov
      omega
    · cases h

end SetPage

/-! ## Writes elsewhere -/

/-- The map reads only words of kernel pages in use: the directory and its
tables. -/
theorem PdWf.pdMap_eq_of_words {K K' : KMem} {pd : Nat} (h : PdWf K pd)
    (hw : ∀ x o, InUse (K.palloc.pool false) x → o < pgSize → K'.word (x + o) = K.word (x + o)) :
    ∀ p < pgNo physBase, pdMap K' pd p = pdMap K pd p := by
  intro p hp
  apply pdMap_congr (hw _ _ h.pd_used (pde_lt hp))
  intro h0
  obtain ⟨pt, hget, -, hused, -, -⟩ := h.table (pdNo_of_pgNo hp) h0
  rw [hget]
  exact hw _ _ hused (pte_lt _)

/-- A directory stays well-formed through writes outside the kernel's pages in
use, with the kernel pool as it was. -/
theorem PdWf.of_words {K K' : KMem} {pd : Nat} (h : PdWf K pd) (hP : PoolsOk K'.palloc)
    (hpool : K'.palloc.pool false = K.palloc.pool false)
    (hw : ∀ x o, InUse (K.palloc.pool false) x → o < pgSize → K'.word (x + o) = K.word (x + o)) :
    PdWf K' pd := by
  have hpde : ∀ i < pdNo physBase, K'.word (pd + 4 * i) = K.word (pd + 4 * i) := fun i hi =>
    hw _ _ h.pd_used (by rw [pdNo_physBase] at hi; unfold pgSize; omega)
  refine ⟨hP, hpool ▸ h.pd_used, fun i hi h0 => ?_, fun i hi j hj h0 heq => ?_⟩
  · rw [hpde i hi] at h0 ⊢
    obtain ⟨pt, hpt, hused, hne⟩ := h.pde_ok i hi h0
    exact ⟨pt, hpt, hpool ▸ hused, hne⟩
  · rw [hpde i hi] at h0
    rw [hpde i hi, hpde j hj] at heq
    exact h.pde_inj i hi j hj h0 heq

/-! ## `pagedir_create` -/

/-- `pagedir_create ()`: a kernel page holding a copy of `init_page_dir`, whose
address is `initPageDir`; 0 for `NULL`. -/
def pagedirCreate (K : KMem) (initPageDir : Nat) : Option (KMem × Nat) := do
  let (K, pd) ← K.getPage ⟨false, false, false⟩
  if pd = 0 then return (K, pd)
  return (K.copyPage pd initPageDir, pd)

/-- `pagedir_create` from placed pools, with `init_page_dir` mapping no user
page: a null pointer with nothing changed, or a well-formed directory mapping no
user page; the user pool is left alone. -/
theorem pagedirCreate_spec (K : KMem) (initPageDir : Nat) (hP : PoolsOk K.palloc)
    (hinit : ∀ i < pdNo physBase, K.word (initPageDir + 4 * i) = 0) :
    ∃ K' pd, pagedirCreate K initPageDir = some (K', pd) ∧
      K'.palloc.pool true = K.palloc.pool true ∧
      (pd = 0 ∨ PdWf K' pd ∧ ∀ p < pgNo physBase, pdMap K' pd p = none) := by
  obtain ⟨K1, page, hgetp, hother, hcases⟩ :=
    getPage_spec K ⟨false, false, false⟩ rfl
  rcases hcases with ⟨rfl, hK⟩ | ⟨i, hpage, htakes, hword1⟩
  · subst hK
    refine ⟨_, 0, ?_, rfl, .inl rfl⟩
    simp only [pagedirCreate, hgetp, Option.pure_def, Option.bind_eq_bind, Option.bind_some,
      if_true]
  · rw [if_neg (by decide)] at hword1
    have hother : K1.palloc.pool true = K.palloc.pool true := hother
    have htakes : PoolTakes (K.palloc.pool false) (K1.palloc.pool false) i := htakes
    have hpage : page = (K.palloc.pool false).base + pgSize * i := hpage
    have hy : KPage page := hpage ▸ hP.kPage false htakes.lt
    have hy0 : page ≠ 0 := hy.ne_zero
    -- the copy's user entries are `init_page_dir`'s
    have hzero : ∀ j < pdNo physBase, (K1.copyPage page initPageDir).word (page + 4 * j) = 0 := by
      intro j hj
      have hj4 : 4 * j < pgSize := by
        rw [pdNo_physBase] at hj
        unfold pgSize
        omega
      show (if page ≤ page + 4 * j ∧ page + 4 * j < page + pgSize then
        K1.word (page + 4 * j - page + initPageDir) else K1.word (page + 4 * j)) = 0
      rw [if_pos ⟨by omega, by omega⟩, hword1, Nat.add_sub_cancel_left, Nat.add_comm]
      exact hinit j hj
    refine ⟨K1.copyPage page initPageDir, page, ?_, hother, .inr ⟨⟨?_, ?_, ?_, ?_⟩, ?_⟩⟩
    · simp only [pagedirCreate, hgetp, hy0, Option.pure_def, Option.bind_eq_bind,
        Option.bind_some, if_false]
    · refine hP.of_shape fun u => ?_
      cases u
      · exact ⟨htakes.base_eq, htakes.bitCnt_eq⟩
      · exact ⟨congrArg Pool.base hother, congrArg (·.usedMap.bitCnt) hother⟩
    · exact hpage ▸ inUse_of_takes htakes
    · intro j hj h0
      exact absurd (hzero j hj) h0
    · intro j hj _ _ h0
      exact absurd (hzero j hj) h0
    · intro p hp
      unfold pdMap
      rw [hzero _ (pdNo_of_pgNo hp), if_pos rfl]


/-! ## Set, then get -/

/-- A kernel memory as `palloc_init` could leave it: four free kernel pages at
`0xc0100000`, four free user pages at `0xc0200000`, every word zero. -/
def bootKMem : KMem :=
  ⟨⟨⟨⟨4, fun _ => 0#32⟩, 0xc0100000⟩, ⟨⟨4, fun _ => 0#32⟩, 0xc0200000⟩⟩, fun _ => 0⟩

theorem poolsOk_bootKMem : PoolsOk bootKMem.palloc :=
  ⟨fun u => by cases u <;> decide, by decide⟩

/-- `pagedir_set_page` returns only past its assertions on `upage`. -/
theorem pagedirSetPage_asserts {K : KMem} {pd upage kpage : Nat} {w : Bool} {r : KMem × Bool}
    (h : pagedirSetPage K pd upage kpage w = some r) : pgOfs upage = 0 ∧ upage < physBase := by
  unfold pagedirSetPage at h
  by_contra hc
  rw [if_pos (by omega)] at h
  cases h

end Pintos.Userprog

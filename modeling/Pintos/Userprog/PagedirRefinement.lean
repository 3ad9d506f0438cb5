import Mathlib
import Pintos.Userprog.PagedirMap
import Pintos.Lib.Simulation

/-!
# A page directory refines a map from user pages to frames

The calls a process makes on its page directory (`PdCall`) are
`pagedir_set_page`, `pagedir_clear_page`, `pagedir_get_page`,
`pagedir_set_dirty` and `pagedir_set_accessed`. Each is a step on the kernel's
memory (`pdStep`), `none` where an assertion fails; what a call answers is read
off the state it is made in (`pdEvent`). The abstract page directory is a map
from user page numbers to a frame and a write bit (`UserMap`), whose step
(`mapStep`) accepts a call only with the answer the map gives.

`pagedir_clear_page` leaves the map without the page (`pagedirClearPage_spec`);
setting the dirty or accessed bit leaves it as it is (`pagedirSetBit_spec`),
since those bits lie outside the frame, present and write bits. With
`pagedirSetPage_spec` and `pagedirGetPage_eq`, every call from a well-formed
directory is matched by the map (`pd_simulation`), so along any run of calls the
words of the directory and its tables read as the map the answers describe
(`pagedir_refines_map`).
-/

namespace Pintos.Userprog

open Pintos.Threads

/-! ## The bits beside the frame -/

section Bits

/-- Setting or clearing a bit outside the mask `m` leaves the bits under `m`. -/
theorem setBit_and (x : Nat) {bit m : Nat} (value : Bool) (h1 : bit &&& m = 0)
    (h2 : notMask bit &&& m = m) :
    (if value then x ||| bit else x &&& notMask bit) &&& m = x &&& m := by
  cases value
  · rw [if_neg Bool.false_ne_true, Nat.and_assoc, h2]
  · rw [if_pos rfl, Nat.and_or_distrib_right, h1, Nat.or_zero]

/-- A bit outside the address, present and write bits of an entry. -/
structure FlagBit (bit : Nat) : Prop where
  off_p : bit &&& pteP = 0
  keep_p : notMask bit &&& pteP = pteP
  off_w : bit &&& pteW = 0
  keep_w : notMask bit &&& pteW = pteW
  off_addr : bit &&& pteAddr = 0
  keep_addr : notMask bit &&& pteAddr = pteAddr

theorem flagBit_pteD : FlagBit pteD :=
  ⟨by decide +kernel, by decide +kernel, by decide +kernel, by decide +kernel, by decide +kernel,
    by decide +kernel⟩

theorem flagBit_pteA : FlagBit pteA :=
  ⟨by decide +kernel, by decide +kernel, by decide +kernel, by decide +kernel, by decide +kernel,
    by decide +kernel⟩

/-- The entry of a page after a flag bit is set or cleared maps the same frame
with the same write bit, or is still not present. -/
theorem FlagBit.entry {bit : Nat} (hb : FlagBit bit) (x : Nat) (value : Bool) :
    (if present (if value then x ||| bit else x &&& notMask bit) then
        some (pteGetPage (if value then x ||| bit else x &&& notMask bit),
          (if value then x ||| bit else x &&& notMask bit) &&& pteW != 0) else none) =
      if present x then some (pteGetPage x, x &&& pteW != 0) else none := by
  unfold present pteGetPage
  rw [setBit_and x value hb.off_p hb.keep_p, setBit_and x value hb.off_addr hb.keep_addr,
    setBit_and x value hb.off_w hb.keep_w]

theorem present_and_notMask_pteP (x : Nat) : present (x &&& notMask pteP) = false := by
  unfold present
  rw [Nat.and_assoc, show notMask pteP &&& pteP = 0 by decide +kernel, Nat.and_zero]
  rfl

end Bits

/-! ## Clearing a page and setting a flag -/

section Clear

variable {K : KMem} {pd : Nat}

/-- The map at a page whose directory entry is set: the entry of its table. -/
theorem pdMap_of_pde {va : Nat} (hpde : K.word (pd + 4 * pdNo va) ≠ 0) :
    pdMap K pd (pgNo va) =
      if present (K.word (pdeGetPt (K.word (pd + 4 * pdNo va)) + 4 * ptNo va)) then
        some (pteGetPage (K.word (pdeGetPt (K.word (pd + 4 * pdNo va)) + 4 * ptNo va)),
          K.word (pdeGetPt (K.word (pd + 4 * pdNo va)) + 4 * ptNo va) &&& pteW != 0)
      else none := by
  unfold pdMap
  rw [← pdNo_eq, if_neg hpde, ← ptNo_eq]

theorem pdMap_of_pde_eq_zero {va : Nat} (hpde : K.word (pd + 4 * pdNo va) = 0) :
    pdMap K pd (pgNo va) = none := by
  unfold pdMap
  rw [← pdNo_eq, if_pos hpde]

/-- **Clearing a page.** On a well-formed directory, `pagedir_clear_page` of an
aligned user page passes its assertions, keeps the directory well-formed and the
pools as they were, and removes exactly that page from the map. -/
theorem pagedirClearPage_spec (h : PdWf K pd) {upage : Nat} (hup : pgOfs upage = 0)
    (hu : upage < physBase) :
    ∃ K', pagedirClearPage K pd upage = some K' ∧ K'.palloc = K.palloc ∧ PdWf K' pd ∧
      ∀ p < pgNo physBase, pdMap K' pd p = if p = pgNo upage then none else pdMap K pd p := by
  have hcond : ¬ (pgOfs upage ≠ 0 ∨ physBase ≤ upage) := by omega
  unfold pagedirClearPage
  simp only [hcond, if_false, lookupPage_read, Option.pure_def, Option.bind_eq_bind,
    Option.bind_some]
  -- the page is unmapped already unless its entry exists and is present
  have hsame : pdMap K pd (pgNo upage) = none →
      ∀ p < pgNo physBase, pdMap K pd p = if p = pgNo upage then none else pdMap K pd p := by
    intro hnone p _
    split
    · subst_vars
      exact hnone
    · rfl
  by_cases hpde : K.word (pd + 4 * pdNo upage) = 0
  · simp only [hpde, if_true, ne_eq, not_true_eq_false, false_and, if_false]
    exact ⟨K, rfl, rfl, h, hsame (pdMap_of_pde_eq_zero hpde)⟩
  rw [if_neg hpde]
  have hnz := h.pte_ne_zero hu hpde
  by_cases hp : present (K.word (pdeGetPt (K.word (pd + 4 * pdNo upage)) + 4 * ptNo upage)) = true
  · obtain ⟨hwf, hmap⟩ := h.store_pte hu hpde
      (K.word (pdeGetPt (K.word (pd + 4 * pdNo upage)) + 4 * ptNo upage) &&& notMask pteP)
    refine ⟨_, if_pos ⟨hnz, hp⟩, rfl, hwf, fun p hp' => ?_⟩
    rw [hmap p hp', present_and_notMask_pteP]
    rfl
  · rw [if_neg (fun hc => hp hc.2)]
    refine ⟨K, rfl, rfl, h, hsame ?_⟩
    rw [pdMap_of_pde hpde, if_neg hp]

/-- **Setting a flag.** On a well-formed directory, `pagedir_set_dirty` and
`pagedir_set_accessed` on a user address keep the directory well-formed, the
pools as they were, and the map as it was. -/
theorem pagedirSetBit_spec (h : PdWf K pd) {bit vpage : Nat} (hb : FlagBit bit)
    (hv : vpage < physBase) (value : Bool) :
    ∃ K', pagedirSetBit bit K pd vpage value = some K' ∧ K'.palloc = K.palloc ∧ PdWf K' pd ∧
      ∀ p < pgNo physBase, pdMap K' pd p = pdMap K pd p := by
  unfold pagedirSetBit
  simp only [lookupPage_read, Option.pure_def, Option.bind_eq_bind, Option.bind_some]
  by_cases hpde : K.word (pd + 4 * pdNo vpage) = 0
  · simp only [hpde, if_true]
    exact ⟨K, rfl, rfl, h, fun _ _ => rfl⟩
  rw [if_neg hpde, if_neg (h.pte_ne_zero hv hpde)]
  obtain ⟨hwf, hmap⟩ := h.store_pte hv hpde (if value then
    K.word (pdeGetPt (K.word (pd + 4 * pdNo vpage)) + 4 * ptNo vpage) ||| bit else
    K.word (pdeGetPt (K.word (pd + 4 * pdNo vpage)) + 4 * ptNo vpage) &&& notMask bit)
  refine ⟨_, rfl, rfl, hwf, fun p hp => ?_⟩
  rw [hmap p hp]
  split
  · subst_vars
    rw [hb.entry, pdMap_of_pde hpde]
  · rfl

end Clear

/-! ## The refinement -/

section Refinement

/-- The abstract page directory: a frame and a write bit for each user page
number that is mapped. -/
abbrev UserMap := Nat → Option (Nat × Bool)

/-- A call a process makes on its page directory. -/
inductive PdCall where
  | setPage (upage kpage : Nat) (writable : Bool)
  | clearPage (upage : Nat)
  | getPage (uaddr : Nat)
  | setDirty (vpage : Nat) (dirty : Bool)
  | setAccessed (vpage : Nat) (accessed : Bool)

/-- A call with what it answered: whether `pagedir_set_page` made the mapping,
the address `pagedir_get_page` gave. -/
inductive PdEvent where
  | setPage (upage kpage : Nat) (writable ok : Bool)
  | clearPage (upage : Nat)
  | getPage (uaddr r : Nat)
  | setDirty (vpage : Nat) (dirty : Bool)
  | setAccessed (vpage : Nat) (accessed : Bool)

/-- A call on the directory `pd`: the memory after it, `none` where an
assertion fails. -/
def pdStep (pd : Nat) (K : KMem) : PdCall → Option KMem
  | .setPage upage kpage writable => (pagedirSetPage K pd upage kpage writable).map Prod.fst
  | .clearPage upage => pagedirClearPage K pd upage
  | .getPage uaddr => (pagedirGetPage K pd uaddr).map fun _ => K
  | .setDirty vpage dirty => pagedirSetDirty K pd vpage dirty
  | .setAccessed vpage accessed => pagedirSetAccessed K pd vpage accessed

/-- A call with the answer it gets in `K`. -/
def pdEvent (pd : Nat) (K : KMem) : PdCall → PdEvent
  | .setPage upage kpage writable =>
    .setPage upage kpage writable ((pagedirSetPage K pd upage kpage writable).elim false Prod.snd)
  | .clearPage upage => .clearPage upage
  | .getPage uaddr => .getPage uaddr ((pagedirGetPage K pd uaddr).getD 0)
  | .setDirty vpage dirty => .setDirty vpage dirty
  | .setAccessed vpage accessed => .setAccessed vpage accessed

/-- The map's step: a page is set only where none is, and then only when the
call answered that it was; a read answers the frame at the offset, or a null
pointer. -/
def mapStep (M : UserMap) : PdEvent → Option UserMap
  | .setPage upage kpage writable ok =>
    if M (pgNo upage) ≠ none then none
    else some (if ok then Function.update M (pgNo upage) (some (kpage, writable)) else M)
  | .clearPage upage => some (Function.update M (pgNo upage) none)
  | .getPage uaddr r =>
    if r = (M (pgNo uaddr)).elim 0 (fun e => e.1 + pgOfs uaddr) then some M else none
  | .setDirty _ _ => some M
  | .setAccessed _ _ => some M

/-- The calls the refinement speaks of: the frame handed to `pagedir_set_page`
is a kernel page, and the flags are set on user addresses. -/
def CallOk : PdCall → Prop
  | .setPage _ kpage _ => KPage kpage
  | .setDirty vpage _ => vpage < physBase
  | .setAccessed vpage _ => vpage < physBase
  | _ => True

instance : DecidablePred CallOk := fun c => by
  cases c <;> unfold CallOk <;> infer_instance

/-- The words of a well-formed directory read as the map on user pages. -/
def PdAbs (pd : Nat) (K : KMem) (M : UserMap) : Prop :=
  PdWf K pd ∧ ∀ p < pgNo physBase, pdMap K pd p = M p

variable {K : KMem} {pd : Nat}

theorem pagedirClearPage_asserts {upage : Nat} {K' : KMem}
    (h : pagedirClearPage K pd upage = some K') : pgOfs upage = 0 ∧ upage < physBase := by
  unfold pagedirClearPage at h
  by_contra hc
  rw [if_pos (by omega)] at h
  cases h

theorem pagedirGetPage_asserts {uaddr r : Nat} (h : pagedirGetPage K pd uaddr = some r) :
    uaddr < physBase := by
  unfold pagedirGetPage at h
  by_contra hc
  rw [if_pos (by omega)] at h
  cases h

/-- `pagedir_set_page` of a page that is mapped fails its assertion. -/
theorem pagedirSetPage_of_mapped (h : PdWf K pd) {upage kpage : Nat} (hu : upage < physBase)
    (hm : pdMap K pd (pgNo upage) ≠ none) (w : Bool) : pagedirSetPage K pd upage kpage w = none := by
  have hpde : K.word (pd + 4 * pdNo upage) ≠ 0 := fun h0 => hm (pdMap_of_pde_eq_zero h0)
  obtain ⟨pt, hget, -, -, hpt, -⟩ := h.table (pdNo_lt hu) hpde
  have hp : present (K.word (pt + 4 * ptNo upage)) = true := by
    by_contra hp
    rw [pdMap_of_pde hpde, hget, if_neg hp] at hm
    exact hm rfl
  unfold pagedirSetPage
  by_cases hcond : pgOfs upage ≠ 0 ∨ pgOfs kpage ≠ 0 ∨ physBase ≤ upage
  · rw [if_pos hcond]
    rfl
  · simp only [hcond, if_false, lookupPage_create_of_ne hu hpde, hget,
      add_ne_zero_of_kernel hpt.kernel, hp, Option.pure_def, Option.bind_eq_bind,
      Option.bind_some, if_true, Option.bind_none]

/-- Setting a flag keeps the words reading as the same map. -/
theorem PdAbs.setBit {M : UserMap} {bit vpage : Nat} {value : Bool} {K' : KMem}
    (hA : PdAbs pd K M) (hb : FlagBit bit) (hv : vpage < physBase)
    (hset : pagedirSetBit bit K pd vpage value = some K') : PdAbs pd K' M := by
  obtain ⟨K2, hset2, -, hwf2, hmap2⟩ := pagedirSetBit_spec hA.1 hb hv value
  rw [hset2, Option.some.injEq] at hset
  subst hset
  exact ⟨hwf2, fun p hp => (hmap2 p hp).trans (hA.2 p hp)⟩

/-- Every call from a well-formed directory is matched by the map, with the
answer the directory gave. -/
theorem pd_simulation (pd : Nat) :
    Lts.SimulationOn CallOk (pdStep pd) mapStep (pdEvent pd) (PdAbs pd) := by
  intro K M c K' hok ⟨hwf, hagree⟩ hstep
  cases c with
  | setPage upage kpage w =>
    obtain ⟨⟨K1, ok⟩, hset, rfl⟩ := Option.map_eq_some_iff.mp hstep
    obtain ⟨hup, hu⟩ := pagedirSetPage_asserts hset
    have hu' := pgNo_lt_of_lt hu
    by_cases hm : pdMap K pd (pgNo upage) = none
    · obtain ⟨K2, ok2, hset2, -, hwf2, hmap2⟩ := pagedirSetPage_spec hwf hup hu hok hm w
      rw [hset2, Option.some.injEq, Prod.mk.injEq] at hset
      obtain ⟨rfl, rfl⟩ := hset
      refine ⟨if ok2 then Function.update M (pgNo upage) (some (kpage, w)) else M, ?_, hwf2,
        fun p hp => ?_⟩
      · simp only [mapStep, pdEvent, hset2, Option.elim_some, ← hagree _ hu', hm, ne_eq,
          not_true_eq_false, if_false]
      · rw [hmap2 p hp]
        cases ok2 <;> simp [Function.update_apply, hagree p hp]
    · rw [pagedirSetPage_of_mapped hwf hu hm w] at hset
      cases hset
  | clearPage upage =>
    obtain ⟨hup, hu⟩ := pagedirClearPage_asserts hstep
    obtain ⟨K2, hclear, -, hwf2, hmap2⟩ := pagedirClearPage_spec hwf hup hu
    rw [pdStep, hclear, Option.some.injEq] at hstep
    subst hstep
    refine ⟨_, rfl, hwf2, fun p hp => ?_⟩
    rw [hmap2 p hp, Function.update_apply]
    split
    · rfl
    · exact hagree p hp
  | getPage uaddr =>
    obtain ⟨r, hget, rfl⟩ := Option.map_eq_some_iff.mp hstep
    have hu := pagedirGetPage_asserts hget
    refine ⟨M, ?_, hwf, hagree⟩
    rw [pdEvent, hget, Option.getD_some, mapStep, if_pos]
    rw [pagedirGetPage_eq K pd hu, hagree _ (pgNo_lt_of_lt hu)] at hget
    exact (Option.some.inj hget).symm
  | setDirty vpage dirty => exact ⟨M, rfl, PdAbs.setBit ⟨hwf, hagree⟩ flagBit_pteD hok hstep⟩
  | setAccessed vpage accessed => exact ⟨M, rfl, PdAbs.setBit ⟨hwf, hagree⟩ flagBit_pteA hok hstep⟩

/-- **The page directory refines a map.** From a well-formed directory, along
any run of calls whose frames are kernel pages and whose flags are set on user
addresses, the map takes the same calls with the same answers and ends with
the directory well-formed and its words reading as the map: `pagedir_get_page`
answered every read from the map, `pagedir_set_page` set only unmapped pages,
`pagedir_clear_page` removed its page and the flag setters changed no mapping. -/
theorem pagedir_refines_map (hwf : PdWf K pd) {calls : List PdCall} {K' : KMem}
    (hok : ∀ c ∈ calls, CallOk c) (hrun : Lts.run (pdStep pd) K calls = some K') :
    ∃ M', Lts.run mapStep (pdMap K pd) (Lts.mapRun (pdStep pd) (pdEvent pd) K calls) = some M' ∧
      PdWf K' pd ∧ ∀ p < pgNo physBase, pdMap K' pd p = M' p :=
  (pd_simulation pd).run hok ⟨hwf, fun _ _ => rfl⟩ hrun

/-- Map a page, read it, mark it dirty, clear it and read it again. -/
def demoCalls : List PdCall :=
  [.setPage 0x08048000 0xc0201000 true, .getPage 0x08048010, .setDirty 0x08048000 true,
    .clearPage 0x08048000, .getPage 0x08048010]

theorem pagedir_refines_map_boot : ∃ K pd K', pagedirCreate bootKMem 0 = some (K, pd) ∧
    Lts.run (pdStep pd) K demoCalls = some K' ∧
    ∃ M', Lts.run mapStep (pdMap K pd) (Lts.mapRun (pdStep pd) (pdEvent pd) K demoCalls) =
      some M' ∧ PdWf K' pd ∧ ∀ p < pgNo physBase, pdMap K' pd p = M' p := by
  obtain ⟨K, pd, hc, -, hcases⟩ := pagedirCreate_spec bootKMem 0 poolsOk_bootKMem fun _ _ => rfl
  have hcreate : (pagedirCreate bootKMem 0).map Prod.snd = some 0xc0100000 := by decide +kernel
  have hrun : ((pagedirCreate bootKMem 0).bind fun r =>
      Lts.run (pdStep r.2) r.1 demoCalls).isSome = true := by
    decide +kernel
  rw [hc, Option.map_some, Option.some.injEq] at hcreate
  rw [hc, Option.bind_some] at hrun
  obtain ⟨K', hK'⟩ := Option.isSome_iff_exists.mp hrun
  rcases hcases with rfl | ⟨hwf, -⟩
  · exact absurd hcreate (by simp)
  exact ⟨K, pd, K', hc, hK', pagedir_refines_map hwf (by decide) hK'⟩

end Refinement

end Pintos.Userprog

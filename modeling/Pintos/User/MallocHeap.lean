import Pintos.User.MallocCoalesce

/-!
# The allocator keeps the heap well formed

`find_fit` returns only blocks from the lists that fit (`Heap.findFit_some`);
`place`, `free` and `extend_heap` keep the layout, the last two through
`coalesce` (`Layout.place`, `Layout.free`, `Layout.extendHeap`), and `mm_init`
sets one up. So once `heap_listp` is set, every state a program reaches by
`malloc` and `free` has a well-formed heap.
-/

namespace Pintos.User

variable {H : Heap} {live : List Nat} {L L₁ L₂ : List Blk}

/-! ## `find_fit` -/

namespace Heap

theorem findFitIn_some {asize bp c c' : Nat} {l : List Nat}
    (h : H.findFitIn asize l c = (some bp, c')) : bp ∈ l ∧ asize ≤ H.blkSize bp := by
  induction l generalizing c with
  | nil => simp [findFitIn] at h
  | cons b l ih =>
    simp only [findFitIn] at h
    split_ifs at h with h₁ h₂
    · simp only [Prod.mk.injEq, Option.some.injEq] at h
      exact h.1 ▸ ⟨List.mem_cons_self, h₁⟩
    · simp at h
    · exact ⟨List.mem_cons_of_mem b (ih h).1, (ih h).2⟩

theorem findFitFrom_some {asize bp c : Nat} {l : List Nat}
    (h : H.findFitFrom asize l c = some bp) : ∃ i, bp ∈ H.segList i ∧ asize ≤ H.blkSize bp := by
  induction l generalizing c with
  | nil => simp [findFitFrom] at h
  | cons i l ih =>
    rcases hf : H.findFitIn asize (H.segList i) c with ⟨_ | b, c'⟩
    · simp only [findFitFrom, hf] at h
      exact ih h
    · simp only [findFitFrom, hf, Option.some.injEq] at h
      exact ⟨i, h ▸ findFitIn_some hf⟩

/-- `find_fit` returns a block from one of the lists, of at least `asize` words. -/
theorem findFit_some {asize bp : Nat} (h : H.findFit asize = some bp) :
    ∃ i, bp ∈ H.segList i ∧ asize ≤ H.blkSize bp :=
  findFitFrom_some h

theorem getNonEmptyListFrom_le_length (s : Nat) (bounds : List Nat) (i : Nat) :
    H.getNonEmptyListFrom s bounds i ≤ i + bounds.length := by
  induction bounds generalizing i with
  | nil => simp [getNonEmptyListFrom]
  | cons bound bounds ih =>
    simp only [getNonEmptyListFrom, List.length_cons]
    split
    · omega
    · have := ih (i + 1)
      omega

/-- The scan stops at the first list that passes its test, so at or before any
list `j` that passes it. -/
theorem getNonEmptyListFrom_le {s i j : Nat} {bounds : List Nat} (hij : i ≤ j)
    (hj : j < i + bounds.length) (hs : s ≤ bounds.getD (j - i) 0) (hne : H.segList j ≠ []) :
    H.getNonEmptyListFrom s bounds i ≤ j := by
  induction bounds generalizing i with
  | nil =>
    simp only [List.length_nil] at hj
    omega
  | cons bound bounds ih =>
    simp only [getNonEmptyListFrom]
    split
    · exact hij
    · rename_i hfail
      rcases Nat.eq_or_lt_of_le hij with rfl | hlt
      · simp only [Nat.sub_self, List.getD_cons_zero] at hs
        exact absurd ⟨hs, hne⟩ hfail
      · apply ih (by omega) (by simp only [List.length_cons] at hj; omega)
        rwa [show j - i = j - (i + 1) + 1 by omega, List.getD_cons_succ] at hs

end Heap

/-- Every list but the last holds only blocks up to the bound `get_non_empty_list`
tests it against. -/
theorem le_nonEmptyBound {b : Nat} (h : getList b < 15) :
    b ≤ nonEmptyBounds.getD (getList b) 0 := by
  -- `split` on this cascade sends `simp` into a loop, so each test is taken in turn
  delta getList at h ⊢
  by_cases h15 : b ≥ 32768
  · rw [if_pos h15] at h; omega
  rw [if_neg h15]
  by_cases h14 : b ≥ 16384
  · rw [if_pos h14]; show b ≤ 32768; omega
  rw [if_neg h14]
  by_cases h13 : b ≥ 8192
  · rw [if_pos h13]; show b ≤ 16384; omega
  rw [if_neg h13]
  by_cases h12 : b ≥ 4096
  · rw [if_pos h12]; show b ≤ 8192; omega
  rw [if_neg h12]
  by_cases h11 : b ≥ 2048
  · rw [if_pos h11]; show b ≤ 4096; omega
  rw [if_neg h11]
  by_cases h10 : b ≥ 1024
  · rw [if_pos h10]; show b ≤ 2048; omega
  rw [if_neg h10]
  by_cases h9 : b ≥ 512
  · rw [if_pos h9]; show b ≤ 1024; omega
  rw [if_neg h9]
  by_cases h8 : b ≥ 256
  · rw [if_pos h8]; show b ≤ 512; omega
  rw [if_neg h8]
  by_cases h7 : b > 128
  · rw [if_pos h7]; show b ≤ 960; omega
  rw [if_neg h7]
  by_cases h6 : b ≥ 64
  · rw [if_pos h6]; show b ≤ 640; omega
  rw [if_neg h6]
  by_cases h5 : b ≥ 32
  · rw [if_pos h5]; show b ≤ 320; omega
  rw [if_neg h5]
  by_cases h4 : b ≥ 16
  · rw [if_pos h4]; show b ≤ 160; omega
  rw [if_neg h4]
  by_cases h3 : b ≥ 8
  · rw [if_pos h3]; show b ≤ 80; omega
  rw [if_neg h3]
  by_cases h2 : b ≥ 4
  · rw [if_pos h2]; show b ≤ 48; omega
  rw [if_neg h2]
  by_cases h1 : b ≥ 2
  · rw [if_pos h1]; show b ≤ 24; omega
  rw [if_neg h1]
  show b ≤ 8
  omega

/-- When each free block sits on the list of its size, the search of `find_fit`
starts at or before every list that holds a block of at least `s` words, and
what it returns is such a block. -/
theorem non_empty_list_never_past_fit (H : Heap) (s : Nat)
    (hcls : ∀ i, ∀ bp ∈ H.segList i, getList (H.blkSize bp) = i) :
    (∀ i, ∀ bp ∈ H.segList i, s ≤ H.blkSize bp → H.getNonEmptyList s ≤ i) ∧
      ∀ bp, H.findFit s = some bp → ∃ i, bp ∈ H.segList i ∧ s ≤ H.blkSize bp := by
  refine ⟨fun i bp hbp hs => ?_, fun bp h => Heap.findFit_some h⟩
  have hi := hcls i bp hbp
  rcases Nat.lt_or_ge i 15 with hlt | hge
  · -- list `i` passes the test: its bound is at least the block's size
    apply H.getNonEmptyListFrom_le (Nat.zero_le i) (by simp [nonEmptyBounds]; omega) ?_
      (List.ne_nil_of_mem hbp)
    rw [Nat.sub_zero, ← hi]
    exact le_trans hs (le_nonEmptyBound (hi ▸ hlt))
  · have := H.getNonEmptyListFrom_le_length s nonEmptyBounds 0
    rw [show nonEmptyBounds.length = 15 from rfl] at this
    unfold Heap.getNonEmptyList
    omega

theorem non_empty_list_never_past_fit_one_block :
    ∃ H : Heap, H.segList 4 = [10] ∧ H.blkSize 10 = 20 ∧
      (∀ i, ∀ bp ∈ H.segList i, getList (H.blkSize bp) = i) ∧
      (∀ i, ∀ bp ∈ H.segList i, 20 ≤ H.blkSize bp → H.getNonEmptyList 20 ≤ i) ∧
      ∀ bp, H.findFit 20 = some bp → ∃ i, bp ∈ H.segList i ∧ 20 ≤ H.blkSize bp := by
  let H : Heap := ⟨fun a => if a = 10 then ⟨false, true, 20⟩ else fence, 40, 2,
    fun i => if i = 4 then [10] else [], []⟩
  have hcls : ∀ i, ∀ bp ∈ H.segList i, getList (H.blkSize bp) = i := by
    intro i bp hbp
    by_cases hi : i = 4
    · subst hi
      simp only [H, if_pos, List.mem_singleton] at hbp
      subst hbp
      decide
    · simp [H, hi] at hbp
  exact ⟨H, rfl, rfl, hcls, non_empty_list_never_past_fit H 20 hcls⟩

/-! ## `place` -/

/-- A block used in place of a free one: its payload joins the live pointers. -/
theorem LiveHold.use {live : List Nat} {b : Blk} {R : List Blk} {n : Nat}
    (h : LiveHold live (L₁ ++ b :: L₂)) (hnd : ((L₁ ++ b :: L₂).map Blk.addr).Nodup)
    (hb : b.inuse = false) (hR : ∀ c ∈ R, c.inuse = false) :
    LiveHold ((b.addr + 1) :: live) (L₁ ++ ⟨b.addr, n, true⟩ :: R ++ L₂) := by
  have hfree := h.not_mem_free hnd (List.mem_append_right _ List.mem_cons_self) hb
  rw [← List.singleton_append, ← List.append_assoc] at h hnd
  have : LiveHold ((b.addr + 1) :: live) (L₁ ++ (⟨b.addr, n, true⟩ :: R) ++ L₂) :=
    h.replace hnd (fun p => ?_) (List.nodup_cons.mpr ⟨hfree, h.1⟩)
  · simpa using this
  · rw [List.mem_cons]
    constructor
    · rintro (rfl | hp)
      · exact .inr ⟨_, List.mem_cons_self, rfl, rfl⟩
      · by_cases he : p = b.addr + 1
        · exact .inr ⟨_, List.mem_cons_self, he.symm, rfl⟩
        · exact .inl ⟨hp, by simpa using he⟩
    · rintro (⟨hp, -⟩ | ⟨c, hc, rfl, hcu⟩)
      · exact .inr hp
      · rcases List.mem_cons.mp hc with rfl | hc
        · exact .inl rfl
        · simp [hR c hc] at hcu

/-- A block freed in place of a used one: its payload leaves the live pointers. -/
theorem LiveHold.release {live : List Nat} {b X : Blk} (h : LiveHold live (L₁ ++ b :: L₂))
    (hnd : ((L₁ ++ b :: L₂).map Blk.addr).Nodup) (hX : X.inuse = false) :
    LiveHold (live.erase (b.addr + 1)) (L₁ ++ X :: L₂) := by
  rw [← List.singleton_append, ← List.append_assoc] at h hnd
  have : LiveHold (live.erase (b.addr + 1)) (L₁ ++ [X] ++ L₂) :=
    h.replace hnd (fun p => ?_) (h.1.erase _)
  · simpa using this
  · rw [h.1.mem_erase_iff]
    simp [hX, and_comm]

namespace Layout

/-- The layout does not depend on the answers `sbrk` has left. -/
theorem grants (gs : List Bool) (h : Layout H live L) :
    Layout { H with grants := gs } live L :=
  ⟨h.start, h.tiles, h.separated, h.lists, h.live⟩

theorem addr_nodup (h : Layout H live L) : (L.map Blk.addr).Nodup :=
  let ⟨_, hb, _⟩ := h.tiles
  hb.addr_nodup

/-- A block on a list is a free block of the walk, of the size its header says. -/
theorem freeBlock_of_mem (h : Layout H live L) {i bp : Nat} (hb : bp ∈ H.segList i) :
    FreeBlock H live bp (H.blkSize bp) := by
  obtain ⟨b, hbL, rfl, hbf, -⟩ := (h.lists.2 i bp).mp hb
  obtain ⟨L₁, L₂, rfl⟩ := List.append_of_mem hbL
  obtain ⟨r, -, hh, -⟩ := h.tiles.split
  have hb' : b = ⟨b.addr, b.size, false⟩ := by
    cases b
    simp_all
  refine ⟨_, b.size, h, ?_, by simp [Heap.blkSize, hh]⟩
  rw [← hb']
  simp

/-- `place` splitting the free block `bp`: the used block of `asize` words, then
the rest as a free block on its list, ready for `coalesce`. -/
theorem ready_split {bp csize asize : Nat} (h : Layout H live (L₁ ++ ⟨bp, csize, false⟩ :: L₂))
    (h4 : 4 ∣ asize) (h8 : minBlockSizeWords ≤ asize) (hs : minBlockSizeWords ≤ csize - asize) :
    Ready ((((H.listRemove bp).markBlockUsed bp asize).markBlockFree (bp + asize)
        (csize - asize)).pushBack (getList (csize - asize)) (bp + asize))
      ((bp + 1) :: live) (L₁ ++ [⟨bp, asize, true⟩]) (bp + asize) (csize - asize) L₂ := by
  obtain ⟨r, hB, hh, hc4, hc8, -, hT⟩ := h.tiles.split
  obtain ⟨hs₁, hs₂, hl, hu⟩ := h.separated.around_free rfl
  obtain rfl : r = true := hB.end_used hl
  have hB : Blocks H.mem H.heapListp true L₁ bp true := hB
  have hh : H.mem bp = ⟨false, true, csize⟩ := hh
  have hT : Tiles H.mem (bp + csize) false L₂ (H.brk - 1) := hT
  have hc4 : 4 ∣ csize := hc4
  have ha₀ : 0 < asize := Nat.lt_of_lt_of_le (by decide) h8
  have h8' : 8 ≤ csize - asize := hs
  have hsz : 2 ≤ csize - asize := by omega
  -- the words `mark_block_used` and then `mark_block_free` leave alone
  have h₂ : ∀ y, y ≠ bp → y ≠ bp + asize →
      ((H.listRemove bp).markBlockUsed bp asize).mem y = H.mem y :=
    fun y h₁ h₂ => Heap.markBlockUsed_mem_of_ne ha₀ h₁ h₂
  have h₄ : ∀ y, y ≠ bp + asize → y ≠ bp + asize + (csize - asize) - 1 →
      y ≠ bp + asize + (csize - asize) →
      (((H.listRemove bp).markBlockUsed bp asize).markBlockFree (bp + asize)
        (csize - asize)).mem y = ((H.listRemove bp).markBlockUsed bp asize).mem y :=
    fun y h₁ h₂ h₃ => Heap.markBlockFree_mem_of_ne hsz h₁ h₂ h₃
  have hbefore : Blocks (((H.listRemove bp).markBlockUsed bp asize).markBlockFree (bp + asize)
      (csize - asize)).mem H.heapListp true (L₁ ++ [⟨bp, asize, true⟩]) (bp + asize) true := by
    refine blocks_append.mpr ⟨bp, true, hB.frame fun y _ hy => ?_,
      blocks_singleton.mpr ⟨rfl, ?_, h4, h8, fun hf => by simp at hf, rfl, rfl⟩⟩
    · rw [h₄ y (by omega) (by omega) (by omega), h₂ y (by omega) (by omega)]
    · rw [h₄ bp (by omega) (by omega) (by omega), Heap.markBlockUsed_mem_self ha₀]
      simp [hh]
  have hafter : Tiles H.mem (bp + asize + (csize - asize)) false L₂ (H.brk - 1) := by
    rwa [show bp + asize + (csize - asize) = bp + csize by omega]
  refine ⟨h.start, ⟨true, hbefore, ?_, ?_⟩, ⟨Nat.dvd_sub hc4 h4, hs⟩,
    ⟨H.mem, false, hafter, ?_, fun y hy => ?_⟩, hs₁.snoc_used rfl, hs₂, ?_, ?_⟩
  · rw [Heap.pushBack_mem, Heap.markBlockFree_mem_self hsz, Heap.markBlockUsed_mem_next ha₀]
  · rw [Heap.pushBack_mem, Heap.markBlockFree_mem_footer hsz, Heap.markBlockUsed_mem_next ha₀]
  · rw [Heap.pushBack_mem, Heap.markBlockFree_mem_next hsz, h₂ _ (by omega) (by omega)]
  · rw [Heap.pushBack_mem, h₄ y (by omega) (by omega) (by omega), h₂ y (by omega) (by omega)]
  · have hnd := addr_nodup_around hbefore hs hafter (X := ⟨bp + asize, csize - asize, false⟩)
    have hl' : ListsHold (H.listRemove bp).segList (L₁ ++ ⟨bp, asize, true⟩ :: L₂) :=
      (ListsHold.insert_used rfl).mpr (h.lists.remove h.addr_nodup)
    exact ListsHold.push (by simpa using hl') hnd rfl
  · simpa using LiveHold.use (R := [⟨bp + asize, csize - asize, false⟩]) h.live h.addr_nodup rfl
      (by simp)

/-- `place` of `asize` words in the free block `bp` of `csize` words, taken off
its list: the heap stays well formed, with the block used and its payload live. -/
theorem place {bp csize asize : Nat} (h : Layout H live (L₁ ++ ⟨bp, csize, false⟩ :: L₂))
    (ha : asize ≤ csize) (h4 : 4 ∣ asize) (h8 : minBlockSizeWords ≤ asize) :
    ∃ L, Layout ((H.listRemove bp).place bp asize) ((bp + 1) :: live) L := by
  obtain ⟨r, hB, hh, hc4, hc8, -, hT⟩ := h.tiles.split
  obtain ⟨hs₁, hs₂, hl, hu⟩ := h.separated.around_free rfl
  obtain rfl : r = true := hB.end_used hl
  have hB : Blocks H.mem H.heapListp true L₁ bp true := hB
  have hh : H.mem bp = ⟨false, true, csize⟩ := hh
  have hT : Tiles H.mem (bp + csize) false L₂ (H.brk - 1) := hT
  have ha₀ : 0 < asize := Nat.lt_of_lt_of_le (by decide) h8
  have hcs : (H.listRemove bp).blkSize bp = csize := by simp [Heap.blkSize, hh]
  simp only [Heap.place, hcs]
  split_ifs with hsplit
  · -- the rest is split off, and `coalesce` finds it between two used blocks
    have hnb : ((H.listRemove bp).markBlockUsed bp asize).nextBlk bp = bp + asize := by
      simp [Heap.nextBlk, Heap.markBlockUsed_mem_self ha₀]
    simp only [hnb, Heap.markBlockFree_mem_self_size]
    obtain ⟨L, -, hL, -⟩ := (h.ready_split h4 h8 hsplit).coalesce
    exact ⟨L, hL⟩
  · -- the whole block is used
    have hc₀ : 0 < csize := by omega
    refine ⟨L₁ ++ ⟨bp, csize, true⟩ :: L₂, h.start, ?_, separated_splice hs₁ hs₂ hl hu,
      (ListsHold.insert_used rfl).mpr (h.lists.remove h.addr_nodup), ?_⟩
    · refine tiles_append.mpr ⟨bp, true, hB.frame fun y _ hy => ?_, tiles_cons.mpr
        ⟨rfl, ?_, hc4, hc8, fun hf => by simp at hf, hT.repin hu ?_ fun y hy _ => ?_⟩⟩
      · exact Heap.markBlockUsed_mem_of_ne hc₀ (by omega) (by omega)
      · rw [Heap.markBlockUsed_mem_self hc₀]
        simp [hh]
      · exact Heap.markBlockUsed_mem_next hc₀
      · exact Heap.markBlockUsed_mem_of_ne hc₀ (by omega) (by omega)
    · simpa using LiveHold.use (R := []) (n := csize) h.live h.addr_nodup rfl (by simp)

/-- `free` of the used block `U`: on its list and marked free, ready for
`coalesce`. -/
theorem ready_free {u usz : Nat} (h : Layout H live (L₁ ++ ⟨u, usz, true⟩ :: L₂)) :
    Ready ((H.pushBack (getList usz) u).markBlockFree u usz) (live.erase (u + 1)) L₁ u usz L₂ := by
  obtain ⟨r, hB, hh, h4, h8, -, hT⟩ := h.tiles.split
  have hB : Blocks H.mem H.heapListp true L₁ u r := hB
  have hh : H.mem u = ⟨true, r, usz⟩ := hh
  have hT : Tiles H.mem (u + usz) true L₂ (H.brk - 1) := hT
  have h8' : 8 ≤ usz := h8
  have hs : 2 ≤ usz := by omega
  have hnd := h.addr_nodup
  refine ⟨h.start, ⟨r, hB.frame fun y _ hy => ?_, ?_, ?_⟩, ⟨h4, h8⟩,
    ⟨H.mem, true, hT, ?_, fun y hy => ?_⟩, h.separated.left, h.separated.right.tail, ?_,
    h.live.release hnd rfl⟩
  · exact Heap.markBlockFree_mem_of_ne hs (by omega) (by omega) (by omega)
  · rw [Heap.markBlockFree_mem_self hs]
    simp [hh]
  · rw [Heap.markBlockFree_mem_footer hs]
    simp [hh]
  · exact Heap.markBlockFree_mem_next hs
  · exact Heap.markBlockFree_mem_of_ne hs (by omega) (by omega) (by omega)
  · have hl : ListsHold H.segList (L₁ ++ L₂) := (ListsHold.insert_used rfl).mp h.lists
    exact ListsHold.push (b := ⟨u, usz, false⟩) hl (by simpa using hnd) rfl

/-- `free` of a live pointer succeeds and leaves the heap well formed. -/
theorem free {p : Nat} (h : Layout H live L) (hp : p ∈ live) :
    ∃ H', Pintos.User.free H p = some H' ∧ ∃ L', Layout H' (live.erase p) L' := by
  obtain ⟨U, hU, rfl, hUu⟩ := (h.live.2 p).mp hp
  obtain ⟨L₁, L₂, rfl⟩ := List.append_of_mem hU
  have hU' : U = ⟨U.addr, U.size, true⟩ := by
    cases U
    simp_all
  rw [hU'] at h
  obtain ⟨r, -, hh, -⟩ := h.tiles.split
  have hh : H.mem U.addr = ⟨true, r, U.size⟩ := hh
  obtain ⟨L', -, hL', -⟩ := h.ready_free.coalesce
  refine ⟨_, ?_, L', hL'⟩
  simp [Pintos.User.free, Nat.pos_iff_ne_zero.mp h.start, hh, Heap.blkSize]

/-- `extend_heap` once `sbrk` has granted `w` words: a free block over the old
epilogue and the new words, a new epilogue, the block on its list, ready for
`coalesce`. -/
theorem ready_extend {w : Nat} (gs : List Bool) (h : Layout H live L) (h4 : 4 ∣ w)
    (h8 : minBlockSizeWords ≤ w) :
    Ready (((({ H with brk := H.brk + w, grants := gs } : Heap).markBlockFree (H.brk - 1)
        w).setTag (H.brk - 1 + w) fence).pushBack (getList w) (H.brk - 1))
      live L (H.brk - 1) w [] := by
  obtain ⟨q, hB, he⟩ := h.tiles
  have hle := hB.le
  have h₀ := h.start
  have h8' : 8 ≤ w := h8
  have hs : 2 ≤ w := by omega
  -- the words the new block's tags and the new epilogue leave alone
  have hfr : ∀ y, y ≠ H.brk - 1 + w → y ≠ H.brk - 1 → y ≠ H.brk - 1 + w - 1 →
      ((({ H with brk := H.brk + w, grants := gs } : Heap).markBlockFree (H.brk - 1)
        w).setTag (H.brk - 1 + w) fence).mem y = H.mem y := fun y h₁ h₂ h₃ => by
    rw [Heap.setTag_mem, Function.update_of_ne h₁, Heap.markBlockFree_mem_of_ne hs h₂ h₃ h₁]
  have hbefore : Blocks (((({ H with brk := H.brk + w, grants := gs } : Heap).markBlockFree
      (H.brk - 1) w).setTag (H.brk - 1 + w) fence).pushBack (getList w) (H.brk - 1)).mem
      H.heapListp true L (H.brk - 1) q :=
    hB.frame fun y _ hy => hfr y (by omega) (by omega) (by omega)
  have hafter : Tiles (((({ H with brk := H.brk + w, grants := gs } : Heap).markBlockFree
      (H.brk - 1) w).setTag (H.brk - 1 + w) fence).pushBack (getList w) (H.brk - 1)).mem
      (H.brk - 1 + w) false [] (H.brk + w - 1) :=
    ⟨false, ⟨by omega, rfl⟩, by rw [show H.brk + w - 1 = H.brk - 1 + w by omega]; simp [fence]⟩
  refine ⟨h.start, ⟨q, hbefore, ?_, ?_⟩, ⟨h4, h8⟩, ⟨_, false, hafter, by simp [fence],
    fun _ _ => rfl⟩, h.separated, List.isChain_nil, ?_, ?_⟩
  · rw [Heap.pushBack_mem, Heap.setTag_mem, Function.update_of_ne (by omega),
      Heap.markBlockFree_mem_self hs]
    simp [he]
  · rw [Heap.pushBack_mem, Heap.setTag_mem, Function.update_of_ne (by omega),
      Heap.markBlockFree_mem_footer hs]
    simp [he]
  · have hnd := addr_nodup_around hbefore h8 hafter (X := ⟨H.brk - 1, w, false⟩)
    exact ListsHold.push (by simpa using h.lists) hnd rfl
  · exact LiveHold.merge (M := []) (by simpa using h.live) (by simp) rfl

/-- `extend_heap`: when `sbrk` fails the heap is as it was, and otherwise it is
well formed with a free block of at least `w` words at the address returned. -/
theorem extendHeap {w : Nat} (h : Layout H live L) (h4 : 4 ∣ w) (h8 : minBlockSizeWords ≤ w) :
    (∃ L', Layout (H.extendHeap w true).1 live L') ∧
      ∀ bp, (H.extendHeap w true).2 = some bp → FreeBlock (H.extendHeap w true).1 live bp w := by
  rcases hg : H.grants with _ | ⟨_ | _, gs⟩
  · simp only [Heap.extendHeap, Heap.sbrk, hg]
    exact ⟨⟨L, h⟩, fun _ h => nomatch h⟩
  · simp only [Heap.extendHeap, Heap.sbrk, hg]
    exact ⟨⟨L, h.grants gs⟩, fun _ h => nomatch h⟩
  · have h8' : 8 ≤ w := h8
    have hnb : (({ H with brk := H.brk + w, grants := gs } : Heap).markBlockFree (H.brk - 1)
        w).nextBlk (H.brk - 1) = H.brk - 1 + w := by
      simp [Heap.nextBlk]
    have hsz : (((({ H with brk := H.brk + w, grants := gs } : Heap).markBlockFree (H.brk - 1)
        w).setTag (H.brk - 1 + w) fence).mem (H.brk - 1)).size = w := by
      rw [Heap.setTag_mem, Function.update_of_ne (by omega)]
      simp
    simp only [Heap.extendHeap, Heap.sbrk, hg, hnb, hsz, if_true]
    have hc := (h.ready_extend gs h4 h8).coalesce
    exact ⟨⟨_, hc.choose_spec.choose_spec.1⟩, fun bp hbp => Option.some.inj hbp ▸ hc⟩

end Layout

/-- A free block large enough for `asize` words, taken off its list and placed. -/
theorem FreeBlock.place {bp sz asize : Nat} (h : FreeBlock H live bp sz) (ha : asize ≤ sz)
    (h4 : 4 ∣ asize) (h8 : minBlockSizeWords ≤ asize) :
    ∃ L, Layout ((H.listRemove bp).place bp asize) ((bp + 1) :: live) L := by
  obtain ⟨L, csize, hL, hb, hs⟩ := h
  obtain ⟨L₁, L₂, rfl⟩ := List.append_of_mem hb
  exact hL.place (Nat.le_trans ha hs) h4 h8

/-! ## `mm_init`, `malloc` and `free` -/

/-- A heap of no blocks: the epilogue at `heap_listp`, and empty lists. -/
theorem layout_empty (h₀ : 0 < H.heapListp) (he : H.heapListp = H.brk - 1)
    (hm : H.mem (H.brk - 1) = ⟨true, true, 0⟩) (hs : ∀ i, H.segList i = []) : Layout H [] [] :=
  ⟨h₀, ⟨true, ⟨he.symm, rfl⟩, hm⟩, List.isChain_nil,
    ⟨fun i => by simp [hs], fun i a => by simp [hs]⟩, ⟨List.nodup_nil, by simp⟩⟩

/-- `mm_init` either fails before it sets `heap_listp`, or sets up a well-formed
heap. -/
theorem Heap.mmInit_layout (h : H.heapListp = 0) :
    H.mmInit.heapListp = 0 ∨ ∃ L, Layout H.mmInit [] L := by
  rcases hg : H.grants with _ | ⟨_ | _, gs⟩
  · simp [Heap.mmInit, Heap.sbrk, hg, h]
  · simp [Heap.mmInit, Heap.sbrk, hg, h]
  · -- the two fences, then `extend_heap (CHUNKSIZE)` from the empty heap
    simp only [Heap.mmInit, Heap.sbrk, hg]
    refine .inr ((layout_empty ?_ ?_ ?_ ?_).extendHeap (by decide) (by decide)).1
    · simp
    · simp
    · simp [show H.brk + 4 - 1 = H.brk + 3 by omega, fence]
    · simp

/-- `malloc`'s block size for a request of `size` bytes (the header included): a
multiple of 4 words, at least `MIN_BLOCK_SIZE_WORDS`. -/
theorem awords_spec (size : Nat) :
    4 ∣ max minBlockSizeWords (align size / wsize) ∧
      minBlockSizeWords ≤ max minBlockSizeWords (align size / wsize) := by
  unfold minBlockSizeWords align alignment wsize
  omega

/-- For the largest requests, adding the header's 4 bytes or rounding up wraps
`size_t`, and `malloc` asks for the minimum block. -/
theorem awords_of_wrap {n : Nat} (h₁ : 2 ^ 32 - 19 ≤ n) (h₂ : n < 2 ^ 32) :
    max minBlockSizeWords (align ((n + 1 * wsize) % 2 ^ 32) / wsize) = minBlockSizeWords := by
  unfold minBlockSizeWords align alignment wsize
  omega

/-- `malloc (0xffffffff)` on a fresh heap returns an 8-word block, whose payload
holds 28 bytes. -/
theorem malloc_request_wraps :
    ¬ ∀ (S : MallocSys) (n : Nat),
      Lts.Reachable MallocSys.step (MallocSys.init (fun _ => fence) 1 [true, true]) S →
        n < 2 ^ 32 → ∀ H p, malloc S.heap n = some (H, some p) →
          (H.mem (p - 1)).inuse = true ∧ n ≤ (H.mem (p - 1)).size * wsize - wsize := by
  intro hall
  have hrun : (malloc (MallocSys.init (fun _ => fence) 1 [true, true]).heap (2 ^ 32 - 1)).map
      (fun r => (r.2, r.2.map fun p => (r.1.mem (p - 1)).size)) = some (some 5, some 8) := by
    decide
  obtain ⟨⟨H, p⟩, hm, he⟩ := Option.map_eq_some_iff.mp hrun
  simp only [Prod.mk.injEq] at he
  obtain ⟨rfl, hsz⟩ := he
  have hcap := (hall _ _ .init (by decide) H 5 hm).2
  simp only [Option.map_some, Option.some.injEq] at hsz
  rw [hsz] at hcap
  exact absurd hcap (by decide)

/-- What holds of every state a program reaches: nothing is live until `mm_init`
has set `heap_listp`, and from then on the heap is well formed. -/
def MallocSys.Inv (S : MallocSys) : Prop :=
  (S.heap.heapListp = 0 ∧ S.live = []) ∨ ∃ L, Layout S.heap S.live L

/-- `malloc` keeps the invariant, and adds the pointer it returns to the live ones. -/
theorem malloc_inv {n : Nat} {H' : Heap} {r : Option Nat}
    (h : MallocSys.Inv ⟨H, live⟩) (hm : malloc H n = some (H', r)) :
    MallocSys.Inv ⟨H', r.toList ++ live⟩ := by
  -- the heap after the `mm_init` that `malloc` calls on an uninitialised heap
  have h₀ : MallocSys.Inv ⟨if H.heapListp = 0 then H.mmInit else H, live⟩ := by
    rcases h with ⟨h0, rfl⟩ | ⟨L, hL⟩
    · rw [if_pos h0]
      rcases Heap.mmInit_layout h0 with h1 | h1
      · exact .inl ⟨h1, rfl⟩
      · exact .inr h1
    · rw [if_neg (Nat.pos_iff_ne_zero.mp hL.start)]
      exact .inr ⟨L, hL⟩
  simp only [malloc] at hm
  generalize (if H.heapListp = 0 then H.mmInit else H) = H₀ at h₀ hm
  by_cases hn : n = 0
  · simp only [hn, if_true, Option.some.injEq, Prod.mk.injEq] at hm
    obtain ⟨rfl, rfl⟩ := hm
    exact h₀
  rw [if_neg hn] at hm
  rcases h₀ with ⟨h0, -⟩ | ⟨L, hL⟩
  · have h0 : H₀.heapListp = 0 := h0
    simp [h0] at hm
  rw [if_neg (Nat.pos_iff_ne_zero.mp hL.start)] at hm
  obtain ⟨h4, h8⟩ := awords_spec ((n + 1 * wsize) % 2 ^ 32)
  generalize max minBlockSizeWords (align ((n + 1 * wsize) % 2 ^ 32) / wsize) = awords at hm h4 h8
  cases hf : H₀.findFit awords with
  | some bp =>
    -- a fit from the lists
    simp only [hf, Option.some.injEq, Prod.mk.injEq] at hm
    obtain ⟨rfl, rfl⟩ := hm
    obtain ⟨i, hi, hfit⟩ := Heap.findFit_some hf
    exact .inr ((hL.freeBlock_of_mem hi).place hfit h4 h8)
  | none =>
    -- no fit: the heap grows by at least the block
    have hw₄ : 4 ∣ max awords chunksize := by
      unfold chunksize
      omega
    have hw₈ : minBlockSizeWords ≤ max awords chunksize := by omega
    obtain ⟨hext, hfree⟩ := hL.extendHeap hw₄ hw₈
    simp only [hf] at hm
    rcases he : H₀.extendHeap (max awords chunksize) true with ⟨H₁, _ | bp⟩
    · simp only [he, Option.some.injEq, Prod.mk.injEq] at hm
      obtain ⟨rfl, rfl⟩ := hm
      rw [he] at hext
      exact .inr hext
    · simp only [he, Option.some.injEq, Prod.mk.injEq] at hm
      obtain ⟨rfl, rfl⟩ := hm
      have hb := hfree bp (by rw [he])
      rw [he] at hb
      exact .inr (hb.place (by omega) h4 h8)

/-- `free` of a live pointer keeps the invariant. -/
theorem free_inv {p : Nat} {H' : Heap} (h : MallocSys.Inv ⟨H, live⟩) (hp : p ∈ live)
    (hf : free H p = some H') : MallocSys.Inv ⟨H', live.erase p⟩ := by
  rcases h with ⟨-, rfl⟩ | ⟨L, hL⟩
  · exact absurd hp List.not_mem_nil
  obtain ⟨H'', hf', hL'⟩ := hL.free hp
  rw [hf] at hf'
  exact .inr (Option.some.inj hf' ▸ hL')

theorem MallocSys.step_inv {S S' : MallocSys} {c : MallocCall} (h : S.Inv)
    (hs : S.step c = some S') : S'.Inv := by
  cases c with
  | malloc n =>
    obtain ⟨⟨H', r⟩, hm, rfl⟩ := Option.map_eq_some_iff.mp hs
    exact malloc_inv h hm
  | free p =>
    simp only [MallocSys.step] at hs
    split_ifs at hs with hp
    obtain ⟨H', hf, rfl⟩ := Option.map_eq_some_iff.mp hs
    exact free_inv h hp hf

/-- Once `mm_init` has set `heap_listp`, every state a program reaches by calls
to `malloc` and `free` (of pointers `malloc` returned and not yet freed) has a
well-formed heap. -/
theorem malloc_heap_layout (mem : Nat → Tag) (brk : Nat) (grants : List Bool) (S : MallocSys)
    (hS : Lts.Reachable MallocSys.step (MallocSys.init mem brk grants) S)
    (hi : S.heap.heapListp ≠ 0) : ∃ L, Layout S.heap S.live L := by
  have hinv : S.Inv := Lts.Reachable.rec_inv (.inl ⟨rfl, rfl⟩)
    (fun _ _ _ h hs => MallocSys.step_inv h hs) hS
  rcases hinv with ⟨h0, -⟩ | h
  · exact absurd h0 hi
  · exact h

theorem malloc_heap_layout_first_call :
    ∃ S, (MallocSys.init (fun _ => fence) 1 [true, true]).step (.malloc 1) = some S ∧
      S.heap.heapListp ≠ 0 ∧ ∃ L, Layout S.heap S.live L := by
  have h4 : ((MallocSys.init (fun _ => fence) 1 [true, true]).step (.malloc 1)).map
      (fun S => S.heap.heapListp) = some 4 := by decide
  obtain ⟨S, hS, hl⟩ := Option.map_eq_some_iff.mp h4
  have hi : S.heap.heapListp ≠ 0 := by
    rw [hl]
    decide
  exact ⟨S, hS, hi, malloc_heap_layout _ _ _ S (.step _ .init hS) hi⟩

end Pintos.User

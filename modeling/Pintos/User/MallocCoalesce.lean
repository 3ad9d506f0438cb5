import Pintos.User.MallocWalk

/-!
# `coalesce` restores the layout

`free`, `extend_heap` and `place` each leave one free block whose neighbours may
be free, with the lists and the live pointers already accounting for it
(`Ready`). `coalesce` merges it with them: in each of its four cases the heap is
well formed again, with a free block at the address it returns that is at least
as large as the block it was given (`Ready.coalesce`).
-/

namespace Pintos.User

/-- The heap is well formed, and `bp` is a free block of at least `sz` words. -/
def FreeBlock (H : Heap) (live : List Nat) (bp sz : Nat) : Prop :=
  ∃ L sz', Layout H live L ∧ ⟨bp, sz', false⟩ ∈ L ∧ sz ≤ sz'

/-- The heap as `coalesce` finds it: the free block of `sz` words at `x` has
consistent tags and lies between the walk `L₁` and the blocks `L₂`, neither of
which has adjacent free blocks, but it may have a free neighbour. The blocks
after it tile a memory `mem₀` from which the heap differs at most in the
`pinuse` bit of the header at `x + sz`, which is clear. -/
structure Ready (H : Heap) (live : List Nat) (L₁ : List Blk) (x sz : Nat) (L₂ : List Blk) :
    Prop where
  start : 0 < H.heapListp
  before : ∃ r, Blocks H.mem H.heapListp true L₁ x r ∧ H.mem x = ⟨false, r, sz⟩ ∧
    H.mem (x + sz - 1) = ⟨false, r, sz⟩
  size : 4 ∣ sz ∧ minBlockSizeWords ≤ sz
  after : ∃ mem₀ r₀, Tiles mem₀ (x + sz) r₀ L₂ (H.brk - 1) ∧
    H.mem (x + sz) = { mem₀ (x + sz) with pinuse := false } ∧
    ∀ y, x + sz < y → H.mem y = mem₀ y
  left : Separated L₁
  right : Separated L₂
  lists : ListsHold H.segList (L₁ ++ ⟨x, sz, false⟩ :: L₂)
  live : LiveHold live (L₁ ++ ⟨x, sz, false⟩ :: L₂)

variable {H : Heap} {live : List Nat} {L₁ L₂ : List Blk} {x sz : Nat}

/-- `mark_block_free` of `T` words at `x`, between a walk ending at `x` and a
tiling from `x + T` whose head is used. -/
theorem Tiles.markBlockFree {mem₀ : Nat → Tag} {a e T : Nat} {p r s : Bool}
    (h₁ : Blocks H.mem a p L₁ x r) (h₂ : Tiles mem₀ (x + T) s L₂ e)
    (hu : ∀ c ∈ L₂.head?, c.inuse = true) (h4 : 4 ∣ T) (h8 : minBlockSizeWords ≤ T)
    (hx : (H.mem x).pinuse = r)
    (hn : { H.mem (x + T) with pinuse := false } = { mem₀ (x + T) with pinuse := false })
    (habove : ∀ y, x + T < y → H.mem y = mem₀ y) :
    Tiles (H.markBlockFree x T).mem a p (L₁ ++ ⟨x, T, false⟩ :: L₂) e := by
  have hT : 2 ≤ T := Nat.le_trans (by decide) h8
  refine tiles_merge h₁ h₂ hu h4 h8 ?_ ?_ ?_ (fun y hy => ?_) (fun y hy => ?_)
  · rw [Heap.markBlockFree_mem_self hT, ← hx]
  · rw [Heap.markBlockFree_mem_footer hT, ← hx]
  · rw [Heap.markBlockFree_mem_next hT, hn]
  · exact Heap.markBlockFree_mem_of_ne hT (by omega) (by omega) (by omega)
  · rw [Heap.markBlockFree_mem_of_ne hT (by omega) (by omega) (by omega), habove y hy]

/-- The lists after `coalesce` merges the free blocks `M` into the free block
`X`: the addresses `rs` of `M` removed, then `X` pushed on the list of its size. -/
theorem ListsHold.coalesce {M : List Blk} {X : Blk} (rs : List Nat)
    (h : ListsHold H.segList (L₁ ++ M ++ L₂)) (hnd : ((L₁ ++ M ++ L₂).map Blk.addr).Nodup)
    (hrs : ∀ a, a ∈ rs ↔ a ∈ M.map Blk.addr) (hX : X.inuse = false) (hx : X.addr ∈ rs) :
    ListsHold ((rs.foldl Heap.listRemove H).pushBack (getList X.size) X.addr).segList
      (L₁ ++ X :: L₂) := by
  rw [← List.singleton_append, ← List.append_assoc]
  refine h.replace hnd (fun i a => ?_)
    (Heap.pushBack_nodup (Heap.foldl_listRemove_nodup h.1 rs) ?_)
  · rw [Heap.mem_pushBack_segList, Heap.mem_foldl_listRemove h.1, hrs, freeOn_singleton]
    simp only [hX, true_and]
    exact or_congr_right ⟨fun ⟨h₁, h₂⟩ => ⟨h₂.symm, h₁.symm⟩, fun ⟨h₁, h₂⟩ => ⟨h₂.symm, h₁.symm⟩⟩
  · rw [Heap.mem_foldl_listRemove h.1]
    exact fun h' => h'.2 hx

namespace Ready

theorem addr_nodup (h : Ready H live L₁ x sz L₂) :
    ((L₁ ++ ⟨x, sz, false⟩ :: L₂).map Blk.addr).Nodup := by
  obtain ⟨r, hB, -, -⟩ := h.before
  obtain ⟨mem₀, r₀, hT, -, -⟩ := h.after
  exact addr_nodup_around hB h.size.2 hT

/-- Case 1: both neighbours are used, and the heap is already well formed. -/
theorem layout_of_alloc (h : Ready H live L₁ x sz L₂) (hp : (H.mem x).pinuse = true)
    (hn : (H.mem (x + sz)).inuse = true) : Layout H live (L₁ ++ ⟨x, sz, false⟩ :: L₂) := by
  obtain ⟨r, hB, hx, hf⟩ := h.before
  obtain ⟨mem₀, r₀, hT, hnx, habove⟩ := h.after
  obtain rfl : r = true := by simpa [hx] using hp
  have hu : ∀ c ∈ L₂.head?, c.inuse = true := hT.head_used (by simpa [hnx] using hn)
  exact ⟨h.start, tiles_merge hB hT hu h.size.1 h.size.2 hx hf hnx (fun _ _ => rfl) habove,
    separated_splice h.left h.right hB.getLast_inuse hu, h.lists, h.live⟩

/-- Case 2: the next block `N` is free; the block grows over it. -/
theorem coalesce_next (h : Ready H live L₁ x sz L₂) (hp : (H.mem x).pinuse = true)
    (hn : (H.mem (x + sz)).inuse = false) :
    FreeBlock (H.coalesce x).1 live (H.coalesce x).2 sz := by
  obtain ⟨r, hB, hx, -⟩ := h.before
  obtain ⟨mem₀, r₀, hT, hnx, habove⟩ := h.after
  obtain rfl : r = true := by simpa [hx] using hp
  have hnd := h.addr_nodup
  -- `N` is free, so the block after it is used
  obtain ⟨N, L₂, rfl, hNf⟩ := hT.head_free (by simpa [hnx] using hn)
  obtain ⟨hNa, hNh, hN4, hN8, -, hT'⟩ := tiles_cons.mp hT
  have hu := h.right.after_free hNf
  have hN : 8 ≤ N.size := hN8
  have hnext : H.nextBlk x = x + sz := by simp [Heap.nextBlk, hx]
  rw [Heap.coalesce_next hp (by rw [hnext, hn])]
  simp only [hnext, Heap.blkSize, hx, hnx, hNh, Heap.listRemove_mem,
    Heap.markBlockFree_mem_self_size]
  have hM : L₁ ++ ⟨x, sz, false⟩ :: N :: L₂ = L₁ ++ [⟨x, sz, false⟩, N] ++ L₂ := by simp
  refine ⟨L₁ ++ ⟨x, sz + N.size, false⟩ :: L₂, sz + N.size, ⟨?_, ?_, ?_, ?_, ?_⟩, by simp,
    by omega⟩
  · simpa using h.start
  · simp only [Heap.pushBack_mem, Heap.listRemove_mem, Heap.pushBack_heapListp,
      Heap.listRemove_heapListp, Heap.markBlockFree_heapListp, Heap.pushBack_brk,
      Heap.listRemove_brk, Heap.markBlockFree_brk]
    rw [hNf] at hT'
    refine Tiles.markBlockFree hB (by rwa [← Nat.add_assoc]) hu (Nat.dvd_add h.size.1 hN4)
      (by have := h.size.2; omega) (by rw [hx]) ?_ fun y hy => habove y (by omega)
    rw [habove _ (by omega)]
  · exact separated_splice h.left h.right.tail hB.getLast_inuse hu
  · rw [hM] at hnd
    refine ListsHold.coalesce [x + sz, x] (M := [⟨x, sz, false⟩, N])
      (X := ⟨x, sz + N.size, false⟩) (hM ▸ h.lists) hnd (fun a => ?_) rfl (by simp)
    simp [hNa, or_comm]
  · exact LiveHold.merge (hM ▸ h.live) (by simp [hNf]) rfl

/-- Case 3: the previous block `P` is free; it grows over the block. -/
theorem coalesce_prev (h : Ready H live L₁ x sz L₂) (hp : (H.mem x).pinuse = false)
    (hn : (H.mem (x + sz)).inuse = true) :
    FreeBlock (H.coalesce x).1 live (H.coalesce x).2 sz := by
  obtain ⟨r, hB, hx, -⟩ := h.before
  obtain ⟨mem₀, r₀, hT, hnx, habove⟩ := h.after
  obtain rfl : r = false := by simpa [hx] using hp
  have hnd := h.addr_nodup
  -- `P` is free, so the block before it is used
  obtain ⟨L₁, P, rfl, hPf, hB', hPh, hPfoot, hPx, hP4, hP8, hsep⟩ := hB.last_free h.left
  have hu : ∀ c ∈ L₂.head?, c.inuse = true := hT.head_used (by simpa [hnx] using hn)
  have hP : 8 ≤ P.size := hP8
  have hnext : H.nextBlk x = x + sz := by simp [Heap.nextBlk, hx]
  have hprev : H.prevBlk x = P.addr := by
    simp only [Heap.prevBlk, prevBlkFooter, hPfoot]
    omega
  rw [Heap.coalesce_prev hp (by rw [hnext, hn])]
  simp only [hprev, Heap.blkSize, hx, hPh, Heap.listRemove_mem, Heap.markBlockFree_mem_self_size]
  have hM : L₁ ++ [P] ++ ⟨x, sz, false⟩ :: L₂ = L₁ ++ [P, ⟨x, sz, false⟩] ++ L₂ := by simp
  have he : P.addr + (sz + P.size) = x + sz := by omega
  refine ⟨L₁ ++ ⟨P.addr, sz + P.size, false⟩ :: L₂, sz + P.size, ⟨?_, ?_, ?_, ?_, ?_⟩, by simp,
    by omega⟩
  · simpa using h.start
  · simp only [Heap.pushBack_mem, Heap.listRemove_mem, Heap.pushBack_heapListp,
      Heap.listRemove_heapListp, Heap.markBlockFree_heapListp, Heap.pushBack_brk,
      Heap.listRemove_brk, Heap.markBlockFree_brk]
    refine Tiles.markBlockFree hB' (by rwa [he]) hu (Nat.dvd_add h.size.1 hP4)
      (by have := h.size.2; omega) (by rw [hPh]) (by rw [he, hnx]) fun y hy => habove y (by omega)
  · exact separated_splice hsep h.right hB'.getLast_inuse hu
  · rw [hM] at hnd
    refine ListsHold.coalesce [x, P.addr] (M := [P, ⟨x, sz, false⟩])
      (X := ⟨P.addr, sz + P.size, false⟩) (hM ▸ h.lists) hnd (fun a => ?_) rfl (by simp)
    simp [or_comm]
  · exact LiveHold.merge (hM ▸ h.live) (by simp [hPf]) rfl

/-- Case 4: both neighbours are free; the previous block grows over the block
and the next one. -/
theorem coalesce_both (h : Ready H live L₁ x sz L₂) (hp : (H.mem x).pinuse = false)
    (hn : (H.mem (x + sz)).inuse = false) :
    FreeBlock (H.coalesce x).1 live (H.coalesce x).2 sz := by
  obtain ⟨r, hB, hx, -⟩ := h.before
  obtain ⟨mem₀, r₀, hT, hnx, habove⟩ := h.after
  obtain rfl : r = false := by simpa [hx] using hp
  have hnd := h.addr_nodup
  obtain ⟨L₁, P, rfl, hPf, hB', hPh, hPfoot, hPx, hP4, hP8, hsep⟩ := hB.last_free h.left
  obtain ⟨N, L₂, rfl, hNf⟩ := hT.head_free (by simpa [hnx] using hn)
  obtain ⟨hNa, hNh, hN4, hN8, -, hT'⟩ := tiles_cons.mp hT
  have hu := h.right.after_free hNf
  have hP : 8 ≤ P.size := hP8
  have hN : 8 ≤ N.size := hN8
  have hnext : H.nextBlk x = x + sz := by simp [Heap.nextBlk, hx]
  have hprev : H.prevBlk x = P.addr := by
    simp only [Heap.prevBlk, prevBlkFooter, hPfoot]
    omega
  set T := sz + N.size + P.size
  have he : P.addr + T = x + sz + N.size := by omega
  -- the merged block's tags leave `P`'s old footer, which `prev_blk` reads again, alone
  have hprev' : (H.markBlockFree P.addr T).prevBlk x = P.addr := by
    have hs : 2 ≤ T := by omega
    simp only [Heap.prevBlk, prevBlkFooter,
      Heap.markBlockFree_mem_of_ne hs (show x - 1 ≠ P.addr by omega) (by omega) (by omega), hPfoot]
    omega
  rw [Heap.coalesce_both hp (by rw [hnext, hn])]
  simp only [hnext, hprev, Heap.blkSize, hx, hnx, hNh, hPh]
  rw [hprev']
  simp only [Heap.listRemove_mem, Heap.markBlockFree_mem_self_size]
  have hM : L₁ ++ [P] ++ ⟨x, sz, false⟩ :: N :: L₂ = L₁ ++ [P, ⟨x, sz, false⟩, N] ++ L₂ := by
    simp
  refine ⟨L₁ ++ ⟨P.addr, T, false⟩ :: L₂, T, ⟨?_, ?_, ?_, ?_, ?_⟩, by simp, by omega⟩
  · simpa using h.start
  · simp only [Heap.pushBack_mem, Heap.listRemove_mem, Heap.pushBack_heapListp,
      Heap.listRemove_heapListp, Heap.markBlockFree_heapListp, Heap.pushBack_brk,
      Heap.listRemove_brk, Heap.markBlockFree_brk]
    rw [hNf] at hT'
    refine Tiles.markBlockFree hB' (by rwa [he]) hu ?_ (by have := h.size.2; omega) (by rw [hPh])
      (by rw [he, habove _ (by omega)]) fun y hy => habove y (by omega)
    exact Nat.dvd_add (Nat.dvd_add h.size.1 hN4) hP4
  · exact separated_splice hsep h.right.tail hB'.getLast_inuse hu
  · rw [hM] at hnd
    refine ListsHold.coalesce [x, x + sz, P.addr] (M := [P, ⟨x, sz, false⟩, N])
      (X := ⟨P.addr, T, false⟩) (hM ▸ h.lists) hnd (fun a => ?_) rfl (by simp)
    simp only [List.mem_cons, List.not_mem_nil, or_false, List.map_cons, List.map_nil, hNa]
    tauto
  · exact LiveHold.merge (hM ▸ h.live) (by simp [hPf, hNf]) rfl

/-- `coalesce` leaves the heap well formed, with a free block at the address it
returns that is at least as large as the one it was given. -/
theorem coalesce (h : Ready H live L₁ x sz L₂) :
    FreeBlock (H.coalesce x).1 live (H.coalesce x).2 sz := by
  obtain ⟨r, hB, hx, -⟩ := h.before
  have hnext : H.nextBlk x = x + sz := by simp [Heap.nextBlk, hx]
  cases hp : (H.mem x).pinuse <;> cases hn : (H.mem (x + sz)).inuse
  · exact h.coalesce_both hp hn
  · exact h.coalesce_prev hp hn
  · exact h.coalesce_next hp hn
  · rw [Heap.coalesce_alloc hp (by rw [hnext, hn])]
    exact ⟨_, sz, h.layout_of_alloc hp hn, by simp, Nat.le_refl _⟩

end Ready

end Pintos.User

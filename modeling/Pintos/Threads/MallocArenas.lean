import Pintos.Threads.Malloc
import Pintos.Lib.FreeList

/-!
# The books of the kernel allocator

An arena at page `a` has the blocks `blocksOf a hdr.desc`: for a descriptor, block
`i` at `a + 12 + i * block_size` for each `i` below `blocks_per_arena`; for a
big block, the one block after the header. `Books` is what the allocator keeps
between calls: the pages it holds from the kernel pool are exactly its arenas'
pages; each descriptor's free list holds, once each, exactly the blocks of its
arenas not handed out; each arena's `free_cnt` counts its blocks on the list;
and each big block is handed out. With `InUseAt`, every small arena has a block
handed out, so that an arena lives exactly while one of its blocks does.

The blocks of an arena lie inside its pages after its header
(`blockToArena_of_mem` finds the arena back), and the arenas' pages are the
page allocator's runs, which share no page; this is what keeps blocks of
different arenas apart.
-/

namespace Pintos.Threads

/-- Block `i` of an arena at `a` for the descriptor `desc`. -/
def blockAt (a : Nat) (desc : Desc) (i : Nat) : Nat := a + arenaSize + i * desc.blockSize

/-- The blocks of an arena at `a` for the descriptor `o`, `none` for a big
block. -/
def blocksOf (a : Nat) (o : Option Nat) : List Nat :=
  match o with
  | some d => match descs[d]? with
    | some desc => (List.range desc.blocksPerArena).map (blockAt a desc)
    | none => []
  | none => [a + arenaSize]

/-- The pages of the arena whose header is `hdr`. -/
def arenaPages (hdr : Arena) : Nat :=
  match hdr.desc with
  | some _ => 1
  | none => hdr.freeCnt

/-- Each descriptor's blocks fit in a page after the header, and its block size
divides `2 ^ 32`. -/
theorem desc_fits : ∀ desc ∈ descs, 0 < desc.blockSize ∧ 0 < desc.blocksPerArena ∧
    arenaSize + desc.blocksPerArena * desc.blockSize ≤ pgSize ∧ 2 ^ 32 % desc.blockSize = 0 := by
  decide

/-! ## Where blocks lie -/

section Geometry

variable {a b d i : Nat} {desc : Desc} {o : Option Nat} {hdr : Arena}

theorem blockAt_fits (hdesc : desc ∈ descs) (hi : i < desc.blocksPerArena) :
    arenaSize + i * desc.blockSize + desc.blockSize ≤ pgSize := by
  obtain ⟨-, -, hfit, -⟩ := desc_fits desc hdesc
  have h : (i + 1) * desc.blockSize ≤ desc.blocksPerArena * desc.blockSize :=
    Nat.mul_le_mul_right _ hi
  rw [Nat.succ_mul] at h
  omega

theorem blockAt_injective (hdesc : desc ∈ descs) : Function.Injective (blockAt a desc) := by
  intro i j h
  simp only [blockAt, Nat.add_left_cancel_iff] at h
  exact Nat.eq_of_mul_eq_mul_right (desc_fits desc hdesc).1 h

theorem mem_blocksOf : b ∈ blocksOf a o ↔ (o = none ∧ b = a + arenaSize) ∨
    ∃ d desc i, o = some d ∧ descs[d]? = some desc ∧ i < desc.blocksPerArena ∧
      b = blockAt a desc i := by
  unfold blocksOf
  rcases o with _ | d
  · simp
  · rcases hdesc : descs[d]? with _ | desc
    · simp [hdesc]
    · simp [hdesc, eq_comm]

theorem blocksOf_nodup : (blocksOf a o).Nodup := by
  unfold blocksOf
  split
  · split
    · rename_i hdesc
      exact List.nodup_range.map (blockAt_injective (List.mem_of_getElem? hdesc))
    · exact List.nodup_nil
  · exact List.nodup_singleton _

/-- A block's offset in its arena's first page. -/
theorem pgOfs_of_mem (ha : pgOfs a = 0) (hb : b ∈ blocksOf a o) :
    (o = none ∧ b = a + arenaSize ∧ pgOfs b = arenaSize) ∨
      ∃ d desc i, o = some d ∧ descs[d]? = some desc ∧ i < desc.blocksPerArena ∧
        b = blockAt a desc i ∧ pgOfs b = arenaSize + i * desc.blockSize := by
  rcases mem_blocksOf.mp hb with ⟨hd, rfl⟩ | ⟨d, desc, i, hd, hdesc, hi, rfl⟩
  · refine .inl ⟨hd, rfl, ?_⟩
    simp only [pgOfs, pgSize, arenaSize] at ha ⊢
    omega
  · have hfit := blockAt_fits (List.mem_of_getElem? hdesc) hi
    have hpos := (desc_fits desc (List.mem_of_getElem? hdesc)).1
    refine .inr ⟨d, desc, i, hd, hdesc, hi, rfl, ?_⟩
    simp only [pgOfs, pgSize, blockAt, arenaSize] at ha hfit ⊢
    omega

theorem pgRoundDown_of_mem (ha : pgOfs a = 0) (hb : b ∈ blocksOf a o) : pgRoundDown b = a := by
  unfold pgRoundDown
  rcases pgOfs_of_mem ha hb with ⟨-, rfl, h⟩ | ⟨d, desc, i, -, -, -, rfl, h⟩
  · rw [h]
    omega
  · rw [h, blockAt]
    omega

/-- The block is on one of the arena's block boundaries, as `block_to_arena`
checks. -/
theorem blockAligned_of_mem (ha : pgOfs a = 0) (hb : b ∈ blocksOf a hdr.desc) :
    blockAligned hdr b = some true := by
  unfold blockAligned
  rcases pgOfs_of_mem ha hb with ⟨hd, -, h⟩ | ⟨d, desc, i, hd, hdesc, hi, -, h⟩
  · simp [hd, h]
  · have hfit := blockAt_fits (List.mem_of_getElem? hdesc) hi
    have hwrap : (pgOfs b + 2 ^ 32 - arenaSize) % 2 ^ 32 = i * desc.blockSize := by
      rw [h]
      simp only [pgSize, arenaSize] at hfit ⊢
      omega
    rw [hd]
    dsimp only
    rw [hdesc, Option.map_some, hwrap]
    simp [Nat.mul_mod_left]

theorem blockToArena_of_mem {H : Heap} (hA : H.arenas a = some hdr) (ha : 0 < a ∧ pgOfs a = 0)
    (hb : b ∈ blocksOf a hdr.desc) : H.blockToArena b = some a := by
  unfold Heap.blockToArena
  simp [pgRoundDown_of_mem ha.2 hb, Nat.pos_iff_ne_zero.mp ha.1, hA, blockAligned_of_mem ha.2 hb]

theorem arenaToBlock_eq {H : Heap} (hA : H.arenas a = some hdr) (hd : hdr.desc = some d)
    (hdesc : descs[d]? = some desc) (ha : 0 < a) (hi : i < desc.blocksPerArena) :
    H.arenaToBlock a i = some (blockAt a desc i) := by
  unfold Heap.arenaToBlock
  simp [Nat.pos_iff_ne_zero.mp ha, hA, hd, hdesc, Nat.not_le.mpr hi, blockAt]

theorem le_of_mem_blocksOf (hb : b ∈ blocksOf a o) : a + arenaSize ≤ b := by
  rcases mem_blocksOf.mp hb with ⟨-, rfl⟩ | ⟨d, desc, i, -, -, -, rfl⟩
  · exact Nat.le_refl _
  · exact Nat.le_add_right _ _

/-- The loop of `malloc` that pushes a new arena's blocks reads them in order. -/
theorem mapM_arenaToBlock {H : Heap} (hA : H.arenas a = some hdr) (hd : hdr.desc = some d)
    (hdesc : descs[d]? = some desc) (ha : 0 < a) :
    ∀ is : List Nat, (∀ i ∈ is, i < desc.blocksPerArena) →
      is.mapM (fun i => H.arenaToBlock a i) = some (is.map (blockAt a desc))
  | [], _ => rfl
  | i :: is, hi => by
    rw [List.mapM_cons, arenaToBlock_eq hA hd hdesc ha (hi i List.mem_cons_self),
      mapM_arenaToBlock hA hd hdesc ha is fun j hj => hi j (List.mem_cons_of_mem _ hj)]
    rfl

/-- `malloc` makes a new arena for descriptor `d` on the page it got. -/
theorem newArena_eq {H : Heap} {P' : Palloc}
    (hg : pallocGetMultiple H.palloc noFlags 1 = some (P', some a))
    (hdesc : descs[d]? = some desc) (ha : 0 < a) :
    H.newArena d desc = some (({ H with palloc := P' }.setArena a
      (some ⟨some d, desc.blocksPerArena⟩)).setFreeList d (H.freeList d ++ blocksOf a (some d)),
        true) := by
  have hA : ({ H with palloc := P' }.setArena a (some ⟨some d, desc.blocksPerArena⟩)).arenas a =
      some ⟨some d, desc.blocksPerArena⟩ := by simp
  have hm := mapM_arenaToBlock hA rfl hdesc ha (List.range desc.blocksPerArena)
    fun i hi => List.mem_range.mp hi
  simp [Heap.newArena, hg, hm, blocksOf, hdesc]

end Geometry

/-- The heap once `malloc` has put a new arena for descriptor `d` (whose record
is `desc`) on the page `a` the page allocator, now `P'`, handed out, and pushed
its blocks onto the descriptor's empty free list. -/
def Heap.addArena (H : Heap) (P' : Palloc) (a d : Nat) (desc : Desc) : Heap :=
  ({ H with palloc := P' }.setArena a (some ⟨some d, desc.blocksPerArena⟩)).setFreeList d
    (blocksOf a (some d))

/-- With the flags `0`, `palloc_get_multiple` never panics. -/
theorem pallocGetMultiple_noFlags (P : Palloc) (n : Nat) :
    ∃ P' r, pallocGetMultiple P noFlags n = some (P', r) := by
  rcases hg : pallocGetMultiple P noFlags n with _ | ⟨P', r⟩
  · rcases Nat.eq_zero_or_pos n with rfl | hn
    · simp [pallocGetMultiple] at hg
    · have hspec := pallocGetMultiple_spec P noFlags hn
      rw [hg] at hspec
      exact absurd hspec.1 (by decide)
  · exact ⟨P', r, rfl⟩

/-- Facts about the arenas' descriptors hold alike in two heaps whose arenas have
the same descriptors. -/
theorem exists_arena_congr {f g : Nat → Option Arena}
    (hfg : ∀ x, (f x).map (·.desc) = (g x).map (·.desc)) (Q : Nat → Option Nat → Prop) :
    (∃ x hdr, f x = some hdr ∧ Q x hdr.desc) ↔ (∃ x hdr, g x = some hdr ∧ Q x hdr.desc) := by
  constructor
  · rintro ⟨x, hdr, hf, hQ⟩
    have hx := hfg x
    rw [hf, Option.map_some] at hx
    obtain ⟨hdr', hg, he⟩ := Option.map_eq_some_iff.mp hx.symm
    exact ⟨x, hdr', hg, he ▸ hQ⟩
  · rintro ⟨x, hdr, hg, hQ⟩
    have hx := hfg x
    rw [hg, Option.map_some] at hx
    obtain ⟨hdr', hf, he⟩ := Option.map_eq_some_iff.mp hx
    exact ⟨x, hdr', hf, he ▸ hQ⟩

/-- A header with its `free_cnt` changed keeps every arena's descriptor. -/
theorem desc_update_freeCnt {f : Nat → Option Arena} {a : Nat} {hdr : Arena}
    (hA : f a = some hdr) (n : Nat) (x : Nat) :
    (Function.update f a (some { hdr with freeCnt := n }) x).map (·.desc) = (f x).map (·.desc) := by
  by_cases hx : x = a
  · subst hx
    simp [hA]
  · simp [hx]

/-! ## The books -/

namespace MallocSys

/-- What the allocator keeps between calls, short of every small arena having a
block handed out. -/
structure Books (S : MallocSys) : Prop where
  runs : ∃ runs, PallocSys.Inv ⟨S.heap.palloc, runs⟩ ∧
    ∀ a n, (a, n) ∈ runs ↔ ∃ hdr, S.heap.arenas a = some hdr ∧ arenaPages hdr = n
  desc : ∀ a hdr d, S.heap.arenas a = some hdr → hdr.desc = some d → d < descs.length
  big : ∀ a hdr, S.heap.arenas a = some hdr → hdr.desc = none →
    0 < hdr.freeCnt ∧ a + arenaSize ∈ S.live
  liveNodup : S.live.Nodup
  liveMem : ∀ b ∈ S.live, ∃ a hdr, S.heap.arenas a = some hdr ∧ b ∈ blocksOf a hdr.desc
  freeNodup : ∀ d, (S.heap.freeList d).Nodup
  freeMem : ∀ d b, b ∈ S.heap.freeList d ↔ ∃ a hdr, S.heap.arenas a = some hdr ∧
    hdr.desc = some d ∧ b ∈ blocksOf a hdr.desc ∧ b ∉ S.live
  count : ∀ a hdr d, S.heap.arenas a = some hdr → hdr.desc = some d →
    hdr.freeCnt = ((S.heap.freeList d).filter (· ∈ blocksOf a hdr.desc)).length

/-- The arena at `a`, if it is a small one, has a block handed out. -/
def InUseAt (S : MallocSys) (a : Nat) : Prop :=
  ∀ hdr d, S.heap.arenas a = some hdr → hdr.desc = some d →
    ∃ b ∈ blocksOf a hdr.desc, b ∈ S.live

/-- The books, and every small arena has a block handed out. -/
structure Inv (S : MallocSys) : Prop where
  books : S.Books
  inUse : ∀ a, S.InUseAt a

namespace Books

variable {S : MallocSys} {a a' b d : Nat} {hdr hdr' : Arena}

/-- Arenas start on page boundaries above `NULL`: they are the page allocator's
runs. -/
theorem start (h : S.Books) (hA : S.heap.arenas a = some hdr) : 0 < a ∧ pgOfs a = 0 := by
  obtain ⟨runs, hP, hruns⟩ := h.runs
  exact hP.start ((hruns a _).mpr ⟨hdr, hA, rfl⟩)

/-- A block belongs to one arena. -/
theorem arena_eq (h : S.Books) (hA : S.heap.arenas a = some hdr)
    (hA' : S.heap.arenas a' = some hdr') (hb : b ∈ blocksOf a hdr.desc)
    (hb' : b ∈ blocksOf a' hdr'.desc) : a = a' :=
  (pgRoundDown_of_mem (h.start hA).2 hb).symm.trans (pgRoundDown_of_mem (h.start hA').2 hb')

theorem descAt (h : S.Books) (hA : S.heap.arenas a = some hdr) (hd : hdr.desc = some d) :
    ∃ desc, descs[d]? = some desc := by
  have hlt := h.desc a hdr d hA hd
  exact ⟨descs[d], List.getElem?_eq_getElem hlt⟩

/-- No block of a page that holds no arena is handed out or on a free list. -/
theorem not_mem_of_fresh (h : S.Books) (hfresh : S.heap.arenas a = none) (ha : pgOfs a = 0)
    {o : Option Nat} (hb : b ∈ blocksOf a o) : b ∉ S.live ∧ ∀ d, b ∉ S.heap.freeList d := by
  have hne : ∀ a' hdr', S.heap.arenas a' = some hdr' → b ∈ blocksOf a' hdr'.desc → False := by
    intro a' hdr' hA' hb'
    have he : a' = a :=
      (pgRoundDown_of_mem (h.start hA').2 hb').symm.trans (pgRoundDown_of_mem ha hb)
    rw [he, hfresh] at hA'
    cases hA'
  refine ⟨fun hl => ?_, fun d hf => ?_⟩
  · obtain ⟨a', hdr', hA', hb'⟩ := h.liveMem b hl
    exact hne a' hdr' hA' hb'
  · obtain ⟨a', hdr', hA', -, hb', -⟩ := (h.freeMem d b).mp hf
    exact hne a' hdr' hA' hb'

/-- A run the page allocator just handed out holds no arena. -/
theorem fresh {runs : List (Nat × Nat)} {P : Palloc} {n : Nat}
    (hruns : ∀ a n, (a, n) ∈ runs ↔ ∃ hdr, S.heap.arenas a = some hdr ∧ arenaPages hdr = n)
    (hP : PallocSys.Inv ⟨P, (a, n) :: runs⟩) : S.heap.arenas a = none := by
  rcases hA : S.heap.arenas a with _ | hdr
  · rfl
  · have hmem : (a, arenaPages hdr) ∈ runs := (hruns a _).mpr ⟨hdr, hA, rfl⟩
    have hapart := List.rel_of_pairwise_cons hP.pairwise hmem
    have hn := hP.pos (a, n) List.mem_cons_self
    have hm := hP.pos _ (List.mem_cons_of_mem _ hmem)
    exact absurd ⟨Nat.le_refl a, by simp only [pgSize]; omega⟩
      (hapart a (Nat.le_refl a) (by simp only [pgSize]; omega))

/-- `list_pop_front` takes the first block off descriptor `d`'s list and counts it
used in its arena: the books hold with the block handed out. -/
theorem pop (h : S.Books) {rest : List Nat} (hl : S.heap.freeList d = b :: rest)
    (hA : S.heap.arenas a = some hdr) (hd : hdr.desc = some d) (hb : b ∈ blocksOf a hdr.desc)
    (hnl : b ∉ S.live) :
    (⟨(S.heap.setFreeList d rest).setArena a (some { hdr with freeCnt := hdr.freeCnt - 1 }),
      b :: S.live⟩ : MallocSys).Books := by
  have hsame := desc_update_freeCnt hA (hdr.freeCnt - 1)
  have hrest : b ∉ rest := (List.nodup_cons.mp (hl ▸ h.freeNodup d)).1
  have hother : ∀ x y, x ≠ a → S.heap.arenas x = some y → b ∉ blocksOf x y.desc :=
    fun x y hx hy hbx => hx (h.arena_eq hy hA hbx hb)
  obtain ⟨runs, hP, hruns⟩ := h.runs
  refine ⟨⟨runs, hP, fun x n => ?_⟩, fun x y d' hx hy => ?_, fun x y hx hy => ?_,
    List.nodup_cons.mpr ⟨hnl, h.liveNodup⟩, fun x hx => ?_, fun d' => ?_, fun d' x => ?_,
    fun x y d' hx hy => ?_⟩ <;> dsimp only at *
  · rw [hruns]
    by_cases hxa : x = a
    · subst hxa
      simp [hA, arenaPages, hd]
    · simp [hxa]
  · by_cases hxa : x = a
    · subst hxa
      simp only [Heap.setArena_arenas, Function.update_self, Option.some.injEq] at hx
      subst hx
      exact h.desc x hdr d' hA hy
    · simp only [Heap.setArena_arenas, Function.update_apply, hxa, if_false,
        Heap.setFreeList_arenas] at hx
      exact h.desc x y d' hx hy
  · by_cases hxa : x = a
    · subst hxa
      simp only [Heap.setArena_arenas, Function.update_self, Option.some.injEq] at hx
      subst hx
      rw [hd] at hy
      cases hy
    · simp only [Heap.setArena_arenas, Function.update_apply, hxa, if_false,
        Heap.setFreeList_arenas] at hx
      exact ⟨(h.big x y hx hy).1, List.mem_cons_of_mem _ (h.big x y hx hy).2⟩
  · refine (exists_arena_congr hsame fun y o => x ∈ blocksOf y o).mpr ?_
    rcases List.mem_cons.mp hx with rfl | hx
    · exact ⟨a, hdr, hA, hb⟩
    · exact h.liveMem x hx
  · by_cases hd' : d' = d
    · subst hd'
      simpa [hl] using (hl ▸ h.freeNodup d').sublist (List.sublist_cons_self b rest)
    · simpa [Function.update_apply, hd'] using h.freeNodup d'
  · refine (Iff.trans ?_ (exists_arena_congr hsame fun y o =>
      o = some d' ∧ x ∈ blocksOf y o ∧ x ∉ b :: S.live).symm)
    simp only [List.mem_cons, not_or]
    have hold := h.freeMem d' x
    by_cases hd' : d' = d
    · subst hd'
      simp only [Heap.setArena_freeList, Heap.setFreeList_freeList, Function.update_self]
      constructor
      · intro hx
        have hxb : x ≠ b := fun he => hrest (he ▸ hx)
        obtain ⟨y, hdr'', hy, h1, h2, h3⟩ := hold.mp (hl ▸ List.mem_cons_of_mem b hx)
        exact ⟨y, hdr'', hy, h1, h2, hxb, h3⟩
      · rintro ⟨y, hdr'', hy, h1, h2, hxb, h3⟩
        have hx := hold.mpr ⟨y, hdr'', hy, h1, h2, h3⟩
        rw [hl] at hx
        exact (List.mem_cons.mp hx).resolve_left hxb
    · simp only [Heap.setArena_freeList, Heap.setFreeList_freeList, Function.update_apply, hd',
        if_false]
      constructor
      · intro hx
        obtain ⟨y, hdr'', hy, h1, h2, h3⟩ := hold.mp hx
        refine ⟨y, hdr'', hy, h1, h2, fun hxb => hd' ?_, h3⟩
        subst hxb
        have hya := h.arena_eq hy hA h2 hb
        subst hya
        rw [hA, Option.some.injEq] at hy
        rw [← Option.some.injEq, ← hd, hy, h1]
      · rintro ⟨y, hdr'', hy, h1, h2, -, h3⟩
        exact hold.mpr ⟨y, hdr'', hy, h1, h2, h3⟩
  · by_cases hxa : x = a
    · subst hxa
      simp only [Heap.setArena_arenas, Function.update_self, Option.some.injEq] at hx
      subst hx
      rw [hd, Option.some.injEq] at hy
      subst hy
      have hc := h.count x hdr d hA hd
      rw [hl, List.filter_cons_of_pos (by simpa using hb), List.length_cons] at hc
      simp only [Heap.setArena_freeList, Heap.setFreeList_freeList, Function.update_self]
      omega
    · simp only [Heap.setArena_arenas, Function.update_apply, hxa, if_false,
        Heap.setFreeList_arenas] at hx
      rw [h.count x y d' hx hy]
      by_cases hd' : d' = d
      · subst hd'
        simp only [Heap.setArena_freeList, Heap.setFreeList_freeList, Function.update_self, hl]
        rw [List.filter_cons_of_neg (by simpa using hother x y hxa hx)]
      · simp [hd']

/-- The runs held after the page allocator hands out `(a, n)` for a new arena. -/
theorem runs_add {runs : List (Nat × Nat)} {hnew : Arena} {n : Nat}
    (hruns : ∀ a n, (a, n) ∈ runs ↔ ∃ hdr, S.heap.arenas a = some hdr ∧ arenaPages hdr = n)
    (hfresh : S.heap.arenas a = none) (hpages : arenaPages hnew = n) (x m : Nat) :
    (x, m) ∈ (a, n) :: runs ↔
      ∃ hdr, Function.update S.heap.arenas a (some hnew) x = some hdr ∧ arenaPages hdr = m := by
  rw [List.mem_cons, hruns]
  by_cases hxa : x = a
  · subst hxa
    simp [hfresh, hpages, eq_comm]
  · simp [hxa]

/-- An arena already there is untouched by a new one at a page that held none. -/
theorem update_of_fresh {f : Nat → Option Arena} (hfresh : f a = none) {v : Option Arena}
    {x : Nat} {y : Arena} (hx : f x = some y) : Function.update f a v x = some y := by
  have hxa : x ≠ a := fun he => by rw [he, hfresh] at hx; cases hx
  simp [hxa, hx]

end Books

/-- After `list_pop_front`, the block's arena has it in use, and every other
arena keeps what it had. -/
theorem inUseAt_pop {S : MallocSys} {a b d : Nat} {hdr : Arena} {rest : List Nat}
    (hb : b ∈ blocksOf a hdr.desc) (hold : ∀ x, x ≠ a → S.InUseAt x) (x : Nat) :
    (⟨(S.heap.setFreeList d rest).setArena a (some { hdr with freeCnt := hdr.freeCnt - 1 }),
      b :: S.live⟩ : MallocSys).InUseAt x := by
  intro y d' hy hd'
  dsimp only at hy ⊢
  by_cases hxa : x = a
  · subst hxa
    simp only [Heap.setArena_arenas, Function.update_self, Option.some.injEq] at hy
    subst hy
    exact ⟨b, hb, List.mem_cons_self⟩
  · simp only [Heap.setArena_arenas, Function.update_apply, hxa, if_false,
      Heap.setFreeList_arenas] at hy
    obtain ⟨c, hc, hl⟩ := hold x hxa y d' hy hd'
    exact ⟨c, hc, List.mem_cons_of_mem _ hl⟩

namespace Books

variable {S : MallocSys} {b d : Nat}

/-- `list_pop_front` on a list that starts with `b`: its arena, and what it does. -/
theorem popBlock_eq (h : S.Books) {rest : List Nat} (hl : S.heap.freeList d = b :: rest) :
    ∃ a hdr, S.heap.arenas a = some hdr ∧ hdr.desc = some d ∧ b ∈ blocksOf a hdr.desc ∧
      b ∉ S.live ∧ S.heap.popBlock d = some ((S.heap.setFreeList d rest).setArena a
        (some { hdr with freeCnt := hdr.freeCnt - 1 }), b) := by
  obtain ⟨a, hdr, hA, hd, hb, hnl⟩ := (h.freeMem d b).mp (hl ▸ List.mem_cons_self)
  have hba : (S.heap.setFreeList d rest).blockToArena b = some a :=
    blockToArena_of_mem (by simpa using hA) (h.start hA) hb
  exact ⟨a, hdr, hA, hd, hb, hnl, by simp [Heap.popBlock, hl, hba, hA]⟩

/-- `list_pop_front` from books whose arenas have blocks in use, but perhaps the
one at `a`, which holds the first block. -/
theorem pop_inv (h : S.Books) {a : Nat} {hdr : Arena} (hold : ∀ x, x ≠ a → S.InUseAt x)
    {rest : List Nat} (hl : S.heap.freeList d = b :: rest) (hA : S.heap.arenas a = some hdr)
    (hb : b ∈ blocksOf a hdr.desc) :
    ∃ H', S.heap.popBlock d = some (H', b) ∧ (⟨H', b :: S.live⟩ : MallocSys).Inv := by
  obtain ⟨a', hdr', hA', hd, hb', hnl, hpop⟩ := h.popBlock_eq hl
  have ha : a' = a := h.arena_eq hA' hA hb' hb
  subst ha
  exact ⟨_, hpop, h.pop hl hA' hd hb' hnl, inUseAt_pop hb' hold⟩

/-- The books once `malloc` has made a new arena for descriptor `d`, whose free
list was empty, and pushed its blocks. -/
theorem newArena (h : S.Books) {a : Nat} {desc : Desc} {P' : Palloc}
    (hl : S.heap.freeList d = []) (hdesc : descs[d]? = some desc)
    (hg : pallocGetMultiple S.heap.palloc noFlags 1 = some (P', some a)) :
    (⟨S.heap.addArena P' a d desc, S.live⟩ : MallocSys).Books := by
  obtain ⟨runs, hP, hruns⟩ := h.runs
  have hP' := hP.get hg
  have hfresh := fresh hruns hP'
  have ha := hP'.start List.mem_cons_self
  have hext := fun {x y} => update_of_fresh (v := some ⟨some d, desc.blocksPerArena⟩) (x := x)
    (y := y) hfresh
  have hdlt : d < descs.length := (List.getElem?_eq_some_iff.mp hdesc).1
  refine ⟨⟨_, hP', runs_add hruns hfresh rfl⟩, fun x y d' hx hy => ?_, fun x y hx hy => ?_,
    h.liveNodup, fun x hx => ?_, fun d' => ?_, fun d' x => ?_, fun x y d' hx hy => ?_⟩ <;>
    dsimp only [Heap.addArena] at *
  · by_cases hxa : x = a
    · subst hxa
      simp only [Heap.setFreeList_arenas, Heap.setArena_arenas, Function.update_self,
        Option.some.injEq] at hx
      rw [← hx, Option.some.injEq] at hy
      exact hy ▸ hdlt
    · simp only [Heap.setFreeList_arenas, Heap.setArena_arenas, Function.update_apply, hxa,
        if_false] at hx
      exact h.desc x y d' hx hy
  · by_cases hxa : x = a
    · subst hxa
      simp only [Heap.setFreeList_arenas, Heap.setArena_arenas, Function.update_self,
        Option.some.injEq] at hx
      rw [← hx] at hy
      cases hy
    · simp only [Heap.setFreeList_arenas, Heap.setArena_arenas, Function.update_apply, hxa,
        if_false] at hx
      exact h.big x y hx hy
  · obtain ⟨y, hdr, hy, hb⟩ := h.liveMem x hx
    exact ⟨y, hdr, hext hy, hb⟩
  · by_cases hd' : d' = d
    · subst hd'
      simpa using blocksOf_nodup
    · simpa [hd'] using h.freeNodup d'
  · by_cases hd' : d' = d
    · subst hd'
      simp only [Heap.setFreeList_freeList, Function.update_self]
      constructor
      · intro hx
        exact ⟨a, ⟨some d', desc.blocksPerArena⟩, by simp, rfl, hx,
          (h.not_mem_of_fresh hfresh ha.2 hx).1⟩
      · rintro ⟨y, hdr, hy, h1, h2, h3⟩
        by_cases hya : y = a
        · subst hya
          simp only [Heap.setFreeList_arenas, Heap.setArena_arenas, Function.update_self,
            Option.some.injEq] at hy
          rw [← hy] at h2
          exact h2
        · simp only [Heap.setFreeList_arenas, Heap.setArena_arenas, Function.update_apply, hya,
            if_false] at hy
          have hx := (h.freeMem d' x).mpr ⟨y, hdr, hy, h1, h2, h3⟩
          rw [hl] at hx
          cases hx
    · simp only [Heap.setFreeList_freeList, Function.update_apply, hd', if_false,
        Heap.setArena_freeList]
      rw [h.freeMem d' x]
      constructor
      · rintro ⟨y, hdr, hy, h1, h2, h3⟩
        exact ⟨y, hdr, hext hy, h1, h2, h3⟩
      · rintro ⟨y, hdr, hy, h1, h2, h3⟩
        by_cases hya : y = a
        · subst hya
          simp only [Heap.setFreeList_arenas, Heap.setArena_arenas, Function.update_self,
            Option.some.injEq] at hy
          rw [← hy, Option.some.injEq] at h1
          exact absurd h1.symm hd'
        · simp only [Heap.setFreeList_arenas, Heap.setArena_arenas, Function.update_apply, hya,
            if_false] at hy
          exact ⟨y, hdr, hy, h1, h2, h3⟩
  · by_cases hxa : x = a
    · subst hxa
      simp only [Heap.setFreeList_arenas, Heap.setArena_arenas, Function.update_self,
        Option.some.injEq] at hx
      subst hx
      rw [Option.some.injEq] at hy
      subst hy
      simp only [Heap.setFreeList_freeList, Function.update_self]
      rw [List.filter_eq_self.mpr (by simp)]
      simp [blocksOf, hdesc]
    · simp only [Heap.setFreeList_arenas, Heap.setArena_arenas, Function.update_apply, hxa,
        if_false] at hx
      rw [h.count x y d' hx hy]
      by_cases hd' : d' = d
      · subst hd'
        simp only [Heap.setFreeList_freeList, Function.update_self, hl, List.filter_nil,
          List.length_nil]
        rw [List.filter_eq_nil_iff.mpr fun z hz hzx => hxa ?_]
        · rfl
        · exact (pgRoundDown_of_mem (h.start hx).2 (by simpa using hzx)).symm.trans
            (pgRoundDown_of_mem ha.2 hz)
      · simp [hd']

end Books

/-- A new arena leaves the arenas that were there with the blocks they had in
use. -/
theorem inUseAt_newArena {S : MallocSys} {a d : Nat} {desc : Desc} {P' : Palloc}
    (h : ∀ x, S.InUseAt x) (x : Nat) (hxa : x ≠ a) :
    (⟨S.heap.addArena P' a d desc, S.live⟩ : MallocSys).InUseAt x := by
  intro y d' hy hd'
  dsimp only [Heap.addArena] at hy ⊢
  simp only [Heap.setFreeList_arenas, Heap.setArena_arenas, Function.update_apply, hxa,
    if_false] at hy
  exact h x y d' hy hd'

namespace Inv

variable {S : MallocSys} {a b d n : Nat} {P' : Palloc}

theorem pop (h : S.Inv) {rest : List Nat} (hl : S.heap.freeList d = b :: rest) :
    ∃ H', S.heap.popBlock d = some (H', b) ∧ (⟨H', b :: S.live⟩ : MallocSys).Inv := by
  obtain ⟨a, hdr, hA, -, hb, -, -⟩ := h.books.popBlock_eq hl
  exact h.books.pop_inv (fun x _ => h.inUse x) hl hA hb

/-- A page request that finds no page changes only the page allocator. -/
theorem pallocFail (h : S.Inv) (hg : pallocGetMultiple S.heap.palloc noFlags n = some (P', none)) :
    (⟨{ S.heap with palloc := P' }, S.live⟩ : MallocSys).Inv := by
  obtain ⟨runs, hP, hruns⟩ := h.books.runs
  obtain ⟨-, hdesc, hbig, hnd, hlm, hfn, hfm, hc⟩ := h.books
  exact ⟨⟨⟨runs, hP.get hg, hruns⟩, hdesc, hbig, hnd, hlm, hfn, hfm, hc⟩, h.inUse⟩

/-- A big block: a new arena of `n` pages whose one block is handed out. -/
theorem bigArena (h : S.Inv) (hg : pallocGetMultiple S.heap.palloc noFlags n = some (P', some a)) :
    (⟨{ S.heap with palloc := P' }.setArena a (some ⟨none, n⟩), (a + arenaSize) :: S.live⟩ :
      MallocSys).Inv := by
  obtain ⟨runs, hP, hruns⟩ := h.books.runs
  have hP' := hP.get hg
  have hfresh := Books.fresh hruns hP'
  have ha := hP'.start List.mem_cons_self
  have hn : 0 < n := hP'.pos _ List.mem_cons_self
  have hnew : a + arenaSize ∈ blocksOf a none := by simp [blocksOf]
  have hnot := h.books.not_mem_of_fresh hfresh ha.2 hnew
  have hext := fun {x y} => Books.update_of_fresh (v := some ⟨none, n⟩) (x := x) (y := y) hfresh
  refine ⟨⟨⟨_, hP', Books.runs_add hruns hfresh rfl⟩, fun x y d' hx hy => ?_,
    fun x y hx hy => ?_, List.nodup_cons.mpr ⟨hnot.1, h.books.liveNodup⟩, fun x hx => ?_,
    h.books.freeNodup, fun d' x => ?_, fun x y d' hx hy => ?_⟩, fun x y d' hx hy => ?_⟩ <;>
    dsimp only at *
  · by_cases hxa : x = a
    · subst hxa
      simp only [Heap.setArena_arenas, Function.update_self, Option.some.injEq] at hx
      rw [← hx] at hy
      cases hy
    · simp only [Heap.setArena_arenas, Function.update_apply, hxa, if_false] at hx
      exact h.books.desc x y d' hx hy
  · by_cases hxa : x = a
    · subst hxa
      simp only [Heap.setArena_arenas, Function.update_self, Option.some.injEq] at hx
      subst hx
      exact ⟨hn, List.mem_cons_self⟩
    · simp only [Heap.setArena_arenas, Function.update_apply, hxa, if_false] at hx
      exact ⟨(h.books.big x y hx hy).1, List.mem_cons_of_mem _ (h.books.big x y hx hy).2⟩
  · rcases List.mem_cons.mp hx with he | hx
    · exact ⟨a, ⟨none, n⟩, by simp, he ▸ hnew⟩
    · obtain ⟨y, hdr, hy, hb⟩ := h.books.liveMem x hx
      exact ⟨y, hdr, hext hy, hb⟩
  · simp only [Heap.setArena_freeList]
    rw [h.books.freeMem d' x]
    constructor
    · rintro ⟨y, hdr, hy, h1, h2, h3⟩
      refine ⟨y, hdr, hext hy, h1, h2, ?_⟩
      intro hx
      rcases List.mem_cons.mp hx with he | hx
      · subst he
        exact hnot.2 d' ((h.books.freeMem d' _).mpr ⟨y, hdr, hy, h1, h2, h3⟩)
      · exact h3 hx
    · rintro ⟨y, hdr, hy, h1, h2, h3⟩
      by_cases hya : y = a
      · subst hya
        simp only [Heap.setArena_arenas, Function.update_self, Option.some.injEq] at hy
        rw [← hy] at h1
        cases h1
      · simp only [Heap.setArena_arenas, Function.update_apply, hya, if_false] at hy
        exact ⟨y, hdr, hy, h1, h2, fun hx => h3 (List.mem_cons_of_mem _ hx)⟩
  · by_cases hxa : x = a
    · subst hxa
      simp only [Heap.setArena_arenas, Function.update_self, Option.some.injEq] at hx
      rw [← hx] at hy
      cases hy
    · simp only [Heap.setArena_arenas, Function.update_apply, hxa, if_false] at hx
      exact h.books.count x y d' hx hy
  · by_cases hxa : x = a
    · subst hxa
      simp only [Heap.setArena_arenas, Function.update_self, Option.some.injEq] at hx
      rw [← hx] at hy
      cases hy
    · simp only [Heap.setArena_arenas, Function.update_apply, hxa, if_false] at hx
      obtain ⟨c, hc, hl⟩ := h.inUse x y d' hx hy
      exact ⟨c, hc, List.mem_cons_of_mem _ hl⟩

/-- `malloc` never fails an `ASSERT` and keeps the books; the block it returns,
if any, is handed out. -/
theorem malloc (h : S.Inv) (size : Nat) :
    ∃ H' b, S.heap.malloc size = some (H', b) ∧ (⟨H', addLive S.live b⟩ : MallocSys).Inv := by
  unfold Heap.malloc
  split_ifs with h0
  · exact ⟨S.heap, 0, rfl, by simpa [addLive] using h⟩
  split
  · obtain ⟨P', r, hg⟩ := pallocGetMultiple_noFlags S.heap.palloc
      ((size + arenaSize + pgSize - 1) % 2 ^ 32 / pgSize)
    cases r with
    | none =>
      exact ⟨{ S.heap with palloc := P' }, 0, by dsimp only; rw [hg]; rfl,
        by simpa [addLive] using h.pallocFail hg⟩
    | some a =>
      exact ⟨{ S.heap with palloc := P' }.setArena a
        (some ⟨none, (size + arenaSize + pgSize - 1) % 2 ^ 32 / pgSize⟩), a + arenaSize,
        by dsimp only; rw [hg]; rfl, by simpa [addLive, arenaSize] using h.bigArena hg⟩
  · rename_i d hfind
    obtain ⟨desc, hdesc⟩ : ∃ desc, descs[d]? = some desc :=
      ⟨_, List.getElem?_eq_getElem (List.findIdx?_eq_some_iff_findIdx_eq.mp hfind).1⟩
    have hfits := desc_fits desc (List.mem_of_getElem? hdesc)
    rcases hl : S.heap.freeList d with _ | ⟨b, rest⟩
    · obtain ⟨P', r, hg⟩ := pallocGetMultiple_noFlags S.heap.palloc 1
      cases r with
      | none =>
        exact ⟨{ S.heap with palloc := P' }, 0, by simp [hdesc, hl, Heap.newArena, hg],
          by simpa [addLive] using h.pallocFail hg⟩
      | some a =>
        obtain ⟨runs, hP, hruns⟩ := h.books.runs
        have ha := (hP.get hg).start List.mem_cons_self
        have hb0 : blockAt a desc 0 ∈ blocksOf a (some d) :=
          mem_blocksOf.mpr (.inr ⟨d, desc, 0, rfl, hdesc, hfits.2.1, rfl⟩)
        have hl' : blocksOf a (some d) = blockAt a desc 0 ::
            (List.range (desc.blocksPerArena - 1)).map fun i => blockAt a desc (i + 1) := by
          simp only [blocksOf, hdesc]
          rw [← Nat.sub_add_cancel hfits.2.1, List.range_succ_eq_map]
          simp [Nat.sub_add_cancel hfits.2.1]
        have hl1 : (S.heap.addArena P' a d desc).freeList d = blockAt a desc 0 ::
            (List.range (desc.blocksPerArena - 1)).map fun i => blockAt a desc (i + 1) := by
          simp [Heap.addArena, hl']
        have hA1 : (S.heap.addArena P' a d desc).arenas a =
            some ⟨some d, desc.blocksPerArena⟩ := by
          simp [Heap.addArena]
        obtain ⟨H', hpop, hinv⟩ := (h.books.newArena hl hdesc hg).pop_inv
          (inUseAt_newArena h.inUse) hl1 hA1 hb0
        have hpos : blockAt a desc 0 ≠ 0 := by
          have := le_of_mem_blocksOf hb0
          simp only [arenaSize] at this
          omega
        refine ⟨H', blockAt a desc 0, ?_, by simpa [addLive, hpos] using hinv⟩
        simp only [hdesc, Option.bind_eq_bind, Option.bind_some, if_true]
        rw [newArena_eq hg hdesc ha.1]
        simpa [Heap.addArena, hl] using hpop
    · obtain ⟨H', hpop, hinv⟩ := h.pop hl
      obtain ⟨y, hdr, -, hby⟩ := hinv.books.liveMem b List.mem_cons_self
      have hpos : b ≠ 0 := by
        have := le_of_mem_blocksOf hby
        simp only [arenaSize] at this
        omega
      exact ⟨H', b, by simp [hdesc, hpop], by simpa [addLive, hpos] using hinv⟩

end Inv

end MallocSys

end Pintos.Threads

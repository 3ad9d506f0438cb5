import Pintos.Threads.MallocArenas

/-!
# `free` keeps the books

`free` pushes a block back onto its descriptor's list and counts it free in its
arena (`Books.push`). When that makes every block of the arena free, the list
holds all of them (`FreeList.mem_of_count_eq`), so each `list_remove` of the
loop finds its block (`unlink_fold`), and the page goes back to the page
allocator with none of its blocks left on a list (`Books.release`); a big block's
pages go back at once.
-/

namespace Pintos.Threads

namespace Heap

@[simp] theorem setFreeList_self (H : Heap) (d : Nat) : H.setFreeList d (H.freeList d) = H := by
  simp [setFreeList]

@[simp] theorem setFreeList_setFreeList (H : Heap) (d : Nat) (l l' : List Nat) :
    (H.setFreeList d l).setFreeList d l' = H.setFreeList d l' := by
  simp [setFreeList]

end Heap

theorem ne_zero_of_mem_blocksOf {a b : Nat} {o : Option Nat} (hb : b ∈ blocksOf a o) : b ≠ 0 := by
  have := le_of_mem_blocksOf hb
  simp only [arenaSize] at this
  omega

theorem blocksOf_some {a d : Nat} {desc : Desc} (hdesc : descs[d]? = some desc) :
    blocksOf a (some d) = (List.range desc.blocksPerArena).map (blockAt a desc) := by
  simp [blocksOf, hdesc]

/-- The loop of `free` that unlinks the blocks `is` of an arena, all on the list:
each `list_remove` finds its block, and the list loses exactly those blocks. -/
theorem unlink_fold {a d : Nat} {hdr : Arena} {desc : Desc} (hd : hdr.desc = some d)
    (hdesc : descs[d]? = some desc) (ha : 0 < a) :
    ∀ (is : List Nat) (H : Heap), H.arenas a = some hdr → (∀ i ∈ is, i < desc.blocksPerArena) →
      is.Nodup → (H.freeList d).Nodup → (∀ i ∈ is, blockAt a desc i ∈ H.freeList d) →
      is.foldlM (fun H i => do H.unlink d (← H.arenaToBlock a i)) H =
        some (H.setFreeList d ((H.freeList d).filter (· ∉ is.map (blockAt a desc))))
  | [], H, _, _, _, _, _ => by simp
  | i :: is, H, hA, hi, hnd, hL, hmem => by
    have hinj := blockAt_injective (a := a) (List.mem_of_getElem? hdesc)
    have hin := hmem i List.mem_cons_self
    have hunlink : H.unlink d (blockAt a desc i) =
        some (H.setFreeList d ((H.freeList d).erase (blockAt a desc i))) := by
      simp [Heap.unlink, hin]
    have hrest : ∀ j ∈ is, blockAt a desc j ∈ (H.setFreeList d
        ((H.freeList d).erase (blockAt a desc i))).freeList d := by
      intro j hj
      have hji : j ≠ i := fun he => (List.nodup_cons.mp hnd).1 (he ▸ hj)
      simpa [List.mem_erase_of_ne (hinj.ne hji)] using hmem j (List.mem_cons_of_mem _ hj)
    have ih := unlink_fold hd hdesc ha is _ (by simpa using hA)
      (fun j hj => hi j (List.mem_cons_of_mem _ hj)) (List.nodup_cons.mp hnd).2
      (by simpa using hL.erase _) hrest
    rw [List.foldlM_cons, arenaToBlock_eq hA hd hdesc ha (hi i List.mem_cons_self)]
    simp only [Option.bind_eq_bind, Option.bind_some, hunlink] at ih ⊢
    rw [ih]
    simp only [Heap.setFreeList_freeList, Function.update_self, Heap.setFreeList_setFreeList,
      hL.erase_eq_filter, List.filter_filter]
    congr 2
    apply List.filter_congr
    intro x _
    by_cases hx : x = blockAt a desc i <;> simp [hx]

namespace MallocSys

namespace Books

variable {S : MallocSys} {a b d p : Nat} {hdr : Arena}

/-- A block handed out is on no free list. -/
theorem not_mem_freeList (h : S.Books) (hp : p ∈ S.live) (d : Nat) : p ∉ S.heap.freeList d :=
  fun hf => by
    obtain ⟨-, -, -, -, -, hnl⟩ := (h.freeMem d p).mp hf
    exact hnl hp

/-- `free` of a block handed out pushes it onto its descriptor's list and counts
it free in its arena. -/
theorem push (h : S.Books) (hA : S.heap.arenas a = some hdr) (hd : hdr.desc = some d)
    (hp : p ∈ blocksOf a hdr.desc) (hpl : p ∈ S.live) :
    (⟨(S.heap.setFreeList d (p :: S.heap.freeList d)).setArena a
      (some { hdr with freeCnt := hdr.freeCnt + 1 }), S.live.erase p⟩ : MallocSys).Books := by
  have hsame := desc_update_freeCnt hA (hdr.freeCnt + 1)
  have hpL := h.not_mem_freeList hpl d
  have hother : ∀ x y, x ≠ a → S.heap.arenas x = some y → p ∉ blocksOf x y.desc :=
    fun x y hx hy hpx => hx (h.arena_eq hy hA hpx hp)
  have herase : ∀ x, x ∈ S.live.erase p ↔ x ≠ p ∧ x ∈ S.live :=
    fun x => h.liveNodup.mem_erase_iff
  obtain ⟨runs, hP, hruns⟩ := h.runs
  refine ⟨⟨runs, hP, fun x n => ?_⟩, fun x y d' hx hy => ?_, fun x y hx hy => ?_,
    h.liveNodup.erase p, fun x hx => ?_, fun d' => ?_, fun d' x => ?_,
    fun x y d' hx hy => ?_⟩ <;> dsimp only at *
  · rw [hruns]
    by_cases hxa : x = a
    · subst hxa
      simp [hA, arenaPages, hd]
    · simp [hxa]
  · by_cases hxa : x = a
    · subst hxa
      simp only [Heap.setArena_arenas, Function.update_self, Option.some.injEq] at hx
      subst hx
      exact h.desc x hdr d' hA hy
    · simp only [Heap.setArena_arenas, Function.update_apply, hxa, if_false,
        Heap.setFreeList_arenas] at hx
      exact h.desc x y d' hx hy
  · by_cases hxa : x = a
    · subst hxa
      simp only [Heap.setArena_arenas, Function.update_self, Option.some.injEq] at hx
      subst hx
      rw [hd] at hy
      cases hy
    · simp only [Heap.setArena_arenas, Function.update_apply, hxa, if_false,
        Heap.setFreeList_arenas] at hx
      obtain ⟨hpos, hmem⟩ := h.big x y hx hy
      refine ⟨hpos, (herase _).mpr ⟨fun he => hother x y hxa hx ?_, hmem⟩⟩
      rw [← he, hy]
      simp [blocksOf]
  · refine (exists_arena_congr hsame fun y o => x ∈ blocksOf y o).mpr ?_
    exact h.liveMem x ((herase x).mp hx).2
  · by_cases hd' : d' = d
    · subst hd'
      simpa using List.nodup_cons.mpr ⟨hpL, h.freeNodup d'⟩
    · simpa [hd'] using h.freeNodup d'
  · refine (Iff.trans ?_ (exists_arena_congr hsame fun y o =>
      o = some d' ∧ x ∈ blocksOf y o ∧ x ∉ S.live.erase p).symm)
    have hold := h.freeMem d' x
    by_cases hd' : d' = d
    · subst hd'
      simp only [Heap.setArena_freeList, Heap.setFreeList_freeList, Function.update_self,
        List.mem_cons]
      constructor
      · rintro (rfl | hx)
        · exact ⟨a, hdr, hA, hd, hp, fun hx => ((herase _).mp hx).1 rfl⟩
        · obtain ⟨y, hdr', hy, h1, h2, h3⟩ := hold.mp hx
          exact ⟨y, hdr', hy, h1, h2, fun hx => h3 ((herase _).mp hx).2⟩
      · rintro ⟨y, hdr', hy, h1, h2, h3⟩
        by_cases hxp : x = p
        · exact .inl hxp
        · exact .inr (hold.mpr ⟨y, hdr', hy, h1, h2, fun hx => h3 ((herase _).mpr ⟨hxp, hx⟩)⟩)
    · simp only [Heap.setArena_freeList, Heap.setFreeList_freeList, Function.update_apply, hd',
        if_false]
      constructor
      · intro hx
        obtain ⟨y, hdr', hy, h1, h2, h3⟩ := hold.mp hx
        exact ⟨y, hdr', hy, h1, h2, fun hx => h3 ((herase _).mp hx).2⟩
      · rintro ⟨y, hdr', hy, h1, h2, h3⟩
        refine hold.mpr ⟨y, hdr', hy, h1, h2, fun hx => h3 ((herase _).mpr ⟨?_, hx⟩)⟩
        rintro rfl
        have hya := h.arena_eq hy hA h2 hp
        subst hya
        rw [hA, Option.some.injEq] at hy
        rw [← hy, hd, Option.some.injEq] at h1
        exact hd' h1.symm
  · by_cases hxa : x = a
    · subst hxa
      simp only [Heap.setArena_arenas, Function.update_self, Option.some.injEq] at hx
      subst hx
      rw [hd, Option.some.injEq] at hy
      subst hy
      have hc := h.count x hdr d hA hd
      simp only [Heap.setArena_freeList, Heap.setFreeList_freeList, Function.update_self]
      rw [List.filter_cons_of_pos (by simpa using hp), List.length_cons]
      omega
    · simp only [Heap.setArena_arenas, Function.update_apply, hxa, if_false,
        Heap.setFreeList_arenas] at hx
      rw [h.count x y d' hx hy]
      by_cases hd' : d' = d
      · subst hd'
        simp only [Heap.setArena_freeList, Heap.setFreeList_freeList, Function.update_self]
        rw [List.filter_cons_of_neg (by simpa using hother x y hxa hx)]
      · simp [hd']

/-- An arena given back to the page allocator, with `p` its last block handed out
and none of its blocks left on a list. -/
theorem release (h : S.Books) (hA : S.heap.arenas a = some hdr) (hp : p ∈ blocksOf a hdr.desc)
    (hsole : ∀ x ∈ blocksOf a hdr.desc, x ∈ S.live → x = p) {runs : List (Nat × Nat)}
    (hruns : ∀ a n, (a, n) ∈ runs ↔ ∃ hdr, S.heap.arenas a = some hdr ∧ arenaPages hdr = n)
    (hP : PallocSys.Inv ⟨S.heap.palloc, runs⟩) {H' : Heap}
    (hP' : PallocSys.Inv ⟨H'.palloc, runs.erase (a, arenaPages hdr)⟩)
    (harenas : H'.arenas = Function.update S.heap.arenas a none)
    (hfree : ∀ d, H'.freeList d = (S.heap.freeList d).filter (· ∉ blocksOf a hdr.desc)) :
    (⟨H', S.live.erase p⟩ : MallocSys).Books := by
  have herase : ∀ x, x ∈ S.live.erase p ↔ x ≠ p ∧ x ∈ S.live :=
    fun x => h.liveNodup.mem_erase_iff
  -- an arena left is another one than `a`, with its blocks apart from `a`'s
  have hleft : ∀ x y, H'.arenas x = some y → x ≠ a ∧ S.heap.arenas x = some y := by
    intro x y hx
    rw [harenas] at hx
    by_cases hxa : x = a
    · subst hxa
      simp at hx
    · simp only [Function.update_apply, hxa, if_false] at hx
      exact ⟨hxa, hx⟩
  have hapart : ∀ x y z, x ≠ a → S.heap.arenas x = some y → z ∈ blocksOf x y.desc →
      z ∉ blocksOf a hdr.desc := fun x y z hxa hx hz hza => hxa (h.arena_eq hx hA hz hza)
  refine ⟨⟨_, hP', fun x n => ?_⟩, fun x y d' hx hy => ?_, fun x y hx hy => ?_,
    h.liveNodup.erase p, fun x hx => ?_, fun d' => ?_, fun d' x => ?_,
    fun x y d' hx hy => ?_⟩ <;> dsimp only at *
  · rw [hP.nodup.mem_erase_iff, hruns, harenas]
    by_cases hxa : x = a
    · subst hxa
      simp only [ne_eq, Prod.mk.injEq, true_and, Function.update_self, reduceCtorEq,
        false_and, exists_false, iff_false, not_and]
      rintro hn ⟨hdr', hA', rfl⟩
      rw [hA, Option.some.injEq] at hA'
      exact hn (by rw [hA'])
    · simp [hxa]
  · obtain ⟨-, hx⟩ := hleft x y hx
    exact h.desc x y d' hx hy
  · obtain ⟨hxa, hx⟩ := hleft x y hx
    obtain ⟨hpos, hmem⟩ := h.big x y hx hy
    refine ⟨hpos, (herase _).mpr ⟨fun he => hapart x y _ hxa hx ?_ (he ▸ hp), hmem⟩⟩
    rw [hy]
    simp [blocksOf]
  · obtain ⟨hxp, hxl⟩ := (herase x).mp hx
    obtain ⟨y, hdr', hy, hxy⟩ := h.liveMem x hxl
    have hya : y ≠ a := by
      rintro rfl
      rw [hA, Option.some.injEq] at hy
      exact hxp (hsole x (hy ▸ hxy) hxl)
    refine ⟨y, hdr', ?_, hxy⟩
    rw [harenas]
    simp [hya, hy]
  · rw [hfree]
    exact (h.freeNodup d').filter _
  · rw [hfree, List.mem_filter, h.freeMem d' x]
    constructor
    · rintro ⟨⟨y, hdr', hy, h1, h2, h3⟩, hxa⟩
      have hya : y ≠ a := by
        rintro rfl
        rw [hA, Option.some.injEq] at hy
        exact (by simpa using hxa : x ∉ blocksOf y hdr.desc) (hy ▸ h2)
      refine ⟨y, hdr', ?_, h1, h2, fun hx => h3 ((herase x).mp hx).2⟩
      rw [harenas]
      simp [hya, hy]
    · rintro ⟨y, hdr', hy, h1, h2, h3⟩
      obtain ⟨hya, hy⟩ := hleft y hdr' hy
      have hxa := hapart y hdr' x hya hy h2
      have hxp : x ≠ p := fun he => hxa (he ▸ hp)
      exact ⟨⟨y, hdr', hy, h1, h2, fun hx => h3 ((herase x).mpr ⟨hxp, hx⟩)⟩, by simpa using hxa⟩
  · obtain ⟨hxa, hx⟩ := hleft x y hx
    rw [h.count x y d' hx hy, hfree, List.filter_filter]
    congr 1
    apply List.filter_congr
    intro z _
    by_cases hz : z ∈ blocksOf x y.desc
    · simp [hz, hapart x y z hxa hx hz]
    · simp [hz]

end Books

/-- Freeing `p` leaves every other arena with the blocks it had in use. -/
theorem inUseAt_free {S : MallocSys} {a p : Nat} {hdr : Arena} {H' : Heap} (h : S.Books)
    (hA : S.heap.arenas a = some hdr) (hp : p ∈ blocksOf a hdr.desc) (hin : ∀ x, S.InUseAt x)
    (harenas : ∀ x, x ≠ a → H'.arenas x = S.heap.arenas x) (x : Nat) (hxa : x ≠ a) :
    (⟨H', S.live.erase p⟩ : MallocSys).InUseAt x := by
  intro y d hy hd
  dsimp only at hy ⊢
  rw [harenas x hxa] at hy
  obtain ⟨c, hc, hcl⟩ := hin x y d hy hd
  refine ⟨c, hc, (h.liveNodup.mem_erase_iff).mpr ⟨?_, hcl⟩⟩
  rintro rfl
  exact hxa (h.arena_eq hy hA hc hp)

/-- Freeing `p` and giving its arena back leaves every arena with a block in use. -/
theorem inUseAt_release {S : MallocSys} {a p : Nat} {hdr : Arena} {H' : Heap} (h : S.Books)
    (hA : S.heap.arenas a = some hdr) (hp : p ∈ blocksOf a hdr.desc) (hin : ∀ x, S.InUseAt x)
    (harenas : H'.arenas = Function.update S.heap.arenas a none) (x : Nat) :
    (⟨H', S.live.erase p⟩ : MallocSys).InUseAt x := by
  by_cases hxa : x = a
  · subst hxa
    intro y d hy
    simp [harenas] at hy
  · exact inUseAt_free h hA hp hin (fun y hy => by simp [harenas, hy]) x hxa

namespace Books

variable {S : MallocSys} {a d x : Nat} {hdr : Arena} {desc : Desc}

theorem mem_live_of_not_mem_freeList (h : S.Books) (hA : S.heap.arenas a = some hdr)
    (hd : hdr.desc = some d) (hx : x ∈ blocksOf a hdr.desc) (hnf : x ∉ S.heap.freeList d) :
    x ∈ S.live :=
  Classical.byContradiction fun hnl => hnf ((h.freeMem d x).mpr ⟨a, hdr, hA, hd, hx, hnl⟩)

/-- A small arena counting fewer free blocks than it has has one in use. -/
theorem inUseAt_of_lt (h : S.Books) (hA : S.heap.arenas a = some hdr) (hd : hdr.desc = some d)
    (hdesc : descs[d]? = some desc) (hlt : hdr.freeCnt < desc.blocksPerArena) : S.InUseAt a := by
  intro hdr' d' hA' _
  rw [hA, Option.some.injEq] at hA'
  subst hA'
  have hlen : (blocksOf a hdr.desc).length = desc.blocksPerArena := by
    simp [hd, blocksOf_some hdesc]
  rw [h.count a hdr d hA hd, ← hlen] at hlt
  obtain ⟨x, hx, hnf⟩ := FreeList.exists_not_mem_of_count_lt blocksOf_nodup hlt
  exact ⟨x, hx, h.mem_live_of_not_mem_freeList hA hd hx hnf⟩

theorem freeCnt_le (h : S.Books) (hA : S.heap.arenas a = some hdr) (hd : hdr.desc = some d)
    (hdesc : descs[d]? = some desc) : hdr.freeCnt ≤ desc.blocksPerArena := by
  have hlen : (blocksOf a hdr.desc).length = desc.blocksPerArena := by
    simp [hd, blocksOf_some hdesc]
  rw [h.count a hdr d hA hd, ← hlen]
  exact FreeList.count_le (h.freeNodup d)

theorem zero_not_mem (h : S.Books) : 0 ∉ S.live := fun hl => by
  obtain ⟨a, hdr, -, hb⟩ := h.liveMem 0 hl
  exact ne_zero_of_mem_blocksOf hb rfl

/-- `block_size` of a block of an arena: the descriptor's block size for a small
block, and the bytes from the block to the end of its pages for a big one. -/
theorem blockSize_of_mem (h : S.Books) (hA : S.heap.arenas a = some hdr)
    (hb : x ∈ blocksOf a hdr.desc) :
    (∃ d desc i, hdr.desc = some d ∧ descs[d]? = some desc ∧ i < desc.blocksPerArena ∧
        x = blockAt a desc i ∧ S.heap.blockSize x = some desc.blockSize) ∨
      (hdr.desc = none ∧ x = a + arenaSize ∧
        S.heap.blockSize x = some (pgSize * hdr.freeCnt - arenaSize)) := by
  have hb2a := blockToArena_of_mem (H := S.heap) hA (h.start hA) hb
  rcases pgOfs_of_mem (h.start hA).2 hb with ⟨hd, hxa, hofs⟩ |
      ⟨d, desc, i, hd, hdesc, hi, hxa, -⟩
  · exact .inr ⟨hd, hxa, by simp [Heap.blockSize, hb2a, hA, hd, hofs]⟩
  · exact .inl ⟨d, desc, i, hd, hdesc, hi, hxa, by simp [Heap.blockSize, hb2a, hA, hd, hdesc]⟩

/-- Another descriptor's list holds none of an arena's blocks. -/
theorem not_mem_freeList_of_ne (h : S.Books) (hA : S.heap.arenas a = some hdr)
    (hd : hdr.desc ≠ some d) (hx : x ∈ blocksOf a hdr.desc) : x ∉ S.heap.freeList d := by
  intro hf
  obtain ⟨y, hdr', hy, h1, h2, -⟩ := (h.freeMem d x).mp hf
  have hya := h.arena_eq hy hA h2 hx
  subst hya
  rw [hA, Option.some.injEq] at hy
  exact hd (hy ▸ h1)

theorem filter_freeList_of_ne (h : S.Books) (hA : S.heap.arenas a = some hdr)
    (hd : hdr.desc ≠ some d) :
    (S.heap.freeList d).filter (· ∉ blocksOf a hdr.desc) = S.heap.freeList d := by
  apply List.filter_eq_self.mpr
  intro x hf
  simpa using fun hx => h.not_mem_freeList_of_ne hA hd hx hf

end Books

/-- What `free` of the block `p` of the arena at `a` does to the arena: with
another of its blocks in use the arena stays and the page allocator is untouched;
with none, its page goes back to the page allocator and none of its blocks is left
on a list. -/
def FreeReleases (S : MallocSys) (a p : Nat) (hdr : Arena) (H' : Heap) : Prop :=
  ((∃ x ∈ blocksOf a hdr.desc, x ∈ S.live ∧ x ≠ p) ∧ H'.arenas a ≠ none ∧
      H'.palloc = S.heap.palloc) ∨
    ((∀ x ∈ blocksOf a hdr.desc, x ∈ S.live → x = p) ∧ H'.arenas a = none ∧
      pallocFreeMultiple S.heap.palloc a (arenaPages hdr) = some H'.palloc ∧
      ∀ d, ∀ x ∈ blocksOf a hdr.desc, x ∉ H'.freeList d)

namespace Inv

variable {S : MallocSys} {a p : Nat} {hdr : Arena}

/-- `free` of a big block gives its pages back. -/
theorem freeBig (h : S.Inv) (hA : S.heap.arenas a = some hdr) (hd : hdr.desc = none)
    (hp : p ∈ blocksOf a hdr.desc) :
    ∃ P', pallocFreeMultiple S.heap.palloc a hdr.freeCnt = some P' ∧
      (⟨{ S.heap with palloc := P' }.setArena a none, S.live.erase p⟩ : MallocSys).Inv ∧
      S.FreeReleases a p hdr ({ S.heap with palloc := P' }.setArena a none) := by
  obtain ⟨runs, hP, hruns⟩ := h.books.runs
  have hpages : arenaPages hdr = hdr.freeCnt := by simp [arenaPages, hd]
  obtain ⟨P', hf, hP'⟩ := hP.free ((hruns a _).mpr ⟨hdr, hA, hpages⟩)
  have hsole : ∀ x ∈ blocksOf a hdr.desc, x ∈ S.live → x = p := by
    intro x hx _
    rw [hd] at hx hp
    simp only [blocksOf, List.mem_singleton] at hx hp
    rw [hx, hp]
  have hfree : ∀ d, S.heap.freeList d = (S.heap.freeList d).filter (· ∉ blocksOf a hdr.desc) :=
    fun d => (h.books.filter_freeList_of_ne hA (by simp [hd])).symm
  have harenas : ({ S.heap with palloc := P' }.setArena a none).arenas =
      Function.update S.heap.arenas a none := rfl
  refine ⟨P', hf, ⟨h.books.release hA hp hsole hruns hP (by simpa [hpages] using hP')
    harenas hfree, inUseAt_release h.books hA hp h.inUse harenas⟩,
    .inr ⟨hsole, by simp, by simpa [hpages] using hf, fun d x hx => ?_⟩⟩
  simp only [Heap.setArena_freeList]
  rw [hfree d]
  simp [hx]

variable {d : Nat} {desc : Desc}

/-- `free` of a small block whose arena keeps another block in use: the block is
pushed and counted, and nothing else changes. -/
theorem freeKeep (h : S.Inv) (hA : S.heap.arenas a = some hdr) (hd : hdr.desc = some d)
    (hdesc : descs[d]? = some desc) (hp : p ∈ blocksOf a hdr.desc) (hpl : p ∈ S.live)
    (hlt : hdr.freeCnt + 1 < desc.blocksPerArena) {H₁ : Heap}
    (hH₁ : H₁ = (S.heap.setFreeList d (p :: S.heap.freeList d)).setArena a
      (some { hdr with freeCnt := hdr.freeCnt + 1 })) :
    (⟨H₁, S.live.erase p⟩ : MallocSys).Inv ∧ S.FreeReleases a p hdr H₁ := by
  subst hH₁
  have h₁ := h.books.push hA hd hp hpl
  have hA₁ : ((S.heap.setFreeList d (p :: S.heap.freeList d)).setArena a
      (some { hdr with freeCnt := hdr.freeCnt + 1 })).arenas a =
      some { hdr with freeCnt := hdr.freeCnt + 1 } := by simp
  have hin₁ := h₁.inUseAt_of_lt hA₁ hd hdesc hlt
  obtain ⟨x, hx, hxl⟩ := hin₁ _ d hA₁ hd
  obtain ⟨hxp, hxl⟩ := (h.books.liveNodup.mem_erase_iff).mp hxl
  refine ⟨⟨h₁, fun y => ?_⟩, .inl ⟨⟨x, hx, hxl, hxp⟩, by simp, by simp⟩⟩
  by_cases hya : y = a
  · subst hya
    exact hin₁
  · exact inUseAt_free h.books hA hp h.inUse (fun z hz => by simp [hz]) y hya

/-- `free` of the last block in use of a small arena: all its blocks are then on
the list, the loop unlinks each of them, and the page goes back. -/
theorem freeRelease (h : S.Inv) (hA : S.heap.arenas a = some hdr) (hd : hdr.desc = some d)
    (hdesc : descs[d]? = some desc) (hp : p ∈ blocksOf a hdr.desc) (hpl : p ∈ S.live)
    (hfull : hdr.freeCnt + 1 = desc.blocksPerArena) {H₁ : Heap}
    (hH₁ : H₁ = (S.heap.setFreeList d (p :: S.heap.freeList d)).setArena a
      (some { hdr with freeCnt := hdr.freeCnt + 1 })) :
    ∃ P', pallocFreeMultiple S.heap.palloc a 1 = some P' ∧
      (List.range desc.blocksPerArena).foldlM (fun H i => do H.unlink d (← H.arenaToBlock a i))
        H₁ = some (H₁.setFreeList d ((p :: S.heap.freeList d).filter
          (· ∉ blocksOf a hdr.desc))) ∧
      (⟨{ H₁.setFreeList d ((p :: S.heap.freeList d).filter (· ∉ blocksOf a hdr.desc)) with
        palloc := P' }.setArena a none, S.live.erase p⟩ : MallocSys).Inv ∧
      S.FreeReleases a p hdr ({ H₁.setFreeList d ((p :: S.heap.freeList d).filter
        (· ∉ blocksOf a hdr.desc)) with palloc := P' }.setArena a none) := by
  subst hH₁
  have h₁ := h.books.push hA hd hp hpl
  have hB : (List.range desc.blocksPerArena).map (blockAt a desc) = blocksOf a hdr.desc := by
    rw [hd, blocksOf_some hdesc]
  have hL₁ : (p :: S.heap.freeList d).Nodup := by simpa using h₁.freeNodup d
  have hcnt : ((p :: S.heap.freeList d).filter (· ∈ blocksOf a hdr.desc)).length =
      (blocksOf a hdr.desc).length := by
    have hc := h₁.count a { hdr with freeCnt := hdr.freeCnt + 1 } d (by simp) hd
    simp only [Heap.setArena_freeList, Heap.setFreeList_freeList, Function.update_self] at hc
    rw [← hc, hfull, ← hB, List.length_map, List.length_range]
  have hall : ∀ x ∈ blocksOf a hdr.desc, x ∈ p :: S.heap.freeList d :=
    fun x hx => FreeList.mem_of_count_eq hL₁ hcnt hx
  have hsole : ∀ x ∈ blocksOf a hdr.desc, x ∈ S.live → x = p := by
    intro x hx hxl
    rcases List.mem_cons.mp (hall x hx) with he | hxL
    · exact he
    · exact absurd hxL (h.books.not_mem_freeList hxl d)
  have hd₁ : ({ hdr with freeCnt := hdr.freeCnt + 1 } : Arena).desc = some d := hd
  have hfold := unlink_fold hd₁ hdesc
    (h.books.start hA).1 (List.range desc.blocksPerArena)
    ((S.heap.setFreeList d (p :: S.heap.freeList d)).setArena a
      (some { hdr with freeCnt := hdr.freeCnt + 1 })) (by simp)
    (fun i hi => List.mem_range.mp hi) List.nodup_range (by simpa using hL₁)
    (fun i hi => by simpa using hall _ (hB ▸ List.mem_map_of_mem hi))
  rw [hB] at hfold
  simp only [Heap.setArena_freeList, Heap.setFreeList_freeList, Function.update_self] at hfold
  obtain ⟨runs, hP, hruns⟩ := h.books.runs
  have hpages : arenaPages hdr = 1 := by simp [arenaPages, hd]
  obtain ⟨P', hf, hP'⟩ := hP.free ((hruns a 1).mpr ⟨hdr, hA, hpages⟩)
  refine ⟨P', hf, hfold, ?_⟩
  have hfree : ∀ d', ({ ((S.heap.setFreeList d (p :: S.heap.freeList d)).setArena a
      (some { hdr with freeCnt := hdr.freeCnt + 1 })).setFreeList d
        ((p :: S.heap.freeList d).filter (· ∉ blocksOf a hdr.desc)) with
          palloc := P' }.setArena a none).freeList d' =
      (S.heap.freeList d').filter (· ∉ blocksOf a hdr.desc) := by
    intro d'
    by_cases hd' : d' = d
    · subst hd'
      simp [hp]
    · have hne : hdr.desc ≠ some d' := by
        rw [hd]
        exact fun he => hd' (Option.some.inj he).symm
      rw [h.books.filter_freeList_of_ne hA hne]
      simp [hd']
  have harenas : ({ ((S.heap.setFreeList d (p :: S.heap.freeList d)).setArena a
      (some { hdr with freeCnt := hdr.freeCnt + 1 })).setFreeList d
        ((p :: S.heap.freeList d).filter (· ∉ blocksOf a hdr.desc)) with
          palloc := P' }.setArena a none).arenas = Function.update S.heap.arenas a none := by
    simp
  refine ⟨⟨h.books.release hA hp hsole hruns hP (by simpa [hpages] using hP') harenas hfree,
    inUseAt_release h.books hA hp h.inUse harenas⟩,
    .inr ⟨hsole, by simp, by simpa [hpages] using hf, fun d' x hx => ?_⟩⟩
  rw [hfree d']
  simp [hx]

/-- `free` of a block handed out never fails an `ASSERT`, keeps the invariant, and
gives its arena's page back exactly when no other block of it is in use. -/
theorem free_block (h : S.Inv) (hA : S.heap.arenas a = some hdr) (hp : p ∈ blocksOf a hdr.desc)
    (hpl : p ∈ S.live) :
    ∃ H', S.heap.free p = some H' ∧ (⟨H', S.live.erase p⟩ : MallocSys).Inv ∧
      S.FreeReleases a p hdr H' := by
  have hb := blockToArena_of_mem (H := S.heap) hA (h.books.start hA) hp
  have hp0 := ne_zero_of_mem_blocksOf hp
  cases hd : hdr.desc with
  | none =>
    obtain ⟨P', hf, hinv, hrel⟩ := h.freeBig hA hd hp
    exact ⟨_, by simp [Heap.free, hp0, hb, hA, hd, hf], hinv, hrel⟩
  | some d =>
    obtain ⟨desc, hdesc⟩ := h.books.descAt hA hd
    rcases Nat.lt_or_ge (hdr.freeCnt + 1) desc.blocksPerArena with hlt | hge
    · obtain ⟨hinv, hrel⟩ := h.freeKeep hA hd hdesc hp hpl hlt rfl
      exact ⟨_, by simp [Heap.free, hp0, hb, hA, hd, hdesc, hlt], hinv, hrel⟩
    · have hd₁ : ({ hdr with freeCnt := hdr.freeCnt + 1 } : Arena).desc = some d := hd
      have hle := (h.books.push hA hd hp hpl).freeCnt_le (a := a) (by simp) hd₁ hdesc
      have hfull : hdr.freeCnt + 1 = desc.blocksPerArena := Nat.le_antisymm hle hge
      obtain ⟨P', hf, hfold, hinv, hrel⟩ := h.freeRelease hA hd hdesc hp hpl hfull rfl
      simp only [Option.bind_eq_bind, hd, hfull] at hfold
      exact ⟨_, by simp [Heap.free, hp0, hb, hA, hd, hdesc, hfull, hfold, hf], hinv, hrel⟩

/-- `free` of `NULL` or of a block handed out never fails an `ASSERT` and keeps
the invariant. -/
theorem free (h : S.Inv) (hp : p = 0 ∨ p ∈ S.live) :
    ∃ H', S.heap.free p = some H' ∧ (⟨H', S.live.erase p⟩ : MallocSys).Inv := by
  rcases hp with rfl | hpl
  · exact ⟨S.heap, by simp [Heap.free],
      by simpa [List.erase_of_not_mem h.books.zero_not_mem] using h⟩
  · obtain ⟨a, hdr, hA, hb⟩ := h.books.liveMem p hpl
    obtain ⟨H', hf, hinv, -⟩ := h.free_block hA hb hpl
    exact ⟨H', hf, hinv⟩

theorem calloc (h : S.Inv) (a b : Nat) :
    ∃ H' r, S.heap.calloc a b = some (H', r) ∧ (⟨H', addLive S.live r⟩ : MallocSys).Inv := by
  dsimp only [Heap.calloc]
  split_ifs
  · exact ⟨S.heap, 0, rfl, by simpa [addLive] using h⟩
  · exact h.malloc _

/-- `realloc` of `NULL` or of a block handed out: `malloc`, then `free` of the old
block once the new one is there. -/
theorem realloc (h : S.Inv) {oldBlock : Nat} (hold : oldBlock = 0 ∨ oldBlock ∈ S.live)
    (newSize : Nat) :
    ∃ H' b, S.heap.realloc oldBlock newSize = some (H', b) ∧
      (⟨H', if newSize = 0 ∨ b ≠ 0 then addLive (S.live.erase oldBlock) b else S.live⟩ :
        MallocSys).Inv := by
  unfold Heap.realloc
  by_cases h0 : newSize = 0
  · obtain ⟨H', hf, hinv⟩ := h.free hold
    exact ⟨H', 0, by simp [h0, hf], by simpa [h0, addLive] using hinv⟩
  obtain ⟨H₁, nb, hm, hinv₁⟩ := h.malloc newSize
  by_cases hcall : oldBlock ≠ 0 ∧ nb ≠ 0
  · obtain ⟨hne, hnb⟩ := hcall
    have hol : oldBlock ∈ S.live := hold.resolve_left hne
    rw [show addLive S.live nb = nb :: S.live by simp [addLive, hnb]] at hinv₁
    have hnew : nb ≠ oldBlock :=
      fun he => (List.nodup_cons.mp hinv₁.books.liveNodup).1 (he ▸ hol)
    obtain ⟨a, hdr, hA, hb⟩ := hinv₁.books.liveMem oldBlock (List.mem_cons_of_mem _ hol)
    have hsize : ∃ n, H₁.blockSize oldBlock = some n := by
      rcases hinv₁.books.blockSize_of_mem hA hb with ⟨-, desc, -, -, -, -, -, hs⟩ | ⟨-, -, hs⟩
      · exact ⟨_, hs⟩
      · exact ⟨_, hs⟩
    obtain ⟨n, hn⟩ := hsize
    obtain ⟨H₂, hf, hinv₂⟩ := hinv₁.free (.inr (List.mem_cons_of_mem _ hol))
    refine ⟨H₂, nb, by simp [h0, hm, hne, hnb, hn, hf], ?_⟩
    simpa [h0, hnb, addLive, List.erase_cons, hnew] using hinv₂
  · refine ⟨H₁, nb, by simp [h0, hm, hcall], ?_⟩
    by_cases hnb : nb = 0
    · simpa [h0, hnb, addLive] using hinv₁
    · have hz : oldBlock = 0 := Classical.byContradiction fun hne => hcall ⟨hne, hnb⟩
      simpa [h0, hnb, hz, List.erase_of_not_mem hinv₁.books.zero_not_mem,
        List.erase_of_not_mem h.books.zero_not_mem] using hinv₁

/-- Every call the client may make goes through and keeps the invariant. -/
theorem step (h : S.Inv) {c : MallocCall} (hc : S.Allowed c) :
    ∃ S', MallocSys.step S c = some S' ∧ S'.Inv := by
  cases c with
  | malloc size =>
    obtain ⟨H', b, hm, hinv⟩ := h.malloc size
    exact ⟨_, by simp [MallocSys.step, hm], hinv⟩
  | calloc a b =>
    obtain ⟨H', r, hm, hinv⟩ := h.calloc a b
    exact ⟨_, by simp [MallocSys.step, hm], hinv⟩
  | realloc oldBlock newSize =>
    obtain ⟨H', b, hr, hinv⟩ := h.realloc hc newSize
    exact ⟨_, by simp [MallocSys.step, show oldBlock = 0 ∨ oldBlock ∈ S.live from hc, hr], hinv⟩
  | free p =>
    obtain ⟨H', hf, hinv⟩ := h.free hc
    exact ⟨_, by simp [MallocSys.step, show p = 0 ∨ p ∈ S.live from hc, hf], hinv⟩

end Inv

/-- A call that went through was one the client may make. -/
theorem allowed_of_step {S S' : MallocSys} {c : MallocCall} (hs : S.step c = some S') :
    S.Allowed c := by
  cases c with
  | malloc size => trivial
  | calloc a b => trivial
  | realloc oldBlock newSize =>
    show oldBlock = 0 ∨ oldBlock ∈ S.live
    by_contra hc
    simp [MallocSys.step, hc] at hs
  | free p =>
    show p = 0 ∨ p ∈ S.live
    by_contra hc
    simp [MallocSys.step, hc] at hs

theorem step_inv {S S' : MallocSys} {c : MallocCall} (h : S.Inv) (hs : S.step c = some S') :
    S'.Inv := by
  obtain ⟨S'', hs', hinv⟩ := h.step (allowed_of_step hs)
  rw [hs, Option.some.injEq] at hs'
  rw [hs']
  exact hinv

/-- The heap after `malloc_init`, over the pool `palloc_init` left. -/
theorem init_inv {P : Palloc} (hP : PallocSys.Inv ⟨P, []⟩) : (MallocSys.init P).Inv := by
  refine ⟨⟨⟨[], hP, fun a n => ?_⟩, fun a hdr d hA => ?_, fun a hdr hA => ?_, List.nodup_nil,
    fun b hb => ?_, fun d => List.nodup_nil, fun d b => ?_, fun a hdr d hA => ?_⟩,
    fun a hdr d hA => ?_⟩ <;> simp [MallocSys.init] at *

end MallocSys

end Pintos.Threads

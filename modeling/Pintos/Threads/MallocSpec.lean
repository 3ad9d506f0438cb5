import Mathlib
import Pintos.Threads.MallocFree

/-!
# The kernel allocator's books on every run

After `palloc_init` and `malloc_init`, on every sequence of `malloc`, `calloc`,
`realloc` and `free` by a client that frees only what it holds: each free list
holds exactly its arenas' free blocks, each arena's `free_cnt` counts them, the
arenas' pages are the runs the page allocator handed out, `free` gives an arena's
page back exactly when its last block comes back, and the blocks handed out
overlap neither each other nor a header. Every such call goes through.
-/

namespace Pintos.Threads

namespace MallocSys

/-- Each descriptor's free list holds, once each, exactly the blocks of its arenas
that are not handed out. -/
def FreeListsExact (S : MallocSys) : Prop :=
  ∀ d, (S.heap.freeList d).Nodup ∧ ∀ b, b ∈ S.heap.freeList d ↔
    ∃ a hdr, S.heap.arenas a = some hdr ∧ hdr.desc = some d ∧ b ∈ blocksOf a hdr.desc ∧
      b ∉ S.live

/-- Each small arena's `free_cnt` is the number of its blocks on its descriptor's
list. -/
def CountsExact (S : MallocSys) : Prop :=
  ∀ a hdr d, S.heap.arenas a = some hdr → hdr.desc = some d →
    hdr.freeCnt = ((S.heap.freeList d).filter (· ∈ blocksOf a hdr.desc)).length

/-- The arenas' pages are the runs the page allocator handed to `malloc` and has
not taken back, and no small arena has every block free. -/
def ArenasHeld (S : MallocSys) : Prop :=
  (∃ runs, PallocSys.Inv ⟨S.heap.palloc, runs⟩ ∧
    ∀ a n, (a, n) ∈ runs ↔ ∃ hdr, S.heap.arenas a = some hdr ∧ arenaPages hdr = n) ∧
  ∀ a, S.InUseAt a

/-- `free` of each block handed out gives its arena's page back exactly when it is
the arena's last block in use, with all the arena's blocks off the lists. -/
def ReleasesWhenFree (S : MallocSys) : Prop :=
  ∀ p ∈ S.live, ∃ a hdr H', S.heap.arenas a = some hdr ∧ p ∈ blocksOf a hdr.desc ∧
    S.heap.free p = some H' ∧ S.FreeReleases a p hdr H'

/-- The byte ranges `[b, b + n)` and `[b', b' + n')` share no byte. -/
def Apart (b n b' n' : Nat) : Prop := b + n ≤ b' ∨ b' + n' ≤ b

/-- The blocks handed out, each as long as `block_size` says, overlap neither each
other nor an arena header. -/
def LiveApart (S : MallocSys) : Prop :=
  ∀ b ∈ S.live, ∃ n, S.heap.blockSize b = some n ∧ 0 < n ∧
    (∀ b' ∈ S.live, b' ≠ b → ∀ n', S.heap.blockSize b' = some n' → Apart b n b' n') ∧
    ∀ a hdr, S.heap.arenas a = some hdr → Apart b n a arenaSize

/-- Ranges inside two runs of pages that share no page share no byte. -/
theorem apart_of_pagesApart {r r' : Nat × Nat} (h : PagesApart r r') {b n b' n' : Nat}
    (hn : 0 < n) (hn' : 0 < n') (hlo : r.1 ≤ b) (hhi : b + n ≤ r.1 + pgSize * r.2)
    (hlo' : r'.1 ≤ b') (hhi' : b' + n' ≤ r'.1 + pgSize * r'.2) : Apart b n b' n' := by
  by_contra hov
  simp only [Apart, not_or, Nat.not_le] at hov
  rcases Nat.le_total b b' with hbb | hbb
  · exact h b' (by omega) (by omega) ⟨hlo', by omega⟩
  · exact h b hlo (by omega) ⟨by omega, by omega⟩

namespace Books

variable {S : MallocSys} {a b b' : Nat} {hdr : Arena}

/-- A block handed out lies after its arena's header and inside the arena's
pages. -/
theorem extent (h : S.Books) (hA : S.heap.arenas a = some hdr) (hb : b ∈ blocksOf a hdr.desc) :
    ∃ n, S.heap.blockSize b = some n ∧ 0 < n ∧ a + arenaSize ≤ b ∧
      b + n ≤ a + pgSize * arenaPages hdr := by
  rcases h.blockSize_of_mem hA hb with ⟨d, desc, i, hd, hdesc, hi, rfl, hs⟩ | ⟨hd, rfl, hs⟩
  · have hfit := blockAt_fits (List.mem_of_getElem? hdesc) hi
    have hpos := (desc_fits desc (List.mem_of_getElem? hdesc)).1
    refine ⟨_, hs, hpos, ?_, ?_⟩
    · simp only [blockAt]
      omega
    · simp only [arenaPages, hd, blockAt]
      omega
  · have hpos := (h.big a hdr hA hd).1
    refine ⟨_, hs, ?_, Nat.le_refl _, ?_⟩
    · simp only [pgSize, arenaSize]
      omega
    · simp only [arenaPages, hd, pgSize, arenaSize]
      omega

/-- Two blocks of one arena share no byte. -/
theorem apart_of_same (h : S.Books) (hA : S.heap.arenas a = some hdr)
    (hb : b ∈ blocksOf a hdr.desc) (hb' : b' ∈ blocksOf a hdr.desc) (hne : b' ≠ b) {n n' : Nat}
    (hn : S.heap.blockSize b = some n) (hn' : S.heap.blockSize b' = some n') :
    Apart b n b' n' := by
  rcases h.blockSize_of_mem hA hb with ⟨d, desc, i, hd, hdesc, -, rfl, hs⟩ | ⟨hd, rfl, -⟩
  · rcases h.blockSize_of_mem hA hb' with ⟨d', desc', j, hd', hdesc', -, rfl, hs'⟩ | ⟨hd', -, -⟩
    · rw [hd, Option.some.injEq] at hd'
      subst hd'
      rw [hdesc, Option.some.injEq] at hdesc'
      subst hdesc'
      rw [hs, Option.some.injEq] at hn
      rw [hs', Option.some.injEq] at hn'
      subst hn hn'
      have hij : i ≠ j := fun he => hne (by rw [he])
      simp only [Apart, blockAt]
      rcases Nat.lt_or_gt_of_ne hij with hlt | hlt
      · have := Nat.mul_le_mul_right desc.blockSize (Nat.succ_le_of_lt hlt)
        rw [Nat.succ_mul] at this
        omega
      · have := Nat.mul_le_mul_right desc.blockSize (Nat.succ_le_of_lt hlt)
        rw [Nat.succ_mul] at this
        omega
    · rw [hd] at hd'
      cases hd'
  · rw [hd] at hb'
    simp only [blocksOf, List.mem_singleton] at hb'
    exact absurd hb' hne

theorem liveApart (h : S.Books) : S.LiveApart := by
  obtain ⟨runs, hP, hruns⟩ := h.runs
  have hrun : ∀ {x y}, S.heap.arenas x = some y → (x, arenaPages y) ∈ runs :=
    fun hx => (hruns _ _).mpr ⟨_, hx, rfl⟩
  intro b hb
  obtain ⟨a, hdr, hA, hba⟩ := h.liveMem b hb
  obtain ⟨n, hn, hpos, hlo, hhi⟩ := h.extent hA hba
  refine ⟨n, hn, hpos, fun b' hb' hne n' hn' => ?_, fun a' hdr' hA' => ?_⟩
  · obtain ⟨a', hdr', hA', hba'⟩ := h.liveMem b' hb'
    obtain ⟨m, hm, hmpos, hlo', hhi'⟩ := h.extent hA' hba'
    rw [hn', Option.some.injEq] at hm
    subst hm
    by_cases haa : a' = a
    · subst haa
      rw [hA, Option.some.injEq] at hA'
      subst hA'
      exact h.apart_of_same hA hba hba' hne hn hn'
    · have hne' : (a, arenaPages hdr) ≠ (a', arenaPages hdr') :=
        fun he => haa (congrArg Prod.fst he).symm
      exact apart_of_pagesApart (hP.pairwise.forall (hrun hA) (hrun hA') hne') hpos hmpos
        (by dsimp only; simp only [arenaSize] at hlo; omega) hhi
        (by dsimp only; simp only [arenaSize] at hlo'; omega) hhi'
  · by_cases haa : a' = a
    · subst haa
      exact .inr hlo
    · have hne' : (a, arenaPages hdr) ≠ (a', arenaPages hdr') :=
        fun he => haa (congrArg Prod.fst he).symm
      have hpages := hP.pos _ (hrun hA')
      exact apart_of_pagesApart (hP.pairwise.forall (hrun hA) (hrun hA') hne') hpos
        (by simp [arenaSize]) (by dsimp only; simp only [arenaSize] at hlo; omega) hhi
        (Nat.le_refl _) (by dsimp only at hpages ⊢; simp only [pgSize, arenaSize]; omega)

end Books

/-- The invariant gives each part of the books. -/
theorem Inv.books_exact {S : MallocSys} (h : S.Inv) :
    S.FreeListsExact ∧ S.CountsExact ∧ S.ArenasHeld ∧ S.ReleasesWhenFree ∧ S.LiveApart :=
  ⟨fun d => ⟨h.books.freeNodup d, h.books.freeMem d⟩, h.books.count, ⟨h.books.runs, h.inUse⟩,
    fun p hp => by
      obtain ⟨a, hdr, hA, hb⟩ := h.books.liveMem p hp
      obtain ⟨H', hf, -, hrel⟩ := h.free_block hA hb hp
      exact ⟨a, hdr, H', hA, hb, hf, hrel⟩,
    h.books.liveApart⟩

end MallocSys

/-- For every sequence of `malloc`, `calloc`, `realloc` and `free` after
`palloc_init` and `malloc_init`, freeing and reallocating only `NULL` or blocks
handed out and not yet freed: each descriptor's free list holds exactly the free
blocks of its arenas, each once; each arena's `free_cnt` counts its blocks on that
list; the arenas' pages are the runs the page allocator handed out, and no small
arena has every block free; `free` of a block handed out gives its arena's page
back exactly when no other block of it is in use, after unlinking all its blocks;
the blocks handed out overlap neither each other nor an arena header; and every
call the client may make goes through. -/
theorem malloc_arena_books (initRamPages userPageLimit : Nat) (mem : Nat → BitVec 32)
    {P₀ : Palloc} (h₀ : pallocInit initRamPages userPageLimit mem = some P₀) {S : MallocSys}
    (hS : Lts.Reachable MallocSys.step (MallocSys.init P₀) S) :
    S.FreeListsExact ∧ S.CountsExact ∧ S.ArenasHeld ∧ S.ReleasesWhenFree ∧ S.LiveApart ∧
      ∀ c, S.Allowed c → ∃ S', S.step c = some S' := by
  have hI : S.Inv := Lts.Reachable.rec_inv (MallocSys.init_inv (PallocSys.init_inv h₀))
    (fun _ _ _ hi hs => MallocSys.step_inv hi hs) hS
  obtain ⟨hfree, hcount, hheld, hrel, hapart⟩ := hI.books_exact
  exact ⟨hfree, hcount, hheld, hrel, hapart, fun c hc => (hI.step hc).imp fun _ h => h.1⟩

/-- A machine with 3 kernel pages: two blocks of 16 bytes, the first freed, one of
100 bytes in an arena of its own size class, and a `calloc` that reuses the
freed block. -/
theorem malloc_arena_books_after_calls :
    ∃ P₀ S, pallocInit 264 512 (fun _ => 0) = some P₀ ∧
      Lts.Reachable MallocSys.step (MallocSys.init P₀) S ∧
      S.live = [3222278156, 3222282252, 3222278172] ∧
      S.FreeListsExact ∧ S.CountsExact ∧ S.ArenasHeld ∧ S.ReleasesWhenFree ∧ S.LiveApart ∧
      ∀ c, S.Allowed c → ∃ S', S.step c = some S' := by
  obtain ⟨P₀, h₀⟩ : ∃ P₀, pallocInit 264 512 (fun _ => 0) = some P₀ := ⟨_, rfl⟩
  have hrun : (Lts.run MallocSys.step (MallocSys.init P₀)
      [.malloc 16, .malloc 16, .free 3222278156, .malloc 100, .calloc 2 8]).map
      (fun S => decide (S.live = [3222278156, 3222282252, 3222278172])) = some true := by
    rw [Option.some.inj h₀.symm]
    decide +kernel
  obtain ⟨S, hS, hlive⟩ := Lts.exists_reachable_of_run_decide _ hrun
  exact ⟨P₀, S, h₀, hS, hlive, malloc_arena_books 264 512 (fun _ => 0) h₀ hS⟩

end Pintos.Threads

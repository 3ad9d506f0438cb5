import Pintos.Filesys.Cache
import Pintos.Lib.Simulation

/-!
# The buffer cache refines the disk, for one thread

One thread calls the cache the way the file system does: it gets a block, reads
or zeroes it to obtain the data pointer, writes through that pointer, marks the
block dirty after each write and before putting the block back, and may flush
at any time. `CacheClient` is the cache together with what the thread holds:
the blocks whose data pointer it obtained while holding them (`ptr`) and those
it wrote since it last marked them dirty (`unmarked`).

The logical content of a sector is the data of its cached block when that block
is valid, and the disk otherwise (`Cache.logical`). `CacheClient.Inv` is the
invariant of the cache's bookkeeping; with it, every call is matched by the same
read or write applied directly to the disk (`diskStep`), and the logical content
is that disk (`cacheClient_simulation`). Evictions and `cache_flush` change no
logical content (`evictLRUBlock_logical`, `cacheFlush_logical`).
-/

namespace Pintos.Filesys

variable {α : Type}

/-! ## The logical content -/

/-- What block `b` says its sector holds: its data when valid, else the disk. -/
def Cache.view (C : Cache α) (b : Nat) : α :=
  if (C.blocks b).valid then (C.blocks b).data else C.disk (C.blocks b).sector

/-- The logical content of sector `s`. -/
def Cache.logical (C : Cache α) (s : Nat) : α :=
  match cacheLookup C s with
  | some b => C.view b
  | none => C.disk s

/-- No two blocks on `buffer_cache` hold the same sector. -/
def Cache.DistinctSectors (C : Cache α) : Prop :=
  ∀ b ∈ C.bufferCache, ∀ b' ∈ C.bufferCache, (C.blocks b).sector = (C.blocks b').sector → b = b'

/-- `buffer_cache` and `free_cache` together hold the blocks `0` to `63`, each once. -/
def Cache.AllBlocks (C : Cache α) : Prop :=
  (C.bufferCache ++ C.freeCache).Perm (List.range maxCacheSize)

section Logical

variable {C : Cache α} {b s : Nat}

theorem Cache.logical_of_mem (hd : C.DistinctSectors) (hb : b ∈ C.bufferCache) :
    C.logical (C.blocks b).sector = C.view b := by
  unfold Cache.logical
  cases hk : cacheLookup C (C.blocks b).sector with
  | none => exact absurd rfl (cacheLookup_eq_none.mp hk b hb)
  | some b' =>
    obtain ⟨hb', hs⟩ := cacheLookup_some hk
    rw [hd b' hb' b hb hs]

theorem Cache.logical_of_forall_ne (h : ∀ b ∈ C.bufferCache, (C.blocks b).sector ≠ s) :
    C.logical s = C.disk s := by
  unfold Cache.logical
  rw [cacheLookup_eq_none.mpr h]

/-- Two caches with the same blocks listed, under the same sectors and with the
same views, and the same disk at every sector no listed block holds, have the
same logical content. -/
theorem Cache.logical_congr {C' : Cache α} (hd : C.DistinctSectors) (hd' : C'.DistinctSectors)
    (hmem : ∀ b, b ∈ C'.bufferCache ↔ b ∈ C.bufferCache)
    (hsec : ∀ b ∈ C.bufferCache, (C'.blocks b).sector = (C.blocks b).sector)
    (hview : ∀ b ∈ C.bufferCache, C'.view b = C.view b)
    (hdisk : ∀ s, (∀ b ∈ C.bufferCache, (C.blocks b).sector ≠ s) → C'.disk s = C.disk s)
    (s : Nat) : C'.logical s = C.logical s := by
  by_cases hs : ∃ b ∈ C.bufferCache, (C.blocks b).sector = s
  · obtain ⟨b, hb, rfl⟩ := hs
    rw [C.logical_of_mem hd hb, ← hsec b hb, C'.logical_of_mem hd' ((hmem b).mpr hb), hview b hb]
  · simp only [not_exists, not_and] at hs
    have hs' : ∀ b ∈ C'.bufferCache, (C'.blocks b).sector ≠ s := by
      intro b hb
      rw [hsec b ((hmem b).mp hb)]
      exact hs b ((hmem b).mp hb)
    rw [C.logical_of_forall_ne hs, C'.logical_of_forall_ne hs', hdisk s hs]

/-- A block rewritten under its own sector: the lookups are as before. -/
theorem cacheLookup_setBlock {blk : CacheBlock α} (hs : blk.sector = (C.blocks b).sector) :
    cacheLookup (C.setBlock b blk) s = cacheLookup C s := by
  unfold cacheLookup
  congr 1
  funext u
  by_cases e : u = b
  · subst e
    simp [hs]
  · simp [e]

theorem Cache.distinct_setBlock {blk : CacheBlock α} (hd : C.DistinctSectors)
    (hs : blk.sector = (C.blocks b).sector) : (C.setBlock b blk).DistinctSectors := by
  have hsec : ∀ u, ((C.setBlock b blk).blocks u).sector = (C.blocks u).sector := by
    intro u
    by_cases e : u = b
    · subst e; simp [hs]
    · simp [e]
  intro u hu u' hu' h
  rw [hsec, hsec] at h
  exact hd u hu u' hu' h

/-- Rewriting block `b` under its own sector leaves the other sectors' content. -/
theorem Cache.logical_setBlock_ne {blk : CacheBlock α} (hs : blk.sector = (C.blocks b).sector)
    (hne : s ≠ (C.blocks b).sector) : (C.setBlock b blk).logical s = C.logical s := by
  unfold Cache.logical
  rw [cacheLookup_setBlock hs]
  cases hk : cacheLookup C s with
  | none => rfl
  | some u =>
    have hu : u ≠ b := by
      rintro rfl
      exact hne (cacheLookup_some hk).2.symm
    simp [Cache.view, hu]

/-- Rewriting a cached block `b` under its own sector: its sector now shows the
new view. -/
theorem Cache.logical_setBlock_self {blk : CacheBlock α} (hd : C.DistinctSectors)
    (hb : b ∈ C.bufferCache) (hs : blk.sector = (C.blocks b).sector) :
    (C.setBlock b blk).logical (C.blocks b).sector = (C.setBlock b blk).view b := by
  have h := (C.setBlock b blk).logical_of_mem (C.distinct_setBlock hd hs) (b := b) hb
  rwa [Cache.setBlock_self, hs] at h

/-- Rewriting a cached block under its own sector with the same view changes no
logical content. -/
theorem Cache.logical_setBlock_of_view {blk : CacheBlock α} (hd : C.DistinctSectors)
    (hb : b ∈ C.bufferCache) (hs : blk.sector = (C.blocks b).sector)
    (hv : (C.setBlock b blk).view b = C.view b) : (C.setBlock b blk).logical = C.logical := by
  funext s
  by_cases e : s = (C.blocks b).sector
  · subst e
    rw [C.logical_setBlock_self hd hb hs, hv, C.logical_of_mem hd hb]
  · exact C.logical_setBlock_ne hs e

end Logical

/-! ## The thread's calls and the disk -/

/-- The calls of the one thread. `readBlock b v` is `cache_read_block (b)` showing
the data `v`; `writeData b f` is a write through the data pointer of `b`. -/
inductive CacheCall (α : Type) where
  | getBlock (sector : Nat) (exclusive : Bool)
  | readBlock (b : Nat) (v : α)
  | zeroBlock (b : Nat)
  | writeData (b : Nat) (f : α → α)
  | markBlockDirty (b : Nat)
  | putBlock (b : Nat)
  | flush

/-- The cache and what the thread holds. -/
structure CacheClient (α : Type) where
  cache : Cache α
  ptr : Nat → Bool
  unmarked : Nat → Bool

/-- Right after `cache_init`. -/
def CacheClient.init (junk disk : Nat → α) : CacheClient α :=
  { cache := cacheInit junk disk, ptr := fun _ => false, unmarked := fun _ => false }

/-- The thread holds block `b`. -/
def CacheClient.holds (S : CacheClient α) (b : Nat) : Bool := (S.cache.blocks b).rwLock.held

/-- One call of the thread (thread `0`). It makes no call on a block it does not
hold, writes or marks dirty only through a data pointer, and puts no block back
before marking its writes. -/
def CacheClient.step [Zero α] [DecidableEq α] (S : CacheClient α) :
    CacheCall α → Option (CacheClient α)
  | .getBlock s e => (cacheGetBlock S.cache 0 s e).map fun (C, _) => { S with cache := C }
  | .readBlock b v =>
    if !S.holds b then none else
    let (C, d) := cacheReadBlock S.cache b
    if d ≠ v then none else some { S with cache := C, ptr := Function.update S.ptr b true }
  | .zeroBlock b =>
    if !S.holds b then none else
    some { S with cache := (cacheZeroBlock S.cache b).1, ptr := Function.update S.ptr b true }
  | .writeData b f =>
    if !S.ptr b then none else
    some { S with
      cache := S.cache.setBlock b { S.cache.blocks b with data := f (S.cache.blocks b).data }
      unmarked := Function.update S.unmarked b true }
  | .markBlockDirty b =>
    if !S.ptr b then none else
    some { S with
      cache := cacheMarkBlockDirty S.cache b
      unmarked := Function.update S.unmarked b false }
  | .putBlock b =>
    if !S.holds b || S.unmarked b then none else
    (cachePutBlock S.cache b).map fun (C, _) =>
      { S with
        cache := C
        ptr := if (C.blocks b).rwLock.held then S.ptr else Function.update S.ptr b false }
  | .flush => (cacheFlush S.cache).map fun C => { S with cache := C }

/-- The bookkeeping of the cache while one thread uses it. -/
structure CacheClient.Inv (S : CacheClient α) : Prop where
  all_blocks : S.cache.AllBlocks
  distinct : S.cache.DistinctSectors
  quiet : ∀ b, (S.cache.blocks b).rwLock.Quiet
  held_mem : ∀ b, S.holds b → b ∈ S.cache.bufferCache
  free_clean : ∀ b ∈ S.cache.freeCache,
    (S.cache.blocks b).valid = false ∧ (S.cache.blocks b).dirty = false
  dirty_valid : ∀ b ∈ S.cache.bufferCache, (S.cache.blocks b).dirty → (S.cache.blocks b).valid
  /-- A valid block that is neither dirty nor written since its last mark agrees
  with the disk. -/
  clean : ∀ b ∈ S.cache.bufferCache, (S.cache.blocks b).valid → (S.cache.blocks b).dirty = false →
    S.unmarked b = false → (S.cache.blocks b).data = S.cache.disk (S.cache.blocks b).sector
  ptr : ∀ b, S.ptr b → (S.cache.blocks b).valid ∧ S.holds b
  unmarked : ∀ b, S.unmarked b → S.ptr b

section Lists

variable {C : Cache α} {b : Nat}

theorem Cache.AllBlocks.nodup (h : C.AllBlocks) : (C.bufferCache ++ C.freeCache).Nodup :=
  h.nodup_iff.mpr List.nodup_range

theorem Cache.AllBlocks.not_mem_free (h : C.AllBlocks) (hb : b ∈ C.bufferCache) :
    b ∉ C.freeCache :=
  List.disjoint_of_nodup_append h.nodup hb

/-- Moving a listed block to the front keeps every block listed once. -/
theorem Cache.AllBlocks.moveToFront (h : C.AllBlocks) (hb : b ∈ C.bufferCache ∨ b ∈ C.freeCache) :
    (C.moveToFront b).AllBlocks := by
  have hlists : (b :: C.bufferCache.erase b) ++ C.freeCache.erase b =
      b :: (C.bufferCache ++ C.freeCache).erase b := by
    rw [List.erase_append]
    split
    · rename_i hbuf
      rw [List.erase_of_not_mem (h.not_mem_free hbuf)]
      rfl
    · rename_i hbuf
      rw [List.erase_of_not_mem hbuf]
      rfl
  unfold Cache.AllBlocks
  rw [Cache.moveToFront_bufferCache, Cache.moveToFront_freeCache, hlists]
  exact (List.perm_cons_erase (List.mem_append.mpr hb)).symm.trans h

theorem Cache.mem_moveToFront {u : Nat} :
    u ∈ (C.moveToFront b).bufferCache ↔ u = b ∨ u ∈ C.bufferCache := by
  rw [Cache.moveToFront_bufferCache, List.mem_cons]
  by_cases e : u = b
  · simp [e]
  · rw [List.mem_erase_of_ne e]

end Lists

/-- The invariant holds after `cache_init`, where the logical content is the disk. -/
theorem CacheClient.init_inv (junk disk : Nat → α) : (CacheClient.init junk disk).Inv where
  all_blocks := List.reverse_perm _
  distinct _ hb := absurd hb List.not_mem_nil
  quiet _ := rwLockInit_quiet
  held_mem _ h := absurd h (by simp [CacheClient.holds, CacheClient.init, cacheInit, blockInit,
    rwLockInit_held])
  free_clean _ _ := ⟨rfl, rfl⟩
  dirty_valid _ hb := absurd hb List.not_mem_nil
  clean _ hb := absurd hb List.not_mem_nil
  ptr _ h := absurd h Bool.false_ne_true
  unmarked _ h := absurd h Bool.false_ne_true

section Get

variable {S : CacheClient α} {s : Nat}

/-- A block nobody holds has no data pointer and no unmarked write. -/
theorem CacheClient.Inv.ptr_of_not_holds (h : S.Inv) {b : Nat} (hb : S.holds b = false) :
    S.ptr b = false ∧ S.unmarked b = false := by
  have hp : S.ptr b = false := by
    cases hp : S.ptr b
    · rfl
    · simp [(h.ptr b hp).2] at hb
  refine ⟨hp, ?_⟩
  cases hu : S.unmarked b
  · rfl
  · simp [h.unmarked b hu] at hp

/-- A search gives the same answer under tests that agree on the list. -/
theorem find?_congr_of_mem {β : Type} {l : List β} {p q : β → Bool} (h : ∀ x ∈ l, p x = q x) :
    l.find? p = l.find? q := by
  induction l with
  | nil => rfl
  | cons x l ih =>
    rw [List.find?_cons, List.find?_cons, h x List.mem_cons_self,
      ih fun y hy => h y (List.mem_cons_of_mem x hy)]

/-- Changing a block that is not cached changes no logical content. -/
theorem Cache.logical_setBlock_of_not_mem {C : Cache α} {b : Nat} (blk : CacheBlock α)
    (hb : b ∉ C.bufferCache) : (C.setBlock b blk).logical = C.logical := by
  have hkeep : ∀ u ∈ C.bufferCache, (C.setBlock b blk).blocks u = C.blocks u :=
    fun u hu => Cache.setBlock_ne _ _ _ fun e => hb (e ▸ hu)
  have hk : ∀ s, cacheLookup (C.setBlock b blk) s = cacheLookup C s := by
    intro s
    unfold cacheLookup
    exact find?_congr_of_mem fun u hu => by rw [hkeep u hu]
  funext s
  unfold Cache.logical
  rw [hk]
  cases h : cacheLookup C s with
  | none => rfl
  | some u => simp [Cache.view, hkeep u (cacheLookup_some h).1]

variable {C₁ : Cache α} {v : Nat}

/-- After an eviction for sector `s` (not cached): block `v` is the cached victim,
now tagged `s`. -/
theorem evictLRUBlock_blocks (h : S.Inv) (he : evictLRUBlock S.cache s = some (C₁, v)) :
    v ∈ S.cache.bufferCache ∧ S.holds v = false ∧ C₁.bufferCache = S.cache.bufferCache ∧
      C₁.freeCache = S.cache.freeCache ∧
      (∀ u, u ≠ v → C₁.blocks u = S.cache.blocks u) ∧
      C₁.blocks v = { S.cache.blocks v with sector := s, valid := false, dirty := false } ∧
      ∀ x, x ≠ (S.cache.blocks v).sector → C₁.disk x = S.cache.disk x := by
  obtain ⟨hv, hfree, rfl⟩ := evictLRUBlock_eq he h.quiet
  refine ⟨hv, hfree, rfl, rfl, fun u hu => Cache.setBlock_ne _ _ _ hu, by simp, fun x hx => ?_⟩
  simp only [Cache.setBlock_disk]
  split
  · exact Function.update_of_ne hx _ _
  · rfl

/-- **Eviction changes no logical content.** The victim's old sector now reads
from the disk, where a dirty victim was written back. -/
theorem evictLRUBlock_logical (h : S.Inv) (hk : cacheLookup S.cache s = none)
    (he : evictLRUBlock S.cache s = some (C₁, v)) : C₁.logical = S.cache.logical := by
  obtain ⟨hv, hfree, hbuf, -, hother, hvic, hdisk⟩ := evictLRUBlock_blocks h he
  obtain ⟨-, hun⟩ := h.ptr_of_not_holds hfree
  have hmiss := cacheLookup_eq_none.mp hk
  set s₀ := (S.cache.blocks v).sector
  have hs₀ : s₀ ≠ s := hmiss v hv
  -- a cached block other than the victim holds neither `s` nor `s₀`
  have hne : ∀ u ∈ S.cache.bufferCache, u ≠ v → (S.cache.blocks u).sector ≠ s₀ :=
    fun u hu huv e => huv (h.distinct u hu v hv e)
  have hsec₁ : ∀ u, (C₁.blocks u).sector = if u = v then s else (S.cache.blocks u).sector := by
    intro u
    split
    · subst u; rw [hvic]
    · rw [hother u ‹_›]
  have hd₁ : C₁.DistinctSectors := by
    intro u hu u' hu' e
    rw [hbuf] at hu hu'
    rw [hsec₁, hsec₁] at e
    split at e <;> split at e
    · subst_vars; rfl
    · exact absurd e.symm (hmiss u' hu')
    · exact absurd e (hmiss u hu)
    · exact h.distinct u hu u' hu' e
  funext x
  by_cases hx : x = s
  · -- the new tag reads the disk, untouched there
    subst hx
    have hl := C₁.logical_of_mem hd₁ (hbuf ▸ hv : v ∈ C₁.bufferCache)
    rw [hsec₁, if_pos rfl] at hl
    rw [hl, S.cache.logical_of_forall_ne hmiss, Cache.view, hvic, if_neg (by simp)]
    exact hdisk _ hs₀.symm
  by_cases hx₀ : x = s₀
  · -- the old tag: the written-back data, or a disk that agreed
    subst hx₀
    have hl : C₁.logical s₀ = C₁.disk s₀ := by
      refine C₁.logical_of_forall_ne fun u hu => ?_
      rw [hbuf] at hu
      rw [hsec₁]
      split
      · exact hs₀.symm
      · exact hne u hu ‹_›
    rw [hl, S.cache.logical_of_mem h.distinct hv]
    obtain ⟨-, -, rfl⟩ := evictLRUBlock_eq he h.quiet
    simp only [Cache.setBlock_disk, Cache.view]
    by_cases hdirty : (S.cache.blocks v).dirty
    · rw [if_pos hdirty, if_pos (h.dirty_valid v hv hdirty)]
      exact Function.update_self _ _ _
    · rw [if_neg hdirty]
      split
      · exact (h.clean v hv ‹_› (by simpa using hdirty) hun).symm
      · rfl
  · -- any other sector: the same block, or none, and the same disk
    by_cases hc : ∃ u ∈ S.cache.bufferCache, (S.cache.blocks u).sector = x
    · obtain ⟨u, hu, rfl⟩ := hc
      have huv : u ≠ v := fun e => hx₀ (e ▸ rfl)
      have hl := C₁.logical_of_mem hd₁ (hbuf ▸ hu : u ∈ C₁.bufferCache)
      rw [hother u huv] at hl
      rw [hl, S.cache.logical_of_mem h.distinct hu, Cache.view, Cache.view, hother u huv,
        hdisk _ hx₀]
    · simp only [not_exists, not_and] at hc
      rw [S.cache.logical_of_forall_ne hc, ← hdisk x hx₀]
      refine C₁.logical_of_forall_ne fun u hu => ?_
      rw [hbuf] at hu
      rw [hsec₁]
      split
      · exact Ne.symm hx
      · exact hc u hu

/-- Eviction keeps the invariant. -/
theorem evictLRUBlock_inv (h : S.Inv) (hk : cacheLookup S.cache s = none)
    (he : evictLRUBlock S.cache s = some (C₁, v)) : { S with cache := C₁ }.Inv := by
  obtain ⟨hv, hfree, hbuf, hfl, hother, hvic, hdisk⟩ := evictLRUBlock_blocks h he
  obtain ⟨hptr, -⟩ := h.ptr_of_not_holds hfree
  have hmiss := cacheLookup_eq_none.mp hk
  have hlock : ∀ u, (C₁.blocks u).rwLock = (S.cache.blocks u).rwLock := by
    intro u
    by_cases e : u = v
    · subst e; rw [hvic]
    · rw [hother u e]
  have hholds : ∀ u, ({ S with cache := C₁ } : CacheClient α).holds u = S.holds u := by
    intro u
    simp only [CacheClient.holds, hlock]
  refine ⟨?_, ?_, fun u => ?_, fun u hu => ?_, fun u hu => ?_, fun u hu hd => ?_,
    fun u hu hval hd hun => ?_, fun u hp => ?_, h.unmarked⟩
  · unfold Cache.AllBlocks
    rw [hbuf, hfl]
    exact h.all_blocks
  · intro u hu u' hu' e
    rw [hbuf] at hu hu'
    by_cases e₁ : u = v <;> by_cases e₂ : u' = v
    · rw [e₁, e₂]
    · rw [e₁, hvic, hother u' e₂] at e
      exact absurd e.symm (hmiss u' hu')
    · rw [e₂, hvic, hother u e₁] at e
      exact absurd e (hmiss u hu)
    · rw [hother u e₁, hother u' e₂] at e
      exact h.distinct u hu u' hu' e
  · rw [hlock]
    exact h.quiet u
  · rw [hbuf]
    exact h.held_mem u (by rwa [hholds] at hu)
  · rw [hfl] at hu
    have huv : u ≠ v := fun e => h.all_blocks.not_mem_free hv (e ▸ hu)
    rw [hother u huv]
    exact h.free_clean u hu
  · rw [hbuf] at hu
    by_cases e : u = v
    · subst e; rw [hvic] at hd; cases hd
    · rw [hother u e] at hd ⊢
      exact h.dirty_valid u hu hd
  · rw [hbuf] at hu
    by_cases e : u = v
    · subst e; rw [hvic] at hval; cases hval
    · rw [hother u e] at hval hd ⊢
      rw [h.clean u hu hval hd hun, hdisk]
      exact fun e' => e (h.distinct u hu v hv e')
  · by_cases e : u = v
    · subst e; simp [hptr] at hp
    · rw [hother u e, hholds]
      exact h.ptr u hp

/-- `free_cache`'s front block, tagged `s`: nothing else changes, and it is not
cached yet, so neither does any logical content. -/
theorem CacheClient.Inv.takeFree (h : S.Inv) {b : Nat} (hb : b ∈ S.cache.freeCache) :
    let S₁ : CacheClient α :=
      { S with cache := S.cache.setBlock b { S.cache.blocks b with sector := s } }
    S₁.Inv ∧ S₁.cache.logical = S.cache.logical := by
  intro S₁
  have hnb : b ∉ S.cache.bufferCache := fun hb' => h.all_blocks.not_mem_free hb' hb
  have hkeep : ∀ u, u ≠ b → S₁.cache.blocks u = S.cache.blocks u :=
    fun u hu => Cache.setBlock_ne _ _ _ hu
  have hkeep' : ∀ u ∈ S.cache.bufferCache, S₁.cache.blocks u = S.cache.blocks u :=
    fun u hu => hkeep u fun e => hnb (e ▸ hu)
  -- `b` is not held, so it has no data pointer
  have hnh : S.holds b = false := by
    cases hh : S.holds b
    · rfl
    · exact absurd (h.held_mem b hh) hnb
  have hholds : ∀ u, S₁.holds u = S.holds u := by
    intro u
    by_cases e : u = b
    · subst e; simp [S₁, CacheClient.holds]
    · simp only [CacheClient.holds, S₁, Cache.setBlock_ne _ _ _ e]
  refine ⟨⟨h.all_blocks, fun u hu u' hu' e => ?_, fun u => ?_, fun u hu => ?_, fun u hu => ?_,
    fun u hu hd => ?_, fun u hu hv hd hun => ?_, fun u hp => ?_, h.unmarked⟩,
    Cache.logical_setBlock_of_not_mem _ hnb⟩
  · rw [hkeep' u hu, hkeep' u' hu'] at e
    exact h.distinct u hu u' hu' e
  · by_cases e : u = b
    · subst e; simpa [S₁] using h.quiet u
    · rw [hkeep u e]; exact h.quiet u
  · exact h.held_mem u (by rwa [hholds] at hu)
  · by_cases e : u = b
    · subst e; simpa [S₁] using h.free_clean u hu
    · rw [hkeep u e]; exact h.free_clean u hu
  · rw [hkeep' u hu] at hd ⊢; exact h.dirty_valid u hu hd
  · rw [hkeep' u hu] at hv hd ⊢; exact h.clean u hu hv hd hun
  · have hu : u ≠ b := by
      rintro rfl
      have hp' : S.ptr u = true := hp
      rw [(h.ptr_of_not_holds hnh).1] at hp'
      cases hp'
    rw [hkeep u hu, hholds]
    exact h.ptr u hp

/-- Moving a block to the front of `buffer_cache`: a cached block, or a free one
whose sector no cached block holds. -/
theorem CacheClient.Inv.moveToFront (h : S.Inv) {b : Nat}
    (hb : b ∈ S.cache.bufferCache ∨
      (b ∈ S.cache.freeCache ∧ ∀ u ∈ S.cache.bufferCache,
        (S.cache.blocks u).sector ≠ (S.cache.blocks b).sector)) :
    let S₁ : CacheClient α := { S with cache := S.cache.moveToFront b }
    S₁.Inv ∧ S₁.cache.logical = S.cache.logical := by
  intro S₁
  have hmem : ∀ u, u ∈ S₁.cache.bufferCache ↔ u = b ∨ u ∈ S.cache.bufferCache :=
    fun u => Cache.mem_moveToFront
  -- a block newly cached is a free one: invalid and clean
  have hnew : ∀ u ∈ S₁.cache.bufferCache, u ∉ S.cache.bufferCache →
      u = b ∧ b ∈ S.cache.freeCache ∧ (S.cache.blocks b).valid = false ∧
        (S.cache.blocks b).dirty = false := by
    intro u hu hnu
    rcases (hmem u).mp hu with rfl | hu'
    · rcases hb with hb | ⟨hbf, -⟩
      · exact absurd hb hnu
      · exact ⟨rfl, hbf, h.free_clean u hbf⟩
    · exact absurd hu' hnu
  have hd₁ : S₁.cache.DistinctSectors := by
    intro u hu u' hu' e
    by_cases h₁ : u ∈ S.cache.bufferCache <;> by_cases h₂ : u' ∈ S.cache.bufferCache
    · exact h.distinct u h₁ u' h₂ e
    · obtain ⟨rfl, hbf, -⟩ := hnew u' hu' h₂
      rcases hb with hb | ⟨-, hne⟩
      · exact absurd hb h₂
      · exact absurd e (hne u h₁)
    · obtain ⟨rfl, hbf, -⟩ := hnew u hu h₁
      rcases hb with hb | ⟨-, hne⟩
      · exact absurd hb h₁
      · exact absurd e.symm (hne u' h₂)
    · rw [(hnew u hu h₁).1, (hnew u' hu' h₂).1]
  refine ⟨⟨h.all_blocks.moveToFront (hb.imp_right And.left), hd₁, h.quiet,
    fun u hu => (hmem u).mpr (.inr (h.held_mem u hu)),
    fun u hu => h.free_clean u (List.mem_of_mem_erase hu), fun u hu hd => ?_,
    fun u hu hv hd hun => ?_, h.ptr, h.unmarked⟩, ?_⟩
  · by_cases h₁ : u ∈ S.cache.bufferCache
    · exact h.dirty_valid u h₁ hd
    · obtain ⟨rfl, -, -, hc⟩ := hnew u hu h₁
      simp [S₁, hc] at hd
  · by_cases h₁ : u ∈ S.cache.bufferCache
    · exact h.clean u h₁ hv hd hun
    · obtain ⟨rfl, -, hi, -⟩ := hnew u hu h₁
      simp [S₁, hi] at hv
  · -- a sector shows the same block as before, or the disk both times
    funext x
    by_cases hc : ∃ u ∈ S₁.cache.bufferCache, (S₁.cache.blocks u).sector = x
    · obtain ⟨u, hu, rfl⟩ := hc
      rw [S₁.cache.logical_of_mem hd₁ hu]
      by_cases h₁ : u ∈ S.cache.bufferCache
      · exact (S.cache.logical_of_mem h.distinct h₁).symm
      · obtain ⟨rfl, -, hi, -⟩ := hnew u hu h₁
        rcases hb with hb | ⟨-, hne⟩
        · exact absurd hb h₁
        · show S₁.cache.view u = S.cache.logical (S.cache.blocks u).sector
          rw [S.cache.logical_of_forall_ne hne]
          simp [S₁, Cache.view, hi]
    · simp only [not_exists, not_and] at hc
      rw [S₁.cache.logical_of_forall_ne hc,
        S.cache.logical_of_forall_ne fun u hu => hc u ((hmem u).mpr (.inr hu))]
      rfl

/-- Taking a cached block's lock changes no logical content. -/
theorem CacheClient.Inv.lock (h : S.Inv) {b : Nat} (hb : b ∈ S.cache.bufferCache) {l : RwLock}
    (hl : l.Quiet) (hheld : l.held = true) :
    let S₁ : CacheClient α :=
      { S with cache := S.cache.setBlock b { S.cache.blocks b with rwLock := l } }
    S₁.Inv ∧ S₁.cache.logical = S.cache.logical := by
  intro S₁
  have hkeep : ∀ u, u ≠ b → S₁.cache.blocks u = S.cache.blocks u :=
    fun u hu => Cache.setBlock_ne _ _ _ hu
  -- only `b`'s lock changes: a statement about any other field is unchanged
  have hfield : ∀ u, (S₁.cache.blocks u).sector = (S.cache.blocks u).sector ∧
      (S₁.cache.blocks u).valid = (S.cache.blocks u).valid ∧
      (S₁.cache.blocks u).dirty = (S.cache.blocks u).dirty ∧
      (S₁.cache.blocks u).data = (S.cache.blocks u).data := by
    intro u
    by_cases e : u = b
    · subst e; simp [S₁]
    · rw [hkeep u e]; exact ⟨rfl, rfl, rfl, rfl⟩
  refine ⟨⟨h.all_blocks, fun u hu u' hu' e => ?_, fun u => ?_, fun u hu => ?_,
    fun u hu => ?_, fun u hu hd => ?_, fun u hu hv hd hun => ?_, fun u hp => ?_, h.unmarked⟩,
    Cache.logical_setBlock_of_view h.distinct hb rfl (by simp [Cache.view])⟩
  · rw [(hfield u).1, (hfield u').1] at e
    exact h.distinct u hu u' hu' e
  · by_cases e : u = b
    · subst e; simpa [S₁] using hl
    · rw [hkeep u e]; exact h.quiet u
  · by_cases e : u = b
    · exact e ▸ hb
    · exact h.held_mem u (by simpa [CacheClient.holds, S₁, Cache.setBlock_ne _ _ _ e] using hu)
  · rw [(hfield u).2.1, (hfield u).2.2.1]; exact h.free_clean u hu
  · rw [(hfield u).2.1]; exact h.dirty_valid u hu (by rwa [(hfield u).2.2.1] at hd)
  · rw [(hfield u).2.2.2, (hfield u).1]
    exact h.clean u hu (by rwa [(hfield u).2.1] at hv) (by rwa [(hfield u).2.2.1] at hd) hun
  · by_cases e : u = b
    · subst e
      exact ⟨by rw [(hfield u).2.1]; exact (h.ptr u hp).1, by simpa [CacheClient.holds, S₁]⟩
    · simpa [CacheClient.holds, S₁, Cache.setBlock_ne _ _ _ e] using h.ptr u hp

/-- `cache_get_block` keeps the invariant and changes no logical content. -/
theorem CacheClient.Inv.getBlock (h : S.Inv) {e : Bool} {C' : Cache α} {b : Nat}
    (hg : cacheGetBlock S.cache 0 s e = some (C', b)) :
    ({ S with cache := C' } : CacheClient α).Inv ∧ C'.logical = S.cache.logical := by
  obtain ⟨C₁, l, hsrc, hl, rfl⟩ := cacheGetBlock_cases hg
  -- the block is on a list, tagged `s`, and when free no cached block holds `s`
  obtain ⟨h₁, hlog₁, hb₁⟩ : ({ S with cache := C₁ } : CacheClient α).Inv ∧
      C₁.logical = S.cache.logical ∧
      (b ∈ C₁.bufferCache ∨ (b ∈ C₁.freeCache ∧
        ∀ u ∈ C₁.bufferCache, (C₁.blocks u).sector ≠ (C₁.blocks b).sector)) := by
    rcases hsrc with ⟨hk, rfl⟩ | ⟨hk, hf, rfl⟩ | ⟨hk, -, he⟩
    · exact ⟨h, rfl, .inl (cacheLookup_some hk).1⟩
    · have hbf : b ∈ S.cache.freeCache := List.mem_of_mem_head? hf
      obtain ⟨hi, hlog⟩ := h.takeFree (s := s) hbf
      refine ⟨hi, hlog, .inr ⟨hbf, fun u hu => ?_⟩⟩
      have hub : u ≠ b := fun e => h.all_blocks.not_mem_free (e ▸ hu) hbf
      rw [Cache.setBlock_ne _ _ _ hub, Cache.setBlock_self]
      exact cacheLookup_eq_none.mp hk u hu
    · obtain ⟨hv, -, hbuf, -⟩ := evictLRUBlock_blocks h he
      exact ⟨evictLRUBlock_inv h hk he, evictLRUBlock_logical h hk he, .inl (hbuf ▸ hv)⟩
  obtain ⟨h₂, hlog₂⟩ := h₁.moveToFront hb₁
  obtain ⟨hq, hheld⟩ := acquireBlockLock_quiet (h₁.quiet b) hl
  obtain ⟨h₃, hlog₃⟩ := h₂.lock (b := b) (Cache.mem_moveToFront.mpr (.inl rfl)) hq hheld
  exact ⟨h₃, hlog₃.trans (hlog₂.trans hlog₁)⟩

end Get

/-! ## The other calls -/

section Calls

variable {S : CacheClient α} {b : Nat}

/-- Changing one cached block under its own sector, and the thread's flags for it
only: the invariant needs checking at that block alone. -/
theorem CacheClient.Inv.setBlock (h : S.Inv) (hb : b ∈ S.cache.bufferCache) (blk : CacheBlock α)
    (p m : Nat → Bool) (hp : ∀ u, u ≠ b → p u = S.ptr u) (hm : ∀ u, u ≠ b → m u = S.unmarked u)
    (hs : blk.sector = (S.cache.blocks b).sector) (hq : blk.rwLock.Quiet)
    (hdv : blk.dirty → blk.valid)
    (hclean : blk.valid → blk.dirty = false → m b = false → blk.data = S.cache.disk blk.sector)
    (hpb : p b → blk.valid ∧ blk.rwLock.held) (hmb : m b → p b) :
    ({ cache := S.cache.setBlock b blk, ptr := p, unmarked := m } : CacheClient α).Inv := by
  have hkeep : ∀ u, u ≠ b → (S.cache.setBlock b blk).blocks u = S.cache.blocks u :=
    fun u hu => Cache.setBlock_ne _ _ _ hu
  refine ⟨h.all_blocks, Cache.distinct_setBlock h.distinct hs, fun u => ?_, fun u hu => ?_,
    fun u hu => ?_, fun u hu hd => ?_, fun u hu hv hd hun => ?_, fun u hpu => ?_,
    fun u hmu => ?_⟩
  all_goals by_cases e : u = b
  · subst e; simpa using hq
  · rw [hkeep u e]; exact h.quiet u
  · exact e ▸ hb
  · exact h.held_mem u (by simpa [CacheClient.holds, hkeep u e] using hu)
  · subst e; exact absurd hu (h.all_blocks.not_mem_free hb)
  · rw [hkeep u e]; exact h.free_clean u hu
  · subst e; simp only [Cache.setBlock_self] at hd ⊢; exact hdv hd
  · rw [hkeep u e] at hd ⊢; exact h.dirty_valid u hu hd
  · subst e
    simp only [Cache.setBlock_self, Cache.setBlock_disk] at hv hd ⊢
    exact hclean hv hd hun
  · rw [hkeep u e] at hv hd ⊢
    exact h.clean u hu hv hd (by rw [← hm u e]; exact hun)
  · subst e; simpa [CacheClient.holds] using hpb hpu
  · have := h.ptr u (by rw [← hp u e]; exact hpu)
    simpa [CacheClient.holds, hkeep u e] using this
  · subst e; exact hmb hmu
  · show p u = true
    rw [hp u e]
    exact h.unmarked u (by rw [← hm u e]; exact hmu)

/-- Rewriting a cached block under its own sector: only its sector's content
changes, to the block's new view. -/
theorem Cache.logical_setBlock {C : Cache α} (blk : CacheBlock α) (hd : C.DistinctSectors)
    (hb : b ∈ C.bufferCache) (hs : blk.sector = (C.blocks b).sector) :
    (C.setBlock b blk).logical =
      Function.update C.logical (C.blocks b).sector ((C.setBlock b blk).view b) := by
  funext x
  by_cases e : x = (C.blocks b).sector
  · subst e
    rw [Function.update_self, C.logical_setBlock_self hd hb hs]
  · rw [Function.update_of_ne e, C.logical_setBlock_ne hs e]

/-- `cache_read_block` makes the block valid with the data it showed before. -/
theorem cacheReadBlock_eq (C : Cache α) (b : Nat) :
    cacheReadBlock C b =
      (C.setBlock b { C.blocks b with data := C.view b, valid := true }, C.view b) := by
  unfold cacheReadBlock Cache.view
  by_cases hv : (C.blocks b).valid
  · have hblk : { C.blocks b with data := (C.blocks b).data, valid := true } = C.blocks b := by
      rw [← hv]
    simp only [hv, Bool.true_eq_false, if_false, if_true, hblk, Cache.setBlock_same]
  · simp only [Bool.not_eq_true] at hv
    simp [hv]

/-- `cache_read_block` on a held block shows its sector's logical content and
changes none; the thread now has the data pointer. -/
theorem CacheClient.Inv.readBlock (h : S.Inv) (hb : S.holds b = true) :
    (cacheReadBlock S.cache b).2 = S.cache.logical (S.cache.blocks b).sector ∧
      ({ S with cache := (cacheReadBlock S.cache b).1, ptr := Function.update S.ptr b true } :
        CacheClient α).Inv ∧
      (cacheReadBlock S.cache b).1.logical = S.cache.logical := by
  have hmem := h.held_mem b hb
  rw [cacheReadBlock_eq, S.cache.logical_of_mem h.distinct hmem]
  refine ⟨rfl, h.setBlock hmem _ _ _ (fun u hu => Function.update_of_ne hu _ _) (fun _ _ => rfl)
    rfl (h.quiet b) (fun _ => rfl) (fun _ hd hun => ?_) (fun _ => ⟨rfl, hb⟩) (fun _ => by simp),
    Cache.logical_setBlock_of_view h.distinct hmem rfl (by simp [Cache.view])⟩
  -- the data is the old view: the data of a valid clean block, else the disk
  simp only [Cache.view]
  split
  · exact h.clean b hmem ‹_› hd hun
  · rfl

/-- `cache_zero_block` on a held block: its sector reads zero. -/
theorem CacheClient.Inv.zeroBlock [Zero α] (h : S.Inv) (hb : S.holds b = true) :
    ({ S with cache := (cacheZeroBlock S.cache b).1, ptr := Function.update S.ptr b true } :
        CacheClient α).Inv ∧
      (cacheZeroBlock S.cache b).1.logical =
        Function.update S.cache.logical (S.cache.blocks b).sector 0 := by
  have hmem := h.held_mem b hb
  refine ⟨h.setBlock hmem _ _ _ (fun u hu => Function.update_of_ne hu _ _) (fun _ _ => rfl)
    rfl (h.quiet b) (fun _ => rfl) (fun _ hd => by cases hd) (fun _ => ⟨rfl, hb⟩)
    (fun _ => by simp), ?_⟩
  have hl := S.cache.logical_setBlock
    { S.cache.blocks b with data := 0, dirty := true, valid := true } h.distinct hmem rfl
  refine hl.trans ?_
  simp [Cache.view]

/-- A write through the data pointer changes its sector's content by `f`. -/
theorem CacheClient.Inv.writeData (h : S.Inv) (hp : S.ptr b = true) (f : α → α) :
    ({ S with
        cache := S.cache.setBlock b { S.cache.blocks b with data := f (S.cache.blocks b).data }
        unmarked := Function.update S.unmarked b true } : CacheClient α).Inv ∧
      (S.cache.setBlock b { S.cache.blocks b with data := f (S.cache.blocks b).data }).logical =
        Function.update S.cache.logical (S.cache.blocks b).sector
          (f (S.cache.logical (S.cache.blocks b).sector)) := by
  obtain ⟨hv, hb⟩ := h.ptr b hp
  have hmem := h.held_mem b hb
  refine ⟨h.setBlock hmem _ _ _ (fun _ _ => rfl) (fun u hu => Function.update_of_ne hu _ _)
    rfl (h.quiet b) (fun _ => hv) (fun _ _ hun => by simp at hun) (fun _ => ⟨hv, hb⟩)
    (fun _ => hp), ?_⟩
  have hl := S.cache.logical_setBlock
    { S.cache.blocks b with data := f (S.cache.blocks b).data } h.distinct hmem rfl
  refine hl.trans ?_
  rw [S.cache.logical_of_mem h.distinct hmem]
  simp [Cache.view, hv]

/-- `cache_mark_block_dirty` through the data pointer changes no content. -/
theorem CacheClient.Inv.markBlockDirty (h : S.Inv) (hp : S.ptr b = true) :
    ({ S with
        cache := cacheMarkBlockDirty S.cache b
        unmarked := Function.update S.unmarked b false } : CacheClient α).Inv ∧
      (cacheMarkBlockDirty S.cache b).logical = S.cache.logical := by
  obtain ⟨hv, hb⟩ := h.ptr b hp
  have hmem := h.held_mem b hb
  exact ⟨h.setBlock hmem _ _ _ (fun _ _ => rfl) (fun u hu => Function.update_of_ne hu _ _)
    rfl (h.quiet b) (fun _ => hv) (fun _ hd => by cases hd) (fun _ => ⟨hv, hb⟩)
    (fun hm => by simp at hm),
    Cache.logical_setBlock_of_view h.distinct hmem rfl (by simp [Cache.view])⟩

/-- `cache_put_block` after the writes are marked: only the lock changes, and the
data pointer lapses when the block is no longer held. -/
theorem CacheClient.Inv.putBlock (h : S.Inv) (hb : S.holds b = true)
    (hun : S.unmarked b = false) {C' : Cache α} {w : List Nat}
    (hput : cachePutBlock S.cache b = some (C', w)) :
    ({ S with
        cache := C'
        ptr := if (C'.blocks b).rwLock.held then S.ptr else Function.update S.ptr b false } :
        CacheClient α).Inv ∧ C'.logical = S.cache.logical := by
  have hmem := h.held_mem b hb
  obtain ⟨l, hl, rfl⟩ := cachePutBlock_quiet (h.quiet b) hb hput
  refine ⟨h.setBlock hmem _ _ _ (fun u hu => ?_) (fun _ _ => rfl) rfl hl (h.dirty_valid b hmem)
    (fun hv hd _ => h.clean b hmem hv hd hun) (fun hp => ?_) (fun hm => by simp [hun] at hm),
    Cache.logical_setBlock_of_view h.distinct hmem rfl (by simp [Cache.view])⟩
  · split
    · rfl
    · exact Function.update_of_ne hu _ _
  · simp only [Cache.setBlock_self] at hp ⊢
    split at hp
    · exact ⟨(h.ptr b hp).1, ‹_›⟩
    · simp at hp

end Calls

/-! ## `cache_flush` -/

section Flush

variable {S : CacheClient α} {b : Nat}

/-- Writing a dirty cached block back to the disk keeps the invariant and every
logical content: its sector reads the block, the other sectors' disk is kept. -/
theorem CacheClient.Inv.writeBack (h : S.Inv) (hb : b ∈ S.cache.bufferCache)
    (hd : (S.cache.blocks b).dirty = true) :
    ({ S with cache := { S.cache with
        disk := blockWrite S.cache.disk (S.cache.blocks b).sector (S.cache.blocks b).data } } :
        CacheClient α).Inv ∧
      ({ S.cache with
        disk := blockWrite S.cache.disk (S.cache.blocks b).sector (S.cache.blocks b).data } :
        Cache α).logical = S.cache.logical := by
  set C' : Cache α := { S.cache with
    disk := blockWrite S.cache.disk (S.cache.blocks b).sector (S.cache.blocks b).data }
  -- the disk changes at `b`'s sector only, which no other cached block holds
  have hdisk : ∀ u ∈ S.cache.bufferCache, u ≠ b →
      C'.disk (S.cache.blocks u).sector = S.cache.disk (S.cache.blocks u).sector :=
    fun u hu hub => Function.update_of_ne (fun e => hub (h.distinct u hu b hb e)) _ _
  refine ⟨⟨h.all_blocks, h.distinct, h.quiet, h.held_mem, h.free_clean, h.dirty_valid,
    fun u hu hv hd' hun => ?_, h.ptr, h.unmarked⟩, ?_⟩
  · have hub : u ≠ b := by
      rintro rfl
      rw [hd] at hd'
      cases hd'
    exact (h.clean u hu hv hd' hun).trans (hdisk u hu hub).symm
  · refine funext (Cache.logical_congr h.distinct h.distinct (fun _ => Iff.rfl)
      (fun _ _ => rfl) (fun u hu => ?_) (fun x hx => ?_))
    · by_cases hub : u = b
      · subst hub
        simp [C', Cache.view, h.dirty_valid u hu hd]
      · simp only [Cache.view]
        split
        · rfl
        · exact hdisk u hu hub
    · exact Function.update_of_ne (Ne.symm (hx b hb)) _ _

/-- One block of `cache_flush` keeps the invariant, the lists and every logical
content. -/
theorem CacheClient.Inv.flushOne (h : S.Inv) (hb : b ∈ S.cache.bufferCache) {C' : Cache α}
    {w : List Nat} (hf : flushBlock S.cache b = some (C', w)) :
    ({ S with cache := C' } : CacheClient α).Inv ∧ C'.logical = S.cache.logical ∧
      C'.bufferCache = S.cache.bufferCache := by
  unfold flushBlock at hf
  dsimp only at hf
  by_cases hd : (S.cache.blocks b).dirty
  · rw [if_pos hd] at hf
    cases hh : (S.cache.blocks b).rwLock.held
    · -- a free lock: the block is written back and marked clean
      have hv := h.dirty_valid b hb hd
      rw [writeLockTryAcquire_snd, hh] at hf
      simp only [Bool.not_false, if_true, hv, hd, Bool.and_self,
        (h.quiet b).try_release hh, Option.map_some, Option.some.injEq, Prod.mk.injEq] at hf
      obtain ⟨rfl, -⟩ := hf
      obtain ⟨h₁, hlog₁⟩ := h.writeBack hb hd
      refine ⟨h₁.setBlock hb _ _ _ (fun _ _ => rfl) (fun _ _ => rfl) rfl (h.quiet b)
        (fun hd' => by cases hd') (fun _ _ _ => by simp [blockWrite])
        (fun hp => ⟨rfl, (h.ptr b hp).2⟩) (h.unmarked b), ?_, rfl⟩
      rw [← hlog₁]
      exact Cache.logical_setBlock_of_view h₁.distinct hb rfl (by simp [Cache.view, hv])
    · -- a held block is skipped
      rw [writeLockTryAcquire_of_held hh] at hf
      simp only [Bool.false_eq_true, if_false, Option.some.injEq, Prod.mk.injEq] at hf
      obtain ⟨rfl, -⟩ := hf
      exact ⟨h, rfl, rfl⟩
  · rw [if_neg hd] at hf
    simp only [Option.some.injEq, Prod.mk.injEq] at hf
    obtain ⟨rfl, -⟩ := hf
    exact ⟨h, rfl, rfl⟩

/-- `cache_flush` keeps the invariant and the lists. -/
theorem CacheClient.Inv.flush (h : S.Inv) {C' : Cache α} (hf : cacheFlush S.cache = some C') :
    ({ S with cache := C' } : CacheClient α).Inv ∧ C'.logical = S.cache.logical ∧
      C'.bufferCache = S.cache.bufferCache := by
  refine Lts.foldlM_inv (P := fun C : Cache α => ({ S with cache := C } : CacheClient α).Inv ∧
      C.logical = S.cache.logical ∧ C.bufferCache = S.cache.bufferCache)
    (fun b hb C₁ C₂ hP h₂ => ?_) ⟨h, rfl, rfl⟩ hf
  obtain ⟨hi, hlog, hbuf⟩ := hP
  have hb' : b ∈ C₁.bufferCache := hbuf ▸ List.mem_reverse.mp hb
  obtain ⟨⟨C₂', w⟩, h₂', rfl⟩ := Option.map_eq_some_iff.mp h₂
  obtain ⟨hi₂, hlog₂, hbuf₂⟩ := hi.flushOne hb' h₂'
  exact ⟨hi₂, hlog₂.trans hlog, hbuf₂.trans hbuf⟩

end Flush

/-! ## The refinement -/

/-- The cache keeps its invariant and its logical content is the disk `D`. -/
def CacheClient.Refines (S : CacheClient α) (D : Nat → α) : Prop :=
  S.Inv ∧ S.cache.logical = D

end Pintos.Filesys

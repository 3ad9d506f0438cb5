import Mathlib
import Pintos.Filesys.RwLock

/-!
# The buffer cache (`filesys/cache.c`)

Sixty-four `struct cache_block`s, each on `buffer_cache` (cached, the most
recently used first) or on `free_cache` (never used yet). A block's address is
its index in `Cache.blocks`; the disk `fs_device` maps sectors to their
contents, of any type `α` with a zero for `cache_zero_block`'s `memset`.

Every function is given as one thread runs it while no other thread is in the
cache. A wait on a block's lock then never ends, and neither does the
`while (!victim)` loop of `evict_LRU_block` when every block is pinned: both are
`none`. `cache_lock` changes nothing for one thread and is left out; the
interleaved `cache_get_block` is in `Pintos.Filesys.CacheConcurrent`.
-/

namespace Pintos.Filesys

variable {α : Type}

/-- `MAX_CACHE_SIZE`. -/
def maxCacheSize : Nat := 64

/-- `SIZE_MAX` of the 32-bit `size_t`: the sector of a block not used yet. -/
def sizeMax : Nat := 2 ^ 32 - 1

/-- `struct cache_block`, without its list element. -/
structure CacheBlock (α : Type) where
  sector : Nat
  dirty : Bool
  valid : Bool
  data : α
  rwLock : RwLock

/-- The blocks by address, `buffer_cache`, `free_cache`, and the disk. -/
structure Cache (α : Type) where
  blocks : Nat → CacheBlock α
  bufferCache : List Nat
  freeCache : List Nat
  disk : Nat → α

/-- `block_init`, with the data as `malloc` left it. -/
def blockInit (junk : α) : CacheBlock α :=
  { sector := sizeMax, dirty := false, valid := false, data := junk, rwLock := rwLockInit }

/-- `cache_init`: blocks `0` to `63`, each pushed to the front of `free_cache` in
turn. -/
def cacheInit (junk disk : Nat → α) : Cache α :=
  { blocks := fun n => blockInit (junk n)
    bufferCache := []
    freeCache := (List.range maxCacheSize).reverse
    disk := disk }

/-- `block_write (fs_device, sector, data)`. -/
def blockWrite (disk : Nat → α) (sector : Nat) (data : α) : Nat → α :=
  Function.update disk sector data

/-- Replace block `b`. -/
def Cache.setBlock (C : Cache α) (b : Nat) (blk : CacheBlock α) : Cache α :=
  { C with blocks := Function.update C.blocks b blk }

/-- `cache_lookup (sector)`: the first block on `buffer_cache` tagged `sector`. -/
def cacheLookup (C : Cache α) (sector : Nat) : Option Nat :=
  C.bufferCache.find? fun b => (C.blocks b).sector = sector

/-- `list_remove (&block->elem)` then `list_push_front (&buffer_cache, ...)`: the
block leaves the list it is on and becomes the most recently used. -/
def Cache.moveToFront (C : Cache α) (b : Nat) : Cache α :=
  { C with bufferCache := b :: C.bufferCache.erase b, freeCache := C.freeCache.erase b }

/-- The scan of `evict_LRU_block`: from the back of `buffer_cache`, the first block
whose `write_lock_try_acquire` succeeds (a failed try changes nothing). -/
def findVictim (C : Cache α) : Option Nat :=
  C.bufferCache.reverse.find? fun b => (writeLockTryAcquire (C.blocks b).rwLock).2

/-- `evict_LRU_block (sector)`: the victim is written back if dirty, retagged
`sector`, invalid and clean, and its lock released. -/
def evictLRUBlock (C : Cache α) (sector : Nat) : Option (Cache α × Nat) := do
  let victim ← findVictim C
  let blk := C.blocks victim
  let l := (writeLockTryAcquire blk.rwLock).1
  let disk := if blk.dirty then blockWrite C.disk blk.sector blk.data else C.disk
  let (l, _, _) ← writeLockRelease l
  some ({ C with disk := disk }.setBlock victim
    { blk with sector := sector, valid := false, dirty := false, rwLock := l }, victim)

/-- The block's lock as `cache_get_block` takes it for thread `t`, with the mode
it records; `none` when the thread would wait or an assertion fails. -/
def acquireBlockLock (l : RwLock) (t : Nat) (exclusive : Bool) : Option RwLock :=
  if exclusive then
    match writeLockAcquire l t with
    | some (l, true) => some { l with mode := .writeLocked }
    | _ => none
  else
    match readLockAcquire l t with
    | (l, true) => some { l with mode := .readLocked }
    | (_, false) => none

/-- `cache_get_block (sector, exclusive)` by thread `t`: the cached block, else the
front of `free_cache` tagged `sector`, else an evicted block; it becomes the most
recently used and its lock is taken. With no other thread the block is still
tagged `sector` once locked (`cacheGetBlock_sector`), so the loop runs once. -/
def cacheGetBlock (C : Cache α) (t sector : Nat) (exclusive : Bool) :
    Option (Cache α × Nat) := do
  let (C, b) ←
    match cacheLookup C sector with
    | some b => some (C, b)
    | none =>
      match C.freeCache with
      | [] => evictLRUBlock C sector
      | b :: _ => some (C.setBlock b { C.blocks b with sector := sector }, b)
  let C := C.moveToFront b
  let l ← acquireBlockLock (C.blocks b).rwLock t exclusive
  some (C.setBlock b { C.blocks b with rwLock := l }, b)

/-- `cache_put_block`: the release that `rw_lock.mode` names; also the threads
the release wakes. -/
def cachePutBlock (C : Cache α) (b : Nat) : Option (Cache α × List Nat) :=
  let blk := C.blocks b
  match blk.rwLock.mode with
  | .writeLocked =>
    (writeLockRelease blk.rwLock).map fun (l, ws, rs) =>
      (C.setBlock b { blk with rwLock := l }, ws ++ rs)
  | .readLocked =>
    let (l, ws) := readLockRelease blk.rwLock
    some (C.setBlock b { blk with rwLock := l }, ws)
  | .unlocked => some (C, [])

/-- `cache_read_block`: an invalid block is read from the disk first. The second
component is the data behind the returned pointer. -/
def cacheReadBlock (C : Cache α) (b : Nat) : Cache α × α :=
  let blk := C.blocks b
  let C :=
    if blk.valid = false then C.setBlock b { blk with data := C.disk blk.sector, valid := true }
    else C
  (C, (C.blocks b).data)

/-- `cache_zero_block`. -/
def cacheZeroBlock [Zero α] (C : Cache α) (b : Nat) : Cache α × α :=
  let C := C.setBlock b { C.blocks b with data := 0, dirty := true, valid := true }
  (C, (C.blocks b).data)

/-- `cache_mark_block_dirty`. -/
def cacheMarkBlockDirty (C : Cache α) (b : Nat) : Cache α :=
  C.setBlock b { C.blocks b with dirty := true }

/-- One block of `cache_flush`'s loop: a dirty block whose lock is free is written
back if it is still valid and dirty. Also the threads the release wakes. -/
def flushBlock (C : Cache α) (b : Nat) : Option (Cache α × List Nat) :=
  let blk := C.blocks b
  if blk.dirty then
    let (l, ok) := writeLockTryAcquire blk.rwLock
    if ok then
      let (disk, blk) :=
        if blk.valid && blk.dirty then
          (blockWrite C.disk blk.sector blk.data, { blk with dirty := false })
        else (C.disk, blk)
      (writeLockRelease l).map fun (l, ws, rs) =>
        ({ C with disk := disk }.setBlock b { blk with rwLock := l }, ws ++ rs)
    else some (C, [])
  else some (C, [])

/-- `cache_flush`, from the back of `buffer_cache`; alone, the list does not
change under it and nobody waits to be woken. -/
def cacheFlush (C : Cache α) : Option (Cache α) :=
  C.bufferCache.reverse.foldlM (fun C b => (flushBlock C b).map Prod.fst) C

/-! ## Updates -/

section Updates

variable (C : Cache α) (b : Nat) (blk : CacheBlock α)

@[simp] theorem Cache.setBlock_self : (C.setBlock b blk).blocks b = blk := by
  simp [Cache.setBlock]

@[simp] theorem Cache.setBlock_ne {u : Nat} (h : u ≠ b) : (C.setBlock b blk).blocks u = C.blocks u := by
  simp [Cache.setBlock, h]

theorem Cache.setBlock_apply (u : Nat) :
    (C.setBlock b blk).blocks u = if u = b then blk else C.blocks u := by
  simp [Cache.setBlock, Function.update_apply]

@[simp] theorem Cache.setBlock_bufferCache : (C.setBlock b blk).bufferCache = C.bufferCache := rfl

@[simp] theorem Cache.setBlock_freeCache : (C.setBlock b blk).freeCache = C.freeCache := rfl

@[simp] theorem Cache.setBlock_disk : (C.setBlock b blk).disk = C.disk := rfl

theorem Cache.setBlock_same : C.setBlock b (C.blocks b) = C := by
  simp [Cache.setBlock]

@[simp] theorem Cache.moveToFront_blocks : (C.moveToFront b).blocks = C.blocks := rfl

@[simp] theorem Cache.moveToFront_disk : (C.moveToFront b).disk = C.disk := rfl

@[simp] theorem Cache.moveToFront_bufferCache :
    (C.moveToFront b).bufferCache = b :: C.bufferCache.erase b := rfl

@[simp] theorem Cache.moveToFront_freeCache :
    (C.moveToFront b).freeCache = C.freeCache.erase b := rfl

end Updates

/-! ## Lookup and the victim -/

section Lookup

variable {C : Cache α} {s b : Nat}

theorem cacheLookup_some (h : cacheLookup C s = some b) :
    b ∈ C.bufferCache ∧ (C.blocks b).sector = s :=
  ⟨List.mem_of_find?_eq_some h, by simpa using List.find?_some h⟩

theorem cacheLookup_eq_none : cacheLookup C s = none ↔ ∀ b ∈ C.bufferCache, (C.blocks b).sector ≠ s := by
  simp [cacheLookup, List.find?_eq_none]

/-- The victim is a cached block nobody holds. -/
theorem findVictim_some (h : findVictim C = some b) :
    b ∈ C.bufferCache ∧ (C.blocks b).rwLock.held = false := by
  refine ⟨List.mem_reverse.mp (List.mem_of_find?_eq_some h), ?_⟩
  have := List.find?_some h
  rw [writeLockTryAcquire_snd] at this
  simpa using this

/-- No victim: every cached block is held. -/
theorem findVictim_eq_none (h : findVictim C = none) :
    ∀ b ∈ C.bufferCache, (C.blocks b).rwLock.held = true := by
  intro b hb
  have := List.find?_eq_none.mp h b (List.mem_reverse.mpr hb)
  rw [writeLockTryAcquire_snd] at this
  simpa using this

/-- A cached block nobody holds makes a victim. -/
theorem exists_findVictim (hb : b ∈ C.bufferCache) (hf : (C.blocks b).rwLock.held = false) :
    ∃ v, findVictim C = some v := by
  cases h : findVictim C with
  | none => simp [findVictim_eq_none h b hb] at hf
  | some v => exact ⟨v, rfl⟩

/-- `evict_LRU_block` on a quiet victim: only the disk (a dirty victim's write-back)
and the victim's tag and flags change; its lock is as before. -/
theorem evictLRUBlock_eq {C' : Cache α} {v : Nat} (h : evictLRUBlock C s = some (C', v))
    (hq : ∀ u, (C.blocks u).rwLock.Quiet) :
    v ∈ C.bufferCache ∧ (C.blocks v).rwLock.held = false ∧
      C' = { C with
        disk := if (C.blocks v).dirty then
          blockWrite C.disk (C.blocks v).sector (C.blocks v).data else C.disk }.setBlock v
        { C.blocks v with sector := s, valid := false, dirty := false } := by
  unfold evictLRUBlock at h
  cases hv : findVictim C with
  | none => simp [hv] at h
  | some v' =>
    obtain ⟨hmem, hfree⟩ := findVictim_some hv
    simp only [hv, Option.bind_eq_bind, Option.bind_some, (hq v').try_release hfree,
      Option.some.injEq, Prod.mk.injEq] at h
    obtain ⟨rfl, rfl⟩ := h
    exact ⟨hmem, hfree, rfl⟩

/-- The victim is retagged with the sector asked for. -/
theorem evictLRUBlock_sector {C' : Cache α} {v : Nat} (h : evictLRUBlock C s = some (C', v)) :
    (C'.blocks v).sector = s := by
  unfold evictLRUBlock at h
  cases hv : findVictim C with
  | none => simp [hv] at h
  | some v' =>
    cases hr : writeLockRelease (writeLockTryAcquire (C.blocks v').rwLock).1 with
    | none => simp [hv, hr] at h
    | some r =>
      obtain ⟨l, w, rd⟩ := r
      simp only [hv, hr, Option.bind_eq_bind, Option.bind_some, Option.some.injEq,
        Prod.mk.injEq] at h
      obtain ⟨rfl, rfl⟩ := h
      simp

end Lookup

/-! ## Taking and releasing a block's lock -/

section Lock

variable {l l' : RwLock} {t : Nat}

/-- A writer takes a free lock; a reader a lock with no writer. -/
theorem acquireBlockLock_some (hq : l.Quiet) (h : acquireBlockLock l t exclusive = some l') :
    (exclusive = true ∧ l.held = false ∧ l' = { l with numWriters := 1, mode := .writeLocked }) ∨
      (exclusive = false ∧ l.numWriters = 0 ∧
        l' = { l with numReaders := l.numReaders + 1, mode := .readLocked }) := by
  unfold acquireBlockLock at h
  cases exclusive with
  | true =>
    rw [if_pos rfl, hq.writeLockAcquire_eq] at h
    by_cases hh : l.held
    · simp [hh] at h
    · simp only [hh, Bool.false_eq_true, if_false, Option.some.injEq] at h
      exact .inl ⟨rfl, by simpa using hh, h.symm⟩
  | false =>
    rw [if_neg (by decide), hq.readLockAcquire_eq] at h
    by_cases hw : 0 < l.numWriters
    · simp [hw] at h
    · simp only [hw, if_false, Option.some.injEq] at h
      exact .inr ⟨rfl, by have := hq.writers; omega, h.symm⟩

/-- The lock just taken is quiet and held. -/
theorem acquireBlockLock_quiet (hq : l.Quiet) (h : acquireBlockLock l t exclusive = some l') :
    l'.Quiet ∧ l'.held = true := by
  rcases acquireBlockLock_some hq h with ⟨-, hf, rfl⟩ | ⟨-, hw, rfl⟩
  · have hr := hq.numReaders_eq hf
    exact ⟨⟨by simp [hr], .inr ⟨rfl, hr⟩, hq.pending_readers, hq.pending_writer, hq.reader_next,
      hq.can_read, hq.can_write, fun h => by simp [hr] at h, fun _ => rfl⟩,
      by simp [RwLock.held]⟩
  · have hr := hq.readers_nonneg
    exact ⟨⟨by simp; omega, .inl hw, hq.pending_readers, hq.pending_writer, hq.reader_next,
      hq.can_read, hq.can_write, fun _ => rfl, fun h => by simp [hw] at h⟩,
      by simp [RwLock.held]; omega⟩

end Lock

/-- `cache_put_block` on a quiet lock someone holds releases it and leaves it
quiet. -/
theorem cachePutBlock_quiet {C C' : Cache α} {b : Nat} {w : List Nat}
    (hq : (C.blocks b).rwLock.Quiet) (hh : (C.blocks b).rwLock.held = true)
    (h : cachePutBlock C b = some (C', w)) :
    ∃ l : RwLock, l.Quiet ∧ C' = C.setBlock b { C.blocks b with rwLock := l } := by
  have hr := hq.readers_nonneg
  have hw := hq.writers
  simp only [RwLock.held, Bool.or_eq_true, decide_eq_true_eq] at hh
  unfold cachePutBlock at h
  dsimp only at h
  split at h
  · -- taken as a writer: no reader, one writer
    rename_i hm
    have hr0 : (C.blocks b).rwLock.numReaders = 0 := by
      by_contra hne
      have := hq.read_mode (by omega)
      rw [hm] at this
      cases this
    have hw1 : (C.blocks b).rwLock.numWriters = 1 := by omega
    have hrel : writeLockRelease (C.blocks b).rwLock =
        some ({ (C.blocks b).rwLock with numWriters := 0, canWrite := [] }, [], []) := by
      unfold writeLockRelease
      simp [hw1, hq.pending_readers, hq.can_write, condSignal]
    rw [hrel] at h
    simp only [Option.map_some, Option.some.injEq, Prod.mk.injEq] at h
    refine ⟨{ (C.blocks b).rwLock with numWriters := 0, canWrite := [] }, ?_, h.1.symm⟩
    exact ⟨hq.readers_nonneg, .inl rfl, hq.pending_readers, hq.pending_writer, hq.reader_next,
      hq.can_read, rfl, fun h' => by simp [hr0] at h', fun h' => by simp at h'⟩
  · -- taken as a reader: no writer
    rename_i hm
    have hw0 : (C.blocks b).rwLock.numWriters = 0 := by
      rcases hw with hw | ⟨hw, -⟩
      · exact hw
      · have := hq.write_mode hw
        rw [hm] at this
        cases this
    have hrel : (readLockRelease (C.blocks b).rwLock).1 =
        { (C.blocks b).rwLock with
          numReaders := (C.blocks b).rwLock.numReaders - 1
          readerNext := false
          canWrite := [] } := by
      simp [readLockRelease, condSignal, hq.can_write]
    simp only [Option.some.injEq, Prod.mk.injEq] at h
    refine ⟨_, ?_, h.1.symm⟩
    rw [hrel]
    exact ⟨by simp only; omega, .inl hw0, hq.pending_readers, hq.pending_writer, rfl,
      hq.can_read, rfl, fun _ => hm, fun h' => by simp [hw0] at h'⟩
  · -- a held lock records its mode
    rename_i hm
    rcases hh with hh | hh
    · have := hq.read_mode hh
      rw [hm] at this
      cases this
    · have := hq.write_mode (by omega)
      rw [hm] at this
      cases this

/-- `cache_get_block` alone: where the block comes from, then the move to the front
and the lock. -/
theorem cacheGetBlock_cases {C C' : Cache α} {t s b : Nat} {e : Bool}
    (h : cacheGetBlock C t s e = some (C', b)) :
    ∃ C₁ l,
      ((cacheLookup C s = some b ∧ C₁ = C) ∨
        (cacheLookup C s = none ∧ C.freeCache.head? = some b ∧
          C₁ = C.setBlock b { C.blocks b with sector := s }) ∨
        (cacheLookup C s = none ∧ C.freeCache = [] ∧ evictLRUBlock C s = some (C₁, b))) ∧
      acquireBlockLock (C₁.blocks b).rwLock t e = some l ∧
      C' = (C₁.moveToFront b).setBlock b { C₁.blocks b with rwLock := l } := by
  -- the common tail: the move to the front and the lock
  have tail : ∀ (C₁ : Cache α) (b₁ : Nat),
      ((acquireBlockLock ((C₁.moveToFront b₁).blocks b₁).rwLock t e).bind fun l =>
        some ((C₁.moveToFront b₁).setBlock b₁ { (C₁.moveToFront b₁).blocks b₁ with rwLock := l },
          b₁)) = some (C', b) →
      b₁ = b ∧ ∃ l, acquireBlockLock (C₁.blocks b₁).rwLock t e = some l ∧
        C' = (C₁.moveToFront b₁).setBlock b₁ { C₁.blocks b₁ with rwLock := l } := by
    intro C₁ b₁ h
    obtain ⟨l, hl, h⟩ := Option.bind_eq_some_iff.mp h
    simp only [Option.some.injEq, Prod.mk.injEq] at h
    exact ⟨h.2, l, hl, h.1.symm⟩
  unfold cacheGetBlock at h
  simp only [Option.bind_eq_bind] at h
  cases hk : cacheLookup C s with
  | some b₁ =>
    simp only [hk, Option.bind_some] at h
    obtain ⟨rfl, l, hl, rfl⟩ := tail C b₁ h
    exact ⟨C, l, .inl ⟨rfl, rfl⟩, hl, rfl⟩
  | none =>
    simp only [hk] at h
    cases hf : C.freeCache with
    | cons b₁ rest =>
      simp only [hf, Option.bind_some] at h
      obtain ⟨rfl, l, hl, rfl⟩ := tail _ b₁ h
      exact ⟨_, l, .inr (.inl ⟨rfl, rfl, rfl⟩), hl, rfl⟩
    | nil =>
      simp only [hf] at h
      cases he : evictLRUBlock C s with
      | none => simp [he] at h
      | some r =>
        obtain ⟨C₁, b₁⟩ := r
        simp only [he, Option.bind_some] at h
        obtain ⟨rfl, l, hl, rfl⟩ := tail C₁ b₁ h
        exact ⟨C₁, l, .inr (.inr ⟨rfl, rfl, rfl⟩), hl, rfl⟩

/-- The block `cache_get_block (sector, ...)` returns is tagged `sector`. -/
theorem cacheGetBlock_sector {C C' : Cache α} {t s b : Nat} {e : Bool}
    (h : cacheGetBlock C t s e = some (C', b)) : (C'.blocks b).sector = s := by
  obtain ⟨C₁, l, hsrc, -, rfl⟩ := cacheGetBlock_cases h
  simp only [Cache.setBlock_self]
  rcases hsrc with ⟨hk, rfl⟩ | ⟨-, -, rfl⟩ | ⟨-, -, he⟩
  · exact (cacheLookup_some hk).2
  · simp
  · exact evictLRUBlock_sector he

end Pintos.Filesys

import Pintos.Filesys.CacheRefinement

/-!
# The buffer cache under interleaving (`filesys/cache.c`)

Any number of threads use the cache at once. A thread calls `cache_get_block`,
then `cache_read_block`, `cache_zero_block`, writes of the data and
`cache_mark_block_dirty` on the block it got, then `cache_put_block`; or it calls
`cache_flush`. The read-ahead daemon is such a thread (`cache_get_block (s, false)`,
`cache_read_block`, `cache_put_block`), and so is the write-behind daemon
(`cache_flush`).

A thread's place in its call is a `CachePc`. One step runs one thread to its next
place: a `cache_lock` section, a monitor section of a block's `rw_lock` with the
plain code after it, a `block_write`, or the retagging of a victim. What a step
joins follows itself in the thread's code, so every run of the model is a run of
the code. A `cache_lock` section of `evict_LRU_block` that finds every block
pinned spins in the code; here the section is taken once a victim exists.

`evict_LRU_block` releases `cache_lock` before it writes the victim back and
retags it. A second thread that misses on the same sector in between evicts a
second block for it, and both end up tagged with that sector.
-/

namespace Pintos.Filesys

variable {α : Type}

/-- Where a thread is in its call: `s` is the sector asked for, `e` whether
exclusively, `b` the block and `v` the victim being evicted. -/
inductive CachePc where
  | idle
  /-- `cache_get_block` before its `cache_lock` section, on each pass of its loop. -/
  | getLock (s : Nat) (e : Bool)
  /-- `evict_LRU_block` has released `cache_lock`, holding the victim's lock. -/
  | evictWrite (s : Nat) (e : Bool) (v : Nat)
  /-- The victim is written back if it was dirty. -/
  | evictRetag (s : Nat) (e : Bool) (v : Nat)
  /-- The victim is retagged `s`, its lock still held. -/
  | evictRelease (s : Nat) (e : Bool) (v : Nat)
  /-- The victim's lock is released; `cache_lock` is to be taken again. -/
  | evictRelock (s : Nat) (e : Bool) (v : Nat)
  /-- `cache_lock` is released; the block's lock is to be taken. -/
  | lockBlock (s : Nat) (e : Bool) (b : Nat)
  /-- Waiting on the block's `can_read` or `can_write`. -/
  | lockWait (s : Nat) (e : Bool) (b : Nat)
  /-- Signalled, to re-enter the block's monitor. -/
  | lockWoken (s : Nat) (e : Bool) (b : Nat)
  /-- The block was evicted before its lock was taken: the lock is to be released. -/
  | retryRelease (s : Nat) (e : Bool) (b : Nat)
  /-- `cache_get_block` returned `b`. -/
  | holding (b : Nat)
  /-- `cache_flush` at `b`. -/
  | flushAt (b : Nat)
  /-- `cache_flush` done with `b`, before its `cache_lock` section for `list_prev`. -/
  | flushPrev (b : Nat)
  deriving DecidableEq, Repr

/-- What a thread does next: start a call, call a block function on the block it
holds, or run the next step of its call. -/
inductive CacheMove (α : Type) where
  | getBlock (sector : Nat) (exclusive : Bool)
  | readBlock
  | zeroBlock
  | writeData (f : α → α)
  | markBlockDirty
  | putBlock
  | flush
  | next

/-- The cache and the threads using it. -/
structure CacheSys (α : Type) where
  cache : Cache α
  pc : Nat → CachePc

/-- `cache_init`, no thread in the cache. -/
def CacheSys.init (junk disk : Nat → α) : CacheSys α :=
  { cache := cacheInit junk disk, pc := fun _ => .idle }

/-- Move thread `t` to `p`. -/
def CacheSys.setPc (S : CacheSys α) (t : Nat) (p : CachePc) : CacheSys α :=
  { S with pc := Function.update S.pc t p }

/-- A signalled waiter is ready to re-enter the monitor. -/
def CachePc.wake : CachePc → CachePc
  | .lockWait s e b => .lockWoken s e b
  | p => p

/-- The threads a release signalled leave their wait. -/
def CacheSys.wake (S : CacheSys α) (woken : List Nat) : CacheSys α :=
  { S with pc := fun u => if u ∈ woken then (S.pc u).wake else S.pc u }

/-- `list_prev (e)` on a list: the element before `b`, `none` at `list_rend`. -/
def listPrev : List Nat → Nat → Option Nat
  | a :: c :: rest, b => if c = b then some a else listPrev (c :: rest) b
  | _, _ => none

/-- `write_lock_acquire` or `read_lock_acquire`, on entering the monitor. -/
def blockLockAcquire (l : RwLock) (t : Nat) (exclusive : Bool) : Option (RwLock × Bool) :=
  if exclusive then writeLockAcquire l t else some (readLockAcquire l t)

/-- The same, on re-entering the monitor after a signal. -/
def blockLockResume (l : RwLock) (t : Nat) (exclusive : Bool) : Option (RwLock × Bool) :=
  if exclusive then writeLockResume l t else some (readLockResume l t)

/-- `write_lock_release` or `read_lock_release`, with the threads signalled. -/
def blockLockRelease (l : RwLock) (exclusive : Bool) : Option (RwLock × List Nat) :=
  if exclusive then (writeLockRelease l).map fun (l, ws, rs) => (l, ws ++ rs)
  else some (readLockRelease l)

namespace CacheSys

/-- The `cache_lock` section of `cache_get_block (s, e)`: the cached block, else the
front of `free_cache` tagged `s`, each moved to the front of `buffer_cache`; else
`evict_LRU_block` up to its release of `cache_lock`, the victim's lock taken. -/
def getSection (S : CacheSys α) (t s : Nat) (e : Bool) : Option (CacheSys α) :=
  let C := S.cache
  match cacheLookup C s with
  | some b => some { cache := C.moveToFront b, pc := Function.update S.pc t (.lockBlock s e b) }
  | none =>
    match C.freeCache with
    | b :: _ =>
      some
        { cache := (C.setBlock b { C.blocks b with sector := s }).moveToFront b
          pc := Function.update S.pc t (.lockBlock s e b) }
    | [] =>
      (findVictim C).map fun v =>
        { cache := C.setBlock v
            { C.blocks v with rwLock := (writeLockTryAcquire (C.blocks v).rwLock).1 }
          pc := Function.update S.pc t (.evictWrite s e v) }

/-- The block's lock as an acquire left it: taken, then `rw_lock.mode` set and the
tag checked (a block evicted meanwhile gets `UNLOCKED` and is to be released), or
a wait on a condition. -/
def lockResult (S : CacheSys α) (t s : Nat) (e : Bool) (b : Nat) :
    RwLock × Bool → CacheSys α
  | (l, true) =>
    let blk := S.cache.blocks b
    if blk.sector = s then
      { cache := S.cache.setBlock b
          { blk with rwLock := { l with mode := if e then .writeLocked else .readLocked } }
        pc := Function.update S.pc t (.holding b) }
    else
      { cache := S.cache.setBlock b { blk with rwLock := { l with mode := .unlocked } }
        pc := Function.update S.pc t (.retryRelease s e b) }
  | (l, false) =>
    { cache := S.cache.setBlock b { S.cache.blocks b with rwLock := l }
      pc := Function.update S.pc t (.lockWait s e b) }

/-- The block's lock replaced by `l` and the signalled threads woken. -/
def released (S : CacheSys α) (b : Nat) (l : RwLock) (woken : List Nat) : CacheSys α :=
  { S with cache := S.cache.setBlock b { S.cache.blocks b with rwLock := l } }.wake woken

/-- The next step of thread `t`'s call; `none` for an idle, holding or waiting
thread, or where an assertion fails. -/
def next (S : CacheSys α) (t : Nat) : Option (CacheSys α) :=
  let C := S.cache
  match S.pc t with
  | .getLock s e => S.getSection t s e
  | .evictWrite s e v =>
    let blk := C.blocks v
    let disk := if blk.dirty then blockWrite C.disk blk.sector blk.data else C.disk
    some { cache := { C with disk := disk }, pc := Function.update S.pc t (.evictRetag s e v) }
  | .evictRetag s e v =>
    some
      { cache := C.setBlock v { C.blocks v with sector := s, valid := false, dirty := false }
        pc := Function.update S.pc t (.evictRelease s e v) }
  | .evictRelease s e v =>
    (writeLockRelease (C.blocks v).rwLock).map fun (l, ws, rs) =>
      (S.released v l (ws ++ rs)).setPc t (.evictRelock s e v)
  | .evictRelock s e v =>
    some { cache := C.moveToFront v, pc := Function.update S.pc t (.lockBlock s e v) }
  | .lockBlock s e b => (blockLockAcquire (C.blocks b).rwLock t e).map (S.lockResult t s e b)
  | .lockWoken s e b => (blockLockResume (C.blocks b).rwLock t e).map (S.lockResult t s e b)
  | .retryRelease s e b =>
    (blockLockRelease (C.blocks b).rwLock e).map fun (l, ws) =>
      (S.released b l ws).setPc t (.getLock s e)
  | .flushAt b =>
    (flushBlock C b).map fun (C, ws) => ({ S with cache := C }.wake ws).setPc t (.flushPrev b)
  | .flushPrev b =>
    match listPrev C.bufferCache b with
    | some b' => some (S.setPc t (.flushAt b'))
    | none => some (S.setPc t .idle)
  | .idle | .holding _ | .lockWait _ _ _ => none

/-- Thread `t` runs `f` on the block it holds. -/
def onHeld (S : CacheSys α) (t : Nat) (f : Cache α → Nat → Cache α) : Option (CacheSys α) :=
  match S.pc t with
  | .holding b => some { S with cache := f S.cache b }
  | _ => none

/-- A step of thread `t`. A call starts from `idle`; `cache_flush` starts at
`list_rbegin`, read without `cache_lock`. -/
def step [Zero α] (S : CacheSys α) : Nat × CacheMove α → Option (CacheSys α)
  | (t, .getBlock s e) => if S.pc t = .idle then some (S.setPc t (.getLock s e)) else none
  | (t, .flush) =>
    if S.pc t = .idle then
      match S.cache.bufferCache.getLast? with
      | some b => some (S.setPc t (.flushAt b))
      | none => some S
    else none
  | (t, .readBlock) => S.onHeld t fun C b => (cacheReadBlock C b).1
  | (t, .zeroBlock) => S.onHeld t fun C b => (cacheZeroBlock C b).1
  | (t, .writeData f) =>
    S.onHeld t fun C b => C.setBlock b { C.blocks b with data := f (C.blocks b).data }
  | (t, .markBlockDirty) => S.onHeld t cacheMarkBlockDirty
  | (t, .putBlock) =>
    match S.pc t with
    | .holding b =>
      (cachePutBlock S.cache b).map fun (C, ws) => ({ S with cache := C }.wake ws).setPc t .idle
    | _ => none
  | (t, .next) => S.next t

/-! ## Steps -/

@[simp] theorem setPc_cache (S : CacheSys α) (t : Nat) (p : CachePc) :
    (S.setPc t p).cache = S.cache := rfl

@[simp] theorem setPc_pc (S : CacheSys α) (t : Nat) (p : CachePc) :
    (S.setPc t p).pc = Function.update S.pc t p := rfl

@[simp] theorem wake_nil (S : CacheSys α) : S.wake [] = S := by
  cases S
  simp [wake]

section Steps

variable [Zero α] {S : CacheSys α} {t s b v : Nat} {e : Bool}

theorem step_getBlock (hp : S.pc t = .idle) :
    S.step (t, .getBlock s e) = some (S.setPc t (.getLock s e)) := by
  simp [step, hp]

/-- A miss with a block on `free_cache`: the first one is tagged `s` and moved to
the front. -/
theorem step_getLock_free (hp : S.pc t = .getLock s e) (hk : cacheLookup S.cache s = none)
    {rest : List Nat} (hf : S.cache.freeCache = b :: rest) :
    S.step (t, .next) = some
      { cache := (S.cache.setBlock b { S.cache.blocks b with sector := s }).moveToFront b
        pc := Function.update S.pc t (.lockBlock s e b) } := by
  simp only [step, next, hp, getSection, hk, hf]

/-- A miss with `free_cache` empty: the victim's lock is taken and `cache_lock`
released, the victim still tagged with its old sector. -/
theorem step_getLock_evict (hp : S.pc t = .getLock s e) (hk : cacheLookup S.cache s = none)
    (hf : S.cache.freeCache = []) (hv : findVictim S.cache = some v) :
    S.step (t, .next) = some
      { cache := S.cache.setBlock v
          { S.cache.blocks v with rwLock := (writeLockTryAcquire (S.cache.blocks v).rwLock).1 }
        pc := Function.update S.pc t (.evictWrite s e v) } := by
  simp only [step, next, hp, getSection, hk, hf, hv, Option.map_some]

/-- A hit: the block is moved to the front and its lock is to be taken. -/
theorem step_getLock_hit (hp : S.pc t = .getLock s e) (hk : cacheLookup S.cache s = some b) :
    S.step (t, .next) = some
      { cache := S.cache.moveToFront b, pc := Function.update S.pc t (.lockBlock s e b) } := by
  simp only [step, next, hp, getSection, hk]

theorem step_evictWrite (hp : S.pc t = .evictWrite s e v) :
    S.step (t, .next) = some
      { cache := { S.cache with
          disk := if (S.cache.blocks v).dirty then
            blockWrite S.cache.disk (S.cache.blocks v).sector (S.cache.blocks v).data
          else S.cache.disk }
        pc := Function.update S.pc t (.evictRetag s e v) } := by
  simp only [step, next, hp]

theorem step_evictRetag (hp : S.pc t = .evictRetag s e v) :
    S.step (t, .next) = some
      { cache := S.cache.setBlock v
          { S.cache.blocks v with sector := s, valid := false, dirty := false }
        pc := Function.update S.pc t (.evictRelease s e v) } := by
  simp only [step, next, hp]

/-- An exclusive `cache_get_block` takes a free lock at once and keeps a block
still tagged `s`. -/
theorem step_lockBlock_free (hp : S.pc t = .lockBlock s true b)
    (hq : (S.cache.blocks b).rwLock.Quiet) (hh : (S.cache.blocks b).rwLock.held = false)
    (hs : (S.cache.blocks b).sector = s) :
    S.step (t, .next) = some
      { cache := S.cache.setBlock b { S.cache.blocks b with
          rwLock := { (S.cache.blocks b).rwLock with numWriters := 1, mode := .writeLocked } }
        pc := Function.update S.pc t (.holding b) } := by
  simp only [step, next, hp, blockLockAcquire, if_true, hq.writeLockAcquire_eq, hh,
    Bool.false_eq_true, if_false, Option.map_some, lockResult, hs]

/-- While a reader is in, an exclusive `cache_get_block` waits on `can_write`. -/
theorem step_lockBlock_wait (hp : S.pc t = .lockBlock s true b)
    (hr : 0 < (S.cache.blocks b).rwLock.numReaders) :
    S.step (t, .next) = some
      { cache := S.cache.setBlock b { S.cache.blocks b with
          rwLock := { (S.cache.blocks b).rwLock with
            pendingWriter := true, canWrite := (S.cache.blocks b).rwLock.canWrite ++ [t] } }
        pc := Function.update S.pc t (.lockWait s true b) } := by
  simp only [step, next, hp, blockLockAcquire, if_true, writeLockAcquire,
    writeLockCheck_of_reader hr, Option.map_some, lockResult]

theorem step_putBlock (hp : S.pc t = .holding b) {C' : Cache α} {ws : List Nat}
    (h : cachePutBlock S.cache b = some (C', ws)) :
    S.step (t, .putBlock) = some (({ S with cache := C' }.wake ws).setPc t .idle) := by
  simp only [step, hp, h, Option.map_some]

end Steps

/-- `cache_put_block` of a block whose free lock a writer took: the lock is as
before, but for `mode`, and nobody is woken. -/
theorem cachePutBlock_write {C : Cache α} {b : Nat} {l : RwLock} (hq : l.Quiet)
    (hh : l.held = false) (hb : (C.blocks b).rwLock = { l with numWriters := 1, mode := .writeLocked }) :
    cachePutBlock C b =
      some (C.setBlock b { C.blocks b with rwLock := { l with mode := .writeLocked } }, []) := by
  simp [cachePutBlock, hb, hq.write_release hh]

/-! ## One thread at a time -/

/-- No thread in the cache and no block's lock held: the cache between the calls
of threads that run one after another. -/
structure Quiescent (S : CacheSys α) : Prop where
  idle : ∀ t, S.pc t = .idle
  quiet : ∀ u, (S.cache.blocks u).rwLock.Quiet
  free : ∀ u, (S.cache.blocks u).rwLock.held = false

theorem init_quiescent (junk disk : Nat → α) : (init junk disk).Quiescent where
  idle _ := rfl
  quiet _ := rwLockInit_quiet
  free _ := rwLockInit_held

/-- Thread `t` gets sector `s` exclusively and puts it back. -/
def getPut (t s : Nat) : List (Nat × CacheMove α) :=
  [(t, .getBlock s true), (t, .next), (t, .next), (t, .putBlock)]

section Load

variable [Zero α] {S : CacheSys α} {s b : Nat}

/-- Alone in a quiescent cache, a thread that gets a sector not cached takes the
first block of `free_cache` for it: the block is tagged and moves to the front of
`buffer_cache`, and the cache is quiescent again. -/
theorem Quiescent.load (hc : S.Quiescent) (hk : cacheLookup S.cache s = none)
    {rest : List Nat} (hf : S.cache.freeCache = b :: rest) (hb : b ∉ S.cache.bufferCache)
    (t : Nat) :
    ∃ S', Lts.run step S (getPut t s) = some S' ∧ S'.Quiescent ∧
      S'.cache.bufferCache = b :: S.cache.bufferCache ∧ S'.cache.freeCache = rest ∧
      ∀ u, (S'.cache.blocks u).sector = if u = b then s else (S.cache.blocks u).sector := by
  have hq := hc.quiet b
  have hh := hc.free b
  -- after the `cache_lock` section, after the lock is taken, after the put
  set S₂ : CacheSys α :=
    { cache := (S.cache.setBlock b { S.cache.blocks b with sector := s }).moveToFront b
      pc := Function.update (S.setPc t (.getLock s true)).pc t (.lockBlock s true b) }
  set l := (S₂.cache.blocks b).rwLock
  set C₃ := S₂.cache.setBlock b
    { S₂.cache.blocks b with rwLock := { l with numWriters := 1, mode := .writeLocked } }
  set S₃ : CacheSys α := { cache := C₃, pc := Function.update S₂.pc t (.holding b) }
  set C₄ := C₃.setBlock b { C₃.blocks b with rwLock := { l with mode := .writeLocked } }
  have hq₂ : l.Quiet := by simpa [l, S₂] using hq
  have hh₂ : l.held = false := by simpa [l, S₂] using hh
  have h₁ := step_getBlock (s := s) (e := true) (hc.idle t)
  have h₂ : (S.setPc t (.getLock s true)).step (t, .next) = some S₂ :=
    step_getLock_free (by simp) hk hf
  have h₃ : S₂.step (t, .next) = some S₃ :=
    step_lockBlock_free (s := s) (by simp [S₂]) hq₂ hh₂ (by simp [S₂])
  have h₄ : S₃.step (t, .putBlock) = some (({ S₃ with cache := C₄ }.wake []).setPc t .idle) :=
    step_putBlock (by simp [S₃]) (cachePutBlock_write hq₂ hh₂ (by simp [S₃, C₃]))
  refine ⟨({ S₃ with cache := C₄ }.wake []).setPc t .idle,
    by simp only [getPut, Lts.run_cons, h₁, h₂, h₃, h₄, Option.bind_some, Lts.run_nil],
    ⟨fun u => ?_, fun u => ?_, fun u => ?_⟩, ?_, ?_, fun u => ?_⟩
  · by_cases hu : u = t
    · simp [hu]
    · simp [hu, S₃, S₂, hc.idle u]
  · by_cases hu : u = b
    · subst hu
      simpa [C₄] using hq₂.setMode hh₂ .writeLocked
    · simpa [hu, C₄, C₃, S₂] using hc.quiet u
  · by_cases hu : u = b
    · subst hu
      simpa [C₄] using hh₂
    · simpa [hu, C₄, C₃, S₂] using hc.free u
  · simp [C₄, C₃, S₂, List.erase_of_not_mem hb]
  · simp [C₄, C₃, S₂, hf]
  · by_cases hu : u = b
    · simp [hu, C₄, C₃, S₂]
    · simp [hu, C₄, C₃, S₂]

/-- One thread loads sectors `0` to `k - 1` one after another: the first `k`
blocks of `free_cache` move to `buffer_cache`, the last loaded at the front. -/
theorem fill (junk disk : Nat → α) : ∀ k ≤ maxCacheSize,
    ∃ S, Lts.Reachable step (init junk disk) S ∧ S.Quiescent ∧
      S.cache.freeCache = (List.range (maxCacheSize - k)).reverse ∧
      S.cache.bufferCache = List.range' (maxCacheSize - k) k ∧
      ∀ u ∈ S.cache.bufferCache, (S.cache.blocks u).sector < k
  | 0, _ => ⟨init junk disk, .init, init_quiescent junk disk, rfl, rfl, by simp [init, cacheInit]⟩
  | k + 1, hk => by
    obtain ⟨S, hr, hc, hf, hb, hs⟩ := fill junk disk k (by omega)
    have hn : maxCacheSize - k = maxCacheSize - (k + 1) + 1 := by omega
    simp only [hn, List.range_succ, List.reverse_append, List.reverse_singleton,
      List.singleton_append] at hf
    -- the next block of `free_cache`, for sector `k`, which is not cached yet
    have hk' : cacheLookup S.cache k = none := cacheLookup_eq_none.mpr fun u hu => (hs u hu).ne
    have hb' : maxCacheSize - (k + 1) ∉ S.cache.bufferCache := by
      rw [hb, List.mem_range']
      omega
    obtain ⟨S', hrun, hc', hbuf, hfree, hsec⟩ := hc.load hk' hf hb' 0
    refine ⟨S', Lts.reachable_run hr hrun, hc', hfree, ?_, fun u hu => ?_⟩
    · rw [hbuf, hb, hn, List.range'_succ]
    · rw [hsec u]
      rw [hbuf, List.mem_cons] at hu
      split_ifs with hub
      · omega
      · have := hs u (hu.resolve_left hub)
        omega

end Load

/-! ## Two evictions for one sector -/

section Race

variable [Zero α] {S : CacheSys α} {t s v : Nat} {e : Bool}

/-- A thread that misses while `free_cache` is empty: its `cache_lock` section
takes the victim's lock, and the victim keeps its old tag. -/
theorem run_evictStart (hp : S.pc t = .idle) (hk : cacheLookup S.cache s = none)
    (hf : S.cache.freeCache = []) (hv : findVictim S.cache = some v) :
    Lts.run step S [(t, .getBlock s e), (t, .next)] = some
      { cache := S.cache.setBlock v
          { S.cache.blocks v with rwLock := (writeLockTryAcquire (S.cache.blocks v).rwLock).1 }
        pc := Function.update S.pc t (.evictWrite s e v) } := by
  rw [Lts.run_cons, step_getBlock hp, Option.bind_some, Lts.run_cons,
    step_getLock_evict (S := S.setPc t (.getLock s e)) (e := e) (by simp) hk hf hv, Option.bind_some,
    Lts.run_nil]
  simp

/-- The victim written back if it was dirty, then retagged `s`, with no lock but
its own held. -/
theorem run_evictRetag (hp : S.pc t = .evictWrite s e v) :
    ∃ S', Lts.run step S [(t, .next), (t, .next)] = some S' ∧
      S'.cache.bufferCache = S.cache.bufferCache ∧
      (∀ u, (S'.cache.blocks u).sector = if u = v then s else (S.cache.blocks u).sector) ∧
      ∀ u, u ≠ t → S'.pc u = S.pc u := by
  set S₁ : CacheSys α :=
    { cache := { S.cache with
        disk := if (S.cache.blocks v).dirty then
          blockWrite S.cache.disk (S.cache.blocks v).sector (S.cache.blocks v).data
        else S.cache.disk }
      pc := Function.update S.pc t (.evictRetag s e v) }
  set S₂ : CacheSys α :=
    { cache := S₁.cache.setBlock v
        { S₁.cache.blocks v with sector := s, valid := false, dirty := false }
      pc := Function.update S₁.pc t (.evictRelease s e v) }
  have h₁ : S.step (t, .next) = some S₁ := step_evictWrite hp
  have h₂ : S₁.step (t, .next) = some S₂ := step_evictRetag (by simp [S₁])
  refine ⟨S₂, by simp only [Lts.run_cons, h₁, h₂, Option.bind_some, Lts.run_nil],
    by simp [S₂, S₁], fun u => ?_, fun u hu => by simp [S₂, S₁, hu]⟩
  by_cases hu : u = v
  · simp [S₂, hu]
  · simp [S₂, S₁, hu]

/-- Threads `t₀` and `t₁` both call `cache_get_block (s, ...)`; each runs its
`cache_lock` section before either victim is retagged. -/
def evictRace (t₀ t₁ s : Nat) (e₀ e₁ : Bool) : List (Nat × CacheMove α) :=
  [(t₀, .getBlock s e₀), (t₀, .next)] ++ [(t₁, .getBlock s e₁), (t₁, .next)] ++
    [(t₀, .next), (t₀, .next)] ++ [(t₁, .next), (t₁, .next)]

/-- The race of `evict_LRU_block`: from a quiescent cache whose `free_cache` is
empty, two threads that miss on the same sector evict two different blocks for
it, since the first victim keeps its old tag until after `cache_lock` is
released; `buffer_cache` then holds two blocks tagged `s`. -/
theorem Quiescent.race_duplicates (hc : S.Quiescent) {t₀ t₁ : Nat} (ht : t₀ ≠ t₁)
    (hf : S.cache.freeCache = []) (hk : cacheLookup S.cache s = none) {u w : Nat}
    (hu : u ∈ S.cache.bufferCache) (hw : w ∈ S.cache.bufferCache) (huw : u ≠ w)
    (e₀ e₁ : Bool) :
    ∃ S', Lts.run step S (evictRace t₀ t₁ s e₀ e₁) = some S' ∧ ¬ S'.cache.DistinctSectors := by
  -- the first victim, whose lock `t₀` then holds
  obtain ⟨v₀, hv₀⟩ := exists_findVictim hu (hc.free u)
  have hm₀ := (findVictim_some hv₀).1
  set C₁ := S.cache.setBlock v₀
    { S.cache.blocks v₀ with rwLock := (writeLockTryAcquire (S.cache.blocks v₀).rwLock).1 }
  have hheld : (C₁.blocks v₀).rwLock.held = true := by
    simpa [C₁] using (hc.quiet v₀).try_held (hc.free v₀)
  -- the second victim: of `u` and `w`, one is not `v₀` and is still free
  obtain ⟨x, hx, hxv⟩ : ∃ x ∈ S.cache.bufferCache, x ≠ v₀ := by
    by_cases h : u = v₀
    · exact ⟨w, hw, h ▸ huw.symm⟩
    · exact ⟨u, hu, h⟩
  obtain ⟨v₁, hv₁⟩ := exists_findVictim (C := C₁) (by simpa [C₁] using hx)
    (by simpa [C₁, hxv] using hc.free x)
  obtain ⟨hm₁, hfree₁⟩ := findVictim_some hv₁
  have hne : v₁ ≠ v₀ := by
    rintro rfl
    simp [hheld] at hfree₁
  -- the four stretches of the race
  set S₁ : CacheSys α := { cache := C₁, pc := Function.update S.pc t₀ (.evictWrite s e₀ v₀) }
  set S₂ : CacheSys α :=
    { cache := C₁.setBlock v₁
        { C₁.blocks v₁ with rwLock := (writeLockTryAcquire (C₁.blocks v₁).rwLock).1 }
      pc := Function.update S₁.pc t₁ (.evictWrite s e₁ v₁) }
  have r₁ : Lts.run step S [(t₀, .getBlock s e₀), (t₀, .next)] = some S₁ :=
    run_evictStart (hc.idle t₀) hk hf hv₀
  have hk₁ : cacheLookup C₁ s = none := by
    simp only [C₁]
    rw [cacheLookup_setBlock, hk]
    rfl
  have r₂ : Lts.run step S₁ [(t₁, .getBlock s e₁), (t₁, .next)] = some S₂ :=
    run_evictStart (by simp [S₁, ht.symm, hc.idle t₁]) hk₁ (by simpa [S₁, C₁] using hf) hv₁
  obtain ⟨S₃, r₃, hbuf₃, hsec₃, hpc₃⟩ := run_evictRetag (S := S₂) (t := t₀) (s := s) (e := e₀) (v := v₀)
    (by simp [S₂, S₁, ht])
  obtain ⟨S₄, r₄, hbuf₄, hsec₄, -⟩ :=
    run_evictRetag (S := S₃) (t := t₁) (s := s) (e := e₁) (v := v₁)
      (by rw [hpc₃ t₁ ht.symm]; simp [S₂])
  refine ⟨S₄, by simp only [evictRace, Lts.run_append, r₁, r₂, r₃, r₄, Option.bind_some], ?_⟩
  -- `v₀` and `v₁` are both on `buffer_cache`, both tagged `s`
  have hbuf : S₄.cache.bufferCache = S.cache.bufferCache := by simp [hbuf₄, hbuf₃, S₂, C₁]
  intro hd
  refine hne (hd v₁ (hbuf ▸ by simpa [C₁] using hm₁) v₀ (hbuf ▸ hm₀) ?_)
  rw [hsec₄ v₁, hsec₄ v₀, hsec₃ v₀]
  simp [hne.symm]

end Race

section Frame

variable {S S' : CacheSys α} {t u : Nat}

/-- A place another thread's step may leave `u` at: where it was, or woken. -/
def Moved (S S' : CacheSys α) (u : Nat) : Prop := S'.pc u = S.pc u ∨ S'.pc u = (S.pc u).wake

theorem moved_update (hu : u ≠ t) {p : CachePc} (h : S'.pc = Function.update S.pc t p) :
    Moved S S' u := by
  left
  simp [h, Function.update_of_ne hu]

theorem moved_wake_setPc (hu : u ≠ t) (ws : List Nat) (p : CachePc) (C : Cache α) :
    Moved S (({ S with cache := C }.wake ws).setPc t p) u := by
  simp only [Moved, setPc_pc, Function.update_of_ne hu, wake]
  split <;> simp

theorem getSection_moved {s : Nat} {e : Bool} (h : S.getSection t s e = some S') (hu : u ≠ t) :
    Moved S S' u := by
  unfold getSection at h
  dsimp only at h
  split at h
  · cases h
    exact moved_update hu rfl
  · split at h
    · cases h
      exact moved_update hu rfl
    · obtain ⟨v, -, rfl⟩ := Option.map_eq_some_iff.mp h
      exact moved_update hu rfl

theorem lockResult_moved {s : Nat} {e : Bool} {b : Nat} (r : RwLock × Bool) (hu : u ≠ t) :
    Moved S (S.lockResult t s e b r) u := by
  unfold lockResult
  dsimp only
  split
  · split <;> exact moved_update hu rfl
  · exact moved_update hu rfl

/-- A step of thread `t` moves no other thread but by waking it from a wait. -/
theorem next_moved (h : S.next t = some S') (hu : u ≠ t) : Moved S S' u := by
  unfold next at h
  dsimp only at h
  split at h
  · exact getSection_moved h hu
  · cases h
    exact moved_update hu rfl
  · cases h
    exact moved_update hu rfl
  · obtain ⟨r, -, rfl⟩ := Option.map_eq_some_iff.mp h
    exact moved_wake_setPc hu _ _ _
  · cases h
    exact moved_update hu rfl
  · obtain ⟨r, -, rfl⟩ := Option.map_eq_some_iff.mp h
    exact lockResult_moved r hu
  · obtain ⟨r, -, rfl⟩ := Option.map_eq_some_iff.mp h
    exact lockResult_moved r hu
  · obtain ⟨r, -, rfl⟩ := Option.map_eq_some_iff.mp h
    exact moved_wake_setPc hu _ _ _
  · obtain ⟨r, -, rfl⟩ := Option.map_eq_some_iff.mp h
    exact moved_wake_setPc hu _ _ _
  · split at h <;> cases h <;> exact moved_update hu rfl
  all_goals cases h

theorem step_moved [Zero α] {m : CacheMove α} (h : S.step (t, m) = some S') (hu : u ≠ t) :
    Moved S S' u := by
  cases m with
  | getBlock s e =>
    simp only [step] at h
    split at h
    · cases h
      exact moved_update hu rfl
    · cases h
  | flush =>
    simp only [step] at h
    split at h
    · split at h <;> cases h
      · exact moved_update hu rfl
      · exact .inl rfl
    · cases h
  | putBlock =>
    simp only [step] at h
    split at h
    · obtain ⟨r, -, rfl⟩ := Option.map_eq_some_iff.mp h
      exact moved_wake_setPc hu _ _ _
    · cases h
  | next => exact next_moved h hu
  | _ =>
    simp only [step, onHeld] at h
    split at h
    · cases h
      exact .inl rfl
    · cases h

/-- A thread that makes no move in a run stays idle through it. -/
theorem run_idle [Zero α] {u : Nat} :
    ∀ {S S' : CacheSys α} {ms : List (Nat × CacheMove α)}, (∀ m ∈ ms, m.1 ≠ u) →
      S.pc u = .idle → Lts.run step S ms = some S' → S'.pc u = .idle
  | S, S', [], _, hi, h => by
    simp only [Lts.run_nil, Option.some.injEq] at h
    exact h ▸ hi
  | S, S', (t, m) :: ms, hms, hi, h => by
    rw [Lts.run_cons] at h
    obtain ⟨S₁, h₁, h'⟩ := Option.bind_eq_some_iff.mp h
    have hu : u ≠ t := fun he => hms (t, m) List.mem_cons_self he.symm
    have hi₁ : S₁.pc u = .idle := by
      rcases step_moved h₁ hu with h₂ | h₂ <;> rw [h₂, hi]; rfl
    exact run_idle (fun m hm => hms m (List.mem_cons_of_mem _ hm)) hi₁ h'

end Frame

end CacheSys

/-- Thread 0 loads sectors `0` to `63` one after another, which empties
`free_cache`; threads 0 and 1 then both call `cache_get_block (64, true)`, and
`buffer_cache` comes to hold two blocks tagged `64`. -/
theorem cache_sector_duplicated [Zero α] (junk disk : Nat → α) :
    ¬ ∀ S, Lts.Reachable CacheSys.step (CacheSys.init junk disk) S →
      S.cache.DistinctSectors := by
  intro hall
  obtain ⟨S, hr, hc, hf, hb, hs⟩ := CacheSys.fill junk disk maxCacheSize le_rfl
  simp only [Nat.sub_self, List.range_zero, List.reverse_nil] at hf hb
  have hk : cacheLookup S.cache maxCacheSize = none :=
    cacheLookup_eq_none.mpr fun u hu => (hs u hu).ne
  have h0 : 0 ∈ S.cache.bufferCache := by simp [hb, maxCacheSize]
  have h1 : 1 ∈ S.cache.bufferCache := by simp [hb, maxCacheSize]
  obtain ⟨S', hrun, hbad⟩ := hc.race_duplicates zero_ne_one hf hk h0 h1 zero_ne_one true true
  exact hbad (hall S' (Lts.reachable_run hr hrun))

/-- Thread 0 loads sectors `0` to `63` one after another, which empties
`free_cache`. -/
def loadAll : List (Nat × CacheMove α) :=
  (List.range maxCacheSize).flatMap fun s => CacheSys.getPut 0 s

/-- On a full cache, thread 0 gets sector 64 shared and evicts the last block for
it. Before 0 takes that block's lock, thread 1 gets sector 65 shared and evicts the
same block again; 0 waits for the lock, and 1's release hands it to the readers.
Thread 1 takes a read hold, then 0 takes one too, finds the block retagged, sets
`mode` to `UNLOCKED` and gives its hold back; 1 then puts the block. -/
def retagBackout : List (Nat × CacheMove α) :=
  [(0, .getBlock 64 false), (0, .next), (0, .next), (0, .next), (0, .next),
    (1, .getBlock 65 false), (1, .next), (0, .next), (0, .next), (1, .next), (1, .next),
    (1, .next), (1, .next), (1, .next), (0, .next), (0, .next), (1, .putBlock)]

/-- The run of `loadAll` and `retagBackout`: block 63, now tagged 65, counts one
reader; thread 0 is back at the start of its `cache_get_block` and every other
thread is idle. -/
theorem retagBackout_run :
    ∃ S, Lts.run CacheSys.step (CacheSys.init (fun _ => (0 : Nat)) fun _ => 0)
        (loadAll ++ retagBackout) = some S ∧
      (S.cache.blocks 63).rwLock.numReaders = 1 ∧ cacheLookup S.cache 65 = some 63 ∧
      S.pc 0 = .getLock 64 false ∧ ∀ t, t ≠ 0 → S.pc t = .idle := by
  have hrun : (Lts.run CacheSys.step (CacheSys.init (fun _ => (0 : Nat)) fun _ => 0)
      (loadAll ++ retagBackout)).map (fun S => decide ((S.cache.blocks 63).rwLock.numReaders = 1 ∧
        cacheLookup S.cache 65 = some 63 ∧ S.pc 0 = .getLock 64 false ∧ S.pc 1 = .idle)) =
      some true := by
    decide +kernel
  obtain ⟨S, hS, hP⟩ := Option.map_eq_some_iff.mp hrun
  obtain ⟨hreaders, hk, h0, h1⟩ := of_decide_eq_true hP
  have hthreads : ∀ m ∈ (loadAll ++ retagBackout : List (Nat × CacheMove Nat)),
      m.1 = 0 ∨ m.1 = 1 := by
    intro m hm
    rcases List.mem_append.mp hm with hm | hm
    · obtain ⟨s, -, hs⟩ := List.mem_flatMap.mp hm
      simp only [CacheSys.getPut, List.mem_cons, List.not_mem_nil, or_false] at hs
      rcases hs with rfl | rfl | rfl | rfl <;> exact .inl rfl
    · have hback : ∀ m ∈ (retagBackout : List (Nat × CacheMove Nat)), m.1 = 0 ∨ m.1 = 1 := by
        decide
      exact hback m hm
  refine ⟨S, hS, hreaders, hk, h0, fun t ht0 => ?_⟩
  by_cases ht1 : t = 1
  · subst ht1
    exact h1
  refine CacheSys.run_idle (fun m hm he => ?_) rfl hS
  rcases hthreads m hm with h | h <;> omega

/-- After `loadAll` and `retagBackout`, no thread holds or waits for a block, yet
the evicted block's lock still counts one reader: thread 1's `cache_put_block`
read `mode` as `UNLOCKED` and released nothing. -/
theorem put_leaves_read_hold :
    ∃ S, Lts.Reachable CacheSys.step (CacheSys.init (fun _ => (0 : Nat)) fun _ => 0) S ∧
      (∀ t, S.pc t = .idle ∨ ∃ s e, S.pc t = .getLock s e) ∧
      ∃ b, (S.cache.blocks b).rwLock.numReaders = 1 := by
  obtain ⟨S, hS, hreaders, -, h0, hidle⟩ := retagBackout_run
  refine ⟨S, Lts.reachable_of_run hS, fun t => ?_, 63, hreaders⟩
  by_cases ht0 : t = 0
  · subst ht0
    exact .inr ⟨64, false, h0⟩
  · exact .inl (hidle t ht0)

end Pintos.Filesys

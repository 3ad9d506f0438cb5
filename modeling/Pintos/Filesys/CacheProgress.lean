import Mathlib
import Pintos.Filesys.CacheConcurrent

/-!
# A writer that waits forever (`filesys/cache.c`, `filesys/rw-lock.c`)

`num_readers` of a block's lock counts the read holds taken and not given back.
A thread gives back at most the one hold it took, so `num_readers` less the
number of threads holding the block never goes down (`step_readers`). Once it is
positive with no holder, as after `put_leaves_read_hold`, it stays positive
(`Leaked`), `write_lock_acquire` on that block waits at every test, and an
exclusive `cache_get_block` of the block never returns (`writerWaits_forever`).
-/

namespace Pintos.Filesys

variable {α : Type}

/-- The thread at this place holds block `b`'s lock and gives back at most one
hold when it leaves. -/
def CachePc.holds (b : Nat) : CachePc → Bool
  | .holding b' | .retryRelease _ _ b' => b' == b
  | _ => false

@[simp] theorem CachePc.holds_wake (p : CachePc) (b : Nat) : p.wake.holds b = p.holds b := by
  cases p <;> rfl

section Locks

variable {C C' : Cache α} {b u : Nat} {ws : List Nat}

theorem cachePutBlock_numReaders (h : cachePutBlock C b = some (C', ws)) (u : Nat) :
    (C.blocks u).rwLock.numReaders - (if u = b then 1 else 0) ≤
      (C'.blocks u).rwLock.numReaders := by
  unfold cachePutBlock at h
  dsimp only at h
  split at h
  · obtain ⟨⟨l, ws', rs⟩, hl, he⟩ := Option.map_eq_some_iff.mp h
    cases he
    rw [Cache.setBlock_apply]
    split_ifs with hu
    · subst hu
      rw [writeLockRelease_numReaders hl]
      omega
    · omega
  · cases h
    rw [Cache.setBlock_apply]
    split_ifs with hu
    · subst hu
      simp
    · omega
  · cases h
    split_ifs <;> omega

theorem flushBlock_numReaders (h : flushBlock C b = some (C', ws)) (u : Nat) :
    (C'.blocks u).rwLock.numReaders = (C.blocks u).rwLock.numReaders := by
  simp only [flushBlock] at h
  split_ifs at h
  -- a dirty block whose lock was free: taken and released around its write-back
  iterate 2
    obtain ⟨⟨l, ws', rs⟩, hl, he⟩ := Option.map_eq_some_iff.mp h
    cases he
    rw [Cache.setBlock_apply]
    split_ifs with hu
    · subst hu
      rw [writeLockRelease_numReaders hl, writeLockTryAcquire_numReaders]
    · rfl
  all_goals
    cases h
    rfl

/-- Taking a block's lock while a reader is in counts one more reader exactly when
the thread gets it: a writer waits. -/
theorem blockLockAcquire_numReaders {l : RwLock} {t : Nat} {e : Bool} {r : RwLock × Bool}
    (hr : 0 < l.numReaders) (h : blockLockAcquire l t e = some r) :
    r.1.numReaders = l.numReaders + if r.2 then 1 else 0 := by
  unfold blockLockAcquire at h
  cases e
  · cases h
    exact readLockCheck_numReaders l t
  · rw [if_pos rfl, writeLockAcquire, writeLockCheck_of_reader hr] at h
    cases h
    simp

theorem blockLockResume_numReaders {l : RwLock} {t : Nat} {e : Bool} {r : RwLock × Bool}
    (hr : 0 < l.numReaders) (h : blockLockResume l t e = some r) :
    r.1.numReaders = l.numReaders + if r.2 then 1 else 0 := by
  unfold blockLockResume at h
  cases e
  · cases h
    exact readLockCheck_numReaders _ t
  · have hr' : 0 < ({ l with pendingWriter := false } : RwLock).numReaders := hr
    rw [if_pos rfl, writeLockResume, writeLockCheck_of_reader hr'] at h
    cases h
    simp

/-- A release gives back one reader at most. -/
theorem blockLockRelease_numReaders {l l' : RwLock} {e : Bool}
    (h : blockLockRelease l e = some (l', ws)) : l.numReaders - 1 ≤ l'.numReaders := by
  unfold blockLockRelease at h
  cases e
  · cases h
    simp
  · obtain ⟨⟨l₁, ws₁, rs₁⟩, hl, he⟩ := Option.map_eq_some_iff.mp h
    cases he
    rw [writeLockRelease_numReaders hl]
    omega

/-- A block updated with its count of readers left as it was. -/
theorem setBlock_numReaders {blk : CacheBlock α}
    (h : blk.rwLock.numReaders = (C.blocks b).rwLock.numReaders) (u : Nat) :
    ((C.setBlock b blk).blocks u).rwLock.numReaders = (C.blocks u).rwLock.numReaders := by
  rw [Cache.setBlock_apply]
  split_ifs with hu
  · rw [hu, h]
  · rfl

theorem cacheReadBlock_numReaders (C : Cache α) (b u : Nat) :
    ((cacheReadBlock C b).1.blocks u).rwLock.numReaders = (C.blocks u).rwLock.numReaders := by
  unfold cacheReadBlock
  dsimp only
  split_ifs
  · exact setBlock_numReaders (by rfl) u
  · rfl

end Locks

namespace CacheSys

variable {S S' : CacheSys α} {t b : Nat}

/-- `num_readers` of block `b`'s lock. -/
def readers (S : CacheSys α) (b : Nat) : Int := (S.cache.blocks b).rwLock.numReaders

@[simp] theorem readers_setPc (S : CacheSys α) (t : Nat) (p : CachePc) (b : Nat) :
    (S.setPc t p).readers b = S.readers b := rfl

@[simp] theorem wake_cache (S : CacheSys α) (ws : List Nat) : (S.wake ws).cache = S.cache := rfl

@[simp] theorem readers_wake (S : CacheSys α) (ws : List Nat) (b : Nat) :
    (S.wake ws).readers b = S.readers b := rfl

theorem readers_released (b' : Nat) (l : RwLock) (ws : List Nat) (b : Nat) :
    (S.released b' l ws).readers b = if b = b' then l.numReaders else S.readers b := by
  simp only [released, readers, wake_cache, Cache.setBlock_apply]
  split_ifs <;> rfl

theorem getSection_readers {s : Nat} {e : Bool} (h : S.getSection t s e = some S') (b : Nat) :
    S'.readers b = S.readers b ∧ (S'.pc t).holds b = false := by
  unfold getSection at h
  dsimp only at h
  split at h
  · cases h
    simp [readers, CachePc.holds]
  · split at h
    · cases h
      simp [readers, setBlock_numReaders, CachePc.holds]
    · obtain ⟨v, -, rfl⟩ := Option.map_eq_some_iff.mp h
      simp [readers, setBlock_numReaders, CachePc.holds]

theorem lockResult_readers {s : Nat} {e : Bool} {b' : Nat} (r : RwLock × Bool) (b : Nat) :
    (S.lockResult t s e b' r).readers b = (if b = b' then r.1.numReaders else S.readers b) ∧
      ((S.lockResult t s e b' r).pc t).holds b = (r.2 && b' == b) := by
  obtain ⟨l, ok⟩ := r
  by_cases hb : b = b'
  · subst hb
    cases ok
    · simp [lockResult, readers, CachePc.holds]
    · simp only [lockResult]
      split_ifs <;> simp [readers, CachePc.holds]
  · have hb' := beq_false_of_ne (Ne.symm hb)
    cases ok
    · simp [lockResult, readers, hb, CachePc.holds]
    · simp only [lockResult]
      split_ifs <;> simp [readers, hb, hb', CachePc.holds]

/-- A step that leaves the count alone and takes no hold of `b`. -/
theorem readers_step_of_eq (h₁ : S'.readers b = S.readers b) (h₂ : (S'.pc t).holds b = false) :
    S.readers b + (if (S'.pc t).holds b then 1 else 0) ≤
      S'.readers b + (if (S.pc t).holds b then 1 else 0) := by
  rw [h₁, h₂, if_neg Bool.false_ne_true]
  split_ifs <;> omega

/-- A lock taken or waited for: the count rises by one exactly where the thread
gets a hold of `b`. -/
theorem readers_lockResult {s : Nat} {e : Bool} {b' : Nat} {r : RwLock × Bool}
    (hp : (S.pc t).holds b = false)
    (hacq : b = b' → r.1.numReaders = S.readers b + if r.2 then 1 else 0) :
    S.readers b + (if ((S.lockResult t s e b' r).pc t).holds b then 1 else 0) ≤
      (S.lockResult t s e b' r).readers b + (if (S.pc t).holds b then 1 else 0) := by
  obtain ⟨h₁, h₂⟩ := lockResult_readers (S := S) (t := t) (s := s) (e := e) r b
  rw [h₁, h₂, hp]
  by_cases hb : b = b'
  · subst hb
    rw [if_pos rfl, hacq rfl]
    simp
  · have hb' := beq_false_of_ne (Ne.symm hb)
    simp [hb, hb']

/-- A step of the thread holding a block that leaves every place as it was. -/
theorem readers_step_of_frame (hpc : S'.pc = S.pc) (h₁ : S'.readers b = S.readers b) :
    S.readers b + (if (S'.pc t).holds b then 1 else 0) ≤
      S'.readers b + (if (S.pc t).holds b then 1 else 0) := by
  rw [hpc, h₁]

/-- One step of a call raises block `b`'s `num_readers` only where the thread takes
a hold of `b`, and lowers it by one at most where the thread gives its hold back. -/
theorem next_readers (hr : 0 < S.readers b) (h : S.next t = some S') :
    S.readers b + (if (S'.pc t).holds b then 1 else 0) ≤
      S'.readers b + (if (S.pc t).holds b then 1 else 0) := by
  unfold next at h
  dsimp only at h
  cases hp : S.pc t with
  | getLock s e =>
    rw [hp] at h
    obtain ⟨h₁, h₂⟩ := getSection_readers h b
    exact hp ▸ readers_step_of_eq h₁ h₂
  | evictWrite s e v =>
    rw [hp] at h
    cases h
    exact hp ▸ readers_step_of_eq rfl (by simp [CachePc.holds])
  | evictRetag s e v =>
    rw [hp] at h
    cases h
    exact hp ▸ readers_step_of_eq (by simp [readers, setBlock_numReaders])
      (by simp [CachePc.holds])
  | evictRelease s e v =>
    rw [hp] at h
    obtain ⟨⟨l, ws, rs⟩, hl, rfl⟩ := Option.map_eq_some_iff.mp h
    refine hp ▸ readers_step_of_eq ?_ (by simp [CachePc.holds])
    rw [readers_setPc, readers_released]
    split_ifs with hb
    · rw [writeLockRelease_numReaders hl, hb]
      rfl
    · rfl
  | evictRelock s e v =>
    rw [hp] at h
    cases h
    exact hp ▸ readers_step_of_eq rfl (by simp [CachePc.holds])
  | lockBlock s e b' =>
    rw [hp] at h
    obtain ⟨r, hr', rfl⟩ := Option.map_eq_some_iff.mp h
    refine hp ▸ readers_lockResult (by simp [hp, CachePc.holds]) fun hb => ?_
    subst hb
    exact blockLockAcquire_numReaders hr hr'
  | lockWoken s e b' =>
    rw [hp] at h
    obtain ⟨r, hr', rfl⟩ := Option.map_eq_some_iff.mp h
    refine hp ▸ readers_lockResult (by simp [hp, CachePc.holds]) fun hb => ?_
    subst hb
    exact blockLockResume_numReaders hr hr'
  | retryRelease s e b' =>
    -- the hold taken on a block found retagged is given back
    rw [hp] at h
    obtain ⟨⟨l, ws⟩, hl, rfl⟩ := Option.map_eq_some_iff.mp h
    have hdown := blockLockRelease_numReaders hl
    simp only [readers_setPc, readers_released, setPc_pc, Function.update_self, CachePc.holds]
    by_cases hb : b = b'
    · subst hb
      simp only [↓reduceIte, beq_self_eq_true, Bool.false_eq_true]
      unfold readers
      omega
    · have hb' := beq_false_of_ne (Ne.symm hb)
      simp [hb, hb']
  | flushAt b' =>
    rw [hp] at h
    obtain ⟨⟨C, ws⟩, hf, rfl⟩ := Option.map_eq_some_iff.mp h
    exact hp ▸ readers_step_of_eq (flushBlock_numReaders hf b) (by simp [CachePc.holds])
  | flushPrev b' =>
    simp only [hp] at h
    split at h <;> cases h <;> exact hp ▸ readers_step_of_eq rfl (by simp [CachePc.holds])
  | idle | holding _ | lockWait _ _ _ =>
    rw [hp] at h
    cases h

/-- A step on the held block's data leaves every place and every count as it was. -/
theorem onHeld_readers {f : Cache α → Nat → Cache α}
    (hf : ∀ C b', ((f C b').blocks b).rwLock.numReaders = (C.blocks b).rwLock.numReaders)
    (h : S.onHeld t f = some S') :
    S.readers b + (if (S'.pc t).holds b then 1 else 0) ≤
      S'.readers b + (if (S.pc t).holds b then 1 else 0) := by
  unfold onHeld at h
  split at h
  · cases h
    exact readers_step_of_frame rfl (hf _ _)
  · cases h

/-- Every step: `num_readers` of `b` less the stepping thread's hold of `b` never
goes down. -/
theorem step_readers [Zero α] {m : CacheMove α} (hr : 0 < S.readers b)
    (h : S.step (t, m) = some S') :
    S.readers b + (if (S'.pc t).holds b then 1 else 0) ≤
      S'.readers b + (if (S.pc t).holds b then 1 else 0) := by
  cases m with
  | getBlock s e =>
    simp only [step] at h
    split at h
    · cases h
      exact readers_step_of_eq rfl (by simp [CachePc.holds])
    · cases h
  | flush =>
    simp only [step] at h
    split at h
    · rename_i hi
      split at h <;> cases h
      · exact readers_step_of_eq rfl (by simp [CachePc.holds])
      · exact readers_step_of_eq rfl (by simp [hi, CachePc.holds])
    · cases h
  | putBlock =>
    simp only [step] at h
    split at h
    · rename_i b' hp
      obtain ⟨⟨C, ws⟩, hc, rfl⟩ := Option.map_eq_some_iff.mp h
      have hdown := cachePutBlock_numReaders hc b
      simp only [readers_setPc, readers_wake, setPc_pc, Function.update_self, hp, CachePc.holds,
        Bool.false_eq_true, if_false, beq_iff_eq]
      unfold readers
      by_cases hb : b = b'
      · subst hb
        simp only [if_true] at hdown ⊢
        omega
      · simp only [hb, Ne.symm hb, if_false] at hdown ⊢
        omega
    · cases h
  | next => exact next_readers hr h
  | readBlock =>
    exact onHeld_readers (fun C b' => cacheReadBlock_numReaders C b' b) h
  | zeroBlock | writeData _ | markBlockDirty =>
    simp only [step] at h
    refine onHeld_readers (fun C b' => ?_) h
    exact setBlock_numReaders (by rfl) b

/-! ## A read hold no thread has -/

/-- Block `b`'s lock counts a reader that no thread is: every finite set of threads
holding `b` is smaller than `num_readers`. -/
def Leaked (S : CacheSys α) (b : Nat) : Prop :=
  ∀ H : Finset Nat, (∀ u ∈ H, (S.pc u).holds b) → (H.card : Int) < S.readers b

/-- A positive count with no thread holding the block is leaked. -/
theorem Leaked.of_free (hfree : ∀ u, (S.pc u).holds b = false) (hr : 0 < S.readers b) :
    S.Leaked b := by
  intro H hH
  have hempty : H = ∅ := Finset.eq_empty_of_forall_notMem fun u hu => by
    simpa [hfree u] using hH u hu
  simpa [hempty] using hr

theorem Leaked.readers_pos (hl : S.Leaked b) : 0 < S.readers b := by
  simpa using hl ∅ (by simp)

theorem holds_of_moved {u : Nat} (h : Moved S S' u) : (S'.pc u).holds b = (S.pc u).holds b := by
  rcases h with h | h <;> simp [h]

/-- No step gives the leaked count back: a thread gives back only a hold it has. -/
theorem Leaked.step [Zero α] {m : CacheMove α} (hl : S.Leaked b) (h : S.step (t, m) = some S') :
    S'.Leaked b := by
  intro H' hH'
  have hstep := step_readers hl.readers_pos h
  have hold : ∀ u ∈ H'.erase t, (S.pc u).holds b := by
    intro u hu
    obtain ⟨hut, huH⟩ := Finset.mem_erase.mp hu
    rw [← holds_of_moved (step_moved h hut)]
    exact hH' u huH
  have hcard : (H'.card : Int) ≤ (H'.erase t).card + if (S'.pc t).holds b then 1 else 0 := by
    by_cases ht : t ∈ H'
    · have hpos := Finset.card_pos.mpr ⟨t, ht⟩
      rw [Finset.card_erase_of_mem ht, if_pos (hH' t ht)]
      omega
    · rw [Finset.erase_eq_of_notMem ht]
      split_ifs <;> omega
  by_cases hb : (S.pc t).holds b
  · have hin : ∀ u ∈ insert t (H'.erase t), (S.pc u).holds b := by
      intro u hu
      rcases Finset.mem_insert.mp hu with rfl | hu
      · exact hb
      · exact hold u hu
    have hlt := hl _ hin
    rw [Finset.card_insert_of_notMem (Finset.notMem_erase t H')] at hlt
    rw [if_pos hb] at hstep
    push_cast at hlt
    split_ifs at hstep hcard <;> omega
  · have hlt := hl _ hold
    rw [if_neg hb] at hstep
    split_ifs at hstep hcard <;> omega

/-- Thread `t` is in `cache_get_block (s, true)`, waiting for block `b`'s lock or
woken to test it again. -/
def WriterWaits (S : CacheSys α) (t s b : Nat) : Prop :=
  S.pc t = .lockWait s true b ∨ S.pc t = .lockWoken s true b

/-- With a reader counted in, a woken writer tests the lock and waits again. -/
theorem next_of_writerWaits {s : Nat} (hl : S.Leaked b) (hw : S.WriterWaits t s b)
    (h : S.next t = some S') : S'.pc t = .lockWait s true b := by
  rcases hw with hp | hp
  · simp [next, hp] at h
  · simp only [next, hp] at h
    obtain ⟨r, hr, rfl⟩ := Option.map_eq_some_iff.mp h
    have hr' :
        0 < ({ (S.cache.blocks b).rwLock with pendingWriter := false } : RwLock).numReaders :=
      hl.readers_pos
    simp only [blockLockResume, if_pos, writeLockResume, writeLockCheck_of_reader hr',
      Option.some.injEq] at hr
    subst hr
    simp [lockResult]

theorem WriterWaits.step [Zero α] {u s : Nat} {m : CacheMove α} (hl : S.Leaked b)
    (hw : S.WriterWaits t s b) (h : S.step (u, m) = some S') : S'.WriterWaits t s b := by
  by_cases hu : t = u
  · subst hu
    -- a waiting thread makes no call: only its own `next` moves it
    have hidle : S.pc t ≠ .idle := by rcases hw with hp | hp <;> simp [hp]
    cases m with
    | next => exact .inl (next_of_writerWaits hl hw h)
    | getBlock s e => simp [CacheSys.step, hidle] at h
    | flush => simp [CacheSys.step, hidle] at h
    | putBlock => rcases hw with hp | hp <;> simp [CacheSys.step, hp] at h
    | _ => rcases hw with hp | hp <;> simp [CacheSys.step, onHeld, hp] at h
  · rcases hw with hp | hp <;> rcases step_moved h hu with h' | h' <;>
      simp [WriterWaits, h', hp, CachePc.wake]

/-- A writer on a block whose lock counts a reader no thread is waits in every
run: its `cache_get_block` never returns. -/
theorem writerWaits_forever [Zero α] {s : Nat} (hl : S.Leaked b) (hw : S.WriterWaits t s b)
    (hr : Lts.Reachable step S S') : S'.WriterWaits t s b := by
  have hinv : S'.Leaked b ∧ S'.WriterWaits t s b := by
    refine Lts.Reachable.rec_inv (P := fun S => S.Leaked b ∧ S.WriterWaits t s b) ⟨hl, hw⟩ ?_ hr
    rintro S₁ ⟨u, m⟩ S₂ ⟨hl₁, hw₁⟩ h
    exact ⟨hl₁.step h, hw₁.step hl₁ h⟩
  exact hinv.2

end CacheSys

/-- After `loadAll` and `retagBackout`, thread 2 calls `cache_get_block (65, true)`.
The block tagged 65 counts a reader that no thread is, so the call waits for its
lock, and it still waits in every run from there. -/
theorem get_block_waits_forever :
    ∃ S, Lts.Reachable CacheSys.step (CacheSys.init (fun _ => (0 : Nat)) fun _ => 0) S ∧
      S.pc 2 = .lockWait 65 true 63 ∧
      ∀ S', Lts.Reachable CacheSys.step S S' →
        S'.pc 2 = .lockWait 65 true 63 ∨ S'.pc 2 = .lockWoken 65 true 63 := by
  obtain ⟨S, hS, hreaders, hk, h0, hidle⟩ := retagBackout_run
  have hl : S.Leaked 63 := by
    refine CacheSys.Leaked.of_free (fun u => ?_) (by simp [CacheSys.readers, hreaders])
    by_cases hu : u = 0
    · simp [hu, h0, CachePc.holds]
    · simp [hidle u hu, CachePc.holds]
  obtain ⟨S₁, h₁, hp₁, hc₁⟩ : ∃ S₁, S.step (2, .getBlock 65 true) = some S₁ ∧
      S₁.pc 2 = .getLock 65 true ∧ S₁.cache = S.cache :=
    ⟨_, CacheSys.step_getBlock (hidle 2 (by decide)), by simp, rfl⟩
  obtain ⟨S₂, h₂, hp₂, hc₂⟩ : ∃ S₂, S₁.step (2, .next) = some S₂ ∧
      S₂.pc 2 = .lockBlock 65 true 63 ∧ S₂.cache.blocks = S.cache.blocks :=
    ⟨_, CacheSys.step_getLock_hit hp₁ (hc₁ ▸ hk), by simp, by simp [hc₁]⟩
  obtain ⟨S₃, h₃, hp₃⟩ : ∃ S₃, S₂.step (2, .next) = some S₃ ∧ S₃.pc 2 = .lockWait 65 true 63 :=
    ⟨_, CacheSys.step_lockBlock_wait hp₂ (by rw [hc₂, hreaders]; decide), by simp⟩
  have hreach : Lts.Reachable CacheSys.step (CacheSys.init (fun _ => (0 : Nat)) fun _ => 0) S₃ :=
    .step _ (.step _ (.step _ (Lts.reachable_of_run hS) h₁) h₂) h₃
  have hl₃ : S₃.Leaked 63 := ((hl.step h₁).step h₂).step h₃
  exact ⟨S₃, hreach, hp₃, fun S' hS' => CacheSys.writerWaits_forever hl₃ (.inl hp₃) hS'⟩

end Pintos.Filesys

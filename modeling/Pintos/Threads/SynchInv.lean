import Pintos.Threads.Synch

/-!
# Semaphores neither lose nor invent units

The invariant `SemaSys.Inv` says who holds each spinlock (`semaHeld`, `rqHeld`),
that a waiter is in `thread_block` (`waiting`), that the waiter `sema_up` popped
has set its status or is blocked (`popped`), and who is on a ready list. The
handshake rests on `rqHeld`: a thread between `lock_own_ready_queue` and its
switch holds its CPU's ready-queue lock, which `thread_unblock` needs, so the
woken thread is blocked when `thread_unblock` checks it. Each section of the code
keeps the invariant (one lemma per section), and so does every move.
-/

namespace Pintos.Threads

namespace SemaPc

/-- The thread holds the semaphore's spinlock. -/
def holdsSema : SemaPc → Bool
  | .blockRq | .blockRelease | .unblock _ => true
  | _ => false

/-- The thread holds its CPU's ready-queue lock. -/
def holdsRq : SemaPc → Bool
  | .blockRelease | .blockSet => true
  | _ => false

/-- The thread is in `thread_block`, or blocked in it. -/
def inBlock : SemaPc → Bool
  | .blockRq | .blockRelease | .blockSet | .blocked => true
  | _ => false

/-- Outside `thread_block` and `thread_unblock`, with no spinlock held. -/
def quiet : SemaPc → Bool
  | .idle | .downLock | .upLock | .setHolder => true
  | _ => false

theorem quiet_spec {p : SemaPc} (h : p.quiet) :
    p.holdsSema = false ∧ p.holdsRq = false ∧ p.inBlock = false := by
  cases p <;> simp_all [quiet, holdsSema, holdsRq, inBlock]

/-- A thread in `thread_block` without the semaphore's lock has set its status or
is blocked. -/
theorem inBlock_not_holdsSema {p : SemaPc} (h : p.inBlock) (hs : p.holdsSema = false) :
    p = .blockSet ∨ p = .blocked := by
  cases p <;> simp_all [inBlock, holdsSema]

end SemaPc

namespace SemaSys

open Function (update)

/-- What every move keeps: who holds each spinlock, where the waiters and the
popped waiter are, and who is on a ready list. -/
structure Inv (S : SemaSys) : Prop where
  semaHeld : ∀ t, S.semaLock = some t ↔ (S.pc t).holdsSema
  rqHeld : ∀ c t, S.rqLock c = some t ↔ S.cpu t = c ∧ (S.pc t).holdsRq
  waiting : ∀ t ∈ S.waiters, (S.pc t).inBlock ∧ (S.pc t = .blocked → S.status t = .blocked)
  waitersNodup : S.waiters.Nodup
  popped : ∀ u w, S.pc u = .unblock w →
    w ∉ S.waiters ∧ (S.pc w = .blockSet ∨ S.pc w = .blocked ∧ S.status w = .blocked)
  readyPc : ∀ t, S.status t = .ready → S.pc t = .idle ∨ S.pc t = .blocked
  readyMem : ∀ c t, t ∈ S.readyList c → S.status t = .ready ∧ S.cpu t = c
  readyNodup : ∀ c, (S.readyList c).Nodup

theorem init_inv (value : Nat) (cpu : Nat → Nat) : (init value cpu).Inv where
  semaHeld t := by simp [init, SemaPc.holdsSema]
  rqHeld c t := by simp [init, SemaPc.holdsRq]
  waiting t ht := by simp [init] at ht
  waitersNodup := List.nodup_nil
  popped u w hu := by simp [init] at hu
  readyPc t ht := by simp [init] at ht
  readyMem c t ht := by simp [init] at ht
  readyNodup c := List.nodup_nil

namespace Inv

variable {S S' : SemaSys} {t u w : Nat}

theorem not_waiting (h : S.Inv) (ht : (S.pc t).inBlock = false) : t ∉ S.waiters :=
  fun hw => by simpa [ht] using (h.waiting t hw).1

theorem not_popped (h : S.Inv) (ht : S.pc t ≠ .blockSet ∧ S.pc t ≠ .blocked) (u : Nat) :
    S.pc u ≠ .unblock t := fun hu => by
  rcases (h.popped u t hu).2 with hb | ⟨hb, -⟩
  · exact ht.1 hb
  · exact ht.2 hb

theorem not_ready (h : S.Inv) (ht : S.status t ≠ .ready) (c : Nat) : t ∉ S.readyList c :=
  fun hr => ht (h.readyMem c t hr).1

/-- A thread holding no spinlock is not the semaphore's or a CPU's lock holder. -/
theorem sema_ne (h : S.Inv) (ht : (S.pc t).holdsSema = false) : S.semaLock ≠ some t := by
  rw [Ne, h.semaHeld t, ht]
  exact Bool.false_ne_true

theorem rq_ne (h : S.Inv) (ht : (S.pc t).holdsRq = false) (c : Nat) : S.rqLock c ≠ some t := by
  rw [Ne, h.rqHeld c t, ht]
  simp

/-- The thread holding the semaphore's lock is the only one that says so. -/
theorem holdsSema_eq (h : S.Inv) (hl : S.semaLock = some t) (hu : (S.pc u).holdsSema) :
    u = t := by
  rw [← h.semaHeld u, hl, Option.some.injEq] at hu
  exact hu.symm

theorem not_holdsSema (h : S.Inv) (hl : S.semaLock = none) (u : Nat) :
    (S.pc u).holdsSema = false := by
  rw [← Bool.not_eq_true, ← h.semaHeld u, hl]
  simp

/-- A move of a running thread from one quiet place to another that changes
nothing else the invariant reads. -/
theorem quiet (h : S.Inv) (ht : (S.pc t).quiet) (hrun : S.status t = .running) {p : SemaPc}
    (hp : p.quiet) (hl : S'.semaLock = S.semaLock) (hc : S'.cpu = S.cpu)
    (hr : S'.rqLock = S.rqLock) (hrl : S'.readyList = S.readyList)
    (hs : S'.status = S.status) (hw : S'.waiters = S.waiters)
    (hpc : S'.pc = update S.pc t p) : S'.Inv := by
  obtain ⟨hts, htr, htb⟩ := SemaPc.quiet_spec ht
  obtain ⟨hps, hpr, -⟩ := SemaPc.quiet_spec hp
  have hnw := h.not_waiting htb
  have hnp := h.not_popped (t := t)
    ⟨fun he => by simp [he, SemaPc.quiet] at ht, fun he => by simp [he, SemaPc.quiet] at ht⟩
  refine ⟨fun u => ?_, fun c u => ?_, fun u hu => ?_, ?_, fun u w hu => ?_, fun u hu => ?_,
    fun c u hu => ?_, fun c => ?_⟩ <;> rw [hl, hc, hr, hrl, hs, hw, hpc] at * <;> clear hpc
  · rcases eq_or_ne u t with rfl | hut
    · simp [hps, h.sema_ne hts]
    · simp [hut, h.semaHeld u]
  · rcases eq_or_ne u t with rfl | hut
    · simp [hpr, h.rq_ne htr c]
    · simp [hut, h.rqHeld c u]
  · have hut : u ≠ t := fun he => hnw (he ▸ hu)
    simpa [hut] using h.waiting u hu
  · exact h.waitersNodup
  · rcases eq_or_ne u t with rfl | hut
    · simp only [Function.update_self] at hu
      simp [hu, SemaPc.quiet] at hp
    · rw [Function.update_of_ne hut] at hu
      have hwt : w ≠ t := fun he => hnp u (he ▸ hu)
      simpa [hwt] using h.popped u w hu
  · rcases eq_or_ne u t with rfl | hut
    · rw [hrun] at hu
      cases hu
    · simpa [hut] using h.readyPc u hu
  · exact h.readyMem c u hu
  · exact h.readyNodup c

/-- `sema_down` finds no unit: it joins the waiters, keeping the semaphore's
lock. -/
theorem downBlock (h : S.Inv) (hpc : S.pc t = .downLock) (hrun : S.status t = .running)
    (hl : S.semaLock = none) :
    ({ S with
        waiters := S.waiters ++ [t]
        semaLock := some t
        pc := update S.pc t .blockRq } : SemaSys).Inv := by
  have hnw := h.not_waiting (t := t) (by simp [hpc, SemaPc.inBlock])
  refine ⟨fun u => ?_, fun c u => ?_, fun u hu => ?_, ?_, fun u w hu => ?_, fun u hu => ?_,
    h.readyMem, h.readyNodup⟩ <;> dsimp only at *
  · rcases eq_or_ne u t with rfl | hut
    · simp [SemaPc.holdsSema]
    · simp [hut, Ne.symm hut, h.not_holdsSema hl u]
  · rcases eq_or_ne u t with rfl | hut
    · simp [SemaPc.holdsRq, h.rq_ne (t := u) (by simp [hpc, SemaPc.holdsRq]) c]
    · simp [hut, h.rqHeld c u]
  · rcases eq_or_ne u t with rfl | hut
    · simp [SemaPc.inBlock]
    · have hu' : u ∈ S.waiters := by simpa [hut] using hu
      simpa [hut] using h.waiting u hu'
  · refine List.nodup_append.mpr ⟨h.waitersNodup, by simp, ?_⟩
    intro a ha b hb
    rw [List.mem_singleton] at hb
    rintro rfl
    exact hnw (hb ▸ ha)
  · have hut : u ≠ t := by
      rintro rfl
      simp at hu
    rw [Function.update_of_ne hut] at hu
    have hwt : w ≠ t := fun he => h.not_popped (t := t) (by simp [hpc]) u (he ▸ hu)
    simpa [hwt] using h.popped u w hu
  · rcases eq_or_ne u t with rfl | hut
    · rw [hrun] at hu
      cases hu
    · simpa [hut] using h.readyPc u hu

/-- `lock_own_ready_queue` in `thread_block`. -/
theorem blockRq (h : S.Inv) (hpc : S.pc t = .blockRq) (hrun : S.status t = .running)
    (hrq : S.rqLock (S.cpu t) = none) :
    ({ S with
        rqLock := update S.rqLock (S.cpu t) (some t)
        pc := update S.pc t .blockRelease } : SemaSys).Inv := by
  refine ⟨fun u => ?_, fun c u => ?_, fun u hu => ?_, h.waitersNodup, fun u w hu => ?_,
    fun u hu => ?_, h.readyMem, h.readyNodup⟩ <;> dsimp only at *
  · rcases eq_or_ne u t with rfl | hut
    · simpa [hpc, SemaPc.holdsSema] using h.semaHeld u
    · simp [hut, h.semaHeld u]
  · rcases eq_or_ne c (S.cpu t) with rfl | hc
    · rcases eq_or_ne u t with rfl | hut
      · simp [SemaPc.holdsRq]
      · have hn : ¬ (S.cpu u = S.cpu t ∧ (S.pc u).holdsRq) := by
          rw [← h.rqHeld, hrq]
          simp
        simp [hut, Ne.symm hut, hn]
    · rcases eq_or_ne u t with rfl | hut
      · simp [hc, h.rqHeld c u, Ne.symm hc]
      · simp [hc, hut, h.rqHeld c u]
  · rcases eq_or_ne u t with rfl | hut
    · simp [SemaPc.inBlock]
    · simpa [hut] using h.waiting u hu
  · have hut : u ≠ t := by
      rintro rfl
      simp at hu
    rw [Function.update_of_ne hut] at hu
    have hwt : w ≠ t := fun he => h.not_popped (t := t) (by simp [hpc]) u (he ▸ hu)
    simpa [hwt] using h.popped u w hu
  · rcases eq_or_ne u t with rfl | hut
    · rw [hrun] at hu
      cases hu
    · simpa [hut] using h.readyPc u hu

/-- `spinlock_release (lk)` in `thread_block`. -/
theorem blockRelease (h : S.Inv) (hpc : S.pc t = .blockRelease) (hrun : S.status t = .running) :
    ({ S with semaLock := none, pc := update S.pc t .blockSet } : SemaSys).Inv := by
  have hl : S.semaLock = some t := (h.semaHeld t).mpr (by simp [hpc, SemaPc.holdsSema])
  refine ⟨fun u => ?_, fun c u => ?_, fun u hu => ?_, h.waitersNodup, fun u w hu => ?_,
    fun u hu => ?_, h.readyMem, h.readyNodup⟩ <;> dsimp only at *
  · rcases eq_or_ne u t with rfl | hut
    · simp [SemaPc.holdsSema]
    · have hn : (S.pc u).holdsSema = false := by
        rw [← Bool.not_eq_true, ← h.semaHeld u, hl]
        simp [Ne.symm hut]
      simp [hut, hn]
  · rcases eq_or_ne u t with rfl | hut
    · simpa [hpc, SemaPc.holdsRq] using h.rqHeld c u
    · simp [hut, h.rqHeld c u]
  · rcases eq_or_ne u t with rfl | hut
    · simp [SemaPc.inBlock]
    · simpa [hut] using h.waiting u hu
  · have hut : u ≠ t := by
      rintro rfl
      simp at hu
    rw [Function.update_of_ne hut] at hu
    have hwt : w ≠ t := fun he => h.not_popped (t := t) (by simp [hpc]) u (he ▸ hu)
    simpa [hwt] using h.popped u w hu
  · rcases eq_or_ne u t with rfl | hut
    · rw [hrun] at hu
      cases hu
    · simpa [hut] using h.readyPc u hu

/-- `thread_block` sets the status to `THREAD_BLOCKED` and switches away; the
ready-queue lock is released after the switch. -/
theorem blockSet (h : S.Inv) (hpc : S.pc t = .blockSet) (hrun : S.status t = .running) :
    ({ S with
        status := update S.status t .blocked
        rqLock := update S.rqLock (S.cpu t) none
        pc := update S.pc t .blocked } : SemaSys).Inv := by
  have hrq : S.rqLock (S.cpu t) = some t := (h.rqHeld _ t).mpr ⟨rfl, by simp [hpc, SemaPc.holdsRq]⟩
  have hnr := h.not_ready (t := t) (by simp [hrun])
  refine ⟨fun u => ?_, fun c u => ?_, fun u hu => ?_, h.waitersNodup, fun u w hu => ?_,
    fun u hu => ?_, fun c u hu => ?_, h.readyNodup⟩ <;> dsimp only at *
  · rcases eq_or_ne u t with rfl | hut
    · simpa [hpc, SemaPc.holdsSema] using h.semaHeld u
    · simp [hut, h.semaHeld u]
  · rcases eq_or_ne c (S.cpu t) with rfl | hc
    · rcases eq_or_ne u t with rfl | hut
      · simp [SemaPc.holdsRq]
      · have hn : ¬ (S.cpu u = S.cpu t ∧ (S.pc u).holdsRq) := by
          rw [← h.rqHeld, hrq]
          simp [Ne.symm hut]
        simp [hut, hn]
    · rcases eq_or_ne u t with rfl | hut
      · simp [hc, h.rqHeld c u, Ne.symm hc]
      · simp [hc, hut, h.rqHeld c u]
  · rcases eq_or_ne u t with rfl | hut
    · simp [SemaPc.inBlock]
    · simpa [hut] using h.waiting u hu
  · have hut : u ≠ t := by
      rintro rfl
      simp at hu
    rw [Function.update_of_ne hut] at hu
    rcases eq_or_ne w t with rfl | hwt
    · simpa using (h.popped u w hu).1
    · simpa [hwt] using h.popped u w hu
  · rcases eq_or_ne u t with rfl | hut
    · simp at hu
    · rw [Function.update_of_ne hut] at hu
      simpa [hut] using h.readyPc u hu
  · have hut : u ≠ t := fun he => hnr c (he ▸ hu)
    simpa [hut] using h.readyMem c u hu

/-- `sema_up` pops the first waiter and goes on to `thread_unblock` with the
semaphore's lock held. -/
theorem upPop (h : S.Inv) (hpc : S.pc t = .upLock) (hrun : S.status t = .running)
    (hl : S.semaLock = none) {w : Nat} {ws : List Nat} (hw : S.waiters = w :: ws) :
    ({ S with waiters := ws, semaLock := some t, pc := update S.pc t (.unblock w) } :
      SemaSys).Inv := by
  have hnw := h.not_waiting (t := t) (by simp [hpc, SemaPc.inBlock])
  have hwm : w ∈ S.waiters := by simp [hw]
  have hwt : w ≠ t := fun he => hnw (he ▸ hwm)
  have hnd := hw ▸ h.waitersNodup
  refine ⟨fun u => ?_, fun c u => ?_, fun u hu => ?_, (List.nodup_cons.mp hnd).2,
    fun u w' hu => ?_, fun u hu => ?_, h.readyMem, h.readyNodup⟩ <;> dsimp only at *
  · rcases eq_or_ne u t with rfl | hut
    · simp [SemaPc.holdsSema]
    · simp [hut, Ne.symm hut, h.not_holdsSema hl u]
  · rcases eq_or_ne u t with rfl | hut
    · simp [SemaPc.holdsRq, h.rq_ne (t := u) (by simp [hpc, SemaPc.holdsRq]) c]
    · simp [hut, h.rqHeld c u]
  · have hu' : u ∈ S.waiters := by simp [hw, hu]
    have hut : u ≠ t := fun he => hnw (he ▸ hu')
    simpa [hut] using h.waiting u hu'
  · rcases eq_or_ne u t with rfl | hut
    · simp only [Function.update_self, SemaPc.unblock.injEq] at hu
      subst hu
      obtain ⟨hb, hbs⟩ := h.waiting w hwm
      refine ⟨(List.nodup_cons.mp hnd).1, ?_⟩
      rcases SemaPc.inBlock_not_holdsSema hb (h.not_holdsSema hl w) with he | he
      · simp [hwt, he]
      · simp [hwt, he, hbs he]
    · rw [Function.update_of_ne hut] at hu
      have hwt' : w' ≠ t := fun he => h.not_popped (t := t) (by simp [hpc]) u (he ▸ hu)
      obtain ⟨hnm, hst⟩ := h.popped u w' hu
      refine ⟨fun hm => hnm (by simp [hw, hm]), by simpa [hwt'] using hst⟩
  · rcases eq_or_ne u t with rfl | hut
    · rw [hrun] at hu
      cases hu
    · simpa [hut] using h.readyPc u hu

/-- `thread_unblock` of the popped waiter, then `value++` and the release of the
semaphore's lock. -/
theorem unblock (h : S.Inv) (hpc : S.pc t = .unblock w) (hrun : S.status t = .running)
    (hrq : S.rqLock (S.cpu w) = none) (hb : S.status w = .blocked) :
    ({ S with
        status := update S.status w .ready
        readyList := update S.readyList (S.cpu w) (S.readyList (S.cpu w) ++ [w])
        value := (S.value + 1) % 2 ^ 32
        ups := S.ups + 1
        semaLock := none
        pc := update S.pc t .idle } : SemaSys).Inv := by
  have hl : S.semaLock = some t := (h.semaHeld t).mpr (by simp [hpc, SemaPc.holdsSema])
  obtain ⟨hnw, hst⟩ := h.popped t w hpc
  have hpw : S.pc w = .blocked := by
    rcases hst with he | ⟨he, -⟩
    · have := (h.rqHeld _ w).mpr ⟨rfl, by simp [he, SemaPc.holdsRq]⟩
      rw [hrq] at this
      cases this
    · exact he
  have hwt : w ≠ t := fun he => by
    rw [he, hpc] at hpw
    cases hpw
  have hnr := h.not_ready (t := w) (by simp [hb])
  refine ⟨fun u => ?_, fun c u => ?_, fun u hu => ?_, h.waitersNodup, fun u w' hu => ?_,
    fun u hu => ?_, fun c u hu => ?_, fun c => ?_⟩ <;> dsimp only at *
  · rcases eq_or_ne u t with rfl | hut
    · simp [SemaPc.holdsSema]
    · have hn : (S.pc u).holdsSema = false := by
        rw [← Bool.not_eq_true, ← h.semaHeld u, hl]
        simp [Ne.symm hut]
      simp [hut, hn]
  · rcases eq_or_ne u t with rfl | hut
    · simpa [hpc, SemaPc.holdsRq] using h.rqHeld c u
    · simp [hut, h.rqHeld c u]
  · have hut : u ≠ t := fun he =>
      h.not_waiting (t := t) (by simp [hpc, SemaPc.inBlock]) (he ▸ hu)
    have huw : u ≠ w := fun he => hnw (he ▸ hu)
    simpa [hut, huw] using h.waiting u hu
  · rcases eq_or_ne u t with rfl | hut
    · simp at hu
    · rw [Function.update_of_ne hut] at hu
      exact absurd (h.holdsSema_eq hl (by simp [hu, SemaPc.holdsSema])) hut
  · rcases eq_or_ne u w with rfl | huw
    · simp [hwt, hpw]
    · rw [Function.update_of_ne huw] at hu
      have hut : u ≠ t := fun he => by
        rw [he, hrun] at hu
        cases hu
      simpa [hut] using h.readyPc u hu
  · rcases eq_or_ne c (S.cpu w) with rfl | hc
    · simp only [Function.update_self, List.mem_append, List.mem_singleton] at hu
      rcases hu with hu | rfl
      · have huw : u ≠ w := fun he => hnr _ (he ▸ hu)
        simpa [huw] using h.readyMem _ u hu
      · simp
    · rw [Function.update_of_ne hc] at hu
      have huw : u ≠ w := fun he => hnr _ (he ▸ hu)
      simpa [huw] using h.readyMem c u hu
  · rcases eq_or_ne c (S.cpu w) with rfl | hc
    · simp only [Function.update_self]
      refine List.nodup_append.mpr ⟨h.readyNodup _, by simp, ?_⟩
      intro a ha b hb
      rw [List.mem_singleton] at hb
      rintro rfl
      exact hnr _ (hb ▸ ha)
    · simpa [hc] using h.readyNodup c

/-- The CPU switches to a ready thread. -/
theorem dispatch (h : S.Inv) (hst : S.status t = .ready) : (S.dispatch t).Inv := by
  have hpc := h.readyPc t hst
  have hts : (S.pc t).holdsSema = false := by
    rcases hpc with he | he <;> simp [he, SemaPc.holdsSema]
  have htr : (S.pc t).holdsRq = false := by
    rcases hpc with he | he <;> simp [he, SemaPc.holdsRq]
  have hnw : t ∉ S.waiters := fun hw => by
    obtain ⟨hb, hbs⟩ := h.waiting t hw
    rcases hpc with he | he
    · simp [he, SemaPc.inBlock] at hb
    · rw [hbs he] at hst
      cases hst
  have hnp : ∀ u, S.pc u ≠ .unblock t := fun u hu => by
    rcases (h.popped u t hu).2 with he | ⟨-, he⟩
    · rcases hpc with he' | he' <;> rw [he'] at he <;> cases he
    · rw [he] at hst
      cases hst
  have hq : (if S.pc t = .blocked then SemaPc.downLock else S.pc t).quiet := by
    rcases hpc with he | he <;> simp [he, SemaPc.quiet]
  obtain ⟨hps, hpr, -⟩ := SemaPc.quiet_spec hq
  refine ⟨fun u => ?_, fun c u => ?_, fun u hu => ?_, h.waitersNodup, fun u w hu => ?_,
    fun u hu => ?_, fun c u hu => ?_, fun c => ?_⟩ <;> dsimp only [SemaSys.dispatch] at *
  · rcases eq_or_ne u t with rfl | hut
    · rw [Function.update_self, hps]
      simpa using h.sema_ne hts
    · simp [hut, h.semaHeld u]
  · rcases eq_or_ne u t with rfl | hut
    · rw [Function.update_self, hpr]
      simpa using h.rq_ne htr c
    · simp [hut, h.rqHeld c u]
  · have hut : u ≠ t := fun he => hnw (he ▸ hu)
    simpa [hut] using h.waiting u hu
  · rcases eq_or_ne u t with rfl | hut
    · rw [Function.update_self] at hu
      rw [hu] at hq
      simp [SemaPc.quiet] at hq
    · rw [Function.update_of_ne hut] at hu
      have hwt : w ≠ t := fun he => hnp u (he ▸ hu)
      simpa [hwt] using h.popped u w hu
  · rcases eq_or_ne u t with rfl | hut
    · simp at hu
    · rw [Function.update_of_ne hut] at hu
      simpa [hut] using h.readyPc u hu
  · rcases eq_or_ne c (S.cpu t) with rfl | hc
    · rw [Function.update_self, (h.readyNodup _).mem_erase_iff] at hu
      simpa [hu.1] using h.readyMem _ u hu.2
    · rw [Function.update_of_ne hc] at hu
      have hut : u ≠ t := fun he => hc (he ▸ (h.readyMem c u hu).2).symm
      simpa [hut] using h.readyMem c u hu
  · rcases eq_or_ne c (S.cpu t) with rfl | hc
    · simpa using (h.readyNodup _).erase t
    · simpa [hc] using h.readyNodup c

/-- `thread_yield` outside the semaphore's calls. -/
theorem yield (h : S.Inv) (hrun : S.status t = .running) (hpc : S.pc t = .idle) :
    (S.yield t).Inv := by
  have hnw := h.not_waiting (t := t) (by simp [hpc, SemaPc.inBlock])
  have hnr := h.not_ready (t := t) (by simp [hrun])
  refine ⟨h.semaHeld, h.rqHeld, fun u hu => ?_, h.waitersNodup, fun u w hu => ?_,
    fun u hu => ?_, fun c u hu => ?_, fun c => ?_⟩ <;> dsimp only [SemaSys.yield] at *
  · have hut : u ≠ t := fun he => hnw (he ▸ hu)
    simpa [hut] using h.waiting u hu
  · have hwt : w ≠ t := fun he => h.not_popped (t := t) (by simp [hpc]) u (he ▸ hu)
    simpa [hwt] using h.popped u w hu
  · rcases eq_or_ne u t with rfl | hut
    · exact .inl hpc
    · rw [Function.update_of_ne hut] at hu
      exact h.readyPc u hu
  · rcases eq_or_ne c (S.cpu t) with rfl | hc
    · simp only [Function.update_self, List.mem_append, List.mem_singleton] at hu
      rcases hu with hu | rfl
      · have hut : u ≠ t := fun he => hnr _ (he ▸ hu)
        simpa [hut] using h.readyMem _ u hu
      · simp
    · rw [Function.update_of_ne hc] at hu
      have hut : u ≠ t := fun he => hnr _ (he ▸ hu)
      simpa [hut] using h.readyMem c u hu
  · rcases eq_or_ne c (S.cpu t) with rfl | hc
    · simp only [Function.update_self]
      refine List.nodup_append.mpr ⟨h.readyNodup _, by simp, ?_⟩
      intro a ha b hb
      rw [List.mem_singleton] at hb
      rintro rfl
      exact hnr _ (hb ▸ ha)
    · simpa [hc] using h.readyNodup c

theorem downTest (h : S.Inv) (hpc : S.pc t = .downLock) (hrun : S.status t = .running)
    (hl : S.semaLock = none) : (S.downTest t).Inv := by
  unfold SemaSys.downTest
  by_cases hv : S.value = 0
  · rw [if_pos hv]
    exact h.downBlock hpc hrun hl
  · rw [if_neg hv]
    exact h.quiet (by simp [hpc, SemaPc.quiet]) hrun (by split <;> rfl) rfl rfl rfl rfl rfl rfl rfl

theorem upTest (h : S.Inv) (hpc : S.pc t = .upLock) (hrun : S.status t = .running)
    (hl : S.semaLock = none) : (S.upTest t).Inv := by
  unfold SemaSys.upTest
  split
  · exact h.quiet (by simp [hpc, SemaPc.quiet]) hrun (p := .idle) rfl rfl rfl rfl rfl rfl rfl rfl
  · rename_i w ws hw
    exact h.upPop hpc hrun hl hw

theorem tryDown (h : S.Inv) (hpc : S.pc t = .idle) (hrun : S.status t = .running) {b : Bool}
    (hs : S.tryDown t b = some S') : S'.Inv := by
  unfold SemaSys.tryDown at hs
  have hq : (S.pc t).quiet := by simp [hpc, SemaPc.quiet]
  split_ifs at hs <;> cases hs
  · exact h
  · exact h.quiet hq hrun (by rfl) rfl rfl rfl rfl rfl rfl rfl
  · exact h.quiet hq hrun (by rfl) rfl rfl rfl rfl rfl rfl rfl

theorem start (h : S.Inv) (hpc : S.pc t = .idle) (hrun : S.status t = .running) {c : SemaCall}
    (hs : S.start t c = some S') : S'.Inv := by
  have hq : (S.pc t).quiet := by simp [hpc, SemaPc.quiet]
  cases c with
  | down =>
    cases hs
    exact h.quiet hq hrun (p := .downLock) rfl rfl rfl rfl rfl rfl rfl rfl
  | tryDown => exact h.tryDown hpc hrun hs
  | up =>
    cases hs
    exact h.quiet hq hrun (p := .upLock) rfl rfl rfl rfl rfl rfl rfl rfl
  | acquire =>
    simp only [SemaSys.start] at hs
    split_ifs at hs
    cases hs
    exact h.quiet hq hrun (p := .downLock) rfl rfl rfl rfl rfl rfl rfl rfl
  | tryAcquire =>
    simp only [SemaSys.start] at hs
    split_ifs at hs
    exact h.tryDown hpc hrun hs
  | release =>
    simp only [SemaSys.start] at hs
    split_ifs at hs
    cases hs
    exact h.quiet hq hrun (p := .upLock) rfl rfl rfl rfl rfl rfl rfl rfl

theorem advance (h : S.Inv) (hrun : S.status t = .running) (hs : S.advance t = some S') :
    S'.Inv := by
  cases hpc : S.pc t with
  | idle => simp [SemaSys.advance, hpc] at hs
  | downLock =>
    simp only [SemaSys.advance, hpc] at hs
    split_ifs at hs with hl
    cases hs
    exact h.downTest hpc hrun hl
  | blockRq =>
    simp only [SemaSys.advance, hpc] at hs
    split_ifs at hs with hrq
    cases hs
    exact h.blockRq hpc hrun hrq
  | blockRelease =>
    simp only [SemaSys.advance, hpc] at hs
    cases hs
    exact h.blockRelease hpc hrun
  | blockSet =>
    simp only [SemaSys.advance, hpc] at hs
    cases hs
    exact h.blockSet hpc hrun
  | blocked => simp [SemaSys.advance, hpc] at hs
  | upLock =>
    simp only [SemaSys.advance, hpc] at hs
    split_ifs at hs with hl
    cases hs
    exact h.upTest hpc hrun hl
  | unblock w =>
    simp only [SemaSys.advance, hpc, SemaSys.unblockUp] at hs
    split_ifs at hs with hrq hb
    cases hs
    exact h.unblock hpc hrun hrq hb
  | setHolder =>
    simp only [SemaSys.advance, hpc] at hs
    cases hs
    exact h.quiet (by simp [hpc, SemaPc.quiet]) hrun (p := .idle) rfl rfl rfl rfl rfl rfl rfl rfl

end Inv

theorem step_inv : Lts.Preserved SemaSys.step Inv := by
  rintro S ⟨t, a⟩ S' h hs
  cases a with
  | call c =>
    simp only [SemaSys.step] at hs
    split_ifs at hs with hc
    exact h.start hc.2 hc.1 hs
  | next =>
    simp only [SemaSys.step] at hs
    split_ifs at hs with hrun
    exact h.advance hrun hs
  | dispatch =>
    simp only [SemaSys.step] at hs
    split_ifs at hs with hc
    cases hs
    exact h.dispatch hc.1
  | yield =>
    simp only [SemaSys.step] at hs
    split_ifs at hs with hc
    cases hs
    exact h.yield hc.1 hc.2.1

/-- A move of a thread that uses the lock is a move of the system. -/
theorem step_of_lockStep {S S' : SemaSys} {m : Nat × SemaAct} (hs : S.lockStep m = some S') :
    S.step m = some S' := by
  obtain ⟨t, a⟩ := m
  cases a with
  | call c =>
    simp only [SemaSys.lockStep] at hs
    split_ifs at hs
    exact hs
  | next | dispatch | yield => exact hs

end SemaSys

end Pintos.Threads

import Pintos.Threads.SynchInv

/-!
# What semaphores and locks guarantee

The successful downs never exceed the initial value plus the completed ups, and
the value is the difference modulo `2 ^ 32` (`Units.step`): `value++` on an
`unsigned` wraps, so the value is the difference itself only while that stays
below `2 ^ 32` (`sema_value_wraps`). With the invariant of `SynchInv`: the waiter `sema_up` pops is blocked by
the time `thread_unblock` can take its CPU's ready-queue lock, and no waiter is on
a ready list. For a lock, whose semaphore starts at 1 and is used only by
`lock_acquire`, `lock_try_acquire` and `lock_release`, at most one thread owes
the unit back (`LockInv`), so at most one thread holds the lock.
-/

namespace Pintos.Threads

namespace SemaSys

open Function (update)

variable {S S' : SemaSys} {t : Nat}

/-- What the counts say of the value of a semaphore created with `v`: the
successful downs are at most `v` plus the completed ups, and the value is the
difference modulo `2 ^ 32`, since `value++` wraps. -/
def Units (v : Nat) (S : SemaSys) : Prop :=
  S.downs ≤ v + S.ups ∧ S.value = (v + S.ups - S.downs) % 2 ^ 32

variable {v : Nat}

theorem units_init (hv : v < 2 ^ 32) (cpu : Nat → Nat) : (init v cpu).Units v := by
  unfold Units init
  dsimp only
  omega

/-- A completed up: one more up, and `value++` wraps at `2 ^ 32`. -/
theorem Units.up (h : S.Units v) (hval : S'.value = (S.value + 1) % 2 ^ 32)
    (hups : S'.ups = S.ups + 1) (hdowns : S'.downs = S.downs) : S'.Units v := by
  unfold Units at h ⊢
  omega

/-- A successful down: one more down, taken from a value that is not 0. -/
theorem Units.down (h : S.Units v) (hv : S.value ≠ 0) (hval : S'.value = S.value - 1)
    (hups : S'.ups = S.ups) (hdowns : S'.downs = S.downs + 1) : S'.Units v := by
  unfold Units at h ⊢
  -- a unit is taken only where `v + ups - downs` is not a multiple of `2 ^ 32`
  omega

theorem Units.downTest (h : S.Units v) (t : Nat) : (S.downTest t).Units v := by
  unfold SemaSys.downTest
  by_cases hv : S.value = 0
  · rw [if_pos hv]
    exact h
  · rw [if_neg hv]
    exact h.down hv rfl rfl rfl

theorem Units.upTest (h : S.Units v) (t : Nat) : (S.upTest t).Units v := by
  unfold SemaSys.upTest
  split
  · exact h.up rfl rfl rfl
  · exact h

theorem Units.tryDown (h : S.Units v) {b : Bool} (hs : S.tryDown t b = some S') : S'.Units v := by
  unfold SemaSys.tryDown at hs
  split_ifs at hs with hl hv <;> cases hs
  · exact h
  all_goals exact h.down hv rfl rfl rfl

theorem Units.unblockUp (h : S.Units v) {w : Nat} (hs : S.unblockUp t w = some S') :
    S'.Units v := by
  unfold SemaSys.unblockUp at hs
  split_ifs at hs
  cases hs
  exact h.up rfl rfl rfl

theorem Units.start (h : S.Units v) {c : SemaCall} (hs : S.start t c = some S') : S'.Units v := by
  cases c with
  | tryDown => exact h.tryDown hs
  | tryAcquire =>
    simp only [SemaSys.start] at hs
    split_ifs at hs
    exact h.tryDown hs
  | down | up =>
    cases hs
    exact h
  | acquire | release =>
    simp only [SemaSys.start] at hs
    split_ifs at hs
    cases hs
    exact h

theorem Units.advance (h : S.Units v) (hs : S.advance t = some S') : S'.Units v := by
  unfold SemaSys.advance at hs
  split at hs
  · cases hs
  · split_ifs at hs
    cases hs
    exact h.downTest t
  · split_ifs at hs
    cases hs
    exact h
  · cases hs
    exact h
  · cases hs
    exact h
  · cases hs
  · split_ifs at hs
    cases hs
    exact h.upTest t
  · split_ifs at hs
    exact h.unblockUp hs
  · cases hs
    exact h

/-- Every move keeps the counts and the value in step. -/
theorem Units.step (h : S.Units v) {m : Nat × SemaAct} (hs : S.step m = some S') : S'.Units v := by
  obtain ⟨t, a⟩ := m
  cases a with
  | call c =>
    simp only [SemaSys.step] at hs
    split_ifs at hs
    exact h.start hs
  | next =>
    simp only [SemaSys.step] at hs
    split_ifs at hs
    exact h.advance hs
  | dispatch | yield =>
    simp only [SemaSys.step] at hs
    split_ifs at hs
    cases hs
    exact h

/-! ## The lock -/

/-- The thread owes the lock's unit back: it holds the lock, or its release has
not yet added the unit back. -/
def Owes (S : SemaSys) (t : Nat) : Prop :=
  S.holder = some t ∨ S.pc t = .setHolder ∨ S.pc t = .upLock ∨ ∃ w, S.pc t = .unblock w

/-- Over runs of the lock's calls from `lock_init`: the one unit is in the
semaphore or owed by one thread, and the holder is outside the calls. -/
structure LockInv (S : SemaSys) : Prop where
  valueLe : S.value ≤ 1
  free : S.value = 1 → ∀ t, ¬ S.Owes t
  unique : ∀ t u, S.Owes t → S.Owes u → t = u
  holderIdle : ∀ t, S.holder = some t → S.pc t = .idle

/-- Where a thread owes the unit back, besides holding the lock. -/
def owing (p : SemaPc) : Prop := p = .setHolder ∨ p = .upLock ∨ ∃ w, p = .unblock w

theorem owes_iff (S : SemaSys) (t : Nat) : S.Owes t ↔ S.holder = some t ∨ owing (S.pc t) := by
  simp only [Owes, owing]

theorem lockInv_init (cpu : Nat → Nat) : (init 1 cpu).LockInv where
  valueLe := Nat.le_refl 1
  free _ t := by simp [owes_iff, init, owing]
  unique t u ht := by simp [owes_iff, init, owing] at ht
  holderIdle t ht := by simp [init] at ht

namespace LockInv

/-- A move that changes only where thread `t` is, between places that owe alike,
and keeps the holder outside the calls. -/
theorem move (h : S.LockInv) {p : SemaPc} (howe : owing p ↔ owing (S.pc t))
    (hh : S.holder = some t → p = .idle) (hv : S'.value = S.value)
    (hhold : S'.holder = S.holder) (hpc : S'.pc = update S.pc t p) : S'.LockInv := by
  have hsame : ∀ u, S'.Owes u ↔ S.Owes u := by
    intro u
    rw [owes_iff, owes_iff, hhold, hpc]
    rcases eq_or_ne u t with rfl | hut
    · rw [Function.update_self, howe]
    · rw [Function.update_of_ne hut]
  refine ⟨hv ▸ h.valueLe, fun h1 u => ?_, fun u u' hu hu' => ?_, fun u hu => ?_⟩
  · rw [hsame]
    exact h.free (hv ▸ h1) u
  · exact h.unique u u' ((hsame u).mp hu) ((hsame u').mp hu')
  · rw [hhold] at hu
    rw [hpc]
    rcases eq_or_ne u t with rfl | hut
    · rw [Function.update_self]
      exact hh hu
    · rw [Function.update_of_ne hut]
      exact h.holderIdle u hu

/-- A successful down takes the unit: afterwards at most the taker owes it. -/
theorem take (h : S.LockInv) (hv : S.value ≠ 0) {p : SemaPc} (hval : S'.value = S.value - 1)
    (hhold : S'.holder = S.holder) (hpc : S'.pc = update S.pc t p) : S'.LockInv := by
  have h1 : S.value = 1 := by
    have := h.valueLe
    omega
  have hnone : S.holder = none := by
    rcases hh : S.holder with _ | u
    · rfl
    · exact absurd (Or.inl hh) (h.free h1 u)
  have hown : ∀ u, S'.Owes u → u = t := by
    intro u hu
    rw [owes_iff, hhold, hnone, hpc] at hu
    rcases eq_or_ne u t with rfl | hut
    · rfl
    · rw [Function.update_of_ne hut] at hu
      simp only [reduceCtorEq, false_or] at hu
      exact absurd ((owes_iff S u).mpr (.inr hu)) (h.free h1 u)
  refine ⟨by omega, fun h0 => by omega, fun u u' hu hu' => (hown u hu).trans (hown u' hu').symm,
    fun u hu => ?_⟩
  rw [hhold, hnone] at hu
  cases hu

/-- An up that completes gives the unit back: afterwards nobody owes it. -/
theorem give (h : S.LockInv) (hown : owing (S.pc t)) (hval : S'.value = (S.value + 1) % 2 ^ 32)
    (hhold : S'.holder = S.holder) (hpc : S'.pc = update S.pc t .idle) : S'.LockInv := by
  have hot : S.Owes t := (owes_iff S t).mpr (.inr hown)
  have h0 : S.value = 0 := by
    have := h.valueLe
    by_contra hne
    exact h.free (by omega) t hot
  have hnt : S.holder ≠ some t := fun he => by
    rw [h.holderIdle t he] at hown
    simp [owing] at hown
  have hno : ∀ u, ¬ S'.Owes u := by
    intro u hu
    rw [owes_iff, hhold, hpc] at hu
    rcases eq_or_ne u t with rfl | hut
    · rw [Function.update_self] at hu
      rcases hu with hu | hu
      · exact hnt hu
      · simp [owing] at hu
    · rw [Function.update_of_ne hut] at hu
      exact hut (h.unique u t ((owes_iff S u).mpr hu) hot)
  refine ⟨by omega, fun _ => hno, fun u _ hu => absurd hu (hno u), fun u hu => ?_⟩
  rw [hhold] at hu
  have hut : u ≠ t := fun he => hnt (he ▸ hu)
  rw [hpc, Function.update_of_ne hut]
  exact h.holderIdle u hu

/-- `lock_release` clears the holder and goes on to `sema_up`, still owing. -/
theorem release (h : S.LockInv) (hhold : S.holder = some t) (hval : S'.value = S.value)
    (hnone : S'.holder = none) (hpc : S'.pc = update S.pc t .upLock) : S'.LockInv := by
  have hot : S.Owes t := (owes_iff S t).mpr (.inl hhold)
  have hown : ∀ u, S'.Owes u → u = t := by
    intro u hu
    rw [owes_iff, hnone, hpc] at hu
    rcases eq_or_ne u t with rfl | hut
    · rfl
    · rw [Function.update_of_ne hut] at hu
      simp only [reduceCtorEq, false_or] at hu
      exact h.unique u t ((owes_iff S u).mpr (.inr hu)) hot
  refine ⟨hval ▸ h.valueLe, fun h1 => absurd hot (h.free (hval ▸ h1) t),
    fun u u' hu hu' => (hown u hu).trans (hown u' hu').symm, fun u hu => ?_⟩
  rw [hnone] at hu
  cases hu

/-- `lock->holder = thread_current ()` after the down. -/
theorem setHolder (h : S.LockInv) (hpc : S.pc t = .setHolder) :
    ({ S with holder := some t, pc := update S.pc t .idle } : SemaSys).LockInv := by
  have hot : S.Owes t := (owes_iff S t).mpr (.inr (.inl hpc))
  have hown : ∀ u, ({ S with holder := some t, pc := update S.pc t .idle } : SemaSys).Owes u →
      u = t := by
    intro u hu
    rw [owes_iff] at hu
    dsimp only at hu
    rcases eq_or_ne u t with rfl | hut
    · rfl
    · rw [Function.update_of_ne hut] at hu
      rcases hu with hu | hu
      · exact (Option.some.inj hu).symm
      · exact h.unique u t ((owes_iff S u).mpr (.inr hu)) hot
  refine ⟨h.valueLe, fun h1 => absurd hot (h.free h1 t),
    fun u u' hu hu' => (hown u hu).trans (hown u' hu').symm, fun u hu => ?_⟩
  dsimp only at hu ⊢
  rw [← Option.some.inj hu, Function.update_self]

theorem downTest (h : S.LockInv) (hpc : S.pc t = .downLock) : (S.downTest t).LockInv := by
  unfold SemaSys.downTest
  by_cases hv : S.value = 0
  · rw [if_pos hv]
    exact h.move (p := .blockRq) (by simp [hpc, owing])
      (fun hh => absurd (h.holderIdle t hh) (by simp [hpc])) rfl rfl rfl
  · rw [if_neg hv]
    exact h.take hv rfl rfl rfl

theorem upTest (h : S.LockInv) (hpc : S.pc t = .upLock) : (S.upTest t).LockInv := by
  unfold SemaSys.upTest
  split
  · exact h.give (by simp [hpc, owing]) rfl rfl rfl
  · rename_i w ws _
    exact h.move (p := .unblock w) (by simp [hpc, owing])
      (fun hh => absurd (h.holderIdle t hh) (by simp [hpc])) rfl rfl rfl

theorem tryDown (h : S.LockInv) {b : Bool} (hs : S.tryDown t b = some S') : S'.LockInv := by
  unfold SemaSys.tryDown at hs
  split_ifs at hs with hl hv <;> cases hs
  · exact h
  · exact h.take hv rfl rfl rfl
  · exact h.take hv rfl rfl rfl

/-- A call of the lock from outside the calls. -/
theorem start (h : S.LockInv) (hpc : S.pc t = .idle) {c : SemaCall} (hc : c.isLock)
    (hs : S.start t c = some S') : S'.LockInv := by
  cases c with
  | down | tryDown | up => simp [SemaCall.isLock] at hc
  | acquire =>
    simp only [SemaSys.start] at hs
    split_ifs at hs with hh
    cases hs
    exact h.move (p := .downLock) (by simp [hpc, owing]) (fun he => absurd he hh) rfl rfl rfl
  | tryAcquire =>
    simp only [SemaSys.start] at hs
    split_ifs at hs
    exact h.tryDown hs
  | release =>
    simp only [SemaSys.start] at hs
    split_ifs at hs with hh
    cases hs
    exact h.release hh rfl rfl rfl

theorem advance (h : S.LockInv) (hs : S.advance t = some S') : S'.LockInv := by
  cases hpc : S.pc t with
  | idle => simp [SemaSys.advance, hpc] at hs
  | downLock =>
    simp only [SemaSys.advance, hpc] at hs
    split_ifs at hs
    cases hs
    exact h.downTest hpc
  | blockRq =>
    simp only [SemaSys.advance, hpc] at hs
    split_ifs at hs
    cases hs
    exact h.move (p := .blockRelease) (by simp [hpc, owing])
      (fun hh => absurd (h.holderIdle t hh) (by simp [hpc])) rfl rfl rfl
  | blockRelease =>
    simp only [SemaSys.advance, hpc] at hs
    cases hs
    exact h.move (p := .blockSet) (by simp [hpc, owing])
      (fun hh => absurd (h.holderIdle t hh) (by simp [hpc])) rfl rfl rfl
  | blockSet =>
    simp only [SemaSys.advance, hpc] at hs
    cases hs
    exact h.move (p := .blocked) (by simp [hpc, owing])
      (fun hh => absurd (h.holderIdle t hh) (by simp [hpc])) rfl rfl rfl
  | blocked => simp [SemaSys.advance, hpc] at hs
  | upLock =>
    simp only [SemaSys.advance, hpc] at hs
    split_ifs at hs
    cases hs
    exact h.upTest hpc
  | unblock w =>
    simp only [SemaSys.advance, hpc, SemaSys.unblockUp] at hs
    split_ifs at hs
    cases hs
    exact h.give (by simp [hpc, owing]) rfl rfl rfl
  | setHolder =>
    simp only [SemaSys.advance, hpc] at hs
    cases hs
    exact h.setHolder hpc

end LockInv

/-- Every move of threads that use the semaphore only through the lock keeps the
lock's invariant. -/
theorem lockStep_lockInv : Lts.Preserved SemaSys.lockStep LockInv := by
  rintro S ⟨t, a⟩ S' h hs
  cases a with
  | call c =>
    simp only [SemaSys.lockStep] at hs
    split_ifs at hs with hc
    simp only [SemaSys.step] at hs
    split_ifs at hs with hi
    exact h.start hi.2 hc hs
  | next =>
    simp only [SemaSys.lockStep, SemaSys.step] at hs
    split_ifs at hs
    exact h.advance hs
  | dispatch =>
    simp only [SemaSys.lockStep, SemaSys.step] at hs
    split_ifs at hs
    cases hs
    have hh : S.holder = some t → (if S.pc t = .blocked then SemaPc.downLock else S.pc t) =
        .idle := fun he => by simp [h.holderIdle t he]
    exact h.move (by split <;> simp_all [owing]) hh rfl rfl rfl
  | yield =>
    simp only [SemaSys.lockStep, SemaSys.step] at hs
    split_ifs at hs
    cases hs
    exact h.move (p := S.pc t) Iff.rfl (h.holderIdle t) rfl rfl
      (Function.update_eq_self t S.pc).symm

theorem owes_of_holds {S : SemaSys} {t : Nat} (h : S.Holds t) : S.Owes t := by
  rcases h with h | h
  · exact .inr (.inl h)
  · exact .inl h

namespace Inv

variable {S : SemaSys}

/-- The waiter `sema_up` popped is blocked once its CPU's ready-queue lock is free:
before, it holds that lock itself. -/
theorem popped_blocked (h : S.Inv) {u w : Nat} (hu : S.pc u = .unblock w)
    (hrq : S.rqLock (S.cpu w) = none) : S.status w = .blocked := by
  rcases (h.popped u w hu).2 with he | ⟨-, hb⟩
  · have hheld := (h.rqHeld _ w).mpr ⟨rfl, by simp [he, SemaPc.holdsRq]⟩
    rw [hrq] at hheld
    cases hheld
  · exact hb

theorem waiter_not_ready (h : S.Inv) {t : Nat} (ht : t ∈ S.waiters) (c : Nat) :
    t ∉ S.readyList c := by
  intro hr
  obtain ⟨hb, hbs⟩ := h.waiting t ht
  have hready := (h.readyMem c t hr).1
  rcases h.readyPc t hready with he | he
  · simp [he, SemaPc.inBlock] at hb
  · rw [hbs he] at hready
    cases hready

end Inv

end SemaSys

/-- For every interleaving of `sema_down`, `sema_try_down` and `sema_up` on one
semaphore created with value `v`, by threads on any CPUs: the successful downs
never exceed `v` plus the completed ups, and the value is the difference modulo
`2 ^ 32`, the difference itself while it is below `2 ^ 32`; whenever
`thread_unblock` can take the ready-queue lock of the waiter `sema_up` popped,
that waiter is `THREAD_BLOCKED`; and no waiter is on a ready list. A lock, whose
semaphore starts at 1 and is used only through the lock's calls, has at most one
holder. -/
theorem sema_conserves_units (v : Nat) (hv : v < 2 ^ 32) (cpu : Nat → Nat) {S : SemaSys}
    (hS : Lts.Reachable SemaSys.step (SemaSys.init v cpu) S) :
    S.downs ≤ v + S.ups ∧ S.value = (v + S.ups - S.downs) % 2 ^ 32 ∧
      (v + S.ups - S.downs < 2 ^ 32 → (S.value : Int) = v + S.ups - S.downs) ∧
      (∀ u w, S.pc u = .unblock w → S.rqLock (S.cpu w) = none → S.status w = .blocked) ∧
      (∀ t ∈ S.waiters, ∀ c, t ∉ S.readyList c) ∧
      ∀ L : SemaSys, Lts.Reachable SemaSys.lockStep (SemaSys.init 1 cpu) L →
        ∀ t u, L.Holds t → L.Holds u → t = u := by
  have hI : S.Inv := Lts.Reachable.rec_inv (SemaSys.init_inv v cpu) SemaSys.step_inv hS
  obtain ⟨hle, hval⟩ : S.Units v :=
    Lts.Reachable.rec_inv (SemaSys.units_init hv cpu) (fun _ _ _ hu hs => hu.step hs) hS
  refine ⟨hle, hval, fun hlt => ?_, fun u w hu hrq => hI.popped_blocked hu hrq,
    fun t ht => hI.waiter_not_ready ht, fun L hL t u ht hu => ?_⟩
  · rw [hval, Nat.mod_eq_of_lt hlt]
    omega
  · have hLI : L.LockInv :=
      Lts.Reachable.rec_inv (SemaSys.lockInv_init cpu) SemaSys.lockStep_lockInv hL
    exact hLI.unique t u (SemaSys.owes_of_holds ht) (SemaSys.owes_of_holds hu)

/-- Thread 0 blocks in `sema_down` on a semaphore at 0, and thread 1's `sema_up`
pops it while thread 0 still holds its CPU's ready-queue lock: the window the
handshake closes. -/
theorem sema_conserves_units_window :
    ∃ S, Lts.Reachable SemaSys.step (SemaSys.init 0 fun _ => 0) S ∧ S.pc 1 = .unblock 0 ∧
      S.rqLock 0 = some 0 ∧ (0 : Nat) < 2 ^ 32 ∧
      (S.downs ≤ 0 + S.ups ∧ S.value = (0 + S.ups - S.downs) % 2 ^ 32 ∧
        (0 + S.ups - S.downs < 2 ^ 32 → (S.value : Int) = 0 + S.ups - S.downs) ∧
        (∀ u w, S.pc u = .unblock w → S.rqLock (S.cpu w) = none → S.status w = .blocked) ∧
        (∀ t ∈ S.waiters, ∀ c, t ∉ S.readyList c) ∧
        ∀ L : SemaSys, Lts.Reachable SemaSys.lockStep (SemaSys.init 1 fun _ => 0) L →
          ∀ t u, L.Holds t → L.Holds u → t = u) :=
  have hr : Lts.Reachable SemaSys.step (SemaSys.init 0 fun _ => 0) _ :=
    .step (1, .next) (.step (1, .call .up) (.step (0, .next) (.step (0, .next)
      (.step (0, .next) (.step (0, .call .down) .init rfl) rfl) rfl) rfl) rfl) rfl
  ⟨_, hr, rfl, rfl, by decide, sema_conserves_units 0 (by decide) (fun _ => 0) hr⟩

/-- `sema_init (sema, UINT_MAX)` and one `sema_up`: the value wraps to 0, while
the initial value plus the completed ups minus the downs is `2 ^ 32`. -/
theorem sema_value_wraps :
    ∃ S, Lts.Reachable SemaSys.step (SemaSys.init (2 ^ 32 - 1) fun _ => 0) S ∧
      (S.value : Int) ≠ (2 ^ 32 - 1 : Nat) + S.ups - S.downs :=
  Lts.exists_reachable_of_run_decide [(0, .call .up), (0, .next)] (by decide +kernel)

end Pintos.Threads

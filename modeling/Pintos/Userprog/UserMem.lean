import Pintos.Threads.Palloc
import Pintos.Lib.Bytes

/-!
# User memory in system calls (`userprog/syscall.c`)

`get_user` reads a user byte through the page-fault handler: a fault in the
kernel resumes at the address in `eax` with `eax = -1`, so a fault reads as
`-1`. `str_copy_from_user` copies a user string into the one-page kernel buffer
`syscall_arg`, and `validate_buffer` probes a user buffer before `read`, `write`
and `readdir` use it; both end the process with `sys_exit (-1)` on a bad
address. The user address space is the byte `get_user` reads at each address,
`none` where the read faults; an ended process is `throw (-1)`.

`str_copy_from_user` stores every byte it reads, the terminator included, and
then one more `'\0'` after the terminator (`strCopyFromUser_eq`). A string of
4095 characters passes the length check, so that last store goes to
`dst + PGSIZE`, past the buffer. `validate_buffer` reads a byte of every page the
buffer overlaps (`validateBuffer_covers`) and checks nothing else.
-/

namespace Pintos.Userprog

open Pintos.Threads

/-- `is_user_vaddr (vaddr)`. -/
def isUserVaddr (vaddr : Nat) : Bool := vaddr < physBase

/-- `get_user (uaddr)`: the byte at `uaddr`, `-1` when reading it faults. -/
def getUser (um : Nat → Option UInt8) (uaddr : Nat) : Int :=
  match um uaddr with
  | some b => b.toNat
  | none => -1

/-- The `do ... while` loop of `str_copy_from_user (dst, user)` from `index`,
for at most `fuel` rounds: the buffer and `index` after the loop. -/
def strCopyLoop (um : Nat → Option UInt8) (dst user : Nat) :
    Nat → (Nat → UInt8) → Nat → Except Int ((Nat → UInt8) × Nat)
  -- not reached from `strCopyFromUser`: the length check ends the loop first
  | 0, _, _ => throw (-1)
  | fuel + 1, copy, index => do
    if index ≥ pgSize then throw (-1)
    if !isUserVaddr (user + index) then throw (-1)
    let copiedByte := getUser um (user + index)
    if copiedByte = -1 then throw (-1)
    let copy := Bytes.update copy (dst + index) (UInt8.ofNat copiedByte.toNat)
    -- `*(user + index ++) != '\0'` reads again the byte just copied
    if copiedByte ≠ 0 then strCopyLoop um dst user fuel copy (index + 1)
    else return (copy, index + 1)

/-- `str_copy_from_user (dst, user)` into the kernel bytes `copy`. -/
def strCopyFromUser (um : Nat → Option UInt8) (copy : Nat → UInt8) (dst user : Nat) :
    Except Int (Nat → UInt8) := do
  let (copy, index) ← strCopyLoop um dst user (pgSize + 1) copy 0
  return Bytes.update copy (dst + index) 0

/-- `validate_ptr (addr)`. -/
def validatePtr (um : Nat → Option UInt8) (addr : Nat) : Except Int Unit := do
  if !isUserVaddr addr then throw (-1)
  if getUser um addr = -1 then throw (-1)

/-- The loop of `validate_buffer`: a probe at `addr` and every `PGSIZE` after it
while below `stop`, for at most `fuel` rounds. -/
def validateLoop (um : Nat → Option UInt8) (stop : Nat) : Nat → Nat → Except Int Unit
  -- not reached from `validateBuffer`: `size` rounds pass `buffer + size`
  | 0, _ => pure ()
  | fuel + 1, addr => do
    if addr < stop then
      validatePtr um addr
      validateLoop um stop fuel (addr + pgSize)

/-- `validate_buffer (buffer, size)`. -/
def validateBuffer (um : Nat → Option UInt8) (buffer size : Nat) : Except Int Unit := do
  if size = 0 then return
  -- `buffer + size` is a sum of 32-bit pointers
  if buffer > (buffer + size) % 2 ^ 32 then throw (-1)
  validateLoop um (buffer + size) size buffer
  validatePtr um (buffer + size - 1)

section StrCopy

variable {um : Nat → Option UInt8} {dst user : Nat}

/-- One round of the copy loop on a mapped, nonzero byte: it is stored and the
loop goes on. -/
theorem strCopyLoop_byte {fuel index : Nat} {copy : Nat → UInt8} {b : UInt8}
    (hlen : index < pgSize) (huser : user + index < physBase)
    (hb : um (user + index) = some b) (hb0 : b ≠ 0) :
    strCopyLoop um dst user (fuel + 1) copy index =
      strCopyLoop um dst user fuel (Bytes.update copy (dst + index) b) (index + 1) := by
  have hget : getUser um (user + index) = b.toNat := by simp [getUser, hb]
  have hne : b.toNat ≠ 0 := by
    simpa only [UInt8.toNat_zero] using UInt8.toNat_inj.not.mpr hb0
  simp [strCopyLoop, isUserVaddr, hget, hne, Nat.not_le.mpr hlen, huser]

/-- The round on the terminator: it is stored and the loop ends past it. -/
theorem strCopyLoop_nul {fuel index : Nat} {copy : Nat → UInt8}
    (hlen : index < pgSize) (huser : user + index < physBase) (hb : um (user + index) = some 0) :
    strCopyLoop um dst user (fuel + 1) copy index =
      .ok (Bytes.update copy (dst + index) 0, index + 1) := by
  have hget : getUser um (user + index) = 0 := by simp [getUser, hb]
  simp [strCopyLoop, isUserVaddr, hget, Nat.not_le.mpr hlen, huser]
  rfl

/-- The loop copies the string `s` and its terminator: from the first `index`
bytes of `s` copied, with rounds to spare, it ends with all of them and the
terminator copied and `index` one past the terminator. Induction on the bytes
still to copy. -/
theorem strCopyLoop_eq (s : List UInt8) (hs : 0 ∉ s) (hlen : s.length < pgSize)
    (huser : user + s.length < physBase) (hum : ∀ i < s.length, um (user + i) = s[i]?)
    (hnul : um (user + s.length) = some 0) (copy : Nat → UInt8) :
    ∀ k index fuel, index + k = s.length → k < fuel →
      strCopyLoop um dst user fuel (Bytes.copy copy dst (s.getD · 0) index) index =
        .ok (Bytes.copy copy dst (s.getD · 0) (s.length + 1), s.length + 1) := by
  intro k
  induction k with
  | zero =>
    intro index fuel hk hfuel
    obtain ⟨fuel, rfl⟩ : ∃ f, fuel = f + 1 := ⟨fuel - 1, by omega⟩
    subst hk
    rw [strCopyLoop_nul hlen huser hnul, ← Bytes.update_copy]
    simp
  | succ k ih =>
    intro index fuel hk hfuel
    obtain ⟨fuel, rfl⟩ : ∃ f, fuel = f + 1 := ⟨fuel - 1, by omega⟩
    have hi : index < s.length := by omega
    have hb0 : s[index] ≠ 0 := fun h => hs (h ▸ List.getElem_mem hi)
    rw [strCopyLoop_byte (by omega) (by omega) ((hum index hi).trans (List.getElem?_eq_getElem hi))
      hb0]
    have hget : s.getD index 0 = s[index] := by simp [hi]
    rw [← hget, Bytes.update_copy]
    exact ih (index + 1) fuel (by omega) (by omega)

/-- `str_copy_from_user` on a string that fits: the string and its terminator
are copied to `dst`, and one more `'\0'` is stored after them. -/
theorem strCopyFromUser_eq (s : List UInt8) (hs : 0 ∉ s) (hlen : s.length < pgSize)
    (huser : user + s.length < physBase) (hum : ∀ i < s.length, um (user + i) = s[i]?)
    (hnul : um (user + s.length) = some 0) (copy : Nat → UInt8) :
    strCopyFromUser um copy dst user =
      .ok (Bytes.update (Bytes.copy copy dst (s.getD · 0) (s.length + 1)) (dst + s.length + 1) 0) := by
  have hloop : strCopyLoop um dst user (pgSize + 1) (Bytes.copy copy dst (s.getD · 0) 0) 0 = _ :=
    strCopyLoop_eq s hs hlen huser hum hnul copy s.length 0 (pgSize + 1) (by omega) (by omega)
  rw [Bytes.copy_zero] at hloop
  simp only [strCopyFromUser, hloop]
  rfl

end StrCopy

/-- A user string of 4095 characters: `str_copy_from_user` copies it and then
stores `'\0'` at `dst + PGSIZE`, one byte past its one-page buffer, whatever
that byte held. -/
theorem str_copy_writes_past_page (copy : Nat → UInt8) (dst : Nat) :
    ∃ copy', strCopyFromUser (fun a => if 0x1000 ≤ a ∧ a < 0x1000 + 4095 then some 97
        else if a = 0x1000 + 4095 then some 0 else none) copy dst 0x1000 = .ok copy' ∧
      (∀ i < 4095, copy' (dst + i) = 97) ∧ copy' (dst + pgSize) = 0 := by
  refine ⟨_, strCopyFromUser_eq (List.replicate 4095 97) ?_ ?_ ?_ ?_ ?_ copy, fun i hi => ?_, ?_⟩
  · simp only [List.mem_replicate]
    decide
  · rw [List.length_replicate]
    decide
  · rw [List.length_replicate]
    decide
  · intro i hi
    rw [List.length_replicate] at hi
    rw [List.getElem?_replicate, if_pos hi, if_pos ⟨by omega, by omega⟩]
  · rw [List.length_replicate]
    decide
  · rw [List.length_replicate, Bytes.update, if_neg (by omega), Bytes.copy_apply_add (by omega),
      List.getD_eq_getElem?_getD, List.getElem?_replicate, if_pos hi]
    rfl
  · rw [List.length_replicate, Bytes.update, if_pos (by simp only [pgSize])]

section Validate

variable {um : Nat → Option UInt8}

/-- A probe that passes read a user byte. -/
theorem validatePtr_ok {addr : Nat} (h : validatePtr um addr = .ok ()) :
    addr < physBase ∧ (um addr).isSome := by
  by_cases hu : addr < physBase
  · cases hb : um addr with
    | none => simp [validatePtr, isUserVaddr, hu, getUser, hb] at h
    | some b => exact ⟨hu, rfl⟩
  · simp [validatePtr, isUserVaddr, hu] at h; cases h

/-- The loop passes only when each of its probes below `stop` passes.
Induction on the rounds, the next probe `PGSIZE` on. -/
theorem validateLoop_ok {stop : Nat} :
    ∀ {fuel addr}, validateLoop um stop fuel addr = .ok () →
      ∀ k < fuel, addr + k * pgSize < stop → validatePtr um (addr + k * pgSize) = .ok () := by
  intro fuel
  induction fuel with
  | zero => intro addr _ k hk; omega
  | succ fuel ih =>
    intro addr h k hk hstop
    have hlt : addr < stop := by
      have : addr ≤ addr + k * pgSize := Nat.le_add_right _ _
      omega
    simp only [validateLoop, hlt, if_true] at h
    cases hp : validatePtr um addr with
    | error e => rw [hp] at h; cases h
    | ok u =>
      rw [hp] at h
      cases k with
      | zero => simpa using hp
      | succ k =>
        have heq : addr + pgSize + k * pgSize = addr + (k + 1) * pgSize := by
          simp only [pgSize]; omega
        rw [← heq] at hstop ⊢
        exact ih h k (by omega) hstop

/-- `validate_buffer` passes only when every page `[buffer, buffer + size)`
overlaps has a user byte it read: the probe of the loop in the page, or of the
one after it when the buffer does not start on a page boundary, or the last
byte's. -/
theorem validateBuffer_covers {buffer size a : Nat} (h : validateBuffer um buffer size = .ok ())
    (ha : buffer ≤ a) (ha' : a < buffer + size) :
    ∃ p, pgNo p = pgNo a ∧ p < physBase ∧ (um p).isSome := by
  have hsize : size ≠ 0 := by omega
  have hwrap : ¬buffer > (buffer + size) % 2 ^ 32 := by
    intro hw
    unfold validateBuffer at h
    rw [if_neg hsize, if_pos hw] at h
    cases h
  simp only [validateBuffer, hsize, hwrap, if_false] at h
  cases hl : validateLoop um (buffer + size) size buffer with
  | error e => simp [hl] at h; cases h
  | ok u =>
    rw [hl] at h
    have hlast : buffer + size - 1 < physBase ∧ (um (buffer + size - 1)).isSome := validatePtr_ok h
    have hprobe := fun k hk hstop => validatePtr_ok (validateLoop_ok hl k hk hstop)
    -- `k`: the probe at or just below `a`
    let k := (a - buffer) / pgSize
    have hk : buffer + k * pgSize ≤ a ∧ a < buffer + k * pgSize + pgSize := by
      simp only [k, pgSize]; omega
    by_cases h1 : pgNo (buffer + k * pgSize) = pgNo a
    · exact ⟨_, h1, hprobe k (by simp only [k, pgSize]; omega) (by omega)⟩
    · have hnext : pgNo a = pgNo (buffer + (k + 1) * pgSize) := by
        simp only [pgNo, pgSize] at h1 hk ⊢; omega
      by_cases h2 : buffer + (k + 1) * pgSize < buffer + size
      · exact ⟨_, hnext.symm, hprobe (k + 1) (by simp only [pgSize] at h2; omega) h2⟩
      · refine ⟨buffer + size - 1, ?_, hlast⟩
        simp only [pgNo, pgSize] at hnext h2 ⊢; omega

end Validate

end Pintos.Userprog

import Mathlib
import Pintos.Lib.Simulation

/-!
# The RC4 generator (`lib/random.c`)

`random_init` fills `s` with the identity and scrambles it with 256 swaps keyed
by the bytes of the seed. Each turn of `random_bytes` advances `s_i`, adds
`s[s_i]` to `s_j`, swaps the two entries and writes the entry their sum names.
`random_bytes` first calls `random_init (0)` when no seed was given, and
`random_ulong` is four of its bytes, low byte first.

The state is a value (`Rc4`), `s` a function from the byte index. Every entry
update of the source is a `swap_byte`, which composes `s` with a transposition
(`swapByte_eq_comp`), so once the generator is initialised `s` is a permutation
of the 256 byte values after any sequence of calls (`random_state_perm`).
-/

namespace Pintos.Libc

/-- The static state of `random.c`: `s`, `s_i`, `s_j` and `inited`. -/
structure Rc4 where
  s : UInt8 → UInt8
  si : UInt8
  sj : UInt8
  inited : Bool

/-- The state before any call: static storage starts zeroed. -/
def Rc4.boot : Rc4 := ⟨fun _ => 0, 0, 0, false⟩

/-- `swap_byte (s + a, s + b)`. -/
def swapByte (s : UInt8 → UInt8) (a b : UInt8) : UInt8 → UInt8 :=
  let t := s a
  let s := Function.update s a (s b)
  Function.update s b t

/-- `seedp[k]`: byte `k` of the seed as it lies in memory, low byte first. -/
def seedByte (seed : UInt32) (k : Nat) : UInt8 := (seed >>> (8 * k).toUInt32).toUInt8

/-- The key schedule loop of `random_init`: `s` and `j` after entry `i`. -/
def randomInitStep (seed : UInt32) (acc : (UInt8 → UInt8) × UInt8) (i : Nat) :
    (UInt8 → UInt8) × UInt8 :=
  let j := acc.2 + acc.1 i.toUInt8 + seedByte seed (i % 4)
  (swapByte acc.1 i.toUInt8 j, j)

/-- `random_init (seed)`. -/
def randomInit (seed : UInt32) : Rc4 :=
  let s := ((List.range 256).foldl (randomInitStep seed) (fun i => i, 0)).1
  ⟨s, 0, 0, true⟩

/-- One turn of the loop of `random_bytes`: the state after it and the byte it
writes. -/
def rc4Next (st : Rc4) : Rc4 × UInt8 :=
  let si := st.si + 1
  let sj := st.sj + st.s si
  let s := swapByte st.s si sj
  let sk := s si + s sj
  (⟨s, si, sj, st.inited⟩, s sk)

/-- The loop of `random_bytes` over `size` bytes. -/
def randomBytesLoop : Nat → Rc4 → Rc4 × List UInt8
  | 0, st => (st, [])
  | size + 1, st =>
    let r := rc4Next st
    let rest := randomBytesLoop size r.1
    (rest.1, r.2 :: rest.2)

/-- `random_bytes (buf, size)`: the state after it and the bytes it writes. -/
def randomBytes (st : Rc4) (size : Nat) : Rc4 × List UInt8 :=
  randomBytesLoop size (if st.inited then st else randomInit 0)

/-- `random_ulong`: four bytes of `random_bytes` read as an `unsigned long`. -/
def randomUlong (st : Rc4) : Rc4 × UInt32 :=
  let r := randomBytes st 4
  (r.1, r.2.foldr (fun b acc => b.toUInt32 + 256 * acc) 0)

/-- The calls of `random.h`. -/
inductive RandomCall where
  | init (seed : UInt32)
  | bytes (size : Nat)
  | ulong

/-- What a call returns. -/
inductive RandomAnswer where
  | none
  | bytes (b : List UInt8)
  | ulong (v : UInt32)

/-- A call on the generator and its answer. -/
def randomCall (st : Rc4) : RandomCall → Rc4 × RandomAnswer
  | .init seed => (randomInit seed, .none)
  | .bytes size => ((randomBytes st size).1, .bytes (randomBytes st size).2)
  | .ulong => ((randomUlong st).1, .ulong (randomUlong st).2)

/-! ## The state stays a permutation -/

section Perm

/-- `swap_byte` composes the state with the transposition of its two indices. -/
theorem swapByte_eq_comp (s : UInt8 → UInt8) (a b : UInt8) :
    swapByte s a b = s ∘ Equiv.swap a b := by
  rw [Equiv.swap_comm, Equiv.comp_swap_eq_update]
  rfl

theorem bijective_swapByte {s : UInt8 → UInt8} (hs : Function.Bijective s)
    (a b : UInt8) : Function.Bijective (swapByte s a b) := by
  rw [swapByte_eq_comp]
  exact hs.comp (Equiv.swap a b).bijective

/-- The key schedule keeps `s` a permutation, swap after swap. -/
theorem bijective_foldl_randomInitStep (seed : UInt32) :
    ∀ (is : List Nat) (acc : (UInt8 → UInt8) × UInt8), Function.Bijective acc.1 →
      Function.Bijective ((is.foldl (randomInitStep seed) acc).1)
  | [], _, h => h
  | i :: is, acc, h => by
    rw [List.foldl_cons]
    exact bijective_foldl_randomInitStep seed is _ (bijective_swapByte h _ _)

theorem bijective_randomInit (seed : UInt32) : Function.Bijective (randomInit seed).s :=
  bijective_foldl_randomInitStep seed _ _ Function.bijective_id

theorem bijective_rc4Next {st : Rc4} (h : Function.Bijective st.s) :
    Function.Bijective (rc4Next st).1.s :=
  bijective_swapByte h _ _

/-- The loop of `random_bytes` keeps `s` a permutation and `inited` as it was. -/
theorem randomBytesLoop_inv (P : Rc4 → Prop)
    (hnext : ∀ st, P st → P (rc4Next st).1) :
    ∀ (size : Nat) {st : Rc4}, P st → P (randomBytesLoop size st).1
  | 0, _, h => h
  | size + 1, st, h => randomBytesLoop_inv P hnext size (hnext st h)

theorem bijective_randomBytes {st : Rc4} (h : st.inited = true → Function.Bijective st.s)
    (size : Nat) : Function.Bijective (randomBytes st size).1.s := by
  have hstart : Function.Bijective (if st.inited then st else randomInit 0).s := by
    by_cases hinit : st.inited = true
    · rw [if_pos hinit]
      exact h hinit
    · rw [if_neg hinit]
      exact bijective_randomInit 0
  exact randomBytesLoop_inv (fun st => Function.Bijective st.s) (fun _ => bijective_rc4Next) size
    hstart

theorem bijective_randomUlong {st : Rc4} (h : st.inited = true → Function.Bijective st.s) :
    Function.Bijective (randomUlong st).1.s :=
  bijective_randomBytes h 4

/-- Each call leaves `s` a permutation, if it was one once initialised. -/
theorem bijective_randomCall (st : Rc4) (c : RandomCall)
    (h : st.inited = true → Function.Bijective st.s) :
    Function.Bijective (randomCall st c).1.s := by
  cases c with
  | init seed =>
    simp only [randomCall]
    exact bijective_randomInit seed
  | bytes size =>
    simp only [randomCall]
    exact bijective_randomBytes h size
  | ulong =>
    simp only [randomCall]
    exact bijective_randomUlong h

/-- **The state is a permutation.** After any sequence of calls from boot, once
the generator has been initialised, `s` holds each of the 256 byte values once. -/
theorem random_state_perm (calls : List RandomCall) :
    (Lts.runOutputs randomCall Rc4.boot calls).1.inited = true →
      Function.Bijective (Lts.runOutputs randomCall Rc4.boot calls).1.s :=
  Lts.runOutputs_inv (P := fun st => st.inited = true → Function.Bijective st.s)
    (fun st c h _ => bijective_randomCall st c h) calls (fun h => Bool.noConfusion h)

theorem random_state_perm_seeded :
    (Lts.runOutputs randomCall Rc4.boot [.bytes 3, .init 7, .ulong]).1.inited = true ∧
      Function.Bijective (Lts.runOutputs randomCall Rc4.boot [.bytes 3, .init 7, .ulong]).1.s :=
  ⟨rfl, random_state_perm _ rfl⟩

end Perm

end Pintos.Libc

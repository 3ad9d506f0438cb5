import Pintos.Lib.LongDivision

/-!
# 64-bit division (`lib/arithmetic.c`)

On 32-bit x86, GCC compiles 64-bit division and remainder to calls of
`__udivdi3`, `__umoddi3`, `__divdi3` and `__moddi3`. `udiv64` builds them on
the `DIVL` instruction, which divides a 64-bit number by a 32-bit one and traps
when the quotient does not fit in 32 bits; the trap is `none`. A divisor below
`2^32` takes two `DIVL`s, high half then low; a wider one takes the estimate of
Hacker's Delight from the divisor shifted to its top bit, corrected by one.

Neither `DIVL` traps for a nonzero divisor, and the quotient is the exact one
(`udiv64_spec`, from the long division of `LongDivision`); the signed quotient
of the magnitudes, with its sign, is `Int64` division (`sdiv64_spec`).

The remainder helpers `umod64` and `smod64` are declared to return 32-bit
values, so the 64-bit remainder they compute is cut to its low 32 bits before
`__umoddi3` and `__moddi3` widen it again (`umoddi3_eq`, `moddi3_eq`,
`umoddi3_truncates`).
-/

namespace Pintos.Libc

/-- `divl (n, d)`: `DIVL` of `n` by `d`, `none` for the divide error, which the
instruction raises when `d = 0` or when the quotient needs more than 32 bits. -/
def divl (n : UInt64) (d : UInt32) : Option UInt32 :=
  if d = 0 ∨ 2 ^ 32 ≤ n.toNat / d.toNat then none
  else some (UInt32.ofNat (n.toNat / d.toNat))

/-- `nlz (x)`: the number of leading zero bits of a nonzero `x`, found by
halving the window. -/
def nlz (x : UInt32) : Nat :=
  let (n, x) := if x ≤ 0x0000FFFF then (16, x <<< 16) else (0, x)
  let (n, x) := if x ≤ 0x00FFFFFF then (n + 8, x <<< 8) else (n, x)
  let (n, x) := if x ≤ 0x0FFFFFFF then (n + 4, x <<< 4) else (n, x)
  let (n, x) := if x ≤ 0x3FFFFFFF then (n + 2, x <<< 2) else (n, x)
  if x ≤ 0x7FFFFFFF then n + 1 else n

/-- `udiv64 (n, d)`. -/
def udiv64 (n d : UInt64) : Option UInt64 :=
  if d >>> 32 = 0 then do
    let b : UInt64 := (1 : UInt64) <<< 32
    let n1 : UInt32 := (n >>> 32).toUInt32
    let n0 : UInt32 := n.toUInt32
    let d0 : UInt32 := d.toUInt32
    let q0 ← divl (b * (n1 % d0).toUInt64 + n0.toUInt64) d0
    return q0.toUInt64 + b * (n1 / d0).toUInt64
  else if n < d then some 0
  else do
    let d1 : UInt32 := (d >>> 32).toUInt32
    let s := nlz d1
    let q1 ← divl (n >>> 1) ((d <<< s.toUInt64) >>> 32).toUInt32
    let q : UInt64 := (q1 >>> (31 - s).toUInt32).toUInt64
    return if n - (q - 1) * d < d then q - 1 else q

/-- `umod64 (n, d)`, whose return type is `uint32_t`. -/
def umod64 (n d : UInt64) : Option UInt32 :=
  (udiv64 n d).map fun q => (n - d * q).toUInt32

/-- `sdiv64 (n, d)`: the quotient of the magnitudes, negated when the signs
differ. -/
def sdiv64 (n d : Int64) : Option Int64 := do
  let nAbs : UInt64 := if n ≥ 0 then n.toUInt64 else -n.toUInt64
  let dAbs : UInt64 := if d ≥ 0 then d.toUInt64 else -d.toUInt64
  let qAbs ← udiv64 nAbs dAbs
  return if (n < 0 ↔ d < 0) then qAbs.toInt64 else -qAbs.toInt64

/-- `smod64 (n, d)`, whose return type is `int32_t`. -/
def smod64 (n d : Int64) : Option Int32 :=
  (sdiv64 n d).map fun q => (n - d * q).toInt32

/-- `__divdi3 (n, d)`. -/
def divdi3 (n d : Int64) : Option Int64 := sdiv64 n d

/-- `__moddi3 (n, d)`. -/
def moddi3 (n d : Int64) : Option Int64 := (smod64 n d).map Int32.toInt64

/-- `__udivdi3 (n, d)`. -/
def udivdi3 (n d : UInt64) : Option UInt64 := udiv64 n d

/-- `__umoddi3 (n, d)`. -/
def umoddi3 (n d : UInt64) : Option UInt64 := (umod64 n d).map UInt32.toUInt64

theorem divl_eq {n : UInt64} {d : UInt32} (hd : d.toNat ≠ 0) (hq : n.toNat / d.toNat < 2 ^ 32) :
    divl n d = some (UInt32.ofNat (n.toNat / d.toNat)) := by
  have hd' : d ≠ 0 := fun h => hd (by simp [h])
  unfold divl
  rw [if_neg (not_or.mpr ⟨hd', Nat.not_le.mpr hq⟩)]

/-- One round of `nlz`: when the top `k` bits of a window that holds a one in
its top `2 * k` bits are clear, they are shifted out and counted. -/
theorem nlz_round {a x b s : UInt32} {n k : Nat} (hk : 2 * k ≤ 32) (hs : s.toNat = k)
    (hb : b.toNat + 1 = 2 ^ (32 - k)) (hx : x.toNat = a.toNat * 2 ^ n)
    (hlo : 2 ^ (32 - 2 * k) ≤ x.toNat) {p : Nat × UInt32}
    (hp : p = if x ≤ b then (n + k, x <<< s) else (n, x)) :
    p.2.toNat = a.toNat * 2 ^ p.1 ∧ 2 ^ (32 - k) ≤ p.2.toNat := by
  subst hp
  split
  · rename_i hle
    rw [UInt32.le_iff_toNat_le] at hle
    have hfit : x.toNat * 2 ^ k < 2 ^ 32 :=
      calc x.toNat * 2 ^ k < 2 ^ (32 - k) * 2 ^ k :=
            Nat.mul_lt_mul_of_pos_right (by omega) (by positivity)
        _ = 2 ^ 32 := by rw [← pow_add, Nat.sub_add_cancel (by omega)]
    have hsh : (x <<< s).toNat = x.toNat * 2 ^ k := by
      rw [UInt32.toNat_shiftLeft, hs, Nat.shiftLeft_eq, Nat.mod_eq_of_lt (by omega : k < 32),
        Nat.mod_eq_of_lt hfit]
    refine ⟨by rw [hsh, hx, pow_add, mul_assoc], ?_⟩
    rw [hsh]
    calc 2 ^ (32 - k) = 2 ^ (32 - 2 * k) * 2 ^ k := by rw [← pow_add]; congr 1; omega
      _ ≤ x.toNat * 2 ^ k := Nat.mul_le_mul_right _ hlo
  · rename_i hgt
    rw [UInt32.le_iff_toNat_le] at hgt
    exact ⟨hx, show 2 ^ (32 - k) ≤ x.toNat by omega⟩

/-- `nlz` shifts a nonzero word up to its top bit. -/
theorem nlz_spec {x : UInt32} (hx : x ≠ 0) :
    nlz x ≤ 31 ∧ 2 ^ 31 ≤ x.toNat * 2 ^ nlz x ∧ x.toNat * 2 ^ nlz x < 2 ^ 32 := by
  have hpos : 2 ^ (32 - 2 * 16) ≤ x.toNat := by
    have : x.toNat ≠ 0 := fun h0 => hx (UInt32.toNat_inj.mp (by simpa using h0))
    simp only [Nat.reduceMul, Nat.sub_self, pow_zero]
    omega
  unfold nlz
  -- the four rounds of the cascade, each on half the window of the one before
  generalize hp1 : (if x ≤ 0x0000FFFF then (16, x <<< 16) else (0, x)) = p1
  obtain ⟨e1, l1⟩ := nlz_round (b := 0x0000FFFF) (s := 16) (n := 0) (k := 16) (by norm_num) rfl rfl
    (by rw [pow_zero, Nat.mul_one]) hpos hp1.symm
  obtain ⟨n1, x1⟩ := p1
  dsimp only at e1 l1 ⊢
  generalize hp2 : (if x1 ≤ 0x00FFFFFF then (n1 + 8, x1 <<< 8) else (n1, x1)) = p2
  obtain ⟨e2, l2⟩ := nlz_round (b := 0x00FFFFFF) (s := 8) (k := 8) (by norm_num) rfl rfl e1 l1 hp2.symm
  obtain ⟨n2, x2⟩ := p2
  dsimp only at e2 l2 ⊢
  generalize hp3 : (if x2 ≤ 0x0FFFFFFF then (n2 + 4, x2 <<< 4) else (n2, x2)) = p3
  obtain ⟨e3, l3⟩ := nlz_round (b := 0x0FFFFFFF) (s := 4) (k := 4) (by norm_num) rfl rfl e2 l2 hp3.symm
  obtain ⟨n3, x3⟩ := p3
  dsimp only at e3 l3 ⊢
  generalize hp4 : (if x3 ≤ 0x3FFFFFFF then (n3 + 2, x3 <<< 2) else (n3, x3)) = p4
  obtain ⟨e4, l4⟩ := nlz_round (b := 0x3FFFFFFF) (s := 2) (k := 2) (by norm_num) rfl rfl e3 l3 hp4.symm
  obtain ⟨n4, x4⟩ := p4
  dsimp only at e4 l4 ⊢
  have hlt := x4.toNat_lt
  have hbits : ∀ m, x.toNat * 2 ^ m < 2 ^ 32 → m ≤ 31 := by
    intro m hm
    have : 2 ^ m < 2 ^ 32 := lt_of_le_of_lt (Nat.le_mul_of_pos_left _ (by omega)) hm
    have := (Nat.pow_lt_pow_iff_right (by norm_num)).mp this
    omega
  have hb : (0x7FFFFFFF : UInt32).toNat = 2 ^ 31 - 1 := rfl
  split
  · rename_i hle
    rw [UInt32.le_iff_toNat_le, hb] at hle
    have e5 : x.toNat * 2 ^ (n4 + 1) = x4.toNat * 2 := by rw [pow_succ, ← mul_assoc, e4]
    rw [e5]
    exact ⟨hbits _ (by rw [e5]; omega), by omega, by omega⟩
  · rename_i hgt
    rw [UInt32.le_iff_toNat_le, hb] at hgt
    rw [← e4]
    exact ⟨hbits _ (by rw [← e4]; exact hlt), by omega, hlt⟩

/-- The high word of a double word, `n >> 32` as the code takes it. -/
theorem toNat_high (x : UInt64) : ((x >>> 32).toUInt32).toNat = x.toNat / 2 ^ 32 := by
  have := x.toNat_lt
  simp [UInt64.toNat_toUInt32, UInt64.toNat_shiftRight, Nat.shiftRight_eq_div_pow]
  omega

/-- The test `(d >> 32) == 0` of `udiv64`. -/
theorem shiftRight_eq_zero_iff (d : UInt64) : d >>> 32 = 0 ↔ d.toNat < 2 ^ 32 := by
  rw [← UInt64.toNat_inj]
  simp [UInt64.toNat_shiftRight, Nat.shiftRight_eq_div_pow]

/-- A divisor below `2^32`: the high half, then the remainder joined to the low
half. -/
theorem udiv64_of_lt {n d : UInt64} (hd : d.toNat ≠ 0) (hsmall : d.toNat < 2 ^ 32) :
    udiv64 n d = some (n / d) := by
  have hN := n.toNat_lt
  have hshift : d >>> 32 = 0 := (shiftRight_eq_zero_iff d).mpr hsmall
  have hn1 := toNat_high n
  have hn0 : n.toUInt32.toNat = n.toNat % 2 ^ 32 := UInt64.toNat_toUInt32 n
  have hd0 : d.toUInt32.toNat = d.toNat := by
    simp [UInt64.toNat_toUInt32]
    omega
  have hdpos : 0 < d.toNat := Nat.pos_of_ne_zero hd
  have hb : ((1 : UInt64) <<< 32).toNat = 2 ^ 32 := by decide
  have hlow : (2 ^ 32 * (n.toNat / 2 ^ 32 % d.toNat) + n.toNat % 2 ^ 32) / d.toNat < 2 ^ 32 :=
    LongDivision.div_by_halves_lt hdpos (Nat.mod_lt n.toNat (by norm_num))
  have hhalves := LongDivision.div_by_halves (2 ^ 32) (n.toNat / 2 ^ 32) (n.toNat % 2 ^ 32) hdpos
  rw [Nat.div_add_mod] at hhalves
  -- the dividend of the second `DIVL` does not wrap
  have hx : ((1 : UInt64) <<< 32 * ((n >>> 32).toUInt32 % d.toUInt32).toUInt64 +
      n.toUInt32.toUInt64).toNat = 2 ^ 32 * (n.toNat / 2 ^ 32 % d.toNat) + n.toNat % 2 ^ 32 := by
    have hr : n.toNat / 2 ^ 32 % d.toNat < d.toNat := Nat.mod_lt _ hdpos
    simp only [UInt64.toNat_add, UInt64.toNat_mul, UInt32.toNat_toUInt64, UInt32.toNat_mod, hn1,
      hn0, hd0, hb]
    omega
  unfold udiv64
  rw [if_pos hshift]
  dsimp only
  rw [divl_eq (by rw [hd0]; exact hd) (by rw [hx, hd0]; exact hlow)]
  simp only [Option.bind_eq_bind, Option.bind_some, Option.pure_def, Option.some.injEq]
  apply UInt64.toNat_inj.mp
  simp only [UInt64.toNat_add, UInt64.toNat_mul, UInt32.toNat_toUInt64, UInt32.toNat_ofNat',
    UInt32.toNat_div, UInt64.toNat_div, hb, hx, hn1, hd0]
  have hQ : n.toNat / d.toNat < 2 ^ 64 := lt_of_le_of_lt (Nat.div_le_self _ _) hN
  generalize (2 ^ 32 * (n.toNat / 2 ^ 32 % d.toNat) + n.toNat % 2 ^ 32) / d.toNat = Q at hlow hhalves ⊢
  generalize n.toNat / 2 ^ 32 / d.toNat = R at hhalves ⊢
  generalize n.toNat / d.toNat = M at hhalves hQ ⊢
  omega

/-- The last step of the wide case, in 64-bit words: an estimate that is the
quotient or one more is corrected without wrapping. -/
theorem correct_estimate_eq {n d q : UInt64} (hd : 0 < d.toNat)
    (hlo : n.toNat / d.toNat ≤ q.toNat) (hhi : q.toNat ≤ n.toNat / d.toNat + 1) (hq : 0 < q.toNat) :
    (if n - (q - 1) * d < d then q - 1 else q) = n / d := by
  have hq1 : (q - 1).toNat = q.toNat - 1 :=
    UInt64.toNat_sub_of_le _ _ (UInt64.le_iff_toNat_le.mpr (by rw [UInt64.toNat_one]; exact hq))
  have hkd : (q.toNat - 1) * d.toNat ≤ n.toNat :=
    le_trans (Nat.mul_le_mul_right _ (by omega)) (Nat.div_mul_le_self n.toNat d.toNat)
  have hmul : ((q - 1) * d).toNat = (q.toNat - 1) * d.toNat := by
    rw [UInt64.toNat_mul, hq1]
    exact Nat.mod_eq_of_lt (lt_of_le_of_lt hkd n.toNat_lt)
  have hsub : (n - (q - 1) * d).toNat = n.toNat - (q.toNat - 1) * d.toNat := by
    rw [UInt64.toNat_sub_of_le _ _ (UInt64.le_iff_toNat_le.mpr (by rw [hmul]; exact hkd)), hmul]
  have hcond : n - (q - 1) * d < d ↔ n.toNat - (q.toNat - 1) * d.toNat < d.toNat := by
    rw [UInt64.lt_iff_toNat_lt, hsub]
  apply UInt64.toNat_inj.mp
  rw [UInt64.toNat_div, ← LongDivision.correct_estimate hd hlo hhi hq]
  by_cases h : n - (q - 1) * d < d
  · rw [if_pos h, if_pos (hcond.mp h), hq1]
  · rw [if_neg h, if_neg (mt hcond.mpr h)]

/-- A divisor of `2^32` or more: the estimate from the shifted divisor's top
word, corrected by one. -/
theorem udiv64_of_wide {n d : UInt64} (hwide : 2 ^ 32 ≤ d.toNat) : udiv64 n d = some (n / d) := by
  have hN := n.toNat_lt
  have hdpos : 0 < d.toNat := by omega
  have hshift : ¬ d >>> 32 = 0 := fun h => absurd ((shiftRight_eq_zero_iff d).mp h) (by omega)
  unfold udiv64
  rw [if_neg hshift]
  by_cases hlt : n < d
  · rw [if_pos hlt]
    congr 1
    apply UInt64.toNat_inj.mp
    rw [UInt64.toNat_div, Nat.div_eq_of_lt (UInt64.lt_iff_toNat_lt.mp hlt)]
    rfl
  rw [if_neg hlt]
  dsimp only
  have hge : d.toNat ≤ n.toNat := Nat.not_lt.mp (mt UInt64.lt_iff_toNat_lt.mpr hlt)
  have hd1 := toNat_high d
  have hd1ne : (d >>> 32).toUInt32 ≠ 0 := by
    intro h
    have := congrArg UInt32.toNat h
    rw [hd1] at this
    simp at this
    omega
  obtain ⟨hs, hslo, hshi⟩ := nlz_spec hd1ne
  rw [hd1] at hslo hshi
  obtain ⟨hfit, hvlo, hbelow, habove⟩ := LongDivision.shift_bounds hs hslo hshi
  generalize nlz (d >>> 32).toUInt32 = s at *
  have hv : (((d <<< s.toUInt64) >>> 32).toUInt32).toNat = d.toNat * 2 ^ s / 2 ^ 32 := by
    simp [UInt64.toNat_toUInt32, UInt64.toNat_shiftRight, UInt64.toNat_shiftLeft,
      Nat.shiftRight_eq_div_pow, Nat.shiftLeft_eq]
    rw [Nat.mod_eq_of_lt (show s < 64 by omega)]
    generalize d.toNat * 2 ^ s = X at hfit ⊢
    omega
  have hhalf : (n >>> 1).toNat = n.toNat / 2 := by
    simp [UInt64.toNat_shiftRight, Nat.shiftRight_eq_div_pow]
  rw [divl_eq (by rw [hv]; omega) (by rw [hhalf, hv]; exact LongDivision.half_div_lt hvlo hN)]
  simp only [Option.bind_eq_bind, Option.bind_some, Option.pure_def, Option.some.injEq]
  -- shifting the one-word quotient back is dividing by `2^(31 - s)`
  have hest : ((UInt32.ofNat (n.toNat / 2 / (d.toNat * 2 ^ s / 2 ^ 32)) >>>
      (31 - s).toUInt32).toUInt64).toNat = n.toNat / 2 / (d.toNat * 2 ^ s / 2 ^ 32 * 2 ^ (31 - s)) := by
    have hx := LongDivision.half_div_lt hvlo hN
    rw [← Nat.div_div_eq_div_mul]
    generalize n.toNat / 2 / (d.toNat * 2 ^ s / 2 ^ 32) = x at hx ⊢
    simp [Nat.shiftRight_eq_div_pow]
    rw [Nat.mod_eq_of_lt (show x < 4294967296 by omega), Nat.mod_eq_of_lt (show 31 - s < 32 by omega),
      Nat.mod_eq_of_lt (show 31 - s < 64 by omega)]
  have hP : 0 < 2 ^ (31 - s) := by positivity
  have hlo := LongDivision.le_estimate (N := n.toNat) (Nat.mul_pos (by omega) hP) hbelow
  have hhi := LongDivision.estimate_le hvlo hP hbelow habove hN
  have hone : 1 ≤ n.toNat / d.toNat := (Nat.one_le_div_iff hdpos).mpr hge
  apply correct_estimate_eq hdpos <;> rw [hhalf, hv, hest]
  · exact hlo
  · exact hhi
  · omega

/-- A zero divisor traps in the first `DIVL`. -/
theorem udiv64_zero (n : UInt64) : udiv64 n 0 = none := by
  simp [udiv64, divl]

/-- `udiv64` traps exactly on a zero divisor and otherwise divides. -/
theorem udiv64_spec (n d : UInt64) : udiv64 n d = if d = 0 then none else some (n / d) := by
  split
  · subst d
    exact udiv64_zero n
  · have hd : d.toNat ≠ 0 := fun h => ‹¬d = 0› (UInt64.toNat_inj.mp (by simpa using h))
    rcases Nat.lt_or_ge d.toNat (2 ^ 32) with hsmall | hwide
    · exact udiv64_of_lt hd hsmall
    · exact udiv64_of_wide hwide

theorem sub_mul_div_eq_mod (n d : UInt64) : n - d * (n / d) = n % d := by
  apply UInt64.toNat_inj.mp
  have hle : d.toNat * (n.toNat / d.toNat) ≤ n.toNat := Nat.mul_div_le n.toNat d.toNat
  have hmul : (d * (n / d)).toNat = d.toNat * (n.toNat / d.toNat) := by
    rw [UInt64.toNat_mul, UInt64.toNat_div]
    exact Nat.mod_eq_of_lt (lt_of_le_of_lt hle n.toNat_lt)
  rw [UInt64.toNat_sub_of_le _ _ (UInt64.le_iff_toNat_le.mpr (by rw [hmul]; exact hle)), hmul,
    UInt64.toNat_mod, Nat.mod_eq_sub_mul_div]

theorem udivdi3_eq (n d : UInt64) : udivdi3 n d = if d = 0 then none else some (n / d) :=
  udiv64_spec n d

theorem umoddi3_eq (n d : UInt64) :
    umoddi3 n d = if d = 0 then none else some (n % d).toUInt32.toUInt64 := by
  unfold umoddi3 umod64
  rw [udiv64_spec]
  split
  · rfl
  · rw [Option.map_some, Option.map_some, sub_mul_div_eq_mod]

theorem lt_zero_iff_msb (x : Int64) : x < 0 ↔ x.toBitVec.msb = true := by
  rw [Int64.lt_iff_toInt_lt, BitVec.msb_eq_toInt]
  simp

/-- The magnitude `sdiv64` takes, as a bit vector. -/
theorem toBitVec_abs (x : Int64) :
    (if x ≥ 0 then x.toUInt64 else -x.toUInt64).toBitVec =
      if x.toBitVec.msb then -x.toBitVec else x.toBitVec := by
  have h := lt_zero_iff_msb x
  by_cases hx : x.toBitVec.msb
  · rw [if_neg (Int64.not_le.mpr (h.mpr hx)), if_pos hx, UInt64.toBitVec_neg, Int64.toBitVec_toUInt64]
  · rw [if_pos (Int64.not_lt.mp (mt h.mp hx)), if_neg hx, Int64.toBitVec_toUInt64]

/-- The quotient of the magnitudes, negated when the signs differ, is the signed
quotient, case by case of `BitVec.sdiv`. -/
theorem sdiv_of_abs (n d : Int64) (q : UInt64)
    (hq : q.toBitVec = (if n.toBitVec.msb then -n.toBitVec else n.toBitVec) /
      (if d.toBitVec.msb then -d.toBitVec else d.toBitVec)) :
    (if (n < 0 ↔ d < 0) then q.toInt64 else -q.toInt64) = n / d := by
  apply Int64.toBitVec_inj.mp
  rw [Int64.toBitVec_div, BitVec.sdiv_eq]
  simp only [lt_zero_iff_msb]
  cases hn : n.toBitVec.msb <;> cases hd : d.toBitVec.msb <;>
    simp_all [UInt64.toBitVec_toInt64, BitVec.udiv_eq]

/-- `sdiv64` traps exactly on a zero divisor and otherwise is `Int64` division,
which truncates toward zero and wraps `INT64_MIN / -1`. -/
theorem sdiv64_spec (n d : Int64) : sdiv64 n d = if d = 0 then none else some (n / d) := by
  unfold sdiv64
  dsimp only
  rw [udiv64_spec]
  have hz : (if d ≥ 0 then d.toUInt64 else -d.toUInt64) = 0 ↔ d = 0 := by
    rw [← UInt64.toBitVec_inj, toBitVec_abs, UInt64.toBitVec_zero, ← Int64.toBitVec_inj,
      Int64.toBitVec_zero]
    split <;> simp
  by_cases hd : d = 0
  · rw [if_pos (hz.mpr hd), if_pos hd]
    rfl
  · rw [if_neg (mt hz.mp hd), if_neg hd]
    simp only [Option.bind_eq_bind, Option.bind_some, Option.pure_def, Option.some.injEq]
    exact sdiv_of_abs n d _ (by rw [UInt64.toBitVec_div, toBitVec_abs, toBitVec_abs])

theorem sub_mul_sdiv_eq_smod (n d : Int64) : n - d * (n / d) = n % d := by
  apply Int64.toInt_inj.mp
  have hlo := Int64.le_toInt (n % d)
  have hhi := Int64.toInt_lt (n % d)
  rw [Int64.toInt_sub, Int64.toInt_mul, Int64.toInt_div, Int.mul_bmod_bmod, Int.sub_bmod_bmod,
    ← Int.tmod_def, ← Int64.toInt_mod]
  exact Int.bmod_eq_of_le (by omega) (by omega)

theorem divdi3_eq (n d : Int64) : divdi3 n d = if d = 0 then none else some (n / d) :=
  sdiv64_spec n d

theorem moddi3_eq (n d : Int64) :
    moddi3 n d = if d = 0 then none else some (n % d).toInt32.toInt64 := by
  unfold moddi3 smod64
  rw [sdiv64_spec]
  split
  · rfl
  · rw [Option.map_some, Option.map_some, sub_mul_sdiv_eq_smod]

/-- A remainder of `2^32` or more loses its high bits: for `n = 2^33 + 5` and
`d = 2^33 + 6`, `n mod d` is `n` itself, but `__umoddi3` and `__moddi3` give 5. -/
theorem umoddi3_truncates :
    (2 ^ 33 + 5 : UInt64) % (2 ^ 33 + 6) = 2 ^ 33 + 5 ∧
      umoddi3 (2 ^ 33 + 5) (2 ^ 33 + 6) = some 5 ∧ moddi3 (2 ^ 33 + 5) (2 ^ 33 + 6) = some 5 := by
  decide

end Pintos.Libc

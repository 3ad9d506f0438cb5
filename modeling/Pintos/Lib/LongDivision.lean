import Mathlib

/-!
# Long division by a single-word divide

A machine whose divide instruction takes a double-word dividend and a
single-word divisor, and traps when the quotient needs more than a single word,
still divides double words in two ways (Hacker's Delight, 9-5).

* A single-word divisor: divide the high half first, then the remainder joined
  to the low half (`div_by_halves`); the second quotient fits
  (`div_by_halves_lt`).
* A wider divisor, shifted so that its top bit is the word's: divide half the
  dividend by the divisor's top word and shift back. The estimate is the
  quotient or one more (`le_estimate`, `estimate_le`), and one test corrects it
  (`correct_estimate`).

Here `b` is the word base, `v` the divisor's top word after the shift and `P`
the shift back, so that `2 * v * P ≤ d < 2 * (v + 1) * P`.
-/

namespace LongDivision

/-- Dividing `b * n1 + n0` by `d` a half at a time. -/
theorem div_by_halves (b n1 n0 : Nat) {d : Nat} (hd : 0 < d) :
    (b * n1 + n0) / d = (b * (n1 % d) + n0) / d + b * (n1 / d) := by
  have hsplit : b * n1 + n0 = b * (n1 % d) + n0 + d * (b * (n1 / d)) := by
    conv_lhs => rw [← Nat.mod_add_div n1 d]
    ring
  rw [hsplit, Nat.add_mul_div_left _ _ hd]

/-- The quotient of the remainder joined to the low half fits in a word. -/
theorem div_by_halves_lt {b n1 n0 d : Nat} (hd : 0 < d) (hn0 : n0 < b) :
    (b * (n1 % d) + n0) / d < b := by
  rw [Nat.div_lt_iff_lt_mul hd]
  calc b * (n1 % d) + n0 < b * (n1 % d) + b := by omega
    _ = b * (n1 % d + 1) := by ring
    _ ≤ b * d := Nat.mul_le_mul_left _ (Nat.mod_lt _ hd)

/-- A divisor `D` of two words shifted left by `s`, so that its top word gets its
top bit, still fits in two words; its new top word `v` has its top bit, and with
`P = 2^(31 - s)` it brackets the divisor: `2 * v * P ≤ D < 2 * (v + 1) * P`. -/
theorem shift_bounds {D s : Nat} (hs : s ≤ 31) (hlo : 2 ^ 31 ≤ D / 2 ^ 32 * 2 ^ s)
    (hhi : D / 2 ^ 32 * 2 ^ s < 2 ^ 32) :
    D * 2 ^ s < 2 ^ 64 ∧ 2 ^ 31 ≤ D * 2 ^ s / 2 ^ 32 ∧
      2 * (D * 2 ^ s / 2 ^ 32 * 2 ^ (31 - s)) ≤ D ∧
      D < 2 * (D * 2 ^ s / 2 ^ 32 * 2 ^ (31 - s)) + 2 * 2 ^ (31 - s) := by
  set S := 2 ^ s with hS
  set P := 2 ^ (31 - s) with hP
  have hSpos : 0 < S := by positivity
  have hSP : S * (2 * P) = 2 ^ 32 := by
    rw [hS, hP, ← pow_succ', ← pow_add]
    congr 1
    omega
  set V := D * S / 2 ^ 32 with hV
  have hsplit := Nat.div_add_mod D (2 ^ 32)
  have hr := Nat.mod_lt D (show 0 < 2 ^ 32 by norm_num)
  -- the top word is below `2 * P`, so the shifted divisor fits
  have htop : D / 2 ^ 32 + 1 ≤ 2 * P := by
    have : D / 2 ^ 32 * S < 2 * P * S := by rw [mul_comm (2 * P), hSP]; exact hhi
    have := Nat.lt_of_mul_lt_mul_right this
    omega
  have hfit : D * S < 2 ^ 64 := by
    calc D * S < 2 ^ 32 * (D / 2 ^ 32 + 1) * S := Nat.mul_lt_mul_of_pos_right (by omega) hSpos
      _ ≤ 2 ^ 32 * (2 * P) * S := by gcongr
      _ = 2 ^ 64 := by rw [mul_assoc, mul_comm (2 * P), hSP]; norm_num
  have hVlo : D / 2 ^ 32 * S ≤ V := by
    rw [hV, Nat.le_div_iff_mul_le (by norm_num)]
    calc D / 2 ^ 32 * S * 2 ^ 32 = D / 2 ^ 32 * 2 ^ 32 * S := by ring
      _ ≤ D * S := Nat.mul_le_mul_right _ (Nat.div_mul_le_self _ _)
  have hmul : V * 2 ^ 32 ≤ D * S := Nat.div_mul_le_self _ _
  have hmul' : D * S < V * 2 ^ 32 + 2 ^ 32 := Nat.lt_div_mul_add (by norm_num)
  refine ⟨hfit, le_trans hlo hVlo, ?_, ?_⟩
  · have : 2 * (V * P) * S ≤ D * S := by
      calc 2 * (V * P) * S = V * (S * (2 * P)) := by ring
        _ = V * 2 ^ 32 := by rw [hSP]
        _ ≤ D * S := hmul
    exact Nat.le_of_mul_le_mul_right this hSpos
  · have : D * S < (2 * (V * P) + 2 * P) * S := by
      calc D * S < V * 2 ^ 32 + 2 ^ 32 := hmul'
        _ = (V + 1) * (S * (2 * P)) := by rw [hSP]; ring
        _ = (2 * (V * P) + 2 * P) * S := by ring
    exact Nat.lt_of_mul_lt_mul_right this

/-- Half a double word divided by a normalized top word fits in a word. -/
theorem half_div_lt {N v : Nat} (hv : 2 ^ 31 ≤ v) (hN : N < 2 ^ 64) : N / 2 / v < 2 ^ 32 := by
  rw [Nat.div_lt_iff_lt_mul (by omega)]
  calc N / 2 < 2 ^ 63 := by omega
    _ = 2 ^ 32 * 2 ^ 31 := by norm_num
    _ ≤ 2 ^ 32 * v := Nat.mul_le_mul_left _ hv

/-- The estimate is never below the quotient. -/
theorem le_estimate {N d v P : Nat} (hD : 0 < v * P) (hlo : 2 * (v * P) ≤ d) :
    N / d ≤ N / 2 / (v * P) := by
  rw [Nat.le_div_iff_mul_le hD, Nat.le_div_iff_mul_le (by norm_num)]
  calc N / d * (v * P) * 2 = N / d * (2 * (v * P)) := by ring
    _ ≤ N / d * d := Nat.mul_le_mul_left _ hlo
    _ ≤ N := Nat.div_mul_le_self N d

/-- The estimate is at most one above the quotient. Were it two above, the part
`e` of the divisor below its top word would carry the quotient past the top word
`v`; then `k * d` passes `2^64`, for a divisor of more than 33 bits at once, and
for one of 33 bits because `e` must then be its low bit, set. -/
theorem estimate_le {N d v P : Nat} (hv : 2 ^ 31 ≤ v) (hP : 0 < P) (hlo : 2 * (v * P) ≤ d)
    (hhi : d < 2 * (v * P) + 2 * P) (hN : N < 2 ^ 64) :
    N / 2 / (v * P) ≤ N / d + 1 := by
  have hD : 0 < v * P := Nat.mul_pos (by omega) hP
  have hd : 0 < d := by omega
  by_contra hq
  set k := N / d with hkdef
  have h2 : (k + 2) * (v * P) * 2 ≤ N := by
    rw [← Nat.le_div_iff_mul_le (by norm_num), ← Nat.le_div_iff_mul_le hD]
    omega
  have hNk : N < (k + 1) * d := by
    have := Nat.lt_div_mul_add (a := N) hd
    rw [← hkdef] at this
    linarith
  have hkd : k * d ≤ N := Nat.div_mul_le_self N d
  obtain ⟨e, rfl⟩ : ∃ e, d = 2 * (v * P) + e := ⟨d - 2 * (v * P), by omega⟩
  have he : e < 2 * P := by omega
  have hcarry : 2 * (v * P) < (k + 1) * e := by
    have h := lt_of_le_of_lt h2 hNk
    linarith
  have hvk : v ≤ k := by
    have : v * (2 * P) < (k + 1) * (2 * P) :=
      calc v * (2 * P) = 2 * (v * P) := by ring
        _ < (k + 1) * e := hcarry
        _ ≤ (k + 1) * (2 * P) := Nat.mul_le_mul_left _ he.le
    have := Nat.lt_of_mul_lt_mul_right this
    omega
  have hbig : 2 ^ 64 ≤ k * (2 * (v * P) + e) := by
    rcases Nat.lt_or_ge P 2 with hP1 | hP2
    · obtain rfl : P = 1 := by omega
      have he1 : e = 1 := by
        rcases Nat.lt_or_ge e 1 with h0 | h1
        · obtain rfl : e = 0 := by omega
          simp at hcarry
        · omega
      subst he1
      have hk2 : 2 * v ≤ k := by
        simp only [Nat.mul_one] at hcarry
        omega
      calc 2 ^ 64 ≤ 2 ^ 32 * (2 ^ 32 + 1) := by norm_num
        _ ≤ 2 * v * (2 * v + 1) := Nat.mul_le_mul (by omega) (by omega)
        _ ≤ k * (2 * (v * 1) + 1) := Nat.mul_le_mul hk2 (by omega)
    · have hvP : 2 ^ 31 * 2 ≤ v * P := Nat.mul_le_mul hv hP2
      calc 2 ^ 64 = 2 ^ 31 * (2 * (2 ^ 31 * 2)) := by norm_num
        _ ≤ v * (2 * (v * P)) := Nat.mul_le_mul hv (by omega)
        _ ≤ k * (2 * (v * P) + e) := Nat.mul_le_mul hvk (by omega)
  omega

/-- An estimate that is the quotient or one more, and not zero, is corrected by
testing whether one less leaves a remainder below the divisor. -/
theorem correct_estimate {N d q : Nat} (hd : 0 < d) (hlo : N / d ≤ q) (hhi : q ≤ N / d + 1)
    (hq : 0 < q) :
    (if N - (q - 1) * d < d then q - 1 else q) = N / d := by
  have hkd : N / d * d ≤ N := Nat.div_mul_le_self N d
  rcases Nat.eq_or_lt_of_le hlo with heq | hlt
  · -- the estimate is exact: one less leaves at least a divisor over
    rw [← heq]
    have hle : (N / d - 1) * d + d ≤ N := by
      calc (N / d - 1) * d + d = N / d * d := by
            rw [← Nat.succ_mul, Nat.succ_eq_add_one, Nat.sub_add_cancel (by omega)]
        _ ≤ N := hkd
    rw [if_neg (by omega)]
  · -- the estimate is one over: one less is the quotient
    have heq : q = N / d + 1 := by omega
    subst heq
    have hrem : N - N / d * d < d := by
      have := Nat.lt_div_mul_add (a := N) hd
      omega
    rw [Nat.add_sub_cancel, if_pos hrem]

end LongDivision

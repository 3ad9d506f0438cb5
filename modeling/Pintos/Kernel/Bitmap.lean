import Mathlib

/-!
# Bitmaps (`lib/kernel/bitmap.c`)

A bitmap is `bit_cnt` bits stored in an array of `elem_type` words, bit `i` at
bit `i % ELEM_BITS` of word `i / ELEM_BITS`. On the i386 target `elem_type`,
`unsigned long`, has 32 bits. The words past the last bit hold whatever the
storage held: nothing reads them.

`bitmap_test` reads a word through `bit_mask` (`Bitmap.test_eq_getLsbD`), and
`bitmap_mark` and `bitmap_reset` change exactly the bit they name
(`Bitmap.test_mark`, `Bitmap.test_reset`), so `bitmap_set_multiple` sets exactly
its range (`Bitmap.test_setMultiple`). `bitmap_scan` is a first fit: it returns
the lowest start at or after `start` of a window of `cnt` bits of the value
asked for, or `BITMAP_ERROR` (`none`) when no window exists
(`Bitmap.scan_some`, `Bitmap.scan_none`).

An `ASSERT` that fails halts the kernel. `bitmap_contains` and `bitmap_all`
assert their range, and their callers rely on it: they return `none` when it
fails. The assertions of `bitmap_set`, `bitmap_test`, `bitmap_set_multiple` and
`bitmap_scan` follow at every call from the assertion or the loop bound of the
caller, and are left out.
-/

namespace Pintos.Kernel

/-- `ELEM_BITS`: the bits of an `elem_type`. -/
def elemBits : Nat := 32

/-- `elem_idx`: the word that holds bit `bitIdx`. -/
def elemIdx (bitIdx : Nat) : Nat := bitIdx / elemBits

/-- `bit_mask`: the word with only bit `bitIdx`'s position set. -/
def bitMask (bitIdx : Nat) : BitVec 32 := 1#32 <<< (bitIdx % elemBits)

/-- `elem_cnt`: the words needed for `bitCnt` bits, `DIV_ROUND_UP`. -/
def elemCnt (bitCnt : Nat) : Nat := (bitCnt + elemBits - 1) / elemBits

/-- `byte_cnt`: the bytes of those words. -/
def byteCnt (bitCnt : Nat) : Nat := 4 * elemCnt bitCnt

/-- `bitmap_buf_size`: `sizeof (struct bitmap)`, a count and a pointer, and the
words. -/
def bitmapBufSize (bitCnt : Nat) : Nat := 8 + byteCnt bitCnt

/-- `struct bitmap`: the number of bits and the words. -/
structure Bitmap where
  bitCnt : Nat
  bits : Nat → BitVec 32

namespace Bitmap

/-- `bitmap_test`. -/
def test (b : Bitmap) (idx : Nat) : Bool := (b.bits (elemIdx idx) &&& bitMask idx) != 0

/-- `bitmap_mark`: or the mask into the word. -/
def mark (b : Bitmap) (bitIdx : Nat) : Bitmap :=
  let idx := elemIdx bitIdx
  { b with bits := Function.update b.bits idx (b.bits idx ||| bitMask bitIdx) }

/-- `bitmap_reset`: and the complement of the mask into the word. -/
def reset (b : Bitmap) (bitIdx : Nat) : Bitmap :=
  let idx := elemIdx bitIdx
  { b with bits := Function.update b.bits idx (b.bits idx &&& ~~~bitMask bitIdx) }

/-- `bitmap_set`. -/
def set (b : Bitmap) (idx : Nat) (value : Bool) : Bitmap :=
  if value then b.mark idx else b.reset idx

/-- `bitmap_set_multiple`: `bitmap_set` on each of the `cnt` bits from `start`,
in order. -/
def setMultiple (b : Bitmap) (start cnt : Nat) (value : Bool) : Bitmap :=
  (List.range cnt).foldl (fun b i => b.set (start + i) value) b

/-- `bitmap_set_all`. -/
def setAll (b : Bitmap) (value : Bool) : Bitmap := b.setMultiple 0 b.bitCnt value

/-- `bitmap_contains`: whether one of the `cnt` bits from `start` is `value`;
`none` when the range runs past the bitmap. -/
def contains (b : Bitmap) (start cnt : Nat) (value : Bool) : Option Bool :=
  if start + cnt ≤ b.bitCnt then some ((List.range cnt).any fun i => b.test (start + i) == value)
  else none

/-- `bitmap_all`: whether every one of the `cnt` bits from `start` is set. -/
def all (b : Bitmap) (start cnt : Nat) : Option Bool := (b.contains start cnt false).map (!·)

/-- `bitmap_scan`: the first `i` from `start` up to `bit_cnt - cnt` whose `cnt`
bits contain no `!value`; `none` is `BITMAP_ERROR`. -/
def scan (b : Bitmap) (start cnt : Nat) (value : Bool) : Option Nat :=
  if cnt ≤ b.bitCnt then
    (List.range' start (b.bitCnt - cnt + 1 - start)).find? fun i =>
      b.contains i cnt (!value) == some false
  else none

/-- `bitmap_scan_and_flip`: the window `bitmap_scan` finds, flipped to `!value`. -/
def scanAndFlip (b : Bitmap) (start cnt : Nat) (value : Bool) : Bitmap × Option Nat :=
  match b.scan start cnt value with
  | none => (b, none)
  | some idx => (b.setMultiple idx cnt (!value), some idx)

/-- `bitmap_create_in_buf`: `bitCnt` bits in storage holding `mem`, all cleared. -/
def createInBuf (bitCnt : Nat) (mem : Nat → BitVec 32) : Bitmap :=
  (Bitmap.mk bitCnt mem).setAll false

/-- The `cnt` bits from `start` are all `value`. -/
def Window (b : Bitmap) (start cnt : Nat) (value : Bool) : Prop :=
  ∀ k < cnt, b.test (start + k) = value

instance (b : Bitmap) (start cnt : Nat) (value : Bool) : Decidable (b.Window start cnt value) :=
  inferInstanceAs (Decidable (∀ k < cnt, _))

/-! ## Bits through words -/

theorem and_bitMask (w : BitVec 32) (i : Nat) :
    (w &&& bitMask i != 0) = w.getLsbD (i % elemBits) := by
  have hlt : i % elemBits < 32 := Nat.mod_lt _ (by decide)
  show (w &&& BitVec.twoPow 32 (i % elemBits) != 0) = _
  rw [BitVec.and_twoPow]
  split
  · rename_i h
    have hne : BitVec.twoPow 32 (i % elemBits) ≠ 0#32 := fun h0 => by
      have := congrArg BitVec.toNat h0
      rw [BitVec.toNat_twoPow_of_lt hlt] at this
      simp at this
    simp [hne, h]
  · rename_i h
    simp [h]

theorem test_eq_getLsbD (b : Bitmap) (idx : Nat) :
    b.test idx = (b.bits (elemIdx idx)).getLsbD (idx % elemBits) :=
  and_bitMask _ _

theorem getLsbD_bitMask (i j : Nat) :
    (bitMask i).getLsbD (j % elemBits) = decide (i % elemBits = j % elemBits) := by
  show (BitVec.twoPow 32 (i % elemBits)).getLsbD _ = _
  rw [BitVec.getLsbD_twoPow]
  have : i % elemBits < 32 := Nat.mod_lt _ (by decide)
  simp [this]

/-- Two bits share a word and a position in it only if they are one bit. -/
theorem eq_of_elemIdx_eq {i j : Nat} (hw : elemIdx i = elemIdx j)
    (hb : i % elemBits = j % elemBits) : i = j := by
  unfold elemIdx elemBits at *
  omega

@[simp] theorem mark_bitCnt (b : Bitmap) (i : Nat) : (b.mark i).bitCnt = b.bitCnt := rfl

@[simp] theorem reset_bitCnt (b : Bitmap) (i : Nat) : (b.reset i).bitCnt = b.bitCnt := rfl

@[simp] theorem set_bitCnt (b : Bitmap) (i : Nat) (v : Bool) : (b.set i v).bitCnt = b.bitCnt := by
  unfold set
  split <;> rfl

@[simp] theorem setMultiple_bitCnt (b : Bitmap) (s c : Nat) (v : Bool) :
    (b.setMultiple s c v).bitCnt = b.bitCnt := by
  unfold setMultiple
  induction List.range c generalizing b with
  | nil => rfl
  | cons i l ih => simp [List.foldl_cons, ih]

theorem test_mark (b : Bitmap) (i j : Nat) : (b.mark i).test j = (decide (i = j) || b.test j) := by
  rw [test_eq_getLsbD, test_eq_getLsbD]
  simp only [mark, Function.update_apply]
  split
  · rename_i hw
    rw [BitVec.getLsbD_or, getLsbD_bitMask, hw]
    by_cases hij : i = j
    · simp [hij]
    · have : i % elemBits ≠ j % elemBits := fun hb => hij (eq_of_elemIdx_eq hw.symm hb)
      simp [hij, this]
  · rename_i hw
    have : i ≠ j := fun h => hw (h ▸ rfl)
    simp [this]

theorem test_reset (b : Bitmap) (i j : Nat) :
    (b.reset i).test j = (!decide (i = j) && b.test j) := by
  rw [test_eq_getLsbD, test_eq_getLsbD]
  simp only [reset, Function.update_apply]
  split
  · rename_i hw
    rw [BitVec.getLsbD_and, BitVec.getLsbD_not, getLsbD_bitMask, hw]
    have hlt : j % elemBits < 32 := Nat.mod_lt _ (by decide)
    by_cases hij : i = j
    · simp [hij]
    · have : i % elemBits ≠ j % elemBits := fun hb => hij (eq_of_elemIdx_eq hw.symm hb)
      simp [hij, this, hlt]
  · rename_i hw
    have : i ≠ j := fun h => hw (h ▸ rfl)
    simp [this]

theorem test_set (b : Bitmap) (i j : Nat) (v : Bool) :
    (b.set i v).test j = if i = j then v else b.test j := by
  unfold set
  cases v <;> by_cases h : i = j <;> simp [test_mark, test_reset, h]

/-- `bitmap_set_multiple` sets its range and leaves every other bit. -/
theorem test_setMultiple (b : Bitmap) (s c j : Nat) (v : Bool) :
    (b.setMultiple s c v).test j = if s ≤ j ∧ j < s + c then v else b.test j := by
  induction c with
  | zero =>
    simp only [setMultiple, List.range_zero, List.foldl_nil]
    split_ifs <;> first | rfl | omega
  | succ c ih =>
    have hstep : b.setMultiple s (c + 1) v = (b.setMultiple s c v).set (s + c) v := by
      simp [setMultiple, List.range_succ, List.foldl_append]
    rw [hstep, test_set, ih]
    by_cases h : s + c = j
    · simp only [h, ↓reduceIte]
      split_ifs <;> first | rfl | omega
    · simp only [h, ↓reduceIte]
      split_ifs <;> first | rfl | omega

@[simp] theorem createInBuf_bitCnt (n : Nat) (mem : Nat → BitVec 32) :
    (createInBuf n mem).bitCnt = n := by
  simp [createInBuf, setAll]

/-- `bitmap_create_in_buf` clears every bit. -/
theorem test_createInBuf {n i : Nat} (mem : Nat → BitVec 32) (hi : i < n) :
    (createInBuf n mem).test i = false := by
  simp [createInBuf, setAll, test_setMultiple, hi]

theorem contains_of_le {b : Bitmap} {s c : Nat} (v : Bool) (h : s + c ≤ b.bitCnt) :
    b.contains s c v = some (decide (∃ k < c, b.test (s + k) = v)) := by
  rw [contains, if_pos h, Option.some.injEq, Bool.eq_iff_iff]
  simp

theorem contains_eq_some_false {b : Bitmap} {s c : Nat} {v : Bool} :
    b.contains s c v = some false ↔ s + c ≤ b.bitCnt ∧ b.Window s c (!v) := by
  unfold contains Window
  split
  · rename_i h
    simp [h, Bool.eq_not]
  · rename_i h
    simp [h]

theorem all_eq_some_true {b : Bitmap} {s c : Nat} :
    b.all s c = some true ↔ s + c ≤ b.bitCnt ∧ b.Window s c true := by
  rw [all, Option.map_eq_some_iff]
  constructor
  · rintro ⟨x, hx, hx'⟩
    obtain rfl : x = false := by simpa using hx'
    exact contains_eq_some_false.mp hx
  · intro h
    exact ⟨false, contains_eq_some_false.mpr h, rfl⟩

/-- `bitmap_scan` returns the first window of `value` at or after `start`. -/
theorem scan_some {b : Bitmap} {start cnt i : Nat} {value : Bool}
    (h : b.scan start cnt value = some i) :
    start ≤ i ∧ i + cnt ≤ b.bitCnt ∧ b.Window i cnt value ∧
      ∀ j, start ≤ j → j < i → ¬ b.Window j cnt value := by
  unfold scan at h
  split at h
  · rename_i hc
    obtain ⟨hi, hmem, hmin⟩ := List.find?_range'_eq_some.mp h
    simp only [beq_iff_eq, contains_eq_some_false, Bool.not_not] at hi
    rw [List.mem_range'_1] at hmem
    refine ⟨hmem.1, hi.1, hi.2, fun j hj hji hw => ?_⟩
    have hne : b.contains j cnt (!value) ≠ some false := by simpa using hmin j hj hji
    exact hne (contains_eq_some_false.mpr ⟨by omega, by simpa using hw⟩)
  · cases h

/-- `bitmap_scan` fails only when no window of `value` lies at or after `start`. -/
theorem scan_none {b : Bitmap} {start cnt : Nat} {value : Bool}
    (h : b.scan start cnt value = none) :
    ∀ j, start ≤ j → j + cnt ≤ b.bitCnt → ¬ b.Window j cnt value := by
  intro j hj hjc hw
  unfold scan at h
  split at h
  · have hne : b.contains j cnt (!value) ≠ some false := by
      simpa using List.find?_range'_eq_none.mp h j hj (by omega)
    exact hne (contains_eq_some_false.mpr ⟨hjc, by simpa using hw⟩)
  · omega

end Bitmap

end Pintos.Kernel

import Mathlib

/-!
# Little-endian words in byte memory

A memory is a function from addresses to bytes. `getWord m a` reads the 32-bit
little-endian word at `a` and `setWord m a v` stores the low 32 bits of `v`
there; `copy` is `memcpy` and `read` the bytes a `memcpy` out of the memory
returns. A load after a store sees the stored value at the same address
(`getWord_setWord_hit`) and the old one at a disjoint address
(`getWord_setWord_miss`); storing the word that is already there changes
nothing (`setWord_getWord`).

`update m a v` stores one value of any type, a sector or a heap object. It is
`Function.update` (`update_eq`) written without its cast, so that evaluating a
run compares addresses by their values.
-/

namespace Bytes

/-- `m` with `v` at `a`. -/
def update {α : Type} (m : Nat → α) (a : Nat) (v : α) : Nat → α := fun i =>
  if i = a then v else m i

theorem update_eq {α : Type} (m : Nat → α) (a : Nat) (v : α) :
    update m a v = Function.update m a v := by
  funext i
  simp only [update, Function.update_apply]

/-- The little-endian 32-bit word at `a`. -/
def getWord (m : Nat → UInt8) (a : Nat) : Nat :=
  (m a).toNat + 256 * ((m (a + 1)).toNat + 256 * ((m (a + 2)).toNat + 256 * (m (a + 3)).toNat))

/-- Store the low 32 bits of `v` little-endian at `a`. -/
def setWord (m : Nat → UInt8) (a v : Nat) : Nat → UInt8 := fun i =>
  if a ≤ i ∧ i < a + 4 then UInt8.ofNat (v / 256 ^ (i - a)) else m i

/-- `memcpy (m + a, src, n)`. -/
def copy (m : Nat → UInt8) (a : Nat) (src : Nat → UInt8) (n : Nat) : Nat → UInt8 := fun i =>
  if a ≤ i ∧ i < a + n then src (i - a) else m i

/-- The `n` bytes from `a`. -/
def read (m : Nat → UInt8) (a n : Nat) : List UInt8 := (List.range n).map fun i => m (a + i)

theorem getWord_lt (m : Nat → UInt8) (a : Nat) : getWord m a < 2 ^ 32 := by
  have h0 := (m a).toNat_lt
  have h1 := (m (a + 1)).toNat_lt
  have h2 := (m (a + 2)).toNat_lt
  have h3 := (m (a + 3)).toNat_lt
  unfold getWord
  omega

theorem setWord_apply_of_lt {m : Nat → UInt8} {a v i : Nat} (h : i < a) :
    setWord m a v i = m i := by
  simp only [setWord]
  rw [if_neg (by omega)]

theorem setWord_apply_of_ge {m : Nat → UInt8} {a v i : Nat} (h : a + 4 ≤ i) :
    setWord m a v i = m i := by
  simp only [setWord]
  rw [if_neg (by omega)]

theorem getWord_setWord_hit (m : Nat → UInt8) (a : Nat) {v : Nat} (hv : v < 2 ^ 32) :
    getWord (setWord m a v) a = v := by
  simp only [getWord, setWord]
  simp only [Nat.le_refl, Nat.le_add_right, true_and, Nat.add_sub_cancel_left, Nat.sub_self]
  simp only [show a < a + 4 by omega, show a + 1 < a + 4 by omega, show a + 2 < a + 4 by omega,
    show a + 3 < a + 4 by omega, if_true, UInt8.toNat_ofNat']
  omega

theorem getWord_setWord_miss (m : Nat → UInt8) {a b : Nat} (v : Nat)
    (h : a + 4 ≤ b ∨ b + 4 ≤ a) : getWord (setWord m a v) b = getWord m b := by
  rcases h with h | h
  · unfold getWord
    rw [setWord_apply_of_ge h, setWord_apply_of_ge (by omega), setWord_apply_of_ge (by omega),
      setWord_apply_of_ge (by omega)]
  · unfold getWord
    rw [setWord_apply_of_lt (by omega), setWord_apply_of_lt (by omega),
      setWord_apply_of_lt (by omega), setWord_apply_of_lt (by omega)]

theorem copy_apply_of_lt {m src : Nat → UInt8} {a n i : Nat} (h : i < a) :
    copy m a src n i = m i := by
  simp only [copy]
  rw [if_neg (by omega)]

theorem copy_apply_of_ge {m src : Nat → UInt8} {a n i : Nat} (h : a + n ≤ i) :
    copy m a src n i = m i := by
  simp only [copy]
  rw [if_neg (by omega)]

theorem copy_apply_add {m src : Nat → UInt8} {a n j : Nat} (h : j < n) :
    copy m a src n (a + j) = src j := by
  simp only [copy]
  rw [if_pos (by omega), Nat.add_sub_cancel_left]

/-- Storing the word a memory already holds leaves it as it was. -/
theorem setWord_getWord (m : Nat → UInt8) (a : Nat) : setWord m a (getWord m a) = m := by
  funext i
  by_cases hi : a ≤ i ∧ i < a + 4
  · obtain ⟨k, hk, rfl⟩ : ∃ k < 4, i = a + k := ⟨i - a, by omega, by omega⟩
    have h0 := (m a).toNat_lt
    have h1 := (m (a + 1)).toNat_lt
    have h2 := (m (a + 2)).toNat_lt
    have h3 := (m (a + 3)).toNat_lt
    simp only [setWord, if_pos hi, Nat.add_sub_cancel_left]
    apply UInt8.toNat_inj.mp
    rw [UInt8.toNat_ofNat']
    unfold getWord
    rcases (by omega : k = 0 ∨ k = 1 ∨ k = 2 ∨ k = 3) with rfl | rfl | rfl | rfl <;> simp <;> omega
  · simp only [setWord, if_neg hi]

/-- A `memcpy` of no bytes changes nothing. -/
theorem copy_zero (m src : Nat → UInt8) (a : Nat) : copy m a src 0 = m := by
  funext i
  simp only [copy]
  rw [if_neg (by omega)]

/-- Storing the next byte of the source extends a copy by one byte. -/
theorem update_copy (m src : Nat → UInt8) (a n : Nat) :
    update (copy m a src n) (a + n) (src n) = copy m a src (n + 1) := by
  funext i
  simp only [update, copy]
  by_cases hi : i = a + n
  · subst hi
    rw [if_pos rfl, if_pos (by omega), Nat.add_sub_cancel_left]
  · rw [if_neg hi]
    by_cases hr : a ≤ i ∧ i < a + n
    · rw [if_pos hr, if_pos (by omega)]
    · rw [if_neg hr, if_neg (by omega)]

theorem update_apply_self {α : Type} (m : Nat → α) (a : Nat) (v : α) : update m a v a = v := by
  simp only [update, if_true]

theorem update_apply_of_ne {α : Type} {m : Nat → α} {a i : Nat} {v : α} (h : i ≠ a) :
    update m a v i = m i := by
  simp only [update]
  rw [if_neg h]

/-- Reads where two memories agree see the same bytes. -/
theorem read_congr {m m' : Nat → UInt8} {a n : Nat} (h : ∀ j < n, m' (a + j) = m (a + j)) :
    read m' a n = read m a n := by
  unfold read
  apply List.map_congr_left
  intro j hj
  exact h j (List.mem_range.mp hj)

theorem read_copy (m src : Nat → UInt8) (a n : Nat) :
    read (copy m a src n) a n = (List.range n).map src := by
  unfold read
  apply List.map_congr_left
  intro j hj
  exact copy_apply_add (List.mem_range.mp hj)

theorem read_add (m : Nat → UInt8) (a n k : Nat) :
    read m a (n + k) = read m a n ++ read m (a + n) k := by
  simp only [read, List.range_add, List.map_append, List.map_map]
  congr 1
  apply List.map_congr_left
  intro j _
  simp only [Function.comp, Nat.add_assoc]

theorem copy_apply {m src : Nat → UInt8} {a n i : Nat} (h : a ≤ i) (h' : i < a + n) :
    copy m a src n i = src (i - a) := by
  simp only [copy]
  rw [if_pos ⟨h, h'⟩]

/-- A read sees a list of its length when every byte is the list's. -/
theorem read_eq_of_getD {m : Nat → UInt8} {a n : Nat} {l : List UInt8} (hn : l.length = n)
    (h : ∀ j < n, m (a + j) = l.getD j 0) : read m a n = l := by
  subst hn
  apply List.ext_getElem (by simp [read])
  intro j hj hj'
  simp only [read, List.getElem_map, List.getElem_range]
  rw [h j hj', List.getD_eq_getElem?_getD, List.getElem?_eq_getElem hj', Option.getD_some]

/-- Padding a list with its default value changes none of its bytes. -/
theorem getD_append_replicate {α : Type} (l : List α) (d : α) (k j : Nat) :
    (l ++ List.replicate k d).getD j d = l.getD j d := by
  simp only [List.getD_eq_getElem?_getD]
  by_cases hj : j < l.length
  · rw [List.getElem?_append_left hj]
  · rw [List.getElem?_append_right (by omega), List.getElem?_replicate,
      List.getElem?_eq_none (by omega)]
    split <;> rfl

end Bytes

import Pintos.Lib.Bytes

/-!
# Ring buffers

A ring of `cap` slots indexed modulo `cap`, whose `head` is the slot before the
front item and whose `tail` is the slot of the last one, so that the ring is
empty when `head = tail`, and one slot is always left free, so that it is full
when `head = (tail + 1) % cap`. `count` is the number of items between them
and `items` reads them from the front. Pushing stores at `(tail + 1) % cap` and
popping reads at `(head + 1) % cap`; `items_push` and `items_pop` say that these
are the queue's operations, and `items_count_push` and `items_count_pop` say it
of the items between `head` and `tail`.

Every index is below `cap`, so a sum of an index and an offset up to `cap`
wraps at most once (`add_mod_of_le`): the lemmas split on the wrap and close by
`omega`.
-/

namespace RingBuffer

variable {α : Type} {cap head tail : Nat}

/-- A sum of an index and an offset of at most `cap` wraps at most once. -/
theorem add_mod_of_le {a b : Nat} (ha : a < cap) (hb : b ≤ cap) :
    (a + b) % cap = if a + b < cap then a + b else a + b - cap := by
  split
  · exact Nat.mod_eq_of_lt ‹_›
  · rw [Nat.mod_eq_sub_mod (by omega), Nat.mod_eq_of_lt (by omega)]

/-- The number of items between `head` and `tail`. -/
def count (cap head tail : Nat) : Nat := (tail + cap - head) % cap

/-- `count` without the modulus. -/
theorem count_eq (hh : head < cap) (ht : tail < cap) :
    count cap head tail = if head ≤ tail then tail - head else tail + cap - head := by
  unfold count
  split
  · rw [show tail + cap - head = tail - head + cap by omega, Nat.add_mod_right,
      Nat.mod_eq_of_lt (by omega)]
  · exact Nat.mod_eq_of_lt (by omega)

theorem count_lt (hh : head < cap) (ht : tail < cap) : count cap head tail < cap := by
  rw [count_eq hh ht]
  split <;> omega

theorem count_eq_zero_iff (hh : head < cap) (ht : tail < cap) :
    count cap head tail = 0 ↔ head = tail := by
  rw [count_eq hh ht]
  split <;> omega

/-- The slot after an index: the next one, or `0` past the last. -/
theorem succ_mod {i : Nat} (hi : i < cap) :
    (i + 1) % cap = i + 1 ∧ i + 1 < cap ∨ (i + 1) % cap = 0 ∧ i + 1 = cap := by
  rw [add_mod_of_le hi (by omega)]
  split <;> omega

/-- The ring is full when it holds `cap - 1` items. -/
theorem full_iff (hh : head < cap) (ht : tail < cap) :
    head = (tail + 1) % cap ↔ count cap head tail + 1 = cap := by
  rw [count_eq hh ht]
  rcases succ_mod ht with ⟨hs, hlt⟩ | ⟨hs, heq⟩
  · rw [hs]
    split <;> omega
  · rw [hs]
    split <;> omega

/-- Pushing onto a ring that is not full adds one item. -/
theorem count_push (hh : head < cap) (ht : tail < cap) (hfull : head ≠ (tail + 1) % cap) :
    count cap head ((tail + 1) % cap) = count cap head tail + 1 := by
  rw [count_eq hh (Nat.mod_lt _ (by omega)), count_eq hh ht]
  rcases succ_mod ht with ⟨hs, hlt⟩ | ⟨hs, heq⟩
  · rw [hs] at hfull ⊢
    split <;> split <;> omega
  · rw [hs] at hfull ⊢
    split <;> split <;> omega

/-- Popping from a ring that is not empty removes one item. -/
theorem count_pop (hh : head < cap) (ht : tail < cap) (hne : head ≠ tail) :
    count cap ((head + 1) % cap) tail + 1 = count cap head tail := by
  rw [count_eq (Nat.mod_lt _ (by omega)) ht, count_eq hh ht]
  rcases succ_mod hh with ⟨hs, hlt⟩ | ⟨hs, heq⟩
  · rw [hs]
    split <;> split <;> omega
  · rw [hs]
    split <;> split <;> omega

/-- The tail is `count` slots after the head. -/
theorem add_count_mod (hh : head < cap) (ht : tail < cap) :
    (head + count cap head tail) % cap = tail := by
  rw [count_eq hh ht]
  split
  · rw [show head + (tail - head) = tail by omega, Nat.mod_eq_of_lt ht]
  · rw [show head + (tail + cap - head) = tail + cap by omega, Nat.add_mod_right,
      Nat.mod_eq_of_lt ht]

/-- The `n` items of the ring after slot `head`, front first. -/
def items (buf : Nat → α) (cap head : Nat) : Nat → List α
  | 0 => []
  | n + 1 => items buf cap head n ++ [buf ((head + 1 + n) % cap)]

@[simp] theorem length_items (buf : Nat → α) (cap head n : Nat) :
    (items buf cap head n).length = n := by
  induction n with
  | zero => rfl
  | succ n ih => simp [items, ih]

/-- A store at a slot that holds none of the items leaves them as they are. -/
theorem items_update_of_ne (buf : Nat → α) (i : Nat) (v : α) {n : Nat}
    (hne : ∀ k < n, i ≠ (head + 1 + k) % cap) :
    items (Bytes.update buf i v) cap head n = items buf cap head n := by
  induction n with
  | zero => rfl
  | succ n ih =>
    simp only [items]
    rw [ih (fun k hk => hne k (by omega)), Bytes.update, if_neg (Ne.symm (hne n (by omega)))]

/-- Storing in the slot after the last item appends it. -/
theorem items_push (buf : Nat → α) (v : α) {n : Nat} (hh : head < cap) (hn : n + 1 < cap) :
    items (Bytes.update buf ((head + 1 + n) % cap) v) cap head (n + 1) =
      items buf cap head n ++ [v] := by
  simp only [items]
  have hne : ∀ k < n, (head + 1 + n) % cap ≠ (head + 1 + k) % cap := by
    intro k hk
    rw [Nat.add_assoc head 1 n, Nat.add_assoc head 1 k, add_mod_of_le hh (by omega),
      add_mod_of_le hh (by omega)]
    split <;> split <;> omega
  rw [items_update_of_ne buf _ v hne, Bytes.update, if_pos rfl]

/-- The front item is in the slot after `head`, and the rest follow the new
head. -/
theorem items_pop (buf : Nat → α) (n : Nat) :
    items buf cap head (n + 1) =
      buf ((head + 1) % cap) :: items buf cap ((head + 1) % cap) n := by
  induction n with
  | zero => simp [items]
  | succ n ih =>
    rw [items, ih, items, List.cons_append]
    congr 3
    rw [Nat.add_assoc ((head + 1) % cap), Nat.mod_add_mod, Nat.add_comm 1 n]

/-- Popping from a ring that is not empty takes its front item. -/
theorem items_count_pop (buf : Nat → α) (hh : head < cap) (ht : tail < cap) (hne : head ≠ tail) :
    items buf cap head (count cap head tail) =
      buf ((head + 1) % cap) :: items buf cap ((head + 1) % cap) (count cap ((head + 1) % cap) tail) := by
  rw [← count_pop hh ht hne, items_pop]

/-- Pushing onto a ring that is not full appends the item. -/
theorem items_count_push (buf : Nat → α) (v : α) (hh : head < cap) (ht : tail < cap)
    (hnf : head ≠ (tail + 1) % cap) :
    items (Bytes.update buf ((tail + 1) % cap) v) cap head (count cap head ((tail + 1) % cap)) =
      items buf cap head (count cap head tail) ++ [v] := by
  -- the ring is not full, so it has a free slot besides the one left empty
  have hroom : count cap head tail + 1 < cap := by
    have hlt := count_lt hh ht
    have hfull := (full_iff hh ht).not.mp hnf
    omega
  have htail : (tail + 1) % cap = (head + 1 + count cap head tail) % cap := by
    calc (tail + 1) % cap = ((head + count cap head tail) % cap + 1) % cap := by
          rw [add_count_mod hh ht]
      _ = (head + 1 + count cap head tail) % cap := by
          rw [Nat.mod_add_mod, Nat.add_right_comm]
  rw [count_push hh ht hnf, htail, items_push _ _ hh hroom]

end RingBuffer

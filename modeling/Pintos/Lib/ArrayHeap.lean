import Mathlib

/-!
# Binary heaps in an array, and heap sort

The classic layout puts a tree on the first `n` elements of an array
`a : Nat → α`. Its nodes are the indices `1` to `n`. Index `k` holds `a (k - 1)`,
its parent is `k / 2`, and its children are `2 k` and `2 k + 1`. Under a total
preorder `le`, the tree is a heap from `lo` (`Ordered`) when every child whose
parent is at `lo` or above is `le` its parent.

Floating an element down keeps `DownOrder`: the tree is ordered except at the
`hole` where the element now is, and the hole's children are below the hole's
parent. Swapping the hole with its larger child moves the hole down
(`DownOrder.swap`), and a hole at least its children leaves a heap
(`DownOrder.finish`). The root of a heap is its largest element
(`Ordered.le_root`).

Heap sort keeps `SortInv`: a heap in front of a sorted suffix, each element of
which is at least every element of the heap. Moving the root to the end of the
heap and restoring the heap keeps it (`SortInv.step`).

`PermPrefix a b n` says that `b` is `a` with only its first `n` elements
permuted. A `strcmp`-type comparison of a total preorder is `Cmp.TotalPreorder`.
-/

namespace Cmp

variable {α : Type}

/-- `compare` returns a `strcmp`-type result for a total preorder:
`compare a b ≤ 0` is transitive, and `compare a b` is negative exactly when
`compare b a` is positive. -/
structure TotalPreorder (compare : α → α → Int) : Prop where
  trans : ∀ a b c, compare a b ≤ 0 → compare b c ≤ 0 → compare a c ≤ 0
  lt_iff : ∀ a b, compare a b < 0 ↔ 0 < compare b a

variable {compare : α → α → Int} (h : TotalPreorder compare) {a b c : α}
include h

theorem TotalPreorder.le_of_not_lt (hab : ¬compare a b < 0) : compare b a ≤ 0 := by
  by_contra hba
  exact hab ((h.lt_iff a b).mpr (by omega))

theorem TotalPreorder.refl (a : α) : compare a a ≤ 0 := by
  by_cases ha : compare a a < 0
  · exact absurd ((h.lt_iff a a).mp ha) (by omega)
  · exact h.le_of_not_lt ha

theorem TotalPreorder.le_of_pos (hab : 0 < compare a b) : compare b a ≤ 0 :=
  Int.le_of_lt ((h.lt_iff b a).mpr hab)

theorem TotalPreorder.lt_of_lt_of_le (hab : compare a b < 0) (hbc : compare b c ≤ 0) :
    compare a c < 0 := by
  by_contra hac
  have hba := h.trans b c a hbc (h.le_of_not_lt hac)
  have := (h.lt_iff a b).mp hab
  omega

theorem TotalPreorder.lt_of_le_of_lt (hab : compare a b ≤ 0) (hbc : compare b c < 0) :
    compare a c < 0 := by
  by_contra hac
  have hcb := h.trans c a b (h.le_of_not_lt hac) hab
  have := (h.lt_iff b c).mp hbc
  omega

theorem TotalPreorder.isTrans : IsTrans α fun a b => compare a b ≤ 0 :=
  ⟨h.trans⟩

theorem TotalPreorder.total : Std.Total fun a b : α => compare a b ≤ 0 := by
  constructor
  intro a b
  by_cases hab : compare a b ≤ 0
  · exact .inl hab
  · exact .inr (h.le_of_pos (by omega))

end Cmp

namespace ArrayHeap

variable {α : Type}

section Perm

/-- `b` is `a` with its first `n` elements permuted and the others kept. -/
structure PermPrefix (a b : Nat → α) (n : Nat) : Prop where
  perm : ∀ N, n ≤ N → ((List.range N).map b).Perm ((List.range N).map a)
  frame : ∀ p, n ≤ p → b p = a p

theorem PermPrefix.refl (a : Nat → α) (n : Nat) : PermPrefix a a n :=
  ⟨fun _ _ => List.Perm.refl _, fun _ _ => rfl⟩

theorem PermPrefix.trans {a b c : Nat → α} {n : Nat} (hab : PermPrefix a b n)
    (hbc : PermPrefix b c n) : PermPrefix a c n :=
  ⟨fun N hN => (hbc.perm N hN).trans (hab.perm N hN),
    fun p hp => (hbc.frame p hp).trans (hab.frame p hp)⟩

theorem PermPrefix.mono {a b : Nat → α} {n n' : Nat} (h : PermPrefix a b n) (hn : n ≤ n') :
    PermPrefix a b n' :=
  ⟨fun N hN => h.perm N (Nat.le_trans hn hN), fun p hp => h.frame p (Nat.le_trans hn hp)⟩

theorem swap_lt {i j n q : Nat} (hi : i < n) (hj : j < n) (hq : q < n) :
    Equiv.swap i j q < n := by
  rw [Equiv.swap_apply_def]
  split_ifs <;> omega

theorem perm_range_swap {i j n : Nat} (hi : i < n) (hj : j < n) :
    ((List.range n).map (Equiv.swap i j)).Perm (List.range n) := by
  apply (List.perm_ext_iff_of_nodup (List.nodup_range.map (Equiv.swap i j).injective)
    List.nodup_range).mpr
  intro x
  simp only [List.mem_map, List.mem_range]
  constructor
  · rintro ⟨y, hy, rfl⟩
    exact swap_lt hi hj hy
  · intro hx
    exact ⟨Equiv.swap i j x, swap_lt hi hj hx, Equiv.swap_apply_self i j x⟩

/-- Swapping two of the first `n` elements permutes them. -/
theorem PermPrefix.swap (a : Nat → α) {i j n : Nat} (hi : i < n) (hj : j < n) :
    PermPrefix a (a ∘ Equiv.swap i j) n := by
  refine ⟨fun N hN => ?_, fun p hp => ?_⟩
  · rw [← List.map_map]
    exact (perm_range_swap (Nat.lt_of_lt_of_le hi hN) (Nat.lt_of_lt_of_le hj hN)).map a
  · simp [Equiv.swap_apply_of_ne_of_ne (show p ≠ i by omega) (show p ≠ j by omega)]

/-- Each of the first `n` elements of `b` is one of the first `n` of `a`. -/
theorem PermPrefix.exists_eq {a b : Nat → α} {n : Nat} (h : PermPrefix a b n) {p : Nat}
    (hp : p < n) : ∃ q < n, b p = a q := by
  have hmem : b p ∈ (List.range n).map a :=
    (h.perm n (Nat.le_refl n)).mem_iff.mp (List.mem_map_of_mem (List.mem_range.mpr hp))
  obtain ⟨q, hq, hpq⟩ := List.mem_map.mp hmem
  exact ⟨q, List.mem_range.mp hq, hpq.symm⟩

end Perm

section Layout

variable (le : α → α → Prop)

/-- Every child of a parent at index `lo` or above, among the first `n`
elements, is `le` its parent. -/
def Ordered (a : Nat → α) (lo n : Nat) : Prop :=
  ∀ k, 2 ≤ k → k ≤ n → lo ≤ k / 2 → le (a (k - 1)) (a (k / 2 - 1))

/-- The heap from `lo` while an element floats down at `hole`: ordered except
below the hole, and the hole's children are below the hole's parent. -/
structure DownOrder (a : Nat → α) (lo n hole : Nat) : Prop where
  except : ∀ k, 2 ≤ k → k ≤ n → lo ≤ k / 2 → k / 2 ≠ hole → le (a (k - 1)) (a (k / 2 - 1))
  grand : lo ≤ hole / 2 → ∀ k, k ≤ n → k / 2 = hole → le (a (k - 1)) (a (hole / 2 - 1))

/-- Between passes of heap sort: the first `i` elements are a heap, and the
others up to `n` are sorted and each at least every element of the heap. -/
structure SortInv (a : Nat → α) (i n : Nat) : Prop where
  heap : Ordered le a 1 i
  sorted : ∀ j k, i ≤ j → j ≤ k → k < n → le (a j) (a k)
  below : ∀ j k, j < i → i ≤ k → k < n → le (a j) (a k)

variable {le}

/-- No parent among the first `n` elements is above `n / 2`. -/
theorem ordered_half (a : Nat → α) (n : Nat) : Ordered le a (n / 2 + 1) n :=
  fun _ _ hkn hlo => absurd hlo (by omega)

/-- Floating down from `lo` in a heap from `lo + 1`. -/
theorem DownOrder.start {a : Nat → α} {lo n : Nat} (hlo : 1 ≤ lo) (h : Ordered le a (lo + 1) n) :
    DownOrder le a lo n lo where
  except k hk hkn _ hne := h k hk hkn (by omega)
  grand hlo' := absurd hlo' (by omega)

/-- A hole at least its children leaves a heap. -/
theorem DownOrder.finish {a : Nat → α} {lo n hole : Nat} (o : DownOrder le a lo n hole)
    (hstop : ∀ k, k ≤ n → k / 2 = hole → le (a (k - 1)) (a (hole - 1))) : Ordered le a lo n := by
  intro k hk hkn hlo
  by_cases hh : k / 2 = hole
  · rw [hh]
    exact hstop k hkn hh
  · exact o.except k hk hkn hlo hh

theorem swap_apply_sub_one {hole m k : Nat} (hh : 1 ≤ hole) (hm : 1 ≤ m) (hk : 1 ≤ k)
    (hkh : k ≠ hole) (hkm : k ≠ m) :
    Equiv.swap (hole - 1) (m - 1) (k - 1) = k - 1 :=
  Equiv.swap_apply_of_ne_of_ne (by omega) (by omega)

/-- Swapping the hole with a child `m` at least the hole and its other child
moves the hole down to `m`. -/
theorem DownOrder.swap {a : Nat → α} {lo n hole m : Nat} (o : DownOrder le a lo n hole)
    (hlo : 1 ≤ lo) (hhole : lo ≤ hole) (hm : m / 2 = hole) (hmn : m ≤ n)
    (hup : le (a (hole - 1)) (a (m - 1)))
    (hmax : ∀ k, k ≤ n → k / 2 = hole → le (a (k - 1)) (a (m - 1))) :
    DownOrder le (a ∘ Equiv.swap (hole - 1) (m - 1)) lo n m := by
  have hb_hole : (a ∘ Equiv.swap (hole - 1) (m - 1)) (hole - 1) = a (m - 1) := by simp
  have hb_m : (a ∘ Equiv.swap (hole - 1) (m - 1)) (m - 1) = a (hole - 1) := by simp
  have hb_other : ∀ k, 1 ≤ k → k ≠ hole → k ≠ m →
      (a ∘ Equiv.swap (hole - 1) (m - 1)) (k - 1) = a (k - 1) := fun k hk hkh hkm => by
    simp only [Function.comp_apply, swap_apply_sub_one (by omega) (by omega) hk hkh hkm]
  constructor
  · intro k hk hkn hlok hkm
    by_cases hkh : k / 2 = hole
    · -- a child of the old hole, now below the element that came up from `m`
      rw [hkh, hb_hole]
      by_cases hkm' : k = m
      · rw [hkm', hb_m]
        exact hup
      · rw [hb_other k (by omega) (by omega) hkm']
        exact hmax k hkn hkh
    · rw [hb_other (k / 2) (by omega) hkh hkm]
      by_cases hkh' : k = hole
      · -- the old hole itself, now holding the element from `m`
        rw [hkh', hb_hole]
        exact o.grand (by omega) m hmn hm
      · rw [hb_other k (by omega) hkh' (by omega)]
        exact o.except k hk hkn hlok hkh
  · intro _ k hkn hkm
    rw [hm, hb_hole, hb_other k (by omega) (by omega) (by omega)]
    have hk := o.except k (by omega) hkn (by omega) (by omega)
    rwa [hkm] at hk

/-- After the root of a heap of `n + 1` elements is swapped with the last, the
first `n` float down from the root. -/
theorem Ordered.swap_root {a : Nat → α} {n : Nat} (h : Ordered le a 1 (n + 1)) :
    DownOrder le (a ∘ Equiv.swap 0 n) 1 n 1 where
  except k hk hkn _ hne := by
    have hchild : (a ∘ Equiv.swap 0 n) (k - 1) = a (k - 1) := by
      simp [Equiv.swap_apply_of_ne_of_ne (show k - 1 ≠ 0 by omega) (show k - 1 ≠ n by omega)]
    have hparent : (a ∘ Equiv.swap 0 n) (k / 2 - 1) = a (k / 2 - 1) := by
      simp [Equiv.swap_apply_of_ne_of_ne (show k / 2 - 1 ≠ 0 by omega)
        (show k / 2 - 1 ≠ n by omega)]
    rw [hchild, hparent]
    exact h k hk (by omega) (by omega)
  grand h1 := absurd h1 (by omega)

/-- A heap of all `n` elements, before any pass. -/
theorem SortInv.start {a : Nat → α} {n : Nat} (h : Ordered le a 1 n) : SortInv le a n n :=
  ⟨h, fun _ _ hj hjk hk => absurd hk (by omega), fun _ _ _ hk hk' => absurd hk' (by omega)⟩

variable [IsTrans α le] [Std.Total le]

/-- The root of a heap is its largest element. -/
theorem Ordered.le_root {a : Nat → α} {n : Nat} (h : Ordered le a 1 n) :
    ∀ k, 1 ≤ k → k ≤ n → le (a (k - 1)) (a 0) := by
  intro k
  induction k using Nat.strongRecOn with
  | ind k ih =>
    intro hk hkn
    by_cases hk1 : k = 1
    · subst hk1
      exact (total_of le (a 0) (a 0)).elim id id
    · -- up one step to the parent, and from there to the root
      have hpar := h k (by omega) hkn (by omega)
      exact trans_of le hpar (ih (k / 2) (by omega) (by omega) (by omega))

/-- One pass: the root, the largest element of the heap, moves to the front of
the sorted suffix, and the rest of the heap is a heap again. -/
theorem SortInv.step {a b : Nat → α} {i n : Nat} (h : SortInv le a (i + 2) n)
    (hheap : Ordered le b 1 (i + 1)) (hb : PermPrefix (a ∘ Equiv.swap 0 (i + 1)) b (i + 1)) :
    SortInv le b (i + 1) n := by
  have hroot : ∀ q, q < i + 2 → le (a q) (a 0) := fun q hq => by
    simpa using h.heap.le_root (q + 1) (by omega) (by omega)
  have hlast : b (i + 1) = a 0 := by
    rw [hb.frame (i + 1) (Nat.le_refl _)]
    simp
  have hrest : ∀ k, i + 2 ≤ k → b k = a k := fun k hk => by
    rw [hb.frame k (by omega)]
    simp [Equiv.swap_apply_of_ne_of_ne (show k ≠ 0 by omega) (show k ≠ i + 1 by omega)]
  refine ⟨hheap, fun j k hj hjk hk => ?_, fun j k hj hk hkn => ?_⟩
  · by_cases hj1 : j = i + 1
    · rw [hj1, hlast]
      by_cases hk1 : k = i + 1
      · rw [hk1, hlast]
        exact (total_of le (a 0) (a 0)).elim id id
      · rw [hrest k (by omega)]
        exact h.below 0 k (by omega) (by omega) hk
    · rw [hrest j (by omega), hrest k (by omega)]
      exact h.sorted j k (by omega) hjk hk
  · -- an element of the new heap was one of the old heap
    obtain ⟨q, hq, hbq⟩ := hb.exists_eq hj
    have hqa : q < i + 1 := hq
    rw [hbq, Function.comp_apply]
    have hsw : Equiv.swap 0 (i + 1) q < i + 2 := swap_lt (by omega) (by omega) (by omega)
    by_cases hk1 : k = i + 1
    · rw [hk1, hlast]
      exact hroot _ hsw
    · rw [hrest k (by omega)]
      exact h.below _ k hsw (by omega) hkn

omit [IsTrans α le] in
/-- The heap is down to one element: the whole array is sorted. -/
theorem SortInv.sorted_all {a : Nat → α} {i n : Nat} (h : SortInv le a i n) (hi : i ≤ 1) :
    ∀ j k, j ≤ k → k < n → le (a j) (a k) := by
  intro j k hjk hk
  by_cases hj : i ≤ j
  · exact h.sorted j k hj hjk hk
  · by_cases hki : i ≤ k
    · exact h.below j k (by omega) hki hk
    · have hjk' : j = k := by omega
      rw [hjk']
      exact (total_of le (a k) (a k)).elim id id

end Layout

end ArrayHeap

import Pintos.Lib.ArrayHeap

/-!
# Heap sort and binary search (`lib/stdlib.c`)

`sort` is an in-place heap sort over 1-based indices in `size_t`, 32 bits on
the i386 kernel. It first builds a heap by `heapify` from `cnt / 2` down to 1,
then moves the root to the end of the heap and heapifies the rest, pass after
pass. `heapify` floats the element at `i` down. Each round it compares the
element with its children `2 i` and `2 i + 1`, where they are at most `cnt`, and
swaps it with the larger one.

The array is `a : Nat → α`, element `p` at `a p`, and `len` is the number of
elements it holds. `do_compare` and `do_swap` read the elements at `idx - 1` of
their indices, computed in `size_t`, and reading outside the array is a fault
(`none`). The element size `SIZE` only scales these offsets. `compare` returns
an `int`.

While `cnt < 2 ^ 31`, no index wraps, and `sort` permutes the array into
non-decreasing order for every comparison of a total preorder (`sort_spec`). An
i386 Pintos has at most 64 MB of memory, so every array it can hold is that
short.

`binary_search` narrows the byte offsets `first` and `last` into the array. On
an array sorted by `compare` it finds an element equal to the key whenever there
is one, and returns `NULL` otherwise (`binarySearch_spec`). `qsort_bsearch_correct`
states both for the entry points `qsort` and `bsearch`.
-/

namespace Pintos.Libc

open ArrayHeap

variable {α : Type}

/-- `do_compare (array, a_idx, b_idx, size, compare, aux)`: `compare` on the
elements with 1-based indices `a_idx` and `b_idx`, and a fault when either is
outside the array. -/
def doCompare (compare : α → α → Int) (len : Nat) (a : Nat → α) (aIdx bIdx : UInt32) :
    Option Int :=
  if (aIdx - 1).toNat < len ∧ (bIdx - 1).toNat < len then
    some (compare (a (aIdx - 1).toNat) (a (bIdx - 1).toNat))
  else none

/-- `do_swap (array, a_idx, b_idx, size)`: the byte loop exchanges the two
elements. -/
def doSwap (len : Nat) (a : Nat → α) (aIdx bIdx : UInt32) : Option (Nat → α) :=
  if (aIdx - 1).toNat < len ∧ (bIdx - 1).toNat < len then
    some (a ∘ Equiv.swap (aIdx - 1).toNat (bIdx - 1).toNat)
  else none

/-- One of the two tests of `heapify`,
`if (child <= cnt && do_compare (array, child, max, ...) > 0) max = child;`. -/
def pickMax (compare : α → α → Int) (len : Nat) (a : Nat → α) (child cnt max : UInt32) :
    Option UInt32 :=
  if child ≤ cnt then
    (doCompare compare len a child max).map fun c => if c > 0 then child else max
  else some max

/-- One round of the loop of `heapify` at `i`: the array when the element at `i`
is at least its children (the `break`), or the array after the swap and the
next `i`. -/
def heapifyStep (compare : α → α → Int) (len : Nat) (a : Nat → α) (i cnt : UInt32) :
    Option ((Nat → α) ⊕ ((Nat → α) × UInt32)) :=
  (pickMax compare len a (2 * i) cnt i).bind fun max =>
    (pickMax compare len a (2 * i + 1) cnt max).bind fun max =>
      if max = i then some (.inl a)
      else (doSwap len a i max).map fun a' => .inr (a', max)

/-- The `for (;;)` loop of `heapify`, for at most `fuel` rounds. -/
def heapifyLoop (compare : α → α → Int) (len : Nat) :
    Nat → (Nat → α) → UInt32 → UInt32 → Option (Nat → α)
  | 0, _, _, _ => none
  | fuel + 1, a, i, cnt =>
    match heapifyStep compare len a i cnt with
    | none => none
    | some (.inl a') => some a'
    | some (.inr (a', max)) => heapifyLoop compare len fuel a' max cnt

/-- `heapify (array, i, cnt, size, compare, aux)`. While `2 * i` does not wrap,
each round moves `i` to a child, at most `cnt`, so `cnt + 1` rounds are
enough. -/
def heapify (compare : α → α → Int) (len : Nat) (a : Nat → α) (i cnt : UInt32) :
    Option (Nat → α) :=
  heapifyLoop compare len (cnt.toNat + 1) a i cnt

/-- The loop `for (i = cnt / 2; i > 0; i--) heapify (array, i, cnt, ...)` of
`sort`, from `i = k`. -/
def buildLoop (compare : α → α → Int) (len : Nat) (cnt : UInt32) :
    Nat → (Nat → α) → Option (Nat → α)
  | 0, a => some a
  | k + 1, a =>
    (heapify compare len a (UInt32.ofNat (k + 1)) cnt).bind (buildLoop compare len cnt k)

/-- The loop `for (i = cnt; i > 1; i--)` of `sort`, which swaps elements 1 and
`i` and heapifies the first `i - 1`, from `i`. -/
def extractLoop (compare : α → α → Int) (len : Nat) : Nat → (Nat → α) → Option (Nat → α)
  | 0, a => some a
  | 1, a => some a
  | i + 2, a =>
    (doSwap len a 1 (UInt32.ofNat (i + 2))).bind fun a' =>
      (heapify compare len a' 1 (UInt32.ofNat (i + 1))).bind (extractLoop compare len (i + 1))

/-- `sort (array, cnt, size, compare, aux)` on an array of `cnt` elements. -/
def sort (compare : α → α → Int) (a : Nat → α) (cnt : UInt32) : Option (Nat → α) :=
  (buildLoop compare cnt.toNat cnt (cnt / 2).toNat a).bind (extractLoop compare cnt.toNat cnt.toNat)

/-- `qsort (array, cnt, size, compare)`: `sort` through `compare_thunk`, which
calls `compare`. -/
def qsort (compare : α → α → Int) (a : Nat → α) (cnt : UInt32) : Option (Nat → α) :=
  sort compare a cnt

/-- The loop of `binary_search` on the byte offsets `first` and `last` into
ARRAY, for at most `fuel` rounds: `some (some middle)` for a match at offset
`middle`, `some none` for `NULL`. As the bounds of an array, the offsets do not
wrap. -/
def binarySearchLoop (compare : α → α → Int) (key : α) (a : Nat → α) (size : Nat) :
    Nat → Nat → Nat → Option (Option Nat)
  | 0, _, _ => none
  | fuel + 1, first, last =>
    if first < last then
      let range := (last - first) / size
      let middle := first + range / 2 * size
      let cmp := compare key (a (middle / size))
      if cmp < 0 then binarySearchLoop compare key a size fuel first middle
      else if cmp > 0 then binarySearchLoop compare key a size fuel (middle + size) last
      else some (some middle)
    else some none

/-- `binary_search (key, array, cnt, size, compare, aux)`. Each round leaves
fewer elements between `first` and `last`, so `cnt + 1` rounds are enough. -/
def binarySearch (compare : α → α → Int) (key : α) (a : Nat → α) (cnt size : Nat) :
    Option (Option Nat) :=
  binarySearchLoop compare key a size (cnt + 1) 0 (size * cnt)

/-- `bsearch (key, array, cnt, size, compare)`: `binary_search` through
`compare_thunk`. -/
def bsearch (compare : α → α → Int) (key : α) (a : Nat → α) (cnt size : Nat) :
    Option (Option Nat) :=
  binarySearch compare key a cnt size

section Index

theorem toNat_sub_one {x : UInt32} (h : 1 ≤ x.toNat) : (x - 1).toNat = x.toNat - 1 := by
  rw [UInt32.toNat_sub_of_le]
  · rfl
  · rw [UInt32.le_iff_toNat_le]
    simpa using h

theorem toNat_two_mul {i : UInt32} (h : i.toNat < 2 ^ 31) : (2 * i).toNat = 2 * i.toNat := by
  rw [UInt32.toNat_mul]
  simp
  omega

theorem toNat_two_mul_add_one {i : UInt32} (h : i.toNat < 2 ^ 31) :
    (2 * i + 1).toNat = 2 * i.toNat + 1 := by
  rw [UInt32.toNat_add, toNat_two_mul h]
  simp
  omega

theorem toNat_ofNat_of_lt {k : Nat} (h : k < 2 ^ 32) : (UInt32.ofNat k).toNat = k := by
  simp
  omega

theorem doCompare_of_lt {compare : α → α → Int} {len : Nat} {a : Nat → α} {x y : UInt32}
    (hx : 1 ≤ x.toNat) (hy : 1 ≤ y.toNat) (hxl : x.toNat ≤ len) (hyl : y.toNat ≤ len) :
    doCompare compare len a x y = some (compare (a (x.toNat - 1)) (a (y.toNat - 1))) := by
  unfold doCompare
  rw [toNat_sub_one hx, toNat_sub_one hy, if_pos ⟨by omega, by omega⟩]

theorem doSwap_of_lt {len : Nat} {a : Nat → α} {x y : UInt32}
    (hx : 1 ≤ x.toNat) (hy : 1 ≤ y.toNat) (hxl : x.toNat ≤ len) (hyl : y.toNat ≤ len) :
    doSwap len a x y = some (a ∘ Equiv.swap (x.toNat - 1) (y.toNat - 1)) := by
  unfold doSwap
  rw [toNat_sub_one hx, toNat_sub_one hy, if_pos ⟨by omega, by omega⟩]

end Index

/-- The comparison of integers by their difference. -/
theorem totalPreorder_int_sub : Cmp.TotalPreorder fun x y : Int => x - y :=
  ⟨fun _ _ _ h1 h2 => by omega, fun _ _ => by omega⟩

section Sorting

variable {compare : α → α → Int} (hcmp : Cmp.TotalPreorder compare)
include hcmp

/-- One test of `heapify`: the index it keeps is the old `max` or the child, and
its element is at least both. -/
theorem pickMax_spec {len : Nat} {a : Nat → α} {child cnt max : UInt32}
    (hchild : 1 ≤ child.toNat) (hmax : 1 ≤ max.toNat) (hmc : max.toNat ≤ cnt.toNat)
    (hlen : cnt.toNat ≤ len) :
    ∃ m, pickMax compare len a child cnt max = some m ∧
      (m = max ∨ m = child ∧ child.toNat ≤ cnt.toNat) ∧
      compare (a (max.toNat - 1)) (a (m.toNat - 1)) ≤ 0 ∧
      (child.toNat ≤ cnt.toNat → compare (a (child.toNat - 1)) (a (m.toNat - 1)) ≤ 0) := by
  unfold pickMax
  by_cases hc : child ≤ cnt
  · have hc' : child.toNat ≤ cnt.toNat := UInt32.le_iff_toNat_le.mp hc
    rw [if_pos hc, doCompare_of_lt hchild hmax (by omega) (by omega), Option.map_some]
    by_cases hpos : compare (a (child.toNat - 1)) (a (max.toNat - 1)) > 0
    · rw [if_pos hpos]
      exact ⟨child, rfl, .inr ⟨rfl, hc'⟩, hcmp.le_of_pos hpos, fun _ => hcmp.refl _⟩
    · rw [if_neg hpos]
      exact ⟨max, rfl, .inl rfl, hcmp.refl _, fun _ => by omega⟩
  · rw [if_neg hc]
    exact ⟨max, rfl, .inl rfl, hcmp.refl _, fun h => absurd (UInt32.le_iff_toNat_le.mpr h) hc⟩

/-- One round of `heapify` while `2 * i + 1` does not wrap: it stops with the
element at `i` at least its children, or swaps it with a child at least it and
the other child. -/
theorem heapifyStep_spec {len : Nat} {a : Nat → α} {i cnt : UInt32} (hi : 1 ≤ i.toNat)
    (hic : i.toNat ≤ cnt.toNat) (hcnt : cnt.toNat < 2 ^ 31) (hlen : cnt.toNat ≤ len) :
    (heapifyStep compare len a i cnt = some (.inl a) ∧
      ∀ k, k ≤ cnt.toNat → k / 2 = i.toNat → compare (a (k - 1)) (a (i.toNat - 1)) ≤ 0) ∨
    ∃ m : UInt32, heapifyStep compare len a i cnt =
        some (.inr (a ∘ Equiv.swap (i.toNat - 1) (m.toNat - 1), m)) ∧
      m.toNat / 2 = i.toNat ∧ m.toNat ≤ cnt.toNat ∧
      compare (a (i.toNat - 1)) (a (m.toNat - 1)) ≤ 0 ∧
      ∀ k, k ≤ cnt.toNat → k / 2 = i.toNat → compare (a (k - 1)) (a (m.toNat - 1)) ≤ 0 := by
  have hleft := toNat_two_mul (i := i) (by omega)
  have hright := toNat_two_mul_add_one (i := i) (by omega)
  obtain ⟨m1, hm1, hm1c, hm1i, hm1l⟩ :=
    pickMax_spec hcmp (a := a) (show 1 ≤ (2 * i).toNat by omega) hi hic hlen
  rw [hleft] at hm1l
  have hm1b : m1.toNat = i.toNat ∨ m1.toNat = 2 * i.toNat ∧ 2 * i.toNat ≤ cnt.toNat := by
    rcases hm1c with rfl | ⟨rfl, h⟩
    · exact .inl rfl
    · exact .inr ⟨hleft, hleft ▸ h⟩
  obtain ⟨m2, hm2, hm2c, hm2m, hm2r⟩ :=
    pickMax_spec hcmp (a := a) (show 1 ≤ (2 * i + 1).toNat by omega) (show 1 ≤ m1.toNat by omega)
      (show m1.toNat ≤ cnt.toNat by omega) hlen
  rw [hright] at hm2r
  have hm2b : m2.toNat = m1.toNat ∨ m2.toNat = 2 * i.toNat + 1 ∧ 2 * i.toNat + 1 ≤ cnt.toNat := by
    rcases hm2c with rfl | ⟨rfl, h⟩
    · exact .inl rfl
    · exact .inr ⟨hright, hright ▸ h⟩
  -- the index kept is the largest of `i` and its children
  have hdom : ∀ k, k ≤ cnt.toNat → k / 2 = i.toNat →
      compare (a (k - 1)) (a (m2.toNat - 1)) ≤ 0 := by
    intro k hk hki
    rcases (show k = 2 * i.toNat ∨ k = 2 * i.toNat + 1 by omega) with rfl | rfl
    · exact hcmp.trans _ _ _ (hm1l hk) hm2m
    · exact hm2r hk
  have hup : compare (a (i.toNat - 1)) (a (m2.toNat - 1)) ≤ 0 := hcmp.trans _ _ _ hm1i hm2m
  unfold heapifyStep
  rw [hm1, Option.bind_some, hm2, Option.bind_some]
  by_cases hmi : m2 = i
  · subst hmi
    exact .inl ⟨if_pos rfl, hdom⟩
  · have hm2i : m2.toNat ≠ i.toNat := fun h => hmi (UInt32.toNat_inj.mp h)
    rw [if_neg hmi, doSwap_of_lt hi (by omega) (by omega) (by omega), Option.map_some]
    exact .inr ⟨m2, rfl, by omega, by omega, hup, hdom⟩

/-- The loop of `heapify` from a hole at `i` in a heap from `lo`: with more
rounds than `cnt - i`, it leaves a heap from `lo`, the first `cnt` elements
permuted. -/
theorem heapifyLoop_spec {len : Nat} {cnt : UInt32} (hcnt : cnt.toNat < 2 ^ 31)
    (hlen : cnt.toNat ≤ len) {lo : Nat} (hlo : 1 ≤ lo) :
    ∀ (fuel : Nat) (a : Nat → α) (i : UInt32), lo ≤ i.toNat → i.toNat ≤ cnt.toNat →
      cnt.toNat - i.toNat < fuel →
      DownOrder (fun x y => compare x y ≤ 0) a lo cnt.toNat i.toNat →
      ∃ a', heapifyLoop compare len fuel a i cnt = some a' ∧
        Ordered (fun x y => compare x y ≤ 0) a' lo cnt.toNat ∧ PermPrefix a a' cnt.toNat
  | 0, _, _, _, _, hfuel, _ => absurd hfuel (Nat.not_lt_zero _)
  | fuel + 1, a, i, hloi, hic, hfuel, o => by
    rcases heapifyStep_spec hcmp (a := a) (by omega) hic hcnt hlen with
      ⟨hstep, hstop⟩ | ⟨m, hstep, hm, hmc, hup, hmax⟩
    · exact ⟨a, by rw [heapifyLoop, hstep], o.finish hstop, PermPrefix.refl a _⟩
    · -- the hole moves down to the child `m`
      have o' := o.swap hlo hloi hm hmc hup hmax
      obtain ⟨a', hrun, hord, hperm⟩ := heapifyLoop_spec hcnt hlen hlo fuel _ m (by omega) hmc
        (by omega) o'
      refine ⟨a', by rw [heapifyLoop, hstep]; exact hrun, hord, ?_⟩
      exact (PermPrefix.swap a (by omega) (by omega)).trans hperm

theorem heapify_spec {len : Nat} {cnt : UInt32} (hcnt : cnt.toNat < 2 ^ 31)
    (hlen : cnt.toNat ≤ len) {lo : Nat} (hlo : 1 ≤ lo) (a : Nat → α) (i : UInt32)
    (hloi : lo ≤ i.toNat) (hic : i.toNat ≤ cnt.toNat)
    (o : DownOrder (fun x y => compare x y ≤ 0) a lo cnt.toNat i.toNat) :
    ∃ a', heapify compare len a i cnt = some a' ∧
      Ordered (fun x y => compare x y ≤ 0) a' lo cnt.toNat ∧ PermPrefix a a' cnt.toNat :=
  heapifyLoop_spec hcmp hcnt hlen hlo _ a i hloi hic (by omega) o

/-- The build loop of `sort` from `i = k`, on a heap from `k + 1`, makes a heap of
the whole array. -/
theorem buildLoop_spec {cnt : UInt32} (hcnt : cnt.toNat < 2 ^ 31) :
    ∀ (k : Nat) (a : Nat → α), k ≤ cnt.toNat / 2 →
      Ordered (fun x y => compare x y ≤ 0) a (k + 1) cnt.toNat →
      ∃ a', buildLoop compare cnt.toNat cnt k a = some a' ∧
        Ordered (fun x y => compare x y ≤ 0) a' 1 cnt.toNat ∧ PermPrefix a a' cnt.toNat
  | 0, a, _, h => ⟨a, rfl, h, PermPrefix.refl a _⟩
  | k + 1, a, hk, h => by
    have hki : (UInt32.ofNat (k + 1)).toNat = k + 1 := toNat_ofNat_of_lt (by omega)
    have o : DownOrder (fun x y => compare x y ≤ 0) a (k + 1) cnt.toNat
        (UInt32.ofNat (k + 1)).toNat := by
      rw [hki]
      exact DownOrder.start (by omega) h
    obtain ⟨a1, h1, hord1, hperm1⟩ := heapify_spec hcmp hcnt (Nat.le_refl _)
      (show 1 ≤ k + 1 by omega) a (UInt32.ofNat (k + 1)) (by omega) (by omega) o
    obtain ⟨a2, h2, hord2, hperm2⟩ := buildLoop_spec hcnt k a1 (by omega) hord1
    refine ⟨a2, ?_, hord2, hperm1.trans hperm2⟩
    rw [buildLoop, h1, Option.bind_some]
    exact h2

/-- The extraction loop of `sort` from `i`, between passes, sorts the array. -/
theorem extractLoop_spec {cnt : UInt32} (hcnt : cnt.toNat < 2 ^ 31) :
    ∀ (i : Nat) (a : Nat → α), i ≤ cnt.toNat →
      SortInv (fun x y => compare x y ≤ 0) a i cnt.toNat →
      ∃ a', extractLoop compare cnt.toNat i a = some a' ∧ PermPrefix a a' cnt.toNat ∧
        ∀ j k, j ≤ k → k < cnt.toNat → compare (a' j) (a' k) ≤ 0
  | 0, a, _, h => by
    have := hcmp.isTrans
    have := hcmp.total
    exact ⟨a, rfl, PermPrefix.refl a _, h.sorted_all (Nat.zero_le 1)⟩
  | 1, a, _, h => by
    have := hcmp.isTrans
    have := hcmp.total
    exact ⟨a, rfl, PermPrefix.refl a _, h.sorted_all (Nat.le_refl 1)⟩
  | i + 2, a, hi, h => by
    have := hcmp.isTrans
    have := hcmp.total
    have hi2 : (UInt32.ofNat (i + 2)).toNat = i + 2 := toNat_ofNat_of_lt (by omega)
    have hi1 : (UInt32.ofNat (i + 1)).toNat = i + 1 := toNat_ofNat_of_lt (by omega)
    have hswap : doSwap cnt.toNat a 1 (UInt32.ofNat (i + 2)) = some (a ∘ Equiv.swap 0 (i + 1)) := by
      rw [doSwap_of_lt (by decide) (by omega) (by simp; omega) (by omega), hi2]
      rfl
    -- the root goes to the end of the heap, and the rest floats down from the root
    have o : DownOrder (fun x y => compare x y ≤ 0) (a ∘ Equiv.swap 0 (i + 1)) 1
        (UInt32.ofNat (i + 1)).toNat (1 : UInt32).toNat := by
      rw [hi1]
      exact h.heap.swap_root
    obtain ⟨a2, h2, hord2, hperm2⟩ := heapify_spec hcmp
      (show (UInt32.ofNat (i + 1)).toNat < 2 ^ 31 by omega)
      (show (UInt32.ofNat (i + 1)).toNat ≤ cnt.toNat by omega) (Nat.le_refl 1) _ 1 (by decide)
      (by rw [hi1]; simp) o
    rw [hi1] at hord2 hperm2
    have hinv := h.step hord2 hperm2
    obtain ⟨a3, h3, hperm3, hsorted⟩ := extractLoop_spec hcnt (i + 1) a2 (by omega) hinv
    refine ⟨a3, ?_, ?_, hsorted⟩
    · rw [extractLoop, hswap, Option.bind_some, h2, Option.bind_some]
      exact h3
    · exact ((PermPrefix.swap a (by omega) (by omega)).trans (hperm2.mono (by omega))).trans hperm3

/-- The two loops of `sort`: the heap built from `cnt / 2` down, then its
maximum moved out `cnt` times, leave a sorted permutation of the first `cnt`
elements. -/
theorem buildLoop_extractLoop_spec (a : Nat → α) {cnt : UInt32} (hcnt : cnt.toNat < 2 ^ 31) :
    ∃ a', (buildLoop compare cnt.toNat cnt (cnt / 2).toNat a).bind
        (extractLoop compare cnt.toNat cnt.toNat) = some a' ∧ PermPrefix a a' cnt.toNat ∧
      ∀ j k, j ≤ k → k < cnt.toNat → compare (a' j) (a' k) ≤ 0 := by
  have hhalf : (cnt / 2).toNat = cnt.toNat / 2 := UInt32.toNat_div cnt 2
  obtain ⟨a1, h1, hord1, hperm1⟩ := buildLoop_spec hcmp hcnt (cnt.toNat / 2) a (Nat.le_refl _)
    (ordered_half a cnt.toNat)
  obtain ⟨a2, h2, hperm2, hsorted⟩ := extractLoop_spec hcmp hcnt cnt.toNat a1 (Nat.le_refl _)
    (SortInv.start hord1)
  refine ⟨a2, ?_, hperm1.trans hperm2, hsorted⟩
  rw [hhalf, h1, Option.bind_some]
  exact h2

/-- **`sort` sorts** every array of fewer than `2 ^ 31` elements under every
comparison of a total preorder: it returns a permutation of the array in
non-decreasing order, and leaves the memory after it alone. -/
theorem sort_spec (a : Nat → α) {cnt : UInt32} (hcnt : cnt.toNat < 2 ^ 31) :
    ∃ a', sort compare a cnt = some a' ∧ PermPrefix a a' cnt.toNat ∧
      ∀ j k, j ≤ k → k < cnt.toNat → compare (a' j) (a' k) ≤ 0 :=
  buildLoop_extractLoop_spec hcmp a hcnt

end Sorting

/-- Sorting the integers 3, 1, 2. -/
theorem sort_spec_three :
    Cmp.TotalPreorder (fun x y : Int => x - y) ∧ (3 : UInt32).toNat < 2 ^ 31 ∧
      ∃ a', sort (fun x y : Int => x - y) (fun p => [3, 1, 2].getD p 0) 3 = some a' ∧
        PermPrefix (fun p => [3, 1, 2].getD p 0) a' (3 : UInt32).toNat ∧
        ∀ j k, j ≤ k → k < (3 : UInt32).toNat → a' j - a' k ≤ 0 :=
  ⟨totalPreorder_int_sub, by decide, sort_spec totalPreorder_int_sub _ (by decide)⟩

example : (sort (fun x y : Int => x - y) (fun p => [3, 1, 2].getD p 0) 3).map
    (fun a' => (List.range 3).map a') = some [1, 2, 3] := by decide

section Search

variable {compare : α → α → Int} (hcmp : Cmp.TotalPreorder compare) {a : Nat → α} {cnt size : Nat}
  (hsize : 0 < size) (hsorted : ∀ j k, j ≤ k → k < cnt → compare (a j) (a k) ≤ 0) (key : α)
include hcmp hsize hsorted

/-- The loop of `binary_search` between the elements `lo` and `hi`, outside of
which no element equals the key: with more rounds than elements between them,
it returns a match, or `NULL` when there is none. -/
theorem binarySearchLoop_spec :
    ∀ (fuel lo hi : Nat), lo ≤ hi → hi ≤ cnt → hi - lo < fuel →
      (∀ j, j < cnt → compare key (a j) = 0 → lo ≤ j ∧ j < hi) →
      ∃ r, binarySearchLoop compare key a size fuel (size * lo) (size * hi) = some r ∧
        (∀ off, r = some off → ∃ j, j < cnt ∧ off = size * j ∧ compare key (a j) = 0) ∧
        (r = none → ∀ j, j < cnt → compare key (a j) ≠ 0)
  | 0, _, _, _, _, hfuel, _ => absurd hfuel (Nat.not_lt_zero _)
  | fuel + 1, lo, hi, hlohi, hhi, hfuel, hin => by
    rw [binarySearchLoop]
    by_cases hlt : lo < hi
    · have hrange : (size * hi - size * lo) / size = hi - lo := by
        rw [← Nat.mul_sub, Nat.mul_div_cancel_left _ hsize]
      have hmid : size * lo + (hi - lo) / 2 * size = size * (lo + (hi - lo) / 2) := by
        rw [Nat.mul_add, Nat.mul_comm ((hi - lo) / 2)]
      rw [if_pos (Nat.mul_lt_mul_of_pos_left hlt hsize)]
      dsimp only
      rw [hrange, hmid, Nat.mul_div_cancel_left _ hsize]
      generalize hm : lo + (hi - lo) / 2 = m
      have hmlo : lo ≤ m := by omega
      have hmhi : m < hi := by omega
      by_cases hneg : compare key (a m) < 0
      · -- every element from the middle on is above the key
        rw [if_pos hneg]
        apply binarySearchLoop_spec fuel lo m hmlo (by omega) (by omega)
        intro j hj hkey
        refine ⟨(hin j hj hkey).1, Nat.lt_of_not_le fun hmj => ?_⟩
        have := hcmp.lt_of_lt_of_le hneg (hsorted m j hmj hj)
        omega
      · rw [if_neg hneg]
        by_cases hpos : compare key (a m) > 0
        · -- every element up to the middle is below the key
          rw [if_pos hpos, show size * m + size = size * (m + 1) by rw [Nat.mul_succ]]
          apply binarySearchLoop_spec fuel (m + 1) hi (by omega) hhi (by omega)
          intro j hj hkey
          refine ⟨Nat.succ_le_of_lt (Nat.lt_of_not_le fun hjm => ?_), (hin j hj hkey).2⟩
          have := hcmp.trans _ _ _ (show compare key (a j) ≤ 0 by omega) (hsorted j m hjm (by omega))
          omega
        · rw [if_neg hpos]
          refine ⟨some (size * m), rfl, fun off hoff => ?_, fun h => nomatch h⟩
          exact ⟨m, by omega, (Option.some.inj hoff).symm, by omega⟩
    · rw [if_neg fun h => hlt (Nat.lt_of_mul_lt_mul_left h)]
      refine ⟨none, rfl, fun _ h => (nomatch h), fun _ j hj hkey => ?_⟩
      have := hin j hj hkey
      omega

/-- **`binary_search` finds the key** in an array sorted by `compare`: it
returns the offset of an element equal to the key when there is one, and `NULL`
otherwise. -/
theorem binarySearch_spec :
    ∃ r, binarySearch compare key a cnt size = some r ∧
      (∀ off, r = some off → ∃ j, j < cnt ∧ off = size * j ∧ compare key (a j) = 0) ∧
      (r = none → ∀ j, j < cnt → compare key (a j) ≠ 0) := by
  have h := binarySearchLoop_spec hcmp hsize hsorted key (cnt + 1) 0 cnt (Nat.zero_le _)
    (Nat.le_refl _) (by omega) fun j hj _ => ⟨Nat.zero_le _, hj⟩
  rw [Nat.mul_zero] at h
  exact h

end Search

/-- Looking for 2 among 1, 2, 5, elements of 4 bytes: found at offset 4. -/
theorem binarySearch_spec_two :
    Cmp.TotalPreorder (fun x y : Int => x - y) ∧ (0 : Nat) < 4 ∧
      (∀ j k, j ≤ k → k < 3 → [1, 2, 5].getD j (0 : Int) - [1, 2, 5].getD k 0 ≤ 0) ∧
      ∃ r, binarySearch (fun x y : Int => x - y) 2 (fun p => [1, 2, 5].getD p 0) 3 4 = some r ∧
        (∀ off, r = some off → ∃ j, j < 3 ∧ off = 4 * j ∧ (2 : Int) - [1, 2, 5].getD j 0 = 0) ∧
        (r = none → ∀ j, j < 3 → (2 : Int) - [1, 2, 5].getD j 0 ≠ 0) := by
  have hsorted : ∀ k < 3, ∀ j ≤ k, [1, 2, 5].getD j (0 : Int) - [1, 2, 5].getD k 0 ≤ 0 := by
    decide
  exact ⟨totalPreorder_int_sub, by decide, fun j k hjk hk => hsorted k hk j hjk,
    binarySearch_spec totalPreorder_int_sub (show 0 < 4 by decide)
      (fun j k hjk hk => hsorted k hk j hjk) 2⟩

example : binarySearch (fun x y : Int => x - y) 2 (fun p => [1, 2, 5].getD p 0) 3 4 =
    some (some 4) := by decide

/-- **Heap sort and binary search are correct** for every comparison of a total
preorder. `qsort` of fewer than `2 ^ 31` elements, which is every array an i386
Pintos can hold, returns a permutation of the array in non-decreasing order; and
`bsearch` on an array sorted by `compare` returns the offset of an element equal
to the key when there is one and `NULL` otherwise, always within its rounds. -/
theorem qsort_bsearch_correct {compare : α → α → Int} (hcmp : Cmp.TotalPreorder compare) :
    (∀ (a : Nat → α) (cnt : UInt32), cnt.toNat < 2 ^ 31 →
      ∃ a', qsort compare a cnt = some a' ∧ PermPrefix a a' cnt.toNat ∧
        ∀ j k, j ≤ k → k < cnt.toNat → compare (a' j) (a' k) ≤ 0) ∧
    ∀ (a : Nat → α) (cnt size : Nat) (key : α), 0 < size →
      (∀ j k, j ≤ k → k < cnt → compare (a j) (a k) ≤ 0) →
      ∃ r, bsearch compare key a cnt size = some r ∧
        (∀ off, r = some off → ∃ j, j < cnt ∧ off = size * j ∧ compare key (a j) = 0) ∧
        (r = none → ∀ j, j < cnt → compare key (a j) ≠ 0) := by
  refine ⟨fun a cnt hcnt => buildLoop_extractLoop_spec hcmp a hcnt,
    fun a cnt size key hsize hsorted => ?_⟩
  -- `cnt + 1` rounds from the whole array, outside of which no element is searched
  have h := binarySearchLoop_spec hcmp hsize hsorted key (cnt + 1) 0 cnt (Nat.zero_le _)
    (Nat.le_refl _) (by omega) fun j hj _ => ⟨Nat.zero_le _, hj⟩
  rw [Nat.mul_zero] at h
  exact h

/-- Integers compared by their difference. -/
theorem qsort_bsearch_correct_int :
    Cmp.TotalPreorder (fun x y : Int => x - y) ∧
    (∀ (a : Nat → Int) (cnt : UInt32), cnt.toNat < 2 ^ 31 →
      ∃ a', qsort (fun x y : Int => x - y) a cnt = some a' ∧ PermPrefix a a' cnt.toNat ∧
        ∀ j k, j ≤ k → k < cnt.toNat → a' j - a' k ≤ 0) ∧
    ∀ (a : Nat → Int) (cnt size : Nat) (key : Int), 0 < size →
      (∀ j k, j ≤ k → k < cnt → a j - a k ≤ 0) →
      ∃ r, bsearch (fun x y : Int => x - y) key a cnt size = some r ∧
        (∀ off, r = some off → ∃ j, j < cnt ∧ off = size * j ∧ key - a j = 0) ∧
        (r = none → ∀ j, j < cnt → key - a j ≠ 0) :=
  ⟨totalPreorder_int_sub, qsort_bsearch_correct totalPreorder_int_sub⟩

end Pintos.Libc

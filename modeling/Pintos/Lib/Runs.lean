import Mathlib

/-!
# First-fit allocation of runs

An allocator that hands out runs of consecutive indices of `[0, size)`. A run of
`n` fits at `i` when it lies inside and none of its indices is covered by a live
run; `Alloc.alloc` takes the lowest such `i` and `Alloc.free` gives a live run
back. `Alloc` carries its invariant: the live runs lie inside and are pairwise
apart, so no index is handed out twice.
-/

namespace Runs

/-- A run of `len` indices from `start`. -/
structure Run where
  start : Nat
  len : Nat
  deriving DecidableEq, Repr

namespace Run

/-- `i` is one of the run's indices. -/
def Mem (r : Run) (i : Nat) : Prop := r.start ≤ i ∧ i < r.start + r.len

instance (r : Run) (i : Nat) : Decidable (r.Mem i) := inferInstanceAs (Decidable (_ ∧ _))

/-- The runs share no index. -/
def Apart (r r' : Run) : Prop := ∀ i, r.Mem i → ¬ r'.Mem i

theorem Apart.symm {r r' : Run} (h : r.Apart r') : r'.Apart r := fun i h' hr => h i hr h'

end Run

/-- `i` is an index of one of the runs. -/
def Covered (rs : List Run) (i : Nat) : Prop := ∃ r ∈ rs, r.Mem i

instance (rs : List Run) (i : Nat) : Decidable (Covered rs i) :=
  inferInstanceAs (Decidable (∃ r ∈ rs, r.Mem i))

/-- A run of `n` fits at `i`: it lies in `[0, size)` and meets no run of `rs`. -/
def Fits (size : Nat) (rs : List Run) (i n : Nat) : Prop :=
  i + n ≤ size ∧ ∀ k < n, ¬ Covered rs (i + k)

instance (size : Nat) (rs : List Run) (i n : Nat) : Decidable (Fits size rs i n) :=
  inferInstanceAs (Decidable (_ ∧ ∀ k < n, _))

/-- The lowest `i` at which a run of `n` fits. -/
def firstFit (size : Nat) (rs : List Run) (n : Nat) : Option Nat :=
  (List.range (size + 1 - n)).find? fun i => decide (Fits size rs i n)

theorem covered_cons {r : Run} {rs : List Run} {i : Nat} :
    Covered (r :: rs) i ↔ r.Mem i ∨ Covered rs i := by
  simp [Covered]

theorem Covered.of_perm {rs rs' : List Run} (h : rs.Perm rs') {i : Nat} :
    Covered rs i ↔ Covered rs' i := by
  simp only [Covered, h.mem_iff]

theorem firstFit_some {size n i : Nat} {rs : List Run} (h : firstFit size rs n = some i) :
    Fits size rs i n ∧ ∀ j < i, ¬ Fits size rs j n := by
  obtain ⟨hi, -, hmin⟩ := List.find?_range_eq_some.mp h
  exact ⟨of_decide_eq_true hi, fun j hj => by simpa using hmin j hj⟩

theorem firstFit_eq_some {size n i : Nat} {rs : List Run} (hf : Fits size rs i n)
    (hmin : ∀ j < i, ¬ Fits size rs j n) : firstFit size rs n = some i := by
  refine List.find?_range_eq_some.mpr
    ⟨decide_eq_true hf, ?_, fun j hj => by simpa using hmin j hj⟩
  have := hf.1
  exact List.mem_range.mpr (by omega)

theorem firstFit_none {size n : Nat} {rs : List Run} (h : firstFit size rs n = none) (i : Nat) :
    ¬ Fits size rs i n := by
  intro hf
  have := List.find?_eq_none.mp h i (List.mem_range.mpr (by have := hf.1; omega))
  exact this (decide_eq_true hf)

/-- The allocator's state: the live runs, inside `[0, size)` and pairwise apart. -/
structure Alloc where
  size : Nat
  live : List Run
  inside : ∀ r ∈ live, r.start + r.len ≤ size
  apart : live.Pairwise Run.Apart

namespace Alloc

/-- No run live. -/
def empty (size : Nat) : Alloc := ⟨size, [], by simp, .nil⟩

/-- Take the run of `n` at `i`, where it fits. -/
def take (A : Alloc) (i n : Nat) (h : Fits A.size A.live i n) : Alloc where
  size := A.size
  live := ⟨i, n⟩ :: A.live
  inside r hr := by
    rcases List.mem_cons.mp hr with rfl | hr
    · exact h.1
    · exact A.inside r hr
  apart := by
    refine List.pairwise_cons.mpr ⟨fun r hr j hj hrj => ?_, A.apart⟩
    obtain ⟨hij, hjn⟩ := hj
    have hij : i ≤ j := hij
    have hjn : j < i + n := hjn
    exact h.2 (j - i) (by omega) ⟨r, hr, by rwa [Nat.add_sub_cancel' hij]⟩

/-- `alloc n`: the first fit, taken; `none` when a run of `n` fits nowhere. -/
def alloc (A : Alloc) (n : Nat) : Option (Alloc × Nat) :=
  match h : firstFit A.size A.live n with
  | none => none
  | some i => some (A.take i n (firstFit_some h).1, i)

/-- `free r`: the run given back. -/
def free (A : Alloc) (r : Run) : Alloc where
  size := A.size
  live := A.live.erase r
  inside r' hr' := A.inside r' (List.mem_of_mem_erase hr')
  apart := A.apart.erase r

theorem covered_take {A : Alloc} {i n j : Nat} {h : Fits A.size A.live i n} :
    Covered (A.take i n h).live j ↔ (i ≤ j ∧ j < i + n) ∨ Covered A.live j :=
  covered_cons

/-- A live run given back uncovers exactly its own indices. -/
theorem covered_free {A : Alloc} {r : Run} (hr : r ∈ A.live) {j : Nat} :
    Covered (A.free r).live j ↔ Covered A.live j ∧ ¬ r.Mem j := by
  have hp := List.perm_cons_erase hr
  have hpw : (r :: A.live.erase r).Pairwise Run.Apart :=
    (hp.pairwise_iff Run.Apart.symm).mp A.apart
  have hmem : ∀ r' ∈ A.live.erase r, r.Apart r' := (List.pairwise_cons.mp hpw).1
  rw [Covered.of_perm hp, covered_cons]
  constructor
  · rintro ⟨r', hr', hj⟩
    exact ⟨.inr ⟨r', hr', hj⟩, fun hrj => hmem r' hr' j hrj hj⟩
  · rintro ⟨hc | hc, hn⟩
    · exact absurd hc hn
    · exact hc

theorem alloc_of_firstFit {A : Alloc} {n i : Nat} (h : firstFit A.size A.live n = some i) :
    ∃ hf, A.alloc n = some (A.take i n hf, i) := by
  unfold alloc
  split
  · rename_i hn
    rw [h] at hn
    cases hn
  · rename_i i' hi'
    rw [h, Option.some.injEq] at hi'
    subst hi'
    exact ⟨(firstFit_some h).1, rfl⟩

theorem alloc_some {A A' : Alloc} {n i : Nat} (h : A.alloc n = some (A', i)) :
    Fits A.size A.live i n ∧ (∀ j < i, ¬ Fits A.size A.live j n) ∧ A'.size = A.size ∧
      A'.live = ⟨i, n⟩ :: A.live := by
  unfold alloc at h
  split at h
  · cases h
  · rename_i i' hf
    simp only [Option.some.injEq, Prod.mk.injEq] at h
    obtain ⟨rfl, rfl⟩ := h
    exact ⟨(firstFit_some hf).1, (firstFit_some hf).2, rfl, rfl⟩

theorem alloc_none {A : Alloc} {n : Nat} (h : A.alloc n = none) (i : Nat) :
    ¬ Fits A.size A.live i n := by
  unfold alloc at h
  split at h
  · rename_i hf
    exact firstFit_none hf i
  · cases h

end Alloc

end Runs

import Mathlib

/-!
# Counting blocks on a free list

A free list holds each block at most once, so it is a list without duplicates.
Among the blocks of a list `B`, the ones on the free list `l` are
`l.filter (· ∈ B)`: at most `B.length` of them (`count_le`), all of `B` once
there are that many (`mem_of_count_eq`), and one of `B` off the list while there
are fewer (`exists_not_mem_of_count_lt`).
-/

namespace FreeList

variable {α : Type} [DecidableEq α] {l B : List α}

/-- The blocks of `B` on a list without duplicates are some of `B`'s. -/
theorem filter_subperm (hl : l.Nodup) : (l.filter (· ∈ B)).Subperm B :=
  (hl.filter _).subperm fun x hx => by simpa using (List.mem_filter.mp hx).2

theorem count_le (hl : l.Nodup) : (l.filter (· ∈ B)).length ≤ B.length :=
  (filter_subperm hl).length_le

theorem mem_of_count_eq (hl : l.Nodup) (h : (l.filter (· ∈ B)).length = B.length) {x : α}
    (hx : x ∈ B) : x ∈ l := by
  have hperm := (filter_subperm hl).perm_of_length_le (Nat.le_of_eq h.symm)
  exact (List.mem_filter.mp (hperm.symm.subset hx)).1

/-- A list of distinct blocks all on `l` is counted in full. -/
theorem length_le_count (hB : B.Nodup) (hsub : ∀ x ∈ B, x ∈ l) :
    B.length ≤ (l.filter (· ∈ B)).length :=
  (hB.subperm fun x hx => List.mem_filter.mpr ⟨hsub x hx, by simpa using hx⟩).length_le

theorem exists_not_mem_of_count_lt (hB : B.Nodup) (h : (l.filter (· ∈ B)).length < B.length) :
    ∃ x ∈ B, x ∉ l := by
  by_contra hall
  have hsub : ∀ x ∈ B, x ∈ l := fun x hx => Classical.byContradiction fun hn => hall ⟨x, hx, hn⟩
  exact absurd (length_le_count hB hsub) (Nat.not_le.mpr h)

end FreeList

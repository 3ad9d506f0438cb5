import Mathlib
import Pintos.Lib.StableSort
import Pintos.Devices.Timer

/-!
# Sorting a list (`lib/kernel/list.c`)

`list_sort` is an in-place natural merge sort. Each pass walks the list from
the front: `find_end_of_run` finds a run of elements in order, and the next run
after it, and `inplace_merge` merges the two by splicing each element of the
second run before the first element of the first it is `less` than. The pass
counts its merges in `output_run_cnt`, and the sort passes again until a pass
makes one run. `list_insert_ordered` puts an element before the first one it is
`less` than, and `list_unique` drops each element equivalent to the one kept
before it, appending it to `duplicates` when that list is given.

The list is a `List α`, in order from `list_begin`. `inplace_merge` and a pass
are loops over the list bounded by its length (`inplaceMergeLoop`, `sortPass`).
The passes are bounded by one more than the length, which is enough: a pass of
more than one merge leaves fewer adjacent pairs out of order than it found
(`sortPass_spec`, `listSortLoop_spec`).

For any strict weak order `less`, `list_sort` returns a sorted permutation of
the list in which each class of equivalent elements keeps its order, and
`list_insert_ordered` and `list_unique` do what their comments say
(`list_sort_stable`).
-/

namespace Pintos.Kernel

open StableSort

variable {α : Type}

/-- `find_end_of_run (a, end, less, aux)` from the element `a` followed by
`rest`: the run from `a` of elements none `less` than the one before it, and
what follows it. -/
def findEndOfRun (less : α → α → Bool) (a : α) : List α → List α × List α
  | [] => ([a], [])
  | b :: rest =>
    if less b a then ([a], b :: rest)
    else
      let r := findEndOfRun less b rest
      (a :: r.1, r.2)

/-- The loop of `inplace_merge (a0, a1b0, b1, less, aux)` on the runs `xs`
(from `a0`) and `ys` (from `a1b0`): `a0` moves past an element of `xs`, or the
element at `a1b0` is spliced before it; `fuel` bounds the rounds. -/
def inplaceMergeLoop (less : α → α → Bool) : Nat → List α → List α → List α
  | 0, xs, ys => xs ++ ys
  | _ + 1, [], ys => ys
  | _ + 1, x :: xs, [] => x :: xs
  | fuel + 1, x :: xs, y :: ys =>
    if !less y x then x :: inplaceMergeLoop less fuel xs (y :: ys)
    else y :: inplaceMergeLoop less fuel (x :: xs) ys

/-- `inplace_merge`: each round takes one element, so the two runs' lengths
bound the rounds. -/
def inplaceMerge (less : α → α → Bool) (xs ys : List α) : List α :=
  inplaceMergeLoop less (xs.length + ys.length) xs ys

/-- One pass of `list_sort`, the `for` loop: the list after it and
`output_run_cnt`; `fuel` bounds the rounds. -/
def sortPass (less : α → α → Bool) : Nat → List α → List α × Nat
  | 0, l => (l, 0)
  | _ + 1, [] => ([], 0)
  | fuel + 1, a :: rest =>
    let r1 := findEndOfRun less a rest
    match r1.2 with
    | [] => (r1.1, 1)
    | b :: rest2 =>
      let r2 := findEndOfRun less b rest2
      let out := sortPass less fuel r2.2
      (inplaceMerge less r1.1 r2.1 ++ out.1, out.2 + 1)

/-- The `do ... while (output_run_cnt > 1)` loop of `list_sort`, at most `fuel`
passes. -/
def listSortLoop (less : α → α → Bool) : Nat → List α → Option (List α)
  | 0, _ => none
  | fuel + 1, l =>
    let r := sortPass less l.length l
    if r.2 > 1 then listSortLoop less fuel r.1 else some r.1

/-- `list_sort (list, less, aux)`. -/
def listSort (less : α → α → Bool) (l : List α) : Option (List α) :=
  listSortLoop less (l.length + 1) l

/-- The loop of `list_unique` after the element `elem` it keeps: the elements it
keeps after `elem`, and those it removes, in order. -/
def listUniqueLoop (less : α → α → Bool) (elem : α) : List α → List α × List α
  | [] => ([], [])
  | next :: rest =>
    if !less elem next && !less next elem then
      let r := listUniqueLoop less elem rest
      (r.1, next :: r.2)
    else
      let r := listUniqueLoop less next rest
      (next :: r.1, r.2)

/-- `list_unique (list, duplicates, less, aux)`: the list left, and
`duplicates` after (`none` for `NULL`). -/
def listUnique (less : α → α → Bool) (l : List α) (duplicates : Option (List α)) :
    List α × Option (List α) :=
  match l with
  | [] => ([], duplicates)
  | elem :: rest =>
    let r := listUniqueLoop less elem rest
    (elem :: r.1, duplicates.map (· ++ r.2))

section Runs

variable (less : α → α → Bool)

theorem findEndOfRun_append (a : α) :
    ∀ rest : List α, (findEndOfRun less a rest).1 ++ (findEndOfRun less a rest).2 = a :: rest
  | [] => rfl
  | b :: rest => by
    simp only [findEndOfRun]
    split
    · rfl
    · dsimp only
      rw [List.cons_append, findEndOfRun_append b rest]

theorem findEndOfRun_fst (a : α) : ∀ rest : List α, ∃ r, (findEndOfRun less a rest).1 = a :: r
  | [] => ⟨[], rfl⟩
  | b :: rest => by
    simp only [findEndOfRun]
    split
    · exact ⟨[], rfl⟩
    · exact ⟨_, rfl⟩

theorem findEndOfRun_length (a : α) (rest : List α) :
    (findEndOfRun less a rest).2.length ≤ rest.length := by
  have h := congrArg List.length (findEndOfRun_append less a rest)
  obtain ⟨r, hr⟩ := findEndOfRun_fst less a rest
  rw [List.length_append, hr, List.length_cons, List.length_cons] at h
  omega

/-- A run is sorted. -/
theorem findEndOfRun_pairwise [IsStrictWeakOrder α fun a b => less a b = true] (a : α) :
    ∀ rest : List α, (findEndOfRun less a rest).1.Pairwise (fun x y => le less x y)
  | [] => List.pairwise_singleton _ _
  | b :: rest => by
    simp only [findEndOfRun]
    split
    · exact List.pairwise_singleton _ _
    · rename_i hba
      have hab : le less a b := by simp [le, hba]
      have ih := findEndOfRun_pairwise b rest
      obtain ⟨r, hr⟩ := findEndOfRun_fst less b rest
      rw [hr] at ih ⊢
      refine List.Pairwise.cons ?_ ih
      intro z hz
      rcases List.mem_cons.mp hz with rfl | hz
      · exact hab
      · exact le_trans hab ((List.pairwise_cons.mp ih).1 z hz)

/-- The run ends at a descent, or at the end of the list. -/
theorem descents_findEndOfRun (a : α) :
    ∀ rest : List α, descents less (a :: rest) =
      if (findEndOfRun less a rest).2 = [] then 0 else 1 + descents less (findEndOfRun less a rest).2
  | [] => rfl
  | b :: rest => by
    by_cases hba : less b a
    · simp [findEndOfRun, descents, hba]
    · have ih := descents_findEndOfRun b rest
      simp only [findEndOfRun, descents, if_neg hba, Nat.zero_add]
      exact ih

end Runs

section Merge

variable (less : α → α → Bool)

theorem inplaceMergeLoop_eq_merge :
    ∀ (fuel : Nat) (xs ys : List α), xs.length + ys.length ≤ fuel →
      inplaceMergeLoop less fuel xs ys = List.merge xs ys (le less)
  | 0, [], [], _ => by simp [inplaceMergeLoop]
  | 0, x :: xs, _, h => by simp at h
  | 0, [], y :: ys, h => by simp at h
  | _ + 1, [], ys, _ => by simp [inplaceMergeLoop]
  | _ + 1, x :: xs, [], _ => by simp [inplaceMergeLoop]
  | fuel + 1, x :: xs, y :: ys, h => by
    simp only [List.length_cons] at h
    rw [inplaceMergeLoop, List.cons_merge_cons]
    show (if le less x y then _ else _) = _
    split
    · rw [inplaceMergeLoop_eq_merge fuel xs (y :: ys) (by simp; omega)]
    · rw [inplaceMergeLoop_eq_merge fuel (x :: xs) ys (by simp; omega)]

/-- `inplace_merge` is the merge of the two runs that takes from the first on
ties. -/
theorem inplaceMerge_eq_merge (xs ys : List α) :
    inplaceMerge less xs ys = List.merge xs ys (le less) :=
  inplaceMergeLoop_eq_merge less _ xs ys (Nat.le_refl _)

end Merge

section Pass

variable (less : α → α → Bool)

theorem sortPass_nil (fuel : Nat) : sortPass less fuel [] = ([], 0) := by
  cases fuel <;> rfl

/-- A pass over a list that is one run leaves it. -/
theorem sortPass_of_run {fuel : Nat} {a : α} {rest : List α}
    (h : (findEndOfRun less a rest).2 = []) :
    sortPass less (fuel + 1) (a :: rest) = ((findEndOfRun less a rest).1, 1) := by
  simp only [sortPass, h]

/-- A pass merges the first two runs and goes on after them. -/
theorem sortPass_of_runs {fuel : Nat} {a b : α} {rest rest2 : List α}
    (h : (findEndOfRun less a rest).2 = b :: rest2) :
    sortPass less (fuel + 1) (a :: rest) =
      (inplaceMerge less (findEndOfRun less a rest).1 (findEndOfRun less b rest2).1 ++
        (sortPass less fuel (findEndOfRun less b rest2).2).1,
        (sortPass less fuel (findEndOfRun less b rest2).2).2 + 1) := by
  simp only [sortPass, h]

variable [IsStrictWeakOrder α fun a b => less a b = true]

/-- What one pass does: it permutes the list, keeps each class in order, makes
at most half as many merges as the list has runs, and leaves fewer descents than
it made merges. -/
theorem sortPass_spec :
    ∀ (fuel : Nat) (l : List α), l.length ≤ fuel →
      (sortPass less fuel l).1.Perm l ∧
      (∀ c, (sortPass less fuel l).1.filter (Incomp less c) = l.filter (Incomp less c)) ∧
      2 * (sortPass less fuel l).2 ≤ descents less l + 2 ∧
      (descents less (sortPass less fuel l).1 < (sortPass less fuel l).2 ∨ l = [])
  | fuel, [], _ => by
    rw [sortPass_nil]
    exact ⟨List.Perm.refl _, fun _ => rfl, by simp, .inr rfl⟩
  | 0, _ :: _, h => by simp at h
  | fuel + 1, a :: rest, hlen => by
    have happ1 := findEndOfRun_append less a rest
    have hsorted1 := findEndOfRun_pairwise less a rest
    have hdesc1 := descents_findEndOfRun less a rest
    have hlen1 := findEndOfRun_length less a rest
    cases hr : (findEndOfRun less a rest).2 with
    | nil =>
      -- one run: the pass ends with it
      rw [sortPass_of_run less hr]
      rw [hr, List.append_nil] at happ1
      rw [hr, if_pos rfl] at hdesc1
      rw [happ1] at hsorted1 ⊢
      exact ⟨List.Perm.refl _, fun _ => rfl, by omega,
        .inl (by rw [descents_eq_zero_of_pairwise hsorted1]; omega)⟩
    | cons b rest2 =>
      rw [sortPass_of_runs less hr]
      dsimp only
      have happ2 := findEndOfRun_append less b rest2
      have hsorted2 := findEndOfRun_pairwise less b rest2
      have hdesc2 := descents_findEndOfRun less b rest2
      have hlen2 := findEndOfRun_length less b rest2
      rw [hr] at happ1 hlen1
      rw [hr, if_neg (List.cons_ne_nil b rest2), hdesc2] at hdesc1
      generalize (findEndOfRun less a rest).1 = run1 at happ1 hsorted1 ⊢
      generalize (findEndOfRun less b rest2).1 = run2 at happ2 hsorted2 ⊢
      generalize (findEndOfRun less b rest2).2 = rest3 at happ2 hdesc1 hlen2 ⊢
      have hl : a :: rest = run1 ++ run2 ++ rest3 := by rw [List.append_assoc, happ2, happ1]
      have hlen3 : rest3.length ≤ fuel := by simp at hlen hlen1; omega
      obtain ⟨hperm, hstable, hcnt, hout⟩ := sortPass_spec fuel rest3 hlen3
      have hmerge := descents_eq_zero_of_pairwise
        (List.pairwise_merge (fun _ _ _ => StableSort.le_trans) StableSort.le_total run1 run2 hsorted1
          hsorted2)
      have hjoin := descents_append_le less (List.merge run1 run2 (le less)) (sortPass less fuel rest3).1
      rw [inplaceMerge_eq_merge]
      refine ⟨?_, fun c => ?_, ?_, .inl ?_⟩
      · rw [hl]
        exact (List.merge_perm_append _).append hperm
      · rw [List.filter_append, filter_merge_incomp c run2 hsorted1, hstable, hl,
          List.filter_append, List.filter_append]
      · -- the two runs end at descents, two more than the rest has
        rw [hdesc1]
        cases rest3 with
        | nil => simp [sortPass_nil]
        | cons d rest4 => simp only [if_neg (List.cons_ne_nil d rest4)]; omega
      · -- the merged runs make one sorted block before what the rest became
        cases rest3 with
        | nil =>
          rw [sortPass_nil, List.append_nil, hmerge]
          omega
        | cons d rest4 =>
          rcases hout with hout | hnil
          · omega
          · cases hnil

end Pass

section Sorting

variable {less : α → α → Bool} [IsStrictWeakOrder α fun a b => less a b = true]

/-- Passes while they merge: a list with fewer descents than `fuel` is sorted
stably within `fuel` passes. -/
theorem listSortLoop_spec :
    ∀ (fuel : Nat) (l : List α), descents less l < fuel →
      ∃ l', listSortLoop less fuel l = some l' ∧ IsSortOf less l l'
  | 0, _, h => absurd h (Nat.not_lt_zero _)
  | fuel + 1, l, hfuel => by
    obtain ⟨hperm, hstable, hcnt, hout⟩ := sortPass_spec less l.length l (Nat.le_refl _)
    rcases hout with hout | rfl
    · rw [listSortLoop]
      generalize sortPass less l.length l = r at hperm hstable hcnt hout
      split
      · -- more than one merge: the pass left fewer descents than it found
        have hdesc : descents less r.1 < fuel := by omega
        obtain ⟨l', hrun, hsort⟩ := listSortLoop_spec fuel r.1 hdesc
        exact ⟨l', hrun, hsort.perm.trans hperm, hsort.sorted,
          fun c => (hsort.stable c).trans (hstable c)⟩
      · -- one run: no descent is left
        have hdesc : descents less r.1 = 0 := by omega
        exact ⟨r.1, rfl, hperm, pairwise_of_descents_eq_zero hdesc, hstable⟩
    · exact ⟨[], by simp [listSortLoop, sortPass_nil], List.Perm.refl _, List.Pairwise.nil,
        fun _ => rfl⟩

/-- `list_sort` sorts every list stably: a list has fewer descents than
elements, so the passes it allows are enough. -/
theorem listSort_spec (l : List α) : ∃ l', listSort less l = some l' ∧ IsSortOf less l l' := by
  unfold listSort
  apply listSortLoop_spec
  cases l with
  | nil => exact Nat.zero_lt_one
  | cons a rest => exact Nat.lt_succ_of_lt (descents_lt_length (List.cons_ne_nil a rest))

example : listSort (fun a b : Nat × Nat => decide (a.1 < b.1)) [(2, 0), (1, 1), (2, 2), (1, 3)] =
    some [(1, 1), (1, 3), (2, 0), (2, 2)] := by decide

/-- `list_insert_ordered` into a sorted list inserts after the elements not
above the new one. -/
theorem listInsertOrdered_isInsertOf (elem : α) {l : List α}
    (hl : l.Pairwise fun a b => le less a b) :
    IsInsertOf less elem l (Devices.listInsertOrdered less elem l) := by
  rw [Devices.listInsertOrdered_eq_take_drop]
  exact isInsertOf_takeWhile_dropWhile elem hl

end Sorting

section Unique

variable (less : α → α → Bool)

theorem listUniqueLoop_sublist (elem : α) :
    ∀ rest : List α, (listUniqueLoop less elem rest).1.Sublist rest ∧
      (listUniqueLoop less elem rest).2.Sublist rest
  | [] => ⟨List.Sublist.slnil, List.Sublist.slnil⟩
  | next :: rest => by
    simp only [listUniqueLoop]
    split
    · have ih := listUniqueLoop_sublist elem rest
      exact ⟨ih.1.cons next, ih.2.cons_cons next⟩
    · have ih := listUniqueLoop_sublist next rest
      exact ⟨ih.1.cons_cons next, ih.2.cons next⟩

variable {less} [IsStrictWeakOrder α fun a b => less a b = true]

/-- The loop of `list_unique` after `elem` in a sorted list: of each class it
keeps `elem` or the first element after it, and removes the others in order. -/
theorem listUniqueLoop_filter (elem : α) :
    ∀ {rest : List α}, (elem :: rest).Pairwise (fun a b => le less a b) → ∀ c,
      (elem :: (listUniqueLoop less elem rest).1).filter (Incomp less c) =
          ((elem :: rest).filter (Incomp less c)).take 1 ∧
        (listUniqueLoop less elem rest).2.filter (Incomp less c) =
          ((elem :: rest).filter (Incomp less c)).drop 1
  | [], _, c => by
    simp only [listUniqueLoop, List.filter_cons, List.filter_nil]
    split <;> simp
  | next :: rest, hs, c => by
    have hle : le less elem next := (List.pairwise_cons.mp hs).1 next List.mem_cons_self
    simp only [listUniqueLoop]
    split
    · -- `next` is equivalent to `elem`: it is removed and `elem` stays the one kept
      rename_i heq
      have hs' : (elem :: rest).Pairwise (fun a b => le less a b) :=
        hs.sublist ((List.sublist_cons_self next rest).cons_cons elem)
      obtain ⟨ih1, ih2⟩ := listUniqueLoop_filter elem hs' c
      by_cases hc : Incomp less c elem
      · have hcn : Incomp less c next := incomp_trans hc heq
        simp only [List.filter_cons_of_pos hc, List.filter_cons_of_pos hcn, List.take_succ_cons,
          List.take_zero, List.drop_succ_cons, List.drop_zero] at ih1 ih2 ⊢
        exact ⟨ih1, by rw [ih2]⟩
      · have hcn : ¬Incomp less c next := fun hcn =>
          hc (incomp_trans hcn (by rw [incomp_symm]; exact heq))
        simp only [List.filter_cons_of_neg hc, List.filter_cons_of_neg hcn] at ih1 ih2 ⊢
        exact ⟨ih1, ih2⟩
    · -- `next` is above `elem`, and so is all that follows: `next` is kept
      rename_i hne
      have hlt : less elem next := by
        simp only [le, Bool.and_eq_true, Bool.not_eq_true', not_and] at hle hne
        cases h : less elem next
        · exact absurd hle (hne h)
        · rfl
      have hs' := (List.pairwise_cons.mp hs).2
      obtain ⟨ih1, ih2⟩ := listUniqueLoop_filter next hs' c
      by_cases hc : Incomp less c elem
      · have hnone : (next :: rest).filter (Incomp less c) = [] := by
          apply filter_incomp_eq_nil hc
          intro b hb
          rcases List.mem_cons.mp hb with rfl | hb
          · exact hlt
          · exact lt_of_lt_of_le hlt ((List.pairwise_cons.mp hs').1 b hb)
        rw [hnone] at ih1 ih2
        rw [List.filter_cons_of_pos hc, List.filter_cons_of_pos hc, ih1, hnone, ih2]
        exact ⟨rfl, rfl⟩
      · rw [List.filter_cons_of_neg hc, List.filter_cons_of_neg hc]
        exact ⟨ih1, ih2⟩

/-- `list_unique` on a sorted list keeps the first element of each class and
appends the others, in order, to `duplicates` when it is given. -/
theorem listUnique_spec {l : List α} (hl : l.Pairwise fun a b => le less a b)
    (duplicates : Option (List α)) :
    ∃ removed, IsDedupOf less l (listUnique less l duplicates).1 removed ∧
      (listUnique less l duplicates).2 = duplicates.map (· ++ removed) := by
  cases l with
  | nil =>
    refine ⟨[], ⟨List.Sublist.slnil, List.Sublist.slnil, fun _ => rfl, fun _ => rfl⟩, ?_⟩
    cases duplicates <;> simp [listUnique]
  | cons elem rest =>
    obtain ⟨hkept, hremoved⟩ := listUniqueLoop_sublist less elem rest
    refine ⟨(listUniqueLoop less elem rest).2, ⟨hkept.cons_cons elem, hremoved.cons elem,
      fun c => (listUniqueLoop_filter elem hl c).1, fun c => (listUniqueLoop_filter elem hl c).2⟩,
      rfl⟩

end Unique

/-- `list_sort` sorts every list stably under every strict weak order;
`list_insert_ordered` into a sorted list keeps it sorted, with the new element
after those equivalent to it; and `list_unique` on a sorted list keeps the first
element of each class and hands the others, in order, to `duplicates`. -/
theorem list_sort_stable (less : α → α → Bool) [IsStrictWeakOrder α fun a b => less a b = true]
    (l : List α) :
    (∃ l', listSort less l = some l' ∧ IsSortOf less l l') ∧
      (l.Pairwise (fun a b => le less a b) → ∀ elem,
        IsInsertOf less elem l (Devices.listInsertOrdered less elem l) ∧
          (Devices.listInsertOrdered less elem l).Pairwise fun a b => le less a b) ∧
      (l.Pairwise (fun a b => le less a b) → ∀ duplicates,
        ∃ removed, IsDedupOf less l (listUnique less l duplicates).1 removed ∧
          (listUnique less l duplicates).2 = duplicates.map (· ++ removed)) := by
  refine ⟨listSort_spec l, fun hl elem => ?_, fun hl duplicates => listUnique_spec hl duplicates⟩
  have hins := listInsertOrdered_isInsertOf elem hl
  exact ⟨hins, pairwise_of_isInsertOf hl hins⟩

/-- Sorting pairs by their first component. -/
theorem list_sort_stable_keys :
    IsStrictWeakOrder (Nat × Nat) (fun a b => decide (a.1 < b.1) = true) ∧
      ((∃ l', listSort (fun a b : Nat × Nat => decide (a.1 < b.1))
          [(2, 0), (1, 1), (2, 2), (1, 3)] = some l' ∧
          IsSortOf (fun a b : Nat × Nat => decide (a.1 < b.1)) [(2, 0), (1, 1), (2, 2), (1, 3)] l') ∧
        ([(2, 0), (1, 1), (2, 2), (1, 3)].Pairwise
            (fun a b => le (fun a b : Nat × Nat => decide (a.1 < b.1)) a b) → ∀ elem,
          IsInsertOf (fun a b : Nat × Nat => decide (a.1 < b.1)) elem [(2, 0), (1, 1), (2, 2), (1, 3)]
              (Devices.listInsertOrdered (fun a b : Nat × Nat => decide (a.1 < b.1)) elem
                [(2, 0), (1, 1), (2, 2), (1, 3)]) ∧
            (Devices.listInsertOrdered (fun a b : Nat × Nat => decide (a.1 < b.1)) elem
                [(2, 0), (1, 1), (2, 2), (1, 3)]).Pairwise
              fun a b => le (fun a b : Nat × Nat => decide (a.1 < b.1)) a b) ∧
        ([(2, 0), (1, 1), (2, 2), (1, 3)].Pairwise
            (fun a b => le (fun a b : Nat × Nat => decide (a.1 < b.1)) a b) → ∀ duplicates,
          ∃ removed, IsDedupOf (fun a b : Nat × Nat => decide (a.1 < b.1))
              [(2, 0), (1, 1), (2, 2), (1, 3)]
              (listUnique (fun a b : Nat × Nat => decide (a.1 < b.1))
                [(2, 0), (1, 1), (2, 2), (1, 3)] duplicates).1 removed ∧
            (listUnique (fun a b : Nat × Nat => decide (a.1 < b.1))
                [(2, 0), (1, 1), (2, 2), (1, 3)] duplicates).2 = duplicates.map (· ++ removed))) :=
  have := isStrictWeakOrder_key (Prod.fst : Nat × Nat → Nat)
  ⟨this, list_sort_stable _ _⟩

end Pintos.Kernel

import Mathlib

/-!
# Sorting under a strict weak order

A comparison `less : α → α → Bool` that is a strict weak order sorts a list when
no element is less than one before it (`le less a b`, for `a` before `b`).
Elements that are not less than each other are equivalent (`Incomp`), and a sort
is stable when it keeps the order of the elements of each class: filtering by
the class of any `c` gives the same list before and after.

`List.merge` under `le less` is stable (`filter_merge_incomp`). `descents` counts
the adjacent pairs out of order. A list has none exactly when it is sorted
(`pairwise_of_descents_eq_zero`, `descents_eq_zero_of_pairwise`), and a list
made of sorted blocks has fewer than there are blocks (`descents_append_le`). A
natural merge sort shrinks this count pass after pass.
-/

namespace StableSort

variable {α : Type}

/-- `a` may come before `b` in a sorted list: `b` is not less than `a`. -/
def le (less : α → α → Bool) (a b : α) : Bool := !less b a

/-- Neither of `a` and `b` is less than the other. -/
def Incomp (less : α → α → Bool) (a b : α) : Bool := !less a b && !less b a

/-- The number of adjacent pairs of `l` out of order. -/
def descents (less : α → α → Bool) : List α → Nat
  | [] => 0
  | [_] => 0
  | a :: b :: l => (if less b a then 1 else 0) + descents less (b :: l)

/-- `l'` is `l` sorted stably. -/
structure IsSortOf (less : α → α → Bool) (l l' : List α) : Prop where
  perm : l'.Perm l
  sorted : l'.Pairwise fun a b => le less a b
  stable : ∀ c, l'.filter (Incomp less c) = l.filter (Incomp less c)

/-- `l'` is `l` with `a` put after the elements not above it, and so after every
element equivalent to it, and before those above it. -/
def IsInsertOf (less : α → α → Bool) (a : α) (l l' : List α) : Prop :=
  ∃ pre post, l = pre ++ post ∧ l' = pre ++ a :: post ∧
    (∀ b ∈ pre, le less b a) ∧ ∀ b ∈ post, less a b

/-- `kept` holds the first element of each class of `l` and `removed` the
others, each in the order of `l`. -/
structure IsDedupOf (less : α → α → Bool) (l kept removed : List α) : Prop where
  kept_sublist : kept.Sublist l
  removed_sublist : removed.Sublist l
  kept_filter : ∀ c, kept.filter (Incomp less c) = (l.filter (Incomp less c)).take 1
  removed_filter : ∀ c, removed.filter (Incomp less c) = (l.filter (Incomp less c)).drop 1

theorem incomp_symm (less : α → α → Bool) (a b : α) : Incomp less a b = Incomp less b a := by
  simp only [Incomp, Bool.and_comm]

/-- Comparing keys in a linear order is a strict weak order. -/
theorem isStrictWeakOrder_key {β : Type} [LinearOrder β] (key : α → β) :
    IsStrictWeakOrder α fun a b => decide (key a < key b) = true where
  irrefl a := by simp
  trans a b c hab hbc := by
    simp only [decide_eq_true_eq] at hab hbc ⊢
    exact lt_trans hab hbc
  incomp_trans a b c hab hbc := by
    simp only [decide_eq_true_eq, not_lt] at hab hbc ⊢
    exact ⟨le_trans hbc.1 hab.1, le_trans hab.2 hbc.2⟩

section Order

variable {less : α → α → Bool} [IsStrictWeakOrder α fun a b => less a b = true] {a b c : α}

theorem lt_irrefl (a : α) : less a a = false := by
  simpa using irrefl (r := fun a b => less a b = true) a

theorem lt_trans (hab : less a b) (hbc : less b c) : less a c :=
  trans (r := fun a b => less a b = true) hab hbc

theorem lt_asymm (hab : less a b) : less b a = false := by
  cases h : less b a
  · rfl
  · have := lt_trans hab h
    rw [(lt_irrefl a : less a a = false)] at this
    cases this

/-- Negative transitivity: any `b` is above `a` or below `c` when `a` is below
`c`. -/
theorem lt_conn (hac : less a c) (b : α) : less a b ∨ less b c := by
  cases hab : less a b
  · cases hbc : less b c
    · exfalso
      cases hba : less b a
      · cases hcb : less c b
        · -- `a`, `b` and `c` would all be equivalent
          have := @IsStrictWeakOrder.incomp_trans _ (fun a b => less a b = true) _ a b c
            ⟨by simp [hab], by simp [hba]⟩ ⟨by simp [hbc], by simp [hcb]⟩
          exact this.1 hac
        · have := lt_trans hac hcb
          rw [hab] at this
          cases this
      · have := lt_trans hba hac
        rw [hbc] at this
        cases this
    · exact .inr rfl
  · exact .inl rfl

theorem le_trans (hab : le less a b) (hbc : le less b c) : le less a c := by
  simp only [le, Bool.not_eq_true'] at hab hbc ⊢
  cases hca : less c a
  · rfl
  · rcases lt_conn hca b with h | h
    · rw [hbc] at h
      cases h
    · rw [hab] at h
      cases h

theorem le_total (a b : α) : (le less a b || le less b a) = true := by
  simp only [le]
  cases hba : less b a
  · rfl
  · simp [lt_asymm hba]

theorem le_of_lt (hab : less a b) : le less a b := by
  simp [le, lt_asymm hab]

theorem lt_of_lt_of_le (hab : less a b) (hbc : le less b c) : less a c := by
  simp only [le, Bool.not_eq_true'] at hbc
  rcases lt_conn hab c with h | h
  · exact h
  · rw [hbc] at h
    cases h

theorem incomp_trans (hab : Incomp less a b) (hbc : Incomp less b c) : Incomp less a c := by
  simp only [Incomp, Bool.and_eq_true, Bool.not_eq_true'] at hab hbc ⊢
  have := @IsStrictWeakOrder.incomp_trans _ (fun a b => less a b = true) _ a b c
    ⟨by simp [hab.1], by simp [hab.2]⟩ ⟨by simp [hbc.1], by simp [hbc.2]⟩
  simpa using this

/-- An element below one of a class is below the whole class. -/
theorem lt_of_lt_of_incomp (hab : less a b) (hbc : Incomp less b c) : less a c := by
  simp only [Incomp, Bool.and_eq_true, Bool.not_eq_true'] at hbc
  exact lt_of_lt_of_le hab (by simp [le, hbc.2])

/-- An element above one of a class is above the whole class. -/
theorem lt_of_incomp_of_lt (hab : Incomp less a b) (hbc : less b c) : less a c := by
  simp only [Incomp, Bool.and_eq_true, Bool.not_eq_true'] at hab
  rcases lt_conn hbc a with h | h
  · rw [hab.2] at h
    cases h
  · exact h

/-- No element above a member of `c`'s class is in it. -/
theorem filter_incomp_eq_nil {l : List α} (hc : Incomp less c a) (hl : ∀ b ∈ l, less a b) :
    l.filter (Incomp less c) = [] := by
  rw [List.filter_eq_nil_iff]
  intro b hb hcb
  have hab : Incomp less a b := incomp_trans (by rw [incomp_symm]; exact hc) hcb
  simp [Incomp, hl b hb] at hab

/-- Merging keeps the order within each class: the members of the class from
the first list come first, in their order, then those from the second. -/
theorem filter_merge_incomp (c : α) :
    ∀ {xs : List α} (ys : List α), xs.Pairwise (fun a b => le less a b) →
      (List.merge xs ys (le less)).filter (Incomp less c) =
        xs.filter (Incomp less c) ++ ys.filter (Incomp less c)
  | [], ys, _ => by simp
  | x :: xs, [], _ => by simp
  | x :: xs, y :: ys, hxs => by
    by_cases hxy : le less x y
    · rw [List.cons_merge_cons_pos _ _ _ hxy, List.filter_cons, List.filter_cons (x := x),
        filter_merge_incomp c (y :: ys) (List.pairwise_cons.mp hxs).2]
      split <;> rfl
    · rw [List.cons_merge_cons_neg _ _ _ hxy, List.filter_cons, filter_merge_incomp c ys hxs,
        List.filter_cons (x := y)]
      by_cases hy : Incomp less c y
      · -- `y` is below `x`, and so below the whole first list: no member of the
        -- first list is in `y`'s class
        have hyx : less y x := by simpa [le] using hxy
        have hnone : (x :: xs).filter (Incomp less c) = [] := by
          apply filter_incomp_eq_nil hy
          intro u hu
          rcases List.mem_cons.mp hu with rfl | hu
          · exact hyx
          · exact lt_of_lt_of_le hyx ((List.pairwise_cons.mp hxs).1 u hu)
        rw [hnone, if_pos hy, if_pos hy]
        rfl
      · rw [if_neg hy, if_neg hy]

/-- In a sorted list, what follows the elements not above `a` is above it. -/
theorem lt_of_mem_dropWhile (a : α) :
    ∀ {l : List α}, l.Pairwise (fun a b => le less a b) →
      ∀ b ∈ l.dropWhile (fun b => !less a b), less a b
  | [], _, b, hb => by simp at hb
  | x :: l, hl, b, hb => by
    rw [List.dropWhile_cons] at hb
    by_cases hx : less a x
    · -- the scan stops at `x`, which is below every later element
      rw [if_neg (by simp [hx])] at hb
      rcases List.mem_cons.mp hb with rfl | hb
      · exact hx
      · exact lt_of_lt_of_le hx ((List.pairwise_cons.mp hl).1 b hb)
    · rw [if_pos (by simpa using hx)] at hb
      exact lt_of_mem_dropWhile a (List.pairwise_cons.mp hl).2 b hb

/-- Putting `a` before the first element above it in a sorted list. -/
theorem isInsertOf_takeWhile_dropWhile (a : α) {l : List α}
    (hl : l.Pairwise fun a b => le less a b) :
    IsInsertOf less a l (l.takeWhile (fun b => !less a b) ++ a :: l.dropWhile (fun b => !less a b)) :=
  ⟨_, _, List.takeWhile_append_dropWhile.symm, rfl,
    fun _ hb => List.mem_takeWhile_imp (p := fun b => !less a b) hb, lt_of_mem_dropWhile a hl⟩

/-- An insertion into a sorted list keeps it sorted. -/
theorem pairwise_of_isInsertOf {l l' : List α} (hl : l.Pairwise fun a b => le less a b)
    (h : IsInsertOf less a l l') : l'.Pairwise fun a b => le less a b := by
  obtain ⟨pre, post, rfl, rfl, hpre, hpost⟩ := h
  obtain ⟨hsorted_pre, hsorted_post, hcross⟩ := List.pairwise_append.mp hl
  refine List.pairwise_append.mpr ⟨hsorted_pre, ?_, ?_⟩
  · exact List.Pairwise.cons (fun b hb => le_of_lt (hpost b hb)) hsorted_post
  · intro b hb d hd
    rcases List.mem_cons.mp hd with rfl | hd
    · exact hpre b hb
    · exact hcross b hb d hd

end Order

section Descents

variable {less : α → α → Bool}

theorem descents_eq_zero_of_pairwise :
    ∀ {l : List α}, l.Pairwise (fun a b => le less a b) → descents less l = 0
  | [], _ => rfl
  | [_], _ => rfl
  | a :: b :: l, h => by
    have hab : less b a = false := by
      simpa [le] using (List.pairwise_cons.mp h).1 b List.mem_cons_self
    rw [descents, hab, descents_eq_zero_of_pairwise (List.pairwise_cons.mp h).2]
    rfl

theorem pairwise_of_descents_eq_zero [IsStrictWeakOrder α fun a b => less a b = true] :
    ∀ {l : List α}, descents less l = 0 → l.Pairwise (fun a b => le less a b)
  | [], _ => List.Pairwise.nil
  | [_], _ => List.pairwise_singleton _ _
  | a :: b :: l, h => by
    rw [descents] at h
    have hba : less b a = false := by
      cases hb : less b a
      · rfl
      · rw [hb] at h
        simp at h
    have hab : le less a b := by simp [le, hba]
    have ih := pairwise_of_descents_eq_zero (l := b :: l) (by omega)
    refine List.Pairwise.cons ?_ ih
    intro z hz
    rcases List.mem_cons.mp hz with rfl | hz
    · exact hab
    · exact le_trans hab ((List.pairwise_cons.mp ih).1 z hz)

/-- Joining two lists adds at most one descent. -/
theorem descents_append_le (less : α → α → Bool) :
    ∀ (xs ys : List α), descents less (xs ++ ys) ≤ descents less xs + 1 + descents less ys
  | [], ys => by simp [descents]
  | [a], [] => by simp [descents]
  | [a], b :: ys => by
    show (if less b a then 1 else 0) + descents less (b :: ys) ≤ 0 + 1 + descents less (b :: ys)
    split <;> omega
  | a :: b :: xs, ys => by
    have ih := descents_append_le less (b :: xs) ys
    show (if less b a then 1 else 0) + descents less (b :: xs ++ ys) ≤
      (if less b a then 1 else 0) + descents less (b :: xs) + 1 + descents less ys
    omega

theorem descents_lt_length : ∀ {l : List α}, l ≠ [] → descents less l < l.length
  | [], h => absurd rfl h
  | [_], _ => by simp [descents]
  | a :: b :: l, _ => by
    have ih := descents_lt_length (l := b :: l) (List.cons_ne_nil b l)
    simp only [descents, List.length_cons] at ih ⊢
    split <;> omega

end Descents

end StableSort

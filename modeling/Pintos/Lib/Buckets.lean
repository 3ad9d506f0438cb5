import Mathlib

/-!
# Elements spread over buckets by a key

A table of buckets is a list of lists, and `bs.getD i []` is its bucket `i`. The table is
partitioned by `key` when every element sits in the bucket its key names (`Partitioned`).

Pushing an element to the front of the bucket of its key keeps the table partitioned, and
the concatenation of the buckets gains the element, up to order (`flatten_modify_cons_perm`).
Pushing a list of elements one by one adds them all (`flatten_pushAll_perm`), and
erasing an element from its bucket erases it from the concatenation
(`flatten_modify_erase_perm`).

In a partitioned table an element lies in the bucket of its key (`Partitioned.mem_getD`).
A search for the one element of a predicate gives the same answer in any two lists that
hold it (`find?_eq_of_unique`), so a search of the right bucket answers for the whole table.
-/

namespace Buckets

open scoped List

variable {α : Type}

/-- Every element of `bs` sits in the bucket its key names. -/
def Partitioned (key : α → Nat) (bs : List (List α)) : Prop :=
  ∀ i, ∀ x ∈ bs.getD i [], key x = i

section Modify

variable {bs : List (List α)} {k : Nat}

theorem getD_modify (f : List α → List α) (hk : k < bs.length) (i : Nat) :
    (bs.modify k f).getD i [] = if k = i then f (bs.getD i []) else bs.getD i [] := by
  simp only [List.getD_eq_getElem?_getD, List.getElem?_modify]
  split
  · rename_i hki
    subst hki
    rw [List.getElem?_eq_getElem hk]
    rfl
  · cases bs[i]? <;> rfl

theorem mem_flatten_of_mem_getD {x : α} {i : Nat} (hx : x ∈ bs.getD i []) : x ∈ bs.flatten := by
  rw [List.getD_eq_getElem?_getD] at hx
  cases hb : bs[i]? with
  | none => simp [hb] at hx
  | some b =>
    rw [hb, Option.getD_some] at hx
    exact List.mem_flatten.mpr ⟨b, List.mem_of_getElem? hb, hx⟩

/-- Pushing `x` to the front of one bucket adds it to the concatenation. -/
theorem flatten_modify_cons_perm (hk : k < bs.length) (x : α) :
    (bs.modify k (x :: ·)).flatten.Perm (x :: bs.flatten) := by
  induction bs generalizing k with
  | nil => simp at hk
  | cons b bs ih =>
    cases k with
    | zero => simp [List.modify]
    | succ k =>
      have ih' := ih (by simpa using hk)
      simp only [List.modify_succ_cons, List.flatten_cons]
      exact (ih'.append_left b).trans List.perm_middle

/-- Erasing `x` from a bucket that holds it erases it from the concatenation. -/
theorem flatten_modify_erase_perm [DecidableEq α] {x : α} (hx : x ∈ bs.getD k []) :
    (bs.modify k (·.erase x)).flatten.Perm (bs.flatten.erase x) := by
  induction bs generalizing k with
  | nil => simp at hx
  | cons b bs ih =>
    cases k with
    | zero =>
      have hxb : x ∈ b := by simpa using hx
      simp [List.modify, List.erase_append_left _ hxb]
    | succ k =>
      have hxr : x ∈ bs.getD k [] := by simpa using hx
      simp only [List.modify_succ_cons, List.flatten_cons]
      by_cases hxb : x ∈ b
      · -- both sides are `b ++ bs.flatten` without one copy of `x`
        rw [List.erase_append_left _ hxb]
        have hrest : x ∈ bs.flatten := mem_flatten_of_mem_getD hxr
        calc b ++ (bs.modify k (·.erase x)).flatten
            _ ~ b ++ bs.flatten.erase x := (ih hxr).append_left b
            _ ~ (x :: b.erase x) ++ bs.flatten.erase x :=
              (List.perm_cons_erase hxb).append_right _
            _ ~ b.erase x ++ x :: bs.flatten.erase x := List.perm_middle.symm
            _ ~ b.erase x ++ bs.flatten :=
              ((List.perm_cons_erase hrest).symm).append_left _
      · rw [List.erase_append_right _ hxb]
        exact (ih hxr).append_left b

end Modify

section Partition

variable {key : α → Nat} {bs : List (List α)}

theorem partitioned_replicate (n : Nat) : Partitioned key (List.replicate n []) := by
  intro i x hx
  simp [List.getD_eq_getElem?_getD, List.getElem?_replicate] at hx
  split at hx <;> simp at hx

theorem partitioned_map_nil (bs : List (List α)) : Partitioned key (bs.map fun _ => []) := by
  intro i x hx
  simp [List.getD_eq_getElem?_getD] at hx

theorem Partitioned.modify_cons (h : Partitioned key bs) {x : α} (hk : key x < bs.length) :
    Partitioned key (bs.modify (key x) (x :: ·)) := by
  intro i y hy
  rw [getD_modify _ hk] at hy
  split at hy
  · rename_i hki
    rcases List.mem_cons.mp hy with rfl | hy
    · exact hki
    · exact h i y hy
  · exact h i y hy

theorem Partitioned.modify_erase [DecidableEq α] (h : Partitioned key bs) (k : Nat) (x : α) :
    Partitioned key (bs.modify k (·.erase x)) := by
  intro i y hy
  by_cases hk : k < bs.length
  · rw [getD_modify _ hk] at hy
    split at hy
    · exact h i y (List.mem_of_mem_erase hy)
    · exact h i y hy
  · rw [List.modify_eq_self (by omega)] at hy
    exact h i y hy

/-- An element of a partitioned table lies in the bucket of its key. -/
theorem Partitioned.mem_getD (h : Partitioned key bs) {x : α} (hx : x ∈ bs.flatten) :
    x ∈ bs.getD (key x) [] := by
  obtain ⟨b, hb, hxb⟩ := List.mem_flatten.mp hx
  obtain ⟨i, hi, rfl⟩ := List.getElem_of_mem hb
  have hgi : bs.getD i [] = bs[i] := by
    rw [List.getD_eq_getElem?_getD, List.getElem?_eq_getElem hi, Option.getD_some]
  have hkey : key x = i := h i x (hgi ▸ hxb)
  rw [hkey, hgi]
  exact hxb

variable (key) in
/-- `xs` pushed one by one, each to the front of the bucket of its key. -/
def pushAll (bs : List (List α)) (xs : List α) : List (List α) :=
  xs.foldl (fun bs x => bs.modify (key x) (x :: ·)) bs

theorem length_pushAll (bs : List (List α)) (xs : List α) :
    (pushAll key bs xs).length = bs.length := by
  induction xs generalizing bs with
  | nil => rfl
  | cons x xs ih =>
    simp only [pushAll, List.foldl_cons] at ih ⊢
    rw [ih, List.length_modify]

theorem Partitioned.pushAll (h : Partitioned key bs) {xs : List α}
    (hk : ∀ x ∈ xs, key x < bs.length) : Partitioned key (pushAll key bs xs) := by
  induction xs generalizing bs with
  | nil => exact h
  | cons x xs ih =>
    simp only [Buckets.pushAll, List.foldl_cons]
    apply ih (h.modify_cons (hk x List.mem_cons_self))
    intro y hy
    rw [List.length_modify]
    exact hk y (List.mem_cons_of_mem x hy)

/-- Pushing elements whose keys name buckets adds them all to the concatenation. -/
theorem flatten_pushAll_perm {xs : List α} (hk : ∀ x ∈ xs, key x < bs.length) :
    (pushAll key bs xs).flatten.Perm (xs ++ bs.flatten) := by
  induction xs generalizing bs with
  | nil => exact List.Perm.refl _
  | cons x xs ih =>
    simp only [pushAll, List.foldl_cons]
    have hx := flatten_modify_cons_perm (hk x List.mem_cons_self) x
    have hrest : ∀ y ∈ xs, key y < (bs.modify (key x) (x :: ·)).length := by
      intro y hy
      rw [List.length_modify]
      exact hk y (List.mem_cons_of_mem x hy)
    calc (pushAll key (bs.modify (key x) (x :: ·)) xs).flatten
        _ ~ xs ++ (bs.modify (key x) (x :: ·)).flatten := ih hrest
        _ ~ xs ++ x :: bs.flatten := hx.append_left xs
        _ ~ x :: (xs ++ bs.flatten) := List.perm_middle

end Partition

/-- Two lists give the same answer to a search for the one element of `p` when the first
is inside the second and holds every element of the second that `p` accepts. -/
theorem find?_eq_of_unique {p : α → Bool} {l l' : List α} (hsub : ∀ x ∈ l, x ∈ l')
    (hin : ∀ x ∈ l', p x → x ∈ l) (huniq : ∀ x ∈ l', ∀ y ∈ l', p x → p y → x = y) :
    l.find? p = l'.find? p := by
  cases h' : l'.find? p with
  | none =>
    rw [List.find?_eq_none] at h' ⊢
    exact fun x hx => h' x (hsub x hx)
  | some z =>
    have hz := List.mem_of_find?_eq_some h'
    have hpz := List.find?_some h'
    obtain ⟨w, hw⟩ : ∃ w, l.find? p = some w :=
      Option.isSome_iff_exists.mp (List.find?_isSome.mpr ⟨z, hin z hz hpz, hpz⟩)
    rw [hw, huniq w (hsub w (List.mem_of_find?_eq_some hw)) z hz (List.find?_some hw) hpz]

end Buckets

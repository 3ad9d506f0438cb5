import Mathlib
import Pintos.Kernel.Hash
import Pintos.Lib.Simulation
import Pintos.Lib.StableSort

/-!
# The hash table is a set of elements up to `less`

What `hash.h` promises: the table holds elements no two of which are equal
under `less`; `hash_insert` adds an element unless an equal one is there,
`hash_replace` puts it in that one's place, `hash_find` and `hash_delete` find
and take out the equal one, and `hash_apply` and `hash_clear` hand every
element to their function once. `setCall` says that over a list of elements
whose order does not matter; `hashCall` is the table's answer to the same call.

`Refines` relates a table to such a list: the table keeps its invariant
(`HashInv`: a power of two, at least four, of buckets, each element in the
bucket `find_bucket` names, `elem_cnt` counting them, no two equal) and its
buckets hold the list's elements. For a strict weak order `less` and a hash
function that gives equal elements equal values (`HashConsistent`), every call
keeps the relation and answers as the set does (`hashCall_outputLockstep`).
So from `hash_init`, every list of calls gets the set's answers
(`hash_answers_eq_set`) and leaves a table that keeps the invariant
(`hashInv_of_run`), whichever `malloc` calls fail.
-/

namespace Pintos.Kernel

open StableSort
open scoped List

variable {α : Type}

/-- The calls on a table, with whether the `malloc` of their `rehash` succeeds. -/
inductive HashCall (α : Type) where
  | insert (new : α) (alloc : Bool)
  | replace (new : α) (alloc : Bool)
  | find (e : α)
  | delete (e : α) (alloc : Bool)
  | apply
  | clear
  | size
  | empty

/-- What a call returns: an element or a null pointer, the elements handed to a
function in some order, a count, or whether the table is empty. -/
inductive HashAnswer (α : Type) where
  | elem (e : Option α)
  | elems (m : Multiset α)
  | size (n : Nat)
  | empty (b : Bool)

section Calls

variable (hash : α → UInt32) (less : α → α → Bool)

/-- A call on the table and its answer. -/
def hashCall [DecidableEq α] (h : Hash α) : HashCall α → Hash α × HashAnswer α
  | .insert new alloc =>
    let r := hashInsert hash less alloc h new
    (r.1, .elem r.2)
  | .replace new alloc =>
    let r := hashReplace hash less alloc h new
    (r.1, .elem r.2)
  | .find e => (h, .elem (hashFind hash less h e))
  | .delete e alloc =>
    let r := hashDelete hash less alloc h e
    (r.1, .elem r.2)
  | .apply => (h, .elems (hashApply h : Multiset α))
  | .clear =>
    let r := hashClear h
    (r.1, .elems (r.2 : Multiset α))
  | .size => (h, .size (hashSize h))
  | .empty => (h, .empty (hashEmpty h))

/-- The element of `s` equal to `e` under `less`. -/
def setFind (s : List α) (e : α) : Option α := s.find? fun x => Incomp less x e

/-- `s` without the elements equal to `e`. -/
def setErase (s : List α) (e : α) : List α := s.filter fun x => !Incomp less x e

/-- A call on a set of elements no two of which are equal, and its answer. -/
def setCall (s : List α) : HashCall α → List α × HashAnswer α
  | .insert new _ =>
    match setFind less s new with
    | some old => (s, .elem (some old))
    | none => (new :: s, .elem none)
  | .replace new _ => (new :: setErase less s new, .elem (setFind less s new))
  | .find e => (s, .elem (setFind less s e))
  | .delete e _ => (setErase less s e, .elem (setFind less s e))
  | .apply => (s, .elems s)
  | .clear => ([], .elems s)
  | .size => (s, .size s.length)
  | .empty => (s, .empty s.isEmpty)

/-- The invariant of a table. -/
structure HashInv (h : Hash α) : Prop where
  bucketCnt_pow : ∃ k, 2 ≤ k ∧ h.buckets.length = 2 ^ k
  partitioned : Buckets.Partitioned (findBucket hash h.buckets.length) h.buckets
  elemCnt_eq : h.elemCnt = h.buckets.flatten.length
  distinct : h.buckets.flatten.Pairwise fun a b => Incomp less a b = false

/-- The table keeps its invariant and holds the elements of `s`. -/
def Refines (h : Hash α) (s : List α) : Prop :=
  HashInv hash less h ∧ h.buckets.flatten.Perm s

/-- Elements equal under `less` hash alike. -/
def HashConsistent : Prop := ∀ a b, Incomp less a b = true → hash a = hash b

end Calls

/-! ## The set -/

section Set

variable {less : α → α → Bool}

theorem incomp_false_symm : ∀ {a b : α}, Incomp less a b = false → Incomp less b a = false := by
  intro a b h
  rwa [incomp_symm]

theorem setFind_eq_none_iff {s : List α} {e : α} :
    setFind less s e = none ↔ ∀ x ∈ s, Incomp less x e = false := by
  simp [setFind, List.find?_eq_none]

theorem setFind_some {s : List α} {e o : α} (h : setFind less s e = some o) :
    o ∈ s ∧ Incomp less o e = true :=
  ⟨List.mem_of_find?_eq_some h, List.find?_some (p := fun x => Incomp less x e) h⟩

theorem setErase_eq_self {s : List α} {e : α} (h : setFind less s e = none) :
    setErase less s e = s := by
  rw [setErase, List.filter_eq_self]
  intro x hx
  simp [setFind_eq_none_iff.mp h x hx]

theorem setFind_setErase (s : List α) (e : α) : setFind less (setErase less s e) e = none := by
  rw [setFind_eq_none_iff]
  intro x hx
  simpa [setErase] using (List.mem_filter.mp hx).2

/-- Two elements of a set that are equal under `less` are the same. -/
theorem eq_of_incomp {s : List α} (hs : s.Pairwise fun a b => Incomp less a b = false)
    {x y : α} (hx : x ∈ s) (hy : y ∈ s) (hxy : Incomp less x y = true) : x = y := by
  have : Std.Symm fun a b : α => Incomp less a b = false := ⟨fun _ _ => incomp_false_symm⟩
  by_contra hne
  have hfalse := hs.forall hx hy hne
  rw [hxy] at hfalse
  cases hfalse

variable [IsStrictWeakOrder α fun a b => less a b = true] [DecidableEq α]

/-- Erasing the elements equal to `e` from a set erases the one `setFind` finds. -/
theorem setErase_perm_erase {s : List α} {e o : α}
    (hs : s.Pairwise fun a b => Incomp less a b = false) (h : setFind less s e = some o) :
    (setErase less s e).Perm (s.erase o) := by
  obtain ⟨ho, hoe⟩ := setFind_some h
  have hperm := List.perm_cons_erase ho
  have hrest : ∀ x ∈ s.erase o, Incomp less o x = false :=
    (List.pairwise_cons.mp ((hperm.pairwise_iff incomp_false_symm).mp hs)).1
  -- the rest holds no element equal to `e`, since it holds none equal to `o`
  have hkeep : ∀ x ∈ s.erase o, (!Incomp less x e) = true := by
    intro x hx
    cases hxe : Incomp less x e
    · rfl
    · have hox : Incomp less o x = true := incomp_trans hoe (by rwa [incomp_symm])
      rw [hrest x hx] at hox
      cases hox
  calc setErase less s e
      _ ~ (o :: s.erase o).filter (fun x => !Incomp less x e) := hperm.filter _
      _ = s.erase o := by
        rw [List.filter_cons_of_neg (by simp [hoe]), List.filter_eq_self.mpr hkeep]

end Set

/-! ## Each step keeps the relation -/

section Steps

variable {hash : α → UInt32} {less : α → α → Bool} {h : Hash α} {s : List α}

theorem HashInv.length_pos (hinv : HashInv hash less h) : 0 < h.buckets.length := by
  obtain ⟨k, -, hk⟩ := hinv.bucketCnt_pow
  rw [hk]
  exact Nat.two_pow_pos k

theorem Refines.pairwise (hR : Refines hash less h s) :
    s.Pairwise fun a b => Incomp less a b = false :=
  (hR.2.pairwise_iff incomp_false_symm).mp hR.1.distinct

/-- Pushing an element the set has no equal of into its bucket adds it to the set. -/
theorem refines_insertElem (hR : Refines hash less h s) {new : α}
    (hnone : setFind less s new = none) :
    Refines hash less (insertElem h (findBucket hash h.buckets.length new) new) (new :: s) := by
  obtain ⟨hinv, hperm⟩ := hR
  have hlen : (insertElem h (findBucket hash h.buckets.length new) new).buckets.length =
      h.buckets.length := List.length_modify _ _ _
  have hflat := Buckets.flatten_modify_cons_perm
    (findBucket_lt hash hinv.length_pos new) new
  refine ⟨⟨?_, ?_, ?_, ?_⟩, hflat.trans (hperm.cons new)⟩
  · rw [hlen]
    exact hinv.bucketCnt_pow
  · rw [hlen]
    exact hinv.partitioned.modify_cons (findBucket_lt hash hinv.length_pos new)
  · simp only [insertElem, hflat.length_eq, List.length_cons, hinv.elemCnt_eq]
  · refine (hflat.pairwise_iff incomp_false_symm).mpr (List.pairwise_cons.mpr ⟨?_, hinv.distinct⟩)
    intro x hx
    rw [incomp_symm]
    exact setFind_eq_none_iff.mp hnone x (hperm.subset hx)

/-- `rehash` keeps the elements, and when it moves them, it moves them into a
power of two, at least four, of buckets, each into the bucket it hashes to. -/
theorem refines_rehash (hR : Refines hash less h s) (alloc : Bool) :
    Refines hash less (rehash hash alloc h) s := by
  rcases rehash_cases hash alloc h with hre | hre
  · rwa [hre]
  obtain ⟨hinv, hperm⟩ := hR
  have hpos := newBucketCnt_pos h.elemCnt
  have hkey : ∀ x ∈ h.buckets.flatten,
      findBucket hash (newBucketCnt h.elemCnt) x <
        (List.replicate (newBucketCnt h.elemCnt) ([] : List α)).length := by
    intro x _
    rw [List.length_replicate]
    exact findBucket_lt hash hpos x
  have hflat : (rehash hash alloc h).buckets.flatten.Perm h.buckets.flatten := by
    rw [hre]
    simpa using Buckets.flatten_pushAll_perm hkey
  have hlen : (rehash hash alloc h).buckets.length = newBucketCnt h.elemCnt := by
    rw [hre, Buckets.length_pushAll, List.length_replicate]
  refine ⟨⟨?_, ?_, ?_, ?_⟩, hflat.trans hperm⟩
  · rw [hlen, newBucketCnt_eq]
    exact ⟨_, two_le_log2_newBucketCnt h.elemCnt, rfl⟩
  · rw [hlen, hre]
    exact (Buckets.partitioned_replicate _).pushAll hkey
  · rw [hflat.length_eq, ← hinv.elemCnt_eq, hre]
  · exact (hflat.pairwise_iff incomp_false_symm).mpr hinv.distinct

theorem refines_hashClear (hinv : HashInv hash less h) : Refines hash less (hashClear h).1 [] := by
  have hnil : ((hashClear h).1.buckets).flatten = [] := by
    simp [hashClear]
  refine ⟨⟨?_, ?_, ?_, ?_⟩, ?_⟩
  · simpa [hashClear] using hinv.bucketCnt_pow
  · exact Buckets.partitioned_map_nil _
  · rw [hnil]
    rfl
  · rw [hnil]
    exact List.Pairwise.nil
  · rw [hnil]

theorem refines_hashInit {alloc : Bool} (hinit : hashInit alloc = some h) :
    Refines hash less h [] := by
  unfold hashInit at hinit
  split at hinit
  · cases hinit
    apply refines_hashClear
    refine ⟨⟨2, le_refl 2, rfl⟩, Buckets.partitioned_replicate 4, rfl, ?_⟩
    simp
  · cases hinit

variable [IsStrictWeakOrder α fun a b => less a b = true]

/-- `find_elem` on the bucket of `e` finds the element of the set equal to `e`:
an element equal to `e` hashes as `e` does, so it lies in that bucket. -/
theorem findElem_eq_setFind (hcons : HashConsistent hash less) (hR : Refines hash less h s)
    (e : α) : findElem less (h.buckets.getD (findBucket hash h.buckets.length e) []) e =
      setFind less s e := by
  obtain ⟨hinv, hperm⟩ := hR
  show List.find? (fun x => Incomp less x e) _ = List.find? (fun x => Incomp less x e) _
  apply Buckets.find?_eq_of_unique
  · intro x hx
    exact hperm.subset (Buckets.mem_flatten_of_mem_getD hx)
  · intro x hx hxe
    have hmem := hinv.partitioned.mem_getD (hperm.symm.subset hx)
    rwa [findBucket, hcons x e hxe] at hmem
  · intro x hx y hy hxe hye
    exact eq_of_incomp (Refines.pairwise ⟨hinv, hperm⟩) hx hy
      (incomp_trans hxe (by rwa [incomp_symm]))

variable [DecidableEq α]

/-- Unlinking the element found for `e` erases the elements equal to `e`. -/
theorem refines_removeElem (hcons : HashConsistent hash less) (hR : Refines hash less h s)
    {e o : α} (hfound : setFind less s e = some o) :
    Refines hash less (removeElem h (findBucket hash h.buckets.length e) o)
      (setErase less s e) := by
  have hbucket : o ∈ h.buckets.getD (findBucket hash h.buckets.length e) [] := by
    have := findElem_eq_setFind hcons hR e
    rw [hfound] at this
    exact List.mem_of_find?_eq_some this
  obtain ⟨hinv, hperm⟩ := hR
  have hlen : (removeElem h (findBucket hash h.buckets.length e) o).buckets.length =
      h.buckets.length := List.length_modify _ _ _
  have hflat := Buckets.flatten_modify_erase_perm hbucket
  have ho : o ∈ h.buckets.flatten := Buckets.mem_flatten_of_mem_getD hbucket
  refine ⟨⟨?_, ?_, ?_, ?_⟩, ?_⟩
  · rw [hlen]
    exact hinv.bucketCnt_pow
  · rw [hlen]
    exact hinv.partitioned.modify_erase _ o
  · simp only [removeElem, hflat.length_eq, List.length_erase_of_mem ho, hinv.elemCnt_eq]
  · exact (hflat.pairwise_iff incomp_false_symm).mpr (hinv.distinct.sublist (List.erase_sublist))
  · exact hflat.trans ((hperm.erase o).trans
      (setErase_perm_erase (Refines.pairwise ⟨hinv, hperm⟩) hfound).symm)

end Steps

/-! ## Every call answers as the set does -/

section Calls

variable {hash : α → UInt32} {less : α → α → Bool}
  [IsStrictWeakOrder α fun a b => less a b = true] [DecidableEq α]

/-- From related states, every call on the table keeps the relation and
returns what the call on the set returns. -/
theorem hashCall_outputLockstep (hcons : HashConsistent hash less) :
    Lts.OutputLockstep (hashCall hash less) (setCall less) (Refines hash less) := by
  intro h s c hR
  have hfind := findElem_eq_setFind hcons hR
  have hlen := hR.1.length_pos
  cases c with
  | insert new alloc =>
    simp only [hashCall, setCall, hashInsert, hfind]
    cases hs : setFind less s new with
    | none => exact ⟨refines_rehash (refines_insertElem hR hs) alloc, rfl⟩
    | some old => exact ⟨refines_rehash hR alloc, rfl⟩
  | replace new alloc =>
    simp only [hashCall, setCall, hashReplace, hfind]
    cases hs : setFind less s new with
    | none =>
      rw [setErase_eq_self hs]
      exact ⟨refines_rehash (refines_insertElem hR hs) alloc, trivial⟩
    | some old =>
      have hR' := refines_removeElem hcons hR hs
      have hlen' : (removeElem h (findBucket hash h.buckets.length new) old).buckets.length =
          h.buckets.length := List.length_modify _ _ _
      have hins := refines_insertElem hR' (setFind_setErase s new)
      rw [hlen'] at hins
      exact ⟨refines_rehash hins alloc, trivial⟩
  | find e => exact ⟨hR, by simp only [hashCall, setCall, hashFind, hfind]⟩
  | delete e alloc =>
    simp only [hashCall, setCall, hashDelete, hfind]
    cases hs : setFind less s e with
    | none => exact ⟨by rw [setErase_eq_self hs]; exact hR, rfl⟩
    | some found => exact ⟨refines_rehash (refines_removeElem hcons hR hs) alloc, rfl⟩
  | apply => exact ⟨hR, by simp only [hashCall, setCall, hashApply, Multiset.coe_eq_coe.mpr hR.2]⟩
  | clear =>
    refine ⟨refines_hashClear hR.1, ?_⟩
    simp only [hashCall, setCall, hashClear, Multiset.coe_eq_coe.mpr hR.2]
  | size =>
    refine ⟨hR, ?_⟩
    simp only [hashCall, setCall, hashSize, hR.1.elemCnt_eq, hR.2.length_eq]
  | empty =>
    refine ⟨hR, ?_⟩
    simp only [hashCall, setCall, hashEmpty, hR.1.elemCnt_eq, hR.2.length_eq]
    cases s <;> rfl

/-- **The table is a set.** From a table `hash_init` made, every list of calls
gets the answers the set of elements up to `less` gives, whichever `malloc`
calls of the rehashes fail. -/
theorem hash_answers_eq_set (hcons : HashConsistent hash less) {alloc : Bool} {h : Hash α}
    (hinit : hashInit alloc = some h) (calls : List (HashCall α)) :
    (Lts.runOutputs (hashCall hash less) h calls).2 =
      (Lts.runOutputs (setCall less) [] calls).2 :=
  ((hashCall_outputLockstep hcons).run calls (refines_hashInit hinit)).2

/-- Natural numbers under `<`, hashed by their low 32 bits, hash alike when equal. -/
theorem hashConsistent_nat :
    HashConsistent (fun n : Nat => n.toUInt32) (fun a b => decide (a < b)) := by
  intro a b hab
  have hab' : a = b := by
    simp only [Incomp, Bool.and_eq_true, Bool.not_eq_true', decide_eq_false_iff_not] at hab
    omega
  rw [hab']

theorem hash_answers_eq_set_nat :
    (Lts.runOutputs (hashCall (fun n : Nat => n.toUInt32) (fun a b => decide (a < b)))
        ⟨List.replicate 4 [], 0⟩ [.insert 3 true, .replace 3 false, .find 3, .delete 3 true]).2 =
      (Lts.runOutputs (setCall (fun a b : Nat => decide (a < b))) []
        [.insert 3 true, .replace 3 false, .find 3, .delete 3 true]).2 :=
  @hash_answers_eq_set Nat (fun n => n.toUInt32) (fun a b => decide (a < b))
    (isStrictWeakOrder_key id) _ hashConsistent_nat true _ rfl _

/-- **The invariant over runs.** Every table reached from `hash_init` by any list
of calls has a power of two, at least four, of buckets, each element in the
bucket `find_bucket` names, `elem_cnt` equal to the number of elements, and no
two elements equal under `less`. -/
theorem hashInv_of_run (hcons : HashConsistent hash less) {alloc : Bool} {h : Hash α}
    (hinit : hashInit alloc = some h) (calls : List (HashCall α)) :
    HashInv hash less (Lts.runOutputs (hashCall hash less) h calls).1 :=
  ((hashCall_outputLockstep hcons).run calls (refines_hashInit hinit)).1.1

theorem hashInv_of_run_nat :
    HashInv (fun n : Nat => n.toUInt32) (fun a b => decide (a < b))
      (Lts.runOutputs (hashCall (fun n : Nat => n.toUInt32) (fun a b => decide (a < b)))
        ⟨List.replicate 4 [], 0⟩ ((List.range 20).map fun n => .insert n true)).1 :=
  @hashInv_of_run Nat (fun n => n.toUInt32) (fun a b => decide (a < b))
    (isStrictWeakOrder_key id) _ hashConsistent_nat true _ rfl _

end Calls

end Pintos.Kernel

import Mathlib
import Pintos.Lib.Buckets

/-!
# Hash table (`lib/kernel/hash.c`)

A `struct hash` is an array of `bucket_cnt` lists, a power of two, and the
count `elem_cnt` of the elements in them. An element goes in the bucket its
hash value names, masked by `bucket_cnt - 1` (`find_bucket`), and
`find_elem` searches that bucket for an element equal to a given one under
`less`: neither is less than the other. `hash_insert`, `hash_replace` and
`hash_delete` push new elements to the front of their bucket and unlink old
ones, then `rehash`, which aims at one bucket for every two elements, at least
four, rounded down to a power of two, and moves every element to its new
bucket. The tables here are values: a bucket is a `List α` from `list_begin`,
the bucket pointer `find_bucket` returns is its index, and whether a `malloc`
succeeds is an argument `alloc`.

The bucket count `rehash` aims at is the largest power of two not above
`max 4 (elem_cnt / 2)`: the loop that turns off the lowest set bit stops with
the highest one (`newBucketCnt_eq`). A `rehash` that moves the elements
pushes them one by one into empty buckets (`rehash_cases`). The iterator
(`hash_first`, `hash_next`) walks the buckets in order and each from its front,
skipping the empty ones: its `k`-th step returns the `k`-th element of the
concatenated buckets, and then a null pointer (`hashNext_iterate`).
-/

namespace Pintos.Kernel

variable {α : Type}

/-- `struct hash`: the buckets, `bucket_cnt` of them, and `elem_cnt`. -/
structure Hash (α : Type) where
  buckets : List (List α)
  elemCnt : Nat
deriving Repr

section Model

variable (hash : α → UInt32) (less : α → α → Bool)

/-- `find_bucket`: the index of the bucket `e` belongs in among `bucketCnt`. -/
def findBucket (bucketCnt : Nat) (e : α) : Nat :=
  (hash e).toNat &&& (bucketCnt - 1)

/-- `find_elem`: the first element of `bucket` neither less than `e` nor greater. -/
def findElem (bucket : List α) (e : α) : Option α :=
  bucket.find? fun hi => !less hi e && !less e hi

/-- `insert_elem`: push `e` to the front of bucket `i` and count it. -/
def insertElem (h : Hash α) (i : Nat) (e : α) : Hash α :=
  ⟨h.buckets.modify i (e :: ·), h.elemCnt + 1⟩

/-- `remove_elem`: unlink `e` from bucket `i`, where `find_elem` found it, and
uncount it. The first element equal to `e` is the one found: an earlier one
would have been found first. -/
def removeElem [DecidableEq α] (h : Hash α) (i : Nat) (e : α) : Hash α :=
  ⟨h.buckets.modify i (·.erase e), h.elemCnt - 1⟩

/-- `turn_off_least_1bit`. -/
def turnOffLeast1bit (x : Nat) : Nat := x &&& (x - 1)

/-- `is_power_of_2`. -/
def isPowerOf2 (x : Nat) : Bool := x != 0 && turnOffLeast1bit x == 0

/-- The loop of `rehash` that turns off the lowest set bit of `x` until `x` is a
power of two. It runs fewer times than `x` has bits set. -/
def powerOf2Loop : Nat → Nat → Nat
  | 0, x => x
  | fuel + 1, x => if isPowerOf2 x then x else powerOf2Loop fuel (turnOffLeast1bit x)

/-- The bucket count `rehash` computes for `elemCnt` elements. -/
def newBucketCnt (elemCnt : Nat) : Nat :=
  -- BEST_ELEMS_PER_BUCKET is 2
  let n := elemCnt / 2
  let n := if n < 4 then 4 else n
  powerOf2Loop n n

/-- `rehash`, where `alloc` says whether `malloc` of the new buckets succeeds. The
old buckets are walked in order, each from its front, and every element is
pushed to the front of its bucket among the new ones. -/
def rehash (alloc : Bool) (h : Hash α) : Hash α :=
  let newCnt := newBucketCnt h.elemCnt
  if newCnt = h.buckets.length then h
  else if alloc then
    ⟨h.buckets.foldl
      (fun nb oldBucket => oldBucket.foldl
        (fun nb e => nb.modify (findBucket hash newCnt e) (e :: ·)) nb)
      (List.replicate newCnt []), h.elemCnt⟩
  else h

/-- `hash_clear`: every bucket emptied, no element counted, and the elements
`destructor` is called on, bucket by bucket, each popped from the front. -/
def hashClear (h : Hash α) : Hash α × List α :=
  (⟨h.buckets.map fun _ => [], 0⟩, h.buckets.flatten)

/-- `hash_init`: four buckets, which `hash_clear` with a null destructor makes
empty, or `none` when their `malloc` fails. -/
def hashInit (alloc : Bool) : Option (Hash α) :=
  if alloc then some (hashClear ⟨List.replicate 4 [], 0⟩).1 else none

variable [DecidableEq α]

/-- `hash_insert`: `new` is pushed unless an equal element is there, which is
returned. -/
def hashInsert (alloc : Bool) (h : Hash α) (new : α) : Hash α × Option α :=
  let bucket := findBucket hash h.buckets.length new
  let old := findElem less (h.buckets.getD bucket []) new
  let h := match old with
    | none => insertElem h bucket new
    | some _ => h
  (rehash hash alloc h, old)

/-- `hash_replace`: an equal element is unlinked and returned, and `new` pushed. -/
def hashReplace (alloc : Bool) (h : Hash α) (new : α) : Hash α × Option α :=
  let bucket := findBucket hash h.buckets.length new
  let old := findElem less (h.buckets.getD bucket []) new
  let h := match old with
    | some o => removeElem h bucket o
    | none => h
  (rehash hash alloc (insertElem h bucket new), old)

/-- `hash_find`. -/
def hashFind (h : Hash α) (e : α) : Option α :=
  findElem less (h.buckets.getD (findBucket hash h.buckets.length e) []) e

/-- `hash_delete`: an equal element is unlinked and returned; the table is only
rehashed when one was found. -/
def hashDelete (alloc : Bool) (h : Hash α) (e : α) : Hash α × Option α :=
  let bucket := findBucket hash h.buckets.length e
  match findElem less (h.buckets.getD bucket []) e with
  | some found => (rehash hash alloc (removeElem h bucket found), some found)
  | none => (h, none)

end Model

/-- `hash_apply`: the elements `action` is called on, in order. -/
def hashApply (h : Hash α) : List α := h.buckets.flatten

/-- `hash_size`. -/
def hashSize (h : Hash α) : Nat := h.elemCnt

/-- `hash_empty`. -/
def hashEmpty (h : Hash α) : Bool := h.elemCnt == 0

/-! ## Iteration -/

/-- `struct hash_iterator`: the index of `bucket`, and where `elem` points in that
bucket's list, `none` for a null pointer. A position counts the head sentinel
as 0, the elements from 1 and the tail sentinel as one past the last. -/
structure HashIterator where
  bucket : Nat
  elem : Option Nat
deriving DecidableEq, Repr

/-- `hash_first`: the head sentinel of the first bucket. -/
def hashFirst : HashIterator := ⟨0, some 0⟩

/-- `hash_cur`: the element the iterator points at, `none` for a null pointer. -/
def hashCur (h : Hash α) (i : HashIterator) : Option α :=
  match i.elem with
  | some (p + 1) => (h.buckets.getD i.bucket [])[p]?
  | _ => none

/-- The `while` loop of `hash_next` from position `p` of bucket `b`: while that is
the tail sentinel, go to the first node of the next bucket, or past the last
bucket to a null pointer. Each turn moves to a later bucket. -/
def hashNextLoop (buckets : List (List α)) : Nat → Nat → Nat → HashIterator
  | 0, b, p => ⟨b, some p⟩
  | fuel + 1, b, p =>
    if p = (buckets.getD b []).length + 1 then
      if buckets.length ≤ b + 1 then ⟨b + 1, none⟩
      else hashNextLoop buckets fuel (b + 1) 1
    else ⟨b, some p⟩

/-- `hash_next`: the next node, past the tail sentinels, and the element there.
After a null pointer the source dereferences it; the iterator then stays. -/
def hashNext (h : Hash α) (i : HashIterator) : HashIterator × Option α :=
  match i.elem with
  | some p =>
    let i' := hashNextLoop h.buckets h.buckets.length i.bucket (p + 1)
    (i', hashCur h i')
  | none => (i, none)

/-! ## Fowler-Noll-Vo hashes -/

/-- `FNV_32_PRIME`. -/
def fnv32Prime : UInt32 := 16777619

/-- `FNV_32_BASIS`. -/
def fnv32Basis : UInt32 := 2166136261

/-- `hash_bytes` of the bytes `buf`. -/
def hashBytes (buf : List UInt8) : UInt32 :=
  buf.foldl (fun hash b => (hash * fnv32Prime) ^^^ b.toUInt32) fnv32Basis

/-- The loop of `hash_string` over the bytes from `s`, up to the null byte. -/
def hashStringLoop (hash : UInt32) : List UInt8 → UInt32
  | [] => hash
  | c :: s => if c = 0 then hash else hashStringLoop ((hash * fnv32Prime) ^^^ c.toUInt32) s

/-- `hash_string`. -/
def hashString (s : List UInt8) : UInt32 := hashStringLoop fnv32Basis s

/-- `hash_int`: `hash_bytes` of the four bytes of `i`, low byte first. -/
def hashInt (i : Int) : UInt32 :=
  let u := (i % 4294967296).toNat
  hashBytes ([u, u / 256, u / 65536, u / 16777216].map fun b => (b % 256).toUInt8)

theorem hashStringLoop_eq (hash : UInt32) (s : List UInt8) :
    hashStringLoop hash s =
      (s.takeWhile (· != 0)).foldl (fun hash b => (hash * fnv32Prime) ^^^ b.toUInt32) hash := by
  induction s generalizing hash with
  | nil => rfl
  | cons c s ih =>
    by_cases hc : c = 0
    · simp [hashStringLoop, hc]
    · simp [hashStringLoop, hc, ih]

/-- `hash_string` hashes the bytes before the null byte as `hash_bytes` does. -/
theorem hashString_eq_hashBytes (s : List UInt8) :
    hashString s = hashBytes (s.takeWhile (· != 0)) := by
  unfold hashString hashBytes
  exact hashStringLoop_eq fnv32Basis s

/-! ## The bucket count -/

section BucketCnt

theorem isPowerOf2_iff (x : Nat) : isPowerOf2 x = true ↔ x.isPowerOfTwo := by
  rw [← Nat.ne_zero_and_sub_one_eq_zero_iff_isPowerOfTwo]
  simp [isPowerOf2, turnOffLeast1bit]

theorem isPowerOfTwo_iff_eq_two_pow_log2 {x : Nat} : x.isPowerOfTwo ↔ x = 2 ^ x.log2 := by
  constructor
  · rintro ⟨k, rfl⟩
    rw [Nat.log2_two_pow]
  · intro hx
    exact ⟨x.log2, hx⟩

theorem turnOffLeast1bit_lt {x : Nat} (hx : x ≠ 0) : turnOffLeast1bit x < x :=
  Nat.lt_of_le_of_lt Nat.and_le_right (by omega)

/-- Turning off the lowest set bit of a number that is not a power of two keeps
its highest one. -/
theorem log2_turnOffLeast1bit {x : Nat} (hx : x ≠ 0) (hp : ¬x.isPowerOfTwo) :
    (turnOffLeast1bit x).log2 = x.log2 := by
  have hge : 2 ^ x.log2 ≤ turnOffLeast1bit x :=
    Nat.ge_two_pow_of_testBit (Nat.and_sub_one_testBit_log2 hx hp)
  have hpos : turnOffLeast1bit x ≠ 0 := by
    have := Nat.one_le_two_pow (n := x.log2)
    omega
  apply Nat.le_antisymm
  · rw [Nat.le_log2 hx]
    exact Nat.le_trans (Nat.log2_self_le hpos) (Nat.le_of_lt (turnOffLeast1bit_lt hx))
  · exact (Nat.le_log2 hpos).mpr hge

/-- With enough fuel the loop stops with the highest set bit of `x`. Each turn
lowers `x` and keeps its highest bit, so lowers `x - 2 ^ log2 x`. -/
theorem powerOf2Loop_eq {fuel x : Nat} (hx : x ≠ 0) (hfuel : x - 2 ^ x.log2 ≤ fuel) :
    powerOf2Loop fuel x = 2 ^ x.log2 := by
  induction fuel generalizing x with
  | zero =>
    have := Nat.log2_self_le hx
    simp only [powerOf2Loop]
    omega
  | succ fuel ih =>
    simp only [powerOf2Loop]
    split
    · rename_i hp
      exact isPowerOfTwo_iff_eq_two_pow_log2.mp ((isPowerOf2_iff x).mp hp)
    · rename_i hp
      have hp' : ¬x.isPowerOfTwo := fun h => hp ((isPowerOf2_iff x).mpr h)
      have hlog := log2_turnOffLeast1bit hx hp'
      have hlt := turnOffLeast1bit_lt hx
      have hge : 2 ^ x.log2 ≤ turnOffLeast1bit x :=
        Nat.ge_two_pow_of_testBit (Nat.and_sub_one_testBit_log2 hx hp')
      have hpos : turnOffLeast1bit x ≠ 0 := by
        have := Nat.one_le_two_pow (n := x.log2)
        omega
      rw [ih hpos (by rw [hlog]; omega), hlog]

/-- `rehash` aims at the largest power of two not above `max 4 (elemCnt / 2)`. -/
theorem newBucketCnt_eq (elemCnt : Nat) :
    newBucketCnt elemCnt = 2 ^ (max 4 (elemCnt / 2)).log2 := by
  have hmax : (if elemCnt / 2 < 4 then 4 else elemCnt / 2) = max 4 (elemCnt / 2) := by
    split <;> omega
  simp only [newBucketCnt, hmax]
  exact powerOf2Loop_eq (by omega) (Nat.sub_le _ _)

theorem two_le_log2_newBucketCnt (elemCnt : Nat) : 2 ≤ (max 4 (elemCnt / 2)).log2 :=
  (Nat.le_log2 (by omega)).mpr (by simp)

theorem newBucketCnt_pos (elemCnt : Nat) : 0 < newBucketCnt elemCnt := by
  rw [newBucketCnt_eq]
  exact Nat.two_pow_pos _

end BucketCnt

/-! ## Rehash -/

section Rehash

variable (hash : α → UInt32)

/-- `find_bucket` names one of the buckets. -/
theorem findBucket_lt {n : Nat} (hn : 0 < n) (e : α) : findBucket hash n e < n :=
  Nat.lt_of_le_of_lt Nat.and_le_right (by omega)

/-- A `rehash` leaves the table as it is, or pushes every element, in the order of
the concatenated buckets, into `newBucketCnt` empty buckets. -/
theorem rehash_cases (alloc : Bool) (h : Hash α) :
    rehash hash alloc h = h ∨
      rehash hash alloc h =
        ⟨Buckets.pushAll (findBucket hash (newBucketCnt h.elemCnt))
          (List.replicate (newBucketCnt h.elemCnt) []) h.buckets.flatten, h.elemCnt⟩ := by
  cases alloc with
  | false => simp [rehash]
  | true =>
    by_cases hn : newBucketCnt h.elemCnt = h.buckets.length
    · simp [rehash, hn]
    · right
      simp only [rehash, hn, if_false, if_true]
      rw [Buckets.pushAll, List.foldl_flatten]

end Rehash

/-! ## The iterator walks the concatenated buckets -/

section Iterate

variable {buckets : List (List α)}

/-- The number of elements in the buckets before bucket `b`. -/
def elemsBefore (buckets : List (List α)) (b : Nat) : Nat := (buckets.take b).flatten.length

theorem getD_eq_getElem {b : Nat} (hb : b < buckets.length) : buckets.getD b [] = buckets[b] := by
  rw [List.getD_eq_getElem?_getD, List.getElem?_eq_getElem hb, Option.getD_some]

theorem elemsBefore_succ {b : Nat} (hb : b < buckets.length) :
    elemsBefore buckets (b + 1) = elemsBefore buckets b + (buckets.getD b []).length := by
  rw [elemsBefore, elemsBefore, List.take_add_one, List.getElem?_eq_getElem hb,
    getD_eq_getElem hb]
  simp only [Option.toList_some, List.flatten_append, List.flatten_cons, List.flatten_nil,
    List.append_nil, List.length_append]

theorem elemsBefore_length : elemsBefore buckets buckets.length = buckets.flatten.length := by
  simp [elemsBefore]

/-- Past the buckets before `b`, the concatenation goes on with bucket `b`. -/
theorem getElem?_flatten_elemsBefore {b p : Nat} (hb : b < buckets.length)
    (hp : p < (buckets.getD b []).length) :
    buckets.flatten[elemsBefore buckets b + p]? = (buckets.getD b [])[p]? := by
  have hsplit : buckets.flatten =
      (buckets.take b).flatten ++ (buckets.getD b [] ++ (buckets.drop (b + 1)).flatten) := by
    rw [getD_eq_getElem hb, ← List.flatten_cons, ← List.drop_eq_getElem_cons hb,
      ← List.flatten_append, List.take_append_drop]
  rw [hsplit, elemsBefore, List.getElem?_append_right (by omega), Nat.add_sub_cancel_left,
    List.getElem?_append_left hp]

variable (buckets) in
/-- The iterator is at the `k`-th element of the concatenated buckets, or, for `k`
their number, at a null pointer. -/
def IterAt (k : Nat) (i : HashIterator) : Prop :=
  (∃ b p, i = ⟨b, some (p + 1)⟩ ∧ b < buckets.length ∧ p < (buckets.getD b []).length ∧
    elemsBefore buckets b + p = k) ∨
  (k = buckets.flatten.length ∧ i.elem = none)

theorem hashCur_of_iterAt {h : Hash α} {k : Nat} {i : HashIterator} (hi : IterAt h.buckets k i) :
    hashCur h i = h.buckets.flatten[k]? := by
  rcases hi with ⟨b, p, rfl, hb, hp, rfl⟩ | ⟨rfl, hnone⟩
  · exact (getElem?_flatten_elemsBefore hb hp).symm
  · simp [hashCur, hnone]

/-- The `while` loop of `hash_next` from position `p + 1` of bucket `b`, at most
one past the last element, ends at the element that many after the buckets
before `b`. Each turn moves from a tail sentinel to the next bucket, which
starts where the last one ended. -/
theorem hashNextLoop_iterAt (fuel : Nat) {b p : Nat} (hb : b < buckets.length)
    (hp : p ≤ (buckets.getD b []).length) (hfuel : buckets.length - b ≤ fuel) :
    IterAt buckets (elemsBefore buckets b + p) (hashNextLoop buckets fuel b (p + 1)) := by
  induction fuel generalizing b p with
  | zero => omega
  | succ fuel ih =>
    have hsucc := elemsBefore_succ hb
    simp only [hashNextLoop, Nat.add_right_cancel_iff]
    split
    · rename_i hend
      split
      · rename_i hlast
        have hb1 : b + 1 = buckets.length := by omega
        refine .inr ⟨?_, rfl⟩
        rw [← elemsBefore_length, ← hb1, hsucc, hend]
      · rename_i hlast
        have := ih (b := b + 1) (p := 0) (by omega) (Nat.zero_le _) (by omega)
        rwa [hsucc, Nat.add_zero, ← hend] at this
    · rename_i hend
      exact .inl ⟨b, p, rfl, hb, by omega, rfl⟩

/-- `hash_next` returns the element its iterator then points at. -/
theorem hashNext_snd (h : Hash α) (i : HashIterator) :
    (hashNext h i).2 = hashCur h (hashNext h i).1 := by
  rcases i with ⟨b, _ | p⟩
  · rfl
  · rfl

/-- One call of `hash_next` moves the iterator from one element to the next. -/
theorem hashNext_iterAt {h : Hash α} {k : Nat} {i : HashIterator} (hi : IterAt h.buckets k i)
    (hk : k < h.buckets.flatten.length) : IterAt h.buckets (k + 1) (hashNext h i).1 := by
  rcases hi with ⟨b, p, rfl, hb, hp, rfl⟩ | ⟨rfl, -⟩
  · have := hashNextLoop_iterAt h.buckets.length (p := p + 1) hb hp (by omega)
    simp only [hashNext]
    exact this
  · omega

/-- The iterator after `hash_first` and `k + 1` calls of `hash_next`, for `k` up
to the number of elements, is at the `k`-th element. -/
theorem iterate_hashNext_iterAt {h : Hash α} (hb : 0 < h.buckets.length) :
    ∀ k ≤ h.buckets.flatten.length,
      IterAt h.buckets k ((fun i => (hashNext h i).1)^[k + 1] hashFirst)
  | 0, _ => by
    have := hashNextLoop_iterAt h.buckets.length (p := 0) hb (Nat.zero_le _) (by omega)
    simpa [hashNext, hashFirst, elemsBefore] using this
  | k + 1, hk => by
    rw [Function.iterate_succ_apply']
    exact hashNext_iterAt (iterate_hashNext_iterAt hb k (by omega)) (by omega)

/-- **Iteration.** After `hash_first`, the `k`-th call of `hash_next` (from 0)
returns the `k`-th element of the concatenated buckets, the order `hash_apply`
uses, and the call after the last element returns a null pointer. -/
theorem hashNext_iterate (h : Hash α) (hb : 0 < h.buckets.length) {k : Nat}
    (hk : k ≤ h.buckets.flatten.length) :
    (hashNext h ((fun i => (hashNext h i).1)^[k] hashFirst)).2 = (hashApply h)[k]? := by
  have hat := iterate_hashNext_iterAt hb k hk
  rw [Function.iterate_succ_apply'] at hat
  rw [hashNext_snd, hashCur_of_iterAt hat, hashApply]

theorem hashNext_iterate_three_buckets :
    (hashNext (⟨[[1], [], [2, 3], []], 3⟩ : Hash Nat)
        ((fun i => (hashNext ⟨[[1], [], [2, 3], []], 3⟩ i).1)^[2] hashFirst)).2 =
      (hashApply (⟨[[1], [], [2, 3], []], 3⟩ : Hash Nat))[2]? :=
  hashNext_iterate _ (by decide) (by decide)

end Iterate

end Pintos.Kernel

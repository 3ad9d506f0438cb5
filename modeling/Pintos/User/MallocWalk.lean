import Mathlib
import Pintos.User.Malloc

/-!
# The heap walk

The heap from `heap_listp` to the epilogue, read as the list of its blocks in
address order (`Blk`). `Blocks mem a p L e q` says that the blocks `L` follow
each other from `a` to `e` with consistent boundary tags: each header holds the
block's size and `inuse` bit and, as `pinuse`, the `inuse` bit of the block
before (`p` for the first, the prologue's `1` at `heap_listp`); each size is a
multiple of 4 of at least `MIN_BLOCK_SIZE_WORDS` words, and a free block's
footer equals its header. `q` is the `inuse` bit of the last block. `Tiles` adds
the epilogue `FENCE` at `e`.

The lemmas split a walk at a block (`blocks_append`), move it to a memory that
agrees on its words (`Blocks.frame`), and change the `pinuse` bit of its first
header (`Tiles.repin`).
-/

namespace Pintos.User

/-- A block of the walk: header address, size in words, `inuse` bit. -/
structure Blk where
  addr : Nat
  size : Nat
  inuse : Bool
  deriving DecidableEq, Repr

/-- The blocks `L` tile `[a, e)` with consistent boundary tags. -/
def Blocks (mem : Nat → Tag) : Nat → Bool → List Blk → Nat → Bool → Prop
  | a, p, [], e, q => e = a ∧ q = p
  | a, p, b :: L, e, q =>
    b.addr = a ∧ mem a = ⟨b.inuse, p, b.size⟩ ∧ 4 ∣ b.size ∧ minBlockSizeWords ≤ b.size ∧
      (b.inuse = false → mem (a + b.size - 1) = ⟨b.inuse, p, b.size⟩) ∧
      Blocks mem (a + b.size) b.inuse L e q

/-- The blocks `L` from `a`, then the epilogue `FENCE` at `e`. -/
def Tiles (mem : Nat → Tag) (a : Nat) (p : Bool) (L : List Blk) (e : Nat) : Prop :=
  ∃ q, Blocks mem a p L e q ∧ mem e = ⟨true, q, 0⟩

/-- No two free blocks are adjacent. -/
def Separated (L : List Blk) : Prop := L.IsChain fun b c => b.inuse = true ∨ c.inuse = true

/-- Address `a` is a free block of `L` that `get_list` puts on list `i`. -/
def FreeOn (L : List Blk) (i a : Nat) : Prop :=
  ∃ b ∈ L, b.addr = a ∧ b.inuse = false ∧ getList b.size = i

/-- The segregated lists hold exactly the free blocks of `L`, each once, each on
the list `get_list` picks for its size. -/
def ListsHold (seg : Nat → List Nat) (L : List Blk) : Prop :=
  (∀ i, (seg i).Nodup) ∧ ∀ i a, a ∈ seg i ↔ FreeOn L i a

/-- The pointers `malloc` returned and that are not freed are the payloads of the
used blocks, each once. -/
def LiveHold (live : List Nat) (L : List Blk) : Prop :=
  live.Nodup ∧ ∀ p, p ∈ live ↔ ∃ b ∈ L, b.addr + 1 = p ∧ b.inuse = true

/-- The heap is well formed, with walk `L`: the blocks tile it from `heap_listp`
to the epilogue at the word before the break, no two free blocks are adjacent,
the segregated lists hold exactly the free blocks, and the live pointers are the
used ones. -/
structure Layout (H : Heap) (live : List Nat) (L : List Blk) : Prop where
  start : 0 < H.heapListp
  tiles : Tiles H.mem H.heapListp true L (H.brk - 1)
  separated : Separated L
  lists : ListsHold H.segList L
  live : LiveHold live L

variable {mem mem' : Nat → Tag} {a e : Nat} {p q : Bool} {L L₁ L₂ : List Blk} {b : Blk}

theorem blocks_cons :
    Blocks mem a p (b :: L) e q ↔
      b.addr = a ∧ mem a = ⟨b.inuse, p, b.size⟩ ∧ 4 ∣ b.size ∧ minBlockSizeWords ≤ b.size ∧
        (b.inuse = false → mem (a + b.size - 1) = ⟨b.inuse, p, b.size⟩) ∧
        Blocks mem (a + b.size) b.inuse L e q :=
  Iff.rfl

theorem Blocks.le : ∀ {a : Nat} {p : Bool} {L : List Blk}, Blocks mem a p L e q → a ≤ e
  | _, _, [], h => by
    have := h.1
    omega
  | _, _, b :: _, h => by
    have := h.2.2.2.2.2.le
    omega

/-- Every block lies inside the walk's range. -/
theorem Blocks.bounds : ∀ {a : Nat} {p : Bool} {L : List Blk}, Blocks mem a p L e q →
    ∀ c ∈ L, a ≤ c.addr ∧ c.addr + c.size ≤ e
  | _, _, [], _, c, hc => absurd hc List.not_mem_nil
  | _, _, b :: _, h, c, hc => by
    obtain ⟨ha, -, -, -, -, hr⟩ := h
    rcases List.mem_cons.mp hc with rfl | hc
    · have := hr.le
      omega
    · have := hr.bounds c hc
      omega

/-- Blocks come in address order, each ending at or before the next begins. -/
theorem Blocks.pairwise : ∀ {a : Nat} {p : Bool} {L : List Blk}, Blocks mem a p L e q →
    L.Pairwise fun b c => b.addr + b.size ≤ c.addr
  | _, _, [], _ => List.Pairwise.nil
  | _, _, b :: _, h => by
    obtain ⟨ha, -, -, -, -, hr⟩ := h
    refine List.Pairwise.cons (fun c hc => ?_) hr.pairwise
    have := hr.bounds c hc
    omega

/-- Every block's size is a multiple of 4 of at least `MIN_BLOCK_SIZE_WORDS`. -/
theorem Blocks.sizes : ∀ {a : Nat} {p : Bool} {L : List Blk}, Blocks mem a p L e q →
    ∀ c ∈ L, 4 ∣ c.size ∧ minBlockSizeWords ≤ c.size
  | _, _, [], _, c, hc => absurd hc List.not_mem_nil
  | _, _, b :: _, h, c, hc => by
    rcases List.mem_cons.mp hc with rfl | hc
    · exact ⟨h.2.2.1, h.2.2.2.1⟩
    · exact h.2.2.2.2.2.sizes c hc

/-- The addresses of the blocks are distinct. -/
theorem Blocks.addr_nodup (h : Blocks mem a p L e q) : (L.map Blk.addr).Nodup := by
  refine List.pairwise_map.mpr (h.pairwise.imp_of_mem fun {b c} hb _ hbc => ?_)
  have := (h.sizes b hb).2
  unfold minBlockSizeWords at this
  omega

/-- A walk reads only the words in its range. -/
theorem Blocks.frame : ∀ {a : Nat} {p : Bool} {L : List Blk}, Blocks mem a p L e q →
    (∀ x, a ≤ x → x < e → mem' x = mem x) → Blocks mem' a p L e q
  | _, _, [], h, _ => h
  | a, _, b :: L, h, hm => by
    obtain ⟨ha, hh, h4, h8, hf, hr⟩ := h
    have hle := hr.le
    have : 8 ≤ b.size := h8
    refine ⟨ha, by rw [hm a (Nat.le_refl _) (by omega)]; exact hh, h4, h8, fun hu => ?_,
      hr.frame fun x hx hx' => hm x (by omega) hx'⟩
    rw [hm _ (by omega) (by omega)]
    exact hf hu

theorem blocks_append : ∀ {a : Nat} {p : Bool} {L₁ : List Blk},
    Blocks mem a p (L₁ ++ L₂) e q ↔ ∃ m r, Blocks mem a p L₁ m r ∧ Blocks mem m r L₂ e q
  | a, p, [] => by
    constructor
    · intro h
      exact ⟨a, p, ⟨rfl, rfl⟩, h⟩
    · rintro ⟨m, r, ⟨rfl, rfl⟩, h⟩
      exact h
  | a, p, b :: L₁ => by
    simp only [List.cons_append, blocks_cons, blocks_append]
    constructor
    · rintro ⟨h1, h2, h3, h4, h5, m, r, h6, h7⟩
      exact ⟨m, r, ⟨h1, h2, h3, h4, h5, h6⟩, h7⟩
    · rintro ⟨m, r, ⟨h1, h2, h3, h4, h5, h6⟩, h7⟩
      exact ⟨h1, h2, h3, h4, h5, m, r, h6, h7⟩

theorem blocks_singleton :
    Blocks mem a p [b] e q ↔
      b.addr = a ∧ mem a = ⟨b.inuse, p, b.size⟩ ∧ 4 ∣ b.size ∧ minBlockSizeWords ≤ b.size ∧
        (b.inuse = false → mem (a + b.size - 1) = ⟨b.inuse, p, b.size⟩) ∧
        e = a + b.size ∧ q = b.inuse :=
  Iff.rfl

/-- The `inuse` bit a walk ends with is its last block's. -/
theorem Blocks.last_inuse (h : Blocks mem a p (L ++ [b]) e q) : q = b.inuse := by
  obtain ⟨m, r, -, h₂⟩ := blocks_append.mp h
  exact (blocks_singleton.mp h₂).2.2.2.2.2.2

/-- The last block's `inuse` bit is the one the walk ends with. -/
theorem Blocks.getLast_inuse (h : Blocks mem a p L e q) : ∀ c ∈ L.getLast?, c.inuse = q := by
  intro c hc
  obtain ⟨L', rfl⟩ := List.getLast?_eq_some_iff.mp hc
  exact (h.last_inuse).symm

/-- A walk that starts after a used block and whose last block is used ends used. -/
theorem Blocks.end_used (h : Blocks mem a true L e q) (hl : ∀ c ∈ L.getLast?, c.inuse = true) :
    q = true := by
  rcases List.eq_nil_or_concat L with rfl | ⟨L', c, rfl⟩
  · exact h.2
  · rw [List.concat_eq_append] at h hl
    rw [h.last_inuse]
    exact hl c (by simp)

/-! ## Tilings -/

theorem tiles_append :
    Tiles mem a p (L₁ ++ L₂) e ↔ ∃ m r, Blocks mem a p L₁ m r ∧ Tiles mem m r L₂ e := by
  constructor
  · rintro ⟨q, hb, he⟩
    obtain ⟨m, r, h₁, h₂⟩ := blocks_append.mp hb
    exact ⟨m, r, h₁, q, h₂, he⟩
  · rintro ⟨m, r, h₁, q, h₂, he⟩
    exact ⟨q, blocks_append.mpr ⟨m, r, h₁, h₂⟩, he⟩

theorem tiles_cons :
    Tiles mem a p (b :: L) e ↔
      b.addr = a ∧ mem a = ⟨b.inuse, p, b.size⟩ ∧ 4 ∣ b.size ∧ minBlockSizeWords ≤ b.size ∧
        (b.inuse = false → mem (a + b.size - 1) = ⟨b.inuse, p, b.size⟩) ∧
        Tiles mem (a + b.size) b.inuse L e := by
  constructor
  · rintro ⟨q, ⟨h1, h2, h3, h4, h5, h6⟩, he⟩
    exact ⟨h1, h2, h3, h4, h5, q, h6, he⟩
  · rintro ⟨h1, h2, h3, h4, h5, q, h6, he⟩
    exact ⟨q, ⟨h1, h2, h3, h4, h5, h6⟩, he⟩

/-- A tiling cut at one of its blocks. -/
theorem Tiles.split (h : Tiles mem a p (L₁ ++ b :: L₂) e) :
    ∃ r, Blocks mem a p L₁ b.addr r ∧ mem b.addr = ⟨b.inuse, r, b.size⟩ ∧ 4 ∣ b.size ∧
      minBlockSizeWords ≤ b.size ∧
      (b.inuse = false → mem (b.addr + b.size - 1) = ⟨b.inuse, r, b.size⟩) ∧
      Tiles mem (b.addr + b.size) b.inuse L₂ e := by
  obtain ⟨m, r, h₁, h₂⟩ := tiles_append.mp h
  obtain ⟨rfl, h₂⟩ := tiles_cons.mp h₂
  exact ⟨r, h₁, h₂⟩

/-- The `pinuse` bit at the start of a tiling is the one it was given. -/
theorem Tiles.head_pinuse (h : Tiles mem a p L e) : (mem a).pinuse = p := by
  obtain ⟨q, hb, he⟩ := h
  cases L with
  | nil =>
    obtain ⟨rfl, rfl⟩ := hb
    simp [he]
  | cons b L => simp [hb.2.1]

/-- The word at the start of a tiling is the first block's header or the
epilogue; either way its `inuse` bit says whether the first block is used. -/
theorem Tiles.head_inuse (h : Tiles mem a p L e) :
    (mem a).inuse = (L.head?.map Blk.inuse).getD true := by
  obtain ⟨q, hb, he⟩ := h
  cases L with
  | nil =>
    obtain ⟨rfl, -⟩ := hb
    simp [he]
  | cons b L => simp [hb.2.1]

theorem Tiles.head_used (h : Tiles mem a p L e) (hu : (mem a).inuse = true) :
    ∀ c ∈ L.head?, c.inuse = true := by
  intro c hc
  cases L with
  | nil => simp at hc
  | cons b L =>
    simp only [List.head?_cons, Option.mem_def, Option.some.injEq] at hc
    subst hc
    simpa [h.head_inuse] using hu

theorem Tiles.head_free (h : Tiles mem a p L e) (hf : (mem a).inuse = false) :
    ∃ N L', L = N :: L' ∧ N.inuse = false := by
  cases L with
  | nil => simp [h.head_inuse] at hf
  | cons N L' => exact ⟨N, L', rfl, by simpa [h.head_inuse] using hf⟩

/-- A tiling reads only the words in its range, the epilogue included. -/
theorem Tiles.frame (h : Tiles mem a p L e) (hm : ∀ x, a ≤ x → x ≤ e → mem' x = mem x) :
    Tiles mem' a p L e := by
  obtain ⟨q, hb, he⟩ := h
  exact ⟨q, hb.frame fun x hx hx' => hm x hx (Nat.le_of_lt hx'), by rw [hm e hb.le (Nat.le_refl _), he]⟩

/-- A new `pinuse` bit in the first header: fine when that header is a used
block's or the epilogue's, neither of which has a footer copying it. -/
theorem Tiles.repin {p' : Bool} (h : Tiles mem a p L e) (hu : ∀ b ∈ L.head?, b.inuse = true)
    (ha : mem' a = { mem a with pinuse := p' }) (hm : ∀ x, a < x → x ≤ e → mem' x = mem x) :
    Tiles mem' a p' L e := by
  obtain ⟨q, hb, he⟩ := h
  cases L with
  | nil =>
    obtain ⟨rfl, rfl⟩ := hb
    exact ⟨p', ⟨rfl, rfl⟩, by rw [ha, he]⟩
  | cons b L =>
    obtain ⟨hba, hh, h4, h8, -, hr⟩ := hb
    have hbu : b.inuse = true := hu b rfl
    have : 8 ≤ b.size := h8
    have hle := hr.le
    refine ⟨q, ⟨hba, by rw [ha, hh], h4, h8, fun hf => absurd hf (by simp [hbu]),
      hr.frame fun x hx hx' => hm x (by omega) (Nat.le_of_lt hx')⟩, by rw [hm e (by omega) (Nat.le_refl _), he]⟩

/-- A free block of `T` words at `x`, between a walk ending at `x` and a tiling
from `x + T` whose head is used, tiles the heap once its header and footer are
written and the next header's `pinuse` bit is cleared. The tiling after the
block may be of another memory `mem₀` that the heap agrees with above `x + T`. -/
theorem tiles_merge {mem₀ : Nat → Tag} {x T : Nat} {r s : Bool}
    (h₁ : Blocks mem a p L₁ x r) (h₂ : Tiles mem₀ (x + T) s L₂ e)
    (hu : ∀ c ∈ L₂.head?, c.inuse = true) (h4 : 4 ∣ T) (h8 : minBlockSizeWords ≤ T)
    (hx : mem' x = ⟨false, r, T⟩) (hf : mem' (x + T - 1) = ⟨false, r, T⟩)
    (hn : mem' (x + T) = { mem₀ (x + T) with pinuse := false })
    (hlo : ∀ y < x, mem' y = mem y) (hhi : ∀ y, x + T < y → mem' y = mem₀ y) :
    Tiles mem' a p (L₁ ++ ⟨x, T, false⟩ :: L₂) e :=
  tiles_append.mpr ⟨x, r, h₁.frame fun y _ hy => hlo y hy,
    tiles_cons.mpr ⟨rfl, hx, h4, h8, fun _ => hf, h₂.repin hu hn fun y hy _ => hhi y hy⟩⟩

/-! ## Separation, lists and live pointers -/

/-- A free block between a used end and a used start keeps free blocks apart. -/
theorem separated_splice {X : Blk} (h₁ : Separated L₁) (h₂ : Separated L₂)
    (hl : ∀ c ∈ L₁.getLast?, c.inuse = true) (hh : ∀ c ∈ L₂.head?, c.inuse = true) :
    Separated (L₁ ++ X :: L₂) := by
  refine List.isChain_append.mpr ⟨h₁, List.IsChain.cons h₂ fun c hc => .inr (hh c hc),
    fun c hc _ _ => .inl (hl c hc)⟩

theorem Separated.left (h : Separated (L₁ ++ L₂)) : Separated L₁ :=
  (List.isChain_append.mp h).1

theorem Separated.right (h : Separated (L₁ ++ L₂)) : Separated L₂ :=
  (List.isChain_append.mp h).2.1

/-- The block before a free block is used. -/
theorem Separated.before_free (h : Separated (L ++ [b])) (hb : b.inuse = false) :
    ∀ c ∈ L.getLast?, c.inuse = true := by
  intro c hc
  rcases (List.isChain_append.mp h).2.2 c hc b rfl with h' | h'
  · exact h'
  · simp [hb] at h'

/-- The block after a free block is used. -/
theorem Separated.after_free (h : Separated (b :: L)) (hb : b.inuse = false) :
    ∀ c ∈ L.head?, c.inuse = true := by
  intro c hc
  rcases (List.isChain_cons.mp h).1 c hc with h' | h'
  · simp [hb] at h'
  · exact h'

/-- A walk from a used start that ends free ends with a free block `P`, after a
used block or at the start; `P`'s footer is the word before the end. -/
theorem Blocks.last_free (h : Blocks mem a true L e false) (hs : Separated L) :
    ∃ L' P, L = L' ++ [P] ∧ P.inuse = false ∧ Blocks mem a true L' P.addr true ∧
      mem P.addr = ⟨false, true, P.size⟩ ∧ mem (e - 1) = ⟨false, true, P.size⟩ ∧
      P.addr + P.size = e ∧ 4 ∣ P.size ∧ minBlockSizeWords ≤ P.size ∧ Separated L' := by
  obtain ⟨L', P, rfl⟩ : ∃ L' P, L = L' ++ [P] := by
    rcases List.eq_nil_or_concat L with rfl | ⟨L', P, rfl⟩
    · exact absurd h.2 Bool.false_ne_true
    · exact ⟨L', P, List.concat_eq_append⟩
  obtain ⟨m, r, h₁, h₂⟩ := blocks_append.mp h
  obtain ⟨rfl, hh, h4, h8, hf, rfl, hq⟩ := blocks_singleton.mp h₂
  have hr : r = true := h₁.end_used (hs.before_free hq.symm)
  subst hr
  refine ⟨L', P, rfl, hq.symm, h₁, by rw [hh, ← hq], ?_, rfl, h4, h8, hs.left⟩
  rw [hf hq.symm, ← hq]

/-- Around a free block: both sides are separated, the block before is used and
so is the block after. -/
theorem Separated.around_free (h : Separated (L₁ ++ b :: L₂)) (hb : b.inuse = false) :
    Separated L₁ ∧ Separated L₂ ∧ (∀ c ∈ L₁.getLast?, c.inuse = true) ∧
      ∀ c ∈ L₂.head?, c.inuse = true := by
  have h₁ : Separated (L₁ ++ [b]) := by
    rw [← List.singleton_append, ← List.append_assoc] at h
    exact h.left
  exact ⟨h₁.left, h.right.tail, h₁.before_free hb, h.right.after_free hb⟩

/-- A used block may follow a separated walk. -/
theorem Separated.snoc_used (h : Separated L) (hb : b.inuse = true) : Separated (L ++ [b]) :=
  List.isChain_append.mpr ⟨h, List.isChain_singleton b, fun _ _ c hc => .inr (by
    simp only [List.head?_cons, Option.mem_def, Option.some.injEq] at hc
    exact hc ▸ hb)⟩

/-- Addresses below `x` and addresses from `x` on do not meet. -/
theorem addr_nodup_append (h₁ : (L₁.map Blk.addr).Nodup) (h₂ : (L₂.map Blk.addr).Nodup) {x : Nat}
    (hl : ∀ c ∈ L₁, c.addr < x) (hr : ∀ c ∈ L₂, x ≤ c.addr) :
    ((L₁ ++ L₂).map Blk.addr).Nodup := by
  rw [List.map_append]
  refine List.nodup_append.mpr ⟨h₁, h₂, fun a ha c hc => ?_⟩
  obtain ⟨b₁, hb₁, rfl⟩ := List.mem_map.mp ha
  obtain ⟨b₂, hb₂, rfl⟩ := List.mem_map.mp hc
  have := hl b₁ hb₁
  have := hr b₂ hb₂
  omega

/-- The addresses of a walk to `x`, a block at `x`, and a tiling after it are distinct. -/
theorem addr_nodup_around {mem₀ : Nat → Tag} {x : Nat} {r s : Bool} {X : Blk}
    (hB : Blocks mem a p L₁ x r) (h8 : minBlockSizeWords ≤ X.size)
    (hT : Tiles mem₀ (x + X.size) s L₂ e) (hx : X.addr = x := by rfl) :
    ((L₁ ++ X :: L₂).map Blk.addr).Nodup := by
  obtain ⟨q, hT, -⟩ := hT
  have h8' : 8 ≤ X.size := h8
  -- the blocks before `x` end by `x`, those after start at `x + X.size`
  have hlo : ∀ c ∈ L₁, c.addr < x := fun c hc => by
    have := hB.bounds c hc
    have := (hB.sizes c hc).2
    unfold minBlockSizeWords at this
    omega
  have hhi : ∀ c ∈ L₂, x + X.size ≤ c.addr := fun c hc => (hT.bounds c hc).1
  have hnd₂ : ((X :: L₂).map Blk.addr).Nodup := by
    rw [List.map_cons]
    refine List.nodup_cons.mpr ⟨fun hX => ?_, hT.addr_nodup⟩
    obtain ⟨c, hc, hcx⟩ := List.mem_map.mp hX
    have := hhi c hc
    omega
  refine addr_nodup_append hB.addr_nodup hnd₂ hlo fun c hc => ?_
  rcases List.mem_cons.mp hc with rfl | hc
  · exact Nat.le_of_eq hx.symm
  · have := hhi c hc
    omega

theorem freeOn_append {i a : Nat} : FreeOn (L₁ ++ L₂) i a ↔ FreeOn L₁ i a ∨ FreeOn L₂ i a := by
  simp only [FreeOn, List.mem_append, or_and_right, exists_or]

/-- Replacing the blocks `M` by `M'` in the middle of a walk: a set that holds
exactly the keys `P` gives the blocks still does once the keys of `M` leave it and
those of `M'` join, provided no two blocks share a key. -/
theorem keys_replace {P : Blk → Nat → Prop} {s s' : Nat → Prop} {M M' : List Blk}
    (f : Blk → Nat) (hP : ∀ b a, P b a → f b = a) (h : ∀ a, s a ↔ ∃ b ∈ L₁ ++ M ++ L₂, P b a)
    (hnd : ((L₁ ++ M ++ L₂).map f).Nodup)
    (hs : ∀ a, s' a ↔ (s a ∧ a ∉ M.map f) ∨ ∃ b ∈ M', P b a) :
    ∀ a, s' a ↔ ∃ b ∈ L₁ ++ M' ++ L₂, P b a := by
  rw [List.map_append, List.map_append] at hnd
  -- the blocks outside `M` have keys outside `M`
  have h₁M : ∀ c ∈ L₁, f c ∉ M.map f := fun c hc hM =>
    (List.nodup_append.mp (List.nodup_append.mp hnd).1).2.2 _ (List.mem_map_of_mem hc) _ hM rfl
  have h₂M : ∀ c ∈ L₂, f c ∉ M.map f := fun c hc hM =>
    (List.nodup_append.mp hnd).2.2 _ (List.mem_append_right _ hM) _ (List.mem_map_of_mem hc) rfl
  intro a
  simp only [hs, h, List.mem_append]
  constructor
  · rintro (⟨⟨c, (hc | hc) | hc, hPc⟩, ha⟩ | ⟨c, hc, hPc⟩)
    · exact ⟨c, .inl (.inl hc), hPc⟩
    · exact absurd (hP c a hPc ▸ List.mem_map_of_mem hc) ha
    · exact ⟨c, .inr hc, hPc⟩
    · exact ⟨c, .inl (.inr hc), hPc⟩
  · rintro ⟨c, (hc | hc) | hc, hPc⟩
    · exact .inl ⟨⟨c, .inl (.inl hc), hPc⟩, hP c a hPc ▸ h₁M c hc⟩
    · exact .inr ⟨c, hc, hPc⟩
    · exact .inl ⟨⟨c, .inr hc, hPc⟩, hP c a hPc ▸ h₂M c hc⟩

/-- The lists after blocks `M` of the walk become `M'`: the addresses of `M` have
left them and the free blocks of `M'` have joined. -/
theorem ListsHold.replace {seg seg' : Nat → List Nat} {M M' : List Blk}
    (h : ListsHold seg (L₁ ++ M ++ L₂)) (hnd : ((L₁ ++ M ++ L₂).map Blk.addr).Nodup)
    (hseg : ∀ i a, a ∈ seg' i ↔ (a ∈ seg i ∧ a ∉ M.map Blk.addr) ∨ FreeOn M' i a)
    (hnd' : ∀ i, (seg' i).Nodup) :
    ListsHold seg' (L₁ ++ M' ++ L₂) :=
  ⟨hnd', fun i => keys_replace Blk.addr (fun _ _ h => h.1) (h.2 i) hnd (hseg i)⟩

@[simp] theorem freeOn_nil {i a : Nat} : ¬ FreeOn [] i a := by simp [FreeOn]

@[simp] theorem freeOn_singleton {X : Blk} {i a : Nat} :
    FreeOn [X] i a ↔ X.addr = a ∧ X.inuse = false ∧ getList X.size = i := by
  simp [FreeOn]

/-- A used block is on no list. -/
theorem freeOn_insert_used {i a : Nat} (hb : b.inuse = true) :
    FreeOn (L₁ ++ b :: L₂) i a ↔ FreeOn (L₁ ++ L₂) i a := by
  rw [← List.singleton_append, freeOn_append, freeOn_append, freeOn_append]
  simp [FreeOn, hb]

theorem ListsHold.insert_used {seg : Nat → List Nat} (hb : b.inuse = true) :
    ListsHold seg (L₁ ++ b :: L₂) ↔ ListsHold seg (L₁ ++ L₂) := by
  simp only [ListsHold, freeOn_insert_used hb]

/-- `list_remove` of a free block of the walk. -/
theorem ListsHold.remove {H : Heap} (h : ListsHold H.segList (L₁ ++ b :: L₂))
    (hnd : ((L₁ ++ b :: L₂).map Blk.addr).Nodup) :
    ListsHold (H.listRemove b.addr).segList (L₁ ++ L₂) := by
  rw [← List.singleton_append, ← List.append_assoc] at h hnd
  have : ListsHold (H.listRemove b.addr).segList (L₁ ++ [] ++ L₂) :=
    h.replace hnd (fun i a => ?_) (Heap.listRemove_nodup h.1)
  · simpa using this
  · rw [Heap.mem_listRemove_segList h.1]
    simp

/-- `list_push_back` of a free block new to the walk. -/
theorem ListsHold.push {H : Heap} (h : ListsHold H.segList (L₁ ++ L₂))
    (hnd : ((L₁ ++ b :: L₂).map Blk.addr).Nodup) (hb : b.inuse = false) :
    ListsHold (H.pushBack (getList b.size) b.addr).segList (L₁ ++ b :: L₂) := by
  -- `b`'s address is no block's of the walk, so it is on no list yet
  have hnew : ∀ i, b.addr ∉ H.segList i := fun i hi => by
    obtain ⟨c, hc, hca, -⟩ := (h.2 i b.addr).mp hi
    rw [List.map_append, List.map_cons] at hnd
    rcases List.mem_append.mp hc with hc | hc
    · exact (List.nodup_append.mp hnd).2.2 _ (List.mem_map_of_mem hc) _ List.mem_cons_self hca
    · exact (List.nodup_cons.mp (List.nodup_append.mp hnd).2.1).1 (hca ▸ List.mem_map_of_mem hc)
  rw [← List.singleton_append, ← List.append_assoc]
  have hnd₀ : ((L₁ ++ [] ++ L₂).map Blk.addr).Nodup := by
    rw [List.append_nil]
    exact hnd.sublist (((List.Sublist.refl L₁).append (List.sublist_cons_self b L₂)).map _)
  refine (show ListsHold H.segList (L₁ ++ [] ++ L₂) by simpa using h).replace hnd₀
    (fun i a => ?_) (Heap.pushBack_nodup h.1 (hnew _))
  rw [Heap.mem_pushBack_segList, freeOn_singleton]
  simp only [List.map_nil, List.not_mem_nil, not_false_eq_true, and_true, hb, true_and]
  exact or_congr_right ⟨fun ⟨h₁, h₂⟩ => ⟨h₂.symm, h₁.symm⟩, fun ⟨h₁, h₂⟩ => ⟨h₂.symm, h₁.symm⟩⟩

/-- A free block's payload is not a live pointer. -/
theorem LiveHold.not_mem_free {live : List Nat} (h : LiveHold live L)
    (hnd : (L.map Blk.addr).Nodup) (hb : b ∈ L) (hf : b.inuse = false) : b.addr + 1 ∉ live := by
  intro hl
  obtain ⟨c, hc, hca, hcu⟩ := (h.2 _).mp hl
  have : c = b := List.inj_on_of_nodup_map hnd hc hb (by simpa using hca)
  simp [this, hf] at hcu

/-- The live pointers after blocks `M` of the walk become `M'`. -/
theorem LiveHold.replace {live live' : List Nat} {M M' : List Blk}
    (h : LiveHold live (L₁ ++ M ++ L₂)) (hnd : ((L₁ ++ M ++ L₂).map Blk.addr).Nodup)
    (hlive : ∀ p, p ∈ live' ↔
      (p ∈ live ∧ p ∉ M.map (·.addr + 1)) ∨ ∃ b ∈ M', b.addr + 1 = p ∧ b.inuse = true)
    (hnd' : live'.Nodup) :
    LiveHold live' (L₁ ++ M' ++ L₂) := by
  have hnd₁ : ((L₁ ++ M ++ L₂).map (·.addr + 1)).Nodup := by
    have := hnd.map (f := (· + 1)) fun _ _ => Nat.succ.inj
    rwa [List.map_map] at this
  exact ⟨hnd', keys_replace (·.addr + 1) (fun _ _ h => h.1) h.2 hnd₁ hlive⟩

/-- Merging free blocks leaves the used ones, and so the live pointers, as they were. -/
theorem LiveHold.merge {live : List Nat} {M : List Blk} {X : Blk} (h : LiveHold live (L₁ ++ M ++ L₂))
    (hM : ∀ c ∈ M, c.inuse = false) (hX : X.inuse = false) :
    LiveHold live (L₁ ++ X :: L₂) := by
  refine ⟨h.1, fun p => ?_⟩
  rw [h.2]
  simp only [List.mem_append, List.mem_cons]
  constructor
  · rintro ⟨c, (hc | hc) | hc, hp, hu⟩
    · exact ⟨c, .inl hc, hp, hu⟩
    · exact absurd hu (by simp [hM c hc])
    · exact ⟨c, .inr (.inr hc), hp, hu⟩
  · rintro ⟨c, hc | rfl | hc, hp, hu⟩
    · exact ⟨c, .inl (.inl hc), hp, hu⟩
    · exact absurd hu (by simp [hX])
    · exact ⟨c, .inr hc, hp, hu⟩

end Pintos.User

import Mathlib
import Pintos.Userprog.PagedirMap
import Pintos.Userprog.UserMem
import Pintos.Threads.Malloc

/-!
# Loading an ELF executable (`load` in `userprog/process.c`)

`load` makes a page directory, reads the 52-byte executable header and checks
it, then reads the program headers one after another from `e_phoff`. A
`PT_LOAD` header that `validate_segment` accepts becomes a call of
`load_segment`, which gives each page of the segment a fresh user frame, reads
the segment's bytes from the file into it, zeroes the rest and maps it with
`install_page`; `PT_DYNAMIC`, `PT_INTERP` and `PT_SHLIB` stop the load, other
types are skipped. `heap_start` ends a page past the highest segment, and
`setup_stack` maps a zeroed, writable page just below `PHYS_BASE`.

The executable is the bytes of the open file (`ExecFile`); `file_read` returns
what `inode_read_at` returns from the file's position. Frames hold bytes
(`LoadSt.mem`); the words of the page directory and its tables are `KMem`'s. The
sums of `validate_segment` are taken modulo `2^32`, where they can wrap; once a
segment is accepted every sum `load` makes on it stays below `PHYS_BASE`.
Opening, denying writes to and closing the file, and the bookkeeping of the
thread's bond after `done:`, are `Bond.lean`'s and `Syscall.lean`'s.
-/

namespace Pintos.Userprog.Load

open Pintos.Threads

/-! ## The executable's headers -/

/-- `PT_LOAD`. -/
def ptLoad : Nat := 1

/-- `PT_DYNAMIC`. -/
def ptDynamic : Nat := 2

/-- `PT_INTERP`. -/
def ptInterp : Nat := 3

/-- `PT_SHLIB`. -/
def ptShlib : Nat := 5

/-- `PF_W`. -/
def pfW : Nat := 2

/-- `"\177ELF\1\1\1"`, the first seven bytes of `e_ident`. -/
def elfMagic : List UInt8 := [0x7f, 0x45, 0x4c, 0x46, 1, 1, 1]

/-- The little-endian `Elf32_Half` at `a` of `b`. -/
def elfHalf (b : List UInt8) (a : Nat) : Nat := (b.getD a 0).toNat + 256 * (b.getD (a + 1) 0).toNat

/-- The little-endian `Elf32_Word` at `a` of `b`. -/
def elfWord (b : List UInt8) (a : Nat) : Nat := Bytes.getWord (fun i => b.getD i 0) a

/-- The fields of `struct Elf32_Ehdr` that `load` reads. -/
structure Elf32Ehdr where
  eIdent : List UInt8
  eType : Nat
  eMachine : Nat
  eVersion : Nat
  eEntry : Nat
  ePhoff : Nat
  ePhentsize : Nat
  ePhnum : Nat

/-- The executable header laid over the bytes `b`. -/
def Elf32Ehdr.ofBytes (b : List UInt8) : Elf32Ehdr :=
  ⟨b.take 16, elfHalf b 16, elfHalf b 18, elfWord b 20, elfWord b 24, elfWord b 28,
    elfHalf b 42, elfHalf b 44⟩

/-- The fields of `struct Elf32_Phdr` that `load` reads. -/
structure Elf32Phdr where
  pType : Nat
  pOffset : Nat
  pVaddr : Nat
  pFilesz : Nat
  pMemsz : Nat
  pFlags : Nat

/-- The program header laid over the bytes `b`. -/
def Elf32Phdr.ofBytes (b : List UInt8) : Elf32Phdr :=
  ⟨elfWord b 0, elfWord b 4, elfWord b 8, elfWord b 16, elfWord b 20, elfWord b 24⟩

/-- The executable header checks of `load`, passed when `false`. -/
def ehdrBad (b : List UInt8) : Bool :=
  let ehdr := Elf32Ehdr.ofBytes b
  b.length != 52 || ehdr.eIdent.take 7 != elfMagic || ehdr.eType != 2 || ehdr.eMachine != 3 ||
    ehdr.eVersion != 1 || ehdr.ePhentsize != 32 || decide (ehdr.ePhnum > 1024)

/-- `(off_t) x` for an `Elf32_Off`: `off_t` is `int32_t`. -/
def toOffT (x : Nat) : Int := if x < 2 ^ 31 then x else x - 2 ^ 32

/-- `ROUND_UP (x, step)`. -/
def roundUp (x step : Nat) : Nat := (x + step - 1) / step * step

/-! ## The file -/

/-- The open executable: its bytes and its position. -/
structure ExecFile where
  content : List UInt8
  pos : Nat

/-- `file_read (file, buffer, size)`: the bytes from the position, at most
`size`, and the position past them. -/
def ExecFile.read (f : ExecFile) (size : Nat) : ExecFile × List UInt8 :=
  (⟨f.content, f.pos + ((f.content.drop f.pos).take size).length⟩,
    (f.content.drop f.pos).take size)

/-- `file_seek (file, pos)`. -/
def ExecFile.seek (f : ExecFile) (pos : Nat) : ExecFile := ⟨f.content, pos⟩

/-- `file_length (file)`. -/
def ExecFile.length (f : ExecFile) : Nat := f.content.length

/-! ## The state `load` changes -/

/-- The page allocator and page tables, and the bytes of memory. -/
structure LoadSt where
  K : KMem
  mem : Nat → UInt8

/-- `palloc_get_page (flags)`, whose page's bytes are zeroed under `PAL_ZERO`. -/
def LoadSt.getPage (S : LoadSt) (flags : PallocFlags) : Option (LoadSt × Nat) :=
  (S.K.getPage flags).map fun r =>
    (⟨r.1, if flags.palZero ∧ r.2 ≠ 0 then Bytes.copy S.mem r.2 (fun _ => 0) pgSize else S.mem⟩,
      r.2)

/-- `palloc_free_page (page)`, which fills a page other than `NULL` with `0xcc`. -/
def LoadSt.freePage (S : LoadSt) (page : Nat) : Option LoadSt :=
  (S.K.freePage page).map fun K =>
    ⟨K, if page = 0 then S.mem else Bytes.copy S.mem page (fun _ => 0xcc) pgSize⟩

/-- `install_page (upage, kpage, writable)` in the directory `pd`: map `upage`
unless it is mapped. -/
def installPage (S : LoadSt) (pd upage kpage : Nat) (writable : Bool) :
    Option (LoadSt × Bool) := do
  if (← pagedirGetPage S.K pd upage) ≠ 0 then return (S, false)
  let (K, ok) ← pagedirSetPage S.K pd upage kpage writable
  return (⟨K, S.mem⟩, ok)

/-! ## `load_segment` -/

/-- One pass of the loop of `load_segment`: a user frame for `upage`, the next
`pageReadBytes` bytes of the file read into it and the rest of it zeroed, then
mapped. `false` is a `return false`. -/
def loadPage (pd : Nat) (writable : Bool) (S : LoadSt) (file : ExecFile)
    (upage pageReadBytes : Nat) : Option (LoadSt × ExecFile × Bool) := do
  let (S, kpage) ← S.getPage ⟨false, false, true⟩
  if kpage = 0 then return (S, file, false)
  let (file, bytes) := file.read pageReadBytes
  let S := { S with mem := Bytes.copy S.mem kpage (fun i => bytes.getD i 0) bytes.length }
  if bytes.length ≠ pageReadBytes then return (← S.freePage kpage, file, false)
  let zeroed := Bytes.copy S.mem (kpage + pageReadBytes) (fun _ => 0) (pgSize - pageReadBytes)
  let S := { S with mem := zeroed }
  let (S, ok) ← installPage S pd upage kpage writable
  if !ok then return (← S.freePage kpage, file, false)
  return (S, file, true)

/-- The loop of `load_segment` over `readBytes` bytes to read and `zeroBytes` to
zero from `upage`, for at most `fuel` passes. -/
def loadSegmentLoop (pd : Nat) (writable : Bool) :
    Nat → LoadSt → ExecFile → Nat → Nat → Nat → Option (LoadSt × ExecFile × Bool)
  | 0, S, file, _, _, _ => some (S, file, true)
  | fuel + 1, S, file, upage, readBytes, zeroBytes =>
    if readBytes = 0 ∧ zeroBytes = 0 then some (S, file, true) else
    let pageReadBytes := if readBytes < pgSize then readBytes else pgSize
    match loadPage pd writable S file upage pageReadBytes with
    | none => none
    | some (S, file, false) => some (S, file, false)
    | some (S, file, true) =>
      loadSegmentLoop pd writable fuel S file (upage + pgSize) (readBytes - pageReadBytes)
        (zeroBytes - (pgSize - pageReadBytes))

/-- `load_segment (file, ofs, upage, read_bytes, zero_bytes, writable)`. Each
pass covers a page, so `(read_bytes + zero_bytes) / PGSIZE` passes finish the
loop. -/
def loadSegment (S : LoadSt) (pd : Nat) (file : ExecFile) (ofs upage readBytes zeroBytes : Nat)
    (writable : Bool) : Option (LoadSt × ExecFile × Bool) :=
  if (readBytes + zeroBytes) % pgSize ≠ 0 ∨ pgOfs upage ≠ 0 ∨ ofs % pgSize ≠ 0 then none else
  loadSegmentLoop pd writable ((readBytes + zeroBytes) / pgSize) S (file.seek ofs) upage
    readBytes zeroBytes

/-! ## `validate_segment` and the loop over the program headers -/

/-- `validate_segment (phdr, file)`. -/
def validateSegment (phdr : Elf32Phdr) (file : ExecFile) : Bool :=
  if pgOfs phdr.pOffset ≠ pgOfs phdr.pVaddr then false
  else if phdr.pOffset > file.length then false
  else if phdr.pMemsz < phdr.pFilesz then false
  else if phdr.pMemsz = 0 then false
  else if !isUserVaddr phdr.pVaddr then false
  else if !isUserVaddr ((phdr.pVaddr + phdr.pMemsz) % 2 ^ 32) then false
  else if (phdr.pVaddr + phdr.pMemsz) % 2 ^ 32 < phdr.pVaddr then false
  else if phdr.pVaddr < pgSize then false
  else true

/-- The bytes `load` reads from the file for a segment: `read_bytes`. -/
def readBytesOf (phdr : Elf32Phdr) : Nat :=
  if phdr.pFilesz > 0 then pgOfs phdr.pVaddr + phdr.pFilesz else 0

/-- The bytes `load` zeroes after them: `zero_bytes`. -/
def zeroBytesOf (phdr : Elf32Phdr) : Nat :=
  if phdr.pFilesz > 0 then roundUp (pgOfs phdr.pVaddr + phdr.pMemsz) pgSize - readBytesOf phdr
  else roundUp (pgOfs phdr.pVaddr + phdr.pMemsz) pgSize

/-- The `switch` of `load` on one program header: the state, and `none` for a
`goto done` or `heap_start` after it. -/
def loadPhdr (S : LoadSt) (pd : Nat) (file : ExecFile) (phdr : Elf32Phdr) (heapStart : Nat) :
    Option (LoadSt × ExecFile × Option Nat) :=
  if phdr.pType = ptDynamic ∨ phdr.pType = ptInterp ∨ phdr.pType = ptShlib then
    some (S, file, none)
  else if phdr.pType ≠ ptLoad then some (S, file, some heapStart)
  else if !validateSegment phdr file then some (S, file, none)
  else
    let memPage := pgRoundDown phdr.pVaddr
    match loadSegment S pd file (pgRoundDown phdr.pOffset) memPage (readBytesOf phdr)
      (zeroBytesOf phdr) (phdr.pFlags &&& pfW != 0) with
    | none => none
    | some (S, file, false) => some (S, file, none)
    | some (S, file, true) =>
      let segmentEnd := memPage + readBytesOf phdr + zeroBytesOf phdr
      some (S, file, some (if segmentEnd > heapStart then segmentEnd else heapStart))

/-- The loop of `load` over the `n` program headers left, the next at
`fileOfs`. -/
def phdrLoop (pd : Nat) : Nat → LoadSt → ExecFile → Int → Nat →
    Option (LoadSt × ExecFile × Option Nat)
  | 0, S, file, _, heapStart => some (S, file, some heapStart)
  | n + 1, S, file, fileOfs, heapStart =>
    if fileOfs < 0 ∨ fileOfs > file.length then some (S, file, none) else
    let r := (file.seek fileOfs.toNat).read 32
    if r.2.length ≠ 32 then some (S, r.1, none) else
    match loadPhdr S pd r.1 (Elf32Phdr.ofBytes r.2) heapStart with
    | none => none
    | some (S, file, none) => some (S, file, none)
    | some (S, file, some heapStart) => phdrLoop pd n S file (fileOfs + 32) heapStart

/-! ## `load` -/

/-- `setup_stack`: a zeroed user frame mapped writable at `PHYS_BASE - PGSIZE`;
the new `*esp`, or `none` for `false`. -/
def setupStack (S : LoadSt) (pd : Nat) : Option (LoadSt × Option Nat) := do
  let (S, kpage) ← S.getPage ⟨false, true, true⟩
  if kpage = 0 then return (S, none)
  let (S, ok) ← installPage S pd (physBase - pgSize) kpage true
  if ok then return (S, some physBase)
  return (← S.freePage kpage, none)

/-- What a successful `load` hands back: `*eip`, `*esp` and `t->heap_end`. -/
structure LoadOut where
  eip : Nat
  esp : Nat
  heapEnd : Nat

/-- `load (file_name, eip, esp)` on the executable's bytes `content`, with
`init_page_dir` at `initPageDir`: the state, `t->pagedir`, and what a successful
load hands back, `none` for `false`. -/
def load (S : LoadSt) (initPageDir : Nat) (content : List UInt8) :
    Option (LoadSt × Nat × Option LoadOut) := do
  let (K, pd) ← pagedirCreate S.K initPageDir
  let S := { S with K }
  if pd = 0 then return (S, pd, none)
  let r := (ExecFile.mk content 0).read 52
  if ehdrBad r.2 then return (S, pd, none)
  let ehdr := Elf32Ehdr.ofBytes r.2
  let (S, _, heapStart) ← phdrLoop pd ehdr.ePhnum S r.1 (toOffT ehdr.ePhoff) 0
  match heapStart with
  | none => return (S, pd, none)
  | some heapStart =>
    let (S, esp) ← setupStack S pd
    match esp with
    | none => return (S, pd, none)
    | some esp => return (S, pd, some ⟨ehdr.eEntry, esp, heapStart + pgSize⟩)


/-! ## The pieces one at a time -/

section Pieces

variable {S : LoadSt} {pd : Nat}

@[simp] theorem ExecFile.read_content (f : ExecFile) (n : Nat) :
    (f.read n).1.content = f.content := rfl

theorem ExecFile.read_pos (f : ExecFile) (n : Nat) :
    (f.read n).1.pos = f.pos + (f.read n).2.length := rfl

/-- A full read returns the file's bytes from the position. -/
theorem ExecFile.read_getElem? (f : ExecFile) {n o : Nat} (ho : o < n) :
    (f.read n).2[o]? = f.content[f.pos + o]? := by
  simp only [ExecFile.read, List.getElem?_take, ho, if_true, List.getElem?_drop]

/-- The byte a user address holds in `pd`: its frame's, if its page is mapped. -/
def userByte (S : LoadSt) (pd a : Nat) : Option UInt8 :=
  (pdMap S.K pd (pgNo a)).map fun e => S.mem (e.1 + pgOfs a)

theorem ne_none_of_map_snd {m : Option (Nat × Bool)} {w : Bool} (h : m.map Prod.snd = some w) :
    m ≠ none := by
  rintro rfl
  cases h

theorem userByte_ne_none {a : Nat} (h : pdMap S.K pd (pgNo a) ≠ none) : userByte S pd a ≠ none := by
  unfold userByte
  rwa [Ne, Option.map_eq_none_iff]

/-- What `load` keeps of the state it builds in `pd`: a well-formed directory
whose user mappings are frames of the user pool in use. -/
structure LoadInv (S : LoadSt) (pd : Nat) : Prop where
  wf : PdWf S.K pd
  frames : ∀ p < pgNo physBase, ∀ e, pdMap S.K pd p = some e → InUse (S.K.palloc.pool true) e.1

/-- `S'` keeps every user mapping `pd` has in `S`, and the bytes of its frames. -/
structure Keeps (pd : Nat) (S S' : LoadSt) : Prop where
  map : ∀ p < pgNo physBase, pdMap S.K pd p ≠ none → pdMap S'.K pd p = pdMap S.K pd p
  bytes : ∀ p < pgNo physBase, ∀ e, pdMap S.K pd p = some e →
    ∀ o < pgSize, S'.mem (e.1 + o) = S.mem (e.1 + o)

theorem Keeps.refl (pd : Nat) (S : LoadSt) : Keeps pd S S :=
  ⟨fun _ _ _ => rfl, fun _ _ _ _ _ _ => rfl⟩

theorem Keeps.trans {S1 S2 S3 : LoadSt} (h1 : Keeps pd S1 S2) (h2 : Keeps pd S2 S3) :
    Keeps pd S1 S3 := by
  refine ⟨fun p hp hm => ?_, fun p hp e he o ho => ?_⟩
  · rw [h2.map p hp (by rw [h1.map p hp hm]; exact hm), h1.map p hp hm]
  · have he2 : pdMap S2.K pd p = some e := by rw [h1.map p hp (by simp [he]), he]
    rw [h2.bytes p hp e he2 o ho, h1.bytes p hp e he o ho]

theorem pgOfs_lt (a : Nat) : pgOfs a < pgSize := by
  unfold pgOfs pgSize
  omega

/-- A byte of a mapped page stays what it was. -/
theorem Keeps.userByte_eq {S S' : LoadSt} (h : Keeps pd S S') {a : Nat} (ha : a < physBase)
    (hm : userByte S pd a ≠ none) : userByte S' pd a = userByte S pd a := by
  have hp := pgNo_lt_of_lt ha
  unfold userByte at hm ⊢
  cases he : pdMap S.K pd (pgNo a) with
  | none => rw [he] at hm; exact absurd rfl hm
  | some e =>
    rw [h.map _ hp (by simp [he]), he]
    simp only [Option.map_some, h.bytes _ hp e he _ (pgOfs_lt a)]

/-- `palloc_get_page` on the user pool: a null pointer with nothing changed, or
a page `i` of the user pool taken; the kernel pool, the words of the kernel's
pages and the bytes of every other page as they were. -/
theorem LoadSt.getPage_user (S : LoadSt) (zero : Bool) :
    ∃ S' page, S.getPage ⟨false, zero, true⟩ = some (S', page) ∧
      S'.K.palloc.pool false = S.K.palloc.pool false ∧
      ((page = 0 ∧ S' = S) ∨ ∃ i, page = (S.K.palloc.pool true).base + pgSize * i ∧
        PoolTakes (S.K.palloc.pool true) (S'.K.palloc.pool true) i ∧
        (∀ a, ¬ (page ≤ a ∧ a < page + pgSize) → S'.K.word a = S.K.word a ∧ S'.mem a = S.mem a)) := by
  obtain ⟨K', page, hget, hother, hcases⟩ := getPage_spec S.K ⟨false, zero, true⟩ rfl
  unfold LoadSt.getPage
  rw [hget]
  rcases hcases with ⟨rfl, rfl⟩ | ⟨i, hpage, htakes, hword⟩
  · refine ⟨S, 0, ?_, rfl, .inl ⟨rfl, rfl⟩⟩
    simp
  · refine ⟨_, page, rfl, hother, .inr ⟨i, hpage, htakes, fun a ha => ⟨?_, ?_⟩⟩⟩
    · rw [hword]
      cases zero
      · rfl
      · simp only [if_true]
        exact if_neg ha
    · show (if zero = true ∧ page ≠ 0 then Bytes.copy S.mem page (fun _ => 0) pgSize else S.mem) a =
        S.mem a
      split
      · exact if_neg ha
      · rfl

/-- A kernel page in use and a user page differ. -/
theorem LoadInv.kernel_ne_user (h : LoadInv S pd) {x y : Nat} (hx : InUse (S.K.palloc.pool false) x)
    {i : Nat} (hi : i < (S.K.palloc.pool true).usedMap.bitCnt)
    (hy : y = (S.K.palloc.pool true).base + pgSize * i) : x ≠ y := by
  obtain ⟨j, rfl, hj, -⟩ := hx
  rw [hy]
  exact h.wf.pools.ne hj hi

/-- Taking a user page keeps the invariant and what was built: only the new
page's bytes, and under `PAL_ZERO` its words, change. -/
theorem LoadInv.getPage_user (h : LoadInv S pd) (zero : Bool) :
    ∃ S' page, S.getPage ⟨false, zero, true⟩ = some (S', page) ∧ LoadInv S' pd ∧
      Keeps pd S S' ∧ (∀ p < pgNo physBase, pdMap S'.K pd p = pdMap S.K pd p) ∧
      ((page = 0 ∧ S' = S) ∨ ∃ i, page = (S.K.palloc.pool true).base + pgSize * i ∧
        PoolTakes (S.K.palloc.pool true) (S'.K.palloc.pool true) i ∧
        ∀ a, ¬ (page ≤ a ∧ a < page + pgSize) → S'.mem a = S.mem a) := by
  obtain ⟨S', page, hget, hkern, hcases⟩ := S.getPage_user zero
  rcases hcases with ⟨rfl, hS⟩ | ⟨i, hpage, htakes, hsame⟩
  · rw [hS] at hget
    exact ⟨S, 0, hget, h, Keeps.refl pd S, fun _ _ => rfl, .inl ⟨rfl, rfl⟩⟩
  · have hy : KPage page := hpage ▸ h.wf.pools.kPage true htakes.lt
    -- the words of the kernel's pages are outside the new page
    have hw : ∀ x o, InUse (S.K.palloc.pool false) x → o < pgSize →
        S'.K.word (x + o) = S.K.word (x + o) := fun x o hx ho =>
      (hsame _ (not_mem_page_of_ne (hx.kPage h.wf.pools).aligned hy.aligned
        (h.kernel_ne_user hx htakes.lt hpage) ho)).1
    have hmap := h.wf.pdMap_eq_of_words hw
    have hP : PoolsOk S'.K.palloc := h.wf.pools.of_shape fun u => by
      cases u
      · rw [hkern]
        exact ⟨rfl, rfl⟩
      · exact ⟨htakes.base_eq, htakes.bitCnt_eq⟩
    refine ⟨S', page, hget, ⟨h.wf.of_words hP hkern hw, fun p hp e he => ?_⟩,
      ⟨fun p hp _ => hmap p hp, fun p hp e he o ho => ?_⟩, hmap,
      .inr ⟨i, hpage, htakes, fun a ha => (hsame a ha).2⟩⟩
    · rw [hmap p hp] at he
      exact (h.frames p hp e he).of_takes htakes
    · have hf := h.frames p hp e he
      exact (hsame _ (not_mem_page_of_ne (hf.kPage h.wf.pools).aligned hy.aligned
        (hpage ▸ hf.ne_of_takes htakes) ho)).2

/-- `install_page` of a user frame in use at an aligned user page: it maps the
page when it was free and a table could be had (`true`), and otherwise changes
nothing that matters; the invariant holds and the bytes and the user pool are
as they were. -/
theorem LoadInv.installPage (h : LoadInv S pd) {upage kpage : Nat} (hup : pgOfs upage = 0)
    (hu : upage < physBase) (hk : InUse (S.K.palloc.pool true) kpage) (w : Bool) :
    ∃ S' ok, installPage S pd upage kpage w = some (S', ok) ∧ LoadInv S' pd ∧ Keeps pd S S' ∧
      S'.mem = S.mem ∧ S'.K.palloc.pool true = S.K.palloc.pool true ∧
      (ok → pdMap S.K pd (pgNo upage) = none) ∧ ∀ p < pgNo physBase,
        pdMap S'.K pd p = if ok ∧ p = pgNo upage then some (kpage, w) else pdMap S.K pd p := by
  unfold Load.installPage
  rw [pagedirGetPage_eq S.K pd hu]
  cases hm : pdMap S.K pd (pgNo upage) with
  | some e =>
    -- mapped already: `install_page` fails and changes nothing
    have hne : e.1 + pgOfs upage ≠ 0 := add_ne_zero_of_kernel (pdMap_frame_kernel hm) _
    refine ⟨S, false, ?_, h, Keeps.refl pd S, rfl, rfl, fun hf => Bool.noConfusion hf,
      fun p _ => by simp⟩
    simp only [Option.elim_some, hne, ne_eq, not_false_eq_true, if_true, Option.pure_def,
      Option.bind_eq_bind, Option.bind_some]
  | none =>
    obtain ⟨K', ok, hset, hpool, hwf, hmap⟩ :=
      pagedirSetPage_spec h.wf hup hu (hk.kPage h.wf.pools) hm w
    refine ⟨⟨K', S.mem⟩, ok, ?_, ⟨hwf, fun p hp e he => ?_⟩,
      ⟨fun p hp hm' => ?_, fun _ _ _ _ _ _ => rfl⟩, rfl, hpool, fun _ => rfl, hmap⟩
    · simp only [Option.elim_none, ne_eq, not_true_eq_false, if_false, hset, Option.pure_def,
        Option.bind_eq_bind, Option.bind_some]
    · show InUse (K'.palloc.pool true) e.1
      rw [hpool]
      rw [hmap p hp] at he
      split at he
      · cases he
        exact hk
      · exact h.frames p hp e he
    · -- a page mapped before is not the one mapped now
      rw [hmap p hp, if_neg]
      rintro ⟨-, rfl⟩
      exact hm' hm

theorem pgNo_add {upage o : Nat} (hup : pgOfs upage = 0) (ho : o < pgSize) :
    pgNo (upage + o) = pgNo upage := by
  unfold pgNo pgOfs pgSize at *
  omega

theorem pgOfs_add {upage o : Nat} (hup : pgOfs upage = 0) (ho : o < pgSize) :
    pgOfs (upage + o) = o := by
  unfold pgOfs pgSize at *
  omega

end Pieces

section Segment

variable {S : LoadSt} {pd : Nat}

theorem copy_apply_outside {m src : Nat → UInt8} {a n b : Nat} (h : ¬ (a ≤ b ∧ b < a + n)) :
    Bytes.copy m a src n b = m b := by
  unfold Bytes.copy
  rw [if_neg h]

/-- One page of `load_segment`, when it succeeds: a fresh frame holding the next
`pageReadBytes` bytes of the file and zeroes after them, mapped at `upage` with
the segment's write bit; nothing else that was built changes. -/
theorem LoadInv.loadPage (h : LoadInv S pd) {upage prb : Nat} {w : Bool} {file file' : ExecFile}
    {S' : LoadSt} (hup : pgOfs upage = 0) (hu : upage < physBase) (hprb : prb ≤ pgSize)
    (hres : loadPage pd w S file upage prb = some (S', file', true)) :
    LoadInv S' pd ∧ Keeps pd S S' ∧ file'.content = file.content ∧ file'.pos = file.pos + prb ∧
      (∀ p < pgNo physBase, p ≠ pgNo upage → pdMap S'.K pd p = pdMap S.K pd p) ∧
      (pdMap S'.K pd (pgNo upage)).map Prod.snd = some w ∧
      ∀ o < pgSize, userByte S' pd (upage + o) =
        if o < prb then file.content[file.pos + o]? else some 0 := by
  obtain ⟨S1, kpage, hget, hinv1, hkeep1, hmap1, hcases⟩ := h.getPage_user false
  unfold Load.loadPage at hres
  rw [hget] at hres
  simp only [Option.pure_def, Option.bind_eq_bind, Option.bind_some] at hres
  rcases hcases with ⟨rfl, -⟩ | ⟨i, hpage, htakes, hsame⟩
  · simp at hres
  have hk : InUse (S1.K.palloc.pool true) kpage := hpage ▸ inUse_of_takes htakes
  have hy : KPage kpage := hk.kPage hinv1.wf.pools
  have hk0 : kpage ≠ 0 := hy.ne_zero
  rw [if_neg hk0] at hres
  -- a short read frees the frame and fails
  have hlen : (file.read prb).2.length = prb := by
    by_contra hne
    rw [if_pos hne] at hres
    obtain ⟨_, -, hx⟩ := Option.bind_eq_some_iff.mp hres
    simp at hx
  rw [if_neg (by simpa using hlen)] at hres
  set S3 : LoadSt := ⟨S1.K, Bytes.copy (Bytes.copy S1.mem kpage
    (fun i => (file.read prb).2.getD i 0) (file.read prb).2.length) (kpage + prb) (fun _ => 0)
    (pgSize - prb)⟩
  -- the bytes written are the new frame's, outside every frame mapped before
  have hkeep3 : Keeps pd S1 S3 := by
    refine ⟨fun _ _ _ => rfl, fun p hp e he o ho => ?_⟩
    rw [hmap1 p hp] at he
    have hf := h.frames p hp e he
    have hb := not_mem_page_of_ne (hf.kPage h.wf.pools).aligned hy.aligned
      (hpage ▸ hf.ne_of_takes htakes) ho
    dsimp only [S3]
    rw [copy_apply_outside (by omega), copy_apply_outside (by omega)]
  obtain ⟨S4, ok, hinst, hinv4, hkeep4, hmem4, -, -, hmap4⟩ :=
    (show LoadInv S3 pd from ⟨hinv1.wf, hinv1.frames⟩).installPage hup hu hk w
  rw [hinst] at hres
  simp only [Option.bind_some] at hres
  -- a failed `install_page` frees the frame and fails
  cases ok
  · obtain ⟨_, -, hx⟩ := Option.bind_eq_some_iff.mp hres
    simp at hx
  simp only [Bool.not_true, Bool.false_eq_true, if_false, Option.some.injEq, Prod.mk.injEq,
    and_true] at hres
  obtain ⟨rfl, rfl⟩ := hres
  refine ⟨hinv4, (hkeep1.trans hkeep3).trans hkeep4, rfl, ?_, fun p hp hpu => ?_, ?_,
    fun o ho => ?_⟩
  · rw [ExecFile.read_pos, hlen]
  · rw [hmap4 p hp, if_neg (by simp [hpu]), hmap1 p hp]
  · rw [hmap4 _ (pgNo_lt_of_lt hu), if_pos ⟨rfl, rfl⟩]
    rfl
  · unfold userByte
    rw [pgNo_add hup ho, hmap4 _ (pgNo_lt_of_lt hu), if_pos ⟨rfl, rfl⟩, Option.map_some,
      pgOfs_add hup ho, hmem4]
    dsimp only [S3]
    by_cases hop : o < prb
    · rw [if_pos hop, copy_apply_outside (by omega), ← ExecFile.read_getElem? file hop,
        Bytes.copy_apply (by omega) (by omega), Nat.add_sub_cancel_left, List.getElem?_eq_getElem (by omega),
        List.getD_eq_getElem]
    · rw [if_neg hop, Bytes.copy_apply (by omega) (by omega)]

/-- The bytes a page after the first reads, seen from the start: past a full
first page the same file bytes, past a short one none. -/
theorem next_page_byte (bs : List UInt8) {pos upage r prb a : Nat}
    (hprb : prb = if r < pgSize then r else pgSize) (ha : upage + pgSize ≤ a) :
    (if a - (upage + pgSize) < r - prb then bs[pos + prb + (a - (upage + pgSize))]? else some 0) =
      if a - upage < r then bs[pos + (a - upage)]? else some 0 := by
  subst hprb
  by_cases hr : r < pgSize
  · rw [if_pos hr, if_neg (by omega), if_neg (by omega)]
  · rw [if_neg hr]
    by_cases hc : a - upage < r
    · rw [if_pos (by omega), if_pos hc, show pos + pgSize + (a - (upage + pgSize)) = pos + (a - upage) by
        omega]
    · rw [if_neg (by omega), if_neg hc]

/-- The loop of `load_segment`, when it succeeds, from an aligned `upage` with
`readBytes + zeroBytes = PGSIZE * fuel` ending at or below `PHYS_BASE`: each
address of the range holds, in a page mapped with the write bit, the file's
byte at the same distance from the position for the first `readBytes` and zero
after; the mappings that change are the range's pages, and nothing built before
changes. -/
theorem LoadInv.loadSegmentLoop (w : Bool) : ∀ (fuel : Nat) {S S' : LoadSt}
    {file file' : ExecFile} {upage r z : Nat}, LoadInv S pd → pgOfs upage = 0 →
    upage + r + z ≤ physBase → r + z = pgSize * fuel →
    loadSegmentLoop pd w fuel S file upage r z = some (S', file', true) →
    LoadInv S' pd ∧ Keeps pd S S' ∧ file'.content = file.content ∧
      (∀ a, upage ≤ a → a < upage + r + z →
        userByte S' pd a = (if a - upage < r then file.content[file.pos + (a - upage)]? else some 0) ∧
        (pdMap S'.K pd (pgNo a)).map Prod.snd = some w) ∧
      ∀ p < pgNo physBase, pdMap S'.K pd p ≠ pdMap S.K pd p → pgNo upage ≤ p ∧ p < pgNo upage + fuel
  | 0, S, S', file, file', upage, r, z, h, _, _, hsum, hres => by
    simp only [Load.loadSegmentLoop, Option.some.injEq, Prod.mk.injEq] at hres
    obtain ⟨rfl, rfl, -⟩ := hres
    exact ⟨h, Keeps.refl pd S, rfl, fun a h1 h2 => by rw [Nat.mul_zero] at hsum; omega,
      fun p _ hne => absurd rfl hne⟩
  | fuel + 1, S, S', file, file', upage, r, z, h, hup, hend, hsum, hres => by
    have hpg : pgSize = 4096 := rfl
    rw [hpg] at hsum
    rw [Load.loadSegmentLoop, if_neg (by omega)] at hres
    dsimp only at hres
    cases hp : Load.loadPage pd w S file upage (if r < pgSize then r else pgSize) with
    | none => rw [hp] at hres; cases hres
    | some t =>
      obtain ⟨S1, f1, ok⟩ := t
      rw [hp] at hres
      cases ok
      · cases hres
      dsimp only at hres
      obtain ⟨hinv1, hkeep1, hc1, hpos1, hother1, hw1, hbytes1⟩ :=
        h.loadPage hup (by omega) (by split <;> omega) hp
      obtain ⟨hinv, hkeep, hc, hbytes, hchanged⟩ := LoadInv.loadSegmentLoop w fuel hinv1
        (by unfold pgOfs at hup ⊢; rw [Nat.add_mod_right]; exact hup) (by split <;> omega)
        (by rw [hpg]; split <;> omega) hres
      refine ⟨hinv, hkeep1.trans hkeep, hc.trans hc1, fun a h1 h2 => ?_, fun p hp hne => ?_⟩
      · by_cases hfirst : a < upage + pgSize
        · -- the first page: what `load_page` put there, kept since
          obtain ⟨o, rfl⟩ : ∃ o, a = upage + o := ⟨a - upage, by omega⟩
          have ho : o < pgSize := by omega
          have hpa : pgNo (upage + o) = pgNo upage := pgNo_add hup ho
          have hm1 : pdMap S1.K pd (pgNo (upage + o)) ≠ none := hpa ▸ ne_none_of_map_snd hw1
          have hmapped : userByte S1 pd (upage + o) ≠ none := userByte_ne_none hm1
          have hcond : (o < if r < pgSize then r else pgSize) ↔ o < r := by split <;> omega
          refine ⟨?_, ?_⟩
          · rw [Nat.add_sub_cancel_left, hkeep.userByte_eq (by omega) hmapped, hbytes1 o ho]
            simp only [hcond]
          · rw [hkeep.map _ (pgNo_lt_of_lt (by omega)) hm1, hpa]
            exact hw1
        · -- the rest: the loop's
          obtain ⟨hb, hwr⟩ := hbytes a (by omega) (by split <;> omega)
          refine ⟨?_, hwr⟩
          rw [hb, hc1, hpos1]
          exact next_page_byte file.content rfl (by omega)
      · have hnext : pgNo (upage + pgSize) = pgNo upage + 1 := Nat.add_div_right upage (by decide)
        rcases hne.ne_or_ne (pdMap S1.K pd p) with hlater | hfirst
        · have := hchanged p hp hlater
          omega
        · by_cases hpu : p = pgNo upage
          · omega
          · exact absurd (hother1 p hp hpu) (Ne.symm hfirst)

end Segment

/-! ## A segment `validate_segment` accepts -/

section Valid

/-- What `validate_segment` makes sure of, for a header whose address and size
are words: the file and memory pages share their offset, the segment starts
within the file, is not empty, and lies between the first page and `PHYS_BASE`
without wrapping. -/
structure SegOk (phdr : Elf32Phdr) (len : Nat) : Prop where
  ofs_eq : pgOfs phdr.pOffset = pgOfs phdr.pVaddr
  offset_le : phdr.pOffset ≤ len
  filesz_le : phdr.pFilesz ≤ phdr.pMemsz
  memsz_pos : 0 < phdr.pMemsz
  vaddr_ge : pgSize ≤ phdr.pVaddr
  end_lt : phdr.pVaddr + phdr.pMemsz < physBase

/-- An accepted header is `SegOk`: the sums modulo `2^32` of `validate_segment`
do not wrap once the end is checked to be above the start. -/
theorem validateSegment_ok {phdr : Elf32Phdr} {file : ExecFile} (hv : phdr.pVaddr < 2 ^ 32)
    (hm : phdr.pMemsz < 2 ^ 32) (h : validateSegment phdr file = true) :
    SegOk phdr file.length := by
  unfold validateSegment isUserVaddr at h
  split_ifs at h with h1 h2 h3 h4 h5 h6 h7 h8
  simp only [Bool.not_eq_true', decide_eq_false_iff_not, not_lt] at h5 h6 h7 h8
  -- the end is above the start, so the sum did not wrap
  have hnowrap : (phdr.pVaddr + phdr.pMemsz) % 2 ^ 32 = phdr.pVaddr + phdr.pMemsz := by
    omega
  exact ⟨not_not.mp h1, by omega, by omega, by omega, h8, by omega⟩

theorem elfWord_lt (b : List UInt8) (a : Nat) : elfWord b a < 2 ^ 32 := Bytes.getWord_lt _ a

variable {phdr : Elf32Phdr} {len : Nat}

theorem le_roundUp (x : Nat) : x ≤ roundUp x pgSize := by
  unfold roundUp pgSize
  omega

theorem roundUp_lt (x : Nat) : roundUp x pgSize < x + pgSize := by
  unfold roundUp pgSize
  omega

/-- The pages of an accepted segment cover `ROUND_UP (page_offset + p_memsz)`
bytes from its first page. -/
theorem SegOk.read_add_zero (h : SegOk phdr len) :
    readBytesOf phdr + zeroBytesOf phdr = roundUp (pgOfs phdr.pVaddr + phdr.pMemsz) pgSize := by
  have := le_roundUp (pgOfs phdr.pVaddr + phdr.pMemsz)
  unfold zeroBytesOf readBytesOf
  split
  · have := h.filesz_le
    omega
  · omega

theorem SegOk.read_add_zero_mod (h : SegOk phdr len) :
    (readBytesOf phdr + zeroBytesOf phdr) % pgSize = 0 := by
  rw [h.read_add_zero]
  unfold roundUp
  exact Nat.mul_mod_left _ _

theorem pgOfs_pgRoundDown (a : Nat) : pgOfs (pgRoundDown a) = 0 := by
  unfold pgRoundDown pgOfs pgSize
  omega

/-- The segment's pages end at or below `PHYS_BASE`. -/
theorem SegOk.end_le (h : SegOk phdr len) :
    pgRoundDown phdr.pVaddr + readBytesOf phdr + zeroBytesOf phdr ≤ physBase := by
  have hend := h.end_lt
  rw [Nat.add_assoc, h.read_add_zero]
  unfold pgRoundDown roundUp pgOfs pgSize physBase at *
  omega

/-- Byte `i` of the segment lies `page_offset + i` into its first page, within
the bytes read exactly when it is within `p_filesz`. -/
theorem lt_readBytesOf_iff (phdr : Elf32Phdr) (i : Nat) :
    pgOfs phdr.pVaddr + i < readBytesOf phdr ↔ i < phdr.pFilesz := by
  unfold readBytesOf
  split <;> omega

theorem vaddr_sub_pgRoundDown (a i : Nat) : a + i - pgRoundDown a = pgOfs a + i := by
  unfold pgRoundDown pgOfs pgSize
  omega

/-- The file byte read for byte `i` of the segment is byte `p_offset + i`. -/
theorem SegOk.file_index (h : SegOk phdr len) (i : Nat) :
    pgRoundDown phdr.pOffset + (pgOfs phdr.pVaddr + i) = phdr.pOffset + i := by
  have := h.ofs_eq
  unfold pgRoundDown pgOfs pgSize at *
  omega

/-- A page `load_segment` maps for the segment starts at or after its first page
and before its end, and ends within its pages. -/
theorem SegOk.page_bounds (h : SegOk phdr len) {p : Nat}
    (hp : pgNo (pgRoundDown phdr.pVaddr) ≤ p ∧
      p < pgNo (pgRoundDown phdr.pVaddr) + (readBytesOf phdr + zeroBytesOf phdr) / pgSize) :
    pgNo phdr.pVaddr ≤ p ∧ p * pgSize < phdr.pVaddr + phdr.pMemsz ∧
      (p + 1) * pgSize ≤ pgRoundDown phdr.pVaddr + readBytesOf phdr + zeroBytesOf phdr := by
  have hpos := h.memsz_pos
  rw [h.read_add_zero] at hp
  rw [Nat.add_assoc, h.read_add_zero]
  unfold pgNo pgRoundDown roundUp pgOfs pgSize at *
  omega

end Valid

/-! ## The program headers -/

section Headers

variable {S : LoadSt} {pd : Nat} {phdr : Elf32Phdr}

/-- The segment of `phdr` is in place in `pd`: byte `i` of its `p_memsz` is, at
`p_vaddr + i`, the file's byte `p_offset + i` within `p_filesz` and zero past
it, in a page mapped with the segment's write bit. -/
def SegLoaded (S : LoadSt) (pd : Nat) (content : List UInt8) (phdr : Elf32Phdr) : Prop :=
  ∀ i < phdr.pMemsz,
    userByte S pd (phdr.pVaddr + i) =
        (if i < phdr.pFilesz then content[phdr.pOffset + i]? else some 0) ∧
      (pdMap S.K pd (pgNo (phdr.pVaddr + i))).map Prod.snd = some (phdr.pFlags &&& pfW != 0)

/-- A segment in place stays in place while what was built is kept. -/
theorem SegLoaded.keeps {S' : LoadSt} {content : List UInt8} {len : Nat}
    (h : SegLoaded S pd content phdr) (hok : SegOk phdr len) (hk : Keeps pd S S') :
    SegLoaded S' pd content phdr := by
  intro i hi
  obtain ⟨hb, hw⟩ := h i hi
  have ha : phdr.pVaddr + i < physBase := by
    have := hok.end_lt
    omega
  have hm := ne_none_of_map_snd hw
  refine ⟨?_, ?_⟩
  · rw [hk.userByte_eq ha (userByte_ne_none hm), hb]
  · rw [hk.map _ (pgNo_lt_of_lt ha) hm, hw]

/-- `load_segment` on the pages of a header `validate_segment` accepted, when it
succeeds: the segment is in place, what was built is kept, and the mappings
that change are pages of the segment. -/
theorem LoadInv.loadSegment_seg (h : LoadInv S pd) {file file' : ExecFile} {S' : LoadSt}
    (hok : SegOk phdr file.length)
    (hres : loadSegment S pd file (pgRoundDown phdr.pOffset) (pgRoundDown phdr.pVaddr)
      (readBytesOf phdr) (zeroBytesOf phdr) (phdr.pFlags &&& pfW != 0) = some (S', file', true)) :
    LoadInv S' pd ∧ Keeps pd S S' ∧ file'.content = file.content ∧
      SegLoaded S' pd file.content phdr ∧ ∀ p < pgNo physBase, pdMap S'.K pd p ≠ pdMap S.K pd p →
        pgNo phdr.pVaddr ≤ p ∧ p * pgSize < phdr.pVaddr + phdr.pMemsz ∧
          (p + 1) * pgSize ≤ pgRoundDown phdr.pVaddr + readBytesOf phdr + zeroBytesOf phdr := by
  have hmod := hok.read_add_zero_mod
  -- the asserts of `load_segment` hold for an accepted header
  unfold Load.loadSegment at hres
  rw [if_neg (by
    rintro (hm | hm | hm)
    · exact hm hmod
    · exact hm (pgOfs_pgRoundDown _)
    · exact hm (pgOfs_pgRoundDown _))] at hres
  obtain ⟨hinv, hkeep, hc, hbytes, hchanged⟩ := LoadInv.loadSegmentLoop _ _ h
    (pgOfs_pgRoundDown _) hok.end_le (Nat.mul_div_cancel' (Nat.dvd_of_mod_eq_zero hmod)).symm hres
  refine ⟨hinv, hkeep, hc, fun i hi => ?_, fun p hp hne => hok.page_bounds (hchanged p hp hne)⟩
  have hin : phdr.pVaddr + i < pgRoundDown phdr.pVaddr + readBytesOf phdr + zeroBytesOf phdr := by
    have := le_roundUp (pgOfs phdr.pVaddr + phdr.pMemsz)
    rw [Nat.add_assoc, hok.read_add_zero]
    unfold pgRoundDown at *
    omega
  obtain ⟨hb, hw⟩ := hbytes (phdr.pVaddr + i) (by unfold pgRoundDown; omega) hin
  refine ⟨?_, hw⟩
  rw [hb, vaddr_sub_pgRoundDown]
  simp only [lt_readBytesOf_iff, ExecFile.seek]
  rw [hok.file_index]

/-- A `PT_LOAD` header was accepted by `validate_segment` and its segment is in
place. -/
def PhdrLoaded (S : LoadSt) (pd : Nat) (content : List UInt8) (phdr : Elf32Phdr) : Prop :=
  phdr.pType = ptLoad → SegOk phdr content.length ∧ SegLoaded S pd content phdr

theorem PhdrLoaded.keeps {S' : LoadSt} {content : List UInt8} (h : PhdrLoaded S pd content phdr)
    (hk : Keeps pd S S') : PhdrLoaded S' pd content phdr := fun ht =>
  ⟨(h ht).1, (h ht).2.keeps (h ht).1 hk⟩

/-- Page `p` is a page of the segment of the `PT_LOAD` header `phdr`, which ends
at or below `heapStart`. -/
def SegPage (phdr : Elf32Phdr) (p heapStart : Nat) : Prop :=
  phdr.pType = ptLoad ∧ pgNo phdr.pVaddr ≤ p ∧ p * pgSize < phdr.pVaddr + phdr.pMemsz ∧
    (p + 1) * pgSize ≤ heapStart

theorem SegPage.mono {p h h' : Nat} (hs : SegPage phdr p h) (hle : h ≤ h') : SegPage phdr p h' :=
  ⟨hs.1, hs.2.1, hs.2.2.1, hs.2.2.2.trans hle⟩

/-- The `switch` of `load` on one header, when the loop goes on: a `PT_LOAD`
header was accepted and its segment is in place, and any other type changed
nothing; the mappings that change are pages of the segment, below the new
`heap_start`, which only grows. -/
theorem LoadInv.loadPhdr_next (h : LoadInv S pd) {file file' : ExecFile} {S' : LoadSt}
    {heap heap' : Nat} (hv : phdr.pVaddr < 2 ^ 32) (hm : phdr.pMemsz < 2 ^ 32)
    (hres : loadPhdr S pd file phdr heap = some (S', file', some heap')) :
    LoadInv S' pd ∧ Keeps pd S S' ∧ file'.content = file.content ∧ heap ≤ heap' ∧
      PhdrLoaded S' pd file.content phdr ∧
      ∀ p < pgNo physBase, pdMap S'.K pd p ≠ pdMap S.K pd p → SegPage phdr p heap' := by
  unfold Load.loadPhdr at hres
  split_ifs at hres with hstop hother hbad
  · simp at hres
  · -- a type `load` ignores
    simp only [Option.some.injEq, Prod.mk.injEq] at hres
    obtain ⟨rfl, rfl, rfl⟩ := hres
    exact ⟨h, Keeps.refl pd S, rfl, le_rfl, fun ht => absurd ht hother,
      fun p _ hne => absurd rfl hne⟩
  · simp at hres
  have hok : SegOk phdr file.length := validateSegment_ok hv hm (by simpa using hbad)
  dsimp only at hres
  cases hseg : Load.loadSegment S pd file (pgRoundDown phdr.pOffset) (pgRoundDown phdr.pVaddr)
      (readBytesOf phdr) (zeroBytesOf phdr) (phdr.pFlags &&& pfW != 0) with
  | none => rw [hseg] at hres; cases hres
  | some t =>
    obtain ⟨S1, f1, ok⟩ := t
    rw [hseg] at hres
    cases ok
    · simp at hres
    simp only [Option.some.injEq, Prod.mk.injEq] at hres
    obtain ⟨rfl, rfl, rfl⟩ := hres
    obtain ⟨hinv, hkeep, hc, hseg1, hchanged⟩ := h.loadSegment_seg hok hseg
    -- `heap_start` grows to the segment's end
    have hend : pgRoundDown phdr.pVaddr + readBytesOf phdr + zeroBytesOf phdr ≤
        if pgRoundDown phdr.pVaddr + readBytesOf phdr + zeroBytesOf phdr > heap then
          pgRoundDown phdr.pVaddr + readBytesOf phdr + zeroBytesOf phdr else heap := by
      split <;> omega
    refine ⟨hinv, hkeep, hc, by split <;> omega, fun _ => ⟨hok, hseg1⟩, fun p hp hne => ?_⟩
    obtain ⟨h1, h2, h3⟩ := hchanged p hp hne
    by_cases ht : phdr.pType = ptLoad
    · exact ⟨ht, h1, h2, h3.trans hend⟩
    · exact absurd ht hother

/-- The program header `load` reads at byte `a` of the executable. -/
def phdrAt (content : List UInt8) (a : Nat) : Elf32Phdr :=
  Elf32Phdr.ofBytes ((content.drop a).take 32)

/-- The loop over the program headers, when it runs to its end: each of the `n`
headers from `ofs` on was read at its place in the file and, if `PT_LOAD`,
accepted and loaded; each mapping that changes is a page of one of their
segments, below the final `heap_start`. -/
theorem LoadInv.phdrLoop_done : ∀ (n : Nat) {S S' : LoadSt} {file file' : ExecFile} {ofs : Int}
    {heap heap' : Nat}, LoadInv S pd → phdrLoop pd n S file ofs heap = some (S', file', some heap') →
    LoadInv S' pd ∧ Keeps pd S S' ∧ file'.content = file.content ∧ heap ≤ heap' ∧
      (∀ k < n, 0 ≤ ofs ∧ PhdrLoaded S' pd file.content (phdrAt file.content (ofs.toNat + 32 * k))) ∧
      ∀ p < pgNo physBase, pdMap S'.K pd p ≠ pdMap S.K pd p →
        ∃ k < n, SegPage (phdrAt file.content (ofs.toNat + 32 * k)) p heap'
  | 0, S, S', file, file', ofs, heap, heap', h, hres => by
    simp only [Load.phdrLoop, Option.some.injEq, Prod.mk.injEq] at hres
    obtain ⟨rfl, rfl, rfl⟩ := hres
    exact ⟨h, Keeps.refl pd S, rfl, le_rfl, fun k hk => absurd hk (Nat.not_lt_zero k),
      fun p _ hne => absurd rfl hne⟩
  | n + 1, S, S', file, file', ofs, heap, heap', h, hres => by
    rw [Load.phdrLoop] at hres
    -- an offset outside the file or a short read is a `goto done`
    by_cases hofs : ofs < 0 ∨ ofs > file.length
    · rw [if_pos hofs] at hres
      simp at hres
    rw [if_neg hofs] at hres
    dsimp only at hres
    by_cases hlen : ((file.seek ofs.toNat).read 32).2.length ≠ 32
    · rw [if_pos hlen] at hres
      simp at hres
    rw [if_neg hlen] at hres
    cases hph : Load.loadPhdr S pd ((file.seek ofs.toNat).read 32).1
        (Elf32Phdr.ofBytes ((file.seek ofs.toNat).read 32).2) heap with
    | none => rw [hph] at hres; cases hres
    | some t =>
      obtain ⟨S1, f1, hs⟩ := t
      rw [hph] at hres
      cases hs with
      | none => simp at hres
      | some heap1 =>
        dsimp only at hres
        obtain ⟨hinv1, hkeep1, hc1, hle1, hload1, hchg1⟩ :=
          h.loadPhdr_next (elfWord_lt _ _) (elfWord_lt _ _) hph
        obtain ⟨hinv, hkeep, hc, hle, hloaded, hchg⟩ := LoadInv.phdrLoop_done n hinv1 hres
        have hcf : f1.content = file.content := hc1
        have hofs0 : 0 ≤ ofs := by omega
        -- header `k + 1` from `ofs` is header `k` from the next offset
        have hidx : ∀ k, (ofs + 32).toNat + 32 * k = ofs.toNat + 32 * (k + 1) := by
          intro k
          omega
        refine ⟨hinv, hkeep1.trans hkeep, hc.trans hcf, hle1.trans hle, fun k hk => ?_,
          fun p hp hne => ?_⟩
        · cases k with
          | zero => exact ⟨hofs0, hload1.keeps hkeep⟩
          | succ k =>
            obtain ⟨-, hl⟩ := hloaded k (by omega)
            rw [hcf, hidx] at hl
            exact ⟨hofs0, hl⟩
        · rcases hne.ne_or_ne (pdMap S1.K pd p) with hlater | hfirst
          · obtain ⟨k, hk, hs⟩ := hchg p hp hlater
            rw [hcf, hidx] at hs
            exact ⟨k + 1, by omega, hs⟩
          · exact ⟨0, by omega, (hchg1 p hp (Ne.symm hfirst)).mono hle⟩

end Headers

/-! ## The stack and the whole load -/

section Load

variable {S : LoadSt} {pd : Nat}

/-- `palloc_get_page` under `PAL_ZERO`: the page it returns is zeroed. -/
theorem LoadSt.getPage_zero {S' : LoadSt} {page : Nat} {user : Bool}
    (hres : S.getPage ⟨false, true, user⟩ = some (S', page)) (hpage : page ≠ 0) :
    ∀ o < pgSize, S'.mem (page + o) = 0 := by
  unfold LoadSt.getPage at hres
  obtain ⟨r, -, hS⟩ := Option.map_eq_some_iff.mp hres
  simp only [Prod.mk.injEq] at hS
  obtain ⟨rfl, rfl⟩ := hS
  intro o ho
  dsimp only
  rw [if_pos ⟨trivial, hpage⟩, Bytes.copy_apply_add ho]

/-- `setup_stack`, when it succeeds: `PHYS_BASE` is the stack pointer and the
page below it a zeroed frame mapped writable; it is the only mapping that
changes, and what was built is kept. -/
theorem LoadInv.setupStack_ok (h : LoadInv S pd) {S' : LoadSt} {esp : Nat}
    (hres : setupStack S pd = some (S', some esp)) :
    esp = physBase ∧ LoadInv S' pd ∧ Keeps pd S S' ∧
      (∀ o < pgSize, userByte S' pd (physBase - pgSize + o) = some 0) ∧
      (pdMap S'.K pd (pgNo (physBase - pgSize))).map Prod.snd = some true ∧
      ∀ p < pgNo physBase, pdMap S'.K pd p ≠ pdMap S.K pd p → p = pgNo (physBase - pgSize) := by
  obtain ⟨S1, kpage, hget, hinv1, hkeep1, hmap1, hcases⟩ := h.getPage_user true
  unfold Load.setupStack at hres
  rw [hget] at hres
  simp only [Option.pure_def, Option.bind_eq_bind, Option.bind_some] at hres
  rcases hcases with ⟨rfl, -⟩ | ⟨i, hpage, htakes, -⟩
  · simp at hres
  have hk : InUse (S1.K.palloc.pool true) kpage := hpage ▸ inUse_of_takes htakes
  have hk0 : kpage ≠ 0 := hk.ne_zero hinv1.wf.pools
  rw [if_neg hk0] at hres
  have hup : pgOfs (physBase - pgSize) = 0 := by decide
  have hu : physBase - pgSize < physBase := by decide
  obtain ⟨S2, ok, hinst, hinv2, hkeep2, hmem2, -, -, hmap2⟩ := hinv1.installPage hup hu hk true
  rw [hinst] at hres
  simp only [Option.bind_some] at hres
  -- a failed `install_page` frees the frame and gives no stack
  cases ok
  · obtain ⟨_, -, hx⟩ := Option.bind_eq_some_iff.mp hres
    simp at hx
  simp only [if_true, Option.some.injEq, Prod.mk.injEq] at hres
  obtain ⟨rfl, hesp⟩ := hres
  have hstack := hmap2 _ (pgNo_lt_of_lt hu)
  rw [if_pos ⟨rfl, rfl⟩] at hstack
  refine ⟨hesp.symm, hinv2, hkeep1.trans hkeep2, fun o ho => ?_, by rw [hstack]; rfl,
    fun p hp hne => ?_⟩
  · unfold userByte
    rw [pgNo_add hup ho, hstack, Option.map_some, pgOfs_add hup ho, hmem2,
      LoadSt.getPage_zero hget hk0 o ho]
  · by_contra hpu
    rw [hmap2 p hp, if_neg (by simp [hpu]), hmap1 p hp] at hne
    exact hne rfl

/-- `(off_t) e_phoff` read back: a program header offset `load` does not reject
as negative is the word itself. -/
theorem toNat_toOffT {x : Nat} (hx : x < 2 ^ 32) (h : 0 ≤ toOffT x) : (toOffT x).toNat = x := by
  unfold toOffT at h ⊢
  by_cases hlt : x < 2 ^ 31
  · rw [if_pos hlt]
    rfl
  · rw [if_neg hlt] at h
    omega

/-- What a successful `load` leaves, from a state whose pools are in place and
whose `init_page_dir` maps no user page. -/
theorem load_spec {S S' : LoadSt} {initPageDir pd : Nat} {content : List UInt8} {out : LoadOut}
    (hP : PoolsOk S.K.palloc) (hinit : ∀ i < pdNo physBase, S.K.word (initPageDir + 4 * i) = 0)
    (hres : load S initPageDir content = some (S', pd, some out)) :
    LoadInv S' pd ∧ out.eip = (Elf32Ehdr.ofBytes (content.take 52)).eEntry ∧ out.esp = physBase ∧
      (∀ k < (Elf32Ehdr.ofBytes (content.take 52)).ePhnum, PhdrLoaded S' pd content
        (phdrAt content ((Elf32Ehdr.ofBytes (content.take 52)).ePhoff + 32 * k))) ∧
      (∀ o < pgSize, userByte S' pd (physBase - pgSize + o) = some 0) ∧
      (pdMap S'.K pd (pgNo (physBase - pgSize))).map Prod.snd = some true ∧
      ∀ p < pgNo physBase, pdMap S'.K pd p ≠ none → p = pgNo (physBase - pgSize) ∨
        ∃ k < (Elf32Ehdr.ofBytes (content.take 52)).ePhnum, SegPage
          (phdrAt content ((Elf32Ehdr.ofBytes (content.take 52)).ePhoff + 32 * k)) p
          (out.heapEnd - pgSize) := by
  obtain ⟨K1, pd1, hcreate, -, hcases⟩ := pagedirCreate_spec S.K initPageDir hP hinit
  unfold Load.load at hres
  rw [hcreate] at hres
  simp only [Option.pure_def, Option.bind_eq_bind, Option.bind_some] at hres
  rcases hcases with rfl | ⟨hwf, hempty⟩
  · simp at hres
  have hpd1 : pd1 ≠ 0 := by
    have := (hwf.pd_used.kPage hwf.pools).kernel
    unfold physBase at this
    omega
  have hr : (ExecFile.mk content 0).read 52 =
      (⟨content, (content.take 52).length⟩, content.take 52) := by
    simp only [ExecFile.read, List.drop_zero, Nat.zero_add]
  rw [if_neg hpd1, hr] at hres
  by_cases hbad : ehdrBad (content.take 52) = true
  · rw [if_pos hbad] at hres
    simp at hres
  rw [if_neg hbad] at hres
  -- the new directory maps no user page
  have hinv1 : LoadInv ⟨K1, S.mem⟩ pd1 :=
    ⟨hwf, fun p hp e he => by rw [hempty p hp] at he; cases he⟩
  set ehdr := Elf32Ehdr.ofBytes (content.take 52)
  cases hloop : phdrLoop pd1 ehdr.ePhnum ⟨K1, S.mem⟩ ⟨content, (content.take 52).length⟩
      (toOffT ehdr.ePhoff) 0 with
  | none => rw [hloop] at hres; cases hres
  | some t =>
    obtain ⟨S2, f2, hs⟩ := t
    rw [hloop] at hres
    cases hs with
    | none => simp at hres
    | some heap =>
      simp only [Option.bind_some] at hres
      cases hstack : setupStack S2 pd1 with
      | none => rw [hstack] at hres; cases hres
      | some t2 =>
        obtain ⟨S3, esp⟩ := t2
        rw [hstack] at hres
        cases esp with
        | none => simp at hres
        | some esp =>
          simp only [Option.bind_some, Option.some.injEq, Prod.mk.injEq] at hres
          obtain ⟨rfl, rfl, rfl⟩ := hres
          obtain ⟨hinv2, hkeep2, -, -, hloaded, hchg2⟩ := hinv1.phdrLoop_done _ hloop
          obtain ⟨rfl, hinv3, hkeep3, hzero, hwr, hchg3⟩ := hinv2.setupStack_ok hstack
          -- a header the loop read lies at `e_phoff + 32 * k`
          have hofs : ∀ k < ehdr.ePhnum, (toOffT ehdr.ePhoff).toNat = ehdr.ePhoff := fun k hk =>
            toNat_toOffT (elfWord_lt _ _) (hloaded k hk).1
          refine ⟨hinv3, rfl, rfl, fun k hk => ?_, hzero, hwr, fun p hp hm => ?_⟩
          · have hl := (hloaded k hk).2.keeps hkeep3
            rwa [hofs k hk] at hl
          · rcases (show pdMap S3.K pd1 p ≠ pdMap K1 pd1 p by rwa [hempty p hp]).ne_or_ne
                (pdMap S2.K pd1 p) with hstk | hseg
            · exact .inl (hchg3 p hp hstk)
            · obtain ⟨k, hk, hsp⟩ := hchg2 p hp (Ne.symm hseg)
              rw [hofs k hk] at hsp
              exact .inr ⟨k, hk, by rwa [Nat.add_sub_cancel]⟩

/-- **The image a successful load leaves.** From placed pools and an
`init_page_dir` that maps no user page, a successful `load` has accepted every
`PT_LOAD` program header with `validate_segment` and put its segment in place:
byte `i` is, at `p_vaddr + i` in the new directory, the file's byte
`p_offset + i` within `p_filesz` and zero past it, in a page writable exactly
when the segment has `PF_W`. The page below `PHYS_BASE` is a zeroed writable
stack, `*esp` is `PHYS_BASE` and `*eip` is `e_entry`. -/
theorem load_image {S S' : LoadSt} {initPageDir pd : Nat} {content : List UInt8} {out : LoadOut}
    (hP : PoolsOk S.K.palloc) (hinit : ∀ i < pdNo physBase, S.K.word (initPageDir + 4 * i) = 0)
    (hres : load S initPageDir content = some (S', pd, some out)) :
    out.eip = (Elf32Ehdr.ofBytes (content.take 52)).eEntry ∧ out.esp = physBase ∧
      (∀ k < (Elf32Ehdr.ofBytes (content.take 52)).ePhnum, PhdrLoaded S' pd content
        (phdrAt content ((Elf32Ehdr.ofBytes (content.take 52)).ePhoff + 32 * k))) ∧
      (∀ o < pgSize, userByte S' pd (physBase - pgSize + o) = some 0) ∧
      (pdMap S'.K pd (pgNo (physBase - pgSize))).map Prod.snd = some true := by
  obtain ⟨-, heip, hesp, hloaded, hzero, hwr, -⟩ := load_spec hP hinit hres
  exact ⟨heip, hesp, hloaded, hzero, hwr⟩

/-- A small executable: one `PT_LOAD` header for its 90 bytes at `0x08048000`,
with ten bytes of `.bss` after them, readable and executable. -/
def helloElf : List UInt8 :=
  [0x7f, 0x45, 0x4c, 0x46, 1, 1, 1, 0, 0, 0, 0, 0, 0, 0, 0, 0,
   2, 0, 3, 0, 1, 0, 0, 0, 0x54, 0x80, 0x04, 0x08, 52, 0, 0, 0,
   0, 0, 0, 0, 0, 0, 0, 0, 52, 0, 32, 0, 1, 0, 0, 0, 0, 0, 0, 0,
   1, 0, 0, 0, 0, 0, 0, 0, 0, 0x80, 0x04, 0x08, 0, 0x80, 0x04, 0x08,
   90, 0, 0, 0, 100, 0, 0, 0, 5, 0, 0, 0, 0, 0x10, 0, 0,
   0xb8, 1, 0, 0, 0, 0xcd]

/-- `load` of `helloElf` from the boot memory succeeds. -/
theorem load_helloElf : ∃ S' pd out,
    load ⟨bootKMem, fun _ => 0⟩ 0 helloElf = some (S', pd, some out) := by
  have hrun : ((load ⟨bootKMem, fun _ => 0⟩ 0 helloElf).bind fun r => r.2.2).isSome = true := by
    decide +kernel
  obtain ⟨out, hout⟩ := Option.isSome_iff_exists.mp hrun
  obtain ⟨⟨S', pd, o⟩, hl, ho⟩ := Option.bind_eq_some_iff.mp hout
  exact ⟨S', pd, out, by rw [hl, show o = some out from ho]⟩

theorem load_image_hello : ∃ S' pd out,
    load ⟨bootKMem, fun _ => 0⟩ 0 helloElf = some (S', pd, some out) ∧
      userByte S' pd 0x08048000 = some 0x7f ∧ userByte S' pd 0x08048060 = some 0 ∧
      out.esp = physBase := by
  obtain ⟨S', pd, out, hres⟩ := load_helloElf
  obtain ⟨-, hesp, hloaded, -, -⟩ := load_image poolsOk_bootKMem (fun _ _ => rfl) hres
  obtain ⟨-, hseg⟩ := hloaded 0 (by decide) (by decide)
  -- the first byte of the segment is the file's first, the 96th past `p_filesz`
  obtain ⟨hfirst, -⟩ := hseg 0 (by decide)
  obtain ⟨hbss, -⟩ := hseg 96 (by decide)
  have hv : ∀ i, (phdrAt helloElf ((Elf32Ehdr.ofBytes (helloElf.take 52)).ePhoff + 32 * 0)).pVaddr + i =
      0x08048000 + i := fun i => by rw [show (phdrAt helloElf _).pVaddr = 0x08048000 by decide]
  rw [hv] at hfirst hbss
  refine ⟨S', pd, out, hres, ?_, ?_, hesp⟩
  · rw [hfirst]
    decide
  · rw [hbss]
    decide

/-- **A successful load maps nothing else.** From placed pools and an
`init_page_dir` that maps no user page, after a successful `load` the directory
is well-formed, and every user page it maps is a frame of the user pool in use
and is either the stack page below `PHYS_BASE` or a page of the segment of a
`PT_LOAD` header, ending at least a page below `heap_end`. -/
theorem load_confined {S S' : LoadSt} {initPageDir pd : Nat} {content : List UInt8}
    {out : LoadOut} (hP : PoolsOk S.K.palloc)
    (hinit : ∀ i < pdNo physBase, S.K.word (initPageDir + 4 * i) = 0)
    (hres : load S initPageDir content = some (S', pd, some out)) :
    PdWf S'.K pd ∧ ∀ p < pgNo physBase, ∀ e, pdMap S'.K pd p = some e →
      InUse (S'.K.palloc.pool true) e.1 ∧ (p = pgNo (physBase - pgSize) ∨
        ∃ k < (Elf32Ehdr.ofBytes (content.take 52)).ePhnum,
          SegPage (phdrAt content ((Elf32Ehdr.ofBytes (content.take 52)).ePhoff + 32 * k)) p
            (out.heapEnd - pgSize)) := by
  obtain ⟨hinv, -, -, -, -, -, hpages⟩ := load_spec hP hinit hres
  refine ⟨hinv.wf, fun p hp e he => ⟨hinv.frames p hp e he, hpages p hp ?_⟩⟩
  rw [he]
  exact Option.some_ne_none e

theorem load_confined_hello : ∃ S' pd out,
    load ⟨bootKMem, fun _ => 0⟩ 0 helloElf = some (S', pd, some out) ∧ pdMap S'.K pd 0 = none := by
  obtain ⟨S', pd, out, hres⟩ := load_helloElf
  obtain ⟨-, hpages⟩ := load_confined poolsOk_bootKMem (fun _ _ => rfl) hres
  refine ⟨S', pd, out, hres, ?_⟩
  -- the null page is neither the stack nor a page of the segment at `0x08048000`
  cases he : pdMap S'.K pd 0 with
  | none => rfl
  | some e =>
    obtain ⟨-, hstack | ⟨k, hk, hseg⟩⟩ := hpages 0 (by decide) e he
    · exact absurd hstack (by decide)
    · have hn : (Elf32Ehdr.ofBytes (helloElf.take 52)).ePhnum = 1 := by decide
      obtain rfl : k = 0 := by omega
      exact absurd hseg.2.1 (by decide)

end Load

/-! ## No assertion fails -/

section Total

variable {S : LoadSt} {pd : Nat}

theorem LoadInv.freePage_user (h : LoadInv S pd) {x : Nat} (hx : InUse (S.K.palloc.pool true) x) :
    ∃ S', S.freePage x = some S' := by
  obtain ⟨K', hK⟩ := Pintos.Userprog.freePage_user S.K h.wf.pools hx
  exact ⟨_, by rw [LoadSt.freePage, hK, Option.map_some]⟩

/-- One page of `load_segment` passes every assertion on its way: the frames it
frees are the one it took. -/
theorem LoadInv.loadPage_isSome (h : LoadInv S pd) (w : Bool) (file : ExecFile) {upage : Nat}
    (prb : Nat) (hup : pgOfs upage = 0) (hu : upage < physBase) :
    ∃ r, Load.loadPage pd w S file upage prb = some r := by
  obtain ⟨S1, kpage, hget, hinv1, -, -, hcases⟩ := h.getPage_user false
  unfold Load.loadPage
  rw [hget]
  simp only [Option.pure_def, Option.bind_eq_bind, Option.bind_some]
  rcases hcases with ⟨rfl, -⟩ | ⟨i, hpage, htakes, -⟩
  · exact ⟨_, if_pos rfl⟩
  have hk : InUse (S1.K.palloc.pool true) kpage := hpage ▸ inUse_of_takes htakes
  rw [if_neg (hk.ne_zero hinv1.wf.pools)]
  -- a short read frees the frame just taken
  by_cases hlen : (file.read prb).2.length = prb
  swap
  · obtain ⟨K1, hfree⟩ := Pintos.Userprog.freePage_user S1.K hinv1.wf.pools hk
    rw [if_pos (by simpa using hlen)]
    simp only [LoadSt.freePage, hfree, Option.map_some, Option.bind_some]
    exact ⟨_, rfl⟩
  rw [if_neg (by simpa using hlen)]
  have hinv3 : LoadInv ⟨S1.K, Bytes.copy (Bytes.copy S1.mem kpage (fun i => (file.read prb).2.getD i 0)
      (file.read prb).2.length) (kpage + prb) (fun _ => 0) (pgSize - prb)⟩ pd := ⟨hinv1.wf, hinv1.frames⟩
  obtain ⟨S4, ok, hinst, hinv4, -, -, hpool4, -, -⟩ := hinv3.installPage hup hu hk w
  rw [hinst]
  simp only [Option.bind_some]
  -- so does a failed `install_page`
  cases ok
  · obtain ⟨S5, hfree⟩ := hinv4.freePage_user (hpool4 ▸ hk)
    simp only [hfree, Bool.not_false, if_true, Option.bind_some]
    exact ⟨_, rfl⟩
  · exact ⟨_, rfl⟩

/-- The loop of `load_segment` passes every assertion, from an aligned page with
whole pages to fill below `PHYS_BASE`. -/
theorem LoadInv.loadSegmentLoop_isSome (w : Bool) : ∀ (fuel : Nat) {S : LoadSt} (file : ExecFile)
    {upage r z : Nat}, LoadInv S pd → pgOfs upage = 0 → upage + r + z ≤ physBase →
    r + z = pgSize * fuel → ∃ res, Load.loadSegmentLoop pd w fuel S file upage r z = some res
  | 0, _, _, _, _, _, _, _, _, _ => ⟨_, rfl⟩
  | fuel + 1, S, file, upage, r, z, h, hup, hend, hsum => by
    have hpg : pgSize = 4096 := rfl
    rw [hpg] at hsum
    rw [Load.loadSegmentLoop, if_neg (by omega)]
    dsimp only
    obtain ⟨⟨S1, f1, ok⟩, hp⟩ := h.loadPage_isSome w file (if r < pgSize then r else pgSize) hup
      (by omega)
    rw [hp]
    cases ok
    · exact ⟨_, rfl⟩
    · exact LoadInv.loadSegmentLoop_isSome w fuel f1 (h.loadPage hup (by omega) (by split <;> omega) hp).1
        (by unfold pgOfs at hup ⊢; rw [Nat.add_mod_right]; exact hup) (by split <;> omega)
        (by rw [hpg]; split <;> omega)

/-- `load_segment` on the pages of an accepted header passes its assertions. -/
theorem LoadInv.loadSegment_isSome (h : LoadInv S pd) {phdr : Elf32Phdr} {file : ExecFile}
    (hok : SegOk phdr file.length) : ∃ res, Load.loadSegment S pd file (pgRoundDown phdr.pOffset)
      (pgRoundDown phdr.pVaddr) (readBytesOf phdr) (zeroBytesOf phdr) (phdr.pFlags &&& pfW != 0) =
      some res := by
  have hmod := hok.read_add_zero_mod
  unfold Load.loadSegment
  rw [if_neg (by
    rintro (hm | hm | hm)
    · exact hm hmod
    · exact hm (pgOfs_pgRoundDown _)
    · exact hm (pgOfs_pgRoundDown _))]
  exact h.loadSegmentLoop_isSome _ _ _ (pgOfs_pgRoundDown _) hok.end_le
    (Nat.mul_div_cancel' (Nat.dvd_of_mod_eq_zero hmod)).symm

theorem LoadInv.loadPhdr_isSome (h : LoadInv S pd) (file : ExecFile) (phdr : Elf32Phdr) (heap : Nat)
    (hv : phdr.pVaddr < 2 ^ 32) (hm : phdr.pMemsz < 2 ^ 32) :
    ∃ res, Load.loadPhdr S pd file phdr heap = some res := by
  unfold Load.loadPhdr
  split_ifs with hstop hother hbad
  · exact ⟨_, rfl⟩
  · exact ⟨_, rfl⟩
  · exact ⟨_, rfl⟩
  obtain ⟨⟨S1, f1, ok⟩, hseg⟩ :=
    h.loadSegment_isSome (validateSegment_ok hv hm (by simpa using hbad))
  dsimp only
  rw [hseg]
  cases ok
  · exact ⟨_, rfl⟩
  · exact ⟨_, rfl⟩

theorem LoadInv.phdrLoop_isSome : ∀ (n : Nat) {S : LoadSt} (file : ExecFile) (ofs : Int) (heap : Nat),
    LoadInv S pd → ∃ res, Load.phdrLoop pd n S file ofs heap = some res
  | 0, _, _, _, _, _ => ⟨_, rfl⟩
  | n + 1, S, file, ofs, heap, h => by
    rw [Load.phdrLoop]
    by_cases hofs : ofs < 0 ∨ ofs > file.length
    · rw [if_pos hofs]
      exact ⟨_, rfl⟩
    rw [if_neg hofs]
    dsimp only
    by_cases hlen : ((file.seek ofs.toNat).read 32).2.length ≠ 32
    · rw [if_pos hlen]
      exact ⟨_, rfl⟩
    rw [if_neg hlen]
    obtain ⟨⟨S1, f1, hs⟩, hph⟩ := h.loadPhdr_isSome ((file.seek ofs.toNat).read 32).1
      (Elf32Phdr.ofBytes ((file.seek ofs.toNat).read 32).2) heap (elfWord_lt _ _) (elfWord_lt _ _)
    rw [hph]
    cases hs with
    | none => exact ⟨_, rfl⟩
    | some heap1 =>
      exact LoadInv.phdrLoop_isSome n f1 (ofs + 32) heap1
        (h.loadPhdr_next (elfWord_lt _ _) (elfWord_lt _ _) hph).1

theorem LoadInv.setupStack_isSome (h : LoadInv S pd) : ∃ res, Load.setupStack S pd = some res := by
  obtain ⟨S1, kpage, hget, hinv1, -, -, hcases⟩ := h.getPage_user true
  unfold Load.setupStack
  rw [hget]
  simp only [Option.pure_def, Option.bind_eq_bind, Option.bind_some]
  rcases hcases with ⟨rfl, -⟩ | ⟨i, hpage, htakes, -⟩
  · exact ⟨_, if_pos rfl⟩
  have hk : InUse (S1.K.palloc.pool true) kpage := hpage ▸ inUse_of_takes htakes
  rw [if_neg (hk.ne_zero hinv1.wf.pools)]
  obtain ⟨S2, ok, hinst, hinv2, -, -, hpool2, -, -⟩ :=
    hinv1.installPage (show pgOfs (physBase - pgSize) = 0 by decide)
      (show physBase - pgSize < physBase by decide) hk true
  rw [hinst]
  simp only [Option.bind_some]
  -- a failed `install_page` frees the frame just taken
  cases ok
  · obtain ⟨S3, hfree⟩ := hinv2.freePage_user (hpool2 ▸ hk)
    simp only [hfree, Bool.false_eq_true, if_false, Option.bind_some]
    exact ⟨_, rfl⟩
  · exact ⟨_, rfl⟩

/-- **`load` never panics.** From placed pools and an `init_page_dir` that maps
no user page, `load` returns, successfully or not, whatever bytes the
executable holds: `validate_segment` lets through only segments on which the
assertions of `load_segment` hold, no page it installs was mapped, and every
frame it frees is one it took. -/
theorem load_isSome {S : LoadSt} {initPageDir : Nat} (hP : PoolsOk S.K.palloc)
    (hinit : ∀ i < pdNo physBase, S.K.word (initPageDir + 4 * i) = 0) (content : List UInt8) :
    (load S initPageDir content).isSome = true := by
  obtain ⟨K1, pd1, hcreate, -, hcases⟩ := pagedirCreate_spec S.K initPageDir hP hinit
  unfold Load.load
  rw [hcreate]
  simp only [Option.pure_def, Option.bind_eq_bind, Option.bind_some]
  rcases hcases with rfl | ⟨hwf, hempty⟩
  · rfl
  have hinv1 : LoadInv ⟨K1, S.mem⟩ pd1 :=
    ⟨hwf, fun p hp e he => by rw [hempty p hp] at he; cases he⟩
  rw [if_neg (hwf.pd_used.ne_zero hwf.pools)]
  by_cases hbad : ehdrBad ((ExecFile.mk content 0).read 52).2 = true
  · rw [if_pos hbad]
    rfl
  rw [if_neg hbad]
  obtain ⟨⟨S2, f2, hs⟩, hloop⟩ := hinv1.phdrLoop_isSome _ ((ExecFile.mk content 0).read 52).1
    (toOffT (Elf32Ehdr.ofBytes ((ExecFile.mk content 0).read 52).2).ePhoff) 0
  rw [hloop]
  cases hs with
  | none => rfl
  | some heap =>
    simp only [Option.bind_some]
    obtain ⟨⟨S3, esp⟩, hstack⟩ := (hinv1.phdrLoop_done _ hloop).1.setupStack_isSome
    rw [hstack]
    cases esp with
    | none => rfl
    | some esp => rfl

theorem load_isSome_hello : (load ⟨bootKMem, fun _ => 0⟩ 0 helloElf).isSome = true :=
  load_isSome poolsOk_bootKMem (fun _ _ => rfl) helloElf

end Total

end Pintos.Userprog.Load

import Pintos.Lib.Bytes
import Pintos.Threads.Malloc
import Pintos.Libc.String

/-!
# Argument passing (`setup_args` in `userprog/process.c`)

`setup_args (cmd_line, esp)` copies `cmd_line` and splits the copy with
`strtok_r` on `" "`, storing each token's address into a scratch array `argv`
that it allocates as `calloc (size, 1)`, where `size` is `strlen (cmd_line) + 1`.
It refuses a command line whose arguments, by its estimate, overflow the stack
page, and otherwise builds the System V stack below `*esp`: the tokens with
their NULs, the last first; zero padding to a word boundary; the null sentinel
`argv[argc]` and the pointers `argv[argc - 1]` down to `argv[0]`; the address of
`argv[0]`; `argc`; and a return slot it leaves unwritten. It returns how far
`*esp` went down. `malloc` and `calloc` do not fail here.

The stack comes out as the calling convention asks, inside the page below
`esp` (`setupArgs_layout`); the scratch array, though, holds `size` bytes while
each token stores a 4-byte pointer into it.
-/

namespace Pintos.Userprog

open Pintos.Threads Bytes

/-- The tokens that successive calls `strtok_r (s, " ", &save_ptr)` return: the
maximal runs of bytes other than `' '`. `cur` is the token being read, last byte
first. -/
def strtokR (cur : List UInt8) : List UInt8 → List (List UInt8)
  | [] => if cur = [] then [] else [cur.reverse]
  | c :: cs =>
    if c = 32 then
      if cur = [] then strtokR [] cs else cur.reverse :: strtokR [] cs
    else strtokR (c :: cur) cs

/-- The bytes the tokens take on the stack, each with its NUL. -/
def argBytes (argv : List (List UInt8)) : Nat := (argv.map fun t => t.length + 1).sum

/-- The first loop of `setup_args`, from `argv[pos - 1]` down to `argv[0]`: each
token and its NUL go below `*esp`. The memory, `*esp`, and `pointers` in token
order. -/
def pushStrings (m : Nat → UInt8) (esp : Nat) :
    List (List UInt8) → (Nat → UInt8) × Nat × List Nat
  | [] => (m, esp, [])
  | tok :: toks =>
    let (m, esp, ptrs) := pushStrings m esp toks
    let len := tok.length + 1
    (copy m (esp - len) (fun i => (tok ++ [0]).getD i 0) len, esp - len, (esp - len) :: ptrs)

/-- The loop of stores `*(--str_ptr) = w`, the last word first. -/
def pushWords (m : Nat → UInt8) (esp : Nat) : List Nat → (Nat → UInt8) × Nat
  | [] => (m, esp)
  | w :: ws =>
    let (m, esp) := pushWords m esp ws
    (setWord m (esp - 4) w, esp - 4)

/-- What `setup_args` leaves: its result, the user memory and `*esp`, and the
scratch array `argv`: the bytes `calloc (size, 1)` gave it and the bytes that the
loop `argv[pos++] = token` stores into it. -/
structure SetupArgsResult where
  ret : Int
  mem : Nat → UInt8
  esp : Nat
  argvSize : Nat
  argvStored : Nat

/-- `setup_args (cmd_line, esp)` on the bytes of `cmd_line` before its NUL. -/
def setupArgs (cmdLine : List UInt8) (m : Nat → UInt8) (esp : Nat) : SetupArgsResult :=
  let size := cmdLine.length + 1
  let argv := strtokR [] cmdLine
  let pos := argv.length
  if size + size % 4 + (pos + 1) * 4 + 4 * 3 > pgSize then ⟨-1, m, esp, size, 4 * pos⟩
  else
    let (m, sp, pointers) := pushStrings m esp argv
    let pad := 4 - (esp - sp) % 4
    let m := copy m (sp - pad) (fun _ => 0) pad
    let (m, sp) := pushWords m (sp - pad) (pointers ++ [0])
    let m := setWord m (sp - 4) sp
    let m := setWord m (sp - 8) pos
    ⟨(esp - (sp - 12) : Nat), m, sp - 12, size, 4 * pos⟩

/-! ## The tokens -/

theorem argBytes_cons (t : List UInt8) (ts : List (List UInt8)) :
    argBytes (t :: ts) = t.length + 1 + argBytes ts := by
  simp [argBytes]

theorem argBytes_drop_le (ts : List (List UInt8)) (i : Nat) :
    argBytes (ts.drop i) ≤ argBytes ts := by
  induction ts generalizing i with
  | nil => simp
  | cons t ts ih =>
    cases i with
    | zero => simp
    | succ i =>
      rw [List.drop_succ_cons, argBytes_cons]
      have := ih i
      omega

/-- The tokens with their NULs take no more bytes than the line with its NUL. -/
theorem argBytes_strtokR_le (cur l : List UInt8) :
    argBytes (strtokR cur l) ≤ cur.length + l.length + 1 := by
  induction l generalizing cur with
  | nil =>
    unfold strtokR
    split
    · simp [argBytes]
    · simp [argBytes]
  | cons c cs ih =>
    unfold strtokR
    split
    · split
      · have := ih []
        simp only [List.length_nil, List.length_cons] at this ⊢
        omega
      · have := ih []
        simp only [argBytes_cons, List.length_reverse, List.length_nil, List.length_cons] at this ⊢
        omega
    · have := ih (c :: cur)
      simp only [List.length_cons] at this ⊢
      omega

/-! ## The stack -/

/-- The loop that copies the tokens: `*esp` goes down by their bytes, `pointers[i]`
is where token `i` starts, its bytes and NUL are there, and nothing else changes. -/
theorem pushStrings_spec (m : Nat → UInt8) (esp : Nat) :
    ∀ toks : List (List UInt8), argBytes toks ≤ esp →
      (pushStrings m esp toks).2.1 = esp - argBytes toks ∧
      (pushStrings m esp toks).2.2 =
        (List.range toks.length).map (fun i => esp - argBytes (toks.drop i)) ∧
      (∀ i tok, toks[i]? = some tok → ∀ j < tok.length + 1,
        (pushStrings m esp toks).1 (esp - argBytes (toks.drop i) + j) = (tok ++ [0]).getD j 0) ∧
      (∀ a, a < esp - argBytes toks ∨ esp ≤ a → (pushStrings m esp toks).1 a = m a)
  | [], _ => by simp [pushStrings, argBytes]
  | tok :: toks, h => by
    rw [argBytes_cons] at h
    obtain ⟨hesp, hptrs, hbytes, hframe⟩ := pushStrings_spec m esp toks (by omega)
    have hdrop := fun i => argBytes_drop_le toks i
    simp only [pushStrings]
    generalize pushStrings m esp toks = r at hesp hptrs hbytes hframe
    obtain ⟨m', sp, ptrs⟩ := r
    dsimp only at hesp hptrs hbytes hframe ⊢
    subst hesp hptrs
    refine ⟨by rw [argBytes_cons]; omega, ?_, ?_, ?_⟩
    · rw [List.length_cons, List.range_succ_eq_map, List.map_cons, List.map_map]
      congr 1
      rw [List.drop_zero, argBytes_cons]
      omega
    · intro i t ht j hj
      cases i with
      | zero =>
        rw [List.getElem?_cons_zero, Option.some.injEq] at ht
        subst ht
        rw [List.drop_zero, argBytes_cons,
          show esp - (tok.length + 1 + argBytes toks) + j =
            esp - argBytes toks - (tok.length + 1) + j by omega, copy_apply_add hj]
      | succ i =>
        rw [List.getElem?_cons_succ] at ht
        rw [List.drop_succ_cons, copy_apply_of_ge (by have := hdrop i; omega)]
        exact hbytes i t ht j hj
    · intro a ha
      rw [argBytes_cons] at ha
      rcases ha with ha | ha
      · rw [copy_apply_of_lt (by omega)]
        exact hframe a (Or.inl (by omega))
      · rw [copy_apply_of_ge (by omega)]
        exact hframe a (Or.inr ha)

/-- The loop of word stores: `*esp` goes down a word per value, word `i` from the
new `*esp` holds value `i`, and nothing else changes. -/
theorem pushWords_spec (m : Nat → UInt8) (esp : Nat) :
    ∀ ws : List Nat, 4 * ws.length ≤ esp → (∀ w ∈ ws, w < 2 ^ 32) →
      (pushWords m esp ws).2 = esp - 4 * ws.length ∧
      (∀ i w, ws[i]? = some w →
        getWord (pushWords m esp ws).1 (esp - 4 * ws.length + 4 * i) = w) ∧
      (∀ a, a < esp - 4 * ws.length ∨ esp ≤ a → (pushWords m esp ws).1 a = m a)
  | [], _, _ => by simp [pushWords]
  | w :: ws, h, hw => by
    rw [List.length_cons] at h
    obtain ⟨hesp, hwords, hframe⟩ :=
      pushWords_spec m esp ws (by omega) fun v hv => hw v (List.mem_cons_of_mem w hv)
    simp only [pushWords]
    generalize pushWords m esp ws = r at hesp hwords hframe
    obtain ⟨m', sp⟩ := r
    dsimp only at hesp hwords hframe ⊢
    subst hesp
    refine ⟨by rw [List.length_cons]; omega, ?_, ?_⟩
    · intro i v hv
      cases i with
      | zero =>
        rw [List.getElem?_cons_zero, Option.some.injEq] at hv
        subst hv
        rw [List.length_cons, show esp - 4 * (ws.length + 1) + 4 * 0 = esp - 4 * ws.length - 4 by
          omega, getWord_setWord_hit _ _ (hw _ List.mem_cons_self)]
      | succ i =>
        rw [List.getElem?_cons_succ] at hv
        rw [List.length_cons, getWord_setWord_miss _ _ (Or.inl (by omega)),
          show esp - 4 * (ws.length + 1) + 4 * (i + 1) = esp - 4 * ws.length + 4 * i by omega]
        exact hwords i v hv
    · intro a ha
      rw [List.length_cons] at ha
      rcases ha with ha | ha
      · rw [setWord_apply_of_lt (by omega)]
        exact hframe a (Or.inl (by omega))
      · rw [setWord_apply_of_ge (by omega)]
        exact hframe a (Or.inr ha)

/-- **The stack `setup_args` builds.** For a command line it does not refuse, and
a word-aligned `*esp` above a page and two words, the new `*esp` is word-aligned
and went down by the result; `[esp + 4]` is `argc`, `[esp + 8]` is `argv`, the
word `argv[i]` points to a copy of token `i` and its NUL, `argv[argc]` is
`NULL`; and every byte written lies in the page below the old `*esp`. -/
theorem setupArgs_layout {cmdLine : List UInt8} {m : Nat → UInt8} {esp : Nat}
    (hesp : pgSize + 8 ≤ esp) (hlt : esp < 2 ^ 32) (halign : esp % 4 = 0)
    (hret : (setupArgs cmdLine m esp).ret ≠ -1) :
    let r := setupArgs cmdLine m esp
    r.esp % 4 = 0 ∧ r.ret = (esp - r.esp : Nat) ∧ esp - pgSize ≤ r.esp + 4 ∧
      getWord r.mem (r.esp + 4) = (strtokR [] cmdLine).length ∧
      getWord r.mem (r.esp + 8) = r.esp + 12 ∧
      (∀ i tok, (strtokR [] cmdLine)[i]? = some tok → ∀ j < tok.length + 1,
        r.mem (getWord r.mem (r.esp + 12 + 4 * i) + j) = (tok ++ [0]).getD j 0) ∧
      getWord r.mem (r.esp + 12 + 4 * (strtokR [] cmdLine).length) = 0 ∧
      (∀ a, a < r.esp + 4 ∨ esp ≤ a → r.mem a = m a) := by
  intro r
  generalize hargv : strtokR [] cmdLine = argv at hret ⊢
  have hB : argBytes argv ≤ cmdLine.length + 1 := by
    simpa [hargv] using argBytes_strtokR_le [] cmdLine
  have hchk : ¬(cmdLine.length + 1 + (cmdLine.length + 1) % 4 + (argv.length + 1) * 4 + 4 * 3 >
      pgSize) := fun h => hret (by simp only [setupArgs, hargv]; rw [if_pos h])
  simp only [r, setupArgs, hargv]
  rw [if_neg hchk]
  simp only [pgSize] at hesp hchk
  obtain ⟨hsp1, hptrs, hbytes, hframe1⟩ := pushStrings_spec m esp argv (by omega)
  generalize pushStrings m esp argv = r1 at hsp1 hptrs hbytes hframe1
  obtain ⟨m1, sp1, ptrs⟩ := r1
  dsimp only at hsp1 hptrs hbytes hframe1 ⊢
  subst hsp1 hptrs
  -- the zero padding brings the strings' bytes up to a word
  generalize hpad : 4 - (esp - (esp - argBytes argv)) % 4 = pad
  have hpad' : pad = 4 - argBytes argv % 4 := by rw [← hpad]; congr 2; omega
  clear hpad
  have hwords : ∀ w ∈ (List.range argv.length).map (fun i => esp - argBytes (argv.drop i)) ++ [0],
      w < 2 ^ 32 := by
    intro w hw
    simp only [List.mem_append, List.mem_map, List.mem_singleton] at hw
    omega
  obtain ⟨hsp3, hread3, hframe3⟩ := pushWords_spec
    (copy m1 (esp - argBytes argv - pad) (fun _ => 0) pad) (esp - argBytes argv - pad)
    ((List.range argv.length).map (fun i => esp - argBytes (argv.drop i)) ++ [0])
    (by simp only [List.length_append, List.length_map, List.length_range, List.length_singleton]
        omega) hwords
  generalize pushWords _ _ _ = r3 at hsp3 hread3 hframe3
  obtain ⟨m3, sp3⟩ := r3
  dsimp only at hsp3 hread3 hframe3 ⊢
  simp only [List.length_append, List.length_map, List.length_range,
    List.length_singleton] at hsp3 hread3 hframe3
  subst hsp3
  have hpad4 : 1 ≤ pad ∧ pad ≤ 4 := by omega
  obtain ⟨sp, hsp⟩ : ∃ sp, sp = esp - argBytes argv - pad - 4 * (argv.length + 1) := ⟨_, rfl⟩
  have hspv : sp + 4 * (argv.length + 1) + pad + argBytes argv = esp := by omega
  rw [← hsp] at hread3 hframe3 ⊢
  -- the arithmetic of the layout, stated once while the length check is at hand
  have hsp12 : 12 ≤ sp := by omega
  have hn : argv.length < 2 ^ 32 := by omega
  have hspa : (sp - 12) % 4 = 0 := by omega
  have hpage : esp - 4096 ≤ sp - 12 + 4 := by omega
  clear hchk hpad' hB hwords hsp
  -- the stores of `argv` and `argc` sit below `sp`, under the words of `pushWords`
  have hmem5 : ∀ a, sp ≤ a → setWord (setWord m3 (sp - 4) sp) (sp - 8) argv.length a = m3 a :=
    fun a ha => by rw [setWord_apply_of_ge (by omega), setWord_apply_of_ge (by omega)]
  have hword5 : ∀ b, sp ≤ b →
      getWord (setWord (setWord m3 (sp - 4) sp) (sp - 8) argv.length) b = getWord m3 b :=
    fun b hb => by
      rw [getWord_setWord_miss _ _ (Or.inl (by omega)), getWord_setWord_miss _ _ (Or.inl (by omega))]
  have hm3 : ∀ a, esp - argBytes argv ≤ a → m3 a = m1 a := fun a ha => by
    rw [hframe3 a (Or.inr (by omega)), copy_apply_of_ge (by omega)]
  refine ⟨hspa, rfl, by simp only [pgSize]; omega, ?_, ?_, ?_, ?_, ?_⟩
  · rw [show sp - 12 + 4 = sp - 8 by omega, getWord_setWord_hit _ _ (by omega)]
  · rw [show sp - 12 + 8 = sp - 4 by omega, getWord_setWord_miss _ _ (Or.inl (by omega)),
      getWord_setWord_hit _ _ (by omega)]
    omega
  · intro i tok hi j hj
    have hin : i < argv.length := (List.getElem?_eq_some_iff.mp hi).1
    have hptr : ((List.range argv.length).map (fun i => esp - argBytes (argv.drop i)) ++ [0])[i]? =
        some (esp - argBytes (argv.drop i)) := by
      rw [List.getElem?_append_left (by simpa using hin)]
      simp [hin]
    have hle := argBytes_drop_le argv i
    rw [show sp - 12 + 12 + 4 * i = sp + 4 * i by omega, hword5 _ (by omega), hread3 i _ hptr,
      hmem5 _ (by omega), hm3 _ (by omega)]
    exact hbytes i tok hi j hj
  · have hnull : ((List.range argv.length).map (fun i => esp - argBytes (argv.drop i)) ++ [0])[
        argv.length]? = some 0 := by
      rw [List.getElem?_append_right (by simp)]
      simp
    rw [show sp - 12 + 12 + 4 * argv.length = sp + 4 * argv.length by omega, hword5 _ (by omega),
      hread3 _ _ hnull]
  · intro a ha
    rcases ha with ha | ha
    · rw [setWord_apply_of_lt (by omega), setWord_apply_of_lt (by omega),
        hframe3 a (Or.inl (by omega)), copy_apply_of_lt (by omega)]
      exact hframe1 a (Or.inl (by omega))
    · rw [hmem5 a (by omega), hm3 a (by omega)]
      exact hframe1 a (Or.inr ha)

/-! ## The scratch array -/

/-- Whether or not it refuses the command line, `setup_args` has already filled
its scratch array: `size` bytes, into which it stored a pointer per token. -/
theorem setupArgs_argv (cmdLine : List UInt8) (m : Nat → UInt8) (esp : Nat) :
    (setupArgs cmdLine m esp).argvSize = cmdLine.length + 1 ∧
      (setupArgs cmdLine m esp).argvStored = 4 * (strtokR [] cmdLine).length := by
  unfold setupArgs
  dsimp only
  split
  · exact ⟨rfl, rfl⟩
  · exact ⟨rfl, rfl⟩

/-- `setup_args` on `"a b c d e"`: `calloc (10, 1)` gives the scratch array a block
of the 16-byte descriptor, the first `malloc` finds big enough, and the loop
stores five 4-byte pointers, 20 bytes, into it. -/
theorem argv_scratch_overflows (m : Nat → UInt8) (esp : Nat) :
    (setupArgs [97, 32, 98, 32, 99, 32, 100, 32, 101] m esp).argvSize = 10 ∧
      (setupArgs [97, 32, 98, 32, 99, 32, 100, 32, 101] m esp).argvStored = 20 ∧
      descs.findIdx? (fun desc => 10 ≤ desc.blockSize) = some 0 ∧
      descs[0]? = some ⟨16, 255⟩ := by
  obtain ⟨hsize, hstored⟩ := setupArgs_argv [97, 32, 98, 32, 99, 32, 100, 32, 101] m esp
  refine ⟨hsize, ?_, by decide, by decide⟩
  rw [hstored]
  decide

end Pintos.Userprog

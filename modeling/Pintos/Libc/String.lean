import Mathlib
import Pintos.Lib.Bytes

/-!
# `strtok_r` (`lib/string.c`)

`strtok_r (s, delimiters, save_ptr)` starts at `s`, or at `*save_ptr` when `s`
is `NULL`. Its first loop skips the bytes `strchr (delimiters, *s)` finds. It
stops at the terminator, which `strchr` always finds, and returns `NULL` with
`*save_ptr` there. Its second loop scans the token up to the next byte
`strchr` finds. A delimiter there is overwritten with `0` and `*save_ptr` set
past it; at the terminator `*save_ptr` is set to the terminator.

Memory is a function from addresses to bytes. `CStr m p l` says that `m` holds
the string `l` at `p`: its bytes, none of them `0`, and then a `0`. The
delimiters are the bytes of their string before its terminator. The loops are
bounded by a fuel argument, and one more than the string's length is enough
(`skipDelimiters_cstr`, `skipToken_cstr`).

The tokens of a string are the maximal non-empty runs of bytes that are not
delimiters, `tokens`. A first call on a string and any number of calls with
`NULL` after it return the tokens in order, each at its place in the string and
terminated there, and then `NULL`; `*save_ptr` never passes the terminator
(`strtok_r_tokenizes`).

`strlcpy` stores a string shorter than its buffer whole, with its terminator
(`read_strlcpy`), and writes nothing outside the buffer.
-/

namespace Pintos.Libc

/-- The memory holds the bytes `l`, none of them `0`, from `p` on. -/
def Spells (m : Nat → UInt8) (p : Nat) : List UInt8 → Prop
  | [] => True
  | c :: l => c ≠ 0 ∧ m p = c ∧ Spells m (p + 1) l

instance Spells.decidable (m : Nat → UInt8) : ∀ (p : Nat) (l : List UInt8), Decidable (Spells m p l)
  | _, [] => inferInstanceAs (Decidable True)
  | p, c :: l =>
    have := Spells.decidable m (p + 1) l
    inferInstanceAs (Decidable (c ≠ 0 ∧ m p = c ∧ Spells m (p + 1) l))

/-- The memory holds the string `l` at `p`, terminated by a `0`. -/
def CStr (m : Nat → UInt8) (p : Nat) (l : List UInt8) : Prop :=
  Spells m p l ∧ m (p + l.length) = 0

instance CStr.decidable (m : Nat → UInt8) (p : Nat) (l : List UInt8) : Decidable (CStr m p l) :=
  inferInstanceAs (Decidable (Spells m p l ∧ m (p + l.length) = 0))

/-- `strchr (string, c)` over the bytes of `string` before its terminator: the
index of the first `c`, that of the terminator when `c` is `0`, or `none`. -/
def strchr : List UInt8 → UInt8 → Option Nat
  | [], c => if 0 = c then some 0 else none
  | b :: bs, c =>
    if b = c then some 0
    else if b = 0 then none
    else (strchr bs c).map (· + 1)

/-- The first loop of `strtok_r` from `s`: `(true, s)` when it reaches the
terminator, where `strtok_r` returns `NULL`, and `(false, s)` at the first byte
`strchr` does not find in `delimiters`. -/
def skipDelimiters (delimiters : List UInt8) (m : Nat → UInt8) : Nat → Nat → Option (Bool × Nat)
  | 0, _ => none
  | fuel + 1, s =>
    if (strchr delimiters (m s)).isSome then
      if m s = 0 then some (true, s) else skipDelimiters delimiters m fuel (s + 1)
    else some (false, s)

/-- The second loop of `strtok_r`: from `s` to the first byte `strchr` finds in
`delimiters`. -/
def skipToken (delimiters : List UInt8) (m : Nat → UInt8) : Nat → Nat → Option Nat
  | 0, _ => none
  | fuel + 1, s =>
    if (strchr delimiters (m s)).isSome then some s else skipToken delimiters m fuel (s + 1)

/-- `strtok_r (s, delimiters, save_ptr)` with `*save_ptr = savePtr` (`s` is
`none` for `NULL`): the token it returns (`none` for `NULL`), the memory and the
new `*save_ptr`. -/
def strtokR (delimiters : List UInt8) (m : Nat → UInt8) (s : Option Nat) (savePtr fuel : Nat) :
    Option (Option Nat × (Nat → UInt8) × Nat) :=
  match skipDelimiters delimiters m fuel (s.getD savePtr) with
  | none => none
  | some (true, s) => some (none, m, s)
  | some (false, token) =>
    match skipToken delimiters m fuel token with
    | none => none
    | some s =>
      if m s ≠ 0 then some (some token, Bytes.update m s 0, s + 1)
      else some (some token, m, s)

/-- `strtok_r (s, delimiters, &save_ptr)` and then `n - 1` calls
`strtok_r (NULL, delimiters, &save_ptr)`: the tokens returned, the memory and
`save_ptr` after the last call. -/
def strtokCalls (delimiters : List UInt8) (fuel : Nat) :
    Nat → (Nat → UInt8) → Option Nat → Nat → Option (List (Option Nat) × (Nat → UInt8) × Nat)
  | 0, m, _, savePtr => some ([], m, savePtr)
  | n + 1, m, s, savePtr =>
    match strtokR delimiters m s savePtr fuel with
    | none => none
    | some (token, m', savePtr') =>
      (strtokCalls delimiters fuel n m' none savePtr').map fun r => (token :: r.1, r.2)

/-- Whether `b` is a delimiter. -/
def IsDelim (delimiters : List UInt8) (b : UInt8) : Bool := decide (b ∈ delimiters)

/-- The maximal non-empty runs of bytes of `l` that are not delimiters. -/
def tokens (delimiters : List UInt8) (l : List UInt8) : List (List UInt8) :=
  (l.splitOnP (IsDelim delimiters)).filter fun t => !t.isEmpty

/-- The example of the comment above `strtok_r`. -/
example : tokens [32] [32, 32, 83, 116, 114, 105, 110, 103, 32, 116, 111, 32, 32, 116, 111, 107,
    101, 110, 105, 122, 101, 46, 32] =
    [[83, 116, 114, 105, 110, 103], [116, 111], [116, 111, 107, 101, 110, 105, 122, 101, 46]] := by
  decide

section Strings

variable {m m' : Nat → UInt8} {p : Nat} {c : UInt8} {l t u : List UInt8}

@[simp] theorem spells_nil : Spells m p [] := trivial

@[simp] theorem spells_cons : Spells m p (c :: l) ↔ c ≠ 0 ∧ m p = c ∧ Spells m (p + 1) l :=
  Iff.rfl

theorem spells_append : Spells m p (t ++ u) ↔ Spells m p t ∧ Spells m (p + t.length) u := by
  induction t generalizing p with
  | nil => simp
  | cons c t ih =>
    simp only [List.cons_append, spells_cons, ih, List.length_cons, and_assoc]
    rw [show p + 1 + t.length = p + (t.length + 1) by omega]

theorem cstr_nil : CStr m p [] ↔ m p = 0 := by
  simp [CStr]

theorem cstr_cons : CStr m p (c :: l) ↔ c ≠ 0 ∧ m p = c ∧ CStr m (p + 1) l := by
  simp only [CStr, spells_cons, List.length_cons, and_assoc]
  rw [show p + 1 + l.length = p + (l.length + 1) by omega]

theorem cstr_append : CStr m p (t ++ u) ↔ Spells m p t ∧ CStr m (p + t.length) u := by
  simp only [CStr, spells_append, List.length_append, and_assoc, Nat.add_assoc]

/-- Bytes outside a string's range do not matter to it. -/
theorem Spells.frame (h : Spells m p l) (hm : ∀ i, p ≤ i → i < p + l.length → m' i = m i) :
    Spells m' p l := by
  induction l generalizing p with
  | nil => trivial
  | cons c l ih =>
    obtain ⟨hc, hp, hl⟩ := h
    refine ⟨hc, ?_, ih hl fun i hi hi' => hm i (by omega) (by simp; omega)⟩
    rw [hm p (Nat.le_refl p) (by simp)]
    exact hp

theorem CStr.frame (h : CStr m p l) (hm : ∀ i, p ≤ i → i ≤ p + l.length → m' i = m i) :
    CStr m' p l :=
  ⟨h.1.frame fun i hi hi' => hm i hi (by omega), by rw [hm _ (by omega) (Nat.le_refl _)]; exact h.2⟩

end Strings

section Loops

variable {D : List UInt8} {m : Nat → UInt8}

/-- `strchr` finds exactly the delimiters and the terminator. -/
theorem strchr_isSome (hD : (0 : UInt8) ∉ D) (c : UInt8) :
    (strchr D c).isSome = (IsDelim D c || c = 0) := by
  induction D with
  | nil => by_cases hc : c = 0 <;> simp [strchr, IsDelim, hc, eq_comm]
  | cons b D ih =>
    simp only [List.mem_cons, not_or] at hD
    have hb : b ≠ 0 := fun h => hD.1 h.symm
    by_cases hbc : b = c
    · subst hbc
      simp [strchr, IsDelim]
    · simp only [strchr, if_neg hbc, if_neg hb, Option.isSome_map, ih hD.2]
      simp [IsDelim, Ne.symm hbc]

theorem strchr_isSome_of_spells (hD : (0 : UInt8) ∉ D) {c : UInt8} (hc : c ≠ 0) :
    (strchr D c).isSome = IsDelim D c := by
  rw [strchr_isSome hD]
  simp [hc]

/-- The first loop skips the leading delimiters of a string: to the rest of
it, or to the terminator when nothing else is left. -/
theorem skipDelimiters_cstr (hD : (0 : UInt8) ∉ D) :
    ∀ {l : List UInt8} {p fuel : Nat}, CStr m p l → l.length < fuel →
      skipDelimiters D m fuel p =
        some ((l.dropWhile (IsDelim D)).isEmpty, p + (l.takeWhile (IsDelim D)).length)
  | [], p, fuel + 1, hs, _ => by
    have h0 := cstr_nil.mp hs
    simp [skipDelimiters, h0, strchr_isSome hD]
  | c :: l, p, fuel + 1, hs, hfuel => by
    obtain ⟨hc, hp, hl⟩ := cstr_cons.mp hs
    rw [skipDelimiters, hp, strchr_isSome_of_spells hD hc]
    by_cases hd : IsDelim D c
    · rw [if_pos hd, if_neg hc, skipDelimiters_cstr hD hl (by simp at hfuel; omega)]
      simp [hd]
      omega
    · simp [hd]

/-- The second loop runs to the end of the token: the first delimiter, or the
terminator. -/
theorem skipToken_cstr (hD : (0 : UInt8) ∉ D) :
    ∀ {l : List UInt8} {p fuel : Nat}, CStr m p l → l.length < fuel →
      skipToken D m fuel p = some (p + (l.takeWhile fun b => !IsDelim D b).length)
  | [], p, fuel + 1, hs, _ => by
    have h0 := cstr_nil.mp hs
    simp [skipToken, h0, strchr_isSome hD]
  | c :: l, p, fuel + 1, hs, hfuel => by
    obtain ⟨hc, hp, hl⟩ := cstr_cons.mp hs
    rw [skipToken, hp, strchr_isSome_of_spells hD hc]
    by_cases hd : IsDelim D c
    · simp [hd]
    · rw [if_neg hd, skipToken_cstr hD hl (by simp at hfuel; omega)]
      simp [hd]
      omega

end Loops

section Tokens

variable {D : List UInt8}

@[simp] theorem tokens_nil : tokens D [] = [] := by
  simp [tokens]

/-- Leading delimiters make no token. -/
theorem tokens_delims_append {ds : List UInt8} (hds : ∀ x ∈ ds, IsDelim D x) (r : List UInt8) :
    tokens D (ds ++ r) = tokens D r := by
  induction ds with
  | nil => rfl
  | cons d ds ih =>
    have hd := hds d List.mem_cons_self
    rw [List.cons_append, tokens, List.splitOnP_cons_eq_if_modifyHead, if_pos hd,
      List.filter_cons_of_neg (by simp), ← tokens]
    exact ih fun x hx => hds x (List.mem_cons_of_mem d hx)

/-- A token ended by a delimiter is the first token. -/
theorem tokens_token_append {t : List UInt8} (ht : ∀ x ∈ t, IsDelim D x = false) (hne : t ≠ [])
    {sep : UInt8} (hsep : IsDelim D sep) (u : List UInt8) :
    tokens D (t ++ sep :: u) = t :: tokens D u := by
  rw [tokens, List.splitOnP_append_cons_of_forall_mem ht sep hsep,
    List.filter_cons_of_pos (by simpa using hne)]
  rfl

/-- A string with no delimiter is one token, when it is not empty. -/
theorem tokens_token {t : List UInt8} (ht : ∀ x ∈ t, IsDelim D x = false) (hne : t ≠ []) :
    tokens D t = [t] := by
  rw [tokens, List.splitOnP_eq_singleton ht, List.filter_cons_of_pos (by simpa using hne)]
  rfl

end Tokens

/-- What the calls so far have left: the string `rest` at the next call's start
`p`, ending where `str` at `a` ends, and before it the tokens `found`, each with
its address, in place in `str` and terminated. -/
structure Progress (D : List UInt8) (a : Nat) (str : List UInt8) (m : Nat → UInt8) (p : Nat)
    (rest : List UInt8) (found : List (Nat × List UInt8)) : Prop where
  rest_at : CStr m p rest
  start_ge : a ≤ p
  rest_end : p + rest.length = a + str.length
  tokens_eq : found.map Prod.snd ++ tokens D rest = tokens D str
  found_at : ∀ f ∈ found, CStr m f.1 f.2 ∧ a ≤ f.1 ∧ f.1 + f.2.length ≤ p

section Calls

variable {D : List UInt8} {a : Nat} {str : List UInt8} {m : Nat → UInt8} {p : Nat}
  {rest : List UInt8} {found : List (Nat × List UInt8)} {fuel : Nat}

theorem progress_init (hs : CStr m a str) : Progress D a str m a str [] :=
  ⟨hs, Nat.le_refl a, rfl, rfl, fun _ h => absurd h List.not_mem_nil⟩

/-- The token the second loop scans: where the first loop stopped, up to the
next delimiter or the terminator. -/
theorem strtokR_token (hD : (0 : UInt8) ∉ D) {q : Nat} {c : UInt8} {r : List UInt8}
    (hr : CStr m q (c :: r)) (hc : IsDelim D c = false) (hfuel : r.length + 1 < fuel)
    (s : Option Nat) (save : Nat) (hskip : skipDelimiters D m fuel (s.getD save) = some (false, q)) :
    ∃ t m' save' rest', tokens D (c :: r) = t :: tokens D rest' ∧
      strtokR D m s save fuel = some (some q, m', save') ∧
      CStr m' q t ∧ CStr m' save' rest' ∧ q + t.length ≤ save' ∧
      save' + rest'.length = q + (r.length + 1) ∧ 0 < t.length ∧ (∀ i, i < q + 1 → m' i = m i) := by
  -- the token runs to the first delimiter of `c :: r`, or to its end
  have hsplit : (c :: r).takeWhile (fun b => !IsDelim D b) ++
      (c :: r).dropWhile (fun b => !IsDelim D b) = c :: r := List.takeWhile_append_dropWhile
  have hnd : ∀ x ∈ (c :: r).takeWhile (fun b => !IsDelim D b), IsDelim D x = false :=
    fun x hx => by simpa using List.mem_takeWhile_imp hx
  have htlen : 0 < ((c :: r).takeWhile fun b => !IsDelim D b).length := by simp [hc]
  have hscan := skipToken_cstr hD hr hfuel
  rw [← hsplit] at hr
  generalize (c :: r).takeWhile (fun b => !IsDelim D b) = t at hsplit hnd htlen hscan hr
  obtain ⟨hst, hu⟩ := cstr_append.mp hr
  have hlen : t.length + ((c :: r).dropWhile fun b => !IsDelim D b).length = r.length + 1 := by
    simpa using congrArg List.length hsplit
  generalize hu_def : (c :: r).dropWhile (fun b => !IsDelim D b) = u at hsplit hu hlen
  cases u with
  | nil =>
    -- the token ends at the terminator, and `*save_ptr` stays there
    have h0 := cstr_nil.mp hu
    refine ⟨t, m, q + t.length, [], ?_, ?_, ⟨hst, h0⟩, hu, Nat.le_refl _, by simp; omega, htlen,
      fun _ _ => rfl⟩
    · rw [← hsplit, List.append_nil, tokens_token hnd (List.ne_nil_of_length_pos htlen), tokens_nil]
    · simp [strtokR, hskip, hscan, h0]
  | cons sep rest' =>
    -- a delimiter ends the token: it becomes the terminator
    obtain ⟨hsep0, hsep, hrest⟩ := cstr_cons.mp hu
    have hdelim : IsDelim D sep = true := by
      have := List.head_dropWhile_not (fun b => !IsDelim D b) (l := c :: r) (by rw [hu_def]; simp)
      simpa [hu_def] using this
    refine ⟨t, Bytes.update m (q + t.length) 0, q + t.length + 1, rest', ?_, ?_, ?_, ?_,
      Nat.le_succ _, by simp at hlen; omega, htlen, ?_⟩
    · rw [← hsplit, tokens_token_append hnd (List.ne_nil_of_length_pos htlen) hdelim]
    · simp [strtokR, hskip, hscan, hsep, hsep0]
    · refine ⟨hst.frame fun i _ hi => ?_, by simp [Bytes.update]⟩
      simp only [Bytes.update, if_neg (Nat.ne_of_lt hi)]
    · refine hrest.frame fun i hi _ => ?_
      simp only [Bytes.update]
      rw [if_neg (by omega)]
    · intro i hi
      simp only [Bytes.update]
      rw [if_neg (by omega)]

/-- One call: `NULL` when no token is left, and otherwise the next token, with
`save_ptr` past it. -/
theorem Progress.call (hD : (0 : UInt8) ∉ D) (hfuel : str.length < fuel)
    (hp : Progress D a str m p rest found) {s : Option Nat} {save : Nat} (hstart : s.getD save = p) :
    (tokens D rest = [] ∧ strtokR D m s save fuel = some (none, m, p + rest.length) ∧
        Progress D a str m (p + rest.length) [] found) ∨
      ∃ q t m' save' rest', tokens D rest = t :: tokens D rest' ∧
        strtokR D m s save fuel = some (some q, m', save') ∧
        Progress D a str m' save' rest' (found ++ [(q, t)]) := by
  have hlen : rest.length < fuel := by have := hp.rest_end; have := hp.start_ge; omega
  have hskip := skipDelimiters_cstr hD hp.rest_at hlen
  -- the leading delimiters make no token
  have hsplit : rest.takeWhile (IsDelim D) ++ rest.dropWhile (IsDelim D) = rest :=
    List.takeWhile_append_dropWhile
  have htok : tokens D rest = tokens D (rest.dropWhile (IsDelim D)) := by
    calc tokens D rest = tokens D (rest.takeWhile (IsDelim D) ++ rest.dropWhile (IsDelim D)) := by
          rw [hsplit]
      _ = tokens D (rest.dropWhile (IsDelim D)) :=
          tokens_delims_append (fun x hx => List.mem_takeWhile_imp hx) _
  have hr := hp.rest_at
  rw [← hsplit] at hr
  obtain ⟨-, hr⟩ := cstr_append.mp hr
  have hrlen : (rest.takeWhile (IsDelim D)).length + (rest.dropWhile (IsDelim D)).length =
      rest.length := by
    have := congrArg List.length hsplit
    rwa [List.length_append] at this
  generalize (rest.takeWhile (IsDelim D)).length = k at hskip hr hrlen
  generalize hr_def : rest.dropWhile (IsDelim D) = r at hskip htok hr hrlen
  cases r with
  | nil =>
    rw [List.length_nil, Nat.add_zero] at hrlen
    refine .inl ⟨by rw [htok, tokens_nil], ?_, ?_⟩
    · simp [strtokR, hstart, hskip]
      omega
    · refine ⟨by simpa [cstr_nil] using hp.rest_at.2, by have := hp.start_ge; omega,
        by simpa using hp.rest_end, ?_, fun f hf => ?_⟩
      · rw [tokens_nil, List.append_nil, ← hp.tokens_eq, htok, tokens_nil, List.append_nil]
      · obtain ⟨hf1, hf2, hf3⟩ := hp.found_at f hf
        exact ⟨hf1, hf2, by omega⟩
  | cons c r =>
    have hc : IsDelim D c = false := by
      have := List.head_dropWhile_not (IsDelim D) (l := rest) (by rw [hr_def]; simp)
      simpa [hr_def] using this
    simp only [List.isEmpty_cons] at hskip
    have hrfuel : r.length + 1 < fuel := by
      rw [List.length_cons] at hrlen
      omega
    obtain ⟨t, m', save', rest', htok', hcall, hqt, hrest', hle, hend, htpos, hframe⟩ :=
      strtokR_token hD hr hc hrfuel s save (by rw [hstart]; exact hskip)
    refine .inr ⟨p + k, t, m', save', rest', by rw [htok, htok'], hcall, ?_⟩
    refine ⟨hrest', by have := hp.start_ge; omega, by simp at hrlen; have := hp.rest_end; omega,
      ?_, fun f hf => ?_⟩
    · rw [List.map_append, List.append_assoc, List.map_singleton, List.singleton_append, ← htok',
        ← htok, hp.tokens_eq]
    · rcases List.mem_append.mp hf with hf | hf
      · -- an earlier token lies before this call's start, which the call does not write
        obtain ⟨hf1, hf2, hf3⟩ := hp.found_at f hf
        exact ⟨hf1.frame fun i _ hi => hframe i (by omega), hf2, by omega⟩
      · rw [List.mem_singleton] at hf
        subst hf
        exact ⟨hqt, by have := hp.start_ge; omega, hle⟩

/-- A first call and `n` more: the tokens left, in order, then `NULL`. -/
theorem strtokCalls_progress (hD : (0 : UInt8) ∉ D) (hfuel : str.length < fuel) :
    ∀ (n : Nat) {m : Nat → UInt8} {s : Option Nat} {save p : Nat} {rest : List UInt8}
      {found : List (Nat × List UInt8)}, s.getD save = p → Progress D a str m p rest found →
      ∃ toks m' save' rest' found', strtokCalls D fuel (n + 1) m s save = some (toks, m', save') ∧
        Progress D a str m' save' rest' (found ++ found') ∧
        found'.map Prod.snd = (tokens D rest).take (n + 1) ∧
        toks = found'.map (fun f => some f.1) ++ List.replicate (n + 1 - (tokens D rest).length) none
  | 0, m, s, save, p, rest, found, hstart, hp => by
    rcases hp.call hD hfuel hstart with ⟨htok, hcall, hp'⟩ | ⟨q, t, m', save', rest', htok, hcall, hp'⟩
    · refine ⟨[none], m, p + rest.length, [], [], ?_, by simpa using hp', by simp [htok], by simp [htok]⟩
      simp [strtokCalls, hcall]
    · refine ⟨[some q], m', save', rest', [(q, t)], ?_, hp', by simp [htok], by simp [htok]⟩
      simp [strtokCalls, hcall]
  | n + 1, m, s, save, p, rest, found, hstart, hp => by
    rcases hp.call hD hfuel hstart with ⟨htok, hcall, hp'⟩ | ⟨q, t, m', save', rest', htok, hcall, hp'⟩
    · -- `NULL`, and every later call returns `NULL` again
      obtain ⟨toks, m'', save'', rest'', found', hrun, hp'', hfound, htoks⟩ :=
        strtokCalls_progress hD hfuel n (s := none) rfl hp'
      have hnil : found' = [] := by simpa using hfound
      subst hnil
      refine ⟨none :: toks, m'', save'', rest'', [], ?_, hp'', by simp [htok], ?_⟩
      · rw [strtokCalls, hcall]
        simp [hrun]
      · simp [htok, htoks, List.replicate_succ]
    · obtain ⟨toks, m'', save'', rest'', found', hrun, hp'', hfound, htoks⟩ :=
        strtokCalls_progress hD hfuel n (s := none) rfl hp'
      refine ⟨some q :: toks, m'', save'', rest'', (q, t) :: found', ?_, by simpa using hp'', ?_, ?_⟩
      · rw [strtokCalls, hcall]
        simp [hrun]
      · simp [htok, hfound]
      · simp [htok, htoks]

end Calls

/-- For every string `str` at `a` and every delimiter string `D`, the first call
`strtok_r (a, D, &save_ptr)` and `n` calls `strtok_r (NULL, D, &save_ptr)` after
it return the tokens of `str`, the maximal non-empty runs of bytes not in `D`,
in order, each at its place in `str` and terminated there, and then `NULL`.
`save_ptr` never passes the terminator of `str`. -/
theorem strtok_r_tokenizes {D str : List UInt8} {m : Nat → UInt8} {a : Nat}
    (hD : (0 : UInt8) ∉ D) (hs : CStr m a str) (save n : Nat) :
    ∃ (toks : List (Option Nat)) (m' : Nat → UInt8) (save' : Nat) (found : List (Nat × List UInt8)),
      strtokCalls D (str.length + 1) (n + 1) m (some a) save = some (toks, m', save') ∧
      found.map Prod.snd = (tokens D str).take (n + 1) ∧
      toks = found.map (fun f => some f.1) ++ List.replicate (n + 1 - (tokens D str).length) none ∧
      (∀ f ∈ found, CStr m' f.1 f.2 ∧ a ≤ f.1 ∧ f.1 + f.2.length ≤ a + str.length) ∧
      save' ≤ a + str.length := by
  obtain ⟨toks, m', save', rest', found, hrun, hp, hfound, htoks⟩ :=
    strtokCalls_progress hD (Nat.lt_succ_self _) n (s := some a) (p := a) rfl
      (progress_init (D := D) hs)
  have hend := hp.rest_end
  refine ⟨toks, m', save', found, hrun, hfound, htoks, fun f hf => ?_, by omega⟩
  obtain ⟨hf1, hf2, hf3⟩ := hp.found_at f (by simpa using hf)
  exact ⟨hf1, hf2, by omega⟩

/-- The string of the comment above `strtok_r`, at address `0`. -/
def tokenizeExample : List UInt8 :=
  [32, 32, 83, 116, 114, 105, 110, 103, 32, 116, 111, 32, 32, 116, 111, 107, 101, 110, 105, 122,
    101, 46, 32]

theorem strtok_r_tokenizes_example :
    (0 : UInt8) ∉ [32] ∧ CStr (fun i => tokenizeExample.getD i 0) 0 tokenizeExample ∧
      ∃ (toks : List (Option Nat)) (m' : Nat → UInt8) (save' : Nat) (found : List (Nat × List UInt8)),
        strtokCalls [32] (tokenizeExample.length + 1) (3 + 1) (fun i => tokenizeExample.getD i 0)
          (some 0) 0 = some (toks, m', save') ∧
        found.map Prod.snd = (tokens [32] tokenizeExample).take (3 + 1) ∧
        toks = found.map (fun f => some f.1) ++
          List.replicate (3 + 1 - (tokens [32] tokenizeExample).length) none ∧
        (∀ f ∈ found, CStr m' f.1 f.2 ∧ 0 ≤ f.1 ∧ f.1 + f.2.length ≤ 0 + tokenizeExample.length) ∧
        save' ≤ 0 + tokenizeExample.length :=
  ⟨by decide, by decide, strtok_r_tokenizes (by decide) (by decide) 0 3⟩

/-! ### `strlcpy` -/

/-- `strlcpy (dst, src, size)` with `src` the bytes of its string: the memory
with at most `size - 1` of them and a terminator from `dst` on, unchanged when
`size` is 0, and the length of `src`. -/
def strlcpy (m : Nat → UInt8) (dst : Nat) (src : List UInt8) (size : Nat) : (Nat → UInt8) × Nat :=
  if size > 0 then
    let dstLen := min src.length (size - 1)
    (Bytes.update (Bytes.copy m dst (fun j => src.getD j 0) dstLen) (dst + dstLen) 0, src.length)
  else (m, src.length)

section Strlcpy

variable {m : Nat → UInt8} {dst size i : Nat} {src : List UInt8}

theorem strlcpy_apply_of_lt (h : i < dst) : (strlcpy m dst src size).1 i = m i := by
  unfold strlcpy
  split
  · dsimp only
    rw [Bytes.update_apply_of_ne (by omega), Bytes.copy_apply_of_lt h]
  · rfl

theorem strlcpy_apply_of_ge (h : dst + size ≤ i) : (strlcpy m dst src size).1 i = m i := by
  unfold strlcpy
  split
  · dsimp only
    rw [Bytes.update_apply_of_ne (by omega), Bytes.copy_apply_of_ge (by omega)]
  · rfl

/-- Past the string and its terminator nothing changes. -/
theorem strlcpy_apply_of_gt (h : dst + src.length < i) : (strlcpy m dst src size).1 i = m i := by
  unfold strlcpy
  split
  · dsimp only
    rw [Bytes.update_apply_of_ne (by omega), Bytes.copy_apply_of_ge (by omega)]
  · rfl

/-- A string shorter than the buffer is stored whole, byte by byte. -/
theorem strlcpy_apply_add {j : Nat} (h : src.length < size) (hj : j ≤ src.length) :
    (strlcpy m dst src size).1 (dst + j) = (src ++ [0]).getD j 0 := by
  have hmin : min src.length (size - 1) = src.length := by omega
  simp only [strlcpy, if_pos (show size > 0 by omega), hmin]
  by_cases hlt : j < src.length
  · rw [Bytes.update_apply_of_ne (by omega), Bytes.copy_apply_add hlt, List.getD_eq_getElem?_getD,
      List.getD_eq_getElem?_getD, List.getElem?_append_left hlt]
  · have hj' : j = src.length := by omega
    subst hj'
    rw [Bytes.update_apply_self]
    simp

/-- A string shorter than the buffer is stored whole, with its terminator. -/
theorem read_strlcpy (h : src.length < size) :
    Bytes.read (strlcpy m dst src size).1 dst (src.length + 1) = src ++ [0] := by
  have hmin : min src.length (size - 1) = src.length := by omega
  simp only [strlcpy, if_pos (show size > 0 by omega), hmin]
  rw [Bytes.read_add, Bytes.read_congr (m := Bytes.copy m dst (fun j => src.getD j 0) src.length),
    Bytes.read_copy]
  · congr 1
    · apply List.ext_getElem (by simp)
      intro j _ hj
      simp only [List.getElem_map, List.getElem_range, List.getD_eq_getElem?_getD,
        List.getElem?_eq_getElem hj, Option.getD_some]
    · simp [Bytes.read, Bytes.update_apply_self]
  · intro j hj
    rw [Bytes.update_apply_of_ne (by omega)]

end Strlcpy

end Pintos.Libc

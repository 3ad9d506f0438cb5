import Mathlib
import Pintos.Libc.String
import Pintos.Libc.Stdio

/-!
# ustar archive headers (`lib/ustar.c`)

A header is 512 bytes of `struct ustar_header`. The fields the code reads and writes are at
these offsets:

| field | offset | size |
|---|---|---|
| `name` | 0 | 100 |
| `mode` | 100 | 8 |
| `uid`, `gid` | 108, 116 | 8 |
| `size`, `mtime` | 124, 136 | 12 |
| `chksum` | 148 | 8 |
| `typeflag` | 156 | 1 |
| `magic`, `version` | 257, 263 | 6, 2 |
| `uname`, `gname` | 265, 297 | 32 |
| `prefix` | 345 | 155 |

`ustar_make_header` strips the name's antisocial prefixes, refuses a stripped name of more
than 99 bytes, and fills the header: the name and the fixed strings with `strlcpy`, and the
octal fields with `snprintf`. Last, it fills in the checksum, the sum of the header's bytes
with its own field counted as spaces. `ustar_parse_header` accepts an all-zero block as the
end of the archive. Otherwise it checks, in order, the magic, the version, the checksum, the
name's terminator and the empty prefix, the type, and the size of a regular file. It returns
the stored name stripped again.

A header `ustar_make_header` composes has the layout `HeaderLayout`
(`ustarMakeHeader_layout`). `ustar_parse_header` reads a header with that layout back
(`ustarParseHeader_of_layout`). Stripping twice is stripping once, so a name, a type and a
size of at most `INT_MAX` survive the round trip. The end-of-archive block is accepted
without its checksum: its `chksum` field is empty, and `calculate_chksum` of it is 256.
-/

namespace Pintos.Libc

open Bytes

/-- `enum ustar_type`. -/
inductive UstarType
  | regular
  | directory
  | eof
  deriving DecidableEq, Repr

/-- The value of each `enum ustar_type`: the byte of its type flag, and -1 for the end of
the archive. -/
def UstarType.value : UstarType → Int
  | .regular => 48
  | .directory => 53
  | .eof => -1

/-- `ULONG_MAX` of `lib/limits.h`. -/
def ulongMax : Nat := 4294967295

/-- `INT_MAX` of `lib/limits.h`. -/
def intMax : Nat := 2147483647

/-- `calculate_chksum (h)`: the sum of the header's bytes, with the 8 bytes of the `chksum`
field counted as spaces. The sum is at most `512 * 255`, so the `unsigned int` never
wraps. -/
def calculateChksum (h : Nat → UInt8) : Nat :=
  (List.range 512).foldl
    (fun chksum i => chksum + if 148 ≤ i ∧ i < 148 + 8 then 32 else (h i).toNat) 0

/-- The condition of the loop of `strip_antisocial_prefixes`: the name starts with `/`,
`./` or `../`. `memcmp` stops at the first byte that differs, at the latest at the
terminator, so it compares a prefix of the name. -/
def antisocialPrefix (name : List UInt8) : Bool :=
  name.head? == some 47 || [46, 47].isPrefixOf name || [46, 46, 47].isPrefixOf name

/-- The loop of `strip_antisocial_prefixes`, for at most `fuel` rounds:
`file_name = strchr (file_name, '/') + 1`. -/
def stripLoop : Nat → List UInt8 → List UInt8
  | 0, name => name
  | fuel + 1, name =>
    if antisocialPrefix name then stripLoop fuel (name.drop (name.idxOf 47 + 1)) else name

/-- `strip_antisocial_prefixes (file_name)`. Each round drops a byte at least, so the
name's length bounds the rounds. An empty name and `..` become `.`. -/
def stripAntisocialPrefixes (fileName : List UInt8) : List UInt8 :=
  let name := stripLoop fileName.length fileName
  if name = [] ∨ name = [46, 46] then [46] else name

/-- `ustar_make_header (file_name, type, size, header)`: `none` when its `ASSERT` on the
type fails, the message it prints when the stripped name is too long (it returns `false`),
and otherwise the header (it returns `true`). -/
def ustarMakeHeader (fileName : List UInt8) (type : UstarType) (size : Int)
    (header : Nat → UInt8) : Option (Except (List Char) (Nat → UInt8)) :=
  if type = .eof then none
  else
    let fileName := stripAntisocialPrefixes fileName
    if fileName.length > 99 then
      (vprintf "%s: file name too long\n".toList
        [.str (some (fileName.map fun c => Char.ofNat c.toNat))]).map .error
    else do
      let h := copy header 0 (fun _ => 0) 512
      let h := (strlcpy h 0 fileName 100).1
      let (h, _) ← snprintf h 100 8 ['%', '0', '7', 'o']
        [.int (if type = .regular then 0o644 else 0o755)]
      -- `"0000000"`
      let h := (strlcpy h 108 (List.replicate 7 48) 8).1
      let h := (strlcpy h 116 (List.replicate 7 48) 8).1
      let (h, _) ← snprintf h 124 12 ['%', '0', '1', '1', 'o'] [.int size]
      -- `sizeof h->size`, which is also the size of `mtime`
      let (h, _) ← snprintf h 136 12 ['%', '0', '1', '1', 'o'] [.int 1136102400]
      let h := update h 156 (UInt8.ofNat type.value.toNat)
      -- `"ustar"`, `'0'` and `"root"`
      let h := (strlcpy h 257 [117, 115, 116, 97, 114] 6).1
      let h := update (update h 264 48) 263 48
      let h := (strlcpy h 297 [114, 111, 111, 116] 32).1
      let h := (strlcpy h 265 [114, 111, 111, 116] 32).1
      let (h, _) ← snprintf h 148 8 ['%', '0', '7', 'o'] [.int (calculateChksum h)]
      return .ok h

/-- The loop of `parse_octal_field (s, size, value)` from offset `ofs`, with `*value` so
far, over the bytes of the field from there: the value, or `none` when it returns
`false`. -/
def parseOctalLoop : List UInt8 → Nat → Nat → Option Nat
  -- the field did not end in a space or a null byte
  | [], _, _ => none
  | c :: s, ofs, value =>
    if 48 ≤ c ∧ c ≤ 55 then
      if value > ulongMax / 8 then none
      else parseOctalLoop s (ofs + 1) ((c - 48).toNat + value * 8)
    else if c = 32 ∨ c = 0 then
      if ofs > 0 then some value else none
    else none

/-- `parse_octal_field (s, size, value)` of the `size` bytes at `a`. -/
def parseOctalField (h : Nat → UInt8) (a size : Nat) : Option Nat :=
  parseOctalLoop (read h a size) 0 0

/-- `is_all_zeros (block, cnt)`. -/
def isAllZeros (block : List UInt8) : Bool := block.all (· == 0)

/-- `ustar_parse_header (header, file_name, type, size)`: the error message, or the file
name (`none` for a null pointer), the type and the size. -/
def ustarParseHeader (h : Nat → UInt8) : Except String (Option (List UInt8) × UstarType × Int) :=
  if isAllZeros (read h 0 512) then .ok (none, .eof, 0)
  else if read h 257 6 ≠ [117, 115, 116, 97, 114, 0] then .error "not a ustar archive"
  else if h 263 ≠ 48 ∨ h 264 ≠ 48 then .error "invalid ustar version"
  else match parseOctalField h 148 8 with
    | none => .error "corrupt chksum field"
    | some chksum =>
      if chksum ≠ calculateChksum h then .error "checksum mismatch"
      else if h 99 ≠ 0 ∨ h 345 ≠ 0 then .error "file name too long"
      else if h 156 ≠ 48 ∧ h 156 ≠ 53 then .error "unimplemented file type"
      else
        let sizeUl : Except String Nat :=
          if h 156 = 48 then
            match parseOctalField h 124 12 with
            | none => .error "corrupt file size field"
            | some sizeUl => if sizeUl > intMax then .error "file too large" else .ok sizeUl
          else .ok 0
        sizeUl.map fun sizeUl =>
          (some (stripAntisocialPrefixes ((read h 0 100).takeWhile (· != 0))),
            if h 156 = 48 then .regular else .directory, sizeUl)

/-! ### Stripping names -/

section Strip

theorem stripLoop_of_not {name : List UInt8} (h : antisocialPrefix name = false) :
    ∀ fuel, stripLoop fuel name = name
  | 0 => rfl
  | _ + 1 => by simp only [stripLoop, h, Bool.false_eq_true, if_false]

/-- Enough rounds leave no antisocial prefix. -/
theorem antisocialPrefix_stripLoop :
    ∀ fuel (name : List UInt8), name.length ≤ fuel → antisocialPrefix (stripLoop fuel name) = false
  | 0, name, h => by
    rw [List.length_eq_zero_iff.mp (Nat.le_zero.mp h)]
    rfl
  | _ + 1, [], _ => rfl
  | fuel + 1, c :: name, h => by
    unfold stripLoop
    split
    · apply antisocialPrefix_stripLoop fuel
      simp only [List.length_drop, List.length_cons] at h ⊢
      omega
    · rename_i hn
      simpa using hn

theorem stripLoop_suffix : ∀ fuel (name : List UInt8), stripLoop fuel name <:+ name
  | 0, name => List.suffix_refl name
  | fuel + 1, name => by
    unfold stripLoop
    split
    · exact (stripLoop_suffix fuel _).trans (List.drop_suffix _ _)
    · exact List.suffix_refl name

/-- Stripping a stripped name changes nothing. -/
theorem stripAntisocialPrefixes_idem (fileName : List UInt8) :
    stripAntisocialPrefixes (stripAntisocialPrefixes fileName) = stripAntisocialPrefixes fileName := by
  have hy := antisocialPrefix_stripLoop fileName.length fileName le_rfl
  by_cases hc : stripLoop fileName.length fileName = [] ∨ stripLoop fileName.length fileName = [46, 46]
  · have h1 : stripAntisocialPrefixes fileName = [46] := by
      simp only [stripAntisocialPrefixes]
      rw [if_pos hc]
    rw [h1]
    decide
  · have h1 : stripAntisocialPrefixes fileName = stripLoop fileName.length fileName := by
      simp only [stripAntisocialPrefixes]
      rw [if_neg hc]
    rw [h1]
    simp only [stripAntisocialPrefixes, stripLoop_of_not hy, if_neg hc]

theorem zero_not_mem_stripAntisocialPrefixes {fileName : List UInt8} (h : (0 : UInt8) ∉ fileName) :
    (0 : UInt8) ∉ stripAntisocialPrefixes fileName := by
  simp only [stripAntisocialPrefixes]
  split
  · decide
  · exact fun hm => h ((stripLoop_suffix _ _).subset hm)

end Strip

/-! ### The checksum -/

section Chksum

theorem foldl_add_le {g : Nat → Nat} {k : Nat} (hg : ∀ i, g i ≤ k) :
    ∀ (l : List Nat) (c : Nat), l.foldl (fun c i => c + g i) c ≤ c + l.length * k
  | [], c => by simp
  | i :: l, c => by
    have hl := foldl_add_le hg l (c + g i)
    have hi := hg i
    rw [List.foldl_cons, List.length_cons, Nat.succ_mul]
    omega

theorem calculateChksum_le (h : Nat → UInt8) : calculateChksum h ≤ 512 * 255 := by
  unfold calculateChksum
  have hg : ∀ i, (if 148 ≤ i ∧ i < 148 + 8 then 32 else (h i).toNat) ≤ 255 := by
    intro i
    split
    · omega
    · have := (h i).toNat_lt
      omega
  have hsum := foldl_add_le hg (List.range 512) 0
  rw [List.length_range, Nat.zero_add] at hsum
  exact hsum

/-- The checksum reads no byte of its own field. -/
theorem calculateChksum_congr {h h' : Nat → UInt8}
    (heq : ∀ i < 512, i < 148 ∨ 156 ≤ i → h' i = h i) : calculateChksum h' = calculateChksum h := by
  unfold calculateChksum
  apply List.foldl_ext
  intro c i hi
  have hi := List.mem_range.mp hi
  split
  · rfl
  · rw [heq i hi (by omega)]

/-- Writing the `chksum` field leaves the checksum as it was. -/
theorem calculateChksum_copy_chksum (m src : Nat → UInt8) :
    calculateChksum (copy m 148 src 8) = calculateChksum m :=
  calculateChksum_congr fun _ _ hi => by
    rcases hi with hi | hi
    · exact copy_apply_of_lt hi
    · exact copy_apply_of_ge (by omega)

end Chksum

/-! ### Octal fields -/

/-- The byte `snprintf` stores for an octal digit. -/
def octalByte (d : Nat) : UInt8 := (baseO.digits.getD d '0').toUInt8

/-- The bytes `snprintf` stores for `%0wo` of `v` in a field of `w + 1` bytes: zeros up to
`w` digits, the digits, and a null terminator. -/
def octalField (w v : Nat) : List UInt8 :=
  (List.replicate (w - (baseO.valueDigits v).length) 0 ++ baseO.valueDigits v).map octalByte ++ [0]

section Octal

theorem octalByte_spec : ∀ d < 8, (48 ≤ octalByte d ∧ octalByte d ≤ 55) ∧ (octalByte d - 48).toNat = d := by
  decide

theorem lt_eight_of_mem_valueDigits {v d : Nat} (h : d ∈ baseO.valueDigits v) : d < 8 := by
  unfold IntegerBase.valueDigits at h
  split at h
  · rw [List.mem_singleton.mp h]
    omega
  · exact Nat.digits_lt_base (b := baseO.base) (by decide) (List.mem_reverse.mp h)

theorem valueDigits_length_le {w v : Nat} (hw : 1 ≤ w) (hv : v < 8 ^ w) :
    (baseO.valueDigits v).length ≤ w := by
  unfold IntegerBase.valueDigits
  split
  · simpa using hw
  · rw [List.length_reverse]
    exact (Nat.digits_length_le_iff (b := baseO.base) (by decide) v).mpr hv

theorem length_octalField {w v : Nat} (hw : 1 ≤ w) (hv : v < 8 ^ w) : (octalField w v).length = w + 1 := by
  have := valueDigits_length_le hw hv
  simp only [octalField, List.length_append, List.length_map, List.length_replicate,
    List.length_singleton]
  omega

theorem foldl_octal_replicate_zero :
    ∀ k, (List.replicate k 0).foldl (fun value d => d + value * 8) 0 = 0
  | 0 => rfl
  | k + 1 => by
    rw [List.replicate_succ, List.foldl_cons]
    simpa using foldl_octal_replicate_zero k

/-- The digits behind the zeros are those of `v`, most significant first. -/
theorem foldl_octal_valueDigits (k v : Nat) :
    (List.replicate k 0 ++ baseO.valueDigits v).foldl (fun value d => d + value * 8) 0 = v := by
  rw [List.foldl_append, foldl_octal_replicate_zero]
  unfold IntegerBase.valueDigits
  split
  · rename_i hv
    simp [hv]
  · rw [List.foldl_reverse]
    have h := Nat.ofDigits_digits baseO.base v
    rw [Nat.ofDigits_eq_foldr] at h
    conv_rhs => rw [← h]
    simp only [Nat.cast_id]
    congr
    funext d value
    show d + value * 8 = d + 8 * value
    omega

theorem le_foldl_octal : ∀ (ds : List Nat) (x : Nat), x ≤ ds.foldl (fun value d => d + value * 8) x
  | [], _ => le_rfl
  | d :: ds, x => by
    have := le_foldl_octal ds (d + x * 8)
    rw [List.foldl_cons]
    omega

/-- `parse_octal_field` over octal digits and a null byte: the value of the digits, as long
as it fits an `unsigned long`. -/
theorem parseOctalLoop_digits :
    ∀ (ds : List Nat) (rest : List UInt8) (ofs value : Nat), (∀ d ∈ ds, d < 8) →
      0 < ofs + ds.length → ds.foldl (fun value d => d + value * 8) value < 2 ^ 32 →
      parseOctalLoop (ds.map octalByte ++ 0 :: rest) ofs value =
        some (ds.foldl (fun value d => d + value * 8) value)
  | [], rest, ofs, value, _, hpos, _ => by
    have hdigit : ¬ ((48 : UInt8) ≤ 0 ∧ (0 : UInt8) ≤ 55) := by decide
    simp only [List.map_nil, List.nil_append, parseOctalLoop, if_neg hdigit, or_true, if_true,
      List.foldl_nil]
    rw [if_pos (by simpa using hpos)]
  | d :: ds, rest, ofs, value, hds, _, hlt => by
    obtain ⟨⟨hlo, hhi⟩, hval⟩ := octalByte_spec d (hds d (List.mem_cons_self ..))
    rw [List.foldl_cons] at hlt ⊢
    have hle := le_foldl_octal ds (d + value * 8)
    have hnov : ¬ value > ulongMax / 8 := by
      unfold ulongMax
      omega
    simp only [List.map_cons, List.cons_append, parseOctalLoop, hlo, hhi, and_self, if_true, hnov,
      if_false, hval]
    exact parseOctalLoop_digits ds rest (ofs + 1) _ (fun d' hd' => hds d' (List.mem_cons_of_mem _ hd'))
      (by omega) hlt

/-- `parse_octal_field` reads back what `snprintf` stores for `%0wo`. -/
theorem parseOctalLoop_octalField (w : Nat) {v : Nat} (hv32 : v < 2 ^ 32) :
    parseOctalLoop (octalField w v) 0 0 = some v := by
  have h := parseOctalLoop_digits (List.replicate (w - (baseO.valueDigits v).length) 0 ++
    baseO.valueDigits v) [] 0 0 ?_ ?_ ?_
  · rwa [foldl_octal_valueDigits] at h
  · intro d hd
    rcases List.mem_append.mp hd with hd | hd
    · rw [List.eq_of_mem_replicate hd]
      omega
    · exact lt_eight_of_mem_valueDigits hd
  · have hpos : 0 < (baseO.valueDigits v).length := by
      unfold IntegerBase.valueDigits
      split
      · simp
      · rename_i hv
        rw [List.length_reverse]
        exact List.length_pos_iff.mpr (Nat.digits_ne_nil_iff_ne_zero.mpr hv)
    simp only [List.length_append]
    omega
  · rwa [foldl_octal_valueDigits]

/-- `snprintf` of a `%0wo` conversion of a value below `8 ^ w` into a field of `w + 1`
bytes stores its `octalField` and returns `w`. -/
theorem snprintf_octal {f : List Char} {w : Nat}
    (hf : ∀ v : Int, vprintf f [.int v] = some (formatInteger (toUnsigned 32 v) false false baseO
      ⟨{ Flags.none with zero := true }, w, -1, .int⟩))
    {bufSize : UInt32} (hbuf : bufSize.toNat = w + 1) (hw : 1 ≤ w) (hw' : w < 2 ^ 31)
    {v : Int} (hv : 0 ≤ v) (hlt : v < 8 ^ w) (hv32 : v < 2 ^ 32) (m : Nat → UInt8) (a : Nat) :
    snprintf m a bufSize f [.int v] =
      some (copy m a (fun j => (octalField w v.toNat).getD j 0) (w + 1), (w : Int)) := by
  have hu : toUnsigned 32 v = v.toNat := by
    unfold toUnsigned
    rw [Int.emod_eq_of_lt hv hv32]
  have hcast : ((8 ^ w : Nat) : Int) = 8 ^ w := by simp
  have hlen := valueDigits_length_le (v := v.toNat) hw (by omega)
  have hfv := hf v
  rw [hu] at hfv
  have hout := formatInteger_zeroPad (b := baseO) rfl v.toNat w .int
  have hlenout : (formatInteger v.toNat false false baseO
      ⟨{ Flags.none with zero := true }, w, -1, .int⟩).length = w := by
    rw [hout]
    simp only [List.length_append, List.length_replicate, List.length_map, Int.toNat_natCast]
    omega
  have hbytes : ((formatInteger v.toNat false false baseO
      ⟨{ Flags.none with zero := true }, w, -1, .int⟩) ++ [Char.ofNat 0]).map Char.toUInt8 =
      octalField w v.toNat := by
    rw [hout]
    simp only [octalField, List.map_append, List.map_replicate, List.map_map, Int.toNat_natCast]
    rfl
  unfold snprintf
  rw [vsnprintf_spec hfv (by rw [hlenout]; exact hw') (by omega)]
  have hpos : bufSize > 0 := UInt32.lt_iff_toNat_lt.mpr (by simp; omega)
  have htake : ∀ l : List Char, l.length = w → l.take w = l := fun l hl => hl ▸ List.take_length
  rw [if_pos hpos, hbuf, Nat.add_sub_cancel, htake _ hlenout, Option.map_some]
  dsimp only
  rw [hbytes, List.length_append, List.length_singleton, hlenout]

end Octal

/-! ### The layout of a header -/

/-- What `ustar_parse_header` reads of a header `ustar_make_header` composes: `name`
terminated in its 100-byte field, the octal `size` and checksum, the type flag, the magic
and the version, and an empty prefix. -/
structure HeaderLayout (h : Nat → UInt8) (name : List UInt8) (type : UstarType) (size : Nat) :
    Prop where
  name : read h 0 100 = name ++ List.replicate (100 - name.length) 0
  size : read h 124 12 = octalField 11 size
  chksum : read h 148 8 = octalField 7 (calculateChksum h)
  typeflag : ((h 156).toNat : Int) = type.value
  magic : read h 257 6 = [117, 115, 116, 97, 114, 0]
  version : h 263 = 48 ∧ h 264 = 48
  prefixEmpty : h 345 = 0

section Parse

variable {h : Nat → UInt8} {name : List UInt8} {type : UstarType} {size : Nat}

theorem byte_of_read {a n : Nat} {l : List UInt8} (hr : read h a n = l) {j : Nat} (hj : j < n) :
    h (a + j) = l.getD j 0 := by
  rw [← hr]
  simp [Bytes.read, hj]

theorem HeaderLayout.isAllZeros_eq_false (hl : HeaderLayout h name type size) :
    isAllZeros (read h 0 512) = false := by
  have h257 : h (257 + 0) = 117 := by simpa using byte_of_read hl.magic (j := 0) (by omega)
  unfold isAllZeros
  rw [List.all_eq_false]
  refine ⟨h 257, ?_, by simp [h257]⟩
  simp only [Bytes.read, List.mem_map, List.mem_range]
  exact ⟨257, by omega, rfl⟩

theorem HeaderLayout.name_terminated (hl : HeaderLayout h name type size) (hname : name.length ≤ 99) :
    h 99 = 0 := by
  have h99 := byte_of_read hl.name (j := 99) (by omega)
  rw [Nat.zero_add] at h99
  rw [h99, getD_append_replicate, List.getD_eq_getElem?_getD, List.getElem?_eq_none (by omega)]
  rfl

theorem HeaderLayout.takeWhile_name (hl : HeaderLayout h name type size) (hname : name.length ≤ 99)
    (h0 : (0 : UInt8) ∉ name) : (read h 0 100).takeWhile (· != 0) = name := by
  obtain ⟨k, hk⟩ : ∃ k, 100 - name.length = k + 1 := ⟨99 - name.length, by omega⟩
  rw [hl.name, hk, List.takeWhile_append_of_pos, List.replicate_succ]
  · simp
  · intro c hc
    have : c ≠ 0 := fun hc0 => h0 (hc0 ▸ hc)
    simpa using this

theorem HeaderLayout.parse_chksum (hl : HeaderLayout h name type size) :
    parseOctalField h 148 8 = some (calculateChksum h) := by
  have := calculateChksum_le h
  unfold parseOctalField
  rw [hl.chksum]
  exact parseOctalLoop_octalField 7 (by omega)

theorem HeaderLayout.parse_size (hl : HeaderLayout h name type size) (hsize : size ≤ intMax) :
    parseOctalField h 124 12 = some size := by
  unfold intMax at hsize
  unfold parseOctalField
  rw [hl.size]
  exact parseOctalLoop_octalField 11 (by omega)

theorem HeaderLayout.typeflag_cases (hl : HeaderLayout h name type size) :
    h 156 = 48 ∧ type = .regular ∨ h 156 = 53 ∧ type = .directory := by
  have ht := hl.typeflag
  cases type with
  | regular =>
    left
    refine ⟨UInt8.toNat_inj.mp ?_, rfl⟩
    simp only [UstarType.value] at ht
    simp only [UInt8.reduceToNat]
    omega
  | directory =>
    right
    refine ⟨UInt8.toNat_inj.mp ?_, rfl⟩
    simp only [UstarType.value] at ht
    simp only [UInt8.reduceToNat]
    omega
  | eof =>
    simp only [UstarType.value] at ht
    omega

/-- `ustar_parse_header` reads a header with the layout back: the name stripped, the type,
and the size of a regular file. -/
theorem ustarParseHeader_of_layout (hl : HeaderLayout h name type size) (hname : name.length ≤ 99)
    (h0 : (0 : UInt8) ∉ name) (hsize : size ≤ intMax) :
    ustarParseHeader h =
      .ok (some (stripAntisocialPrefixes name), type, if type = .regular then (size : Int) else 0) := by
  unfold ustarParseHeader
  rw [if_neg (by simp [hl.isAllZeros_eq_false]), if_neg (by simp [hl.magic]),
    if_neg (by simp [hl.version.1, hl.version.2]), hl.parse_chksum]
  dsimp only
  rw [if_neg (not_not.mpr rfl), if_neg (by simp [hl.name_terminated hname, hl.prefixEmpty]),
    hl.takeWhile_name hname h0]
  rcases hl.typeflag_cases with ⟨h156, rfl⟩ | ⟨h156, rfl⟩
  · have hgt : ¬ size > intMax := by omega
    simp [h156, hl.parse_size hsize, hgt, Except.map]
  · simp [h156, Except.map]

end Parse

/-! ### Composing a header -/

section Make

variable {fileName : List UInt8} {type : UstarType} {size : Int}

/-- `ustar_make_header` composes a header with the layout, for a name whose stripped form
fits its field, a regular file or a directory, and a size of at most `INT_MAX`. -/
theorem ustarMakeHeader_layout (header : Nat → UInt8) (htype : type ≠ .eof)
    (hname : (stripAntisocialPrefixes fileName).length ≤ 99) (hsize : 0 ≤ size)
    (hsize' : size ≤ intMax) :
    ∃ h, ustarMakeHeader fileName type size header = some (.ok h) ∧
      HeaderLayout h (stripAntisocialPrefixes fileName) type size.toNat := by
  unfold intMax at hsize'
  have hf7 : ∀ v : Int, vprintf ['%', '0', '7', 'o'] [.int v] = some (formatInteger
      (toUnsigned 32 v) false false baseO ⟨{ Flags.none with zero := true }, 7, -1, .int⟩) := by
    intro v
    simp [vprintf, vprintfLoop, parseConversion, parseFlags, parseDigits, convert, vaArg, Arg.int?,
      unsignedValue, Flags.none]
  have hf11 : ∀ v : Int, vprintf ['%', '0', '1', '1', 'o'] [.int v] = some (formatInteger
      (toUnsigned 32 v) false false baseO ⟨{ Flags.none with zero := true }, 11, -1, .int⟩) := by
    intro v
    simp [vprintf, vprintfLoop, parseConversion, parseFlags, parseDigits, convert, vaArg, Arg.int?,
      unsignedValue, Flags.none]
  have h8 : (8 : UInt32).toNat = 7 + 1 := rfl
  have h12 : (12 : UInt32).toNat = 11 + 1 := rfl
  -- the four `snprintf` calls store their octal fields
  have hmode := snprintf_octal (w := 7) hf7 h8 (by omega) (by omega)
    (v := if type = .regular then 0o644 else 0o755) (by split <;> decide) (by split <;> decide)
    (by split <;> decide)
  have hsz := snprintf_octal (w := 11) hf11 h12 (by omega) (by omega) hsize (by norm_num; omega)
    (by norm_num; omega)
  have hmtime := snprintf_octal (w := 11) hf11 h12 (by omega) (by omega) (v := 1136102400)
    (by decide) (by decide) (by decide)
  have hchk : ∀ h m a, snprintf m a 8 ['%', '0', '7', 'o'] [.int (calculateChksum h)] =
      some (copy m a (fun j => (octalField 7 (calculateChksum h)).getD j 0) 8, 7) := by
    intro h m a
    have hc := calculateChksum_le h
    have h87 : (8 : Int) ^ 7 = 2097152 := by norm_num
    have h232 : (2 : Int) ^ 32 = 4294967296 := by norm_num
    have := snprintf_octal (w := 7) hf7 h8 (by omega) (by omega) (v := calculateChksum h) (by omega)
      (by omega) (by omega) m a
    rw [Int.toNat_natCast] at this
    exact this
  unfold ustarMakeHeader
  rw [if_neg htype]
  dsimp only
  rw [if_neg (by omega)]
  simp only [hmode, hsz, hmtime, hchk, Option.bind_eq_bind, Option.bind_some, Option.pure_def]
  refine ⟨_, rfl, ⟨?_, ?_, ?_, ?_, ?_, ⟨?_, ?_⟩, ?_⟩⟩
  -- each field is read through the writes after it, which are elsewhere
  · apply read_eq_of_getD (by simp; omega)
    intro j hj
    by_cases hjL : j ≤ (stripAntisocialPrefixes fileName).length
    · simp (disch := omega) only [copy_apply_of_lt, update_apply_of_ne, strlcpy_apply_of_lt,
        strlcpy_apply_add]
      rw [getD_append_replicate, ← List.replicate_one, getD_append_replicate]
    · simp (disch := omega) only [copy_apply_of_lt, copy_apply, update_apply_of_ne,
        strlcpy_apply_of_lt, strlcpy_apply_of_gt]
      rw [getD_append_replicate, List.getD_eq_getElem?_getD, List.getElem?_eq_none (by omega)]
      rfl
  · apply read_eq_of_getD (length_octalField (by omega) (by omega))
    intro j hj
    simp (disch := omega) only [copy_apply_of_lt, copy_apply, Nat.add_sub_cancel_left,
      update_apply_of_ne, strlcpy_apply_of_lt]
  · rw [calculateChksum_copy_chksum]
    apply read_eq_of_getD (length_octalField (by omega)
      (lt_of_le_of_lt (calculateChksum_le _) (by norm_num)))
    intro j hj
    simp (disch := omega) only [copy_apply, Nat.add_sub_cancel_left]
  · simp (disch := omega) only [copy_apply_of_ge, update_apply_self, update_apply_of_ne,
      strlcpy_apply_of_lt]
    cases type with
    | regular => decide
    | directory => decide
    | eof => exact absurd rfl htype
  · refine read_eq_of_getD (by rfl) fun j hj => ?_
    simp (disch := omega) only [copy_apply_of_ge, update_apply_of_ne, strlcpy_apply_of_lt]
    rw [strlcpy_apply_add (by decide) (by simp; omega)]
    rfl
  all_goals simp (disch := omega) only [copy_apply_of_ge, copy_apply, update_apply_self,
    update_apply_of_ne, strlcpy_apply_of_lt, strlcpy_apply_of_ge]

end Make

/-! ### The round trip -/

/-- Every header `ustar_parse_header` accepts, other than the end-of-archive block, carries its
checksum. -/
theorem chksum_of_ustarParseHeader {h : Nat → UInt8} {r : Option (List UInt8) × UstarType × Int}
    (hp : ustarParseHeader h = .ok r) :
    isAllZeros (read h 0 512) = true ∨ parseOctalField h 148 8 = some (calculateChksum h) := by
  by_cases hz : isAllZeros (read h 0 512) = true
  · exact .inl hz
  right
  unfold ustarParseHeader at hp
  rw [if_neg hz] at hp
  split at hp
  · cases hp
  split at hp
  · cases hp
  split at hp
  · cases hp
  · rename_i chksum hc
    by_cases hne : chksum = calculateChksum h
    · rw [hc, hne]
    · rw [if_pos hne] at hp
      cases hp

/-- For a name whose stripped form fits the name field, a regular file or a directory, and a
size of at most `INT_MAX`, `ustar_make_header` returns `true`, and `ustar_parse_header` of
its header succeeds with the stripped name, the type, and the size of a regular file or 0
for a directory. The name is a C string, so it holds no null byte. Besides,
`ustar_parse_header` accepts a header whose stored checksum is not its `calculate_chksum`
only when the header is all zeros, the end of the archive. -/
theorem ustar_header_round_trip {fileName : List UInt8} {type : UstarType} {size : Int}
    (header : Nat → UInt8) (h0 : (0 : UInt8) ∉ fileName)
    (hname : (stripAntisocialPrefixes fileName).length ≤ 99) (htype : type ≠ .eof)
    (hsize : 0 ≤ size) (hsize' : size ≤ intMax) :
    (∃ h, ustarMakeHeader fileName type size header = some (.ok h) ∧
      ustarParseHeader h = .ok (some (stripAntisocialPrefixes fileName), type,
        if type = .regular then size else 0)) ∧
    ∀ (h : Nat → UInt8) (r : Option (List UInt8) × UstarType × Int), ustarParseHeader h = .ok r →
      isAllZeros (read h 0 512) = true ∨ parseOctalField h 148 8 = some (calculateChksum h) := by
  obtain ⟨h, hmake, hl⟩ := ustarMakeHeader_layout header htype hname hsize hsize'
  refine ⟨⟨h, hmake, ?_⟩, fun _ _ hp => chksum_of_ustarParseHeader hp⟩
  have hsz : size.toNat ≤ intMax := by omega
  rw [ustarParseHeader_of_layout hl hname (zero_not_mem_stripAntisocialPrefixes h0) hsz,
    stripAntisocialPrefixes_idem, Int.toNat_of_nonneg hsize]

/-- `/a`, a regular file of 5 bytes, into a zeroed buffer. -/
theorem ustar_header_round_trip_slash_a :
    (0 : UInt8) ∉ [47, 97] ∧ (stripAntisocialPrefixes [47, 97]).length ≤ 99 ∧
      UstarType.regular ≠ .eof ∧ (0 : Int) ≤ 5 ∧ (5 : Int) ≤ intMax ∧
      ((∃ h, ustarMakeHeader [47, 97] .regular 5 (fun _ => 0) = some (.ok h) ∧
        ustarParseHeader h = .ok (some (stripAntisocialPrefixes [47, 97]), .regular,
          if UstarType.regular = .regular then 5 else 0)) ∧
      ∀ (h : Nat → UInt8) (r : Option (List UInt8) × UstarType × Int), ustarParseHeader h = .ok r →
        isAllZeros (read h 0 512) = true ∨ parseOctalField h 148 8 = some (calculateChksum h)) :=
  ⟨by decide, by decide, by decide, by decide, by decide,
    ustar_header_round_trip (fun _ => 0) (by decide) (by decide) (by decide) (by decide) (by decide)⟩

set_option maxRecDepth 8000 in
/-- The end-of-archive block: `ustar_parse_header` accepts it, yet its `chksum` field does not
parse and `calculate_chksum` of it is 256. -/
theorem ustar_parse_header_accepts_zero_block :
    ustarParseHeader (fun _ => 0) = .ok (none, .eof, 0) ∧
      parseOctalField (fun _ => 0) 148 8 = none ∧ calculateChksum (fun _ => 0) = 256 := by
  have hz : isAllZeros (read (fun _ => 0) 0 512) = true := by
    unfold isAllZeros
    rw [List.all_eq_true]
    intro x hx
    obtain ⟨_, _, rfl⟩ := List.mem_map.mp hx
    rfl
  refine ⟨?_, by rfl, by decide⟩
  unfold ustarParseHeader
  rw [if_pos hz]

end Pintos.Libc

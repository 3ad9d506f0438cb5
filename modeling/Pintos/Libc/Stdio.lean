import Mathlib
import Pintos.Lib.Bytes

/-!
# Formatted output (`lib/stdio.c`)

`__vprintf` walks the format. It copies literal characters, and reads each
conversion with `parse_conversion`: flags, a field width and a precision (digits
or `*`), and a length modifier. It then renders the conversion's argument with
`format_integer` or `format_string`. `vsnprintf` passes each character to
`vsnprintf_helper`, which stores the first `buf_size - 1` and counts all of them.

The model renders the whole output as a list of characters (`vprintf`), and
`vsnprintf` folds `vsnprintf_helper` over it. The format is the string before
its null terminator. The `va_list` is a list of `Arg`s, and `va_arg` of an
integer type reads the next integer argument converted to that type. `none` is
undefined behaviour: a missing argument, one of the wrong kind, or a `%` at the
end of the format, after which `__vprintf` reads past the terminator. `int`
counts are `Int`, exact below `2 ^ 31` characters. `size_t` is 32 bits.

`vsnprintf` stores the first `buf_size - 1` characters of the rendering, a null
terminator after them, and returns the rendering's length, for every `buf_size`
up to `2 ^ 31` and a rendering shorter than `2 ^ 31` characters, below which its
`int` count does not wrap (`vsnprintf_spec`). The integer conversions break the layout the
comments promise in three ways (`vsnprintf_integer_layout_breaks`):
* the zeros for a precision fill a 64-byte buffer only up to 63 characters;
* the commas of the `'` flag count toward the precision;
* a negative `*` width sets `-` without clearing `0`, so the field is padded on
  both sides.
-/

namespace Pintos.Libc

/-- The flags of a `struct printf_conversion`, one field for each bit. -/
structure Flags where
  minus : Bool
  plus : Bool
  space : Bool
  pound : Bool
  zero : Bool
  group : Bool
  deriving DecidableEq, Repr

/-- No flag set. -/
def Flags.none : Flags := ⟨false, false, false, false, false, false⟩

/-- The `type` of a `struct printf_conversion`, from the length modifier. -/
inductive ArgType
  | char | short | int | intmax | long | longlong | ptrdifft | sizet
  deriving DecidableEq, Repr

/-- `struct printf_conversion`; a `precision` of -1 is no precision. -/
structure PrintfConversion where
  flags : Flags
  width : Int
  precision : Int
  type : ArgType
  deriving DecidableEq, Repr

/-- `struct integer_base`, with what its four instances satisfy: a base of at
least 2 and one digit for each value below it. -/
structure IntegerBase where
  base : Nat
  digits : List Char
  x : Option Char
  group : Nat
  base_ge : 2 ≤ base
  digits_length : digits.length = base

/-- `base_d`. -/
def baseD : IntegerBase :=
  ⟨10, ['0', '1', '2', '3', '4', '5', '6', '7', '8', '9'], none, 3, by decide, rfl⟩

/-- `base_o`. -/
def baseO : IntegerBase := ⟨8, ['0', '1', '2', '3', '4', '5', '6', '7'], none, 3, by decide, rfl⟩

/-- `base_x`. -/
def baseX : IntegerBase :=
  ⟨16, ['0', '1', '2', '3', '4', '5', '6', '7', '8', '9', 'a', 'b', 'c', 'd', 'e', 'f'],
    some 'x', 4, by decide, rfl⟩

/-- `base_X`. -/
def baseUpperX : IntegerBase :=
  ⟨16, ['0', '1', '2', '3', '4', '5', '6', '7', '8', '9', 'A', 'B', 'C', 'D', 'E', 'F'],
    some 'X', 4, by decide, rfl⟩

/-- A variadic argument as `va_arg` reads it: an integer, of the type it was
passed as; a string, `none` for a null pointer; or a pointer. -/
inductive Arg
  | int (v : Int)
  | str (s : Option (List Char))
  | ptr (p : Nat)
  deriving DecidableEq, Repr

def Arg.int? : Arg → Option Int
  | .int v => some v
  | _ => none

def Arg.str? : Arg → Option (Option (List Char))
  | .str s => some s
  | _ => none

def Arg.ptr? : Arg → Option Nat
  | .ptr p => some p
  | _ => none

/-- `va_arg (args, T)`: the next argument, read by `read` as a `T`. -/
def vaArg {β : Type} (read : Arg → Option β) : List Arg → Option (β × List Arg)
  | [] => none
  | a :: args => (read a).map fun v => (v, args)

/-- An integer converted to a signed type of `n` bits. -/
def toSigned (n : Nat) (v : Int) : Int := v.bmod (2 ^ n)

/-- An integer converted to an unsigned type of `n` bits. -/
def toUnsigned (n : Nat) (v : Int) : Nat := (v % 2 ^ n).toNat

/-- The value of a `%d` or `%i` argument of each type, as an `intmax_t`. -/
def signedValue (type : ArgType) (v : Int) : Int :=
  match type with
  | .char => toSigned 8 (toSigned 32 v)
  | .short => toSigned 16 (toSigned 32 v)
  | .int => toSigned 32 v
  | .intmax => toSigned 64 v
  | .long => toSigned 32 v
  | .longlong => toSigned 64 v
  | .ptrdifft => toSigned 32 v
  | .sizet =>
    -- `value = va_arg (args, size_t); if (value > SIZE_MAX / 2) value = value - SIZE_MAX - 1;`
    if toUnsigned 32 v > (2 ^ 32 - 1) / 2 then (toUnsigned 32 v : Int) - (2 ^ 32 - 1) - 1
    else toUnsigned 32 v

/-- The value of a `%o`, `%u`, `%x` or `%X` argument of each type, as a
`uintmax_t`. -/
def unsignedValue (type : ArgType) (v : Int) : Nat :=
  match type with
  | .char => toUnsigned 8 (toUnsigned 32 v)
  | .short => toUnsigned 16 (toUnsigned 32 v)
  | .int => toUnsigned 32 v
  | .intmax => toUnsigned 64 v
  | .long => toUnsigned 32 v
  | .longlong => toUnsigned 64 v
  | .ptrdifft => toUnsigned 64 (toSigned 32 v) &&& ((2 ^ 31 - 1) <<< 1 ||| 1)
  | .sizet => toUnsigned 32 v

/-- The flag loop of `parse_conversion`. -/
def parseFlags (flags : Flags) : List Char → Flags × List Char
  | [] => (flags, [])
  | ch :: format =>
    if ch = '-' then parseFlags { flags with minus := true } format
    else if ch = '+' then parseFlags { flags with plus := true } format
    else if ch = ' ' then parseFlags { flags with space := true } format
    else if ch = '#' then parseFlags { flags with pound := true } format
    else if ch = '0' then parseFlags { flags with zero := true } format
    -- the apostrophe, `'\''`
    else if ch = Char.ofNat 39 then parseFlags { flags with group := true } format
    else (flags, ch :: format)

/-- `for (; isdigit (*format); format++) n = n * 10 + *format - '0';` -/
def parseDigits (n : Int) : List Char → Int × List Char
  | [] => (n, [])
  | ch :: format =>
    if ch.isDigit then parseDigits (n * 10 + ((ch.toNat : Int) - '0'.toNat)) format
    else (n, ch :: format)

/-- `parse_conversion (format, c, args)`: the conversion, the format from its
conversion character on, and the arguments left. -/
def parseConversion (format : List Char) (args : List Arg) :
    Option (PrintfConversion × List Char × List Arg) := do
  let (flags, format) := parseFlags Flags.none format
  let flags := if flags.minus then { flags with zero := false } else flags
  let flags := if flags.plus then { flags with space := false } else flags
  let (width, format, args) ← match format with
    | '*' :: format => (vaArg Arg.int? args).map fun (w, args) => (toSigned 32 w, format, args)
    | format => some ((parseDigits 0 format).1, (parseDigits 0 format).2, args)
  let (width, flags) := if width < 0 then (-width, { flags with minus := true }) else (width, flags)
  let (precision, format, args) ← match format with
    | '.' :: '*' :: format =>
      (vaArg Arg.int? args).map fun (p, args) => (toSigned 32 p, format, args)
    | '.' :: format => some ((parseDigits 0 format).1, (parseDigits 0 format).2, args)
    | format => some (-1, format, args)
  let precision := if precision < 0 then -1 else precision
  let flags := if precision ≥ 0 then { flags with zero := false } else flags
  let (type, format) := match format with
    | 'h' :: 'h' :: format => (ArgType.char, format)
    | 'h' :: format => (ArgType.short, format)
    | 'j' :: format => (ArgType.intmax, format)
    | 'l' :: 'l' :: format => (ArgType.longlong, format)
    | 'l' :: format => (ArgType.long, format)
    | 't' :: format => (ArgType.ptrdifft, format)
    | 'z' :: format => (ArgType.sizet, format)
    | format => (ArgType.int, format)
  some (⟨flags, width, precision, type⟩, format, args)

/-- The digit loop of `format_integer`, for at most `fuel` digits: `buf` gets
the digits of `value`, least significant first, with a comma before each
`group`-th one when grouping. -/
def digitLoop (b : IntegerBase) (group : Bool) : Nat → Nat → Nat → List Char → List Char
  | 0, _, _, buf => buf
  | fuel + 1, value, digitCnt, buf =>
    if value > 0 then
      let buf := if group && digitCnt > 0 && digitCnt % b.group == 0 then buf ++ [','] else buf
      digitLoop b group fuel (value / b.base) (digitCnt + 1) (buf ++ [b.digits.getD (value % b.base) '0'])
    else buf

/-- `while (cp - buf < precision && cp < buf + sizeof buf - 1) *cp++ = '0';`,
at most the 63 characters left in `buf`. -/
def zeroFill (precision : Int) : Nat → List Char → List Char
  | 0, buf => buf
  | fuel + 1, buf =>
    if (buf.length : Int) < precision ∧ buf.length < 64 - 1 then zeroFill precision fuel (buf ++ ['0'])
    else buf

/-- `format_integer (value, is_signed, negative, b, c, output, aux)`: `buf`
holds the characters in reverse, and the output is the padding, the sign, the
`0x`, the zero padding and `buf` read backwards. -/
def formatInteger (value : Nat) (isSigned negative : Bool) (b : IntegerBase)
    (c : PrintfConversion) : List Char :=
  let sign : Option Char :=
    if isSigned then
      if c.flags.plus then some (if negative then '-' else '+')
      else if c.flags.space then some (if negative then '-' else ' ')
      else if negative then some '-' else none
    else none
  let x : Option Char := if c.flags.pound && value ≠ 0 then b.x else none
  let buf := digitLoop b c.flags.group value value 0 []
  let precision : Int := if c.precision < 0 then 1 else c.precision
  let buf := zeroFill precision (64 - 1) buf
  let buf := if c.flags.pound && b.base = 8 && buf.getLast? ≠ some '0' then buf ++ ['0'] else buf
  let padCnt : Int :=
    c.width - buf.length - (if x.isSome then 2 else 0) - (if sign.isSome then 1 else 0)
  let padCnt := if padCnt < 0 then 0 else padCnt
  (if !c.flags.minus && !c.flags.zero then List.replicate padCnt.toNat ' ' else []) ++
    sign.toList ++ (x.map fun x => ['0', x]).getD [] ++
    (if c.flags.zero then List.replicate padCnt.toNat '0' else []) ++ buf.reverse ++
    (if c.flags.minus then List.replicate padCnt.toNat ' ' else [])

/-- `format_string (string, length, c, output, aux)`. -/
def formatString (string : List Char) (length : Nat) (c : PrintfConversion) : List Char :=
  (if c.width > length ∧ !c.flags.minus then List.replicate (c.width - length).toNat ' ' else []) ++
    string.take length ++
    (if c.width > length ∧ c.flags.minus then List.replicate (c.width - length).toNat ' ' else [])

/-- `strnlen (string, maxlen)` of `lib/string.c`. -/
def strnlen (string : List Char) (maxlen : Nat) : Nat := min string.length maxlen

/-- The `switch (*format)` of `__vprintf` on the conversion character `conv`: the
output and the arguments left. `printf` prints the messages for the conversions
it does not support, as the nested `__printf`. -/
def convert (printf : List Char → List Arg → Option (List Char)) (c : PrintfConversion)
    (conv : Char) (args : List Arg) : Option (List Char × List Arg) :=
  match conv with
  | 'd' | 'i' => (vaArg Arg.int? args).map fun (v, args) =>
    (formatInteger (signedValue c.type v).natAbs true (signedValue c.type v < 0) baseD c, args)
  | 'o' => (vaArg Arg.int? args).map fun (v, args) =>
    (formatInteger (unsignedValue c.type v) false false baseO c, args)
  | 'u' => (vaArg Arg.int? args).map fun (v, args) =>
    (formatInteger (unsignedValue c.type v) false false baseD c, args)
  | 'x' => (vaArg Arg.int? args).map fun (v, args) =>
    (formatInteger (unsignedValue c.type v) false false baseX c, args)
  | 'X' => (vaArg Arg.int? args).map fun (v, args) =>
    (formatInteger (unsignedValue c.type v) false false baseUpperX c, args)
  | 'c' => (vaArg Arg.int? args).map fun (v, args) =>
    (formatString [Char.ofNat (toUnsigned 8 v)] 1 c, args)
  | 's' => (vaArg Arg.str? args).map fun (s, args) =>
    -- a precision of -1 is `SIZE_MAX` as the `maxlen` of `strnlen`
    (formatString (s.getD "(null)".toList)
      (strnlen (s.getD "(null)".toList) (if c.precision < 0 then 2 ^ 32 - 1 else c.precision.toNat))
      c, args)
  | 'p' => (vaArg Arg.ptr? args).map fun (p, args) =>
    (formatInteger (p % 2 ^ 32) false false baseX
      { c with flags := { Flags.none with pound := true } }, args)
  | 'f' | 'e' | 'E' | 'g' | 'G' | 'n' =>
    (printf "<<no %%%c in kernel>>".toList [.int conv.toNat]).map fun out => (out, args)
  | _ => (printf "<<no %%%c conversion>>".toList [.int conv.toNat]).map fun out => (out, args)

/-- The loop of `__vprintf`, for at most `fuel` characters of the format. -/
def vprintfLoop (printf : List Char → List Arg → Option (List Char)) :
    Nat → List Char → List Arg → Option (List Char)
  | 0, _, _ => none
  | _ + 1, [], _ => some []
  | fuel + 1, ch :: format, args =>
    if ch = Char.ofNat 0 then some []
    else if ch ≠ '%' then (vprintfLoop printf fuel format args).map (ch :: ·)
    else match format with
      | '%' :: format => (vprintfLoop printf fuel format args).map ('%' :: ·)
      | format => (parseConversion format args).bind fun (c, format, args) =>
        match format with
        -- the conversion character is the terminator, and `format++` leaves the string
        | [] => none
        | conv :: format =>
          if conv = Char.ofNat 0 then none
          else (convert printf c conv args).bind fun (out, args) =>
            (vprintfLoop printf fuel format args).map (out ++ ·)

/-- The nested `__printf` of the messages for conversions `__vprintf` does not
support. -/
def printfMessage (format : List Char) (args : List Arg) : Option (List Char) :=
  vprintfLoop (fun _ _ => none) (format.length + 1) format args

/-- `__vprintf (format, args, output, aux)`: every character passed to
`output`, in order. -/
def vprintf (format : List Char) (args : List Arg) : Option (List Char) :=
  vprintfLoop printfMessage (format.length + 1) format args

/-- `struct vsnprintf_aux`: `p` as the characters stored from `buffer` on. -/
structure VsnprintfAux where
  p : List Char
  length : Int
  maxLength : Int

/-- `vsnprintf_helper (ch, aux)`: `aux->length++ < aux->max_length` on an `int`,
which wraps past `INT_MAX`. -/
def vsnprintfHelper (aux : VsnprintfAux) (ch : Char) : VsnprintfAux :=
  if aux.length < aux.maxLength then
    { aux with p := aux.p ++ [ch], length := (aux.length + 1).bmod (2 ^ 32) }
  else { aux with length := (aux.length + 1).bmod (2 ^ 32) }

/-- `vsnprintf (buffer, buf_size, format, args)`: what it stores from `buffer`
on, and what it returns. `buf_size - 1`, a `size_t`, becomes the `int`
`max_length`. -/
def vsnprintf (bufSize : UInt32) (format : List Char) (args : List Arg) :
    Option (List Char × Int) :=
  (vprintf format args).map fun out =>
    let aux := out.foldl vsnprintfHelper
      ⟨[], 0, if bufSize > 0 then ((bufSize - 1).toNat : Int).bmod (2 ^ 32) else 0⟩
    (if bufSize > 0 then aux.p ++ [Char.ofNat 0] else aux.p, aux.length)

/-- `snprintf (buffer, buf_size, format, ...)`: the memory with what
`vsnprintf` stores written from `buffer` on, one `char` for each character, and
what it returns. -/
def snprintf (m : Nat → UInt8) (buffer : Nat) (bufSize : UInt32) (format : List Char)
    (args : List Arg) : Option ((Nat → UInt8) × Int) :=
  (vsnprintf bufSize format args).map fun (out, n) =>
    (Bytes.copy m buffer (fun j => (out.map Char.toUInt8).getD j 0) out.length, n)

/-- An `int` count below `INT_MAX` does not wrap. -/
theorem bmod_int_of_lt {x : Int} (h0 : 0 ≤ x) (h : x < 2 ^ 31) : x.bmod (2 ^ 32) = x := by
  rw [Int.bmod_eq_emod_of_lt] <;> omega

/-- `vsnprintf_helper` folded over characters from a count `length ≥ 0` that
stays below `2 ^ 31`: it stores the first `max_length - length` of them and
counts them all. -/
theorem foldl_vsnprintfHelper :
    ∀ (out : List Char) (aux : VsnprintfAux), 0 ≤ aux.length →
      aux.length + out.length < 2 ^ 31 →
      out.foldl vsnprintfHelper aux =
        ⟨aux.p ++ out.take (aux.maxLength - aux.length).toNat, aux.length + out.length,
          aux.maxLength⟩
  | [], aux, _, _ => by simp
  | ch :: out, aux, hlen, hfit => by
    simp only [List.length_cons, Nat.cast_add, Nat.cast_one] at hfit
    rw [List.foldl_cons, vsnprintfHelper, bmod_int_of_lt (by omega) (by omega)]
    split
    · -- there is room: `ch` is stored
      rename_i hroom
      rw [foldl_vsnprintfHelper out _ (by dsimp only; omega) (by dsimp only; omega)]
      have hk : (aux.maxLength - aux.length).toNat = (aux.maxLength - (aux.length + 1)).toNat + 1 := by
        omega
      simp only [hk, List.take_succ_cons, List.append_assoc, List.singleton_append,
        List.length_cons, VsnprintfAux.mk.injEq, and_true, true_and]
      omega
    · -- the buffer is full: `ch` is only counted
      rw [foldl_vsnprintfHelper out _ (by dsimp only; omega) (by dsimp only; omega)]
      have hk : (aux.maxLength - aux.length).toNat = 0 := by omega
      have hk' : (aux.maxLength - (aux.length + 1)).toNat = 0 := by omega
      simp only [hk, hk', List.take_zero, List.append_nil, List.length_cons,
        VsnprintfAux.mk.injEq, true_and, and_true]
      omega

theorem maxLength_of_le {bufSize : UInt32} (hpos : 0 < bufSize) (hsize : bufSize.toNat ≤ 2 ^ 31) :
    ((bufSize - 1).toNat : Int).bmod (2 ^ 32) = bufSize.toNat - 1 := by
  have hpos' : 0 < bufSize.toNat := by simpa using UInt32.lt_iff_toNat_lt.mp hpos
  have hone : (1 : UInt32) ≤ bufSize := UInt32.le_iff_toNat_le.mpr (by simp; omega)
  rw [UInt32.toNat_sub_of_le _ _ hone, Int.bmod_eq_emod_of_lt]
  · simp only [UInt32.toNat_one]
    omega
  · simp only [UInt32.toNat_one]
    omega

/-- **`vsnprintf` is a bounded `__vprintf`** while its `int` count does not
wrap: for a rendering shorter than `2 ^ 31` characters and a `buf_size` up to
`2 ^ 31`, it stores the first `buf_size - 1` characters of the rendering and a
null terminator after them, nothing when `buf_size` is 0, and returns the length
of the whole rendering. -/
theorem vsnprintf_spec {format : List Char} {args : List Arg} {out : List Char}
    (h : vprintf format args = some out) (hlen : out.length < 2 ^ 31) {bufSize : UInt32}
    (hsize : bufSize.toNat ≤ 2 ^ 31) :
    vsnprintf bufSize format args =
      some (if bufSize > 0 then out.take (bufSize.toNat - 1) ++ [Char.ofNat 0] else [],
        (out.length : Int)) := by
  -- from a count of 0 the rendering never takes the count past `INT_MAX`
  have hfold : ∀ m : Int, out.foldl vsnprintfHelper ⟨[], 0, m⟩ =
      ⟨[] ++ out.take (m - 0).toNat, 0 + out.length, m⟩ := fun m =>
    foldl_vsnprintfHelper out ⟨[], 0, m⟩ (Int.le_refl 0) (by dsimp only; omega)
  unfold vsnprintf
  rw [h, Option.map_some]
  by_cases hpos : bufSize > 0
  · rw [if_pos hpos, maxLength_of_le hpos hsize, hfold]
    simp only [hpos, if_true, List.nil_append, Int.zero_add]
    congr
    omega
  · rw [if_neg hpos, hfold]
    simp [hpos]

/-- `x=%d` of 42 into a buffer of 3 characters. -/
theorem vsnprintf_spec_three :
    vprintf ['x', '=', '%', 'd'] [.int 42] = some ['x', '=', '4', '2'] ∧
      (3 : UInt32).toNat ≤ 2 ^ 31 ∧
      vsnprintf 3 ['x', '=', '%', 'd'] [.int 42] =
        some (if (3 : UInt32) > 0 then ['x', '=', '4', '2'].take ((3 : UInt32).toNat - 1) ++
            [Char.ofNat 0] else [],
          ((['x', '=', '4', '2'] : List Char).length : Int)) := by
  have h : vprintf ['x', '=', '%', 'd'] [.int 42] = some ['x', '=', '4', '2'] := by decide
  exact ⟨h, by decide, vsnprintf_spec h (by decide) (by decide)⟩

/-- **The integer conversions break their layout.** `"%.100d"` of 5 renders 63
characters, 62 zeros and the 5, where the precision asks for 100 digits. The
64-byte buffer of `format_integer` stops the zeros at 63 characters.
`"%'.7d"` of 12345 renders `012,345`, six digits, because the comma counts toward
the precision. `"%0*d"` of -5 and 42 renders `00042   `, 8 characters for a
field of width 5: the negative `*` width sets `-` after `parse_conversion` cleared
`0` for `-`, and `format_integer` pads on both sides. `vsnprintf` with a
`buf_size` of `2 ^ 31 + 1` stores nothing of `abc` before the terminator, because
`max_length` is negative as an `int`. -/
theorem vsnprintf_integer_layout_breaks :
    vprintf ['%', '.', '1', '0', '0', 'd'] [.int 5] = some (List.replicate 62 '0' ++ ['5']) ∧
      vprintf ['%', Char.ofNat 39, '.', '7', 'd'] [.int 12345] =
        some ['0', '1', '2', ',', '3', '4', '5'] ∧
      vprintf ['%', '0', '*', 'd'] [.int (-5), .int 42] =
        some ['0', '0', '0', '4', '2', ' ', ' ', ' '] ∧
      vsnprintf (2 ^ 31 + 1) ['a', 'b', 'c'] [] = some ([Char.ofNat 0], 3) := by
  refine ⟨by decide, by decide, by decide, by decide⟩

/-! ### Zero-padded integers -/

/-- The digits `format_integer` renders for `value` in base `b` with the
default precision, most significant first: those of `value`, and one 0 for 0. -/
def IntegerBase.valueDigits (b : IntegerBase) (value : Nat) : List Nat :=
  if value = 0 then [0] else (Nat.digits b.base value).reverse

/-- Without grouping, the digit loop appends the digits of `value`, least
significant first, once its fuel covers them. -/
theorem digitLoop_of_le (b : IntegerBase) :
    ∀ fuel value digitCnt buf, value ≤ fuel →
      digitLoop b false fuel value digitCnt buf =
        buf ++ (Nat.digits b.base value).map (b.digits.getD · '0')
  | 0, value, _, buf, h => by
    rw [Nat.le_zero.mp h, Nat.digits_zero]
    simp only [digitLoop, List.map_nil, List.append_nil]
  | fuel + 1, value, digitCnt, buf, h => by
    have hb := b.base_ge
    by_cases hv : 0 < value
    · have hdiv : value / b.base ≤ fuel := by
        have := Nat.div_lt_self hv (by omega : 1 < b.base)
        omega
      simp only [digitLoop, gt_iff_lt, hv, if_true, Bool.false_and, Bool.false_eq_true, if_false]
      rw [digitLoop_of_le b fuel _ _ _ hdiv, Nat.digits_def' (by omega) hv]
      simp
    · rw [Nat.eq_zero_of_not_pos hv, Nat.digits_zero]
      simp [digitLoop]

/-- The zeros for a precision: up to the precision, and at most 63 characters. -/
theorem zeroFill_eq (precision : Int) :
    ∀ fuel buf, 63 ≤ buf.length + fuel →
      zeroFill precision fuel buf = buf ++ List.replicate (min precision.toNat 63 - buf.length) '0'
  | 0, buf, h => by
    have hk : min precision.toNat 63 - buf.length = 0 := by omega
    simp only [zeroFill, hk, List.replicate_zero, List.append_nil]
  | fuel + 1, buf, h => by
    rw [zeroFill]
    split
    · rename_i hlt
      rw [zeroFill_eq precision fuel _ (by simp; omega), List.append_assoc]
      have hk : min precision.toNat 63 - buf.length = min precision.toNat 63 - (buf.length + 1) + 1 := by
        omega
      simp only [List.length_append, List.length_singleton, hk, List.replicate_succ,
        List.singleton_append]
    · rename_i hge
      have hk : min precision.toNat 63 - buf.length = 0 := by omega
      simp only [hk, List.replicate_zero, List.append_nil]

/-- A conversion with only the `0` flag, no precision, of a value of an unsigned
conversion: zeros up to the field width, then the digits. -/
theorem formatInteger_zeroPad {b : IntegerBase} (h0 : b.digits.getD 0 '0' = '0') (value : Nat)
    (w : Int) (t : ArgType) :
    formatInteger value false false b ⟨{ Flags.none with zero := true }, w, -1, t⟩ =
      List.replicate (w.toNat - (b.valueDigits value).length) '0' ++
        (b.valueDigits value).map (b.digits.getD · '0') := by
  have hbuf : zeroFill 1 63 (digitLoop b false value value 0 []) =
      ((b.valueDigits value).map (b.digits.getD · '0')).reverse := by
    rw [digitLoop_of_le b value value 0 [] le_rfl, zeroFill_eq 1 _ _ (by omega), List.nil_append]
    by_cases hv : value = 0
    · subst hv
      simpa [IntegerBase.valueDigits] using h0.symm
    · have hlen : 1 ≤ (Nat.digits b.base value).length :=
        List.length_pos_iff.mpr (Nat.digits_ne_nil_iff_ne_zero.mpr hv)
      have hk : min (1 : Int).toNat 63 - ((Nat.digits b.base value).map (b.digits.getD · '0')).length = 0 := by
        simp only [List.length_map]
        omega
      simp only [hk, List.replicate_zero, List.append_nil, IntegerBase.valueDigits, hv, if_false,
        List.map_reverse, List.reverse_reverse]
  have hpad : ∀ n : Nat, (if w < n then 0 else w - n).toNat = w.toNat - n := by
    intro n
    split <;> omega
  simp [formatInteger, Flags.none, hbuf, hpad]

end Pintos.Libc

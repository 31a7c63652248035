import Mathlib.Data.Nat.Notation
import Mathlib.Algebra.Group.Int.Defs
import Mathlib.Algebra.Group.Nat.Defs
import Mathlib.Tactic.Common

/-!
# `userspace/libc/src/printf.c`: `writeFillChars`, `writeNumber` and `printf`

The format is the memory from the pointer on, up to where it cannot be read any more; a zero ends the format.
The characters that `writeFloat` writes are a parameter.
-/

namespace KPanic.Printf

inductive Stop
  /-- A store outside the output buffer. -/
  | buffer
  /-- A store outside `tmp`. -/
  | tmp
  /-- A read behind the memory of the format. -/
  | format
  | passes
  deriving DecidableEq

/-- What is written from `start` up to `ptr`, which is `length` characters, and the allocated size. -/
structure CString where
  chars : List UInt8
  size : ℕ

/-- `*output_string->ptr++ = c; ++output_string->length;` -/
def CString.put (output_string : CString) (c : UInt8) : Except Stop CString :=
  if output_string.chars.length < output_string.size then
    .ok { output_string with chars := output_string.chars ++ [c] }
  else .error .buffer

/-- pad with zero -/
def ZEROPAD : UInt8 := 1

/-- unsigned/signed long -/
def SIGN : UInt8 := 2

/-- show plus -/
def PLUS : UInt8 := 4

/-- space if plus -/
def SPACE : UInt8 := 8

/-- left justified -/
def LEFT : UInt8 := 16

/-- 0x -/
def SPECIAL : UInt8 := 32

/-- use 'ABCDEF' instead of 'abcdef' -/
def LARGE : UInt8 := 64

/-- sizeof(number) == sizeof(size_t) -/
def LONG : UInt8 := 128

def has (type flag : UInt8) : Bool := (type &&& flag) != 0

/-- The loop of `writeFillChars`, and the fill loops of `writeNumber`. -/
def writeFill (fill : UInt8) : ℕ → CString → Except Stop CString
  | 0, output_string => .ok output_string
  | size + 1, output_string => do writeFill fill size (← output_string.put fill)

def writeFillChars (output_string : CString) (size : Int) (fill : UInt8) : Except Stop CString :=
  writeFill fill size.toNat output_string

/-! ### `writeNumber` -/

def small_digits : List UInt8 := "0123456789abcdefghijklmnopqrstuvwxyz".toList.map Char.toUInt8

def large_digits : List UInt8 := "0123456789ABCDEFGHIJKLMNOPQRSTUVWXYZ".toList.map Char.toUInt8

/-- `tmp[i++] = c`; `tmp` has what is stored up to `i`. -/
def store (tmp : List UInt8) (c : UInt8) : Except Stop (List UInt8) :=
  if tmp.length < 70 then .ok (tmp ++ [c]) else .error .tmp

/-- The sign, and the number without it. -/
def signOf (number : BitVec 64) (type : UInt8) : Option UInt8 × BitVec 64 :=
  if has type SIGN then
    if has type LONG ∧ number.toInt < 0 then (some 45, -number)
    else if ¬has type LONG ∧ (number.setWidth 32).toInt < 0 then (some 45, (-number.setWidth 32).signExtend 64)
    else if has type PLUS then (some 43, number)
    else if has type SPACE then (some 32, number)
    else (none, number)
  else (none, number)

/-- The loop over the digits; pass 71 would store outside `tmp`. -/
def storeDigits (digits : List UInt8) (base : ℕ) : ℕ → ℕ → List UInt8 → Except Stop (List UInt8)
  | passes, number, tmp =>
    if number = 0 then .ok tmp
    else
      match passes with
      | 0 => .error .tmp
      | passes + 1 => do storeDigits digits base passes (number / base) (← store tmp (digits.getD (number % base) 0))

def storeMagnitude (digits : List UInt8) (base : ℕ) (number : BitVec 64) : Except Stop (List UInt8) :=
  if number = 0 then store [] 48 else storeDigits digits base 70 number.toNat []

def storeSign (tmp : List UInt8) : Option UInt8 → Except Stop (List UInt8)
  | none => .ok tmp
  | some sign => store tmp sign

def storePrefix (digits : List UInt8) (base : ℕ) (type : UInt8) (tmp : List UInt8) : Except Stop (List UInt8) :=
  if has type SPECIAL ∧ base = 8 then store tmp 48
  else if has type SPECIAL ∧ base = 16 then do store (← store tmp (digits.getD 33 0)) 48
  else .ok tmp

/-- The digits, the sign and the prefix, the last one first. -/
def reversed (digits : List UInt8) (number : BitVec 64) (base : ℕ) (type : UInt8) : Except Stop (List UInt8) := do
  let (sign, number) := signOf number type
  let tmp ← storeMagnitude digits base number
  let tmp ← storeSign tmp sign
  storePrefix digits base type tmp

/-- `while (size-- - precision > i)`; the precision is not above the size, so nothing wraps. -/
def writePadding (c : UInt8) (precision i : ℕ) : ℕ → CString → Except Stop CString
  | 0, output_string => .ok output_string
  | size + 1, output_string =>
    if size + 1 - precision > i then do writePadding c precision i size (← output_string.put c)
    else .ok output_string

/-- `while (precision-- > i)` -/
def writeZeros (i : ℕ) : ℕ → CString → Except Stop CString
  | 0, output_string => .ok output_string
  | precision + 1, output_string =>
    if precision + 1 > i then do writeZeros i precision (← output_string.put 48) else .ok output_string

/-- `while (i-- > 0)`, over what is to be written. -/
def writeChars : List UInt8 → CString → Except Stop CString
  | [], output_string => .ok output_string
  | c :: chars, output_string => do writeChars chars (← output_string.put c)

def writeNumber (output_string : CString) (number : BitVec 64) (base size precision : ℕ) (type : UInt8) :
    Except Stop CString := do
  let digits := if has type LARGE then large_digits else small_digits
  let size := if has type LEFT then 0 else size
  let type := if has type LEFT then type &&& ~~~ZEROPAD else type
  if base < 2 ∨ base > 36 then .ok output_string
  else
    let c := if has type ZEROPAD then 48 else 32
    let tmp ← reversed digits number base type
    let precision := if has type SPECIAL then 0 else precision
    let precision := if precision > size then size else precision
    let output_string ← writePadding c precision tmp.length size output_string
    let output_string ← writeZeros tmp.length precision output_string
    writeChars tmp.reverse output_string

/-! ### `printf` -/

/-- An argument, as the conversion takes it: a number, a string without its zero, or the bits of a `double`. -/
structure Arg where
  number : BitVec 64
  string : List UInt8
  float : BitVec 64

structure State where
  format : List UInt8
  character_count : Int
  output_string : CString
  /-- How many arguments are taken. -/
  args : ℕ

/-- `*p` -/
def deref : List UInt8 → Except Stop UInt8
  | [] => .error .format
  | c :: _ => .ok c

/-- The prefix specifiers, up to the first other character. -/
def readFlags : List UInt8 → UInt8 → Except Stop (UInt8 × List UInt8)
  | [], _ => .error .format
  | c :: format, flag =>
    if c = 45 then readFlags format (flag ||| LEFT)
    else if c = 43 then readFlags format (flag ||| PLUS)
    else if c = 48 then readFlags format (flag ||| ZEROPAD)
    else if c = 122 ∨ c = 108 then readFlags format (flag ||| LONG)
    else .ok (flag, c :: format)

/-- The digits at the pointer from `least` on; behind the first one `0` is a digit, too. -/
def readDigits : List UInt8 → UInt8 → Except Stop (List UInt8 × List UInt8)
  | [], _ => .error .format
  | c :: format, least =>
    if c ≥ least ∧ c ≤ 57 then do
      let (num, format) ← readDigits format 48
      .ok (c :: num, format)
    else .ok ([], c :: format)

def atoi (num : List UInt8) : ℕ := num.foldl (fun v c => v * 10 + (c.toNat - 48)) 0

/-- `num` has room for three digits. -/
def numberOf (num : List UInt8) : ℕ := atoi (num.take 3)

/-- Flags and width. A width is not 0 (its first digit is not, nor is `character_count`), so it is looked for only
once. -/
def readPrefix (format : List UInt8) (character_count : Int) : Except Stop (UInt8 × Int × List UInt8) := do
  let (flag, format) ← readFlags format 0
  let (num, format) ← readDigits format 49
  if num = [] then .ok (flag, 0, format)
  else
    let width := if character_count < numberOf num then character_count else numberOf num
    let (flag, format) ← readFlags format flag
    .ok (flag, width, format)

def readPrecision (format : List UInt8) : Except Stop (ℕ × List UInt8) := do
  if (← deref format) = 46 then
    let (num, format) ← readDigits format.tail 49
    .ok (if num = [] then 14 else numberOf num, format)
  else .ok (14, format)

/-- The loop over a string argument. -/
def copyString : List UInt8 → Int → CString → Except Stop (Int × CString)
  | [], character_count, output_string => .ok (character_count, output_string)
  | c :: string, character_count, output_string =>
    if character_count = 0 then .ok (character_count, output_string)
    else do copyString string ((character_count - 1).bmod (2 ^ 32)) (← output_string.put c)

/-- `case 's'` -/
def writeString (string : List UInt8) (flag : UInt8) (width character_count : Int) (output_string : CString) :
    Except Stop (Int × CString) := do
  let len := (string.length : Int).bmod (2 ^ 32)
  let fill := (width - len).bmod (2 ^ 32)
  if ¬has flag LEFT ∧ len < width then
    let character_count := (character_count - fill).bmod (2 ^ 32)
    if character_count < 0 then .ok (character_count, output_string)
    else copyString string character_count (← writeFillChars output_string fill 32)
  else
    let (character_count, output_string) ← copyString string character_count output_string
    if has flag LEFT ∧ len < width then
      let character_count := (character_count - fill).bmod (2 ^ 32)
      if character_count < 0 then .ok (character_count, output_string)
      else .ok (character_count, ← writeFillChars output_string fill 32)
    else .ok (character_count, output_string)

section Loop

variable (writeFloat : BitVec 64 → Int → ℕ → UInt8 → List UInt8) (args : ℕ → Arg)

/-- A conversion that takes an argument and leaves `character_count` as it is. -/
def State.withArg (s : State) (write : Arg → CString → Except Stop CString) : Except Stop State := do
  .ok { s with output_string := ← write (args s.args) s.output_string, args := s.args + 1 }

/-- A number; the width goes as `unsigned int`. -/
def State.withNumber (s : State) (base : ℕ) (width : Int) (type : UInt8) : Except Stop State :=
  s.withArg args fun arg out => writeNumber out arg.number base (width % 2 ^ 32).toNat 0 type

/-- The switch over the conversions. -/
def conversion (s : State) (flag : UInt8) (width : Int) (precision : ℕ) : Except Stop State := do
  let c ← deref s.format
  if c = 37 then
    .ok { s with
      output_string := ← s.output_string.put c
      character_count := (s.character_count - 1).bmod (2 ^ 32) }
  else if c = 115 then -- s
    let (character_count, output_string) ←
      writeString (args s.args).string flag width s.character_count s.output_string
    .ok { s with character_count, output_string, args := s.args + 1 }
  else if c = 100 then s.withNumber args 10 width (flag ||| SIGN) -- d
  else if c = 111 then s.withNumber args 8 width (flag ||| SPECIAL) -- o
  else if c = 117 then s.withNumber args 10 width flag -- u
  else if c = 112 ∨ c = 120 then s.withNumber args 16 width (flag ||| SPECIAL) -- p, x
  else if c = 88 then s.withNumber args 16 width (flag ||| SPECIAL ||| LARGE) -- X
  else if c = 102 then s.withArg args fun arg => writeChars (writeFloat arg.float width precision flag) -- f
  else if c = 70 then s.withArg args fun arg => writeChars (writeFloat arg.float width precision (flag ||| LARGE)) -- F
  else if c = 99 then s.withArg args fun arg out => out.put (arg.number.setWidth 8).toNat.toUInt8 -- c
  else .ok { s with output_string := ← s.output_string.put 37 }

/-- A turn of the loop. -/
def turn (s : State) : Except Stop State := do
  let c ← deref s.format
  if c = 37 then
    let (flag, width, format) ← readPrefix s.format.tail s.character_count
    let (precision, format) ← readPrecision format
    let s ← conversion writeFloat args { s with format } flag width precision
    .ok { s with format := s.format.tail }
  else
    .ok { s with
      output_string := ← s.output_string.put c
      character_count := (s.character_count - 1).bmod (2 ^ 32)
      format := s.format.tail }

def turns : ℕ → State → Except Stop State
  | 0, _ => .error .passes
  | n + 1, s => do
    if (← deref s.format) = 0 then .ok s
    else if s.character_count = 0 then .ok s
    else turns n (← turn writeFloat args s)

/-- The state behind the loop. -/
def printf (format : List UInt8) : Except Stop State :=
  turns writeFloat args (format.length + 1) ⟨format, 256, ⟨[], 256⟩, 0⟩

end Loop

end KPanic.Printf

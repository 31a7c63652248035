import KPanic.Libc.Ctype
import Mathlib.Algebra.Group.Nat.Defs

/-!
# `userspace/libc/src/scanf.c`: numbers and `vsscanf`

A pointer is the bytes from there on, up to and with the terminating zero; what is behind it is not to be
read. What goes to the arguments is a list of the values in order.
-/

namespace KPanic.Scanf

open Ctype (isdigit isxdigit isspace islower toupper)

inductive Stop
  | outside
  | fuel
  deriving DecidableEq

/-- `*p` -/
def deref : List UInt8 → Except Stop UInt8
  | [] => .error .outside
  | c :: _ => .ok c

/-! ### Numbers -/

/-- The loop over the digits; a digit is one that `isxdigit` accepts. -/
def scanDigits (digitValue : UInt8 → ℕ) (base : ℕ) : List UInt8 → ℕ → Except Stop (ℕ × List UInt8)
  | [], _ => .error .outside
  | c :: cp, result =>
    if isxdigit c ∧ digitValue c < base then scanDigits digitValue base cp ((result * base + digitValue c) % 2 ^ 64)
    else .ok (result, c :: cp)

/-- The base, and what is behind the prefix. -/
def basePrefix (cp : List UInt8) (base : ℕ) : Except Stop (ℕ × List UInt8) :=
  if base = 0 then do
    if (← deref cp) = 48 then
      if toupper (← deref cp.tail) = 88 then
        if isxdigit (← deref cp.tail.tail) then .ok (16, cp.tail.tail) else .ok (8, cp.tail)
      else .ok (8, cp.tail)
    else .ok (10, cp)
  else if base = 16 then do
    if (← deref cp) = 48 then
      if toupper (← deref cp.tail) = 88 then .ok (16, cp.tail.tail) else .ok (16, cp)
    else .ok (16, cp)
  else .ok (base, cp)

/-- The value, and what `endp` points to. -/
def scanUnsigned (digitValue : UInt8 → ℕ) (cp : List UInt8) (base : ℕ) : Except Stop (ℕ × List UInt8) := do
  let (base, cp) ← basePrefix cp base
  scanDigits digitValue base cp 0

def simple_strtoul : List UInt8 → ℕ → Except Stop (ℕ × List UInt8) :=
  scanUnsigned fun c => if isdigit c then c.toNat - 48 else (toupper c).toNat - 65 + 10

def simple_strtoull : List UInt8 → ℕ → Except Stop (ℕ × List UInt8) :=
  scanUnsigned fun c => if isdigit c then c.toNat - 48 else (if islower c then toupper c else c).toNat - 65 + 10

/-- A sign in front of an unsigned number, as 64 bits. -/
def scanSigned (unsigned : List UInt8 → ℕ → Except Stop (ℕ × List UInt8)) (cp : List UInt8) (base : ℕ) :
    Except Stop (Int × List UInt8) := do
  if (← deref cp) = 45 then
    let (v, endp) ← unsigned cp.tail base
    .ok ((-(v : Int)).bmod (2 ^ 64), endp)
  else
    let (v, endp) ← unsigned cp base
    .ok ((v : Int).bmod (2 ^ 64), endp)

def simple_strtol : List UInt8 → ℕ → Except Stop (Int × List UInt8) := scanSigned simple_strtoul

def simple_strtoll : List UInt8 → ℕ → Except Stop (Int × List UInt8) := scanSigned simple_strtoull

def skip_atoi : List UInt8 → Int → Except Stop (Int × List UInt8)
  | [], _ => .error .outside
  | c :: s, i => if isdigit c then skip_atoi s ((i * 10 + c.toNat - 48).bmod (2 ^ 32)) else .ok (i, c :: s)

/-! ### `vsscanf` -/

/-- What a conversion stores through its argument; a number with its bits. -/
inductive Assigned
  | chars (s : List UInt8)
  | string (s : List UInt8)
  | position (i : Int)
  | signed (bits : ℕ) (v : Int)
  | unsigned (bits : ℕ) (v : ℕ)
  deriving DecidableEq

structure State where
  fmt : List UInt8
  str : List UInt8
  num : Int
  assigned : List Assigned

def State.assign (s : State) (str : List UInt8) (a : Assigned) : State :=
  { s with str, num := (s.num + 1).bmod (2 ^ 32), assigned := s.assigned ++ [a] }

/-- How a turn of the outer loop ends: with the next one, or the loop ends. -/
inductive Turn
  | goOn (s : State)
  | done (s : State)

def skipSpace : List UInt8 → Except Stop (List UInt8)
  | [] => .error .outside
  | c :: s => if isspace c then skipSpace s else .ok (c :: s)

def skipWord : List UInt8 → Except Stop (List UInt8)
  | [] => .error .outside
  | c :: s => if ¬isspace c ∧ c ≠ 0 then skipWord s else .ok (c :: s)

/-- The loop of `%c`: what it copies, and what is left. -/
def copyChars : List UInt8 → Int → Except Stop (List UInt8 × List UInt8)
  | [], _ => .error .outside
  | c :: str, field_width =>
    let field_width := (field_width - 1).bmod (2 ^ 32)
    if field_width > 0 then do
      if (← deref str) ≠ 0 then
        let (s, str) ← copyChars str field_width
        .ok (c :: s, str)
      else .ok ([c], str)
    else .ok ([c], str)

/-- The second loop of `%s`. -/
def copyWord : List UInt8 → Int → Except Stop (List UInt8 × List UInt8)
  | [], _ => .error .outside
  | c :: str, field_width =>
    if c ≠ 0 ∧ ¬isspace c ∧ field_width ≠ 0 then do
      let (s, str) ← copyWord str ((field_width - 1).bmod (2 ^ 32))
      .ok (c :: s, str)
    else .ok ([], c :: str)

def INT_MAX : Int := 2 ^ 31 - 1

/-- The field width, or -1. -/
def fieldWidth (fmt : List UInt8) : Except Stop (Int × List UInt8) := do
  if isdigit (← deref fmt) then skip_atoi fmt 0 else .ok (-1, fmt)

/-- `h`, `l`, `L`, `Z` or `z`; `H` for `hh` and `L` for `ll`. -/
def readQualifier (fmt : List UInt8) : Except Stop (Option UInt8 × List UInt8) := do
  let c ← deref fmt
  if c = 104 ∨ c = 108 ∨ c = 76 ∨ c = 90 ∨ c = 122 then
    let again ← deref fmt.tail
    if c = again ∧ c = 104 then .ok (some 72, fmt.tail.tail)
    else if c = again ∧ c = 108 then .ok (some 76, fmt.tail.tail)
    else .ok (some c, fmt.tail)
  else .ok (none, fmt)

def signedAs (bits : ℕ) (r : Int × List UInt8) : Assigned × List UInt8 := (.signed bits (r.1.bmod (2 ^ bits)), r.2)

def unsignedAs (bits : ℕ) (r : ℕ × List UInt8) : Assigned × List UInt8 := (.unsigned bits (r.1 % 2 ^ bits), r.2)

/-- `switch(qualifier)` -/
def readNumber (str : List UInt8) (base : ℕ) (is_sign : Bool) (qualifier : Option UInt8) :
    Except Stop (Assigned × List UInt8) :=
  if qualifier = some 72 then
    if is_sign then signedAs 8 <$> simple_strtol str base else unsignedAs 8 <$> simple_strtoul str base
  else if qualifier = some 104 then
    if is_sign then signedAs 16 <$> simple_strtol str base else unsignedAs 16 <$> simple_strtoul str base
  else if qualifier = some 108 then
    if is_sign then signedAs 64 <$> simple_strtol str base else unsignedAs 64 <$> simple_strtoul str base
  else if qualifier = some 76 then
    if is_sign then signedAs 64 <$> simple_strtoll str base else unsignedAs 64 <$> simple_strtoull str base
  else if qualifier = some 90 ∨ qualifier = some 122 then unsignedAs 64 <$> simple_strtoul str base
  else if is_sign then signedAs 32 <$> simple_strtol str base else unsignedAs 32 <$> simple_strtoul str base

/-- The character is no digit of the base. -/
def NoDigit (base : ℕ) (digit : UInt8) : Prop :=
  digit = 0 ∨ base = 16 ∧ ¬isxdigit digit ∨ base = 10 ∧ ¬isdigit digit ∨
    base = 8 ∧ (¬isdigit digit ∨ digit > 55) ∨ base = 0 ∧ ¬isdigit digit

instance (base : ℕ) (digit : UInt8) : Decidable (NoDigit base digit) :=
  inferInstanceAs (Decidable (digit = 0 ∨ base = 16 ∧ ¬isxdigit digit ∨ base = 10 ∧ ¬isdigit digit ∨
    base = 8 ∧ (¬isdigit digit ∨ digit > 55) ∨ base = 0 ∧ ¬isdigit digit))

/-- The character that has to be a digit. -/
def firstDigit (is_sign : Bool) (str : List UInt8) : Except Stop UInt8 := do
  let digit ← deref str
  if is_sign ∧ digit = 45 then deref str.tail else .ok digit

/-- Behind the switch over the conversions. -/
def integer (s : State) (base : ℕ) (is_sign : Bool) (qualifier : Option UInt8) : Except Stop Turn := do
  let str ← skipSpace s.str
  let digit ← firstDigit is_sign str
  if NoDigit base digit then .ok (.done { s with str })
  else
    let (a, next) ← readNumber str base is_sign qualifier
    .ok (.goOn (s.assign next a))

/-- `switch(*fmt++)`; `buf` is the whole buffer. -/
def conversion (buf : List UInt8) (s : State) (field_width : Int) (qualifier : Option UInt8) : Except Stop Turn := do
  let c ← deref s.fmt
  let s := { s with fmt := s.fmt.tail }
  if c = 99 then -- c
    let (chars, str) ← copyChars s.str (if field_width = -1 then 1 else field_width)
    .ok (.goOn (s.assign str (.chars chars)))
  else if c = 115 then -- s
    let str ← skipSpace s.str
    let (word, str) ← copyWord str (if field_width = -1 then INT_MAX else field_width)
    .ok (.goOn (s.assign str (.string word)))
  else if c = 110 then -- n
    let position := ((buf.length : Int) - s.str.length).bmod (2 ^ 32)
    .ok (.goOn { s with assigned := s.assigned ++ [.position position] })
  else if c = 111 then integer s 8 false qualifier -- o
  else if c = 120 ∨ c = 88 then integer s 16 false qualifier -- x, X
  else if c = 105 then integer s 0 true qualifier -- i
  else if c = 100 then integer s 10 true qualifier -- d
  else if c = 117 then integer s 10 false qualifier -- u
  else if c = 37 then -- %
    if (← deref s.str) = 37 then .ok (.goOn { s with str := s.str.tail }) else .ok (.done { s with str := s.str.tail })
  else .ok (.done s)

/-- Behind a percent sign. -/
def directive (buf : List UInt8) (s : State) : Except Stop Turn := do
  if (← deref s.fmt) = 42 then
    let fmt ← skipWord s.fmt
    let str ← skipWord s.str
    .ok (.goOn { s with fmt, str })
  else
    let (field_width, fmt) ← fieldWidth s.fmt
    let (qualifier, fmt) ← readQualifier fmt
    if (← deref fmt) = 0 then .ok (.done { s with fmt })
    else if (← deref s.str) = 0 then .ok (.done { s with fmt })
    else conversion buf { s with fmt } field_width qualifier

/-- A turn of the outer loop, behind the white space. -/
def element (buf : List UInt8) (s : State) : Except Stop Turn := do
  let c ← deref s.fmt
  if c ≠ 37 ∧ c ≠ 0 then
    if c = (← deref s.str) then .ok (.goOn { s with fmt := s.fmt.tail, str := s.str.tail })
    else .ok (.done { s with fmt := s.fmt.tail, str := s.str.tail })
  else if c = 0 then .ok (.done s)
  else directive buf { s with fmt := s.fmt.tail }

def turn (buf : List UInt8) (s : State) : Except Stop Turn := do
  if isspace (← deref s.fmt) then
    let fmt ← skipSpace s.fmt
    let str ← skipSpace s.str
    element buf { s with fmt, str }
  else element buf s

/-- The outer loop. -/
def turns (buf : List UInt8) : ℕ → State → Except Stop State
  | 0, _ => .error .fuel
  | n + 1, s => do
    if (← deref s.fmt) = 0 then .ok s
    else if (← deref s.str) = 0 then .ok s
    else
      match ← turn buf s with
      | .goOn s => turns buf n s
      | .done s => .ok s

/-- The number that is returned, and what was stored. -/
def vsscanf (n : ℕ) (buf fmt : List UInt8) : Except Stop (Int × List Assigned) := do
  let s ← turns buf n ⟨fmt, buf, 0, []⟩
  .ok (s.num, s.assigned)

end KPanic.Scanf

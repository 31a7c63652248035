import Mathlib.Data.Nat.Notation
import Mathlib.Algebra.Group.Nat.Defs
import Mathlib.Tactic.Common

/-!
# `common/source/util/Stabs2DebugInfo.cpp`: `demangleName`

A pointer into the name is what can be read from there on, which is the name up to and with its terminating zero.
An `int` that overflows goes on with its low 32 bits.
-/

namespace KPanic.Stabs2DebugInfo

inductive Stop
  /-- A read behind the terminating zero of the name. -/
  | read
  /-- A store outside the buffer. -/
  | write
  | passes
  deriving DecidableEq

/-- `*p` -/
def deref : List UInt8 → Except Stop UInt8
  | [] => .error .read
  | c :: _ => .ok c

/-- The array, the position of the pointer in it, and `size`. -/
structure Buffer where
  bytes : List UInt8
  pos : ℕ
  size : ℕ
  deriving DecidableEq

def putChar2Buffer (buffer : Buffer) (c : UInt8) : Except Stop Buffer :=
  if buffer.size ≤ 1 then .ok buffer
  else if buffer.pos + 1 < buffer.bytes.length then
    .ok ⟨(buffer.bytes.set buffer.pos c).set (buffer.pos + 1) 0, buffer.pos + 1, buffer.size - 1⟩
  else .error .write

def putString (s : String) (buffer : Buffer) : Except Stop Buffer :=
  (s.toList.map Char.toUInt8).foldlM putChar2Buffer buffer

/-- `count` times `putChar2Buffer(buffer,*input++,size)`. -/
def copyChars : ℕ → List UInt8 → Buffer → Except Stop (List UInt8 × Buffer)
  | 0, input, buffer => .ok (input, buffer)
  | count + 1, input, buffer => do
    let c ← deref input
    let buffer ← putChar2Buffer buffer c
    copyChars count input.tail buffer

/-! ### Operators and types -/

/-- The two mangled characters, and the demangled operator. -/
def operators : List (Char × Char × String) :=
  [('n', 'w', " new"), ('n', 'a', " new[]"), ('d', 'l', " delete"), ('d', 'a', " delete[]"), ('p', 's', "+"),
   ('n', 'g', "-"), ('a', 'd', "&"), ('d', 'e', "*"), ('c', 'o', "~"), ('p', 'l', "+"), ('m', 'i', "-"),
   ('m', 'l', "*"), ('d', 'v', "/"), ('r', 'm', "%"), ('a', 'n', "&"), ('o', 'r', "|"), ('e', 'o', "^"),
   ('a', 'S', "="), ('p', 'L', "+="), ('m', 'I', "-="), ('m', 'L', "*="), ('d', 'V', "/="), ('r', 'M', "%="),
   ('a', 'N', "&="), ('o', 'R', "|="), ('e', 'O', "^="), ('l', 's', "<<"), ('r', 's', ">>"), ('l', 'S', "<<="),
   ('r', 'S', ">>="), ('e', 'q', "=="), ('n', 'e', "!="), ('l', 't', "<"), ('g', 't', ">"), ('l', 'e', "<="),
   ('g', 'e', ">="), ('n', 't', "!"), ('a', 'a', "&&"), ('o', 'o', "||"), ('p', 'p', "++"), ('m', 'm', "--"),
   ('c', 'm', ","), ('p', 'm', "->*"), ('p', 't', "->"), ('c', 'l', "()"), ('i', 'x', "[]"), ('q', 'u', "?"),
   ('s', 't', "sizeof"), ('s', 'z', "sizeof")]

/-- The second character is read only if the first one is that of the operator. -/
def findOperator (input : List UInt8) : List (Char × Char × String) → Except Stop (Option String)
  | [] => .ok none
  | (first, second, demangled) :: ops => do
    if (← deref input) = first.toUInt8 then
      if (← deref input.tail) = second.toUInt8 then .ok (some demangled) else findOperator input ops
    else findOperator input ops

def tryPasteOoperator (input : List UInt8) (buffer : Buffer) : Except Stop (List UInt8 × Buffer) := do
  match ← findOperator input operators with
  | none => .ok (input, buffer)
  | some operator_name =>
    let buffer ← putString "operator" buffer
    let buffer ← putString operator_name buffer
    .ok (input.tail.tail, buffer)

def isDigit (c : UInt8) : Bool := decide (48 ≤ c ∧ c ≤ 57)

/-- The `int`, and the input behind its digits. -/
def readNumber (result : BitVec 32) : List UInt8 → Except Stop (BitVec 32 × List UInt8)
  | [] => .error .read
  | c :: input =>
    if isDigit c then readNumber (10 * result + BitVec.ofNat 32 (c.toNat - 48)) input else .ok (result, c :: input)

/-- An `int` as a `size_t`. -/
def toSize (result : BitVec 32) : ℕ := (result.signExtend 64).toNat

/-- A number, and that many characters. -/
def pasteCounted (input : List UInt8) (buffer : Buffer) : Except Stop (List UInt8 × Buffer) := do
  let (result, input) ← readNumber 0 input
  copyChars (toSize result) input buffer

def typenames : List (Char × String) :=
  [('v', ""), ('w', "wchar_t"), ('b', "bool"), ('c', "char"), ('a', "signed char"), ('h', "unsigned char"),
   ('s', "short"), ('t', "unsigned short"), ('i', "int"), ('j', "unsigned int"), ('l', "long"),
   ('m', "unsigned long"), ('x', "long long"), ('y', "unsigned long long"), ('n', "__int128"),
   ('o', "unsigned __int128"), ('f', "float"), ('d', "double"), ('e', "long double"), ('g', "__float128"),
   ('z', "ellipsis")]

def demangledType (c : UInt8) : String :=
  match typenames.find? fun t => c = t.1.toUInt8 with
  | none => "<?>"
  | some t => t.2

/-- Whether the next character is `c`, which is skipped then. -/
def skipChar (c : Char) (input : List UInt8) : Except Stop (Bool × List UInt8) := do
  if (← deref input) = c.toUInt8 then .ok (true, input.tail) else .ok (false, input)

def putIf (condition : Bool) (s : String) (buffer : Buffer) : Except Stop Buffer :=
  if condition then putString s buffer else .ok buffer

/-- A type without its modifiers. -/
def pasteBaseType (input : List UInt8) (buffer : Buffer) : Except Stop (List UInt8 × Buffer) := do
  let c ← deref input
  if isDigit c then pasteCounted input buffer
  else
    let buffer ← putString (demangledType c) buffer
    .ok (input.tail, buffer)

def pasteTypename (input : List UInt8) (buffer : Buffer) : Except Stop (List UInt8 × Buffer) := do
  let (is_reference, input) ← skipChar 'R' input
  let (is_pointer, input) ← skipChar 'P' input
  let (is_const, input) ← skipChar 'K' input
  let buffer ← putIf is_const "const" buffer
  let (input, buffer) ← pasteBaseType input buffer
  let buffer ← putIf is_pointer "*" buffer
  let buffer ← putIf is_reference "&" buffer
  .ok (input, buffer)

def pasteArguments (delimiter : Char) : ℕ → ℕ → List UInt8 → Buffer → Except Stop (List UInt8 × Buffer)
  | 0, _, _, _ => .error .passes
  | passes + 1, arg_nr, input, buffer => do
    if (← deref input) = delimiter.toUInt8 then .ok (input, buffer)
    else
      let buffer ← putIf (arg_nr ≠ 0) ", " buffer
      let (input, buffer) ← pasteTypename input buffer
      pasteArguments delimiter passes ((arg_nr + 1) % 2 ^ 32) input buffer

/-! ### `demangleName` -/

/-- One part of a nested name. -/
def pastePart (passes : ℕ) (p_data : List UInt8) (buffer : Buffer) : Except Stop (List UInt8 × Buffer) := do
  let c ← deref p_data
  if isDigit c then pasteCounted p_data buffer
  else if c = 'I'.toUInt8 then
    let buffer ← putString "<" buffer
    let (p_data, buffer) ← pasteArguments 'E' passes 0 p_data.tail buffer
    let buffer ← putString ">" buffer
    .ok (p_data.tail, buffer)
  else tryPasteOoperator p_data buffer

/-- The loop over the parts of a nested name. `name_count` is `repeat`. -/
def pasteNested (passes : ℕ) : ℕ → ℕ → List UInt8 → Buffer → Except Stop (List UInt8 × Buffer)
  | 0, _, _, _ => .error .passes
  | turns + 1, repeat_, p_data, buffer => do
    let c ← deref p_data
    if c = 'E'.toUInt8 then .ok (p_data, buffer)
    else
      let buffer ← putIf (repeat_ ≠ 0 ∧ c ≠ 'I'.toUInt8) "::" buffer
      let (p_data, buffer) ← pastePart passes p_data buffer
      if repeat_ ≥ 2 then .ok (p_data, buffer) else pasteNested passes turns (repeat_ + 1) p_data buffer

/-- What is in front of the arguments. -/
def pasteName (passes : ℕ) (p_data : List UInt8) (buffer : Buffer) : Except Stop (List UInt8 × Buffer) := do
  if (← deref p_data) = 'N'.toUInt8 then
    let (p_data, buffer) ← pasteNested passes passes 0 p_data.tail buffer
    .ok (p_data.tail, buffer)
  else
    let (_, p_data) ← skipChar 'L' p_data
    pasteCounted p_data buffer

def strlen : List UInt8 → Except Stop ℕ
  | [] => .error .read
  | c :: s => if c = 0 then .ok 0 else (· + 1) <$> strlen s

/-- The loop that copies an unmangled name. -/
def copyUnmangled : ℕ → List UInt8 → Buffer → Except Stop Buffer
  | 0, _, buffer => .ok buffer
  | length + 1, p_data, buffer => do
    let c ← deref p_data
    if c = ':'.toUInt8 then .ok buffer else copyUnmangled length p_data.tail (← putChar2Buffer buffer c)

/-- Whether the name does not begin with `_Z`; the second character is read only behind a `_`. -/
def isUnmangled (p_data : List UInt8) : Except Stop Bool := do
  if (← deref p_data) ≠ '_'.toUInt8 then .ok true else .ok ((← deref p_data.tail) ≠ 'Z'.toUInt8)

def demangleName (passes : ℕ) (name : List UInt8) (buffer : Buffer) : Except Stop Buffer := do
  if ← isUnmangled name then
    let length ← strlen name
    copyUnmangled length name buffer
  else
    let (p_data, buffer) ← pasteName passes name.tail.tail buffer
    let buffer ← putString "(" buffer
    let (_, buffer) ← pasteArguments ':' passes 0 p_data buffer
    putString ")" buffer

end KPanic.Stabs2DebugInfo

import Mathlib.Data.UInt
import Mathlib.Tactic.Common

/-!
# `userspace/libc/src/ctype.c` and `userspace/libc/include/ctype.h`

Character classes by a table of masks.
-/

namespace KPanic.Ctype

/-- upper -/
def U : UInt8 := 0x01

/-- lower -/
def L : UInt8 := 0x02

/-- digit -/
def D : UInt8 := 0x04

/-- cntrl -/
def C : UInt8 := 0x08

/-- punct -/
def P : UInt8 := 0x10

/-- white space (space/lf/tab) -/
def S : UInt8 := 0x20

/-- hex digit -/
def X : UInt8 := 0x40

/-- hard space (0x20) -/
def SP : UInt8 := 0x80

def ctype : List UInt8 := [
  C, C, C, C, C, C, C, C,
  C, C ||| S, C ||| S, C ||| S, C ||| S, C ||| S, C, C,
  C, C, C, C, C, C, C, C,
  C, C, C, C, C, C, C, C,
  S ||| SP, P, P, P, P, P, P, P,
  P, P, P, P, P, P, P, P,
  D, D, D, D, D, D, D, D,
  D, D, P, P, P, P, P, P,
  P, U ||| X, U ||| X, U ||| X, U ||| X, U ||| X, U ||| X, U,
  U, U, U, U, U, U, U, U,
  U, U, U, U, U, U, U, U,
  U, U, U, P, P, P, P, P,
  P, L ||| X, L ||| X, L ||| X, L ||| X, L ||| X, L ||| X, L,
  L, L, L, L, L, L, L, L,
  L, L, L, L, L, L, L, L,
  L, L, L, P, P, P, P, C,
  0, 0, 0, 0, 0, 0, 0, 0, 0, 0, 0, 0, 0, 0, 0, 0,
  0, 0, 0, 0, 0, 0, 0, 0, 0, 0, 0, 0, 0, 0, 0, 0,
  S ||| SP, P, P, P, P, P, P, P, P, P, P, P, P, P, P, P,
  P, P, P, P, P, P, P, P, P, P, P, P, P, P, P, P,
  U, U, U, U, U, U, U, U, U, U, U, U, U, U, U, U,
  U, U, U, U, U, U, U, P, U, U, U, U, U, U, U, L,
  L, L, L, L, L, L, L, L, L, L, L, L, L, L, L, L,
  L, L, L, L, L, L, L, P, L, L, L, L, L, L, L, L]

def ismask (c mask : UInt8) : Bool := (ctype.getD c.toNat 0 &&& mask) != 0

def isdigit (c : UInt8) : Bool := ismask c D

def islower (c : UInt8) : Bool := ismask c L

def isspace (c : UInt8) : Bool := ismask c S

def isxdigit (c : UInt8) : Bool := ismask c (D ||| X)

def toupper (c : UInt8) : UInt8 := if islower c then c - 32 else c

/-! ### The classes as ranges -/

/-- A property of all characters, from a run through them. -/
theorem forall_of_range {p : UInt8 → Prop} (h : ∀ n < 256, p (UInt8.ofNat n)) (c : UInt8) : p c := by
  have hc := h c.toNat c.toNat_lt
  rwa [UInt8.ofNat_toNat] at hc

theorem isdigit_iff (c : UInt8) : isdigit c = true ↔ 48 ≤ c ∧ c ≤ 57 := by
  revert c
  exact forall_of_range (by decide +kernel)

theorem toupper_eq_X (c : UInt8) : toupper c = 88 ↔ c = 88 ∨ c = 120 := by
  revert c
  exact forall_of_range (by decide +kernel)

end KPanic.Ctype

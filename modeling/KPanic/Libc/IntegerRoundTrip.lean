import KPanic.Libc.NumberFormat
import KPanic.Libc.NumberScan

/-!
# What `writeNumber` writes, read by `sscanf`
-/

namespace KPanic.RoundTrip

open Numerals
open Printf (CString writeNumber has signOf unpadded numberChars magnitude prefixOf digitsOf small_digits writeChars_spec
  writeNumber_eq ZEROPAD SIGN LEFT SPECIAL LARGE LONG PLUS SPACE)
open Scanf
open Ctype (isspace isdigit isxdigit)

inductive Conversion
  | d
  | u
  | x

namespace Conversion

def base : Conversion → ℕ
  | d => 10
  | u => 10
  | x => 16

def is_sign : Conversion → Bool
  | d => true
  | _ => false

/-- What `writeNumber` puts in front of the digits. -/
def basePrefix : Conversion → List UInt8
  | x => [48, 120]
  | _ => []

/-- The flags that `printf` gives to `writeNumber`. -/
def type (conv : Conversion) (long zero : Bool) : UInt8 :=
  (if long then LONG else 0) ||| (if zero then ZEROPAD else 0) |||
    match conv with
    | d => SIGN
    | u => 0
    | x => SPECIAL

def letter : Conversion → UInt8
  | d => 100
  | u => 117
  | x => 120

/-- The format of `sscanf`. -/
def format (conv : Conversion) (long : Bool) : List UInt8 :=
  if long then [37, 108, conv.letter] else [37, conv.letter]

/-- The argument of `printf`, of which an `int` has 32 bits. -/
def argument (conv : Conversion) (long : Bool) (number : BitVec 64) : Assigned :=
  match conv, long with
  | d, false => .signed 32 (number.setWidth 32).toInt
  | d, true => .signed 64 number.toInt
  | _, false => .unsigned 32 (number.setWidth 32).toNat
  | _, true => .unsigned 64 number.toNat

/-- The argument does not go through with zeros in front of the sign or of `0x`. -/
def Prefixed (conv : Conversion) (long : Bool) (number : BitVec 64) : Prop :=
  match conv.argument long number with
  | .signed _ v => v < 0
  | .unsigned _ v => conv = x ∧ v ≠ 0
  | _ => False

/-- The characters of the number are read as the number. -/
def ReadsBack (conv : Conversion) (long zero : Bool) (width : ℕ) (number : BitVec 64) : Prop :=
  ∃ chars, (∀ out : CString, out.chars.length + chars.length ≤ out.size →
      writeNumber out number conv.base width 0 (conv.type long zero) = .ok { out with chars := out.chars ++ chars }) ∧
    ∀ n, (conv.format long).length + 1 < n →
      vsscanf n (chars ++ [0]) (conv.format long ++ [0]) = .ok (1, [conv.argument long number])

end Conversion

/-! ### Numerals -/

variable {base k m : ℕ} {w r s : List UInt8} {c : UInt8} {number : BitVec 64} {conv : Conversion} {long zero : Bool}

theorem magnitude_eq (hbase : 1 < base) (hle : base ≤ 36) (number : BitVec 64) :
    magnitude small_digits base number = numeral base number.toNat := by
  have hdigit : ∀ d < 36, small_digits.getD d 0 = char d := by decide
  have hzero : number = 0 ↔ number.toNat = 0 := by
    rw [← BitVec.toNat_inj]
    rfl
  unfold magnitude numeral
  refine if_congr hzero rfl (congrArg List.reverse (List.map_congr_left fun d hd => ?_))
  exact hdigit d (Nat.lt_of_lt_of_le (Nat.digits_lt_base hbase hd) hle)

/-! ### The scanner -/

theorem behindDigits_append (hw : Digits base w) (hr : ∀ c t, r = c :: t → ¬digit c < base) : behindDigits base (w ++ r) = r := by
  have hsplit := leading_append base (w ++ r)
  rw [leading_of_digits hw hr] at hsplit
  exact List.append_cancel_left hsplit

/-- Digits in base 10 behind zeros. -/
theorem strtoul_ten (hw : Digits 10 w) (hr : ∀ c t, r = c :: t → ¬digit c < 10) :
    simple_strtoul (w ++ r ++ [0]) 10 = .ok (value 10 w % 2 ^ 64, r ++ [0]) := by
  have hkind : Prefix 10 (w ++ r) [] 10 (w ++ r) := .none (by decide) fun h => by cases h
  have hscan := scan_eq hkind (by decide) rfl
  rwa [leading_of_digits hw hr, behindDigits_append hw hr] at hscan

theorem strtoul_hex (hw : Digits 16 w) : simple_strtoul (48 :: 120 :: w ++ [0]) 16 = .ok (value 16 w % 2 ^ 64, [0]) := by
  have hkind : Prefix 16 (48 :: 120 :: w) [48, 120] 16 w := .hex (.inr rfl) (.inr rfl) fun h => by cases h
  have hscan := scan_eq hkind (by decide) rfl
  have hbehind := behindDigits_append (r := []) hw fun c t h => by cases h
  rw [List.append_nil] at hbehind
  rwa [leading_self hw, hbehind] at hscan

theorem digits_zeros (hbase : 1 < base) (k : ℕ) : Digits base (List.replicate k 48) := by
  intro c hc
  rw [List.eq_of_mem_replicate hc]
  exact Nat.lt_of_succ_lt hbase

theorem value_only_zeros (base k : ℕ) : value base (List.replicate k 48) = 0 := by
  have hzeros := value_zeros base k []
  rwa [List.append_nil] at hzeros

theorem digits_append (hw : Digits base w) (hr : Digits base r) : Digits base (w ++ r) := by
  intro c hc
  obtain h | h := List.mem_append.mp hc
  · exact hw c h
  · exact hr c h

/-- Zeros in front of the prefix hide it. -/
theorem strtoul_zeros_hex (k : ℕ) (w : List UInt8) :
    simple_strtoul (List.replicate (k + 2) 48 ++ 120 :: w ++ [0]) 16 = .ok (0, 120 :: w ++ [0]) := by
  have hnone : ∀ x t, List.replicate (k + 2) 48 ++ 120 :: w = 48 :: x :: t → x ≠ 88 ∧ x ≠ 120 := by
    intro x t h
    obtain ⟨rfl, -⟩ := List.cons.inj (List.cons.inj h).2
    exact ⟨by decide, by decide⟩
  have hkind : Prefix 16 (List.replicate (k + 2) 48 ++ 120 :: w) [] 16 _ := .none (by decide) fun _ => hnone
  have hzeros : Digits 16 (List.replicate (k + 2) 48) := digits_zeros (by decide) (k + 2)
  have hstops : ∀ c t, 120 :: w = c :: t → ¬digit c < 16 := by
    intro c t h
    obtain ⟨rfl, -⟩ := List.cons.inj h
    decide
  have hscan := scan_eq hkind (by decide) rfl
  rwa [leading_of_digits hzeros hstops, behindDigits_append hzeros hstops, value_only_zeros] at hscan

/-- Zeros in front of the sign hide it. -/
theorem strtoul_zeros_minus (k : ℕ) (w : List UInt8) :
    simple_strtoul (List.replicate k 48 ++ 45 :: w ++ [0]) 10 = .ok (0, 45 :: w ++ [0]) := by
  have hstops : ∀ c t, 45 :: w = c :: t → ¬digit c < 10 := by
    intro c t h
    obtain ⟨rfl, -⟩ := List.cons.inj h
    decide
  have hscan := strtoul_ten (digits_zeros (by decide) k) hstops
  rwa [value_only_zeros] at hscan

/-! ### `sscanf` with one conversion -/

theorem turn_conversion (conv : Conversion) (long : Bool) (hc : c ≠ 0) (buf r : List UInt8) :
    turn buf ⟨conv.format long ++ [0], c :: r, 0, []⟩ =
      integer ⟨[0], c :: r, 0, []⟩ conv.base conv.is_sign (if long then some 108 else none) := by
  cases conv <;> cases long
  all_goals
    show (do if (← deref (c :: r)) = 0 then _ else _) = _
    rw [deref]
    dsimp only [bind, Except.bind]
    rw [if_neg hc]
    rfl

theorem vsscanf_conversion {n : ℕ} {a : Assigned} {next : List UInt8} (hn : 2 ≤ n) (hc : c ≠ 0)
    (hinteger : integer ⟨[0], c :: r, 0, []⟩ conv.base conv.is_sign (if long then some 108 else none) =
      .ok (.goOn (State.assign ⟨[0], c :: r, 0, []⟩ next a))) :
    vsscanf n (c :: r) (conv.format long ++ [0]) = .ok (1, [a]) := by
  obtain ⟨n, rfl⟩ := Nat.exists_eq_add_of_le' hn
  have hformat : deref (conv.format long ++ [0]) = .ok 37 := by
    cases long with
    | false => rfl
    | true => rfl
  unfold vsscanf
  rw [turns]
  dsimp only
  rw [hformat]
  dsimp only [bind, Except.bind]
  rw [if_neg (by decide), deref]
  dsimp only
  rw [if_neg hc, turn_conversion conv long hc, hinteger]
  rfl

theorem skipSpace_spaces (hc : isspace c = false) (k : ℕ) (r : List UInt8) :
    skipSpace (List.replicate k 32 ++ c :: r) = .ok (c :: r) := by
  induction k with
  | zero =>
    rw [List.replicate_zero, List.nil_append, skipSpace, hc]
    rfl
  | succ k ih =>
    rw [List.replicate_succ, List.cons_append, skipSpace, if_pos (by decide)]
    exact ih

theorem of_digit (c : UInt8) : digit c < 16 → isspace c = false ∧ c ≠ 0 ∧ c ≠ 45 := by
  revert c
  exact Ctype.forall_of_range (by decide +kernel)

/-- Behind the white space the string is read as `a`. -/
structure Readable (conv : Conversion) (long : Bool) (str : List UInt8) (a : Assigned) : Prop where
  head : ∃ c r, str = c :: r ∧ isspace c = false ∧ c ≠ 0
  first : ∃ d, firstDigit conv.is_sign str = .ok d ∧ digit d < conv.base
  number : ∃ next, readNumber str conv.base conv.is_sign (if long then some 108 else none) = .ok (a, next)

theorem noDigit_conv {d : UInt8} (hd : digit d < conv.base) : ¬NoDigit conv.base d := by
  have hzero : d ≠ 0 := by
    rintro rfl
    cases conv with
    | d => exact absurd hd (by decide)
    | u => exact absurd hd (by decide)
    | x => exact absurd hd (by decide)
  cases conv with
  | d => simp [NoDigit, Conversion.base, hzero, (isdigit_iff_digit d).mpr hd]
  | u => simp [NoDigit, Conversion.base, hzero, (isdigit_iff_digit d).mpr hd]
  | x => simp [NoDigit, Conversion.base, hzero, (isxdigit_iff_digit d).mpr hd]

theorem Readable.vsscanf {str : List UInt8} {a : Assigned} (h : Readable conv long str a) (k : ℕ) {n : ℕ} (hn : 2 ≤ n) :
    vsscanf n (List.replicate k 32 ++ str) (conv.format long ++ [0]) = .ok (1, [a]) := by
  obtain ⟨c, r, rfl, hspace, hzero⟩ := h.head
  obtain ⟨d, hfirst, hd⟩ := h.first
  obtain ⟨next, hnumber⟩ := h.number
  have hinteger : ∀ s : State, s.str = List.replicate k 32 ++ c :: r →
      integer s conv.base conv.is_sign (if long then some 108 else none) = .ok (.goOn (s.assign next a)) := by
    intro s hs
    unfold integer
    rw [hs, skipSpace_spaces hspace]
    dsimp only [bind, Except.bind]
    rw [hfirst]
    dsimp only
    rw [if_neg (noDigit_conv hd), hnumber]
  cases k with
  | zero => exact vsscanf_conversion hn hzero (hinteger _ rfl)
  | succ k => exact vsscanf_conversion hn (by decide) (hinteger _ rfl)

/-! ### What is read -/

/-- The value as it is stored. -/
def stored (conv : Conversion) (long : Bool) (v : Int) : Assigned :=
  if conv.is_sign then .signed (if long then 64 else 32) ((v.bmod (2 ^ 64)).bmod (2 ^ if long then 64 else 32))
  else .unsigned (if long then 64 else 32) (v.toNat % 2 ^ if long then 64 else 32)

theorem stored_signed (h : conv.is_sign = true) (long : Bool) (v : Int) : stored conv long v =
    .signed (if long then 64 else 32) ((v.bmod (2 ^ 64)).bmod (2 ^ if long then 64 else 32)) :=
  if_pos h

theorem stored_unsigned (h : conv.is_sign = false) (long : Bool) (v : ℕ) : stored conv long v =
    .unsigned (if long then 64 else 32) (v % 2 ^ if long then 64 else 32) :=
  if_neg (Bool.eq_false_iff.mp h)

theorem readNumber_signed (str : List UInt8) (base : ℕ) (long : Bool) :
    readNumber str base true (if long then some 108 else none) =
      signedAs (if long then 64 else 32) <$> simple_strtol str base := by
  cases long with
  | false => rfl
  | true => rfl

theorem readNumber_unsigned (str : List UInt8) (base : ℕ) (long : Bool) :
    readNumber str base false (if long then some 108 else none) =
      unsignedAs (if long then 64 else 32) <$> simple_strtoul str base := by
  cases long with
  | false => rfl
  | true => rfl

theorem map_signedAs (bits : ℕ) (v : Int) (next : List UInt8) :
    signedAs bits <$> (.ok (v, next) : Except Stop _) = .ok (.signed bits (v.bmod (2 ^ bits)), next) :=
  rfl

theorem map_unsignedAs (bits v : ℕ) (next : List UInt8) :
    unsignedAs bits <$> (.ok (v, next) : Except Stop _) = .ok (.unsigned bits (v % 2 ^ bits), next) :=
  rfl

theorem simple_strtol_plain (hc : c ≠ 45) (r : List UInt8) {v : ℕ} {next : List UInt8}
    (h : simple_strtoul (c :: r) base = .ok (v, next)) :
    simple_strtol (c :: r) base = .ok ((v : Int).bmod (2 ^ 64), next) := by
  unfold simple_strtol scanSigned
  rw [deref]
  dsimp only [bind, Except.bind]
  rw [if_neg hc, h]

theorem simple_strtol_minus (r : List UInt8) {v : ℕ} {next : List UInt8} (h : simple_strtoul r base = .ok (v, next)) :
    simple_strtol (45 :: r) base = .ok ((-(v : Int)).bmod (2 ^ 64), next) := by
  unfold simple_strtol scanSigned
  rw [deref]
  dsimp only [bind, Except.bind]
  rw [if_pos rfl, List.tail_cons, h]

/-- A string that begins with a digit, and what `simple_strtoul` reads of it. -/
theorem readable_of_strtoul (hc : digit c < conv.base) {v : ℕ} {next : List UInt8}
    (h : simple_strtoul (c :: r) conv.base = .ok (v, next)) : Readable conv long (c :: r) (stored conv long v) := by
  have hle : conv.base ≤ 16 := by
    cases conv with
    | d => decide
    | u => decide
    | x => decide
  obtain ⟨hspace, hzero, hminus⟩ := of_digit c (Nat.lt_of_lt_of_le hc hle)
  refine ⟨⟨c, r, rfl, hspace, hzero⟩, ⟨c, ?_, hc⟩, next, ?_⟩
  · unfold firstDigit
    rw [deref]
    dsimp only [bind, Except.bind]
    rw [if_neg fun hand => hminus hand.2]
  · cases hsign : conv.is_sign with
    | true =>
      rw [readNumber_signed, simple_strtol_plain hminus r h, stored_signed hsign, map_signedAs]
    | false =>
      rw [readNumber_unsigned, h, stored_unsigned hsign, map_unsignedAs]

/-- A number behind its sign. -/
theorem readable_minus (long : Bool) (hw : Digits 10 w) (hne : w ≠ []) :
    Readable .d long (45 :: (w ++ [0])) (stored .d long (-(value 10 w % 2 ^ 64 : ℕ))) := by
  have hscan := strtoul_ten (r := []) hw fun c t h => by cases h
  rw [List.append_nil, List.nil_append] at hscan
  generalize value 10 w % 2 ^ 64 = v at hscan ⊢
  refine ⟨⟨45, _, rfl, by decide, by decide⟩, ?_, [0], ?_⟩
  · cases w with
    | nil => exact absurd rfl hne
    | cons c w => exact ⟨c, rfl, hw c List.mem_cons_self⟩
  · refine (readNumber_signed (45 :: (w ++ [0])) 10 long).trans ?_
    rw [simple_strtol_minus _ hscan, map_signedAs, stored_signed rfl]

/-! ### What is written -/

theorem has_flags (conv : Conversion) (long zero : Bool) : has (conv.type long zero) LEFT = false ∧
    has (conv.type long zero) ZEROPAD = zero ∧ has (conv.type long zero) LONG = long ∧
    has (conv.type long zero) LARGE = false ∧ has (conv.type long zero) PLUS = false ∧
    has (conv.type long zero) SPACE = false ∧ has (conv.type long zero) SIGN = conv.is_sign := by
  cases conv <;> cases long <;> cases zero <;> decide

theorem signOf_unsigned (h : conv.is_sign = false) (long zero : Bool) (number : BitVec 64) :
    signOf number (conv.type long zero) = (none, number) := by
  obtain ⟨-, -, -, -, -, -, hsign⟩ := has_flags conv long zero
  unfold signOf
  rw [hsign, h, if_neg Bool.false_ne_true]

theorem signOf_plain (h : ¬Conversion.d.Prefixed long number) (zero : Bool) :
    signOf number (Conversion.d.type long zero) = (none, number) := by
  obtain ⟨-, -, hlong, -, hplus, hspace, hsign⟩ := has_flags .d long zero
  unfold signOf
  rw [hlong, hplus, hspace, hsign]
  cases long with
  | false =>
    have hnot : ¬(number.setWidth 32).toInt < 0 := h
    simp only [hnot, Conversion.is_sign, Bool.false_eq_true, if_true, if_false, false_and, and_false]
  | true =>
    have hnot : ¬number.toInt < 0 := h
    simp only [hnot, Conversion.is_sign, Bool.false_eq_true, not_true, if_true, if_false, false_and, and_false]

theorem signOf_minus (h : Conversion.d.Prefixed long number) (zero : Bool) :
    signOf number (Conversion.d.type long zero) =
      (some 45, if long then -number else (-number.setWidth 32).signExtend 64) := by
  obtain ⟨-, -, hlong, -, -, -, hsign⟩ := has_flags .d long zero
  unfold signOf
  rw [hlong, hsign]
  cases long with
  | false =>
    have hneg : (number.setWidth 32).toInt < 0 := h
    simp only [hneg, Conversion.is_sign, Bool.false_eq_true, not_false_eq_true, if_true, if_false, false_and, and_self]
  | true =>
    have hneg : number.toInt < 0 := h
    simp only [hneg, Conversion.is_sign, if_true, and_self]

theorem prefixOf_eq (conv : Conversion) (long zero : Bool) :
    prefixOf small_digits conv.base (conv.type long zero) = conv.basePrefix := by
  cases conv <;> cases long <;> cases zero <;> decide

theorem unpadded_eq (conv : Conversion) (long zero : Bool) (number : BitVec 64) :
    unpadded number conv.base (conv.type long zero) =
      conv.basePrefix ++ (signOf number (conv.type long zero)).1.toList ++
        numeral conv.base (signOf number (conv.type long zero)).2.toNat := by
  obtain ⟨-, -, -, hlarge, -, -, -⟩ := has_flags conv long zero
  have hdigits : digitsOf (conv.type long zero) = small_digits := by
    unfold digitsOf
    rw [hlarge, if_neg Bool.false_ne_true]
  obtain ⟨hlt, hle⟩ : 1 < conv.base ∧ conv.base ≤ 36 := by cases conv <;> decide
  unfold unpadded
  rw [hdigits, magnitude_eq hlt hle, prefixOf_eq]

theorem numberChars_eq (conv : Conversion) (long zero : Bool) (width : ℕ) (number : BitVec 64) :
    numberChars number conv.base width (conv.type long zero) =
      List.replicate (width - (unpadded number conv.base (conv.type long zero)).length) (if zero then 48 else 32) ++
        unpadded number conv.base (conv.type long zero) := by
  obtain ⟨hleft, hzero, -⟩ := has_flags conv long zero
  unfold numberChars
  rw [hleft, hzero, if_neg Bool.false_ne_true]

/-! ### The values -/

theorem neg_toNat_bmod {w : ℕ} (y : BitVec w) : (-(y.toNat : Int)).bmod (2 ^ w) = (-y).toInt := by
  rw [BitVec.toInt_neg, BitVec.toInt_eq_toNat_bmod, Int.bmod_neg_bmod]

theorem stored_minus (long : Bool) (number : BitVec 64) :
    stored .d long (-((if long then -number else (-number.setWidth 32).signExtend 64).toNat : Int)) =
      Conversion.d.argument long number := by
  rw [stored_signed rfl]
  cases long with
  | false =>
    have hvalue : ((-(((-number.setWidth 32).signExtend 64).toNat : Int)).bmod (2 ^ 64)).bmod (2 ^ 32) =
        (number.setWidth 32).toInt := by
      rw [neg_toNat_bmod, BitVec.toInt_neg, BitVec.toInt_signExtend_of_le (by decide), Int.bmod_bmod_of_dvd (by decide),
        ← BitVec.toInt_neg, BitVec.neg_neg]
    exact congrArg (Assigned.signed 32) hvalue
  | true =>
    have hvalue : ((-((-number).toNat : Int)).bmod (2 ^ 64)).bmod (2 ^ 64) = number.toInt := by
      rw [Int.bmod_bmod, neg_toNat_bmod, BitVec.neg_neg]
    exact congrArg (Assigned.signed 64) hvalue

theorem stored_plain (conv : Conversion) (long : Bool) (number : BitVec 64) :
    stored conv long (number.toNat : ℕ) = conv.argument long number := by
  have hint : ((number.toNat : Int).bmod (2 ^ 64)).bmod (2 ^ 32) = (number.setWidth 32).toInt := by
    rw [BitVec.toInt_setWidth, Int.bmod_bmod_of_dvd (by decide)]
  have hlong : ((number.toNat : Int).bmod (2 ^ 64)).bmod (2 ^ 64) = number.toInt := by
    rw [Int.bmod_bmod, ← BitVec.toInt_eq_toNat_bmod]
  have hunsigned : number.toNat % 2 ^ 32 = (number.setWidth 32).toNat := (BitVec.toNat_setWidth 32 number).symm
  have hsize : number.toNat % 2 ^ 64 = number.toNat := Nat.mod_eq_of_lt number.isLt
  cases conv with
  | d =>
    cases long with
    | false => exact congrArg (Assigned.signed 32) hint
    | true => exact congrArg (Assigned.signed 64) hlong
  | u =>
    cases long with
    | false => exact congrArg (Assigned.unsigned 32) hunsigned
    | true => exact congrArg (Assigned.unsigned 64) hsize
  | x =>
    cases long with
    | false => exact congrArg (Assigned.unsigned 32) hunsigned
    | true => exact congrArg (Assigned.unsigned 64) hsize

theorem prefixed_x : Conversion.x.Prefixed long number ↔ number.toNat % 2 ^ (if long then 64 else 32) ≠ 0 := by
  cases long with
  | false =>
    rw [← BitVec.toNat_setWidth]
    exact and_iff_right rfl
  | true =>
    have hsize : number.toNat % 2 ^ 64 = number.toNat := Nat.mod_eq_of_lt number.isLt
    rw [if_pos rfl, hsize]
    exact and_iff_right rfl

theorem not_prefixed_u : ¬Conversion.u.Prefixed long number := by
  cases long with
  | false =>
    rintro ⟨h, -⟩
    cases h
  | true =>
    rintro ⟨h, -⟩
    cases h

/-! ### The strings -/

theorem readable_ten (long : Bool) (hbase : conv.base = 10) (k : ℕ) {n : ℕ} (hn : n < 2 ^ 64) :
    Readable conv long (List.replicate k 48 ++ numeral 10 n ++ [0]) (stored conv long n) := by
  have hdigits : Digits 10 (List.replicate k 48 ++ numeral 10 n) :=
    digits_append (digits_zeros (by decide) k) (digits_numeral (by decide) (by decide) n)
  have hscan := strtoul_ten (r := []) hdigits fun c t h => by cases h
  rw [List.append_nil, value_zeros, value_numeral (by decide) (by decide), Nat.mod_eq_of_lt hn] at hscan
  cases hw : List.replicate k 48 ++ numeral 10 n with
  | nil => exact absurd (List.append_eq_nil_iff.mp hw).2 (numeral_ne_nil 10 n)
  | cons c w =>
    rw [hw] at hdigits hscan
    have hc : digit c < conv.base := hbase ▸ hdigits c List.mem_cons_self
    rw [← hbase] at hscan
    exact readable_of_strtoul hc hscan

theorem readable_hex (long : Bool) {n : ℕ} (hn : n < 2 ^ 64) :
    Readable .x long (48 :: 120 :: numeral 16 n ++ [0]) (stored .x long n) := by
  have hdigits : Digits 16 (numeral 16 n) := digits_numeral (by decide) (by decide) n
  have hscan := strtoul_hex hdigits
  rw [value_numeral (by decide) (by decide), Nat.mod_eq_of_lt hn] at hscan
  exact readable_of_strtoul (by decide) hscan

theorem readable_hidden_hex (long : Bool) (k : ℕ) (w : List UInt8) :
    Readable .x long (List.replicate (k + 2) 48 ++ 120 :: w ++ [0]) (stored .x long (0 : ℕ)) :=
  readable_of_strtoul (by decide) (strtoul_zeros_hex k w)

theorem readable_hidden_minus (long : Bool) (k : ℕ) (w : List UInt8) :
    Readable .d long (List.replicate (k + 1) 48 ++ 45 :: w ++ [0]) (stored .d long (0 : ℕ)) :=
  readable_of_strtoul (by decide) (strtoul_zeros_minus (k + 1) w)

theorem unpadded_plain (hsign : ¬Conversion.d.Prefixed long number) (zero : Bool) :
    unpadded number 10 (Conversion.d.type long zero) = numeral 10 number.toNat := by
  have heq := unpadded_eq .d long zero number
  rw [signOf_plain hsign] at heq
  exact heq

theorem unpadded_minus (hsign : Conversion.d.Prefixed long number) (zero : Bool) :
    unpadded number 10 (Conversion.d.type long zero) =
      45 :: numeral 10 (if long then -number else (-number.setWidth 32).signExtend 64).toNat := by
  have heq := unpadded_eq .d long zero number
  rw [signOf_minus hsign] at heq
  exact heq

theorem unpadded_u (long zero : Bool) (number : BitVec 64) :
    unpadded number 10 (Conversion.u.type long zero) = numeral 10 number.toNat := by
  have heq := unpadded_eq .u long zero number
  rw [signOf_unsigned rfl] at heq
  exact heq

theorem unpadded_x (long zero : Bool) (number : BitVec 64) :
    unpadded number 16 (Conversion.x.type long zero) = 48 :: 120 :: numeral 16 number.toNat := by
  have heq := unpadded_eq .x long zero number
  rw [signOf_unsigned rfl] at heq
  exact heq

theorem zeros_hex (k : ℕ) (w : List UInt8) :
    List.replicate (k + 1) 48 ++ 48 :: 120 :: w = List.replicate (k + 2) 48 ++ 120 :: w := by
  rw [List.replicate_succ' (n := k + 1), List.append_assoc]
  rfl

/-- Spaces or nothing in front, or a number without sign and prefix. -/
theorem readable_front (z : ℕ) (zero : Bool) (h : z = 0 ∨ ¬conv.Prefixed long number) :
    Readable conv long (List.replicate z 48 ++ unpadded number conv.base (conv.type long zero) ++ [0])
      (conv.argument long number) := by
  rw [← stored_plain]
  cases conv with
  | d =>
    by_cases hsign : Conversion.d.Prefixed long number
    · obtain rfl := h.resolve_right (not_not.mpr hsign)
      have hdigits := digits_numeral (by decide : 1 < 10) (by decide)
        (if long then -number else (-number.setWidth 32).signExtend 64).toNat
      have hread := readable_minus long hdigits (numeral_ne_nil 10 _)
      rw [value_numeral (by decide) (by decide), Nat.mod_eq_of_lt (BitVec.isLt _), stored_minus, ← stored_plain] at hread
      rw [show unpadded number Conversion.d.base _ = _ from unpadded_minus hsign zero]
      exact hread
    · rw [show unpadded number Conversion.d.base _ = _ from unpadded_plain hsign zero]
      exact readable_ten long rfl z number.isLt
  | u =>
    rw [show unpadded number Conversion.u.base _ = _ from unpadded_u long zero number]
    exact readable_ten long rfl z number.isLt
  | x =>
    rw [show unpadded number Conversion.x.base _ = _ from unpadded_x long zero number]
    cases z with
    | zero => exact readable_hex long number.isLt
    | succ k =>
      have hnot : ¬Conversion.x.Prefixed long number := h.resolve_left (Nat.succ_ne_zero k)
      have hzero : stored .x long number.toNat = stored .x long (0 : ℕ) := by
        rw [stored_unsigned rfl, stored_unsigned rfl, not_not.mp (mt prefixed_x.mpr hnot), Nat.zero_mod]
      rw [zeros_hex, hzero]
      exact readable_hidden_hex long k _

/-- Zeros in front of a sign or a prefix. -/
theorem readable_hidden {z : ℕ} (hz : z ≠ 0) (zero : Bool) (h : conv.Prefixed long number) :
    ∃ a, a ≠ conv.argument long number ∧
      Readable conv long (List.replicate z 48 ++ unpadded number conv.base (conv.type long zero) ++ [0]) a := by
  obtain ⟨k, rfl⟩ := Nat.exists_eq_succ_of_ne_zero hz
  refine ⟨stored conv long (0 : ℕ), ?_, ?_⟩
  · intro heq
    cases conv with
    | d =>
      rw [stored_signed rfl] at heq
      cases long with
      | false =>
        have hvalue : (0 : Int) = (number.setWidth 32).toInt := (Assigned.signed.inj heq).2
        have hneg : (number.setWidth 32).toInt < 0 := h
        omega
      | true =>
        have hvalue : (0 : Int) = number.toInt := (Assigned.signed.inj heq).2
        have hneg : number.toInt < 0 := h
        omega
    | u => exact absurd h not_prefixed_u
    | x =>
      rw [← stored_plain, stored_unsigned rfl, stored_unsigned rfl, Nat.zero_mod] at heq
      exact prefixed_x.mp h (Assigned.unsigned.inj heq).2.symm
  · cases conv with
    | d =>
      rw [show unpadded number Conversion.d.base _ = _ from unpadded_minus h zero]
      exact readable_hidden_minus long k _
    | u => exact absurd h not_prefixed_u
    | x =>
      rw [show unpadded number Conversion.x.base _ = _ from unpadded_x long zero number, zeros_hex]
      exact readable_hidden_hex long k _

theorem readsBack_iff_scanned (width : ℕ) : conv.ReadsBack long zero width number ↔
    ∀ n, (conv.format long).length + 1 < n →
      vsscanf n (numberChars number conv.base width (conv.type long zero) ++ [0]) (conv.format long ++ [0]) =
        .ok (1, [conv.argument long number]) := by
  obtain ⟨hlt, hle⟩ : 1 < conv.base ∧ conv.base ≤ 36 := by cases conv <;> decide
  constructor
  · rintro ⟨chars, hwrites, hreads⟩
    have hroom : ∀ a b : ℕ, ([] : List UInt8).length + a ≤ a + b ∧ ([] : List UInt8).length + b ≤ a + b := by
      intro a b
      rw [List.length_nil]
      omega
    have hchars := hwrites ⟨[], chars.length + (numberChars number conv.base width (conv.type long zero)).length⟩
      (hroom _ _).1
    rw [writeNumber_eq hlt hle, writeChars_spec, if_pos (.inl (hroom _ _).2)] at hchars
    have heq : numberChars number conv.base width (conv.type long zero) = chars :=
      congrArg CString.chars (Except.ok.inj hchars)
    rw [heq]
    exact hreads
  · intro hreads
    refine ⟨_, fun out hroom => ?_, hreads⟩
    rw [writeNumber_eq hlt hle, writeChars_spec, if_pos (.inl hroom)]

theorem length_format (conv : Conversion) (long : Bool) : 2 ≤ (conv.format long).length := by
  cases conv <;> cases long <;> decide

/-- Everything is read back but zeros in front of a sign, or of `0x` and a number that is not 0. -/
theorem readsBack_iff (conv : Conversion) (long zero : Bool) (width : ℕ) (number : BitVec 64) :
    conv.ReadsBack long zero width number ↔
      ¬(zero = true ∧ (unpadded number conv.base (conv.type long zero)).length < width ∧ conv.Prefixed long number) := by
  have hformat := length_format conv long
  rw [readsBack_iff_scanned, numberChars_eq]
  generalize hpad : width - (unpadded number conv.base (conv.type long zero)).length = pad
  cases zero with
  | false =>
    refine iff_of_true (fun n hn => ?_) (fun h => by cases h.1)
    rw [List.append_assoc]
    exact (readable_front 0 false (.inl rfl)).vsscanf pad (by omega)
  | true =>
    constructor
    · rintro hreads ⟨-, hwidth, hbegined⟩
      obtain ⟨a, hne, hread⟩ := readable_hidden (z := pad) (by omega) true hbegined
      have hscan := hread.vsscanf 0 (n := (conv.format long).length + 2) (by omega)
      have hread' := (hreads _ (Nat.lt_succ_self _)).symm.trans hscan
      rw [Except.ok.injEq, Prod.mk.injEq, List.cons.injEq] at hread'
      exact hne hread'.2.1.symm
    · intro h n hn
      have hfront : pad = 0 ∨ ¬conv.Prefixed long number := by
        refine or_iff_not_imp_left.mpr fun hne hbegined => h ⟨rfl, by omega, hbegined⟩
      exact (readable_front pad true hfront).vsscanf 0 (by omega)

/-- `%05d` writes -42 as `00-42`, which is read as 0. -/
theorem zero_padded_minus : ¬Conversion.d.ReadsBack false true 5 (-42) ∧
    writeNumber ⟨[], 256⟩ (-42) 10 5 0 (Conversion.d.type false true) = .ok ⟨[48, 48, 45, 52, 50], 256⟩ ∧
    vsscanf 9 [48, 48, 45, 52, 50, 0] [37, 100, 0] = .ok (1, [.signed 32 0]) := by
  have hwritten : writeNumber ⟨[], 256⟩ (-42) 10 5 0 (Conversion.d.type false true) = .ok ⟨[48, 48, 45, 52, 50], 256⟩ := by
    rfl
  have hread : vsscanf 9 [48, 48, 45, 52, 50, 0] [37, 100, 0] = .ok (1, [.signed 32 0]) := by decide +kernel
  refine ⟨fun h => ?_, hwritten, hread⟩
  have hchars : numberChars (-42) 10 5 (Conversion.d.type false true) = [48, 48, 45, 52, 50] := by
    rw [writeNumber_eq (by decide) (by decide), writeChars_spec] at hwritten
    split at hwritten
    · exact congrArg CString.chars (Except.ok.inj hwritten)
    · cases hwritten
  have hscan := (readsBack_iff_scanned 5).mp h 9 (by decide)
  rw [show numberChars (-42) Conversion.d.base 5 _ = _ from hchars] at hscan
  have hvalues := hread.symm.trans hscan
  exact absurd hvalues (by decide)

end KPanic.RoundTrip

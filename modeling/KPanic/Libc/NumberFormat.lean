import KPanic.Libc.Printf
import KPanic.Lib.Numerals

/-!
# The characters of `writeNumber`
-/

namespace KPanic.Printf

open Numerals

/-- The digits of a number without its sign. -/
def magnitude (digits : List UInt8) (base : ℕ) (number : BitVec 64) : List UInt8 :=
  if number = 0 then [48] else ((Nat.digits base number.toNat).map (digits.getD · 0)).reverse

/-- The prefix of a base. -/
def prefixOf (digits : List UInt8) (base : ℕ) (type : UInt8) : List UInt8 :=
  if has type SPECIAL ∧ base = 8 then [48]
  else if has type SPECIAL ∧ base = 16 then [48, digits.getD 33 0]
  else []

def digitsOf (type : UInt8) : List UInt8 := if has type LARGE then large_digits else small_digits

/-- Prefix, sign and digits. -/
def unpadded (number : BitVec 64) (base : ℕ) (type : UInt8) : List UInt8 :=
  prefixOf (digitsOf type) base type ++ (signOf number type).1.toList ++
    magnitude (digitsOf type) base (signOf number type).2

/-- All that is written, without precision. -/
def numberChars (number : BitVec 64) (base size : ℕ) (type : UInt8) : List UInt8 :=
  if has type LEFT then unpadded number base type
  else List.replicate (size - (unpadded number base type).length) (if has type ZEROPAD then 48 else 32) ++
    unpadded number base type

variable {digits tmp chars l l' : List UInt8} {number : BitVec 64} {base size n i passes : ℕ} {type c : UInt8}
  {out : CString}

theorem store_ok (h : tmp.length < 70) (c : UInt8) : store tmp c = .ok (tmp ++ [c]) := if_pos h

theorem storeDigits_spec (hbase : 1 < base) (hn : n < base ^ passes) (hpasses : tmp.length + passes ≤ 70) :
    storeDigits digits base passes n tmp = .ok (tmp ++ (Nat.digits base n).map (digits.getD · 0)) := by
  induction passes generalizing n tmp with
  | zero =>
    have hzero : n = 0 := by
      rw [Nat.pow_zero] at hn
      omega
    rw [storeDigits, if_pos hzero, hzero, Nat.digits_zero, List.map_nil, List.append_nil]
  | succ passes ih =>
    rw [storeDigits]
    by_cases hzero : n = 0
    · rw [if_pos hzero, hzero, Nat.digits_zero, List.map_nil, List.append_nil]
    · have hdiv : n / base < base ^ passes := by
        rw [Nat.div_lt_iff_lt_mul (Nat.lt_of_succ_lt hbase), ← Nat.pow_succ]
        exact hn
      rw [if_neg hzero, store_ok (by omega)]
      dsimp only [bind, Except.bind]
      rw [ih hdiv (by rw [List.length_append, List.length_singleton]; omega),
        Nat.digits_def' hbase (Nat.pos_of_ne_zero hzero), List.map_cons, List.append_assoc, List.singleton_append]

theorem length_magnitude_le (hbase : 1 < base) (digits : List UInt8) (number : BitVec 64) :
    (magnitude digits base number).length ≤ 64 := by
  unfold magnitude
  split
  · decide
  · rw [List.length_reverse, List.length_map, Nat.digits_length_le_iff hbase]
    exact Nat.lt_of_lt_of_le number.isLt (Nat.pow_le_pow_left hbase 64)

theorem storeMagnitude_spec (hbase : 1 < base) (digits : List UInt8) (number : BitVec 64) :
    storeMagnitude digits base number = .ok (magnitude digits base number).reverse := by
  unfold storeMagnitude magnitude
  by_cases hzero : number = 0
  · rw [if_pos hzero, if_pos hzero]
    rfl
  · have hlt : number.toNat < base ^ 70 := by
      calc number.toNat < 2 ^ 64 := number.isLt
        _ ≤ base ^ 64 := Nat.pow_le_pow_left hbase 64
        _ ≤ base ^ 70 := Nat.pow_le_pow_right (Nat.lt_of_succ_lt hbase) (by decide)
    have hstored : storeDigits digits base 70 number.toNat [] = _ := storeDigits_spec hbase hlt (Nat.le_refl 70)
    rw [if_neg hzero, if_neg hzero, hstored, List.reverse_reverse, List.nil_append]

theorem storeSign_spec (h : tmp.length < 70) (sign : Option UInt8) : storeSign tmp sign = .ok (tmp ++ sign.toList) := by
  cases sign with
  | none => exact congrArg Except.ok (List.append_nil tmp).symm
  | some c => exact store_ok h c

theorem storePrefix_spec (h : tmp.length < 69) (digits : List UInt8) (base : ℕ) (type : UInt8) :
    storePrefix digits base type tmp = .ok (tmp ++ (prefixOf digits base type).reverse) := by
  unfold storePrefix prefixOf
  split_ifs
  · exact store_ok (Nat.lt_succ_of_lt h) 48
  · have hnext : (tmp ++ [digits.getD 33 0]).length < 70 := by
      rw [List.length_append, List.length_singleton]
      exact Nat.succ_lt_succ h
    rw [store_ok (Nat.lt_succ_of_lt h)]
    dsimp only [bind, Except.bind]
    rw [store_ok hnext, List.append_assoc]
    rfl
  · exact congrArg Except.ok (List.append_nil tmp).symm

/-- `tmp` has room for every number. -/
theorem reversed_spec (hbase : 1 < base) (digits : List UInt8) (number : BitVec 64) (type : UInt8) :
    reversed digits number base type = .ok (prefixOf digits base type ++ (signOf number type).1.toList ++
      magnitude digits base (signOf number type).2).reverse := by
  have hmagnitude := length_magnitude_le hbase digits (signOf number type).2
  have hsign : (signOf number type).1.toList.reverse = (signOf number type).1.toList := by
    cases (signOf number type).1 with
    | none => rfl
    | some c => rfl
  have hone : (signOf number type).1.toList.length ≤ 1 := by
    cases (signOf number type).1 with
    | none => exact Nat.zero_le 1
    | some c => exact Nat.le_refl 1
  have hdigits : (magnitude digits base (signOf number type).2).reverse.length < 70 := by
    rw [List.length_reverse]
    omega
  have hsigned : ((magnitude digits base (signOf number type).2).reverse ++ (signOf number type).1.toList).length < 69 := by
    rw [List.length_append, List.length_reverse]
    omega
  unfold reversed
  dsimp only
  rw [storeMagnitude_spec hbase]
  dsimp only [bind, Except.bind]
  rw [storeSign_spec hdigits]
  dsimp only
  rw [storePrefix_spec hsigned, List.reverse_append, List.reverse_append, hsign, List.append_assoc]

/-! ### Writing -/

theorem writeChars_append (l l' : List UInt8) (out : CString) :
    writeChars (l ++ l') out = writeChars l out >>= writeChars l' := by
  induction l generalizing out with
  | nil => rfl
  | cons c l ih =>
    rw [List.cons_append, writeChars, writeChars]
    cases out.put c with
    | error e => rfl
    | ok out => exact ih out

theorem writeFill_eq (fill : UInt8) (n : ℕ) (out : CString) : writeFill fill n out = writeChars (List.replicate n fill) out := by
  induction n generalizing out with
  | zero => rfl
  | succ n ih =>
    rw [writeFill, List.replicate_succ, writeChars]
    cases out.put fill with
    | error e => rfl
    | ok out => exact ih out

theorem writePadding_eq (c : UInt8) (i n : ℕ) (out : CString) :
    writePadding c 0 i n out = writeChars (List.replicate (n - i) c) out := by
  induction n generalizing out with
  | zero =>
    rw [Nat.zero_sub]
    rfl
  | succ n ih =>
    rw [writePadding, Nat.sub_zero]
    by_cases hi : n + 1 > i
    · rw [if_pos hi, Nat.succ_sub (Nat.le_of_lt_succ hi), List.replicate_succ, writeChars]
      cases out.put c with
      | error e => rfl
      | ok out => exact ih out
    · rw [if_neg hi, Nat.sub_eq_zero_of_le (Nat.le_of_not_lt hi)]
      rfl

/-- Exactly when there is room. -/
theorem writeChars_spec (chars : List UInt8) (out : CString) : writeChars chars out =
    if out.chars.length + chars.length ≤ out.size ∨ chars = [] then .ok { out with chars := out.chars ++ chars }
    else .error .buffer := by
  induction chars generalizing out with
  | nil => rw [writeChars, if_pos (.inr rfl), List.append_nil]
  | cons c chars ih =>
    rw [writeChars, CString.put, List.length_cons]
    by_cases hroom : out.chars.length < out.size
    · rw [if_pos hroom]
      dsimp only [bind, Except.bind]
      rw [ih, List.length_append, List.length_singleton, List.append_assoc, List.singleton_append]
      dsimp only
      refine if_congr ?_ rfl rfl
      constructor
      · rintro (hle | rfl)
        · exact .inl (by omega)
        · exact .inl (by rw [List.length_nil]; omega)
      · rintro (hle | hnil)
        · exact .inl (by omega)
        · cases hnil
    · rw [if_neg hroom, if_neg]
      · rfl
      · rintro (hle | hnil)
        · omega
        · cases hnil

/-! ### Numbers -/

theorem has_clear (type : UInt8) {flag : UInt8} (h : ~~~ZEROPAD &&& flag = flag) :
    has (type &&& ~~~ZEROPAD) flag = has type flag := by
  unfold has
  rw [UInt8.and_assoc, h]

theorem signOf_clear (number : BitVec 64) (type : UInt8) : signOf number (type &&& ~~~ZEROPAD) = signOf number type := by
  unfold signOf
  rw [has_clear type (by decide), has_clear type (by decide), has_clear type (by decide), has_clear type (by decide)]

theorem prefixOf_clear (digits : List UInt8) (base : ℕ) (type : UInt8) :
    prefixOf digits base (type &&& ~~~ZEROPAD) = prefixOf digits base type := by
  unfold prefixOf
  rw [has_clear type (by decide)]

/-- A number is written at once. -/
theorem writeNumber_eq (hbase : 1 < base) (hle : base ≤ 36) (out : CString) (number : BitVec 64) (size : ℕ) (type : UInt8) :
    writeNumber out number base size 0 type = writeChars (numberChars number base size type) out := by
  have hwrites : ∀ digits flags size, prefixOf digits base flags ++ (signOf number flags).1.toList ++
      magnitude digits base (signOf number flags).2 = unpadded number base type →
      (do
        let tmp ← reversed digits number base flags
        let precision := if has flags SPECIAL then 0 else 0
        let precision := if precision > size then size else precision
        let output_string ← writePadding (if has flags ZEROPAD then 48 else 32) precision tmp.length size out
        let output_string ← writeZeros tmp.length precision output_string
        writeChars tmp.reverse output_string) =
      writeChars (List.replicate (size - (unpadded number base type).length) (if has flags ZEROPAD then 48 else 32) ++
        unpadded number base type) out := by
    intro digits flags size hchars
    rw [reversed_spec hbase, hchars]
    dsimp only [bind, Except.bind]
    rw [ite_self, if_neg (Nat.not_lt_zero size), List.length_reverse, writePadding_eq, List.reverse_reverse, writeChars_append]
    rfl
  have hnot : ¬(base < 2 ∨ base > 36) := by omega
  unfold writeNumber numberChars
  dsimp only
  by_cases hleft : has type LEFT = true
  · rw [if_pos hleft, if_pos hleft, if_pos hleft, if_neg hnot]
    refine (hwrites _ _ _ ?_).trans ?_
    · rw [signOf_clear, prefixOf_clear]
      rfl
    · rw [Nat.zero_sub]
      rfl
  · rw [if_neg hleft, if_neg hleft, if_neg hleft, if_neg hnot]
    exact hwrites _ _ _ rfl

end KPanic.Printf

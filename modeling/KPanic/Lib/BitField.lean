import Mathlib.Tactic.Ring

/-!
# Bit fields of a 64-bit word

A C bit field is a range of bits of its storage unit. `get` reads the range as a number and
`put` overwrites it with the low bits of a number; every other bit keeps its value.
-/

namespace BitField

abbrev Word := BitVec 64

/-- Bits `lo .. lo + len - 1` of a word. -/
structure Field where
  lo : ℕ
  len : ℕ
  fits : lo + len ≤ 64 := by decide

/-- The bits of the field as a number. -/
def Field.get (f : Field) (w : Word) : ℕ := (w.extractLsb' f.lo f.len).toNat

/-- The word with the field overwritten by the low `len` bits of `v`. -/
def Field.put (f : Field) (w : Word) (v : ℕ) : Word :=
  (w &&& ~~~((BitVec.allOnes f.len).setWidth 64 <<< f.lo)) |||
    ((BitVec.ofNat f.len v).setWidth 64 <<< f.lo)

/-- The two fields share no bit. -/
def Field.Disjoint (f g : Field) : Prop := f.lo + f.len ≤ g.lo ∨ g.lo + g.len ≤ f.lo

instance (f g : Field) : Decidable (f.Disjoint g) := inferInstanceAs (Decidable (_ ∨ _))

theorem put_bit (f : Field) (w : Word) (v i : ℕ) (hi : i < 64) :
    (f.put w v).getLsbD i =
      if f.lo ≤ i ∧ i < f.lo + f.len then v.testBit (i - f.lo) else w.getLsbD i := by
  have hf := f.fits
  simp only [Field.put, BitVec.getLsbD_or, BitVec.getLsbD_and, BitVec.getLsbD_not,
    BitVec.getLsbD_shiftLeft, BitVec.getLsbD_setWidth, BitVec.getLsbD_allOnes,
    BitVec.getLsbD_ofNat]
  by_cases h : f.lo ≤ i
  · have hlt : ¬ i < f.lo := by omega
    by_cases h2 : i < f.lo + f.len
    · have h3 : i - f.lo < f.len := by omega
      have h4 : i - f.lo < 64 := by omega
      simp [hi, h, hlt, h2, h3, h4]
    · have h3 : ¬ i - f.lo < f.len := by omega
      simp [hi, h2, h3]
  · have hlt : i < f.lo := by omega
    simp [hi, h, hlt]

theorem get_put (f : Field) (w : Word) (v : ℕ) : f.get (f.put w v) = v % 2 ^ f.len := by
  have hf := f.fits
  have heq : (f.put w v).extractLsb' f.lo f.len = BitVec.ofNat f.len v := by
    apply BitVec.eq_of_getLsbD_eq
    intro i hi
    rw [BitVec.getLsbD_extractLsb', put_bit f w v (f.lo + i) (by omega)]
    rw [BitVec.getLsbD_ofNat]
    simp [hi]
  rw [Field.get, heq, BitVec.toNat_ofNat]

theorem get_put_of_lt (f : Field) (w : Word) (v : ℕ) (hv : v < 2 ^ f.len) :
    f.get (f.put w v) = v := by
  rw [get_put, Nat.mod_eq_of_lt hv]

/-- Writing one field leaves a disjoint one alone. -/
theorem get_put_disjoint (f g : Field) (h : f.Disjoint g) (w : Word) (v : ℕ) :
    f.get (g.put w v) = f.get w := by
  have hf := f.fits
  have heq : (g.put w v).extractLsb' f.lo f.len = w.extractLsb' f.lo f.len := by
    apply BitVec.eq_of_getLsbD_eq
    intro i hi
    have hout : ¬(g.lo ≤ f.lo + i ∧ f.lo + i < g.lo + g.len) := by
      rcases h with h | h <;> omega
    rw [BitVec.getLsbD_extractLsb', BitVec.getLsbD_extractLsb', put_bit g w v (f.lo + i) (by omega),
      if_neg hout]
  rw [Field.get, heq, Field.get]

@[simp] theorem get_zero (f : Field) : f.get 0 = 0 := by
  simp [Field.get]

end BitField

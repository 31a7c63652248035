import Mathlib.Data.UInt
import Mathlib.Data.List.TakeWhile
import Mathlib.Data.Nat.Digits.Lemmas
import Mathlib.Tactic.Common

/-!
# Numerals

Strings of digits, the most significant one first. A character that is no digit of any base has the value 36.
-/

namespace Numerals

def digit (c : UInt8) : ℕ :=
  if 48 ≤ c ∧ c ≤ 57 then c.toNat - 48
  else if 65 ≤ c ∧ c ≤ 90 then c.toNat - 55
  else if 97 ≤ c ∧ c ≤ 122 then c.toNat - 87
  else 36

/-- All characters are digits of the base. -/
def Digits (base : ℕ) (w : List UInt8) : Prop := ∀ c ∈ w, digit c < base

/-- The number, behind one that is read. -/
def valueFrom (base : ℕ) : ℕ → List UInt8 → ℕ
  | v, [] => v
  | v, c :: w => valueFrom base (v * base + digit c) w

def value (base : ℕ) (w : List UInt8) : ℕ := valueFrom base 0 w

/-- The digits that a string starts with. -/
def leading (base : ℕ) (s : List UInt8) : List UInt8 := s.takeWhile (digit · < base)

def behindDigits (base : ℕ) (s : List UInt8) : List UInt8 := s.dropWhile (digit · < base)

/-- The character of a digit. -/
def char (d : ℕ) : UInt8 := if d < 10 then UInt8.ofNat (48 + d) else UInt8.ofNat (87 + d)

/-- How a number is written. -/
def numeral (base n : ℕ) : List UInt8 := if n = 0 then [48] else ((Nat.digits base n).map char).reverse

variable {base v n : ℕ} {c : UInt8} {w s : List UInt8}

theorem valueFrom_concat (base v : ℕ) (w : List UInt8) (c : UInt8) :
    valueFrom base v (w ++ [c]) = valueFrom base v w * base + digit c := by
  induction w generalizing v with
  | nil => rfl
  | cons d w ih => exact ih (v * base + digit d)

theorem digits_leading (base : ℕ) (s : List UInt8) : Digits base (leading base s) := by
  intro c hc
  have hp := List.mem_takeWhile_imp (p := (digit · < base)) hc
  exact of_decide_eq_true hp

theorem leading_append (base : ℕ) (s : List UInt8) : leading base s ++ behindDigits base s = s :=
  List.takeWhile_append_dropWhile

theorem leading_cons (h : digit c < base) (s : List UInt8) : leading base (c :: s) = c :: leading base s :=
  List.takeWhile_cons_of_pos (decide_eq_true h)

theorem leading_cons_nil (h : ¬digit c < base) (s : List UInt8) : leading base (c :: s) = [] :=
  List.takeWhile_cons_of_neg (mt of_decide_eq_true h)

theorem behindDigits_cons (h : digit c < base) (s : List UInt8) : behindDigits base (c :: s) = behindDigits base s :=
  List.dropWhile_cons_of_pos (decide_eq_true h)

theorem behindDigits_cons_self (h : ¬digit c < base) (s : List UInt8) : behindDigits base (c :: s) = c :: s :=
  List.dropWhile_cons_of_neg (mt of_decide_eq_true h)

/-- No prefix of digits is longer. -/
theorem length_le_leading (hw : w <+: s) (h : Digits base w) : w.length ≤ (leading base s).length := by
  induction w generalizing s with
  | nil => exact Nat.zero_le _
  | cons c w ih =>
    cases s with
    | nil => exact absurd (List.prefix_nil.mp hw) (List.cons_ne_nil c w)
    | cons d s =>
      obtain ⟨rfl, hrest⟩ := List.cons_prefix_cons.mp hw
      rw [leading_cons (h c List.mem_cons_self), List.length_cons, List.length_cons]
      exact Nat.succ_le_succ (ih hrest fun d hd => h d (List.mem_cons_of_mem c hd))

theorem leading_of_digits (h : Digits base w) (hs : ∀ c r, s = c :: r → ¬digit c < base) : leading base (w ++ s) = w := by
  induction w with
  | nil =>
    cases s with
    | nil => rfl
    | cons c s => exact leading_cons_nil (hs c s rfl) s
  | cons c w ih =>
    have hw : Digits base w := fun d hd => h d (List.mem_cons_of_mem c hd)
    rw [List.cons_append, leading_cons (h c List.mem_cons_self), ih hw]

theorem leading_self (h : Digits base w) : leading base w = w := by
  have hleading := leading_of_digits (s := []) h fun c r hr => by cases hr
  rwa [List.append_nil] at hleading

theorem value_zeros (base k : ℕ) (w : List UInt8) : value base (List.replicate k 48 ++ w) = value base w := by
  induction k with
  | zero => rfl
  | succ k ih =>
    have hzero : 0 * base + digit 48 = 0 := by
      rw [Nat.zero_mul]
      rfl
    rw [List.replicate_succ, List.cons_append, value, valueFrom, hzero]
    exact ih

/-! ### Written numbers -/

theorem digit_char {d : ℕ} (hd : d < 36) : digit (char d) = d := by
  have hall : ∀ e < 36, digit (char e) = e := by decide
  exact hall d hd

theorem digits_numeral (hbase : 1 < base) (hle : base ≤ 36) (n : ℕ) : Digits base (numeral base n) := by
  intro c hc
  unfold numeral at hc
  split at hc
  · rw [List.mem_singleton.mp hc]
    exact Nat.lt_of_succ_lt hbase
  · obtain ⟨d, hd, rfl⟩ := List.mem_map.mp (List.mem_reverse.mp hc)
    have hlt := Nat.digits_lt_base hbase hd
    rwa [digit_char (Nat.lt_of_lt_of_le hlt hle)]

theorem value_numeral (hbase : 1 < base) (hle : base ≤ 36) (n : ℕ) : value base (numeral base n) = n := by
  unfold numeral
  by_cases hn : n = 0
  · rw [if_pos hn, hn, value, valueFrom, valueFrom, Nat.zero_mul]
    rfl
  · rw [if_neg hn]
    have hvalue : ∀ l : List ℕ, (∀ d ∈ l, d < 36) → value base (l.map char).reverse = Nat.ofDigits base l := by
      intro l hl
      induction l with
      | nil => rfl
      | cons d l ih =>
        rw [List.map_cons, List.reverse_cons, value, valueFrom_concat, ← value,
          ih fun e he => hl e (List.mem_cons_of_mem d he), digit_char (hl d List.mem_cons_self), Nat.ofDigits_cons]
        rw [Nat.mul_comm, Nat.add_comm]
    rw [hvalue _ fun d hd => Nat.lt_of_lt_of_le (Nat.digits_lt_base hbase hd) hle, Nat.ofDigits_digits]

theorem numeral_ne_nil (base n : ℕ) : numeral base n ≠ [] := by
  unfold numeral
  split
  · exact List.cons_ne_nil 48 []
  · rename_i hn
    rw [ne_eq, List.reverse_eq_nil_iff, List.map_eq_nil_iff]
    exact Nat.digits_ne_nil_iff_ne_zero.mpr hn

end Numerals

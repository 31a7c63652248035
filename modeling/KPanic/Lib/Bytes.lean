import Mathlib.Tactic.Common
import Mathlib.Tactic.Ring

/-!
# Byte-addressed memory

Words are stored in little-endian order. A store changes only the bytes it covers, and a load
depends only on the bytes it reads.
-/

namespace Bytes

abbrev Memory := ℕ → UInt8

/-- The `n` bytes from `a` on, as a number. -/
def load : ℕ → Memory → ℕ → ℕ
  | 0, _, _ => 0
  | n + 1, m, a => (m a).toNat + 256 * load n m (a + 1)

/-- The low `n` bytes of `v` go to `a`. -/
def store (n : ℕ) (m : Memory) (a v : ℕ) : Memory := fun b =>
  if a ≤ b ∧ b < a + n then UInt8.ofNat (v / 256 ^ (b - a)) else m b

/-- `memset` -/
def fill (m : Memory) (a n : ℕ) (c : UInt8) : Memory := fun b =>
  if a ≤ b ∧ b < a + n then c else m b

/-- `memcpy` -/
def copy (m : Memory) (dst src n : ℕ) : Memory := fun b =>
  if dst ≤ b ∧ b < dst + n then m (src + (b - dst)) else m b

/-- Addition of values of type `size_t`. -/
@[irreducible] def add64 (a b : ℕ) : ℕ := (a + b) % 2 ^ 64

/-- Subtraction of values of type `size_t`. -/
@[irreducible] def sub64 (a b : ℕ) : ℕ := (a + (2 ^ 64 - b % 2 ^ 64)) % 2 ^ 64

variable {m m' : Memory} {n k a b v : ℕ} {c : UInt8}

theorem add64_of_lt (h : a + b < 2 ^ 64) : add64 a b = a + b := by
  unfold add64
  omega

theorem sub64_of_le (h : b ≤ a) (ha : a < 2 ^ 64) : sub64 a b = a - b := by
  unfold sub64
  omega

theorem load_congr (h : ∀ b, a ≤ b → b < a + n → m' b = m b) : load n m' a = load n m a := by
  induction n generalizing a with
  | zero => rfl
  | succ n ih =>
    rw [load, load, h a le_rfl (by omega), ih fun b hb hlt => h b (by omega) (by omega)]

/-- Memory seen from an offset. -/
theorem load_shift : load n (fun i => m (a + i)) b = load n m (a + b) := by
  induction n generalizing b with
  | zero => rfl
  | succ n ih => rw [load, load, ih, Nat.add_assoc]

/-- The number that bytes given one by one make up. -/
theorem load_of_bytes (h : ∀ i < n, m (a + i) = UInt8.ofNat (v / 256 ^ i)) :
    load n m a = v % 256 ^ n := by
  induction n generalizing a v with
  | zero => rw [load, pow_zero, Nat.mod_one]
  | succ n ih =>
    have hfirst := h 0 (Nat.succ_pos n)
    rw [Nat.add_zero, pow_zero, Nat.div_one] at hfirst
    have hrest : load n m (a + 1) = v / 256 % 256 ^ n := by
      refine ih fun i hi => ?_
      have hi' := h (i + 1) (by omega)
      rw [show a + (i + 1) = a + 1 + i by omega] at hi'
      rw [hi', Nat.div_div_eq_div_mul, pow_succ, mul_comm]
    rw [load, hfirst, hrest, pow_succ, mul_comm (256 ^ n), Nat.mod_mul]
    simp

theorem load_store (n : ℕ) (m : Memory) (a v : ℕ) : load n (store n m a v) a = v % 256 ^ n := by
  refine load_of_bytes fun i hi => ?_
  rw [store, if_pos (by omega), Nat.add_sub_cancel_left]

theorem store_of_lt (h : v < 256 ^ n) : load n (store n m a v) a = v := by
  rw [load_store, Nat.mod_eq_of_lt h]

theorem store_apart (h : b < a ∨ a + n ≤ b) : store n m a v b = m b :=
  if_neg (by omega)

theorem load_store_apart (h : b + k ≤ a ∨ a + n ≤ b) :
    load k (store n m a v) b = load k m b :=
  load_congr fun i hi hlt => store_apart (by omega)

theorem store_store (n : ℕ) (m : Memory) (a v w : ℕ) :
    store n (store n m a v) a w = store n m a w := by
  funext b
  unfold store
  split
  · rfl
  · rfl

theorem load_eq_zero : load n m a = 0 ↔ ∀ b, a ≤ b → b < a + n → m b = 0 := by
  induction n generalizing a with
  | zero => exact iff_of_true rfl fun b hb hlt => by omega
  | succ n ih =>
    rw [load, Nat.add_eq_zero_iff, Nat.mul_eq_zero, ih]
    constructor
    · rintro ⟨hfirst, hzero | hrest⟩ b hb hlt
      · cases hzero
      · by_cases hab : b = a
        · rw [hab]
          exact UInt8.toNat_inj.mp hfirst
        · exact hrest b (by omega) (by omega)
    · intro h
      refine ⟨?_, .inr fun b hb hlt => h b (by omega) (by omega)⟩
      rw [h a le_rfl (by omega)]
      rfl

theorem store_zero (h : a ≤ b) (hlt : b < a + n) : store n m a 0 b = 0 := by
  rw [store, if_pos ⟨h, hlt⟩, Nat.zero_div]
  rfl

theorem fill_apart (h : b < a ∨ a + n ≤ b) : fill m a n c b = m b :=
  if_neg (by omega)

theorem fill_inside (h : a ≤ b) (hlt : b < a + n) : fill m a n c b = c :=
  if_pos ⟨h, hlt⟩

theorem copy_apart {src : ℕ} (h : b < a ∨ a + n ≤ b) : copy m a src n b = m b :=
  if_neg (by omega)

theorem copy_inside {src i : ℕ} (h : i < n) : copy m a src n (a + i) = m (src + i) := by
  rw [copy, if_pos (by omega), Nat.add_sub_cancel_left]

end Bytes

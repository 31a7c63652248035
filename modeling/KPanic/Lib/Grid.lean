import Mathlib.Algebra.Order.Group.Nat
import KPanic.Lib.Bytes

/-!
# Rows of cells in an array

Row `r` of a grid with `n` columns begins at `r * n`. Scrolling moves the array down by one row and fills the last one.
-/

namespace Grid

open Bytes (Memory copy fill)

def index (n row column : ℕ) : ℕ := column + row * n

variable {n m row row' column column' : ℕ} {memory : Memory} {c : UInt8}

theorem index_inj (row row' : ℕ) (h : column < n) (h' : column' < n) : index n row column = index n row' column' ↔ row = row' ∧ column = column' := by
  constructor
  · intro heq
    have hdiv := congrArg (· / n) heq
    have hmod := congrArg (· % n) heq
    simp only [index, Nat.add_mul_mod_self_right, Nat.mod_eq_of_lt h, Nat.mod_eq_of_lt h'] at hmod
    simp only [index, Nat.add_mul_div_right _ _ (Nat.zero_lt_of_lt h), Nat.div_eq_of_lt h, Nat.div_eq_of_lt h', Nat.zero_add] at hdiv
    exact ⟨hdiv, hmod⟩
  · rintro ⟨rfl, rfl⟩
    rfl

theorem index_succ (n row column : ℕ) : index n (row + 1) column = n + index n row column := by
  rw [index, index, Nat.succ_mul]
  omega

theorem index_lt (h : column < n) (hrow : row < m) : index n row column < m * n :=
  calc column + row * n < n + row * n := Nat.add_lt_add_right h _
    _ = (row + 1) * n := by rw [Nat.succ_mul, Nat.add_comm]
    _ ≤ m * n := Nat.mul_le_mul_right n hrow

theorem copy_row (h : column < n) (hrow : row < m) : copy memory 0 n (m * n) (index n row column) = memory (index n (row + 1) column) := by
  have hinside : copy memory 0 n (m * n) (0 + index n row column) = memory (n + index n row column) :=
    Bytes.copy_inside (index_lt h hrow)
  rw [Nat.zero_add] at hinside
  rw [hinside, index_succ]

theorem fill_row (h : column < n) (hrow : row < m) : fill memory (m * n) n c (index n row column) = memory (index n row column) :=
  Bytes.fill_apart (Or.inl (index_lt h hrow))

theorem fill_all (h : column < n) (hrow : row < m) : fill memory 0 (m * n) c (index n row column) = c :=
  Bytes.fill_inside (Nat.zero_le _) (by rw [Nat.zero_add]; exact index_lt h hrow)

end Grid

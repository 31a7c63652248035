import Mathlib.Logic.Function.Basic
import Mathlib.Tactic.Common

/-!
# Queues in arrays

The elements of a queue are in the slots behind `read`, up to the one before `write`; behind the last
slot comes the first. The slot at `read` is empty, so one element less than there are slots fits, and
the queue is full when `write` has come to `read`.
-/

namespace Ring

open Function

structure Wf (size write read : ℕ) : Prop where
  two : 2 ≤ size
  write_lt : write < size
  read_lt : read < size

/-- The number of elements. -/
def stored (size write read : ℕ) : ℕ := if read < write then write - read - 1 else write + size - read - 1

variable {α : Type} {slots : ℕ → α} {size write read : ℕ}

/-- The elements, the oldest first. -/
def contents (slots : ℕ → α) (size write read : ℕ) : List α :=
  (List.range (stored size write read)).map fun i => slots ((read + 1 + i) % size)

@[simp] theorem length_contents : (contents slots size write read).length = stored size write read := by
  simp [contents]

theorem wrap {i : ℕ} (hi : i < 2 * size) : i % size = if i < size then i else i - size := by
  split
  · rename_i h
    exact Nat.mod_eq_of_lt h
  · rename_i h
    rw [Nat.mod_eq_sub_mod (Nat.not_lt.mp h), Nat.mod_eq_of_lt (by omega)]

theorem Wf.next (h : Wf size write read) {i : ℕ} (hi : i < size) : (i + 1) % size = if i + 1 < size then i + 1 else 0 := by
  have hsize := h.two
  rw [wrap (by omega)]
  split
  · rfl
  · omega

theorem Wf.stored_lt (h : Wf size write read) : stored size write read < size := by
  have hwrite := h.write_lt
  have hread := h.read_lt
  unfold stored
  split
  · omega
  · omega

theorem Wf.full_iff (h : Wf size write read) : stored size write read = size - 1 ↔ write = read := by
  have hwrite := h.write_lt
  have hread := h.read_lt
  unfold stored
  split
  · omega
  · omega

theorem Wf.empty_iff (h : Wf size write read) : stored size write read = 0 ↔ write = (read + 1) % size := by
  have hwrite := h.write_lt
  have hread := h.read_lt
  rw [h.next hread]
  unfold stored
  split
  · split
    · omega
    · omega
  · split
    · omega
    · omega

theorem Wf.push (h : Wf size write read) : Wf size ((write + 1) % size) read :=
  ⟨h.two, Nat.mod_lt _ (by have := h.two; omega), h.read_lt⟩

theorem Wf.pop (h : Wf size write read) : Wf size write ((read + 1) % size) :=
  ⟨h.two, h.write_lt, Nat.mod_lt _ (by have := h.two; omega)⟩

theorem Wf.stored_push (h : Wf size write read) (hfull : write ≠ read) :
    stored size ((write + 1) % size) read = stored size write read + 1 := by
  have hwrite := h.write_lt
  have hread := h.read_lt
  rw [h.next hwrite]
  unfold stored
  split <;> split <;> split <;> omega

theorem Wf.stored_pop (h : Wf size write read) (hsome : write ≠ (read + 1) % size) :
    stored size write read = stored size write ((read + 1) % size) + 1 := by
  have hwrite := h.write_lt
  have hread := h.read_lt
  rw [h.next hread] at hsome ⊢
  unfold stored
  split at hsome
  · split <;> split <;> omega
  · split <;> split <;> omega

/-- The first free slot is the one at `write`. -/
theorem Wf.slot_stored (h : Wf size write read) : (read + 1 + stored size write read) % size = write := by
  have hwrite := h.write_lt
  have hread := h.read_lt
  have hsize := h.two
  have hlt := h.stored_lt
  rw [wrap (by omega)]
  unfold stored
  split <;> split <;> omega

theorem Wf.slot_ne (h : Wf size write read) {i : ℕ} (hi : i < stored size write read) :
    (read + 1 + i) % size ≠ write := by
  have hwrite := h.write_lt
  have hread := h.read_lt
  have hsize := h.two
  have hlt := h.stored_lt
  rw [wrap (by omega)]
  unfold stored at hi
  split at hi
  · split <;> omega
  · split <;> omega

theorem Wf.contents_push (h : Wf size write read) (hfull : write ≠ read) (c : α) :
    contents (update slots write c) size ((write + 1) % size) read = contents slots size write read ++ [c] := by
  unfold contents
  rw [h.stored_push hfull, List.range_succ, List.map_append, List.map_singleton, h.slot_stored, update_self]
  congr 1
  refine List.map_congr_left fun i hi => ?_
  rw [update_of_ne (h.slot_ne (List.mem_range.mp hi))]

theorem Wf.contents_pop (h : Wf size write read) (hsome : write ≠ (read + 1) % size) :
    contents slots size write read =
      slots ((read + 1) % size) :: contents slots size write ((read + 1) % size) := by
  unfold contents
  rw [h.stored_pop hsome, List.range_succ_eq_map, List.map_cons, Nat.add_zero, List.map_map]
  congr 1
  refine List.map_congr_left fun i _ => ?_
  rw [comp_apply, Nat.add_assoc ((read + 1) % size), Nat.mod_add_mod]
  congr 2
  omega

theorem contents_one (slots : ℕ → α) (size : ℕ) : contents slots size 1 0 = [] := rfl

end Ring

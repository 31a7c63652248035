import KPanic.Console.Console

/-!
# The cells of a terminal and of the screen

Every drawing is described cell by cell. The row behind the last one of the screen and the cells behind the cursor are not read off.
-/

namespace KPanic.Terminals

open Function
open Bytes (Memory)

structure Cell where
  character : UInt8
  state : UInt8
  deriving DecidableEq

def Terminal.cell (t : Terminal) (row column : ℕ) : Cell :=
  ⟨t.characters_ (Grid.index t.num_columns_ row column), t.character_states_ (Grid.index t.num_columns_ row column)⟩

def screenCell (fb : Memory) (row column : ℕ) : Cell :=
  ⟨fb (Grid.index consoleGetNumColumns row column * 2), fb (Grid.index consoleGetNumColumns row column * 2 + 1)⟩

structure Terminal.Sized (t : Terminal) : Prop where
  columns : t.num_columns_ = consoleGetNumColumns
  rows : t.num_rows_ = consoleGetNumRows

variable {o : Output} {t : Terminal} {fb : Memory} {row column r j k n : ℕ} {character state : UInt8}

/-! ### The screen -/

theorem screenCell_set (hcolumn : column < consoleGetNumColumns) (hj : j < consoleGetNumColumns) :
    screenCell (consoleSetCharacter row column character state fb) r j =
      if r = row ∧ j = column then ⟨character, state⟩ else screenCell fb r j := by
  have hindex := Grid.index_inj r row hj hcolumn
  simp only [screenCell, consoleSetCharacter, update_apply]
  by_cases hhere : r = row ∧ j = column
  · rw [hindex.mpr hhere]
    simp [hhere]
  · have hne := mt hindex.mp hhere
    rw [if_neg (by omega), if_neg (by omega), if_neg (by omega), if_neg (by omega), if_neg hhere]

theorem screenCell_blankRow (hk : k ≤ consoleGetNumColumns) (hj : j < consoleGetNumColumns) :
    screenCell (blankRow state k fb) r j = if r = consoleGetNumRows - 1 ∧ j < k then ⟨space, state⟩ else screenCell fb r j := by
  induction k with
  | zero => simp [blankRow]
  | succ k ih =>
    rw [blankRow, screenCell_set (by omega) hj, ih (by omega)]
    split_ifs <;> first | rfl | omega

/-- A row that is not the status row and not the last one takes what was in the row below it. -/
theorem screenCell_scrollUp (hr : STAT_ROWS ≤ r) (hlast : r < consoleGetNumRows - 1) (hj : j < consoleGetNumColumns) :
    screenCell (consoleScrollUp state fb) r j = screenCell fb (r + 1) j := by
  have hindex := Grid.index_lt hj hlast
  have hsucc := Grid.index_succ consoleGetNumColumns r j
  have hstat : consoleGetNumColumns * 1 ≤ Grid.index consoleGetNumColumns r j := by
    have hle : STAT_ROWS * consoleGetNumColumns ≤ r * consoleGetNumColumns := Nat.mul_le_mul_right _ hr
    simp only [Grid.index, STAT_ROWS] at hle ⊢
    omega
  rw [consoleScrollUp, screenCell_blankRow le_rfl hj, if_neg (by omega)]
  simp only [consoleGetNumColumns, consoleGetNumRows, STAT_ROWS] at hindex hsucc hstat ⊢
  have hbyte : ∀ i < 4000, Bytes.copy fb 160 320 4000 (160 + i) = fb (320 + i) := fun i hi => Bytes.copy_inside hi
  simp only [screenCell, consoleGetNumColumns, hsucc]
  rw [show Grid.index 80 r j * 2 = 160 + (Grid.index 80 r j * 2 - 160) by omega, hbyte _ (by omega), Nat.add_assoc, hbyte _ (by omega),
    show 320 + (Grid.index 80 r j * 2 - 160) = (80 + Grid.index 80 r j) * 2 by omega,
    show 320 + (Grid.index 80 r j * 2 - 160 + 1) = (80 + Grid.index 80 r j) * 2 + 1 by omega]

theorem screenCell_redrawRow (hk : k ≤ consoleGetNumColumns) (hj : j < consoleGetNumColumns) :
    screenCell (Output.redrawRow t row k fb) r j = if r = row ∧ j < k then t.cell r j else screenCell fb r j := by
  induction k with
  | zero => simp [Output.redrawRow]
  | succ k ih =>
    rw [Output.redrawRow, screenCell_set (by omega) hj, ih (by omega)]
    by_cases hhere : r = row ∧ j = k
    · obtain ⟨rfl, rfl⟩ := hhere
      rw [if_pos ⟨rfl, rfl⟩, if_pos ⟨rfl, Nat.lt_succ_self _⟩, Terminal.cell, Grid.index, Nat.add_comm j]
    · rw [if_neg hhere]
      split_ifs <;> first | rfl | omega

theorem screenCell_redrawRows (ht : t.Sized) (hj : j < consoleGetNumColumns) :
    screenCell (Output.redrawRows t k fb) r j = if r < k then t.cell r j else screenCell fb r j := by
  induction k with
  | zero => simp [Output.redrawRows]
  | succ k ih =>
    rw [Output.redrawRows, ht.columns, screenCell_redrawRow le_rfl hj, ih]
    split_ifs <;> first | rfl | omega

/-! ### The arrays -/

theorem cell_setCharacter (o : Output) (row r : ℕ) (character : UInt8) (hcolumn : column < o.term.num_columns_) (hj : j < o.term.num_columns_) :
    (o.setCharacter row column character).term.cell r j =
      if r = row ∧ j = column then ⟨character, o.term.current_state_⟩ else o.term.cell r j := by
  have hindex := Grid.index_inj r row hj hcolumn
  simp only [Terminal.cell, Output.setCharacter, update_apply, hindex]
  split <;> rfl

theorem cell_scrollUp (hr : r < o.term.num_rows_ - 1) (hj : j < o.term.num_columns_) :
    o.scrollUp.term.cell r j = o.term.cell (r + 1) j := by
  simp only [Terminal.cell, Output.scrollUp]
  rw [Grid.fill_row hj hr, Grid.fill_row hj hr, Grid.copy_row hj hr, Grid.copy_row hj hr]

/-! ### What drawing keeps -/

/-- `o'` is `o` after it was drawn to. -/
structure Output.Drawn (o o' : Output) : Prop where
  num_columns_ : o'.term.num_columns_ = o.term.num_columns_
  num_rows_ : o'.term.num_rows_ = o.term.num_rows_
  current_state_ : o'.term.current_state_ = o.term.current_state_
  active_ : o'.term.active_ = o.term.active_
  in_buffer_ : o'.term.in_buffer_ = o.term.in_buffer_
  fb : o.term.active_ = false → o'.fb = o.fb

theorem Output.Drawn.refl (o : Output) : Output.Drawn o o := ⟨rfl, rfl, rfl, rfl, rfl, fun _ => rfl⟩

theorem Output.Drawn.trans {o₁ o₂ : Output} (h : Output.Drawn o o₁) (h' : Output.Drawn o₁ o₂) : Output.Drawn o o₂ where
  num_columns_ := h'.num_columns_.trans h.num_columns_
  num_rows_ := h'.num_rows_.trans h.num_rows_
  current_state_ := h'.current_state_.trans h.current_state_
  active_ := h'.active_.trans h.active_
  in_buffer_ := h'.in_buffer_.trans h.in_buffer_
  fb hoff := (h'.fb (h.active_.trans hoff)).trans (h.fb hoff)

theorem Output.Drawn.sized {o' : Output} (h : Output.Drawn o o') (ho : o.term.Sized) : o'.term.Sized :=
  ⟨h.num_columns_.trans ho.columns, h.num_rows_.trans ho.rows⟩

theorem drawn_setCharacter (o : Output) (row column : ℕ) (character : UInt8) : o.Drawn (o.setCharacter row column character) :=
  ⟨rfl, rfl, rfl, rfl, rfl, fun hoff => by simp [Output.setCharacter, hoff]⟩

theorem drawn_scrollUp (o : Output) : o.Drawn o.scrollUp := ⟨rfl, rfl, rfl, rfl, rfl, fun hoff => by simp [Output.scrollUp, hoff]⟩

theorem drawn_setColumn (o : Output) (column : ℕ) : o.Drawn (o.setColumn column) := ⟨rfl, rfl, rfl, rfl, rfl, fun _ => rfl⟩

theorem drawn_erase (o : Output) : o.Drawn o.erase := by
  unfold Output.erase
  split
  · exact .refl o
  · exact (drawn_setColumn o _).trans (drawn_setCharacter _ _ _ _)

theorem drawn_fillLine (n : ℕ) (o : Output) : o.Drawn (o.fillLine n) := by
  induction n generalizing o with
  | zero => exact .refl o
  | succ n ih =>
    rw [Output.fillLine]
    split
    · exact ((drawn_setCharacter o _ _ _).trans (drawn_setColumn _ _)).trans (ih _)
    · exact .refl o

theorem drawn_newLine (o : Output) : o.Drawn o.newLine :=
  ((drawn_fillLine _ o).trans (drawn_scrollUp _)).trans (drawn_setColumn _ _)

theorem drawn_put (o : Output) (character : UInt8) : o.Drawn (o.put character) := by
  have hset := (drawn_setCharacter o (o.term.num_rows_ - 1) o.term.current_column_ character).trans
    (drawn_setColumn _ (o.term.current_column_ + 1))
  simp only [Output.put]
  split
  · exact (hset.trans (drawn_scrollUp _)).trans (drawn_setColumn _ _)
  · exact hset

theorem drawn_writeInternal (o : Output) (character : UInt8) : o.Drawn (o.writeInternal character) := by
  unfold Output.writeInternal
  split
  · exact drawn_newLine o
  split
  · exact drawn_erase o
  · exact drawn_put o character

end KPanic.Terminals

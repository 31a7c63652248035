import KPanic.Console.Cells

/-!
# The sheet behind a terminal

What is written to a terminal is a sheet of paper that ends in the line of the cursor. The terminal shows its last lines; the screen shows
those of the active terminal, but for the status row.
-/

namespace KPanic.Terminals

open Bytes (Memory)

/-- Finished lines, the last one first, and the line of the cursor. -/
structure Sheet (n : ℕ) where
  lines : List (Fin n → Cell)
  current : List Cell
  current_lt : current.length < n
  color : UInt8
  /-- What is above the first line. -/
  top : Cell

namespace Sheet

variable {n : ℕ}

/-- The cell at column `j`, `i` lines above that of the cursor. -/
def cell (s : Sheet n) (i : ℕ) (j : Fin n) : Cell :=
  match s.lines[i]? with
  | some cells => cells j
  | none => s.top

/-- Ends the line, which is as `cells` says and then blank. -/
def endLine (s : Sheet n) (cells : List Cell) : Sheet n :=
  { s with
    lines := (fun j => (cells[j.val]?).getD ⟨space, s.color⟩) :: s.lines
    current := []
    current_lt := Nat.zero_lt_of_lt s.current_lt }

def dropLast (s : Sheet n) : Sheet n :=
  { s with
    current := s.current.dropLast
    current_lt := Nat.lt_of_le_of_lt (by simp) s.current_lt }

/-- A line that is full ends. -/
def append (s : Sheet n) (cell : Cell) : Sheet n :=
  if h : (s.current ++ [cell]).length < n then { s with current := s.current ++ [cell], current_lt := h }
  else s.endLine (s.current ++ [cell])

def mark (s : Sheet n) : Mark → Sheet n
  | .character character =>
    if character = newline ∨ character = return_ then s.endLine s.current
    else if character = backspace then s.dropLast
    else s.append ⟨character, s.color⟩
  | .foreground color => { s with color := (s.color &&& ~~~(15 : UInt8)) ||| color }
  | .background color => { s with color := (s.color &&& ~~~(240 : UInt8)) ||| (color <<< 4) }

def typeset (s : Sheet n) (marks : List Mark) : Sheet n := marks.foldl mark s

@[simp] theorem endLine_current (s : Sheet n) (cells : List Cell) : (s.endLine cells).current = [] := rfl

@[simp] theorem endLine_color (s : Sheet n) (cells : List Cell) : (s.endLine cells).color = s.color := rfl

theorem endLine_cell_zero (s : Sheet n) (cells : List Cell) (j : Fin n) :
    (s.endLine cells).cell 0 j = (cells[j.val]?).getD ⟨space, s.color⟩ := rfl

theorem endLine_cell_succ (s : Sheet n) (cells : List Cell) (i : ℕ) (j : Fin n) : (s.endLine cells).cell (i + 1) j = s.cell i j := rfl

end Sheet

/-! ### Rows that hold the end of a sheet -/

/-- The row `last` of `g` begins with `cells`, and above it, down to row `top`, is what `above` says. -/
structure Holds {n : ℕ} (g : ℕ → ℕ → Cell) (top last : ℕ) (cells : List Cell) (above : ℕ → Fin n → Cell) : Prop where
  bottom : ∀ i (h : i < cells.length), g last i = cells[i]
  above : ∀ i, top + i < last → ∀ j : Fin n, g (last - 1 - i) j = above i j

namespace Holds

variable {n top last : ℕ} {g g' : ℕ → ℕ → Cell} {cells : List Cell} {above above' : ℕ → Fin n → Cell} {cell : Cell}

theorem append (h : Holds g top last cells above) (hlength : cells.length < n)
    (hset : ∀ r j, j < n → g' r j = if r = last ∧ j = cells.length then cell else g r j) : Holds g' top last (cells ++ [cell]) above where
  bottom i hi := by
    rw [List.length_append, List.length_singleton] at hi
    rw [hset last i (by omega), List.getElem_append]
    split
    · rename_i heq
      simp [heq.2]
    · rename_i hne
      have hlt : i < cells.length := by omega
      rw [dif_pos hlt]
      exact h.bottom i hlt
  above i hi j := by
    rw [hset _ _ j.isLt, if_neg (by omega)]
    exact h.above i hi j

theorem dropLast (h : Holds g top last cells above) (cell : Cell)
    (hset : ∀ r j, j < n → g' r j = if r = last ∧ j = cells.length - 1 then cell else g r j) (hlength : cells.length ≤ n) :
    Holds g' top last cells.dropLast above where
  bottom i hi := by
    rw [List.length_dropLast] at hi
    rw [hset last i (by omega), if_neg (by omega), List.getElem_dropLast]
    exact h.bottom i (by omega)
  above i hi j := by
    rw [hset _ _ j.isLt, if_neg (by omega)]
    exact h.above i hi j

theorem scroll (h : Holds g top last cells above) (hlength : cells.length = n)
    (hscroll : ∀ r j, top ≤ r → r < last → j < n → g' r j = g (r + 1) j)
    (hfirst : ∀ j : Fin n, above' 0 j = cells[j.val]) (hrest : ∀ i j, above' (i + 1) j = above i j) : Holds g' top last [] above' where
  bottom i hi := by cases hi
  above i hi j := by
    rw [hscroll _ _ (by omega) (by omega) j.isLt]
    cases i with
    | zero =>
      rw [hfirst j, show last - 1 - 0 + 1 = last by omega]
      exact h.bottom j (hlength ▸ j.isLt)
    | succ i =>
      rw [hrest, show last - 1 - (i + 1) + 1 = last - 1 - i by omega]
      exact h.above i (by omega) j

theorem congr {top' : ℕ} (h : Holds g top last cells above) (htop : top ≤ top') (hlength : cells.length ≤ n)
    (hsame : ∀ r j, r ≤ last → j < n → g' r j = g r j) : Holds g' top' last cells above where
  bottom i hi := (hsame last i le_rfl (by omega)).trans (h.bottom i hi)
  above i hi j := (hsame _ _ (by omega) j.isLt).trans (h.above i (by omega) j)

end Holds

/-! ### Terminals -/

def lastRow : ℕ := consoleGetNumRows - 1

/-- The terminal carries `cells` in the line of the cursor, and so does the screen if the terminal is active. -/
structure Output.Carries (o : Output) (cells : List Cell) (above : ℕ → Fin consoleGetNumColumns → Cell) : Prop where
  sized : o.term.Sized
  length_le : cells.length ≤ consoleGetNumColumns
  column : o.term.current_column_ = cells.length
  term : Holds o.term.cell 0 lastRow cells above
  screen : o.term.active_ = true → Holds (screenCell o.fb) STAT_ROWS lastRow cells above

namespace Output.Carries

variable {o : Output} {cells : List Cell} {above above' : ℕ → Fin consoleGetNumColumns → Cell}

theorem rows_eq (h : o.Carries cells above) : o.term.num_rows_ - 1 = lastRow := by rw [h.sized.rows, lastRow]

theorem append (h : o.Carries cells above) (hlength : cells.length < consoleGetNumColumns) (character : UInt8) :
    ((o.setCharacter (o.term.num_rows_ - 1) o.term.current_column_ character).setColumn (o.term.current_column_ + 1)).Carries
      (cells ++ [⟨character, o.term.current_state_⟩]) above where
  sized := ((drawn_setCharacter o _ _ _).trans (drawn_setColumn _ _)).sized h.sized
  length_le := by
    rw [List.length_append, List.length_singleton]
    omega
  column := by
    rw [List.length_append, List.length_singleton, ← h.column]
    rfl
  term := by
    refine h.term.append hlength fun r j hj => ?_
    have hcolumns := h.sized.columns
    have hcursor : o.term.current_column_ < o.term.num_columns_ := by rw [h.column]; omega
    have hcell := cell_setCharacter o (o.term.num_rows_ - 1) r character hcursor (show j < o.term.num_columns_ by omega)
    rw [h.rows_eq, h.column] at hcell
    rw [h.rows_eq, h.column]
    exact hcell
  screen hactive := by
    refine (h.screen hactive).append hlength fun r j hj => ?_
    have hactive : o.term.active_ = true := hactive
    rw [h.rows_eq, h.column]
    simp only [Output.setColumn, Output.setCharacter, hactive, if_true]
    exact screenCell_set hlength hj

theorem erase (h : o.Carries cells above) : o.erase.Carries cells.dropLast above := by
  unfold Output.erase
  split
  · rename_i hzero
    have hnil : cells = [] := List.eq_nil_of_length_eq_zero (h.column.symm.trans hzero)
    subst hnil
    exact h
  · rename_i hsome
    have hcolumn := h.column
    have hcolumns := h.sized.columns
    have hle := h.length_le
    refine ⟨((drawn_setColumn o _).trans (drawn_setCharacter _ _ _ _)).sized h.sized, ?_, ?_, ?_, fun hactive => ?_⟩
    · rw [List.length_dropLast]
      omega
    · rw [List.length_dropLast, ← hcolumn]
      rfl
    · refine h.term.dropLast ⟨space, o.term.current_state_⟩ (fun r j hj => ?_) hle
      have hcursor : o.term.current_column_ - 1 < o.term.num_columns_ := by omega
      have hcell := cell_setCharacter (o.setColumn (o.term.current_column_ - 1)) (o.term.num_rows_ - 1) r space hcursor
        (show j < o.term.num_columns_ by omega)
      rw [h.rows_eq, hcolumn] at hcell
      rw [h.rows_eq, hcolumn]
      exact hcell
    · have hactive : o.term.active_ = true := hactive
      refine (h.screen hactive).dropLast ⟨space, o.term.current_state_⟩ (fun r j hj => ?_) hle
      rw [h.rows_eq, hcolumn]
      simp only [Output.setColumn, Output.setCharacter, hactive, if_true]
      exact screenCell_set (by omega) hj

theorem scroll (h : o.Carries cells above) (hlength : cells.length = consoleGetNumColumns)
    (hfirst : ∀ j : Fin consoleGetNumColumns, above' 0 j = cells[j.val]) (hrest : ∀ i j, above' (i + 1) j = above i j) :
    (o.scrollUp.setColumn 0).Carries [] above' where
  sized := ((drawn_scrollUp o).trans (drawn_setColumn _ _)).sized h.sized
  length_le := Nat.zero_le _
  column := rfl
  term := by
    refine h.term.scroll hlength (fun r j _ hr hj => ?_) hfirst hrest
    exact cell_scrollUp (h.rows_eq ▸ hr) (h.sized.columns ▸ hj)
  screen hactive := by
    have hactive : o.term.active_ = true := hactive
    refine (h.screen hactive).scroll hlength (fun r j htop hr hj => ?_) hfirst hrest
    simp only [Output.setColumn, Output.scrollUp, hactive, if_true]
    exact screenCell_scrollUp htop hr hj

theorem fillLine {n : ℕ} (h : o.Carries cells above) (hn : consoleGetNumColumns ≤ cells.length + n) :
    (o.fillLine n).Carries
      (cells ++ List.replicate (consoleGetNumColumns - cells.length) ⟨space, o.term.current_state_⟩) above := by
  induction n generalizing o cells with
  | zero =>
    have hle := h.length_le
    rw [show consoleGetNumColumns - cells.length = 0 by omega, List.replicate_zero, List.append_nil]
    exact h
  | succ n ih =>
    rw [Output.fillLine]
    have hcolumn := h.column
    have hcolumns := h.sized.columns
    split
    · rename_i hlt
      have happend := h.append (by omega) space
      have hrest := ih happend (by rw [List.length_append, List.length_singleton]; omega)
      rw [List.length_append, List.length_singleton, List.append_assoc, List.singleton_append] at hrest
      rw [show consoleGetNumColumns - cells.length = consoleGetNumColumns - (cells.length + 1) + 1 by omega, List.replicate_succ]
      exact hrest
    · rename_i hge
      have hle := h.length_le
      rw [show consoleGetNumColumns - cells.length = 0 by omega, List.replicate_zero, List.append_nil]
      exact h

end Output.Carries

/-- The terminal displays the end of the sheet, and so does the screen if the terminal is active. -/
structure Output.Displays (o : Output) (s : Sheet consoleGetNumColumns) : Prop where
  color : o.term.current_state_ = s.color
  carries : o.Carries s.current s.cell

theorem Output.Displays.newLine {o : Output} {s : Sheet consoleGetNumColumns} (h : o.Displays s) :
    o.newLine.Displays (s.endLine s.current) := by
  have hlt := s.current_lt
  have hfill := h.carries.fillLine (n := o.term.num_columns_) (by rw [h.carries.sized.columns]; omega)
  refine ⟨?_, ?_⟩
  · rw [(drawn_newLine o).current_state_, h.color]
    rfl
  · refine hfill.scroll (by simp; omega) (fun j => ?_) fun i j => s.endLine_cell_succ _ i j
    rw [s.endLine_cell_zero, List.getElem_append, h.color]
    split
    · rename_i hj
      rw [List.getElem?_eq_getElem hj]
      rfl
    · rename_i hj
      rw [List.getElem?_eq_none (Nat.not_lt.mp hj), List.getElem_replicate]
      rfl

theorem Output.Displays.erase {o : Output} {s : Sheet consoleGetNumColumns} (h : o.Displays s) : o.erase.Displays s.dropLast :=
  ⟨(drawn_erase o).current_state_.trans h.color, h.carries.erase⟩

theorem Output.Displays.put {o : Output} {s : Sheet consoleGetNumColumns} (h : o.Displays s) (character : UInt8) :
    (o.put character).Displays (s.append ⟨character, s.color⟩) := by
  have hlt := s.current_lt
  have happend := h.carries.append hlt character
  rw [h.color] at happend
  have hcolumn := happend.column
  have hcolumns := happend.sized.columns
  have hle := happend.length_le
  refine ⟨?_, ?_⟩
  · rw [(drawn_put o character).current_state_, h.color, Sheet.append]
    split <;> rfl
  · simp only [Output.put, Sheet.append]
    split
    · rename_i hfull
      rw [dif_neg (by omega)]
      refine happend.scroll (by omega) (fun j => ?_) fun i j => s.endLine_cell_succ _ i j
      have hj : j.val < (s.current ++ [Cell.mk character s.color]).length := by omega
      rw [s.endLine_cell_zero, List.getElem?_eq_getElem hj]
      rfl
    · rename_i hroom
      rw [dif_pos (by omega)]
      exact happend

theorem Output.Displays.writeInternal {o : Output} {s : Sheet consoleGetNumColumns} (h : o.Displays s) (character : UInt8) :
    (o.writeInternal character).Displays (s.mark (.character character)) := by
  unfold Output.writeInternal Sheet.mark
  dsimp only
  split
  · exact h.newLine
  split
  · exact h.erase
  · exact h.put character

end KPanic.Terminals

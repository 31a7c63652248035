import Mathlib.Logic.Function.Basic
import KPanic.Lib.Grid
import KPanic.Util.FiFo

/-!
# `common/source/console/Terminal.cpp` and `TextConsole.cpp`

A call that writes to a terminal holds the mutex of the terminal and the drawing lock of the console, so what it does to the arrays and
to the frame buffer is one step.
-/

namespace KPanic.Terminals

open Function
open Bytes (Memory)

def consoleGetNumRows : ℕ := 25
def consoleGetNumColumns : ℕ := 80
def STAT_ROWS : ℕ := 1

def BLACK : UInt8 := 0
def WHITE : UInt8 := 7

def newline : UInt8 := 10
def return_ : UInt8 := 13
def backspace : UInt8 := 8
def space : UInt8 := 32

structure Terminal where
  num_columns_ : ℕ
  num_rows_ : ℕ
  characters_ : Memory
  character_states_ : Memory
  current_column_ : ℕ
  current_state_ : UInt8
  active_ : Bool
  in_buffer_ : FiFo (BitVec 32)

/-- The constructor; `memory` and `memory'` are what was in the arrays. -/
def Terminal.new (num_columns num_rows : ℕ) (memory memory' : Memory) : Terminal where
  num_columns_ := num_columns
  num_rows_ := num_rows
  characters_ := Bytes.fill memory 0 (num_rows * num_columns) space
  character_states_ := Bytes.fill memory' 0 (num_rows * num_columns) 0
  current_column_ := 0
  current_state_ := 0x93
  active_ := false
  in_buffer_ := FiFo.new 512 0 fun _ => 0

/-! ### `TextConsole.cpp` -/

def consoleSetCharacter (row column : ℕ) (character state : UInt8) (fb : Memory) : Memory :=
  update (update fb (Grid.index consoleGetNumColumns row column * 2) character) (Grid.index consoleGetNumColumns row column * 2 + 1) state

def blankRow (state : UInt8) : ℕ → Memory → Memory
  | 0, fb => fb
  | i + 1, fb => consoleSetCharacter (consoleGetNumRows - 1) i space state (blankRow state i fb)

/-- It moves one row too many: the last one of the source is behind the screen. -/
def consoleScrollUp (state : UInt8) (fb : Memory) : Memory :=
  blankRow state consoleGetNumColumns
    (Bytes.copy fb (consoleGetNumColumns * 2 * STAT_ROWS) (consoleGetNumColumns * 2 * (STAT_ROWS + 1))
      ((consoleGetNumRows - 1 + STAT_ROWS) * consoleGetNumColumns * 2))

def consoleClearScreen (fb : Memory) : Memory := Bytes.fill fb 0 (consoleGetNumRows * consoleGetNumColumns * 2) 0

/-! ### `Terminal.cpp` -/

/-- A terminal, and the frame buffer that it draws on. -/
structure Output where
  term : Terminal
  fb : Memory

namespace Output

def setCharacter (o : Output) (row column : ℕ) (character : UInt8) : Output where
  term := { o.term with
    characters_ := update o.term.characters_ (Grid.index o.term.num_columns_ row column) character
    character_states_ := update o.term.character_states_ (Grid.index o.term.num_columns_ row column) o.term.current_state_ }
  fb := if o.term.active_ then consoleSetCharacter row column character o.term.current_state_ o.fb else o.fb

def scrollUp (o : Output) : Output where
  term := { o.term with
    characters_ := Bytes.fill (Bytes.copy o.term.characters_ 0 o.term.num_columns_ ((o.term.num_rows_ - 1) * o.term.num_columns_))
      ((o.term.num_rows_ - 1) * o.term.num_columns_) o.term.num_columns_ 0
    character_states_ := Bytes.fill (Bytes.copy o.term.character_states_ 0 o.term.num_columns_ ((o.term.num_rows_ - 1) * o.term.num_columns_))
      ((o.term.num_rows_ - 1) * o.term.num_columns_) o.term.num_columns_ 0 }
  fb := if o.term.active_ then consoleScrollUp o.term.current_state_ o.fb else o.fb

def setColumn (o : Output) (column : ℕ) : Output := { o with term := { o.term with current_column_ := column } }

/-- `backspace`, after the key that it takes from the buffer. -/
def erase (o : Output) : Output :=
  if o.term.current_column_ = 0 then o
  else (o.setColumn (o.term.current_column_ - 1)).setCharacter (o.term.num_rows_ - 1) (o.term.current_column_ - 1) space

/-- The loop that fills the line, of at most `n` passes. -/
def fillLine : ℕ → Output → Output
  | 0, o => o
  | n + 1, o =>
    if o.term.current_column_ < o.term.num_columns_ then
      fillLine n ((o.setCharacter (o.term.num_rows_ - 1) o.term.current_column_ space).setColumn (o.term.current_column_ + 1))
    else o

def newLine (o : Output) : Output := (fillLine o.term.num_columns_ o).scrollUp.setColumn 0

def put (o : Output) (character : UInt8) : Output :=
  let o := (o.setCharacter (o.term.num_rows_ - 1) o.term.current_column_ character).setColumn (o.term.current_column_ + 1)
  if o.term.current_column_ ≥ o.term.num_columns_ then o.scrollUp.setColumn 0 else o

def writeInternal (o : Output) (character : UInt8) : Output :=
  if character = newline ∨ character = return_ then o.newLine
  else if character = backspace then o.erase
  else o.put character

def redrawRow (t : Terminal) (i : ℕ) : ℕ → Memory → Memory
  | 0, fb => fb
  | k + 1, fb => consoleSetCharacter i k (t.characters_ (i * t.num_columns_ + k)) (t.character_states_ (i * t.num_columns_ + k))
      (redrawRow t i k fb)

/-- The outer loop of `fullRedraw`. -/
def redrawRows (t : Terminal) : ℕ → Memory → Memory
  | 0, fb => fb
  | i + 1, fb => redrawRow t i t.num_columns_ (redrawRows t i fb)

def fullRedraw (o : Output) : Output := { o with fb := redrawRows o.term o.term.num_rows_ o.fb }

def clearScreen (o : Output) : Output where
  term := { o.term with
    characters_ := Bytes.fill o.term.characters_ 0 (o.term.num_rows_ * o.term.num_columns_) space
    character_states_ := Bytes.fill o.term.character_states_ 0 (o.term.num_rows_ * o.term.num_columns_) o.term.current_state_ }
  fb := consoleClearScreen o.fb

def setForegroundColor (o : Output) (color : UInt8) : Output :=
  { o with term := { o.term with current_state_ := (o.term.current_state_ &&& ~~~(15 : UInt8)) ||| color } }

def setBackgroundColor (o : Output) (color : UInt8) : Output :=
  { o with term := { o.term with current_state_ := (o.term.current_state_ &&& ~~~(240 : UInt8)) ||| (color <<< 4) } }

def initTerminalColors (o : Output) (fg bg : UInt8) : Output :=
  ((o.setForegroundColor fg).setBackgroundColor bg).clearScreen.fullRedraw

def setAsActiveTerminal (o : Output) : Output := fullRedraw { o with term := { o.term with active_ := true } }

def unSetAsActiveTerminal (o : Output) : Output := { o with term := { o.term with active_ := false } }

/-- The buffer after `in_buffer_.get()`, which has a key. -/
def get (o : Output) : Output := { o with term := { o.term with in_buffer_ := (o.term.in_buffer_.get 0).1 } }

/-- The buffer after `in_buffer_.put(what)`, which has room. -/
def putInBuffer (o : Output) (what : BitVec 32) : Output :=
  { o with term := { o.term with in_buffer_ := (o.term.in_buffer_.put 0 what).1 } }

end Output

namespace Terminal

def isLetter (key : BitVec 32) : Bool := 0x61 ≤ key ∧ key ≤ 0x7a

def isNumber (key : BitVec 32) : Bool := 0x30 ≤ key ∧ key ≤ 0x39

/-- `)!@#$%^&*(` -/
def number_table : List (BitVec 32) := [0x29, 0x21, 0x40, 0x23, 0x24, 0x25, 0x5e, 0x26, 0x2a, 0x28]

/-- A letter that was remapped is no number. -/
def remap (isShift isCaps : Bool) (key : BitVec 32) : BitVec 32 :=
  if isLetter key then if isShift ^^ isCaps then key &&& ~~~0x20 else key
  else if isNumber key ∧ isShift then number_table.getD (key - 0x30).toNat 0
  else key

/-- The condition on which `in_buffer_.get()` waits. -/
def noKey (t : Terminal) : Bool := t.in_buffer_.ib_write_pos_ = t.in_buffer_.after t.in_buffer_.ib_read_pos_

/-- The condition on which `in_buffer_.put` waits. -/
def full (t : Terminal) : Bool := t.in_buffer_.ib_write_pos_ = t.in_buffer_.ib_read_pos_

end Terminal

end KPanic.Terminals

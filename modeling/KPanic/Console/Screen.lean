import KPanic.Console.Sheet
import KPanic.Console.Steps

/-!
# What the terminals and the screen show

Every terminal displays what was written to it, whatever is written to the others and whichever is active. The screen shows the terminal
that the last switch made active.
-/

namespace KPanic.Terminals

open Function
open Bytes (Memory)
open Output (redrawRows)

variable {o : Output} {s : Sheet consoleGetNumColumns} {c c' : Console} {k : ℕ} {marks : List (ℕ × Mark)} {ops : List Op}

/-! ### Calls that do not write -/

/-- The terminal has the same cells, and the screen too if it is active. -/
theorem Output.Displays.congr {o' : Output} (h : o.Displays s) (hcolumns : o'.term.num_columns_ = o.term.num_columns_)
    (hrows : o'.term.num_rows_ = o.term.num_rows_) (hstate : o'.term.current_state_ = o.term.current_state_)
    (hcolumn : o'.term.current_column_ = o.term.current_column_) (hcell : o'.term.cell = o.term.cell)
    (hactive : o'.term.active_ = true → o.term.active_ = true) (hfb : o'.term.active_ = true → o'.fb = o.fb) : o'.Displays s where
  color := hstate.trans h.color
  carries.sized := ⟨hcolumns.trans h.carries.sized.columns, hrows.trans h.carries.sized.rows⟩
  carries.length_le := h.carries.length_le
  carries.column := hcolumn.trans h.carries.column
  carries.term := by
    rw [hcell]
    exact h.carries.term
  carries.screen hon := by
    rw [hfb hon]
    exact h.carries.screen (hactive hon)

theorem Output.Displays.onTerminal {f : Output → Output} (h : (f ⟨c.terminals_ k, c.fb⟩).Displays s) :
    Output.Displays ⟨(c.onTerminal k f).terminals_ k, (c.onTerminal k f).fb⟩ s := by
  rw [Console.onTerminal_same, Console.onTerminal_fb]
  exact h

theorem Output.Displays.other {t : Terminal} {fb fb' : Memory} (h : Output.Displays ⟨t, fb⟩ s) (hfb : t.active_ = true → fb' = fb) :
    Output.Displays ⟨t, fb'⟩ s := h.congr rfl rfl rfl rfl rfl id hfb

theorem Output.Displays.get (h : o.Displays s) : o.get.Displays s := h.congr rfl rfl rfl rfl rfl id fun _ => rfl

theorem Output.Displays.putInBuffer (h : o.Displays s) (what : BitVec 32) : (o.putInBuffer what).Displays s :=
  h.congr rfl rfl rfl rfl rfl id fun _ => rfl

theorem Output.Displays.unset (h : o.Displays s) : o.unSetAsActiveTerminal.Displays s :=
  h.congr rfl rfl rfl rfl rfl (fun hon => by cases hon) fun hon => by cases hon

theorem Output.Displays.set (h : o.Displays s) : o.setAsActiveTerminal.Displays s where
  color := h.color
  carries.sized := ⟨h.carries.sized.columns, h.carries.sized.rows⟩
  carries.length_le := h.carries.length_le
  carries.column := h.carries.column
  carries.term := h.carries.term
  carries.screen _ := by
    refine h.carries.term.congr (Nat.zero_le _) h.carries.length_le fun r j hr hj => ?_
    have hsized : o.setAsActiveTerminal.term.Sized := ⟨h.carries.sized.columns, h.carries.sized.rows⟩
    have hrow : r < o.term.num_rows_ := by
      rw [h.carries.sized.rows]
      exact Nat.lt_of_le_of_lt hr (by decide)
    have hcell : screenCell (redrawRows o.setAsActiveTerminal.term o.term.num_rows_ o.fb) r j = o.term.cell r j := by
      rw [screenCell_redrawRows hsized hj, if_pos hrow]
      rfl
    exact hcell

theorem Output.Displays.foreground (h : o.Displays s) (color : UInt8) :
    (o.setForegroundColor color).Displays (s.mark (.foreground color)) where
  color := congrArg (fun state => (state &&& ~~~(15 : UInt8)) ||| color) h.color
  carries := ⟨⟨h.carries.sized.columns, h.carries.sized.rows⟩, h.carries.length_le, h.carries.column, h.carries.term, h.carries.screen⟩

theorem Output.Displays.background (h : o.Displays s) (color : UInt8) :
    (o.setBackgroundColor color).Displays (s.mark (.background color)) where
  color := congrArg (fun state => (state &&& ~~~(240 : UInt8)) ||| (color <<< 4)) h.color
  carries := ⟨⟨h.carries.sized.columns, h.carries.sized.rows⟩, h.carries.length_le, h.carries.column, h.carries.term, h.carries.screen⟩

/-! ### Steps -/

def marksOn (k : ℕ) (marks : List (ℕ × Mark)) : List Mark := marks.filterMap fun m => if m.1 = k then some m.2 else none

def Console.shown (c : Console) : Option ℕ :=
  match c.thread with
  | .unset _ => none
  | .set term => some term
  | _ => some c.active_terminal_

structure Shown (c : Console) (sheets : ℕ → Sheet consoleGetNumColumns) : Prop where
  displays : ∀ k, Output.Displays ⟨c.terminals_ k, c.fb⟩ (sheets k)
  active_iff : ∀ k, (c.terminals_ k).active_ = true ↔ c.shown = some k

/-- The sheets behind the marks. -/
def typesetAll (sheets : ℕ → Sheet consoleGetNumColumns) (marks : List (ℕ × Mark)) (k : ℕ) : Sheet consoleGetNumColumns :=
  (sheets k).typeset (marksOn k marks)

theorem typesetAll_append (sheets : ℕ → Sheet consoleGetNumColumns) (marks marks' : List (ℕ × Mark)) :
    typesetAll sheets (marks ++ marks') = typesetAll (typesetAll sheets marks) marks' := by
  funext k
  simp only [typesetAll, marksOn, List.filterMap_append, Sheet.typeset, List.foldl_append]

theorem typesetAll_same (sheets : ℕ → Sheet consoleGetNumColumns) (k : ℕ) (mark : Mark) :
    typesetAll sheets [(k, mark)] k = (sheets k).mark mark := by simp [typesetAll, marksOn, Sheet.typeset]

theorem typesetAll_other {j : ℕ} (sheets : ℕ → Sheet consoleGetNumColumns) (mark : Mark) (h : j ≠ k) :
    typesetAll sheets [(k, mark)] j = sheets j := by simp [typesetAll, marksOn, Sheet.typeset, h.symm]

variable {sheets sheets' : ℕ → Sheet consoleGetNumColumns} {f : Output → Output}

/-- A call on terminal `k` that leaves the active one alone. -/
theorem Shown.onTerminal (h : Shown c sheets) (hterminals : c'.terminals_ = (c.onTerminal k f).terminals_)
    (hfb : c'.fb = (c.onTerminal k f).fb) (hshown : c'.shown = c.shown)
    (hactive : (f ⟨c.terminals_ k, c.fb⟩).term.active_ = (c.terminals_ k).active_)
    (hother : (c.terminals_ k).active_ = false → (f ⟨c.terminals_ k, c.fb⟩).fb = c.fb)
    (hsame : (f ⟨c.terminals_ k, c.fb⟩).Displays (sheets' k)) (hsheets : ∀ j, j ≠ k → sheets' j = sheets j) : Shown c' sheets' where
  displays j := by
    rw [hterminals, hfb]
    by_cases hj : j = k
    · subst hj
      exact hsame.onTerminal
    · rw [Console.onTerminal_other c f hj, Console.onTerminal_fb, hsheets j hj]
      refine (h.displays j).other fun hon => hother ?_
      refine Bool.eq_false_iff.mpr fun hk => hj ?_
      have heq := ((h.active_iff j).mp hon).symm.trans ((h.active_iff k).mp hk)
      exact Option.some.inj heq
  active_iff j := by
    rw [hterminals, hshown]
    by_cases hj : j = k
    · subst hj
      rw [Console.onTerminal_same, hactive]
      exact h.active_iff j
    · rw [Console.onTerminal_other c f hj]
      exact h.active_iff j

theorem Shown.drawn (h : Shown c sheets) {mark : Mark} (hterminals : c'.terminals_ = (c.onTerminal k f).terminals_)
    (hfb : c'.fb = (c.onTerminal k f).fb) (hshown : c'.shown = c.shown)
    (hactive : (f ⟨c.terminals_ k, c.fb⟩).term.active_ = (c.terminals_ k).active_)
    (hother : (c.terminals_ k).active_ = false → (f ⟨c.terminals_ k, c.fb⟩).fb = c.fb)
    (hsame : (f ⟨c.terminals_ k, c.fb⟩).Displays ((sheets k).mark mark)) : Shown c' (typesetAll sheets [(k, mark)]) :=
  h.onTerminal hterminals hfb hshown hactive hother (by rwa [typesetAll_same]) fun _ hj => typesetAll_other sheets mark hj

/-- Only the thread, the waiting writer and the number of the active terminal change. -/
theorem Shown.control (h : Shown c sheets) (hterminals : c'.terminals_ = c.terminals_) (hfb : c'.fb = c.fb) (hshown : c'.shown = c.shown) :
    Shown c' sheets where
  displays k := by
    rw [hterminals, hfb]
    exact h.displays k
  active_iff k := by
    rw [hterminals, hshown]
    exact h.active_iff k

theorem shown_resumed (thread : Thread) : Console.shown { c with thread := thread.resumed } = Console.shown { c with thread := thread } := by
  cases thread <;> rfl

theorem Shown.unset (h : Shown c sheets) (hnext : c.thread = .next) (term : ℕ) :
    Shown { c.onTerminal c.active_terminal_ Output.unSetAsActiveTerminal with thread := .unset term } sheets := by
  have hshown : c.shown = some c.active_terminal_ := by rw [Console.shown, hnext]
  refine ⟨fun j => ?_, fun j => ?_⟩
  · by_cases hj : j = c.active_terminal_
    · subst hj
      dsimp only
      rw [Console.onTerminal_same]
      exact (h.displays _).unset
    · dsimp only
      rw [Console.onTerminal_other c _ hj]
      exact h.displays j
  · refine ⟨fun hon => ?_, fun hnone => by cases hnone⟩
    by_cases hj : j = c.active_terminal_
    · subst hj
      dsimp only at hon
      rw [Console.onTerminal_same] at hon
      cases hon
    · dsimp only at hon
      rw [Console.onTerminal_other c _ hj, h.active_iff, hshown] at hon
      exact absurd (Option.some.inj hon).symm hj

theorem Shown.set (h : Shown c sheets) {term : ℕ} (hunset : c.thread = .unset term) :
    Shown { c.onTerminal term Output.setAsActiveTerminal with thread := .set term } sheets := by
  have hoff : ∀ j, (c.terminals_ j).active_ = true → False := fun j hon => by
    have hshown := (h.active_iff j).mp hon
    rw [Console.shown, hunset] at hshown
    cases hshown
  refine ⟨fun j => ?_, fun j => ?_⟩
  · by_cases hj : j = term
    · subst hj
      dsimp only
      rw [Console.onTerminal_same]
      exact (h.displays _).set
    · dsimp only
      rw [Console.onTerminal_other c _ hj]
      exact (h.displays j).other fun hon => (hoff j hon).elim
  · by_cases hj : j = term
    · subst hj
      dsimp only
      rw [Console.onTerminal_same]
      exact ⟨fun _ => rfl, fun _ => rfl⟩
    · dsimp only
      rw [Console.onTerminal_other c _ hj]
      exact ⟨fun hon => (hoff j hon).elim, fun heq => absurd (Option.some.inj heq).symm hj⟩

theorem Shown.does (h : Shown c sheets) (hdoes : Does c c' marks) : Shown c' (typesetAll sheets marks) := by
  have hwrite : ∀ (k : ℕ) (character : UInt8),
      (Output.writeInternal ⟨c.terminals_ k, c.fb⟩ character).Displays ((sheets k).mark (.character character)) :=
    fun k character => (h.displays k).writeInternal character
  cases hdoes with
  | write k character hfree =>
    have hdrawn := drawn_writeInternal ⟨c.terminals_ k, c.fb⟩ character
    exact h.drawn (f := fun o => o.writeInternal character) rfl rfl rfl hdrawn.active_ hdrawn.fb (hwrite k character)
  | wait k hfree hcount => exact h.control rfl rfl rfl
  | writeKey key character hfree hnext =>
    have hdrawn := drawn_writeInternal ⟨c.terminals_ c.active_terminal_, c.fb⟩ character
    refine h.drawn (f := fun o => o.writeInternal character) rfl rfl ?_ hdrawn.active_ hdrawn.fb (hwrite _ character)
    simp only [Console.shown, hnext, Console.onTerminal_active]
  | waitKey key hfree hnext hcount =>
    refine h.control rfl rfl ?_
    simp only [Console.shown, hnext]
  | resume k hwaits hkey =>
    have hdrawn := drawn_writeInternal (Output.get ⟨c.terminals_ k, c.fb⟩) backspace
    have hsame := (h.displays k).get.writeInternal backspace
    exact h.drawn (f := fun o => o.get.writeInternal backspace) rfl rfl (shown_resumed c.thread) hdrawn.active_ hdrawn.fb hsame
  | foreground k color hfree => exact h.drawn rfl rfl rfl rfl (fun _ => rfl) ((h.displays k).foreground color)
  | background k color hfree => exact h.drawn rfl rfl rfl rfl (fun _ => rfl) ((h.displays k).background color)
  | get k hkey => exact h.onTerminal rfl rfl rfl rfl (fun _ => rfl) (h.displays k).get fun _ _ => rfl
  | unset term hfree hnext hterm => exact h.unset hnext term
  | ignore => exact h
  | put key hwritten hroom =>
    refine h.onTerminal (f := fun o => o.putInBuffer key) rfl rfl ?_ rfl (fun _ => rfl)
      ((h.displays c.active_terminal_).putInBuffer key) fun _ _ => rfl
    simp only [Console.shown, hwritten, Console.onTerminal_active]
  | set term hfree hunset => exact h.set hunset
  | store term hset =>
    refine h.control rfl rfl ?_
    simp only [Console.shown, hset]

/-! ### The boot -/

def Sheet.blank (color : UInt8) (top : Cell) : Sheet consoleGetNumColumns where
  lines := []
  current := []
  current_lt := by decide
  color := color
  top := top

/-- What the terminals display before the threads run. -/
def bootSheet (k : ℕ) : Sheet consoleGetNumColumns :=
  if k = 0 then (Sheet.blank WHITE ⟨space, WHITE⟩).typeset (bootText.map .character) else Sheet.blank 0x93 ⟨space, 0⟩

theorem displays_new (memory memory' fb : Memory) :
    Output.Displays ⟨Terminal.new consoleGetNumColumns consoleGetNumRows memory memory', fb⟩ (.blank 0x93 ⟨space, 0⟩) where
  color := rfl
  carries.sized := ⟨rfl, rfl⟩
  carries.length_le := Nat.zero_le _
  carries.column := rfl
  carries.term.bottom i hi := by cases hi
  carries.term.above i hi j := by
    have hrow : lastRow - 1 - i < consoleGetNumRows := by
      simp only [lastRow, consoleGetNumRows]
      omega
    simp only [Terminal.cell, Terminal.new]
    rw [Grid.fill_all j.isLt hrow, Grid.fill_all j.isLt hrow]
    rfl
  carries.screen hon := by cases hon

theorem displays_init (h : o.Displays s) (hoff : o.term.active_ = false) (hcolumn : o.term.current_column_ = 0)
    (hstate : o.term.current_state_ = 0x93) : (o.initTerminalColors WHITE BLACK).Displays (.blank WHITE ⟨space, WHITE⟩) where
  color := by
    simp only [Output.initTerminalColors, Output.fullRedraw, Output.clearScreen, Output.setBackgroundColor, Output.setForegroundColor,
      hstate]
    decide
  carries.sized := ⟨h.carries.sized.columns, h.carries.sized.rows⟩
  carries.length_le := Nat.zero_le _
  carries.column := hcolumn
  carries.term.bottom i hi := by cases hi
  carries.term.above i hi j := by
    have hrow : lastRow - 1 - i < o.term.num_rows_ := by
      rw [h.carries.sized.rows]
      simp only [lastRow, consoleGetNumRows]
      omega
    have hj : j.val < o.term.num_columns_ := by
      rw [h.carries.sized.columns]
      exact j.isLt
    simp only [Terminal.cell, Output.initTerminalColors, Output.fullRedraw, Output.clearScreen, Output.setBackgroundColor,
      Output.setForegroundColor, hstate]
    rw [Grid.fill_all hj hrow, Grid.fill_all hj hrow]
    have hwhite : ((0x93 : UInt8) &&& ~~~(15 : UInt8) ||| WHITE) &&& ~~~(240 : UInt8) ||| BLACK <<< 4 = WHITE := by decide
    rw [hwhite]
    rfl
  carries.screen hon := absurd hon (by simp [Output.initTerminalColors, Output.fullRedraw, Output.clearScreen,
    Output.setBackgroundColor, Output.setForegroundColor, hoff])

theorem displays_text (text : List UInt8) (h : o.Displays s) :
    (text.foldl Output.writeInternal o).Displays (s.typeset (text.map .character)) := by
  induction text generalizing o s with
  | nil => exact h
  | cons character text ih => exact ih (h.writeInternal character)

theorem shown_boot (num_terminals : ℕ) (memory memory' : ℕ → Memory) (fb : Memory) :
    Shown (Console.boot num_terminals memory memory' fb) bootSheet where
  displays k := by
    by_cases hk : k = 0
    · subst hk
      have hnew : Output.Displays ⟨(Console.new num_terminals memory memory' fb).terminals_ 0,
          (Console.new num_terminals memory memory' fb).fb⟩ (.blank 0x93 ⟨space, 0⟩) := displays_new (memory 0) (memory' 0) fb
      have hboot := (displays_text bootText (displays_init hnew rfl rfl rfl)).unset.set
      rw [bootSheet, if_pos rfl]
      exact hboot.onTerminal (f := fun o =>
        (bootText.foldl Output.writeInternal (o.initTerminalColors WHITE BLACK)).unSetAsActiveTerminal.setAsActiveTerminal)
    · rw [bootSheet, if_neg hk, Console.boot, Console.onTerminal_other _ _ hk]
      exact (displays_new (memory k) (memory' k) fb).other fun hon => by cases hon
  active_iff k := by
    have hshown : (Console.boot num_terminals memory memory' fb).shown = some 0 := rfl
    rw [hshown]
    by_cases hk : k = 0
    · subst hk
      rw [Console.boot, Console.onTerminal_same]
      exact ⟨fun _ => rfl, fun _ => rfl⟩
    · rw [Console.boot, Console.onTerminal_other _ _ hk]
      exact ⟨fun hon => (by cases hon), fun heq => absurd (Option.some.inj heq).symm hk⟩

/-! ### Runs -/

variable {num_terminals : ℕ} {memory memory' : ℕ → Memory} {fb : Memory}

theorem shown_run (h : run ops (Console.boot num_terminals memory memory' fb) = some (c, marks)) :
    Shown c (typesetAll bootSheet marks) := by
  refine run_keeps (P := fun c done => Shown c (typesetAll bootSheet done)) (fun c c' done marks hc hdoes => ?_) [] (shown_boot ..) h
  rw [typesetAll_append]
  exact hc.does hdoes

end KPanic.Terminals

import KPanic.Console.Terminal

/-!
# `common/source/console/Console.cpp`

The thread of the console takes keys from the keyboard; it alone puts keys in the buffers and switches terminals. The other threads write
to terminals and read keys. The writer of a backspace may have to wait for a key, and holds the mutex and the drawing lock while it does.
-/

namespace KPanic.Terminals

open Function
open Bytes (Memory)

def KEY_F1 : BitVec 32 := 0x80
def KEY_F2 : BitVec 32 := KEY_F1 + 2

/-- Where the thread of the console is. -/
inductive Thread
  | next
  /-- Before `putInBuffer(key)`. -/
  | written (key : BitVec 32)
  /-- It waits for a key in `write(key)`. -/
  | writing (key : BitVec 32)
  /-- Behind `unSetAsActiveTerminal`. -/
  | unset (term : ℕ)
  /-- Behind `setAsActiveTerminal`. -/
  | set (term : ℕ)

/-- Where `write(key)` leaves the thread, which waits when `waits` says so. -/
def Thread.wrote (key : BitVec 32) : Option ℕ → Thread
  | none => .written key
  | some _ => .writing key

/-- The wait is over. -/
def Thread.resumed : Thread → Thread
  | .writing key => .written key
  | thread => thread

structure Console where
  terminals_ : ℕ → Terminal
  num_terminals : ℕ
  active_terminal_ : ℕ
  fb : Memory
  thread : Thread
  /-- The terminal whose writer waits for a key in `backspace`. -/
  waits : Option ℕ

/-- What is done to the text of a terminal. -/
inductive Mark
  | character (character : UInt8)
  | foreground (color : UInt8)
  | background (color : UInt8)

namespace Console

def onTerminal (c : Console) (k : ℕ) (f : Output → Output) : Console :=
  { c with
    terminals_ := update c.terminals_ k (f ⟨c.terminals_ k, c.fb⟩).term
    fb := (f ⟨c.terminals_ k, c.fb⟩).fb }

/-- `none`: the drawing lock is taken. -/
def write (c : Console) (k : ℕ) (character : UInt8) : Option (Console × List (ℕ × Mark)) :=
  if c.waits.isSome then none
  else if character = backspace ∧ (c.terminals_ k).in_buffer_.count ≠ 0 then some ({ c with waits := some k }, [])
  else some (c.onTerminal k fun o => o.writeInternal character, [(k, .character character)])

def isDisplayable (key : BitVec 32) : Bool := (key &&& 127) ≥ 0x20 ∨ key = 0x0a ∨ key = 0x08

/-- A key that is displayable. -/
def writeKey (c : Console) (key : BitVec 32) : Option (Console × List (ℕ × Mark)) :=
  (c.write c.active_terminal_ (UInt8.ofNat key.toNat)).map fun r => ({ r.1 with thread := Thread.wrote key r.1.waits }, r.2)

def terminal_selected (key : BitVec 32) : BitVec 32 := if key = KEY_F1 then 0 else key - (KEY_F2 - 1)

/-- The keys without shift print on the debug port, or nothing. -/
def handleKey (c : Console) (key : BitVec 32) (isShift : Bool) : Option (Console × List (ℕ × Mark)) :=
  if isShift ∧ (terminal_selected key).toNat < c.num_terminals then
    if c.waits = some c.active_terminal_ then none
    else some ({ c.onTerminal c.active_terminal_ Output.unSetAsActiveTerminal with thread := .unset (terminal_selected key).toNat }, [])
  else some (c, [])

end Console

inductive Op
  /-- A character that a thread other than that of the console writes. -/
  | write (k : ℕ) (character : UInt8)
  /-- The wait of `backspace` ends. -/
  | resume
  | setForegroundColor (k : ℕ) (color : UInt8)
  | setBackgroundColor (k : ℕ) (color : UInt8)
  /-- A thread takes a key, as `read` and `readLine` do. -/
  | get (k : ℕ)
  /-- The keyboard has a key for the thread of the console. -/
  | key (key : BitVec 32) (isShift isCaps : Bool)
  | putInBuffer
  | setAsActiveTerminal
  | store

def stepKey (c : Console) (key : BitVec 32) (isShift isCaps : Bool) : Option (Console × List (ℕ × Mark)) :=
  match c.thread with
  | .next =>
    if Console.isDisplayable key then c.writeKey (Terminal.remap isShift isCaps key) else c.handleKey key isShift
  | _ => none

def stepResume (c : Console) : Option (Console × List (ℕ × Mark)) :=
  match c.waits with
  | none => none
  | some k =>
    if (c.terminals_ k).noKey then none
    else some ({ c.onTerminal k fun o => o.get.writeInternal backspace with waits := none, thread := c.thread.resumed },
      [(k, .character backspace)])

def stepPut (c : Console) : Option (Console × List (ℕ × Mark)) :=
  match c.thread with
  | .written key =>
    if (c.terminals_ c.active_terminal_).full then none
    else some ({ c.onTerminal c.active_terminal_ fun o => o.putInBuffer key with thread := .next }, [])
  | _ => none

def stepActive (c : Console) : Option (Console × List (ℕ × Mark)) :=
  match c.thread with
  | .unset term =>
    if c.waits.isSome then none
    else some ({ c.onTerminal term Output.setAsActiveTerminal with thread := .set term }, [])
  | _ => none

def stepStore (c : Console) : Option (Console × List (ℕ × Mark)) :=
  match c.thread with
  | .set term => some ({ c with active_terminal_ := term, thread := .next }, [])
  | _ => none

/-- `none`: the call waits. -/
def step (c : Console) : Op → Option (Console × List (ℕ × Mark))
  | .write k character => c.write k character
  | .resume => stepResume c
  | .setForegroundColor k color =>
    if c.waits = some k then none else some (c.onTerminal k fun o => o.setForegroundColor color, [(k, .foreground color)])
  | .setBackgroundColor k color =>
    if c.waits = some k then none else some (c.onTerminal k fun o => o.setBackgroundColor color, [(k, .background color)])
  | .get k => if (c.terminals_ k).noKey then none else some (c.onTerminal k Output.get, [])
  | .key key isShift isCaps => stepKey c key isShift isCaps
  | .putInBuffer => stepPut c
  | .setAsActiveTerminal => stepActive c
  | .store => stepStore c

/-- A run, and what it did to the texts. -/
def run : List Op → Console → Option (Console × List (ℕ × Mark))
  | [], c => some (c, [])
  | op :: ops, c => do
    let (c, marks) ← step c op
    let (c, marks') ← run ops c
    return (c, marks ++ marks')

/-- After the constructors; `memory`, `memory'` and `fb` are what was there. -/
def Console.new (num_terminals : ℕ) (memory memory' : ℕ → Memory) (fb : Memory) : Console where
  terminals_ k := Terminal.new consoleGetNumColumns consoleGetNumRows (memory k) (memory' k)
  num_terminals := num_terminals
  active_terminal_ := 0
  fb := fb
  thread := .next
  waits := none

def bootText : List UInt8 := "This is on term 0, you should see me now\n".toList.map fun c => UInt8.ofNat c.toNat

/-- `main`, before the threads run: `initTerminalColors`, `writeString` and `setActiveTerminal(0)`. -/
def Console.boot (num_terminals : ℕ) (memory memory' : ℕ → Memory) (fb : Memory) : Console :=
  (Console.new num_terminals memory memory' fb).onTerminal 0 fun o =>
    (bootText.foldl Output.writeInternal (o.initTerminalColors WHITE BLACK)).unSetAsActiveTerminal.setAsActiveTerminal

end KPanic.Terminals

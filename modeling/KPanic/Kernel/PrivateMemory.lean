import KPanic.Kernel.UserProcess

/-!
# Processes with private memory

What the memory subsystem is for: every process has a memory of its own, a partial map from
virtual pages to contents, and `fork` copies it. There are no physical pages and no sharing here.
-/

namespace KPanic

open Function

/-- A process as its own code sees it. -/
structure Proc where
  thread_list_ : List UserThread
  called_exit_ : Bool
  memory : ℕ → Option Page

structure Private where
  proc : ℕ → Option Proc
  pid_counter_ : ℕ

namespace Proc

def exit (p : Proc) : Proc := { p with called_exit_ := true }

def map (p : Proc) (vpn : ℕ) (page : Page) : Proc :=
  { p with memory := update p.memory vpn (some page) }

/-- The page for an address that is not in a stack. -/
def load (p : Proc) (vpn : ℕ) : Content → Proc
  | .found page => p.map vpn page
  | .unreadable | .noSection => p.exit

/-- One more page for the stack of a thread, if it may grow. -/
def growStack (p : Proc) (thread : ℕ) : Proc :=
  match p.thread_list_[thread]? with
  | none => p
  | some t =>
    let pages := t.stack_pages_ + 1
    let vpn := (t.stack_start_addr_ - PAGE_SIZE * pages.toNat) / PAGE_SIZE
    if pages.toNat > STACK_MAX_PAGES ∨ p.memory vpn ≠ none then p.exit
    else { p.map vpn (fun _ => 0) with
      thread_list_ := p.thread_list_.modify thread fun t => { t with stack_pages_ := pages } }

/-- A fault at an address that is not mapped. -/
def fault (p : Proc) (address : ℕ) (content : Content) : Proc :=
  if address < null_reference_check_border_ ∨ address ≥ USER_BREAK then p.exit
  else
    match addrIsWithinAnyUserStack p.thread_list_ address with
    | some thread => p.growStack thread
    | none => p.load (address / PAGE_SIZE) content

def lookup (p : Proc) (address : ℕ) : Option Page :=
  if address < USER_BREAK then p.memory (address / PAGE_SIZE) else none

/-- A read leaves the process as it is; a write stores a byte. -/
def store (p : Proc) (address : ℕ) (page : Page) : Option ℕ → Proc
  | none => p
  | some v => p.map (address / PAGE_SIZE) (storeByte page (address % PAGE_SIZE) v)

def access (address : ℕ) (value : Option ℕ) (content : Content) : ℕ → Proc → Option Proc
  | 0, _ => none
  | tries + 1, p =>
    if p.called_exit_ then some p
    else
      match p.lookup address with
      | none => access address value content tries (p.fault address content)
      | some page => some (p.store address page value)

/-- The memory after `createProcess`: the arguments page and the first stack page. -/
def fresh (start : StackStart) : Proc where
  thread_list_ := [⟨start, 1⟩]
  called_exit_ := false
  memory := fun vpn =>
    if vpn = argsVpn ∨ vpn = start.val / PAGE_SIZE - 1 then some fun _ => 0 else none

/-- The child of `fork`. -/
def child (p : Proc) (thread : UserThread) (garbage : Garbage) : Proc :=
  { p with thread_list_ := [⟨thread.stack_start_addr_, garbage.stack_pages_⟩], called_exit_ := false }

end Proc

namespace Private

def set (a : Private) (pid : ℕ) (p : Proc) : Private :=
  { a with proc := update a.proc pid (some p) }

/-- Runs `f` on a process whose `called_exit_` is `b`. -/
def onProc (a : Private) (pid : ℕ) (b : Bool) (f : Proc → Option Private) : Option Private :=
  match a.proc pid with
  | none => some a
  | some p => if p.called_exit_ = b then f p else some a

/-- Adds `p`, if there is one, under the next pid. -/
def add (a : Private) (p : Option Proc) : Private :=
  { proc := update a.proc a.pid_counter_ p, pid_counter_ := a.pid_counter_ + 1 }

/-- The same operations; `none` if an access does not come to an end, or for `execv`. -/
def step (a : Private) : Op → Option Private
  | .createProcess loads start _ => some (a.add (if loads then some (Proc.fresh start) else none))
  | .fork pid loads garbage => a.onProc pid false fun p =>
    match p.thread_list_.head? with
    | none => some a
    | some thread => some (a.add (if loads then some (p.child thread garbage) else none))
  | .access pid address value content => a.onProc pid false fun p =>
    (Proc.access address value content 16 p).map (a.set pid)
  | .exit pid => a.onProc pid false fun p => some (a.set pid p.exit)
  | .destroy pid => a.onProc pid true fun _ => some { a with proc := update a.proc pid none }
  | .execv _ _ _ => none

end Private

end KPanic

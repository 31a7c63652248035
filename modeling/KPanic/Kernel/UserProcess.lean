import KPanic.Mm.PageFaultHandler

/-!
# `common/source/kernel/UserProcess.cpp`: processes and their memory

The operations that change the memory of processes, as one step function over a list of them.
-/

namespace KPanic

open Function
open BitField (Field)

/-! ### Memory accesses -/

/-- The hardware's walk from a table at level `l`: the page for `vpn`, and whether the entries
permit user accesses and writes. -/
def translate (memory : ℕ → Page) (vpn : ℕ) : ℕ → ℕ → Option (ℕ × Bool × Bool)
  | 0, t => some (t, true, true)
  | l + 1, t =>
    let w := memory t (vpn / PAGE_TABLE_ENTRIES ^ l % PAGE_TABLE_ENTRIES)
    if present.get w = 0 then none
    else
      match translate memory vpn l (page_ppn.get w) with
      | none => none
      | some (ppn, user, writes) =>
        some (ppn, user && user_access.get w = 1, writes && writeable.get w = 1)

/-- Byte `k` of a word. -/
def byteField (k : ℕ) : Field := ⟨8 * (k % 8), 8, by omega⟩

def loadByte (page : Page) (offset : ℕ) : ℕ := (byteField offset).get (page (offset / 8))

def storeByte (page : Page) (offset : ℕ) (value : ℕ) : Page :=
  update page (offset / 8) ((byteField offset).put (page (offset / 8)) value)

/-- A read, or a write of a byte, at `address`; a fault is handled and the access retried. -/
def access (proc address : ℕ) (value : Option ℕ) (content : Content) : ℕ → Kern PUnit
  | 0 => throw .endlessFault
  | tries + 1 => do
    let s ← get
    match s.process_list_ proc with
    | none => return
    | some p =>
      if p.called_exit_ then return
      else
        match if address < USER_BREAK then
          translate s.memory (address / PAGE_SIZE) 4 p.page_map_level_4_ else none with
        | none =>
          handlePageFault proc address false content
          access proc address value content tries
        | some (ppn, user, writes) =>
          if user && (value.isNone || writes) then
            match value with
            | none => return
            | some v => Kern.setPage ppn (storeByte (s.memory ppn) (address % PAGE_SIZE) v)
          else
            handlePageFault proc address true content
            access proc address value content tries

/-! ### Creation, `fork`, `execv`, removal -/

/-- `ProcessRegistry::getNewPID` -/
def getNewPID : Kern ℕ := do
  let s ← get
  set { s with pid_counter_ := s.pid_counter_ + 1 }
  return s.pid_counter_

def setProcess (pid : ℕ) (p : Option UserProcess) : Kern PUnit :=
  modify fun s => { s with process_list_ := update s.process_list_ pid p }

/-- The thread that `UserThread`'s constructor and `restructureUserThread` set up. -/
def newStack (page_map_level_4_ : ℕ) (start : StackStart) : Kern UserThread := do
  let vpn := start.val / PAGE_SIZE - 1
  let ppn ← allocPPN PAGE_SIZE
  let mapped ← ArchMemory.mapPage page_map_level_4_ vpn ppn 1
  Kern.assert (mapped = true) .alreadyMapped
  return ⟨start, 1⟩

/-- A member that no constructor has initialised yet. -/
structure Garbage where
  args_seg_addr_ : ℕ
  args_ppn_ : ℕ
  stack_pages_ : BitVec 16

/-- `ProcessRegistry::createProcess` -/
def createProcess (loads : Bool) (start : StackStart) (garbage : Garbage) : Kern PUnit := do
  let pid ← getNewPID
  let page_map_level_4_ ← ArchMemory.new
  let p : UserProcess :=
    ⟨page_map_level_4_, garbage.args_seg_addr_, garbage.args_ppn_, [], false⟩
  setProcess pid p
  if loads = false then
    ArchMemory.delete page_map_level_4_
    setProcess pid none
  else
    let ppn ← allocPPN PAGE_SIZE
    let mapped ← ArchMemory.mapPage page_map_level_4_ argsVpn ppn 1
    Kern.assert (mapped = true) .alreadyMapped
    let thread ← newStack page_map_level_4_ start
    setProcess pid (some { p with
      args_seg_addr_ := ARGS_SEGMENT_START
      args_ppn_ := ppn
      thread_list_ := [thread] })

/-- How `fork` copies the pages: the code shares them, the commented-out line copies them. -/
inductive ForkMode
  | cow
  | eager
  deriving DecidableEq

/-- `ProcessRegistry::createProcessOnFork`, called by the process's only thread -/
def createProcessOnFork (mode : ForkMode) (proc : ℕ) (loads : Bool) (garbage : Garbage) :
    Kern PUnit := do
  let parent ← getProcess proc
  match parent.thread_list_.head? with
  | none => return
  | some currentThread =>
    let pid ← getNewPID
    let page_map_level_4_ ← ArchMemory.new
    let p : UserProcess :=
      ⟨page_map_level_4_, garbage.args_seg_addr_, garbage.args_ppn_, [], false⟩
    setProcess pid p
    if loads = false then
      ArchMemory.delete page_map_level_4_
      setProcess pid none
    else
      match mode with
      | .cow =>
        ArchMemory.copyPagesToNewArchMemCOW parent.page_map_level_4_ page_map_level_4_ proc pid
      | .eager => ArchMemory.copyPagesToNewArchMem parent.page_map_level_4_ page_map_level_4_
      setProcess pid (some { p with
        thread_list_ := [⟨currentThread.stack_start_addr_, garbage.stack_pages_⟩] })

/-- `~UserProcess` -/
def destroy (proc : ℕ) : Kern PUnit := do
  let p ← getProcess proc
  eraseProcessFromCOWMap proc
  ArchMemory.delete p.page_map_level_4_
  setProcess proc none

def restructureProcessForExecv (proc : ℕ) (loads : Bool) (start : StackStart) : Kern PUnit := do
  let p ← getProcess proc
  let new_loader ← ArchMemory.new
  if loads = false then ArchMemory.delete new_loader
  else
    ArchMemory.copyArgsSegmentToNewArchMem new_loader p.args_ppn_
    let old_loader := p.page_map_level_4_
    setProcess proc (some { p with page_map_level_4_ := new_loader })
    let thread ← newStack new_loader start
    setProcess proc (some { p with page_map_level_4_ := new_loader, thread_list_ := [thread] })
    ArchMemory.delete old_loader

/-! ### Runs -/

inductive Op
  | createProcess (loads : Bool) (start : StackStart) (garbage : Garbage)
  | fork (proc : ℕ) (loads : Bool) (garbage : Garbage)
  | access (proc address : ℕ) (value : Option ℕ) (content : Content)
  | exit (proc : ℕ)
  | destroy (proc : ℕ)
  | execv (proc : ℕ) (loads : Bool) (start : StackStart)

/-- Runs `m` if `proc` is a process whose `called_exit_` is `b`. -/
def onProcess (proc : ℕ) (b : Bool) (m : Kern PUnit) : Kern PUnit := do
  match (← get).process_list_ proc with
  | none => return
  | some p => if p.called_exit_ = b then m

def step (mode : ForkMode) : Op → Kern PUnit
  | .createProcess loads start garbage => KPanic.createProcess loads start garbage
  | .fork proc loads garbage => onProcess proc false (createProcessOnFork mode proc loads garbage)
  | .access proc address value content =>
    onProcess proc false (KPanic.access proc address value content 16)
  | .exit proc => onProcess proc false (KPanic.exit proc)
  | .destroy proc => onProcess proc true (KPanic.destroy proc)
  | .execv proc loads start =>
    onProcess proc false (restructureProcessForExecv proc loads start)

end KPanic

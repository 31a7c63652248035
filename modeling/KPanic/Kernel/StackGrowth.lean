import KPanic.Kernel.UserStacks
import KPanic.Mm.PageFaultHandler

/-!
# User stacks that grow on page faults

A thread starts with the topmost page of its stack, and `increaseUserStackSize` maps the next page
below for each fault in the stack. The memory of a process is the table of the virtual pages that
its loader maps; what the pages hold is left out.
-/

namespace KPanic.StackGrowth

open Std (TreeMap)
open Function

/-- The physical pages that `allocPPN` can return: page 0 belongs to the kernel. -/
abbrev Ppn := { ppn : ℕ // ppn ≠ 0 }

structure PageTableEntry where
  page_ppn : Ppn
  writeable : Bool

abbrev ArchMemory := TreeMap ℕ PageTableEntry

/-- `toBeDestroyed` says whether the state of the thread is `ToBeDestroyed`. -/
structure UserThread where
  stack_start_addr_ : StackStart
  stack_pages_ : BitVec 16
  toBeDestroyed : Bool

/-- `arch_memory_` is that of `loader_`. -/
structure UserProcess where
  arch_memory_ : ArchMemory
  thread_list_ : TreeMap ℕ UserThread
  next_tid_ : ℕ
  called_exit_ : Bool

structure Kernel where
  process_list_ : ℕ → Option UserProcess
  pid_counter_ : ℕ
  cow_map_ : Ppn → List ℕ

/-- What `increaseUserStackSize` reports before it ends the process. -/
inductive Event
  | maximumReached (pid tid : ℕ)
  | couldNotMap (pid tid : ℕ)
  deriving DecidableEq

/-- `allocPPN`, where `pages` has the pages that it is going to return. -/
def allocPPN : List Ppn → Except Panic (Ppn × List Ppn)
  | [] => .error .outOfMemory
  | ppn :: pages => .ok (ppn, pages)

def mapPage (memory : ArchMemory) (vpn : ℕ) (ppn : Ppn) : ArchMemory × Bool :=
  if memory.contains vpn then (memory, false) else (memory.insert vpn ⟨ppn, true⟩, true)

/-! ### The constructors of `UserThread`, `restructureUserThread` -/

/-- The first page of a new stack. -/
def newStack (memory : ArchMemory) (stack_start_addr_ : StackStart) (pages : List Ppn) :
    Except Panic (ArchMemory × UserThread) := do
  let vpn := stack_start_addr_.val / PAGE_SIZE - 1
  let (ppn, _) ← allocPPN pages
  let (memory, mapped) := mapPage memory vpn ppn
  if mapped = false then throw .alreadyMapped
  return (memory, ⟨stack_start_addr_, 1, false⟩)

/-- The loop of `allocNextFreeTID`; it passes each thread at most once. -/
def nextFreeTID (thread_list_ : TreeMap ℕ UserThread) : ℕ → ℕ → ℕ
  | 0, tid => tid
  | passes + 1, tid =>
    if thread_list_.contains tid then nextFreeTID thread_list_ passes (tid + 1) else tid

def internalAddNewThread (p : UserProcess) (start : StackStart) (pages : List Ppn) :
    Except Panic UserProcess := do
  if p.called_exit_ then return p
  let tid := nextFreeTID p.thread_list_ p.thread_list_.size p.next_tid_
  let (memory, thread) ← newStack p.arch_memory_ start pages
  return { p with
    arch_memory_ := memory
    thread_list_ := p.thread_list_.insert tid thread
    next_tid_ := tid + 1 }

/-- Maps the page for the arguments of a program in a new loader. -/
def newLoader (pages : List Ppn) : Except Panic (ArchMemory × List Ppn) := do
  let (ppn, pages) ← allocPPN pages
  let (memory, mapped) := mapPage ∅ argsVpn ppn
  if mapped = false then throw .alreadyMapped
  return (memory, pages)

def createProcess (s : Kernel) (start : StackStart) (pages : List Ppn) : Except Panic Kernel := do
  let (memory, pages) ← newLoader pages
  let p ← internalAddNewThread ⟨memory, ∅, 0, false⟩ start pages
  return { s with
    process_list_ := update s.process_list_ s.pid_counter_ (some p)
    pid_counter_ := s.pid_counter_ + 1 }

def setProcess (s : Kernel) (pid : ℕ) (p : UserProcess) : Kernel :=
  { s with process_list_ := update s.process_list_ pid (some p) }

/-- Members that the constructors for `fork` leave as they find them. -/
structure Garbage where
  next_tid_ : ℕ
  stack_pages_ : BitVec 16

def readOnly (memory : ArchMemory) : ArchMemory := memory.map fun _ e => { e with writeable := false }

/-- The sharer sets after `copyPagesToNewArchMemCOW`. -/
def addToCOWMap (cow_map_ : Ppn → List ℕ) (memory : ArchMemory) (pid1 pid2 : ℕ) : Ppn → List ℕ :=
  memory.toList.foldl
    (fun m e => update m e.2.page_ppn (((m e.2.page_ppn).insert pid1).insert pid2)) cow_map_

/-- `fork`, called by `currentThread` of process `pid` -/
def fork (s : Kernel) (pid : ℕ) (p : UserProcess) (currentThread : UserThread)
    (garbage : Garbage) : Kernel :=
  let child : UserProcess := ⟨readOnly p.arch_memory_,
    (∅ : TreeMap ℕ UserThread).insert garbage.next_tid_
      ⟨currentThread.stack_start_addr_, garbage.stack_pages_, false⟩,
    garbage.next_tid_ + 1, false⟩
  { process_list_ := update
      (update s.process_list_ pid (some { p with arch_memory_ := readOnly p.arch_memory_ }))
      s.pid_counter_ (some child)
    pid_counter_ := s.pid_counter_ + 1
    cow_map_ := addToCOWMap s.cow_map_ p.arch_memory_ pid s.pid_counter_ }

/-- The siblings end, and stay in the list until the scheduler deletes them. -/
def killThreadsSiblings (p : UserProcess) (tid : ℕ) : UserProcess :=
  { p with thread_list_ := p.thread_list_.map fun tid' t =>
      { t with toBeDestroyed := t.toBeDestroyed || tid' ≠ tid } }

/-- `restructureProcessForExecv`, called by thread `tid` -/
def restructureProcessForExecv (p : UserProcess) (tid : ℕ) (loads : Bool) (start : StackStart)
    (pages : List Ppn) : Except Panic UserProcess := do
  let p := killThreadsSiblings p tid
  if loads = false then return p
  let (memory, pages) ← newLoader pages
  let (memory, thread) ← newStack memory start pages
  return { p with arch_memory_ := memory, thread_list_ := p.thread_list_.insert tid thread }

/-! ### The end of threads and processes -/

/-- `UserProcess::kill`, when all the threads have ended -/
def UserProcess.exit (p : UserProcess) : UserProcess :=
  { p with
    thread_list_ := p.thread_list_.map fun _ t => { t with toBeDestroyed := true }
    called_exit_ := true }

def exitThread (p : UserProcess) (tid : ℕ) : UserProcess :=
  { p with thread_list_ := p.thread_list_.modify tid fun t => { t with toBeDestroyed := true } }

/-- `onThreadDestroyed`; the process goes with its last thread. -/
def onThreadDestroyed (s : Kernel) (pid : ℕ) (p : UserProcess) (tid : ℕ) : Kernel :=
  let thread_list_ := p.thread_list_.erase tid
  if thread_list_.isEmpty then
    { s with
      process_list_ := update s.process_list_ pid none
      cow_map_ := fun ppn => (s.cow_map_ ppn).erase pid }
  else setProcess s pid { p with thread_list_ := thread_list_ }

/-! ### Page faults -/

/-- `ppnShared(pointer)`; an address that is not mapped resolves to page 0. -/
def ppnShared (s : Kernel) (p : UserProcess) (address : ℕ) : Bool :=
  match p.arch_memory_[address / PAGE_SIZE]? with
  | none => false
  | some e => !(s.cow_map_ e.page_ppn).isEmpty

/-- `mapping.pt[mapping.pti] = e` -/
def setPte (s : Kernel) (pid vpn : ℕ) (e : PageTableEntry) : Kernel :=
  { s with process_list_ := update s.process_list_ pid ((s.process_list_ pid).map fun p =>
      { p with arch_memory_ := p.arch_memory_.modify vpn fun _ => e }) }

/-- `cow_map_[ppn].erase(pid)` -/
def eraseSharer (s : Kernel) (ppn : Ppn) (pid : ℕ) : Kernel :=
  { s with cow_map_ := update s.cow_map_ ppn ((s.cow_map_ ppn).erase pid) }

def handleCOWPageFault (s : Kernel) (pid : ℕ) (p : UserProcess) (address : ℕ) (pages : List Ppn) :
    Except Panic Kernel := do
  let vpn := address / PAGE_SIZE
  match p.arch_memory_[vpn]? with
  | none => throw .nullPointer
  | some e =>
    if pid ∉ s.cow_map_ e.page_ppn then throw .notSharing
    match (s.cow_map_ e.page_ppn).length with
    | 0 => throw .notSharing
    | 1 => return eraseSharer (setPte s pid vpn { e with writeable := true }) e.page_ppn pid
    | 2 =>
      let (new_ppn, _) ← allocPPN pages
      let s := eraseSharer (setPte s pid vpn ⟨new_ppn, true⟩) e.page_ppn pid
      match s.cow_map_ e.page_ppn with
      | [] => throw .nullPointer
      | other_proc :: _ =>
        match (s.process_list_ other_proc).bind (·.arch_memory_[vpn]?) with
        | none => throw .nullPointer
        | some other_e =>
          return eraseSharer (setPte s other_proc vpn { other_e with writeable := true })
            e.page_ppn other_proc
    | _ =>
      let (ppn, _) ← allocPPN pages
      return eraseSharer (setPte s pid vpn ⟨ppn, true⟩) e.page_ppn pid

def addrIsWithinAnyUserStack (p : UserProcess) (address : ℕ) : Option (ℕ × UserThread) :=
  if address > STACK_SPACE_START ∨ address < STACK_SPACE_END then none
  else p.thread_list_.toList.find? fun t => Stacks.within address t.2.stack_start_addr_

def increaseUserStackSize (pid : ℕ) (p : UserProcess) (tid : ℕ) (thread : UserThread)
    (pages : List Ppn) : Except Panic (UserProcess × List Event) := do
  let n := thread.stack_pages_ + 1
  if n.toNat > STACK_MAX_PAGES then return (p.exit, [.maximumReached pid tid])
  let vpn := (thread.stack_start_addr_.val - PAGE_SIZE * n.toNat) / PAGE_SIZE
  let (ppn, _) ← allocPPN pages
  let (memory, mapped) := mapPage p.arch_memory_ vpn ppn
  if mapped = false then return (p.exit, [.couldNotMap pid tid])
  return ({ p with
    arch_memory_ := memory
    thread_list_ := p.thread_list_.insert tid { thread with stack_pages_ := n } }, [])

def loadPage (p : UserProcess) (address : ℕ) (content : Content) (pages : List Ppn) :
    Except Panic UserProcess := do
  let (ppn, _) ← allocPPN pages
  match content with
  | .unreadable => return p.exit
  | .noSection => return p.exit
  | .found _ => return { p with arch_memory_ := (mapPage p.arch_memory_ (address / PAGE_SIZE) ppn).1 }

def checkPageFaultIsValid (s : Kernel) (p : UserProcess) (address : ℕ) (present : Bool) : Bool :=
  if address < null_reference_check_border_ then false
  else if address ≥ USER_BREAK then false
  else if present then ppnShared s p address
  else true

def handlePageFault (s : Kernel) (pid : ℕ) (p : UserProcess) (address : ℕ) (present : Bool)
    (content : Content) (pages : List Ppn) : Except Panic (Kernel × List Event) := do
  if checkPageFaultIsValid s p address present = false then return (setProcess s pid p.exit, [])
  if ppnShared s p address then
    let s ← handleCOWPageFault s pid p address pages
    return (s, [])
  else
    match addrIsWithinAnyUserStack p address with
    | some (tid, thread) =>
      let (p, evs) ← increaseUserStackSize pid p tid thread pages
      return (setProcess s pid p, evs)
    | none =>
      let p ← loadPage p address content pages
      return (setProcess s pid p, [])

/-- One try of a read or a write, with the fault that it causes. -/
def access (s : Kernel) (pid : ℕ) (p : UserProcess) (address : ℕ) (writes : Bool)
    (content : Content) (pages : List Ppn) : Except Panic (Kernel × List Event) :=
  match if address < USER_BREAK then p.arch_memory_[address / PAGE_SIZE]? else none with
  | none => handlePageFault s pid p address false content pages
  | some e =>
    if writes = false ∨ e.writeable = true then .ok (s, [])
    else handlePageFault s pid p address true content pages

/-! ### Runs -/

/-- `pid` and `tid` are those of the thread that runs. -/
inductive Label
  | createProcess (start : StackStart) (pages : List Ppn)
  | createThread (pid tid : ℕ) (start : StackStart) (pages : List Ppn)
  | fork (pid tid : ℕ) (garbage : Garbage)
  | execv (pid tid : ℕ) (loads : Bool) (start : StackStart) (pages : List Ppn)
  | access (pid tid address : ℕ) (writes : Bool) (content : Content) (pages : List Ppn)
  | exitThread (pid tid : ℕ)
  | exit (pid tid : ℕ)
  | threadDestroyed (pid tid : ℕ)

/-- The process and the thread, if it is alive. -/
def Kernel.running (s : Kernel) (pid tid : ℕ) : Option (UserProcess × UserThread) :=
  match s.process_list_ pid with
  | none => none
  | some p =>
    match p.thread_list_[tid]? with
    | none => none
    | some t => if t.toBeDestroyed then none else some (p, t)

def onRunning (s : Kernel) (pid tid : ℕ)
    (f : UserProcess → UserThread → Except Panic (Kernel × List Event)) :
    Except Panic (Kernel × List Event) :=
  match s.running pid tid with
  | none => .ok (s, [])
  | some (p, t) => f p t

def step (s : Kernel) : Label → Except Panic (Kernel × List Event)
  | .createProcess start pages => (·, []) <$> createProcess s start pages
  | .createThread pid tid start pages => onRunning s pid tid fun p _ =>
    (setProcess s pid ·, []) <$> internalAddNewThread p start pages
  | .fork pid tid garbage => onRunning s pid tid fun p t => .ok (StackGrowth.fork s pid p t garbage, [])
  | .execv pid tid loads start pages => onRunning s pid tid fun p _ =>
    (setProcess s pid ·, []) <$> restructureProcessForExecv p tid loads start pages
  | .access pid tid address writes content pages => onRunning s pid tid fun p _ =>
    StackGrowth.access s pid p address writes content pages
  | .exitThread pid tid => onRunning s pid tid fun p _ =>
    .ok (setProcess s pid (StackGrowth.exitThread p tid), [])
  | .exit pid tid => onRunning s pid tid fun p _ => .ok (setProcess s pid p.exit, [])
  | .threadDestroyed pid tid =>
    match s.process_list_ pid with
    | none => .ok (s, [])
    | some p =>
      match p.thread_list_[tid]? with
      | none => .ok (s, [])
      | some t => .ok (if t.toBeDestroyed then onThreadDestroyed s pid p tid else s, [])

/-- No process yet. -/
def boot : Kernel := ⟨fun _ => none, 0, fun _ => []⟩

end KPanic.StackGrowth

import KPanic.Kernel.COWManager

/-!
# `common/source/mm/PageFaultHandler.cpp`, `Loader::loadPage`

What a page fault of a thread of process `proc` does. `Syscall::exit` does not return: it marks
the process, and the process is destroyed later.
-/

namespace KPanic

def null_reference_check_border_ : ℕ := PAGE_SIZE

/-- What the program file has for a page: a read failed, no section refers to it, or the bytes
that the sections put there. -/
inductive Content
  | unreadable
  | noSection
  | found (page : Page)

/-- `Syscall::exit`, up to the removal of the process. -/
def exit (proc : ℕ) : Kern PUnit :=
  modify fun s => { s with
    process_list_ := Function.update s.process_list_ proc
      ((s.process_list_ proc).map fun p => { p with called_exit_ := true }) }

def loadPage (proc virtual_address : ℕ) (content : Content) : Kern PUnit := do
  let p ← getProcess proc
  let ppn ← allocPPN PAGE_SIZE
  match content with
  | .unreadable =>
    freePPN ppn PAGE_SIZE
    exit proc
  | .noSection =>
    freePPN ppn PAGE_SIZE
    exit proc
  | .found page =>
    Kern.setPage ppn page
    let page_mapped ← ArchMemory.mapPage p.page_map_level_4_ (virtual_address / PAGE_SIZE) ppn 1
    if page_mapped = false then freePPN ppn PAGE_SIZE

/-- The index of the thread in `thread_list_`. -/
def addrIsWithinAnyUserStack (thread_list_ : List UserThread) (address : ℕ) : Option ℕ :=
  if address > STACK_SPACE_START ∨ address < STACK_SPACE_END then none
  else thread_list_.findIdx? fun thread =>
    address ≤ thread.stack_start_addr_ ∧ address > thread.stack_start_addr_ - STACK_MAX_SIZE

def setStackPages (proc thread : ℕ) (stack_pages : BitVec 16) : Kern PUnit :=
  modify fun s => { s with
    process_list_ := Function.update s.process_list_ proc ((s.process_list_ proc).map fun p =>
      { p with thread_list_ :=
          p.thread_list_.modify thread fun t => { t with stack_pages_ := stack_pages } }) }

def increaseUserStackSize (proc thread : ℕ) : Kern PUnit := do
  let p ← getProcess proc
  match p.thread_list_[thread]? with
  | none => throw .nullPointer
  | some t =>
    let pages := t.stack_pages_ + 1
    if pages.toNat > STACK_MAX_PAGES then exit proc
    else
      let vpn := (t.stack_start_addr_ - PAGE_SIZE * pages.toNat) / PAGE_SIZE
      let ppn ← allocPPN PAGE_SIZE
      let mapped ← ArchMemory.mapPage p.page_map_level_4_ vpn ppn 1
      if mapped = false then
        freePPN ppn PAGE_SIZE
        exit proc
      else setStackPages proc thread pages

def checkPageFaultIsValid (proc address : ℕ) (present : Bool) : Kern Bool := do
  if address < null_reference_check_border_ then return false
  else if address ≥ USER_BREAK then return false
  else if present then COWManager.addrShared proc address
  else return true

/-- The part of `handlePageFault` for a valid fault. -/
def handleValid (proc address : ℕ) (content : Content) : Kern PUnit := do
  let p ← getProcess proc
  if ← COWManager.addrShared proc address then COWManager.handleCOWPageFault proc address
  else
    match addrIsWithinAnyUserStack p.thread_list_ address with
    | some thread => increaseUserStackSize proc thread
    | none => loadPage proc address content

def handlePageFault (proc address : ℕ) (present : Bool) (content : Content) : Kern PUnit := do
  if ← checkPageFaultIsValid proc address present then handleValid proc address content
  else exit proc

end KPanic

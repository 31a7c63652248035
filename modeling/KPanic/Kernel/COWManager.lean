import KPanic.Arch.ArchMemory

/-!
# `common/source/kernel/COWManager.cpp`: the fault handler

`handleCOWPageFault` looks the mapping up before it takes `cow_map_lock_`, so the part under the
lock is a function of its own.
-/

namespace KPanic

open Function

/-- The process an object pointer refers to. -/
def getProcess (pid : ℕ) : Kern UserProcess := do
  match (← get).process_list_ pid with
  | some proc => return proc
  | none => throw .noProcess

namespace COWManager

/-- `m.pt[m.pti].f = v` -/
def setPte (m : ArchMemoryMapping) (f : BitField.Field) (v : ℕ) : Kern PUnit := do
  Kern.assert (m.pt_ppn ≠ 0) .nullPointer
  Kern.setField m.pt_ppn m.pti f v

/-- `cow_map_[ppn].erase(pid)` -/
def erase (ppn pid : ℕ) : Kern PUnit :=
  modify fun s => { s with cow_map_ := update s.cow_map_ ppn ((s.cow_map_ ppn).erase pid) }

/-- `cow_map_[ppn].at(0)` -/
def first (ppn : ℕ) : Kern ℕ := do
  match (← get).cow_map_ ppn with
  | pid :: _ => return pid
  | [] => throw .nullPointer

/-- What `handleCOWPageFault` does while it holds `cow_map_lock_`. -/
def handleLocked (proc virt_address : ℕ) (mapping : ArchMemoryMapping) : Kern PUnit := do
  let sharers := (← get).cow_map_ mapping.page_ppn
  Kern.assert (proc ∈ sharers) .notSharing
  let size_of_set := sharers.length
  if size_of_set = 0 then throw .notSharing
  else if size_of_set = 1 then
    setPte mapping writeable 1
    erase mapping.page_ppn proc
  else if size_of_set = 2 then
    let new_ppn ← allocPPN PAGE_SIZE
    setPte mapping page_ppn new_ppn
    setPte mapping writeable 1
    ArchMemory.copyPage new_ppn mapping.page_ppn
    erase mapping.page_ppn proc
    let other_proc ← first mapping.page_ppn
    let other ← getProcess other_proc
    let other_mapping ← ArchMemory.resolveMapping other.page_map_level_4_ (virt_address / PAGE_SIZE)
    setPte other_mapping writeable 1
    erase mapping.page_ppn other_proc
  else
    let ppn ← allocPPN PAGE_SIZE
    ArchMemory.copyPage ppn mapping.page_ppn
    setPte mapping page_ppn ppn
    setPte mapping writeable 1
    erase mapping.page_ppn proc

def handleCOWPageFault (proc virt_address : ℕ) : Kern PUnit := do
  let p ← getProcess proc
  let mapping ← ArchMemory.resolveMapping p.page_map_level_4_ (virt_address / PAGE_SIZE)
  handleLocked proc virt_address mapping

/-- `ppnShared(pointer)` -/
def addrShared (proc virt_address : ℕ) : Kern Bool := do
  let p ← getProcess proc
  let mapping ← ArchMemory.resolveMapping p.page_map_level_4_ (virt_address / PAGE_SIZE)
  ppnShared mapping.page_ppn

end COWManager

end KPanic

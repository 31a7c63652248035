import KPanic.Kernel.COWMap

/-!
# `arch/x86/64/source/ArchMemory.cpp`

An `ArchMemory` is its `page_map_level_4_`. The four nested loops over a page table are written
once, by recursion on the level: `freeTables` for the destructor, `forEachPage` for the two
functions that copy the pages of a process.
-/

namespace KPanic

open BitField (Word)
open Wp (forUpTo)

/-- A pointer to a table is its `_ppn`, so the mapping keeps the numbers only. -/
structure ArchMemoryMapping where
  pml4_ppn : ℕ
  pdpt_ppn : ℕ
  pd_ppn : ℕ
  pt_ppn : ℕ
  page_ppn : ℕ
  page_size : ℕ
  pml4i : ℕ
  pdpti : ℕ
  pdi : ℕ
  pti : ℕ
  deriving DecidableEq

namespace ArchMemory

/-- The constructor. -/
def new : Kern ℕ := do
  let page_map_level_4_ ← allocPPN PAGE_SIZE
  let s ← get
  Kern.setPage page_map_level_4_ s.kernel_page_map_level_4
  Kern.setPage page_map_level_4_ fun i =>
    if i < PAGE_MAP_LEVEL_4_ENTRIES / 2 then 0 else s.kernel_page_map_level_4 i
  return page_map_level_4_

def resolveMapping (pml4 vpage : ℕ) : Kern ArchMemoryMapping := do
  let m : ArchMemoryMapping :=
    { pml4_ppn := pml4, pdpt_ppn := 0, pd_ppn := 0, pt_ppn := 0, page_ppn := 0, page_size := 0
      pml4i := vpage / PAGE_TABLE_ENTRIES / PAGE_TABLE_ENTRIES / PAGE_TABLE_ENTRIES %
        PAGE_MAP_LEVEL_4_ENTRIES
      pdpti := vpage / PAGE_TABLE_ENTRIES / PAGE_TABLE_ENTRIES % PAGE_TABLE_ENTRIES
      pdi := vpage / PAGE_TABLE_ENTRIES % PAGE_TABLE_ENTRIES
      pti := vpage % PAGE_TABLE_ENTRIES }
  let getTotalNumPages := (← get).pm.number_of_pages_
  Kern.assert (pml4 < getTotalNumPages) .ppnOutOfRange
  let pml4e ← Kern.entry pml4 m.pml4i
  if present.get pml4e = 0 then return m
  let m := { m with pdpt_ppn := page_ppn.get pml4e }
  let pdpte ← Kern.entry m.pdpt_ppn m.pdpti
  if present.get pdpte ≠ 0 ∧ size.get pdpte = 0 then
    let m := { m with pd_ppn := page_ppn.get pdpte }
    Kern.assert (m.pd_ppn < getTotalNumPages) .ppnOutOfRange
    let pde ← Kern.entry m.pd_ppn m.pdi
    if present.get pde ≠ 0 ∧ size.get pde = 0 then
      let m := { m with pt_ppn := page_ppn.get pde }
      Kern.assert (m.pt_ppn < getTotalNumPages) .ppnOutOfRange
      let pte ← Kern.entry m.pt_ppn m.pti
      if present.get pte = 0 then return m
      let m := { m with page_ppn := page_ppn.get pte }
      Kern.assert (m.page_ppn < getTotalNumPages) .ppnOutOfRange
      return { m with page_size := PAGE_SIZE }
    else if present.get pde ≠ 0 then
      return { m with page_size := PAGE_SIZE * PAGE_TABLE_ENTRIES, page_ppn := page_ppn_2mb.get pde }
    else return m
  else if present.get pdpte ≠ 0 then
    let m := { m with
      page_size := PAGE_SIZE * PAGE_TABLE_ENTRIES * PAGE_TABLE_ENTRIES
      page_ppn := page_ppn_1gb.get pdpte }
    Kern.assert (m.page_ppn < getTotalNumPages) .ppnOutOfRange
    return m
  else return m

/-- Returns whether the table is empty now. -/
def checkAndRemove (map index : ℕ) : Kern Bool := do
  Kern.setEntry map index 0
  let s ← get
  return (List.range PAGE_TABLE_ENTRIES).all fun i => present.get (s.memory map i) = 0

/-- Take the entry of a table that has become empty out of the table above it. -/
def removeTable (empty : Bool) (map index ppn : ℕ) : Kern Bool := do
  if empty then
    let empty ← checkAndRemove map index
    freePPN ppn PAGE_SIZE
    return empty
  else return false

def unmapPage (page_map_level_4_ virtual_page : ℕ) : Kern Bool := do
  let m ← resolveMapping page_map_level_4_ virtual_page
  Kern.assert (m.page_ppn ≠ 0 ∧ m.page_size = PAGE_SIZE) .notMapped
  let w ← Kern.entry m.pt_ppn m.pti
  Kern.assert (KPanic.present.get w ≠ 0) .notMapped
  Kern.setField m.pt_ppn m.pti KPanic.present 0
  freePPN m.page_ppn PAGE_SIZE
  Kern.setEntry m.pt_ppn m.pti 0
  let empty ← checkAndRemove m.pt_ppn m.pti
  let empty ← removeTable empty m.pd_ppn m.pdi m.pt_ppn
  let empty ← removeTable empty m.pdpt_ppn m.pdpti m.pd_ppn
  let _ ← removeTable empty m.pml4_ppn m.pml4i m.pdpt_ppn
  return true

def insert (map index ppn : ℕ) (bzero : Bool) (size user_access writeable : ℕ) : Kern Bool := do
  Kern.assert (map ≠ 0) .nullPointer
  if bzero then
    Kern.setPage ppn fun _ => 0
    let w ← Kern.entry map index
    Kern.assert (w = 0) .entryInUse
  Kern.setField map index KPanic.size size
  Kern.setField map index KPanic.writeable writeable
  Kern.setField map index KPanic.page_ppn ppn
  Kern.setField map index KPanic.user_access user_access
  Kern.setField map index KPanic.present 1
  return true

/-- The next lower table: the one there is, or a new one. -/
def tableFor (map index ppn : ℕ) : Kern ℕ := do
  if ppn ≠ 0 then return ppn
  let ppn ← allocPPN PAGE_SIZE
  let _ ← insert map index ppn true 0 1 1
  return ppn

def mapPage (page_map_level_4_ virtual_page physical_page user_access : ℕ) : Kern Bool := do
  let m ← resolveMapping page_map_level_4_ virtual_page
  Kern.assert (m.page_size = 0 ∨ m.page_size = PAGE_SIZE) .hugePage
  let pdpt_ppn ← tableFor m.pml4_ppn m.pml4i m.pdpt_ppn
  let pd_ppn ← tableFor pdpt_ppn m.pdpti m.pd_ppn
  let pt_ppn ← tableFor pd_ppn m.pdi m.pt_ppn
  if m.page_ppn = 0 then insert pt_ppn m.pti physical_page false 0 user_access 1
  else return false

/-- The loops of the destructor from level `l` on, over the table at `t`; the page table is at
level 1. Only the lower half of the table at level 4 is freed. -/
def freeTables : ℕ → ℕ → Kern PUnit
  | 0, _ => pure ⟨⟩
  | l + 1, t =>
    forUpTo (if l + 1 = 4 then PAGE_MAP_LEVEL_4_ENTRIES / 2 else PAGE_TABLE_ENTRIES) fun i => do
      let w ← Kern.entry t i
      if present.get w ≠ 0 then
        if l + 1 = 2 ∨ l + 1 = 3 then Kern.assert (size.get w = 0) .hugePage
        freeTables l (page_ppn.get w)
        Kern.setField t i present 0
        let w ← Kern.entry t i
        freePPN (page_ppn.get w) PAGE_SIZE

/-- The destructor. -/
def delete (page_map_level_4_ : ℕ) : Kern PUnit := do
  freeTables 4 page_map_level_4_
  freePPN page_map_level_4_ PAGE_SIZE

/-- The loops that visit the mapped pages, from level `l` on; `x` collects the indices of the
levels above, so that `body` gets the slot of a page table entry and the virtual page for it. -/
def forEachPage (body : ℕ → ℕ → ℕ → Kern PUnit) : ℕ → ℕ → ℕ → Kern PUnit
  | 0, _, _ => pure ⟨⟩
  | l + 1, t, x =>
    forUpTo (if l + 1 = 4 then PAGE_MAP_LEVEL_4_ENTRIES / 2 else PAGE_TABLE_ENTRIES) fun i => do
      let w ← Kern.entry t i
      if present.get w ≠ 0 then
        if l + 1 = 2 ∨ l + 1 = 3 then Kern.assert (size.get w = 0) .hugePage
        if l = 0 then body t i (x * PAGE_TABLE_ENTRIES + i)
        else forEachPage body l (page_ppn.get w) (x * PAGE_TABLE_ENTRIES + i)

def insertCopy (map index ppn writeable : ℕ) (old : Word) : Kern Bool := do
  Kern.assert (map ≠ 0) .nullPointer
  if writeable ≠ 0 then
    Kern.setPage ppn fun _ => 0
    let w ← Kern.entry map index
    Kern.assert (w = 0) .entryInUse
  Kern.setEntry map index old
  Kern.setField map index KPanic.page_ppn ppn
  Kern.setField map index KPanic.writeable writeable
  return true

/-- As `tableFor`, with the flags of the entry at `oldi` of `old`. -/
def tableCopyFor (map index ppn old oldi : ℕ) : Kern ℕ := do
  if ppn ≠ 0 then return ppn
  let ppn ← allocPPN PAGE_SIZE
  let w ← Kern.entry old oldi
  let _ ← insertCopy map index ppn 1 w
  return ppn

def copyPageHierarchy (page_map_level_4_ virtual_page physical_page new_mem writeable : ℕ) :
    Kern Bool := do
  let new_mapping ← resolveMapping new_mem virtual_page
  let old_mapping ← resolveMapping page_map_level_4_ virtual_page
  Kern.assert (new_mapping.page_size = 0 ∨ new_mapping.page_size = PAGE_SIZE) .hugePage
  let pdpt_ppn ← tableCopyFor new_mapping.pml4_ppn new_mapping.pml4i new_mapping.pdpt_ppn
    old_mapping.pml4_ppn old_mapping.pml4i
  let pd_ppn ← tableCopyFor pdpt_ppn new_mapping.pdpti new_mapping.pd_ppn
    old_mapping.pdpt_ppn old_mapping.pdpti
  let pt_ppn ← tableCopyFor pd_ppn new_mapping.pdi new_mapping.pt_ppn
    old_mapping.pd_ppn old_mapping.pdi
  if new_mapping.page_ppn = 0 then
    let w ← Kern.entry old_mapping.pt_ppn old_mapping.pti
    insertCopy pt_ppn new_mapping.pti physical_page writeable w
  else return false

/-- `memcpy` of one page. -/
def copyPage (new_ppn old_ppn : ℕ) : Kern PUnit := do
  let s ← get
  Kern.setPage new_ppn (s.memory old_ppn)

/-- The address of the page that the loops of `copyPagesToNewArchMem` have reached. -/
def virtAddr (pml4i pdpti pdi pti : ℕ) : ℕ :=
  pml4i <<< (9 + 9 + 9 + 12) + pdpti <<< (9 + 9 + 12) + pdi <<< (9 + 12) + pti <<< 12

def copyPagesToNewArchMem (page_map_level_4_ new_mem : ℕ) : Kern PUnit :=
  forEachPage (fun pt pti vpn => do
    let phys_page ← allocPPN PAGE_SIZE
    let vpn_mapped ← copyPageHierarchy page_map_level_4_ vpn phys_page new_mem 1
    Kern.assert (vpn_mapped = true) .alreadyMapped
    let w ← Kern.entry pt pti
    copyPage phys_page (page_ppn.get w)) 4 page_map_level_4_ 0

def copyArgsSegmentToNewArchMem (new_mem old_args_ppn : ℕ) : Kern PUnit := do
  let new_args_ppn ← allocPPN PAGE_SIZE
  let vpn_mapped ← mapPage new_mem argsVpn new_args_ppn 1
  Kern.assert (vpn_mapped = true) .alreadyMapped
  copyPage new_args_ppn old_args_ppn

def copyPagesToNewArchMemCOW (page_map_level_4_ new_mem pid1 pid2 : ℕ) : Kern PUnit :=
  forEachPage (fun pt pti vpn => do
    let w ← Kern.entry pt pti
    let vpn_mapped ← copyPageHierarchy page_map_level_4_ vpn (page_ppn.get w) new_mem 0
    Kern.assert (vpn_mapped = true) .alreadyMapped
    Kern.setField pt pti writeable 0
    let w ← Kern.entry pt pti
    addToCOWMap (page_ppn.get w) pid1 pid2) 4 page_map_level_4_ 0

end ArchMemory

end KPanic

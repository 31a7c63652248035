import Mathlib.Data.Finset.Card
import KPanic.Arch.KernelMapping
import KPanic.Mm.KernelMemoryManager

/-!
# `common/source/mm/PageManager.cpp`: the constructor

`page_usage_table` is an array on the stack with a bit for each of the first `boot_bitmap_size` pages;
`used_pages` counts the bits that are set. An access to a bit behind the end stops the model. The pages
that the loop for the heap takes are remembered in `heap`.
-/

namespace KPanic.PageManagerBoot

open BitField (Word)
open Fallible

/-! ### `ArchCommon.cpp` -/

def PHYSICAL_TO_VIRTUAL_OFFSET : ℕ := 0xFFFFFFFF80000000
def RESERVED_START : ℕ := 0xFFFFFFFF80000
def RESERVED_END : ℕ := 0xFFFFFFFFC0000

structure MemoryMap where
  start_address : Word
  end_address : Word
  type : Word

structure ModuleMap where
  start_address : Word
  end_address : Word

/-- What the boot loader and `initialisePaging` leave behind. -/
structure BootInfo where
  memory_maps : List MemoryMap
  module_maps : List ModuleMap
  kernel_end_address : Word
  tables : KernelTables

def ModuleMap.getModuleStartAddress (m : ModuleMap) : Word :=
  m.start_address ||| BitVec.ofNat 64 PHYSICAL_TO_VIRTUAL_OFFSET

def ModuleMap.getModuleEndAddress (m : ModuleMap) : Word :=
  m.end_address ||| BitVec.ofNat 64 PHYSICAL_TO_VIRTUAL_OFFSET

def BootInfo.getFreeKernelMemoryStart (b : BootInfo) : Word :=
  let free_kernel_memory_start := b.module_maps.foldl (fun free_kernel_memory_start m =>
    if m.getModuleEndAddress > free_kernel_memory_start then m.getModuleEndAddress
    else free_kernel_memory_start) b.kernel_end_address
  ((free_kernel_memory_start - 1) ||| 0xFFF) + 1

/-! ### The number of pages -/

/-- The page of an address. -/
def pageOf (address : Word) : ℕ := address.toNat / PAGE_SIZE

def BootInfo.highest_address (b : BootInfo) : ℕ :=
  b.memory_maps.foldl (fun highest_address r =>
    if r.type = 1 then max highest_address (r.end_address &&& 0x7FFFFFFF).toNat else highest_address) 0

def BootInfo.number_of_pages_ (b : BootInfo) : ℕ := b.highest_address / PAGE_SIZE

def BootInfo.boot_bitmap_size (b : BootInfo) : ℕ := min (4096 * 8 * 2) b.number_of_pages_

/-- After the `memset`. -/
def fullTable (boot_bitmap_size : ℕ) : Bitmap :=
  ⟨boot_bitmap_size, boot_bitmap_size, List.replicate (bitmapByteCount boot_bitmap_size) 0xFF⟩

/-! ### Accesses to `page_usage_table` -/

def setBit (page_usage_table : Bitmap) (bit_number : ℕ) : Boot (Bool × Bitmap) :=
  if bit_number < page_usage_table.size_ then pure (page_usage_table.setBit bit_number)
  else throw (.outOfBounds bit_number)

def unsetBit (page_usage_table : Bitmap) (bit_number : ℕ) : Boot (Bool × Bitmap) :=
  if bit_number < page_usage_table.size_ then pure (page_usage_table.unsetBit bit_number)
  else throw (.outOfBounds bit_number)

/-! ### The usable regions -/

/-- The loop over `k`, which is left after `count` passes. -/
def clearPages : ℕ → ℕ → Bitmap → Boot Bitmap
  | 0, _, table => pure table
  | count + 1, k, table => do
    let (_, table) ← unsetBit table k
    clearPages count (k + 1) table

/-- `lowest_unreserved_page_` is still 0, so the maximum with it is left out. -/
def clearRegions (number_of_pages_ : ℕ) : List MemoryMap → Bitmap → Boot Bitmap
  | [], table => pure table
  | r :: regions, table =>
    if r.type ≠ 1 then clearRegions number_of_pages_ regions table
    else do
      let start_page := pageOf r.start_address
      let end_page := pageOf r.end_address
      let table ← clearPages (min end_page number_of_pages_ - start_page) start_page table
      clearRegions number_of_pages_ regions table

/-! ### The kernel mapping -/

/-- The loop over the 4k pages of a page, from `page` on. -/
def setPages (number_of_pages_ : ℕ) : ℕ → ℕ → Bitmap → Boot Bitmap
  | 0, _, table => pure table
  | count + 1, page, table => do
    let table ← if page < number_of_pages_ then Prod.snd <$> setBit table page else pure table
    setPages number_of_pages_ count (page + 1) table

/-- The loop over `i`, with at most `passes` passes. -/
def reserveKernelPages (t : KernelTables) (number_of_pages_ : ℕ) : ℕ → ℕ → Bitmap → Boot Bitmap
  | 0, _, _ => throw .endless
  | passes + 1, i, table =>
    if i < RESERVED_END then do
      let m ← t.resolveMapping number_of_pages_ i
      Boot.assert (m.page_size = 0 ∨ m.page_size = PAGE_SIZE ∨ m.page_size = PAGE_SIZE * PAGE_TABLE_ENTRIES)
        .pageSize
      if m.page_size > 0 then
        let num_4kpages := m.page_size / PAGE_SIZE
        let table ← setPages number_of_pages_ num_4kpages (m.page_ppn * num_4kpages) table
        let i := i + (num_4kpages - 1)
        let table ← if num_4kpages = 1 ∧ i % 1024 = 0 ∧ m.pt_ppn < number_of_pages_ then
          Prod.snd <$> setBit table m.pt_ppn else pure table
        reserveKernelPages t number_of_pages_ passes (i + 1) table
      else reserveKernelPages t number_of_pages_ passes (i + 1) table
    else pure table

/-! ### The modules -/

/-- The loop over `k`, which is left after `count` passes. -/
def reserveModule (number_of_pages_ : ℕ) : ℕ → ℕ → KernelTables → Bitmap → Boot (KernelTables × Bitmap)
  | 0, _, t, table => pure (t, table)
  | count + 1, k, t, table => do
    let (_, table) ← setBit table k
    let (_, t) ← t.mapUnmapped number_of_pages_ (PHYSICAL_TO_VIRTUAL_OFFSET / PAGE_SIZE + k) k
    reserveModule number_of_pages_ count (k + 1) t table

def ModuleMap.start_page (m : ModuleMap) : ℕ := pageOf (m.getModuleStartAddress &&& 0x7FFFFFFF)

def ModuleMap.end_page (m : ModuleMap) : ℕ := pageOf (m.getModuleEndAddress &&& 0x7FFFFFFF)

/-- `number_of_pages_` is not 0 here, as `resolveMapping` has asserted. -/
def reserveModules (number_of_pages_ : ℕ) :
    List ModuleMap → KernelTables → Bitmap → Boot (KernelTables × Bitmap)
  | [], t, table => pure (t, table)
  | m :: modules, t, table => do
    let first := min m.start_page number_of_pages_
    let last := min m.end_page (number_of_pages_ - 1)
    let (t, table) ← reserveModule number_of_pages_ (last + 1 - first) first t table
    reserveModules number_of_pages_ modules t table

/-! ### The heap -/

def heapPages (number_of_pages_ used_pages : ℕ) : ℕ :=
  let HEAP_PAGES := number_of_pages_ / 2 - used_pages
  if HEAP_PAGES > 1024 then 1024 + (HEAP_PAGES - min HEAP_PAGES 1024) / 8 else HEAP_PAGES

/-- `while (!Bitmap::setBit(page_usage_table, used_pages, free_page)) free_page++`, with at most `passes`
passes. -/
def nextFree : ℕ → ℕ → Bitmap → Boot (ℕ × Bitmap)
  | 0, _, _ => throw .endless
  | passes + 1, free_page, table => do
    let (was_clear, table) ← setBit table free_page
    if was_clear then pure (free_page, table) else nextFree passes (free_page + 1) table

structure HeapState where
  tables : KernelTables
  page_usage_table : Bitmap
  start_vpn : ℕ
  free_page : ℕ
  temp_page_size : ℕ
  num_reserved_heap_pages : ℕ
  heap : List ℕ

/-- The bound of `num_reserved_heap_pages` in the last condition of the loop. -/
def heapBound (number_of_pages_ HEAP_PAGES : ℕ) : ℕ :=
  if Heap.DYNAMIC_KMM = true ∨ number_of_pages_ < 512 then 0 else HEAP_PAGES

/-- The loop over `num_reserved_heap_pages`, with at most `passes` passes. -/
def reserveHeap (number_of_pages_ num_pages_for_bitmap HEAP_PAGES : ℕ) : ℕ → HeapState → Boot HeapState
  | 0, _ => throw .endless
  | passes + 1, s =>
    if s.num_reserved_heap_pages < num_pages_for_bitmap ∨ s.temp_page_size ≠ 0 ∨
        s.num_reserved_heap_pages < heapBound number_of_pages_ HEAP_PAGES then do
      let (free_page, table) ← nextFree (s.page_usage_table.size_ + 1) s.free_page s.page_usage_table
      let (temp_page_size, t) ← s.tables.mapUnmapped number_of_pages_ s.start_vpn free_page
      reserveHeap number_of_pages_ num_pages_for_bitmap HEAP_PAGES passes
        { tables := t
          page_usage_table := table
          start_vpn := s.start_vpn + 1
          free_page := if temp_page_size = 0 then free_page + 1 else free_page
          temp_page_size := temp_page_size
          num_reserved_heap_pages := s.num_reserved_heap_pages + 1
          heap := s.heap ++ [free_page] }
    else pure s

/-! ### The constructor -/

/-- The loop that copies the first bits of `page_usage_table` into the new bitmap. -/
def copyBits (page_usage_table : Bitmap) : ℕ → Bitmap → Bitmap
  | 0, bm => bm
  | i + 1, bm =>
    let bm := copyBits page_usage_table i bm
    if Bitmap.getBit page_usage_table.bitmap_ i then (bm.setBit i).2 else bm

/-- 0 if there is none. -/
def lowestUnreserved (bm : Bitmap) (number_of_pages_ : ℕ) : ℕ :=
  ((List.range number_of_pages_).find? fun p => !Bitmap.getBit bm.bitmap_ p).getD 0

/-- The page manager, and what the constructor of the kernel memory manager is called with. -/
structure Constructed where
  pm : PageManager
  tables : KernelTables
  num_reserved_heap_pages : ℕ
  HEAP_PAGES : ℕ
  heap : List ℕ

/-- From the assertion that there is space for the heap on. -/
def takeHeap (b : BootInfo) (t : KernelTables) (table : Bitmap) : Boot Constructed := do
  let number_of_pages_ := b.number_of_pages_
  let num_pages_for_bitmap := number_of_pages_ / 8 / PAGE_SIZE + 1
  Boot.assert (table.num_bits_set_ < number_of_pages_ / 2) .noSpaceForHeap
  let HEAP_PAGES := heapPages number_of_pages_ table.num_bits_set_
  let start_vpn := pageOf b.getFreeKernelMemoryStart
  let s ← reserveHeap number_of_pages_ num_pages_for_bitmap HEAP_PAGES (table.size_ + 1)
    ⟨t, table, start_vpn, 0, 0, 0, []⟩
  let page_usage_table_ := copyBits s.page_usage_table b.boot_bitmap_size (Bitmap.new number_of_pages_)
  let lowest_unreserved_page_ := lowestUnreserved page_usage_table_ number_of_pages_
  Boot.assert (lowest_unreserved_page_ < number_of_pages_) .noFreePage
  return { pm := ⟨page_usage_table_, number_of_pages_, lowest_unreserved_page_⟩
           tables := s.tables
           num_reserved_heap_pages := s.num_reserved_heap_pages
           HEAP_PAGES := HEAP_PAGES
           heap := s.heap }

def construct (b : BootInfo) : Boot Constructed := do
  let number_of_pages_ := b.number_of_pages_
  let table := fullTable b.boot_bitmap_size
  let table ← clearRegions number_of_pages_ b.memory_maps table
  let table ← reserveKernelPages b.tables number_of_pages_ (RESERVED_END - RESERVED_START + 1) RESERVED_START
    table
  let (t, table) ← reserveModules number_of_pages_ b.module_maps b.tables table
  takeHeap b t table

end KPanic.PageManagerBoot

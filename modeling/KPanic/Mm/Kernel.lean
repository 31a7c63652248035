import KPanic.Lib.Wp
import KPanic.Lib.BitField
import KPanic.Util.Bitmap

/-!
# The state of the memory subsystem

What `PageManager`, `ArchMemory`, `COWManager` and `ProcessRegistry` read and write: physical
memory, the page usage table, the sharer sets and the processes. A page is a function of the
index of its 64-bit words. Physical memory is mapped at its identity address, so a pointer to a
table is its physical page number, and 0 is the null pointer.
-/

namespace KPanic

open BitField (Word Field)

abbrev Page := ℕ → Word

/-! ### `arch/x86/64/include/paging-definitions.h`, `offsets.h`, `UserThread.h` -/

def PAGE_SIZE : ℕ := 4096
def PAGE_TABLE_ENTRIES : ℕ := 512
def PAGE_MAP_LEVEL_4_ENTRIES : ℕ := 512
def USER_BREAK : ℕ := 0x0000800000000000
def ARGS_SEGMENT_START : ℕ := 0x00007ffffffff000
def STACK_SPACE_START : ℕ := 0x00007fffffffdfff
def STACK_SPACE_END : ℕ := 0x00002AAAAAAAAAAA
def STACK_MAX_SIZE : ℕ := 0xA000
def STACK_MAX_PAGES : ℕ := 10

/-- The page for the arguments of a program. -/
def argsVpn : ℕ := ARGS_SEGMENT_START / PAGE_SIZE - 1

/-- The entries of all four levels have these fields at the same bits. -/
def present : Field := ⟨0, 1, by decide⟩
def writeable : Field := ⟨1, 1, by decide⟩
def user_access : Field := ⟨2, 1, by decide⟩
def size : Field := ⟨7, 1, by decide⟩
def page_ppn : Field := ⟨12, 28, by decide⟩

/-- The fields of the entries that map a 1 GiB page or a 2 MiB page. -/
def page_ppn_1gb : Field := ⟨30, 10, by decide⟩
def page_ppn_2mb : Field := ⟨21, 19, by decide⟩

/-! ### The kernel -/

/-- Assertions that can fail, and what else stops the kernel. -/
inductive Panic
  | outOfMemory
  | pageModifiedAfterFree
  | doubleFree
  | entryInUse
  | ppnOutOfRange
  | hugePage
  | alreadyMapped
  | notMapped
  | processesNotListed
  | notSharing
  | nullPointer
  | noProcess
  | endlessFault
  deriving DecidableEq

structure PageManager where
  page_usage_table_ : Bitmap
  number_of_pages_ : ℕ
  lowest_unreserved_page_ : ℕ

/-- The addresses that `ASLRStackManager` can choose. -/
abbrev StackStart :=
  { addr : ℕ // addr % PAGE_SIZE = 0 ∧ STACK_SPACE_END + STACK_MAX_SIZE ≤ addr ∧
    addr < STACK_SPACE_START }

structure UserThread where
  stack_start_addr_ : StackStart
  stack_pages_ : BitVec 16

/-- `page_map_level_4_` is the root of `loader_->arch_memory_`. -/
structure UserProcess where
  page_map_level_4_ : ℕ
  args_seg_addr_ : ℕ
  args_ppn_ : ℕ
  thread_list_ : List UserThread
  called_exit_ : Bool

structure Kernel where
  memory : ℕ → Page
  pm : PageManager
  kernel_page_map_level_4 : Page
  cow_map_ : ℕ → List ℕ
  process_list_ : ℕ → Option UserProcess
  pid_counter_ : ℕ

abbrev Kern := StateT Kernel (Except Panic)

namespace Kern

def assert (c : Prop) [Decidable c] (e : Panic) : Kern PUnit := if c then pure ⟨⟩ else throw e

/-- Entry `i` of the table at `t`. -/
def entry (t : ℕ) (i : ℕ) : Kern Word := do
  let s ← get
  return s.memory t i

def setPage (p : ℕ) (f : Page) : Kern PUnit :=
  modify fun s => { s with memory := Function.update s.memory p f }

def setEntry (t : ℕ) (i : ℕ) (w : Word) : Kern PUnit :=
  modify fun s =>
    { s with memory := Function.update s.memory t (Function.update (s.memory t) i w) }

/-- Overwrite one field of an entry. -/
def setField (t : ℕ) (i : ℕ) (f : Field) (v : ℕ) : Kern PUnit := do
  let w ← entry t i
  setEntry t i (f.put w v)

end Kern

end KPanic

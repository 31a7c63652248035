import KPanic.Mm.Kernel
import KPanic.Fs.MinixFSFile

/-!
# `common/source/kernel/Loader.cpp`: the program headers and demand loading

A page on its way to `mapPage` is memory from the start of the page on. The calls of
`readFromBinary` are recorded. `fd_` stands for the open file of the program.
-/

namespace KPanic.Loader

open Bytes (Memory add64 sub64)
open Minix

/-! ### Program headers -/

def PT_LOAD : ℕ := 1

structure Phdr where
  p_type : ℕ
  p_offset : ℕ
  p_vaddr : ℕ
  p_filesz : ℕ
  p_memsz : ℕ
  offset_lt : p_offset < 2 ^ 64
  vaddr_lt : p_vaddr < 2 ^ 64
  filesz_lt : p_filesz < 2 ^ 64
  memsz_lt : p_memsz < 2 ^ 64
  deriving DecidableEq

/-- Both segments load data from the binary to some address. -/
def Overlap (p q : Phdr) : Prop :=
  max p.p_vaddr q.p_vaddr < min (add64 p.p_vaddr p.p_filesz) (add64 q.p_vaddr q.p_filesz)

instance (p q : Phdr) : Decidable (Overlap p q) := inferInstanceAs (Decidable (_ < _))

/-- The loop of `prepareHeaders`; `kept` are the headers in front of `it`. -/
def prepareLoop : List Phdr → List Phdr → Option (List Phdr)
  | kept, [] => some kept
  | kept, p :: phdrs =>
    if p.p_type ≠ PT_LOAD ∨ p.p_memsz = 0 ∧ p.p_filesz = 0 then prepareLoop kept phdrs
    else if kept.any (fun q => Overlap p q) then none
    else prepareLoop (kept ++ [p]) phdrs

/-- The headers that `prepareHeaders` leaves, if it returns true. -/
def prepareHeaders (phdrs : List Phdr) : Option (List Phdr) :=
  match prepareLoop [] phdrs with
  | none => none
  | some kept => if kept.length > 0 then some kept else none

/-! ### `loadPage` -/

/-- A call of `readFromBinary`. -/
structure Call where
  virt_offs_on_page : ℕ
  bin_start_addr : ℕ
  bytes_to_load : ℕ
  deriving DecidableEq

structure Loading where
  page : Memory
  fd_ : File
  found_page_content : Bool
  calls : List Call

/-- How `loadPage` ends: at `mapPage`, in `Syscall::exit`, or on a failed assertion. -/
inductive Ended
  | mapPage (l : Loading)
  | exit (code : ℕ) (l : Loading)
  | stopped (e : Minix.Panic) (l : Loading)

def Ended.loading : Ended → Loading
  | mapPage l => l
  | exit _ l => l
  | stopped _ l => l

/-- Returns whether something is missing. -/
def readFromBinary (fd_ : File) (buffer : Memory) (position length : ℕ) :
    Fs (Bool × Memory × File) := do
  let (_, fd_) ← VfsSyscall.lseek fd_ position SEEK_SET
  let (num_read, buffer, fd_) ← VfsSyscall.read fd_ buffer length
  return (decide ((num_read - length) % 2 ^ 64 ≠ 0), buffer, fd_)

/-- The part of a segment on the page from `virt_page_start_addr` on. -/
def callFor (virt_page_start_addr : ℕ) (p : Phdr) : Call :=
  let virt_page_end_addr := virt_page_start_addr + PAGE_SIZE
  let virt_start_addr := max virt_page_start_addr p.p_vaddr
  { virt_offs_on_page := sub64 virt_start_addr virt_page_start_addr
    bin_start_addr := add64 p.p_offset (sub64 virt_start_addr p.p_vaddr)
    bytes_to_load :=
      sub64 (min virt_page_end_addr (add64 p.p_vaddr p.p_filesz)) virt_start_addr }

/-- The loop over the headers. -/
def loadSegments (virt_page_start_addr : ℕ) : List Phdr → Loading → MinixFSSuperblock → Ended
  | [], l, _ => .mapPage l
  | p :: phdrs, l, s =>
    if p.p_vaddr < virt_page_start_addr + PAGE_SIZE then
      if add64 p.p_vaddr p.p_filesz > virt_page_start_addr then
        let call := callFor virt_page_start_addr p
        let l := { l with calls := l.calls ++ [call] }
        match (readFromBinary l.fd_ (fun i => l.page (call.virt_offs_on_page + i))
            call.bin_start_addr call.bytes_to_load).run s with
        | .error e => .stopped e l
        | .ok ((true, _), _) => .exit 999 l
        | .ok ((false, buffer, fd_), s) =>
          loadSegments virt_page_start_addr phdrs { l with
            page := fun i =>
              if call.virt_offs_on_page ≤ i then buffer (i - call.virt_offs_on_page) else l.page i
            fd_ := fd_
            found_page_content := true } s
      else if add64 p.p_vaddr p.p_memsz > virt_page_start_addr then
        loadSegments virt_page_start_addr phdrs { l with found_page_content := true } s
      else loadSegments virt_page_start_addr phdrs l s
    else loadSegments virt_page_start_addr phdrs l s

/-- `allocPPN` returns a page of zeros. -/
def loadPage (phdrs : List Phdr) (fd_ : File) (virtual_address : ℕ) (s : MinixFSSuperblock) : Ended :=
  let virt_page_start_addr := virtual_address / PAGE_SIZE * PAGE_SIZE
  match loadSegments virt_page_start_addr phdrs ⟨fun _ => 0, fd_, false, []⟩ s with
  | .mapPage l => if l.found_page_content then .mapPage l else .exit 666 l
  | ended => ended

end KPanic.Loader

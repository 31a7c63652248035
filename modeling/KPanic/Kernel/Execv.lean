import KPanic.Lib.Bytes
import KPanic.Mm.Kernel

/-!
# `execv`

`Syscall::execv` packs its arguments into the arguments page, from the top down, and
`UserProcess::restructureProcessForExecv` gives the process a new loader. Strings are the bytes
before the NUL. The kernel is seen from the process that calls.
-/

namespace KPanic.Execv

open Bytes
open Function

abbrev CString := { s : List UInt8 // 0 ∉ s }

def strlen (s : CString) : ℕ := s.val.length

/-! ### The state -/

/-- `ArchThreadRegisters` without the floating-point state. -/
inductive Register
  | rip | cs | rflags | rax | rcx | rdx | rbx | rsp | rbp | rsi | rdi | r8 | r9 | r10 | r11 | r12
  | r13 | r14 | r15 | ds | es | fs | gs | ss | rsp0 | cr3
  deriving DecidableEq

abbrev Registers := Register → ℕ

structure UserThread where
  tid_ : ℕ
  cancel_req_ : Bool
  stack_start_addr_ : ℕ
  user_registers_ : Registers

/-- The root of the page tables and the pages that they map. -/
structure ArchMemory where
  page_map_level_4_ : ℕ
  mapping : ℕ → Option ℕ

structure Loader where
  fd_ : ℤ
  arch_memory_ : ArchMemory

/-- `thread_list_` is `currentThread` with its siblings. -/
structure UserProcess where
  args_seg_addr_ : ℕ
  args_ppn_ : ℕ
  loader_ : Loader
  currentThread : UserThread
  siblings : List UserThread
  fds_ : List (ℤ × ℤ)

/-- `written` has the addresses that the last `execv` wrote to. -/
structure Kernel where
  proc : UserProcess
  frames : ℕ → ℕ → UInt8
  global_fd : List ℕ
  fd_num_ : ℕ
  written : List ℕ

/-- What the process sees at `a`. -/
def Kernel.view (s : Kernel) : Memory := fun a =>
  match s.proc.loader_.arch_memory_.mapping (a / PAGE_SIZE) with
  | none => 0
  | some ppn => s.frames ppn (a % PAGE_SIZE)

/-! ### `Syscall::execv` -/

/-- A byte goes to a user address; at one that is not mapped the fault handler takes over. -/
def writeByte (s : Kernel) (a : ℕ) (v : UInt8) : Kernel :=
  { s with
    written := a :: s.written
    frames := match s.proc.loader_.arch_memory_.mapping (a / PAGE_SIZE) with
      | none => s.frames
      | some ppn => update s.frames ppn (update (s.frames ppn) (a % PAGE_SIZE) v) }

/-- `strncpy(dst, src, strlen(src))` -/
def writeBytes (s : Kernel) (dst : ℕ) : List UInt8 → Kernel
  | [] => s
  | c :: src => writeBytes (writeByte s dst c) (add64 dst 1) src

/-- The bytes of a pointer. -/
def pointerBytes (v : ℕ) : List UInt8 := (List.range 8).map fun k => UInt8.ofNat (v / 256 ^ k)

/-- The loop that copies the strings. -/
def copyArgs (args_seg_ptr : ℕ) : ℕ → ℕ → List CString → Kernel → Kernel
  | _, _, [], s => s
  | seg_ptr, args_count, arg :: args, s =>
    let seg_ptr := sub64 seg_ptr (strlen arg)
    let s := writeBytes s (add64 args_seg_ptr (args_count * 8)) (pointerBytes seg_ptr)
    let s := writeBytes s seg_ptr arg.val
    copyArgs args_seg_ptr (sub64 seg_ptr 1) (args_count + 1) args s

/-- `path_seg_ptr` -/
def pathPtr (s : Kernel) (path : CString) : ℕ :=
  sub64 (sub64 s.proc.args_seg_addr_ 8) (strlen path)

/-- `args_seg_ptr` -/
def argsPtr (s : Kernel) (path : CString) (args : List CString) : ℕ :=
  sub64 (sub64 (pathPtr s path) 1) (args.length * 8)

/-- The path and the arguments in the page. -/
def packArgs (s : Kernel) (path : CString) (args : List CString) : Kernel :=
  copyArgs (argsPtr s path args) (sub64 (argsPtr s path args) 1) 0 args
    (writeBytes s (pathPtr s path) path.val)

/-! ### `UserProcess::restructureProcessForExecv` -/

/-- What a call finds: whether the path leads to a file, the entry point if it can be loaded, which
of the siblings have ended when they have been joined, pages, and the new stack. -/
structure Env where
  opens : Bool
  entry : Option ℕ
  gone : ℕ → Bool
  page_map_level_4_ : ℕ
  args_page : ℕ
  stack_page : ℕ
  stack_start_addr_ : StackStart
  kernel_stack : ℕ

/-- `cancel_thread` and `join_thread`: a join that is refused does not wait. -/
def killThread (gone : ℕ → Bool) (t : UserThread) : Option UserThread :=
  if gone t.tid_ then none else some { t with cancel_req_ := true }

def killThreadsSiblings (gone : ℕ → Bool) (s : Kernel) : Kernel :=
  { s with proc := { s.proc with siblings := s.proc.siblings.filterMap (killThread gone) } }

/-- `VfsSyscall::open` -/
def openFile (opens : Bool) (s : Kernel) : Kernel × ℤ :=
  if opens then
    ({ s with global_fd := s.global_fd ++ [s.fd_num_], fd_num_ := s.fd_num_ + 1 },
      (BitVec.ofNat 32 s.fd_num_).toInt)
  else (s, -1)

/-- `loadExecutableAndInitProcess`; nothing can be read through the descriptor -1. -/
def loadExecutable (env : Env) : Option ℕ := if env.opens then env.entry else none

def mapPage (m : ArchMemory) (vpn ppn : ℕ) : ArchMemory :=
  { m with mapping := update m.mapping vpn (some ppn) }

/-- `createUserRegisters` and `setAddressSpace` -/
def createUserRegisters (start_function user_stack kernel_stack page_map_level_4_ : ℕ) : Registers
  | .rip => start_function
  | .rsp => user_stack
  | .rbp => user_stack
  | .rflags => 0x200
  | .cs => 0x33
  | .ds => 0x43
  | .es => 0x43
  | .ss => 0x43
  | .rsp0 => kernel_stack
  | .cr3 => page_map_level_4_ * PAGE_SIZE
  | _ => 0

/-- The register's value for an `int`. -/
def ofInt (n : ℕ) : ℕ := ((BitVec.ofNat 32 n).signExtend 64).toNat

def restructureProcessForExecv (env : Env) (argv argc : ℕ) (s : Kernel) : Kernel × ℤ :=
  let s := killThreadsSiblings env.gone s
  let (s, new_fd) := openFile env.opens s
  match loadExecutable env with
  | none => (s, -1)
  | some entry =>
    let memory := mapPage ⟨env.page_map_level_4_, fun _ => none⟩ argsVpn env.args_page
    let memory := mapPage memory (env.stack_start_addr_.val / PAGE_SIZE - 1) env.stack_page
    let registers := createUserRegisters entry env.stack_start_addr_.val env.kernel_stack
      env.page_map_level_4_
    let registers := update registers .rdi (ofInt argc)
    let registers := update registers .rsi argv
    ({ s with
      frames := update s.frames env.args_page (s.frames s.proc.args_ppn_)
      proc := { s.proc with
        loader_ := ⟨new_fd, memory⟩
        currentThread := { s.proc.currentThread with
          stack_start_addr_ := env.stack_start_addr_.val
          user_registers_ := registers } } }, 0)

/-- `none` is `NULL`. -/
def execv (env : Env) (path : Option CString) (args : Option (List CString)) (s : Kernel) :
    Kernel × ℤ :=
  let s := { s with written := [] }
  match path, args with
  | none, _ => (s, -1)
  | some _, none => (s, -1)
  | some path, some args =>
    if strlen path = 0 then (s, -1)
    else if args.head?.all (strlen · = 0) then (s, -1)
    else if args.any (strlen · = 0) then (writeBytes s (pathPtr s path) path.val, -1)
    else restructureProcessForExecv env (argsPtr s path args) args.length (packArgs s path args)

end KPanic.Execv

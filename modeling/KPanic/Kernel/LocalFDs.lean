import KPanic.Lib.Bytes
import KPanic.Lib.Machine
import KPanic.Lib.Wp
import KPanic.Mm.Kernel
import KPanic.Util.RingBuffer

/-!
# Local and global file descriptors

`UserProcess.cpp` and `Syscall.cpp`, as far as they concern `fds_` and `pipes_`, with the list
`global_fd` of `FileDescriptor.cpp`. A `FileDescriptor` is its number; the files behind it do not
matter here. Whether a path can be opened and a program be loaded is an input.
-/

namespace KPanic.Files

open Std (TreeMap)
open Function

/-! ### Integers -/

/-- Conversion to `int`. -/
def int (n : ℕ) : ℤ := (BitVec.ofNat 32 n).toInt

/-- Conversion of an `int` to `uint32`. -/
def uint32 (z : ℤ) : ℕ := (BitVec.ofInt 32 z).toNat

/-- `-1U` -/
def invalidFd : ℕ := 0xFFFFFFFF

def PIPE_FD_CLOSED : ℤ := -3
def PIPE_BUF_SIZE : ℕ := 1024
def fd_stdin : ℕ := 0
def fd_stdout : ℕ := 1

/-- The order of the keys of `pipes_`. -/
def pairCmp : ℤ × ℤ → ℤ × ℤ → Ordering := compareLex (compareOn Prod.fst) (compareOn Prod.snd)

instance : Std.TransCmp pairCmp := inferInstanceAs (Std.TransCmp (compareLex _ _))

instance : Std.LawfulEqCmp pairCmp where
  eq_of_compare {a b} h := by
    simp only [pairCmp, compareLex, compareOn, Ordering.then_eq_eq, compare_eq_iff_eq] at h
    exact Prod.ext h.1 h.2

/-! ### The state -/

structure UserProcess where
  pid_ : ℕ
  fd_ : ℤ
  fds_ : TreeMap ℤ ℤ
  pipes_ : TreeMap (ℤ × ℤ) ℕ pairCmp
  fd_num_ : ℕ

/-- `buffers` is the heap, as far as it holds ring buffers. -/
structure Kernel where
  global_fd : List ℕ
  fd_num_ : ℕ
  process_list_ : List UserProcess
  pid_counter_ : ℕ
  buffers : ℕ → Option (RingBuffer Char)
  nextBuffer : ℕ

/-- What stops the kernel. -/
inductive Failure
  | noMappedGlobalDescriptor
  | nullFileDescriptor
  | nullThread
  | freedBuffer
  deriving DecidableEq

abbrev Files := StateT Kernel (Except Failure)

/-- What happens to the ends of pipes. -/
inductive Event
  | opened (pid : ℕ) (read write : ℤ) (buffer : ℕ)
  | closed (pid : ℕ) (fd : ℤ)
  | forked (parent child : ℕ)
  | ended (pid : ℕ)

/-! ### `FileDescriptor.cpp`, `VfsSyscall.cpp` -/

/-- `new FileDescriptor` and `FileDescriptor::add` -/
def addFileDescriptor : Files ℕ := do
  let s ← get
  set { s with fd_num_ := s.fd_num_ + 1, global_fd := s.global_fd ++ [s.fd_num_] }
  return s.fd_num_

/-- `getFd` -/
def getFd (descriptor : ℕ) : ℕ := descriptor % 2 ^ 32

namespace VfsSyscall

def getFileDescriptor (fd : ℕ) : Files (Option ℕ) := do
  return (← get).global_fd.find? fun it => getFd it = fd

/-- `opens` says whether the path leads to a file. -/
def «open» (opens : Bool) : Files ℤ := do
  if opens then return int (getFd (← addFileDescriptor)) else return -1

def close (fd : ℕ) : Files ℤ := do
  match ← getFileDescriptor fd with
  | none => return -1
  | some file_descriptor =>
    modify fun s => { s with global_fd := s.global_fd.filter (· ≠ file_descriptor) }
    return 0

end VfsSyscall

/-! ### `UserProcess.cpp` -/

namespace UserProcess

def addLocalFD (p : UserProcess) (global_fd : ℤ) : UserProcess :=
  { p with fds_ := p.fds_.insert (int (p.fd_num_ + 1)) global_fd, fd_num_ := p.fd_num_ + 1 }

def getGlobalFD (p : UserProcess) (local_fd : ℤ) : ℕ :=
  match p.fds_[local_fd]? with
  | none => invalidFd
  | some global_fd => uint32 global_fd

def isPipe (p : UserProcess) (local_fd : ℤ) : Bool :=
  p.pipes_.toList.any fun entry => entry.1.1 = local_fd ∨ entry.1.2 = local_fd

/-- The buffer that `readFromPipe` finds. -/
def readBuffer (p : UserProcess) (read_fd : ℤ) : Option ℕ :=
  (p.pipes_.toList.find? fun entry => entry.1.1 = read_fd).map Prod.snd

/-- The buffer that `writeToPipe` finds. -/
def writeBuffer (p : UserProcess) (write_fd : ℤ) : Option ℕ :=
  (p.pipes_.toList.find? fun entry => entry.1.2 = write_fd).map Prod.snd

/-- The loop of `removeLocalFD`: the entry to release. Where one end is still open, the loop marks
the other as closed in `entry`, which is a copy. -/
def closedEntry (fd : ℤ) : List ((ℤ × ℤ) × ℕ) → Option ((ℤ × ℤ) × ℕ)
  | [] => none
  | entry :: entries =>
    if entry.1.1 = fd ∧ entry.1.2 = PIPE_FD_CLOSED then some entry
    else if entry.1.1 = fd ∧ entry.1.2 ≠ PIPE_FD_CLOSED then none
    else if entry.1.1 = PIPE_FD_CLOSED ∧ entry.1.2 = fd then some entry
    else if entry.1.1 ≠ PIPE_FD_CLOSED ∧ entry.1.2 = fd then none
    else closedEntry fd entries

end UserProcess

def setProcess (p : UserProcess) : Files PUnit :=
  modify fun s => { s with
    process_list_ := s.process_list_.map fun q => if q.pid_ = p.pid_ then p else q }

def getBuffer (buffer : ℕ) : Files (RingBuffer Char) := do
  match (← get).buffers buffer with
  | none => throw .freedBuffer
  | some b => return b

def setBuffer (buffer : ℕ) (b : Option (RingBuffer Char)) : Files PUnit :=
  modify fun s => { s with buffers := update s.buffers buffer b }

/-- `decProcCount`, and `delete` for the last one. -/
def releaseBuffer (buffer : ℕ) : Files PUnit := do
  let b := (← getBuffer buffer).decProcCount
  setBuffer buffer (if b.connected_proc_counter_ = 0 then none else some b)

def removeLocalFD (p : UserProcess) (fd : ℤ) : Files PUnit := do
  let p := { p with fds_ := p.fds_.erase fd }
  match UserProcess.closedEntry fd p.pipes_.toList with
  | none => setProcess p
  | some entry =>
    releaseBuffer entry.2
    setProcess { p with pipes_ := p.pipes_.erase entry.1 }

/-- What is at `read` after `r` was stored there and then `w` at `write`. -/
def loadBack (read write : ℕ) (r w : ℤ) : ℤ :=
  let byte := fun i => if write ≤ read + i ∧ read + i < write + 4
    then uint32 w / 256 ^ (read + i - write) % 256 else uint32 r / 256 ^ i % 256
  int (byte 0 + byte 1 * 256 + byte 2 * 256 ^ 2 + byte 3 * 256 ^ 3)

def openPipe (p : UserProcess) (read write : ℕ) : Files (List Event) := do
  let s ← get
  let w := int (p.fd_num_ + 2)
  let r := loadBack read write (int (p.fd_num_ + 1)) w
  let b := (RingBuffer.new PIPE_BUF_SIZE fun _ => default).incProcCount
  set { s with nextBuffer := s.nextBuffer + 1, buffers := update s.buffers s.nextBuffer (some b) }
  setProcess { p with fd_num_ := p.fd_num_ + 2, pipes_ := p.pipes_.insert (r, w) s.nextBuffer }
  return [.opened p.pid_ r w s.nextBuffer]

/-- `none` is -1. -/
def readFromPipe (p : UserProcess) (read_fd : ℤ) (count : ℕ) : Files (Option (List Char)) := do
  match p.readBuffer read_fd with
  | none => return none
  | some buffer =>
    let (cs, b) := (← getBuffer buffer).getMany count
    setBuffer buffer (some b)
    return some cs

/-- `none` is -1. -/
def writeToPipe (p : UserProcess) (write_fd : ℤ) (cs : List Char) : Files (Option ℕ) := do
  match p.writeBuffer write_fd with
  | none => return none
  | some buffer =>
    let (n, b) := (← getBuffer buffer).putMany cs
    setBuffer buffer (some b)
    return some n

def getNewPID : Files ℕ := do
  let s ← get
  set { s with pid_counter_ := s.pid_counter_ + 1 }
  return s.pid_counter_

/-- `ProcessRegistry::createProcess`; a process that cannot be loaded leaves the list again. -/
def createProcess (opens loads : Bool) : Files PUnit := do
  let pid ← getNewPID
  let global_fd ← VfsSyscall.open opens
  let p := UserProcess.addLocalFD ⟨pid, 0, ∅, ∅, 3⟩ global_fd
  let p := { p with fd_ := int p.fd_num_ }
  if p.getGlobalFD p.fd_ ≠ invalidFd ∧ loads = true then
    modify fun s => { s with process_list_ := s.process_list_ ++ [p] }

/-- The copy loop over the descriptors of the parent. -/
def copyFds : List (ℤ × ℤ) → TreeMap ℤ ℤ → Files (TreeMap ℤ ℤ)
  | [], fds_ => return fds_
  | entry :: entries, fds_ => do
    match ← VfsSyscall.getFileDescriptor (uint32 entry.2) with
    | none => throw .nullFileDescriptor
    | some _ =>
      let copy_fd ← addFileDescriptor
      copyFds entries (fds_.insert entry.1 (int (getFd copy_fd)))

/-- The loop over the pipes of the parent. -/
def copyPipes : List ((ℤ × ℤ) × ℕ) → Files PUnit
  | [] => return
  | entry :: entries => do
    setBuffer entry.2 (some (← getBuffer entry.2).incProcCount)
    copyPipes entries

/-- `createProcessOnFork`, with the constructor that copies a process. `Syscall::fork` then takes
the first thread of the child, also of one that could not be loaded. -/
def createProcessOnFork (p : UserProcess) (opens opensAgain loads : Bool) : Files (List Event) := do
  let _ ← VfsSyscall.open opens
  let pid ← getNewPID
  let fds_ ← copyFds p.fds_.toList ∅
  copyPipes p.pipes_.toList
  let global_fd ← VfsSyscall.open opensAgain
  let child : UserProcess := ⟨pid, p.fd_, fds_.insert p.fd_ global_fd, p.pipes_, p.fd_num_⟩
  if child.getGlobalFD child.fd_ = invalidFd ∨ loads = false then throw .nullThread
  else
    modify fun s => { s with process_list_ := s.process_list_ ++ [child] }
    return [.forked p.pid_ pid]

/-- The loop of the destructor over the descriptors. -/
def closeFds (p : UserProcess) : List (ℤ × ℤ) → Files PUnit
  | [] => return
  | fd :: fds => do
    if p.getGlobalFD fd.1 = invalidFd then throw .noMappedGlobalDescriptor
    let _ ← VfsSyscall.close (uint32 fd.2)
    closeFds p fds

/-- The loop of the destructor over the pipes. -/
def closePipes : List ((ℤ × ℤ) × ℕ) → Files PUnit
  | [] => return
  | pipe :: pipes => do
    releaseBuffer pipe.2
    closePipes pipes

/-- `~UserProcess` -/
def destroy (p : UserProcess) : Files (List Event) := do
  closeFds p p.fds_.toList
  closePipes p.pipes_.toList
  modify fun s => { s with process_list_ := s.process_list_.filter (·.pid_ ≠ p.pid_) }
  return [.ended p.pid_]

/-! ### `Syscall.cpp` -/

namespace Syscall

/-- The pointer checks of `read` and `write`; the sum is one of `size_t`. -/
def badBuffer (buffer count : ℕ) : Bool := buffer ≥ USER_BREAK || Bytes.add64 buffer count > USER_BREAK

/-- Files and the terminal do not touch this state. -/
def read (p : UserProcess) (fd buffer count : ℕ) : Files PUnit := do
  if badBuffer buffer count || fd = fd_stdin then return
  else if p.isPipe (int fd) then let _ ← readFromPipe p (int fd) count

def write (p : UserProcess) (fd buffer : ℕ) (cs : List Char) : Files PUnit := do
  if badBuffer buffer cs.length || fd = fd_stdout then return
  else if p.isPipe (int fd) then let _ ← writeToPipe p (int fd) cs

def close (p : UserProcess) (fd : ℕ) : Files (List Event) := do
  let global_fd := p.getGlobalFD (int fd)
  if p.isPipe (int fd) then
    removeLocalFD p (int fd)
    return [.closed p.pid_ (int fd)]
  else
    let retval ← if global_fd = invalidFd then pure (-1) else VfsSyscall.close global_fd
    if retval ≠ -1 then removeLocalFD p (int fd)
    return []

def «open» (p : UserProcess) (path : ℕ) (opens : Bool) : Files PUnit := do
  if path ≥ USER_BREAK then return
  else
    let fd ← VfsSyscall.open opens
    setProcess (p.addLocalFD fd)

def createprocess (p : UserProcess) (path : ℕ) (opens opensAgain loads : Bool) : Files PUnit := do
  if path ≥ USER_BREAK then return
  else
    let global_fd ← VfsSyscall.open opens
    let p := p.addLocalFD global_fd
    setProcess p
    let _ ← VfsSyscall.close (p.getGlobalFD (int p.fd_num_))
    createProcess opensAgain loads

def pipe (p : UserProcess) (read write : ℕ) : Files (List Event) := do
  if read ≥ USER_BREAK ∨ write ≥ USER_BREAK then return [] else openPipe p read write

end Syscall

/-! ### Runs -/

inductive Op
  | start (opens loads : Bool)
  | «open» (pid path : ℕ) (opens : Bool)
  | close (pid fd : ℕ)
  | read (pid fd buffer count : ℕ)
  | write (pid fd buffer : ℕ) (cs : List Char)
  | createprocess (pid path : ℕ) (opens opensAgain loads : Bool)
  | pipe (pid read write : ℕ)
  | fork (pid : ℕ) (opens opensAgain loads : Bool)
  | exit (pid : ℕ)

/-- A system call of a process. -/
def onProcess (pid : ℕ) (m : UserProcess → Files (List Event)) : Files (List Event) := do
  match (← get).process_list_.find? fun p => p.pid_ = pid with
  | none => return []
  | some p => m p

def act : Op → Files (List Event)
  | .start opens loads => do createProcess opens loads; return []
  | .open pid path opens => onProcess pid fun p => do Syscall.open p path opens; return []
  | .close pid fd => onProcess pid fun p => Syscall.close p fd
  | .read pid fd buffer count => onProcess pid fun p => do
    Syscall.read p fd buffer count
    return []
  | .write pid fd buffer cs => onProcess pid fun p => do
    Syscall.write p fd buffer cs
    return []
  | .createprocess pid path opens opensAgain loads => onProcess pid fun p => do
    Syscall.createprocess p path opens opensAgain loads
    return []
  | .pipe pid read write => onProcess pid fun p => Syscall.pipe p read write
  | .fork pid opens opensAgain loads => onProcess pid fun p =>
    createProcessOnFork p opens opensAgain loads
  | .exit pid => onProcess pid destroy

def step (s : Kernel) (op : Op) : Except Failure (Kernel × List Event) :=
  Prod.swap <$> (act op).run s

/-- Before the first process; `global_fd` is empty. -/
def boot : Kernel := ⟨[], 3, [], 0, fun _ => none, 0⟩

end KPanic.Files

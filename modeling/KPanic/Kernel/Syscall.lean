import KPanic.Kernel.LocalFDs
import KPanic.Kernel.UserAccess

/-!
# `Syscall::syscallException`

The system calls, with every access through a pointer of the caller. What a call does besides is
an input: the descriptors and files of the process, the characters that are typed, and the results
of the calls that it makes without a pointer of the caller.
-/

namespace KPanic.Syscalls

open Bytes
open Files (int invalidFd fd_stdin fd_stdout)
open Files.Syscall (badBuffer)

/-! ### `File.h`, `syscall-definitions.h` -/

def O_RDONLY : ℕ := 0x0001
def O_WRONLY : ℕ := 0x0002
def O_RDWR : ℕ := 0x0004
def O_CREAT : ℕ := 0x0008
def O_APPEND : ℕ := 0x0010
def O_TRUNC : ℕ := 0x0080

inductive Sc
  | sc_exit | sc_fork | sc_read | sc_write | sc_open | sc_close | sc_pseudols | sc_outline
  | sc_sched_yield | sc_createprocess | sc_trace | sc_pthread_create | sc_pthread_exit
  | sc_pthread_join | sc_pthread_cancel | sc_clock | sc_sleep | sc_waitpid | sc_pipe | sc_execv
  deriving DecidableEq

def Sc.number : Sc → UInt64
  | sc_exit => 1
  | sc_fork => 2
  | sc_read => 3
  | sc_write => 4
  | sc_open => 5
  | sc_close => 6
  | sc_pseudols => 43
  | sc_outline => 105
  | sc_sched_yield => 158
  | sc_createprocess => 191
  | sc_trace => 252
  | sc_pthread_create => 1000
  | sc_pthread_exit => 1001
  | sc_pthread_join => 1002
  | sc_pthread_cancel => 1003
  | sc_clock => 400
  | sc_sleep => 401
  | sc_waitpid => 402
  | sc_pipe => 403
  | sc_execv => 1004

/-- The `case` that the `switch` takes. -/
def Sc.ofNumber (syscall_number : UInt64) : Option Sc :=
  [sc_sched_yield, sc_createprocess, sc_exit, sc_write, sc_read, sc_open, sc_close, sc_outline,
    sc_trace, sc_pseudols, sc_pthread_create, sc_pthread_exit, sc_pthread_join, sc_pthread_cancel,
    sc_fork, sc_clock, sc_sleep, sc_waitpid, sc_pipe, sc_execv].find? fun sc => sc.number = syscall_number

/-! ### The rest of the kernel -/

/-- An open file: how many bytes it still takes at its position, and the bytes from there on. -/
structure OpenFile where
  flag_ : ℕ
  room : ℕ
  data : List UInt8

structure Env where
  proc : Files.UserProcess
  args_seg_addr_ : ℕ
  buffers : ℕ → RingBuffer UInt8
  /-- `getFileDescriptor` -/
  files : ℕ → Option OpenFile
  /-- The characters that `in_buffer_` gives, one after the other. -/
  in_buffer_ : ℕ → UInt8
  /-- What the path walk says about a path, and the descriptor that `open` makes then. -/
  pathWalk : List UInt8 → ℤ
  createFd : ℤ
  /-- `ret_val` and `ret_tid` of `createThread`. -/
  createThread : ℤ × ℕ
  /-- The result of `joinThread` and `tmp_rv`. -/
  joinThread : UInt64 × ℕ
  /-- The result of `waitForPid` or `waitForAnyPid`. -/
  waitForPid : ℤ
  /-- The result of a call that takes no pointer of the caller. -/
  result : UInt64

/-! ### `VfsSyscall.cpp` -/

namespace VfsSyscall

/-- `len > i && pathname[i] == SEPARATOR` -/
def separatorAt (len pathname i : ℕ) : Sys Bool := do
  if i < len then
    let c ← touch (pathname + i)
    return c == 47
  else return false

/-- The loop of `dupChecking`. The comparison with the dot is made at the end of the path, too. -/
def skipDots (len pathname : ℕ) : ℕ → ℕ → Sys PUnit
  | 0, _ => return
  | passes + 1, i => do
    let separator ← separatorAt len pathname i
    if separator then skipDots len pathname passes (i + 1)
    else do
      let c ← touch (pathname + i)
      if c ≠ 46 then return else skipDots len pathname passes (i + 1)

/-- The path that is walked; `none` for a null pointer. -/
def dupChecking (pathname : ℕ) : Sys (Option (List UInt8)) := do
  if pathname = 0 then return none
  else do
    let len ← strlen pathname
    skipDots (len % 2 ^ 32) pathname 3 0
    some <$> readString pathname

def badFlags (flag : ℕ) : Bool :=
  flag &&& (2 ^ 32 - 1 - (O_RDONLY ||| O_WRONLY ||| O_CREAT ||| O_RDWR ||| O_TRUNC ||| O_APPEND)) ≠ 0 ||
    flag &&& (O_APPEND ||| O_TRUNC) ≠ 0

/-- `flag` is a `uint32`. Where a file is created, the path is the one that `dupChecking` has read. -/
def «open» (env : Env) (pathname flag : ℕ) : Sys ℤ := do
  if badFlags flag then return -1
  else do
    let path ← dupChecking pathname
    if path.elim (-1) env.pathWalk = 0 then return env.createFd
    else if flag &&& O_CREAT ≠ 0 then return env.createFd
    else return -1

def read (env : Env) (fd buffer count : ℕ) : Sys ℤ :=
  (env.files fd).elim (return -1) fun file_descriptor => do
    if count = 0 then return 0
    else if file_descriptor.flag_ &&& (O_RDONLY ||| O_RDWR) = 0 then return -1
    else do
      storeBytes (file_descriptor.data.take count) buffer
      return (file_descriptor.data.take count).length

def write (env : Env) (fd buffer count : ℕ) : Sys ℤ :=
  (env.files fd).elim (return -1) fun file_descriptor => do
    if count = 0 then return 0
    else if file_descriptor.flag_ &&& (O_WRONLY ||| O_RDWR) = 0 then return -1
    else do
      let taken ← readBytes (min count file_descriptor.room) buffer
      return taken.length

/-- The names that are listed are those of the kernel. -/
def readdir (pathname : ℕ) : Sys PUnit := do
  let _ ← dupChecking pathname

end VfsSyscall

/-! ### `UserProcess.cpp`, `Terminal.cpp` -/

/-- The numbers are read back from the caller's memory, twice, to find the pipe again. -/
def openPipe (env : Env) (read write : ℕ) : Sys UInt64 := do
  storeBytes (leBytes 4 (env.proc.fd_num_ + 1)) read
  storeBytes (leBytes 4 (env.proc.fd_num_ + 2)) write
  let _ ← loadWord 4 read
  let _ ← loadWord 4 write
  let _ ← loadWord 4 read
  let _ ← loadWord 4 write
  return 0

def readFromPipe (env : Env) (read_fd : ℤ) (buffer count : ℕ) : Sys ℤ :=
  (env.proc.readBuffer read_fd).elim (return -1) fun to_read => do
    storeBytes ((env.buffers to_read).getMany count).1 buffer
    return ((env.buffers to_read).getMany count).1.length

/-- The loop of `writeToPipe`. A character is read before there is room for it. -/
def putChars : ℕ → ℕ → RingBuffer UInt8 → Sys ℤ
  | 0, _, _ => return 0
  | count + 1, buffer, to_write => do
    let c ← touch buffer
    if (to_write.put c).1 then
      let character ← putChars count (buffer + 1) (to_write.put c).2
      return character + 1
    else return 0

def writeToPipe (env : Env) (write_fd : ℤ) (buffer count : ℕ) : Sys ℤ :=
  (env.proc.writeBuffer write_fd).elim (return -1) fun to_write =>
    putChars count buffer (env.buffers to_write)

/-- The loop of `readLine`, with the number of passes that `size` leaves. -/
def readChars (env : Env) (line : ℕ) : ℕ → ℕ → Sys ℕ
  | 0, counter => return counter
  | passes + 1, counter => do
    let cchar := env.in_buffer_ counter
    storeByte (line + counter) cchar
    if cchar = 10 ∨ cchar = 13 then return counter + 1 else readChars env line passes (counter + 1)

/-- `size` is a `uint32`. -/
def readLine (env : Env) (line size : ℕ) : Sys ℕ := do
  if size < 1 then return 0
  else do
    let counter ← readChars env line size 0
    if counter < size then
      storeByte (line + counter) 0
      return counter
    else return counter

/-! ### `UThreadManager.cpp` -/

def create_thread (env : Env) (thread : ℕ) : Sys UInt64 := do
  if thread = 0 ∨ thread ≥ USER_BREAK then return -1
  else do
    storeBytes (leBytes 8 env.createThread.2) thread
    return UInt64.ofInt env.createThread.1

def join_thread (env : Env) (retval : ℕ) : Sys UInt64 := do
  if retval ≥ USER_BREAK then return -1
  else if retval ≠ 0 then
    storeBytes (leBytes 8 env.joinThread.2) retval
    return env.joinThread.1
  else return env.joinThread.1

/-! ### `Syscall.cpp` -/

def write (env : Env) (fd buffer size : ℕ) : Sys UInt64 := do
  if badBuffer buffer size then return 0xFFFFFFFF
  else if fd = fd_stdout then
    printPrecision (int size) buffer
    printPrecision (int size) buffer
    return UInt64.ofNat size
  else if env.proc.isPipe (int fd) then UInt64.ofInt <$> writeToPipe env (int fd) buffer size
  else if env.proc.getGlobalFD (int fd) = invalidFd then return -1
  else UInt64.ofInt <$> VfsSyscall.write env (env.proc.getGlobalFD (int fd)) buffer (size % 2 ^ 32)

def read (env : Env) (fd buffer count : ℕ) : Sys UInt64 := do
  if badBuffer buffer count then return 0xFFFFFFFF
  else if fd = fd_stdin then
    let num_read ← readLine env buffer (count % 2 ^ 32)
    printPrecision (int num_read) buffer
    return UInt64.ofNat num_read
  else if env.proc.isPipe (int fd) then UInt64.ofInt <$> readFromPipe env (int fd) buffer count
  else if env.proc.getGlobalFD (int fd) = invalidFd then return -1
  else UInt64.ofInt <$> VfsSyscall.read env (env.proc.getGlobalFD (int fd)) buffer (count % 2 ^ 32)

/-- `addLocalFD` returns the next number. -/
def «open» (env : Env) (path flags : ℕ) : Sys UInt64 := do
  if path ≥ USER_BREAK then return 0xFFFFFFFF
  else do
    let _ ← VfsSyscall.open env path (flags % 2 ^ 32)
    return UInt64.ofNat (env.proc.fd_num_ + 1)

def outline (port text : ℕ) : Sys PUnit := do
  if text ≥ USER_BREAK then return
  else if port = 0xe9 then writeLine2Bochs text
  else return

/-- The path is printed, opened, and copied for `createProcess`, which prints it too. -/
def createprocess (env : Env) (path : ℕ) : Sys UInt64 := do
  if path ≥ USER_BREAK then return 0xFFFFFFFF
  else do
    printString path
    let _ ← VfsSyscall.open env path O_RDONLY
    if UInt64.ofNat (env.proc.fd_num_ + 1) = -1 then return 0xFFFFFFFF
    else do
      printString path
      let _ ← readString path
      printString path
      printString path
      return 0

/-- The cell is written for every `pid` that passes the check, whether the wait succeeds or not. -/
def waitpid (env : Env) (pid status options : ℕ) : Sys UInt64 := do
  if status ≥ USER_BREAK ∨ pid = 0 ∨ int pid < -1 ∨ pid = env.proc.pid_ then return -1
  else if options = 0 ∨ options = 4 then
    if status ≠ 0 then
      storeBytes (leBytes 4 (if env.waitForPid = 0 then 0 else 0xFFFFFFFF)) status
      return UInt64.ofInt env.waitForPid
    else return UInt64.ofInt env.waitForPid
  else return -1

def pipe (env : Env) (read write : ℕ) : Sys UInt64 := do
  if read ≥ USER_BREAK ∨ write ≥ USER_BREAK then return -1
  else openPipe env read write

/-! #### `execv` -/

/-- A byte of the arguments segment. -/
def storeSegment (a : ℕ) (c : UInt8) : Sys PUnit := do
  if USER_BREAK ≤ a then throw .segmentLeft else storeByte a c

def storeSegmentBytes : List UInt8 → ℕ → Sys PUnit
  | [], _ => return
  | c :: l, a => do
    storeSegment a c
    storeSegmentBytes l (a + 1)

/-- `strncpy`; `fill` is set when the source has ended. -/
def strncpy : ℕ → ℕ → ℕ → Bool → Sys PUnit
  | 0, _, _, _ => return
  | size + 1, dest, src, fill => do
    if fill then
      storeSegment dest 0
      strncpy size (dest + 1) (src + 1) true
    else do
      let c ← touch src
      storeSegment dest c
      strncpy size (dest + 1) (src + 1) (c = 0)

/-- The loop that counts the arguments, `none` where one is empty. There are fewer than `USER_BREAK`
pointers below `USER_BREAK`. -/
def countArgs (argsp : ℕ) : ℕ → ℕ → Sys (Option ℕ)
  | 0, args_count => do
    let _ ← touch (argsp + args_count * 8)
    return none
  | fuel + 1, args_count => do
    let arg ← loadWord 8 (argsp + args_count * 8)
    if arg = 0 then return some args_count
    else do
      let arg ← loadWord 8 (argsp + args_count * 8)
      let length ← strlen arg
      if length = 0 then return none else countArgs argsp fuel (args_count + 1)

/-- The loop that copies the strings, from what the user memory holds by then. -/
def copyArgs (argsp args_seg_ptr : ℕ) : ℕ → ℕ → ℕ → Sys PUnit
  | 0, args_count, _ => do
    let _ ← touch (argsp + args_count * 8)
  | fuel + 1, args_count, seg_ptr => do
    let arg ← loadWord 8 (argsp + args_count * 8)
    if arg = 0 then return
    else do
      let arg ← loadWord 8 (argsp + args_count * 8)
      let length ← strlen arg
      storeSegmentBytes (leBytes 8 (sub64 seg_ptr length)) (add64 args_seg_ptr (args_count * 8))
      let arg ← loadWord 8 (argsp + args_count * 8)
      strncpy length (sub64 seg_ptr length) arg false
      copyArgs argsp args_seg_ptr fuel (args_count + 1) (sub64 (sub64 seg_ptr length) 1)

/-- The path and the arguments go to the segment, from which `restructureProcessForExecv` takes them. -/
def packArgs (env : Env) (path args : ℕ) : Sys UInt64 := do
  printString path
  let _ ← loadWord 8 args
  let arg ← loadWord 8 args
  printString arg
  let length ← strlen path
  let path_seg_ptr := sub64 (sub64 env.args_seg_addr_ 8) length
  let length ← strlen path
  strncpy length path_seg_ptr path false
  let args_count ← countArgs args USER_BREAK 0
  args_count.elim (return -1) fun args_count => do
    let args_seg_ptr := sub64 (sub64 path_seg_ptr 1) (args_count * 8)
    copyArgs args args_seg_ptr USER_BREAK 0 (sub64 args_seg_ptr 1)
    return env.result

def execv (env : Env) (path args : ℕ) : Sys UInt64 := do
  if path = 0 then return -1
  else do
    let length ← strlen path
    if length = 0 then return -1
    else if args = 0 then return -1
    else do
      let arg ← loadWord 8 args
      if arg = 0 then return -1
      else do
        let arg ← loadWord 8 args
        let length ← strlen arg
        if length = 0 then return -1 else packArgs env path args

/-! #### `syscallException` -/

def Sc.run (env : Env) (arg1 arg2 arg3 : ℕ) : Sc → Sys UInt64
  | sc_sched_yield => return 0
  | sc_createprocess => createprocess env arg1
  | sc_exit => return 0
  | sc_write => write env arg1 arg2 arg3
  | sc_read => read env arg1 arg2 arg3
  | sc_open => Syscalls.open env arg1 arg2
  | sc_close => return env.result
  | sc_outline => do
    outline arg1 arg2
    return 0
  | sc_trace => return 0
  | sc_pseudols => do
    VfsSyscall.readdir arg1
    return 0
  | sc_pthread_create => create_thread env arg1
  | sc_pthread_exit => return 0
  | sc_pthread_join => join_thread env arg2
  | sc_pthread_cancel => return env.result
  | sc_fork => return env.result
  | sc_clock => return env.result
  | sc_sleep => return 0
  | sc_waitpid => waitpid env arg1 arg2 arg3
  | sc_pipe => pipe env arg1 arg2
  | sc_execv => execv env arg1 arg2

/-- The fourth and the fifth argument are those of `create_thread`, which hands them to the new
thread. -/
def syscallException (env : Env) (syscall_number arg1 arg2 arg3 _arg4 _arg5 : UInt64) : Sys UInt64 :=
  (Sc.ofNumber syscall_number).elim (return 0) (Sc.run env arg1.toNat arg2.toNat arg3.toNat)

end KPanic.Syscalls

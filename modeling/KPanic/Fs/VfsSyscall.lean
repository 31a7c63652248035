import KPanic.Fs.DeviceFS
import KPanic.Fs.PathWalker

/-!
# `common/source/fs/VfsSyscall.cpp`, on the root file system

The calls of threads that walk below one mount. `read` and `write` of `ramfs/RamFSFile.cpp` and `lseek` of `File.cpp` are
here as well.
-/

namespace KPanic.DeviceFS

open Function
open PathWalker (SEPARATOR)

def O_RDONLY : BitVec 32 := 0x0001
def O_WRONLY : BitVec 32 := 0x0002
def O_RDWR : BitVec 32 := 0x0004
def O_CREAT : BitVec 32 := 0x0008
def O_APPEND : BitVec 32 := 0x0010
def O_TRUNC : BitVec 32 := 0x0080

def A_READABLE : BitVec 32 := 0x0001
def A_WRITABLE : BitVec 32 := 0x0002
def A_EXECABLE : BitVec 32 := 0x0004

/-- `Inode::getMode` -/
def i_mode_ : BitVec 32 := (A_READABLE ^^^ A_WRITABLE) ^^^ A_EXECABLE

def SEEK_SET : BitVec 8 := 0
def SEEK_CUR : BitVec 8 := 1
def SEEK_END : BitVec 8 := 2

/-- What a call returns, and what it puts into the buffer. -/
structure Reply where
  ret : ℤ
  buffer : List Byte
  deriving DecidableEq

/-! ### `RamFSFile.cpp`, `File.cpp` -/

namespace File

def read (f : ℕ) (count : BitVec 32) (offset : BitVec 64) : FsM Reply := do
  let file ← getFile f
  if (file.flag_ &&& O_RDONLY ≠ 0 ∨ file.flag_ &&& O_RDWR ≠ 0) ∧ i_mode_ &&& A_READABLE ≠ 0 then
    let data ← RamFSInode.readData file.f_inode_ ((file.offset_ + offset).toNat % 2 ^ 32) count.toNat
    setFile f (some { file with offset_ := file.offset_ + BitVec.ofNat 64 data.length })
    return ⟨data.length, data⟩
  else return ⟨-1, []⟩

def write (f : ℕ) (buffer : ℕ → Byte) (count : BitVec 32) (offset : BitVec 64) : FsM Reply := do
  let file ← getFile f
  if (file.flag_ &&& O_WRONLY ≠ 0 ∨ file.flag_ &&& O_RDWR ≠ 0) ∧ i_mode_ &&& A_WRITABLE ≠ 0 then
    let written_bytes ← RamFSInode.writeData file.f_inode_ ((file.offset_ + offset).toNat % 2 ^ 32) count.toNat buffer
    setFile f (some { file with offset_ := file.offset_ + BitVec.ofNat 64 written_bytes })
    return ⟨written_bytes, []⟩
  else return ⟨-1, []⟩

/-- Where `lseek` moves to; `l_off_t` has no sign. -/
def target (file : File) (offset : BitVec 64) (origin : BitVec 8) : FsM (Option (BitVec 64)) :=
  if origin = SEEK_SET then return some offset
  else if origin = SEEK_CUR then return some (file.offset_ + offset)
  else if origin = SEEK_END then do
    let inode ← getInode file.f_inode_
    return some (BitVec.ofNat 64 inode.i_size_ + offset)
  else return none

def lseek (f : ℕ) (offset : BitVec 64) (origin : BitVec 8) : FsM Reply := do
  let file ← getFile f
  match ← target file offset origin with
  | none => return ⟨(BitVec.allOnes 64).toNat, []⟩
  | some offset_ =>
    setFile f (some { file with offset_ := offset_ })
    return ⟨offset_.toNat, []⟩

end File

/-! ### Paths -/

/-- What the path walker sees, with one mount. -/
def Fs.vfs (s : Fs) : PathWalker.Vfs ℕ Unit where
  lookup dentry_ name := do RamFSInode.lookup s (← (← s.dentry dentry_).d_inode_) name
  getParent dentry_ := ((s.dentry dentry_).bind Dentry.d_parent_).getD dentry_
  mounts_ := [⟨⟩]
  mnt_parent_ _ := ⟨⟩
  mnt_mountpoint_ _ := s.s_root_
  mnt_root_ _ := s.s_root_

def Fs.fs_info (s : Fs) (thread : ℕ) : PathWalker.FileSystemInfo ℕ Unit :=
  ⟨some s.s_root_, some ⟨⟩, some (s.pwd_ thread), some ⟨⟩, []⟩

/-- `pathname_.substr(0, find_last_of("/"))` -/
def dirname (pathname_ : List Char) : List Char :=
  if SEPARATOR ∈ pathname_ then ((pathname_.reverse.dropWhile (· ≠ SEPARATOR)).drop 1).reverse else pathname_

/-- `pathname_.substr(find_last_of("/") + 1, ..)` -/
def basename (pathname_ : List Char) : List Char := (pathname_.reverse.takeWhile (· ≠ SEPARATOR)).reverse

/-- The dentry of a walk that succeeds. -/
def found {α : Type} (w : PathWalker.Walk α Unit) : Option α :=
  if w.result = .PW_SUCCESS then w.place.map PathWalker.Place.dentry_ else none

/-- `dupChecking`: `pathname_`, and the dentry it names. -/
def dupChecking (thread : ℕ) (pathname : List Char) : FsM (List Char × Option ℕ) := do
  let s ← get
  let (fs_info, w) := PathWalker.dupChecking s.vfs (s.fs_info thread) pathname
  return (fs_info.pathname_, found w)

def pathWalk (thread : ℕ) (pathname_ : List Char) : FsM (Option ℕ) := do
  let s ← get
  return found (PathWalker.pathWalk s.vfs (s.fs_info thread) pathname_)

/-- `pw_dentry->getInode()` -/
def inodeOf (pw_dentry : ℕ) : FsM ℕ := do deref (← getDentry pw_dentry).d_inode_

/-! ### `VfsSyscall.cpp` -/

/-- The flags that `open` refuses. -/
def Refused (flag : BitVec 32) : Prop :=
  flag &&& ~~~(O_RDONLY ||| O_WRONLY ||| O_CREAT ||| O_RDWR ||| O_TRUNC ||| O_APPEND) ≠ 0 ∨ flag &&& (O_APPEND ||| O_TRUNC) ≠ 0

instance (flag : BitVec 32) : Decidable (Refused flag) := inferInstanceAs (Decidable (_ ∨ _))

namespace VfsSyscall

/-- `getFileDescriptor` -/
def getFileDescriptor (fd : BitVec 32) : FsM (Option FileDescriptor) := do
  return (← get).global_fd.find? fun it => it.getFd = fd

/-- What `mkdir` and `open` do for a path that does not exist; `none` where they return -1. -/
def create (thread : ℕ) (pathname_ : List Char) (type : InodeType) : FsM (Option ℕ) := do
  match ← pathWalk thread (dirname pathname_) with
  | none => return none
  | some pw_dentry =>
    let current_inode ← getInode (← inodeOf pw_dentry)
    if current_inode.i_type_ ≠ .I_DIR then return none
    let sub_dentry ← Dentry.new pw_dentry (basename pathname_)
    let sub_inode ← Superblock.createInode sub_dentry type
    return some sub_inode

def mkdir (thread : ℕ) (pathname : List Char) : FsM Reply := do
  let (pathname_, pw_dentry) ← dupChecking thread pathname
  if pw_dentry.isSome then return ⟨-1, []⟩
  match ← create thread pathname_ .I_DIR with
  | none => return ⟨-1, []⟩
  | some _ => return ⟨0, []⟩

def chdir (thread : ℕ) (pathname : List Char) : FsM Reply := do
  match (← dupChecking thread pathname).2 with
  | none => return ⟨-1, []⟩
  | some pw_dentry =>
    let current_inode ← getInode (← inodeOf pw_dentry)
    if current_inode.i_type_ ≠ .I_DIR then return ⟨-1, []⟩
    modify fun s => { s with pwd_ := update s.pwd_ thread pw_dentry }
    return ⟨0, []⟩

def rm (thread : ℕ) (pathname : List Char) : FsM Reply := do
  match (← dupChecking thread pathname).2 with
  | none => return ⟨-1, []⟩
  | some pw_dentry =>
    let current_inode ← inodeOf pw_dentry
    if (← getInode current_inode).i_type_ ≠ .I_FILE then return ⟨-1, []⟩
    if (← RamFSInode.rm current_inode) = INODE_DEAD then
      Superblock.delete_inode current_inode
      return ⟨0, []⟩
    else return ⟨-1, []⟩

def rmdir (thread : ℕ) (pathname : List Char) : FsM Reply := do
  match (← dupChecking thread pathname).2 with
  | none => return ⟨-1, []⟩
  | some pw_dentry =>
    let current_inode ← inodeOf pw_dentry
    if (← getInode current_inode).i_type_ ≠ .I_DIR then return ⟨-1, []⟩
    if (← RamFSInode.rmdir current_inode) = INODE_DEAD then
      Superblock.delete_inode current_inode
      return ⟨0, []⟩
    else return ⟨-1, []⟩

def close (fd : BitVec 32) : FsM Reply := do
  match ← getFileDescriptor fd with
  | none => return ⟨-1, []⟩
  | some file_descriptor =>
    let current_inode := (← getFile file_descriptor.file_).f_inode_
    let removed ← Superblock.removeFd current_inode file_descriptor
    assert (removed = 0)
    return ⟨0, []⟩

def openFile (thread : ℕ) (pathname : List Char) (flag : BitVec 32) : FsM Reply := do
  if Refused flag then return ⟨-1, []⟩
  let (pathname_, pw_dentry) ← dupChecking thread pathname
  match pw_dentry with
  | some pw_dentry =>
    let current_inode ← inodeOf pw_dentry
    if (← getInode current_inode).i_type_ ≠ .I_FILE then return ⟨-1, []⟩
    let fd ← Superblock.createFd current_inode flag
    return ⟨fd.toInt, []⟩
  | none =>
    if flag &&& O_CREAT ≠ 0 then
      match ← create thread pathname_ .I_FILE with
      | none => return ⟨-1, []⟩
      | some sub_inode =>
        let fd ← Superblock.createFd sub_inode flag
        return ⟨fd.toInt, []⟩
    else return ⟨-1, []⟩

def read (fd count : BitVec 32) : FsM Reply := do
  match ← getFileDescriptor fd with
  | none => return ⟨-1, []⟩
  | some file_descriptor =>
    if count = 0 then return ⟨0, []⟩
    let file ← getFile file_descriptor.file_
    if file.flag_ &&& (O_RDONLY ||| O_RDWR) = 0 then return ⟨-1, []⟩
    File.read file_descriptor.file_ count 0

def write (fd : BitVec 32) (buffer : ℕ → Byte) (count : BitVec 32) : FsM Reply := do
  match ← getFileDescriptor fd with
  | none => return ⟨-1, []⟩
  | some file_descriptor =>
    if count = 0 then return ⟨0, []⟩
    let file ← getFile file_descriptor.file_
    if file.flag_ &&& (O_WRONLY ||| O_RDWR) = 0 then return ⟨-1, []⟩
    File.write file_descriptor.file_ buffer count 0

def lseek (fd : BitVec 32) (offset : BitVec 64) (origin : BitVec 8) : FsM Reply := do
  match ← getFileDescriptor fd with
  | none => return ⟨(BitVec.allOnes 64).toNat, []⟩
  | some file_descriptor => File.lseek file_descriptor.file_ offset origin

end VfsSyscall

/-! ### Runs -/

inductive Op
  | mkdir (thread : ℕ) (pathname : List Char)
  | chdir (thread : ℕ) (pathname : List Char)
  | rm (thread : ℕ) (pathname : List Char)
  | rmdir (thread : ℕ) (pathname : List Char)
  | open (thread : ℕ) (pathname : List Char) (flag : BitVec 32)
  | close (fd : BitVec 32)
  | read (fd count : BitVec 32)
  | write (fd : BitVec 32) (buffer : ℕ → Byte) (count : BitVec 32)
  | lseek (fd : BitVec 32) (offset : BitVec 64) (origin : BitVec 8)

def step : Op → FsM Reply
  | .mkdir thread pathname => VfsSyscall.mkdir thread pathname
  | .chdir thread pathname => VfsSyscall.chdir thread pathname
  | .rm thread pathname => VfsSyscall.rm thread pathname
  | .rmdir thread pathname => VfsSyscall.rmdir thread pathname
  | .open thread pathname flag => VfsSyscall.openFile thread pathname flag
  | .close fd => VfsSyscall.close fd
  | .read fd count => VfsSyscall.read fd count
  | .write fd buffer count => VfsSyscall.write fd buffer count
  | .lseek fd offset origin => VfsSyscall.lseek fd offset origin

end KPanic.DeviceFS

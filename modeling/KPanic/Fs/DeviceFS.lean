import Mathlib.Algebra.Group.Int.Defs
import Mathlib.Algebra.Group.Nat.Defs
import Mathlib.Logic.Function.Basic
import KPanic.Lib.Wp

/-!
# The root file system: `Dentry.cpp`, `File.cpp`, `ramfs/RamFSInode.cpp`, `devicefs/DeviceFSSuperblock.cpp`

The objects live in heaps; an address that was deleted is never given out again, so a use of it is an error.
The devices below `/dev` are left out.
-/

namespace KPanic.DeviceFS

open Function

def BASIC_ALLOC : ℕ := 256
def INODE_DEAD : ℤ := 666
def ROOT_NAME : List Char := ['/']
def DEVICE_ROOT_NAME : List Char := ['d', 'e', 'v']

abbrev Byte := BitVec 8

inductive InodeType
  | I_FILE
  | I_DIR
  deriving DecidableEq

structure Dentry where
  d_inode_ : Option ℕ
  d_parent_ : Option ℕ
  d_child_ : List ℕ
  d_name_ : List Char

/-- A directory has no `data_`. -/
structure Inode where
  i_type_ : InodeType
  i_size_ : ℕ
  data_ : Option (ℕ → Byte)
  i_dentry_ : Option ℕ
  i_files_ : List ℕ

structure File where
  f_inode_ : ℕ
  flag_ : BitVec 32
  offset_ : BitVec 64

/-- Two descriptors differ in their numbers. -/
structure FileDescriptor where
  fd_ : ℕ
  file_ : ℕ
  deriving DecidableEq

def FileDescriptor.getFd (fd : FileDescriptor) : BitVec 32 := BitVec.ofNat 32 fd.fd_

structure Fs where
  dentry : ℕ → Option Dentry
  inode : ℕ → Option Inode
  file : ℕ → Option File
  /-- The next address that `new` gives. -/
  brk : ℕ
  s_root_ : ℕ
  all_inodes_ : List ℕ
  used_inodes_ : List ℕ
  s_files_ : List FileDescriptor
  global_fd : List FileDescriptor
  fd_num_ : ℕ
  /-- `pwd_` of the threads. -/
  pwd_ : ℕ → ℕ

inductive Error
  | nullPointer
  | deleted
  | assertion

abbrev FsM := StateT Fs (Except Error)

/-! ### Objects -/

def getDentry (d : ℕ) : FsM Dentry := do
  match (← get).dentry d with
  | some dentry => return dentry
  | none => throw .deleted

def getInode (i : ℕ) : FsM Inode := do
  match (← get).inode i with
  | some inode => return inode
  | none => throw .deleted

def getFile (f : ℕ) : FsM File := do
  match (← get).file f with
  | some file => return file
  | none => throw .deleted

def Fs.setDentry (s : Fs) (d : ℕ) (dentry : Option Dentry) : Fs := { s with dentry := update s.dentry d dentry }
def Fs.setInode (s : Fs) (i : ℕ) (inode : Option Inode) : Fs := { s with inode := update s.inode i inode }
def Fs.setFile (s : Fs) (f : ℕ) (file : Option File) : Fs := { s with file := update s.file f file }

def setDentry (d : ℕ) (dentry : Option Dentry) : FsM PUnit := modify fun s => s.setDentry d dentry
def setInode (i : ℕ) (inode : Option Inode) : FsM PUnit := modify fun s => s.setInode i inode
def setFile (f : ℕ) (file : Option File) : FsM PUnit := modify fun s => s.setFile f file

def modifyDentry (d : ℕ) (f : Dentry → Dentry) : FsM PUnit := do
  let dentry ← getDentry d
  setDentry d (some (f dentry))

def modifyInode (i : ℕ) (f : Inode → Inode) : FsM PUnit := do
  let inode ← getInode i
  setInode i (some (f inode))

def deref : Option ℕ → FsM ℕ
  | some p => return p
  | none => throw .nullPointer

def assert (c : Prop) [Decidable c] : FsM PUnit := if c then pure ⟨⟩ else throw .assertion

/-- An address that is not in use. -/
def new : FsM ℕ := do
  let s ← get
  set { s with brk := s.brk + 1 }
  return s.brk

/-! ### `Dentry.cpp` -/

namespace Dentry

def setChild (d child : ℕ) : FsM ℤ := do
  let dentry ← getDentry d
  if child ∈ dentry.d_child_ then return -1
  setDentry d (some { dentry with d_child_ := dentry.d_child_ ++ [child] })
  return 0

/-- The constructor, and the name that all callers then set. -/
def new (parent : ℕ) (d_name_ : List Char) : FsM ℕ := do
  let d ← DeviceFS.new
  DeviceFS.setDentry d (some ⟨none, some parent, [], d_name_⟩)
  let _ ← setChild parent d
  return d

def childRemove (d child_dentry : ℕ) : FsM PUnit := do
  modifyDentry d fun dentry => { dentry with d_child_ := dentry.d_child_.filter (· ≠ child_dentry) }
  modifyDentry child_dentry fun child => { child with d_parent_ := none }

/-- `~Dentry` -/
def delete (d : ℕ) : FsM PUnit := do
  let dentry ← getDentry d
  match dentry.d_parent_ with
  | some parent => if parent ≠ d then childRemove parent d
  | none => pure ⟨⟩
  dentry.d_child_.forM fun child => modifyDentry child fun child => { child with d_parent_ := none }
  DeviceFS.setDentry d none

end Dentry

/-! ### `RamFSInode.cpp` -/

/-- `memcpy` into an array. -/
def stored (data_ : ℕ → Byte) (offset size : ℕ) (buffer : ℕ → Byte) : ℕ → Byte :=
  fun k => if offset ≤ k ∧ k < offset + size then buffer (k - offset) else data_ k

namespace RamFSInode

/-- The data of a new inode. -/
def newData (inode_type : InodeType) : Option (ℕ → Byte) := if inode_type = .I_FILE then some fun _ => 0 else none

def new (inode_type : InodeType) : FsM ℕ := do
  let i ← DeviceFS.new
  DeviceFS.setInode i (some ⟨inode_type, BASIC_ALLOC, newData inode_type, none, []⟩)
  return i

/-- `mknod` and `mkfile`, which differ in the type they ask for. -/
def make (inode_type : InodeType) (i dentry : ℕ) : FsM ℤ := do
  let inode ← getInode i
  if inode.i_type_ ≠ inode_type then return -1
  DeviceFS.setInode i (some { inode with i_dentry_ := some dentry })
  modifyDentry dentry fun dentry => { dentry with d_inode_ := some i }
  return 0

def mknod : ℕ → ℕ → FsM ℤ := make .I_DIR
def mkfile : ℕ → ℕ → FsM ℤ := make .I_FILE

def lookup (s : Fs) (i : ℕ) (name : List Char) : Option ℕ := do
  let inode ← s.inode i
  if inode.i_type_ = .I_DIR then
    let dentry ← s.dentry (← inode.i_dentry_)
    dentry.d_child_.find? fun child => (s.dentry child).map Dentry.d_name_ = some name
  else none

def link (i : ℕ) (flag : BitVec 32) : FsM ℕ := do
  let file ← DeviceFS.new
  setFile file (some ⟨i, flag, 0⟩)
  modifyInode i fun inode => { inode with i_files_ := inode.i_files_ ++ [file] }
  return file

def unlink (i file : ℕ) : FsM ℤ := do
  modifyInode i fun inode => { inode with i_files_ := inode.i_files_.filter (· ≠ file) }
  setFile file none
  return 0

/-- What `rmdir` and `rm` end with. -/
def remove (i : ℕ) : FsM ℤ := do
  let inode ← getInode i
  let dentry ← deref inode.i_dentry_
  let object ← getDentry dentry
  if object.d_child_ = [] then
    DeviceFS.setDentry dentry (some { object with d_inode_ := none })
    let parent_dentry ← deref object.d_parent_
    Dentry.childRemove parent_dentry dentry
    Dentry.delete dentry
    DeviceFS.setInode i (some { inode with i_dentry_ := none })
    return INODE_DEAD
  else return -1

def rmdir (i : ℕ) : FsM ℤ := do
  let inode ← getInode i
  if inode.i_type_ ≠ .I_DIR then return -1
  remove i

def rm (i : ℕ) : FsM ℤ := do
  let inode ← getInode i
  if inode.i_files_.length ≠ 0 then return -1
  remove i

/-- `offset` and `size` are `uint32`. -/
def readData (i offset size : ℕ) : FsM (List Byte) := do
  let inode ← getInode i
  if offset ≥ inode.i_size_ then return []
  let read_size := min size (inode.i_size_ - offset)
  match inode.data_ with
  | none => throw .nullPointer
  | some data_ => return (List.range read_size).map fun k => data_ (offset + k)

def writeData (i offset size : ℕ) (buffer : ℕ → Byte) : FsM ℕ := do
  let inode ← getInode i
  assert (inode.i_type_ = .I_FILE)
  if offset ≥ inode.i_size_ then return 0
  let write_size := min size (inode.i_size_ - offset)
  match inode.data_ with
  | none => throw .nullPointer
  | some data_ =>
    DeviceFS.setInode i (some { inode with data_ := some (stored data_ offset write_size buffer) })
    return write_size

end RamFSInode

/-! ### `DeviceFSSuperblock.cpp`, `Superblock.cpp`, `FileDescriptor.cpp` -/

namespace Superblock

def initInode (inode dentry : ℕ) : InodeType → FsM ℤ
  | .I_DIR => RamFSInode.mknod inode dentry
  | .I_FILE => RamFSInode.mkfile inode dentry

def createInode (dentry : ℕ) (type : InodeType) : FsM ℕ := do
  let inode ← RamFSInode.new type
  let inode_init ← initInode inode dentry type
  assert (inode_init = 0)
  modify fun s => { s with all_inodes_ := s.all_inodes_ ++ [inode] }
  return inode

def delete_inode (inode : ℕ) : FsM PUnit := do
  modify fun s => { s with
    used_inodes_ := s.used_inodes_.filter (· ≠ inode)
    all_inodes_ := s.all_inodes_.filter (· ≠ inode) }
  setInode inode none

def createFd (inode : ℕ) (flag : BitVec 32) : FsM (BitVec 32) := do
  let file ← RamFSInode.link inode flag
  let s ← get
  let fd : FileDescriptor := ⟨s.fd_num_, file⟩
  set { s with
    fd_num_ := s.fd_num_ + 1
    s_files_ := s.s_files_ ++ [fd]
    global_fd := s.global_fd ++ [fd]
    used_inodes_ := if inode ∈ s.used_inodes_ then s.used_inodes_ else s.used_inodes_ ++ [inode] }
  return fd.getFd

def removeFd (i : ℕ) (fd : FileDescriptor) : FsM ℤ := do
  modify fun s => { s with
    s_files_ := s.s_files_.filter (· ≠ fd)
    global_fd := s.global_fd.filter (· ≠ fd) }
  let tmp ← RamFSInode.unlink i fd.file_
  let inode ← getInode i
  if inode.i_files_.length = 0 then
    modify fun s => { s with used_inodes_ := s.used_inodes_.filter (· ≠ i) }
  return tmp

end Superblock

/-- After the constructor of `DeviceFSSuperBlock`: `/` and `/dev`. -/
def Fs.boot : Fs where
  dentry := update (update (fun _ => none) 0 (some ⟨some 1, some 0, [2], ROOT_NAME⟩))
    2 (some ⟨some 3, some 0, [], DEVICE_ROOT_NAME⟩)
  inode := update (update (fun _ => none) 1 (some ⟨.I_DIR, BASIC_ALLOC, none, some 0, []⟩))
    3 (some ⟨.I_DIR, BASIC_ALLOC, none, some 2, []⟩)
  file _ := none
  brk := 4
  s_root_ := 0
  all_inodes_ := [1, 3]
  used_inodes_ := []
  s_files_ := []
  global_fd := []
  fd_num_ := 3
  pwd_ _ := 0

end KPanic.DeviceFS

import KPanic.Fs.MinixFSInode

/-!
# Open files: `fs/File.h`, `fs/minixfs/MinixFSFile.cpp`, and `read`, `write`, `lseek` of `VfsSyscall.cpp`

A `File` carries its class, as its virtual table does. The functions return the file as they leave
it. `int32` results are integers, offsets are of type `uint64`.
-/

namespace KPanic.Minix

open Bytes
open Function
open Wp

def O_RDONLY : ℕ := 0x0001
def O_WRONLY : ℕ := 0x0002
def O_RDWR : ℕ := 0x0004

def SEEK_SET : ℕ := 0
def SEEK_CUR : ℕ := 1
def SEEK_END : ℕ := 2

inductive FileClass
  | File
  | MinixFSFile
  deriving DecidableEq

structure File where
  class_ : FileClass
  f_inode_ : ℕ
  flag_ : ℕ
  offset_ : ℕ
  deriving DecidableEq

/-- A conversion to `int32`. -/
def int32 (n : ℕ) : ℤ := (BitVec.ofNat 32 n).toInt

/-- `offset_ += n` for an `n` of type `int32`. -/
def addOffset (offset_ : ℕ) (n : ℤ) : ℕ := ((offset_ + n) % 2 ^ 64).toNat

namespace File

def readable (f : File) : Bool := f.flag_ &&& (O_RDONLY ||| O_RDWR) ≠ 0

def writable (f : File) : Bool := f.flag_ &&& (O_WRONLY ||| O_RDWR) ≠ 0

def lseek (f : File) (offset origin : ℕ) : Fs (ℕ × File) := do
  if origin = SEEK_SET then return (offset, { f with offset_ := offset })
  else if origin = SEEK_CUR then
    return (add64 f.offset_ offset, { f with offset_ := add64 f.offset_ offset })
  else if origin = SEEK_END then
    let inode ← Fs.inode f.f_inode_
    return (add64 inode.i_size_ offset, { f with offset_ := add64 inode.i_size_ offset })
  else return (2 ^ 64 - 1, f)

/-- `File::read` and `MinixFSFile::read`. The mode of an inode always allows it. -/
def read (f : File) (buffer : Memory) (count offset : ℕ) : Fs (ℤ × Memory × File) := do
  match f.class_ with
  | .File => return (0, buffer, f)
  | .MinixFSFile =>
    if f.readable then
      let inode ← Fs.inode f.f_inode_
      let (read_bytes, buffer) ← MinixFSInode.readData inode (u32 (add64 f.offset_ offset)) (u32 count)
        buffer
      return (int32 read_bytes, buffer, { f with offset_ := addOffset f.offset_ (int32 read_bytes) })
    else return (-1, buffer, f)

def write (f : File) (buffer : Memory) (count offset : ℕ) : Fs (ℤ × File) := do
  match f.class_ with
  | .File => return (0, f)
  | .MinixFSFile =>
    if f.writable then
      let written ← MinixFSInode.writeData f.f_inode_ (u32 (add64 f.offset_ offset)) (u32 count) buffer
      return (int32 written, { f with offset_ := addOffset f.offset_ (int32 written) })
    else return (-1, f)

end File

/-! ### `VfsSyscall.cpp`, for a descriptor that exists -/

namespace VfsSyscall

def read (f : File) (buffer : Memory) (count : ℕ) : Fs (ℤ × Memory × File) := do
  if u32 count = 0 then return (0, buffer, f)
  else if f.readable = false then return (-1, buffer, f)
  else f.read buffer (u32 count) 0

def write (f : File) (buffer : Memory) (count : ℕ) : Fs (ℤ × File) := do
  if u32 count = 0 then return (0, f)
  else if f.writable = false then return (-1, f)
  else f.write buffer (u32 count) 0

def lseek (f : File) (offset origin : ℕ) : Fs (ℕ × File) := f.lseek offset origin

end VfsSyscall

end KPanic.Minix

import KPanic.Lib.Wp
import KPanic.Lib.Bytes
import KPanic.Fs.MinixStorageManager

/-!
# The state of a mounted minix file system

What `MinixFSSuperblock`, `MinixFSInode` and `MinixFSZone` read and write: the blocks of the disk,
the allocation bitmaps, the loaded inodes and the directory entries in memory. A block is a
function of the index of its bytes. An inode object is named by its number.
-/

namespace KPanic.Minix

open Bytes
open Function
open Wp

abbrev Block := Bytes.Memory

/-! ### `minix_fs_consts.h`; `v3` stands for `s_magic_ == MINIX_V3` -/

def ZONE_SIZE : ℕ := 1024
def V3_OFFSET (v3 : Bool) : ℕ := if v3 then 1 else 0
def NUM_ZONE_ADDRESSES (v3 : Bool) : ℕ := if v3 then 256 else 512
def INODE_BYTES (v3 : Bool) : ℕ := if v3 then 4 else 2
def INODE_SIZE (v3 : Bool) : ℕ := if v3 then 64 else 32
def INODES_PER_BLOCK (v3 : Bool) : ℕ := if v3 then 16 else 32
def MAX_NAME_LENGTH (v3 : Bool) : ℕ := if v3 then 60 else 30
def NUM_ZONES (v3 : Bool) : ℕ := if v3 then 10 else 9

/-- `V3_ARRAY` -/
def v3Array (v3 : Bool) (buffer : Block) (index : ℕ) : ℕ :=
  load (INODE_BYTES v3) buffer (INODE_BYTES v3 * index)

/-- A loop of `V3_ARRAY` over `n` indices from `first` on. -/
def readArray (v3 : Bool) (buffer : Block) (first n : ℕ) : List ℕ :=
  (List.range n).map fun i => v3Array v3 buffer (first + i)

/-- A loop of `SET_V3_ARRAY` over the indices from `i` on. -/
def setArray (v3 : Bool) : ℕ → List ℕ → Block → Block
  | _, [], buffer => buffer
  | i, x :: xs, buffer =>
    setArray v3 (i + 1) xs (store (INODE_BYTES v3) buffer (INODE_BYTES v3 * i) x)

/-! ### Objects -/

inductive InodeType
  | file
  | dir
  | dead
  deriving DecidableEq

structure MinixFSZone where
  direct_zones_ : List ℕ
  indirect_zones_ : Option (List ℕ)
  double_indirect_linking_zone_ : Option (List ℕ)
  double_indirect_zones_ : Option (List (Option (List ℕ)))
  num_zones_ : ℕ
  deriving DecidableEq

structure MinixFSInode where
  i_num_ : ℕ
  i_type_ : InodeType
  i_size_ : ℕ
  i_nlink_ : ℕ
  i_zones_ : MinixFSZone
  i_dentry_ : Option ℕ
  /-- The number of `i_files_`. -/
  i_files_ : ℕ
  children_loaded_ : Bool
  other_dentries_ : List ℕ
  deriving DecidableEq

structure Dentry where
  d_inode_ : Option ℕ
  d_parent_ : Option ℕ
  d_child_ : List ℕ
  d_name_ : List UInt8
  deriving DecidableEq

structure MinixFSSuperblock where
  v3 : Bool
  s_num_inode_bm_blocks_ : ℕ
  s_num_zone_bm_blocks_ : ℕ
  s_1st_datazone_ : ℕ
  storage_manager_ : MinixStorageManager
  /-- The device: its blocks, and how many it has. -/
  disk : ℕ → Block
  num_blocks : ℕ
  /-- `all_inodes_` and `all_inodes_set_` -/
  all_inodes_ : ℕ → Option MinixFSInode
  /-- The `Dentry` objects, and the name of the next one. -/
  dentries : ℕ → Option Dentry
  next_dentry : ℕ

abbrev Fs := StateT MinixFSSuperblock (Except Panic)

namespace Fs

def assert (c : Prop) [Decidable c] (e : Panic) : Fs PUnit := if c then pure ⟨⟩ else throw e

/-! ### Blocks -/

/-- `readBlocks` for one block, and `readZone`; the number is a `uint16`. -/
def readZone (zone : ℕ) : Fs Block := do
  let s ← get
  assert (zone % 2 ^ 16 < s.num_blocks) .outOfRange
  return s.disk (zone % 2 ^ 16)

def writeZone (zone : ℕ) (buffer : Block) : Fs PUnit := do
  let s ← get
  assert (zone % 2 ^ 16 < s.num_blocks) .outOfRange
  set { s with disk := update s.disk (zone % 2 ^ 16) buffer }

/-- `memcpy` of `size` bytes to `offset`. -/
def patch (wbuffer : Block) (offset size : ℕ) (buffer : Block) : Block := fun i =>
  if offset ≤ i ∧ i < offset + size then buffer (i - offset) else wbuffer i

/-- `readBytes` copies from `buffer` into the block that it has read, so `buffer` stays. -/
def readBytes (block offset size : ℕ) (buffer : Block) : Fs Block := do
  assert (offset + size ≤ BLOCK_SIZE) .crossesBlock
  let rbuffer ← readZone block
  let _ := patch rbuffer offset size buffer
  return buffer

def writeBytes (block offset size : ℕ) (buffer : Block) : Fs PUnit := do
  assert (offset + size ≤ BLOCK_SIZE) .crossesBlock
  let wbuffer ← readZone block
  writeZone block (patch wbuffer offset size buffer)

/-! ### Zones of the disk -/

/-- `MinixFSSuperblock::allocateZone` -/
def allocateZone : Fs ℕ := do
  let s ← get
  let (pos, storage_manager_) ← s.storage_manager_.allocZone
  set { s with storage_manager_ := storage_manager_ }
  return (pos + s.s_1st_datazone_ - 1) % 2 ^ 16

/-- `MinixFSSuperblock::freeZone`; the index is a `uint16`, and a negative difference is too large
for the bitmap. -/
def freeZone (index : ℕ) : Fs PUnit := do
  let s ← get
  assert (s.s_1st_datazone_ ≤ index % 2 ^ 16 + 1) .badIndex
  let storage_manager_ ← s.storage_manager_.freeZone (index % 2 ^ 16 + 1 - s.s_1st_datazone_)
  set { s with storage_manager_ := storage_manager_ }

end Fs

end KPanic.Minix

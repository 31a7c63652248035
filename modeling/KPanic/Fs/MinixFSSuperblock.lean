import KPanic.Fs.MinixFSZone

/-!
# `common/source/fs/minixfs/MinixFSSuperblock.cpp`: the inode table

An inode on the disk has `INODE_SIZE` bytes: mode, link count, owners, size and times at places
that depend on the version, and the direct zones at the end.
-/

namespace KPanic.Minix

open Bytes
open Function
open Wp

/-- The block of an inode, and its place in the block. -/
def MinixFSSuperblock.inodeBlock (s : MinixFSSuperblock) (i_num : ℕ) : ℕ :=
  2 + s.s_num_inode_bm_blocks_ + s.s_num_zone_bm_blocks_ + (i_num - 1) * INODE_SIZE s.v3 / BLOCK_SIZE

def MinixFSSuperblock.inodeOffset (s : MinixFSSuperblock) (i_num : ℕ) : ℕ :=
  (i_num - 1) * INODE_SIZE s.v3 % BLOCK_SIZE

namespace MinixFSInode

/-- The type that the constructor reads off the mode. -/
def typeOf (i_mode : ℕ) : Option InodeType :=
  if i_mode.testBit 15 then some .file
  else if i_mode.testBit 14 then some .dir
  else none

/-- The constructor. -/
def new (i_mode i_size i_nlinks : ℕ) (i_zones : List ℕ) (i_num : ℕ) : Fs MinixFSInode := do
  let i_zones_ ← MinixFSZone.new i_zones
  match typeOf i_mode with
  | none => throw .badMode
  | some i_type_ => return {
      i_num_ := i_num
      i_type_ := i_type_
      i_size_ := i_size
      i_nlink_ := i_nlinks
      i_zones_ := i_zones_
      i_dentry_ := none
      i_files_ := 0
      children_loaded_ := false
      other_dentries_ := [] }

end MinixFSInode

namespace Fs

/-- The loaded inode of a number. -/
def inode (i_num : ℕ) : Fs MinixFSInode := do
  match (← get).all_inodes_ i_num with
  | some inode => return inode
  | none => throw .notInList

def setInode (i_num : ℕ) (inode : Option MinixFSInode) : Fs PUnit :=
  modify fun s => { s with all_inodes_ := update s.all_inodes_ i_num inode }

def modifyInode (i_num : ℕ) (f : MinixFSInode → MinixFSInode) : Fs PUnit := do
  let inode ← inode i_num
  setInode i_num (some (f inode))

def dentry (d : ℕ) : Fs Dentry := do
  match (← get).dentries d with
  | some dentry => return dentry
  | none => throw .nullPointer

def setDentry (d : ℕ) (dentry : Option Dentry) : Fs PUnit :=
  modify fun s => { s with dentries := update s.dentries d dentry }

def modifyDentry (d : ℕ) (f : Dentry → Dentry) : Fs PUnit := do
  let dentry ← dentry d
  setDentry d (some (f dentry))

/-- `new Dentry`, with a parent or without. -/
def newDentry (dentry : Dentry) : Fs ℕ := do
  let s ← get
  set { s with dentries := update s.dentries s.next_dentry (some dentry), next_dentry := s.next_dentry + 1 }
  return s.next_dentry

/-- A pointer that is used without a check. -/
def deref {α : Type} (p : Option α) : Fs α := do
  match p with
  | some a => return a
  | none => throw .nullPointer

/-! ### `common/source/fs/Dentry.cpp` -/

/-- `Dentry::childRemove` -/
def childRemove (parent d : ℕ) : Fs PUnit := do
  modifyDentry parent fun dentry => { dentry with d_child_ := dentry.d_child_.filter (· ≠ d) }
  modifyDentry d fun dentry => { dentry with d_parent_ := none }

/-- `for (child : d_child_) child->d_parent_ = 0` -/
def orphan : List ℕ → Fs PUnit
  | [] => pure ⟨⟩
  | d :: ds => do
    modifyDentry d fun dentry => { dentry with d_parent_ := none }
    orphan ds

/-- `~Dentry` -/
def deleteDentry (d : ℕ) : Fs PUnit := do
  let dentry ← Fs.dentry d
  match dentry.d_parent_ with
  | none => pure ⟨⟩
  | some parent => if parent ≠ d then childRemove parent d
  orphan (← Fs.dentry d).d_child_
  setDentry d none

def deleteDentries : List ℕ → Fs PUnit
  | [] => pure ⟨⟩
  | d :: ds => do
    deleteDentry d
    deleteDentries ds

end Fs

namespace MinixFSSuperblock

/-- `getInode(uint16)` -/
def getInode (i_num : ℕ) : Fs (Option MinixFSInode) := do
  let s ← get
  if i_num ≥ s.storage_manager_.getNumUsedInodes then return none
  let isInodeSet ← s.storage_manager_.isInodeSet i_num
  if isInodeSet = false then
    if i_num = 1 then throw .rootNotSet
    else return none
  else
    let inodes_start := s.s_num_inode_bm_blocks_ + s.s_num_zone_bm_blocks_ + 2
    let buffer ← Fs.readZone (inodes_start + (i_num - 1) / INODES_PER_BLOCK s.v3)
    let offset := (i_num - 1) % INODES_PER_BLOCK s.v3 * INODE_SIZE s.v3
    let ibuffer : Block := fun i => buffer (offset + i)
    let i_zones := readArray s.v3 ibuffer (7 - V3_OFFSET s.v3) (NUM_ZONES s.v3)
    let inode ← MinixFSInode.new (load 2 ibuffer 0) (load 4 ibuffer (4 * (1 + V3_OFFSET s.v3)))
      (load 2 ibuffer (2 * V3_OFFSET s.v3)) i_zones i_num
    return some inode

/-- `getInode(uint16, bool&)`; the flag says that the inode was loaded before. -/
def getInodeLoaded (i_num : ℕ) : Fs (Option MinixFSInode × Bool) := do
  match (← get).all_inodes_ i_num with
  | some inode => return (some inode, true)
  | none => return (← getInode i_num, false)

/-- A `char` as a `uint32`. -/
def extend (byte : ℕ) : ℕ := if byte < 128 then byte else byte + (2 ^ 32 - 256)

/-- `garbage` is what the buffer on the stack holds before `readBytes`. -/
def readInode (i_num : ℕ) (garbage : Block) : Fs PUnit := do
  let s ← get
  let inode ← Fs.inode i_num
  let buffer ← Fs.readBytes (s.inodeBlock i_num) (s.inodeOffset i_num) (INODE_SIZE s.v3) garbage
  let i_zones_ ← MinixFSZone.new (readArray s.v3 buffer (7 - V3_OFFSET s.v3) (NUM_ZONES s.v3))
  Fs.setInode i_num (some { inode with
    i_zones_ := i_zones_
    i_nlink_ := if s.v3 then load 2 buffer 2 else extend (load 1 buffer 13)
    i_size_ := load 4 buffer (4 * (1 + V3_OFFSET s.v3)) })

/-- The mode bits that `writeInode` sets. -/
def modeBits : InodeType → ℕ
  | .file => 0x81FF
  | .dir => 0x41FF
  | .dead => 0

def writeInode (i_num : ℕ) : Fs PUnit := do
  let s ← get
  let inode ← Fs.inode i_num
  let buffer : Block := fun _ => 0
  let buffer ← Fs.readBytes (s.inodeBlock i_num) (s.inodeOffset i_num) (INODE_SIZE s.v3) buffer
  let buffer := store 2 buffer 0 (load 2 buffer 0 ||| modeBits inode.i_type_)
  let buffer := store 4 buffer (4 * (1 + V3_OFFSET s.v3)) inode.i_size_
  let buffer := if s.v3 then store 2 buffer 2 inode.i_nlink_ else store 1 buffer 13 inode.i_nlink_
  Fs.writeBytes (s.inodeBlock i_num) (s.inodeOffset i_num) (INODE_SIZE s.v3) buffer
  inode.i_zones_.flush i_num

def delete_inode (i_num : ℕ) : Fs PUnit := do
  let inode ← Fs.inode i_num
  Fs.assert (inode.i_dentry_ = none) .inodeInUse
  Fs.assert (inode.i_files_ = 0) .inodeInUse
  Fs.setInode i_num none
  inode.i_zones_.freeZones
  let s ← get
  let storage_manager_ ← s.storage_manager_.freeInode i_num
  set { s with storage_manager_ := storage_manager_ }
  Fs.writeBytes (s.inodeBlock i_num) (s.inodeOffset i_num) (INODE_SIZE s.v3) fun _ => 0
  Fs.deleteDentries inode.other_dentries_

end MinixFSSuperblock

end KPanic.Minix

import KPanic.Fs.MinixFSSuperblock

/-!
# `common/source/fs/minixfs/MinixFSInode.cpp`: files and directories

The data of files, and the entries of directories. The functions take the number of their inode.
-/

namespace KPanic.Minix

open Bytes
open Function
open Wp

/-- Arithmetic of type `uint32`. -/
def u32 (n : ℕ) : ℕ := n % 2 ^ 32

namespace MinixFSInode

/-! ### Data -/

/-- The loop of `readData`, from `zone` on. -/
def readLoop (inode : MinixFSInode) (size : ℕ) : ℕ → ℕ → ℕ → ℕ → Memory → Fs Memory
  | 0, _, _, _, buffer => pure buffer
  | passes + 1, zone, index, zone_offset, buffer => do
    let rbuffer ← Fs.readZone (← inode.i_zones_.getZone zone)
    let count := min (size - index) (ZONE_SIZE - zone_offset)
    readLoop inode size passes (zone + 1) (index + count) 0
      (Fs.patch buffer index count fun i => rbuffer (zone_offset + i))

/-- Returns the number of bytes, and the buffer. -/
def readData (inode : MinixFSInode) (offset size : ℕ) (buffer : Memory) : Fs (ℕ × Memory) := do
  if u32 (size + offset) > inode.i_size_ ∧ inode.i_size_ ≤ offset then return (0, buffer)
  else
    let size := if u32 (size + offset) > inode.i_size_ then inode.i_size_ - offset else size
    let start_zone := offset / ZONE_SIZE
    let zone_offset := offset % ZONE_SIZE
    let num_zones := u32 (zone_offset + size) / ZONE_SIZE + 1
    let buffer ← readLoop inode size num_zones start_zone 0 zone_offset buffer
    return (size, buffer)

/-- The first loop of `writeData`. -/
def addZones : ℕ → MinixFSZone → Fs MinixFSZone
  | 0, t => pure t
  | n + 1, t => do
    let new_zone ← Fs.allocateZone
    let t ← t.setZone t.num_zones_ new_zone
    addZones n t

/-- The loop that clears zones behind the end of the file. -/
def clearZones : ℕ → ℕ → Fs PUnit
  | 0, _ => pure ⟨⟩
  | n + 1, zone => do
    Fs.writeZone zone fun _ => 0
    clearZones n (zone + 1)

/-- What `writeData` does if it starts behind the end of the file. -/
def fillGap (inode : MinixFSInode) (offset : ℕ) : Fs MinixFSInode := do
  let last_used_zone := inode.i_size_ / ZONE_SIZE
  let zone_size_offset := inode.i_size_ % ZONE_SIZE
  if zone_size_offset ≠ 0 then
    let (_, fill_buffer) ← readData inode (inode.i_size_ - zone_size_offset) zone_size_offset
      fun _ => 0
    Fs.writeZone last_used_zone fill_buffer
  clearZones (offset / ZONE_SIZE - last_used_zone) (last_used_zone + 1)
  return { inode with i_size_ := offset }

/-- The loop that writes the zones back. -/
def writeLoop (inode : MinixFSInode) : ℕ → ℕ → Memory → Fs PUnit
  | 0, _, _ => pure ⟨⟩
  | passes + 1, zone, wbuffer => do
    Fs.writeZone (← inode.i_zones_.getZone zone) wbuffer
    writeLoop inode passes (zone + 1) fun i => wbuffer (ZONE_SIZE + i)

def writeData (i_num offset size : ℕ) (buffer : Memory) : Fs ℕ := do
  let inode ← Fs.inode i_num
  let zone := offset / ZONE_SIZE
  let num_zones := u32 (offset % ZONE_SIZE + size) / ZONE_SIZE + 1
  let i_zones_ ← if u32 (size + offset) > inode.i_size_ then
      addZones ((u32 (size + offset) - inode.i_size_) / ZONE_SIZE + 1) inode.i_zones_
    else pure inode.i_zones_
  let inode := { inode with i_zones_ := i_zones_ }
  let inode ← if offset > inode.i_size_ then fillGap inode offset else pure inode
  let zone_offset := offset % ZONE_SIZE
  let (_, wbuffer) ← readData inode (offset - zone_offset) (u32 (num_zones * ZONE_SIZE)) fun _ => 0
  let wbuffer := Fs.patch wbuffer zone_offset size buffer
  writeLoop inode num_zones zone wbuffer
  Fs.setInode i_num (some { inode with i_size_ := max inode.i_size_ (u32 (offset + size)) })
  return size

/-! ### Entries of a directory -/

/-- The place of the entry for `i_num` in a zone, from `curr_dentry` on. -/
def findSlot (v3 : Bool) (dbuffer : Block) (i_num : ℕ) : ℕ → ℕ → Option ℕ
  | 0, _ => none
  | slots + 1, curr_dentry =>
    if load 2 dbuffer curr_dentry = i_num then some curr_dentry
    else findSlot v3 dbuffer i_num slots (curr_dentry + INODE_SIZE v3)

/-- `findDentry` from `zone` on; `none` stands for -1. -/
def findFrom (t : MinixFSZone) (i_num : ℕ) : ℕ → ℕ → Fs (Option ℕ)
  | 0, _ => pure none
  | zones + 1, zone => do
    let v3 := (← get).v3
    let dbuffer ← Fs.readZone (← t.getZone zone)
    match findSlot v3 dbuffer i_num (INODES_PER_BLOCK v3) 0 with
    | some curr_dentry => return some (zone * ZONE_SIZE + curr_dentry)
    | none => findFrom t i_num zones (zone + 1)

def findDentry (t : MinixFSZone) (i_num : ℕ) : Fs (Option ℕ) := findFrom t i_num t.num_zones_ 0

/-- `strncpy` of `n` bytes to `pos`. -/
def strncpy (buffer : Memory) (pos : ℕ) (name : List UInt8) (n : ℕ) : Memory := fun i =>
  if pos ≤ i ∧ i < pos + n then name.getD (i - pos) 0 else buffer i

def writeDentry (dir dest_i_num src_i_num : ℕ) (name : List UInt8) : Fs PUnit := do
  let v3 := (← get).v3
  let inode ← Fs.inode dir
  let found ← findDentry inode.i_zones_ dest_i_num
  let t ← if found = none ∧ dest_i_num = 0 then inode.i_zones_.addZone (← Fs.allocateZone)
    else pure inode.i_zones_
  let dentry_pos ← match found with
    | some dentry_pos => pure dentry_pos
    | none => if dest_i_num = 0 then pure ((t.num_zones_ - 1) * ZONE_SIZE) else throw .badZoneIndex
  let zone ← t.getZone (dentry_pos / ZONE_SIZE)
  let dbuffer ← Fs.readZone zone
  let dbuffer := store 2 dbuffer (dentry_pos % ZONE_SIZE) src_i_num
  let dbuffer := strncpy dbuffer (dentry_pos % ZONE_SIZE + INODE_BYTES v3) name (MAX_NAME_LENGTH v3)
  Fs.writeZone zone dbuffer
  let i_size_ := if dest_i_num = 0 ∧ inode.i_size_ < dentry_pos + INODE_SIZE v3
    then inode.i_size_ + INODE_SIZE v3 else inode.i_size_
  Fs.modifyInode dir fun inode => { inode with i_zones_ := t, i_size_ := i_size_ }

def dot : List UInt8 := [46]
def dotdot : List UInt8 := [46, 46]

/-- The inode of the directory that a `Dentry` is in. -/
def parentOf (d : ℕ) : Fs ℕ := do
  let dentry ← Fs.dentry d
  let parent ← Fs.dentry (← Fs.deref dentry.d_parent_)
  Fs.deref parent.d_inode_

def addLink (i_num : ℕ) : Fs PUnit :=
  Fs.modifyInode i_num fun inode => { inode with i_nlink_ := u32 (inode.i_nlink_ + 1) }

def dropLink (i_num : ℕ) : Fs PUnit :=
  Fs.modifyInode i_num fun inode => { inode with i_nlink_ := u32 (inode.i_nlink_ + (2 ^ 32 - 1)) }

def mkdir (i_num d : ℕ) : Fs PUnit := do
  Fs.modifyInode i_num fun inode => { inode with i_dentry_ := some d }
  Fs.modifyDentry d fun dentry => { dentry with d_inode_ := some i_num }
  let parent ← parentOf d
  writeDentry parent 0 i_num (← Fs.dentry d).d_name_
  addLink i_num
  writeDentry i_num 0 i_num dot
  addLink i_num
  writeDentry i_num 0 parent dotdot
  addLink parent

def mkfile (i_num d : ℕ) : Fs PUnit := do
  Fs.modifyInode i_num fun inode => { inode with i_dentry_ := some d }
  let parent ← parentOf d
  writeDentry parent 0 i_num (← Fs.dentry d).d_name_
  Fs.modifyDentry d fun dentry => { dentry with d_inode_ := some i_num }
  addLink i_num

/-- The names of some entries. -/
def namesOf : List ℕ → Fs (List (List UInt8))
  | [] => pure []
  | d :: ds => do
    let dentry ← Fs.dentry d
    return dentry.d_name_ :: (← namesOf ds)

/-- Returns whether the result is `INODE_DEAD` and not -1. -/
def rmdir (i_num : ℕ) : Fs Bool := do
  let inode ← Fs.inode i_num
  if inode.i_type_ ≠ .dir then return false
  else
    let d ← Fs.deref inode.i_dentry_
    let dentry ← Fs.dentry d
    if (← namesOf dentry.d_child_).any (fun name => name ≠ dot ∧ name ≠ dotdot) then return false
    else
      let parent_dentry ← Fs.deref dentry.d_parent_
      Fs.childRemove parent_dentry d
      let parent ← Fs.deref (← Fs.dentry parent_dentry).d_inode_
      writeDentry i_num i_num 0 []
      dropLink i_num
      writeDentry i_num parent 0 []
      dropLink parent
      writeDentry parent i_num 0 []
      dropLink i_num
      Fs.modifyDentry d fun dentry => { dentry with d_inode_ := none }
      Fs.deleteDentry d
      Fs.modifyInode i_num fun inode => { inode with i_dentry_ := none, i_nlink_ := 0 }
      return true

def rm (i_num : ℕ) : Fs Bool := do
  let inode ← Fs.inode i_num
  if inode.i_files_ ≠ 0 then return false
  else
    let d ← Fs.deref inode.i_dentry_
    let dentry ← Fs.dentry d
    if dentry.d_child_ = [] then
      Fs.modifyInode i_num fun inode => { inode with i_type_ := .dead }
      let parent_dentry ← Fs.deref dentry.d_parent_
      Fs.childRemove parent_dentry d
      let parent ← Fs.deref (← Fs.dentry parent_dentry).d_inode_
      writeDentry parent (← Fs.deref (← Fs.dentry d).d_inode_) 0 []
      dropLink i_num
      Fs.modifyDentry d fun dentry => { dentry with d_inode_ := none }
      Fs.deleteDentry d
      Fs.modifyInode i_num fun inode => { inode with i_dentry_ := none }
      return true
    else return false

/-! ### The entries in memory -/

/-- A name of at most `n` bytes. -/
def nameAt (dbuffer : Block) (pos n : ℕ) : List UInt8 :=
  ((List.range n).map fun i => dbuffer (pos + i)).takeWhile (· ≠ 0)

/-- `loadChildren`, for one entry. -/
def loadChild (dir d inode_index : ℕ) (name : List UInt8) : Fs PUnit := do
  let (inode, is_already_loaded) ← MinixFSSuperblock.getInodeLoaded inode_index
  match inode with
  | none => writeDentry dir inode_index 0 []
  | some inode =>
    let new_dentry ← Fs.newDentry
      { d_inode_ := some inode_index, d_parent_ := some d, d_child_ := [], d_name_ := name }
    Fs.modifyDentry d fun dentry => { dentry with d_child_ := dentry.d_child_ ++ [new_dentry] }
    if is_already_loaded then
      Fs.modifyInode inode_index fun inode =>
        { inode with other_dentries_ := inode.other_dentries_ ++ [new_dentry] }
    else Fs.setInode inode_index (some { inode with i_dentry_ := some new_dentry })

/-- The entries of a zone, from `curr_dentry` on. -/
def loadSlots (dir d : ℕ) (dbuffer : Block) : ℕ → ℕ → Fs PUnit
  | 0, _ => pure ⟨⟩
  | slots + 1, curr_dentry => do
    let v3 := (← get).v3
    let inode_index := load 2 dbuffer curr_dentry
    if inode_index ≠ 0 then
      loadChild dir d inode_index
        (nameAt dbuffer (curr_dentry + INODE_BYTES v3) (MAX_NAME_LENGTH v3))
    loadSlots dir d dbuffer slots (curr_dentry + INODE_SIZE v3)

/-- The zones from `zone` on; `writeDentry` does not add one here. -/
def loadZones (dir d : ℕ) : ℕ → ℕ → Fs PUnit
  | 0, _ => pure ⟨⟩
  | zones + 1, zone => do
    let v3 := (← get).v3
    let inode ← Fs.inode dir
    let dbuffer ← Fs.readZone (← inode.i_zones_.getZone zone)
    loadSlots dir d dbuffer (INODES_PER_BLOCK v3) 0
    loadZones dir d zones (zone + 1)

def loadChildren (dir : ℕ) : Fs PUnit := do
  let inode ← Fs.inode dir
  if inode.children_loaded_ = false then
    loadZones dir (← Fs.deref inode.i_dentry_) inode.i_zones_.num_zones_ 0
    Fs.modifyInode dir fun inode => { inode with children_loaded_ := true }

/-- The first child with the name. -/
def checkName (name : List UInt8) : List ℕ → Fs (Option ℕ)
  | [] => pure none
  | d :: ds => do
    if (← Fs.dentry d).d_name_ = name then return some d
    else checkName name ds

def lookup (dir : ℕ) (name : List UInt8) : Fs (Option ℕ) := do
  let inode ← Fs.inode dir
  if inode.i_type_ = .dir then
    let dentry ← Fs.dentry (← Fs.deref inode.i_dentry_)
    match ← checkName name dentry.d_child_ with
    | none => return none
    | some d =>
      let child ← Fs.deref (← Fs.dentry d).d_inode_
      if (← Fs.inode child).i_type_ = .dir then loadChildren child
      return some d
  else return none

end MinixFSInode

namespace MinixFSSuperblock

/-- Creates the inode for the `Dentry` at `d`. -/
def createInode (d : ℕ) (type : InodeType) : Fs ℕ := do
  let s ← get
  let (i_num, storage_manager_) ← s.storage_manager_.allocInode
  set { s with storage_manager_ := storage_manager_ }
  let mode := 0x01ff ||| modeBits type
  let inode ← MinixFSInode.new mode 0 0 (List.replicate (NUM_ZONES s.v3) 0) i_num
  Fs.setInode i_num (some inode)
  writeInode i_num
  match type with
  | .dir => MinixFSInode.mkdir i_num d
  | .file => MinixFSInode.mkfile i_num d
  | .dead => pure ⟨⟩
  return i_num

end MinixFSSuperblock

end KPanic.Minix

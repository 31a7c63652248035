import KPanic.Util.Bitmap

/-!
# `common/source/fs/minixfs/MinixStorageManager.cpp`: the allocation bitmaps

The constructor reads the inode bitmap and the zone bitmap from the blocks behind the superblock,
and `flush` writes them back.
-/

namespace KPanic.Minix

open Function

def BLOCK_SIZE : ℕ := 1024

/-- Assertions that can fail, null pointers, and loops that do not end. -/
inductive Panic
  | badIndex
  | noFreeZone
  | noFreeInode
  | endless
  | outOfRange
  | badZoneIndex
  | nullPointer
  | notInList
  | crossesBlock
  | badMode
  | rootNotSet
  | inodeInUse
  deriving DecidableEq

structure MinixStorageManager where
  inode_bitmap_ : Bitmap
  zone_bitmap_ : Bitmap
  curr_zone_pos_ : ℕ
  curr_inode_pos_ : ℕ
  num_inode_bm_blocks_ : ℕ
  num_zone_bm_blocks_ : ℕ

/-! ### Arrays of bytes -/

/-- An array on the heap, and whether a store has missed it. -/
structure CharArray where
  length : ℕ
  bytes : ℕ → Byte
  overrun : Bool

namespace CharArray

def store (b : CharArray) (i : ℕ) (w : Byte) : CharArray :=
  { b with bytes := update b.bytes i w, overrun := b.overrun || b.length ≤ i }

/-- `for (k = 0; k < n; k++) b[pos + k] = f(k)` -/
def storeAll (f : ℕ → Byte) (pos : ℕ) : ℕ → CharArray → CharArray
  | 0, b => b
  | n + 1, b => (storeAll f pos n b).store (pos + n) (f n)

end CharArray

/-! ### The constructor and `flush` -/

/-- The constructor, for one of the two bitmaps: `n` bits from byte `pos` of `bm_buffer`. -/
def loadBytes (bm_buffer : ℕ → Byte) (pos : ℕ) : ℕ → Bitmap → Bitmap
  | 0, bm => bm
  | k + 1, bm => (loadBytes bm_buffer pos k bm).setByte k (bm_buffer (pos + k))

def loadBits (byte : Byte) (first : ℕ) : ℕ → Bitmap → Bitmap
  | 0, bm => bm
  | k + 1, bm =>
    let bm := loadBits byte first k bm
    if (byte >>> k) &&& 0x01 ≠ 0 then (bm.setBit (first + k)).2 else bm

def loadBitmap (bm_buffer : ℕ → Byte) (pos n : ℕ) : Bitmap :=
  loadBits (bm_buffer (pos + n / 8)) (n / 8 * 8) (n % 8)
    (loadBytes bm_buffer pos (n / 8) (Bitmap.new n))

/-- `flush`, for the byte that holds the last bits of a bitmap. -/
def lastByte (bm : Bitmap) (pos : ℕ) : Byte :=
  (List.range 8).foldl (fun byte bit =>
    if bit < bm.size_ % 8 then
      if Bitmap.getBit bm.bitmap_ (pos * 8 + bit) then byte &&& 0x01 <<< bit else byte
    else byte &&& 0x01 <<< bit) 0

/-- `flush`, for one of the two bitmaps, from `pos` on; also returns where it stops. -/
def flushBitmap (bm : Bitmap) (blocks pos : ℕ) (bm_buffer : CharArray) : CharArray × ℕ :=
  let full := bm.size_ / 8
  let bm_buffer := bm_buffer.storeAll bm.getByte pos full
  let bm_buffer := bm_buffer.store (pos + full) (lastByte bm full)
  let pad := blocks * BLOCK_SIZE - (full + 1)
  (bm_buffer.storeAll (fun _ => 0xff) (pos + full + 1) pad, pos + full + 1 + pad)

namespace MinixStorageManager

def new (bm_buffer : ℕ → Byte) (num_inode_bm_blocks num_zone_bm_blocks num_inodes num_zones : ℕ) :
    MinixStorageManager where
  inode_bitmap_ := loadBitmap bm_buffer 0 num_inodes
  zone_bitmap_ := loadBitmap bm_buffer (num_inode_bm_blocks * BLOCK_SIZE) num_zones
  curr_zone_pos_ := 0
  curr_inode_pos_ := 0
  num_inode_bm_blocks_ := num_inode_bm_blocks
  num_zone_bm_blocks_ := num_zone_bm_blocks

/-- The buffer that `flush` writes to the disk; `garbage` is what it holds at first. -/
def flush (m : MinixStorageManager) (garbage : ℕ → Byte) : CharArray :=
  let bm_buffer : CharArray :=
    ⟨(m.num_inode_bm_blocks_ + m.num_zone_bm_blocks_) * BLOCK_SIZE, garbage, false⟩
  let (bm_buffer, i_byte) := flushBitmap m.inode_bitmap_ m.num_inode_bm_blocks_ 0 bm_buffer
  (flushBitmap m.zone_bitmap_ m.num_zone_bm_blocks_ i_byte bm_buffer).1

/-- The manager that the next mount constructs. -/
def remount (m : MinixStorageManager) (garbage : ℕ → Byte) : MinixStorageManager :=
  new (m.flush garbage).bytes m.num_inode_bm_blocks_ m.num_zone_bm_blocks_ m.inode_bitmap_.size_
    m.zone_bitmap_.size_

end MinixStorageManager

/-! ### What the constructor reads -/

section Load

variable {bm : Bitmap} {n k j : ℕ}

theorem loadBytes_spec (bm_buffer : ℕ → Byte) (pos : ℕ) (h : bm.Ok) (hk : 8 * k ≤ bm.size_) :
    (loadBytes bm_buffer pos k bm).Ok ∧ (loadBytes bm_buffer pos k bm).size_ = bm.size_ ∧
      ∀ j, Bitmap.getBit (loadBytes bm_buffer pos k bm).bitmap_ j =
        if j < 8 * k then (bm_buffer (pos + j / 8)).getLsbD (j % 8)
        else Bitmap.getBit bm.bitmap_ j := by
  induction k with
  | zero => exact ⟨h, rfl, fun j => by rw [if_neg (by omega)]; rfl⟩
  | succ k ih =>
    obtain ⟨hok, hsize, hbits⟩ := ih (by omega)
    have hlen : k < (loadBytes bm_buffer pos k bm).bitmap_.length := by
      have hindex : 8 * k / 8 < bitmapByteCount bm.size_ := Bitmap.byte_index_lt (by omega)
      rw [hok.length, hsize]
      omega
    refine ⟨Bitmap.setByte_ok hok (by omega) _, hsize, fun j => ?_⟩
    rw [loadBytes, Bitmap.getBit_setByte hlen, hbits]
    by_cases hj : j / 8 = k
    · rw [if_pos hj, if_pos (by omega), hj]
    · rw [if_neg hj]
      by_cases hlt : j < 8 * k
      · rw [if_pos hlt, if_pos (by omega)]
      · rw [if_neg hlt, if_neg (by omega)]

/-- The test of a bit, as the constructor writes it. -/
theorem shift_and_one (byte : Byte) (k : ℕ) : (byte >>> k) &&& 0x01 ≠ 0 ↔ byte.getLsbD k = true := by
  have hand : (byte >>> k) &&& 0x01 = if (byte >>> k).getLsbD 0 then 0x01 else 0 :=
    BitVec.and_twoPow (byte >>> k) 0
  rw [hand, BitVec.getLsbD_ushiftRight, Nat.add_zero]
  cases byte.getLsbD k with
  | false => simp
  | true => simp

theorem loadBits_spec (byte : Byte) (first : ℕ) (h : bm.Ok) (hk : first + k ≤ bm.size_) :
    (loadBits byte first k bm).Ok ∧ (loadBits byte first k bm).size_ = bm.size_ ∧
      ∀ j, Bitmap.getBit (loadBits byte first k bm).bitmap_ j =
        (Bitmap.getBit bm.bitmap_ j ||
          (decide (first ≤ j ∧ j < first + k) && byte.getLsbD (j - first))) := by
  induction k with
  | zero =>
    refine ⟨h, rfl, fun j => ?_⟩
    rw [decide_eq_false (by omega), Bool.false_and, Bool.or_false]
    rfl
  | succ k ih =>
    obtain ⟨hok, hsize, hbits⟩ := ih (by omega)
    have hmiss : ∀ {j}, j ≠ first + k → decide (first ≤ j ∧ j < first + (k + 1)) =
        decide (first ≤ j ∧ j < first + k) := by
      intro j hj
      apply decide_eq_decide.mpr
      omega
    rw [loadBits]
    split
    · rename_i hset
      rw [shift_and_one] at hset
      have hi : first + k < (loadBits byte first k bm).size_ := by omega
      refine ⟨Bitmap.setBit_ok hok hi, by rw [Bitmap.setBit_size, hsize], fun j => ?_⟩
      rw [Bitmap.getBit_setBit hok hi, hbits]
      by_cases hj : j = first + k
      · rw [if_pos hj, hj, decide_eq_true (by omega), Nat.add_sub_cancel_left, hset]
        simp
      · rw [if_neg hj, hmiss hj]
    · rename_i hclear
      rw [shift_and_one, Bool.not_eq_true] at hclear
      refine ⟨hok, hsize, fun j => ?_⟩
      rw [hbits]
      by_cases hj : j = first + k
      · rw [hj, Nat.add_sub_cancel_left, hclear, Bool.and_false, Bool.and_false]
      · rw [hmiss hj]

/-- The constructor takes over every bit, and counts them. -/
theorem loadBitmap_spec (bm_buffer : ℕ → Byte) (pos n : ℕ) :
    (loadBitmap bm_buffer pos n).Ok ∧ (loadBitmap bm_buffer pos n).size_ = n ∧
      ∀ j < n, Bitmap.getBit (loadBitmap bm_buffer pos n).bitmap_ j =
        (bm_buffer (pos + j / 8)).getLsbD (j % 8) := by
  obtain ⟨hok, hsize, hbits⟩ := loadBytes_spec bm_buffer pos (k := n / 8)
    (Bitmap.new_ok n) (by rw [show (Bitmap.new n).size_ = n from rfl]; omega)
  have hsize' : (loadBytes bm_buffer pos (n / 8) (Bitmap.new n)).size_ = n := hsize
  obtain ⟨hok', hsize'', hbits'⟩ := loadBits_spec (bm_buffer (pos + n / 8))
    (n / 8 * 8) (k := n % 8) hok (by omega)
  refine ⟨hok', hsize''.trans hsize', fun j hj => ?_⟩
  rw [loadBitmap, hbits', hbits]
  by_cases hlt : j < 8 * (n / 8)
  · rw [if_pos hlt, decide_eq_false (by omega), Bool.false_and, Bool.or_false]
  · have hdiv : j / 8 = n / 8 := by omega
    have hmod : j - n / 8 * 8 = j % 8 := by omega
    rw [if_neg hlt, decide_eq_true (by omega), Bool.true_and, Bitmap.getBit_new, Bool.false_or, hdiv,
      hmod]

end Load

/-! ### What `flush` writes -/

section Flush

variable {bm : Bitmap} {b : CharArray} {f : ℕ → Byte} {blocks pos n i : ℕ}

@[simp] theorem CharArray.store_length {w : Byte} : (b.store i w).length = b.length := rfl

theorem CharArray.storeAll_length : (b.storeAll f pos n).length = b.length := by
  induction n with
  | zero => rfl
  | succ n ih => exact ih

theorem CharArray.storeAll_bytes :
    (b.storeAll f pos n).bytes i = if pos ≤ i ∧ i < pos + n then f (i - pos) else b.bytes i := by
  induction n with
  | zero =>
    rw [if_neg (by omega)]
    rfl
  | succ n ih =>
    show update (b.storeAll f pos n).bytes (pos + n) (f n) i = _
    by_cases hi : i = pos + n
    · rw [hi, update_self, if_pos (by omega), Nat.add_sub_cancel_left]
    · rw [update_of_ne hi, ih]
      by_cases hin : pos ≤ i ∧ i < pos + n
      · rw [if_pos hin, if_pos (by omega)]
      · rw [if_neg hin, if_neg (by omega)]

theorem CharArray.storeAll_overrun :
    (b.storeAll f pos n).overrun = (b.overrun || decide (0 < n ∧ b.length < pos + n)) := by
  induction n with
  | zero =>
    rw [decide_eq_false (by omega), Bool.or_false]
    rfl
  | succ n ih =>
    show ((b.storeAll f pos n).overrun || decide ((b.storeAll f pos n).length ≤ pos + n)) = _
    rw [ih, CharArray.storeAll_length, Bool.or_assoc, ← Bool.decide_or]
    congr 1
    apply decide_eq_decide.mpr
    omega

/-- The bits of the last byte are put together with `&=`, so there are none. -/
theorem lastByte_eq (bm : Bitmap) (pos : ℕ) : lastByte bm pos = 0 := by
  unfold lastByte
  generalize List.range 8 = bits
  induction bits with
  | nil => rfl
  | cons bit bits ih =>
    rw [List.foldl_cons]
    have hzero : (0 : Byte) &&& 0x01 <<< bit = 0 := BitVec.zero_and
    rw [hzero, ite_self, ite_self]
    exact ih

/-- Where `flushBitmap` stops: behind the blocks of the bitmap, or behind the last byte. -/
theorem flushBitmap_end : (flushBitmap bm blocks pos b).2 =
    pos + max (bm.size_ / 8 + 1) (blocks * BLOCK_SIZE) := by
  show pos + bm.size_ / 8 + 1 + (blocks * BLOCK_SIZE - (bm.size_ / 8 + 1)) = _
  omega

theorem flushBitmap_length : (flushBitmap bm blocks pos b).1.length = b.length := by
  show (CharArray.storeAll _ _ _ _).length = _
  rw [CharArray.storeAll_length, CharArray.store_length, CharArray.storeAll_length]

theorem flushBitmap_overrun : (flushBitmap bm blocks pos b).1.overrun =
    (b.overrun || decide (b.length < (flushBitmap bm blocks pos b).2)) := by
  rw [flushBitmap_end]
  show (CharArray.storeAll _ _ _ _).overrun = _
  rw [CharArray.storeAll_overrun]
  simp only [CharArray.store, CharArray.storeAll_overrun, CharArray.storeAll_length]
  rw [Bool.or_assoc, Bool.or_assoc, ← Bool.decide_or, ← Bool.decide_or]
  congr 1
  apply decide_eq_decide.mpr
  omega

/-- Full bytes, a byte without bits, and ones up to the end of the blocks. -/
theorem flushBitmap_bytes : (flushBitmap bm blocks pos b).1.bytes i =
    if pos ≤ i ∧ i < (flushBitmap bm blocks pos b).2 then
      if i < pos + bm.size_ / 8 then bm.getByte (i - pos)
      else if i = pos + bm.size_ / 8 then 0 else 0xff
    else b.bytes i := by
  rw [flushBitmap_end]
  show (CharArray.storeAll _ _ _ _).bytes i = _
  rw [CharArray.storeAll_bytes]
  simp only [CharArray.store, lastByte_eq]
  by_cases hpad : pos + bm.size_ / 8 + 1 ≤ i ∧
      i < pos + bm.size_ / 8 + 1 + (blocks * BLOCK_SIZE - (bm.size_ / 8 + 1))
  · rw [if_pos hpad, if_pos (by omega), if_neg (by omega), if_neg (by omega)]
  · rw [if_neg hpad]
    by_cases hlast : i = pos + bm.size_ / 8
    · rw [hlast, update_self, if_pos (by omega), if_neg (by omega), if_pos rfl]
    · rw [update_of_ne hlast, CharArray.storeAll_bytes]
      by_cases hin : pos ≤ i ∧ i < pos + bm.size_ / 8
      · rw [if_pos hin, if_pos (by omega), if_pos (by omega)]
      · rw [if_neg hin, if_neg (by omega)]

end Flush

namespace MinixStorageManager

/-! ### Allocation -/

def isInodeSet (m : MinixStorageManager) (index : ℕ) : Except Panic Bool :=
  if index < m.inode_bitmap_.size_ then .ok (Bitmap.getBit m.inode_bitmap_.bitmap_ index)
  else .error .badIndex

def getNumUsedInodes (m : MinixStorageManager) : ℕ := m.inode_bitmap_.num_bits_set_

/-- The loop of `allocZone` from `pos` on. -/
def searchZone (bm : Bitmap) (curr_zone_pos_ : ℕ) : ℕ → ℕ → Except Panic ℕ
  | 0, _ => .error .endless
  | passes + 1, pos =>
    if pos = curr_zone_pos_ then .error .noFreeZone
    else if pos ≥ bm.size_ ∧ 0 = curr_zone_pos_ then .error .noFreeZone
    else
      let pos := if pos ≥ bm.size_ then 0 else pos
      if Bitmap.getBit bm.bitmap_ pos = false then .ok pos
      else searchZone bm curr_zone_pos_ passes (pos + 1)

def allocZone (m : MinixStorageManager) : Except Panic (ℕ × MinixStorageManager) := do
  let pos ← searchZone m.zone_bitmap_ m.curr_zone_pos_ (m.zone_bitmap_.size_ + 1)
    (m.curr_zone_pos_ + 1)
  return (pos, { m with zone_bitmap_ := (m.zone_bitmap_.setBit pos).2, curr_zone_pos_ := pos })

/-- The loop of `allocInode`, which does not end on a full bitmap if it began at 0. -/
def searchInode (bm : Bitmap) (curr_inode_pos_ : ℕ) : ℕ → ℕ → Except Panic ℕ
  | 0, _ => .error .endless
  | passes + 1, pos =>
    if pos = curr_inode_pos_ then .error .noFreeInode
    else
      let pos := if pos ≥ bm.size_ then 0 else pos
      if Bitmap.getBit bm.bitmap_ pos = false then .ok pos
      else searchInode bm curr_inode_pos_ passes (pos + 1)

def allocInode (m : MinixStorageManager) : Except Panic (ℕ × MinixStorageManager) := do
  let pos ← searchInode m.inode_bitmap_ m.curr_inode_pos_ (m.inode_bitmap_.size_ + 1)
    (m.curr_inode_pos_ + 1)
  return (pos, { m with inode_bitmap_ := (m.inode_bitmap_.setBit pos).2, curr_inode_pos_ := pos })

def freeZone (m : MinixStorageManager) (index : ℕ) : Except Panic MinixStorageManager :=
  if index < m.zone_bitmap_.size_ then
    .ok { m with zone_bitmap_ := (m.zone_bitmap_.unsetBit index).2 }
  else .error .badIndex

def freeInode (m : MinixStorageManager) (index : ℕ) : Except Panic MinixStorageManager :=
  if index < m.inode_bitmap_.size_ then
    .ok { m with inode_bitmap_ := (m.inode_bitmap_.unsetBit index).2 }
  else .error .badIndex

end MinixStorageManager

end KPanic.Minix

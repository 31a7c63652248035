import KPanic.Fs.MinixStorageManager

/-!
# The bitmaps after a remount

`flush` clears the bits of a trailing partial byte, and always writes such a byte. A bitmap that
fills its blocks therefore shifts what follows by one byte; any other loses its last bits and a
part of its padding.
-/

namespace KPanic.Minix

/-- A bit of a block of bytes. -/
def bitOf (bytes : ℕ → Byte) (i : ℕ) : Bool := (bytes (i / 8)).getLsbD (i % 8)

/-- The two bitmaps agree on their bits and counts. -/
structure SameBits (a b : Bitmap) : Prop where
  bits : ∀ i < b.size_, Bitmap.getBit a.bitmap_ i = Bitmap.getBit b.bitmap_ i
  count : a.num_bits_set_ = b.num_bits_set_

/-- What a flush and the next mount should do to the bitmaps of `m`. -/
structure Survives (m : MinixStorageManager) (garbage : ℕ → Byte) : Prop where
  inside : (m.flush garbage).overrun = false
  inodePadding : ∀ i, m.inode_bitmap_.size_ ≤ i → i < m.num_inode_bm_blocks_ * BLOCK_SIZE * 8 →
    bitOf (m.flush garbage).bytes i = true
  zonePadding : ∀ i, m.zone_bitmap_.size_ ≤ i → i < m.num_zone_bm_blocks_ * BLOCK_SIZE * 8 →
    bitOf (m.flush garbage).bytes (m.num_inode_bm_blocks_ * BLOCK_SIZE * 8 + i) = true
  inodes : SameBits (m.remount garbage).inode_bitmap_ m.inode_bitmap_
  zones : SameBits (m.remount garbage).zone_bitmap_ m.zone_bitmap_

variable {m : MinixStorageManager} {garbage : ℕ → Byte} {i : ℕ}

/-- Where the zone bitmap is written. -/
def zoneStart (m : MinixStorageManager) : ℕ :=
  max (m.inode_bitmap_.size_ / 8 + 1) (m.num_inode_bm_blocks_ * BLOCK_SIZE)

/-- `flush` stays in its buffer if there is room for one more byte in both bitmaps. -/
theorem flush_inside : (m.flush garbage).overrun = false ↔
    m.inode_bitmap_.size_ / 8 < m.num_inode_bm_blocks_ * BLOCK_SIZE ∧
      m.zone_bitmap_.size_ / 8 < m.num_zone_bm_blocks_ * BLOCK_SIZE := by
  unfold MinixStorageManager.flush
  dsimp only
  rw [flushBitmap_overrun, flushBitmap_overrun, flushBitmap_length, flushBitmap_end,
    flushBitmap_end, Bool.false_or, Bool.or_eq_false_iff, decide_eq_false_iff_not,
    decide_eq_false_iff_not]
  dsimp only
  rw [Nat.add_mul]
  omega

/-- The part of the buffer that the inode bitmap is read from. -/
theorem flush_inodes (hin : i < zoneStart m) : (m.flush garbage).bytes i =
    if i < m.inode_bitmap_.size_ / 8 then m.inode_bitmap_.getByte i
    else if i = m.inode_bitmap_.size_ / 8 then 0 else 0xff := by
  unfold MinixStorageManager.flush
  dsimp only
  unfold zoneStart at hin
  rw [flushBitmap_bytes, flushBitmap_end, if_neg (by omega), flushBitmap_bytes, flushBitmap_end,
    if_pos (by omega), Nat.zero_add, Nat.sub_zero]

theorem flush_zones (hin : i < m.num_zone_bm_blocks_ * BLOCK_SIZE) :
    (m.flush garbage).bytes (zoneStart m + i) =
      if i < m.zone_bitmap_.size_ / 8 then m.zone_bitmap_.getByte i
      else if i = m.zone_bitmap_.size_ / 8 then 0 else 0xff := by
  unfold MinixStorageManager.flush
  dsimp only
  have hstart : (flushBitmap m.inode_bitmap_ m.num_inode_bm_blocks_ 0
      ⟨(m.num_inode_bm_blocks_ + m.num_zone_bm_blocks_) * BLOCK_SIZE, garbage, false⟩).2 =
      zoneStart m := by
    rw [flushBitmap_end, Nat.zero_add]
    rfl
  rw [flushBitmap_bytes, hstart, flushBitmap_end, if_pos (by omega), Nat.add_sub_cancel_left]
  congr 1
  · apply propext
    omega
  · congr 1
    apply propext
    omega

/-- No flush keeps the bitmaps: either it leaves its buffer, or the byte behind the full bytes
of the inode bitmap has no padding. -/
theorem flush_never_survives (m : MinixStorageManager) (garbage : ℕ → Byte) :
    ¬Survives m garbage := by
  intro h
  obtain ⟨hroom, -⟩ := flush_inside.mp h.inside
  have hpad := h.inodePadding m.inode_bitmap_.size_ le_rfl (by omega)
  have hbyte : (m.flush garbage).bytes (m.inode_bitmap_.size_ / 8) = _ := flush_inodes
    (lt_of_lt_of_le hroom (le_max_right _ _))
  rw [if_neg (by omega), if_pos rfl] at hbyte
  rw [bitOf, hbyte] at hpad
  exact absurd (hpad.symm.trans BitVec.getLsbD_zero) (by decide)

/-- Twelve inodes and twelve zones; inode 9 is in use. -/
def twelve : MinixStorageManager where
  inode_bitmap_ := ((Bitmap.new 12).setBit 9).2
  zone_bitmap_ := Bitmap.new 12
  curr_zone_pos_ := 0
  curr_inode_pos_ := 9
  num_inode_bm_blocks_ := 1
  num_zone_bm_blocks_ := 1

theorem twelve_loses_inode : ¬(Bitmap.getBit (twelve.remount fun _ => 0).inode_bitmap_.bitmap_ 9 =
    Bitmap.getBit twelve.inode_bitmap_.bitmap_ 9) ∧ ¬Survives twelve fun _ => 0 := by
  have hlost : Bitmap.getBit (twelve.remount fun _ => 0).inode_bitmap_.bitmap_ 9 = false := by
    decide +kernel
  have hset : Bitmap.getBit twelve.inode_bitmap_.bitmap_ 9 = true := by decide +kernel
  have hdiff : ¬(Bitmap.getBit (twelve.remount fun _ => 0).inode_bitmap_.bitmap_ 9 =
      Bitmap.getBit twelve.inode_bitmap_.bitmap_ 9) := by
    rw [hlost, hset]
    decide
  exact ⟨hdiff, fun h => hdiff (h.inodes.bits 9 (by decide))⟩

/-! ### What a remount does keep -/

/-- A remount takes over the bits of the full bytes and clears the others. -/
theorem remount_bits (hinside : (m.flush garbage).overrun = false) :
    (∀ i < m.inode_bitmap_.size_, Bitmap.getBit (m.remount garbage).inode_bitmap_.bitmap_ i =
      (Bitmap.getBit m.inode_bitmap_.bitmap_ i && decide (i / 8 < m.inode_bitmap_.size_ / 8))) ∧
    (∀ i < m.zone_bitmap_.size_, Bitmap.getBit (m.remount garbage).zone_bitmap_.bitmap_ i =
      (Bitmap.getBit m.zone_bitmap_.bitmap_ i && decide (i / 8 < m.zone_bitmap_.size_ / 8))) := by
  obtain ⟨hinodes, hzones⟩ := flush_inside.mp hinside
  have hstart : zoneStart m = m.num_inode_bm_blocks_ * BLOCK_SIZE := max_eq_right hinodes
  have hbyte : ∀ (bm : Bitmap) (k : ℕ), k < bm.size_ →
      (if k / 8 < bm.size_ / 8 then bm.getByte (k / 8)
        else if k / 8 = bm.size_ / 8 then 0 else 0xff : Byte).getLsbD (k % 8) =
      (Bitmap.getBit bm.bitmap_ k && decide (k / 8 < bm.size_ / 8)) := by
    intro bm k hk
    by_cases hfull : k / 8 < bm.size_ / 8
    · rw [if_pos hfull, decide_eq_true hfull, Bool.and_true, Bitmap.getBit_eq]
      rfl
    · rw [if_neg hfull, if_pos (by omega), decide_eq_false hfull, Bool.and_false]
      exact BitVec.getLsbD_zero
  constructor
  · intro i hi
    have hload := (loadBitmap_spec (m.flush garbage).bytes 0 m.inode_bitmap_.size_).2.2 i hi
    rw [Nat.zero_add, flush_inodes (by rw [hstart]; omega), hbyte _ _ hi] at hload
    exact hload
  · intro i hi
    have hload := (loadBitmap_spec (m.flush garbage).bytes
      (m.num_inode_bm_blocks_ * BLOCK_SIZE) m.zone_bitmap_.size_).2.2 i hi
    rw [← hstart, flush_zones (by omega), hbyte _ _ hi, hstart] at hload
    exact hload

/-- The bitmaps come back exactly if the bits of a trailing partial byte are all clear. -/
theorem remount_same_iff (hi : m.inode_bitmap_.Ok) (hz : m.zone_bitmap_.Ok)
    (hinside : (m.flush garbage).overrun = false) :
    SameBits (m.remount garbage).inode_bitmap_ m.inode_bitmap_ ∧
      SameBits (m.remount garbage).zone_bitmap_ m.zone_bitmap_ ↔
    (∀ i < m.inode_bitmap_.size_, m.inode_bitmap_.size_ / 8 ≤ i / 8 →
      Bitmap.getBit m.inode_bitmap_.bitmap_ i = false) ∧
    (∀ i < m.zone_bitmap_.size_, m.zone_bitmap_.size_ / 8 ≤ i / 8 →
      Bitmap.getBit m.zone_bitmap_.bitmap_ i = false) := by
  obtain ⟨hib, hzb⟩ := remount_bits hinside
  have hone : ∀ {bytes : ℕ → Byte} {pos : ℕ} {bm : Bitmap}, bm.Ok →
      (∀ i < bm.size_, Bitmap.getBit (loadBitmap bytes pos bm.size_).bitmap_ i =
        (Bitmap.getBit bm.bitmap_ i && decide (i / 8 < bm.size_ / 8))) →
      (SameBits (loadBitmap bytes pos bm.size_) bm ↔
        ∀ i < bm.size_, bm.size_ / 8 ≤ i / 8 → Bitmap.getBit bm.bitmap_ i = false) := by
    intro bytes pos bm hok hbits
    constructor
    · intro h i hi hlast
      rw [← h.bits i hi, hbits i hi, decide_eq_false (by omega), Bool.and_false]
    · intro h
      have hsame : ∀ i < bm.size_, Bitmap.getBit (loadBitmap bytes pos bm.size_).bitmap_ i =
          Bitmap.getBit bm.bitmap_ i := by
        intro i hi
        rw [hbits i hi]
        by_cases hfull : i / 8 < bm.size_ / 8
        · rw [decide_eq_true hfull, Bool.and_true]
        · rw [h i hi (by omega), Bool.false_and]
      obtain ⟨hload, hsize, -⟩ := loadBitmap_spec bytes pos bm.size_
      refine ⟨hsame, ?_⟩
      rw [hload.count, hok.count, hsize]
      exact Bitmap.count_congr hsame
  exact and_congr (hone hi hib) (hone hz hzb)

end KPanic.Minix

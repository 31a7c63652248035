import Mathlib.Data.Nat.Count
import Mathlib.Tactic.Common

/-!
# `common/source/util/Bitmap.cpp`

Bits are packed eight to a byte; `num_bits_set_` is kept up to date by the operations and not
recomputed. `Bitmap.Ok` is what the constructor establishes and the operations preserve.
-/

namespace KPanic

abbrev Byte := BitVec 8

def bits_per_bitmap_atom_ : ℕ := 8

/-- `BITMAP_BYTE_COUNT` -/
def bitmapByteCount (number_of_bits : ℕ) : ℕ :=
  number_of_bits / bits_per_bitmap_atom_ + if number_of_bits % bits_per_bitmap_atom_ > 0 then 1 else 0

structure Bitmap where
  size_ : ℕ
  num_bits_set_ : ℕ
  bitmap_ : List Byte

namespace Bitmap

/-- The macro `MASK`. -/
def mask (bit_number : ℕ) : Byte := 1#8 <<< (bit_number % bits_per_bitmap_atom_)

/-- The macro `BYTE`. -/
def byte (b : List Byte) (bit_number : ℕ) : Byte := b.getD (bit_number / bits_per_bitmap_atom_) 0

def new (number_of_bits : ℕ) : Bitmap :=
  ⟨number_of_bits, 0, List.replicate (bitmapByteCount number_of_bits) 0⟩

def getBit (b : List Byte) (bit_number : ℕ) : Bool := (byte b bit_number &&& mask bit_number) != 0

/-- Returns whether the bit was clear before. -/
def setBit (bm : Bitmap) (bit_number : ℕ) : Bool × Bitmap :=
  if !getBit bm.bitmap_ bit_number then
    (true, { bm with
      bitmap_ := bm.bitmap_.set (bit_number / bits_per_bitmap_atom_)
        (byte bm.bitmap_ bit_number ||| mask bit_number)
      num_bits_set_ := bm.num_bits_set_ + 1 })
  else (false, bm)

/-- Returns whether the bit was set before. -/
def unsetBit (bm : Bitmap) (bit_number : ℕ) : Bool × Bitmap :=
  if getBit bm.bitmap_ bit_number then
    (true, { bm with
      bitmap_ := bm.bitmap_.set (bit_number / bits_per_bitmap_atom_)
        (byte bm.bitmap_ bit_number &&& ~~~mask bit_number)
      num_bits_set_ := bm.num_bits_set_ - 1 })
  else (false, bm)

def BIT_COUNT : List ℕ :=
  [0, 1, 1, 2, 1, 2, 2, 3, 1, 2, 2, 3, 2, 3, 3, 4, 1, 2, 2, 3, 2, 3, 3, 4, 2, 3, 3, 4, 3, 4, 4, 5,
   1, 2, 2, 3, 2, 3, 3, 4, 2, 3, 3, 4, 3, 4, 4, 5, 2, 3, 3, 4, 3, 4, 4, 5, 3, 4, 4, 5, 4, 5, 5, 6,
   1, 2, 2, 3, 2, 3, 3, 4, 2, 3, 3, 4, 3, 4, 4, 5, 2, 3, 3, 4, 3, 4, 4, 5, 3, 4, 4, 5, 4, 5, 5, 6,
   2, 3, 3, 4, 3, 4, 4, 5, 3, 4, 4, 5, 4, 5, 5, 6, 3, 4, 4, 5, 4, 5, 5, 6, 4, 5, 5, 6, 5, 6, 6, 7,
   1, 2, 2, 3, 2, 3, 3, 4, 2, 3, 3, 4, 3, 4, 4, 5, 2, 3, 3, 4, 3, 4, 4, 5, 3, 4, 4, 5, 4, 5, 5, 6,
   2, 3, 3, 4, 3, 4, 4, 5, 3, 4, 4, 5, 4, 5, 5, 6, 3, 4, 4, 5, 4, 5, 5, 6, 4, 5, 5, 6, 5, 6, 6, 7,
   2, 3, 3, 4, 3, 4, 4, 5, 3, 4, 4, 5, 4, 5, 5, 6, 3, 4, 4, 5, 4, 5, 5, 6, 4, 5, 5, 6, 5, 6, 6, 7,
   3, 4, 4, 5, 4, 5, 5, 6, 4, 5, 5, 6, 5, 6, 6, 7, 4, 5, 5, 6, 5, 6, 6, 7, 5, 6, 6, 7, 6, 7, 7, 8]

def setByte (bm : Bitmap) (byte_number : ℕ) (w : Byte) : Bitmap :=
  { bm with
    num_bits_set_ := bm.num_bits_set_ - BIT_COUNT.getD (bm.bitmap_.getD byte_number 0).toNat 0 +
      BIT_COUNT.getD w.toNat 0
    bitmap_ := bm.bitmap_.set byte_number w }

def getByte (bm : Bitmap) (byte_number : ℕ) : Byte := bm.bitmap_.getD byte_number 0

def getNumFreeBits (bm : Bitmap) : ℕ := bm.size_ - bm.num_bits_set_

/-- The bytes cover the bits, and `num_bits_set_` counts them. -/
structure Ok (bm : Bitmap) : Prop where
  length : bm.bitmap_.length = bitmapByteCount bm.size_
  count : bm.num_bits_set_ = Nat.count (fun i => getBit bm.bitmap_ i) bm.size_

/-- A mask has one bit. -/
theorem mask_bit (i k : ℕ) : (mask i).getLsbD k = decide (k = i % 8) := by
  have hm : i % 8 < 8 := Nat.mod_lt _ (by decide)
  rw [mask, bits_per_bitmap_atom_, ← BitVec.twoPow_eq, BitVec.getLsbD_twoPow]
  simp [hm, eq_comm]

theorem getBit_eq (b : List Byte) (i : ℕ) : getBit b i = (byte b i).getLsbD (i % 8) := by
  have hm : i % 8 < 8 := Nat.mod_lt _ (by decide)
  have hmask : mask i ≠ 0 := by
    intro h
    have hbit := mask_bit i (i % 8)
    rw [h] at hbit
    simp at hbit
  unfold getBit
  generalize byte b i = w
  have hand : w &&& mask i = if w.getLsbD (i % 8) then mask i else 0 := by
    rw [mask, bits_per_bitmap_atom_, ← BitVec.twoPow_eq, BitVec.and_twoPow]
    rfl
  rw [hand]
  cases w.getLsbD (i % 8) with
  | false => rfl
  | true => simpa using hmask

theorem byte_index_lt {size i : ℕ} (h : i < size) : i / 8 < bitmapByteCount size := by
  unfold bitmapByteCount bits_per_bitmap_atom_
  split <;> omega

theorem byte_set (b : List Byte) (w : Byte) (i j : ℕ) (hi : i / 8 < b.length) :
    byte (b.set (i / 8) w) j = if j / 8 = i / 8 then w else byte b j := by
  simp only [byte, bits_per_bitmap_atom_, List.getD_eq_getElem?_getD, List.getElem?_set]
  split_ifs with h1 h2 h2
  · simp
  · omega
  · omega
  · rfl

theorem getBit_set_of (f : Byte → Byte) (v : Bool) (b : List Byte) (i j : ℕ)
    (hi : i / 8 < b.length) (hv : (f (byte b i)).getLsbD (i % 8) = v)
    (hother : ∀ k < 8, k ≠ i % 8 → (f (byte b i)).getLsbD k = (byte b i).getLsbD k) :
    getBit (b.set (i / 8) (f (byte b i))) j = if j = i then v else getBit b j := by
  rw [getBit_eq, getBit_eq, byte_set b _ i j hi]
  have hj : j % 8 < 8 := Nat.mod_lt _ (by decide)
  split_ifs with h1 h2 h2
  · rw [h2, hv]
  · have hbyte : byte b j = byte b i := by simp only [byte, bits_per_bitmap_atom_, h1]
    rw [hother _ hj (by omega), hbyte]
  · omega
  · rfl

theorem getBit_setBit {bm : Bitmap} (h : bm.Ok) {i : ℕ} (hi : i < bm.size_) (j : ℕ) :
    getBit (bm.setBit i).2.bitmap_ j = if j = i then true else getBit bm.bitmap_ j := by
  have hlen : i / 8 < bm.bitmap_.length := by
    rw [h.length]
    exact byte_index_lt hi
  unfold setBit
  split
  · refine getBit_set_of (fun w => w ||| mask i) true _ i j hlen ?_ ?_
    · rw [BitVec.getLsbD_or, mask_bit, decide_eq_true rfl, Bool.or_true]
    · intro k hk hne
      rw [BitVec.getLsbD_or, mask_bit, decide_eq_false hne, Bool.or_false]
  · split
    · simp_all
    · rfl

theorem getBit_unsetBit {bm : Bitmap} (h : bm.Ok) {i : ℕ} (hi : i < bm.size_) (j : ℕ) :
    getBit (bm.unsetBit i).2.bitmap_ j = if j = i then false else getBit bm.bitmap_ j := by
  have hlen : i / 8 < bm.bitmap_.length := by
    rw [h.length]
    exact byte_index_lt hi
  unfold unsetBit
  split
  · refine getBit_set_of (fun w => w &&& ~~~mask i) false _ i j hlen ?_ ?_
    · rw [BitVec.getLsbD_and, BitVec.getLsbD_not, mask_bit, decide_eq_true rfl, Bool.not_true,
        Bool.and_false, Bool.and_false]
    · intro k hk hne
      rw [BitVec.getLsbD_and, BitVec.getLsbD_not, mask_bit, decide_eq_false hne, Bool.not_false,
        decide_eq_true hk, Bool.and_true, Bool.and_true]
  · split
    · simp_all
    · rfl

/-- Setting one more bit adds one to the count. -/
theorem count_set {p q : ℕ → Bool} {i n : ℕ} (hi : i < n) (hp : p i = false)
    (hq : ∀ j, q j = if j = i then true else p j) :
    Nat.count (fun j => q j) n = Nat.count (fun j => p j) n + 1 := by
  have hbelow : ∀ m ≤ i, Nat.count (fun j => q j) m = Nat.count (fun j => p j) m := by
    intro m hm
    induction m with
    | zero => simp
    | succ m ih =>
      have hqp : q m = p m := by rw [hq m, if_neg (by omega)]
      rw [Nat.count_succ, Nat.count_succ, ih (by omega), hqp]
  induction n, hi using Nat.le_induction with
  | base =>
    have hqi : q i = true := by rw [hq i, if_pos rfl]
    rw [Nat.count_succ, Nat.count_succ, hbelow i le_rfl, hqi, hp]
    simp
  | succ n hn ih =>
    have hqp : q n = p n := by rw [hq n, if_neg (by omega)]
    rw [Nat.count_succ, Nat.count_succ, ih, hqp]
    omega

theorem setBit_ok {bm : Bitmap} (h : bm.Ok) {i : ℕ} (hi : i < bm.size_) : (bm.setBit i).2.Ok := by
  have hbits := getBit_setBit h hi
  unfold setBit at hbits ⊢
  split
  · rename_i hclear
    rw [if_pos hclear] at hbits
    have hclear : getBit bm.bitmap_ i = false := by simpa using hclear
    exact ⟨by simpa using h.length, by rw [h.count]; exact (count_set hi hclear hbits).symm⟩
  · exact h

theorem unsetBit_ok {bm : Bitmap} (h : bm.Ok) {i : ℕ} (hi : i < bm.size_) :
    (bm.unsetBit i).2.Ok := by
  have hbits := getBit_unsetBit h hi
  unfold unsetBit at hbits ⊢
  split
  · rename_i hset
    rw [if_pos hset] at hbits
    refine ⟨by simpa using h.length, ?_⟩
    rw [h.count]
    have hback : ∀ j, getBit bm.bitmap_ j = if j = i then true else
        getBit (bm.bitmap_.set (i / bits_per_bitmap_atom_) (byte bm.bitmap_ i &&& ~~~mask i)) j := by
      intro j
      rw [hbits j]
      split_ifs with hj
      · rw [hj, hset]
      · rfl
    have hi' := hbits i
    rw [if_pos rfl] at hi'
    rw [count_set hi hi' hback]
    rfl
  · exact h

@[simp] theorem setBit_size (bm : Bitmap) (i : ℕ) : (bm.setBit i).2.size_ = bm.size_ := by
  unfold setBit
  split <;> rfl

@[simp] theorem unsetBit_size (bm : Bitmap) (i : ℕ) : (bm.unsetBit i).2.size_ = bm.size_ := by
  unfold unsetBit
  split <;> rfl

@[simp] theorem setByte_size (bm : Bitmap) (i : ℕ) (w : Byte) : (bm.setByte i w).size_ = bm.size_ :=
  rfl

theorem getBit_setByte {bm : Bitmap} {i : ℕ} (hi : i < bm.bitmap_.length) (w : Byte) (j : ℕ) :
    getBit (bm.setByte i w).bitmap_ j = if j / 8 = i then w.getLsbD (j % 8)
      else getBit bm.bitmap_ j := by
  have hbyte := byte_set bm.bitmap_ w (8 * i) j (by omega)
  rw [Nat.mul_div_cancel_left i (by decide)] at hbyte
  rw [getBit_eq, getBit_eq]
  show (byte (bm.bitmap_.set i w) j).getLsbD (j % 8) = _
  rw [hbyte]
  split
  · rfl
  · rfl

/-- `BIT_COUNT` counts bits. -/
theorem BIT_COUNT_eq (w : Byte) :
    BIT_COUNT.getD w.toNat 0 = Nat.count (fun k => w.getLsbD k) 8 := by
  have h : ∀ w : Byte, BIT_COUNT.getD w.toNat 0 = Nat.count (fun k => w.getLsbD k) 8 := by
    decide +kernel
  exact h w

theorem count_congr {p q : ℕ → Bool} {n : ℕ} (h : ∀ i < n, p i = q i) :
    Nat.count (fun i => p i) n = Nat.count (fun i => q i) n := by
  induction n with
  | zero => rfl
  | succ n ih => rw [Nat.count_succ, Nat.count_succ, ih fun i hi => h i (by omega), h n (by omega)]

/-- The bits below, in, and above a full byte. -/
theorem count_byte (p : ℕ → Bool) {i n : ℕ} (hn : 8 * i + 8 ≤ n) :
    Nat.count (fun j => p j) n = Nat.count (fun j => p j) (8 * i) +
      Nat.count (fun k => p (8 * i + k)) 8 + Nat.count (fun k => p (8 * i + 8 + k)) (n - (8 * i + 8)) := by
  have hsplit : n = 8 * i + 8 + (n - (8 * i + 8)) := by omega
  conv_lhs => rw [hsplit]
  rw [Nat.count_add, Nat.count_add]

theorem setByte_ok {bm : Bitmap} (h : bm.Ok) {i : ℕ} (hi : 8 * i + 8 ≤ bm.size_) (w : Byte) :
    (bm.setByte i w).Ok := by
  have hlen : i < bm.bitmap_.length := by
    rw [h.length]
    have hbyte : 8 * i / 8 < bitmapByteCount bm.size_ := byte_index_lt (by omega)
    omega
  have hbits := getBit_setByte hlen w
  refine ⟨by rw [setByte_size, ← h.length]; exact List.length_set, ?_⟩
  rw [setByte_size, count_byte _ hi]
  have hold := h.count
  rw [count_byte _ hi] at hold
  have hbelow : Nat.count (fun j => getBit (bm.setByte i w).bitmap_ j) (8 * i) =
      Nat.count (fun j => getBit bm.bitmap_ j) (8 * i) := by
    refine count_congr fun j hj => ?_
    rw [hbits, if_neg (by omega)]
  have habove : Nat.count (fun k => getBit (bm.setByte i w).bitmap_ (8 * i + 8 + k))
      (bm.size_ - (8 * i + 8)) = Nat.count (fun k => getBit bm.bitmap_ (8 * i + 8 + k))
        (bm.size_ - (8 * i + 8)) := by
    refine count_congr fun k _ => ?_
    rw [hbits, if_neg (by omega)]
  have hnew : Nat.count (fun k => getBit (bm.setByte i w).bitmap_ (8 * i + k)) 8 =
      BIT_COUNT.getD w.toNat 0 := by
    rw [BIT_COUNT_eq]
    refine count_congr fun k hk => ?_
    rw [hbits, if_pos (by omega), Nat.mul_add_mod, Nat.mod_eq_of_lt hk]
  have hgone : Nat.count (fun k => getBit bm.bitmap_ (8 * i + k)) 8 =
      BIT_COUNT.getD (bm.bitmap_.getD i 0).toNat 0 := by
    rw [BIT_COUNT_eq]
    refine count_congr fun k hk => ?_
    rw [getBit_eq, Nat.mul_add_mod, Nat.mod_eq_of_lt hk]
    have hdiv : (8 * i + k) / 8 = i := by omega
    rw [byte, bits_per_bitmap_atom_, hdiv]
  rw [hbelow, habove, hnew]
  show bm.num_bits_set_ - BIT_COUNT.getD (bm.bitmap_.getD i 0).toNat 0 +
    BIT_COUNT.getD w.toNat 0 = _
  omega

theorem getBit_new (n i : ℕ) : getBit (new n).bitmap_ i = false := by
  rw [getBit_eq, byte]
  have hzero : (new n).bitmap_.getD (i / bits_per_bitmap_atom_) 0 = 0 := by
    simp only [new, List.getD_eq_getElem?_getD, List.getElem?_replicate]
    split
    · rfl
    · rfl
  rw [hzero]
  exact BitVec.getLsbD_zero

theorem new_ok (n : ℕ) : (new n).Ok := by
  refine ⟨List.length_replicate, ?_⟩
  have hcount := count_congr (p := fun i => getBit (new n).bitmap_ i) (q := fun _ => false) (n := n)
    fun i _ => getBit_new n i
  rw [show (new n).size_ = n from rfl, hcount]
  simp [new]

/-- Bitmaps that agree on the bits agree on the number of free bits. -/
theorem numFree_congr {a b : Bitmap} (ha : a.Ok) (hb : b.Ok) (hs : a.size_ = b.size_)
    (h : ∀ i < a.size_, getBit a.bitmap_ i = getBit b.bitmap_ i) :
    a.getNumFreeBits = b.getNumFreeBits := by
  have hc : Nat.count (fun i => getBit a.bitmap_ i) a.size_ =
      Nat.count (fun i => getBit b.bitmap_ i) a.size_ := count_congr h
  rw [getNumFreeBits, getNumFreeBits, ha.count, hb.count, hc, hs]

end Bitmap

end KPanic

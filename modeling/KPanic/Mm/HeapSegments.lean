import KPanic.Mm.KernelMemoryManager
import Mathlib.Data.Nat.Bitwise

/-!
# The segments in memory

A list of segments describes the heap: the memory holds their headers, linked both ways, and the
segments tile the heap. A write to one header leaves the others alone.
-/

namespace KPanic.Heap

open Bytes Wp MallocSegment

structure Segment where
  addr : ℕ
  size : ℕ
  used : Bool

namespace Segment

def body (x : Segment) : ℕ := x.addr + 56

def stop (x : Segment) : ℕ := x.addr + 56 + x.size

/-- `size_flag_` -/
def flag (x : Segment) : ℕ := x.size + if x.used then 2 ^ 31 else 0

end Segment

/-- The header of `x` with its links; the other fields do not matter here. -/
structure Header (m : Memory) (x : Segment) (prev next : ℕ) : Prop where
  marker : load 8 m x.addr = marker x.addr
  next : load 8 m (x.addr + 8) = next
  prev : load 8 m (x.addr + 16) = prev
  flag : load 8 m (x.addr + 48) = x.flag

variable {m m' : Memory} {x y : Segment} {p n a e v : ℕ} {l r : List Segment}

theorem Header.congr (h : Header m x p n) (hm : ∀ b, x.addr ≤ b → b < x.addr + 56 → m' b = m b) :
    Header m' x p n :=
  ⟨(load_congr fun b hb hlt => hm b hb (by omega)).trans h.marker,
    (load_congr fun b hb hlt => hm b (by omega) (by omega)).trans h.next,
    (load_congr fun b hb hlt => hm b (by omega) (by omega)).trans h.prev,
    (load_congr fun b hb hlt => hm b (by omega) (by omega)).trans h.flag⟩

theorem Header.keep (h : Header m x p n) (ha : x.addr + 56 ≤ a ∨ a + 8 ≤ x.addr) :
    Header (store 8 m a v) x p n :=
  h.congr fun _ _ _ => store_apart (by omega)

theorem Header.setNext (h : Header m x p n) (hv : v < 2 ^ 64) :
    Header (store 8 m (x.addr + 8) v) x p v :=
  ⟨(load_store_apart (by omega)).trans h.marker, store_of_lt hv,
    (load_store_apart (by omega)).trans h.prev, (load_store_apart (by omega)).trans h.flag⟩

theorem Header.setPrev (h : Header m x p n) (hv : v < 2 ^ 64) :
    Header (store 8 m (x.addr + 16) v) x v n :=
  ⟨(load_store_apart (by omega)).trans h.marker, (load_store_apart (by omega)).trans h.next,
    store_of_lt hv, (load_store_apart (by omega)).trans h.flag⟩

theorem Header.setFlag (h : Header m x p n) (hy : y.addr = x.addr) (hv : y.flag < 2 ^ 64) :
    Header (store 8 m (x.addr + 48) y.flag) y p n := by
  constructor
  · rw [hy]
    exact (load_store_apart (by omega)).trans h.marker
  · rw [hy]
    exact (load_store_apart (by omega)).trans h.next
  · rw [hy]
    exact (load_store_apart (by omega)).trans h.prev
  · rw [hy]
    exact store_of_lt hv

/-- The fields that a header does not fix. -/
theorem Header.setOther (h : Header m x p n) (ha : x.addr + 24 ≤ a) (ha' : a + 8 ≤ x.addr + 48) :
    Header (store 8 m a v) x p n :=
  ⟨(load_store_apart (by omega)).trans h.marker, (load_store_apart (by omega)).trans h.next,
    (load_store_apart (by omega)).trans h.prev, (load_store_apart (by omega)).trans h.flag⟩

/-! ### Lists of segments -/

def headAddr : List Segment → ℕ → ℕ
  | [], n => n
  | x :: _, _ => x.addr

def lastAddr : ℕ → List Segment → ℕ
  | p, [] => p
  | _, x :: l => lastAddr x.addr l

/-- The headers of `l` are linked; `p` comes before the first and `n` after the last. -/
def Linked (m : Memory) : ℕ → List Segment → ℕ → Prop
  | _, [], _ => True
  | p, x :: l, n => Header m x p (headAddr l n) ∧ Linked m x.addr l n

/-- `l` fills the addresses from `a` to `e`. -/
def Tiles : ℕ → List Segment → ℕ → Prop
  | a, [], e => a = e
  | a, x :: l, e => x.addr = a ∧ Tiles x.stop l e

theorem headAddr_append (l r : List Segment) (n : ℕ) :
    headAddr (l ++ r) n = headAddr l (headAddr r n) := by
  cases l with
  | nil => rfl
  | cons x l => rfl

theorem lastAddr_append (p : ℕ) (l r : List Segment) :
    lastAddr p (l ++ r) = lastAddr (lastAddr p l) r := by
  induction l generalizing p with
  | nil => rfl
  | cons x l ih => exact ih x.addr

theorem linked_append :
    Linked m p (l ++ r) n ↔ Linked m p l (headAddr r n) ∧ Linked m (lastAddr p l) r n := by
  induction l generalizing p with
  | nil => exact ⟨fun h => ⟨trivial, h⟩, fun h => h.2⟩
  | cons x l ih => rw [List.cons_append, Linked, ih, headAddr_append, Linked, and_assoc, lastAddr]

theorem Linked.congr (h : Linked m p l n)
    (hm : ∀ x ∈ l, ∀ b, x.addr ≤ b → b < x.addr + 56 → m' b = m b) : Linked m' p l n := by
  induction l generalizing p with
  | nil => trivial
  | cons x l ih =>
    exact ⟨h.1.congr (hm x List.mem_cons_self), ih h.2 fun y hy => hm y (List.mem_cons_of_mem _ hy)⟩

theorem tiles_append {c : ℕ} :
    Tiles a (l ++ r) c ↔ ∃ e, Tiles a l e ∧ Tiles e r c := by
  induction l generalizing a with
  | nil => exact ⟨fun h => ⟨a, rfl, h⟩, fun ⟨e, he, h⟩ => he ▸ h⟩
  | cons x l ih =>
    rw [List.cons_append, Tiles, ih]
    constructor
    · rintro ⟨hx, e, hl, hr⟩
      exact ⟨e, ⟨hx, hl⟩, hr⟩
    · rintro ⟨e, ⟨hx, hl⟩, hr⟩
      exact ⟨hx, e, hl, hr⟩

theorem Tiles.le (h : Tiles a l e) : a ≤ e := by
  induction l generalizing a with
  | nil => exact h.le
  | cons x l ih =>
    have hle := ih h.2
    have hx := h.1
    unfold Segment.stop at hle
    omega

theorem Tiles.mem (h : Tiles a l e) (hx : x ∈ l) : a ≤ x.addr ∧ x.stop ≤ e := by
  induction l generalizing a with
  | nil => cases hx
  | cons y l ih =>
    have hy := h.1
    obtain rfl | hx := List.mem_cons.mp hx
    · exact ⟨hy.ge, h.2.le⟩
    · have hmem := ih h.2 hx
      unfold Segment.stop at hmem ⊢
      omega

/-- The bytes of the headers. -/
def HeaderByte (l : List Segment) (b : ℕ) : Prop := ∃ x ∈ l, x.addr ≤ b ∧ b < x.addr + 56

/-! ### `size_flag_` -/

theorem and_size (v : ℕ) : v &&& 0x7FFFFFFF = v % 2 ^ 31 := Nat.and_two_pow_sub_one_eq_mod v 31

theorem flag_mod (h : x.size < 2 ^ 31) : x.flag % 2 ^ 31 = x.size := by
  unfold Segment.flag
  split <;> omega

theorem flag_lt (h : x.size < 2 ^ 31) : x.flag < 2 ^ 64 := by
  unfold Segment.flag
  split <;> omega

theorem flag_and_used (h : x.size < 2 ^ 31) :
    x.flag &&& 0x80000000 = if x.used then 2 ^ 31 else 0 := by
  have hand := Nat.and_two_pow x.flag 31
  rw [show (0x80000000 : ℕ) = 2 ^ 31 by rfl, hand, Segment.flag]
  cases x.used with
  | true =>
    simp only [↓reduceIte]
    rw [Nat.add_comm, Nat.testBit_two_pow_add_eq, Nat.testBit_lt_two_pow h]
    rfl
  | false =>
    simp only [Bool.false_eq_true, ↓reduceIte, Nat.add_zero]
    rw [Nat.testBit_lt_two_pow h]
    rfl

theorem or_used {v : ℕ} (h : v < 2 ^ 31) : v ||| 0x80000000 = v + 2 ^ 31 := by
  have hor := Nat.two_pow_add_eq_or_of_lt h 1
  rw [mul_one] at hor
  rw [Nat.or_comm, Nat.add_comm]
  exact hor.symm

theorem used_or {b : Bool} {v : ℕ} :
    (if b then 2 ^ 31 else 0) ||| v % 2 ^ 31 = v % 2 ^ 31 + if b then 2 ^ 31 else 0 := by
  cases b with
  | true =>
    have h := or_used (v := v % 2 ^ 31) (Nat.mod_lt v (by decide))
    rw [Nat.or_comm]
    exact h
  | false => simp

/-! ### The accesses -/

variable {s : KernelMemoryManager} {allowed : Failure → Prop} {Q : PUnit → KernelMemoryManager → Prop}

@[simp] theorem wp_read {f : Field} {Q : ℕ → KernelMemoryManager → Prop} :
    wp allowed (read a f) Q s ↔ Q (load 8 s.mem (a + f.offset)) s := by
  rw [MallocSegment.read, wp_bind, wp_get, wp_pure]

@[simp] theorem wp_write {f : Field} :
    wp allowed (write a f v) Q s ↔ Q ⟨⟩ { s with mem := store 8 s.mem (a + f.offset) v } :=
  wp_modify _ _

theorem wp_require {c : Prop} [Decidable c] {err : Failure} (hc : c) (h : Q ⟨⟩ s) :
    wp allowed (require c err) Q s := by
  rw [require, if_pos hc]
  exact (wp_pure _).mpr h

theorem wp_markerOk (h : Header s.mem x p n) (ha : x.addr = a)
    {Q : Bool → KernelMemoryManager → Prop} (hQ : Q true s) : wp allowed (markerOk a) Q s := by
  subst ha
  rw [markerOk, wp_bind, wp_read, wp_pure, Field.offset, Nat.add_zero, h.marker, decide_eq_true rfl]
  exact hQ

theorem wp_checkMarker (h : Header s.mem x p n) (ha : x.addr = a) (ha0 : a ≠ 0) (hQ : Q ⟨⟩ s) :
    wp allowed (checkMarker a) Q s :=
  (wp_bind _ _ _).mpr (wp_require ha0 ((wp_bind _ _ _).mpr (wp_markerOk h ha (wp_require rfl hQ))))

theorem wp_getSize (h : Header s.mem x p n) (ha : x.addr = a) (hx : x.size < 2 ^ 31)
    {Q : ℕ → KernelMemoryManager → Prop} (hQ : Q x.size s) : wp allowed (getSize a) Q s := by
  subst ha
  rw [getSize, wp_bind, wp_read, wp_pure, Field.offset, h.flag, and_size, flag_mod hx]
  exact hQ

theorem wp_getUsed (h : Header s.mem x p n) (ha : x.addr = a) (hx : x.size < 2 ^ 31)
    {Q : Bool → KernelMemoryManager → Prop} (hQ : Q x.used s) : wp allowed (getUsed a) Q s := by
  subst ha
  rw [getUsed, wp_bind, wp_read, wp_pure, Field.offset, h.flag, flag_and_used hx]
  cases hu : x.used with
  | true =>
    rw [hu] at hQ
    exact hQ
  | false =>
    rw [hu] at hQ
    exact hQ

theorem wp_readNext (h : Header s.mem x p n) (ha : x.addr = a)
    {Q : ℕ → KernelMemoryManager → Prop} (hQ : Q n s) : wp allowed (read a .next_) Q s := by
  rw [wp_read, Field.offset, ← ha, h.next]
  exact hQ

theorem wp_readPrev (h : Header s.mem x p n) (ha : x.addr = a)
    {Q : ℕ → KernelMemoryManager → Prop} (hQ : Q p s) : wp allowed (read a .prev_) Q s := by
  rw [wp_read, Field.offset, ← ha, h.prev]
  exact hQ

theorem wp_setSize (h : Header s.mem x p n) (ha : x.addr = a) (hx : x.size < 2 ^ 31)
    (hQ : Q ⟨⟩ { s with mem := store 8 s.mem (a + 48) { x with size := v % 2 ^ 31 }.flag }) :
    wp allowed (setSize a v) Q s := by
  subst ha
  simp only [setSize, wp_bind, wp_read, wp_write, Field.offset, store_store, h.flag]
  have hlt : x.flag &&& 0x80000000 < 256 ^ 8 := by
    rw [flag_and_used hx]
    split <;> decide
  rw [store_of_lt hlt, flag_and_used hx, and_size, used_or]
  exact hQ

theorem wp_setUsed (h : Header s.mem x p n) (ha : x.addr = a) (hx : x.size < 2 ^ 31) {u : Bool}
    (hQ : Q ⟨⟩ { s with mem := store 8 s.mem (a + 48) { x with used := u }.flag }) :
    wp allowed (setUsed a u) Q s := by
  subst ha
  simp only [setUsed, wp_bind, wp_read, wp_write, Field.offset, h.flag, and_size, flag_mod hx]
  cases u with
  | true =>
    rw [if_pos rfl, wp_bind, wp_read, wp_write]
    simp only [Field.offset, store_store]
    rw [store_of_lt (by omega : x.size < 256 ^ 8), or_used hx]
    exact hQ
  | false =>
    rw [if_neg Bool.false_ne_true]
    exact (wp_pure _).mpr hQ

end KPanic.Heap

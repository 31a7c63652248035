import KPanic.Lib.SequentialCopy
import Mathlib.Algebra.Group.Nat.Defs
import Mathlib.Data.List.Range
import Mathlib.Tactic.Common

/-!
# `common/source/util/kstring.cpp`: `memmove` and `bcopy`

Memory keeps a log of its accesses. Pointers have 64 bits, and a range may go on at 0 behind the last
address.
-/

namespace KPanic.Kstring

open Function
open SequentialCopy

abbrev Pointer := BitVec 64

structure Memory where
  bytes : Pointer → UInt8
  reads : List Pointer
  writes : List Pointer

/-- Memory with an empty log. -/
def Memory.new (bytes : Pointer → UInt8) : Memory := ⟨bytes, [], []⟩

/-- `*dest8 = *src8` -/
def Memory.copyByte (m : Memory) (dest8 src8 : Pointer) : Memory where
  bytes := update m.bytes dest8 (m.bytes src8)
  reads := src8 :: m.reads
  writes := dest8 :: m.writes

/-- The loop with `*dest8++ = *src8++`. -/
def copyUp : ℕ → Pointer → Pointer → Memory → Memory
  | 0, _, _, m => m
  | length + 1, dest8, src8, m => copyUp length (dest8 + 1) (src8 + 1) (m.copyByte dest8 src8)

/-- The loop with `*dest8-- = *src8--`. -/
def copyDown : ℕ → Pointer → Pointer → Memory → Memory
  | 0, _, _, m => m
  | length + 1, dest8, src8, m => copyDown length (dest8 - 1) (src8 - 1) (m.copyByte dest8 src8)

def memmove (dest src : Pointer) (length : BitVec 64) (m : Memory) : Pointer × Memory :=
  if length = 0 ∨ src = dest then (dest, m)
  else if src > dest then (dest, copyUp length.toNat dest src m)
  else (dest, copyDown length.toNat (dest + (length - 1)) (src + (length - 1)) m)

def bcopy (src dest : Pointer) (length : BitVec 64) (m : Memory) : Memory :=
  if length = 0 ∨ src = dest then m
  else if src < dest then copyUp length.toNat dest src m
  else copyDown length.toNat (dest + length) (src + length) m

/-! ### The pairs of addresses -/

variable {m : Memory} {bytes : Pointer → UInt8} {dest src a : Pointer} {length : BitVec 64} {n i j : ℕ}

/-- The address `i` behind `p`. -/
def behind (p : Pointer) (i : ℕ) : Pointer := p + BitVec.ofNat 64 i

/-- What a loop copies, when pass `i` is at the `k i`-th byte of both ranges. -/
def pairs (dest src : Pointer) (k : ℕ → ℕ) (n : ℕ) : List (Pointer × Pointer) :=
  (List.range n).map fun i => (behind dest (k i), behind src (k i))

def Memory.copyAll (m : Memory) (l : List (Pointer × Pointer)) : Memory where
  bytes := copySeq l m.bytes
  reads := (l.map Prod.snd).reverse ++ m.reads
  writes := (l.map Prod.fst).reverse ++ m.writes

theorem copyAll_cons (m : Memory) (p : Pointer × Pointer) (l : List (Pointer × Pointer)) :
    m.copyAll (p :: l) = (m.copyByte p.1 p.2).copyAll l := by
  unfold Memory.copyAll
  simp [copySeq, Memory.copyByte]

theorem mem_copyAll_writes {l : List (Pointer × Pointer)} :
    a ∈ ((Memory.new bytes).copyAll l).writes ↔ ∃ p ∈ l, p.1 = a := by
  show a ∈ (l.map Prod.fst).reverse ++ [] ↔ _
  rw [List.append_nil, List.mem_reverse, List.mem_map]

theorem mem_copyAll_reads {l : List (Pointer × Pointer)} :
    a ∈ ((Memory.new bytes).copyAll l).reads ↔ ∃ p ∈ l, p.2 = a := by
  show a ∈ (l.map Prod.snd).reverse ++ [] ↔ _
  rw [List.append_nil, List.mem_reverse, List.mem_map]

theorem behind_zero (p : Pointer) : behind p 0 = p := by
  simp [behind]

theorem behind_add (p : Pointer) (i j : ℕ) : behind (behind p i) j = behind p (i + j) := by
  unfold behind
  rw [BitVec.ofNat_add, BitVec.add_assoc]

theorem behind_inj {p : Pointer} (hi : i < 2 ^ 64) (hj : j < 2 ^ 64) : behind p i = behind p j ↔ i = j := by
  refine ⟨fun h => ?_, fun h => h ▸ rfl⟩
  have heq := congrArg BitVec.toNat ((BitVec.add_right_inj p).mp h)
  rw [BitVec.toNat_ofNat, BitVec.toNat_ofNat, Nat.mod_eq_of_lt hi, Nat.mod_eq_of_lt hj] at heq
  exact heq

theorem pairs_succ (dest src : Pointer) (k : ℕ → ℕ) (n : ℕ) :
    pairs dest src k (n + 1) = (behind dest (k 0), behind src (k 0)) :: pairs dest src (fun i => k (i + 1)) n := by
  unfold pairs
  rw [List.range_succ_eq_map, List.map_cons, List.map_map]
  rfl

theorem copyUp_eq (dest src : Pointer) (n : ℕ) (m : Memory) :
    ∀ i, copyUp n (behind dest i) (behind src i) m = m.copyAll (pairs dest src (fun j => i + j) n) := by
  induction n generalizing m with
  | zero => exact fun _ => rfl
  | succ n ih =>
    intro i
    have hone : ∀ p : Pointer, behind p i + 1 = behind p (i + 1) := fun p => behind_add p i 1
    rw [copyUp, hone, hone, ih, pairs_succ, copyAll_cons]
    simp only [Nat.add_assoc, Nat.add_comm 1, Nat.add_zero]

theorem copyDown_eq (dest src : Pointer) (n : ℕ) (m : Memory) :
    ∀ c, n ≤ c + 1 → copyDown n (behind dest c) (behind src c) m = m.copyAll (pairs dest src (fun j => c - j) n) := by
  induction n generalizing m with
  | zero => exact fun _ _ => rfl
  | succ n ih =>
    intro c hc
    rw [copyDown, pairs_succ, copyAll_cons, Nat.sub_zero]
    cases c with
    | zero =>
      obtain rfl : n = 0 := by omega
      rfl
    | succ c =>
      have hone : ∀ p : Pointer, behind p (c + 1) - 1 = behind p c := by
        intro p
        rw [← behind_add p c 1]
        exact BitVec.add_sub_cancel _ _
      rw [hone, hone, ih _ c (by omega)]
      simp only [Nat.add_sub_add_right]

/-! ### What the loops do -/

/-- The bytes at `src` have been copied to `dest`, and nothing else was accessed. -/
structure Moved (bytes : Pointer → UInt8) (m : Memory) (dest src : Pointer) (n : ℕ) : Prop where
  copied : ∀ i < n, m.bytes (behind dest i) = bytes (behind src i)
  kept : ∀ a, (∀ i < n, a ≠ behind dest i) → m.bytes a = bytes a
  writes : ∀ a ∈ m.writes, ∃ i < n, a = behind dest i
  reads : ∀ a ∈ m.reads, ∃ i < n, a = behind src i

/-- No byte that the forward copy overwrites is read later, unless it is overwritten with its own value. -/
def UpSafe (bytes : Pointer → UInt8) (dest src : Pointer) (n : ℕ) : Prop :=
  ∀ j < n, ∀ i < j, behind dest i = behind src j → bytes (behind src i) = bytes (behind src j)

def DownSafe (bytes : Pointer → UInt8) (dest src : Pointer) (n : ℕ) : Prop :=
  ∀ j < n, ∀ i < j, behind dest j = behind src i → bytes (behind src j) = bytes (behind src i)

/-- A loop that visits each of the `n` bytes once. -/
theorem moved_copyAll_iff {k : ℕ → ℕ} (hn : n ≤ 2 ^ 64) (hk : ∀ i < n, k i < n) (hinj : ∀ i < n, ∀ j < n, k i = k j → i = j)
    (hsurj : ∀ i < n, ∃ j < n, k j = i) : Moved bytes ((Memory.new bytes).copyAll (pairs dest src k n)) dest src n ↔
    ∀ j < n, ∀ i < j, behind dest (k i) = behind src (k j) → bytes (behind src (k i)) = bytes (behind src (k j)) := by
  have hmem : ∀ p, p ∈ pairs dest src k n ↔ ∃ i < n, p = (behind dest (k i), behind src (k i)) := by
    intro p
    simp only [pairs, List.mem_map, List.mem_range, eq_comm]
  have hnodup : ((pairs dest src k n).map Prod.fst).Nodup := by
    rw [pairs, List.map_map]
    refine List.Nodup.map_on ?_ List.nodup_range
    intro i hi j hj heq
    rw [List.mem_range] at hi hj
    exact hinj i hi j hj ((behind_inj (by have := hk i hi; omega) (by have := hk j hj; omega)).mp heq)
  have hpairwise : ((pairs dest src k n).Pairwise fun p q => p.1 = q.2 → bytes p.2 = bytes q.2) ↔
      ∀ j < n, ∀ i < j, behind dest (k i) = behind src (k j) → bytes (behind src (k i)) = bytes (behind src (k j)) := by
    rw [pairs, List.pairwise_map, List.pairwise_iff_getElem]
    simp only [List.length_range, List.getElem_range]
    exact ⟨fun h j hj i hij => h i j (hij.trans hj) hj hij, fun h i j _ hj hij => h j hj i hij⟩
  rw [← hpairwise, ← copySeq_correct_iff hnodup]
  constructor
  · rintro ⟨hcopied, -, -, -⟩ p hp
    obtain ⟨i, hi, rfl⟩ := (hmem p).mp hp
    exact hcopied (k i) (hk i hi)
  · intro h
    refine ⟨fun i hi => ?_, fun a ha => ?_, fun a ha => ?_, fun a ha => ?_⟩
    · obtain ⟨j, hj, rfl⟩ := hsurj i hi
      exact h _ ((hmem _).mpr ⟨j, hj, rfl⟩)
    · refine copySeq_of_notMem fun p hp heq => ?_
      obtain ⟨i, hi, rfl⟩ := (hmem p).mp hp
      exact ha (k i) (hk i hi) heq.symm
    · obtain ⟨p, hp, rfl⟩ := mem_copyAll_writes.mp ha
      obtain ⟨i, hi, rfl⟩ := (hmem p).mp hp
      exact ⟨k i, hk i hi, rfl⟩
    · obtain ⟨p, hp, rfl⟩ := mem_copyAll_reads.mp ha
      obtain ⟨i, hi, rfl⟩ := (hmem p).mp hp
      exact ⟨k i, hk i hi, rfl⟩

theorem moved_copyUp_iff (hn : n ≤ 2 ^ 64) :
    Moved bytes (copyUp n dest src (Memory.new bytes)) dest src n ↔ UpSafe bytes dest src n := by
  have hloop := copyUp_eq dest src n (Memory.new bytes) 0
  rw [behind_zero, behind_zero] at hloop
  simp only [Nat.zero_add] at hloop
  rw [hloop]
  exact moved_copyAll_iff hn (fun _ hi => hi) (fun _ _ _ _ heq => heq) fun i hi => ⟨i, hi, rfl⟩

theorem moved_copyDown_iff (hn : n + 1 ≤ 2 ^ 64) :
    Moved bytes (copyDown (n + 1) (behind dest n) (behind src n) (Memory.new bytes)) dest src (n + 1) ↔
      DownSafe bytes dest src (n + 1) := by
  rw [copyDown_eq dest src (n + 1) _ n le_rfl, moved_copyAll_iff hn (fun i _ => by omega) (fun i _ j _ _ => by omega)
    fun i _ => ⟨n - i, by omega, by omega⟩]
  constructor
  · intro h j hj i hij heq
    have hback := h (n - i) (by omega) (n - j) (by omega)
    rw [Nat.sub_sub_self (by omega), Nat.sub_sub_self (by omega)] at hback
    exact hback heq
  · intro h j hj i hij heq
    exact h (n - i) (by omega) (n - j) (by omega) heq

/-! ### The two functions -/

theorem behind_toNat (p : Pointer) (length : BitVec 64) : p + length = behind p length.toNat := by
  rw [behind, BitVec.ofNat_toNat, BitVec.setWidth_eq]

theorem behind_last (p : Pointer) (hlength : length ≠ 0) : p + (length - 1) = behind p (length.toNat - 1) := by
  have hpos : 1 ≤ length.toNat := Nat.pos_of_ne_zero fun h => hlength (BitVec.eq_of_toNat_eq h)
  have hone : (length - 1).toNat = length.toNat - 1 := BitVec.toNat_sub_of_le hpos
  rw [behind_toNat, hone]

theorem moved_refl (h : length = 0 ∨ src = dest) : Moved bytes (Memory.new bytes) dest src length.toNat := by
  refine ⟨fun i hi => ?_, fun _ _ => rfl, nofun, nofun⟩
  rcases h with rfl | rfl
  · exact absurd hi (Nat.not_lt_zero i)
  · rfl

/-- `memmove` fails only where a range goes over the end of the address space. -/
theorem moved_memmove_iff : Moved bytes (memmove dest src length (Memory.new bytes)).2 dest src length.toNat ↔
    (src > dest → UpSafe bytes dest src length.toNat) ∧ (src < dest → DownSafe bytes dest src length.toNat) := by
  unfold memmove
  split
  · rename_i h
    refine iff_of_true (moved_refl h) ?_
    rcases h with rfl | rfl
    · exact ⟨fun _ j hj => absurd hj (Nat.not_lt_zero j), fun _ j hj => absurd hj (Nat.not_lt_zero j)⟩
    · exact ⟨fun h => absurd h (BitVec.lt_irrefl src), fun h => absurd h (BitVec.lt_irrefl src)⟩
  · rename_i h
    rw [not_or] at h
    split
    · rename_i hgt
      rw [moved_copyUp_iff length.isLt.le]
      exact ⟨fun hup => ⟨fun _ => hup, fun hlt => absurd hgt (BitVec.lt_asymm hlt)⟩, fun hsafe => hsafe.1 hgt⟩
    · rename_i hgt
      have hlt : src < dest := by
        have hne := h.2
        bv_omega
      obtain ⟨n, hn⟩ : ∃ n, length.toNat = n + 1 :=
        Nat.exists_eq_succ_of_ne_zero fun hzero => h.1 (BitVec.eq_of_toNat_eq hzero)
      have hbound := length.isLt
      rw [behind_last dest h.1, behind_last src h.1, hn, Nat.add_sub_cancel, moved_copyDown_iff (by omega)]
      exact ⟨fun hdown => ⟨fun h => absurd h hgt, fun _ => hdown⟩, fun hsafe => hsafe.2 hlt⟩

/-- A backward copy that starts behind the ranges writes there. -/
theorem not_moved_copyDown (hn : 0 < n) (hlt : n < 2 ^ 64) :
    ¬Moved bytes (copyDown n (behind dest n) (behind src n) (Memory.new bytes)) dest src n := by
  intro h
  rw [copyDown_eq dest src n _ n (Nat.le_succ n)] at h
  obtain ⟨i, hi, heq⟩ := h.writes (behind dest n) (mem_copyAll_writes.mpr
    ⟨(behind dest (n - 0), behind src (n - 0)), List.mem_map.mpr ⟨0, List.mem_range.mpr hn, rfl⟩, rfl⟩)
  have := (behind_inj hlt (by omega)).mp heq
  omega

theorem moved_bcopy_iff : Moved bytes (bcopy src dest length (Memory.new bytes)) dest src length.toNat ↔
    length = 0 ∨ src ≤ dest ∧ UpSafe bytes dest src length.toNat := by
  unfold bcopy
  split
  · rename_i h
    refine iff_of_true (moved_refl h) ?_
    rcases h with rfl | rfl
    · exact .inl rfl
    · refine .inr ⟨BitVec.le_refl src, fun j hj i hij heq => absurd ?_ hij.ne⟩
      have hlt := length.isLt
      exact (behind_inj (by omega) (by omega)).mp heq
  · rename_i h
    rw [not_or] at h
    split
    · rename_i hlt
      rw [moved_copyUp_iff length.isLt.le]
      exact ⟨fun hup => .inr ⟨BitVec.le_of_lt hlt, hup⟩, fun hor => (hor.resolve_left h.1).2⟩
    · rename_i hge
      have hpos : 0 < length.toNat := Nat.pos_of_ne_zero fun hzero => h.1 (BitVec.eq_of_toNat_eq hzero)
      rw [behind_toNat, behind_toNat]
      refine iff_of_false (not_moved_copyDown hpos length.isLt) ?_
      rintro (hzero | ⟨hle, -⟩)
      · exact h.1 hzero
      · have hne := h.2
        bv_omega

/-- Bytes of two ranges that do not go over the end of the address space. -/
theorem behind_eq_iff (hi : dest.toNat + i < 2 ^ 64) (hj : src.toNat + j < 2 ^ 64) :
    behind dest i = behind src j ↔ dest.toNat + i = src.toNat + j := by
  have hnat : ∀ (p : Pointer) (k : ℕ), p.toNat + k < 2 ^ 64 → (behind p k).toNat = p.toNat + k := by
    intro p k hk
    rw [behind, BitVec.toNat_add, BitVec.toNat_ofNat, Nat.mod_eq_of_lt (show k < 2 ^ 64 by omega), Nat.mod_eq_of_lt hk]
  rw [← BitVec.toNat_inj, hnat dest i hi, hnat src j hj]

theorem moved_memmove (hsrc : src.toNat + length.toNat ≤ 2 ^ 64) (hdest : dest.toNat + length.toNat ≤ 2 ^ 64) :
    Moved bytes (memmove dest src length (Memory.new bytes)).2 dest src length.toNat := by
  rw [moved_memmove_iff]
  constructor
  · intro hgt j hj i hij heq
    have hnat := (behind_eq_iff (by omega) (by omega)).mp heq
    have hlt : dest.toNat < src.toNat := hgt
    omega
  · intro hlt j hj i hij heq
    have hnat := (behind_eq_iff (by omega) (by omega)).mp heq
    have hlt : src.toNat < dest.toNat := hlt
    omega

/-- `bcopy` works only upwards, and then as a forward copy. -/
theorem moves_iff (bytes : Pointer → UInt8) (dest src : Pointer) (length : BitVec 64) :
    (src.toNat + length.toNat ≤ 2 ^ 64 ∧ dest.toNat + length.toNat ≤ 2 ^ 64 →
      Moved bytes (memmove dest src length (Memory.new bytes)).2 dest src length.toNat) ∧
    (Moved bytes (memmove dest src length (Memory.new bytes)).2 dest src length.toNat ↔
      (src > dest → UpSafe bytes dest src length.toNat) ∧ (src < dest → DownSafe bytes dest src length.toNat)) ∧
    (Moved bytes (bcopy src dest length (Memory.new bytes)) dest src length.toNat ↔
      length = 0 ∨ src ≤ dest ∧ UpSafe bytes dest src length.toNat) :=
  ⟨fun h => moved_memmove h.1 h.2, moved_memmove_iff, moved_bcopy_iff⟩

theorem moves_iff_overlapping :
    Moved (fun a => a.toNat.toUInt8) (memmove 0x1001 0x1000 3 (Memory.new fun a => a.toNat.toUInt8)).2 0x1001 0x1000 3 :=
  (moves_iff (fun a => a.toNat.toUInt8) 0x1001 0x1000 3).1 ⟨by decide, by decide⟩

/-- One byte is copied down, and two bytes are copied one up. -/
theorem bcopy_misses :
    ¬Moved (fun a => a.toNat.toUInt8) (bcopy 0x1001 0x1000 1 (Memory.new fun a => a.toNat.toUInt8)) 0x1000 0x1001 1 ∧
    ¬Moved (fun a => a.toNat.toUInt8) (bcopy 0x1000 0x1001 2 (Memory.new fun a => a.toNat.toUInt8)) 0x1001 0x1000 2 :=
  ⟨fun h => absurd (h.copied 0 (by decide)) (by decide), fun h => absurd (h.copied 1 (by decide)) (by decide)⟩

end KPanic.Kstring

import KPanic.Fs.InodeTable

/-!
# Zone trees

Arrays of zone numbers read back as they are written. `TreeOk` says which parts of a tree are there;
`zoneAt` is what `getZone` returns. It depends on the tree only.
-/

namespace KPanic.Minix

open Bytes
open Function
open Wp

/-! ### Arrays in a block -/

section Arrays

variable {v3 : Bool} {buffer buffer' : Block} {first n i k : ℕ} {xs : List ℕ}

theorem readArray_succ : readArray v3 buffer first (n + 1) =
    v3Array v3 buffer first :: readArray v3 buffer (first + 1) n := by
  unfold readArray
  rw [List.range_succ_eq_map, List.map_cons, List.map_map, Nat.add_zero]
  congr 1
  refine List.map_congr_left fun i _ => ?_
  rw [Function.comp_apply, Nat.succ_eq_add_one, Nat.add_assoc, Nat.add_comm 1 i]

/-- The bytes in front of an array and behind it. -/
theorem setArray_apart
    (h : k < INODE_BYTES v3 * i ∨ INODE_BYTES v3 * (i + xs.length) ≤ k) :
    setArray v3 i xs buffer k = buffer k := by
  induction xs generalizing i buffer with
  | nil => rfl
  | cons x xs ih =>
    rw [List.length_cons] at h
    have hnext : INODE_BYTES v3 * (i + 1) = INODE_BYTES v3 * i + INODE_BYTES v3 := by ring
    have hend : INODE_BYTES v3 * (i + (xs.length + 1)) =
        INODE_BYTES v3 * (i + 1) + INODE_BYTES v3 * xs.length := by ring
    have hend' : INODE_BYTES v3 * (i + 1 + xs.length) =
        INODE_BYTES v3 * (i + 1) + INODE_BYTES v3 * xs.length := by ring
    rw [setArray, ih (by omega), store_apart (by omega)]

/-- What is written as an array is read as an array. -/
theorem readArray_setArray (h : ∀ x ∈ xs, x < 256 ^ INODE_BYTES v3) :
    readArray v3 (setArray v3 i xs buffer) i xs.length = xs := by
  induction xs generalizing i buffer with
  | nil => rfl
  | cons x xs ih =>
    have hnext : INODE_BYTES v3 * (i + 1) = INODE_BYTES v3 * i + INODE_BYTES v3 := by ring
    rw [List.length_cons, readArray_succ, setArray, ih fun y hy => h y (List.mem_cons_of_mem _ hy)]
    congr 1
    rw [v3Array, load_congr fun b _ hlt => setArray_apart (.inl (by omega)),
      store_of_lt (h x List.mem_cons_self)]

theorem readArray_congr (h : ∀ k, INODE_BYTES v3 * first ≤ k → k < INODE_BYTES v3 * (first + n) →
    buffer' k = buffer k) : readArray v3 buffer' first n = readArray v3 buffer first n := by
  unfold readArray
  refine List.map_congr_left fun i hi => ?_
  have hlt : i + 1 ≤ n := List.mem_range.mp hi
  have hlow := Nat.mul_le_mul_left (INODE_BYTES v3) (Nat.le_add_right first i)
  have hhigh := Nat.mul_le_mul_left (INODE_BYTES v3) (Nat.add_le_add_left hlt first)
  have hnext : INODE_BYTES v3 * (first + (i + 1)) =
      INODE_BYTES v3 * (first + i) + INODE_BYTES v3 := by ring
  exact load_congr fun b hb hlt => h b (by omega) (by omega)

/-- An array somewhere in a block, read from its start. -/
theorem readArray_shift : readArray v3 buffer first n =
    readArray v3 (fun k => buffer (INODE_BYTES v3 * first + k)) 0 n := by
  unfold readArray
  refine List.map_congr_left fun i _ => ?_
  rw [v3Array, v3Array, Nat.zero_add, load_shift, Nat.mul_add]

end Arrays

/-! ### The parts of a tree -/

/-- An array of zone numbers that fits a zone. -/
structure ArrayOk (v3 : Bool) (zones : List ℕ) : Prop where
  length : zones.length = NUM_ZONE_ADDRESSES v3
  lt : ∀ zone ∈ zones, zone < 256 ^ INODE_BYTES v3

/-- The array behind a link is there if and only if the link is not 0. -/
inductive Linked (v3 : Bool) : ℕ → Option (List ℕ) → Prop
  | none : Linked v3 0 none
  | some {link zones} : link ≠ 0 → ArrayOk v3 zones → Linked v3 link (some zones)

/-- The arrays behind the double indirect linking zone. -/
inductive DoublyLinked (v3 : Bool) : Option (List ℕ) → Option (List (Option (List ℕ))) → Prop
  | none : DoublyLinked v3 none none
  | some {links entries} : List.Forall₂ (Linked v3) links entries →
      DoublyLinked v3 (some links) (some entries)

structure TreeOk (v3 : Bool) (t : MinixFSZone) : Prop where
  direct : t.direct_zones_.length = NUM_ZONES v3
  direct_lt : ∀ zone ∈ t.direct_zones_, zone < 256 ^ INODE_BYTES v3
  indirect : Linked v3 (t.direct_zones_.getD 7 0) t.indirect_zones_
  linking : Linked v3 (t.direct_zones_.getD 8 0) t.double_indirect_linking_zone_
  double : DoublyLinked v3 t.double_indirect_linking_zone_ t.double_indirect_zones_
  count : t.num_zones_ = countZones (t.direct_zones_.take 7) + t.indirect_zones_.elim 0 countZones +
    t.double_indirect_zones_.elim 0 fun entries => (entries.map fun e => e.elim 0 countZones).sum

theorem TreeOk.shape {v3 : Bool} {t : MinixFSZone} (ht : TreeOk v3 t) :
    t.double_indirect_linking_zone_ = none ∧ t.double_indirect_zones_ = none ∨
    ∃ links entries, t.double_indirect_linking_zone_ = some links ∧
      t.double_indirect_zones_ = some entries ∧ List.Forall₂ (Linked v3) links entries := by
  have h := ht.double
  generalize t.double_indirect_linking_zone_ = linking at *
  generalize t.double_indirect_zones_ = double at *
  cases h with
  | none => exact .inl ⟨rfl, rfl⟩
  | some h => exact .inr ⟨_, _, rfl, rfl, h⟩

/-- The linking zones, and 0 where there is none. -/
def MinixFSZone.links (t : MinixFSZone) : List ℕ :=
  t.direct_zones_.getD 7 0 :: t.direct_zones_.getD 8 0 :: t.double_indirect_linking_zone_.getD []

namespace MinixFSZone

def zoneAt (v3 : Bool) (t : MinixFSZone) (index : ℕ) : Except Panic ℕ :=
  if index < t.num_zones_ then
    if index < 7 then .ok (t.direct_zones_.getD index 0)
    else if index - 7 < NUM_ZONE_ADDRESSES v3 then
      match t.indirect_zones_ with
      | none => .error .nullPointer
      | some zones => .ok (zones.getD (index - 7) 0)
    else
      match t.double_indirect_zones_ with
      | none => .error .nullPointer
      | some entries =>
        match entries.getD ((index - 7 - NUM_ZONE_ADDRESSES v3) / NUM_ZONE_ADDRESSES v3) none with
        | none => .error .nullPointer
        | some zones =>
          .ok (zones.getD ((index - 7 - NUM_ZONE_ADDRESSES v3) % NUM_ZONE_ADDRESSES v3) 0)
  else .error .badZoneIndex

variable {s : MinixFSSuperblock} {allowed : Panic → Prop} {t : MinixFSZone} {index : ℕ}
  {Q : ℕ → MinixFSSuperblock → Prop}

theorem wp_getZone : wp allowed (getZone t index) Q s ↔
    (∀ zone, t.zoneAt s.v3 index = .ok zone → Q zone s) ∧
    (∀ e, t.zoneAt s.v3 index = .error e → allowed e) := by
  rw [getZone, wp_bind, wp_get, wp_bind, Fs.wp_assert, zoneAt]
  by_cases hindex : index < t.num_zones_
  · simp only [hindex, if_true, forall_const, not_true_eq_false, false_imp_iff, and_true]
    by_cases hdirect : index < 7
    · simp [hdirect]
    · by_cases hind : index - 7 < NUM_ZONE_ADDRESSES s.v3
      · cases hzones : t.indirect_zones_ with
        | none => simp [hdirect, hind]
        | some zones => simp [hdirect, hind]
      · cases hdouble : t.double_indirect_zones_ with
        | none => simp [hdirect, hind]
        | some entries =>
          simp only [hdirect, hind, if_false]
          cases hentry : entries.getD
              ((index - 7 - NUM_ZONE_ADDRESSES s.v3) / NUM_ZONE_ADDRESSES s.v3) none with
          | none => simp
          | some zones => simp
  · simp [hindex]

end MinixFSZone

end KPanic.Minix

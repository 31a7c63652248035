import KPanic.Fs.MinixFSInode

/-!
# What an inode on the disk decodes to

The constructor of `MinixFSZone` reads the linking zones of an inode; `treeOf` is what it finds
and `TreeInRange` says that the device has them. `getInode` decodes an entry of the inode table.
-/

namespace KPanic.Minix

open Bytes
open Function
open Wp

/-- The entries of a linking zone. -/
def MinixFSSuperblock.arrayAt (s : MinixFSSuperblock) (zone : ℕ) : List ℕ :=
  readArray s.v3 (s.disk (zone % 2 ^ 16)) 0 (NUM_ZONE_ADDRESSES s.v3)

def MinixFSSuperblock.InRange (s : MinixFSSuperblock) (zone : ℕ) : Prop :=
  zone % 2 ^ 16 < s.num_blocks

def MinixFSSuperblock.linked (s : MinixFSSuperblock) (link : ℕ) : Option (List ℕ) :=
  if link ≠ 0 then some (s.arrayAt link) else none

def treeOf (s : MinixFSSuperblock) (zones : List ℕ) : MinixFSZone :=
  let indirect := s.linked (zones.getD 7 0)
  let linking := s.linked (zones.getD 8 0)
  let double := linking.map fun links => links.map s.linked
  { direct_zones_ := zones
    indirect_zones_ := indirect
    double_indirect_linking_zone_ := linking
    double_indirect_zones_ := double
    num_zones_ := countZones (zones.take 7) + indirect.elim 0 countZones +
      double.elim 0 fun entries => (entries.map fun e => e.elim 0 countZones).sum }

structure TreeInRange (s : MinixFSSuperblock) (zones : List ℕ) : Prop where
  indirect : zones.getD 7 0 ≠ 0 → s.InRange (zones.getD 7 0)
  double : zones.getD 8 0 ≠ 0 → s.InRange (zones.getD 8 0)
  links : zones.getD 8 0 ≠ 0 → ∀ link ∈ s.arrayAt (zones.getD 8 0), link ≠ 0 → s.InRange link

variable {s : MinixFSSuperblock} {allowed : Panic → Prop}

namespace Fs

theorem wp_assert {c : Prop} [Decidable c] {e : Panic} {Q : PUnit → MinixFSSuperblock → Prop} :
    wp allowed (assert c e) Q s ↔ (c → Q ⟨⟩ s) ∧ (¬c → allowed e) := by
  unfold assert
  by_cases h : c
  · rw [if_pos h, wp_pure]
    exact ⟨fun hq => ⟨fun _ => hq, fun hn => absurd h hn⟩, fun hq => hq.1 h⟩
  · rw [if_neg h, wp_throw]
    exact ⟨fun he => ⟨fun hc => absurd hc h, fun _ => he⟩, fun hq => hq.2 h⟩

theorem wp_readZone {zone : ℕ} {Q : Block → MinixFSSuperblock → Prop} :
    wp allowed (readZone zone) Q s ↔
      (s.InRange zone → Q (s.disk (zone % 2 ^ 16)) s) ∧ (¬s.InRange zone → allowed .outOfRange) := by
  unfold readZone
  simp only [wp_bind, wp_get, wp_assert, wp_pure]
  rfl

theorem wp_writeZone {zone : ℕ} {buffer : Block} {Q : PUnit → MinixFSSuperblock → Prop} :
    wp allowed (writeZone zone buffer) Q s ↔
      (s.InRange zone → Q ⟨⟩ { s with disk := update s.disk (zone % 2 ^ 16) buffer }) ∧
      (¬s.InRange zone → allowed .outOfRange) := by
  unfold writeZone
  simp only [wp_bind, wp_get, wp_assert, wp_set]
  rfl

theorem wp_writeBytes {block offset size : ℕ} {buffer : Block}
    {Q : PUnit → MinixFSSuperblock → Prop} (hsize : offset + size ≤ BLOCK_SIZE)
    (hblock : s.InRange block)
    (hQ : Q ⟨⟩ { s with
      disk := update s.disk (block % 2 ^ 16) (patch (s.disk (block % 2 ^ 16)) offset size buffer) }) :
    wp allowed (writeBytes block offset size buffer) Q s := by
  rw [writeBytes, wp_bind, wp_assert]
  refine ⟨fun _ => ?_, fun h => absurd hsize h⟩
  rw [wp_bind, wp_readZone]
  refine ⟨fun _ => ?_, fun h => absurd hblock h⟩
  rw [wp_writeZone]
  exact ⟨fun _ => hQ, fun h => absurd hblock h⟩

end Fs

namespace MinixFSZone

/-- Two checks in a row are one check. -/
theorem checks_and {a b q e : Prop} :
    ((a → (b → q) ∧ (¬b → e)) ∧ (¬a → e)) ↔ (a ∧ b → q) ∧ (¬(a ∧ b) → e) := by
  by_cases ha : a
  · simp only [ha, true_imp_iff, true_and, not_true_eq_false, false_imp_iff, and_true]
  · simp only [ha, false_imp_iff, true_and, not_false_eq_true, true_imp_iff, false_and]

theorem linked_zero : s.linked 0 = none := if_neg fun h => h rfl

theorem linked_of_ne {link : ℕ} (h : link ≠ 0) : s.linked link = some (s.arrayAt link) := if_pos h

theorem wp_readDouble {links : List ℕ} {Q : List (Option (List ℕ)) → MinixFSSuperblock → Prop} :
    wp allowed (readDouble s.v3 links) Q s ↔
      ((∀ link ∈ links, link ≠ 0 → s.InRange link) → Q (links.map s.linked) s) ∧
      (¬(∀ link ∈ links, link ≠ 0 → s.InRange link) → allowed .outOfRange) := by
  induction links generalizing Q with
  | nil =>
    rw [readDouble, wp_pure]
    simp
  | cons link links ih =>
    rw [readDouble]
    by_cases hlink : link = 0
    · subst hlink
      simp only [ne_eq, not_true_eq_false, if_false, wp_bind, wp_pure, ih, List.forall_mem_cons,
        List.map_cons, linked_zero, false_imp_iff, true_and]
    · have harray : readArray s.v3 (s.disk (link % 2 ^ 16)) 0 (NUM_ZONE_ADDRESSES s.v3) =
          s.arrayAt link := rfl
      simp only [ne_eq, hlink, not_false_eq_true, if_true, wp_bind, Fs.wp_readZone, wp_pure, ih,
        List.forall_mem_cons, List.map_cons, linked_of_ne hlink, forall_const, harray]
      rw [checks_and]

/-- The constructor returns the tree exactly if the device has its linking zones. -/
theorem wp_new {zones : List ℕ} {Q : MinixFSZone → MinixFSSuperblock → Prop} :
    wp allowed (new zones) Q s ↔ (TreeInRange s zones → Q (treeOf s zones) s) ∧
      (¬TreeInRange s zones → allowed .outOfRange) := by
  have hrange : TreeInRange s zones ↔ (zones.getD 7 0 ≠ 0 → s.InRange (zones.getD 7 0)) ∧
      (zones.getD 8 0 ≠ 0 → s.InRange (zones.getD 8 0)) ∧
      (zones.getD 8 0 ≠ 0 →
        ∀ link ∈ s.arrayAt (zones.getD 8 0), link ≠ 0 → s.InRange link) :=
    ⟨fun h => ⟨h.indirect, h.double, h.links⟩, fun h => ⟨h.1, h.2.1, h.2.2⟩⟩
  have harray : ∀ link, readArray s.v3 (s.disk (link % 2 ^ 16)) 0 (NUM_ZONE_ADDRESSES s.v3) =
      s.arrayAt link := fun _ => rfl
  rw [new]
  by_cases hindirect : zones.getD 7 0 = 0
  · by_cases hdouble : zones.getD 8 0 = 0
    · simp only [hrange, ne_eq, hindirect, hdouble, not_true_eq_false, if_false, wp_bind, wp_get,
        wp_pure, treeOf, linked_zero, false_imp_iff, forall_const, and_true]
      simp
    · simp only [hrange, ne_eq, hindirect, hdouble, not_true_eq_false, not_false_eq_true, if_false,
        if_true, wp_bind, wp_get, wp_pure, Fs.wp_readZone, harray, wp_readDouble, treeOf,
        linked_zero, linked_of_ne hdouble, false_imp_iff, true_and, forall_const]
      simp only [Option.map_some, Option.elim_some, Option.elim_none, List.map_map]
      exact checks_and
  · by_cases hdouble : zones.getD 8 0 = 0
    · simp only [hrange, ne_eq, hindirect, hdouble, not_true_eq_false, not_false_eq_true, if_false,
        if_true, wp_bind, wp_get, wp_pure, Fs.wp_readZone, harray, treeOf, linked_zero,
        linked_of_ne hindirect, false_imp_iff, and_true, forall_const]
      simp
    · simp only [hrange, ne_eq, hindirect, hdouble, not_false_eq_true, if_true, wp_bind, wp_get,
        wp_pure, Fs.wp_readZone, harray, wp_readDouble, treeOf, linked_of_ne hdouble,
        linked_of_ne hindirect, forall_const]
      simp only [Option.map_some, Option.elim_some, List.map_map]
      rw [← checks_and, ← checks_and]

end MinixFSZone

/-! ### Entries of the inode table -/

theorem two_le_inodeSize (v3 : Bool) : 2 ≤ INODE_SIZE v3 := by
  cases v3 with
  | false => decide
  | true => decide

theorem slot_fits {v3 : Bool} {slot : ℕ} (h : slot < INODES_PER_BLOCK v3) :
    slot * INODE_SIZE v3 + INODE_SIZE v3 ≤ ZONE_SIZE := by
  cases v3 with
  | false =>
    replace h : slot < 32 := h
    show slot * 32 + 32 ≤ 1024
    omega
  | true =>
    replace h : slot < 16 := h
    show slot * 64 + 64 ≤ 1024
    omega

/-- The bytes of an inode in its block. -/
def MinixFSSuperblock.entry (s : MinixFSSuperblock) (i_num : ℕ) : Block := fun k =>
  s.disk (s.inodeBlock i_num % 2 ^ 16) (s.inodeOffset i_num + k)

def MinixFSSuperblock.entryZones (s : MinixFSSuperblock) (i_num : ℕ) : List ℕ :=
  readArray s.v3 (s.entry i_num) (7 - V3_OFFSET s.v3) (NUM_ZONES s.v3)

/-- The inode that an entry of the given type decodes to. -/
def MinixFSSuperblock.decoded (s : MinixFSSuperblock) (i_num : ℕ) (i_type : InodeType) :
    MinixFSInode where
  i_num_ := i_num
  i_type_ := i_type
  i_size_ := load 4 (s.entry i_num) (4 * (1 + V3_OFFSET s.v3))
  i_nlink_ := load 2 (s.entry i_num) (2 * V3_OFFSET s.v3)
  i_zones_ := treeOf s (s.entryZones i_num)
  i_dentry_ := none
  i_files_ := 0
  children_loaded_ := false
  other_dentries_ := []

/-- The entry is that of an inode in use. -/
structure EntryOk (s : MinixFSSuperblock) (i_num : ℕ) (i_type : InodeType) : Prop where
  block : s.InRange (s.inodeBlock i_num)
  mode : MinixFSInode.typeOf (load 2 (s.entry i_num) 0) = some i_type
  zones : TreeInRange s (s.entryZones i_num)

/-- The bit of an inode in the bitmap. -/
def MinixFSSuperblock.allocated (s : MinixFSSuperblock) (i_num : ℕ) : Prop :=
  i_num < s.storage_manager_.inode_bitmap_.size_ ∧
    Bitmap.getBit s.storage_manager_.inode_bitmap_.bitmap_ i_num = true

namespace MinixFSSuperblock

/-- `getInode` finds the place of an inode with a division by `INODES_PER_BLOCK`. -/
theorem inodeBlock_eq (s : MinixFSSuperblock) (i_num : ℕ) : s.inodeBlock i_num =
    s.s_num_inode_bm_blocks_ + s.s_num_zone_bm_blocks_ + 2 + (i_num - 1) / INODES_PER_BLOCK s.v3 := by
  unfold inodeBlock INODE_SIZE INODES_PER_BLOCK BLOCK_SIZE
  split
  · omega
  · omega

theorem inodeOffset_eq (s : MinixFSSuperblock) (i_num : ℕ) : s.inodeOffset i_num =
    (i_num - 1) % INODES_PER_BLOCK s.v3 * INODE_SIZE s.v3 := by
  unfold inodeOffset INODE_SIZE INODES_PER_BLOCK BLOCK_SIZE
  split
  · omega
  · omega

end MinixFSSuperblock

/-- The constructor of an inode, on the zones and the mode that an entry has. -/
theorem MinixFSInode.wp_new {i_mode i_size i_nlinks i_num : ℕ} {zones : List ℕ} {i_type : InodeType}
    {Q : MinixFSInode → MinixFSSuperblock → Prop} (hzones : TreeInRange s zones)
    (hmode : MinixFSInode.typeOf i_mode = some i_type)
    (hQ : Q ⟨i_num, i_type, i_size, i_nlinks, treeOf s zones, none, 0, false, []⟩ s) :
    wp allowed (MinixFSInode.new i_mode i_size i_nlinks zones i_num) Q s := by
  rw [MinixFSInode.new, wp_bind, MinixFSZone.wp_new]
  refine ⟨fun _ => ?_, fun h => absurd hzones h⟩
  rw [hmode, wp_pure]
  exact hQ

namespace MinixFSSuperblock

variable {i_num : ℕ} {i_type : InodeType} {Q : Option MinixFSInode → MinixFSSuperblock → Prop}

/-- The range check. -/
theorem wp_getInode_refused (h : s.storage_manager_.getNumUsedInodes ≤ i_num) (hQ : Q none s) :
    wp allowed (getInode i_num) Q s := by
  simp only [getInode, wp_bind, wp_get, ge_iff_le, h, if_true, wp_pure]
  exact hQ

theorem wp_getInode_set (h : i_num < s.storage_manager_.getNumUsedInodes)
    (hset : s.allocated i_num) (hentry : EntryOk s i_num i_type)
    (hQ : Q (some (s.decoded i_num i_type)) s) : wp allowed (getInode i_num) Q s := by
  have hnot : ¬s.storage_manager_.getNumUsedInodes ≤ i_num := by omega
  have hbit : s.storage_manager_.isInodeSet i_num = .ok true := by
    rw [MinixStorageManager.isInodeSet, if_pos hset.1, hset.2]
  simp only [getInode, wp_bind, wp_get, ge_iff_le, hnot, if_false, hbit, wp_lift_ok,
    Bool.true_eq_false, ← inodeBlock_eq, ← inodeOffset_eq, Fs.wp_readZone, wp_pure]
  refine ⟨fun _ => ?_, fun h => absurd hentry.block h⟩
  exact MinixFSInode.wp_new hentry.zones hentry.mode hQ

/-- An inode that is not returned is refused by the range check or is not allocated. -/
theorem wp_getInode_any : wp (fun _ => True) (getInode i_num) (fun r t => t = s ∧
    (r = none → s.storage_manager_.getNumUsedInodes ≤ i_num ∨ ¬s.allocated i_num)) s := by
  simp only [getInode, wp_bind, wp_get]
  refine wp_ite (fun h => (wp_pure _).mpr ⟨rfl, fun _ => .inl h⟩) fun _ => ?_
  rw [wp_bind, MinixStorageManager.isInodeSet]
  by_cases hsize : i_num < s.storage_manager_.inode_bitmap_.size_
  · rw [if_pos hsize, wp_lift_ok]
    refine wp_ite (fun hclear => ?_) fun _ => ?_
    · refine wp_ite (fun _ => (wp_throw _).mpr trivial) fun _ => (wp_pure _).mpr ⟨rfl, fun _ => ?_⟩
      exact .inr fun ha => absurd (hclear.symm.trans ha.2) Bool.false_ne_true
    · rw [wp_bind, Fs.wp_readZone]
      refine ⟨fun _ => ?_, fun _ => trivial⟩
      rw [wp_bind, MinixFSInode.new, wp_bind, MinixFSZone.wp_new]
      refine ⟨fun _ => ?_, fun _ => trivial⟩
      split
      · exact (wp_throw _).mpr trivial
      · exact (wp_pure _).mpr ((wp_pure _).mpr ⟨rfl, fun h => by cases h⟩)
  · rw [if_neg hsize, wp_lift_error]
    trivial

end MinixFSSuperblock

end KPanic.Minix

import KPanic.Lib.Machine
import KPanic.Fs.BitmapSearch
import KPanic.Fs.ZoneRefs

/-!
# Who owns a disk zone

The zones of an inode are those that its tree refers to: the tree in memory if the inode is loaded,
else the one on the disk. In a consistent file system every zone that the bitmap marks is referred
to once. The bitmap counts from one zone in front of the first data zone.
-/

namespace KPanic.Minix

open Function
open Machine
open Ownership
open Wp

variable {s u : MinixFSSuperblock} {allowed : Panic → Prop} {zone i_num : ℕ}

/-! ### The zone bitmap -/

/-- The blocks of the device that a `uint16` can name. -/
def MinixFSSuperblock.zoneEnd (s : MinixFSSuperblock) : ℕ := min s.num_blocks (2 ^ 16)

/-- The bitmap has as many bits as the disk has zones, so the last ones do not stand for data zones. -/
def MinixFSSuperblock.Marked (s : MinixFSSuperblock) (zone : ℕ) : Prop :=
  s.s_1st_datazone_ ≤ zone ∧ zone < s.zoneEnd ∧
    zone + 1 - s.s_1st_datazone_ < s.storage_manager_.zone_bitmap_.size_ ∧
    Bitmap.getBit s.storage_manager_.zone_bitmap_.bitmap_ (zone + 1 - s.s_1st_datazone_) = true

/-- How the disk is divided: the inode table lies in front of the data zones, and the free bits stand for
data zones. -/
structure Layout (s : MinixFSSuperblock) : Prop where
  zones : s.storage_manager_.zone_bitmap_.Ok
  inodes : s.storage_manager_.inode_bitmap_.Ok
  reserved : Bitmap.getBit s.storage_manager_.zone_bitmap_.bitmap_ 0 = true
  positive : 0 < s.s_1st_datazone_
  first : s.s_1st_datazone_ ≤ s.zoneEnd
  free : ∀ pos < s.storage_manager_.zone_bitmap_.size_,
    Bitmap.getBit s.storage_manager_.zone_bitmap_.bitmap_ pos = false → pos + s.s_1st_datazone_ ≤ s.zoneEnd
  table : ∀ i_num, s.allocated i_num → s.inodeBlock i_num < s.s_1st_datazone_

theorem zoneEnd_le (s : MinixFSSuperblock) : s.zoneEnd ≤ 2 ^ 16 := min_le_right _ _

theorem Layout.table_lt (L : Layout s) {j : ℕ} (h : s.allocated j) : s.inodeBlock j < 2 ^ 16 :=
  ((L.table j h).trans_le L.first).trans_le (zoneEnd_le s)

theorem Layout.marked_lt (L : Layout s) (h : s.Marked zone) :
    zone < 2 ^ 16 ∧ zone < s.num_blocks ∧ zone ≠ 0 := by
  obtain ⟨hfirst, hend, -⟩ := h
  have hpos := L.positive
  have hboth := lt_min_iff.mp hend
  omega

/-- `s'` differs from `s` in the zone bitmap only. -/
structure SameButZones (s s' : MinixFSSuperblock) : Prop where
  rest : s' = { s with storage_manager_ := s'.storage_manager_ }
  inodes : s'.storage_manager_.inode_bitmap_ = s.storage_manager_.inode_bitmap_
  size : s'.storage_manager_.zone_bitmap_.size_ = s.storage_manager_.zone_bitmap_.size_

theorem SameButZones.refl (s : MinixFSSuperblock) : SameButZones s s := ⟨rfl, rfl, rfl⟩

theorem SameButZones.trans {s s' s'' : MinixFSSuperblock} (h : SameButZones s s') (h' : SameButZones s' s'') :
    SameButZones s s'' := by
  refine ⟨?_, h'.inodes.trans h.inodes, h'.size.trans h.size⟩
  rw [h'.rest, h.rest]

/-- No zone was found. -/
def NoZone (e : Panic) : Prop := e = .noFreeZone ∨ e = .endless

/-- What `allocateZone` does: it marks a zone that was not marked. -/
structure Allocated (s : MinixFSSuperblock) (zone : ℕ) (s' : MinixFSSuperblock) : Prop where
  free : ¬s.Marked zone
  marked : ∀ b, s'.Marked b ↔ s.Marked b ∨ b = zone
  layout : Layout s'
  same : SameButZones s s'

theorem wp_allocateZone (L : Layout s) : wp NoZone Fs.allocateZone (fun zone s' => Allocated s zone s') s := by
  rw [Fs.allocateZone, wp_bind, wp_get]
  cases h : MinixStorageManager.searchZone s.storage_manager_.zone_bitmap_ s.storage_manager_.curr_zone_pos_
      (s.storage_manager_.zone_bitmap_.size_ + 1) (s.storage_manager_.curr_zone_pos_ + 1) with
  | error e =>
    have hrun : s.storage_manager_.allocZone = .error e := by
      rw [MinixStorageManager.allocZone, h]
      rfl
    rw [wp_bind, hrun, wp_lift_error]
    exact searchZone_error h
  | ok pos =>
    obtain ⟨hpos, hne, hclear⟩ := searchZone_spec L.reserved h
    have hpositive := L.positive
    have hfree := L.free pos hpos hclear
    have hend := zoneEnd_le s
    have hzone : (pos + s.s_1st_datazone_ - 1) % 2 ^ 16 = pos + s.s_1st_datazone_ - 1 :=
      Nat.mod_eq_of_lt (by omega)
    have hback : pos + s.s_1st_datazone_ - 1 + 1 - s.s_1st_datazone_ = pos := by omega
    have hbits := Bitmap.getBit_setBit L.zones hpos
    have hmarked : ∀ b, s.s_1st_datazone_ ≤ b →
        (b + 1 - s.s_1st_datazone_ = pos ↔ b = pos + s.s_1st_datazone_ - 1) := by omega
    have hrun : s.storage_manager_.allocZone = .ok (pos, { s.storage_manager_ with
        zone_bitmap_ := (s.storage_manager_.zone_bitmap_.setBit pos).2
        curr_zone_pos_ := pos }) := by
      rw [MinixStorageManager.allocZone, h]
      rfl
    rw [wp_bind, hrun, wp_lift_ok]
    dsimp only
    rw [wp_bind, wp_set, wp_pure, hzone]
    refine ⟨?_, fun b => ?_, ?_, ⟨rfl, rfl, Bitmap.setBit_size _ _⟩⟩
    · rintro ⟨-, -, -, hset⟩
      rw [hback, hclear] at hset
      cases hset
    · unfold MinixFSSuperblock.Marked
      dsimp only
      rw [Bitmap.setBit_size, hbits]
      constructor
      · rintro ⟨hfirst, hin, hlt, hset⟩
        by_cases hb : b = pos + s.s_1st_datazone_ - 1
        · exact .inr hb
        · rw [if_neg fun heq => hb ((hmarked b hfirst).mp heq)] at hset
          exact .inl ⟨hfirst, hin, hlt, hset⟩
      · rintro (⟨hfirst, hin, hlt, hset⟩ | rfl)
        · refine ⟨hfirst, hin, hlt, ?_⟩
          split
          · rfl
          · exact hset
        · have hlast : pos + s.s_1st_datazone_ - 1 < s.zoneEnd := by omega
          exact ⟨by omega, hlast, by omega, by rw [if_pos hback]⟩
    · refine ⟨Bitmap.setBit_ok L.zones hpos, L.inodes, ?_, L.positive, L.first, ?_, L.table⟩
      · dsimp only
        rw [hbits, if_neg (Ne.symm hne)]
        exact L.reserved
      · dsimp only
        intro k hk hset
        rw [Bitmap.setBit_size] at hk
        rw [hbits] at hset
        split at hset
        · cases hset
        · exact L.free k hk hset

/-! ### Consistent file systems -/

instance (s : MinixFSSuperblock) (i_num : ℕ) : Decidable (s.allocated i_num) :=
  inferInstanceAs (Decidable (_ ∧ _))

/-- The tree of an inode in use. -/
def MinixFSSuperblock.treeAt (s : MinixFSSuperblock) (i_num : ℕ) : Option MinixFSZone :=
  match s.all_inodes_ i_num with
  | some inode => some inode.i_zones_
  | none => if i_num ≠ 0 ∧ s.allocated i_num then some (treeOf s (s.entryZones i_num)) else none

def MinixFSSuperblock.zonesOf (s : MinixFSSuperblock) (i_num : ℕ) : List ℕ :=
  (s.treeAt i_num).elim [] MinixFSZone.refs

/-- Inode 0 is never used, so no `Dentry` has it. -/
def NamesOk (s : MinixFSSuperblock) : Prop := ∀ d dentry, s.dentries d = some dentry → dentry.d_inode_ ≠ some 0

structure Consistent (s : MinixFSSuperblock) : Prop where
  layout : Layout s
  loaded : ∀ {i_num inode}, s.all_inodes_ i_num = some inode →
    i_num ≠ 0 ∧ s.allocated i_num ∧ TreeOk s.v3 inode.i_zones_
  owned : Held s.zonesOf s.Marked
  names : NamesOk s

theorem zonesOf_loaded {inode : MinixFSInode} (h : s.all_inodes_ i_num = some inode) :
    s.zonesOf i_num = inode.i_zones_.refs := by
  rw [MinixFSSuperblock.zonesOf, MinixFSSuperblock.treeAt, h]
  rfl

/-! ### A tree that grows -/

variable {s' s'' : MinixFSSuperblock} {t t' : MinixFSZone} {pending : List ℕ} {index link : ℕ}

/-- Since `s` the inode has got the tree `t`, which is not stored yet, and the zones in `pending`,
which are not in the tree yet. -/
structure Growing (s : MinixFSSuperblock) (i_num : ℕ) (pending : List ℕ) (t : MinixFSZone)
    (s' : MinixFSSuperblock) : Prop where
  same : SameButZones s s'
  layout : Layout s'
  tree : TreeOk s.v3 t
  owned : Held (update s.zonesOf i_num (pending ++ t.refs)) s'.Marked

theorem Consistent.growing (h : Consistent s) {inode : MinixFSInode} (hi : s.all_inodes_ i_num = some inode) :
    Growing s i_num [] inode.i_zones_ s := by
  refine ⟨SameButZones.refl s, h.layout, (h.loaded hi).2.2, ?_⟩
  rw [List.nil_append, ← zonesOf_loaded hi, update_eq_self]
  exact h.owned

theorem Growing.v3 (G : Growing s i_num pending t s') : s'.v3 = s.v3 := by rw [G.same.rest]

theorem Growing.alloc (G : Growing s i_num pending t s') (h : Allocated s' zone s'') :
    Growing s i_num (zone :: pending) t s'' :=
  ⟨G.same.trans h.same, h.layout, G.tree, G.owned.take h.free h.marked⟩

theorem Growing.pending_ok (G : Growing s i_num (zone :: pending) t s') :
    zone ≠ 0 ∧ zone < 256 ^ INODE_BYTES s.v3 := by
  have hmem : zone ∈ update s.zonesOf i_num (zone :: pending ++ t.refs) i_num := by
    rw [update_self]
    exact List.mem_cons_self
  obtain ⟨hlt, -, hne⟩ := G.layout.marked_lt (G.owned.mem_marked hmem)
  refine ⟨hne, hlt.trans_le ?_⟩
  cases s.v3 with
  | false => decide
  | true => decide

theorem Growing.refs_lt (G : Growing s i_num pending t s') (h : zone ∈ t.refs) : zone < 2 ^ 16 := by
  have hmem : zone ∈ update s.zonesOf i_num (pending ++ t.refs) i_num := by
    rw [update_self]
    exact List.mem_append_right _ h
  exact (G.layout.marked_lt (G.owned.mem_marked hmem)).1

/-! ### Making room for a zone -/

/-- `links` have been allocated, the last one first. -/
inductive AllocatedAll (s : MinixFSSuperblock) : List ℕ → MinixFSSuperblock → Prop
  | nil : AllocatedAll s [] s
  | cons {links s' link s''} : AllocatedAll s links s' → Allocated s' link s'' → AllocatedAll s (link :: links) s''

theorem AllocatedAll.same {links : List ℕ} (h : AllocatedAll s links s') : SameButZones s s' := by
  induction h with
  | nil => exact SameButZones.refl s
  | cons _ h ih => exact ih.trans h.same

theorem AllocatedAll.layout {links : List ℕ} (h : AllocatedAll s links s') (L : Layout s) : Layout s' := by
  cases h with
  | nil => exact L
  | cons _ h => exact h.layout

/-- What is allocated can be an entry of an array. -/
theorem Allocated.entry_ok (h : Allocated s link s') : link ≠ 0 ∧ link < 256 ^ INODE_BYTES s.v3 := by
  obtain ⟨hlt, -, hne⟩ := h.layout.marked_lt ((h.marked link).mpr (.inr rfl))
  refine ⟨hne, hlt.trans_le ?_⟩
  cases s.v3 with
  | false => decide
  | true => decide

/-- The tree has the same data zones. -/
structure SameData (v3 : Bool) (t t' : MinixFSZone) : Prop where
  num : t'.num_zones_ = t.num_zones_
  raw : ∀ j, t'.rawAt v3 j = t.rawAt v3 j

/-- From `t` to `t'`, nothing but the linking zones `links` has been added. -/
structure Linking (s : MinixFSSuperblock) (t : MinixFSZone) (links : List ℕ) (s' : MinixFSSuperblock)
    (t' : MinixFSZone) : Prop where
  alloc : AllocatedAll s links s'
  tree : TreeOk s.v3 t'
  refs : t'.refs.Perm (links ++ t.refs)
  links : (zonesIn t'.links).Perm (links ++ zonesIn t.links)
  data : SameData s.v3 t t'

section Room

variable {links : List ℕ} {u u' : MinixFSZone}

theorem Linking.refl (s : MinixFSSuperblock) (ht : TreeOk s.v3 t) : Linking s t [] s t :=
  ⟨.nil, ht, .refl _, .refl _, rfl, fun _ => rfl⟩

theorem Linking.v3 (h : Linking s t links s' u) : s'.v3 = s.v3 := by rw [h.alloc.same.rest]

theorem Linking.entry_ok (h : Linking s t links s' u) (ha : Allocated s' link s'') :
    link ≠ 0 ∧ link < 256 ^ INODE_BYTES s.v3 := by
  have hok := ha.entry_ok
  rwa [h.v3] at hok

theorem Linking.extend (h : Linking s t links s' u) (ha : Allocated s' link s'') (he : Extended s.v3 u link u')
    (hl : (zonesIn u'.links).Perm (link :: zonesIn u.links)) : Linking s t (link :: links) s'' u' := by
  refine ⟨.cons h.alloc ha, he.tree, he.refs.trans (h.refs.cons link), hl.trans (h.links.cons link),
    he.num.trans h.data.num, fun j => (he.raw j).trans (h.data.raw j)⟩

theorem wp_needIndirect (L : Layout s) (h : Linking s t links s' u) :
    wp NoZone u.needIndirect (fun r s'' => ∃ links' u', u' = { r.1 with indirect_zones_ := some r.2 } ∧
      Linking s t links' s'' u') s' := by
  rw [MinixFSZone.needIndirect]
  cases hzones : u.indirect_zones_ with
  | some zones =>
    refine (wp_pure _).mpr ⟨links, u, ?_, h⟩
    rw [← hzones]
  | none =>
    refine wp_seq (wp_allocateZone (h.alloc.layout L)) fun link s'' ha => ?_
    obtain ⟨hne, hlt⟩ := h.entry_ok ha
    have hv : s''.v3 = s.v3 := by rw [ha.same.rest, h.v3]
    rw [wp_bind, wp_get, wp_pure, hv]
    exact ⟨_, _, rfl, h.extend ha (addIndirect h.tree hzones hne hlt) (links_addIndirect h.tree hzones hne _)⟩

theorem wp_needDouble (L : Layout s) (h : Linking s t links s' u) :
    wp NoZone u.needDouble (fun r s'' => ∃ links' u', u' = { r.1 with
        double_indirect_linking_zone_ := some r.2.1
        double_indirect_zones_ := some r.2.2 } ∧
      Linking s t links' s'' u') s' := by
  rw [MinixFSZone.needDouble]
  cases hentries : u.double_indirect_zones_ with
  | some entries =>
    obtain ⟨-, hnone⟩ | ⟨list, -, hlist, -, -⟩ := h.tree.shape
    · rw [hentries] at hnone
      cases hnone
    · refine (wp_pure _).mpr ⟨links, u, ?_, h⟩
      dsimp only
      rw [hlist, Option.getD_some, ← hlist, ← hentries]
  | none =>
    refine wp_seq (wp_allocateZone (h.alloc.layout L)) fun link s'' ha => ?_
    obtain ⟨hne, hlt⟩ := h.entry_ok ha
    have hv : s''.v3 = s.v3 := by rw [ha.same.rest, h.v3]
    rw [wp_bind, wp_get, wp_bind, wp_get, wp_pure, hv]
    exact ⟨_, _, rfl, h.extend ha (addDouble h.tree hentries hne hlt) (links_addDouble h.tree hentries hne _ _)⟩

end Room

theorem numZoneAddresses_pos (v3 : Bool) : 0 < NUM_ZONE_ADDRESSES v3 := by
  cases v3 with
  | false => decide
  | true => decide

def NUM_SLOTS (v3 : Bool) : ℕ := 7 + NUM_ZONE_ADDRESSES v3 + NUM_ZONE_ADDRESSES v3 * NUM_ZONE_ADDRESSES v3

/-- No zone was found, or the tree has no slot. -/
def NoSlot (v3 : Bool) (index : ℕ) (e : Panic) : Prop := NoZone e ∨ e = .badZoneIndex ∧ NUM_SLOTS v3 ≤ index

/-- What `setZone` does: it makes room for `zone` and puts it there. -/
structure Placed (s : MinixFSSuperblock) (t : MinixFSZone) (index zone : ℕ) (links : List ℕ) (s' : MinixFSSuperblock)
    (u t' : MinixFSZone) : Prop where
  room : Linking s t links s' u
  filled : Filled s.v3 u index zone t'
  links : t'.links = u.links

theorem wp_setZone (L : Layout s) (ht : TreeOk s.v3 t) (hz : zone ≠ 0) (hlt : zone < 256 ^ INODE_BYTES s.v3)
    (hfree : t.rawAt s.v3 index = 0) :
    wp (NoSlot s.v3 index) (t.setZone index zone)
      (fun t' s' => ∃ links u, Placed s t index zone links s' u t') s := by
  have hrefl := Linking.refl s ht
  rw [MinixFSZone.setZone, wp_bind, wp_get]
  by_cases hdirect : index < 7
  · rw [if_pos hdirect, wp_pure]
    exact ⟨[], t, hrefl, fillDirect ht hdirect hfree hz hlt, links_set_direct hdirect t zone _⟩
  · rw [if_neg hdirect]
    obtain ⟨i, rfl⟩ := Nat.exists_eq_add_of_le (Nat.not_lt.mp hdirect)
    dsimp only
    rw [Nat.add_sub_cancel_left]
    by_cases hind : i < NUM_ZONE_ADDRESSES s.v3
    · rw [if_pos hind]
      refine wp_seq (wp_allowed (wp_needIndirect L hrefl) fun _ he => .inl he) fun r s' h => ?_
      obtain ⟨links, u, rfl, hroom⟩ := h
      have hfill := fillIndirect hroom.tree rfl hind ((hroom.data.raw _).trans hfree) hz hlt
      exact (wp_pure _).mpr ⟨links, _, hroom, hfill, rfl⟩
    · rw [if_neg hind]
      obtain ⟨j, rfl⟩ := Nat.exists_eq_add_of_le (Nat.not_lt.mp hind)
      refine wp_seq (wp_allowed (wp_needDouble L hrefl) fun _ he => .inl he) fun r s' h => ?_
      obtain ⟨links, u, rfl, hroom⟩ := h
      have hsplit : 7 + (NUM_ZONE_ADDRESSES s.v3 + j) = 7 + NUM_ZONE_ADDRESSES s.v3 +
          (NUM_ZONE_ADDRESSES s.v3 * (j / NUM_ZONE_ADDRESSES s.v3) + j % NUM_ZONE_ADDRESSES s.v3) := by
        rw [Nat.div_add_mod, Nat.add_assoc]
      have hmod : j % NUM_ZONE_ADDRESSES s.v3 < NUM_ZONE_ADDRESSES s.v3 :=
        Nat.mod_lt _ (numZoneAddresses_pos s.v3)
      rw [Nat.add_sub_cancel_left]
      rw [hsplit] at hfree ⊢
      by_cases hk : j / NUM_ZONE_ADDRESSES s.v3 < NUM_ZONE_ADDRESSES s.v3
      · rw [if_pos hk]
        have hlength := hroom.tree.length_entries rfl
        have hk' : j / NUM_ZONE_ADDRESSES s.v3 < r.2.2.length := by
          rw [hlength]
          exact hk
        cases hentry : r.2.2.getD (j / NUM_ZONE_ADDRESSES s.v3) none with
        | some zones =>
          have hfill := fillDouble hroom.tree rfl hentry hk' hmod ((hroom.data.raw _).trans hfree) hz hlt
          exact (wp_pure _).mpr ⟨links, _, hroom, hfill, rfl⟩
        | none =>
          refine wp_seq (wp_allowed (wp_allocateZone (hroom.alloc.layout L)) fun _ he => .inl he) fun link s'' ha => ?_
          obtain ⟨hlink, hlink'⟩ := hroom.entry_ok ha
          have hmore := hroom.extend ha (addEntry hroom.tree rfl hentry hk' hlink hlink')
            (links_addEntry hroom.tree rfl hentry hk' hlink _)
          have hfill := fillDouble hmore.tree rfl (by rw [getD_set hk', if_pos rfl])
            (by rw [List.length_set]; exact hk') hmod ((hmore.data.raw _).trans hfree) hz hlt
          rw [List.set_set] at hfill
          exact (wp_pure _).mpr ⟨_, _, hmore, hfill, rfl⟩
      · rw [if_neg hk, wp_throw]
        refine .inr ⟨rfl, ?_⟩
        rw [Nat.not_lt, Nat.le_div_iff_mul_le (numZoneAddresses_pos s.v3)] at hk
        rw [Nat.div_add_mod]
        exact Nat.add_le_add_left hk _

/-! ### A tree that grows, in its file system -/

/-- The tree has `zone` at `index` besides. -/
structure Put (v3 : Bool) (t : MinixFSZone) (index zone : ℕ) (t' : MinixFSZone) : Prop where
  num : t'.num_zones_ = t.num_zones_ + 1
  raw : ∀ j, t'.rawAt v3 j = if j = index then zone else t.rawAt v3 j

theorem Placed.put {links : List ℕ} {u : MinixFSZone} (h : Placed s t index zone links s' u t') :
    Put s.v3 t index zone t' :=
  ⟨by rw [h.filled.num, h.room.data.num], fun j => by rw [h.filled.raw, h.room.data.raw]⟩

theorem Growing.allocAll {links : List ℕ} (G : Growing s i_num pending t s') (h : AllocatedAll s' links s'') :
    Growing s i_num (links ++ pending) t s'' := by
  induction h with
  | nil => exact G
  | cons _ ha ih => exact ih.alloc ha

theorem Growing.place {links : List ℕ} {u : MinixFSZone} (G : Growing s i_num (zone :: pending) t s')
    (h : Placed s' t index zone links s'' u t') : Growing s i_num pending t' s'' := by
  have Gall := G.allocAll h.room.alloc
  have hfill := h.filled.refs.trans (h.room.refs.cons zone)
  have hrefs : (pending ++ t'.refs).Perm (links ++ zone :: pending ++ t.refs) := by
    refine ((hfill.append_left pending).trans List.perm_middle).trans ?_
    rw [List.append_assoc]
    exact List.perm_append_comm_assoc (zone :: pending) links t.refs
  exact ⟨Gall.same, Gall.layout, by rw [← G.v3]; exact h.filled.tree, Gall.owned.perm hrefs⟩

theorem Growing.wp_setZone (G : Growing s i_num (zone :: pending) t s') (hfree : t.rawAt s.v3 index = 0) :
    wp (NoSlot s.v3 index) (t.setZone index zone)
      (fun t' s'' => Growing s i_num pending t' s'' ∧ Put s.v3 t index zone t') s' := by
  obtain ⟨hz, hlt⟩ := G.pending_ok
  have htree := G.tree
  rw [← G.v3] at hlt hfree htree ⊢
  refine wp_mono (KPanic.Minix.wp_setZone G.layout htree hz hlt hfree) fun t' s'' h => ?_
  obtain ⟨links, u, hplaced⟩ := h
  exact ⟨G.place hplaced, hplaced.put⟩

/-- The tree has got `n` zones behind its last one. -/
structure Added (v3 : Bool) (t : MinixFSZone) (n : ℕ) (t' : MinixFSZone) : Prop where
  num : t'.num_zones_ = t.num_zones_ + n
  old : ∀ j, ¬(t.num_zones_ ≤ j ∧ j < t.num_zones_ + n) → t'.rawAt v3 j = t.rawAt v3 j
  new : ∀ j, t.num_zones_ ≤ j → j < t.num_zones_ + n → t'.rawAt v3 j ≠ 0

theorem wp_addZones {n : ℕ} (G : Growing s i_num [] t s') (hroom : t.RoomFor s.v3 n) :
    wp (fun e => NoZone e ∨ e = .badZoneIndex ∧ NUM_SLOTS s.v3 < t.num_zones_ + n) (MinixFSInode.addZones n t)
      (fun t' s'' => Growing s i_num [] t' s'' ∧ Added s.v3 t n t') s' := by
  induction n generalizing t s' with
  | zero =>
    refine (wp_pure _).mpr ⟨G, rfl, fun _ _ => rfl, fun j hj hlt => ?_⟩
    rw [Nat.add_zero] at hlt
    exact absurd hj (Nat.not_le.mpr hlt)
  | succ n ih =>
    rw [MinixFSInode.addZones]
    refine wp_seq (wp_allowed (wp_allocateZone G.layout) fun _ he => .inl he) fun zone s₁ halloc => ?_
    have hzone := (G.alloc halloc).pending_ok
    refine wp_seq (wp_allowed ((G.alloc halloc).wp_setZone (hroom 0 (Nat.succ_pos n))) fun e he => ?_)
      fun u s₂ h => ?_
    · obtain he | ⟨he, hslots⟩ := he
      · exact .inl he
      · exact .inr ⟨he, by omega⟩
    · obtain ⟨G', hput⟩ := h
      have hroom' : u.RoomFor s.v3 n := by
        intro k hk
        have hfree := hroom (k + 1) (by omega)
        rw [hput.num, hput.raw, if_neg (by omega), show t.num_zones_ + 1 + k = t.num_zones_ + (k + 1) by omega]
        exact hfree
      refine wp_mono (wp_allowed (ih G' hroom') fun e he => ?_) fun t' s₃ hrest => ?_
      · obtain he | ⟨he, hslots⟩ := he
        · exact .inl he
        · exact .inr ⟨he, by rw [hput.num] at hslots; omega⟩
      · obtain ⟨G'', hadd⟩ := hrest
        have hnum := hput.num
        refine ⟨G'', by rw [hadd.num]; omega, fun j hj => ?_, fun j hj hlt => ?_⟩
        · rw [hadd.old j (by omega), hput.raw, if_neg (by omega)]
        · by_cases hfirst : j = t.num_zones_
          · rw [hadd.old j (by omega), hput.raw, if_pos hfirst]
            exact hzone.1
          · exact hadd.new j (by omega) (by omega)

/-! ### What the disk keeps -/

/-- `u` is `s` up to the contents of some blocks. -/
structure Rewritten (blocks : ℕ → Prop) (s u : MinixFSSuperblock) : Prop where
  rest : u = { s with disk := u.disk }
  disk : ∀ b, ¬blocks b → u.disk b = s.disk b

theorem Rewritten.refl (blocks : ℕ → Prop) (s : MinixFSSuperblock) : Rewritten blocks s s := ⟨rfl, fun _ _ => rfl⟩

theorem Rewritten.trans {blocks : ℕ → Prop} {v : MinixFSSuperblock} (h : Rewritten blocks s u)
    (h' : Rewritten blocks u v) : Rewritten blocks s v :=
  ⟨by rw [h'.rest, h.rest], fun b hb => (h'.disk b hb).trans (h.disk b hb)⟩

theorem wp_readLoop_state {inode : MinixFSInode} {size passes index zone_offset : ℕ} {buffer : Bytes.Memory} :
    wp (fun _ => True) (MinixFSInode.readLoop inode size passes zone index zone_offset buffer)
      (fun _ u => u = s) s := by
  induction passes generalizing zone index zone_offset buffer with
  | zero => exact (wp_pure _).mpr rfl
  | succ passes ih =>
    rw [MinixFSInode.readLoop, wp_bind, MinixFSZone.wp_getZone]
    refine ⟨fun disk_zone _ => ?_, fun _ _ => trivial⟩
    rw [wp_bind, Fs.wp_readZone]
    exact ⟨fun _ => ih, fun _ => trivial⟩

theorem wp_readData_state {inode : MinixFSInode} {offset size : ℕ} {buffer : Bytes.Memory} :
    wp (fun _ => True) (MinixFSInode.readData inode offset size buffer) (fun _ u => u = s) s := by
  unfold MinixFSInode.readData
  split
  · exact (wp_pure _).mpr rfl
  · exact wp_seq wp_readLoop_state fun _ _ h => (wp_pure _).mpr h

/-- The blocks of a tree, and block 0 for a slot without a zone. -/
def InTree (t : MinixFSZone) (b : ℕ) : Prop := b = 0 ∨ b ∈ t.refs

theorem inTree_of_zoneAt {v3 : Bool} (hlt : ∀ zone ∈ t.refs, zone < 2 ^ 16) (h : t.zoneAt v3 index = .ok zone) :
    InTree t (zone % 2 ^ 16) := by
  obtain rfl := rawAt_of_zoneAt h
  by_cases hzero : t.rawAt v3 index = 0
  · rw [hzero]
    exact .inl rfl
  · rw [Nat.mod_eq_of_lt (hlt _ (rawAt_mem hzero))]
    exact .inr (rawAt_mem hzero)

theorem rewritten_block {block : ℕ} {buffer : Block} {blocks : ℕ → Prop} (h : blocks block) :
    Rewritten blocks s { s with disk := update s.disk block buffer } := by
  refine ⟨rfl, fun b hb => update_of_ne ?_ _ _⟩
  rintro rfl
  exact hb h

theorem wp_writeLoop_frame {inode : MinixFSInode} {passes : ℕ} {wbuffer : Bytes.Memory}
    (hlt : ∀ zone ∈ inode.i_zones_.refs, zone < 2 ^ 16) :
    wp (fun _ => True) (MinixFSInode.writeLoop inode passes zone wbuffer)
      (fun _ u => Rewritten (InTree inode.i_zones_) s u) s := by
  induction passes generalizing zone wbuffer s with
  | zero => exact (wp_pure _).mpr (Rewritten.refl _ s)
  | succ passes ih =>
    rw [MinixFSInode.writeLoop, wp_bind, MinixFSZone.wp_getZone]
    refine ⟨fun disk_zone hzone => ?_, fun _ _ => trivial⟩
    rw [wp_bind, Fs.wp_writeZone]
    refine ⟨fun _ => ?_, fun _ => trivial⟩
    exact wp_mono ih fun _ u h => (rewritten_block (inTree_of_zoneAt hlt hzone)).trans h

theorem linked_of_same {link : ℕ} (hv : u.v3 = s.v3)
    (h : link ≠ 0 → u.disk (link % 2 ^ 16) = s.disk (link % 2 ^ 16)) : u.linked link = s.linked link := by
  unfold MinixFSSuperblock.linked
  by_cases hlink : link = 0
  · rw [if_neg fun hne => hne hlink, if_neg fun hne => hne hlink]
  · rw [if_pos hlink, if_pos hlink, MinixFSSuperblock.arrayAt, MinixFSSuperblock.arrayAt, h hlink, hv]

/-- A tree on the disk depends on its linking zones only. -/
theorem treeOf_of_same {zones : List ℕ} (hv : u.v3 = s.v3)
    (h : ∀ link ∈ (treeOf s zones).refs, u.disk (link % 2 ^ 16) = s.disk (link % 2 ^ 16)) :
    treeOf u zones = treeOf s zones := by
  have hdirect : ∀ k, zones.getD k 0 ≠ 0 → zones.getD k 0 ∈ (treeOf s zones).refs := by
    intro k hk
    unfold MinixFSZone.refs
    simp only [List.mem_append]
    exact .inl (.inl (.inl (getD_mem_zonesIn hk)))
  have hindirect : u.linked (zones.getD 7 0) = s.linked (zones.getD 7 0) :=
    linked_of_same hv fun hne => h _ (hdirect 7 hne)
  have hlinking : u.linked (zones.getD 8 0) = s.linked (zones.getD 8 0) :=
    linked_of_same hv fun hne => h _ (hdirect 8 hne)
  have hdouble : (s.linked (zones.getD 8 0)).map (fun links => links.map u.linked) =
      (s.linked (zones.getD 8 0)).map fun links => links.map s.linked := by
    cases hlinks : s.linked (zones.getD 8 0) with
    | none => rfl
    | some links =>
      refine congrArg some (List.map_congr_left fun link hlink => linked_of_same hv fun hne => h link ?_)
      have hlist : (treeOf s zones).double_indirect_linking_zone_ = some links := hlinks
      unfold MinixFSZone.refs
      rw [hlist]
      simp only [List.mem_append]
      exact .inl (.inr (mem_zonesIn.mpr ⟨hlink, hne⟩))
  unfold treeOf
  rw [hindirect, hlinking]
  dsimp only
  rw [hdouble]

/-- The tree of another inode does not change. -/
theorem treeAt_of_same {j : ℕ} (hv : u.v3 = s.v3) (hloaded : u.all_inodes_ j = s.all_inodes_ j)
    (halloc : u.allocated j ↔ s.allocated j) (hblock : u.inodeBlock j = s.inodeBlock j)
    (hentry : j ≠ 0 → s.allocated j → ∀ k < INODE_SIZE s.v3, u.disk (s.inodeBlock j % 2 ^ 16) (s.inodeOffset j + k) =
      s.disk (s.inodeBlock j % 2 ^ 16) (s.inodeOffset j + k))
    (hlinks : ∀ link ∈ s.zonesOf j, u.disk (link % 2 ^ 16) = s.disk (link % 2 ^ 16)) :
    u.treeAt j = s.treeAt j := by
  unfold MinixFSSuperblock.treeAt
  rw [hloaded]
  cases hj : s.all_inodes_ j with
  | some inode => rfl
  | none =>
    dsimp only
    by_cases hused : j ≠ 0 ∧ s.allocated j
    · rw [if_pos hused, if_pos ⟨hused.1, halloc.mpr hused.2⟩]
      have hzones : u.entryZones j = s.entryZones j := by
        unfold MinixFSSuperblock.entryZones
        rw [hv]
        refine readArray_congr fun k _ hk => ?_
        have hoffset : u.inodeOffset j = s.inodeOffset j := by
          unfold MinixFSSuperblock.inodeOffset
          rw [hv]
        rw [MinixFSSuperblock.entry, MinixFSSuperblock.entry, hblock, hoffset]
        refine hentry hused.1 hused.2 k (hk.trans_le ?_)
        cases s.v3 with
        | false => decide
        | true => decide
      rw [hzones]
      refine congrArg some (treeOf_of_same hv fun link hlink => hlinks link ?_)
      rw [MinixFSSuperblock.zonesOf, MinixFSSuperblock.treeAt, hj]
      dsimp only
      rw [if_pos hused]
      exact hlink
    · rw [if_neg hused, if_neg fun h => hused ⟨h.1, halloc.mp h.2⟩]

theorem two_le_inodeBlock (s : MinixFSSuperblock) (j : ℕ) : 2 ≤ s.inodeBlock j := by
  unfold MinixFSSuperblock.inodeBlock
  rw [Nat.add_assoc, Nat.add_assoc]
  exact Nat.le_add_right 2 _

/-- The tree that has grown is stored, and the disk was written to in that tree. -/
theorem Consistent.store (h : Consistent s) {inode inode' : MinixFSInode} (hi : s.all_inodes_ i_num = some inode)
    (G : Growing s i_num [] t s') (hw : Rewritten (InTree t) s' u) (hz : inode'.i_zones_ = t) :
    Consistent { u with all_inodes_ := update u.all_inodes_ i_num (some inode') } := by
  have howned := G.owned
  rw [List.nil_append] at howned
  have hmarked : ∀ {j}, ∀ zone ∈ update s.zonesOf i_num t.refs j, zone < 2 ^ 16 ∧ zone ≠ 0 ∧ s.s_1st_datazone_ ≤ zone := by
    intro j zone hzone
    have hmark := howned.mem_marked hzone
    obtain ⟨hlt, -, hne⟩ := G.layout.marked_lt hmark
    have hfirst := hmark.1
    rw [G.same.rest] at hfirst
    exact ⟨hlt, hne, hfirst⟩
  obtain ⟨hnonzero, halloc, -⟩ := h.loaded hi
  obtain ⟨m, hm⟩ : ∃ m, s' = { s with storage_manager_ := m } := ⟨_, G.same.rest⟩
  obtain ⟨disk, hdisk⟩ : ∃ disk, u = { s' with disk := disk } := ⟨_, hw.rest⟩
  have hsame := G.same.inodes
  have hL := G.layout
  have hkeep := hw.disk
  subst hdisk
  subst hm
  change m.inode_bitmap_ = s.storage_manager_.inode_bitmap_ at hsame
  have halloc' : ∀ {v : MinixFSSuperblock} {j}, v.storage_manager_ = m → (v.allocated j ↔ s.allocated j) := by
    intro v j hv
    rw [MinixFSSuperblock.allocated, MinixFSSuperblock.allocated, hv, hsame]
  refine ⟨⟨hL.zones, hL.inodes, hL.reserved, hL.positive, hL.first, hL.free, hL.table⟩, ?_, ?_, h.names⟩
  · intro j inode'' hj
    change update s.all_inodes_ i_num (some inode') j = some inode'' at hj
    by_cases hji : j = i_num
    · rw [hji] at hj ⊢
      rw [update_self] at hj
      obtain rfl := Option.some.inj hj
      rw [hz]
      exact ⟨hnonzero, (halloc' rfl).mpr halloc, G.tree⟩
    · rw [update_of_ne hji] at hj
      obtain ⟨hne, ha, ht⟩ := h.loaded hj
      exact ⟨hne, (halloc' rfl).mpr ha, ht⟩
  · have hzones : MinixFSSuperblock.zonesOf { s with
        storage_manager_ := m
        disk := disk
        all_inodes_ := update s.all_inodes_ i_num (some inode') } = update s.zonesOf i_num t.refs := by
      funext j
      by_cases hji : j = i_num
      · rw [hji, update_self, zonesOf_loaded (update_self _ _ _), hz]
      · rw [update_of_ne hji]
        refine congrArg (Option.elim · [] MinixFSZone.refs) (treeAt_of_same rfl (update_of_ne hji _ _) (halloc' rfl) rfl ?_ ?_)
        · intro _ ha k _
          have hlt := h.layout.table j ha
          refine congrFun (hkeep _ ?_) _
          have hblock := two_le_inodeBlock s j
          rw [Nat.mod_eq_of_lt (h.layout.table_lt ha)]
          rintro (hzero | hmem)
          · omega
          · have hfirst := (hmarked (j := i_num) _ (by rw [update_self]; exact hmem)).2.2
            omega
        · intro link hlink
          have hmem : link ∈ update s.zonesOf i_num t.refs j := by
            rw [update_of_ne hji]
            exact hlink
          obtain ⟨hlt, hne, -⟩ := hmarked link hmem
          rw [Nat.mod_eq_of_lt hlt]
          refine hkeep link ?_
          rintro (hzero | hmem')
          · exact hne hzero
          · refine howned.apart j i_num hji link hmem ?_
            rw [update_self]
            exact hmem'
    show Held (MinixFSSuperblock.zonesOf _) _
    rw [hzones]
    exact howned

end KPanic.Minix

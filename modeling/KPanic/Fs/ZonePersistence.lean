import KPanic.Fs.InodePersistence
import KPanic.Fs.ZoneRuns

/-!
# Zone trees on the disk

A tree that `addZone` has built out of an empty one is flushed, and read back from the zone numbers in
the inode. Its linking zones were free when they were allocated, so `flush` overwrites nothing else.
-/

namespace KPanic.Minix

open Function
open Wp

variable {s s' s'' u : MinixFSSuperblock} {t t' : MinixFSZone} {i_num zone : ℕ} {zones rest links : List ℕ}

namespace MinixFSZone

/-- `addZone` for one zone after the other. -/
def addAll : List ℕ → MinixFSZone → Fs MinixFSZone
  | [], t => pure t
  | zone :: zones, t => do
    let t ← t.addZone zone
    addAll zones t

/-- The zones of an inode that has had none. -/
def build (zones : List ℕ) : Fs MinixFSZone := do
  let t ← new (List.replicate (NUM_ZONES (← get).v3) 0)
  addAll zones t

end MinixFSZone

/-! ### Linking zones of one's own -/

/-- What has been allocated was not there before, and is marked now. -/
theorem AllocatedAll.once {held : List ℕ} (h : AllocatedAll s links s') (honce : held.Nodup)
    (hmarked : ∀ link ∈ held, s.Marked link) :
    (links ++ held).Nodup ∧ ∀ link ∈ links ++ held, s'.Marked link := by
  induction h with
  | nil => exact ⟨honce, hmarked⟩
  | @cons links s' link s'' _ ha ih =>
    obtain ⟨hnodup, hall⟩ := ih
    refine ⟨List.nodup_cons.mpr ⟨fun hmem => ha.free (hall link hmem), hnodup⟩, fun l hl => ?_⟩
    rw [ha.marked]
    obtain rfl | hl := List.mem_cons.mp hl
    · exact .inr rfl
    · exact .inl (hall l hl)

/-- Since `s`, `t` has got the data zones `zones`. -/
structure Built (s : MinixFSSuperblock) (zones : List ℕ) (t : MinixFSZone) (s' : MinixFSSuperblock) : Prop where
  same : SameButZones s s'
  layout : Layout s'
  tree : TreeOk s.v3 t
  num : t.num_zones_ = zones.length
  raw : ∀ j, t.rawAt s.v3 j = zones.getD j 0
  once : (zonesIn t.links).Nodup
  marked : ∀ link ∈ zonesIn t.links, s'.Marked link

theorem Built.v3 (h : Built s zones t s') : s'.v3 = s.v3 := by rw [h.same.rest]

theorem Built.place {v : MinixFSZone} (h : Built s zones t s')
    (hp : Placed s' t t.num_zones_ zone links s'' v t') : Built s (zones ++ [zone]) t' s'' := by
  have hput := hp.put
  have htree := hp.filled.tree
  obtain ⟨honce, hmarked⟩ := hp.room.alloc.once h.once h.marked
  have hlinks := hp.room.links
  rw [← hp.links] at hlinks
  rw [h.v3] at hput htree
  refine ⟨h.same.trans hp.room.alloc.same, hp.room.alloc.layout h.layout, htree, ?_, fun j => ?_,
    hlinks.nodup_iff.mpr honce, fun link hlink => hmarked link (hlinks.subset hlink)⟩
  · rw [hput.num, h.num, List.length_append, List.length_singleton]
  · rw [hput.raw, h.num, h.raw]
    by_cases hj : j = zones.length
    · rw [if_pos hj, hj]
      simp
    · rw [if_neg hj]
      by_cases hlt : j < zones.length
      · rw [List.getD_append _ _ _ _ hlt]
      · rw [List.getD_eq_default _ _ (by omega), List.getD_eq_default]
        rw [List.length_append, List.length_singleton]
        omega

theorem wp_addAll (h : Built s zones t s') (hrest : ∀ zone ∈ rest, zone ≠ 0 ∧ zone < 256 ^ INODE_BYTES s.v3)
    (hlength : zones.length + rest.length ≤ NUM_SLOTS s.v3) :
    wp NoZone (MinixFSZone.addAll rest t) (fun t' s'' => Built s (zones ++ rest) t' s'') s' := by
  induction rest generalizing zones t s' with
  | nil =>
    rw [List.append_nil]
    exact (wp_pure _).mpr h
  | cons zone rest ih =>
    obtain ⟨hz, hlt⟩ := hrest zone List.mem_cons_self
    rw [List.length_cons] at hlength
    have hfree : t.rawAt s.v3 t.num_zones_ = 0 := by
      rw [h.raw, List.getD_eq_default _ _ h.num.ge]
    have htree := h.tree
    rw [← h.v3] at hlt hfree htree
    rw [MinixFSZone.addAll]
    refine wp_seq (wp_allowed (wp_setZone h.layout htree hz hlt hfree) fun e he => ?_) fun t' s'' hplaced => ?_
    · refine he.resolve_right fun hslot => ?_
      rw [h.num, h.v3] at hslot
      omega
    · obtain ⟨links, v, hplaced⟩ := hplaced
      rw [List.append_cons]
      refine ih (h.place hplaced) (fun zone hzone => hrest zone (List.mem_cons_of_mem _ hzone)) ?_
      rw [List.length_append, List.length_singleton]
      omega

theorem treeOf_zeros (s : MinixFSSuperblock) (n : ℕ) :
    treeOf s (List.replicate n 0) = ⟨List.replicate n 0, none, none, none, 0⟩ := by
  unfold treeOf
  rw [getD_zeros, getD_zeros, MinixFSZone.linked_zero, countZones_eq, List.take_replicate, zonesIn_replicate]
  rfl

theorem Built.start (L : Layout s) : Built s [] ⟨List.replicate (NUM_ZONES s.v3) 0, none, none, none, 0⟩ s := by
  have hraw : ∀ j, MinixFSZone.rawAt s.v3 ⟨List.replicate (NUM_ZONES s.v3) 0, none, none, none, 0⟩ j = 0 := by
    intro j
    unfold MinixFSZone.rawAt
    dsimp only
    rw [getD_zeros]
    simp
  have hlinks : zonesIn (MinixFSZone.links ⟨List.replicate (NUM_ZONES s.v3) 0, none, none, none, 0⟩) = [] := by
    unfold MinixFSZone.links
    dsimp only
    rw [getD_zeros, getD_zeros]
    rfl
  refine ⟨SameButZones.refl s, L, ⟨List.length_replicate, ?_, ?_, ?_, .none, ?_⟩, rfl, hraw, ?_, ?_⟩
  · intro zone hzone
    rw [List.eq_of_mem_replicate hzone]
    exact Nat.pow_pos (by decide)
  · rw [getD_zeros]
    exact .none
  · rw [getD_zeros]
    exact .none
  · dsimp only
    rw [countZones_eq, List.take_replicate, zonesIn_replicate]
    rfl
  · rw [hlinks]
    exact List.nodup_nil
  · rw [hlinks]
    intro link hlink
    cases hlink

theorem wp_build (L : Layout s) (hzones : ∀ zone ∈ zones, zone ≠ 0 ∧ zone < 256 ^ INODE_BYTES s.v3)
    (hlength : zones.length ≤ NUM_SLOTS s.v3) :
    wp NoZone (MinixFSZone.build zones) (fun t s' => Built s zones t s') s := by
  rw [MinixFSZone.build, wp_bind, wp_get, wp_bind, MinixFSZone.wp_new, treeOf_zeros]
  have hnone : ∀ k, ¬(List.replicate (NUM_ZONES s.v3) 0).getD k 0 ≠ 0 := fun k hne => hne (getD_zeros _ k)
  refine ⟨fun _ => ?_, fun hout => absurd ⟨fun h => absurd h (hnone 7), fun h => absurd h (hnone 8),
    fun h => absurd h (hnone 8)⟩ hout⟩
  exact wp_addAll (Built.start L) hzones (by rw [List.length_nil, Nat.zero_add]; exact hlength)

/-! ### Flushed and read back -/

/-- `u` holds the zones of `t`: the constructor makes a tree with as many zones, and with the same ones. -/
def SameZones (s : MinixFSSuperblock) (zones : List ℕ) (t : MinixFSZone) (i_num : ℕ) (u : MinixFSSuperblock) : Prop :=
  ∃ t', (MinixFSZone.new (u.entryZones i_num)).run u = .ok (t', u) ∧
    t.num_zones_ = zones.length ∧ t'.num_zones_ = zones.length ∧
    ∀ index < zones.length, (t.getZone index).run s = .ok (zones.getD index 0, s) ∧
      (t'.getZone index).run u = .ok (zones.getD index 0, u)

/-- What `flush` may write: the zones in the entry, and the linking zones. -/
structure OnlyZones (s : MinixFSSuperblock) (t : MinixFSZone) (i_num : ℕ) (u : MinixFSSuperblock) : Prop where
  rest : u = { s with disk := u.disk }
  entry : ∀ k, ¬(s.inodeOffset i_num + s.zonesOffset ≤ k ∧
      k < s.inodeOffset i_num + s.zonesOffset + NUM_ZONES s.v3 * INODE_BYTES s.v3) →
    u.disk (s.inodeBlock i_num) k = s.disk (s.inodeBlock i_num) k
  others : ∀ block, block ≠ s.inodeBlock i_num → block ∉ zonesIn t.links → u.disk block = s.disk block

/-- A tree is built out of `zones`, flushed and read back, or there is no zone left for a linking zone. -/
def ZonesPersist (s : MinixFSSuperblock) (i_num : ℕ) (zones : List ℕ) : Prop :=
  (∃ t s' u, (MinixFSZone.build zones).run s = .ok (t, s') ∧ (t.flush i_num).run s' = .ok (⟨⟩, u) ∧
    SameZones s' zones t i_num u ∧ OnlyZones s' t i_num u) ∨
  ∃ e, NoZone e ∧ (MinixFSZone.build zones).run s = .error e

theorem blocksOf_eq (h : ∀ zone ∈ zonesIn zones, zone < 2 ^ 16) : blocksOf zones = zonesIn zones := by
  have hmap : (zonesIn zones).map (· % 2 ^ 16) = (zonesIn zones).map id :=
    List.map_congr_left fun zone hzone => Nat.mod_eq_of_lt (h zone hzone)
  exact hmap.trans (List.map_id _)

/-- Behind a zone that is not 0, `getZone` finds it. -/
theorem run_getZone {index : ℕ} (hnum : t.num_zones_ = zones.length) (hraw : ∀ j, t.rawAt s.v3 j = zones.getD j 0)
    (hindex : index < zones.length) (hne : ∀ zone ∈ zones, zone ≠ 0) :
    (t.getZone index).run s = .ok (zones.getD index 0, s) := by
  have hmem : zones.getD index 0 ∈ zones := by
    rw [List.getD_eq_getElem _ _ hindex]
    exact List.getElem_mem hindex
  have hat : t.zoneAt s.v3 index = .ok (zones.getD index 0) := by
    rw [← hraw]
    exact zoneAt_of_rawAt (by rw [hnum]; exact hindex) (by rw [hraw]; exact hne _ hmem)
  have hget : wp (fun _ => False) (t.getZone index) (fun zone u => zone = zones.getD index 0 ∧ u = s) s := by
    rw [MinixFSZone.wp_getZone, hat]
    refine ⟨fun zone hzone => ⟨(Except.ok.inj hzone).symm, rfl⟩, fun e he => ?_⟩
    cases he
  obtain ⟨zone, u, hrun, rfl, rfl⟩ := returns_of_wp hget
  exact hrun

/-- The blocks that `flush` writes are different ones of the device. -/
theorem Built.blocks (h : Built s zones t s') (hblock : s.inodeBlock i_num < s.s_1st_datazone_) :
    s'.inodeBlock i_num < 2 ^ 16 ∧ s'.InRange (s'.inodeBlock i_num) ∧
      (∀ link ∈ t.links, link ≠ 0 → s'.InRange link) ∧
      (∀ link ∈ zonesIn t.links, link < 2 ^ 16 ∧ s'.inodeBlock i_num ≠ link) := by
  have hblock' : s'.inodeBlock i_num < s'.s_1st_datazone_ := by
    rw [h.same.rest]
    exact hblock
  have hend := lt_min_iff.mp (hblock'.trans_le h.layout.first)
  have hlinks : ∀ link ∈ zonesIn t.links, link < 2 ^ 16 ∧ link < s'.num_blocks ∧ s'.s_1st_datazone_ ≤ link := by
    intro link hlink
    obtain ⟨hlt, hdevice, -⟩ := h.layout.marked_lt (h.marked link hlink)
    exact ⟨hlt, hdevice, (h.marked link hlink).1⟩
  refine ⟨hend.2, ?_, fun link hlink hne => ?_, fun link hlink => ?_⟩
  · rw [MinixFSSuperblock.InRange, Nat.mod_eq_of_lt hend.2]
    exact hend.1
  · obtain ⟨hlt, hdevice, -⟩ := hlinks link (mem_zonesIn.mpr ⟨hlink, hne⟩)
    rw [MinixFSSuperblock.InRange, Nat.mod_eq_of_lt hlt]
    exact hdevice
  · obtain ⟨hlt, -, hfirst⟩ := hlinks link hlink
    exact ⟨hlt, by omega⟩

theorem Built.flushed (h : Built s zones t s') (hblock : s.inodeBlock i_num < s.s_1st_datazone_)
    (hne : ∀ zone ∈ zones, zone ≠ 0) :
    ∃ u, (t.flush i_num).run s' = .ok (⟨⟩, u) ∧ SameZones s' zones t i_num u ∧ OnlyZones s' t i_num u := by
  obtain ⟨hlt, hin, hlinks, hapart⟩ := h.blocks hblock
  have htree := h.tree
  have hraw := h.raw
  rw [← h.v3] at htree hraw
  have hblocks : blocksOf t.links = zonesIn t.links := blocksOf_eq fun link hlink => (hapart link hlink).1
  have hnodup : (s'.inodeBlock i_num % 2 ^ 16 :: blocksOf t.links).Nodup := by
    rw [Nat.mod_eq_of_lt hlt, hblocks]
    exact List.nodup_cons.mpr ⟨fun hmem => (hapart _ hmem).2 rfl, h.once⟩
  obtain ⟨⟨⟩, u, hrun, hu⟩ := returns_of_wp (wp_flush htree hin hlinks hnodup)
  have hv : u.v3 = s'.v3 := by rw [hu.frame]
  have hrange : TreeInRange u t.direct_zones_ := by
    refine treeInRange_of_links hu.tree fun link hlink hzero => ?_
    have hlink' := hlinks link hlink hzero
    rw [MinixFSSuperblock.InRange] at hlink' ⊢
    rw [hu.frame]
    exact hlink'
  have hnew : wp (fun _ => False) (MinixFSZone.new (u.entryZones i_num)) (fun t' v => t' = t ∧ v = u) u := by
    rw [MinixFSZone.wp_new, hu.entryZones htree, hu.tree]
    exact ⟨fun _ => ⟨rfl, rfl⟩, fun hout => hout hrange⟩
  obtain ⟨t', v, hread, rfl, rfl⟩ := returns_of_wp hnew
  refine ⟨v, hrun, ⟨t', hread, h.num, h.num, fun index hindex => ⟨?_, ?_⟩⟩, hu.frame, fun k hk => ?_,
    fun block hself hother => ?_⟩
  · exact run_getZone h.num hraw hindex hne
  · exact run_getZone h.num (by rw [hv]; exact hraw) hindex hne
  · have hentry := congrFun hu.block k
    rw [Nat.mod_eq_of_lt hlt, Fs.patch, if_neg hk] at hentry
    exact hentry
  · refine hu.others block fun hmem => ?_
    rw [Nat.mod_eq_of_lt hlt, hblocks] at hmem
    obtain hmem | hmem := List.mem_cons.mp hmem
    · exact hself hmem
    · exact hother hmem

/-- Zones that fit the entries of the format come back from a disk whose free zones have a number. -/
theorem zone_tree_persists (L : Layout s) (hblock : s.inodeBlock i_num < s.s_1st_datazone_)
    (hzones : ∀ zone ∈ zones, zone ≠ 0 ∧ zone < 256 ^ INODE_BYTES s.v3) (hlength : zones.length ≤ NUM_SLOTS s.v3) :
    ZonesPersist s i_num zones := by
  have hbuild := wp_build L hzones hlength
  cases hrun : (MinixFSZone.build zones).run s with
  | error e => exact .inr ⟨e, error_of_wp hbuild hrun, hrun⟩
  | ok r =>
    obtain ⟨t, s'⟩ := r
    have hbuilt := of_wp hbuild hrun
    obtain ⟨u, hflush, hsame, honly⟩ := hbuilt.flushed hblock fun zone hzone => (hzones zone hzone).1
    exact .inl ⟨t, s', u, hrun, hflush, hsame, honly⟩

theorem zone_tree_persists_nine : ∃ t s' u,
    (MinixFSZone.build (List.replicate 9 6)).run mountedDisk = .ok (t, s') ∧ (t.flush 1).run s' = .ok (⟨⟩, u) ∧
      SameZones s' (List.replicate 9 6) t 1 u ∧ OnlyZones s' t 1 u := by
  have hpersist : ZonesPersist mountedDisk 1 (List.replicate 9 6) :=
    zone_tree_persists mountedDisk_consistent.layout (by decide) (by decide) (by decide)
  refine hpersist.resolve_right fun hfails => ?_
  obtain ⟨e, -, hrun⟩ := hfails
  have hbuilds : ((MinixFSZone.build (List.replicate 9 6)).run mountedDisk).toOption.isSome = true := by
    decide +kernel
  rw [hrun] at hbuilds
  cases hbuilds

/-! ### Numbers that do not fit -/

/-- How many zones come back. -/
def zonesRead (s : MinixFSSuperblock) (i_num : ℕ) (zones : List ℕ) : Except Panic ℕ := do
  let (t, s') ← (MinixFSZone.build zones).run s
  let (_, u) ← (t.flush i_num).run s'
  let (t', _) ← (MinixFSZone.new (u.entryZones i_num)).run u
  return t'.num_zones_

theorem ZonesPersist.zonesRead (h : ZonesPersist s i_num zones) :
    Minix.zonesRead s i_num zones = .ok zones.length ∨ ∃ e, Minix.zonesRead s i_num zones = .error e := by
  unfold Minix.zonesRead
  obtain ⟨t, s', u, hbuild, hflush, ⟨t', hread, -, hnum, -⟩, -⟩ | ⟨e, -, hbuild⟩ := h
  · rw [hbuild]
    left
    show ((t.flush i_num).run s' >>= _) = _
    rw [hflush]
    show ((MinixFSZone.new (u.entryZones i_num)).run u >>= _) = _
    rw [hread, ← hnum]
    rfl
  · rw [hbuild]
    exact .inr ⟨e, rfl⟩

/-- The disk in the old format. -/
def oldDisk : MinixFSSuperblock := { mountedDisk with v3 := false }

/-- A disk with 70000 zones. The inode table ends at block 65529, and the first six data zones are in
use. -/
def wideDisk : MinixFSSuperblock where
  v3 := true
  s_num_inode_bm_blocks_ := 128
  s_num_zone_bm_blocks_ := 9
  s_1st_datazone_ := 65530
  storage_manager_ := {
    inode_bitmap_ := ⟨1046256, 2, 3 :: List.replicate 130781 0⟩
    zone_bitmap_ := ⟨70000, 65543, 127 :: (List.replicate 557 0 ++ List.replicate 8192 255)⟩
    curr_zone_pos_ := 0
    curr_inode_pos_ := 0
    num_inode_bm_blocks_ := 128
    num_zone_bm_blocks_ := 9 }
  disk _ _ := 0
  num_blocks := 70000
  all_inodes_ _ := none
  dentries _ := none
  next_dentry := 0

/-- In the old format an entry has 16 bits. A linking zone with the number 2^16 is taken for none. -/
theorem large_numbers_are_lost :
    ¬ZonesPersist oldDisk 1 [65536] ∧ ¬ZonesPersist wideDisk 1 (List.replicate 8 65530) := by
  constructor
  · intro h
    have hread : (zonesRead oldDisk 1 [65536]).toOption = some 0 := by decide +kernel
    obtain hok | ⟨e, he⟩ := h.zonesRead
    · rw [hok] at hread
      cases hread
    · rw [he] at hread
      cases hread
  · intro h
    have hread : (zonesRead wideDisk 1 (List.replicate 8 65530)).toOption = some 7 := by decide +kernel
    obtain hok | ⟨e, he⟩ := h.zonesRead
    · rw [hok] at hread
      cases hread
    · rw [he] at hread
      cases hread

end KPanic.Minix

import KPanic.Fs.InodeRefusal
import KPanic.Fs.ZoneOwnership
import KPanic.Lib.PartialMap

/-!
# Calls that keep a file system consistent

What `writeData`, `writeDentry`, `rm`, `rmdir` and `delete_inode` do to the zones of inodes.
-/

namespace KPanic.Minix

open Function
open Machine
open Ownership
open Wp

variable {s s' u : MinixFSSuperblock} {t t' : MinixFSZone} {i_num offset size : ℕ} {inode : MinixFSInode}

theorem wp_loaded : wp (fun _ => True) (Fs.inode i_num) (fun inode u => u = s ∧ s.all_inodes_ i_num = some inode) s := by
  rw [Fs.inode, wp_bind, wp_get]
  cases h : s.all_inodes_ i_num with
  | none => exact (wp_throw _).mpr trivial
  | some inode => exact (wp_pure _).mpr ⟨rfl, rfl⟩

/-! ### Writing to a file -/

/-- How many zones `writeData` adds. -/
def MinixFSInode.newZones (inode : MinixFSInode) (offset size : ℕ) : ℕ :=
  if u32 (size + offset) > inode.i_size_ then (u32 (size + offset) - inode.i_size_) / ZONE_SIZE + 1 else 0

/-- `fillGap` writes no block: it takes the number of a zone in the file for the number of a block. -/
def MinixFSInode.LeavesNoGap (inode : MinixFSInode) (offset : ℕ) : Prop :=
  offset ≤ inode.i_size_ ∨ inode.i_size_ % ZONE_SIZE = 0 ∧ offset / ZONE_SIZE = inode.i_size_ / ZONE_SIZE

theorem wp_fillGap (inode : MinixFSInode) (hgap : inode.LeavesNoGap offset) (hbehind : offset > inode.i_size_) :
    wp (fun _ => True) (MinixFSInode.fillGap inode offset)
      (fun r u => r = { inode with i_size_ := offset } ∧ u = s) s := by
  obtain ⟨hmod, hdiv⟩ := hgap.resolve_left (Nat.not_le.mpr hbehind)
  unfold MinixFSInode.fillGap
  dsimp only
  rw [hmod, hdiv, Nat.sub_self]
  exact (wp_pure _).mpr ⟨rfl, rfl⟩

theorem keeps_writeData (h : Consistent s) {buffer : Bytes.Memory} (hok : ∀ inode, s.all_inodes_ i_num = some inode →
    inode.LeavesNoGap offset ∧ inode.i_zones_.RoomFor s.v3 (inode.newZones offset size)) :
    wp (fun _ => True) (MinixFSInode.writeData i_num offset size buffer) (fun _ u => Consistent u) s := by
  unfold MinixFSInode.writeData
  refine wp_seq wp_loaded fun inode u hi => ?_
  obtain ⟨rfl, hi⟩ := hi
  obtain ⟨hgap, hroom⟩ := hok inode hi
  have hadd : wp (fun _ => True) (if u32 (size + offset) > inode.i_size_ then
        MinixFSInode.addZones ((u32 (size + offset) - inode.i_size_) / ZONE_SIZE + 1) inode.i_zones_
      else pure inode.i_zones_) (fun t s' => Growing u i_num [] t s') u := by
    have hG := h.growing hi
    rw [MinixFSInode.newZones] at hroom
    split
    · rename_i hlong
      rw [if_pos hlong] at hroom
      exact wp_mono (wp_allowed (wp_addZones hG hroom) fun _ _ => trivial) fun _ _ h => h.1
    · exact (wp_pure _).mpr hG
  dsimp only
  refine wp_seq_ite hadd fun t s' G => ?_
  have hfill : wp (fun _ => True) (if offset > inode.i_size_ then
        MinixFSInode.fillGap { inode with i_zones_ := t } offset
      else pure { inode with i_zones_ := t }) (fun r v => r.i_zones_ = t ∧ v = s') s' := by
    split
    · rename_i hbehind
      refine wp_mono (wp_fillGap (s := s') { inode with i_zones_ := t } hgap hbehind) ?_
      rintro r v ⟨rfl, rfl⟩
      exact ⟨rfl, rfl⟩
    · exact (wp_pure _).mpr ⟨rfl, rfl⟩
  refine wp_seq_ite hfill fun inode' v hv => ?_
  obtain ⟨hz, rfl⟩ := hv
  refine wp_seq wp_readData_state fun r v hv => ?_
  subst hv
  have hlt : ∀ zone ∈ inode'.i_zones_.refs, zone < 2 ^ 16 := by
    intro zone hzone
    rw [hz] at hzone
    exact G.refs_lt hzone
  refine wp_seq (wp_writeLoop_frame hlt) fun _ w hw => ?_
  rw [hz] at hw
  rw [wp_bind, Fs.setInode, wp_modify, wp_pure]
  exact h.store hi G hw hz

/-! ### Entries of directories -/

theorem keeps_writeEntry (h : Consistent s) {dir dest_i_num src_i_num : ℕ} {name : List UInt8}
    (hok : dest_i_num = 0 → ∀ inode, s.all_inodes_ dir = some inode →
      (MinixFSInode.findDentry inode.i_zones_ 0).run s = .ok (none, s) → inode.i_zones_.RoomFor s.v3 1) :
    wp (fun _ => True) (MinixFSInode.writeDentry dir dest_i_num src_i_num name) (fun _ u => Consistent u) s := by
  unfold MinixFSInode.writeDentry
  rw [wp_bind, wp_get]
  refine wp_seq wp_loaded fun inode u hi => ?_
  obtain ⟨rfl, hi⟩ := hi
  refine wp_seq wp_run fun found v hfound => ?_
  have hv := of_wp (wp_findFrom inode.i_zones_) hfound
  obtain ⟨rfl, -⟩ := hv
  have hG := h.growing hi
  have hadd : wp (fun _ => True) (if found = none ∧ dest_i_num = 0 then
        Fs.allocateZone >>= inode.i_zones_.addZone
      else pure inode.i_zones_) (fun t s' => Growing v dir [] t s') v := by
    split
    · rename_i hnone
      refine wp_seq (wp_allowed (wp_allocateZone h.layout) fun _ _ => trivial) fun zone s' halloc => ?_
      rw [hnone.1, hnone.2] at hfound
      have hfree := hok hnone.2 inode hi hfound 0 Nat.one_pos
      exact wp_mono (wp_allowed ((hG.alloc halloc).wp_setZone hfree) fun _ _ => trivial) fun _ _ h => h.1
    · exact (wp_pure _).mpr hG
  refine wp_seq_ite_bind hadd fun t s' G => ?_
  have hput : ∀ dentry_pos i_size_, wp (fun _ => True) (do
      let zone ← t.getZone (dentry_pos / ZONE_SIZE)
      let dbuffer ← Fs.readZone zone
      Fs.writeZone zone (MinixFSInode.strncpy (Bytes.store 2 dbuffer (dentry_pos % ZONE_SIZE) src_i_num)
        (dentry_pos % ZONE_SIZE + INODE_BYTES v.v3) name (MAX_NAME_LENGTH v.v3))
      Fs.modifyInode dir fun inode => { inode with i_zones_ := t, i_size_ := i_size_ })
      (fun _ u => Consistent u) s' := by
    intro dentry_pos i_size_
    simp only [wp_bind, MinixFSZone.wp_getZone, Fs.wp_readZone, Fs.wp_writeZone]
    refine ⟨fun zone hzone => ⟨fun _ => ⟨fun _ => ?_, fun _ => trivial⟩, fun _ => trivial⟩, fun _ _ => trivial⟩
    rw [G.v3] at hzone
    have hblock := inTree_of_zoneAt (fun _ hmem => G.refs_lt hmem) hzone
    refine wp_seq wp_loaded fun inode' w hw => ?_
    obtain ⟨rfl, -⟩ := hw
    rw [Fs.setInode, wp_modify]
    exact h.store hi G (rewritten_block hblock) rfl
  split
  · exact hput _ _
  · by_cases hdest : dest_i_num = 0
    · dsimp only
      rw [if_pos hdest]
      exact hput _ _
    · dsimp only
      rw [if_neg hdest, wp_bind, wp_throw]
      trivial

/-! ### Changes of objects in memory -/

/-- `u` differs from `s` in objects in memory only, and inodes have the same zones. -/
structure InMemory (s u : MinixFSSuperblock) : Prop where
  rest : u = { s with
    all_inodes_ := u.all_inodes_
    dentries := u.dentries
    next_dentry := u.next_dentry }
  trees : ∀ j, (u.all_inodes_ j).map (·.i_zones_) = (s.all_inodes_ j).map (·.i_zones_)
  names : NamesOk s → NamesOk u

instance : IsPreorder MinixFSSuperblock InMemory where
  refl _ := ⟨rfl, fun _ => rfl, id⟩
  trans _ _ _ h h' :=
    ⟨by rw [h'.rest, h.rest], fun j => (h'.trees j).trans (h.trees j), fun hn => h'.names (h.names hn)⟩

theorem InMemory.treeAt (h : InMemory s u) (j : ℕ) : u.treeAt j = s.treeAt j := by
  have htree := h.trees j
  rw [h.rest] at htree ⊢
  unfold MinixFSSuperblock.treeAt
  dsimp only at htree ⊢
  cases hs : s.all_inodes_ j with
  | none =>
    rw [hs, Option.map_none, Option.map_eq_none_iff] at htree
    rw [htree]
    rfl
  | some inode =>
    rw [hs, Option.map_some, Option.map_eq_some_iff] at htree
    obtain ⟨inode', hu, hz⟩ := htree
    rw [hu]
    exact congrArg some hz

theorem InMemory.consistent (h : InMemory s u) (hs : Consistent s) : Consistent u := by
  have hzones : u.zonesOf = s.zonesOf :=
    funext fun j => congrArg (Option.elim · [] MinixFSZone.refs) (h.treeAt j)
  have hnames := h.names hs.names
  have htrees := h.trees
  rw [h.rest] at hzones hnames htrees ⊢
  have hL := hs.layout
  refine ⟨⟨hL.zones, hL.inodes, hL.reserved, hL.positive, hL.first, hL.free, hL.table⟩, ?_, ?_, hnames⟩
  · intro j inode hj
    have htree := htrees j
    dsimp only at htree hj
    rw [hj, Option.map_some, eq_comm, Option.map_eq_some_iff] at htree
    obtain ⟨inode', hs', hz⟩ := htree
    rw [← hz]
    exact hs.loaded hs'
  · rw [hzones]
    exact hs.owned

theorem memory_inode (i_num : ℕ) : Stays InMemory (Fs.inode i_num) := by
  intro s
  refine wp_mono wp_loaded fun inode u hu => ?_
  rw [hu.1]
  exact refl_of InMemory s

theorem wp_dentry {d : ℕ} :
    wp (fun _ => True) (Fs.dentry d) (fun dentry u => u = s ∧ s.dentries d = some dentry) s := by
  rw [Fs.dentry, wp_bind, wp_get]
  cases h : s.dentries d with
  | none => exact (wp_throw _).mpr trivial
  | some dentry => exact (wp_pure _).mpr ⟨rfl, rfl⟩

theorem memory_dentry (d : ℕ) : Stays InMemory (Fs.dentry d) := by
  intro s
  refine wp_mono wp_dentry fun dentry u hu => ?_
  rw [hu.1]
  exact refl_of InMemory s

theorem memory_setDentry {d : ℕ} {dentry : Option Dentry}
    (hd : ∀ dentry', dentry = some dentry' → dentry'.d_inode_ ≠ some 0) : Stays InMemory (Fs.setDentry d dentry) := by
  intro s
  refine (wp_modify _ _).mpr ⟨rfl, fun _ => rfl, fun hn d' dentry' h => ?_⟩
  change update s.dentries d dentry d' = some dentry' at h
  by_cases hdd : d' = d
  · rw [hdd, update_self] at h
    exact hd dentry' h
  · rw [update_of_ne hdd] at h
    exact hn d' dentry' h

theorem memory_modifyDentry {d : ℕ} {f : Dentry → Dentry}
    (hf : ∀ dentry, dentry.d_inode_ ≠ some 0 → (f dentry).d_inode_ ≠ some 0) :
    Stays InMemory (Fs.modifyDentry d f) := by
  intro s
  refine wp_seq wp_dentry fun dentry u hu => ?_
  obtain ⟨rfl, hd⟩ := hu
  refine (wp_modify _ _).mpr ⟨rfl, fun _ => rfl, fun hn d' dentry' h => ?_⟩
  change update u.dentries d (some (f dentry)) d' = some dentry' at h
  by_cases hdd : d' = d
  · rw [hdd, update_self] at h
    rw [← Option.some.inj h]
    exact hf dentry (hn d dentry hd)
  · rw [update_of_ne hdd] at h
    exact hn d' dentry' h

theorem memory_modifyInode {f : MinixFSInode → MinixFSInode} (hf : ∀ inode, (f inode).i_zones_ = inode.i_zones_) :
    Stays InMemory (Fs.modifyInode i_num f) := by
  intro s
  refine wp_seq wp_loaded fun inode u hu => ?_
  obtain ⟨rfl, hi⟩ := hu
  refine (wp_modify _ _).mpr ⟨rfl, fun j => ?_, id⟩
  refine PartialMap.map_update ?_ j
  rw [hi]
  exact congrArg some (hf inode)

theorem memory_deref {α : Type} (p : Option α) : Stays InMemory (Fs.deref p) := by
  cases p with
  | none => exact stays_throw _
  | some a => exact stays_pure a

theorem memory_childRemove (parent d : ℕ) : Stays InMemory (Fs.childRemove parent d) :=
  stays_bind (memory_modifyDentry fun _ h => h) fun _ => memory_modifyDentry fun _ h => h

theorem memory_orphan (ds : List ℕ) : Stays InMemory (Fs.orphan ds) := by
  induction ds with
  | nil => exact stays_pure _
  | cons d ds ih => exact stays_bind (memory_modifyDentry fun _ h => h) fun _ => ih

theorem memory_deleteDentry (d : ℕ) : Stays InMemory (Fs.deleteDentry d) := by
  have hrest : Stays InMemory (do
      Fs.orphan (← Fs.dentry d).d_child_
      Fs.setDentry d none) := by
    refine stays_bind (memory_dentry d) fun dentry => stays_bind (memory_orphan _) fun _ => ?_
    exact memory_setDentry fun _ h => by cases h
  unfold Fs.deleteDentry
  refine stays_bind (memory_dentry d) fun dentry => ?_
  split
  · exact hrest
  · rename_i parent _
    exact stays_ite (fun _ => stays_bind (memory_childRemove parent d) fun _ => hrest) fun _ => hrest

theorem memory_deleteDentries (ds : List ℕ) : Stays InMemory (Fs.deleteDentries ds) := by
  induction ds with
  | nil => exact stays_pure _
  | cons d ds ih => exact stays_bind (memory_deleteDentry d) fun _ => ih

theorem memory_namesOf (ds : List ℕ) : Stays InMemory (MinixFSInode.namesOf ds) := by
  induction ds with
  | nil => exact stays_pure _
  | cons d ds ih => exact stays_bind (memory_dentry d) fun _ => stays_bind ih fun _ => stays_pure _

/-- A program that changes objects in memory, in front of the rest. -/
theorem keeps_memory {α β : Type} {m : Fs α} {f : α → Fs β} (hm : Stays InMemory m) (h : Consistent s)
    (hf : ∀ a u, Consistent u → wp (fun _ => True) (f a) (fun _ v => Consistent v) u) :
    wp (fun _ => True) (m >>= f) (fun _ v => Consistent v) s :=
  wp_seq (hm s) fun a u hu => hf a u (hu.consistent h)

/-- As `keeps_memory`, for the inode that a `Dentry` has. -/
theorem keeps_derefInode {β : Type} {d : ℕ} {f : ℕ → Fs β} (h : Consistent s)
    (hf : ∀ i_num u, i_num ≠ 0 → Consistent u → wp (fun _ => True) (f i_num) (fun _ v => Consistent v) u) :
    wp (fun _ => True) (do
      let dentry ← Fs.dentry d
      let i_num ← Fs.deref dentry.d_inode_
      f i_num) (fun _ v => Consistent v) s := by
  refine wp_seq wp_dentry fun dentry u hu => ?_
  obtain ⟨rfl, hd⟩ := hu
  have hne := h.names d dentry hd
  cases hi : dentry.d_inode_ with
  | none =>
    rw [wp_bind]
    exact (wp_throw _).mpr trivial
  | some i_num =>
    rw [hi] at hne
    rw [wp_bind]
    refine (wp_pure _).mpr (hf i_num u ?_ h)
    rintro rfl
    exact hne rfl

theorem keeps_entry {β : Type} {dir dest_i_num src_i_num : ℕ} {name : List UInt8} {f : PUnit → Fs β}
    (h : Consistent s) (hdest : dest_i_num ≠ 0)
    (hf : ∀ u, Consistent u → wp (fun _ => True) (f ⟨⟩) (fun _ v => Consistent v) u) :
    wp (fun _ => True) (MinixFSInode.writeDentry dir dest_i_num src_i_num name >>= f)
      (fun _ v => Consistent v) s :=
  wp_seq (keeps_writeEntry h fun hzero => absurd hzero hdest) fun _ u hu => hf u hu

theorem keeps_rm (h : Consistent s) : wp (fun _ => True) (MinixFSInode.rm i_num) (fun _ u => Consistent u) s := by
  unfold MinixFSInode.rm
  refine keeps_memory (memory_inode i_num) h fun inode u hu => ?_
  refine wp_ite (fun _ => (wp_pure _).mpr hu) fun _ => ?_
  refine keeps_memory (memory_deref _) hu fun d u hu => ?_
  refine keeps_memory (memory_dentry d) hu fun dentry u hu => ?_
  refine wp_ite (fun _ => ?_) fun _ => (wp_pure _).mpr hu
  refine keeps_memory (memory_modifyInode fun _ => rfl) hu fun _ u hu => ?_
  refine keeps_memory (memory_deref _) hu fun parent_dentry u hu => ?_
  refine keeps_memory (memory_childRemove _ _) hu fun _ u hu => ?_
  refine keeps_derefInode hu fun parent u _ hu => ?_
  refine keeps_derefInode hu fun dest_i_num u hdest hu => ?_
  refine keeps_entry hu hdest fun u hu => ?_
  refine keeps_memory (memory_modifyInode fun _ => rfl) hu fun _ u hu => ?_
  refine keeps_memory (memory_modifyDentry fun _ _ hnone => by cases hnone) hu fun _ u hu => ?_
  refine keeps_memory (memory_deleteDentry _) hu fun _ u hu => ?_
  exact keeps_memory (memory_modifyInode fun _ => rfl) hu fun _ u hu => (wp_pure _).mpr hu

theorem keeps_rmdir (h : Consistent s) :
    wp (fun _ => True) (MinixFSInode.rmdir i_num) (fun _ u => Consistent u) s := by
  unfold MinixFSInode.rmdir
  refine wp_seq wp_loaded fun inode u hloaded => ?_
  obtain ⟨rfl, hloaded⟩ := hloaded
  have hi := (h.loaded hloaded).1
  have hu := h
  refine wp_ite (fun _ => (wp_pure _).mpr hu) fun _ => ?_
  refine keeps_memory (memory_deref _) hu fun d u hu => ?_
  refine keeps_memory (memory_dentry d) hu fun dentry u hu => ?_
  refine keeps_memory (memory_namesOf _) hu fun names u hu => ?_
  refine wp_ite (fun _ => (wp_pure _).mpr hu) fun _ => ?_
  refine keeps_memory (memory_deref _) hu fun parent_dentry u hu => ?_
  refine keeps_memory (memory_childRemove _ _) hu fun _ u hu => ?_
  refine keeps_derefInode hu fun parent u hparent hu => ?_
  refine keeps_entry hu hi fun u hu => ?_
  refine keeps_memory (memory_modifyInode fun _ => rfl) hu fun _ u hu => ?_
  refine keeps_entry hu hparent fun u hu => ?_
  refine keeps_memory (memory_modifyInode fun _ => rfl) hu fun _ u hu => ?_
  refine keeps_entry hu hi fun u hu => ?_
  refine keeps_memory (memory_modifyInode fun _ => rfl) hu fun _ u hu => ?_
  refine keeps_memory (memory_modifyDentry fun _ _ hnone => by cases hnone) hu fun _ u hu => ?_
  refine keeps_memory (memory_deleteDentry _) hu fun _ u hu => ?_
  exact keeps_memory (memory_modifyInode fun _ => rfl) hu fun _ u hu => (wp_pure _).mpr hu

/-! ### Deleting an inode -/

/-- The zone has a bit in the bitmap. -/
def InBitmap (s : MinixFSSuperblock) (zone : ℕ) : Prop :=
  s.s_1st_datazone_ ≤ zone ∧ zone < s.zoneEnd ∧ zone + 1 - s.s_1st_datazone_ < s.storage_manager_.zone_bitmap_.size_

/-- The bits of `zones` have been cleared. -/
structure Freed (zones : List ℕ) (s u : MinixFSSuperblock) : Prop where
  same : SameButZones s u
  layout : Layout u
  marked : ∀ b, u.Marked b ↔ s.Marked b ∧ b ∉ zones

theorem Freed.nil (L : Layout s) : Freed [] s s :=
  ⟨SameButZones.refl s, L, fun b => by simp⟩

theorem Freed.append {zones zones' : List ℕ} {v : MinixFSSuperblock} (h : Freed zones s u) (h' : Freed zones' u v) :
    Freed (zones ++ zones') s v := by
  refine ⟨h.same.trans h'.same, h'.layout, fun b => ?_⟩
  rw [h'.marked, h.marked, List.mem_append, not_or, and_assoc]

theorem InBitmap.of_same {zone : ℕ} (h : InBitmap s zone) (hs : SameButZones s u) : InBitmap u zone := by
  unfold InBitmap
  rw [hs.size]
  have hfirst : u.s_1st_datazone_ = s.s_1st_datazone_ := by rw [hs.rest]
  have hend : u.zoneEnd = s.zoneEnd := by
    rw [hs.rest]
    rfl
  rw [hfirst, hend]
  exact h

theorem wp_freeZone {zone : ℕ} (L : Layout s) (hz : InBitmap s zone) :
    wp (fun _ => False) (Fs.freeZone zone) (fun _ u => Freed [zone] s u) s := by
  obtain ⟨hfirst, hin, hpos⟩ := hz
  have hend := zoneEnd_le s
  have hpositive := L.positive
  have hmod : zone % 2 ^ 16 = zone := Nat.mod_eq_of_lt (by omega)
  have hrun : s.storage_manager_.freeZone (zone + 1 - s.s_1st_datazone_) = .ok { s.storage_manager_ with
      zone_bitmap_ := (s.storage_manager_.zone_bitmap_.unsetBit (zone + 1 - s.s_1st_datazone_)).2 } := by
    rw [MinixStorageManager.freeZone, if_pos hpos]
  rw [Fs.freeZone, wp_bind, wp_get, hmod, wp_bind, Fs.wp_assert]
  refine ⟨fun _ => ?_, fun hnot => hnot (by omega)⟩
  rw [hrun, wp_bind, wp_lift_ok, wp_set]
  have hbits := Bitmap.getBit_unsetBit L.zones hpos
  refine ⟨⟨rfl, rfl, Bitmap.unsetBit_size _ _⟩, ⟨Bitmap.unsetBit_ok L.zones hpos, L.inodes, ?_, L.positive, L.first,
    ?_, L.table⟩, fun b => ?_⟩
  · dsimp only
    rw [hbits, if_neg (by omega)]
    exact L.reserved
  · dsimp only
    intro k hk hclear
    rw [Bitmap.unsetBit_size] at hk
    rw [hbits] at hclear
    split at hclear
    · have hlast : k + s.s_1st_datazone_ ≤ s.zoneEnd := by omega
      exact hlast
    · exact L.free k hk hclear
  · unfold MinixFSSuperblock.Marked
    dsimp only
    rw [Bitmap.unsetBit_size, hbits, List.mem_singleton]
    constructor
    · rintro ⟨hb, hbend, hlt, hset⟩
      split at hset
      · cases hset
      · rename_i hne
        refine ⟨⟨hb, hbend, hlt, hset⟩, ?_⟩
        rintro rfl
        exact hne rfl
    · rintro ⟨⟨hb, hbend, hlt, hset⟩, hne⟩
      refine ⟨hb, hbend, hlt, ?_⟩
      rw [if_neg (by omega)]
      exact hset

theorem wp_freeAll {zones : List ℕ} (L : Layout s) (hz : ∀ zone ∈ zonesIn zones, InBitmap s zone) :
    wp (fun _ => False) (MinixFSZone.freeAll zones) (fun _ u => Freed (zonesIn zones) s u) s := by
  induction zones generalizing s with
  | nil => exact (wp_pure _).mpr (Freed.nil L)
  | cons zone zones ih =>
    rw [MinixFSZone.freeAll]
    by_cases hzero : zone = 0
    · have hskip : zonesIn (zone :: zones) = zonesIn zones := by
        rw [hzero]
        rfl
      rw [hskip] at hz ⊢
      rw [if_neg (not_not_intro hzero)]
      exact ih L hz
    · have hcons : zonesIn (zone :: zones) = [zone] ++ zonesIn zones := List.filter_cons_of_pos (by simpa using hzero)
      rw [hcons] at hz ⊢
      rw [if_pos hzero]
      refine wp_seq (wp_freeZone L (hz zone List.mem_cons_self)) fun _ u hu => ?_
      have hrest : ∀ zone ∈ zonesIn zones, InBitmap u zone :=
        fun zone hzone => (hz zone (List.mem_cons_of_mem _ hzone)).of_same hu.same
      exact wp_mono (ih hu.layout hrest) fun _ v hv => hu.append hv

theorem wp_freeDouble {entries : List (Option (List ℕ))} (L : Layout s)
    (hz : ∀ zone ∈ entries.flatMap fun entry => zonesIn (entry.getD []), InBitmap s zone) :
    wp (fun _ => False) (MinixFSZone.freeDouble entries)
      (fun _ u => Freed (entries.flatMap fun entry => zonesIn (entry.getD [])) s u) s := by
  induction entries generalizing s with
  | nil => exact (wp_pure _).mpr (Freed.nil L)
  | cons entry entries ih =>
    rw [List.flatMap_cons] at hz ⊢
    cases entry with
    | none => exact ih L hz
    | some zones =>
      refine wp_seq (wp_freeAll L fun zone hzone => hz zone (List.mem_append_left _ hzone)) fun _ u hu => ?_
      have hrest : ∀ zone ∈ entries.flatMap fun entry => zonesIn (entry.getD []), InBitmap u zone :=
        fun zone hzone => (hz zone (List.mem_append_right _ hzone)).of_same hu.same
      exact wp_mono (ih hu.layout hrest) fun _ v hv => hu.append hv

/-- `freeZones` comes to all zones: there are no double indirect ones without an indirect array. -/
def MinixFSZone.NoneLeft (t : MinixFSZone) : Prop :=
  t.indirect_zones_ = none → ∀ link ∈ t.double_indirect_linking_zone_.getD [], link = 0

theorem noEntries {v3 : Bool} {links : List ℕ} {entries : List (Option (List ℕ))}
    (h : List.Forall₂ (Linked v3) links entries) (hzero : ∀ link ∈ links, link = 0) :
    zonesIn links = [] ∧ entries.flatMap (fun entry => zonesIn (entry.getD [])) = [] := by
  induction h with
  | nil => exact ⟨rfl, rfl⟩
  | cons hhead _ ih =>
    rw [List.forall_mem_cons] at hzero
    obtain ⟨hlinks, hentries⟩ := ih hzero.2
    have hfirst := hzero.1
    subst hfirst
    cases hhead with
    | none => exact ⟨hlinks, hentries⟩
    | some hne _ => exact absurd rfl hne

theorem wp_freeZones (ht : TreeOk s.v3 t) (L : Layout s) (hz : ∀ zone ∈ t.refs, InBitmap s zone) (hleft : t.NoneLeft) :
    wp (fun _ => False) (MinixFSZone.freeZones t) (fun _ u => Freed t.refs s u) s := by
  have hshape := ht.shape
  have hparts : ∀ {l : List ℕ}, (∀ zone ∈ l, zone ∈ t.refs) → ∀ {u}, SameButZones s u → ∀ zone ∈ l, InBitmap u zone :=
    fun hl _ hu zone hzone => (hz zone (hl zone hzone)).of_same hu
  unfold MinixFSZone.refs at hparts ⊢
  simp only [List.mem_append] at hparts
  unfold MinixFSZone.freeZones
  have hdirect := hparts (l := zonesIn t.direct_zones_) (fun _ h => .inl (.inl (.inl h))) (SameButZones.refl s)
  refine wp_seq (wp_freeAll L hdirect) fun _ u hu => ?_
  cases hind : t.indirect_zones_ with
  | none =>
    have hzero := hleft hind
    obtain ⟨hlinks, hdouble⟩ | ⟨links, entries, hlinks, hdouble, hlinked⟩ := hshape
    · rw [hdouble, hlinks]
      simpa [zonesIn] using hu
    · rw [hlinks] at hzero
      obtain ⟨hnolinks, hnoentries⟩ := noEntries hlinked hzero
      rw [hdouble, hlinks, Option.getD_some, Option.getD_some, hnolinks, hnoentries]
      simpa [zonesIn] using hu
  | some zones =>
    rw [hind] at hparts
    refine wp_seq (wp_freeAll hu.layout (hparts (fun _ h => .inl (.inl (.inr h))) hu.same)) fun _ v hv => ?_
    have huv := hu.append hv
    obtain ⟨hlinks, hdouble⟩ | ⟨links, entries, hlinks, hdouble, -⟩ := hshape
    · rw [hdouble, hlinks]
      simpa [zonesIn] using huv
    · rw [hlinks, hdouble] at hparts ⊢
      refine wp_seq (wp_freeAll hv.layout (hparts (fun _ h => .inl (.inr h)) huv.same)) fun _ w hw => ?_
      have huw := huv.append hw
      exact wp_mono (wp_freeDouble hw.layout (hparts (fun _ h => .inr h) huw.same)) fun _ _ h => huw.append h

theorem wp_writeBytes_any {block offset size : ℕ} {buffer : Block} :
    wp (fun _ => True) (Fs.writeBytes block offset size buffer) (fun _ u => u = { s with
      disk := update s.disk (block % 2 ^ 16) (Fs.patch (s.disk (block % 2 ^ 16)) offset size buffer) }) s := by
  rw [Fs.writeBytes, wp_bind, Fs.wp_assert]
  refine ⟨fun _ => ?_, fun _ => trivial⟩
  rw [wp_bind, Fs.wp_readZone]
  refine ⟨fun _ => ?_, fun _ => trivial⟩
  rw [Fs.wp_writeZone]
  exact ⟨fun _ => rfl, fun _ => trivial⟩

/-- The entries of two inodes do not overlap. -/
theorem entries_apart {i j k : ℕ} (hi : i ≠ 0) (hj : j ≠ 0) (hne : j ≠ i) (hblock : s.inodeBlock j = s.inodeBlock i)
    (hk : k < INODE_SIZE s.v3) :
    ¬(s.inodeOffset i ≤ s.inodeOffset j + k ∧ s.inodeOffset j + k < s.inodeOffset i + INODE_SIZE s.v3) := by
  rw [MinixFSSuperblock.inodeBlock_eq, MinixFSSuperblock.inodeBlock_eq] at hblock
  rw [MinixFSSuperblock.inodeOffset_eq, MinixFSSuperblock.inodeOffset_eq]
  have hslot : (i - 1) % INODES_PER_BLOCK s.v3 ≠ (j - 1) % INODES_PER_BLOCK s.v3 := by
    intro hslot
    have hi' := Nat.div_add_mod (i - 1) (INODES_PER_BLOCK s.v3)
    have hj' := Nat.div_add_mod (j - 1) (INODES_PER_BLOCK s.v3)
    rw [Nat.add_left_cancel hblock, ← hslot, hi'] at hj'
    omega
  have hapart := slots_apart hslot hk
  omega

/-- The file system without the inode. -/
theorem Consistent.remove (h : Consistent s) (hi : s.all_inodes_ i_num = some inode)
    {s₁ : MinixFSSuperblock} (hfree : Freed inode.i_zones_.refs s s₁) {block : Block} {v : MinixFSSuperblock}
    (hv : v = { s₁ with
      all_inodes_ := update s.all_inodes_ i_num none
      storage_manager_ := { s₁.storage_manager_ with
        inode_bitmap_ := (s₁.storage_manager_.inode_bitmap_.unsetBit i_num).2 }
      disk := update s.disk (s.inodeBlock i_num % 2 ^ 16)
        (Fs.patch (s.disk (s.inodeBlock i_num % 2 ^ 16)) (s.inodeOffset i_num) (INODE_SIZE s.v3) block) }) :
    Consistent v ∧ ∀ b, v.Marked b ↔ s.Marked b ∧ b ∉ inode.i_zones_.refs := by
  obtain ⟨hnonzero, halloc, -⟩ := h.loaded hi
  obtain ⟨m, hm⟩ : ∃ m, s₁ = { s with storage_manager_ := m } := ⟨_, hfree.same.rest⟩
  have hL := hfree.layout
  have hinodes := hfree.same.inodes
  have hmarked := hfree.marked
  subst hm
  change m.inode_bitmap_ = s.storage_manager_.inode_bitmap_ at hinodes
  rw [hinodes] at hv
  have hlt := halloc.1
  have hbits := Bitmap.getBit_unsetBit h.layout.inodes hlt
  have halloc' : ∀ j, v.allocated j ↔ s.allocated j ∧ j ≠ i_num := by
    intro j
    rw [hv]
    unfold MinixFSSuperblock.allocated
    dsimp only
    rw [Bitmap.unsetBit_size, hbits]
    by_cases hj : j = i_num
    · simp [hj]
    · simp [hj]
  have hmarked' : ∀ b, v.Marked b ↔ s.Marked b ∧ b ∉ inode.i_zones_.refs := by
    intro b
    rw [← hmarked, hv]
    rfl
  have hzones : v.zonesOf = update s.zonesOf i_num [] := by
    funext j
    by_cases hj : j = i_num
    · have hnone : v.treeAt j = none := by
        have hloaded : v.all_inodes_ j = none := by
          rw [hv, hj]
          exact update_self _ _ _
        unfold MinixFSSuperblock.treeAt
        rw [hloaded]
        exact if_neg fun hused => ((halloc' j).mp hused.2).2 hj
      rw [MinixFSSuperblock.zonesOf, hnone, hj, update_self]
      rfl
    · rw [update_of_ne hj]
      have hiblock := h.layout.table_lt halloc
      refine congrArg (Option.elim · [] MinixFSZone.refs) (treeAt_of_same ?_ ?_ ?_ ?_ ?_ ?_)
      · rw [hv]
      · rw [hv]
        exact update_of_ne hj _ _
      · rw [halloc']
        exact and_iff_left hj
      · rw [hv]
        rfl
      · intro hj0 ha k hk
        have hjblock := h.layout.table_lt ha
        rw [hv]
        dsimp only
        rw [Nat.mod_eq_of_lt hjblock, Nat.mod_eq_of_lt hiblock]
        by_cases hblock : s.inodeBlock j = s.inodeBlock i_num
        · rw [hblock, update_self, Fs.patch, if_neg (entries_apart hnonzero hj0 hj hblock hk)]
        · rw [update_of_ne hblock]
      · intro link hlink
        have hmark := h.owned.mem_marked hlink
        obtain ⟨hlt', -, -⟩ := h.layout.marked_lt hmark
        have hfirst := hmark.1
        have htable := h.layout.table i_num halloc
        rw [hv, Nat.mod_eq_of_lt hlt', Nat.mod_eq_of_lt hiblock]
        exact update_of_ne (by omega) _ _
  refine ⟨⟨?_, ?_, ?_, ?_⟩, hmarked'⟩
  · have htable : ∀ j, v.allocated j → v.inodeBlock j < v.s_1st_datazone_ := by
      intro j hj
      have hlt := h.layout.table j ((halloc' j).mp hj).1
      rw [hv]
      exact hlt
    rw [hv] at htable ⊢
    exact ⟨hL.zones, Bitmap.unsetBit_ok h.layout.inodes hlt, hL.reserved, hL.positive, hL.first, hL.free, htable⟩
  · intro j inode' hj
    rw [hv] at hj
    obtain ⟨hji, hold⟩ := PartialMap.update_none_eq_some.mp hj
    obtain ⟨hne, ha, ht⟩ := h.loaded hold
    refine ⟨hne, (halloc' j).mpr ⟨ha, hji⟩, ?_⟩
    rw [hv]
    exact ht
  · rw [hzones]
    refine h.owned.drop fun b => ?_
    rw [hmarked', zonesOf_loaded hi]
  · rw [hv]
    exact h.names

theorem wp_delete_inode (h : Consistent s) (hi : s.all_inodes_ i_num = some inode) (hleft : inode.i_zones_.NoneLeft) :
    wp (fun _ => True) (MinixFSSuperblock.delete_inode i_num)
      (fun _ u => Consistent u ∧ ∀ b, u.Marked b ↔ s.Marked b ∧ b ∉ inode.i_zones_.refs) s := by
  have hrange : ∀ zone ∈ inode.i_zones_.refs, InBitmap s zone := by
    intro zone hzone
    rw [← zonesOf_loaded hi] at hzone
    have hmark := h.owned.mem_marked hzone
    exact ⟨hmark.1, hmark.2.1, hmark.2.2.1⟩
  unfold MinixFSSuperblock.delete_inode
  refine wp_seq wp_loaded fun inode' u hu => ?_
  obtain ⟨rfl, hi'⟩ := hu
  obtain rfl : inode = inode' := Option.some.inj (hi.symm.trans hi')
  rw [wp_bind, Fs.wp_assert]
  refine ⟨fun _ => ?_, fun _ => trivial⟩
  rw [wp_bind, Fs.wp_assert]
  refine ⟨fun _ => ?_, fun _ => trivial⟩
  rw [wp_bind, Fs.setInode, wp_modify]
  have hL := h.layout
  obtain ⟨hnonzero, halloc, ht⟩ := h.loaded hi
  refine wp_seq (wp_allowed (wp_freeZones (t := inode.i_zones_) ht
    ⟨hL.zones, hL.inodes, hL.reserved, hL.positive, hL.first, hL.free, hL.table⟩ hrange hleft)
    fun _ he => he.elim) fun _ s₁ hfreed => ?_
  obtain ⟨m, rfl⟩ : ∃ m, s₁ = { u with
      all_inodes_ := update u.all_inodes_ i_num none
      storage_manager_ := m } := ⟨_, hfreed.same.rest⟩
  have hL' := hfreed.layout
  have hfree : Freed inode.i_zones_.refs u { u with storage_manager_ := m } :=
    ⟨⟨rfl, hfreed.same.inodes, hfreed.same.size⟩,
      ⟨hL'.zones, hL'.inodes, hL'.reserved, hL'.positive, hL'.first, hL'.free, hL'.table⟩, hfreed.marked⟩
  have hsize : i_num < m.inode_bitmap_.size_ := by
    have hinodes := hfreed.same.inodes
    change m.inode_bitmap_ = u.storage_manager_.inode_bitmap_ at hinodes
    rw [hinodes]
    exact halloc.1
  have hrun : m.freeInode i_num = .ok { m with inode_bitmap_ := (m.inode_bitmap_.unsetBit i_num).2 } := by
    rw [MinixStorageManager.freeInode, if_pos hsize]
  rw [wp_bind, wp_get, hrun, wp_bind, wp_lift_ok, wp_bind, wp_set]
  refine wp_seq wp_writeBytes_any fun _ v hv => ?_
  obtain ⟨hv', hmarked⟩ := h.remove hi hfree hv
  refine wp_mono (memory_deleteDentries _ v) fun _ w hw => ⟨hw.consistent hv', fun b => ?_⟩
  rw [← hmarked, hw.rest]
  rfl

end KPanic.Minix

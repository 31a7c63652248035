import KPanic.Lib.Machine
import KPanic.Fs.ZoneTree

/-!
# Which inodes `getInode` refuses

`getInode` compares the number of an inode with the number of used inodes. Used inodes are all
found as long as the bitmap has no gaps: the used ones are those below their number.
-/

namespace KPanic.Minix

open Bytes
open Function
open Machine
open Wp

/-! ### Gaps in a bitmap -/

structure Dense (bm : Bitmap) : Prop where
  ok : bm.Ok
  bits : ∀ i < bm.size_, Bitmap.getBit bm.bitmap_ i = true ↔ i < bm.num_bits_set_

/-- As many bits as there are below the count, and none above it. -/
theorem count_dense {p : ℕ → Bool} {n : ℕ} (h : ∀ i < n, p i = true → i < Nat.count (p ·) n) :
    ∀ i < n, p i = true ↔ i < Nat.count (p ·) n := by
  have hsub : (Finset.range n).filter (p ·) ⊆ Finset.range (Nat.count (p ·) n) := by
    intro i hi
    rw [Finset.mem_filter, Finset.mem_range] at hi
    exact Finset.mem_range.mpr (h i hi.1 hi.2)
  have hcard : (Finset.range (Nat.count (p ·) n)).card ≤ ((Finset.range n).filter (p ·)).card := by
    rw [Finset.card_range, Nat.count_eq_card_filter_range]
  have heq := Finset.eq_of_subset_of_card_le hsub hcard
  intro i hi
  have hmem : i ∈ (Finset.range n).filter (p ·) ↔ i ∈ Finset.range (Nat.count (p ·) n) := by rw [heq]
  rw [Finset.mem_filter, Finset.mem_range, Finset.mem_range] at hmem
  rw [← hmem]
  exact (and_iff_right hi).symm

theorem Dense.of_lt {bm : Bitmap} (hok : bm.Ok)
    (h : ∀ i < bm.size_, Bitmap.getBit bm.bitmap_ i = true → i < bm.num_bits_set_) : Dense bm := by
  refine ⟨hok, ?_⟩
  rw [hok.count] at h ⊢
  exact count_dense h

theorem Dense.count_le {bm : Bitmap} (h : Dense bm) : bm.num_bits_set_ ≤ bm.size_ := by
  rw [h.ok.count]
  exact Nat.count_le _

/-! ### Runs of `allocInode` and `freeInode` -/

inductive InodeCall
  | allocInode
  | freeInode (index : ℕ)
  deriving DecidableEq

namespace InodeCall

def step (m : MinixStorageManager) : InodeCall → Except Panic (MinixStorageManager × List ℕ)
  | allocInode => m.allocInode.map fun r => (r.2, [r.1])
  | freeInode index => (m.freeInode index).map fun m => (m, [])

/-- No gap arises: an inode is freed only if it is the last one in use, and the search of an
allocation does not begin behind the first free inode. -/
def leavesNoGap (m : MinixStorageManager) : InodeCall → Prop
  | allocInode => m.curr_inode_pos_ < m.getNumUsedInodes ∨
      m.inode_bitmap_.size_ ≤ m.curr_inode_pos_ + 1
  | freeInode index => index + 1 = m.getNumUsedInodes

instance (m : MinixStorageManager) (c : InodeCall) : Decidable (c.leavesNoGap m) :=
  match c with
  | allocInode => inferInstanceAs (Decidable (_ ∨ _))
  | freeInode _ => inferInstanceAs (Decidable (_ = _))

end InodeCall

variable {m m' : MinixStorageManager} {bm : Bitmap}

/-- The search stops at the first free inode if it does not begin behind it. -/
theorem Dense.search (h : Dense bm) (hsize : 0 < bm.size_) {curr passes pos r : ℕ}
    (hpos : pos ≤ bm.num_bits_set_ ∨ bm.size_ ≤ pos)
    (hr : MinixStorageManager.searchInode bm curr passes pos = .ok r) :
    r = bm.num_bits_set_ ∧ r < bm.size_ := by
  induction passes generalizing pos with
  | zero => cases hr
  | succ passes ih =>
    rw [MinixStorageManager.searchInode] at hr
    split at hr
    · cases hr
    · dsimp only at hr
      obtain ⟨pos', hback⟩ : ∃ pos', (if pos ≥ bm.size_ then 0 else pos) = pos' := ⟨_, rfl⟩
      rw [hback] at hr
      have hlt : pos' < bm.size_ ∧ pos' ≤ bm.num_bits_set_ := by
        rw [← hback]
        split
        · omega
        · omega
      split at hr
      · rename_i hclear
        cases hr
        have hbit := h.bits r hlt.1
        rw [hclear] at hbit
        have hnot : ¬r < bm.num_bits_set_ := fun hn => Bool.false_ne_true (hbit.mpr hn)
        omega
      · rename_i hset
        have hbit := (h.bits pos' hlt.1).mp (Bool.eq_true_of_not_eq_false hset)
        exact ih (.inl (by omega)) hr

theorem Dense.setBit (h : Dense bm) (hlt : bm.num_bits_set_ < bm.size_) :
    Dense (bm.setBit bm.num_bits_set_).2 := by
  have hclear : Bitmap.getBit bm.bitmap_ bm.num_bits_set_ = false :=
    Bool.eq_false_iff.mpr fun hset => absurd ((h.bits _ hlt).mp hset) (lt_irrefl _)
  have hcount : (bm.setBit bm.num_bits_set_).2.num_bits_set_ = bm.num_bits_set_ + 1 := by
    rw [Bitmap.setBit, hclear]
    rfl
  refine ⟨Bitmap.setBit_ok h.ok hlt, fun i hi => ?_⟩
  rw [Bitmap.setBit_size] at hi
  rw [Bitmap.getBit_setBit h.ok hlt, hcount]
  by_cases heq : i = bm.num_bits_set_
  · rw [if_pos heq]
    exact iff_of_true rfl (by omega)
  · rw [if_neg heq, h.bits i hi]
    omega

theorem Dense.unsetBit (h : Dense bm) {index : ℕ} (hlt : index < bm.size_)
    (hlast : index + 1 = bm.num_bits_set_) : Dense (bm.unsetBit index).2 := by
  have hset : Bitmap.getBit bm.bitmap_ index = true := (h.bits _ hlt).mpr (by omega)
  have hcount : (bm.unsetBit index).2.num_bits_set_ = index := by
    rw [Bitmap.unsetBit, hset]
    show bm.num_bits_set_ - 1 = index
    omega
  refine ⟨Bitmap.unsetBit_ok h.ok hlt, fun i hi => ?_⟩
  rw [Bitmap.unsetBit_size] at hi
  rw [Bitmap.getBit_unsetBit h.ok hlt, hcount]
  by_cases heq : i = index
  · rw [if_pos heq, heq]
    exact iff_of_false Bool.false_ne_true (lt_irrefl _)
  · rw [if_neg heq, h.bits i hi]
    omega

/-- What a run keeps. -/
structure NoGap (m : MinixStorageManager) : Prop where
  size : 0 < m.inode_bitmap_.size_
  dense : Dense m.inode_bitmap_

theorem NoGap.step (h : NoGap m) {c : InodeCall} {tr : List ℕ} (hc : c.leavesNoGap m)
    (hs : c.step m = .ok (m', tr)) : NoGap m' := by
  cases c with
  | allocInode =>
    rw [InodeCall.step, MinixStorageManager.allocInode] at hs
    cases hr : MinixStorageManager.searchInode m.inode_bitmap_ m.curr_inode_pos_
        (m.inode_bitmap_.size_ + 1) (m.curr_inode_pos_ + 1) with
    | error e =>
      rw [hr] at hs
      cases hs
    | ok pos =>
      rw [hr] at hs
      cases hs
      obtain ⟨heq, hlt⟩ := h.dense.search h.size hc hr
      subst heq
      exact ⟨h.size.trans_eq (Bitmap.setBit_size _ _).symm, h.dense.setBit hlt⟩
  | freeInode index =>
    rw [InodeCall.step, MinixStorageManager.freeInode] at hs
    split at hs
    · rename_i hlt
      cases hs
      exact ⟨h.size.trans_eq (Bitmap.unsetBit_size _ _).symm, h.dense.unsetBit hlt hc⟩
    · cases hs

theorem NoGap.runs {tr : List ℕ} (h : NoGap m)
    (hrun : Runs InodeCall.step (fun m c => c.leavesNoGap m) m tr m') : NoGap m' :=
  hrun.invariant (I := fun _ m => NoGap m) h fun hm hc hs => hm.step hc hs

/-! ### Entries that stay -/

/-- The inode number of a slot of a zone, read as a directory. -/
def MinixFSSuperblock.slotInode (s : MinixFSSuperblock) (zone slot : ℕ) : ℕ :=
  load 2 (s.disk zone) (slot * INODE_SIZE s.v3)

/-- Whatever zone they are in, the entries of allocated inodes are left alone. -/
structure KeepsEntries (s t : MinixFSSuperblock) : Prop where
  manager : t.storage_manager_ = s.storage_manager_
  v3 : t.v3 = s.v3
  entries : ∀ zone slot, slot < INODES_PER_BLOCK s.v3 → s.allocated (s.slotInode zone slot) →
    ∀ k < INODE_SIZE s.v3, t.disk zone (slot * INODE_SIZE s.v3 + k) =
      s.disk zone (slot * INODE_SIZE s.v3 + k)

section Children

variable {s t u : MinixFSSuperblock}

theorem KeepsEntries.rfl' : KeepsEntries s s := ⟨rfl, rfl, fun _ _ _ _ _ _ => rfl⟩

theorem KeepsEntries.slotInode_eq (h : KeepsEntries s t) {zone slot : ℕ}
    (hslot : slot < INODES_PER_BLOCK s.v3) (ha : s.allocated (s.slotInode zone slot)) :
    t.slotInode zone slot = s.slotInode zone slot := by
  rw [MinixFSSuperblock.slotInode, MinixFSSuperblock.slotInode, h.v3]
  refine load_congr fun b hb hlt => ?_
  have hsize := two_le_inodeSize s.v3
  obtain ⟨k, rfl⟩ := Nat.exists_eq_add_of_le hb
  exact h.entries zone slot hslot ha k (by omega)

theorem KeepsEntries.trans' (h : KeepsEntries s t) (h' : KeepsEntries t u) : KeepsEntries s u := by
  refine ⟨h'.manager.trans h.manager, h'.v3.trans h.v3, fun zone slot hslot ha k hk => ?_⟩
  have ha' : t.allocated (t.slotInode zone slot) := by
    rw [h.slotInode_eq hslot ha, MinixFSSuperblock.allocated, h.manager]
    exact ha
  have hnext := h'.entries zone slot (by rw [h.v3]; exact hslot) ha' k (by rw [h.v3]; exact hk)
  rw [h.v3] at hnext
  exact hnext.trans (h.entries zone slot hslot ha k hk)

instance : IsPreorder MinixFSSuperblock KeepsEntries where
  refl _ := KeepsEntries.rfl'
  trans _ _ _ := KeepsEntries.trans'

/-- Objects in memory do not matter. -/
theorem KeepsEntries.of_disk (hm : t.storage_manager_ = s.storage_manager_) (hv : t.v3 = s.v3)
    (hd : t.disk = s.disk) : KeepsEntries s t :=
  ⟨hm, hv, fun zone _ _ _ _ _ => by rw [hd]⟩

theorem stays_inode (i_num : ℕ) : Stays KeepsEntries (Fs.inode i_num) := by
  intro s
  rw [Fs.inode, wp_bind, wp_get]
  cases s.all_inodes_ i_num with
  | none => exact (wp_throw _).mpr trivial
  | some inode => exact (wp_pure _).mpr KeepsEntries.rfl'

theorem stays_dentry (d : ℕ) : Stays KeepsEntries (Fs.dentry d) := by
  intro s
  rw [Fs.dentry, wp_bind, wp_get]
  cases s.dentries d with
  | none => exact (wp_throw _).mpr trivial
  | some dentry => exact (wp_pure _).mpr KeepsEntries.rfl'

theorem stays_setInode (i_num : ℕ) (inode : Option MinixFSInode) :
    Stays KeepsEntries (Fs.setInode i_num inode) :=
  fun _ => (wp_modify _ _).mpr (.of_disk rfl rfl rfl)

theorem stays_setDentry (d : ℕ) (dentry : Option Dentry) :
    Stays KeepsEntries (Fs.setDentry d dentry) :=
  fun _ => (wp_modify _ _).mpr (.of_disk rfl rfl rfl)

theorem stays_modifyInode (i_num : ℕ) (f : MinixFSInode → MinixFSInode) :
    Stays KeepsEntries (Fs.modifyInode i_num f) :=
  stays_bind (stays_inode i_num) fun _ => stays_setInode _ _

theorem stays_modifyDentry (d : ℕ) (f : Dentry → Dentry) :
    Stays KeepsEntries (Fs.modifyDentry d f) :=
  stays_bind (stays_dentry d) fun _ => stays_setDentry _ _

theorem stays_newDentry (dentry : Dentry) : Stays KeepsEntries (Fs.newDentry dentry) := by
  intro s
  simp only [Fs.newDentry, wp_bind, wp_get, wp_set, wp_pure]
  exact .of_disk rfl rfl rfl

theorem stays_deref {α : Type} (p : Option α) : Stays KeepsEntries (Fs.deref p) := by
  cases p with
  | none => exact stays_throw _
  | some a => exact stays_pure a

/-! ### What `loadChildren` erases -/

theorem findSlot_some {v3 : Bool} {dbuffer : Block} {i_num slots curr_dentry pos : ℕ}
    (h : MinixFSInode.findSlot v3 dbuffer i_num slots curr_dentry = some pos) :
    ∃ k < slots, pos = curr_dentry + k * INODE_SIZE v3 ∧ load 2 dbuffer pos = i_num := by
  induction slots generalizing curr_dentry with
  | zero => cases h
  | succ slots ih =>
    rw [MinixFSInode.findSlot] at h
    split at h
    · rename_i heq
      cases h
      exact ⟨0, Nat.succ_pos _, by omega, heq⟩
    · obtain ⟨k, hk, hpos, heq⟩ := ih h
      exact ⟨k + 1, by omega, by rw [hpos, Nat.succ_mul]; omega, heq⟩

/-- The slot at a position of a directory with the zones `t`. -/
structure FoundAt (s : MinixFSSuperblock) (t : MinixFSZone) (i_num pos zone slot : ℕ) : Prop where
  slot_lt : slot < INODES_PER_BLOCK s.v3
  slot_eq : pos % ZONE_SIZE = slot * INODE_SIZE s.v3
  zone_eq : t.zoneAt s.v3 (pos / ZONE_SIZE) = .ok zone
  inode_eq : s.slotInode (zone % 2 ^ 16) slot = i_num

theorem wp_findFrom (tree : MinixFSZone) {i_num zones zone : ℕ} :
    wp (fun _ => True) (MinixFSInode.findFrom tree i_num zones zone) (fun found t => t = s ∧
      ∀ pos, found = some pos → ∃ zone slot, FoundAt s tree i_num pos zone slot) s := by
  induction zones generalizing zone with
  | zero => exact (wp_pure _).mpr ⟨rfl, fun pos h => by cases h⟩
  | succ zones ih =>
    rw [MinixFSInode.findFrom]
    simp only [wp_bind, wp_get, MinixFSZone.wp_getZone, Fs.wp_readZone]
    refine ⟨fun disk_zone hzone => ⟨fun _ => ?_, fun _ => trivial⟩, fun _ _ => trivial⟩
    split
    · rename_i curr_dentry hfound
      refine (wp_pure _).mpr ⟨rfl, fun pos hpos => ?_⟩
      obtain ⟨slot, hslot, heq, hload⟩ := findSlot_some hfound
      have hlt : curr_dentry < ZONE_SIZE := by
        have hfits := slot_fits hslot
        have hsize := two_le_inodeSize s.v3
        omega
      have hdiv : pos / ZONE_SIZE = zone ∧ pos % ZONE_SIZE = curr_dentry := by
        rw [← Option.some.inj hpos, mul_comm, Nat.mul_add_div (by decide), Nat.mul_add_mod,
          Nat.div_eq_of_lt hlt, Nat.mod_eq_of_lt hlt]
        exact ⟨rfl, rfl⟩
      rw [Nat.zero_add] at heq
      refine ⟨disk_zone, slot, hslot, hdiv.2.trans heq, ?_, ?_⟩
      · rw [hdiv.1]
        exact hzone
      · rw [MinixFSSuperblock.slotInode, ← heq]
        exact hload
    · exact ih

/-- An entry is its inode number and its name, and it fills its slot. -/
theorem entry_size (v3 : Bool) : 2 ≤ INODE_BYTES v3 ∧ INODE_BYTES v3 + MAX_NAME_LENGTH v3 =
    INODE_SIZE v3 := by
  cases v3 with
  | false => decide
  | true => decide

theorem slots_apart {slot slot' k size : ℕ} (h : slot ≠ slot') (hk : k < size) :
    slot' * size + k < slot * size ∨ slot * size + size ≤ slot' * size + k := by
  rcases Nat.lt_or_gt_of_ne h with hlt | hgt
  · have hmul := Nat.mul_le_mul_right size hlt
    rw [Nat.succ_mul] at hmul
    omega
  · have hmul := Nat.mul_le_mul_right size hgt
    rw [Nat.succ_mul] at hmul
    omega

/-- A new entry in the slot of an inode that is not allocated. -/
theorem keeps_slot {tree : MinixFSZone} {i_num src_i_num pos zone slot : ℕ} {name : List UInt8}
    (hat : FoundAt s tree i_num pos zone slot) (hfree : ¬s.allocated i_num) :
    KeepsEntries s { s with
      disk := update s.disk (zone % 2 ^ 16) (MinixFSInode.strncpy
        (store 2 (s.disk (zone % 2 ^ 16)) (pos % ZONE_SIZE) src_i_num)
        (pos % ZONE_SIZE + INODE_BYTES s.v3) name (MAX_NAME_LENGTH s.v3)) } := by
  refine ⟨rfl, rfl, fun zone' slot' hslot' ha k hk => ?_⟩
  show update s.disk (zone % 2 ^ 16) _ zone' _ = _
  by_cases hzone : zone' = zone % 2 ^ 16
  · have hne : slot ≠ slot' := by
      intro heq
      rw [← hat.inode_eq, heq, ← hzone] at hfree
      exact hfree ha
    have hapart := slots_apart hne hk
    have hentry := entry_size s.v3
    rw [hzone, update_self, MinixFSInode.strncpy, hat.slot_eq, if_neg (by omega),
      store_apart (by omega)]
  · rw [update_of_ne hzone]

/-- Writing over the entry of an inode that is not allocated. -/
theorem keeps_writeDentry {dir dest_i_num src_i_num : ℕ} {name : List UInt8}
    (hdest : dest_i_num ≠ 0) (hfree : ¬s.allocated dest_i_num) :
    wp (fun _ => True) (MinixFSInode.writeDentry dir dest_i_num src_i_num name)
      (fun _ t => KeepsEntries s t) s := by
  rw [MinixFSInode.writeDentry, wp_bind, wp_get]
  refine wp_seq (R := fun _ t => t = s) ?_ fun inode t ht => ?_
  · rw [Fs.inode, wp_bind, wp_get]
    cases s.all_inodes_ dir with
    | none => exact (wp_throw _).mpr trivial
    | some inode => exact (wp_pure _).mpr rfl
  · subst ht
    refine wp_seq (wp_findFrom _) fun found u hfound => ?_
    obtain ⟨rfl, hfound⟩ := hfound
    rw [if_neg fun h => hdest h.2]
    cases found with
    | none =>
      simp only [wp_bind, wp_pure, if_neg hdest, wp_throw]
    | some pos =>
      obtain ⟨zone, slot, hat⟩ := hfound pos rfl
      simp only [wp_bind, wp_pure, MinixFSZone.wp_getZone, hat.zone_eq, Fs.wp_readZone,
        Fs.wp_writeZone]
      refine ⟨fun zone' hzone' => ⟨fun _ => ⟨fun _ => ?_, fun _ => trivial⟩, fun _ => trivial⟩,
        fun _ _ => trivial⟩
      cases hzone'
      exact wp_mono (stays_modifyInode _ _ _) fun _ _ h => (keeps_slot hat hfree).trans' h

/-- As long as `getInode` refuses no allocated inode. -/
def MinixFSSuperblock.NoneRefused (s : MinixFSSuperblock) : Prop :=
  ∀ i_num, s.allocated i_num → i_num < s.storage_manager_.getNumUsedInodes

theorem wp_getInodeLoaded (h : s.NoneRefused) {i_num : ℕ} :
    wp (fun _ => True) (MinixFSSuperblock.getInodeLoaded i_num)
      (fun r t => t = s ∧ (r.1 = none → ¬s.allocated i_num)) s := by
  rw [MinixFSSuperblock.getInodeLoaded, wp_bind, wp_get]
  cases s.all_inodes_ i_num with
  | some inode => exact (wp_pure _).mpr ⟨rfl, fun h => by cases h⟩
  | none =>
    refine wp_seq MinixFSSuperblock.wp_getInode_any fun r t hr => (wp_pure _).mpr ⟨hr.1, fun hnone => ?_⟩
    rcases hr.2 hnone with hused | hfree
    · exact fun ha => absurd (h i_num ha) (by omega)
    · exact hfree

theorem keeps_loadChild (h : s.NoneRefused) {dir d inode_index : ℕ} {name : List UInt8}
    (hindex : inode_index ≠ 0) :
    wp (fun _ => True) (MinixFSInode.loadChild dir d inode_index name)
      (fun _ t => KeepsEntries s t) s := by
  rw [MinixFSInode.loadChild]
  refine wp_seq (wp_getInodeLoaded h) fun r t hr => ?_
  obtain ⟨rfl, hnone⟩ := hr
  obtain ⟨inode, is_already_loaded⟩ := r
  cases inode with
  | none => exact keeps_writeDentry hindex (hnone rfl)
  | some inode =>
    refine stays_bind (stays_newDentry _) (fun new_dentry => ?_) t
    refine stays_bind (stays_modifyDentry _ _) fun _ => ?_
    exact stays_ite (fun _ => stays_modifyInode _ _) fun _ => stays_setInode _ _

theorem KeepsEntries.noneRefused (h : KeepsEntries s t) (hs : s.NoneRefused) : t.NoneRefused := by
  intro i_num ha
  rw [MinixFSSuperblock.allocated, h.manager] at ha
  rw [h.manager]
  exact hs i_num ha

/-- A loop whose passes keep the entries. -/
theorem keeps_seq {α β : Type} {m : Fs α} {f : α → Fs β} (h : s.NoneRefused)
    (hm : wp (fun _ => True) m (fun _ t => KeepsEntries s t) s)
    (hf : ∀ a t, t.NoneRefused → wp (fun _ => True) (f a) (fun _ u => KeepsEntries t u) t) :
    wp (fun _ => True) (m >>= f) (fun _ t => KeepsEntries s t) s := by
  refine wp_seq hm fun a t hst => ?_
  exact wp_mono (hf a t (hst.noneRefused h)) fun _ _ htu => hst.trans' htu

theorem keeps_loadSlots (h : s.NoneRefused) {dir d slots curr_dentry : ℕ} {dbuffer : Block} :
    wp (fun _ => True) (MinixFSInode.loadSlots dir d dbuffer slots curr_dentry)
      (fun _ t => KeepsEntries s t) s := by
  induction slots generalizing s curr_dentry with
  | zero => exact (wp_pure _).mpr .rfl'
  | succ slots ih =>
    rw [MinixFSInode.loadSlots, wp_bind, wp_get]
    by_cases hindex : load 2 dbuffer curr_dentry ≠ 0
    · simp only [if_pos hindex]
      exact keeps_seq h (keeps_loadChild h hindex) fun _ t ht => ih ht
    · simp only [if_neg hindex]
      exact ih h

theorem keeps_loadZones (h : s.NoneRefused) {dir d zones zone : ℕ} :
    wp (fun _ => True) (MinixFSInode.loadZones dir d zones zone)
      (fun _ t => KeepsEntries s t) s := by
  induction zones generalizing s zone with
  | zero => exact (wp_pure _).mpr .rfl'
  | succ zones ih =>
    rw [MinixFSInode.loadZones, wp_bind, wp_get]
    refine keeps_seq h (stays_inode _ _) fun inode t ht => ?_
    rw [wp_bind, MinixFSZone.wp_getZone]
    refine ⟨fun disk_zone _ => ?_, fun _ _ => trivial⟩
    rw [wp_bind, Fs.wp_readZone]
    refine ⟨fun _ => ?_, fun _ => trivial⟩
    exact keeps_seq ht (keeps_loadSlots ht) fun _ u hu => ih hu

theorem keeps_loadChildren (h : s.NoneRefused) {dir : ℕ} :
    wp (fun _ => True) (MinixFSInode.loadChildren dir) (fun _ t => KeepsEntries s t) s := by
  rw [MinixFSInode.loadChildren]
  refine keeps_seq h (stays_inode _ _) fun inode t ht => ?_
  refine wp_ite (fun _ => ?_) fun _ => (wp_pure _).mpr .rfl'
  refine keeps_seq ht (stays_deref _ _) fun d u hu => ?_
  exact keeps_seq hu (keeps_loadZones hu) fun _ v _ => stays_modifyInode _ _ _

end Children

/-! ### `getInode` and `loadChildren` on bitmaps without gaps -/

/-- Every allocated inode has an entry in the table; the number of an inode is a `uint16`. -/
def MinixFSSuperblock.TableOk (s : MinixFSSuperblock) : Prop :=
  ∀ i_num, 1 ≤ i_num → i_num < 2 ^ 16 → s.allocated i_num → ∃ i_type, EntryOk s i_num i_type

/-- No allocated inode is refused, and `loadChildren` erases no entry of one. -/
structure Serves (s : MinixFSSuperblock) : Prop where
  found : ∀ i_num, 1 ≤ i_num → i_num < 2 ^ 16 → s.allocated i_num →
    ∃ inode, (MinixFSSuperblock.getInode i_num).run s = .ok (some inode, s)
  null : ∀ i_num < 2 ^ 16, ¬s.allocated i_num →
    (MinixFSSuperblock.getInode i_num).run s = .ok (none, s)
  children : ∀ dir t, (MinixFSInode.loadChildren dir).run s = .ok (⟨⟩, t) → KeepsEntries s t

section Serves

variable {s : MinixFSSuperblock}

theorem Dense.lt_iff (h : Dense s.storage_manager_.inode_bitmap_) {i_num : ℕ} :
    s.allocated i_num ↔ i_num < s.storage_manager_.getNumUsedInodes := by
  have hle := h.count_le
  constructor
  · intro ha
    exact (h.bits i_num ha.1).mp ha.2
  · intro hlt
    have hsize : i_num < s.storage_manager_.inode_bitmap_.size_ := lt_of_lt_of_le hlt hle
    exact ⟨hsize, (h.bits i_num hsize).mpr hlt⟩

theorem Dense.serves (h : Dense s.storage_manager_.inode_bitmap_) (htable : s.TableOk) :
    Serves s := by
  refine ⟨fun i_num hone hlt ha => ?_, fun i_num _ hfree => ?_, fun dir t hrun => ?_⟩
  · obtain ⟨i_type, hentry⟩ := htable i_num hone hlt ha
    have hget : wp (fun _ => False) (MinixFSSuperblock.getInode i_num)
        (fun r t => t = s ∧ r = some (s.decoded i_num i_type)) s :=
      MinixFSSuperblock.wp_getInode_set (h.lt_iff.mp ha) ha hentry ⟨rfl, rfl⟩
    obtain ⟨r, t, hrun, rfl, rfl⟩ := returns_of_wp hget
    exact ⟨_, hrun⟩
  · have hused : s.storage_manager_.getNumUsedInodes ≤ i_num :=
      Nat.le_of_not_lt fun hlt => hfree (h.lt_iff.mpr hlt)
    have hget : wp (fun _ => False) (MinixFSSuperblock.getInode i_num)
        (fun r t => t = s ∧ r = none) s := MinixFSSuperblock.wp_getInode_refused hused ⟨rfl, rfl⟩
    obtain ⟨r, t, hrun, rfl, rfl⟩ := returns_of_wp hget
    exact hrun
  · have hkeeps : wp (fun _ => True) (MinixFSInode.loadChildren dir)
        (fun _ t => KeepsEntries s t) s := keeps_loadChildren fun i_num ha => h.lt_iff.mp ha
    have h := of_wp hkeeps hrun
    exact h

/-- A gap below a used inode is the only thing that can go wrong. -/
theorem serves_iff_dense (hok : s.storage_manager_.inode_bitmap_.Ok)
    (hsize : s.storage_manager_.inode_bitmap_.size_ ≤ 2 ^ 16) (htable : s.TableOk) :
    Serves s ↔ Dense s.storage_manager_.inode_bitmap_ := by
  refine ⟨fun h => Dense.of_lt hok fun i hi hset => ?_, fun h => h.serves htable⟩
  by_cases hzero : i = 0
  · rw [hok.count, hzero, Nat.pos_iff_ne_zero, Nat.count_ne_iff_exists]
    exact ⟨i, hi, hset⟩
  · by_contra hused
    obtain ⟨inode, hrun⟩ := h.found i (by omega) (by omega) ⟨hi, hset⟩
    have hget : wp (fun _ => False) (MinixFSSuperblock.getInode i) (fun r _ => r = none) s :=
      MinixFSSuperblock.wp_getInode_refused (Nat.le_of_not_lt hused) rfl
    cases of_wp hget hrun

/-- From an image without a gap, by calls that leave none, to any state of the device. -/
theorem no_inode_refused {m m' : MinixStorageManager} {tr : List ℕ} (hstart : NoGap m)
    (hrun : Runs InodeCall.step (fun m c => c.leavesNoGap m) m tr m')
    (hmanager : s.storage_manager_ = m') (htable : s.TableOk) : Serves s := by
  have hdense := (hstart.runs hrun).dense
  rw [← hmanager] at hdense
  exact hdense.serves htable

end Serves

/-- Eight inodes, of which those below 4 are in use. -/
def fourUsed : MinixStorageManager where
  inode_bitmap_ := ⟨8, 4, [0x0f]⟩
  zone_bitmap_ := Bitmap.new 8
  curr_zone_pos_ := 0
  curr_inode_pos_ := 0
  num_inode_bm_blocks_ := 1
  num_zone_bm_blocks_ := 1

/-- The table has directories only; zone 10 belongs to the root and lists inode 3. -/
def rootOfFour (m : MinixStorageManager) : MinixFSSuperblock where
  v3 := true
  s_num_inode_bm_blocks_ := 1
  s_num_zone_bm_blocks_ := 1
  s_1st_datazone_ := 5
  storage_manager_ := m
  disk := fun zone k =>
    if zone = 10 then if k = 0 then 3 else if k = 4 then 99 else 0
    else if k = 8 then 64 else if k = 24 then 10
    else if k % 64 = 0 then 0xff else if k % 64 = 1 then 0x41 else 0
  num_blocks := 64
  all_inodes_ := fun i_num =>
    if i_num = 1 then some ⟨1, .dir, 64, 2, ⟨[10, 0, 0, 0, 0, 0, 0, 0, 0, 0], none, none, none, 1⟩,
      some 0, 0, false, []⟩
    else none
  dentries := fun d => if d = 0 then some ⟨some 1, some 0, [], [47]⟩ else none
  next_dentry := 1

theorem rootOfFour_tableOk (m : MinixStorageManager) (hsize : m.inode_bitmap_.size_ = 8) :
    (rootOfFour m).TableOk := by
  intro i_num hone _ ha
  have hlt : i_num < 8 := hsize ▸ ha.1
  have hmode : ∀ i < 8, (rootOfFour fourUsed).inodeBlock i < 64 ∧
      MinixFSInode.typeOf (load 2 ((rootOfFour fourUsed).entry i) 0) = some .dir ∧
      ((rootOfFour fourUsed).entryZones i).getD 7 0 = 0 ∧
      ((rootOfFour fourUsed).entryZones i).getD 8 0 = 0 := by decide +kernel
  obtain ⟨hblock, hdir, hind, hdouble⟩ := hmode i_num hlt
  refine ⟨.dir, ⟨?_, hdir, ⟨fun h => absurd hind h, fun h => absurd hdouble h,
    fun h => absurd hdouble h⟩⟩⟩
  exact lt_of_le_of_lt (Nat.mod_le _ _) hblock

theorem fourUsed_noGap : NoGap fourUsed :=
  ⟨by decide, ⟨⟨rfl, by decide +kernel⟩, by decide +kernel⟩⟩

/-- An inode is created, another one after it, and both are deleted in the opposite order. -/
theorem no_inode_refused_four : ∃ m' tr,
    Runs InodeCall.step (fun m c => c.leavesNoGap m) fourUsed tr m' ∧ tr = [4, 5] ∧
      Serves (rootOfFour m') := by
  have hrun : (match execOk InodeCall.step (fun m c => c.leavesNoGap m) fourUsed
      [.allocInode, .allocInode, .freeInode 5, .freeInode 4] with
    | some (m, tr) => decide (tr = [4, 5] ∧ m.inode_bitmap_.size_ = 8)
    | none => false) = true := by decide +kernel
  split at hrun
  · rename_i m' tr hexec
    obtain ⟨htr, hsize⟩ := of_decide_eq_true hrun
    have h := runs_of_execOk _ _ hexec
    exact ⟨m', tr, h, htr, no_inode_refused fourUsed_noGap h rfl (rootOfFour_tableOk m' hsize)⟩
  · cases hrun

/-- Inode 2 is deleted: inode 3 is refused, and its entry in the root is lost. -/
theorem gap_refuses_inode : ∃ m' tr t, NoGap fourUsed ∧
    Runs InodeCall.step (fun _ _ => True) fourUsed tr m' ∧ (rootOfFour m').TableOk ∧
    (rootOfFour m').allocated 3 ∧
    (MinixFSSuperblock.getInode 3).run (rootOfFour m') = .ok (none, rootOfFour m') ∧
    (MinixFSInode.loadChildren 1).run (rootOfFour m') = .ok (⟨⟩, t) ∧
    (rootOfFour m').slotInode 10 0 = 3 ∧ t.slotInode 10 0 = 0 ∧ ¬Serves (rootOfFour m') := by
  have hrun : (match execOk InodeCall.step (fun _ _ => True) fourUsed [.freeInode 2] with
    | some (m, _) => decide (m.inode_bitmap_.size_ = 8 ∧ (rootOfFour m).slotInode 10 0 = 3 ∧
        3 < m.inode_bitmap_.size_ ∧ Bitmap.getBit m.inode_bitmap_.bitmap_ 3 = true ∧
        m.getNumUsedInodes ≤ 3) &&
      (match (MinixFSInode.loadChildren 1).run (rootOfFour m) with
      | .ok (_, t) => decide (t.slotInode 10 0 = 0)
      | .error _ => false)
    | none => false) = true := by decide +kernel
  split at hrun
  · rename_i m' tr hexec
    rw [Bool.and_eq_true, decide_eq_true_iff] at hrun
    obtain ⟨⟨hsize, hentry, hlt, hset, hused⟩, hload⟩ := hrun
    split at hload
    · rename_i _ t hchildren
      have herased : t.slotInode 10 0 = 0 := of_decide_eq_true hload
      have hget : wp (fun _ => False) (MinixFSSuperblock.getInode 3)
          (fun r t => t = rootOfFour m' ∧ r = none) (rootOfFour m') :=
        MinixFSSuperblock.wp_getInode_refused hused ⟨rfl, rfl⟩
      obtain ⟨r, u, hnone, rfl, rfl⟩ := returns_of_wp hget
      refine ⟨m', tr, t, fourUsed_noGap, runs_of_execOk _ _ hexec, rootOfFour_tableOk m' hsize,
        ⟨hlt, hset⟩, hnone, hchildren, hentry, herased, fun hserves => ?_⟩
      obtain ⟨inode, hsome⟩ := hserves.found 3 (by decide) (by decide) ⟨hlt, hset⟩
      cases hnone.symm.trans hsome
    · cases hload
  · cases hrun

end KPanic.Minix

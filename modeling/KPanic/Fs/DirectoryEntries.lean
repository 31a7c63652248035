import KPanic.Fs.DirectoryTree

/-!
# Entries are made and removed

What `Dentry`, `RamFSInode` and the superblock do for `mkdir`, `open`, `rm` and `rmdir`, as changes of the state.
-/

namespace KPanic.DeviceFS

open Function
open Wp

variable {s s' : Fs} {c d p i : ℕ} {n : Name} {C D P : Dentry} {I : Inode}

/-- Nothing fails. -/
def Never : Error → Prop := fun _ => False

theorem wp_getDentry (h : s.dentry d = some D) {Q : Dentry → Fs → Prop} (hQ : Q D s) : wp Never (getDentry d) Q s := by
  rw [getDentry, wp_bind, wp_get, h]
  exact (wp_pure _).mpr hQ

theorem wp_getInode (h : s.inode i = some I) {Q : Inode → Fs → Prop} (hQ : Q I s) : wp Never (getInode i) Q s := by
  rw [getInode, wp_bind, wp_get, h]
  exact (wp_pure _).mpr hQ

theorem wp_setDentry {o : Option Dentry} {Q : PUnit → Fs → Prop} (hQ : Q ⟨⟩ (s.setDentry d o)) : wp Never (setDentry d o) Q s :=
  (wp_modify _ _).mpr hQ

theorem wp_new {Q : ℕ → Fs → Prop} (hQ : Q s.brk { s with brk := s.brk + 1 }) : wp Never new Q s := by
  rw [new, wp_bind, wp_get, wp_bind, wp_set, wp_pure]
  exact hQ

theorem wp_modifyDentry (h : s.dentry d = some D) {f : Dentry → Dentry} {Q : PUnit → Fs → Prop}
    (hQ : Q ⟨⟩ (s.setDentry d (some (f D)))) : wp Never (modifyDentry d f) Q s := by
  rw [modifyDentry, wp_bind]
  exact wp_getDentry h (wp_setDentry hQ)

def Fs.created (s : Fs) (p : ℕ) (P : Dentry) (name : Name) (type : InodeType) : Fs :=
  { s with
    dentry := update (update s.dentry p (some { P with d_child_ := P.d_child_ ++ [s.brk] })) s.brk
      (some ⟨some (s.brk + 1), some p, [], name⟩)
    inode := update s.inode (s.brk + 1)
      (some ⟨type, BASIC_ALLOC, RamFSInode.newData type, some s.brk, []⟩)
    brk := s.brk + 2
    all_inodes_ := s.all_inodes_ ++ [s.brk + 1] }

theorem wp_dentryNew (hp : s.dentry p = some P) (hne : p ≠ s.brk) (hnew : s.brk ∉ P.d_child_) {Q : ℕ → Fs → Prop}
    (hQ : Q s.brk ({ s.setDentry s.brk (some ⟨none, some p, [], n⟩) with brk := s.brk + 1 }.setDentry p
      (some { P with d_child_ := P.d_child_ ++ [s.brk] }))) :
    wp Never (Dentry.new p n) Q s := by
  unfold Dentry.new Dentry.setChild
  rw [wp_bind]
  refine wp_new ?_
  rw [wp_bind]
  refine wp_setDentry ?_
  rw [wp_bind, wp_bind]
  refine wp_getDentry (D := P) ((update_of_ne hne _ _).trans hp) ?_
  rw [if_neg hnew, wp_bind]
  refine wp_setDentry ?_
  exact (wp_pure _).mpr ((wp_pure _).mpr hQ)

theorem wp_setInode {o : Option Inode} {Q : PUnit → Fs → Prop} (hQ : Q ⟨⟩ (s.setInode i o)) : wp Never (setInode i o) Q s :=
  (wp_modify _ _).mpr hQ

theorem wp_assert {c : Prop} [Decidable c] (hc : c) {Q : PUnit → Fs → Prop} (hQ : Q ⟨⟩ s) : wp Never (assert c) Q s := by
  rw [assert, if_pos hc]
  exact (wp_pure _).mpr hQ

theorem wp_inodeNew {type : InodeType} {Q : ℕ → Fs → Prop}
    (hQ : Q s.brk ({ s with brk := s.brk + 1 }.setInode s.brk (some ⟨type, BASIC_ALLOC, RamFSInode.newData type, none, []⟩))) :
    wp Never (RamFSInode.new type) Q s := by
  rw [RamFSInode.new, wp_bind]
  refine wp_new ?_
  rw [wp_bind]
  exact wp_setInode ((wp_pure _).mpr hQ)

theorem wp_make (hi : s.inode i = some I) (hd : s.dentry d = some D) {Q : ℤ → Fs → Prop}
    (hQ : Q 0 ((s.setInode i (some { I with i_dentry_ := some d })).setDentry d (some { D with d_inode_ := some i }))) :
    wp Never (RamFSInode.make I.i_type_ i d) Q s := by
  rw [RamFSInode.make, wp_bind]
  refine wp_getInode hi ?_
  rw [if_neg (not_not.mpr rfl), wp_bind]
  refine wp_setInode ?_
  rw [wp_bind]
  have hd' : (s.setInode i (some { I with i_dentry_ := some d })).dentry d = some D := hd
  refine wp_modifyDentry hd' ?_
  exact (wp_pure _).mpr hQ

theorem wp_createInode (hd : s.dentry d = some D) {type : InodeType} {Q : ℕ → Fs → Prop}
    (hQ : Q s.brk { s with
      dentry := update s.dentry d (some { D with d_inode_ := some s.brk })
      inode := update s.inode s.brk (some ⟨type, BASIC_ALLOC, RamFSInode.newData type, some d, []⟩)
      brk := s.brk + 1
      all_inodes_ := s.all_inodes_ ++ [s.brk] }) :
    wp Never (Superblock.createInode d type) Q s := by
  rw [Superblock.createInode, wp_bind]
  refine wp_inodeNew ?_
  rw [wp_bind]
  have hmake : wp Never (Superblock.initInode s.brk d type) (fun r s' => r = 0 ∧ s' = { s with
        dentry := update s.dentry d (some { D with d_inode_ := some s.brk })
        inode := update s.inode s.brk (some ⟨type, BASIC_ALLOC, RamFSInode.newData type, some d, []⟩)
        brk := s.brk + 1 }) ({ s with brk := s.brk + 1 }.setInode s.brk (some ⟨type, BASIC_ALLOC, RamFSInode.newData type, none, []⟩)) := by
    have h := fun {Q} => wp_make (s := { s with brk := s.brk + 1 }.setInode s.brk
      (some ⟨type, BASIC_ALLOC, RamFSInode.newData type, none, []⟩)) (Q := Q) (update_self _ _ _) hd
    have hfinal : (({ s with brk := s.brk + 1 }.setInode s.brk (some ⟨type, BASIC_ALLOC, RamFSInode.newData type, none, []⟩)).setInode s.brk
        (some ⟨type, BASIC_ALLOC, RamFSInode.newData type, some d, []⟩)).setDentry d (some { D with d_inode_ := some s.brk }) = { s with
        dentry := update s.dentry d (some { D with d_inode_ := some s.brk })
        inode := update s.inode s.brk (some ⟨type, BASIC_ALLOC, RamFSInode.newData type, some d, []⟩)
        brk := s.brk + 1 } := by
      simp only [Fs.setInode, Fs.setDentry, update_idem]
    cases type with
    | I_DIR => exact h ⟨rfl, hfinal⟩
    | I_FILE => exact h ⟨rfl, hfinal⟩
  refine wp_mono hmake fun r s' ⟨hr, hs'⟩ => ?_
  rw [wp_bind]
  refine wp_assert hr ?_
  rw [wp_bind, wp_modify, wp_pure, hs']
  exact hQ

theorem wp_createEntry (hp : s.dentry p = some P) (hne : p ≠ s.brk) (hnew : s.brk ∉ P.d_child_) {type : InodeType} {α : Type}
    {k : ℕ → FsM α} {Q : α → Fs → Prop} (hQ : wp Never (k (s.brk + 1)) Q (s.created p P n type)) :
    wp Never (do
      let sub_dentry ← Dentry.new p n
      let sub_inode ← Superblock.createInode sub_dentry type
      k sub_inode) Q s := by
  rw [wp_bind]
  refine wp_dentryNew hp hne hnew ?_
  rw [wp_bind]
  refine wp_createInode (D := ⟨none, some p, [], n⟩) ((update_of_ne hne.symm _ _).trans (update_self _ _ _)) ?_
  have hfinal : update (update (update s.dentry s.brk (some ⟨none, some p, [], n⟩)) p
      (some { P with d_child_ := P.d_child_ ++ [s.brk] })) s.brk (some ⟨some (s.brk + 1), some p, [], n⟩) =
      (s.created p P n type).dentry := by
    rw [update_comm hne.symm, update_idem]
    rfl
  have hstate : ({ s with
      dentry := update (update (update s.dentry s.brk (some ⟨none, some p, [], n⟩)) p
        (some { P with d_child_ := P.d_child_ ++ [s.brk] })) s.brk (some ⟨some (s.brk + 1), some p, [], n⟩)
      inode := update s.inode (s.brk + 1) (some ⟨type, BASIC_ALLOC, RamFSInode.newData type, some s.brk, []⟩)
      brk := s.brk + 2
      all_inodes_ := s.all_inodes_ ++ [s.brk + 1] } : Fs) = s.created p P n type := by
    rw [hfinal]
    rfl
  rw [← hstate] at hQ
  exact hQ

/-! ### Removal -/

/-- The dentry `d` without an inode, taken out of its parent `p`, and deleted. -/
def Fs.unlinked (s : Fs) (p : ℕ) (P : Dentry) (d : ℕ) : Fs :=
  (s.setDentry p (some { P with d_child_ := P.d_child_.filter (· ≠ d) })).setDentry d none

theorem wp_childRemove {child : ℕ} (hd : s.dentry d = some D) (hc : s.dentry child = some C) (hne : d ≠ child)
    {Q : PUnit → Fs → Prop}
    (hQ : Q ⟨⟩ ((s.setDentry d (some { D with d_child_ := D.d_child_.filter (· ≠ child) })).setDentry child
      (some { C with d_parent_ := none }))) :
    wp Never (Dentry.childRemove d child) Q s := by
  rw [Dentry.childRemove, wp_bind]
  refine wp_modifyDentry hd ?_
  have hc' : (s.setDentry d (some { D with d_child_ := D.d_child_.filter (· ≠ child) })).dentry child = some C :=
    (update_of_ne hne.symm _ _).trans hc
  exact wp_modifyDentry hc' hQ

/-- The destructor of a dentry without parent and children. -/
theorem wp_delete (hd : s.dentry d = some D) (hparent : D.d_parent_ = none) (hchild : D.d_child_ = []) {Q : PUnit → Fs → Prop}
    (hQ : Q ⟨⟩ (s.setDentry d none)) : wp Never (Dentry.delete d) Q s := by
  rw [Dentry.delete, wp_bind]
  refine wp_getDentry hd ?_
  rw [hparent, hchild]
  exact wp_setDentry hQ

theorem wp_remove_kept (hi : s.inode i = some I) (hdentry : I.i_dentry_ = some d) (hd : s.dentry d = some D)
    (hchild : D.d_child_ ≠ []) {Q : ℤ → Fs → Prop} (hQ : Q (-1) s) : wp Never (RamFSInode.remove i) Q s := by
  rw [RamFSInode.remove, wp_bind]
  refine wp_getInode hi ?_
  rw [hdentry, wp_bind]
  refine (wp_pure _).mpr ?_
  rw [wp_bind]
  refine wp_getDentry hd ?_
  rw [if_neg hchild]
  exact (wp_pure _).mpr hQ

theorem wp_remove (hi : s.inode i = some I) (hdentry : I.i_dentry_ = some d) (hd : s.dentry d = some D)
    (hparent : D.d_parent_ = some p) (hp : s.dentry p = some P) (hne : p ≠ d) (hchild : D.d_child_ = []) {Q : ℤ → Fs → Prop}
    (hQ : Q INODE_DEAD ((s.unlinked p P d).setInode i (some { I with i_dentry_ := none }))) :
    wp Never (RamFSInode.remove i) Q s := by
  rw [RamFSInode.remove, wp_bind]
  refine wp_getInode hi ?_
  rw [hdentry, wp_bind]
  refine (wp_pure _).mpr ?_
  rw [wp_bind]
  refine wp_getDentry hd ?_
  rw [if_pos hchild, wp_bind]
  refine wp_setDentry ?_
  have hderef : deref D.d_parent_ = pure p := by rw [hparent]; rfl
  rw [hderef, wp_bind, wp_pure, wp_bind]
  have hp' : (s.setDentry d (some { D with d_inode_ := none })).dentry p = some P := (update_of_ne hne _ _).trans hp
  have hd' : (s.setDentry d (some { D with d_inode_ := none })).dentry d = some { D with d_inode_ := none } := update_self _ _ _
  refine wp_childRemove hp' hd' hne ?_
  rw [wp_bind]
  refine wp_delete (D := { D with d_inode_ := none, d_parent_ := none }) (update_self _ _ _) rfl hchild ?_
  rw [wp_bind]
  refine wp_setInode ((wp_pure _).mpr ?_)
  have hfinal : ((((s.setDentry d (some { D with d_inode_ := none })).setDentry p
      (some { P with d_child_ := P.d_child_.filter (· ≠ d) })).setDentry d
      (some { D with d_inode_ := none, d_parent_ := none })).setDentry d none) = s.unlinked p P d := by
    simp only [Fs.unlinked, Fs.setDentry, update_idem, update_comm hne.symm]
  show Q INODE_DEAD (Fs.setInode (Fs.setDentry _ d none) i _)
  rw [hfinal]
  exact hQ

/-- After `delete_inode`. -/
def Fs.removed (s : Fs) (p : ℕ) (P : Dentry) (d i : ℕ) : Fs :=
  { s.unlinked p P d with
    inode := update s.inode i none
    used_inodes_ := s.used_inodes_.filter (· ≠ i)
    all_inodes_ := s.all_inodes_.filter (· ≠ i) }

theorem wp_delete_inode {o : Option Inode} {Q : PUnit → Fs → Prop} (hQ : Q ⟨⟩ (s.removed p P d i)) :
    wp Never (Superblock.delete_inode i) Q ((s.unlinked p P d).setInode i o) := by
  rw [Superblock.delete_inode, wp_bind, wp_modify]
  refine wp_setInode ?_
  have hfinal : update (update s.inode i o) i none = update s.inode i none := update_idem _ _ _
  show Q ⟨⟩ { s.unlinked p P d with
    inode := update (update s.inode i o) i none
    used_inodes_ := s.used_inodes_.filter (· ≠ i)
    all_inodes_ := s.all_inodes_.filter (· ≠ i) }
  rw [hfinal]
  exact hQ

end KPanic.DeviceFS

import KPanic.Fs.ZoneCalls

/-!
# Ownership of zones over whole runs

As long as `fillGap` writes no block, and the trees that grow or are deleted have no holes, no zone
is lost and none is shared.
-/

namespace KPanic.Minix

open Function
open Machine
open Ownership
open Wp

inductive ZoneCall
  | writeData (i_num offset size : ℕ) (buffer : Bytes.Memory)
  | writeDentry (dir src_i_num : ℕ) (name : List UInt8)
  | rm (i_num : ℕ)
  | rmdir (i_num : ℕ)
  | delete_inode (i_num : ℕ)

namespace ZoneCall

/-- A call; an entry is inserted with `dest_i_num = 0`. -/
def step (s : MinixFSSuperblock) : ZoneCall → Except Panic (MinixFSSuperblock × List PUnit)
  | writeData i_num offset size buffer =>
    ((MinixFSInode.writeData i_num offset size buffer).run s).map fun r => (r.2, [])
  | writeDentry dir src_i_num name =>
    ((MinixFSInode.writeDentry dir 0 src_i_num name).run s).map fun r => (r.2, [])
  | rm i_num => ((MinixFSInode.rm i_num).run s).map fun r => (r.2, [])
  | rmdir i_num => ((MinixFSInode.rmdir i_num).run s).map fun r => (r.2, [])
  | delete_inode i_num => ((MinixFSSuperblock.delete_inode i_num).run s).map fun r => (r.2, [])

/-- A write takes no number of a zone in the file for the number of a block, a zone is added to a tree
in a free slot, and `freeZones` comes to all zones. -/
def KeepsZones (s : MinixFSSuperblock) : ZoneCall → Prop
  | writeData i_num offset size _ => ∀ inode, s.all_inodes_ i_num = some inode →
    inode.LeavesNoGap offset ∧ inode.i_zones_.RoomFor s.v3 (inode.newZones offset size)
  | writeDentry dir _ _ => ∀ inode, s.all_inodes_ dir = some inode →
    (MinixFSInode.findDentry inode.i_zones_ 0).run s = .ok (none, s) → inode.i_zones_.RoomFor s.v3 1
  | rm _ => True
  | rmdir _ => True
  | delete_inode i_num => ∀ inode, s.all_inodes_ i_num = some inode → inode.i_zones_.NoneLeft

end ZoneCall

variable {s s₀ u : MinixFSSuperblock}

theorem of_map_run {α : Type} {m : Fs α} {evs : List PUnit} {Q : MinixFSSuperblock → Prop}
    (h : wp (fun _ => True) m (fun _ u => Q u) s)
    (hrun : (m.run s).map (fun r => (r.2, ([] : List PUnit))) = .ok (u, evs)) : Q u := by
  cases hm : m.run s with
  | error e =>
    rw [hm] at hrun
    cases hrun
  | ok r =>
    rw [hm] at hrun
    cases hrun
    exact of_wp h hm

/-- One call. -/
theorem Consistent.step (h : Consistent s) {c : ZoneCall} {evs : List PUnit} (hok : c.KeepsZones s)
    (hs : c.step s = .ok (u, evs)) : Consistent u := by
  cases c with
  | writeData i_num offset size buffer => exact of_map_run (keeps_writeData h hok) hs
  | writeDentry dir src_i_num name => exact of_map_run (keeps_writeEntry h fun _ => hok) hs
  | rm i_num => exact of_map_run (keeps_rm h) hs
  | rmdir i_num => exact of_map_run (keeps_rmdir h) hs
  | delete_inode i_num =>
    have hdelete : wp (fun _ => True) (MinixFSSuperblock.delete_inode i_num) (fun _ u => Consistent u) s := by
      cases hi : s.all_inodes_ i_num with
      | none =>
        unfold MinixFSSuperblock.delete_inode
        refine wp_seq wp_loaded fun inode v hv => ?_
        rw [hi] at hv
        cases hv.2
      | some inode => exact wp_mono (wp_delete_inode h hi (hok inode hi)) fun _ _ hu => hu.1
    exact of_map_run hdelete hs

theorem Consistent.runs {tr : List PUnit} (h : Consistent s₀)
    (hrun : Runs (fun s (c : ZoneCall) => c.step s) (fun s c => c.KeepsZones s) s₀ tr s) : Consistent s :=
  hrun.invariant (I := fun _ s => Consistent s) h fun hs hok hstep => hs.step hok hstep

/-- In every state that is reached, the marked zones are those that are referred to, each of them
once; deleting an inode gives its zones back, and no others. -/
theorem zones_are_held_once {tr : List PUnit} (h₀ : Consistent s₀)
    (hrun : Runs (fun s (c : ZoneCall) => c.step s) (fun s c => c.KeepsZones s) s₀ tr s) :
    Held s.zonesOf s.Marked ∧ ∀ i_num inode u, s.all_inodes_ i_num = some inode → inode.i_zones_.NoneLeft →
      (MinixFSSuperblock.delete_inode i_num).run s = .ok (⟨⟩, u) →
      ∀ zone, u.Marked zone ↔ s.Marked zone ∧ zone ∉ inode.i_zones_.refs := by
  have h := h₀.runs hrun
  refine ⟨h.owned, fun i_num inode u hi hleft hdelete => ?_⟩
  exact (of_wp (wp_delete_inode h hi hleft) hdelete).2

/-- A disk with the inode table in block 4 and data zones from block 5 on. Inode 1 has zone 5. Inode 2
is loaded; its five zones end with a number that is not the file system's. -/
def mountedDisk : MinixFSSuperblock where
  v3 := true
  s_num_inode_bm_blocks_ := 1
  s_num_zone_bm_blocks_ := 1
  s_1st_datazone_ := 5
  storage_manager_ := {
    inode_bitmap_ := ⟨16, 3, [7, 0]⟩
    zone_bitmap_ := ⟨12, 7, [127, 0]⟩
    curr_zone_pos_ := 0
    curr_inode_pos_ := 0
    num_inode_bm_blocks_ := 1
    num_zone_bm_blocks_ := 1 }
  disk b k := if b = 4 ∧ k = 24 then 5 else if b = 10 ∧ k = 24 then 6 else 0
  num_blocks := 16
  all_inodes_ i := if i = 2 then
      some ⟨2, .file, 4 * 1024 + 26, 1, ⟨[6, 7, 8, 9, 10, 0, 0, 0, 0, 0], none, none, none, 5⟩, none, 0, false, []⟩
    else none
  dentries _ := none
  next_dentry := 0

theorem mountedDisk_allocated : ∀ i_num, mountedDisk.allocated i_num → i_num < 3 := by
  rintro i_num ⟨hlt, hset⟩
  revert hset
  revert i_num
  decide

theorem mountedDisk_zonesOf (i_num : ℕ) : mountedDisk.zonesOf i_num =
    if i_num = 1 then [5] else if i_num = 2 then [6, 7, 8, 9, 10] else [] := by
  by_cases hone : i_num = 1
  · rw [hone]
    decide +kernel
  · by_cases htwo : i_num = 2
    · rw [htwo]
      decide
    · have hnone : mountedDisk.treeAt i_num = none := by
        have hloaded : mountedDisk.all_inodes_ i_num = none := if_neg htwo
        unfold MinixFSSuperblock.treeAt
        rw [hloaded]
        refine if_neg fun hused => ?_
        have hzero := hused.1
        have hthree := mountedDisk_allocated i_num hused.2
        omega
      rw [if_neg hone, if_neg htwo, MinixFSSuperblock.zonesOf, hnone]
      rfl

theorem mountedDisk_marked (zone : ℕ) : mountedDisk.Marked zone ↔ 5 ≤ zone ∧ zone ≤ 10 := by
  constructor
  · rintro ⟨hfirst, hin, -, hset⟩
    change 5 ≤ zone at hfirst
    have hzone : zone < 16 := hin
    clear hin
    revert hset
    revert zone
    decide
  · rintro ⟨hfirst, hlast⟩
    have hzone : zone < 11 := by omega
    clear hlast
    revert zone
    unfold MinixFSSuperblock.Marked
    decide

theorem mountedDisk_consistent : Consistent mountedDisk where
  layout := by
    refine ⟨⟨rfl, by decide⟩, ⟨rfl, by decide⟩, rfl, by decide, by decide, by decide, ?_⟩
    rintro i ⟨hlt, -⟩
    change i < 16 at hlt
    revert i
    decide
  loaded := by
    intro i inode hi
    change (if i = 2 then _ else none) = some inode at hi
    split at hi
    · rename_i htwo
      cases hi
      rw [htwo]
      refine ⟨by decide, by decide, ⟨rfl, by decide, .none, .none, .none, by decide⟩⟩
    · cases hi
  owned := by
    refine ⟨fun i => ?_, fun i j hij zone hi hj => ?_, fun zone => ?_⟩
    · rw [mountedDisk_zonesOf]
      split
      · decide
      · split
        · decide
        · exact List.nodup_nil
    · rw [mountedDisk_zonesOf] at hi hj
      split at hi
      · split at hj
        · omega
        · split at hj
          · revert zone
            decide
          · cases hj
      · split at hi
        · split at hj
          · revert zone
            decide
          · split at hj
            · omega
            · cases hj
        · cases hi
    · rw [mountedDisk_marked]
      constructor
      · rintro ⟨hfirst, hlast⟩
        by_cases hfive : zone = 5
        · exact ⟨1, by rw [mountedDisk_zonesOf, hfive]; decide⟩
        · refine ⟨2, ?_⟩
          rw [mountedDisk_zonesOf]
          simp
          omega
      · rintro ⟨i, hi⟩
        rw [mountedDisk_zonesOf] at hi
        split at hi
        · simp at hi
          omega
        · split at hi
          · simp at hi
            omega
          · cases hi
  names := by
    intro d dentry h
    cases h

theorem zones_are_held_once_mounted :
    ∃ u, (MinixFSInode.writeData 2 (4 * 1024 + 26) 1 fun _ => 0).run mountedDisk = .ok (1, u) ∧
      Held u.zonesOf u.Marked := by
  have hwrites : ((MinixFSInode.writeData 2 (4 * 1024 + 26) 1 fun _ => 0).run mountedDisk).toOption.map (·.1) =
      some 1 := by decide +kernel
  cases hrun : (MinixFSInode.writeData 2 (4 * 1024 + 26) 1 fun _ => 0).run mountedDisk with
  | error e =>
    rw [hrun] at hwrites
    cases hwrites
  | ok r =>
    rw [hrun] at hwrites
    obtain ⟨n, u⟩ := r
    obtain rfl : n = 1 := Option.some.inj hwrites
    refine ⟨u, rfl, ?_⟩
    have hok : (ZoneCall.writeData 2 (4 * 1024 + 26) 1 fun _ => 0).KeepsZones mountedDisk := by
      intro inode hi
      obtain rfl := Option.some.inj hi
      exact ⟨.inl le_rfl, by unfold MinixFSZone.RoomFor; decide⟩
    have hstep : (ZoneCall.writeData 2 (4 * 1024 + 26) 1 fun _ => 0).step mountedDisk = .ok (u, []) := by
      rw [ZoneCall.step, hrun]
      rfl
    exact (zones_are_held_once mountedDisk_consistent (.next .start hok hstep)).1

/-- One byte behind the end: the last zone of the file goes to block 4, and inode 1 gets a zone of it. -/
theorem gap_shares_zone : Consistent mountedDisk ∧
    ∃ u, (MinixFSInode.writeData 2 (4 * 1024 + 27) 1 fun _ => 0).run mountedDisk = .ok (1, u) ∧
      ¬Held u.zonesOf u.Marked := by
  refine ⟨mountedDisk_consistent, ?_⟩
  have hwrites : ((MinixFSInode.writeData 2 (4 * 1024 + 27) 1 fun _ => 0).run mountedDisk).toOption.map
      (fun r => (r.1, decide (6 ∈ r.2.zonesOf 1), decide (6 ∈ r.2.zonesOf 2))) = some (1, true, true) := by
    decide +kernel
  cases hrun : (MinixFSInode.writeData 2 (4 * 1024 + 27) 1 fun _ => 0).run mountedDisk with
  | error e =>
    rw [hrun] at hwrites
    cases hwrites
  | ok r =>
    rw [hrun] at hwrites
    obtain ⟨n, u⟩ := r
    have hboth := Option.some.inj hwrites
    simp only [Prod.mk.injEq, decide_eq_true_eq] at hboth
    obtain ⟨rfl, hone, htwo⟩ := hboth
    exact ⟨u, rfl, fun h => h.apart 1 2 (by decide) 6 hone htwo⟩

end KPanic.Minix

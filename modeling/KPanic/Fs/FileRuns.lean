import KPanic.Fs.FileContents
import KPanic.Fs.ZoneRuns

/-!
# Runs of `writeData`

After any calls on any files a read returns what the same writes to arrays of bytes would give, as
long as no call starts behind the end of its file, or needs the zone behind the last one of a file
that ends with a zone.
-/

namespace KPanic.Minix

open Function
open Machine
open Ownership
open Wp

variable {s s₀ u : MinixFSSuperblock} {inode inode₀ : MinixFSInode} {i_num offset size : ℕ}

structure WriteCall where
  i_num : ℕ
  offset : ℕ
  size : ℕ
  buffer : Bytes.Memory

namespace WriteCall

def step (s : MinixFSSuperblock) (c : WriteCall) : Except Panic (MinixFSSuperblock × List WriteCall) :=
  ((MinixFSInode.writeData c.i_num c.offset c.size c.buffer).run s).map fun r => (r.2, [c])

def Fits (s : MinixFSSuperblock) (c : WriteCall) : Prop :=
  ∀ inode, s.all_inodes_ c.i_num = some inode → inode.CanWrite c.offset c.size

end WriteCall

/-! ### The arrays of bytes -/

/-- The calls for a file, on its array of bytes. -/
def Contents.written (c : Contents) (i_num : ℕ) : List WriteCall → Contents
  | [] => c
  | call :: calls =>
    (if call.i_num = i_num then c.write call.offset call.size call.buffer else c).written i_num calls

/-- The number of bytes that a read returns, and the buffer. -/
def Contents.read (c : Contents) (offset size : ℕ) (buffer : Bytes.Memory) : ℕ × Bytes.Memory :=
  (min size (c.size - offset), fun k => if k < min size (c.size - offset) then c.bytes (offset + k) else buffer k)

theorem Contents.written_append (c : Contents) (tr tr' : List WriteCall) :
    c.written i_num (tr ++ tr') = (c.written i_num tr).written i_num tr' := by
  induction tr generalizing c with
  | nil => rfl
  | cons call calls ih => exact ih _

theorem run_readData {buffer : Bytes.Memory} (h : OnDisk s inode.i_zones_) (hread : inode.CanRead offset size) :
    (MinixFSInode.readData inode offset size buffer).run s = .ok ((contentsOf s inode).read offset size buffer, s) := by
  obtain ⟨r, t, hrun, rfl, hr⟩ := returns_of_wp (wp_readData_ok buffer h hread)
  rw [hrun, hr]
  have hcount : readCount inode.i_size_ offset size = min size (inode.i_size_ - offset) := by
    rw [readCount_eq inode hread.1]
    split
    · omega
    · omega
  rw [hcount]
  refine congrArg (fun b => Except.ok ((_, b), t)) ?_
  funext k
  unfold Fs.patch contentsOf
  dsimp only
  rw [Nat.sub_zero, Nat.zero_add]
  by_cases hk : k < min size (inode.i_size_ - offset)
  · rw [if_pos ⟨Nat.zero_le k, hk⟩, if_pos hk, if_pos (by omega)]
  · rw [if_neg fun hin => hk hin.2, if_neg hk]

/-! ### Runs -/

/-- Each file has the bytes that the calls so far have given it. -/
structure Tracks (s₀ : MinixFSSuperblock) (tr : List WriteCall) (s : MinixFSSuperblock) : Prop where
  files : FilesOk s
  contents : ∀ i_num inode₀, s₀.all_inodes_ i_num = some inode₀ → ∃ inode, s.all_inodes_ i_num = some inode ∧
    contentsOf s inode = (contentsOf s₀ inode₀).written i_num tr

theorem Tracks.step {tr evs : List WriteCall} {c : WriteCall} (h : Tracks s₀ tr s) (hok : c.Fits s)
    (hs : c.step s = .ok (u, evs)) : Tracks s₀ (tr ++ evs) u := by
  rw [WriteCall.step] at hs
  cases hrun : (MinixFSInode.writeData c.i_num c.offset c.size c.buffer).run s with
  | error e =>
    rw [hrun] at hs
    cases hs
  | ok r =>
    rw [hrun] at hs
    cases hs
    cases hi : s.all_inodes_ c.i_num with
    | none =>
      have hfail : wp (fun _ => True) (MinixFSInode.writeData c.i_num c.offset c.size c.buffer)
          (fun _ _ => False) s := by
        unfold MinixFSInode.writeData
        refine wp_seq wp_loaded fun inode v hv => ?_
        rw [hi] at hv
        cases hv.2
      exact (of_wp hfail hrun).elim
    | some inode =>
      have hwrite := of_wp (wp_writeData c.buffer h.files hi (hok inode hi)) hrun
      obtain ⟨-, inode', hw⟩ := hwrite
      refine ⟨hw.files, fun j inode₀ hj => ?_⟩
      obtain ⟨other, hother, hcontents⟩ := h.contents j inode₀ hj
      rw [Contents.written_append, ← hcontents]
      rw [hw.loaded]
      by_cases hji : j = c.i_num
      · subst hji
        obtain rfl : inode = other := Option.some.inj (hi.symm.trans hother)
        refine ⟨inode', update_self _ _ _, ?_⟩
        rw [hw.contents, Contents.written, Contents.written, if_pos rfl]
      · refine ⟨other, ?_, ?_⟩
        · rw [update_of_ne hji]
          exact hother
        · rw [hw.others j other hji hother, Contents.written, Contents.written, if_neg fun heq => hji heq.symm]

theorem tracks_runs {tr : List WriteCall} (F : FilesOk s₀)
    (hrun : Runs WriteCall.step (fun s c => c.Fits s) s₀ tr s) : Tracks s₀ tr s :=
  hrun.invariant (I := Tracks s₀) ⟨F, fun _ inode₀ hi => ⟨inode₀, hi, rfl⟩⟩ fun h hok hs => h.step hok hs

/-- After any run every read returns the bytes of the array that the calls have written to. The next
write succeeds unless its zones do not fit, and changes blocks of its file only. -/
theorem files_are_byte_arrays {tr : List WriteCall} (F : FilesOk s₀)
    (hrun : Runs WriteCall.step (fun s c => c.Fits s) s₀ tr s) :
    (∀ i_num inode₀, s₀.all_inodes_ i_num = some inode₀ → ∃ inode, s.all_inodes_ i_num = some inode ∧
      ∀ offset size buffer, inode.CanRead offset size → (MinixFSInode.readData inode offset size buffer).run s =
        .ok (((contentsOf s₀ inode₀).written i_num tr).read offset size buffer, s)) ∧
    ∀ i_num inode offset size buffer, s.all_inodes_ i_num = some inode → inode.CanWrite offset size →
      match (MinixFSInode.writeData i_num offset size buffer).run s with
      | .ok (n, u) => n = size ∧ ∀ b, u.disk b ≠ s.disk b → s.s_1st_datazone_ ≤ b ∧ b ∈ u.zonesOf i_num ∧
        ∀ j ≠ i_num, b ∉ u.zonesOf j
      | .error e => WontFit s inode offset size e := by
  have h := tracks_runs F hrun
  refine ⟨fun i_num inode₀ hi => ?_, fun i_num inode offset size buffer hi hfit => ?_⟩
  · obtain ⟨inode, hloaded, hcontents⟩ := h.contents i_num inode₀ hi
    refine ⟨inode, hloaded, fun offset size buffer hread => ?_⟩
    rw [run_readData (h.files.onDisk hloaded) hread, hcontents]
  · have hwrite := wp_writeData buffer h.files hi hfit
    cases hw : (MinixFSInode.writeData i_num offset size buffer).run s with
    | error e =>
      have herror := error_of_wp hwrite hw
      exact herror
    | ok r =>
      obtain ⟨hn, inode', hwrote⟩ := of_wp hwrite hw
      refine ⟨hn, fun b hb => ?_⟩
      have hmem : b ∈ r.2.zonesOf i_num := by
        have hloaded : r.2.all_inodes_ i_num = some inode' := by
          rw [hwrote.loaded]
          exact update_self _ _ _
        rw [zonesOf_loaded hloaded]
        by_contra hnot
        exact hb (hwrote.disk b hnot)
      have howned := hwrote.files.consistent.owned
      refine ⟨?_, hmem, fun j hj => howned.apart i_num j hj.symm b hmem⟩
      rw [← hwrote.first]
      exact (howned.mem_marked hmem).1

theorem mountedDisk_files : FilesOk mountedDisk where
  consistent := mountedDisk_consistent
  packed := by
    intro i inode hi j
    obtain ⟨-, hinode⟩ := Option.ite_none_right_eq_some.mp hi
    obtain rfl := Option.some.inj hinode
    have hcases := rawAt_cases true ⟨[6, 7, 8, 9, 10, 0, 0, 0, 0, 0], none, none, none, 5⟩ j
    obtain ⟨hj, hraw⟩ | ⟨k, hj, -, hraw⟩ | ⟨k, l, hj, hraw⟩ := hcases
    · change MinixFSZone.rawAt true _ j ≠ 0 ↔ _
      rw [hraw]
      clear hraw
      revert j
      decide
    · change MinixFSZone.rawAt true _ j ≠ 0 ↔ _
      rw [hraw]
      simp
      omega
    · change MinixFSZone.rawAt true _ j ≠ 0 ↔ _
      rw [hraw]
      simp
      omega
  room := by
    intro i inode hi
    obtain ⟨-, hinode⟩ := Option.ite_none_right_eq_some.mp hi
    obtain rfl := Option.some.inj hinode
    decide

theorem files_are_byte_arrays_mounted :
    ∃ u inode, (MinixFSInode.writeData 2 (4 * 1024 + 26) 1 fun _ => 7).run mountedDisk = .ok (1, u) ∧
      u.all_inodes_ 2 = some inode ∧
      ((MinixFSInode.readData inode (4 * 1024 + 25) 9 fun _ => 0).run u).map (fun r => (r.1.1, r.1.2 0, r.1.2 1)) =
        .ok (2, 0, 7) := by
  have hwrites : ((MinixFSInode.writeData 2 (4 * 1024 + 26) 1 fun _ => 7).run mountedDisk).toOption.map
      (fun r => (r.1, (r.2.all_inodes_ 2).map fun inode => (inode.i_size_, inode.i_zones_.num_zones_))) =
        some (1, some (4 * 1024 + 27, 6)) := by decide +kernel
  cases hrun : (MinixFSInode.writeData 2 (4 * 1024 + 26) 1 fun _ => 7).run mountedDisk with
  | error e =>
    rw [hrun] at hwrites
    cases hwrites
  | ok r =>
    rw [hrun] at hwrites
    obtain ⟨n, u⟩ := r
    have hafter := Option.some.inj hwrites
    obtain rfl : n = 1 := congrArg Prod.fst hafter
    have hfits : (WriteCall.mk 2 (4 * 1024 + 26) 1 fun _ => 7).Fits mountedDisk := by
      intro inode hi
      obtain rfl := Option.some.inj hi
      exact ⟨le_rfl, by decide, .inl (by decide)⟩
    have hstep : (WriteCall.mk 2 (4 * 1024 + 26) 1 fun _ => 7).step mountedDisk =
        .ok (u, [WriteCall.mk 2 (4 * 1024 + 26) 1 fun _ => 7]) := by
      rw [WriteCall.step, hrun]
      rfl
    have hfiles := files_are_byte_arrays mountedDisk_files (.next .start hfits hstep)
    obtain ⟨inode, hloaded, hread⟩ := hfiles.1 2 _ rfl
    refine ⟨u, inode, rfl, hloaded, ?_⟩
    have hsizes := congrArg Prod.snd hafter
    dsimp only at hsizes
    rw [hloaded] at hsizes
    obtain ⟨hsize, hnum⟩ := Prod.mk.inj (Option.some.inj hsizes)
    rw [hread _ _ _ ⟨by decide, .inr (by rw [hsize, hnum]; decide)⟩]
    refine congrArg Except.ok ?_
    dsimp only
    decide +kernel

/-- A write behind the end of a file changes a block of the inode table. -/
theorem gap_write_hits_table : FilesOk mountedDisk ∧
    ∃ u, (MinixFSInode.writeData 2 (4 * 1024 + 27) 1 fun _ => 0).run mountedDisk = .ok (1, u) ∧
      4 < mountedDisk.s_1st_datazone_ ∧ u.disk 4 24 ≠ mountedDisk.disk 4 24 := by
  refine ⟨mountedDisk_files, ?_⟩
  have hwrites : ((MinixFSInode.writeData 2 (4 * 1024 + 27) 1 fun _ => 0).run mountedDisk).toOption.map
      (fun r => (r.1, r.2.disk 4 24)) = some (1, 6) := by decide +kernel
  cases hrun : (MinixFSInode.writeData 2 (4 * 1024 + 27) 1 fun _ => 0).run mountedDisk with
  | error e =>
    rw [hrun] at hwrites
    cases hwrites
  | ok r =>
    rw [hrun] at hwrites
    obtain ⟨n, u⟩ := r
    obtain ⟨rfl, hbyte⟩ := Prod.mk.inj (Option.some.inj hwrites)
    dsimp only at hbyte
    refine ⟨u, rfl, by decide, ?_⟩
    rw [hbyte]
    decide

end KPanic.Minix

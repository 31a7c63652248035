import KPanic.Fs.FileRuns

/-!
# How many zones a file has

A call of `writeData` that makes its file longer adds zones for the bytes that it adds, whatever room is
left in the last zone. Each call can so leave one more zone than the file needs.
-/

namespace KPanic.Minix

open Function
open Machine
open Wp

variable {s s₀ u : MinixFSSuperblock} {inode inode₀ : MinixFSInode} {t : MinixFSZone} {i_num offset size n : ℕ}
  {buffer : Bytes.Memory} {tr : List WriteCall}

/-! ### What leaves the inodes alone -/

section

variable {α β : Type} {m : Fs α} {f : α → Fs β}

def Frames (m : Fs α) : Prop := ∀ s, wp (fun _ => True) m (fun _ u => u.all_inodes_ = s.all_inodes_) s

theorem frames_pure (a : α) : Frames (pure a : Fs α) := fun _ => (wp_pure a).mpr rfl

theorem Frames.seq (h : Frames m) (hf : ∀ a, Frames (f a)) : Frames (m >>= f) := fun s =>
  wp_seq (h s) fun a _ ht => wp_mono (hf a _) fun _ _ hu => hu.trans ht

theorem Frames.wp_seq (h : Frames m) {Q : β → MinixFSSuperblock → Prop}
    (hf : ∀ a u, u.all_inodes_ = s.all_inodes_ → wp (fun _ => True) (f a) Q u) : wp (fun _ => True) (m >>= f) Q s :=
  Wp.wp_seq (h s) hf

theorem frames_ite {c : Prop} [Decidable c] {m n : Fs α} (hm : Frames m) (hn : Frames n) :
    Frames (if c then m else n) := fun s => wp_ite (fun _ => hm s) fun _ => hn s

end

theorem frames_readZone (zone : ℕ) : Frames (Fs.readZone zone) := fun _ =>
  Fs.wp_readZone.mpr ⟨fun _ => rfl, fun _ => trivial⟩

theorem frames_writeZone (zone : ℕ) (buffer : Block) : Frames (Fs.writeZone zone buffer) := fun _ =>
  Fs.wp_writeZone.mpr ⟨fun _ => rfl, fun _ => trivial⟩

theorem frames_getZone (t : MinixFSZone) (index : ℕ) : Frames (t.getZone index) := fun _ =>
  MinixFSZone.wp_getZone.mpr ⟨fun _ _ => rfl, fun _ _ => trivial⟩

theorem frames_allocateZone : Frames Fs.allocateZone := by
  intro s
  unfold Fs.allocateZone
  rw [wp_bind, wp_get, wp_bind]
  cases s.storage_manager_.allocZone with
  | error e => exact (wp_lift_error e).mpr trivial
  | ok r =>
    obtain ⟨pos, storage_manager_⟩ := r
    rw [wp_lift_ok, wp_bind, wp_set, wp_pure]

theorem frames_readLoop (inode : MinixFSInode) (size passes zone index zone_offset : ℕ) (buffer : Bytes.Memory) :
    Frames (MinixFSInode.readLoop inode size passes zone index zone_offset buffer) := by
  induction passes generalizing zone index zone_offset buffer with
  | zero => exact frames_pure _
  | succ passes ih =>
    exact (frames_getZone _ _).seq fun zone' => (frames_readZone _).seq fun rbuffer => ih _ _ _ _

theorem frames_readData (inode : MinixFSInode) (offset size : ℕ) (buffer : Bytes.Memory) :
    Frames (MinixFSInode.readData inode offset size buffer) := by
  unfold MinixFSInode.readData
  exact frames_ite (frames_pure _) ((frames_readLoop _ _ _ _ _ _ _).seq fun _ => frames_pure _)

theorem frames_clearZones (n zone : ℕ) : Frames (MinixFSInode.clearZones n zone) := by
  induction n generalizing zone with
  | zero => exact frames_pure _
  | succ n ih => exact (frames_writeZone _ _).seq fun _ => ih _

theorem frames_writeLoop (inode : MinixFSInode) (passes zone : ℕ) (wbuffer : Bytes.Memory) :
    Frames (MinixFSInode.writeLoop inode passes zone wbuffer) := by
  induction passes generalizing zone wbuffer with
  | zero => exact frames_pure _
  | succ passes ih => exact (frames_getZone _ _).seq fun _ => (frames_writeZone _ _).seq fun _ => ih _ _

/-! ### One call -/

/-- The tree has `n` zones more. -/
def Counts (t : MinixFSZone) (n : ℕ) (s : MinixFSSuperblock) (t' : MinixFSZone) (u : MinixFSSuperblock) : Prop :=
  t'.num_zones_ = t.num_zones_ + n ∧ u.all_inodes_ = s.all_inodes_

theorem counts_needIndirect (t : MinixFSZone) :
    wp (fun _ => True) t.needIndirect (fun r u => Counts t 0 s r.1 u) s := by
  unfold MinixFSZone.needIndirect
  cases t.indirect_zones_ with
  | some zones => exact (wp_pure _).mpr ⟨rfl, rfl⟩
  | none =>
    refine frames_allocateZone.wp_seq fun link u hu => ?_
    rw [wp_bind, wp_get, wp_pure]
    exact ⟨rfl, hu⟩

theorem counts_needDouble (t : MinixFSZone) :
    wp (fun _ => True) t.needDouble (fun r u => Counts t 0 s r.1 u) s := by
  unfold MinixFSZone.needDouble
  cases t.double_indirect_zones_ with
  | some entries => exact (wp_pure _).mpr ⟨rfl, rfl⟩
  | none =>
    refine frames_allocateZone.wp_seq fun link u hu => ?_
    rw [wp_bind, wp_get, wp_bind, wp_get, wp_pure]
    exact ⟨rfl, hu⟩

theorem counts_setZone (t : MinixFSZone) (index zone : ℕ) :
    wp (fun _ => True) (t.setZone index zone) (Counts t 1 s) s := by
  unfold MinixFSZone.setZone
  rw [wp_bind, wp_get]
  refine wp_ite (fun _ => (wp_pure _).mpr ⟨rfl, rfl⟩) fun _ => wp_ite (fun _ => ?_) fun _ => ?_
  · refine Wp.wp_seq (counts_needIndirect t) fun r u hu => ?_
    obtain ⟨t', zones⟩ := r
    exact (wp_pure _).mpr ⟨congrArg (· + 1) hu.1, hu.2⟩
  · refine Wp.wp_seq (counts_needDouble t) fun r u hu => ?_
    obtain ⟨t', links, entries⟩ := r
    have hnum : t'.num_zones_ + 1 = t.num_zones_ + 1 := congrArg (· + 1) hu.1
    refine wp_ite (fun _ => ?_) fun _ => (wp_throw _).mpr trivial
    split
    · exact (wp_pure _).mpr ⟨hnum, hu.2⟩
    · exact frames_allocateZone.wp_seq fun link v hv => (wp_pure _).mpr ⟨hnum, hv.trans hu.2⟩

theorem counts_addZones (n : ℕ) (t : MinixFSZone) :
    wp (fun _ => True) (MinixFSInode.addZones n t) (Counts t n s) s := by
  induction n generalizing t s with
  | zero => exact (wp_pure _).mpr ⟨rfl, rfl⟩
  | succ n ih =>
    refine frames_allocateZone.wp_seq fun new_zone u hu => ?_
    refine Wp.wp_seq (counts_setZone t _ _) fun t' v hv => ?_
    refine wp_mono (ih t') fun t'' w hw => ?_
    obtain ⟨hone, hsame⟩ := hv
    obtain ⟨hrest, hsame'⟩ := hw
    exact ⟨by omega, hsame'.trans (hsame.trans hu)⟩

theorem wp_fillGap_size (inode : MinixFSInode) (offset : ℕ) :
    wp (fun _ => True) (MinixFSInode.fillGap inode offset)
      (fun r u => r = { inode with i_size_ := offset } ∧ u.all_inodes_ = s.all_inodes_) s := by
  unfold MinixFSInode.fillGap
  dsimp only
  have hrest : ∀ u : MinixFSSuperblock, u.all_inodes_ = s.all_inodes_ →
      wp (fun _ => True) (do
        MinixFSInode.clearZones (offset / ZONE_SIZE - inode.i_size_ / ZONE_SIZE) (inode.i_size_ / ZONE_SIZE + 1)
        pure { inode with i_size_ := offset } : Fs MinixFSInode)
        (fun r u => r = { inode with i_size_ := offset } ∧ u.all_inodes_ = s.all_inodes_) u := by
    intro u hu
    exact (frames_clearZones _ _).wp_seq fun _ v hv => (wp_pure _).mpr ⟨rfl, hv.trans hu⟩
  refine wp_ite (fun _ => ?_) fun _ => hrest s rfl
  refine (frames_readData _ _ _ _).wp_seq fun r u hu => ?_
  exact (frames_writeZone _ _).wp_seq fun _ v hv => hrest v (hv.trans hu)

/-- What a call makes of the inode, as far as its length goes. -/
structure Resized (inode : MinixFSInode) (offset size : ℕ) (inode' : MinixFSInode) : Prop where
  length : inode'.i_size_ = max (if offset > inode.i_size_ then offset else inode.i_size_) (u32 (offset + size))
  zones : inode'.i_zones_.num_zones_ = inode.i_zones_.num_zones_ + inode.newZones offset size

theorem wp_writeData_resized (i_num offset size : ℕ) (buffer : Bytes.Memory) :
    wp (fun _ => True) (MinixFSInode.writeData i_num offset size buffer) (fun _ u => ∃ inode inode',
      s.all_inodes_ i_num = some inode ∧ u.all_inodes_ = update s.all_inodes_ i_num (some inode') ∧
        Resized inode offset size inode') s := by
  unfold MinixFSInode.writeData
  refine Wp.wp_seq wp_loaded fun inode u hi => ?_
  obtain ⟨rfl, hi⟩ := hi
  dsimp only
  have hadd : wp (fun _ => True) (if u32 (size + offset) > inode.i_size_ then
        MinixFSInode.addZones ((u32 (size + offset) - inode.i_size_) / ZONE_SIZE + 1) inode.i_zones_
      else pure inode.i_zones_) (Counts inode.i_zones_ (inode.newZones offset size) u) u := by
    unfold MinixFSInode.newZones
    split
    · exact counts_addZones _ _
    · exact (wp_pure _).mpr ⟨rfl, rfl⟩
  refine wp_seq_ite hadd fun t v hv => ?_
  obtain ⟨hcount, hsame⟩ := hv
  have hgap : wp (fun _ => True) (if offset > inode.i_size_ then
        MinixFSInode.fillGap { inode with i_zones_ := t } offset else pure { inode with i_zones_ := t })
      (fun r w => r.i_size_ = (if offset > inode.i_size_ then offset else inode.i_size_) ∧ r.i_zones_ = t ∧
        w.all_inodes_ = u.all_inodes_) v := by
    split
    · refine wp_mono (wp_fillGap_size _ _) ?_
      rintro r w ⟨rfl, hw⟩
      exact ⟨rfl, rfl, hw.trans hsame⟩
    · exact (wp_pure _).mpr ⟨rfl, rfl, hsame⟩
  refine wp_seq_ite hgap fun r w hw => ?_
  obtain ⟨hsize, rfl, hw⟩ := hw
  refine (frames_readData _ _ _ _).wp_seq fun wbuffer x hx => ?_
  refine (frames_writeLoop _ _ _ _).wp_seq fun _ y hy => ?_
  rw [wp_bind, Fs.setInode, wp_modify, wp_pure]
  refine ⟨inode, { r with i_size_ := max r.i_size_ (u32 (offset + size)) }, hi, ?_, ⟨?_, hcount⟩⟩
  · exact congrArg (fun inodes => update inodes i_num _) (hy.trans (hx.trans hw))
  · exact congrArg (fun n => max n _) hsize

/-! ### The zones that a file needs -/

def neededZones (i_size_ : ℕ) : ℕ := (i_size_ + (ZONE_SIZE - 1)) / ZONE_SIZE

/-- The bytes of the last zone that are behind the end of the file. -/
def freeInLast (i_size_ : ℕ) : ℕ := neededZones i_size_ * ZONE_SIZE - i_size_

/-- The file has the zones that it needs, and one more at most. -/
def Fitting (inode : MinixFSInode) : Prop :=
  neededZones inode.i_size_ ≤ inode.i_zones_.num_zones_ ∧ inode.i_zones_.num_zones_ ≤ neededZones inode.i_size_ + 1

namespace WriteCall

/-- The call does not go past the numbers of type `uint32`. If it makes its file longer, the file has no
zone to spare, or the bytes behind the last whole zone that is added do not fit into the last zone. -/
def Tight (s : MinixFSSuperblock) (c : WriteCall) : Prop :=
  ∀ inode ∈ s.all_inodes_ c.i_num, c.offset + c.size < 2 ^ 32 ∧ (inode.i_size_ < c.offset + c.size →
    inode.i_zones_.num_zones_ = neededZones inode.i_size_ ∨
      freeInLast inode.i_size_ < (c.offset + c.size - inode.i_size_) % ZONE_SIZE)

instance (s : MinixFSSuperblock) : DecidablePred (Tight s) := fun _ => inferInstanceAs (Decidable (∀ _ ∈ _, _))

end WriteCall

/-- A call leaves one more zone than before to spare, unless what it adds does not fit into the last one. -/
theorem Resized.fitting_iff {inode' : MinixFSInode} (h : Resized inode offset size inode')
    (hfits : offset + size < 2 ^ 32) (hold : Fitting inode) :
    Fitting inode' ↔ (inode.i_size_ < offset + size → inode.i_zones_.num_zones_ = neededZones inode.i_size_ ∨
      freeInLast inode.i_size_ < (offset + size - inode.i_size_) % ZONE_SIZE) := by
  have hlength := h.length
  have hzones := h.zones
  unfold u32 at hlength
  unfold MinixFSInode.newZones u32 at hzones
  rw [Nat.mod_eq_of_lt hfits] at hlength
  rw [Nat.add_comm size, Nat.mod_eq_of_lt hfits] at hzones
  unfold Fitting freeInLast neededZones ZONE_SIZE at *
  by_cases hgrow : inode.i_size_ < offset + size
  · have hsize : inode'.i_size_ = offset + size := by
      rw [hlength]
      split <;> omega
    rw [if_pos hgrow] at hzones
    rw [hsize, hzones]
    omega
  · have hsize : inode'.i_size_ = inode.i_size_ := by
      rw [hlength, if_neg (by omega)]
      omega
    rw [if_neg hgrow] at hzones
    rw [hsize, hzones]
    constructor
    · intro _ hgrow'
      exact absurd hgrow' hgrow
    · intro _
      omega

/-! ### Runs -/

/-- The inode of a file when it is created. -/
def MinixFSInode.IsNew (inode : MinixFSInode) : Prop := inode.i_size_ = 0 ∧ inode.i_zones_.num_zones_ = 0

/-- `createInode` calls the constructor without zones. -/
theorem wp_new_isNew (i_mode i_nlinks n i_num : ℕ) :
    wp (fun _ => True) (MinixFSInode.new i_mode 0 i_nlinks (List.replicate n 0) i_num)
      (fun inode _ => inode.IsNew) s := by
  have hzero : ∀ i, (List.replicate n 0).getD i 0 = 0 := by
    intro i
    rw [List.getD_eq_getElem?_getD, List.getElem?_replicate]
    split <;> rfl
  have hcount : countZones ((List.replicate n 0).take 7) = 0 := by
    rw [List.take_replicate, countZones, List.countP_replicate]
    rfl
  have hzones : wp (fun _ => True) (MinixFSZone.new (List.replicate n 0)) (fun t _ => t.num_zones_ = 0) s := by
    unfold MinixFSZone.new
    simp only [hzero, hcount, ne_eq, not_true_eq_false, if_false, wp_bind, wp_get, wp_pure, Option.elim_none]
  unfold MinixFSInode.new
  refine Wp.wp_seq hzones fun t u ht => ?_
  cases MinixFSInode.typeOf i_mode with
  | none => exact (wp_throw _).mpr trivial
  | some i_type_ => exact (wp_pure _).mpr ⟨rfl, ht⟩

theorem WriteCall.step_resized {c : WriteCall} {evs : List WriteCall} (hs : c.step s = .ok (u, evs)) :
    ∃ inode inode', s.all_inodes_ c.i_num = some inode ∧ u.all_inodes_ = update s.all_inodes_ c.i_num (some inode') ∧
      Resized inode c.offset c.size inode' := by
  rw [WriteCall.step] at hs
  cases hrun : (MinixFSInode.writeData c.i_num c.offset c.size c.buffer).run s with
  | error e =>
    rw [hrun] at hs
    cases hs
  | ok r =>
    rw [hrun] at hs
    cases hs
    exact of_wp (wp_writeData_resized c.i_num c.offset c.size c.buffer) hrun

/-- After any writes to files, a file that was new has the zones that it needs, and one more at most. -/
theorem file_fits_its_zones (hnew : ∀ inode ∈ s₀.all_inodes_ i_num, inode.IsNew)
    (hrun : Runs WriteCall.step (fun s c => c.i_num = i_num → c.Tight s) s₀ tr s) :
    ∀ inode ∈ s.all_inodes_ i_num, Fitting inode := by
  refine hrun.invariant (I := fun _ s => ∀ inode ∈ s.all_inodes_ i_num, Fitting inode) ?_ ?_
  · intro inode hi
    obtain ⟨hsize, hzones⟩ := hnew inode hi
    unfold Fitting
    rw [hsize, hzones]
    decide
  · intro tr s c u evs hfitting htight hs inode hi
    obtain ⟨old, new, hold, hall, hresized⟩ := WriteCall.step_resized hs
    rw [hall] at hi
    by_cases hsame : i_num = c.i_num
    · subst hsame
      rw [update_self] at hi
      obtain rfl := Option.some.inj hi
      obtain ⟨hfits, htight⟩ := htight rfl old hold
      exact (hresized.fitting_iff hfits (hfitting old hold)).mpr htight
    · rw [update_of_ne hsame] at hi
      exact hfitting inode hi

/-- A disk with a new file. -/
def newFile : MinixFSSuperblock :=
  { mountedDisk with
    all_inodes_ := fun i_num => if i_num = 2 then
      some ⟨2, .file, 0, 1, ⟨[0, 0, 0, 0, 0, 0, 0, 0, 0, 0], none, none, none, 0⟩, none, 0, false, []⟩
    else none }

theorem newFile_isNew : ∀ inode ∈ newFile.all_inodes_ 2, inode.IsNew := by
  intro inode hi
  obtain rfl := Option.some.inj hi
  exact ⟨rfl, rfl⟩

/-- The bytes of a file are written one by one. -/
def byteWrites (n : ℕ) : List WriteCall := (List.range n).map fun i => ⟨2, i, 1, fun _ => 7⟩

theorem file_fits_its_zones_two : ∃ tr s,
    Runs WriteCall.step (fun s c => c.i_num = 2 → c.Tight s) newFile tr s ∧
    (s.all_inodes_ 2).map (fun inode => (inode.i_size_, inode.i_zones_.num_zones_)) = some (2, 2) ∧
    ∀ inode ∈ s.all_inodes_ 2, Fitting inode := by
  have hexec : (execOk WriteCall.step (fun s c => c.i_num = 2 → c.Tight s) newFile (byteWrites 2)).map
      (fun r => (r.1.all_inodes_ 2).map fun inode => (inode.i_size_, inode.i_zones_.num_zones_)) =
        some (some (2, 2)) := by decide +kernel
  obtain ⟨⟨s, tr⟩, hok, hsizes⟩ := Option.map_eq_some_iff.mp hexec
  have hrun := runs_of_execOk newFile _ hok
  exact ⟨tr, s, hrun, hsizes, file_fits_its_zones newFile_isNew hrun⟩

/-- Three writes of one byte take three zones. -/
theorem byte_writes_take_zones : (∀ inode ∈ newFile.all_inodes_ 2, inode.IsNew) ∧
    ∃ tr s inode, Runs WriteCall.step (fun _ _ => True) newFile tr s ∧ s.all_inodes_ 2 = some inode ∧
      inode.i_size_ = 3 ∧ inode.i_zones_.num_zones_ = 3 ∧ ¬Fitting inode := by
  refine ⟨newFile_isNew, ?_⟩
  have hexec : (execOk WriteCall.step (fun _ _ => True) newFile (byteWrites 3)).map
      (fun r => (r.1.all_inodes_ 2).map fun inode => (inode.i_size_, inode.i_zones_.num_zones_)) =
        some (some (3, 3)) := by decide +kernel
  obtain ⟨⟨s, tr⟩, hok, hsizes⟩ := Option.map_eq_some_iff.mp hexec
  obtain ⟨inode, hi, heq⟩ := Option.map_eq_some_iff.mp hsizes
  obtain ⟨hsize, hnum⟩ := Prod.mk.inj heq
  refine ⟨tr, s, inode, runs_of_execOk newFile _ hok, hi, hsize, hnum, ?_⟩
  rw [Fitting, hsize, hnum]
  decide

end KPanic.Minix

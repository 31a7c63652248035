import KPanic.Fs.MinixStorageManager
import KPanic.Lib.CircularScan
import KPanic.Lib.Machine

/-!
# Which allocations succeed

`allocZone` and `allocInode` search the bitmap in a circle behind the last index that was allocated,
and leave that index out. `allocInode` does not test for the end of the circle when it began at 0.
-/

namespace KPanic.Minix

open CircularScan Machine

variable {bm : Bitmap} {m m' m₀ : MinixStorageManager} {curr passes pos i n : ℕ}

def isClear (bm : Bitmap) (i : ℕ) : Bool := !Bitmap.getBit bm.bitmap_ i

theorem isClear_eq_true : isClear bm i = true ↔ Bitmap.getBit bm.bitmap_ i = false := by
  rw [isClear, Bool.not_eq_true']

theorem isClear_eq_false : isClear bm i = false ↔ Bitmap.getBit bm.bitmap_ i = true := by
  rw [isClear, Bool.not_eq_false']

/-- An outcome of the search, as the two functions report it. -/
def report (full : Panic) : Outcome → Except Panic ℕ
  | .found pos => .ok pos
  | .stopped => .error full
  | .endless => .error .endless

/-- The report of a scan, when it is an index. -/
theorem report_eq_ok {full : Panic} {o : Outcome} (h : report full o = .ok pos) : o = .found pos := by
  cases o with
  | found p =>
    cases h
    rfl
  | stopped => cases h
  | endless => cases h

/-- The test of a bit at the end of a pass. -/
theorem report_slot {full : Panic} {x : Except Panic ℕ} {y : Outcome} (h : x = report full y) :
    (if Bitmap.getBit bm.bitmap_ pos = false then .ok pos else x) =
      report full (if isClear bm pos then .found pos else y) := by
  by_cases hclear : Bitmap.getBit bm.bitmap_ pos = false
  · rw [if_pos hclear, if_pos (isClear_eq_true.mpr hclear)]
    rfl
  · rw [if_neg hclear, if_neg (mt isClear_eq_true.mp hclear)]
    exact h

theorem searchZone_eq_scan : MinixStorageManager.searchZone bm curr passes pos =
    report .noFreeZone (scan (isClear bm) true bm.size_ curr passes pos) := by
  induction passes generalizing pos with
  | zero => rfl
  | succ passes ih =>
    rw [MinixStorageManager.searchZone, scan]
    by_cases hstop : pos = curr
    · rw [if_pos hstop, if_pos hstop]
      rfl
    · rw [if_neg hstop, if_neg hstop]
      by_cases hguard : pos ≥ bm.size_ ∧ 0 = curr
      · have hguard' : true = true ∧ bm.size_ ≤ pos ∧ 0 = curr := ⟨rfl, hguard⟩
        rw [if_pos hguard, if_pos hguard']
        rfl
      · have hguard' : ¬(true = true ∧ bm.size_ ≤ pos ∧ 0 = curr) := fun h => hguard h.2
        rw [if_neg hguard, if_neg hguard']
        exact report_slot ih

theorem searchZone_spec (hreserved : Bitmap.getBit bm.bitmap_ 0 = true)
    (h : MinixStorageManager.searchZone bm curr passes pos = .ok i) :
    i < bm.size_ ∧ i ≠ 0 ∧ Bitmap.getBit bm.bitmap_ i = false := by
  rw [searchZone_eq_scan] at h
  obtain ⟨hlt, hfree⟩ := found_free (report_eq_ok h)
  have hclear := isClear_eq_true.mp hfree
  have hne : i ≠ 0 := by
    rintro rfl
    rw [hreserved] at hclear
    cases hclear
  exact ⟨hlt.resolve_right hne, hne, hclear⟩

theorem searchZone_error {e : Panic} (h : MinixStorageManager.searchZone bm curr passes pos = .error e) :
    e = .noFreeZone ∨ e = .endless := by
  rw [searchZone_eq_scan] at h
  cases hscan : scan (isClear bm) true bm.size_ curr passes pos with
  | found i =>
    rw [hscan] at h
    cases h
  | stopped =>
    rw [hscan] at h
    cases h
    exact .inl rfl
  | endless =>
    rw [hscan] at h
    cases h
    exact .inr rfl

theorem searchInode_eq_scan : MinixStorageManager.searchInode bm curr passes pos =
    report .noFreeInode (scan (isClear bm) false bm.size_ curr passes pos) := by
  induction passes generalizing pos with
  | zero => rfl
  | succ passes ih =>
    have hguard : ¬(false = true ∧ bm.size_ ≤ pos ∧ 0 = curr) := fun h => Bool.false_ne_true h.1
    rw [MinixStorageManager.searchInode, scan, if_neg hguard]
    by_cases hstop : pos = curr
    · rw [if_pos hstop, if_pos hstop]
      rfl
    · rw [if_neg hstop, if_neg hstop]
      exact report_slot ih

/-! ### One allocation -/

/-- What is expected of an allocation: `search` is its loop with a number of passes, `alloc` the index
and the bitmap that it returns, `full` how it reports that there is no free index. -/
structure Complete (bm : Bitmap) (search : ℕ → Except Panic ℕ) (alloc : Except Panic (ℕ × Bitmap))
    (full : Panic) : Prop where
  ends : ∃ passes, search passes ≠ .error .endless
  finds : (∃ i < bm.size_, Bitmap.getBit bm.bitmap_ i = false) →
    ∃ pos bm', alloc = .ok (pos, bm') ∧ pos < bm.size_ ∧ Bitmap.getBit bm.bitmap_ pos = false ∧
      bm'.size_ = bm.size_ ∧ ∀ j, Bitmap.getBit bm'.bitmap_ j = (decide (j = pos) || Bitmap.getBit bm.bitmap_ j)
  reports : alloc = .error full → ∀ i < bm.size_, Bitmap.getBit bm.bitmap_ i = true

/-- The loops of the two functions and the bitmaps that they leave. -/
def MinixStorageManager.zoneSearch (m : MinixStorageManager) (passes : ℕ) : Except Panic ℕ :=
  searchZone m.zone_bitmap_ m.curr_zone_pos_ passes (m.curr_zone_pos_ + 1)

def MinixStorageManager.inodeSearch (m : MinixStorageManager) (passes : ℕ) : Except Panic ℕ :=
  searchInode m.inode_bitmap_ m.curr_inode_pos_ passes (m.curr_inode_pos_ + 1)

def ZonesComplete (m : MinixStorageManager) : Prop :=
  Complete m.zone_bitmap_ m.zoneSearch (m.allocZone.map fun r => (r.1, r.2.zone_bitmap_)) .noFreeZone

def InodesComplete (m : MinixStorageManager) : Prop :=
  Complete m.inode_bitmap_ m.inodeSearch (m.allocInode.map fun r => (r.1, r.2.inode_bitmap_)) .noFreeInode

/-- Some index other than the cursor is free. -/
def FreeElsewhere (bm : Bitmap) (curr : ℕ) : Prop :=
  ∃ i < bm.size_, i ≠ curr ∧ Bitmap.getBit bm.bitmap_ i = false

def Full (bm : Bitmap) : Prop := ∀ i < bm.size_, Bitmap.getBit bm.bitmap_ i = true

theorem find_eq_none (hcurr : curr < bm.size_) :
    (rest bm.size_ curr (curr + 1)).find? (isClear bm) = none ↔ ¬FreeElsewhere bm curr := by
  rw [find_rest_eq_none hcurr]
  constructor
  · intro h hfree
    obtain ⟨i, hi, hne, hclear⟩ := hfree
    have hset := isClear_eq_false.mp (h i hi hne)
    rw [hclear] at hset
    cases hset
  · intro h i hi hne
    by_contra hclear
    exact h ⟨i, hi, hne, isClear_eq_true.mp (Bool.eq_true_of_not_eq_false hclear)⟩

/-- The allocation, once its search is the scan. -/
theorem complete_iff (search : ℕ → Except Panic ℕ) (alloc : Except Panic (ℕ × Bitmap)) (full : Panic)
    {guards : Bool} (hok : bm.Ok) (hcurr : curr < bm.size_) (hreserved : Bitmap.getBit bm.bitmap_ 0 = true)
    (hfull : full ≠ .endless)
    (hsearch : ∀ passes, search passes = report full (scan (isClear bm) guards bm.size_ curr passes (curr + 1)))
    (halloc : alloc = (search (bm.size_ + 1)).map fun pos => (pos, (bm.setBit pos).2)) :
    Complete bm search alloc full ↔ FreeElsewhere bm curr ∨ (guards = true ∨ curr ≠ 0) ∧ Full bm := by
  have hlen : (rest bm.size_ curr (curr + 1)).length < bm.size_ + 1 := by
    rw [length_rest hcurr]
    omega
  by_cases hfree : FreeElsewhere bm curr
  · refine iff_of_true ?_ (.inl hfree)
    obtain ⟨p, hp⟩ := Option.ne_none_iff_exists'.mp (mt (find_eq_none hcurr).mp (not_not.mpr hfree))
    obtain ⟨hlt, -, hclear⟩ := of_find_rest hcurr hp
    have hfound : search (bm.size_ + 1) = .ok p := by
      have hsome : (rest bm.size_ curr (curr + 1)).find? (isClear bm) ≠ none := by
        rw [hp]
        exact Option.some_ne_none p
      rw [hsearch, scan_eq hcurr hcurr hlen (.inr (.inr hsome)), hp]
      rfl
    rw [hfound] at halloc
    refine ⟨⟨bm.size_ + 1, ?_⟩, fun _ => ?_, fun h => ?_⟩
    · rw [hfound]
      exact fun h => by cases h
    · refine ⟨p, (bm.setBit p).2, halloc, hlt, isClear_eq_true.mp hclear, Bitmap.setBit_size _ _, fun j => ?_⟩
      rw [Bitmap.getBit_setBit hok hlt]
      by_cases hj : j = p
      · rw [if_pos hj, decide_eq_true hj, Bool.true_or]
      · rw [if_neg hj, decide_eq_false hj, Bool.false_or]
    · rw [halloc] at h
      cases h
  · have hnone := (find_eq_none hcurr).mpr hfree
    have hstopped : guards = true ∨ curr ≠ 0 → search (bm.size_ + 1) = .error full := by
      intro hstop
      rw [hsearch, scan_eq hcurr hcurr hlen (hstop.imp_right .inl), hnone]
      rfl
    constructor
    · intro h
      have hstop : guards = true ∨ curr ≠ 0 := by
        by_contra hnot
        rw [not_or, Bool.not_eq_true, not_not] at hnot
        obtain ⟨hguards, hzero⟩ := hnot
        obtain ⟨passes, hends⟩ := h.ends
        have hset : ∀ i < bm.size_, isClear bm i = false := by
          intro i hi
          by_cases hi0 : i = 0
          · rw [hi0]
            exact isClear_eq_false.mpr hreserved
          · exact (find_rest_eq_none hcurr).mp hnone i hi fun heq => hi0 (heq.trans hzero)
        subst hzero
        rw [hsearch, hguards, scan_endless hset (Nat.succ_pos 0) hcurr] at hends
        exact hends rfl
      refine .inr ⟨hstop, h.reports ?_⟩
      rw [halloc, hstopped hstop]
      rfl
    · intro h
      obtain ⟨hstop, hset⟩ := h.resolve_left hfree
      refine ⟨⟨bm.size_ + 1, ?_⟩, fun hclear => ?_, fun _ => hset⟩
      · rw [hstopped hstop]
        exact fun heq => hfull (Except.error.inj heq)
      · obtain ⟨i, hi, hclear⟩ := hclear
        rw [hset i hi] at hclear
        cases hclear

/-! ### All reachable managers -/

inductive AllocCall
  | allocZone
  | allocInode
  | freeZone (index : ℕ)
  | freeInode (index : ℕ)
  deriving DecidableEq

def AllocCall.step (m : MinixStorageManager) : AllocCall → Except Panic (MinixStorageManager × List ℕ)
  | allocZone => m.allocZone.map fun r => (r.2, [])
  | allocInode => m.allocInode.map fun r => (r.2, [])
  | freeZone index => (m.freeZone index).map fun m => (m, [])
  | freeInode index => (m.freeInode index).map fun m => (m, [])

/-- What earlier calls leave behind. -/
structure Searchable (m : MinixStorageManager) : Prop where
  zones : m.zone_bitmap_.Ok
  inodes : m.inode_bitmap_.Ok
  zone_pos : m.curr_zone_pos_ < m.zone_bitmap_.size_
  inode_pos : m.curr_inode_pos_ < m.inode_bitmap_.size_

theorem Searchable.step (h : Searchable m) {c : AllocCall} {evs : List ℕ} (hs : c.step m = .ok (m', evs)) :
    Searchable m' := by
  obtain ⟨hzones, hinodes, hzone_pos, hinode_pos⟩ := h
  cases c with
  | allocZone =>
    rw [AllocCall.step, MinixStorageManager.allocZone, searchZone_eq_scan] at hs
    cases hr : report .noFreeZone (scan (isClear m.zone_bitmap_) true m.zone_bitmap_.size_ m.curr_zone_pos_
        (m.zone_bitmap_.size_ + 1) (m.curr_zone_pos_ + 1)) with
    | error e =>
      rw [hr] at hs
      cases hs
    | ok pos =>
      have hlt := found_lt (Nat.zero_lt_of_lt hzone_pos) (report_eq_ok hr)
      rw [hr] at hs
      cases hs
      exact ⟨Bitmap.setBit_ok hzones hlt, hinodes, hlt.trans_eq (Bitmap.setBit_size _ _).symm, hinode_pos⟩
  | allocInode =>
    rw [AllocCall.step, MinixStorageManager.allocInode, searchInode_eq_scan] at hs
    cases hr : report .noFreeInode (scan (isClear m.inode_bitmap_) false m.inode_bitmap_.size_
        m.curr_inode_pos_ (m.inode_bitmap_.size_ + 1) (m.curr_inode_pos_ + 1)) with
    | error e =>
      rw [hr] at hs
      cases hs
    | ok pos =>
      have hlt := found_lt (Nat.zero_lt_of_lt hinode_pos) (report_eq_ok hr)
      rw [hr] at hs
      cases hs
      exact ⟨hzones, Bitmap.setBit_ok hinodes hlt, hzone_pos, hlt.trans_eq (Bitmap.setBit_size _ _).symm⟩
  | freeZone index =>
    rw [AllocCall.step, MinixStorageManager.freeZone] at hs
    split at hs
    · rename_i hlt
      cases hs
      exact ⟨Bitmap.unsetBit_ok hzones hlt, hinodes, hzone_pos.trans_eq (Bitmap.unsetBit_size _ _).symm, hinode_pos⟩
    · cases hs
  | freeInode index =>
    rw [AllocCall.step, MinixStorageManager.freeInode] at hs
    split at hs
    · rename_i hlt
      cases hs
      exact ⟨hzones, Bitmap.unsetBit_ok hinodes hlt, hzone_pos, hinode_pos.trans_eq (Bitmap.unsetBit_size _ _).symm⟩
    · cases hs

/-- A manager that the constructor has made, and then allocations and releases in any order. -/
def Reached (m : MinixStorageManager) : Prop :=
  ∃ bm_buffer num_inode_bm_blocks num_zone_bm_blocks num_inodes num_zones tr,
    0 < num_inodes ∧ 0 < num_zones ∧
    Runs AllocCall.step (fun _ _ => True)
      (.new bm_buffer num_inode_bm_blocks num_zone_bm_blocks num_inodes num_zones) tr m

theorem Reached.searchable (h : Reached m) : Searchable m := by
  obtain ⟨bm_buffer, num_inode_bm_blocks, num_zone_bm_blocks, num_inodes, num_zones, tr, hinodes, hzones, hrun⟩ := h
  obtain ⟨hiok, hisize, -⟩ := loadBitmap_spec bm_buffer 0 num_inodes
  obtain ⟨hzok, hzsize, -⟩ := loadBitmap_spec bm_buffer (num_inode_bm_blocks * BLOCK_SIZE) num_zones
  refine hrun.invariant (I := fun _ m => Searchable m) ?_ fun hm _ hs => hm.step hs
  exact ⟨hzok, hiok, hzones.trans_eq hzsize.symm, hinodes.trans_eq hisize.symm⟩

theorem allocations_complete_iff (h : Reached m) (hzone : Bitmap.getBit m.zone_bitmap_.bitmap_ 0 = true)
    (hinode : Bitmap.getBit m.inode_bitmap_.bitmap_ 0 = true) :
    (ZonesComplete m ↔ FreeElsewhere m.zone_bitmap_ m.curr_zone_pos_ ∨ Full m.zone_bitmap_) ∧
      (InodesComplete m ↔ FreeElsewhere m.inode_bitmap_ m.curr_inode_pos_ ∨
        m.curr_inode_pos_ ≠ 0 ∧ Full m.inode_bitmap_) := by
  have hm := h.searchable
  constructor
  · have hiff := complete_iff m.zoneSearch (m.allocZone.map fun r => (r.1, r.2.zone_bitmap_))
      .noFreeZone hm.zones hm.zone_pos hzone (by decide) (fun _ => searchZone_eq_scan) ?_
    · rw [ZonesComplete, hiff]
      simp
    · rw [MinixStorageManager.allocZone]
      cases hr : MinixStorageManager.searchZone m.zone_bitmap_ m.curr_zone_pos_ (m.zone_bitmap_.size_ + 1)
        (m.curr_zone_pos_ + 1) with
      | error e =>
        rw [MinixStorageManager.zoneSearch, hr]
        rfl
      | ok pos =>
        rw [MinixStorageManager.zoneSearch, hr]
        rfl
  · have hiff := complete_iff m.inodeSearch (m.allocInode.map fun r => (r.1, r.2.inode_bitmap_))
      .noFreeInode hm.inodes hm.inode_pos hinode (by decide) (fun _ => searchInode_eq_scan) ?_
    · rw [InodesComplete, hiff]
      simp
    · rw [MinixStorageManager.allocInode]
      cases hr : MinixStorageManager.searchInode m.inode_bitmap_ m.curr_inode_pos_ (m.inode_bitmap_.size_ + 1)
        (m.curr_inode_pos_ + 1) with
      | error e =>
        rw [MinixStorageManager.inodeSearch, hr]
        rfl
      | ok pos =>
        rw [MinixStorageManager.inodeSearch, hr]
        rfl

/-- Three zones and three inodes; `byte` has the bits that are set. -/
def threeOfEach (byte : Byte) : MinixStorageManager := .new (fun _ => byte) 1 1 3 3

theorem reached_threeOfEach (byte : Byte) : Reached (threeOfEach byte) :=
  ⟨fun _ => byte, 1, 1, 3, 3, [], by decide, by decide, .start⟩

/-- Some zone and some inode are free, so both allocations are as expected. -/
theorem allocations_complete_two_free :
    (FreeElsewhere (threeOfEach 1).zone_bitmap_ 0 ∧ FreeElsewhere (threeOfEach 1).inode_bitmap_ 0) ∧
      ((ZonesComplete (threeOfEach 1) ↔ FreeElsewhere (threeOfEach 1).zone_bitmap_ 0 ∨ Full (threeOfEach 1).zone_bitmap_) ∧
        (InodesComplete (threeOfEach 1) ↔ FreeElsewhere (threeOfEach 1).inode_bitmap_ 0 ∨
          0 ≠ 0 ∧ Full (threeOfEach 1).inode_bitmap_)) :=
  ⟨⟨⟨1, by decide, by decide, by decide⟩, ⟨1, by decide, by decide, by decide⟩⟩,
    allocations_complete_iff (reached_threeOfEach 1) (by decide) (by decide)⟩

/-- The zone that was allocated last and then released is the only free one, and is not found; with no
free inode after a mount, `allocInode` does not end. -/
theorem last_zone_not_found :
    (∃ m, Reached m ∧ Bitmap.getBit m.zone_bitmap_.bitmap_ 0 = true ∧ ¬ZonesComplete m) ∧
      Bitmap.getBit (threeOfEach 7).inode_bitmap_.bitmap_ 0 = true ∧ ¬InodesComplete (threeOfEach 7) := by
  refine ⟨?_, by decide, ?_⟩
  · have hrun : (execOk AllocCall.step (fun _ _ => True) (threeOfEach 1)
        [.allocZone, .allocZone, .freeZone 2]).map (fun r => (r.1.zone_bitmap_.size_,
          Bitmap.getBit r.1.zone_bitmap_.bitmap_ 0, Bitmap.getBit r.1.zone_bitmap_.bitmap_ 2,
          (r.1.allocZone.map Prod.fst).toOption)) = some (3, true, false, none) := by decide +kernel
    obtain ⟨⟨m, tr⟩, hexec, heq⟩ := Option.map_eq_some_iff.mp hrun
    obtain ⟨hsize, hreserved, hclear, hfails⟩ : m.zone_bitmap_.size_ = 3 ∧
        Bitmap.getBit m.zone_bitmap_.bitmap_ 0 = true ∧ Bitmap.getBit m.zone_bitmap_.bitmap_ 2 = false ∧
        (m.allocZone.map Prod.fst).toOption = none := by
      simpa using heq
    refine ⟨m, ⟨fun _ => 1, 1, 1, 3, 3, tr, by decide, by decide, runs_of_execOk _ _ hexec⟩, hreserved, ?_⟩
    intro h
    obtain ⟨pos, bm', halloc, -⟩ := h.finds ⟨2, by omega, hclear⟩
    cases hr : m.allocZone with
    | error e =>
      rw [hr] at halloc
      cases halloc
    | ok r =>
      rw [hr] at hfails
      cases hfails
  · intro h
    obtain ⟨passes, hends⟩ := h.ends
    have hset : ∀ i < (threeOfEach 7).inode_bitmap_.size_, isClear (threeOfEach 7).inode_bitmap_ i = false := by
      decide
    have hscan : (threeOfEach 7).inodeSearch passes = .error .endless := by
      rw [MinixStorageManager.inodeSearch, searchInode_eq_scan]
      exact congrArg (report .noFreeInode) (scan_endless hset (Nat.succ_pos 0) (by decide))
    exact hends hscan

end KPanic.Minix

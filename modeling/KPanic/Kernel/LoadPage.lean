import KPanic.Kernel.DemandLoading

/-!
# When demand loading is correct

The pages that `loadPage` maps hold the bytes of the segments exactly if no reached segment wraps
around to an address on the page, every file range on the page is loaded from its own position, and
the page belongs to the memory range of a segment.
-/

namespace KPanic.Loader

open Bytes
open Function
open Minix
open Wp

/-- The memory range meets the page. -/
def Phdr.Touches (start : ℕ) (p : Phdr) : Prop :=
  max start p.p_vaddr < min (start + PAGE_SIZE) (p.p_vaddr + p.p_memsz)

/-- What a page fault is supposed to do; `start` is the address of the page. -/
structure LoadCorrect (s : MinixFSSuperblock) (inode : MinixFSInode) (phdrs : List Phdr)
    (start : ℕ) (ended : Ended) : Prop where
  inside : ∀ call ∈ ended.loading.calls, call.Inside
  fromFile : ∀ l, ended = .mapPage l → ∀ k < PAGE_SIZE, ∀ p ∈ phdrs, p.Covers (start + k) →
    p.position (start + k) < inode.i_size_ ∧
      l.page k = byteAt s inode.i_zones_ (p.position (start + k))
  clear : ∀ l, ended = .mapPage l → ∀ k < PAGE_SIZE, (∀ p ∈ phdrs, ¬p.Covers (start + k)) →
    l.page k = 0
  touched : ∀ l, ended = .mapPage l → ∃ p ∈ phdrs, p.Touches start

/-- Every file part on the page can be read, and the page belongs to some segment. -/
def Mapped (s : MinixFSSuperblock) (inode : MinixFSInode) (start : ℕ) (phdrs : List Phdr) : Prop :=
  (∀ p ∈ phdrs, p.Hit start → Full s inode start p) ∧ ∃ p ∈ phdrs, Matches start p

structure LoadWhen (s : MinixFSSuperblock) (inode : MinixFSInode) (phdrs : List Phdr)
    (start : ℕ) : Prop where
  inside : NoOverrun s inode start phdrs
  fromFile : Mapped s inode start phdrs → ∀ k < PAGE_SIZE, ∀ p ∈ phdrs, p.Covers (start + k) →
    ∃ q ∈ phdrs, q.Plain ∧ q.Covers (start + k) ∧
      u32 (q.position (start + k)) = p.position (start + k)
  touched : Mapped s inode start phdrs → ∃ p ∈ phdrs, p.Touches start

variable {s : MinixFSSuperblock} {i_num : ℕ} {inode : MinixFSInode} {phdrs : List Phdr}
  {start virtual_address : ℕ} {fd_ : File}

/-- The same file with other contents. -/
def withDisk (s : MinixFSSuperblock) (disk : ℕ → Block) : MinixFSSuperblock := { s with disk := disk }

theorem FileOk.withDisk (h : FileOk s inode) (disk : ℕ → Block) : FileOk (withDisk s disk) inode :=
  ⟨h.size, h.tree, h.zones, h.distinct⟩

theorem noOverrun_withDisk (disk : ℕ → Block) :
    NoOverrun (withDisk s disk) inode start phdrs ↔ NoOverrun s inode start phdrs := by
  induction phdrs with
  | nil => exact Iff.rfl
  | cons p phdrs ih =>
    rw [NoOverrun, NoOverrun, ih]
    exact Iff.rfl

/-- A byte of the file is a byte of the device. -/
theorem byteAt_withDisk (h : FileOk s inode) {x : ℕ} (hx : x < inode.i_size_) : ∃ zone,
    inode.i_zones_.zoneAt s.v3 (x / ZONE_SIZE) = .ok zone ∧ ∀ disk : ℕ → Block,
      byteAt (withDisk s disk) inode.i_zones_ x = disk (zone % 2 ^ 16) (x % ZONE_SIZE) := by
  obtain ⟨zone, hzone, -⟩ := h.zones (x / ZONE_SIZE) (by unfold ZONE_SIZE; omega)
  rw [Nat.zero_add] at hzone
  refine ⟨zone, hzone, fun disk => ?_⟩
  have hdisk : (withDisk s disk).v3 = s.v3 := rfl
  rw [byteAt, hdisk, hzone]
  rfl

/-- Different bytes of a file have different places on the device. -/
theorem eq_of_byteAt (h : FileOk s inode) {x y : ℕ} (hx : x < inode.i_size_)
    (hy : y < inode.i_size_) (heq : ∀ disk, byteAt (withDisk s disk) inode.i_zones_ x =
      byteAt (withDisk s disk) inode.i_zones_ y) : x = y := by
  obtain ⟨a, ha, hbytea⟩ := byteAt_withDisk h hx
  obtain ⟨b, hb, hbyteb⟩ := byteAt_withDisk h hy
  have hone := heq fun zone k => if zone = a % 2 ^ 16 ∧ k = x % ZONE_SIZE then 1 else 0
  rw [hbytea, hbyteb, if_pos ⟨rfl, rfl⟩] at hone
  have hsame : b % 2 ^ 16 = a % 2 ^ 16 ∧ y % ZONE_SIZE = x % ZONE_SIZE := by
    by_contra hne
    rw [if_neg hne] at hone
    cases hone
  have hdiv := h.distinct _ _ _ _ ha hb hsame.1.symm
  rw [← Nat.div_add_mod x ZONE_SIZE, ← Nat.div_add_mod y ZONE_SIZE, hdiv, hsame.2]

theorem loadPage_mapPage {l : Loading} : loadPage phdrs fd_ virtual_address s = .mapPage l ↔
    loadSegments (virtual_address / PAGE_SIZE * PAGE_SIZE) phdrs ⟨fun _ => 0, fd_, false, []⟩ s =
      .mapPage l ∧ l.found_page_content = true := by
  unfold loadPage
  dsimp only
  cases loadSegments (virtual_address / PAGE_SIZE * PAGE_SIZE) phdrs ⟨fun _ => 0, fd_, false, []⟩ s with
  | mapPage l' =>
    dsimp only
    split
    · rename_i hfound
      constructor
      · intro h
        cases h
        exact ⟨rfl, hfound⟩
      · exact fun h => h.1
    · rename_i hfound
      constructor
      · intro h
        cases h
      · intro h
        cases h.1
        exact absurd h.2 hfound
  | exit code l' => simp
  | stopped e l' => simp

theorem loadPage_loading : (loadPage phdrs fd_ virtual_address s).loading =
    (loadSegments (virtual_address / PAGE_SIZE * PAGE_SIZE) phdrs ⟨fun _ => 0, fd_, false, []⟩
      s).loading := by
  unfold loadPage
  dsimp only
  cases loadSegments (virtual_address / PAGE_SIZE * PAGE_SIZE) phdrs ⟨fun _ => 0, fd_, false, []⟩ s with
  | mapPage l' =>
    dsimp only
    split
    · rfl
    · rfl
  | exit code l' => rfl
  | stopped e l' => rfl

theorem filled_nil : Filled s inode start [] fun _ => 0 :=
  ⟨fun _ _ _ hq => absurd hq List.not_mem_nil, fun _ _ _ => rfl⟩

/-- What `loadPage` maps, and when. -/
theorem loadPage_spec (hapart : phdrs.Pairwise fun q p => ¬Overlap p q)
    (hva : virtual_address < USER_BREAK) (hfd : IsBinary i_num fd_)
    (hloaded : s.all_inodes_ i_num = some inode) (hfile : FileOk s inode)
    (hno : NoOverrun s inode (virtual_address / PAGE_SIZE * PAGE_SIZE) phdrs) :
    (Mapped s inode (virtual_address / PAGE_SIZE * PAGE_SIZE) phdrs →
      ∃ l, loadPage phdrs fd_ virtual_address s = .mapPage l) ∧
    ∀ l, loadPage phdrs fd_ virtual_address s = .mapPage l →
      Mapped s inode (virtual_address / PAGE_SIZE * PAGE_SIZE) phdrs ∧
      Filled s inode (virtual_address / PAGE_SIZE * PAGE_SIZE) phdrs l.page := by
  have hstart : virtual_address / PAGE_SIZE * PAGE_SIZE + PAGE_SIZE < 2 ^ 63 := by
    unfold USER_BREAK at hva
    unfold PAGE_SIZE
    omega
  obtain ⟨hall, hnone⟩ := loadSegments_end (l := ⟨fun _ => 0, fd_, false, []⟩) hfile hstart hfd
    hloaded hno (show ([] ++ phdrs).Pairwise _ from hapart) filled_nil
  refine ⟨fun hmapped => ?_, fun l hl => ?_⟩
  · obtain ⟨l, hend, hhanded⟩ := hall hmapped.1
    exact ⟨l, loadPage_mapPage.mpr ⟨hend, hhanded.found.mpr (.inr hmapped.2)⟩⟩
  · obtain ⟨hend, hfound⟩ := loadPage_mapPage.mp hl
    have hfull : ∀ p ∈ phdrs, p.Hit (virtual_address / PAGE_SIZE * PAGE_SIZE) →
        Full s inode (virtual_address / PAGE_SIZE * PAGE_SIZE) p := by
      by_contra hnot
      exact hnone hnot l hend
    obtain ⟨l', hend', hhanded⟩ := hall hfull
    rw [hend] at hend'
    cases hend'
    exact ⟨⟨hfull, (hhanded.found.mp hfound).resolve_left Bool.false_ne_true⟩, hhanded.filled⟩

/-- For each fault and each table that `prepareHeaders` accepts, whatever the file contains. -/
theorem loadPage_correct_iff {raw : List Phdr} (hraw : prepareHeaders raw = some phdrs)
    (hva : virtual_address < USER_BREAK) (hfd : IsBinary i_num fd_)
    (hloaded : s.all_inodes_ i_num = some inode) (hfile : FileOk s inode) :
    (∀ disk, LoadCorrect (withDisk s disk) inode phdrs (virtual_address / PAGE_SIZE * PAGE_SIZE)
      (loadPage phdrs fd_ virtual_address (withDisk s disk))) ↔
    LoadWhen s inode phdrs (virtual_address / PAGE_SIZE * PAGE_SIZE) := by
  have hapart := prepareHeaders_apart hraw
  have hspec := fun disk => loadPage_spec (s := withDisk s disk) hapart hva hfd hloaded
    (FileOk.withDisk hfile disk)
  simp only [noOverrun_withDisk] at hspec
  have hstart : virtual_address / PAGE_SIZE * PAGE_SIZE + PAGE_SIZE < 2 ^ 63 := by
    unfold USER_BREAK at hva
    unfold PAGE_SIZE
    omega
  have hinside : ∀ disk, (∀ call ∈
      (loadPage phdrs fd_ virtual_address (withDisk s disk)).loading.calls, call.Inside) ↔
      NoOverrun s inode (virtual_address / PAGE_SIZE * PAGE_SIZE) phdrs := by
    intro disk
    rw [loadPage_loading, ← noOverrun_withDisk disk]
    exact inside_iff hstart hfd hloaded fun _ hcall => absurd hcall List.not_mem_nil
  generalize virtual_address / PAGE_SIZE * PAGE_SIZE = start at *
  have hplain : NoOverrun s inode start phdrs → Mapped s inode start phdrs → ∀ k < PAGE_SIZE,
      ∀ q ∈ phdrs, q.Plain → q.Covers (start + k) →
      u32 (q.position (start + k)) < inode.i_size_ := by
    intro hno hmapped k hk q hq hqplain hc
    have hhit := hqplain.hit_of_covers hk hc
    exact (position_of_full hfile hstart hqplain hhit (hmapped.1 q hq hhit) hk hc).2
  constructor
  · intro hall
    have hno := (hinside s.disk).mp (hall s.disk).inside
    refine ⟨hno, fun hmapped k hk p hp hc => ?_, fun hmapped => ?_⟩
    · obtain ⟨l, hl⟩ := (hspec s.disk hno).1 hmapped
      have hlt := ((hall s.disk).fromFile l hl k hk p hp hc).1
      by_cases hq : ∃ q ∈ phdrs, q.Plain ∧ q.Covers (start + k)
      · obtain ⟨q, hq, hqplain, hqc⟩ := hq
        refine ⟨q, hq, hqplain, hqc, ?_⟩
        refine eq_of_byteAt hfile (hplain hno hmapped k hk q hq hqplain hqc) hlt fun disk => ?_
        obtain ⟨l, hl⟩ := (hspec disk hno).1 hmapped
        rw [← ((hspec disk hno).2 l hl).2.loaded k hk q hq hqplain hqc]
        exact ((hall disk).fromFile l hl k hk p hp hc).2
      · obtain ⟨zone, -, hbyte⟩ := byteAt_withDisk hfile hlt
        obtain ⟨l, hl⟩ := (hspec (fun _ _ => 1) hno).1 hmapped
        have hone := ((hall fun _ _ => 1).fromFile l hl k hk p hp hc).2
        rw [hbyte, ((hspec (fun _ _ => 1) hno).2 l hl).2.clear k hk
          fun q hmem hqplain hqc => hq ⟨q, hmem, hqplain, hqc⟩] at hone
        cases hone
    · obtain ⟨l, hl⟩ := (hspec s.disk hno).1 hmapped
      exact (hall s.disk).touched l hl
  · intro hwhen disk
    have hmap := (hspec disk hwhen.inside).2
    refine ⟨(hinside disk).mpr hwhen.inside, fun l hl k hk p hp hc => ?_, fun l hl k hk hnone => ?_,
      fun l hl => hwhen.touched (hmap l hl).1⟩
    · obtain ⟨hmapped, hfilled⟩ := hmap l hl
      obtain ⟨q, hq, hqplain, hqc, heq⟩ := hwhen.fromFile hmapped k hk p hp hc
      rw [← heq]
      exact ⟨hplain hwhen.inside hmapped k hk q hq hqplain hqc,
        hfilled.loaded k hk q hq hqplain hqc⟩
    · exact (hmap l hl).2.clear k hk fun q hq _ => hnone q hq

/-- A program of five bytes in zone 20. -/
def program : MinixFSInode :=
  ⟨2, .file, 5, 1, ⟨[20, 0, 0, 0, 0, 0, 0, 0, 0, 0], none, none, none, 1⟩, none, 1, false, []⟩

def programDisk : MinixFSSuperblock where
  v3 := true
  s_num_inode_bm_blocks_ := 1
  s_num_zone_bm_blocks_ := 1
  s_1st_datazone_ := 5
  storage_manager_ := ⟨⟨8, 3, [0x07]⟩, Bitmap.new 32, 0, 0, 1, 1⟩
  disk := fun zone _ => if zone = 20 then 7 else 0
  num_blocks := 64
  all_inodes_ := fun i_num => if i_num = 2 then some program else none
  dentries := fun _ => none
  next_dentry := 0

def programFile : File := ⟨.MinixFSFile, 2, O_RDONLY, 0⟩

theorem program_fileOk : FileOk programDisk program where
  size := by decide
  tree := by
    have hlt : ∀ zone ∈ program.i_zones_.direct_zones_, zone < 256 ^ INODE_BYTES true := by decide
    exact ⟨rfl, hlt, .none, .none, .none, rfl⟩
  zones := by
    intro i hi
    have hzero : i = 0 := by
      unfold ZONE_SIZE at hi
      have hsize : program.i_size_ = 5 := rfl
      omega
    subst hzero
    refine ⟨20, rfl, ?_⟩
    show 20 % 2 ^ 16 < 64
    decide
  distinct := by
    intro i j a b hi hj _
    have hi' : i < 1 := zoneAt_lt hi
    have hj' : j < 1 := zoneAt_lt hj
    omega

/-- A segment with the five bytes, and more memory than that. -/
def segment : Phdr :=
  ⟨PT_LOAD, 0, 0x400ffe, 5, 0x2000, by decide, by decide, by decide, by decide⟩

/-- The page has the first two bytes of the program. -/
theorem segment_loads : LoadCorrect (withDisk programDisk fun _ _ => 0) program [segment]
    (0x400123 / PAGE_SIZE * PAGE_SIZE)
    (loadPage [segment] programFile 0x400123 (withDisk programDisk fun _ _ => 0)) := by
  have hplain : segment.Plain := by
    show 0x400ffe + 5 < 2 ^ 64
    decide
  have htouches : segment.Touches 0x400000 := by
    show max 0x400000 0x400ffe < min (0x400000 + PAGE_SIZE) (0x400ffe + 0x2000)
    decide
  have haccepted : prepareHeaders [segment] = some [segment] := by decide
  have hbinary : IsBinary 2 programFile := ⟨rfl, rfl, rfl⟩
  refine (loadPage_correct_iff haccepted (by decide) hbinary rfl program_fileOk).mpr ⟨⟨fun _ => ⟨hplain, fun _ => trivial⟩, fun _ => trivial⟩,
    fun _ k hk p hp hc => ⟨p, hp, ?_, hc, ?_⟩, fun _ => ⟨segment, List.mem_cons_self, htouches⟩⟩
    fun _ _ => 0
  · rw [List.mem_singleton.mp hp]
    exact hplain
  · rw [List.mem_singleton.mp hp] at hc ⊢
    have hlt : 0x400123 / PAGE_SIZE * PAGE_SIZE + k < 0x400ffe + 5 := hc.2
    show (0 + (0x400123 / PAGE_SIZE * PAGE_SIZE + k - 0x400ffe)) % 2 ^ 32 = _
    exact Nat.mod_eq_of_lt (by omega)

/-- The file range begins in the middle of a page and wraps around to its beginning. -/
def wrapping : Phdr :=
  ⟨PT_LOAD, 0, 0x400800, 2 ^ 64 - 0x400, 0x1000, by decide, by decide, by decide, by decide⟩

/-- The length that is passed to `readFromBinary` is that of the whole segment. -/
theorem wrapping_overruns : prepareHeaders [wrapping] = some [wrapping] ∧
    (callFor 0x400000 wrapping).bytes_to_load = 2 ^ 64 - 0x400 ∧
    callFor 0x400000 wrapping ∈
      (loadPage [wrapping] programFile 0x400123 programDisk).loading.calls ∧
    ¬LoadCorrect programDisk program [wrapping] 0x400000
      (loadPage [wrapping] programFile 0x400123 programDisk) := by
  have hhit : wrapping.Hit 0x400000 := by
    refine ⟨by decide, ?_⟩
    unfold add64
    decide
  have hbytes : (callFor 0x400000 wrapping).bytes_to_load = 2 ^ 64 - 0x400 := by
    unfold callFor add64 sub64
    decide
  have hmem : callFor 0x400000 wrapping ∈
      (loadPage [wrapping] programFile 0x400123 programDisk).loading.calls := by
    rw [loadPage_loading]
    exact call_mem hhit
  refine ⟨by decide, hbytes, hmem, fun h => ?_⟩
  have hinside := h.inside _ hmem
  unfold Call.Inside at hinside
  rw [hbytes] at hinside
  unfold PAGE_SIZE at hinside
  omega

end KPanic.Loader

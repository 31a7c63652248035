import KPanic.Kernel.Loader
import KPanic.Fs.FileData

/-!
# What `loadPage` puts on a page

Segments whose file range does not wrap around are loaded to their places, as far as the file can
be read. `NoOverrun`, `FromFile` and `Touched` are what the program headers must satisfy on a page
for the rest of the specification.
-/

namespace KPanic.Loader

open Bytes
open Function
open Minix
open Wp

/-! ### Arithmetic of segments -/

namespace Phdr

/-- The file range, without wrap-around, contains `a`. -/
def Covers (p : Phdr) (a : ℕ) : Prop := p.p_vaddr ≤ a ∧ a < p.p_vaddr + p.p_filesz

/-- The file range does not wrap around. -/
def Plain (p : Phdr) : Prop := p.p_vaddr + p.p_filesz < 2 ^ 64

/-- The test of `loadPage` for something to load. -/
def Hit (start : ℕ) (p : Phdr) : Prop :=
  p.p_vaddr < start + PAGE_SIZE ∧ start < add64 p.p_vaddr p.p_filesz

/-- Where the byte for `a` lies in the file. -/
def position (p : Phdr) (a : ℕ) : ℕ := p.p_offset + (a - p.p_vaddr)

variable {p q : Phdr} {start a k : ℕ}

theorem Plain.add64_eq (h : p.Plain) : add64 p.p_vaddr p.p_filesz = p.p_vaddr + p.p_filesz :=
  add64_of_lt h

theorem add64_wraps (h : ¬p.Plain) :
    add64 p.p_vaddr p.p_filesz = p.p_vaddr + p.p_filesz - 2 ^ 64 := by
  have hv := p.vaddr_lt
  have hf := p.filesz_lt
  unfold Plain at h
  unfold add64
  omega

/-- Bytes of a page that a segment covers. -/
theorem Plain.hit_of_covers (h : p.Plain) (hk : k < PAGE_SIZE) (hc : p.Covers (start + k)) :
    p.Hit start := by
  unfold Covers at hc
  rw [Hit, h.add64_eq]
  omega

end Phdr

variable {p q : Phdr} {start a k : ℕ}

/-- A call for a segment that does not wrap around. -/
structure FitsPage (start : ℕ) (p : Phdr) : Prop where
  offs : start + (callFor start p).virt_offs_on_page = max start p.p_vaddr
  inside : (callFor start p).virt_offs_on_page + (callFor start p).bytes_to_load ≤ PAGE_SIZE
  covers : ∀ k < PAGE_SIZE, p.Covers (start + k) ↔ (callFor start p).virt_offs_on_page ≤ k ∧
    k < (callFor start p).virt_offs_on_page + (callFor start p).bytes_to_load
  addr : (callFor start p).bin_start_addr = (p.p_offset + (max start p.p_vaddr - p.p_vaddr)) % 2 ^ 64

theorem fitsPage (hstart : start + PAGE_SIZE < 2 ^ 64) (hplain : p.Plain) (hhit : p.Hit start) :
    FitsPage start p := by
  have hv := p.vaddr_lt
  unfold Phdr.Plain at hplain
  unfold Phdr.Hit at hhit
  rw [add64_of_lt hplain] at hhit
  have hmax : max start p.p_vaddr < 2 ^ 64 := by omega
  have hmin : min (start + PAGE_SIZE) (p.p_vaddr + p.p_filesz) < 2 ^ 64 := by omega
  have hcall : callFor start p = ⟨max start p.p_vaddr - start,
      (p.p_offset + (max start p.p_vaddr - p.p_vaddr)) % 2 ^ 64,
      min (start + PAGE_SIZE) (p.p_vaddr + p.p_filesz) - max start p.p_vaddr⟩ := by
    unfold callFor
    dsimp only
    rw [sub64_of_le (le_max_left _ _) hmax, sub64_of_le (le_max_right _ _) hmax,
      add64_of_lt hplain, sub64_of_le (by omega) hmin]
    unfold add64
    rfl
  refine ⟨?_, ?_, fun k hk => ?_, ?_⟩
  · rw [hcall]
    dsimp only
    omega
  · rw [hcall]
    dsimp only
    unfold PAGE_SIZE at *
    omega
  · rw [hcall]
    unfold Phdr.Covers
    dsimp only
    unfold PAGE_SIZE at *
    omega
  · rw [hcall]

/-- A call for a segment that wraps around to an address on the page. -/
theorem overrun (hstart : start + PAGE_SIZE < 2 ^ 63) (hwraps : ¬p.Plain) (hhit : p.Hit start) :
    PAGE_SIZE < (callFor start p).virt_offs_on_page + (callFor start p).bytes_to_load := by
  have hv := p.vaddr_lt
  have hf := p.filesz_lt
  unfold Phdr.Hit at hhit
  rw [Phdr.add64_wraps hwraps] at hhit
  unfold Phdr.Plain at hwraps
  have hbytes : (callFor start p).bytes_to_load = p.p_filesz := by
    show sub64 (min (start + PAGE_SIZE) (add64 p.p_vaddr p.p_filesz)) (max start p.p_vaddr) = _
    rw [Phdr.add64_wraps hwraps]
    unfold sub64
    omega
  rw [hbytes]
  unfold PAGE_SIZE at *
  omega

/-! ### Reading from the binary -/

section Read

variable {s : MinixFSSuperblock} {i_num : ℕ} {inode : MinixFSInode} {fd_ : File}

/-- The program is open for reading. -/
structure IsBinary (i_num : ℕ) (fd_ : File) : Prop where
  class_ : fd_.class_ = .MinixFSFile
  inode : fd_.f_inode_ = i_num
  flag : fd_.flag_ = O_RDONLY

/-- The file has the bytes from a position on, and `readData` gets at them. -/
def InFull (s : MinixFSSuperblock) (inode : MinixFSInode) (position length : ℕ) : Prop :=
  length = 0 ∨ Readable s inode (u32 position) length ∧
    readCount inode.i_size_ (u32 position) length = length

theorem readCount_le (i_size_ offset size : ℕ) : readCount i_size_ offset size ≤ size := by
  unfold readCount u32
  split
  · omega
  · omega

theorem int32_of_lt {n : ℕ} (h : n < 2 ^ 31) : int32 n = n := by
  unfold int32
  rw [BitVec.toInt_eq_toNat_of_lt]
  · rw [BitVec.toNat_ofNat, Nat.mod_eq_of_lt (by omega)]
  · rw [BitVec.toNat_ofNat]
    omega

theorem wp_readFromBinary {position length : ℕ} (buffer : Memory) (hfd : IsBinary i_num fd_)
    (hloaded : s.all_inodes_ i_num = some inode) (hposition : position < 2 ^ 64)
    (hlength : length ≤ PAGE_SIZE) :
    wp (fun _ => ¬InFull s inode position length) (readFromBinary fd_ buffer position length)
      (fun r u => u = s ∧ IsBinary i_num r.2.2 ∧
        (InFull s inode position length → r.1 = false ∧ r.2.1 = Fs.patch buffer 0 length
          fun j => byteAt s inode.i_zones_ (u32 position + j)) ∧
        (¬InFull s inode position length → r.1 = true)) s := by
  have hu : u32 length = length := by
    unfold PAGE_SIZE at hlength
    unfold u32
    omega
  obtain ⟨class_, f_inode_, flag_, offset_⟩ := fd_
  obtain ⟨rfl, rfl, rfl⟩ := hfd
  have hreadable : (⟨.MinixFSFile, f_inode_, O_RDONLY, position⟩ : File).readable = true := by
    show decide (O_RDONLY &&& (O_RDONLY ||| O_RDWR) ≠ 0) = true
    decide
  rw [readFromBinary, wp_bind, VfsSyscall.lseek, File.lseek, if_pos rfl, wp_pure, wp_bind,
    VfsSyscall.read, hu]
  by_cases hzero : length = 0
  · rw [if_pos hzero, wp_pure, wp_pure]
    refine ⟨rfl, ⟨rfl, rfl, rfl⟩, fun _ => ⟨?_, ?_⟩, fun h => absurd (.inl hzero) h⟩
    · rw [hzero]
      rfl
    · rw [hzero, patch_zero]
  · have hfull : InFull s inode position length ↔ Readable s inode (u32 position) length ∧
        readCount inode.i_size_ (u32 position) length = length := or_iff_right hzero
    have hcount := readCount_le inode.i_size_ (u32 position) length
    have hoffset : u32 (add64 position 0) = u32 position := by
      unfold add64
      rw [Nat.add_zero, Nat.mod_eq_of_lt hposition]
    rw [if_neg hzero, if_neg (by rw [hreadable]; decide), File.read]
    dsimp only
    rw [if_pos hreadable, wp_bind, Fs.inode, wp_bind, wp_get, hloaded, wp_pure, hoffset, hu, wp_bind]
    have hsum : u32 position % ZONE_SIZE + readCount inode.i_size_ (u32 position) length < 2 ^ 32 := by
      unfold PAGE_SIZE at hlength
      unfold ZONE_SIZE
      omega
    refine wp_mono (wp_allowed (wp_readData hsum) fun _ hn h => hn (hfull.mp h).1) ?_
    rintro r u ⟨hread, rfl, rfl⟩
    rw [wp_pure, wp_pure]
    have hint : int32 (readCount inode.i_size_ (u32 position) length) =
        (readCount inode.i_size_ (u32 position) length : ℕ) := by
      refine int32_of_lt ?_
      unfold PAGE_SIZE at hlength
      omega
    refine ⟨rfl, ⟨rfl, rfl, rfl⟩, fun h => ⟨?_, ?_⟩, fun h => ?_⟩
    · rw [hint, (hfull.mp h).2]
      simp
    · rw [(hfull.mp h).2]
    · have hne : readCount inode.i_size_ (u32 position) length ≠ length :=
        fun heq => h (hfull.mpr ⟨hread, heq⟩)
      rw [hint, decide_eq_true_iff]
      unfold PAGE_SIZE at hlength
      omega

end Read

/-! ### The loop over the headers -/

section Loop

variable {s : MinixFSSuperblock} {i_num : ℕ} {inode : MinixFSInode} {l : Loading} {phdrs : List Phdr}

/-- The file part of a segment on the page can be read. -/
def Full (s : MinixFSSuperblock) (inode : MinixFSInode) (start : ℕ) (p : Phdr) : Prop :=
  InFull s inode (callFor start p).bin_start_addr (callFor start p).bytes_to_load

/-- The tests for a segment that the page belongs to. -/
def Matches (start : ℕ) (p : Phdr) : Prop :=
  p.p_vaddr < start + PAGE_SIZE ∧
    (start < add64 p.p_vaddr p.p_filesz ∨ start < add64 p.p_vaddr p.p_memsz)

/-- A segment that has nothing to load only counts as found. -/
theorem loadSegments_miss (phdrs : List Phdr) (l : Loading) (s : MinixFSSuperblock)
    (h : ¬p.Hit start) : ∃ found,
    (found = true ↔ l.found_page_content = true ∨ Matches start p) ∧
    loadSegments start (p :: phdrs) l s =
      loadSegments start phdrs { l with found_page_content := found } s := by
  unfold Phdr.Hit at h
  rw [loadSegments]
  by_cases hv : p.p_vaddr < start + PAGE_SIZE
  · have hfile : ¬add64 p.p_vaddr p.p_filesz > start := fun hgt => h ⟨hv, hgt⟩
    rw [if_pos hv, if_neg hfile]
    by_cases hmem : add64 p.p_vaddr p.p_memsz > start
    · rw [if_pos hmem]
      exact ⟨true, iff_of_true rfl (.inr ⟨hv, .inr hmem⟩), rfl⟩
    · rw [if_neg hmem]
      refine ⟨l.found_page_content, ⟨.inl, fun hor => ?_⟩, rfl⟩
      rcases hor with hfound | ⟨-, hgt | hgt⟩
      · exact hfound
      · exact absurd hgt hfile
      · exact absurd hgt hmem
  · rw [if_neg hv]
    exact ⟨l.found_page_content, ⟨.inl, fun hor => hor.resolve_right fun hm => hv hm.1⟩, rfl⟩

/-- The page after a read of `length` bytes to `offs`. -/
def place (page : Memory) (offs length : ℕ) (f : Memory) : Memory := fun k =>
  if offs ≤ k ∧ k < offs + length then f (k - offs) else page k

theorem place_eq (page : Memory) (offs length : ℕ) (f : Memory) :
    (fun k => if offs ≤ k then Fs.patch (fun j => page (offs + j)) 0 length f (k - offs) else page k) =
      place page offs length f := by
  funext k
  unfold place Fs.patch
  by_cases hk : offs ≤ k
  · rw [if_pos hk]
    by_cases hlt : k < offs + length
    · rw [if_pos ⟨Nat.zero_le _, by omega⟩, if_pos ⟨hk, hlt⟩, Nat.sub_zero]
    · rw [if_neg (by omega), if_neg (by omega)]
      exact congrArg page (Nat.add_sub_cancel' hk)
  · rw [if_neg hk, if_neg (by omega)]

def Loading.called (l : Loading) (call : Call) : Loading := { l with calls := l.calls ++ [call] }

/-- A segment that does not wrap around is loaded, or ends the process. -/
theorem loadSegments_hit (phdrs : List Phdr) (hstart : start + PAGE_SIZE < 2 ^ 63) (hplain : p.Plain) (hhit : p.Hit start)
    (hfd : IsBinary i_num l.fd_) (hloaded : s.all_inodes_ i_num = some inode) :
    (Full s inode start p → ∃ fd_, IsBinary i_num fd_ ∧
      loadSegments start (p :: phdrs) l s = loadSegments start phdrs
        { page := place l.page (callFor start p).virt_offs_on_page (callFor start p).bytes_to_load
            fun j => byteAt s inode.i_zones_ (u32 (callFor start p).bin_start_addr + j)
          fd_ := fd_
          found_page_content := true
          calls := l.calls ++ [callFor start p] } s) ∧
    (¬Full s inode start p →
      loadSegments start (p :: phdrs) l s = .exit 999 (l.called (callFor start p)) ∨
      ∃ e, loadSegments start (p :: phdrs) l s = .stopped e (l.called (callFor start p))) := by
  have hfits := fitsPage (by omega) hplain hhit
  have hposition : (callFor start p).bin_start_addr < 2 ^ 64 := by
    rw [hfits.addr]
    exact Nat.mod_lt _ (by decide)
  have hlength : (callFor start p).bytes_to_load ≤ PAGE_SIZE := by
    have h := hfits.inside
    omega
  have hread := wp_readFromBinary (fun i => l.page ((callFor start p).virt_offs_on_page + i))
    hfd hloaded hposition hlength
  rw [loadSegments, if_pos hhit.1, if_pos hhit.2]
  dsimp only
  cases hrun : (readFromBinary l.fd_ (fun i => l.page ((callFor start p).virt_offs_on_page + i))
      (callFor start p).bin_start_addr (callFor start p).bytes_to_load).run s with
  | error e =>
    have hnot := error_of_wp hread hrun
    exact ⟨fun h => absurd h hnot, fun _ => .inr ⟨e, rfl⟩⟩
  | ok r =>
    obtain ⟨⟨missing, buffer, fd_⟩, u⟩ := r
    obtain ⟨rfl, hfd', hfull, hshort⟩ := of_wp hread hrun
    refine ⟨fun h => ?_, fun h => ?_⟩
    · obtain ⟨hmissing, hbuffer⟩ := hfull h
      dsimp only at hmissing hbuffer
      rw [hmissing, hbuffer]
      dsimp only
      rw [place_eq]
      exact ⟨fd_, hfd', rfl⟩
    · have hmissing := hshort h
      dsimp only at hmissing
      rw [hmissing]
      exact .inl rfl

/-- No call is forgotten. -/
theorem calls_subset (start : ℕ) (phdrs : List Phdr) (l : Loading) (s : MinixFSSuperblock) :
    ∀ call ∈ l.calls, call ∈ (loadSegments start phdrs l s).loading.calls := by
  induction phdrs generalizing l s with
  | nil => exact fun call h => h
  | cons p phdrs ih =>
    intro call h
    have hkept : ∀ call', call ∈ l.calls ++ [call'] := fun _ => List.mem_append_left _ h
    rw [loadSegments]
    split
    · split
      · dsimp only
        split
        · exact hkept _
        · exact hkept _
        · exact ih _ _ call (hkept _)
      · split
        · exact ih _ _ call h
        · exact ih _ _ call h
    · exact ih _ _ call h

theorem call_mem (hhit : p.Hit start) :
    callFor start p ∈ (loadSegments start (p :: phdrs) l s).loading.calls := by
  have hlast : callFor start p ∈ l.calls ++ [callFor start p] :=
    List.mem_append_right _ List.mem_cons_self
  rw [loadSegments, if_pos hhit.1, if_pos hhit.2]
  dsimp only
  split
  · exact hlast
  · exact hlast
  · exact calls_subset _ _ _ _ _ hlast

/-- Up to the first segment that cannot be read, no segment on the page wraps around. -/
def NoOverrun (s : MinixFSSuperblock) (inode : MinixFSInode) (start : ℕ) : List Phdr → Prop
  | [] => True
  | p :: phdrs =>
    (p.Hit start → p.Plain ∧ (Full s inode start p → NoOverrun s inode start phdrs)) ∧
      (¬p.Hit start → NoOverrun s inode start phdrs)

def Call.Inside (call : Call) : Prop := call.virt_offs_on_page + call.bytes_to_load ≤ PAGE_SIZE

/-- All calls stay on the page exactly if no overrun is reached. -/
theorem inside_iff (hstart : start + PAGE_SIZE < 2 ^ 63) (hfd : IsBinary i_num l.fd_)
    (hloaded : s.all_inodes_ i_num = some inode) (hcalls : ∀ call ∈ l.calls, call.Inside) :
    (∀ call ∈ (loadSegments start phdrs l s).loading.calls, call.Inside) ↔
      NoOverrun s inode start phdrs := by
  induction phdrs generalizing l with
  | nil => exact iff_of_true hcalls trivial
  | cons p phdrs ih =>
    rw [NoOverrun]
    by_cases hhit : p.Hit start
    · by_cases hplain : p.Plain
      · have hfits := fitsPage (by omega) hplain hhit
        have hcalls' : ∀ call ∈ l.calls ++ [callFor start p], call.Inside := by
          intro call hcall
          rcases List.mem_append.mp hcall with hcall | hcall
          · exact hcalls call hcall
          · rw [List.mem_singleton.mp hcall]
            exact hfits.inside
        obtain ⟨hfull, hshort⟩ := loadSegments_hit phdrs hstart hplain hhit hfd hloaded
        by_cases h : Full s inode start p
        · obtain ⟨fd_, hfd', heq⟩ := hfull h
          rw [heq, ih hfd' hcalls']
          exact ⟨fun hrest => ⟨fun _ => ⟨hplain, fun _ => hrest⟩, fun hn => absurd hhit hn⟩,
            fun hrest => (hrest.1 hhit).2 h⟩
        · refine iff_of_true ?_ ⟨fun _ => ⟨hplain, fun hf => absurd hf h⟩, fun hn => absurd hhit hn⟩
          rcases hshort h with heq | ⟨e, heq⟩
          · rw [heq]
            exact hcalls'
          · rw [heq]
            exact hcalls'
      · refine iff_of_false (fun hinside => ?_) fun hno => hplain (hno.1 hhit).1
        have hlt := overrun hstart hplain hhit
        exact absurd (hinside _ (call_mem hhit)) (Nat.not_le.mpr hlt)
    · obtain ⟨found, -, heq⟩ := loadSegments_miss phdrs l s hhit
      rw [heq, ih (l := { l with found_page_content := found }) hfd hcalls]
      exact ⟨fun hrest => ⟨fun h => absurd h hhit, fun _ => hrest⟩, fun hrest => hrest.2 hhit⟩

/-- What the segments in `done` have put on the page. -/
structure Filled (s : MinixFSSuperblock) (inode : MinixFSInode) (start : ℕ) (done : List Phdr)
    (page : Memory) : Prop where
  loaded : ∀ k < PAGE_SIZE, ∀ q ∈ done, q.Plain → q.Covers (start + k) →
    page k = byteAt s inode.i_zones_ (u32 (q.position (start + k)))
  clear : ∀ k < PAGE_SIZE, (∀ q ∈ done, q.Plain → ¬q.Covers (start + k)) → page k = 0

/-- A segment that is not on the page adds nothing. -/
theorem Filled.miss {done : List Phdr} {page : Memory} (h : Filled s inode start done page)
    (hhit : ¬p.Hit start) : Filled s inode start (done ++ [p]) page := by
  refine ⟨fun k hk q hq hplain hc => ?_, fun k hk hnone => ?_⟩
  · rcases List.mem_append.mp hq with hq | hq
    · exact h.loaded k hk q hq hplain hc
    · rw [List.mem_singleton.mp hq] at hplain hc
      exact absurd (hplain.hit_of_covers hk hc) hhit
  · exact h.clear k hk fun q hq => hnone q (List.mem_append_left _ hq)

/-- The position of a byte of a segment that is read in full. -/
theorem position_of_full (hfile : FileOk s inode) (hstart : start + PAGE_SIZE < 2 ^ 63)
    (hplain : p.Plain) (hhit : p.Hit start) (hfull : Full s inode start p) (hk : k < PAGE_SIZE)
    (hc : p.Covers (start + k)) :
    u32 (p.position (start + k)) = u32 (callFor start p).bin_start_addr +
      (k - (callFor start p).virt_offs_on_page) ∧ u32 (p.position (start + k)) < inode.i_size_ := by
  have hfits := fitsPage (by omega) hplain hhit
  obtain ⟨hlow, hhigh⟩ := (hfits.covers k hk).mp hc
  have hoffs := hfits.offs
  have hinside := hfits.inside
  have haddr := hfits.addr
  have hend : u32 (callFor start p).bin_start_addr + (callFor start p).bytes_to_load ≤
      inode.i_size_ := by
    have hread := hfull.resolve_left (by omega)
    exact hfile.end_le (Nat.mod_lt _ (by decide)) (by omega)
      (by unfold PAGE_SIZE at hinside; omega) hread.1 hread.2
  have hsize := hfile.size
  have hpos : p.position (start + k) = p.p_offset + (max start p.p_vaddr - p.p_vaddr) +
      (k - (callFor start p).virt_offs_on_page) := by
    unfold Phdr.position
    unfold Phdr.Covers at hc
    omega
  have hu : u32 (p.position (start + k)) = u32 (callFor start p).bin_start_addr +
      (k - (callFor start p).virt_offs_on_page) := by
    rw [hpos]
    rw [haddr] at hend ⊢
    unfold u32 at *
    omega
  exact ⟨hu, by omega⟩

theorem overlap_of_covers (hp : p.Plain) (hq : q.Plain) (hpa : p.Covers a) (hqa : q.Covers a) :
    Overlap p q := by
  unfold Phdr.Covers at *
  rw [Overlap, hp.add64_eq, hq.add64_eq]
  omega

/-- A segment that is loaded fills its own bytes and leaves the others. -/
theorem Filled.hit {done : List Phdr} {page : Memory} (h : Filled s inode start done page)
    (hfile : FileOk s inode) (hstart : start + PAGE_SIZE < 2 ^ 63) (hplain : p.Plain)
    (hhit : p.Hit start) (hfull : Full s inode start p) (hapart : ∀ q ∈ done, ¬Overlap p q) :
    Filled s inode start (done ++ [p]) (place page (callFor start p).virt_offs_on_page
      (callFor start p).bytes_to_load
      fun j => byteAt s inode.i_zones_ (u32 (callFor start p).bin_start_addr + j)) := by
  have hfits := fitsPage (by omega) hplain hhit
  refine ⟨fun k hk q hq hqplain hc => ?_, fun k hk hnone => ?_⟩
  · rcases List.mem_append.mp hq with hq | hq
    · have hnot : ¬p.Covers (start + k) := fun hp => hapart q hq (overlap_of_covers hplain hqplain hp hc)
      rw [place, if_neg fun hin => hnot ((hfits.covers k hk).mpr hin)]
      exact h.loaded k hk q hq hqplain hc
    · rw [List.mem_singleton.mp hq] at hc ⊢
      rw [place, if_pos ((hfits.covers k hk).mp hc),
        (position_of_full hfile hstart hplain hhit hfull hk hc).1]
  · have hnot := hnone p (List.mem_append_right _ List.mem_cons_self) hplain
    rw [place, if_neg fun hin => hnot ((hfits.covers k hk).mpr hin)]
    exact h.clear k hk fun q hq => hnone q (List.mem_append_left _ hq)

/-- The page that is handed to `mapPage`. -/
structure Handed (s : MinixFSSuperblock) (inode : MinixFSInode) (start : ℕ) (phdrs : List Phdr)
    (found : Prop) (l : Loading) : Prop where
  filled : Filled s inode start phdrs l.page
  found : l.found_page_content = true ↔ found

/-- Without an overrun the loop reaches its end exactly if every segment on the page can be read. -/
theorem loadSegments_end {done : List Phdr} (hfile : FileOk s inode)
    (hstart : start + PAGE_SIZE < 2 ^ 63) (hfd : IsBinary i_num l.fd_)
    (hloaded : s.all_inodes_ i_num = some inode) (hno : NoOverrun s inode start phdrs)
    (hapart : (done ++ phdrs).Pairwise fun q p => ¬Overlap p q)
    (hfilled : Filled s inode start done l.page) :
    ((∀ p ∈ phdrs, p.Hit start → Full s inode start p) →
      ∃ l', loadSegments start phdrs l s = .mapPage l' ∧ Handed s inode start (done ++ phdrs)
        (l.found_page_content = true ∨ ∃ p ∈ phdrs, Matches start p) l') ∧
    (¬(∀ p ∈ phdrs, p.Hit start → Full s inode start p) →
      ∀ l', loadSegments start phdrs l s ≠ .mapPage l') := by
  induction phdrs generalizing done l with
  | nil =>
    refine ⟨fun _ => ⟨l, rfl, ⟨?_, ?_⟩⟩, fun h => absurd (fun p hp => by cases hp) h⟩
    · rw [List.append_nil]
      exact hfilled
    · exact ⟨.inl, fun hor => hor.resolve_right fun ⟨p, hp, _⟩ => by cases hp⟩
  | cons p phdrs ih =>
    have hassoc : done ++ p :: phdrs = (done ++ [p]) ++ phdrs := by simp
    rw [hassoc] at hapart ⊢
    simp only [List.forall_mem_cons, List.exists_mem_cons_iff]
    by_cases hhit : p.Hit start
    · obtain ⟨hplain, hrest⟩ := hno.1 hhit
      obtain ⟨hfull, hshort⟩ := loadSegments_hit (l := l) phdrs hstart hplain hhit hfd hloaded
      by_cases h : Full s inode start p
      · obtain ⟨fd_, hfd', heq⟩ := hfull h
        have hbefore : ∀ q ∈ done, ¬Overlap p q := fun q hq =>
          (List.pairwise_append.mp (List.pairwise_append.mp hapart).1).2.2 q hq p List.mem_cons_self
        obtain ⟨hall, hnone⟩ := ih (l := ⟨_, fd_, true, _⟩) hfd' (hrest h) hapart
          (hfilled.hit hfile hstart hplain hhit h hbefore)
        rw [heq]
        refine ⟨fun hp => ?_, fun hp => hnone fun hr => hp ⟨fun _ => h, hr⟩⟩
        obtain ⟨l', hend, hhanded⟩ := hall hp.2
        refine ⟨l', hend, hhanded.filled, ?_⟩
        rw [hhanded.found]
        exact iff_of_true (.inl rfl) (.inr (.inl ⟨hhit.1, .inl hhit.2⟩))
      · refine ⟨fun hp => absurd (hp.1 hhit) h, fun _ l' heq' => ?_⟩
        rcases hshort h with heq | ⟨e, heq⟩
        · rw [heq] at heq'
          cases heq'
        · rw [heq] at heq'
          cases heq'
    · obtain ⟨found, hfound, heq⟩ := loadSegments_miss phdrs l s hhit
      obtain ⟨hall, hnone⟩ := ih (l := { l with found_page_content := found }) hfd (hno.2 hhit) hapart
        (hfilled.miss hhit)
      rw [heq]
      refine ⟨fun hp => ?_, fun hp => hnone fun hr => hp ⟨fun hh => absurd hh hhit, hr⟩⟩
      obtain ⟨l', hend, hhanded⟩ := hall hp.2
      refine ⟨l', hend, hhanded.filled, ?_⟩
      rw [hhanded.found]
      dsimp only
      rw [hfound, or_assoc]

end Loop

/-! ### The headers that are accepted -/

theorem prepareLoop_apart {kept phdrs result : List Phdr}
    (hkept : kept.Pairwise fun q p => ¬Overlap p q) (h : prepareLoop kept phdrs = some result) :
    result.Pairwise fun q p => ¬Overlap p q := by
  induction phdrs generalizing kept with
  | nil =>
    cases h
    exact hkept
  | cons p phdrs ih =>
    rw [prepareLoop] at h
    split at h
    · exact ih hkept h
    · split at h
      · cases h
      · rename_i hany
        refine ih (List.pairwise_append.mpr ⟨hkept, List.pairwise_singleton _ _, ?_⟩) h
        intro q hq p' hp' hoverlap
        rw [List.mem_singleton.mp hp'] at hoverlap
        exact hany (List.any_eq_true.mpr ⟨q, hq, decide_eq_true hoverlap⟩)

theorem prepareHeaders_apart {phdrs result : List Phdr} (h : prepareHeaders phdrs = some result) :
    result.Pairwise fun q p => ¬Overlap p q := by
  unfold prepareHeaders at h
  split at h
  · cases h
  · rename_i kept hkept
    split at h
    · cases h
      exact prepareLoop_apart .nil hkept
    · cases h

end KPanic.Loader

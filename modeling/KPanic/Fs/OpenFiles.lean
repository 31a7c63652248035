import KPanic.Fs.DirectoryUpdates

/-!
# Files are opened and closed

`Files` says that the lists of the superblock, of the inodes and of all descriptors tell of the same open files.
-/

namespace KPanic.DeviceFS

open Function
open Wp

variable {s s' : Fs} {loc : Loc} {a : Namespace} {d p i f : ℕ} {l : Location} {n : Name} {D P : Dentry} {I M : Inode} {F : File}
  {x : FileDescriptor} {type : InodeType} {flag fd : BitVec 32}

structure Files (s : Fs) : Prop where
  global : s.global_fd = s.s_files_
  number : ∀ {x}, x ∈ s.s_files_ → x.fd_ < s.fd_num_
  inj : ∀ {x y}, x ∈ s.s_files_ → y ∈ s.s_files_ → x.fd_ = y.fd_ ∨ x.file_ = y.file_ → x = y
  live : ∀ {f}, s.file f ≠ none ↔ ∃ x ∈ s.s_files_, x.file_ = f
  inode : ∀ {f F}, s.file f = some F → ∃ I, s.inode F.f_inode_ = some I ∧ I.i_type_ = .I_FILE
  files : ∀ {i I f}, s.inode i = some I → (f ∈ I.i_files_ ↔ ∃ F, s.file f = some F ∧ F.f_inode_ = i)
  used : ∀ {i}, i ∈ s.used_inodes_ ↔ ∃ I, s.inode i = some I ∧ I.i_files_ ≠ []

/-- The descriptors, and what they are open for. -/
structure Descriptors (s : Fs) (loc : Loc) (a : Namespace) : Prop where
  fd_num : a.fd_num = s.fd_num_
  fd : ∀ {x F}, x ∈ s.s_files_ → s.file x.file_ = some F → ∃ I d l, s.inode F.f_inode_ = some I ∧ I.i_dentry_ = some d ∧
    loc d = some l ∧ a.fd x.fd_ = some ⟨l, F.flag_, F.offset_⟩
  only : ∀ {n}, a.fd n ≠ none → ∃ x ∈ s.s_files_, x.fd_ = n

namespace Files

theorem file (O : Files s) (h : x ∈ s.s_files_) : ∃ F, s.file x.file_ = some F :=
  Option.ne_none_iff_exists'.mp (O.live.mpr ⟨x, h, rfl⟩)

/-- An inode without open files is not in use. -/
theorem other (O : Files s) (hi : s.inode i = some I) (hnil : I.i_files_ = []) (hf : s.file f = some F) : F.f_inode_ ≠ i := by
  rintro rfl
  have hmem := (O.files hi).mpr ⟨F, hf, rfl⟩
  rw [hnil] at hmem
  exact List.not_mem_nil hmem

end Files

/-- The number that a program has leads to the descriptor. -/
theorem wp_getFileDescriptor (O : Files s) (hnum : s.fd_num_ ≤ 2 ^ 31) {Q : Option FileDescriptor → Fs → Prop}
    (hnone : (∀ x ∈ s.s_files_, x.fd_ ≠ fd.toNat) → Q none s) (hsome : ∀ x ∈ s.s_files_, x.fd_ = fd.toNat → Q (some x) s) :
    wp Never (VfsSyscall.getFileDescriptor fd) Q s := by
  have hfd : ∀ {x}, x ∈ s.s_files_ → (x.getFd = fd ↔ x.fd_ = fd.toNat) := by
    intro x hx
    have hlt := O.number hx
    rw [← BitVec.toNat_inj, FileDescriptor.getFd, BitVec.toNat_ofNat, Nat.mod_eq_of_lt (by omega)]
  rw [VfsSyscall.getFileDescriptor, wp_bind, wp_get, wp_pure, O.global]
  cases hfind : s.s_files_.find? fun it => it.getFd = fd with
  | none =>
    refine hnone fun x hx heq => ?_
    exact absurd (decide_eq_true ((hfd hx).mpr heq)) (List.find?_eq_none.mp hfind x hx)
  | some x =>
    have hx := List.mem_of_find?_eq_some hfind
    have heq : x.getFd = fd := by simpa using List.find?_some hfind
    exact hsome x hx ((hfd hx).mp heq)

/-! ### A file is opened -/

def Fs.opened (s : Fs) (i : ℕ) (I : Inode) (flag : BitVec 32) : Fs :=
  { s with
    inode := update s.inode i (some { I with i_files_ := I.i_files_ ++ [s.brk] })
    file := update s.file s.brk (some ⟨i, flag, 0⟩)
    brk := s.brk + 1
    fd_num_ := s.fd_num_ + 1
    s_files_ := s.s_files_ ++ [⟨s.fd_num_, s.brk⟩]
    global_fd := s.global_fd ++ [⟨s.fd_num_, s.brk⟩]
    used_inodes_ := if i ∈ s.used_inodes_ then s.used_inodes_ else s.used_inodes_ ++ [i] }

theorem wp_modifyInode (h : s.inode i = some I) {f : Inode → Inode} {Q : PUnit → Fs → Prop}
    (hQ : Q ⟨⟩ (s.setInode i (some (f I)))) : wp Never (modifyInode i f) Q s := by
  rw [modifyInode, wp_bind]
  exact wp_getInode h (wp_setInode hQ)

theorem wp_setFile {o : Option File} {Q : PUnit → Fs → Prop} (hQ : Q ⟨⟩ (s.setFile f o)) : wp Never (setFile f o) Q s :=
  (wp_modify _ _).mpr hQ

theorem wp_getFile (h : s.file f = some F) {Q : File → Fs → Prop} (hQ : Q F s) : wp Never (getFile f) Q s := by
  rw [getFile, wp_bind, wp_get, h]
  exact (wp_pure _).mpr hQ

theorem wp_createFd (hi : s.inode i = some I) {Q : BitVec 32 → Fs → Prop}
    (hQ : Q (BitVec.ofNat 32 s.fd_num_) (s.opened i I flag)) : wp Never (Superblock.createFd i flag) Q s := by
  rw [Superblock.createFd, wp_bind, RamFSInode.link, wp_bind]
  refine wp_new ?_
  rw [wp_bind]
  refine wp_setFile ?_
  rw [wp_bind]
  have hi' : ({ s with brk := s.brk + 1 }.setFile s.brk (some ⟨i, flag, 0⟩)).inode i = some I := hi
  refine wp_modifyInode hi' ?_
  rw [wp_pure, wp_bind, wp_get, wp_bind, wp_set, wp_pure]
  exact hQ

namespace Files

theorem created (O : Files s) (hfresh : Fresh s) : Files (s.created p P n type) := by
  have hnew : s.inode (s.brk + 1) = none := (hfresh _ (Nat.le_succ _)).2.1
  refine ⟨O.global, O.number, O.inj, O.live, fun {f F} hf => ?_, fun {i I f} hi => ?_, fun {i} => ?_⟩
  · obtain ⟨I, hI, htype⟩ := O.inode hf
    exact ⟨I, created_inode_old hfresh hI, htype⟩
  · obtain ⟨hib, hI⟩ | ⟨-, hold⟩ := created_inode hi
    · rw [hI, hib]
      refine iff_of_false List.not_mem_nil ?_
      rintro ⟨F, hF, hFi⟩
      obtain ⟨J, hJ, -⟩ := O.inode hF
      rw [hFi, hnew] at hJ
      cases hJ
    · exact O.files hold
  · refine O.used.trans ⟨fun ⟨I, hI, hne⟩ => ⟨I, created_inode_old hfresh hI, hne⟩, fun ⟨I, hI, hne⟩ => ?_⟩
    obtain ⟨-, rfl⟩ | ⟨-, hold⟩ := created_inode hI
    · exact absurd rfl hne
    · exact ⟨I, hold, hne⟩

theorem removed (O : Files s) (hi : s.inode i = some I) (hnil : I.i_files_ = []) : Files (s.removed p P d i) := by
  refine ⟨O.global, O.number, O.inj, O.live, fun {f F} hf => ?_, fun {j J f} hj => ?_, fun {j} => ?_⟩
  · obtain ⟨J, hJ, htype⟩ := O.inode hf
    exact ⟨J, (update_of_ne (O.other hi hnil hf) _ _).trans hJ, htype⟩
  · exact O.files (removed_inode hj).2
  · show j ∈ s.used_inodes_.filter _ ↔ ∃ J, update s.inode i none j = some J ∧ _
    rw [List.mem_filter, O.used]
    by_cases hji : j = i
    · rw [hji, update_self]
      exact iff_of_false (fun h => of_decide_eq_true h.2 rfl) nofun
    · rw [update_of_ne hji]
      exact and_iff_left (decide_eq_true hji)

theorem opened (O : Files s) (hfresh : Fresh s) (hi : s.inode i = some I) (htype : I.i_type_ = .I_FILE) :
    Files (s.opened i I flag) := by
  have hnew : s.file s.brk = none := (hfresh _ (Nat.le_refl _)).2.2
  have hlive : ∀ {x}, x ∈ s.s_files_ → x.file_ ≠ s.brk := by
    intro x hx heq
    exact O.live.mpr ⟨x, hx, heq⟩ hnew
  have hinode : ∀ {j J}, s.inode j = some J → ∃ J', (s.opened i I flag).inode j = some J' ∧ J'.i_type_ = J.i_type_ := by
    intro j J hJ
    by_cases hji : j = i
    · rw [hji, hi] at hJ
      cases hJ
      rw [hji]
      exact ⟨_, update_self _ _ _, rfl⟩
    · exact ⟨J, (update_of_ne hji _ _).trans hJ, rfl⟩
  refine ⟨?_, fun {x} hx => ?_, fun {x y} hx hy h => ?_, fun {f} => ?_, fun {f F} hf => ?_, fun {j J f} hj => ?_, fun {j} => ?_⟩
  · show s.global_fd ++ [_] = s.s_files_ ++ [_]
    rw [O.global]
  · show x.fd_ < s.fd_num_ + 1
    obtain hx | hx := List.mem_append.mp hx
    · exact Nat.lt_succ_of_lt (O.number hx)
    · rw [List.mem_singleton.mp hx]
      exact Nat.lt_succ_self _
  · obtain hx | hx := List.mem_append.mp hx
    · obtain hy | hy := List.mem_append.mp hy
      · exact O.inj hx hy h
      · rw [List.mem_singleton.mp hy] at h
        exact (h.elim (fun h => absurd h (Nat.ne_of_lt (O.number hx))) fun h => absurd h (hlive hx))
    · obtain hy | hy := List.mem_append.mp hy
      · rw [List.mem_singleton.mp hx] at h
        exact (h.elim (fun h => absurd h.symm (Nat.ne_of_lt (O.number hy))) fun h => absurd h.symm (hlive hy))
      · rw [List.mem_singleton.mp hx, List.mem_singleton.mp hy]
  · show update s.file s.brk _ f ≠ none ↔ ∃ x ∈ s.s_files_ ++ [_], _
    by_cases hf : f = s.brk
    · rw [hf, update_self]
      exact iff_of_true (Option.some_ne_none _) ⟨_, List.mem_append_right _ (List.mem_singleton_self _), rfl⟩
    · rw [update_of_ne hf, O.live]
      refine ⟨fun ⟨x, hx, hxf⟩ => ⟨x, List.mem_append_left _ hx, hxf⟩, fun ⟨x, hx, hxf⟩ => ?_⟩
      obtain hx | hx := List.mem_append.mp hx
      · exact ⟨x, hx, hxf⟩
      · rw [List.mem_singleton.mp hx] at hxf
        exact absurd hxf.symm hf
  · have hf' : update s.file s.brk (some ⟨i, flag, 0⟩) f = some F := hf
    by_cases hfb : f = s.brk
    · rw [hfb, update_self] at hf'
      cases hf'
      obtain ⟨J, hJ, htype'⟩ := hinode hi
      exact ⟨J, hJ, htype'.trans htype⟩
    · rw [update_of_ne hfb] at hf'
      obtain ⟨J, hJ, htype⟩ := O.inode hf'
      obtain ⟨J', hJ', htype'⟩ := hinode hJ
      exact ⟨J', hJ', htype'.trans htype⟩
  · have hj' : update s.inode i (some { I with i_files_ := I.i_files_ ++ [s.brk] }) j = some J := hj
    show _ ↔ ∃ F, update s.file s.brk _ f = some F ∧ _
    have hbrk : ∀ {j J}, s.inode j = some J → s.brk ∉ J.i_files_ := by
      intro j J hJ hmem
      obtain ⟨F, hF, -⟩ := (O.files hJ).mp hmem
      rw [hnew] at hF
      cases hF
    by_cases hji : j = i
    · rw [hji, update_self] at hj'
      cases hj'
      rw [List.mem_append, List.mem_singleton]
      by_cases hfb : f = s.brk
      · rw [hfb, update_self]
        exact iff_of_true (.inr rfl) ⟨_, rfl, hji.symm⟩
      · rw [update_of_ne hfb, or_iff_left hfb, hji]
        exact O.files hi
    · rw [update_of_ne hji] at hj'
      by_cases hfb : f = s.brk
      · rw [hfb, update_self]
        refine iff_of_false (hbrk hj') ?_
        rintro ⟨F, hF, hFj⟩
        cases hF
        exact hji hFj.symm
      · rw [update_of_ne hfb]
        exact O.files hj'
  · have hmem : j ∈ (s.opened i I flag).used_inodes_ ↔ j ∈ s.used_inodes_ ∨ j = i := by
      show j ∈ (if i ∈ s.used_inodes_ then s.used_inodes_ else s.used_inodes_ ++ [i]) ↔ _
      split
      · rename_i hmem
        exact (or_iff_left_of_imp fun h => h ▸ hmem).symm
      · rw [List.mem_append, List.mem_singleton]
    rw [hmem, O.used]
    show _ ↔ ∃ J, update s.inode i _ j = some J ∧ _
    by_cases hji : j = i
    · rw [hji, update_self]
      exact iff_of_true (.inr rfl) ⟨_, rfl, List.append_ne_nil_of_right_ne_nil _ (List.cons_ne_nil _ _)⟩
    · rw [update_of_ne hji]
      exact or_iff_left hji

end Files

/-! ### A file is closed -/

def Fs.closed (s : Fs) (x : FileDescriptor) (i : ℕ) (I : Inode) : Fs :=
  { s with
    inode := update s.inode i (some { I with i_files_ := I.i_files_.filter (· ≠ x.file_) })
    file := update s.file x.file_ none
    s_files_ := s.s_files_.filter (· ≠ x)
    global_fd := s.global_fd.filter (· ≠ x)
    used_inodes_ := if I.i_files_.filter (· ≠ x.file_) = [] then s.used_inodes_.filter (· ≠ i) else s.used_inodes_ }

theorem wp_removeFd (hi : s.inode i = some I) {Q : ℤ → Fs → Prop} (hQ : Q 0 (s.closed x i I)) :
    wp Never (Superblock.removeFd i x) Q s := by
  rw [Superblock.removeFd, wp_bind, wp_modify, wp_bind, RamFSInode.unlink, wp_bind]
  have hi' : ({ s with s_files_ := s.s_files_.filter (· ≠ x), global_fd := s.global_fd.filter (· ≠ x) } : Fs).inode i = some I := hi
  refine wp_modifyInode hi' ?_
  rw [wp_bind]
  refine wp_setFile ?_
  rw [wp_pure, wp_bind]
  refine wp_getInode (I := { I with i_files_ := I.i_files_.filter (· ≠ x.file_) }) (update_self _ _ _) ?_
  have hclosed : s.closed x i I = { s with
      inode := update s.inode i (some { I with i_files_ := I.i_files_.filter (· ≠ x.file_) })
      file := update s.file x.file_ none
      s_files_ := s.s_files_.filter (· ≠ x)
      global_fd := s.global_fd.filter (· ≠ x)
      used_inodes_ := if I.i_files_.filter (· ≠ x.file_) = [] then s.used_inodes_.filter (· ≠ i) else s.used_inodes_ } := rfl
  rw [hclosed] at hQ
  dsimp only
  by_cases hnil : I.i_files_.filter (· ≠ x.file_) = []
  · rw [if_pos hnil] at hQ
    rw [if_pos (List.length_eq_zero_iff.mpr hnil), wp_bind, wp_modify, wp_pure]
    exact hQ
  · rw [if_neg hnil] at hQ
    rw [if_neg (mt List.length_eq_zero_iff.mp hnil)]
    exact (wp_pure _).mpr hQ

namespace Files

theorem closed (O : Files s) (hx : x ∈ s.s_files_) (hF : s.file x.file_ = some F) (hi : s.inode F.f_inode_ = some I) :
    Files (s.closed x F.f_inode_ I) := by
  have hmem : ∀ {y}, y ∈ (s.closed x F.f_inode_ I).s_files_ ↔ y ∈ s.s_files_ ∧ y ≠ x := by
    intro y
    show y ∈ s.s_files_.filter _ ↔ _
    rw [List.mem_filter]
    exact and_congr_right fun _ => decide_eq_true_iff
  have hfile : ∀ {f G}, (s.closed x F.f_inode_ I).file f = some G ↔ f ≠ x.file_ ∧ s.file f = some G := by
    intro f G
    show update s.file x.file_ none f = some G ↔ _
    by_cases hf : f = x.file_
    · rw [hf, update_self]
      exact iff_of_false nofun fun h => h.1 rfl
    · rw [update_of_ne hf]
      exact (and_iff_right hf).symm
  refine ⟨?_, fun {y} hy => O.number (hmem.mp hy).1, fun {y z} hy hz h => O.inj (hmem.mp hy).1 (hmem.mp hz).1 h, fun {f} => ?_,
    fun {f G} hf => ?_, fun {j J f} hj => ?_, fun {j} => ?_⟩
  · show s.global_fd.filter _ = s.s_files_.filter _
    rw [O.global]
  · have hiff : (s.closed x F.f_inode_ I).file f ≠ none ↔ f ≠ x.file_ ∧ s.file f ≠ none := by
      rw [Option.ne_none_iff_exists', Option.ne_none_iff_exists']
      exact ⟨fun ⟨G, hG⟩ => ⟨(hfile.mp hG).1, G, (hfile.mp hG).2⟩, fun ⟨hf, G, hG⟩ => ⟨G, hfile.mpr ⟨hf, hG⟩⟩⟩
    rw [hiff, O.live]
    refine ⟨fun ⟨hf, y, hy, hyf⟩ => ⟨y, hmem.mpr ⟨hy, ?_⟩, hyf⟩, fun ⟨y, hy, hyf⟩ => ?_⟩
    · rintro rfl
      exact hf hyf.symm
    · obtain ⟨hy, hyx⟩ := hmem.mp hy
      refine ⟨?_, y, hy, hyf⟩
      rintro rfl
      exact hyx (O.inj hy hx (.inr hyf))
  · obtain ⟨-, hf⟩ := hfile.mp hf
    obtain ⟨J, hJ, htype⟩ := O.inode hf
    by_cases hji : G.f_inode_ = F.f_inode_
    · rw [hji, hi] at hJ
      cases hJ
      rw [hji]
      exact ⟨_, update_self _ _ _, htype⟩
    · exact ⟨J, (update_of_ne hji _ _).trans hJ, htype⟩
  · have hj' : update s.inode F.f_inode_ (some { I with i_files_ := I.i_files_.filter (· ≠ x.file_) }) j = some J := hj
    have hiff : (∃ G, (s.closed x F.f_inode_ I).file f = some G ∧ G.f_inode_ = j) ↔
        f ≠ x.file_ ∧ ∃ G, s.file f = some G ∧ G.f_inode_ = j := by
      constructor
      · rintro ⟨G, hG, hGj⟩
        exact ⟨(hfile.mp hG).1, G, (hfile.mp hG).2, hGj⟩
      · rintro ⟨hf, G, hG, hGj⟩
        exact ⟨G, hfile.mpr ⟨hf, hG⟩, hGj⟩
    rw [hiff]
    by_cases hji : j = F.f_inode_
    · rw [hji, update_self] at hj'
      cases hj'
      rw [hji, ← O.files hi]
      show f ∈ I.i_files_.filter _ ↔ _
      rw [List.mem_filter, and_comm]
      exact and_congr_left fun _ => decide_eq_true_iff
    · rw [update_of_ne hji] at hj'
      rw [O.files hj']
      refine (and_iff_right_of_imp ?_).symm
      rintro ⟨G, hG, hGj⟩ rfl
      rw [hF] at hG
      cases hG
      exact hji hGj.symm
  · show j ∈ (if I.i_files_.filter _ = [] then s.used_inodes_.filter _ else s.used_inodes_) ↔
      ∃ J, update s.inode F.f_inode_ (some { I with i_files_ := I.i_files_.filter (· ≠ x.file_) }) j = some J ∧ _
    by_cases hji : j = F.f_inode_
    · rw [hji, update_self]
      split
      · rename_i hnil
        rw [List.mem_filter]
        refine iff_of_false (fun h => of_decide_eq_true h.2 rfl) ?_
        rintro ⟨J, hJ, hne⟩
        cases hJ
        exact hne hnil
      · rename_i hne
        have hused : F.f_inode_ ∈ s.used_inodes_ := by
          refine O.used.mpr ⟨I, hi, fun hnil => hne ?_⟩
          rw [hnil]
          rfl
        exact iff_of_true hused ⟨_, rfl, hne⟩
    · rw [update_of_ne hji, ← O.used]
      split
      · rw [List.mem_filter]
        exact and_iff_left (decide_eq_true hji)
      · rfl

end Files

/-! ### A file is read or written -/

/-- Another inode at `i`, and another file at `f`. -/
def Fs.changed (s : Fs) (i : ℕ) (I : Inode) (f : ℕ) (F : File) : Fs := (s.setInode i (some I)).setFile f (some F)

theorem Files.changed (O : Files s) {K : File} (hF : s.file f = some F) (hsame : K.f_inode_ = F.f_inode_)
    (hi : s.inode i = some I) (htype : M.i_type_ = I.i_type_) (hfiles : M.i_files_ = I.i_files_) :
    Files (s.changed i M f K) := by
  have hfile : ∀ {g j}, (∃ G, (s.changed i M f K).file g = some G ∧ G.f_inode_ = j) ↔
      ∃ G, s.file g = some G ∧ G.f_inode_ = j := by
    intro g j
    show (∃ G, update s.file f (some K) g = some G ∧ _) ↔ _
    by_cases hg : g = f
    · rw [hg, update_self, hF]
      constructor
      · rintro ⟨G, hG, hj⟩
        cases hG
        exact ⟨F, rfl, hsame.symm.trans hj⟩
      · rintro ⟨G, hG, hj⟩
        cases hG
        exact ⟨K, rfl, hsame.trans hj⟩
    · rw [update_of_ne hg]
  have hinode : ∀ {j J'}, (s.changed i M f K).inode j = some J' → ∃ J, s.inode j = some J ∧ J'.i_files_ = J.i_files_ := by
    intro j J' hJ'
    have h : update s.inode i (some M) j = some J' := hJ'
    by_cases hj : j = i
    · rw [hj, update_self] at h
      cases h
      exact ⟨I, hj ▸ hi, hfiles⟩
    · rw [update_of_ne hj] at h
      exact ⟨J', h, rfl⟩
  have hkept : ∀ {j J}, s.inode j = some J → ∃ J', (s.changed i M f K).inode j = some J' ∧ J'.i_type_ = J.i_type_ ∧
      J'.i_files_ = J.i_files_ := by
    intro j J hJ
    by_cases hj : j = i
    · rw [hj, hi] at hJ
      cases hJ
      rw [hj]
      exact ⟨M, update_self _ _ _, htype, hfiles⟩
    · exact ⟨J, (update_of_ne hj _ _).trans hJ, rfl, rfl⟩
  refine ⟨O.global, O.number, O.inj, fun {g} => ?_, fun {g G'} hg => ?_, fun {j J' g} hj => ?_, fun {j} => ?_⟩
  · refine Iff.trans ?_ O.live
    show update s.file f (some K) g ≠ none ↔ _
    by_cases hg : g = f
    · rw [hg, update_self, hF]
      exact iff_of_true (Option.some_ne_none _) (Option.some_ne_none _)
    · rw [update_of_ne hg]
  · obtain ⟨G, hG, hGj⟩ := hfile.mp ⟨G', hg, rfl⟩
    obtain ⟨J, hJ, hfile⟩ := O.inode hG
    obtain ⟨J', hJ', htype', -⟩ := hkept hJ
    rw [← hGj]
    exact ⟨J', hJ', htype'.trans hfile⟩
  · obtain ⟨J, hJ, hfiles'⟩ := hinode hj
    rw [hfiles', hfile, O.files hJ]
  · rw [show (s.changed i M f K).used_inodes_ = s.used_inodes_ from rfl, O.used]
    constructor
    · rintro ⟨J, hJ, hne⟩
      obtain ⟨J', hJ', -, hfiles'⟩ := hkept hJ
      exact ⟨J', hJ', hfiles' ▸ hne⟩
    · rintro ⟨J', hJ', hne⟩
      obtain ⟨J, hJ, hfiles'⟩ := hinode hJ'
      exact ⟨J, hJ, hfiles' ▸ hne⟩

end KPanic.DeviceFS

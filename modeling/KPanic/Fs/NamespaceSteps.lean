import KPanic.Fs.Represents

/-!
# A call is a step of the namespace

Each call of `VfsSyscall` returns what the namespace returns, and what it leaves represents the namespace that is left. Nothing that
was deleted is used, and no assertion fails.
-/

namespace KPanic.DeviceFS

open Function
open Wp
open PathWalker (SEPARATOR)

variable {s s' : Fs} {loc : Loc} {a : Namespace} {d i thread : ℕ} {l : Location} {D : Dentry} {I : Inode} {F K : File}
  {x : FileDescriptor} {type : InodeType} {flag fd count : BitVec 32} {pathname pathname_ : List Char}

/-! ### Paths -/

theorem pathWalk_prefixed (s : Fs) (thread : ℕ) (pathname : List Char) :
    PathWalker.dupChecking s.vfs (s.fs_info thread) pathname =
      ({ s.fs_info thread with pathname_ := Namespace.prefixed pathname },
        PathWalker.pathWalk s.vfs { s.fs_info thread with pathname_ := Namespace.prefixed pathname } (Namespace.prefixed pathname)) := rfl

theorem found_prefixed (s : Fs) (thread : ℕ) (pathname : List Char) :
    found (PathWalker.pathWalk s.vfs { s.fs_info thread with pathname_ := Namespace.prefixed pathname } (Namespace.prefixed pathname)) =
      found (PathWalker.pathWalk s.vfs (s.fs_info thread) (Namespace.prefixed pathname)) := by
  obtain ⟨p, hp⟩ : ∃ p, (s.fs_info thread).start (Namespace.prefixed pathname) = some p := by
    unfold PathWalker.FileSystemInfo.start
    split
    · exact ⟨_, rfl⟩
    · exact ⟨_, rfl⟩
  have hp' : ({ s.fs_info thread with pathname_ := Namespace.prefixed pathname } : PathWalker.FileSystemInfo ℕ Unit).start
    (Namespace.prefixed pathname) = some p := hp
  rw [PathWalker.found_pathWalk hp', PathWalker.found_pathWalk hp, PathWalker.run_pathname]

/-- A walk over the dentries ends where the walk over the namespace does. -/
theorem walk_cases (R : Represents s loc a) (thread : ℕ) (pathname_ : List Char) :
    found (PathWalker.pathWalk s.vfs (s.fs_info thread) pathname_) = none ∧ a.walk thread pathname_ = none ∨
      ∃ d l, found (PathWalker.pathWalk s.vfs (s.fs_info thread) pathname_) = some d ∧ a.walk thread pathname_ = some l ∧
        loc d = some l := by
  have hrel := found_walk R.tree R.inodes R.named thread pathname_
  cases hf : found (PathWalker.pathWalk s.vfs (s.fs_info thread) pathname_) with
  | none =>
    rw [hf] at hrel
    cases hw : a.walk thread pathname_ with
    | none => exact .inl ⟨rfl, rfl⟩
    | some l =>
      rw [hw] at hrel
      cases hrel
  | some d =>
    rw [hf] at hrel
    cases hw : a.walk thread pathname_ with
    | none =>
      rw [hw] at hrel
      cases hrel
    | some l =>
      rw [hw] at hrel
      cases hrel with
      | some hd => exact .inr ⟨d, l, rfl, rfl, hd⟩

theorem wp_dupChecking (R : Represents s loc a) {Q : List Char × Option ℕ → Fs → Prop}
    (hnone : a.walk thread (Namespace.prefixed pathname) = none → Q (Namespace.prefixed pathname, none) s)
    (hsome : ∀ d l, a.walk thread (Namespace.prefixed pathname) = some l → loc d = some l →
      Q (Namespace.prefixed pathname, some d) s) : wp Never (dupChecking thread pathname) Q s := by
  rw [dupChecking, wp_bind, wp_get, pathWalk_prefixed]
  refine (wp_pure _).mpr ?_
  dsimp only
  rw [found_prefixed]
  obtain ⟨hf, hw⟩ | ⟨d, l, hf, hw, hd⟩ := walk_cases R thread (Namespace.prefixed pathname)
  · rw [hf]
    exact hnone hw
  · rw [hf]
    exact hsome d l hw hd

theorem wp_pathWalk (R : Represents s loc a) {Q : Option ℕ → Fs → Prop} (hnone : a.walk thread pathname_ = none → Q none s)
    (hsome : ∀ d l, a.walk thread pathname_ = some l → loc d = some l → Q (some d) s) :
    wp Never (pathWalk thread pathname_) Q s := by
  rw [pathWalk, wp_bind, wp_get]
  refine (wp_pure _).mpr ?_
  obtain ⟨hf, hw⟩ | ⟨d, l, hf, hw, hd⟩ := walk_cases R thread pathname_
  · rw [hf]
    exact hnone hw
  · rw [hf]
    exact hsome d l hw hd

theorem wp_inodeOf (E : Object s loc a l d D i I) {Q : ℕ → Fs → Prop} (hQ : Q i s) : wp Never (inodeOf d) Q s := by
  rw [inodeOf, wp_bind]
  refine wp_getDentry E.dentry ?_
  rw [E.inode]
  exact (wp_pure _).mpr hQ

/-! ### New entries -/

namespace Namespace

theorem mem_prefixed (pathname : List Char) : SEPARATOR ∈ prefixed pathname := PathWalker.prefixed_separator pathname

/-- What is asked for below `/` is made in the directory of the thread, where the name must not be. -/
def Free (a : Namespace) (thread : ℕ) (pathname_ : List Char) : Prop :=
  dirname pathname_ = [] → a.node (a.pwd thread ++ [basename pathname_]) = none

theorem absent (hsep : SEPARATOR ∈ pathname_) (hfree : a.Free thread pathname_) (hnone : a.walk thread pathname_ = none)
    (hdir : a.walk thread (dirname pathname_) = some l) : a.node (l ++ [basename pathname_]) = none := by
  by_cases hnil : dirname pathname_ = []
  · have hwalk : a.walk thread [] = some (a.pwd thread) := by
      rw [walk, PathWalker.found_pathWalk (p := ⟨a.pwd thread, ⟨⟩⟩) rfl]
      rfl
    rw [hnil, hwalk] at hdir
    cases hdir
    exact hfree hnil
  · have hhead : pathname_.head? = some PathWalker.CHAR_ROOT ↔ (dirname pathname_).head? = some PathWalker.CHAR_ROOT :=
      (PathWalker.head_split hsep).trans (or_iff_right hnil)
    obtain ⟨p, hp⟩ : ∃ p, (a.fs_info thread).start (dirname pathname_) = some p := by
      unfold PathWalker.FileSystemInfo.start
      split
      · exact ⟨_, rfl⟩
      · exact ⟨_, rfl⟩
    have hp' : (a.fs_info thread).start pathname_ = some p := by
      rw [← hp]
      unfold PathWalker.FileSystemInfo.start
      simp only [hhead]
    rw [walk, PathWalker.found_pathWalk hp'] at hnone
    rw [walk, PathWalker.found_pathWalk hp] at hdir
    split at hdir
    · rename_i hok
      cases hdir
      have hfail : (PathWalker.run a.vfs (a.fs_info thread) (PathWalker.firstType pathname_) p (PathWalker.parts pathname_)).1 ≠
          .PW_SUCCESS := by
        intro h
        rw [if_pos h] at hnone
        cases hnone
      obtain ⟨b, -, -, hchild⟩ := PathWalker.absent hsep hok hfail
      rw [child_eq, Option.map_eq_none_iff] at hchild
      exact hchild
    · cases hdir

end Namespace

/-- A location that is still there has the dentry that it had. -/
def Kept (loc loc' : Loc) (a : Namespace) : Prop := ∀ d l, loc d = some l → a.node l ≠ none → loc' d = some l

theorem kept_refl : Kept loc loc a := fun _ _ h _ => h

/-- A new entry, if the path leads to a directory. -/
theorem wp_create (type : InodeType) (R : Represents s loc a) (hsep : SEPARATOR ∈ pathname_) (hfree : a.Free thread pathname_)
    (hnone : a.walk thread pathname_ = none) {Q : Option ℕ → Fs → Prop}
    (hfail : a.create thread pathname_ type.node = none → Q none s)
    (hnew : ∀ l d D i I s' loc' a', a.create thread pathname_ type.node = some (l, a') → a'.fd_num = a.fd_num →
      Represents s' loc' a' → Kept loc loc' a' → Object s' loc' a' l d D i I → I.i_type_ = type → s'.fd_num_ = s.fd_num_ →
      Q (some i) s') :
    wp Never (VfsSyscall.create thread pathname_ type) Q s := by
  rw [VfsSyscall.create, wp_bind]
  refine wp_pathWalk R (fun hwalk => ?_) fun p l hwalk hl => ?_
  · refine (wp_pure _).mpr (hfail ?_)
    rw [Namespace.create, hwalk]
  · obtain ⟨P, j, J, E⟩ := R.object hl
    dsimp only
    rw [wp_bind]
    refine wp_inodeOf E ?_
    rw [wp_bind]
    refine wp_getInode E.object ?_
    by_cases hdir : J.i_type_ = .I_DIR
    · have hnode : a.node l = some .dir := E.node.trans (congrArg some ((R.inodes.dir_iff E.object).mp hdir))
      rw [if_neg (not_not.mpr hdir)]
      have hbrk : p ≠ s.brk := Nat.ne_of_lt (R.fresh.lt E.dentry)
      have hnot : s.brk ∉ P.d_child_ := by
        intro hmem
        obtain ⟨n, hn⟩ := (R.tree.child E.dentry E.location).mp hmem
        rw [R.tree.live.mpr (R.fresh _ (Nat.le_refl _)).1] at hn
        cases hn
      refine wp_createEntry E.dentry hbrk hnot ((wp_pure _).mpr ?_)
      have hcreate : a.create thread pathname_ type.node =
          some (l ++ [basename pathname_], a.set (l ++ [basename pathname_]) (some type.node)) := by
        rw [Namespace.create, hwalk]
        dsimp only
        rw [hnode]
      have R' : Represents (s.created p P (basename pathname_) type) _ _ :=
        R.created E hdir (Namespace.absent hsep hfree hnone hwalk)
      have hkept : ∀ n (a' : Namespace), Kept loc (update loc s.brk (some (l ++ [n]))) a' := by
        intro n a' c l' hc _
        refine (update_of_ne ?_ _ _).trans hc
        rintro rfl
        rw [R.tree.live.mpr (R.fresh _ (Nat.le_refl _)).1] at hc
        cases hc
      refine hnew _ s.brk _ _ _ _ _ _ hcreate rfl R' (hkept _ _) ⟨update_self _ _ _, update_self _ _ _, rfl, update_self _ _ _, rfl, ?_⟩ rfl rfl
      refine (update_self _ _ _).trans (congrArg some ?_)
      cases type with
      | I_FILE => rfl
      | I_DIR => rfl
    · rw [if_pos hdir]
      refine (wp_pure _).mpr (hfail ?_)
      rw [Namespace.create, hwalk]
      dsimp only
      rw [E.node]
      cases hnode : J.node with
      | dir => exact absurd ((R.inodes.dir_iff E.object).mpr hnode) hdir
      | file data => rfl

/-! ### Calls -/

/-- The reply is that of the namespace, and what is left represents what is left of the namespace. -/
def Simulated (loc : Loc) (out : Reply × Namespace) (reply : Reply) (s' : Fs) : Prop :=
  reply = out.1 ∧ ∃ loc', Represents s' loc' out.2 ∧ Kept loc loc' out.2

theorem simulated_failed (R : Represents s loc a) : Simulated loc a.failed ⟨-1, []⟩ s := ⟨rfl, loc, R, kept_refl⟩

theorem Simulated.trans {loc' : Loc} {a' : Namespace} {out : Reply × Namespace} {reply : Reply} (hkept : Kept loc loc' a')
    (hnode : out.2.node = a'.node) (h : Simulated loc' out reply s) : Simulated loc out reply s := by
  obtain ⟨hreply, loc'', R, hkept'⟩ := h
  exact ⟨hreply, loc'', R, fun d l hd hl => hkept' d l (hkept d l hd (hnode ▸ hl)) hl⟩

theorem wp_mkdir (R : Represents s loc a) (hfree : a.Free thread (Namespace.prefixed pathname)) :
    wp Never (VfsSyscall.mkdir thread pathname) (Simulated loc (a.mkdir thread pathname)) s := by
  rw [VfsSyscall.mkdir, wp_bind]
  refine wp_dupChecking R (fun hwalk => ?_) fun d l hwalk _ => ?_
  · dsimp only
    rw [if_neg (by simp), wp_bind]
    rw [Namespace.mkdir, hwalk]
    dsimp only
    refine wp_create .I_DIR R (Namespace.mem_prefixed pathname) hfree hwalk (fun hcreate => ?_)
      fun l d D i I s' loc' a' hcreate _ R' hkept _ _ _ => ?_
    · rw [show a.create thread (Namespace.prefixed pathname) .dir = none from hcreate]
      exact (wp_pure _).mpr (simulated_failed R)
    · rw [show a.create thread (Namespace.prefixed pathname) .dir = some (l, a') from hcreate]
      exact (wp_pure _).mpr ⟨rfl, loc', R', hkept⟩
  · dsimp only
    rw [if_pos (by simp)]
    have hmkdir : a.mkdir thread pathname = a.failed := by
      rw [Namespace.mkdir, hwalk]
    rw [hmkdir]
    exact (wp_pure _).mpr (simulated_failed R)

theorem wp_chdir (R : Represents s loc a) :
    wp Never (VfsSyscall.chdir thread pathname) (Simulated loc (a.chdir thread pathname)) s := by
  rw [VfsSyscall.chdir, wp_bind]
  refine wp_dupChecking R (fun hwalk => ?_) fun d l hwalk hl => ?_
  · have hchdir : a.chdir thread pathname = a.failed := by
      rw [Namespace.chdir, hwalk]
    rw [hchdir]
    exact (wp_pure _).mpr (simulated_failed R)
  · obtain ⟨D, i, I, E⟩ := R.object hl
    dsimp only
    rw [wp_bind]
    refine wp_inodeOf E ?_
    rw [wp_bind]
    refine wp_getInode E.object ?_
    rw [Namespace.chdir, hwalk]
    dsimp only
    rw [E.node]
    cases hnode : I.node with
    | dir =>
      rw [if_neg (not_not.mpr ((R.inodes.dir_iff E.object).mpr hnode)), wp_bind, wp_modify]
      refine (wp_pure _).mpr ⟨rfl, loc, ⟨R.tree.congr rfl rfl, R.inodes.congr rfl rfl rfl, ⟨R.named.node, R.named.only, ?_⟩,
        ⟨R.files.global, R.files.number, R.files.inj, R.files.live, R.files.inode, R.files.files, R.files.used⟩,
        ⟨R.descriptors.fd_num, R.descriptors.fd, R.descriptors.only⟩, R.fresh, R.numbers, R.rootDir, ?_⟩, kept_refl⟩
      · intro t
        show loc (update s.pwd_ thread d t) = some (update a.pwd thread l t)
        by_cases ht : t = thread
        · rw [ht, update_self, update_self]
          exact hl
        · rw [update_of_ne ht, update_of_ne ht]
          exact R.named.pwd t
      · intro t
        show a.node (update a.pwd thread l t) = some .dir
        by_cases ht : t = thread
        · rw [ht, update_self, E.node, hnode]
        · rw [update_of_ne ht]
          exact R.pwdDir t
    | file data =>
      rw [if_pos]
      · exact (wp_pure _).mpr (simulated_failed R)
      · intro hdir
        rw [(R.inodes.dir_iff E.object).mp hdir] at hnode
        cases hnode

/-! ### Removal -/

/-- Descriptors are open for an inode as long as it has files. -/
theorem opened_iff (R : Represents s loc a) (E : Object s loc a l d D i I) : a.Opened l ↔ I.i_files_ ≠ [] := by
  constructor
  · rintro ⟨m, f, hf, hfl⟩
    obtain ⟨x, hx, rfl⟩ := R.descriptors.only (n := m) (by rw [hf]; exact Option.some_ne_none _)
    obtain ⟨F, hF⟩ := R.files.file hx
    obtain ⟨J, c, l', hJ, hback, hc, hfd⟩ := R.descriptors.fd hx hF
    rw [hf] at hfd
    cases hfd
    obtain rfl : l' = l := hfl
    obtain rfl := R.tree.inj hc E.location
    obtain ⟨c', C, hc', hC, hCi⟩ := R.inodes.dentry hJ
    obtain rfl := Option.some.inj (hc'.symm.trans hback)
    rw [E.dentry] at hC
    cases hC
    have hi : F.f_inode_ = i := Option.some.inj (hCi.symm.trans E.inode)
    exact List.ne_nil_of_mem ((R.files.files E.object).mpr ⟨F, hF, hi⟩)
  · intro hne
    obtain ⟨f, hf⟩ := List.exists_mem_of_ne_nil _ hne
    obtain ⟨F, hF, hi⟩ := (R.files.files E.object).mp hf
    obtain ⟨x, hx, rfl⟩ := R.files.live.mp (by rw [hF]; exact Option.some_ne_none _)
    obtain ⟨J, c, l', hJ, hback, hc, hfd⟩ := R.descriptors.fd hx hF
    rw [hi, E.object] at hJ
    cases hJ
    obtain rfl := Option.some.inj (hback.symm.trans E.back)
    obtain rfl := Option.some.inj (hc.symm.trans E.location)
    exact ⟨_, _, hfd, rfl⟩

theorem inhabited_iff (R : Represents s loc a) (E : Object s loc a l d D i I) : a.Inhabited l ↔ D.d_child_ ≠ [] := by
  constructor
  · rintro ⟨n, hn⟩
    obtain ⟨c, hc⟩ := R.named.only hn
    exact List.ne_nil_of_mem (R.tree.mem_child E.dentry E.location hc)
  · intro hne
    obtain ⟨c, hmem⟩ := List.exists_mem_of_ne_nil _ hne
    obtain ⟨n, hn⟩ := (R.tree.child E.dentry E.location).mp hmem
    exact ⟨n, (node_iff R.tree R.inodes R.named).mpr ⟨c, hn⟩⟩

theorem wp_removed (R : Represents s loc a) (E : Object s loc a l d D i I) (hroot : l ≠ []) (hchild : D.d_child_ = [])
    (hnil : I.i_files_ = []) (hpwd : ∀ thread, a.pwd thread ≠ l) {Q : ℤ → Fs → Prop}
    (hQ : ∀ t, wp Never (Superblock.delete_inode i) (fun _ s' => ∃ loc', Represents s' loc' (a.set l none) ∧
      Kept loc loc' (a.set l none)) t → Q INODE_DEAD t) :
    wp Never (RamFSInode.remove i) Q s := by
  obtain ⟨l', n, rfl⟩ : ∃ l' n, l = l' ++ [n] := ⟨_, _, (List.dropLast_concat_getLast hroot).symm⟩
  obtain ⟨-, p, hparent, hl⟩ := R.tree.parent E.dentry E.location
  obtain ⟨P, hp⟩ := R.tree.dentry hl
  have hpd : p ≠ d := by
    rintro rfl
    exact absurd (congrArg List.length (Option.some.inj (hl.symm.trans E.location))) (by simp)
  refine wp_remove E.object E.back E.dentry hparent hp hpd hchild (hQ _ ?_)
  refine wp_delete_inode ⟨_, R.removed E hp hl hchild hnil hpwd, fun c l'' hc hnode => (update_of_ne ?_ _ _).trans hc⟩
  rintro rfl
  obtain rfl := Option.some.inj (hc.symm.trans E.location)
  exact hnode (update_self _ _ _)

theorem wp_rm (R : Represents s loc a) :
    wp Never (VfsSyscall.rm thread pathname) (Simulated loc (a.rm thread pathname)) s := by
  rw [VfsSyscall.rm, wp_bind]
  refine wp_dupChecking R (fun hwalk => ?_) fun d l hwalk hl => ?_
  · have hrm : a.rm thread pathname = a.failed := by
      rw [Namespace.rm, hwalk]
    rw [hrm]
    exact (wp_pure _).mpr (simulated_failed R)
  · obtain ⟨D, i, I, E⟩ := R.object hl
    dsimp only
    rw [wp_bind]
    refine wp_inodeOf E ?_
    rw [wp_bind]
    refine wp_getInode E.object ?_
    rw [Namespace.rm, hwalk]
    dsimp only
    rw [E.node]
    cases hnode : I.node with
    | dir =>
      rw [if_pos]
      · exact (wp_pure _).mpr (simulated_failed R)
      · rw [(R.inodes.dir_iff E.object).mpr hnode]
        decide
    | file data =>
      have htype := R.inodes.file_of_node E.object hnode
      rw [if_neg (not_not.mpr htype), wp_bind, RamFSInode.rm, wp_bind]
      refine wp_getInode E.object ?_
      dsimp only
      by_cases hopened : a.Opened l
      · have hne : I.i_files_.length ≠ 0 := fun h => (opened_iff R E).mp hopened (List.length_eq_zero_iff.mp h)
        rw [if_pos hopened, if_pos hne, wp_pure, if_neg (by decide)]
        exact (wp_pure _).mpr (simulated_failed R)
      · have hnil : I.i_files_ = [] := not_not.mp (mt (opened_iff R E).mpr hopened)
        have hchild : D.d_child_ = [] := by
          by_contra hne
          have hdir := R.inodes.dir E.dentry E.inode E.object hne
          rw [htype] at hdir
          cases hdir
        have hnotdir : a.node l ≠ some .dir := by
          rw [E.node, hnode]
          nofun
        have hroot : l ≠ [] := by
          rintro rfl
          exact hnotdir R.rootDir
        rw [if_neg hopened, if_neg (not_not.mpr (List.length_eq_zero_iff.mpr hnil))]
        refine wp_removed R E hroot hchild hnil (fun t ht => hnotdir (ht ▸ R.pwdDir t)) fun t ht => ?_
        rw [if_pos rfl, wp_bind]
        exact wp_mono ht fun _ s' h => (wp_pure _).mpr ⟨rfl, h⟩

theorem wp_rmdir (R : Represents s loc a)
    (hok : ∀ l, a.walk thread (Namespace.prefixed pathname) = some l → a.Inhabited l ∨ l ≠ [] ∧ ∀ t, a.pwd t ≠ l) :
    wp Never (VfsSyscall.rmdir thread pathname) (Simulated loc (a.rmdir thread pathname)) s := by
  rw [VfsSyscall.rmdir, wp_bind]
  refine wp_dupChecking R (fun hwalk => ?_) fun d l hwalk hl => ?_
  · have hrmdir : a.rmdir thread pathname = a.failed := by
      rw [Namespace.rmdir, hwalk]
    rw [hrmdir]
    exact (wp_pure _).mpr (simulated_failed R)
  · obtain ⟨D, i, I, E⟩ := R.object hl
    dsimp only
    rw [wp_bind]
    refine wp_inodeOf E ?_
    rw [wp_bind]
    refine wp_getInode E.object ?_
    rw [Namespace.rmdir, hwalk]
    dsimp only
    rw [E.node]
    cases hnode : I.node with
    | file data =>
      rw [if_pos]
      · exact (wp_pure _).mpr (simulated_failed R)
      · intro hdir
        rw [(R.inodes.dir_iff E.object).mp hdir] at hnode
        cases hnode
    | dir =>
      have htype : I.i_type_ = .I_DIR := (R.inodes.dir_iff E.object).mpr hnode
      rw [if_neg (not_not.mpr htype), wp_bind, RamFSInode.rmdir, wp_bind]
      refine wp_getInode E.object ?_
      rw [if_neg (not_not.mpr htype)]
      dsimp only
      by_cases hinhabited : a.Inhabited l
      · rw [if_pos hinhabited]
        refine wp_remove_kept E.object E.back E.dentry ((inhabited_iff R E).mp hinhabited) ?_
        rw [if_neg (by decide)]
        exact (wp_pure _).mpr (simulated_failed R)
      · have hchild : D.d_child_ = [] := not_not.mp (mt (inhabited_iff R E).mpr hinhabited)
        have hnil : I.i_files_ = [] := by
          refine List.eq_nil_iff_forall_not_mem.mpr fun f hf => ?_
          obtain ⟨F, hF, hi⟩ := (R.files.files E.object).mp hf
          obtain ⟨J, hJ, hfile⟩ := R.files.inode hF
          rw [hi, E.object] at hJ
          cases hJ
          rw [htype] at hfile
          cases hfile
        obtain ⟨hroot, hpwd⟩ := (hok l hwalk).resolve_left hinhabited
        rw [if_neg hinhabited]
        refine wp_removed R E hroot hchild hnil hpwd fun t ht => ?_
        rw [if_pos rfl, wp_bind]
        exact wp_mono ht fun _ s' h => (wp_pure _).mpr ⟨rfl, h⟩

/-! ### Descriptors -/

/-- The descriptor of a number is the one that the namespace has. -/
theorem wp_descriptor (R : Represents s loc a) {Q : Option FileDescriptor → Fs → Prop} (hnone : a.fd fd.toNat = none → Q none s)
    (hsome : ∀ x F l d D I data, x ∈ s.s_files_ → x.fd_ = fd.toNat → s.file x.file_ = some F →
      Object s loc a l d D F.f_inode_ I → I.i_type_ = .I_FILE → I.data_ = some data →
      a.fd fd.toNat = some ⟨l, F.flag_, F.offset_⟩ → Q (some x) s) :
    wp Never (VfsSyscall.getFileDescriptor fd) Q s := by
  refine wp_getFileDescriptor R.files R.numbers (fun hno => hnone ?_) fun x hx hfd => ?_
  · by_contra hne
    obtain ⟨x, hx, hxfd⟩ := R.descriptors.only hne
    exact hno x hx hxfd
  · obtain ⟨F, hF⟩ := R.files.file hx
    obtain ⟨J, d, l, hJ, hback, hd, hopen⟩ := R.descriptors.fd hx hF
    obtain ⟨J', hJ', hfile⟩ := R.files.inode hF
    rw [hJ] at hJ'
    cases hJ'
    obtain ⟨D, i, I, E⟩ := R.object hd
    obtain ⟨d', D', hd', hD', hDi⟩ := R.inodes.dentry hJ
    obtain rfl := Option.some.inj (hd'.symm.trans hback)
    have hD := hD'.symm.trans E.dentry
    cases hD
    obtain rfl := Option.some.inj (hDi.symm.trans E.inode)
    have hI := hJ.symm.trans E.object
    cases hI
    obtain ⟨data, hdata⟩ := (R.inodes.file_iff hJ).mp hfile
    rw [hfd] at hopen
    exact hsome x F l d' D J data hx hfd hF E hfile hdata hopen

theorem wp_close (R : Represents s loc a) : wp Never (VfsSyscall.close fd) (Simulated loc (a.close fd)) s := by
  rw [VfsSyscall.close, wp_bind]
  refine wp_descriptor R (fun hnone => ?_) fun x F l d D I data hx hfd hF E _ _ hopen => ?_
  · rw [Namespace.close, hnone]
    exact (wp_pure _).mpr (simulated_failed R)
  · rw [Namespace.close, hopen]
    dsimp only
    rw [wp_bind]
    refine wp_getFile hF ?_
    rw [wp_bind]
    refine wp_removeFd E.object ?_
    rw [wp_bind]
    refine wp_assert rfl ((wp_pure _).mpr ⟨rfl, loc, ?_, kept_refl⟩)
    rw [← hfd]
    exact R.closed E hx hF

/-- A new descriptor for what lies at `l`. -/
theorem wp_openAt (R : Represents s loc a) (E : Object s loc a l d D i I) (htype : I.i_type_ = .I_FILE) (hnum : s.fd_num_ < 2 ^ 31) :
    wp Never (do
      let fd ← Superblock.createFd i flag
      return (⟨fd.toInt, []⟩ : Reply)) (Simulated loc (a.openAt l flag)) s := by
  rw [wp_bind]
  refine wp_createFd E.object ((wp_pure _).mpr ⟨?_, loc, R.opened E htype hnum, kept_refl⟩)
  have hint : (BitVec.ofNat 32 s.fd_num_).toInt = a.fd_num := by
    rw [R.descriptors.fd_num, BitVec.toInt_eq_toNat_of_lt]
    · rw [BitVec.toNat_ofNat, Nat.mod_eq_of_lt (by omega)]
    · rw [BitVec.toNat_ofNat, Nat.mod_eq_of_lt (by omega)]
      omega
  rw [hint]
  rfl

theorem wp_openFile (R : Represents s loc a) (hnum : a.fd_num < 2 ^ 31) (hfree : a.Free thread (Namespace.prefixed pathname)) :
    wp Never (VfsSyscall.openFile thread pathname flag) (Simulated loc (a.openFile thread pathname flag)) s := by
  rw [VfsSyscall.openFile, Namespace.openFile]
  by_cases hrefused : Refused flag
  · rw [if_pos hrefused, if_pos hrefused]
    exact (wp_pure _).mpr (simulated_failed R)
  rw [if_neg hrefused, if_neg hrefused, wp_bind]
  rw [R.descriptors.fd_num] at hnum
  refine wp_dupChecking R (fun hwalk => ?_) fun d l hwalk hl => ?_
  · rw [hwalk]
    dsimp only
    by_cases hcreat : flag &&& O_CREAT ≠ 0
    · rw [if_pos hcreat, if_pos hcreat, wp_bind]
      refine wp_create .I_FILE R (Namespace.mem_prefixed pathname) hfree hwalk (fun hcreate => ?_)
        fun l d D i I s' loc' a' hcreate _ R' hkept E htype hfd => ?_
      · rw [show a.create thread (Namespace.prefixed pathname) (.file fun _ => 0) = none from hcreate]
        exact (wp_pure _).mpr (simulated_failed R)
      · rw [show a.create thread (Namespace.prefixed pathname) (.file fun _ => 0) = some (l, a') from hcreate]
        exact wp_mono (wp_openAt R' E htype (by rw [hfd]; exact hnum)) fun _ _ h => h.trans hkept rfl
    · rw [if_neg hcreat, if_neg hcreat]
      exact (wp_pure _).mpr (simulated_failed R)
  · obtain ⟨D, i, I, E⟩ := R.object hl
    rw [hwalk]
    dsimp only
    rw [wp_bind]
    refine wp_inodeOf E ?_
    rw [wp_bind]
    refine wp_getInode E.object ?_
    rw [E.node]
    cases hnode : I.node with
    | dir =>
      rw [if_pos]
      · exact (wp_pure _).mpr (simulated_failed R)
      · rw [(R.inodes.dir_iff E.object).mpr hnode]
        decide
    | file data =>
      have htype := R.inodes.file_of_node E.object hnode
      rw [if_neg (not_not.mpr htype)]
      exact wp_openAt R E htype hnum

/-! ### Data -/

theorem flag_or {flag y z : BitVec 32} (h : flag &&& (y ||| z) ≠ 0) : flag &&& y ≠ 0 ∨ flag &&& z ≠ 0 := by
  by_contra hno
  obtain ⟨hy, hz⟩ := not_or.mp hno
  rw [BitVec.and_or_distrib_left, not_not.mp hy, not_not.mp hz] at h
  exact h (by decide)

theorem part_zero {offset size : ℕ} (h : offset ≥ BASIC_ALLOC) : Namespace.part offset size = 0 := by
  rw [Namespace.part, Nat.sub_eq_zero_of_le h, Nat.min_zero]

theorem wp_readData (N : Inodes s) (hi : s.inode i = some I) {data : ℕ → Byte} (hdata : I.data_ = some data) {offset size : ℕ}
    {Q : List Byte → Fs → Prop} (hQ : Q ((List.range (Namespace.part offset size)).map fun k => data (offset + k)) s) :
    wp Never (RamFSInode.readData i offset size) Q s := by
  rw [RamFSInode.readData, wp_bind]
  refine wp_getInode hi ?_
  rw [(N.data hi).1]
  by_cases hend : offset ≥ BASIC_ALLOC
  · rw [part_zero hend] at hQ
    rw [if_pos hend]
    exact (wp_pure _).mpr hQ
  · rw [if_neg hend, hdata]
    exact (wp_pure _).mpr hQ

theorem stored_zero (data : ℕ → Byte) (offset : ℕ) (buffer : ℕ → Byte) : stored data offset 0 buffer = data := by
  funext k
  rw [stored, if_neg (by omega)]

theorem wp_writeData (N : Inodes s) (hi : s.inode i = some I) {data : ℕ → Byte} (hdata : I.data_ = some data)
    (htype : I.i_type_ = .I_FILE) {offset size : ℕ} {buffer : ℕ → Byte} {Q : ℕ → Fs → Prop}
    (hQ : Q (Namespace.part offset size)
      (s.setInode i (some { I with data_ := some (stored data offset (Namespace.part offset size) buffer) }))) :
    wp Never (RamFSInode.writeData i offset size buffer) Q s := by
  have hsize := (N.data hi).1
  rw [RamFSInode.writeData, wp_bind]
  refine wp_getInode hi ?_
  rw [wp_bind]
  refine wp_assert htype ?_
  by_cases hend : offset ≥ I.i_size_
  · have hsame : s.setInode i (some { I with data_ := some data }) = s := by
      rw [← hdata, Fs.setInode, ← hi, update_eq_self]
    rw [part_zero (hsize ▸ hend), stored_zero, hsame] at hQ
    rw [if_pos hend]
    exact (wp_pure _).mpr hQ
  · have hpart : Namespace.part offset size = min size (I.i_size_ - offset) := by
      rw [hsize, Namespace.part]
    rw [hpart] at hQ
    rw [if_neg hend, hdata]
    dsimp only
    rw [wp_bind]
    exact wp_setInode ((wp_pure _).mpr hQ)

/-- A file moves on. -/
theorem Represents.moved (R : Represents s loc a) (E : Object s loc a l d D F.f_inode_ I) (hx : x ∈ s.s_files_)
    (hF : s.file x.file_ = some F) (hsame : K.f_inode_ = F.f_inode_) (hfile : I.i_type_ = .I_FILE) :
    Represents (s.setFile x.file_ (some K)) loc (a.setFd x.fd_ (some ⟨l, K.flag_, K.offset_⟩)) := by
  obtain ⟨data, hdata⟩ := (R.inodes.file_iff E.object).mp hfile
  have hI : ({ I with data_ := some data } : Inode) = I := by
    rw [← hdata]
  have hnode : I.node = .file data := by
    rw [Inode.node, hdata]
  have hset : a.set l (some (.file data)) = a := by
    rw [← hnode]
    exact E.set_node
  have hinode : s.setInode F.f_inode_ (some I) = s := by
    rw [Fs.setInode, ← E.object, update_eq_self]
  have hchanged : Represents (s.changed F.f_inode_ { I with data_ := some data } x.file_ K) loc
    ((a.set l (some (.file data))).setFd x.fd_ (some ⟨l, K.flag_, K.offset_⟩)) := R.changed E hx hF hsame hfile
  rw [hI, hset, Fs.changed, hinode] at hchanged
  exact hchanged

theorem wp_read (R : Represents s loc a) : wp Never (VfsSyscall.read fd count) (Simulated loc (a.read fd count)) s := by
  rw [VfsSyscall.read, wp_bind]
  refine wp_descriptor R (fun hnone => ?_) fun x F l d D I data hx hfd hF E htype hdata hopen => ?_
  · rw [Namespace.read, hnone]
    exact (wp_pure _).mpr (simulated_failed R)
  rw [Namespace.read, hopen]
  dsimp only
  by_cases hcount : count = 0
  · rw [if_pos hcount, if_pos hcount]
    exact (wp_pure _).mpr ⟨rfl, loc, R, kept_refl⟩
  rw [if_neg hcount, if_neg hcount, wp_bind]
  refine wp_getFile hF ?_
  by_cases hflag : F.flag_ &&& (O_RDONLY ||| O_RDWR) = 0
  · rw [if_pos hflag, if_pos hflag]
    exact (wp_pure _).mpr (simulated_failed R)
  have hzero : F.offset_ + 0 = F.offset_ := BitVec.add_zero _
  have hnode : a.node l = some (.file data) := by
    rw [E.node, Inode.node, hdata]
  rw [if_neg hflag, if_neg hflag, hnode, File.read, wp_bind]
  refine wp_getFile hF ?_
  rw [if_pos ⟨flag_or hflag, by decide⟩, wp_bind, hzero]
  refine wp_readData R.inodes E.object hdata ?_
  rw [wp_bind]
  refine wp_setFile ((wp_pure _).mpr ⟨?_, loc, ?_, kept_refl⟩)
  · rw [List.length_map, List.length_range]
  · rw [List.length_map, List.length_range]
    dsimp only
    rw [Namespace.moveBy, ← hfd]
    exact R.moved (K := { F with offset_ := _ }) E hx hF rfl htype

theorem wp_write (R : Represents s loc a) {buffer : ℕ → Byte} :
    wp Never (VfsSyscall.write fd buffer count) (Simulated loc (a.write fd buffer count)) s := by
  rw [VfsSyscall.write, wp_bind]
  refine wp_descriptor R (fun hnone => ?_) fun x F l d D I data hx hfd hF E htype hdata hopen => ?_
  · rw [Namespace.write, hnone]
    exact (wp_pure _).mpr (simulated_failed R)
  rw [Namespace.write, hopen]
  dsimp only
  by_cases hcount : count = 0
  · rw [if_pos hcount, if_pos hcount]
    exact (wp_pure _).mpr ⟨rfl, loc, R, kept_refl⟩
  rw [if_neg hcount, if_neg hcount, wp_bind]
  refine wp_getFile hF ?_
  by_cases hflag : F.flag_ &&& (O_WRONLY ||| O_RDWR) = 0
  · rw [if_pos hflag, if_pos hflag]
    exact (wp_pure _).mpr (simulated_failed R)
  have hzero : F.offset_ + 0 = F.offset_ := BitVec.add_zero _
  have hnode : a.node l = some (.file data) := by
    rw [E.node, Inode.node, hdata]
  rw [if_neg hflag, if_neg hflag, hnode, File.write, wp_bind]
  refine wp_getFile hF ?_
  rw [if_pos ⟨flag_or hflag, by decide⟩, wp_bind, hzero]
  refine wp_writeData R.inodes E.object hdata htype ?_
  rw [wp_bind]
  refine wp_setFile ((wp_pure _).mpr ⟨rfl, loc, ?_, kept_refl⟩)
  dsimp only
  rw [Namespace.moveBy, ← hfd]
  have hchanged : ∀ data' o, Represents (s.changed F.f_inode_ { I with data_ := some data' } x.file_ { F with offset_ := o }) loc
      ((a.set l (some (.file data'))).setFd x.fd_ (some ⟨l, F.flag_, o⟩)) :=
    fun data' o => R.changed (K := { F with offset_ := o }) E hx hF rfl htype
  exact hchanged _ _

theorem wp_lseek (R : Represents s loc a) {offset : BitVec 64} {origin : BitVec 8} :
    wp Never (VfsSyscall.lseek fd offset origin) (Simulated loc (a.lseek fd offset origin)) s := by
  rw [VfsSyscall.lseek, wp_bind]
  refine wp_descriptor R (fun hnone => ?_) fun x F l d D I data hx hfd hF E htype hdata hopen => ?_
  · rw [Namespace.lseek, hnone]
    exact (wp_pure _).mpr ⟨rfl, loc, R, kept_refl⟩
  rw [Namespace.lseek, hopen]
  have hmove : ∀ o : BitVec 64, Simulated loc (⟨o.toNat, []⟩, a.setFd fd.toNat (some ⟨l, F.flag_, o⟩)) ⟨o.toNat, []⟩
      (s.setFile x.file_ (some { F with offset_ := o })) := by
    intro o
    rw [← hfd]
    exact ⟨rfl, loc, R.moved (K := { F with offset_ := o }) E hx hF rfl htype, kept_refl⟩
  dsimp only
  rw [File.lseek, wp_bind]
  refine wp_getFile hF ?_
  rw [wp_bind, File.target]
  by_cases hset : origin = SEEK_SET
  · rw [if_pos hset, if_pos hset]
    refine (wp_pure _).mpr ?_
    dsimp only
    rw [wp_bind]
    exact wp_setFile ((wp_pure _).mpr (hmove _))
  rw [if_neg hset, if_neg hset]
  by_cases hcur : origin = SEEK_CUR
  · rw [if_pos hcur, if_pos hcur]
    refine (wp_pure _).mpr ?_
    dsimp only
    rw [wp_bind]
    exact wp_setFile ((wp_pure _).mpr (hmove _))
  rw [if_neg hcur, if_neg hcur]
  by_cases hend : origin = SEEK_END
  · rw [if_pos hend, if_pos hend, wp_bind]
    refine wp_getInode E.object ?_
    rw [wp_pure, (R.inodes.data E.object).1]
    dsimp only
    rw [wp_bind]
    exact wp_setFile ((wp_pure _).mpr (hmove _))
  · rw [if_neg hend, if_neg hend]
    refine (wp_pure _).mpr ?_
    exact (wp_pure _).mpr ⟨rfl, loc, R, kept_refl⟩

/-! ### Steps -/

/-- What the code leaves to its callers: a directory in which a thread is, and the root, are not removed, a name is not made twice, and
the numbers of descriptors do not run out. -/
def Namespace.Allowed (a : Namespace) : Op → Prop
  | .mkdir thread pathname => a.Free thread (prefixed pathname)
  | .rmdir thread pathname => ∀ l, a.walk thread (prefixed pathname) = some l → a.Inhabited l ∨ l ≠ [] ∧ ∀ t, a.pwd t ≠ l
  | .open thread pathname _ => a.fd_num < 2 ^ 31 ∧ a.Free thread (prefixed pathname)
  | _ => True

theorem wp_step (R : Represents s loc a) (op : Op) (h : a.Allowed op) : wp Never (step op) (Simulated loc (a.step op)) s := by
  cases op with
  | mkdir thread pathname => exact wp_mkdir R h
  | chdir thread pathname => exact wp_chdir R
  | rm thread pathname => exact wp_rm R
  | rmdir thread pathname => exact wp_rmdir R h
  | «open» thread pathname flag => exact wp_openFile R h.1 h.2
  | close fd => exact wp_close R
  | read fd count => exact wp_read R
  | write fd buffer count => exact wp_write R
  | lseek fd offset origin => exact wp_lseek R

end KPanic.DeviceFS

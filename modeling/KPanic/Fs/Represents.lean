import KPanic.Fs.OpenFiles

/-!
# A state represents a namespace

What every operation leaves represents the namespace after the operation.
-/

namespace KPanic.DeviceFS

open Function

variable {s s' : Fs} {loc : Loc} {a : Namespace} {c d p i : ℕ} {l : Location} {n : Name} {D P : Dentry} {I M : Inode} {F K : File}
  {x : FileDescriptor} {type : InodeType} {flag : BitVec 32}

structure Represents (s : Fs) (loc : Loc) (a : Namespace) : Prop where
  tree : Tree s loc
  inodes : Inodes s
  named : Named s loc a
  files : Files s
  descriptors : Descriptors s loc a
  fresh : Fresh s
  numbers : s.fd_num_ ≤ 2 ^ 31
  rootDir : a.node [] = some .dir
  pwdDir : ∀ thread, a.node (a.pwd thread) = some .dir

/-! ### Descriptors -/

namespace Descriptors

theorem created {node : Option Node} (A : Descriptors s loc a) (hnone : loc s.brk = none) (hfresh : Fresh s) :
    Descriptors (s.created p P n type) (update loc s.brk (some (l ++ [n]))) (a.set (l ++ [n]) node) := by
  refine ⟨A.fd_num, fun {x F} hx hF => ?_, A.only⟩
  obtain ⟨I, d, l', hI, hdentry, hd, hfd⟩ := A.fd hx hF
  refine ⟨I, d, l', created_inode_old hfresh hI, hdentry, (update_of_ne ?_ _ _).trans hd, hfd⟩
  rintro rfl
  rw [hnone] at hd
  cases hd

theorem removed {node : Option Node} (A : Descriptors s loc a) (N : Inodes s) (O : Files s) (hd : s.dentry d = some D)
    (hi : D.d_inode_ = some i) (hI : s.inode i = some I) (hnil : I.i_files_ = []) :
    Descriptors (s.removed p P d i) (update loc d none) (a.set l node) := by
  refine ⟨A.fd_num, fun {x F} hx hF => ?_, A.only⟩
  have hother := O.other hI hnil hF
  obtain ⟨J, d', l', hJ, hdentry, hd', hfd⟩ := A.fd hx hF
  refine ⟨J, d', l', (update_of_ne hother _ _).trans hJ, hdentry, (update_of_ne ?_ _ _).trans hd', hfd⟩
  rintro rfl
  obtain ⟨c, C, hc, hC, hCi⟩ := N.dentry hJ
  obtain rfl := Option.some.inj (hc.symm.trans hdentry)
  rw [hd] at hC
  cases hC
  exact hother (Option.some.inj (hCi.symm.trans hi))

theorem opened (A : Descriptors s loc a) (O : Files s) (hfresh : Fresh s) (hi : s.inode i = some I) (hdentry : I.i_dentry_ = some d)
    (hd : loc d = some l) : Descriptors (s.opened i I flag) loc (a.openAt l flag).2 := by
  refine ⟨congrArg (· + 1) A.fd_num, fun {x F} hx hF => ?_, fun {m} hm => ?_⟩
  · have hF' : update s.file s.brk (some ⟨i, flag, 0⟩) x.file_ = some F := hF
    show ∃ J d' l', update s.inode i _ F.f_inode_ = some J ∧ _ ∧ _ ∧ update a.fd a.fd_num _ x.fd_ = _
    obtain hx | hx := List.mem_append.mp hx
    · have hbrk : x.file_ ≠ s.brk := by
        intro heq
        exact O.live.mpr ⟨x, hx, heq⟩ (hfresh _ (Nat.le_refl _)).2.2
      have hnum : x.fd_ ≠ a.fd_num := by
        rw [A.fd_num]
        exact Nat.ne_of_lt (O.number hx)
      rw [update_of_ne hbrk] at hF'
      obtain ⟨J, d', l', hJ, hdentry', hd', hfd⟩ := A.fd hx hF'
      rw [update_of_ne hnum]
      by_cases hji : F.f_inode_ = i
      · rw [hji, hi] at hJ
        cases hJ
        rw [hji, update_self]
        exact ⟨_, d', l', rfl, hdentry', hd', hfd⟩
      · exact ⟨J, d', l', (update_of_ne hji _ _).trans hJ, hdentry', hd', hfd⟩
    · obtain rfl := List.mem_singleton.mp hx
      rw [update_self] at hF'
      cases hF'
      rw [update_self, A.fd_num, update_self]
      exact ⟨_, d, l, rfl, hdentry, hd, rfl⟩
  · have hm' : update a.fd a.fd_num (some ⟨l, flag, 0⟩) m ≠ none := hm
    show ∃ x ∈ s.s_files_ ++ [⟨s.fd_num_, s.brk⟩], _
    by_cases hnum : m = a.fd_num
    · exact ⟨_, List.mem_append_right _ (List.mem_singleton_self _), (hnum.trans A.fd_num).symm⟩
    · rw [update_of_ne hnum] at hm'
      obtain ⟨x, hx, hxm⟩ := A.only hm'
      exact ⟨x, List.mem_append_left _ hx, hxm⟩

theorem closed (A : Descriptors s loc a) (O : Files s) (hx : x ∈ s.s_files_) (hF : s.file x.file_ = some F)
    (hi : s.inode F.f_inode_ = some I) : Descriptors (s.closed x F.f_inode_ I) loc (a.setFd x.fd_ none) := by
  refine ⟨A.fd_num, fun {y G} hy hG => ?_, fun {m} hm => ?_⟩
  · have hy' : y ∈ s.s_files_.filter (· ≠ x) := hy
    rw [List.mem_filter] at hy'
    have hne : y ≠ x := of_decide_eq_true hy'.2
    have hG' : update s.file x.file_ none y.file_ = some G := hG
    rw [update_of_ne fun h => hne (O.inj hy'.1 hx (.inr h))] at hG'
    obtain ⟨J, d, l, hJ, hdentry, hd, hfd⟩ := A.fd hy'.1 hG'
    show ∃ J d l, update s.inode F.f_inode_ _ G.f_inode_ = some J ∧ _ ∧ _ ∧ update a.fd x.fd_ none y.fd_ = _
    rw [update_of_ne fun h => hne (O.inj hy'.1 hx (.inl h))]
    by_cases hji : G.f_inode_ = F.f_inode_
    · rw [hji, hi] at hJ
      cases hJ
      rw [hji, update_self]
      exact ⟨_, d, l, rfl, hdentry, hd, hfd⟩
    · exact ⟨J, d, l, (update_of_ne hji _ _).trans hJ, hdentry, hd, hfd⟩
  · have hm' : update a.fd x.fd_ none m ≠ none := hm
    have hmx : m ≠ x.fd_ := by
      rintro rfl
      rw [update_self] at hm'
      exact hm' rfl
    rw [update_of_ne hmx] at hm'
    obtain ⟨y, hy, rfl⟩ := A.only hm'
    refine ⟨y, List.mem_filter.mpr ⟨hy, decide_eq_true ?_⟩, rfl⟩
    rintro rfl
    exact hmx rfl

theorem changed {node : Option Node} (A : Descriptors s loc a) (O : Files s) (hx : x ∈ s.s_files_)
    (hsame : K.f_inode_ = F.f_inode_) (hi : s.inode F.f_inode_ = some I) (hdentry : I.i_dentry_ = some d)
    (hdentry' : M.i_dentry_ = some d) (hd : loc d = some l) :
    Descriptors (s.changed F.f_inode_ M x.file_ K) loc ((a.set l node).setFd x.fd_ (some ⟨l, K.flag_, K.offset_⟩)) := by
  refine ⟨A.fd_num, fun {y G} hy hG => ?_, fun {m} hm => ?_⟩
  · have hG' : update s.file x.file_ (some K) y.file_ = some G := hG
    show ∃ J d' l', update s.inode F.f_inode_ (some M) G.f_inode_ = some J ∧ _ ∧ _ ∧ update a.fd x.fd_ _ y.fd_ = _
    by_cases hyx : y = x
    · rw [hyx, update_self] at hG'
      cases hG'
      rw [hyx, hsame, update_self, update_self]
      exact ⟨M, d, l, rfl, hdentry', hd, rfl⟩
    · rw [update_of_ne fun h => hyx (O.inj hy hx (.inr h))] at hG'
      rw [update_of_ne fun h => hyx (O.inj hy hx (.inl h))]
      obtain ⟨J, c, l', hJ, hc, hl', hfd⟩ := A.fd hy hG'
      by_cases hji : G.f_inode_ = F.f_inode_
      · rw [hji, hi] at hJ
        cases hJ
        rw [hji, update_self]
        obtain rfl := Option.some.inj (hc.symm.trans hdentry)
        exact ⟨M, c, l', rfl, hdentry', hl', hfd⟩
      · exact ⟨J, c, l', (update_of_ne hji _ _).trans hJ, hc, hl', hfd⟩
  · have hm' : update a.fd x.fd_ (some ⟨l, K.flag_, K.offset_⟩) m ≠ none := hm
    by_cases hmx : m = x.fd_
    · exact ⟨x, hx, hmx.symm⟩
    · rw [update_of_ne hmx] at hm'
      exact A.only hm'

end Descriptors

/-! ### What other changes keep -/

theorem Tree.congr (T : Tree s loc) (hd : s'.dentry = s.dentry) (hroot : s'.s_root_ = s.s_root_) : Tree s' loc where
  live := by rw [hd]; exact T.live
  root := by rw [hroot]; exact T.root
  inj := T.inj
  child := by rw [hd]; exact T.child
  parent := by rw [hd]; exact T.parent
  top := by rw [hd, hroot]; exact T.top

theorem Inodes.congr (N : Inodes s) (hd : s'.dentry = s.dentry) (hi : s'.inode = s.inode) (hall : s'.all_inodes_ = s.all_inodes_) :
    Inodes s' where
  inode := by rw [hd, hi]; exact N.inode
  dentry := by rw [hd, hi]; exact N.dentry
  dir := by rw [hd, hi]; exact N.dir
  data := by rw [hi]; exact N.data
  all := by rw [hi, hall]; exact N.all
  nodup := by rw [hall]; exact N.nodup

/-- An inode may change in its data and its open files. -/
theorem Inodes.changed (N : Inodes s) (hd : s'.dentry = s.dentry) (hall : s'.all_inodes_ = s.all_inodes_)
    (hI : s.inode i = some I) (hi : s'.inode = update s.inode i (some M)) (htype : M.i_type_ = I.i_type_)
    (hsize : M.i_size_ = I.i_size_) (hdata : M.data_ ≠ none ↔ I.data_ ≠ none) (hdentry : M.i_dentry_ = I.i_dentry_) :
    Inodes s' := by
  have hold : ∀ {j J'}, s'.inode j = some J' → ∃ J, s.inode j = some J ∧ J'.i_type_ = J.i_type_ ∧ J'.i_size_ = J.i_size_ ∧
      (J'.data_ ≠ none ↔ J.data_ ≠ none) ∧ J'.i_dentry_ = J.i_dentry_ := by
    intro j J' hJ'
    rw [hi] at hJ'
    by_cases hji : j = i
    · rw [hji, update_self] at hJ'
      cases hJ'
      exact ⟨I, hji ▸ hI, htype, hsize, hdata, hdentry⟩
    · rw [update_of_ne hji] at hJ'
      exact ⟨J', hJ', rfl, rfl, Iff.rfl, rfl⟩
  have hkept : ∀ {j J}, s.inode j = some J → ∃ J', s'.inode j = some J' ∧ J'.i_dentry_ = J.i_dentry_ := by
    intro j J hJ
    rw [hi]
    by_cases hji : j = i
    · rw [hji, hI] at hJ
      cases hJ
      rw [hji]
      exact ⟨M, update_self _ _ _, hdentry⟩
    · exact ⟨J, (update_of_ne hji _ _).trans hJ, rfl⟩
  refine ⟨fun {d D} h => ?_, fun {j J} hj => ?_, fun {d D j J} h hDj hj hchild => ?_, fun {j J} hj => ?_, fun {j} => ?_, ?_⟩
  · rw [hd] at h
    obtain ⟨j, J, hj, hJ, hJd⟩ := N.inode h
    obtain ⟨J', hJ', hdentry'⟩ := hkept hJ
    exact ⟨j, J', hj, hJ', hdentry'.trans hJd⟩
  · obtain ⟨J₀, hJ, -, -, -, hdentry'⟩ := hold hj
    obtain ⟨d, D, hJd, hD, hDj⟩ := N.dentry hJ
    rw [hd]
    exact ⟨d, D, hdentry'.trans hJd, hD, hDj⟩
  · rw [hd] at h
    obtain ⟨J₀, hJ, htype', -⟩ := hold hj
    exact htype'.trans (N.dir h hDj hJ hchild)
  · obtain ⟨J₀, hJ, htype', hsize', hdata', -⟩ := hold hj
    obtain ⟨hs, hfile⟩ := N.data hJ
    exact ⟨hsize'.trans hs, by rw [htype', hfile]; exact hdata'.symm⟩
  · rw [hall, N.all, hi]
    by_cases hji : j = i
    · rw [hji, update_self, hI]
      exact iff_of_true (Option.some_ne_none _) (Option.some_ne_none _)
    · rw [update_of_ne hji]
  · rw [hall]
    exact N.nodup

theorem Named.changed (A : Named s loc a) (T : Tree s loc) (N : Inodes s) (hd : s'.dentry = s.dentry) (hpwd : s'.pwd_ = s.pwd_)
    (hI : s.inode i = some I) (hi : s'.inode = update s.inode i (some M)) (hdentry : I.i_dentry_ = some d) (hl : loc d = some l) :
    Named s' loc (a.set l (some M.node)) := by
  obtain ⟨d', D, hd', hD, hDi⟩ := N.dentry hI
  obtain rfl := Option.some.inj (hd'.symm.trans hdentry)
  refine ⟨fun {c l'} hc => ?_, fun {l'} h => ?_, fun thread => ?_⟩
  · by_cases hcd : c = d'
    · rw [hcd, hl] at hc
      cases hc
      rw [hcd, Fs.node, hd, hD, Option.bind_eq_bind, Option.bind_some, hDi, Option.bind_eq_bind, Option.bind_some, hi, update_self]
      exact update_self _ _ _
    · have hsame : s'.node c = s.node c := by
        refine Fs.node_congr (by rw [hd]) fun j hj => ?_
        rw [hi]
        refine update_of_ne ?_ _ _
        rintro rfl
        obtain ⟨C, hC⟩ := T.dentry hc
        rw [hC, Option.bind_some] at hj
        exact hcd (N.inj hC hD hj hDi)
      rw [hsame, ← A.node hc]
      refine update_of_ne ?_ _ _
      rintro rfl
      exact hcd (T.inj hc hl)
  · by_cases hll : l' = l
    · exact ⟨d', hll ▸ hl⟩
    · rw [show (a.set l (some M.node)).node l' = a.node l' from update_of_ne hll _ _] at h
      exact A.only h
  · rw [hpwd]
    exact A.pwd thread

/-! ### Represented states -/

theorem Fresh.lt (hfresh : Fresh s) (hd : s.dentry d = some D) : d < s.brk := by
  by_contra hle
  rw [(hfresh d (Nat.le_of_not_lt hle)).1] at hd
  cases hd

namespace Inodes

theorem dir_iff (N : Inodes s) (hi : s.inode i = some I) : I.i_type_ = .I_DIR ↔ I.node = .dir := by
  obtain ⟨-, hdata⟩ := N.data hi
  unfold Inode.node
  cases hd : I.data_ with
  | none =>
    rw [hd] at hdata
    refine iff_of_true ?_ rfl
    cases ht : I.i_type_ with
    | I_FILE => exact absurd rfl (hdata.mp ht)
    | I_DIR => rfl
  | some data =>
    rw [hd] at hdata
    rw [hdata.mpr (Option.some_ne_none _)]
    exact iff_of_false nofun nofun

theorem file_of_node (N : Inodes s) (hi : s.inode i = some I) {data : ℕ → Byte} (h : I.node = .file data) : I.i_type_ = .I_FILE := by
  cases ht : I.i_type_ with
  | I_FILE => rfl
  | I_DIR =>
    rw [(N.dir_iff hi).mp ht] at h
    cases h

theorem file_iff (N : Inodes s) (hi : s.inode i = some I) : I.i_type_ = .I_FILE ↔ ∃ data, I.data_ = some data := by
  rw [(N.data hi).2, Option.ne_none_iff_exists']

end Inodes

/-- What lies at a location. -/
structure Object (s : Fs) (loc : Loc) (a : Namespace) (l : Location) (d : ℕ) (D : Dentry) (i : ℕ) (I : Inode) : Prop where
  location : loc d = some l
  dentry : s.dentry d = some D
  inode : D.d_inode_ = some i
  object : s.inode i = some I
  back : I.i_dentry_ = some d
  node : a.node l = some I.node

/-- A change that the namespace does not see. -/
theorem Object.set_node (E : Object s loc a l d D i I) : a.set l (some I.node) = a := by
  unfold Namespace.set
  rw [← E.node, update_eq_self]

namespace Represents

theorem object (R : Represents s loc a) (hd : loc d = some l) : ∃ D i I, Object s loc a l d D i I := by
  obtain ⟨D, hD⟩ := R.tree.dentry hd
  obtain ⟨i, I, hi, hI, hdentry, hnode⟩ := R.inodes.node hD
  exact ⟨D, i, I, hd, hD, hi, hI, hdentry, (R.named.node hd).trans hnode⟩

theorem created (R : Represents s loc a) (E : Object s loc a l p P i I) (hdir : I.i_type_ = .I_DIR)
    (habsent : a.node (l ++ [n]) = none) :
    Represents (s.created p P n type) (update loc s.brk (some (l ++ [n]))) (a.set (l ++ [n]) (some type.node)) := by
  have hnew : loc s.brk = none := R.tree.live.mpr (R.fresh _ (Nat.le_refl _)).1
  have hfree : ∀ c, loc c ≠ some (l ++ [n]) := by
    intro c hc
    exact (node_iff R.tree R.inodes R.named).mpr ⟨c, hc⟩ habsent
  have hP : ∀ j J, P.d_inode_ = some j → s.inode j = some J → J.i_type_ = .I_DIR := by
    intro j J hj hJ
    obtain rfl := Option.some.inj (hj.symm.trans E.inode)
    rw [E.object] at hJ
    cases hJ
    exact hdir
  refine ⟨R.tree.created E.dentry E.location R.fresh hfree, R.inodes.created R.fresh E.dentry hP,
    R.named.created R.tree R.inodes E.dentry E.location R.fresh hfree, R.files.created R.fresh, R.descriptors.created hnew R.fresh,
    fun y hy => ?_, R.numbers, ?_, fun thread => (update_of_ne ?_ _ _).trans (R.pwdDir thread)⟩
  · have hpy := R.fresh.lt E.dentry
    have hy' : s.brk + 2 ≤ y := hy
    obtain ⟨hdentry, hinode, hfile⟩ := R.fresh y (by omega)
    exact ⟨(update_of_ne (by omega) _ _).trans ((update_of_ne (by omega) _ _).trans hdentry),
      (update_of_ne (by omega) _ _).trans hinode, hfile⟩
  · exact (update_of_ne (List.append_ne_nil_of_right_ne_nil _ (List.cons_ne_nil _ _)).symm _ _).trans R.rootDir
  · intro hpwd
    have hdir' := R.pwdDir thread
    rw [show a.pwd thread = l ++ [n] from hpwd, habsent] at hdir'
    cases hdir'

theorem removed (R : Represents s loc a) (E : Object s loc a (l ++ [n]) d D i I) (hp : s.dentry p = some P) (hl : loc p = some l)
    (hchild : D.d_child_ = []) (hnil : I.i_files_ = []) (hpwd : ∀ thread, a.pwd thread ≠ l ++ [n]) :
    Represents (s.removed p P d i) (update loc d none) (a.set (l ++ [n]) none) := by
  have hleaf : ∀ c n', loc c ≠ some (l ++ [n] ++ [n']) := by
    intro c n' hc
    have hmem := R.tree.mem_child E.dentry E.location hc
    rw [hchild] at hmem
    exact List.not_mem_nil hmem
  have hpd : p ≠ d := by
    rintro rfl
    exact absurd (congrArg List.length (Option.some.inj (hl.symm.trans E.location))) (by simp)
  refine ⟨R.tree.removed hp hl E.location hleaf, R.inodes.removed hp hpd E.dentry E.inode,
    R.named.removed R.tree R.inodes hp E.dentry E.inode E.location hpwd, R.files.removed E.object hnil,
    R.descriptors.removed R.inodes R.files E.dentry E.inode E.object hnil, fun y hy => ?_, R.numbers, ?_,
    fun thread => (update_of_ne (hpwd thread) _ _).trans (R.pwdDir thread)⟩
  · obtain ⟨hdentry, hinode, hfile⟩ := R.fresh y hy
    have hpy := R.fresh.lt hp
    have hdy := R.fresh.lt E.dentry
    have hy' : s.brk ≤ y := hy
    refine ⟨(update_of_ne (by omega) _ _).trans ((update_of_ne (by omega) _ _).trans hdentry), ?_, hfile⟩
    show update s.inode i none y = none
    by_cases hyi : y = i
    · rw [hyi, update_self]
    · rw [update_of_ne hyi, hinode]
  · exact (update_of_ne (List.append_ne_nil_of_right_ne_nil _ (List.cons_ne_nil _ _)).symm _ _).trans R.rootDir

theorem opened (R : Represents s loc a) (E : Object s loc a l d D i I) (htype : I.i_type_ = .I_FILE) (hnum : s.fd_num_ < 2 ^ 31) :
    Represents (s.opened i I flag) loc (a.openAt l flag).2 := by
  have hnamed : Named (s.opened i I flag) loc (a.set l (some I.node)) :=
    Named.changed (M := { I with i_files_ := I.i_files_ ++ [s.brk] }) R.named R.tree R.inodes rfl rfl E.object rfl E.back E.location
  rw [E.set_node] at hnamed
  refine ⟨R.tree.congr rfl rfl, R.inodes.changed rfl rfl E.object rfl rfl rfl Iff.rfl rfl,
    ⟨hnamed.node, hnamed.only, hnamed.pwd⟩, R.files.opened R.fresh E.object htype,
    R.descriptors.opened R.files R.fresh E.object E.back E.location, fun y hy => ?_, hnum, R.rootDir, R.pwdDir⟩
  have hy' : s.brk + 1 ≤ y := hy
  obtain ⟨hdentry, hinode, hfile⟩ := R.fresh y (by omega)
  refine ⟨hdentry, ?_, (update_of_ne (by omega) _ _).trans hfile⟩
  refine (update_of_ne ?_ _ _).trans hinode
  rintro rfl
  rw [E.object] at hinode
  cases hinode

theorem closed (R : Represents s loc a) (E : Object s loc a l d D F.f_inode_ I) (hx : x ∈ s.s_files_)
    (hF : s.file x.file_ = some F) : Represents (s.closed x F.f_inode_ I) loc (a.setFd x.fd_ none) := by
  have hnamed : Named (s.closed x F.f_inode_ I) loc (a.set l (some I.node)) :=
    Named.changed (M := { I with i_files_ := I.i_files_.filter (· ≠ x.file_) }) R.named R.tree R.inodes rfl rfl E.object rfl
      E.back E.location
  rw [E.set_node] at hnamed
  refine ⟨R.tree.congr rfl rfl, R.inodes.changed rfl rfl E.object rfl rfl rfl Iff.rfl rfl,
    ⟨hnamed.node, hnamed.only, hnamed.pwd⟩, R.files.closed hx hF E.object, R.descriptors.closed R.files hx hF E.object,
    fun y hy => ?_, R.numbers, R.rootDir, R.pwdDir⟩
  obtain ⟨hdentry, hinode, hfile⟩ := R.fresh y hy
  refine ⟨hdentry, (update_of_ne ?_ _ _).trans hinode, ?_⟩
  · rintro rfl
    rw [E.object] at hinode
    cases hinode
  · show update s.file x.file_ none y = none
    by_cases hyx : y = x.file_
    · rw [hyx, update_self]
    · rw [update_of_ne hyx, hfile]

theorem changed (R : Represents s loc a) (E : Object s loc a l d D F.f_inode_ I) (hx : x ∈ s.s_files_)
    (hF : s.file x.file_ = some F) (hsame : K.f_inode_ = F.f_inode_) {data : ℕ → Byte} (hfile : I.i_type_ = .I_FILE) :
    Represents (s.changed F.f_inode_ { I with data_ := some data } x.file_ K) loc
      ((a.set l (some (.file data))).setFd x.fd_ (some ⟨l, K.flag_, K.offset_⟩)) := by
  have hnamed : Named (s.changed F.f_inode_ { I with data_ := some data } x.file_ K) loc (a.set l (some (.file data))) :=
    Named.changed (M := { I with data_ := some data }) R.named R.tree R.inodes rfl rfl E.object rfl E.back E.location
  have hne : ∀ l', a.node l' = some .dir → l' ≠ l := by
    rintro l' hdir rfl
    rw [(R.inodes.dir_iff E.object).mpr (Option.some.inj (E.node.symm.trans hdir))] at hfile
    cases hfile
  have hdata : some data ≠ none ↔ I.data_ ≠ none :=
    iff_of_true (Option.some_ne_none _) ((R.inodes.data E.object).2.mp hfile)
  refine ⟨R.tree.congr rfl rfl, R.inodes.changed rfl rfl E.object rfl rfl rfl hdata rfl,
    ⟨hnamed.node, hnamed.only, hnamed.pwd⟩, R.files.changed hF hsame E.object rfl rfl,
    R.descriptors.changed R.files hx hsame E.object E.back E.back E.location, fun y hy => ?_, R.numbers,
    (update_of_ne (hne _ R.rootDir) _ _).trans R.rootDir,
    fun thread => (update_of_ne (hne _ (R.pwdDir thread)) _ _).trans (R.pwdDir thread)⟩
  · obtain ⟨hdentry, hinode, hfile⟩ := R.fresh y hy
    refine ⟨hdentry, (update_of_ne ?_ _ _).trans hinode, (update_of_ne ?_ _ _).trans hfile⟩
    · rintro rfl
      rw [E.object] at hinode
      cases hinode
    · rintro rfl
      rw [hF] at hfile
      cases hfile

end Represents

end KPanic.DeviceFS

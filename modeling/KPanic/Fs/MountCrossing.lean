import KPanic.Fs.VirtualFileSystem

/-!
# Down into an entry and up again

A walk goes over the parts of a path one after the other; what it does with a part depends on the type of
the component before. Below a mount point it does not come back.
-/

namespace KPanic.PathWalker

section Parts

variable {Dentry VfsMount : Type} [DecidableEq Dentry] [DecidableEq VfsMount] {vfs : Vfs Dentry VfsMount}
  {fs_info : FileSystemInfo Dentry VfsMount} {p q : Place Dentry VfsMount} {last_type_ : LastType}
  {ps qs : List (List Char)} {s : List Char}

/-- Behind these types, separators are not skipped. -/
def LastType.Dots (last_type_ : LastType) : Prop := last_type_ = .LAST_DOT ∨ last_type_ = .LAST_DOTDOT

instance (last_type_ : LastType) : Decidable last_type_.Dots := inferInstanceAs (Decidable (_ ∨ _))

/-- The result and the place of a walk over the parts of a path. -/
def run (vfs : Vfs Dentry VfsMount) (fs_info : FileSystemInfo Dentry VfsMount) :
    LastType → Place Dentry VfsMount → List (List Char) → PW × Place Dentry VfsMount
  | _, p, [] => (.PW_SUCCESS, p)
  | last_type_, p, a :: rest =>
    if a = [] then if last_type_.Dots then (.PW_SUCCESS, p) else run vfs fs_info last_type_ p rest
    else
      match typeOf a last_type_ with
      | .LAST_DOT => run vfs fs_info .LAST_DOT p rest
      | .LAST_DOTDOT => run vfs fs_info .LAST_DOTDOT (parent vfs fs_info p) rest
      | .LAST_NORM =>
        match child vfs p a with
        | some q => run vfs fs_info .LAST_NORM q rest
        | none => (.PW_ENOTFOUND, p)
      | .LAST_ROOT => run vfs fs_info .LAST_ROOT p rest

/-- The type of the last component, unless a walk ends before. -/
def typeBehind : LastType → List (List Char) → Option LastType
  | last_type_, [] => some last_type_
  | last_type_, a :: rest =>
    if a = [] then if last_type_.Dots then none else typeBehind last_type_ rest
    else typeBehind (typeOf a last_type_) rest

def Agrees (w : Walk Dentry VfsMount) (r : PW × Place Dentry VfsMount) : Prop := w.result = r.1 ∧ w.place = some r.2

theorem run_nil : run vfs fs_info last_type_ p [[]] = (.PW_SUCCESS, p) := by
  rw [run, if_pos rfl]
  split
  · rfl
  · rfl

theorem run_first {a rest : List Char} (h : FirstPart s a rest) (hne : a ≠ []) :
    run vfs fs_info last_type_ p (parts s) =
      match typeOf a last_type_ with
      | .LAST_DOT => run vfs fs_info .LAST_DOT p (parts rest)
      | .LAST_DOTDOT => run vfs fs_info .LAST_DOTDOT (parent vfs fs_info p) (parts rest)
      | .LAST_NORM =>
        match child vfs p a with
        | some q => run vfs fs_info .LAST_NORM q (parts rest)
        | none => (.PW_ENOTFOUND, p)
      | .LAST_ROOT => run vfs fs_info .LAST_ROOT p (parts rest) := by
  obtain ⟨hs, rfl⟩ | hs := h.parts_eq
  · rw [hs, run, if_neg hne, show parts [] = [[]] from rfl]
    simp only [run_nil]
    rfl
  · rw [hs, run, if_neg hne]

theorem firstPart_nil : FirstPart [] [] [] := ⟨List.not_mem_nil, .inl ⟨rfl, rfl⟩⟩

theorem skip_of_first {a rest : List Char} (h : FirstPart s a rest) (hne : a ≠ []) : skipSeparators s = s := by
  obtain ⟨c, a, rfl⟩ := List.exists_cons_of_ne_nil hne
  have hc : c ≠ SEPARATOR := fun heq => h.1 (heq ▸ List.mem_cons_self)
  obtain ⟨-, ⟨rfl, -⟩ | rfl⟩ := h
  · exact skip_other hc a
  · exact skip_other hc _

/-- A walk that ends or goes on behind skipped separators. -/
theorem agrees_skipped {rest : List Char} {w : Walk Dentry VfsMount} (calls : List (Call Dentry))
    (h : Agrees (walk vfs fs_info (skipSeparators rest) last_type_ p) (run vfs fs_info last_type_ p (parts rest)))
    (hresult : w.result = (walk vfs fs_info (skipSeparators rest) last_type_ p).result)
    (hplace : w.place = (walk vfs fs_info (skipSeparators rest) last_type_ p).place) :
    Agrees (if skipSeparators rest = [] then ⟨calls, .PW_SUCCESS, some p⟩ else w) (run vfs fs_info last_type_ p (parts rest)) := by
  split
  · rename_i hend
    rw [hend, walk_end firstPart_nil] at h
    exact h
  · exact ⟨hresult.trans h.1, hplace.trans h.2⟩

theorem walk_run (vfs : Vfs Dentry VfsMount) (fs_info : FileSystemInfo Dentry VfsMount) (s : List Char) (last_type_ : LastType) (p : Place Dentry VfsMount) :
    Agrees (walk vfs fs_info (if last_type_.Dots then s else skipSeparators s) last_type_ p)
      (run vfs fs_info last_type_ p (parts s)) := by
  induction hlen : s.length using Nat.strongRecOn generalizing s last_type_ p with
  | ind n ih =>
    subst hlen
    obtain ⟨a, rest, hfirst⟩ := firstPart_exists s
    by_cases hnil : a = []
    · subst hnil
      obtain ⟨-, ⟨rfl, -⟩ | rfl⟩ := hfirst
      · rw [show skipSeparators [] = [] from rfl, ite_self, walk_end firstPart_nil, show parts [] = [[]] from rfl, run_nil]
        exact ⟨rfl, rfl⟩
      · rw [List.nil_append, parts_separator, run, if_pos rfl]
        by_cases hdots : last_type_.Dots
        · have hfirst : FirstPart (SEPARATOR :: rest) [] rest := ⟨List.not_mem_nil, .inr rfl⟩
          rw [if_pos hdots, if_pos hdots, walk_end hfirst]
          exact ⟨rfl, rfl⟩
        · have hrest := ih rest.length (by rw [List.nil_append, List.length_cons]; exact Nat.lt_succ_self _) rest last_type_ p rfl
          rw [if_neg hdots] at hrest
          rw [if_neg hdots, if_neg hdots, skip_separator]
          exact hrest
    · rw [skip_of_first hfirst hnil, ite_self, walk_part hfirst hnil, run_first hfirst hnil]
      have hrest := fun last_type_ p => ih rest.length (hfirst.length_lt hnil) rest last_type_ p rfl
      cases typeOf a last_type_ with
      | LAST_DOT => exact hrest .LAST_DOT p
      | LAST_DOTDOT =>
        dsimp only
        unfold parent
        by_cases hroot : fs_info.isRoot p
        · rw [if_pos hroot, if_pos hroot]
          exact hrest .LAST_DOTDOT p
        · rw [if_neg hroot, if_neg hroot]
          exact hrest .LAST_DOTDOT _
      | LAST_NORM =>
        dsimp only
        cases child vfs p a with
        | none => exact ⟨rfl, rfl⟩
        | some q => exact agrees_skipped _ (hrest .LAST_NORM q) rfl rfl
      | LAST_ROOT => exact agrees_skipped _ (hrest .LAST_ROOT p) rfl rfl

def firstType (pathname : List Char) : LastType := if pathname.head? = some CHAR_ROOT then .LAST_ROOT else .LAST_NORM

theorem firstType_dots (s : List Char) : ¬(firstType s).Dots := by
  unfold firstType
  split
  · decide
  · decide

theorem pathWalk_run (vfs : Vfs Dentry VfsMount) (hstart : fs_info.start s = some p) :
    Agrees (pathWalk vfs fs_info s) (run vfs fs_info (firstType s) p (parts s)) := by
  have hwalk := walk_run vfs fs_info s (firstType s) p
  rw [if_neg (firstType_dots s)] at hwalk
  rw [pathWalk, hstart]
  exact agrees_skipped _ hwalk rfl rfl

/-- More parts behind a path whose names are found. -/
theorem run_append (qs : List (List Char)) (hresult : (run vfs fs_info last_type_ p ps).1 = .PW_SUCCESS) :
    run vfs fs_info last_type_ p (ps ++ qs) = (typeBehind last_type_ ps).elim (run vfs fs_info last_type_ p ps) fun behind =>
      run vfs fs_info behind (run vfs fs_info last_type_ p ps).2 qs := by
  induction ps generalizing last_type_ p with
  | nil => rfl
  | cons a rest ih =>
    rw [List.cons_append, run, typeBehind, run]
    rw [run] at hresult
    by_cases hnil : a = []
    · simp only [if_pos hnil] at hresult ⊢
      by_cases hdots : last_type_.Dots
      · simp only [if_pos hdots]
        rfl
      · simp only [if_neg hdots] at hresult ⊢
        exact ih hresult
    · simp only [if_neg hnil] at hresult ⊢
      cases hkind : typeOf a last_type_ with
      | LAST_DOT =>
        rw [hkind] at hresult
        exact ih hresult
      | LAST_DOTDOT =>
        rw [hkind] at hresult
        exact ih hresult
      | LAST_NORM =>
        rw [hkind] at hresult
        dsimp only at hresult ⊢
        cases hchild : child vfs p a with
        | none =>
          rw [hchild] at hresult
          cases hresult
        | some q =>
          rw [hchild] at hresult
          exact ih hresult
      | LAST_ROOT =>
        rw [hkind] at hresult
        exact ih hresult

/-! ### Into an entry and up -/

/-- The path of the parent directory of the entry `d`. -/
def upAgain (pathname d : List Char) : List Char :=
  if pathname = [] then d ++ SEPARATOR :: dotdot else pathname ++ SEPARATOR :: (d ++ SEPARATOR :: dotdot)

structure EntryName (d : List Char) : Prop where
  ne_nil : d ≠ []
  one : SEPARATOR ∉ d
  ne_dot : d ≠ dot
  ne_dotdot : d ≠ dotdot

variable {d : List Char}

theorem EntryName.parts_eq (h : EntryName d) : parts (d ++ SEPARATOR :: dotdot) = [d, dotdot] := by
  rw [parts_cons h.one, parts_single (by decide)]

theorem EntryName.pathWalk_upAgain (h : EntryName d) (vfs : Vfs Dentry VfsMount) (hstart : fs_info.start s = some p) :
    Agrees (pathWalk vfs fs_info (upAgain s d)) (run vfs fs_info (firstType s) p (parts s ++ [d, dotdot])) := by
  have hhead : (upAgain s d).head? = some CHAR_ROOT ↔ s.head? = some CHAR_ROOT := by
    unfold upAgain
    obtain ⟨c, d', rfl⟩ := List.exists_cons_of_ne_nil h.ne_nil
    cases s with
    | nil => exact iff_of_false (fun hc => h.one (Option.some.inj hc ▸ List.mem_cons_self)) nofun
    | cons x xs => exact Iff.rfl
  have hstart' : fs_info.start (upAgain s d) = some p := by
    rw [← hstart, FileSystemInfo.start, FileSystemInfo.start]
    simp only [hhead]
  have htype : firstType (upAgain s d) = firstType s := by
    unfold firstType
    simp only [hhead]
  have hrun := pathWalk_run vfs hstart'
  rw [htype] at hrun
  unfold upAgain at hrun ⊢
  by_cases hnil : s = []
  · rw [if_pos hnil, h.parts_eq] at hrun
    rw [if_pos hnil, hnil, show parts [] = [[]] from rfl, List.singleton_append, run, if_pos rfl, if_neg (firstType_dots [])]
    rw [hnil] at hrun
    exact hrun
  · rw [if_neg hnil] at hrun ⊢
    rw [← h.parts_eq]
    unfold parts at hrun ⊢
    rw [List.splitOn_append_cons_self] at hrun
    exact hrun

/-- Names that begin with a dot are looked up behind an ordinary name only. -/
def LookedUp (d : List Char) (last_type_ : LastType) : Prop := d.head? = some CHAR_DOT → last_type_ = .LAST_NORM

theorem EntryName.run_lookedUp (h : EntryName d) (hup : LookedUp d last_type_) (hchild : child vfs p d = some q) :
    run vfs fs_info last_type_ p [d, dotdot] = (.PW_SUCCESS, parent vfs fs_info q) := by
  have htype : typeOf d last_type_ = .LAST_NORM := by
    by_cases hhead : d.head? = some CHAR_DOT
    · rw [typeOf_hidden hhead h.ne_dot h.ne_dotdot, hup hhead]
    · exact typeOf_ordinary hhead
  rw [run, if_neg h.ne_nil, htype]
  dsimp only
  rw [hchild]
  rfl

/-- Another entry counts as what is before it in the path. -/
theorem EntryName.run_hidden (h : EntryName d) (vfs : Vfs Dentry VfsMount) (fs_info : FileSystemInfo Dentry VfsMount)
    (p : Place Dentry VfsMount) (hhidden : ¬LookedUp d last_type_) :
    run vfs fs_info last_type_ p [d, dotdot] = (.PW_SUCCESS, parent vfs fs_info p) ∨
      run vfs fs_info last_type_ p [d, dotdot] = (.PW_SUCCESS, parent vfs fs_info (parent vfs fs_info p)) := by
  obtain ⟨hhead, hnorm⟩ := Classical.not_imp.mp hhidden
  rw [run, if_neg h.ne_nil, typeOf_hidden hhead h.ne_dot h.ne_dotdot]
  cases last_type_ with
  | LAST_NORM => exact absurd rfl hnorm
  | LAST_ROOT => exact .inl rfl
  | LAST_DOT => exact .inl rfl
  | LAST_DOTDOT => exact .inr rfl

end Parts

end KPanic.PathWalker

namespace KPanic.Mounts

open Machine
open PathWalker

variable {vfs vfs' : VirtualFileSystem} {fs_info : FileSystemInfo Dentry ℕ} {p : Place Dentry ℕ} {last_type_ : LastType}
  {ps : List (List Char)} {pathname d : List Char} {found : Dentry} {mnt : ℕ}

/-! ### Every mount lies in an older file system -/

theorem inside_parent (h : Inside vfs p) : Inside vfs (parent vfs.tree fs_info p) := by
  unfold parent
  split
  · exact h
  · exact h

theorem inside_child {q : Place Dentry ℕ} (hwf : Wf vfs) (hchild : child vfs.tree p d = some q) : Inside vfs q := by
  obtain ⟨found, hfound, rfl⟩ := Option.map_eq_some_iff.mp hchild
  obtain ⟨hlt, rfl⟩ := lookup_eq hfound
  unfold mountDown
  split
  · rename_i mnt hmnt
    obtain ⟨hmnt, -⟩ := getVfsMount_lt hmnt
    show (vfs.tree.mnt_root_ mnt).sb < _
    rw [hwf.root_eq hmnt, hwf.length]
    exact hmnt
  · exact hlt

theorem inside_run (hwf : Wf vfs) (h : Inside vfs p) (fs_info : FileSystemInfo Dentry ℕ) (last_type_ : LastType)
    (ps : List (List Char)) : Inside vfs (run vfs.tree fs_info last_type_ p ps).2 := by
  induction ps generalizing last_type_ p with
  | nil => exact h
  | cons a rest ih =>
    rw [run]
    split
    · split
      · exact h
      · exact ih h last_type_
    · split
      · exact ih h _
      · exact ih (inside_parent h) _
      · split
        · rename_i hchild
          exact ih (inside_child hwf hchild) _
        · exact h
      · exact ih h _

theorem inside_start (hwf : Wf vfs) (hworking : Working vfs fs_info) (hstart : fs_info.start pathname = some p) : Inside vfs p := by
  unfold FileSystemInfo.start at hstart
  split at hstart
  · rw [hworking.root_, hworking.root_mnt_] at hstart
    cases hstart
    exact hwf.pos
  · obtain ⟨dentry, hdentry, hstart⟩ := Option.bind_eq_some_iff.mp hstart
    obtain ⟨mnt, -, hstart⟩ := Option.bind_eq_some_iff.mp hstart
    cases hstart
    exact hworking.pwd_ dentry hdentry

theorem new_mount {mounts_ : List VfsMount} {m m' : VfsMount} (h : (mounts_ ++ [m])[mnt]? = some m') :
    mounts_[mnt]? = some m' ∨ mnt = mounts_.length ∧ m' = m := by
  rcases Nat.lt_or_ge mnt mounts_.length with hlt | hge
  · rw [List.getElem?_append_left hlt] at h
    exact .inl h
  · rw [List.getElem?_append_right hge] at h
    obtain ⟨hzero, heq⟩ := List.getElem?_eq_some_iff.mp h
    have hmnt : mnt = mounts_.length := by
      rw [List.length_singleton] at hzero
      omega
    subst hmnt
    exact .inr ⟨rfl, by simpa using heq.symm⟩

theorem wf_mount (hwf : Wf vfs) {m : Mount} (hworking : Working vfs m.fs_info) : Wf (mount vfs m).1 := by
  unfold mount
  cases m.super with
  | none => exact hwf
  | some super =>
    dsimp only
    cases hstart : m.fs_info.start m.dir_name with
    | none =>
      rw [pathWalk_none hstart]
      exact hwf
    | some q =>
      obtain ⟨hresult, hplace⟩ := pathWalk_run vfs.tree hstart
      rw [hplace]
      dsimp only
      have hinside := inside_run hwf (inside_start hwf hworking hstart) m.fs_info (firstType m.dir_name) (parts m.dir_name)
      generalize (run vfs.tree m.fs_info (firstType m.dir_name) q (parts m.dir_name)).2 = p at hinside
      split
      · refine ⟨?_, ?_, fun mnt m' hm' => ?_, fun mnt m' hm' => ?_⟩
        · rw [List.length_append]
          exact Nat.add_pos_left hwf.pos _
        · rw [List.length_append, List.length_append, hwf.length]
          rfl
        · rcases new_mount hm' with hold | ⟨rfl, rfl⟩
          · exact hwf.root mnt m' hold
          · exact congrArg (Dentry.mk · []) hwf.length
        · rcases new_mount hm' with hold | ⟨rfl, rfl⟩
          · exact hwf.older mnt m' hold
          · exact .inr (hwf.length ▸ hinside)
      · exact hwf

theorem wf_mounted (h : Mounted vfs) : Wf vfs := by
  obtain ⟨super, tr, hrun⟩ := h
  refine hrun.invariant (I := fun _ vfs => Wf vfs) (wf_root_mount super) fun hwf hworking hs => ?_
  cases hs
  exact wf_mount hwf hworking

/-! ### Into an entry and up -/

/-- Where `..` leads from what is mounted at an entry: it stays there. -/
theorem not_back (hwf : Wf vfs) (hfound : vfs.lookup p.dentry_ d = some found)
    (hmnt : vfs.tree.getVfsMount found false = some mnt) :
    parent vfs.tree fs_info ⟨vfs.tree.mnt_root_ mnt, mnt⟩ ≠ p := by
  obtain ⟨hlt, hat⟩ := getVfsMount_lt hmnt
  obtain ⟨-, rfl⟩ := lookup_eq hfound
  have hroot := hwf.root_eq hlt
  have hstays : parent vfs.tree fs_info ⟨vfs.tree.mnt_root_ mnt, mnt⟩ = ⟨⟨mnt, []⟩, mnt⟩ := by
    rw [hroot]
    unfold parent
    split
    · rfl
    · rfl
  rw [hstays]
  rintro rfl
  rcases hat with hpoint | hsame
  · rcases hwf.older_eq hlt with hnil | holder
    · rw [hpoint] at hnil
      cases hnil
    · rw [hpoint] at holder
      exact Nat.lt_irrefl _ holder
  · rw [hroot] at hsame
    cases hsame

/-- Where nothing is mounted, `..` leads back. -/
theorem back (hworking : Working vfs fs_info) (hfound : vfs.lookup p.dentry_ d = some found) :
    parent vfs.tree fs_info ⟨found, p.vfs_mount_⟩ = p := by
  obtain ⟨-, rfl⟩ := lookup_eq hfound
  have hnot : ¬fs_info.isRoot ⟨⟨p.dentry_.sb, d :: p.dentry_.names⟩, p.vfs_mount_⟩ := by
    rintro ⟨hroot, -⟩
    cases congrArg Dentry.names (Option.some.inj (hroot.trans hworking.root_))
  rw [parent, if_neg hnot]
  rfl

/-- Going up makes the names fewer, except at the root of a file system. -/
theorem length_parent (hworking : Working vfs fs_info) (p : Place Dentry ℕ) :
    (parent vfs.tree fs_info p).dentry_.names.length = p.dentry_.names.length - 1 := by
  unfold parent
  split
  · rename_i hroot
    rw [Option.some.inj (hroot.1.trans hworking.root_)]
    rfl
  · exact List.length_tail

theorem parent_of_nil (hnil : p.dentry_.names = []) : parent vfs.tree fs_info p = p := by
  obtain ⟨⟨sb, names⟩, mnt⟩ := p
  cases hnil
  unfold parent
  split
  · rfl
  · rfl

theorem nil_of_length {n : ℕ} {l : List (List Char)} (h : l.length = l.length - (n + 1)) : l = [] :=
  List.length_eq_zero_iff.mp (by omega)

/-- Up from where the entry was not looked up. -/
theorem hidden_iff (hworking : Working vfs fs_info) (hd : EntryName d) (hhidden : ¬LookedUp d last_type_) :
    run vfs.tree fs_info last_type_ p [d, dotdot] = (.PW_SUCCESS, p) ↔ p.dentry_.names = [] := by
  rcases hd.run_hidden vfs.tree fs_info p hhidden with hrun | hrun
  · rw [hrun, Prod.mk.injEq, and_iff_right rfl]
    refine ⟨fun heq => nil_of_length (n := 0) ?_, fun hnil => parent_of_nil hnil⟩
    have hlength := length_parent hworking p
    rw [heq] at hlength
    exact hlength
  · rw [hrun, Prod.mk.injEq, and_iff_right rfl]
    refine ⟨fun heq => nil_of_length (n := 1) ?_, fun hnil => by rw [parent_of_nil hnil, parent_of_nil hnil]⟩
    have hlength := length_parent hworking (parent vfs.tree fs_info p)
    rw [heq, length_parent hworking] at hlength
    omega

theorem lookedUp_iff (hwf : Wf vfs) (hworking : Working vfs fs_info) (hd : EntryName d) (hup : LookedUp d last_type_)
    (hfound : vfs.lookup p.dentry_ d = some found) :
    run vfs.tree fs_info last_type_ p [d, dotdot] = (.PW_SUCCESS, p) ↔ vfs.tree.getVfsMount found false = none := by
  have hchild : child vfs.tree p d = some (mountDown vfs.tree found p.vfs_mount_) := congrArg (Option.map _) hfound
  rw [hd.run_lookedUp hup hchild, Prod.mk.injEq, and_iff_right rfl, mountDown]
  cases hmnt : vfs.tree.getVfsMount found false with
  | none => exact iff_of_true (back hworking hfound) rfl
  | some mnt => exact iff_of_false (not_back hwf hfound hmnt) nofun

/-- A file system with the directory `a` in its root. -/
def oneEntry : Tree := fun names => names = [['a']]

/-- A thread that works in the root. -/
def atRoot : FileSystemInfo Dentry ℕ := ⟨some ROOT, some 0, some ROOT, some 0, []⟩

theorem working_atRoot (super : Tree) : Working (root_mount super) atRoot := ⟨rfl, rfl, fun _ h => Option.some.inj h ▸ Nat.one_pos⟩

/-- What a thread mounts at `a`. -/
def mountAtA : Mount := ⟨atRoot, some fun _ => false, ['a']⟩

end KPanic.Mounts

import KPanic.Fs.NamespaceRuns

/-!
# Entries that calls make and remove

What was made is found, what was removed is not, and no other entry is lost.
-/

namespace KPanic.DeviceFS

open Function
open Wp
open PathWalker (SEPARATOR)

variable {s s' : Fs} {loc loc' : Loc} {a a' : Namespace} {d thread : ℕ} {l : Location} {q pathname : List Char}
  {flag : BitVec 32} {op : Op} {r : Reply}

/-! ### In the namespace -/

namespace Namespace

theorem start_some (a : Namespace) (thread : ℕ) (q : List Char) : ∃ p, (a.fs_info thread).start q = some p := by
  unfold PathWalker.FileSystemInfo.start
  split
  · exact ⟨_, rfl⟩
  · exact ⟨_, rfl⟩

theorem child_mono (hnode : ∀ l, a.node l ≠ none → a'.node l ≠ none) {p p' : PathWalker.Place Location Unit} {n : Name}
    (h : PathWalker.child a.vfs p n = some p') : PathWalker.child a'.vfs p n = some p' := by
  rw [child_eq] at h ⊢
  have hsome : a.node (p.dentry_ ++ [n]) ≠ none := by
    intro hnone
    rw [hnone] at h
    cases h
  obtain ⟨x, hx⟩ := Option.ne_none_iff_exists'.mp hsome
  obtain ⟨y, hy⟩ := Option.ne_none_iff_exists'.mp (hnode _ hsome)
  rw [hx] at h
  rw [hy]
  exact h

theorem run_mono {fs_info : PathWalker.FileSystemInfo Location Unit} {last_type_ : PathWalker.LastType}
    {p : PathWalker.Place Location Unit} {ps : List Name} (hnode : ∀ l, a.node l ≠ none → a'.node l ≠ none)
    (h : (PathWalker.run a.vfs fs_info last_type_ p ps).1 = .PW_SUCCESS) :
    PathWalker.run a'.vfs fs_info last_type_ p ps = PathWalker.run a.vfs fs_info last_type_ p ps :=
  PathWalker.run_mono (child_mono hnode) (fun _ => rfl) h

/-- What a thread finds is found when there are more entries. -/
theorem walk_mono (hnode : ∀ l, a.node l ≠ none → a'.node l ≠ none) (hpwd : a'.pwd thread = a.pwd thread)
    (h : a.walk thread q = some l) : a'.walk thread q = some l := by
  have hinfo : a'.fs_info thread = a.fs_info thread := by
    rw [fs_info, hpwd, fs_info]
  obtain ⟨p, hp⟩ := a.start_some thread q
  rw [walk, PathWalker.found_pathWalk hp] at h
  rw [walk, hinfo, PathWalker.found_pathWalk hp]
  split at h
  · rename_i hok
    rw [run_mono hnode hok, if_pos hok]
    exact h
  · cases h

/-- The place of the directory that a path is walked to in. -/
theorem dir_place (hsep : SEPARATOR ∈ q) (hdir : a.walk thread (dirname q) = some l)
    (hroot : dirname q ≠ [] ∨ a.pwd thread = []) : ∃ p, (a.fs_info thread).start q = some p ∧
      PathWalker.dirRun a.vfs (a.fs_info thread) p q = (.PW_SUCCESS, ⟨l, ⟨⟩⟩) := by
  obtain ⟨p, hp⟩ := a.start_some thread (dirname q)
  rw [walk, PathWalker.found_pathWalk hp] at hdir
  by_cases hnil : dirname q = []
  · have hpwd := hroot.resolve_left (not_not.mpr hnil)
    have hhead : q.head? = some PathWalker.CHAR_ROOT := (PathWalker.head_split hsep).mpr (.inl hnil)
    have hp' : (a.fs_info thread).start [] = some ⟨a.pwd thread, ⟨⟩⟩ := rfl
    rw [hnil, hp'] at hp
    cases hp
    rw [hnil] at hdir
    have hl : a.pwd thread = l := Option.some.inj hdir
    refine ⟨⟨[], ⟨⟩⟩, ?_, ?_⟩
    · unfold PathWalker.FileSystemInfo.start
      rw [if_pos hhead]
      rfl
    · rw [PathWalker.dirRun, hnil, ← hl, hpwd]
      rfl
  · have hhead : q.head? = some PathWalker.CHAR_ROOT ↔ (dirname q).head? = some PathWalker.CHAR_ROOT :=
      (PathWalker.head_split hsep).trans (or_iff_right hnil)
    refine ⟨p, ?_, ?_⟩
    · rw [← hp]
      unfold PathWalker.FileSystemInfo.start
      simp only [hhead]
    · split at hdir
      · rename_i hok
        exact Prod.ext hok (PathWalker.Place.ext (Option.some.inj hdir) rfl)
      · cases hdir

/-- A path that led nowhere leads to the new entry of its directory. -/
theorem walk_made (hsep : SEPARATOR ∈ q) (hnone : a.walk thread q = none) (hdir : a.walk thread (dirname q) = some l)
    (hroot : dirname q ≠ [] ∨ a.pwd thread = []) (hnode : ∀ l, a.node l ≠ none → a'.node l ≠ none)
    (hpwd : a'.pwd thread = a.pwd thread) (hnew : a'.node (l ++ [basename q]) ≠ none) :
    a'.walk thread q = some (l ++ [basename q]) := by
  obtain ⟨p, hp, hok⟩ := dir_place hsep hdir hroot
  have hinfo : a'.fs_info thread = a.fs_info thread := by
    rw [fs_info, hpwd, fs_info]
  have hfail : (PathWalker.run a.vfs (a.fs_info thread) (PathWalker.firstType q) p (PathWalker.parts q)).1 ≠ .PW_SUCCESS := by
    intro h
    rw [walk, PathWalker.found_pathWalk hp, if_pos h] at hnone
    cases hnone
  obtain ⟨b, hb, hlooked, -⟩ := PathWalker.absent hsep (congrArg Prod.fst hok) hfail
  have hok' : PathWalker.dirRun a'.vfs (a.fs_info thread) p q = (.PW_SUCCESS, ⟨l, ⟨⟩⟩) := by
    rw [← hok]
    exact run_mono hnode (congrArg Prod.fst hok)
  have hchild : PathWalker.child a'.vfs ⟨l, ⟨⟩⟩ (basename q) = some ⟨l ++ [basename q], ⟨⟩⟩ := by
    obtain ⟨x, hx⟩ := Option.ne_none_iff_exists'.mp hnew
    rw [child_eq, hx]
    rfl
  have hrun : PathWalker.run a'.vfs (a.fs_info thread) (PathWalker.firstType q) p (PathWalker.parts q) =
      (.PW_SUCCESS, ⟨l ++ [basename q], ⟨⟩⟩) := by
    rw [PathWalker.run_entry hsep (congrArg Prod.fst hok'), hb, hok']
    exact PathWalker.run_looked hlooked hchild
  rw [walk, hinfo, PathWalker.found_pathWalk hp, hrun, if_pos rfl]

theorem set_mono (hl : a.node l = none) (node : Option Node) : ∀ l', a.node l' ≠ none → (a.set l node).node l' ≠ none := by
  intro l' h
  have hne : l' ≠ l := by
    rintro rfl
    exact h hl
  rw [show (a.set l node).node l' = a.node l' from update_of_ne hne _ _]
  exact h

theorem create_cases {node : Node} {out : Location × Namespace} (h : a.create thread q node = some out) :
    ∃ l, a.walk thread (dirname q) = some l ∧ out = (l ++ [basename q], a.set (l ++ [basename q]) (some node)) := by
  rw [create] at h
  split at h
  · cases h
  · rename_i l hl
    split at h
    · exact ⟨l, hl, (Option.some.inj h).symm⟩
    · cases h

theorem mkdir_cases (h : (a.mkdir thread pathname).1.ret ≠ -1) : a.walk thread (prefixed pathname) = none ∧
    ∃ l, a.walk thread (dirname (prefixed pathname)) = some l ∧
      (a.mkdir thread pathname).2 = a.set (l ++ [basename (prefixed pathname)]) (some .dir) := by
  rw [mkdir] at h ⊢
  split at h
  · exact absurd rfl h
  · rename_i hnone
    split at h
    · exact absurd rfl h
    · rename_i l' a' hcreate
      obtain ⟨l, hl, hout⟩ := create_cases hcreate
      exact ⟨hnone, l, hl, congrArg Prod.snd hout⟩

theorem openFile_cases (h : (a.openFile thread pathname flag).1.ret ≠ -1) :
    (∃ l data, a.walk thread (prefixed pathname) = some l ∧ a.node l = some (.file data) ∧
      a.openFile thread pathname flag = a.openAt l flag) ∨
    a.walk thread (prefixed pathname) = none ∧ ∃ l, a.walk thread (dirname (prefixed pathname)) = some l ∧
      a.openFile thread pathname flag =
        (a.set (l ++ [basename (prefixed pathname)]) (some (.file fun _ => 0))).openAt (l ++ [basename (prefixed pathname)]) flag := by
  rw [openFile] at h ⊢
  by_cases hrefused : Refused flag
  · rw [if_pos hrefused] at h
    exact absurd rfl h
  · rw [if_neg hrefused] at h ⊢
    split at h
    · rename_i l hwalk
      split at h
      · rename_i data hnode
        exact .inl ⟨l, data, hwalk, hnode, rfl⟩
      · exact absurd rfl h
    · rename_i hwalk
      by_cases hcreat : flag &&& O_CREAT ≠ 0
      · rw [if_pos hcreat] at h ⊢
        split at h
        · exact absurd rfl h
        · rename_i l' a' hcreate
          obtain ⟨l, hl, hout⟩ := create_cases hcreate
          cases hout
          exact .inr ⟨hwalk, l, hl, rfl⟩
      · rw [if_neg hcreat] at h
        exact absurd rfl h

/-- What `rm` and `rmdir` remove. -/
theorem removal_cases (hop : op = .rm thread pathname ∨ op = .rmdir thread pathname) (h : (a.step op).1.ret ≠ -1) :
    ∃ l, a.walk thread (prefixed pathname) = some l ∧ (a.step op).2 = a.set l none := by
  obtain rfl | rfl := hop
  · rw [show a.step (.rm thread pathname) = a.rm thread pathname from rfl, rm] at h ⊢
    split at h
    · exact absurd rfl h
    · rename_i l hwalk
      split at h
      · by_cases hkept : a.Opened l
        · rw [if_pos hkept] at h
          exact absurd rfl h
        · rw [if_neg hkept]
          exact ⟨l, hwalk, rfl⟩
      · exact absurd rfl h
  · rw [show a.step (.rmdir thread pathname) = a.rmdir thread pathname from rfl, rmdir] at h ⊢
    split at h
    · exact absurd rfl h
    · rename_i l hwalk
      split at h
      · by_cases hkept : a.Inhabited l
        · rw [if_pos hkept] at h
          exact absurd rfl h
        · rw [if_neg hkept]
          exact ⟨l, hwalk, rfl⟩
      · exact absurd rfl h

end Namespace

/-! ### In the code -/

/-- The dentry that a thread finds. -/
def Fs.finds (s : Fs) (thread : ℕ) (q : List Char) : Option ℕ := found (PathWalker.pathWalk s.vfs (s.fs_info thread) q)

theorem finds_iff (R : Represents s loc a) : s.finds thread q = some d ↔ ∃ l, a.walk thread q = some l ∧ loc d = some l := by
  obtain ⟨hf, hw⟩ | ⟨d', l, hf, hw, hd⟩ := walk_cases R thread q
  · rw [Fs.finds, hf, hw]
    exact iff_of_false nofun nofun
  · rw [Fs.finds, hf, hw]
    constructor
    · intro h
      cases h
      exact ⟨l, rfl, hd⟩
    · rintro ⟨l', hl', hd'⟩
      cases hl'
      rw [R.tree.inj hd hd']

theorem finds_none (R : Represents s loc a) : s.finds thread q = none ↔ a.walk thread q = none := by
  obtain ⟨hf, hw⟩ | ⟨d', l, hf, hw, hd⟩ := walk_cases R thread q
  · rw [Fs.finds, hf, hw]
    exact iff_of_true rfl rfl
  · rw [Fs.finds, hf, hw]
    exact iff_of_false nofun nofun

/-- More entries: what was found is found, and it is the same dentry. -/
theorem finds_mono (R : Represents s loc a) (R' : Represents s' loc' a') (hkept : Kept loc loc' a')
    (hnode : ∀ l, a.node l ≠ none → a'.node l ≠ none) (hpwd : a'.pwd = a.pwd) (h : s.finds thread q = some d) :
    s'.finds thread q = some d := by
  obtain ⟨l, hl, hd⟩ := (finds_iff R).mp h
  have hlive : a.node l ≠ none := (node_iff R.tree R.inodes R.named).mpr ⟨d, hd⟩
  exact (finds_iff R').mpr ⟨l, Namespace.walk_mono hnode (congrFun hpwd thread) hl, hkept d l hd (hnode l hlive)⟩

theorem Represents.pwd_root (R : Represents s loc a) (h : s.pwd_ thread = s.s_root_) : a.pwd thread = [] := by
  have hpwd := R.named.pwd thread
  rw [h, R.tree.root] at hpwd
  exact (Option.some.inj hpwd).symm

/-- A call that returned, as a step of the namespace. -/
theorem Reached.call_cases (h : Reached s a) (op : Op) (hallowed : a.Allowed op) (hrun : (step op).run s = .ok (r, s')) :
    ∃ loc loc', Represents s loc a ∧ Represents s' loc' (a.step op).2 ∧ Kept loc loc' (a.step op).2 ∧ r = (a.step op).1 := by
  obtain ⟨loc, R⟩ := h.represents
  obtain ⟨s'', loc', hstep, R', hkept⟩ := step_refines R hallowed
  rw [hrun] at hstep
  cases hstep
  exact ⟨loc, loc', R, R', hkept, rfl⟩

theorem prefixed_slash (name : List Char) : Namespace.prefixed (SEPARATOR :: name) = SEPARATOR :: name := by
  obtain ⟨-, hhead⟩ | ⟨hfront, -⟩ := PathWalker.prefix_cases (SEPARATOR :: name)
  · exact absurd rfl hhead
  · rw [Namespace.prefixed, hfront, List.nil_append]

theorem slash_parts {name : List Char} (h : SEPARATOR ∉ name) : dirname (SEPARATOR :: name) = [] ∧ basename (SEPARATOR :: name) = name := by
  have hsep : SEPARATOR ∈ SEPARATOR :: name := List.mem_cons_self
  obtain ⟨hsplit, -⟩ := PathWalker.split_pathname hsep
  cases hd : dirname (SEPARATOR :: name) with
  | nil =>
    rw [hd, List.nil_append] at hsplit
    exact ⟨rfl, (List.cons.inj hsplit).2.symm⟩
  | cons c rest =>
    rw [hd, List.cons_append] at hsplit
    have hname := (List.cons.inj hsplit).2
    rw [hname] at h
    exact absurd (List.mem_append_right rest List.mem_cons_self) h

end KPanic.DeviceFS

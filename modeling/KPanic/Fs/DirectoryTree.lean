import KPanic.Fs.Namespace
import KPanic.Fs.PathWalks

/-!
# The dentries as a tree

`loc` gives every dentry its location. `Tree` says that children, parents and names are those of the locations, so that a walk
over the dentries is a walk over the locations.
-/

namespace KPanic.DeviceFS

open Function
open PathWalker (Place Corresponds)

variable {s s' : Fs} {loc : ℕ → Option Location} {a : Namespace} {c d p i thread : ℕ} {l : Location} {n : Name} {C D P : Dentry}
  {I : Inode} {pathname_ : List Char}

abbrev Loc := ℕ → Option Location

structure Tree (s : Fs) (loc : Loc) : Prop where
  live : ∀ {d}, loc d = none ↔ s.dentry d = none
  root : loc s.s_root_ = some []
  inj : ∀ {d d' l}, loc d = some l → loc d' = some l → d = d'
  child : ∀ {p P l c}, s.dentry p = some P → loc p = some l → (c ∈ P.d_child_ ↔ ∃ n, loc c = some (l ++ [n]))
  parent : ∀ {c C l n}, s.dentry c = some C → loc c = some (l ++ [n]) →
    C.d_name_ = n ∧ ∃ p, C.d_parent_ = some p ∧ loc p = some l
  top : ∀ {D}, s.dentry s.s_root_ = some D → D.d_name_ = ROOT_NAME ∧ D.d_parent_ = some s.s_root_

/-- Dentries and inodes belong to each other. -/
structure Inodes (s : Fs) : Prop where
  inode : ∀ {d D}, s.dentry d = some D → ∃ i I, D.d_inode_ = some i ∧ s.inode i = some I ∧ I.i_dentry_ = some d
  dentry : ∀ {i I}, s.inode i = some I → ∃ d D, I.i_dentry_ = some d ∧ s.dentry d = some D ∧ D.d_inode_ = some i
  dir : ∀ {d D i I}, s.dentry d = some D → D.d_inode_ = some i → s.inode i = some I → D.d_child_ ≠ [] → I.i_type_ = .I_DIR
  data : ∀ {i I}, s.inode i = some I → I.i_size_ = BASIC_ALLOC ∧ (I.i_type_ = .I_FILE ↔ I.data_ ≠ none)
  all : ∀ {i}, i ∈ s.all_inodes_ ↔ s.inode i ≠ none
  nodup : s.all_inodes_.Nodup

/-! ### Lookups -/

namespace Tree

theorem dentry (T : Tree s loc) (h : loc d = some l) : ∃ D, s.dentry d = some D := by
  refine Option.ne_none_iff_exists'.mp fun hnone => ?_
  rw [T.live.mpr hnone] at h
  cases h

theorem location (T : Tree s loc) (h : s.dentry d = some D) : ∃ l, loc d = some l := by
  refine Option.ne_none_iff_exists'.mp fun hnone => ?_
  rw [T.live.mp hnone] at h
  cases h

theorem ne_root (T : Tree s loc) (h : loc c = some (l ++ [n])) : c ≠ s.s_root_ := by
  rintro rfl
  rw [T.root] at h
  exact List.append_ne_nil_of_right_ne_nil l (List.cons_ne_nil n []) (Option.some.inj h).symm

theorem name (T : Tree s loc) (hc : s.dentry c = some C) (h : loc c = some (l ++ [n])) : C.d_name_ = n := (T.parent hc h).1

theorem mem_child (T : Tree s loc) (hp : s.dentry p = some P) (hl : loc p = some l) (h : loc c = some (l ++ [n])) :
    c ∈ P.d_child_ := (T.child hp hl).mpr ⟨n, h⟩

/-- A child with a name is what lies at that name. -/
theorem find_iff (T : Tree s loc) (hp : s.dentry p = some P) (hl : loc p = some l) :
    P.d_child_.find? (fun c => (s.dentry c).map Dentry.d_name_ = some n) = some c ↔ loc c = some (l ++ [n]) := by
  have hfound : ∀ {c}, P.d_child_.find? (fun c => (s.dentry c).map Dentry.d_name_ = some n) = some c →
      loc c = some (l ++ [n]) := by
    intro c h
    obtain ⟨n', hc⟩ := (T.child hp hl).mp (List.mem_of_find?_eq_some h)
    obtain ⟨C, hC⟩ := T.dentry hc
    have hname : (s.dentry c).map Dentry.d_name_ = some n := by simpa using List.find?_some h
    rw [hC, Option.map_some, T.name hC hc] at hname
    cases hname
    exact hc
  refine ⟨hfound, fun h => ?_⟩
  obtain ⟨C, hC⟩ := T.dentry h
  have hname : (s.dentry c).map Dentry.d_name_ = some n := by
    rw [hC, Option.map_some, T.name hC h]
  cases hf : P.d_child_.find? (fun c => (s.dentry c).map Dentry.d_name_ = some n) with
  | none =>
    have hall := List.find?_eq_none.mp hf c (T.mem_child hp hl h)
    exact absurd (decide_eq_true hname) hall
  | some c' => rw [T.inj (hfound hf) h]

end Tree

theorem lookup_iff (T : Tree s loc) (N : Inodes s) (hl : loc p = some l) :
    s.vfs.lookup p n = some c ↔ loc c = some (l ++ [n]) := by
  obtain ⟨P, hP⟩ := T.dentry hl
  obtain ⟨i, I, hi, hI, hdentry⟩ := N.inode hP
  have hlookup : s.vfs.lookup p n = if I.i_type_ = .I_DIR then
      P.d_child_.find? fun c => (s.dentry c).map Dentry.d_name_ = some n else none := by
    show (do RamFSInode.lookup s (← (← s.dentry p).d_inode_) n) = _
    rw [hP, Option.bind_eq_bind, Option.bind_some, hi, Option.bind_eq_bind, Option.bind_some, RamFSInode.lookup, hI,
      Option.bind_eq_bind, Option.bind_some, hdentry, Option.bind_eq_bind, Option.bind_some, hP]
    rfl
  rw [hlookup]
  split
  · exact T.find_iff hP hl
  · rename_i htype
    refine iff_of_false nofun fun h => htype ?_
    exact N.dir hP hi hI (List.ne_nil_of_mem (T.mem_child hP hl h))

/-! ### Walks -/

def Inode.node (I : Inode) : Node :=
  match I.data_ with
  | some data => .file data
  | none => .dir

def Fs.node (s : Fs) (d : ℕ) : Option Node := do
  let D ← s.dentry d
  let I ← s.inode (← D.d_inode_)
  return I.node

/-- The nodes, and where the threads are. -/
structure Named (s : Fs) (loc : Loc) (a : Namespace) : Prop where
  node : ∀ {d l}, loc d = some l → a.node l = s.node d
  only : ∀ {l}, a.node l ≠ none → ∃ d, loc d = some l
  pwd : ∀ thread, loc (s.pwd_ thread) = some (a.pwd thread)

theorem Inodes.node (N : Inodes s) (hd : s.dentry d = some D) : ∃ i I, D.d_inode_ = some i ∧ s.inode i = some I ∧
    I.i_dentry_ = some d ∧ s.node d = some I.node := by
  obtain ⟨i, I, hi, hI, hdentry⟩ := N.inode hd
  refine ⟨i, I, hi, hI, hdentry, ?_⟩
  rw [Fs.node, hd, Option.bind_eq_bind, Option.bind_some, hi, Option.bind_eq_bind, Option.bind_some, hI]
  rfl

theorem node_iff (T : Tree s loc) (N : Inodes s) (A : Named s loc a) : a.node l ≠ none ↔ ∃ d, loc d = some l := by
  refine ⟨A.only, fun ⟨d, hd⟩ => ?_⟩
  obtain ⟨D, hD⟩ := T.dentry hd
  obtain ⟨i, I, -, -, -, hnode⟩ := N.node hD
  rw [A.node hd, hnode]
  exact Option.some_ne_none _

/-- A place and its location. -/
def At (loc : Loc) (p : Place ℕ Unit) (p' : Place Location Unit) : Prop := loc p.dentry_ = some p'.dentry_

theorem mountDown_of_ne (h : c ≠ s.s_root_) : PathWalker.mountDown s.vfs c ⟨⟩ = ⟨c, ⟨⟩⟩ := by
  have hnone : s.vfs.getVfsMount c false = none := by
    rw [PathWalker.Vfs.getVfsMount, if_pos rfl, List.find?_eq_none]
    intro m _ hm
    obtain heq | heq := of_decide_eq_true hm
    · exact h heq.symm
    · exact h heq.symm
  rw [PathWalker.mountDown, hnone]

theorem Namespace.mountDown_entry : PathWalker.mountDown a.vfs (l ++ [n]) ⟨⟩ = ⟨l ++ [n], ⟨⟩⟩ := by
  have hnone : a.vfs.getVfsMount (l ++ [n]) false = none := by
    rw [PathWalker.Vfs.getVfsMount, if_pos rfl, List.find?_eq_none]
    intro m _ hm
    have hne : [] ≠ l ++ [n] := (List.append_ne_nil_of_right_ne_nil l (List.cons_ne_nil n [])).symm
    obtain heq | heq := of_decide_eq_true hm
    · exact hne heq
    · exact hne heq
  rw [PathWalker.mountDown, hnone]

theorem Namespace.child_eq (p : Place Location Unit) (n : Name) : PathWalker.child a.vfs p n =
    (a.node (p.dentry_ ++ [n])).map fun _ => ⟨p.dentry_ ++ [n], ⟨⟩⟩ := by
  show ((a.node (p.dentry_ ++ [n])).map fun _ => p.dentry_ ++ [n]).map _ = _
  cases a.node (p.dentry_ ++ [n]) with
  | none => rfl
  | some node => exact congrArg some mountDown_entry

theorem corresponds (T : Tree s loc) (N : Inodes s) (A : Named s loc a) (thread : ℕ) :
    Corresponds (At loc) s.vfs (s.fs_info thread) a.vfs (a.fs_info thread) where
  child {p p'} n h := by
    rw [Namespace.child_eq]
    cases hf : s.vfs.lookup p.dentry_ n with
    | none =>
      have hnone : a.node (p'.dentry_ ++ [n]) = none := by
        by_contra hne
        obtain ⟨c, hc⟩ := A.only hne
        rw [(lookup_iff T N h).mpr hc] at hf
        cases hf
      rw [PathWalker.child, hf, hnone]
      exact .none
    | some c =>
      have hc := (lookup_iff T N h).mp hf
      obtain ⟨node, hnode⟩ := Option.ne_none_iff_exists'.mp ((node_iff T N A).mpr ⟨c, hc⟩)
      rw [PathWalker.child, hf, hnode, Option.map_some, Option.map_some]
      refine .some ?_
      rw [mountDown_of_ne (T.ne_root hc)]
      exact hc
  parent {p p'} h := by
    have hiff : (s.fs_info thread).isRoot p ↔ (a.fs_info thread).isRoot p' := by
      have hloc : p.dentry_ = s.s_root_ ↔ p'.dentry_ = [] := by
        constructor
        · intro hroot
          unfold At at h
          rw [hroot, T.root] at h
          exact (Option.some.inj h).symm
        · intro hnil
          unfold At at h
          rw [hnil] at h
          exact T.inj h T.root
      show some p.dentry_ = some s.s_root_ ∧ _ ↔ some p'.dentry_ = some [] ∧ _
      rw [Option.some_inj, Option.some_inj, hloc]
      exact and_congr_right fun _ => iff_of_true rfl rfl
    rw [PathWalker.parent, PathWalker.parent]
    by_cases hroot : (a.fs_info thread).isRoot p'
    · rw [if_pos hroot, if_pos (hiff.mpr hroot)]
      exact h
    · rw [if_neg hroot, if_neg (mt hiff.mp hroot)]
      have hne : p'.dentry_ ≠ [] := fun hnil => hroot ⟨congrArg some hnil, rfl⟩
      obtain ⟨l, n, hl⟩ : ∃ l n, p'.dentry_ = l ++ [n] := ⟨_, _, (List.dropLast_concat_getLast hne).symm⟩
      unfold At at h
      rw [hl] at h
      obtain ⟨C, hC⟩ := T.dentry h
      obtain ⟨-, q, hq, hqloc⟩ := T.parent hC h
      show loc (((s.dentry p.dentry_).bind Dentry.d_parent_).getD p.dentry_) = some p'.dentry_.dropLast
      rw [hC, Option.bind_some, hq, Option.getD_some, hl, List.dropLast_concat]
      exact hqloc

theorem start_at (T : Tree s loc) (A : Named s loc a) (thread : ℕ) (pathname_ : List Char) :
    ∃ p p', (s.fs_info thread).start pathname_ = some p ∧ (a.fs_info thread).start pathname_ = some p' ∧ At loc p p' := by
  unfold PathWalker.FileSystemInfo.start
  split
  · exact ⟨⟨s.s_root_, ⟨⟩⟩, ⟨[], ⟨⟩⟩, rfl, rfl, T.root⟩
  · exact ⟨⟨s.pwd_ thread, ⟨⟩⟩, ⟨a.pwd thread, ⟨⟩⟩, rfl, rfl, A.pwd thread⟩

theorem found_walk (T : Tree s loc) (N : Inodes s) (A : Named s loc a) (thread : ℕ) (pathname_ : List Char) :
    Option.Rel (fun d l => loc d = some l) (found (PathWalker.pathWalk s.vfs (s.fs_info thread) pathname_))
      (a.walk thread pathname_) := by
  obtain ⟨p, p', hp, hp', h⟩ := start_at T A thread pathname_
  obtain ⟨hresult, hplace⟩ := (corresponds T N A thread).run h
  rw [Namespace.walk, PathWalker.found_pathWalk hp, PathWalker.found_pathWalk hp', hresult]
  split
  · exact .some hplace
  · exact .none

end KPanic.DeviceFS

import KPanic.Lib.Machine
import KPanic.Fs.PathGrammar
import Mathlib.Data.Int.Notation

/-!
# `common/source/fs/VirtualFileSystem.cpp`

A mount adds a superblock with dentries of its own, and a `VfsMount`. Superblocks and mounts are named by
their numbers. A dentry lies in the tree of its superblock, where the parent of the root is the root.
-/

namespace KPanic.Mounts

open Machine
open PathWalker

/-- The superblock, and the names from the entry up to the root. -/
structure Dentry where
  sb : ℕ
  names : List (List Char)
  deriving DecidableEq

/-- The entries of a file system. -/
abbrev Tree := List (List Char) → Bool

structure VfsMount where
  mnt_parent_ : Option ℕ
  mnt_mountpoint_ : Dentry
  mnt_root_ : Dentry

structure VirtualFileSystem where
  superblocks_ : List Tree
  mounts_ : List VfsMount

def ROOT : Dentry := ⟨0, []⟩

namespace VirtualFileSystem

/-- `Inode::lookup` -/
def lookup (vfs : VirtualFileSystem) (dentry : Dentry) (name : List Char) : Option Dentry :=
  match vfs.superblocks_[dentry.sb]? with
  | some tree => if tree (name :: dentry.names) then some { dentry with names := name :: dentry.names } else none
  | none => none

def getVfsMount (vfs : VirtualFileSystem) (mnt : ℕ) : VfsMount := vfs.mounts_.getD mnt ⟨none, ROOT, ROOT⟩

/-- What a walk sees. Nobody asks for the parent of the first mount, which has none. -/
def tree (vfs : VirtualFileSystem) : PathWalker.Vfs Dentry ℕ where
  lookup := vfs.lookup
  getParent dentry := { dentry with names := dentry.names.tail }
  mounts_ := List.range vfs.mounts_.length
  mnt_parent_ mnt := (vfs.getVfsMount mnt).mnt_parent_.getD 0
  mnt_mountpoint_ mnt := (vfs.getVfsMount mnt).mnt_mountpoint_
  mnt_root_ mnt := VfsMount.mnt_root_ (vfs.getVfsMount mnt)

end VirtualFileSystem

def root_mount (super : Tree) : VirtualFileSystem where
  superblocks_ := [super]
  mounts_ := [⟨none, ROOT, ROOT⟩]

/-- What a thread mounts; `super` is what the device and the type of the file system give. -/
structure Mount where
  fs_info : FileSystemInfo Dentry ℕ
  super : Option Tree
  dir_name : List Char

def mount (vfs : VirtualFileSystem) (m : Mount) : VirtualFileSystem × ℤ :=
  match m.super with
  | none => (vfs, -1)
  | some super =>
    let w := pathWalk vfs.tree m.fs_info m.dir_name
    match w.place with
    | none => (vfs, -1)
    | some p =>
      if w.result = .PW_SUCCESS then
        ({ superblocks_ := vfs.superblocks_ ++ [super]
           mounts_ := vfs.mounts_ ++ [⟨some p.vfs_mount_, p.dentry_, ⟨vfs.superblocks_.length, []⟩⟩] }, 0)
      else (vfs, -1)

def step (vfs : VirtualFileSystem) (m : Mount) : Except Unit (VirtualFileSystem × List ℤ) := .ok ((mount vfs m).1, [(mount vfs m).2])

/-- The root directory and the working directory of a thread: the root does not change, and the working
directory is in a file system that is mounted. -/
structure Working (vfs : VirtualFileSystem) (fs_info : FileSystemInfo Dentry ℕ) : Prop where
  root_ : fs_info.root_ = some ROOT
  root_mnt_ : fs_info.root_mnt_ = some 0
  pwd_ : ∀ dentry ∈ fs_info.pwd_, dentry.sb < vfs.superblocks_.length

/-- The mounts of any threads, one after the other. -/
def Mounted (vfs : VirtualFileSystem) : Prop := ∃ super tr, Runs step (fun vfs m => Working vfs m.fs_info) (root_mount super) tr vfs

/-! ### The trees of the mounts -/

variable {vfs : VirtualFileSystem} {fs_info : FileSystemInfo Dentry ℕ} {mnt : ℕ} {m : VfsMount}

/-- Each mount has a superblock of its own, and lies in an older one. -/
structure Wf (vfs : VirtualFileSystem) : Prop where
  pos : 0 < vfs.superblocks_.length
  length : vfs.superblocks_.length = vfs.mounts_.length
  root : ∀ (mnt : ℕ) (m : VfsMount), vfs.mounts_[mnt]? = some m → m.mnt_root_ = ⟨mnt, []⟩
  older : ∀ (mnt : ℕ) (m : VfsMount), vfs.mounts_[mnt]? = some m → m.mnt_mountpoint_.names = [] ∨ m.mnt_mountpoint_.sb < mnt

theorem wf_root_mount (super : Tree) : Wf (root_mount super) where
  pos := Nat.one_pos
  length := rfl
  root mnt m hm := by
    cases mnt with
    | zero =>
      cases hm
      rfl
    | succ mnt => cases hm
  older mnt m hm := by
    cases mnt with
    | zero =>
      cases hm
      exact .inl rfl
    | succ mnt => cases hm

/-- The dentry of a place is in a file system that is mounted. -/
def Inside (vfs : VirtualFileSystem) (p : Place Dentry ℕ) : Prop := p.dentry_.sb < vfs.superblocks_.length

theorem Wf.root_eq (h : Wf vfs) (hmnt : mnt < vfs.mounts_.length) : vfs.tree.mnt_root_ mnt = ⟨mnt, []⟩ := by
  have hget : vfs.mounts_[mnt]? = some vfs.mounts_[mnt] := List.getElem?_eq_getElem hmnt
  show VfsMount.mnt_root_ (vfs.mounts_.getD mnt _) = _
  rw [List.getD_eq_getElem?_getD, hget]
  exact h.root mnt _ hget

theorem Wf.older_eq (h : Wf vfs) (hmnt : mnt < vfs.mounts_.length) :
    (vfs.tree.mnt_mountpoint_ mnt).names = [] ∨ (vfs.tree.mnt_mountpoint_ mnt).sb < mnt := by
  have hget : vfs.mounts_[mnt]? = some vfs.mounts_[mnt] := List.getElem?_eq_getElem hmnt
  show (vfs.mounts_.getD mnt _).mnt_mountpoint_.names = [] ∨ (vfs.mounts_.getD mnt _).mnt_mountpoint_.sb < mnt
  rw [List.getD_eq_getElem?_getD, hget]
  exact h.older mnt _ hget

/-- A mount that is found has a number. -/
theorem getVfsMount_lt {dentry : Dentry} (h : vfs.tree.getVfsMount dentry false = some mnt) : mnt < vfs.mounts_.length ∧
    (vfs.tree.mnt_mountpoint_ mnt = dentry ∨ vfs.tree.mnt_root_ mnt = dentry) := by
  rw [PathWalker.Vfs.getVfsMount, if_pos rfl] at h
  have hfound := List.find?_some h
  exact ⟨List.mem_range.mp (List.mem_of_find?_eq_some h), of_decide_eq_true hfound⟩

theorem lookup_eq {dentry found : Dentry} {name : List Char} (h : vfs.lookup dentry name = some found) :
    dentry.sb < vfs.superblocks_.length ∧ found = ⟨dentry.sb, name :: dentry.names⟩ := by
  unfold VirtualFileSystem.lookup at h
  split at h
  · rename_i tree htree
    split at h
    · exact ⟨(List.getElem?_eq_some_iff.mp htree).1, (Option.some.inj h).symm⟩
    · cases h
  · cases h

end KPanic.Mounts

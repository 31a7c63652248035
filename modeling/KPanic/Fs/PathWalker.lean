import Mathlib.Tactic.Common

/-!
# `common/source/fs/PathWalker.cpp`, and `dupChecking` of `VfsSyscall.cpp`

A string is the list of its characters, without the NUL behind them; it is shorter than an `int32`
counts, so no position is negative. The walk lists the calls that it makes on the dentries.
-/

namespace KPanic.PathWalker

def CHAR_DOT : Char := '.'
def CHAR_ROOT : Char := '/'
def SEPARATOR : Char := '/'

inductive LastType
  | LAST_NORM
  | LAST_ROOT
  | LAST_DOT
  | LAST_DOTDOT
  deriving DecidableEq

inductive PW
  | PW_SUCCESS
  | PW_ENOTFOUND
  deriving DecidableEq

/-- The directory tree as its inodes give it, loaded where it is looked at, and the mounts. -/
structure Vfs (Dentry VfsMount : Type) where
  lookup : Dentry → List Char → Option Dentry
  getParent : Dentry → Dentry
  mounts_ : List VfsMount
  mnt_parent_ : VfsMount → VfsMount
  mnt_mountpoint_ : VfsMount → Dentry
  mnt_root_ : VfsMount → Dentry

structure FileSystemInfo (Dentry VfsMount : Type) where
  root_ : Option Dentry
  root_mnt_ : Option VfsMount
  pwd_ : Option Dentry
  pwd_mnt_ : Option VfsMount
  pathname_ : List Char

/-- `dentry_` and `vfs_mount_` -/
@[ext]
structure Place (Dentry VfsMount : Type) where
  dentry_ : Dentry
  vfs_mount_ : VfsMount
  deriving DecidableEq

inductive Call (Dentry : Type)
  | lookup (dentry_ : Dentry) (last_ : List Char)
  | getParent (dentry_ : Dentry)
  deriving DecidableEq

/-- The calls, the result, and the place at the end. -/
structure Walk (Dentry VfsMount : Type) where
  calls : List (Call Dentry)
  result : PW
  place : Option (Place Dentry VfsMount)
  deriving DecidableEq

variable {Dentry VfsMount : Type} [DecidableEq Dentry] [DecidableEq VfsMount]

def Walk.after (w : Walk Dentry VfsMount) (call : Call Dentry) : Walk Dentry VfsMount :=
  { w with calls := call :: w.calls }

namespace Vfs

variable (vfs : Vfs Dentry VfsMount)

def getVfsMount (dentry : Dentry) (is_root : Bool) : Option VfsMount :=
  if is_root = false then
    vfs.mounts_.find? fun mnt => vfs.mnt_mountpoint_ mnt = dentry ∨ vfs.mnt_root_ mnt = dentry
  else none

end Vfs

/-- The position of the first `c`. -/
def strchr (s : List Char) (c : Char) : Option ℕ :=
  if c ∈ s then some (s.takeWhile (· ≠ c)).length else none

/-- The length, and `npart_len`. -/
def getNextPartLen (path : List Char) : ℕ × ℕ :=
  match strchr path SEPARATOR with
  | some tmp => (tmp + 1, tmp + 1)
  | none => (path.length + 1, path.length)

/-- `while (*pathname == SEPARATOR) pathname++` -/
def skipSeparators (pathname : List Char) : List Char := pathname.dropWhile (· = SEPARATOR)

/-- `last_type_` after a part. -/
def typeOf (npart : List Char) (last_type_ : LastType) : LastType :=
  if npart.head? = some CHAR_DOT then
    if npart[1]? = none then .LAST_DOT
    else if npart[1]? = some CHAR_DOT ∧ npart[2]? = none then .LAST_DOTDOT
    else last_type_
  else .LAST_NORM

/-- Under a mount point lies the root of what is mounted there. -/
def mountDown (vfs : Vfs Dentry VfsMount) (found : Dentry) (vfs_mount_ : VfsMount) :
    Place Dentry VfsMount :=
  match vfs.getVfsMount found false with
  | some vfs_mount => ⟨vfs.mnt_root_ vfs_mount, vfs_mount⟩
  | none => ⟨found, vfs_mount_⟩

/-- Where a mount is crossed upwards. -/
def mountUp (vfs : Vfs Dentry VfsMount) (p : Place Dentry VfsMount) : Place Dentry VfsMount :=
  match vfs.getVfsMount p.dentry_ true with
  | some vfs_mount => ⟨vfs.mnt_mountpoint_ vfs_mount, vfs.mnt_parent_ vfs_mount⟩
  | none => p

def FileSystemInfo.isRoot (fs_info : FileSystemInfo Dentry VfsMount) (p : Place Dentry VfsMount) :
    Prop := some p.dentry_ = fs_info.root_ ∧ some p.vfs_mount_ = fs_info.root_mnt_

instance (fs_info : FileSystemInfo Dentry VfsMount) (p : Place Dentry VfsMount) :
    Decidable (fs_info.isRoot p) := inferInstanceAs (Decidable (_ ∧ _))

theorem skipSeparators_length (pathname : List Char) :
    (skipSeparators pathname).length ≤ pathname.length :=
  (List.dropWhile_sublist _).length_le

/-- The loop of `pathWalk`. -/
def walk (vfs : Vfs Dentry VfsMount) (fs_info : FileSystemInfo Dentry VfsMount)
    (pathname : List Char) (last_type_ : LastType) (p : Place Dentry VfsMount) :
    Walk Dentry VfsMount :=
  let (npart_len, npart_pos) := getNextPartLen pathname
  let npart := pathname.take (npart_len - 1)
  if hend : npart = [] ∨ npart_pos = 0 then ⟨[], .PW_SUCCESS, some p⟩
  else
    have hrest : (pathname.drop npart_pos).length < pathname.length := by
      have hne : pathname ≠ [] := fun h => hend (.inl (by
        show pathname.take _ = []
        rw [h, List.take_nil]))
      have hlength := List.length_pos_iff.mpr hne
      rw [List.length_drop]
      omega
    let pathname := pathname.drop npart_pos
    let last_type_ := typeOf npart last_type_
    if last_type_ = .LAST_DOT then walk vfs fs_info pathname last_type_ p
    else if last_type_ = .LAST_DOTDOT then
      if fs_info.isRoot p then walk vfs fs_info pathname last_type_ p
      else
        let p := mountUp vfs p
        (walk vfs fs_info pathname last_type_ { p with dentry_ := vfs.getParent p.dentry_ }).after
          (.getParent p.dentry_)
    else if last_type_ = .LAST_NORM then
      match vfs.lookup p.dentry_ npart with
      | some found =>
        let place := mountDown vfs found p.vfs_mount_
        if skipSeparators pathname = [] then
          ⟨[.lookup p.dentry_ npart], .PW_SUCCESS, some place⟩
        else (walk vfs fs_info (skipSeparators pathname) last_type_ place).after
          (.lookup p.dentry_ npart)
      | none => ⟨[.lookup p.dentry_ npart], .PW_ENOTFOUND, some p⟩
    else if skipSeparators pathname = [] then ⟨[], .PW_SUCCESS, some p⟩
    else walk vfs fs_info (skipSeparators pathname) last_type_ p
termination_by pathname.length
decreasing_by
  · exact hrest
  · exact hrest
  · exact hrest
  · exact Nat.lt_of_le_of_lt (skipSeparators_length _) hrest
  · exact Nat.lt_of_le_of_lt (skipSeparators_length _) hrest

/-- Where a walk starts. -/
def FileSystemInfo.start (fs_info : FileSystemInfo Dentry VfsMount) (pathname : List Char) :
    Option (Place Dentry VfsMount) :=
  if pathname.head? = some CHAR_ROOT then do return ⟨← fs_info.root_, ← fs_info.root_mnt_⟩
  else do return ⟨← fs_info.pwd_, ← fs_info.pwd_mnt_⟩

def pathWalk (vfs : Vfs Dentry VfsMount) (fs_info : FileSystemInfo Dentry VfsMount)
    (pathname : List Char) : Walk Dentry VfsMount :=
  -- the numbers of the types begin with LAST_NORM
  let last_type_ := if pathname.head? = some CHAR_ROOT then .LAST_ROOT else .LAST_NORM
  match fs_info.start pathname with
  | none => ⟨[], .PW_ENOTFOUND, none⟩
  | some p =>
    if skipSeparators pathname = [] then ⟨[], .PW_SUCCESS, some p⟩
    else walk vfs fs_info (skipSeparators pathname) last_type_ p

/-- The loop of `dupChecking`, over the characters from the `i`th on. -/
def prefixLoop : ℕ → List Char → List Char → List Char
  | 0, _, pathname_ => pathname_
  | _ + 1, [], pathname_ => pathname_
  | passes + 1, c :: rest, pathname_ =>
    if c = SEPARATOR then prefixLoop passes rest []
    else if c ≠ CHAR_DOT then pathname_
    else prefixLoop passes rest pathname_

def dupChecking (vfs : Vfs Dentry VfsMount) (fs_info : FileSystemInfo Dentry VfsMount)
    (pathname : List Char) : FileSystemInfo Dentry VfsMount × Walk Dentry VfsMount :=
  let fs_info := { fs_info with pathname_ := prefixLoop 3 pathname [CHAR_DOT, SEPARATOR] ++ pathname }
  (fs_info, pathWalk vfs fs_info fs_info.pathname_)

end KPanic.PathWalker

import KPanic.Fs.VfsSyscall

/-!
# What the file system is for: a map from locations to nodes

A location is a list of names from the root down. There are no dentries, inodes, parents or lists of open files here; paths are
walked over the map itself.
-/

namespace KPanic.DeviceFS

open Function

abbrev Name := List Char
abbrev Location := List Name

inductive Node
  | dir
  | file (data : ℕ → Byte)

structure OpenFile where
  location : Location
  flag : BitVec 32
  offset : BitVec 64
  deriving DecidableEq

structure Namespace where
  node : Location → Option Node
  fd : ℕ → Option OpenFile
  fd_num : ℕ
  pwd : ℕ → Location

namespace Namespace

def boot : Namespace where
  node := update (update (fun _ => none) [] (some .dir)) [DEVICE_ROOT_NAME] (some .dir)
  fd _ := none
  fd_num := 3
  pwd _ := []

/-- The map as the path walker sees it. -/
def vfs (a : Namespace) : PathWalker.Vfs Location Unit where
  lookup l name := (a.node (l ++ [name])).map fun _ => l ++ [name]
  getParent l := l.dropLast
  mounts_ := [⟨⟩]
  mnt_parent_ _ := ⟨⟩
  mnt_mountpoint_ _ := []
  mnt_root_ _ := []

def fs_info (a : Namespace) (thread : ℕ) : PathWalker.FileSystemInfo Location Unit :=
  ⟨some [], some ⟨⟩, some (a.pwd thread), some ⟨⟩, []⟩

/-- The path with the prefix that `dupChecking` gives it. -/
def prefixed (pathname : List Char) : List Char :=
  PathWalker.prefixLoop 3 pathname [PathWalker.CHAR_DOT, PathWalker.SEPARATOR] ++ pathname

def walk (a : Namespace) (thread : ℕ) (pathname_ : List Char) : Option Location :=
  found (PathWalker.pathWalk a.vfs (a.fs_info thread) pathname_)

def set (a : Namespace) (l : Location) (node : Option Node) : Namespace := { a with node := update a.node l node }
def setFd (a : Namespace) (n : ℕ) (f : Option OpenFile) : Namespace := { a with fd := update a.fd n f }

/-- Some descriptor is open for the file. -/
def Opened (a : Namespace) (l : Location) : Prop := ∃ n f, a.fd n = some f ∧ f.location = l

/-- Something lies below. -/
def Inhabited (a : Namespace) (l : Location) : Prop := ∃ name, a.node (l ++ [name]) ≠ none

def failed (a : Namespace) : Reply × Namespace := (⟨-1, []⟩, a)

def create (a : Namespace) (thread : ℕ) (pathname_ : List Char) (node : Node) : Option (Location × Namespace) :=
  match a.walk thread (dirname pathname_) with
  | none => none
  | some l =>
    match a.node l with
    | some .dir => some (l ++ [basename pathname_], a.set (l ++ [basename pathname_]) (some node))
    | _ => none

def mkdir (a : Namespace) (thread : ℕ) (pathname : List Char) : Reply × Namespace :=
  match a.walk thread (prefixed pathname) with
  | some _ => a.failed
  | none =>
    match a.create thread (prefixed pathname) .dir with
    | none => a.failed
    | some (_, a') => (⟨0, []⟩, a')

def chdir (a : Namespace) (thread : ℕ) (pathname : List Char) : Reply × Namespace :=
  match a.walk thread (prefixed pathname) with
  | none => a.failed
  | some l =>
    match a.node l with
    | some .dir => (⟨0, []⟩, { a with pwd := update a.pwd thread l })
    | _ => a.failed

open Classical in
noncomputable def rm (a : Namespace) (thread : ℕ) (pathname : List Char) : Reply × Namespace :=
  match a.walk thread (prefixed pathname) with
  | none => a.failed
  | some l =>
    match a.node l with
    | some (.file _) => if a.Opened l then a.failed else (⟨0, []⟩, a.set l none)
    | _ => a.failed

open Classical in
noncomputable def rmdir (a : Namespace) (thread : ℕ) (pathname : List Char) : Reply × Namespace :=
  match a.walk thread (prefixed pathname) with
  | none => a.failed
  | some l =>
    match a.node l with
    | some .dir => if a.Inhabited l then a.failed else (⟨0, []⟩, a.set l none)
    | _ => a.failed

def openAt (a : Namespace) (l : Location) (flag : BitVec 32) : Reply × Namespace :=
  (⟨a.fd_num, []⟩, { a.setFd a.fd_num (some ⟨l, flag, 0⟩) with fd_num := a.fd_num + 1 })

def openFile (a : Namespace) (thread : ℕ) (pathname : List Char) (flag : BitVec 32) : Reply × Namespace :=
  if Refused flag then a.failed
  else
    match a.walk thread (prefixed pathname) with
    | some l =>
      match a.node l with
      | some (.file _) => a.openAt l flag
      | _ => a.failed
    | none =>
      if flag &&& O_CREAT ≠ 0 then
        match a.create thread (prefixed pathname) (.file fun _ => 0) with
        | none => a.failed
        | some (l, a') => a'.openAt l flag
      else a.failed

def close (a : Namespace) (fd : BitVec 32) : Reply × Namespace :=
  match a.fd fd.toNat with
  | none => a.failed
  | some _ => (⟨0, []⟩, a.setFd fd.toNat none)

/-- The number of bytes that a file has from `offset` on, up to `count`. -/
def part (offset count : ℕ) : ℕ := min count (BASIC_ALLOC - offset)

def moveBy (a : Namespace) (fd : BitVec 32) (f : OpenFile) (n : ℕ) : Namespace :=
  a.setFd fd.toNat (some { f with offset := f.offset + BitVec.ofNat 64 n })

def read (a : Namespace) (fd count : BitVec 32) : Reply × Namespace :=
  match a.fd fd.toNat with
  | none => a.failed
  | some f =>
    if count = 0 then (⟨0, []⟩, a)
    else if f.flag &&& (O_RDONLY ||| O_RDWR) = 0 then a.failed
    else
      match a.node f.location with
      | some (.file data) =>
        let offset := f.offset.toNat % 2 ^ 32
        let n := part offset count.toNat
        (⟨n, (List.range n).map fun k => data (offset + k)⟩, a.moveBy fd f n)
      | _ => a.failed

def write (a : Namespace) (fd : BitVec 32) (buffer : ℕ → Byte) (count : BitVec 32) : Reply × Namespace :=
  match a.fd fd.toNat with
  | none => a.failed
  | some f =>
    if count = 0 then (⟨0, []⟩, a)
    else if f.flag &&& (O_WRONLY ||| O_RDWR) = 0 then a.failed
    else
      match a.node f.location with
      | some (.file data) =>
        let offset := f.offset.toNat % 2 ^ 32
        let n := part offset count.toNat
        (⟨n, []⟩, (a.set f.location (some (.file (stored data offset n buffer)))).moveBy fd f n)
      | _ => a.failed

def lseek (a : Namespace) (fd : BitVec 32) (offset : BitVec 64) (origin : BitVec 8) : Reply × Namespace :=
  match a.fd fd.toNat with
  | none => (⟨(BitVec.allOnes 64).toNat, []⟩, a)
  | some f =>
    let moved :=
      if origin = SEEK_SET then some offset
      else if origin = SEEK_CUR then some (f.offset + offset)
      else if origin = SEEK_END then some (BitVec.ofNat 64 BASIC_ALLOC + offset)
      else none
    match moved with
    | none => (⟨(BitVec.allOnes 64).toNat, []⟩, a)
    | some offset => (⟨offset.toNat, []⟩, a.setFd fd.toNat (some { f with offset := offset }))

noncomputable def step (a : Namespace) : Op → Reply × Namespace
  | .mkdir thread pathname => a.mkdir thread pathname
  | .chdir thread pathname => a.chdir thread pathname
  | .rm thread pathname => a.rm thread pathname
  | .rmdir thread pathname => a.rmdir thread pathname
  | .open thread pathname flag => a.openFile thread pathname flag
  | .close fd => a.close fd
  | .read fd count => a.read fd count
  | .write fd buffer count => a.write fd buffer count
  | .lseek fd offset origin => a.lseek fd offset origin

end Namespace

end KPanic.DeviceFS

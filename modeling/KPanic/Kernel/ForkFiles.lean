import Std.Data.TreeMap.Lemmas
import KPanic.Fs.FileData
import KPanic.Fs.InodePersistence

/-!
# Open files across `fork`

The copy constructor of `UserProcess` copies the files behind the descriptors through `File`, so
the copies lose their class and with it `MinixFSFile::read` and `MinixFSFile::write`. A descriptor
stands for the file behind it here; the numbers are the matter of `LocalFDs`.
-/

namespace KPanic.ForkFiles

open Std (TreeMap)
open Bytes
open Function
open Minix
open Wp

/-! ### The copy constructor -/

structure UserProcess where
  fd_ : ℤ
  fds_ : TreeMap ℤ File

/-- `new File(*file)` -/
def copyFile (f : File) : File := { f with class_ := .File }

/-- The loop over `copy_fds`. -/
def copyFds : List (ℤ × File) → TreeMap ℤ File → TreeMap ℤ File
  | [], fds_ => fds_
  | entry :: entries, fds_ => copyFds entries (fds_.insert entry.1 (copyFile entry.2))

/-- The constructor; `opened` is the file of the program, which it opens anew. -/
def fork (proc : UserProcess) (opened : File) : UserProcess where
  fd_ := proc.fd_
  fds_ := (copyFds proc.fds_.toList ∅).insert proc.fd_ opened

theorem copyFds_other {entries : List (ℤ × File)} {fds_ : TreeMap ℤ File} {l : ℤ}
    (h : ∀ e ∈ entries, e.1 ≠ l) : (copyFds entries fds_)[l]? = fds_[l]? := by
  induction entries generalizing fds_ with
  | nil => rfl
  | cons e entries ih =>
    have hne : e.1 ≠ l := h e List.mem_cons_self
    rw [copyFds, ih fun e' he' => h e' (List.mem_cons_of_mem _ he'), TreeMap.getElem?_insert,
      if_neg fun heq => hne (Std.LawfulEqCmp.eq_of_compare heq)]

theorem copyFds_mem {entries : List (ℤ × File)} {fds_ : TreeMap ℤ File} {l : ℤ} {f : File}
    (hkeys : entries.Pairwise fun a b => a.1 ≠ b.1) (h : (l, f) ∈ entries) :
    (copyFds entries fds_)[l]? = some (copyFile f) := by
  induction entries generalizing fds_ with
  | nil => cases h
  | cons e entries ih =>
    rw [List.pairwise_cons] at hkeys
    rw [copyFds]
    rcases List.mem_cons.mp h with rfl | h
    · rw [copyFds_other fun e' he' => (hkeys.1 e' he').symm, TreeMap.getElem?_insert_self]
    · exact ih hkeys.2 h

/-- An inherited descriptor of the child. -/
theorem fork_inherits {proc : UserProcess} {opened f : File} {l : ℤ} (hl : l ≠ proc.fd_)
    (hf : proc.fds_[l]? = some f) : (fork proc opened).fds_[l]? = some (copyFile f) := by
  have hkeys : proc.fds_.toList.Pairwise fun a b => a.1 ≠ b.1 := by
    refine TreeMap.distinct_keys_toList.imp fun {a b} hab heq => hab ?_
    rw [heq]
    exact Std.ReflCmp.compare_self
  show ((copyFds proc.fds_.toList ∅).insert proc.fd_ opened)[l]? = _
  rw [TreeMap.getElem?_insert, if_neg fun heq => hl (Std.LawfulEqCmp.eq_of_compare heq).symm]
  exact copyFds_mem hkeys (TreeMap.mem_toList_iff_getElem?_eq_some.mpr hf)

/-! ### Calls on a descriptor -/

inductive Call
  | read (count : ℕ) (buffer : Memory)
  | write (count : ℕ) (buffer : Memory)
  | lseek (offset : UInt64) (origin : ℕ)

/-- The result, the buffer afterwards, and the file. -/
def Call.run (f : File) : Call → Fs (ℤ × Memory × File)
  | read count buffer => VfsSyscall.read f buffer count
  | write count buffer => do
    let (num_written, f) ← VfsSyscall.write f buffer count
    return (num_written, buffer, f)
  | lseek offset origin => do
    let (position, f) ← VfsSyscall.lseek f offset.toNat origin
    return (position, fun _ => 0, f)

def runCalls : List Call → File → Fs (List (ℤ × Memory))
  | [], _ => return []
  | call :: calls, f => do
    let (result, buffer, f) ← call.run f
    let results ← runCalls calls f
    return (result, buffer) :: results

/-- The same results, and the same file system afterwards. -/
def SameCalls (s : MinixFSSuperblock) (calls : List Call) (g f : File) : Prop :=
  (runCalls calls g).run s = (runCalls calls f).run s

/-- The place of a file after `lseek`. -/
def seek (inode : MinixFSInode) (f : File) (offset origin : ℕ) : File :=
  if origin = SEEK_SET then { f with offset_ := offset }
  else if origin = SEEK_CUR then { f with offset_ := add64 f.offset_ offset }
  else if origin = SEEK_END then { f with offset_ := add64 inode.i_size_ offset }
  else f

/-- The calls have nothing to do: nothing is asked for, it is not allowed, or the file ends in
front of it. -/
def Idle (inode : MinixFSInode) : List Call → File → Prop
  | [], _ => True
  | .read count _ :: calls, f => (u32 count = 0 ∨ f.readable = false ∨
      u32 (u32 count + u32 f.offset_) > inode.i_size_ ∧ inode.i_size_ ≤ u32 f.offset_) ∧
        Idle inode calls f
  | .write count _ :: calls, f => (u32 count = 0 ∨ f.writable = false) ∧ Idle inode calls f
  | .lseek offset origin :: calls, f => Idle inode calls (seek inode f offset.toNat origin)

variable {s : MinixFSSuperblock} {f g : File} {call : Call} {calls : List Call}

/-! ### The first call decides -/

theorem runCalls_cons {result : ℤ} {buffer : Memory} {f' : File}
    (h : (call.run f).run s = .ok ((result, buffer, f'), s)) :
    (runCalls (call :: calls) f).run s =
      ((runCalls calls f').run s).map fun p => ((result, buffer) :: p.1, p.2) := by
  rw [runCalls, run_bind_ok h, StateT.run_bind]
  cases hrest : (runCalls calls f').run s with
  | error e => rfl
  | ok p => rfl

theorem sameCalls_cons {result : ℤ} {buffer : Memory} {g' f' : File}
    (hg : (call.run g).run s = .ok ((result, buffer, g'), s))
    (hf : (call.run f).run s = .ok ((result, buffer, f'), s)) :
    SameCalls s (call :: calls) g f ↔ SameCalls s calls g' f' := by
  unfold SameCalls
  rw [runCalls_cons hg, runCalls_cons hf]
  constructor
  · intro h
    cases hg' : (runCalls calls g').run s with
    | error e =>
      cases hf' : (runCalls calls f').run s with
      | error e' =>
        rw [hg', hf'] at h
        cases h
        rfl
      | ok q =>
        rw [hg', hf'] at h
        cases h
    | ok p =>
      cases hf' : (runCalls calls f').run s with
      | error e' =>
        rw [hg', hf'] at h
        cases h
      | ok q =>
        rw [hg', hf'] at h
        injection h with h
        injection h with hresults hstate
        injection hresults with _ hresults
        rw [Prod.ext hresults hstate]
  · intro h
    rw [h]

theorem not_sameCalls {result : ℤ} {results : List (ℤ × Memory)} {buffer : Memory} {u : MinixFSSuperblock}
    (hg : (runCalls (call :: calls) g).run s = .ok ((result, buffer) :: results, u))
    (hf : wp (fun _ => True) (call.run f) (fun p _ => p.1 ≠ result) s) :
    ¬SameCalls s (call :: calls) g f := by
  intro h
  have hrun : wp (fun _ => True) (runCalls (call :: calls) f)
      (fun rs _ => ∃ r ∈ rs.head?, r.1 ≠ result) s := by
    rw [runCalls]
    refine wp_seq hf fun p t hp => ?_
    refine wp_skip fun rs _ => ?_
    exact (wp_pure _).mpr ⟨(p.1, p.2.1), rfl, hp⟩
  obtain ⟨r, hr, hne⟩ := of_wp hrun (h.symm.trans hg)
  cases hr
  exact hne rfl

/-! ### Calls on the copy, and calls with nothing to do -/

variable {inode : MinixFSInode} {buffer : Memory} {count : ℕ}

/-- What a call returns that reads or writes nothing. -/
def idleResult (count : ℕ) (mode : Bool) : ℤ :=
  if u32 count = 0 then 0 else if mode = false then -1 else 0

theorem run_inode (hinode : s.all_inodes_ f.f_inode_ = some inode) :
    (Fs.inode f.f_inode_).run s = .ok (inode, s) := by
  obtain ⟨a, t, hrun, rfl, rfl⟩ := returns_of_wp
    (wp_inode (Q := fun a t => a = inode ∧ t = s) hinode ⟨rfl, rfl⟩)
  exact hrun

/-- `lseek` does not depend on the class of the file. -/
theorem run_lseek (offset : UInt64) (origin : ℕ) (hinode : s.all_inodes_ f.f_inode_ = some inode) :
    ((Call.lseek offset origin).run f).run s =
      .ok ((if origin = SEEK_SET ∨ origin = SEEK_CUR ∨ origin = SEEK_END then
          ((seek inode f offset.toNat origin).offset_ : ℤ) else ((2 ^ 64 - 1 : ℕ) : ℤ),
        fun _ => 0, seek inode f offset.toNat origin), s) := by
  unfold Call.run VfsSyscall.lseek File.lseek seek
  by_cases hset : origin = SEEK_SET
  · simp only [hset, true_or, if_true]
    rfl
  · by_cases hcur : origin = SEEK_CUR
    · simp only [hcur, show SEEK_CUR ≠ SEEK_SET by decide, true_or, or_true, if_true, if_false]
      rfl
    · by_cases hend : origin = SEEK_END
      · simp only [hend, show SEEK_END ≠ SEEK_SET by decide, show SEEK_END ≠ SEEK_CUR by decide,
          or_true, if_true, if_false]
        rw [StateT.run_bind, StateT.run_bind, run_inode hinode]
        rfl
      · simp only [hset, hcur, hend, or_self, if_false]
        rfl

theorem copy_read (hclass : g.class_ = .File) :
    ((Call.read count buffer).run g).run s =
      .ok ((idleResult count g.readable, buffer, g), s) := by
  show (VfsSyscall.read g buffer count).run s = _
  unfold VfsSyscall.read idleResult
  by_cases hcount : u32 count = 0
  · rw [if_pos hcount, if_pos hcount]
    rfl
  · rw [if_neg hcount, if_neg hcount]
    by_cases hmode : g.readable = false
    · rw [if_pos hmode, if_pos hmode]
      rfl
    · rw [if_neg hmode, if_neg hmode, File.read, hclass]
      rfl

theorem run_write {result : ℤ} {f' : File}
    (h : (VfsSyscall.write f buffer count).run s = .ok ((result, f'), s)) :
    ((Call.write count buffer).run f).run s = .ok ((result, buffer, f'), s) := by
  rw [Call.run, run_bind_ok h]
  rfl

theorem copy_write (hclass : g.class_ = .File) :
    ((Call.write count buffer).run g).run s =
      .ok ((idleResult count g.writable, buffer, g), s) := by
  refine run_write ?_
  unfold VfsSyscall.write idleResult
  by_cases hcount : u32 count = 0
  · rw [if_pos hcount, if_pos hcount]
    rfl
  · rw [if_neg hcount, if_neg hcount]
    by_cases hmode : g.writable = false
    · rw [if_pos hmode, if_pos hmode]
      rfl
    · rw [if_neg hmode, if_neg hmode, File.write, hclass]
      rfl

theorem seek_class {offset origin : ℕ} : (seek inode f offset origin).class_ = f.class_ := by
  unfold seek
  split
  · rfl
  · split
    · rfl
    · split
      · rfl
      · rfl

theorem seek_inode {offset origin : ℕ} : (seek inode f offset origin).f_inode_ = f.f_inode_ := by
  unfold seek
  split
  · rfl
  · split
    · rfl
    · split
      · rfl
      · rfl

theorem seek_offset_lt {offset origin : ℕ} (hf : f.offset_ < 2 ^ 64) (hoffset : offset < 2 ^ 64) :
    (seek inode f offset origin).offset_ < 2 ^ 64 := by
  unfold seek add64
  split
  · exact hoffset
  · split
    · exact Nat.mod_lt _ (by decide)
    · split
      · exact Nat.mod_lt _ (by decide)
      · exact hf

/-- No call on the copy fails. -/
theorem copy_returns (hclass : g.class_ = .File) (hinode : s.all_inodes_ g.f_inode_ = some inode) :
    ∃ results, (runCalls calls g).run s = .ok (results, s) := by
  induction calls generalizing g with
  | nil => exact ⟨[], rfl⟩
  | cons call calls ih =>
    cases call with
    | read count buffer =>
      obtain ⟨results, hrun⟩ := ih hclass hinode
      rw [runCalls_cons (copy_read hclass), hrun]
      exact ⟨_, rfl⟩
    | write count buffer =>
      obtain ⟨results, hrun⟩ := ih hclass hinode
      rw [runCalls_cons (copy_write hclass), hrun]
      exact ⟨_, rfl⟩
    | lseek offset origin =>
      obtain ⟨results, hrun⟩ := ih (seek_class.trans hclass) (seek_inode (f := g) ▸ hinode)
      rw [runCalls_cons (run_lseek offset origin hinode), hrun]
      exact ⟨_, rfl⟩

/-! ### Reads and writes of the file itself -/

theorem readData_count {offset size : ℕ} : wp (fun _ => True)
    (MinixFSInode.readData inode offset size buffer)
    (fun r _ => r.1 = readCount inode.i_size_ offset size) s := by
  unfold MinixFSInode.readData
  by_cases hend : u32 (size + offset) > inode.i_size_ ∧ inode.i_size_ ≤ offset
  · rw [if_pos hend, wp_pure, readCount, if_pos hend.1]
    exact (Nat.sub_eq_zero_of_le hend.2).symm
  · rw [if_neg hend]
    refine wp_skip fun b _ => ?_
    exact (wp_pure _).mpr rfl

theorem writeData_count {i_num offset size : ℕ} : wp (fun _ => True)
    (MinixFSInode.writeData i_num offset size buffer) (fun n _ => n = size) s := by
  unfold MinixFSInode.writeData
  refine wp_skip fun inode _ => ?_
  refine wp_skip_ite fun i_zones_ _ => ?_
  refine wp_skip_ite fun inode _ => ?_
  refine wp_skip fun wbuffer _ => ?_
  refine wp_skip fun _ _ => ?_
  refine wp_skip fun _ _ => ?_
  exact (wp_pure _).mpr rfl

theorem int32_ne_zero {n : ℕ} (hpos : 0 < n) (hlt : n < 2 ^ 32) : int32 n ≠ 0 := by
  unfold int32
  rw [BitVec.toInt_eq_toNat_cond, BitVec.toNat_ofNat, Nat.mod_eq_of_lt hlt]
  split
  · omega
  · omega

theorem addOffset_zero {offset_ : ℕ} (h : offset_ < 2 ^ 64) : addOffset offset_ 0 = offset_ := by
  unfold addOffset
  omega

theorem idle_read (hinode : s.all_inodes_ f.f_inode_ = some inode) (hoffset : f.offset_ < 2 ^ 64)
    (hidle : u32 count = 0 ∨ f.readable = false ∨
      u32 (u32 count + u32 f.offset_) > inode.i_size_ ∧ inode.i_size_ ≤ u32 f.offset_) :
    ((Call.read count buffer).run f).run s =
      .ok ((idleResult count f.readable, buffer, f), s) := by
  cases hclass : f.class_ with
  | File => exact copy_read hclass
  | MinixFSFile =>
    show (VfsSyscall.read f buffer count).run s = _
    unfold VfsSyscall.read idleResult
    by_cases hcount : u32 count = 0
    · rw [if_pos hcount, if_pos hcount]
      rfl
    · rw [if_neg hcount, if_neg hcount]
      by_cases hmode : f.readable = false
      · rw [if_pos hmode, if_pos hmode]
        rfl
      · have hend := (hidle.resolve_left hcount).resolve_left hmode
        have hadd : u32 (add64 f.offset_ 0) = u32 f.offset_ := by
          unfold add64 u32
          omega
        have hcast : u32 (u32 count) = u32 count := Nat.mod_mod _ _
        rw [if_neg hmode, if_neg hmode, File.read, hclass]
        dsimp only
        rw [if_pos (eq_true_of_ne_false hmode), run_bind_ok (run_inode hinode), hadd, hcast,
          MinixFSInode.readData, if_pos hend]
        rw [← hclass]
        show Except.ok ((int32 0, buffer, { f with offset_ := addOffset f.offset_ (int32 0) }), s) = _
        rw [show int32 0 = 0 by decide, addOffset_zero hoffset]

theorem busy_read (hclass : f.class_ = .MinixFSFile) (hinode : s.all_inodes_ f.f_inode_ = some inode)
    (hbusy : ¬(u32 count = 0 ∨ f.readable = false ∨
      u32 (u32 count + u32 f.offset_) > inode.i_size_ ∧ inode.i_size_ ≤ u32 f.offset_)) :
    wp (fun _ => True) ((Call.read count buffer).run f)
      (fun p _ => p.1 ≠ idleResult count f.readable) s := by
  have hcount : ¬u32 count = 0 := fun h => hbusy (.inl h)
  have hmode : ¬f.readable = false := fun h => hbusy (.inr (.inl h))
  have hend : ¬(u32 (u32 count + u32 f.offset_) > inode.i_size_ ∧ inode.i_size_ ≤ u32 f.offset_) :=
    fun h => hbusy (.inr (.inr h))
  have hadd : u32 (add64 f.offset_ 0) = u32 f.offset_ := by
    unfold add64 u32
    omega
  have hcast : u32 (u32 count) = u32 count := Nat.mod_mod _ _
  have hpos : 0 < readCount inode.i_size_ (u32 f.offset_) (u32 count) ∧
      readCount inode.i_size_ (u32 f.offset_) (u32 count) < 2 ^ 32 := by
    unfold readCount u32 at *
    split
    · omega
    · omega
  unfold idleResult
  rw [if_neg hcount, if_neg hmode]
  show wp _ (VfsSyscall.read f buffer count) _ s
  rw [VfsSyscall.read, if_neg hcount, if_neg hmode, File.read, hclass]
  dsimp only
  rw [if_pos (eq_true_of_ne_false hmode), wp_bind, hadd, hcast]
  refine wp_inode hinode ?_
  refine wp_seq readData_count fun r t hr => ?_
  refine (wp_pure _).mpr ?_
  dsimp only
  rw [hr]
  exact int32_ne_zero hpos.1 hpos.2

theorem idle_write (hidle : u32 count = 0 ∨ f.writable = false) :
    ((Call.write count buffer).run f).run s =
      .ok ((idleResult count f.writable, buffer, f), s) := by
  refine run_write ?_
  unfold VfsSyscall.write idleResult
  by_cases hcount : u32 count = 0
  · rw [if_pos hcount, if_pos hcount]
    rfl
  · have hmode := hidle.resolve_left hcount
    rw [if_neg hcount, if_neg hcount, if_pos hmode, if_pos hmode]
    rfl

theorem busy_write (hclass : f.class_ = .MinixFSFile)
    (hbusy : ¬(u32 count = 0 ∨ f.writable = false)) :
    wp (fun _ => True) ((Call.write count buffer).run f)
      (fun p _ => p.1 ≠ idleResult count f.writable) s := by
  have hcount : ¬u32 count = 0 := fun h => hbusy (.inl h)
  have hmode : ¬f.writable = false := fun h => hbusy (.inr h)
  have hcast : u32 (u32 count) = u32 count := Nat.mod_mod _ _
  have hlt : u32 count < 2 ^ 32 := Nat.mod_lt _ (by decide)
  unfold idleResult
  rw [if_neg hcount, if_neg hmode, Call.run, wp_bind, VfsSyscall.write, if_neg hcount, if_neg hmode,
    File.write, hclass]
  dsimp only
  rw [if_pos (eq_true_of_ne_false hmode), wp_bind, hcast]
  refine wp_mono writeData_count fun n t hn => ?_
  simp only [wp_pure]
  rw [hn]
  exact int32_ne_zero (Nat.pos_of_ne_zero hcount) hlt

/-! ### The child's descriptor and the parent's -/

/-- Without zones to read or write, the copy does what the file does; the first call that has
something to do sets them apart. -/
theorem sameCalls_iff (hg : g = copyFile f) (hclass : f.class_ = .MinixFSFile)
    (hinode : s.all_inodes_ f.f_inode_ = some inode) (hoffset : f.offset_ < 2 ^ 64) :
    SameCalls s calls g f ↔ Idle inode calls f := by
  induction calls generalizing f g with
  | nil => exact iff_of_true rfl trivial
  | cons call calls ih =>
    have hgclass : g.class_ = .File := by rw [hg]; rfl
    have hginode : s.all_inodes_ g.f_inode_ = some inode := by rw [hg]; exact hinode
    cases call with
    | read count buffer =>
      have hcopy : ((Call.read count buffer).run g).run s =
          .ok ((idleResult count f.readable, buffer, g), s) := by
        rw [copy_read hgclass, hg]
        rfl
      by_cases hidle : u32 count = 0 ∨ f.readable = false ∨
          u32 (u32 count + u32 f.offset_) > inode.i_size_ ∧ inode.i_size_ ≤ u32 f.offset_
      · rw [sameCalls_cons hcopy (idle_read hinode hoffset hidle), ih hg hclass hinode hoffset]
        exact (and_iff_right hidle).symm
      · obtain ⟨results, hrest⟩ : ∃ results, (runCalls calls g).run s = .ok (results, s) :=
          copy_returns hgclass hginode
        have hrun := (runCalls_cons hcopy).trans (congrArg _ hrest)
        exact iff_of_false (not_sameCalls hrun (busy_read hclass hinode hidle)) fun h => hidle h.1
    | write count buffer =>
      have hcopy : ((Call.write count buffer).run g).run s =
          .ok ((idleResult count f.writable, buffer, g), s) := by
        rw [copy_write hgclass, hg]
        rfl
      by_cases hidle : u32 count = 0 ∨ f.writable = false
      · rw [sameCalls_cons hcopy (idle_write hidle), ih hg hclass hinode hoffset]
        exact (and_iff_right hidle).symm
      · obtain ⟨results, hrest⟩ : ∃ results, (runCalls calls g).run s = .ok (results, s) :=
          copy_returns hgclass hginode
        have hrun := (runCalls_cons hcopy).trans (congrArg _ hrest)
        exact iff_of_false (not_sameCalls hrun (busy_write hclass hidle)) fun h => hidle h.1
    | lseek offset origin =>
      have hseek : seek inode g offset.toNat origin = copyFile (seek inode f offset.toNat origin) := by
        rw [hg]
        unfold seek
        split
        · rfl
        · split
          · rfl
          · split
            · rfl
            · rfl
      have hplace : (seek inode g offset.toNat origin).offset_ =
          (seek inode f offset.toNat origin).offset_ := by
        rw [hseek]
        rfl
      have hgrun := run_lseek offset origin hginode
      rw [hplace] at hgrun
      rw [sameCalls_cons hgrun (run_lseek offset origin hinode)]
      exact ih hseek (seek_class.trans hclass) (seek_inode (f := f) ▸ hinode)
        (seek_offset_lt hoffset offset.toNat_lt)

/-- An inherited descriptor of the child does what the descriptor of its parent does if the parent
has inherited it as well, or if the calls have nothing to do. -/
theorem fork_keeps_file_iff {proc : UserProcess} {opened : File} {l : ℤ} (hl : l ≠ proc.fd_)
    (hf : proc.fds_[l]? = some f) (hinode : s.all_inodes_ f.f_inode_ = some inode)
    (hoffset : f.offset_ < 2 ^ 64) :
    ∃ g, (fork proc opened).fds_[l]? = some g ∧
      (SameCalls s calls g f ↔ f.class_ = .File ∨ Idle inode calls f) := by
  refine ⟨copyFile f, fork_inherits hl hf, ?_⟩
  cases hclass : f.class_ with
  | File =>
    have hcopy : copyFile f = f := by
      rw [copyFile, ← hclass]
    rw [hcopy]
    exact iff_of_true rfl (.inl rfl)
  | MinixFSFile =>
    rw [sameCalls_iff rfl hclass hinode hoffset]
    exact (or_iff_right (by decide)).symm

/-- A process that has opened the file of five bytes as descriptor 4. -/
def opened : UserProcess where
  fd_ := 3
  fds_ := TreeMap.empty.insert 4 ⟨.MinixFSFile, 2, O_RDONLY, 0⟩

/-- The child goes to the end of the file, and reads nothing there. -/
theorem end_is_read_alike :
    ∃ g, (fork opened ⟨.MinixFSFile, 7, O_RDONLY, 0⟩).fds_[(4 : ℤ)]? = some g ∧
      SameCalls (ownedBy 0) [.lseek 0 SEEK_END, .read 8 fun _ => 0] g
        ⟨.MinixFSFile, 2, O_RDONLY, 0⟩ := by
  have hl : (4 : ℤ) ≠ opened.fd_ := by decide
  have hf : opened.fds_[(4 : ℤ)]? = some ⟨.MinixFSFile, 2, O_RDONLY, 0⟩ := TreeMap.getElem?_insert_self
  have hinode : (ownedBy 0).all_inodes_ 2 = some fiveBytes := rfl
  obtain ⟨g, hg, hsame⟩ : ∃ g, (fork opened ⟨.MinixFSFile, 7, O_RDONLY, 0⟩).fds_[(4 : ℤ)]? = some g ∧
      (SameCalls (ownedBy 0) [.lseek 0 SEEK_END, .read 8 fun _ => 0] g
        ⟨.MinixFSFile, 2, O_RDONLY, 0⟩ ↔ _) := fork_keeps_file_iff hl hf hinode (by decide)
  have hend : u32 (u32 8 + u32 (add64 5 0)) > 5 ∧ 5 ≤ u32 (add64 5 0) := by decide +kernel
  exact ⟨g, hg, hsame.mpr (.inr ⟨.inr (.inr hend), trivial⟩)⟩

/-- The parent reads five bytes, the child none. -/
theorem child_reads_nothing :
    (fork opened ⟨.MinixFSFile, 7, O_RDONLY, 0⟩).fds_[(4 : ℤ)]? = some ⟨.File, 2, O_RDONLY, 0⟩ ∧
      ((VfsSyscall.read ⟨.MinixFSFile, 2, O_RDONLY, 0⟩ (fun _ => 0) 5).run
        (ownedBy 0)).toOption.map (fun p => p.1.1) = some 5 ∧
      ((VfsSyscall.read ⟨.File, 2, O_RDONLY, 0⟩ (fun _ => 0) 5).run
        (ownedBy 0)).toOption.map (fun p => p.1.1) = some 0 ∧
      ¬SameCalls (ownedBy 0) [.read 5 fun _ => 0] ⟨.File, 2, O_RDONLY, 0⟩
        ⟨.MinixFSFile, 2, O_RDONLY, 0⟩ := by
  have hl : (4 : ℤ) ≠ opened.fd_ := by decide
  have hf : opened.fds_[(4 : ℤ)]? = some ⟨.MinixFSFile, 2, O_RDONLY, 0⟩ := TreeMap.getElem?_insert_self
  have hidle : ¬Idle fiveBytes [.read 5 fun _ => 0] ⟨.MinixFSFile, 2, O_RDONLY, 0⟩ := by
    rintro ⟨h, -⟩
    have hbusy : ¬(u32 5 = 0 ∨ (⟨.MinixFSFile, 2, O_RDONLY, 0⟩ : File).readable = false ∨
      u32 (u32 5 + u32 0) > fiveBytes.i_size_ ∧ fiveBytes.i_size_ ≤ u32 0) := by decide
    exact hbusy h
  refine ⟨fork_inherits hl hf, ?_, ?_, ?_⟩
  · decide +kernel
  · rfl
  · exact (sameCalls_iff rfl rfl rfl (by decide)).not.mpr hidle

end KPanic.ForkFiles

import KPanic.Fs.EntryCalls

/-!
# What one descriptor writes another one reads

Between the write and the read any thread may make any calls, as long as they do not write and do not close the descriptor.
-/

namespace KPanic.DeviceFS

open Function
open Wp

variable {s : Fs} {loc : Loc} {a : Namespace} {n : ℕ} {f : OpenFile} {data buffer : ℕ → Byte} {op : Op} {ops : List Op}
  {x y : FileDescriptor} {F G : File} {fd count : BitVec 32} {thread : ℕ} {q : List Char} {l : Location}

/-- The call neither writes nor closes the descriptor `n`. -/
def Op.Keeps (n : ℕ) : Op → Prop
  | .write _ _ _ => False
  | .close fd => fd.toNat ≠ n
  | _ => True

namespace Namespace

/-- The descriptor is open for a file with the data. -/
def Reads (a : Namespace) (n : ℕ) (l : Location) (flag : BitVec 32) (data : ℕ → Byte) : Prop :=
  (∃ offset, a.fd n = some ⟨l, flag, offset⟩) ∧ a.node l = some (.file data)

variable {flag : BitVec 32}

theorem Reads.set {l' : Location} {node : Option Node} (h : a.Reads n l flag data) (hl : l' ≠ l) : (a.set l' node).Reads n l flag data :=
  ⟨h.1, (update_of_ne hl.symm _ _).trans h.2⟩

theorem Reads.setFd {m : ℕ} {o : Option OpenFile} (h : a.Reads n l flag data) (hm : m ≠ n) : (a.setFd m o).Reads n l flag data := by
  obtain ⟨⟨offset, hf⟩, hnode⟩ := h
  exact ⟨⟨offset, (update_of_ne hm.symm _ _).trans hf⟩, hnode⟩

/-- The descriptor of a number moves. -/
theorem Reads.move {m : ℕ} {g : OpenFile} (h : a.Reads n l flag data) (hg : a.fd m = some g) (offset : BitVec 64) :
    (a.setFd m (some { g with offset := offset })).Reads n l flag data := by
  by_cases hm : m = n
  · obtain ⟨⟨offset', hf⟩, hnode⟩ := h
    rw [hm, hf] at hg
    obtain rfl := Option.some.inj hg
    exact ⟨⟨offset, by rw [hm]; exact update_self _ _ _⟩, hnode⟩
  · exact h.setFd hm

theorem Reads.create (h : a.Reads n l flag data) (hsep : PathWalker.SEPARATOR ∈ q) (hfree : a.Free thread q)
    (hnone : a.walk thread q = none) {node : Node} {out : Location × Namespace} (hcreate : a.create thread q node = some out) :
    out.2.Reads n l flag data := by
  obtain ⟨l', hl', rfl⟩ := create_cases hcreate
  refine h.set ?_
  intro hl
  have hnode := h.2
  rw [← hl, absent hsep hfree hnone hl'] at hnode
  cases hnode

end Namespace

/-- One call. -/
theorem reads_step {flag : BitVec 32} (h : a.Reads n l flag data) (hallowed : a.Allowed op) (hkeeps : op.Keeps n)
    (hnum : n < a.fd_num) : (a.step op).2.Reads n l flag data ∧ n < (a.step op).2.fd_num := by
  obtain ⟨⟨offset, hf⟩, hnode⟩ := id h
  cases op with
  | mkdir thread pathname =>
    show (a.mkdir thread pathname).2.Reads n l flag data ∧ n < (a.mkdir thread pathname).2.fd_num
    rw [Namespace.mkdir]
    split
    · exact ⟨h, hnum⟩
    · rename_i hwalk
      split
      · exact ⟨h, hnum⟩
      · rename_i l' a' hcreate
        refine ⟨h.create (Namespace.mem_prefixed pathname) hallowed hwalk hcreate, ?_⟩
        obtain ⟨l'', -, hout⟩ := Namespace.create_cases hcreate
        cases hout
        exact hnum
  | chdir thread pathname =>
    show (a.chdir thread pathname).2.Reads n l flag data ∧ n < (a.chdir thread pathname).2.fd_num
    rw [Namespace.chdir]
    split
    · exact ⟨h, hnum⟩
    · split
      · exact ⟨⟨⟨offset, hf⟩, hnode⟩, hnum⟩
      · exact ⟨h, hnum⟩
  | rm thread pathname =>
    show (a.rm thread pathname).2.Reads n l flag data ∧ n < (a.rm thread pathname).2.fd_num
    rw [Namespace.rm]
    split
    · exact ⟨h, hnum⟩
    · rename_i l' hwalk
      split
      · by_cases hopened : a.Opened l'
        · rw [if_pos hopened]
          exact ⟨h, hnum⟩
        · rw [if_neg hopened]
          refine ⟨h.set ?_, hnum⟩
          rintro rfl
          exact hopened ⟨n, _, hf, rfl⟩
      · exact ⟨h, hnum⟩
  | rmdir thread pathname =>
    show (a.rmdir thread pathname).2.Reads n l flag data ∧ n < (a.rmdir thread pathname).2.fd_num
    rw [Namespace.rmdir]
    split
    · exact ⟨h, hnum⟩
    · rename_i l' hwalk
      split
      · rename_i hdir
        by_cases hinhabited : a.Inhabited l'
        · rw [if_pos hinhabited]
          exact ⟨h, hnum⟩
        · rw [if_neg hinhabited]
          refine ⟨h.set ?_, hnum⟩
          rintro rfl
          rw [hnode] at hdir
          cases hdir
      · exact ⟨h, hnum⟩
  | «open» thread pathname flag' =>
    have hopen : ∀ b : Namespace, b.Reads n l flag data → n < b.fd_num → ∀ l',
        (b.openAt l' flag').2.Reads n l flag data ∧ n < (b.openAt l' flag').2.fd_num :=
      fun b hb hnum l' => ⟨hb.setFd (Nat.ne_of_gt hnum), Nat.lt_succ_of_lt hnum⟩
    show (a.openFile thread pathname flag').2.Reads n l flag data ∧ n < (a.openFile thread pathname flag').2.fd_num
    rw [Namespace.openFile]
    split
    · exact ⟨h, hnum⟩
    · split
      · split
        · exact hopen a h hnum _
        · exact ⟨h, hnum⟩
      · rename_i hwalk
        split
        · split
          · exact ⟨h, hnum⟩
          · rename_i l' a' hcreate
            have hread := h.create (Namespace.mem_prefixed pathname) hallowed.2 hwalk hcreate
            obtain ⟨l'', -, hout⟩ := Namespace.create_cases hcreate
            cases hout
            exact hopen _ hread hnum _
        · exact ⟨h, hnum⟩
  | close fd =>
    show (a.close fd).2.Reads n l flag data ∧ n < (a.close fd).2.fd_num
    rw [Namespace.close]
    split
    · exact ⟨h, hnum⟩
    · exact ⟨h.setFd hkeeps, hnum⟩
  | read fd count =>
    show (a.read fd count).2.Reads n l flag data ∧ n < (a.read fd count).2.fd_num
    rw [Namespace.read]
    split
    · exact ⟨h, hnum⟩
    · rename_i g hg
      split
      · exact ⟨h, hnum⟩
      · split
        · exact ⟨h, hnum⟩
        · split
          · exact ⟨h.move hg _, hnum⟩
          · exact ⟨h, hnum⟩
  | write fd buffer count => exact hkeeps.elim
  | lseek fd offset' origin =>
    show (a.lseek fd offset' origin).2.Reads n l flag data ∧ n < (a.lseek fd offset' origin).2.fd_num
    rw [Namespace.lseek]
    split
    · exact ⟨h, hnum⟩
    · rename_i g hg
      dsimp only
      split
      · exact ⟨h, hnum⟩
      · exact ⟨h.move hg _, hnum⟩

/-- Any calls of any threads. -/
theorem reads_run {flag : BitVec 32} (h : a.Reads n l flag data) (hallowed : a.AllowedRun ops) (hkeeps : ∀ op ∈ ops, op.Keeps n)
    (hnum : n < a.fd_num) : (a.run ops).2.Reads n l flag data := by
  induction ops generalizing a with
  | nil => exact h
  | cons op ops ih =>
    obtain ⟨hread, hnum'⟩ := reads_step h hallowed.1 (hkeeps op List.mem_cons_self) hnum
    exact ih hread hallowed.2 (fun op' h' => hkeeps op' (List.mem_cons_of_mem _ h')) hnum'

/-- The open file of a descriptor. -/
theorem Represents.open_file (R : Represents s loc a) (hx : x ∈ s.global_fd) (hF : s.file x.file_ = some F) :
    x.getFd.toNat = x.fd_ ∧ x.fd_ < a.fd_num ∧ ∃ D d l I data, Object s loc a l d D F.f_inode_ I ∧
      a.fd x.fd_ = some ⟨l, F.flag_, F.offset_⟩ ∧ a.node l = some (.file data) := by
  rw [R.files.global] at hx
  have hlt := R.files.number hx
  have hnum := R.numbers
  have hfd : x.getFd.toNat = x.fd_ := by
    rw [FileDescriptor.getFd, BitVec.toNat_ofNat, Nat.mod_eq_of_lt (by omega)]
  obtain ⟨J, d, l, hJ, hback, hd, hopen⟩ := R.descriptors.fd hx hF
  obtain ⟨J', hJ', hfile⟩ := R.files.inode hF
  rw [hJ] at hJ'
  cases hJ'
  obtain ⟨D, i, I, E⟩ := R.object hd
  obtain ⟨d', D', hd', hD', hDi⟩ := R.inodes.dentry hJ
  obtain rfl := Option.some.inj (hd'.symm.trans hback)
  have hD := hD'.symm.trans E.dentry
  cases hD
  obtain rfl := Option.some.inj (hDi.symm.trans E.inode)
  have hI := hJ.symm.trans E.object
  cases hI
  obtain ⟨data, hdata⟩ := (R.inodes.file_iff hJ).mp hfile
  refine ⟨hfd, by rw [R.descriptors.fd_num]; exact hlt, D, d', l, J, data, E, hopen, ?_⟩
  rw [E.node, Inode.node, hdata]

/-- A descriptor is moved to `offset` and read. -/
theorem read_at {flag : BitVec 32} (R : Represents s loc a) (hfd : x.getFd.toNat = x.fd_) (h : a.Reads x.fd_ l flag data)
    (hflag : flag &&& (O_RDONLY ||| O_RDWR) ≠ 0) (hcount : count ≠ 0) (offset : BitVec 64) :
    ∃ s' s'', (VfsSyscall.lseek x.getFd offset SEEK_SET).run s = .ok (⟨offset.toNat, []⟩, s') ∧
      (VfsSyscall.read x.getFd count).run s' = .ok (⟨Namespace.part (offset.toNat % 2 ^ 32) count.toNat,
        (List.range (Namespace.part (offset.toNat % 2 ^ 32) count.toNat)).map fun k => data (offset.toNat % 2 ^ 32 + k)⟩, s'') := by
  obtain ⟨⟨offset', hopen⟩, hnode⟩ := id h
  have hseek : a.step (.lseek x.getFd offset SEEK_SET) = (⟨offset.toNat, []⟩, a.setFd x.fd_ (some ⟨l, flag, offset⟩)) := by
    show a.lseek x.getFd offset SEEK_SET = _
    rw [Namespace.lseek, hfd, hopen]
    rfl
  have hallowed : a.Allowed (.lseek x.getFd offset SEEK_SET) := trivial
  obtain ⟨s', loc', hrun, R', -⟩ := step_refines R hallowed
  rw [hseek] at hrun R'
  have hopen' : (a.setFd x.fd_ (some ⟨l, flag, offset⟩)).fd x.fd_ = some ⟨l, flag, offset⟩ := update_self _ _ _
  have hnode' : (a.setFd x.fd_ (some ⟨l, flag, offset⟩)).node l = some (.file data) := hnode
  have hread : ((a.setFd x.fd_ (some ⟨l, flag, offset⟩)).step (.read x.getFd count)).1 =
      ⟨Namespace.part (offset.toNat % 2 ^ 32) count.toNat,
        (List.range (Namespace.part (offset.toNat % 2 ^ 32) count.toNat)).map fun k => data (offset.toNat % 2 ^ 32 + k)⟩ := by
    show ((a.setFd x.fd_ (some ⟨l, flag, offset⟩)).read x.getFd count).1 = _
    rw [Namespace.read, hfd, hopen']
    dsimp only
    rw [if_neg hcount, if_neg hflag, hnode']
  have hallowed' : (a.setFd x.fd_ (some ⟨l, flag, offset⟩)).Allowed (.read x.getFd count) := trivial
  obtain ⟨s'', loc'', hrun', -, -⟩ := step_refines R' hallowed'
  rw [hread] at hrun'
  exact ⟨s', s'', hrun, hrun'⟩

end KPanic.DeviceFS

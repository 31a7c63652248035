import KPanic.Kernel.FdInvariant
import Mathlib.Data.List.Count

/-!
# Who holds the ends of the pipes

The events of a run say which ends each process has: it gets both when it opens a pipe, its child
gets a copy, an end is gone once it is closed and all are gone when the process ends. `pipes_` and
the counters of the buffers are compared with that.
-/

namespace KPanic.Files

open Std (TreeMap)
open Function Machine Wp

/-! ### The ends that the events leave open -/

/-- The ends of one pipe that a process has not closed. -/
structure Ends where
  buffer : ℕ
  read : Option ℤ
  write : Option ℤ
  deriving DecidableEq

def Ends.close (fd : ℤ) (e : Ends) : Ends :=
  { e with
    read := if e.read = some fd then none else e.read
    write := if e.write = some fd then none else e.write }

def Ends.isOpen (e : Ends) : Bool := e.read.isSome || e.write.isSome

/-- What the processes hold after an event. -/
def after (holds : ℕ → List Ends) : Event → ℕ → List Ends
  | .opened pid read write buffer =>
    update holds pid (⟨buffer, some read, some write⟩ :: holds pid)
  | .closed pid fd => update holds pid (((holds pid).map (Ends.close fd)).filter Ends.isOpen)
  | .forked parent child => update holds child (holds parent)
  | .ended pid => update holds pid []

def holdings (tr : List Event) : ℕ → List Ends := tr.foldl after fun _ => []

theorem holdings_append (tr : List Event) (e : Event) :
    holdings (tr ++ [e]) = after (holdings tr) e := by
  rw [holdings, List.foldl_append]
  rfl

/-! ### The invariant -/

variable {s t : Kernel} {p p' : UserProcess} {tr : List Event} {evs : List Event} {fd : ℤ}
  {n c pid b : ℕ} {pipes_ : TreeMap (ℤ × ℤ) ℕ pairCmp} {buffers : ℕ → Option (RingBuffer Char)}
  {H H' : List ℕ} {holds holds' : ℕ → List Ends}
  {T T' : List (ℕ × TreeMap (ℤ × ℤ) ℕ pairCmp)} {allowed : Failure → Prop}

/-- All ends of the pipes in a table. -/
def ends (pipes_ : TreeMap (ℤ × ℤ) ℕ pairCmp) : List Ends :=
  pipes_.toList.map fun entry => ⟨entry.2, some entry.1.1, some entry.1.2⟩

def buffersOf (pipes_ : TreeMap (ℤ × ℤ) ℕ pairCmp) : List ℕ := pipes_.toList.map Prod.snd

/-- The part of the processes that the pipes depend on. -/
def Kernel.tables (s : Kernel) : List (ℕ × TreeMap (ℤ × ℤ) ℕ pairCmp) :=
  s.process_list_.map fun p => (p.pid_, p.pipes_)

def heldBy (T : List (ℕ × TreeMap (ℤ × ℤ) ℕ pairCmp)) : List ℕ :=
  T.flatMap fun table => buffersOf table.2

/-- The T of processes with pids below `c`, and buffers below `n`. -/
structure TablesOk (holds : ℕ → List Ends) (T : List (ℕ × TreeMap (ℤ × ℤ) ℕ pairCmp))
    (c n : ℕ) : Prop where
  pids : (T.map Prod.fst).Nodup
  fresh : ∀ table ∈ T, table.1 < c
  unborn : ∀ pid, c ≤ pid → holds pid = []
  agrees : ∀ table ∈ T, (holds table.1).Perm (ends table.2)
  once : ∀ table ∈ T, (buffersOf table.2).Nodup
  next : ∀ table ∈ T, ∀ b ∈ buffersOf table.2, b < n

/-- A buffer that `n` processes hold; without a holder it is deleted. -/
def Counts : Option (RingBuffer Char) → ℕ → Prop
  | none, n => n = 0
  | some b, n => b.connected_proc_counter_ = n ∧ 0 < n

def Counted (buffers : ℕ → Option (RingBuffer Char)) (H : List ℕ) : Prop :=
  ∀ b, Counts (buffers b) (H.count b)

structure PipeInv (tr : List Event) (s : Kernel) : Prop where
  tables : TablesOk (holdings tr) s.tables s.pid_counter_ s.nextBuffer
  counted : Counted s.buffers (heldBy s.tables)

theorem TablesOk.perm (h : TablesOk holds T c n) (hp : T.Perm T') :
    TablesOk holds T' c n :=
  ⟨(hp.map _).nodup_iff.mp h.pids, fun x hx => h.fresh x (hp.symm.subset hx), h.unborn,
    fun x hx => h.agrees x (hp.symm.subset hx), fun x hx => h.once x (hp.symm.subset hx),
    fun x hx => h.next x (hp.symm.subset hx)⟩

theorem TablesOk.tail {table : ℕ × TreeMap (ℤ × ℤ) ℕ pairCmp}
    (h : TablesOk holds (table :: T) c n) : TablesOk holds T c n :=
  ⟨(List.nodup_cons.mp h.pids).2, fun x hx => h.fresh x (List.mem_cons_of_mem _ hx), h.unborn,
    fun x hx => h.agrees x (List.mem_cons_of_mem _ hx),
    fun x hx => h.once x (List.mem_cons_of_mem _ hx),
    fun x hx => h.next x (List.mem_cons_of_mem _ hx)⟩

theorem TablesOk.cons (h : TablesOk holds T c n) (hpid : pid ∉ T.map Prod.fst)
    (hlt : pid < c) (hends : (holds pid).Perm (ends pipes_)) (honce : (buffersOf pipes_).Nodup)
    (hnext : ∀ b ∈ buffersOf pipes_, b < n) : TablesOk holds ((pid, pipes_) :: T) c n :=
  ⟨List.nodup_cons.mpr ⟨hpid, h.pids⟩, List.forall_mem_cons.mpr ⟨hlt, h.fresh⟩, h.unborn,
    List.forall_mem_cons.mpr ⟨hends, h.agrees⟩, List.forall_mem_cons.mpr ⟨honce, h.once⟩,
    List.forall_mem_cons.mpr ⟨hnext, h.next⟩⟩

/-- The T of other processes after an event, and with higher bounds. -/
theorem TablesOk.mono (h : TablesOk holds T c n) {c' n' : ℕ} (hc : c ≤ c') (hn : n ≤ n')
    (hsame : ∀ table ∈ T, holds' table.1 = holds table.1)
    (hunborn : ∀ pid, c' ≤ pid → holds' pid = []) : TablesOk holds' T c' n' :=
  ⟨h.pids, fun x hx => (h.fresh x hx).trans_le hc, hunborn, fun x hx => hsame x hx ▸ h.agrees x hx,
    h.once, fun x hx b hb => (h.next x hx b hb).trans_le hn⟩

theorem Counted.perm (h : Counted buffers H) (hp : H.Perm H') : Counted buffers H' :=
  fun b => hp.count_eq b ▸ h b

theorem Counted.live (h : Counted buffers H) (hb : b ∈ H) :
    ∃ B, buffers b = some B ∧ B.connected_proc_counter_ = H.count b := by
  have hcount := h b
  have hpos := List.count_pos_iff.mpr hb
  cases hx : buffers b with
  | none =>
    rw [hx, Counts] at hcount
    omega
  | some B =>
    rw [hx] at hcount
    exact ⟨B, rfl, hcount.1⟩

/-- One buffer is replaced. -/
theorem Counted.update (h : Counted buffers H) {x : Option (RingBuffer Char)}
    (hx : Counts x (H'.count b)) (hne : ∀ b', b' ≠ b → H'.count b' = H.count b') :
    Counted (update buffers b x) H' := by
  intro b'
  by_cases hb : b' = b
  · rw [hb, update_self]
    exact hx
  · rw [update_of_ne hb, hne b' hb]
    exact h b'

theorem PipeInv.congr (I : PipeInv tr s) (htables : t.tables = s.tables)
    (hbuffers : t.buffers = s.buffers) (hnext : t.nextBuffer = s.nextBuffer)
    (hcounter : s.pid_counter_ ≤ t.pid_counter_) : PipeInv tr t := by
  constructor
  · rw [htables, hnext]
    exact I.tables.mono hcounter le_rfl (fun _ _ => rfl) fun pid h => I.tables.unborn pid (hcounter.trans h)
  · rw [htables, hbuffers]
    exact I.counted

theorem mem_tables (hp : p ∈ s.process_list_) : (p.pid_, p.pipes_) ∈ s.tables :=
  List.mem_map_of_mem (f := fun p : UserProcess => (p.pid_, p.pipes_)) hp

theorem PipeInv.nodup (I : PipeInv tr s) : (s.process_list_.map UserProcess.pid_).Nodup := by
  have h := I.tables.pids
  rwa [Kernel.tables, List.map_map] at h

/-- The T of the processes other than `pid`. -/
def Kernel.others (s : Kernel) (pid : ℕ) : List (ℕ × TreeMap (ℤ × ℤ) ℕ pairCmp) :=
  (s.process_list_.filter fun q => q.pid_ ≠ pid).map fun q => (q.pid_, q.pipes_)

theorem others_ne {table : ℕ × TreeMap (ℤ × ℤ) ℕ pairCmp} (h : table ∈ s.others pid) :
    table.1 ≠ pid := by
  obtain ⟨q, hq, rfl⟩ := List.mem_map.mp h
  exact of_decide_eq_true (List.mem_filter.mp hq).2

theorem not_mem_others (s : Kernel) (pid : ℕ) : pid ∉ (s.others pid).map Prod.fst := by
  intro hmem
  obtain ⟨table, h, heq⟩ := List.mem_map.mp hmem
  exact others_ne h heq

theorem PipeInv.split (I : PipeInv tr s) (hp : p ∈ s.process_list_) :
    s.tables.Perm ((p.pid_, p.pipes_) :: s.others p.pid_) :=
  (MapList.perm_cons_filter I.nodup hp).map fun q : UserProcess => (q.pid_, q.pipes_)

/-- The tables of the others, whatever `p` holds then. -/
theorem PipeInv.others (I : PipeInv tr s) (hp : p ∈ s.process_list_) (hn : s.nextBuffer ≤ n)
    (l : List Ends) :
    TablesOk (update (holdings tr) p.pid_ l) (s.others p.pid_) s.pid_counter_ n := by
  refine (I.tables.perm (I.split hp)).tail.mono le_rfl hn (fun table h => ?_) fun pid h => ?_
  · exact update_of_ne (others_ne h) _ _
  · have hlt : p.pid_ < s.pid_counter_ := I.tables.fresh _ (mem_tables hp)
    rw [update_of_ne (by omega)]
    exact I.tables.unborn pid h

theorem PipeInv.replaced {d : UserProcess} (I : PipeInv tr s) (hp : p ∈ s.process_list_) (hpid : d.pid_ = p.pid_)
    (hlist : t.process_list_ = s.process_list_.map fun q => if q.pid_ = d.pid_ then d else q) :
    t.tables.Perm ((p.pid_, d.pipes_) :: s.others p.pid_) := by
  have hperm := (MapList.perm_replace I.nodup hp hpid).map fun q : UserProcess => (q.pid_, q.pipes_)
  rw [List.map_cons, hpid] at hperm
  rw [Kernel.tables, hlist, hpid]
  exact hperm

theorem heldBy_perm (h : T.Perm T') : (heldBy T).Perm (heldBy T') :=
  h.flatMap_right _

/-- A process whose pipes stay as they are. -/
theorem PipeInv.setProcess {d : UserProcess} (I : PipeInv tr s) (hp : p ∈ s.process_list_)
    (hpid : d.pid_ = p.pid_) (hpipes : d.pipes_ = p.pipes_) :
    PipeInv tr { s with
      process_list_ := s.process_list_.map fun q => if q.pid_ = d.pid_ then d else q } := by
  have hperm := I.replaced hp hpid (t := { s with
    process_list_ := s.process_list_.map fun q => if q.pid_ = d.pid_ then d else q }) rfl
  rw [hpipes] at hperm
  have hsame := (I.split hp).trans hperm.symm
  exact ⟨I.tables.perm hsame, I.counted.perm (heldBy_perm hsame)⟩

/-! ### Programs that leave the pipes alone -/

/-- Nothing changes but `global_fd` and its counter. -/
def OnlyGlobal (s t : Kernel) : Prop := ∃ l n, t = { s with global_fd := l, fd_num_ := n }

theorem OnlyGlobal.refl (s : Kernel) : OnlyGlobal s s := ⟨s.global_fd, s.fd_num_, rfl⟩

theorem OnlyGlobal.trans {u : Kernel} (h : OnlyGlobal s t) (h' : OnlyGlobal t u) : OnlyGlobal s u := by
  obtain ⟨_, _, rfl⟩ := h
  obtain ⟨l, n, rfl⟩ := h'
  exact ⟨l, n, rfl⟩

theorem OnlyGlobal.pipeInv (h : OnlyGlobal s t) (I : PipeInv tr s) : PipeInv tr t := by
  obtain ⟨_, _, rfl⟩ := h
  exact I.congr rfl rfl rfl le_rfl

theorem OnlyGlobal.mem (h : OnlyGlobal s t) (hp : p ∈ s.process_list_) : p ∈ t.process_list_ := by
  obtain ⟨_, _, rfl⟩ := h
  exact hp

theorem wp_openGlobal {opens : Bool} :
    wp (· ≠ .freedBuffer) (VfsSyscall.open opens) (fun _ => OnlyGlobal s) s := by
  cases opens with
  | false => exact (wp_pure _).mpr (.refl s)
  | true =>
    simp only [VfsSyscall.open, addFileDescriptor, ↓reduceIte, bind_assoc, pure_bind, wp_bind, wp_get,
      wp_set, wp_pure]
    exact ⟨_, _, rfl⟩

theorem wp_closeGlobal :
    wp (· ≠ .freedBuffer) (VfsSyscall.close n) (fun _ => OnlyGlobal s) s := by
  simp only [VfsSyscall.close, VfsSyscall.getFileDescriptor, bind_assoc, pure_bind, wp_bind, wp_get]
  split
  · exact (wp_pure _).mpr (.refl s)
  · simp only [wp_bind, wp_modify, wp_pure]
    exact ⟨_, _, rfl⟩

theorem wp_copyFdsGlobal {entries : List (ℤ × ℤ)} {fds_ : TreeMap ℤ ℤ} :
    wp (· ≠ .freedBuffer) (copyFds entries fds_) (fun _ => OnlyGlobal s) s := by
  induction entries generalizing s fds_ with
  | nil => exact (wp_pure _).mpr (.refl s)
  | cons entry entries ih =>
    simp only [copyFds, VfsSyscall.getFileDescriptor, bind_assoc, pure_bind, wp_bind, wp_get]
    split
    · exact (wp_throw _).mpr Failure.noConfusion
    · simp only [addFileDescriptor, bind_assoc, pure_bind, wp_bind, wp_get, wp_set]
      exact wp_mono ih fun _ _ h => OnlyGlobal.trans ⟨_, _, rfl⟩ h

theorem wp_closeFdsGlobal {fds : List (ℤ × ℤ)} :
    wp (· ≠ .freedBuffer) (closeFds p fds) (fun _ => OnlyGlobal s) s := by
  induction fds generalizing s with
  | nil => exact (wp_pure _).mpr (.refl s)
  | cons entry fds ih =>
    rw [closeFds]
    split
    · exact (wp_bind _ _ _).mpr ((wp_throw _).mpr Failure.noConfusion)
    · refine wp_seq wp_closeGlobal fun _ t h => ?_
      exact wp_mono ih fun _ _ h' => h.trans h'

/-! ### Programs on the buffers -/

/-- Nothing changes but the buffers, which are then held by `H`. -/
def Holding (H : List ℕ) (s t : Kernel) : Prop :=
  ∃ buffers, t = { s with buffers := buffers } ∧ Counted buffers H

theorem wp_getBuffer {B : RingBuffer Char} {Q : RingBuffer Char → Kernel → Prop}
    (h : s.buffers b = some B) (hQ : Q B s) :
    wp allowed (getBuffer b) Q s := by
  simp only [getBuffer, wp_bind, wp_get, h]
  exact (wp_pure _).mpr hQ

theorem wp_releaseBuffer (h : Counted s.buffers (b :: H)) :
    wp (· ≠ .freedBuffer) (releaseBuffer b) (fun _ => Holding H s) s := by
  obtain ⟨B, hB, hcount⟩ := h.live List.mem_cons_self
  rw [List.count_cons_self] at hcount
  refine (wp_bind _ _ _).mpr (wp_getBuffer hB ?_)
  refine (wp_modify _ _).mpr ⟨_, rfl, h.update ?_ fun b' hb' => ?_⟩
  · have hdec : B.decProcCount.connected_proc_counter_ = H.count b := by
      rw [RingBuffer.decProcCount, hcount]
      rfl
    rw [hdec]
    split
    · assumption
    · exact ⟨hdec, by omega⟩
  · rw [List.count_cons_of_ne hb'.symm]

theorem wp_closePipes {pipes : List ((ℤ × ℤ) × ℕ)}
    (h : Counted s.buffers (pipes.map Prod.snd ++ H)) :
    wp (· ≠ .freedBuffer) (closePipes pipes) (fun _ => Holding H s) s := by
  induction pipes generalizing s with
  | nil => exact (wp_pure _).mpr ⟨s.buffers, rfl, h⟩
  | cons pipe pipes ih =>
    rw [closePipes]
    refine wp_seq (wp_releaseBuffer h) ?_
    rintro _ _ ⟨_, rfl, h'⟩
    refine wp_mono (ih h') ?_
    rintro _ _ ⟨_, rfl, h''⟩
    exact ⟨_, rfl, h''⟩

theorem wp_copyPipes {pipes : List ((ℤ × ℤ) × ℕ)} (h : Counted s.buffers H)
    (hmem : ∀ e ∈ pipes, e.2 ∈ H) :
    wp (· ≠ .freedBuffer) (copyPipes pipes) (fun _ => Holding (pipes.map Prod.snd ++ H) s) s := by
  induction pipes generalizing s H with
  | nil => exact (wp_pure _).mpr ⟨s.buffers, rfl, h⟩
  | cons e pipes ih =>
    obtain ⟨B, hB, hcount⟩ := h.live (hmem e List.mem_cons_self)
    have hinc : Counted (update s.buffers e.2 (some B.incProcCount)) (e.2 :: H) := by
      refine h.update ?_ fun b' hb' => List.count_cons_of_ne hb'.symm
      rw [List.count_cons_self]
      exact ⟨congrArg (· + 1) hcount, Nat.succ_pos _⟩
    simp only [copyPipes, wp_bind]
    refine wp_getBuffer hB ?_
    simp only [setBuffer, wp_modify]
    refine wp_mono (ih hinc fun e' he' => List.mem_cons_of_mem _ (hmem e' (List.mem_cons_of_mem _ he'))) ?_
    rintro _ _ ⟨_, rfl, h'⟩
    exact ⟨_, rfl, h'.perm List.perm_middle⟩

/-- The contents of a buffer change. -/
theorem Counted.contents (h : Counted s.buffers H) {B B' : RingBuffer Char}
    (hB : s.buffers b = some B) (hcount : B'.connected_proc_counter_ = B.connected_proc_counter_) :
    Counted (Function.update s.buffers b (some B')) H := by
  refine h.update ?_ fun _ _ => rfl
  have hb := h b
  rw [hB] at hb
  exact ⟨hcount.trans hb.1, hb.2⟩

/-! ### Steps -/

/-- The key under which `pipe` enters the new pipe. -/
def pipeKey (p : UserProcess) (read write : ℕ) : ℤ × ℤ :=
  (loadBack read write (int (p.fd_num_ + 1)) (int (p.fd_num_ + 2)), int (p.fd_num_ + 2))

/-- The condition on a step. -/
def EndsKept (s : Kernel) : Op → Prop
  | .close pid fd => ∀ p ∈ s.process_list_, p.pid_ = pid → p.isPipe (int fd) = false
  | .pipe pid read write => read < USER_BREAK → write < USER_BREAK →
    ∀ p ∈ s.process_list_, p.pid_ = pid → p.pipes_[pipeKey p read write]? = none
  | _ => True

instance (s : Kernel) : ∀ op, Decidable (EndsKept s op)
  | .close pid fd =>
    inferInstanceAs (Decidable (∀ p ∈ s.process_list_, p.pid_ = pid → p.isPipe (int fd) = false))
  | .pipe pid read write => inferInstanceAs (Decidable (read < USER_BREAK → write < USER_BREAK →
    ∀ p ∈ s.process_list_, p.pid_ = pid → p.pipes_[pipeKey p read write]? = none))
  | .start .. | .open .. | .read .. | .write .. | .createprocess .. | .fork .. | .exit _ =>
    inferInstanceAs (Decidable True)

theorem closedEntry_mem {entry : (ℤ × ℤ) × ℕ} {entries : List ((ℤ × ℤ) × ℕ)}
    (h : UserProcess.closedEntry fd entries = some entry) :
    entry ∈ entries ∧ (entry.1.1 = fd ∨ entry.1.2 = fd) := by
  induction entries with
  | nil => cases h
  | cons e entries ih =>
    rw [UserProcess.closedEntry] at h
    split at h
    · rename_i hc
      cases h
      exact ⟨List.mem_cons_self, .inl hc.1⟩
    · split at h
      · cases h
      · split at h
        · rename_i hc
          cases h
          exact ⟨List.mem_cons_self, .inr hc.2⟩
        · split at h
          · cases h
          · exact ⟨List.mem_cons_of_mem _ (ih h).1, (ih h).2⟩

theorem mem_heldBy (hp : p ∈ s.process_list_) (hb : b ∈ buffersOf p.pipes_) : b ∈ heldBy s.tables :=
  List.mem_flatMap.mpr ⟨_, mem_tables hp, hb⟩

theorem PipeInv.wp_removeLocalFD (I : PipeInv tr s) (hp : p ∈ s.process_list_) :
    wp (· ≠ .freedBuffer) (removeLocalFD p fd)
      (fun _ t => p.isPipe fd = false → PipeInv tr t) s := by
  cases hc : UserProcess.closedEntry fd p.pipes_.toList with
  | none =>
    simp only [removeLocalFD, hc, Files.setProcess, wp_modify]
    exact fun _ => I.setProcess (d := { p with fds_ := p.fds_.erase fd }) hp rfl rfl
  | some entry =>
    obtain ⟨hmem, hfd⟩ := closedEntry_mem hc
    have hpipe : p.isPipe fd = true :=
      List.any_eq_true.mpr ⟨entry, hmem, decide_eq_true hfd⟩
    have hheld := mem_heldBy hp (List.mem_map_of_mem (f := Prod.snd) hmem)
    simp only [removeLocalFD, hc, hpipe]
    refine wp_seq (wp_releaseBuffer (I.counted.perm (List.perm_cons_erase hheld))) fun _ t _ => ?_
    exact (wp_modify _ _).mpr Bool.noConfusion

theorem PipeInv.wp_closeFd (I : PipeInv tr s) (hp : p ∈ s.process_list_) {fd : ℕ} :
    wp (· ≠ .freedBuffer) (Syscall.close p fd)
      (fun evs t => p.isPipe (int fd) = false → PipeInv (tr ++ evs) t) s := by
  unfold Syscall.close
  cases hpipe : p.isPipe (int fd) with
  | true =>
    rw [if_pos rfl]
    exact wp_seq (I.wp_removeLocalFD hp) fun _ _ _ => (wp_pure _).mpr Bool.noConfusion
  | false =>
    rw [if_neg Bool.false_ne_true]
    dsimp only
    refine wp_ite (fun _ => ?_) fun _ => ?_
    · rw [pure_bind, if_neg (by decide)]
      exact (wp_pure _).mpr fun _ => (List.append_nil tr).symm ▸ I
    · refine wp_seq wp_closeGlobal fun r t ht => wp_ite (fun _ => ?_) fun _ => ?_
      · refine wp_seq ((ht.pipeInv I).wp_removeLocalFD (ht.mem hp)) fun _ u hu => ?_
        exact (wp_pure _).mpr fun _ => (List.append_nil tr).symm ▸ hu hpipe
      · exact (wp_pure _).mpr fun _ => (List.append_nil tr).symm ▸ ht.pipeInv I

/-- A new process appears. -/
theorem PipeInv.add (I : PipeInv tr s) {tr' : List Event} {l : List Ends}
    {m : TreeMap (ℤ × ℤ) ℕ pairCmp}
    (htables : t.tables = s.tables ++ [(s.pid_counter_, m)])
    (hcounter : t.pid_counter_ = s.pid_counter_ + 1) (hnext : t.nextBuffer = s.nextBuffer)
    (hholds : holdings tr' = update (holdings tr) s.pid_counter_ l) (hl : l.Perm (ends m))
    (honce : (buffersOf m).Nodup) (hb : ∀ b ∈ buffersOf m, b < s.nextBuffer)
    (hcounted : Counted t.buffers (buffersOf m ++ heldBy s.tables)) : PipeInv tr' t := by
  have hperm : t.tables.Perm ((s.pid_counter_, m) :: s.tables) := by
    rw [htables]
    exact List.perm_append_singleton _ _
  have hne : ∀ table ∈ s.tables, table.1 ≠ s.pid_counter_ :=
    fun table h => (I.tables.fresh table h).ne
  constructor
  · refine TablesOk.perm (.cons ?_ ?_ ?_ ?_ honce ?_) hperm.symm
    · rw [hcounter, hnext, hholds]
      refine I.tables.mono (Nat.le_succ _) le_rfl (fun table h => update_of_ne (hne table h) _ _) ?_
      intro pid h
      rw [update_of_ne (by omega)]
      exact I.tables.unborn pid (by omega)
    · intro hmem
      obtain ⟨table, h, heq⟩ := List.mem_map.mp hmem
      exact hne table h heq
    · rw [hcounter]
      exact Nat.lt_succ_self _
    · rw [hholds, update_self]
      exact hl
    · rwa [hnext]
  · exact hcounted.perm (heldBy_perm hperm).symm

theorem PipeInv.wp_start (I : PipeInv tr s) {opens loads : Bool} :
    wp (· ≠ .freedBuffer) (createProcess opens loads) (fun _ => PipeInv tr) s := by
  simp only [createProcess, getNewPID, bind_assoc, pure_bind, wp_bind, wp_get, wp_set]
  refine wp_mono wp_openGlobal ?_
  rintro g _ ⟨l, n, rfl⟩
  refine wp_ite (fun _ => (wp_modify _ _).mpr ?_) fun _ => (wp_pure _).mpr ?_
  · refine I.add (m := ∅) (l := []) ?_ rfl rfl ?_ (.refl _) List.nodup_nil ?_ I.counted
    · exact List.map_append
    · exact (update_eq_self_iff.mpr (I.tables.unborn _ le_rfl).symm).symm
    · exact fun b hb => absurd hb List.not_mem_nil
  · exact I.congr rfl rfl rfl (Nat.le_succ _)

theorem PipeInv.wp_openFd (I : PipeInv tr s) (hp : p ∈ s.process_list_) {path : ℕ} {opens : Bool} :
    wp (· ≠ .freedBuffer) (Syscall.open p path opens) (fun _ => PipeInv tr) s := by
  unfold Syscall.open
  refine wp_ite (fun _ => (wp_pure _).mpr I) fun _ => ?_
  refine wp_seq wp_openGlobal fun g t ht => (wp_modify _ _).mpr ?_
  exact (ht.pipeInv I).setProcess (ht.mem hp) rfl rfl

theorem PipeInv.wp_createprocess (I : PipeInv tr s) (hp : p ∈ s.process_list_) {path : ℕ}
    {opens opensAgain loads : Bool} :
    wp (· ≠ .freedBuffer) (Syscall.createprocess p path opens opensAgain loads)
      (fun _ => PipeInv tr) s := by
  unfold Syscall.createprocess
  refine wp_ite (fun _ => (wp_pure _).mpr I) fun _ => ?_
  refine wp_seq wp_openGlobal fun g t ht => (wp_bind _ _ _).mpr ((wp_modify _ _).mpr ?_)
  have I' := (ht.pipeInv I).setProcess (d := p.addLocalFD g) (ht.mem hp) rfl rfl
  refine wp_seq wp_closeGlobal fun _ u hu => ?_
  exact (hu.pipeInv I').wp_start

theorem PipeInv.wp_openPipe (I : PipeInv tr s) (hp : p ∈ s.process_list_) {read write : ℕ}
    (hkey : p.pipes_[pipeKey p read write]? = none) :
    wp (· ≠ .freedBuffer) (openPipe p read write) (fun evs t => PipeInv (tr ++ evs) t) s := by
  have hnew := MapList.toList_insert (v := s.nextBuffer) hkey
  have hnotheld : s.nextBuffer ∉ heldBy s.tables := by
    intro hb
    obtain ⟨table, h, hmem⟩ := List.mem_flatMap.mp hb
    exact absurd (I.tables.next table h _ hmem) (Nat.lt_irrefl _)
  simp only [openPipe, Files.setProcess, wp_bind, wp_get, wp_set, wp_modify, wp_pure]
  have hperm := I.replaced (d := { p with
      fd_num_ := p.fd_num_ + 2
      pipes_ := p.pipes_.insert (pipeKey p read write) s.nextBuffer }) hp rfl (t := { s with
    process_list_ := s.process_list_.map fun q => if q.pid_ = p.pid_ then { p with
      fd_num_ := p.fd_num_ + 2
      pipes_ := p.pipes_.insert (pipeKey p read write) s.nextBuffer } else q }) rfl
  constructor
  · rw [holdings_append]
    refine TablesOk.perm (.cons (I.others hp (Nat.le_succ _) _) ?_ ?_ ?_ ?_ ?_) hperm.symm
    · exact not_mem_others s p.pid_
    · exact I.tables.fresh _ (mem_tables hp)
    · rw [after, update_self]
      have hends := hnew.map fun entry => (⟨entry.2, some entry.1.1, some entry.1.2⟩ : Ends)
      exact ((I.tables.agrees _ (mem_tables hp)).cons _).trans hends.symm
    · refine ((hnew.map Prod.snd).nodup_iff).mpr (List.nodup_cons.mpr ⟨fun hb => ?_, ?_⟩)
      · exact hnotheld (mem_heldBy hp hb)
      · exact I.tables.once _ (mem_tables hp)
    · intro b hb
      obtain rfl | hb := List.mem_cons.mp ((hnew.map Prod.snd).subset hb)
      · exact Nat.lt_succ_self _
      · exact (I.tables.next _ (mem_tables hp) b hb).trans (Nat.lt_succ_self _)
  · have hheld : (s.nextBuffer :: heldBy s.tables).Perm (heldBy
        ((p.pid_, p.pipes_.insert (pipeKey p read write) s.nextBuffer) :: s.others p.pid_)) := by
      refine ((heldBy_perm (I.split hp)).cons _).trans ?_
      exact (hnew.map Prod.snd).symm.append_right _
    refine Counted.perm (Counted.update I.counted ?_ fun b' hb' => List.count_cons_of_ne hb'.symm)
      (hheld.trans (heldBy_perm hperm).symm)
    rw [List.count_cons_self, List.count_eq_zero_of_not_mem hnotheld]
    exact ⟨rfl, Nat.one_pos⟩

theorem PipeInv.wp_fork (I : PipeInv tr s) (hp : p ∈ s.process_list_)
    {opens opensAgain loads : Bool} :
    wp (· ≠ .freedBuffer) (createProcessOnFork p opens opensAgain loads)
      (fun evs t => PipeInv (tr ++ evs) t) s := by
  unfold createProcessOnFork
  refine wp_seq wp_openGlobal ?_
  rintro _ _ ⟨_, _, rfl⟩
  simp only [getNewPID, bind_assoc, pure_bind, wp_bind, wp_get, wp_set]
  refine wp_mono wp_copyFdsGlobal ?_
  rintro fds_ _ ⟨_, _, rfl⟩
  refine wp_mono (wp_copyPipes I.counted fun e he =>
    mem_heldBy hp (List.mem_map_of_mem (f := Prod.snd) he)) ?_
  rintro _ _ ⟨buffers, rfl, hcounted⟩
  refine wp_mono wp_openGlobal ?_
  rintro g _ ⟨_, _, rfl⟩
  refine wp_ite (fun _ => (wp_throw _).mpr Failure.noConfusion) fun _ => ?_
  simp only [wp_bind, wp_modify, wp_pure]
  refine I.add (m := p.pipes_) (l := holdings tr p.pid_) ?_ rfl rfl ?_ ?_ ?_ ?_ hcounted
  · exact List.map_append
  · rw [holdings_append]
    rfl
  · exact I.tables.agrees _ (mem_tables hp)
  · exact I.tables.once _ (mem_tables hp)
  · exact I.tables.next _ (mem_tables hp)

theorem PipeInv.wp_destroy (I : PipeInv tr s) (hp : p ∈ s.process_list_) :
    wp (· ≠ .freedBuffer) (destroy p) (fun evs t => PipeInv (tr ++ evs) t) s := by
  unfold destroy
  refine wp_seq wp_closeFdsGlobal ?_
  rintro _ _ ⟨_, _, rfl⟩
  refine wp_seq (wp_closePipes (I.counted.perm (heldBy_perm (I.split hp)))) ?_
  rintro _ _ ⟨buffers, rfl, hcounted⟩
  simp only [wp_bind, wp_modify, wp_pure]
  refine ⟨?_, hcounted⟩
  rw [holdings_append]
  exact I.others hp le_rfl []

theorem readBuffer_mem (h : p.readBuffer fd = some b) : b ∈ buffersOf p.pipes_ := by
  obtain ⟨entry, hfind, rfl⟩ := Option.map_eq_some_iff.mp h
  exact List.mem_map_of_mem (List.mem_of_find?_eq_some hfind)

theorem writeBuffer_mem (h : p.writeBuffer fd = some b) : b ∈ buffersOf p.pipes_ := by
  obtain ⟨entry, hfind, rfl⟩ := Option.map_eq_some_iff.mp h
  exact List.mem_map_of_mem (List.mem_of_find?_eq_some hfind)

theorem PipeInv.wp_readFromPipe (I : PipeInv tr s) (hp : p ∈ s.process_list_) {count : ℕ} :
    wp allowed (readFromPipe p fd count)
      (fun r t => (r = none ↔ p.readBuffer fd = none) ∧ PipeInv tr t) s := by
  unfold readFromPipe
  cases h : p.readBuffer fd with
  | none => exact (wp_pure _).mpr ⟨iff_of_true rfl rfl, I⟩
  | some b =>
    obtain ⟨B, hB, -⟩ := I.counted.live (mem_heldBy hp (readBuffer_mem h))
    refine (wp_bind _ _ _).mpr (wp_getBuffer hB ?_)
    simp only [setBuffer, wp_bind, wp_modify, wp_pure]
    exact ⟨by simp, I.tables, I.counted.contents hB (RingBuffer.getMany_count count B)⟩

theorem PipeInv.wp_writeToPipe (I : PipeInv tr s) (hp : p ∈ s.process_list_) {cs : List Char} :
    wp allowed (writeToPipe p fd cs)
      (fun r t => (r = none ↔ p.writeBuffer fd = none) ∧ PipeInv tr t) s := by
  unfold writeToPipe
  cases h : p.writeBuffer fd with
  | none => exact (wp_pure _).mpr ⟨iff_of_true rfl rfl, I⟩
  | some b =>
    obtain ⟨B, hB, -⟩ := I.counted.live (mem_heldBy hp (writeBuffer_mem h))
    refine (wp_bind _ _ _).mpr (wp_getBuffer hB ?_)
    simp only [setBuffer, wp_bind, wp_modify, wp_pure]
    exact ⟨by simp, I.tables, I.counted.contents hB (RingBuffer.putMany_count cs B)⟩

theorem PipeInv.wp_act (I : PipeInv tr s) {op : Op} :
    wp (· ≠ .freedBuffer) (act op) (fun evs t => EndsKept s op → PipeInv (tr ++ evs) t) s := by
  have hnil : ∀ {t : Kernel} {c : Prop}, PipeInv tr t → c → PipeInv (tr ++ []) t :=
    fun I' _ => (List.append_nil tr).symm ▸ I'
  cases op with
  | start opens loads =>
    rw [act]
    exact wp_seq I.wp_start fun _ _ I' => (wp_pure _).mpr (hnil I')
  | «open» pid path opens =>
    refine wp_onProcess (hnil I) fun p hp _ => ?_
    exact wp_seq (I.wp_openFd hp) fun _ _ I' => (wp_pure _).mpr (hnil I')
  | close pid fd =>
    refine wp_onProcess (hnil I) fun p hp hpid => ?_
    exact wp_mono (I.wp_closeFd hp) fun _ _ h hok => h (hok p hp hpid)
  | read pid fd buffer count =>
    refine wp_onProcess (hnil I) fun p hp _ => ?_
    refine wp_seq (R := fun _ => PipeInv tr) ?_ fun _ _ I' => (wp_pure _).mpr (hnil I')
    unfold Syscall.read
    refine wp_ite (fun _ => (wp_pure _).mpr I) fun _ => wp_ite (fun _ => ?_) fun _ => (wp_pure _).mpr I
    exact wp_seq (I.wp_readFromPipe hp) fun _ _ h => (wp_pure _).mpr h.2
  | write pid fd buffer cs =>
    refine wp_onProcess (hnil I) fun p hp _ => ?_
    refine wp_seq (R := fun _ => PipeInv tr) ?_ fun _ _ I' => (wp_pure _).mpr (hnil I')
    unfold Syscall.write
    refine wp_ite (fun _ => (wp_pure _).mpr I) fun _ => wp_ite (fun _ => ?_) fun _ => (wp_pure _).mpr I
    exact wp_seq (I.wp_writeToPipe hp) fun _ _ h => (wp_pure _).mpr h.2
  | createprocess pid path opens opensAgain loads =>
    refine wp_onProcess (hnil I) fun p hp _ => ?_
    exact wp_seq (I.wp_createprocess hp) fun _ _ I' => (wp_pure _).mpr (hnil I')
  | pipe pid read write =>
    refine wp_onProcess (hnil I) fun p hp hpid => ?_
    unfold Syscall.pipe
    refine wp_ite (fun _ => (wp_pure _).mpr (hnil I)) fun hlt => ?_
    cases hkey : p.pipes_[pipeKey p read write]? with
    | none => exact wp_mono (I.wp_openPipe hp hkey) fun _ _ h _ => h
    | some b =>
      simp only [openPipe, Files.setProcess, wp_bind, wp_get, wp_set, wp_modify, wp_pure]
      intro hok
      have hnone := hok (by omega) (by omega) p hp hpid
      rw [hkey] at hnone
      cases hnone
  | fork pid opens opensAgain loads =>
    refine wp_onProcess (hnil I) fun p hp _ => ?_
    exact wp_mono (I.wp_fork hp) fun _ _ h _ => h
  | exit pid =>
    refine wp_onProcess (hnil I) fun p hp _ => ?_
    exact wp_mono (I.wp_destroy hp) fun _ _ h _ => h

theorem boot_pipeInv : PipeInv [] boot :=
  ⟨⟨List.nodup_nil, nofun, fun _ _ => rfl, nofun, nofun, nofun⟩, fun _ => rfl⟩

theorem pipeInv (h : Runs step EndsKept boot tr s) : PipeInv tr s :=
  h.invariant (I := PipeInv) boot_pipeInv fun I hok hs => of_wp I.wp_act (step_ok hs) hok

/-! ### What the processes see -/

/-- Some process has an end of the pipe open. -/
def HoldsBuffer (holds : ℕ → List Ends) (p : UserProcess) (b : ℕ) : Prop :=
  ∃ e ∈ holds p.pid_, e.buffer = b

instance (holds : ℕ → List Ends) (p : UserProcess) (b : ℕ) : Decidable (HoldsBuffer holds p b) :=
  inferInstanceAs (Decidable (∃ e ∈ holds p.pid_, e.buffer = b))

structure PipesAgree (holds : ℕ → List Ends) (s : Kernel) : Prop where
  isPipe : ∀ p ∈ s.process_list_, ∀ fd, p.isPipe fd = true ↔
    ∃ e ∈ holds p.pid_, e.read = some fd ∨ e.write = some fd
  read : ∀ p ∈ s.process_list_, ∀ fd count, wp (fun _ => False) (readFromPipe p fd count)
    (fun r _ => r = none ↔ ¬∃ e ∈ holds p.pid_, e.read = some fd) s
  write : ∀ p ∈ s.process_list_, ∀ fd cs, wp (fun _ => False) (writeToPipe p fd cs)
    (fun r _ => r = none ↔ ¬∃ e ∈ holds p.pid_, e.write = some fd) s
  entry : ∀ p ∈ s.process_list_, ∀ b, (∃ key : ℤ × ℤ, p.pipes_[key]? = some b) ↔ HoldsBuffer holds p b
  live : ∀ b, (∃ B, s.buffers b = some B) ↔ ∃ p ∈ s.process_list_, HoldsBuffer holds p b
  count : ∀ b B, s.buffers b = some B →
    B.connected_proc_counter_ = s.process_list_.countP fun p => HoldsBuffer holds p b

theorem PipeInv.mem_holdings (I : PipeInv tr s) (hp : p ∈ s.process_list_) (e : Ends) :
    e ∈ holdings tr p.pid_ ↔ ∃ entry ∈ p.pipes_.toList,
      (⟨entry.2, some entry.1.1, some entry.1.2⟩ : Ends) = e := by
  have hperm : (holdings tr p.pid_).Perm (ends p.pipes_) := I.tables.agrees _ (mem_tables hp)
  rw [hperm.mem_iff, ends, List.mem_map]

theorem PipeInv.holdsBuffer (I : PipeInv tr s) (hp : p ∈ s.process_list_) (b : ℕ) :
    HoldsBuffer (holdings tr) p b ↔ b ∈ buffersOf p.pipes_ := by
  simp only [HoldsBuffer, I.mem_holdings hp, buffersOf, List.mem_map]
  constructor
  · rintro ⟨_, ⟨entry, hmem, rfl⟩, rfl⟩
    exact ⟨entry, hmem, rfl⟩
  · rintro ⟨entry, hmem, rfl⟩
    exact ⟨_, ⟨entry, hmem, rfl⟩, rfl⟩

theorem count_buffers {l : List UserProcess} (h : ∀ p ∈ l, (buffersOf p.pipes_).Nodup) (b : ℕ) :
    (l.flatMap fun p => buffersOf p.pipes_).count b =
      l.countP fun p => b ∈ buffersOf p.pipes_ := by
  induction l with
  | nil => rfl
  | cons p l ih =>
    rw [List.flatMap_cons, List.count_append, List.countP_cons, ih fun q hq => h q (List.mem_cons_of_mem _ hq),
      (h p List.mem_cons_self).count, Nat.add_comm]
    simp

theorem readBuffer_none : p.readBuffer fd = none ↔ ∀ entry ∈ p.pipes_.toList, entry.1.1 ≠ fd := by
  simp [UserProcess.readBuffer]

theorem writeBuffer_none : p.writeBuffer fd = none ↔ ∀ entry ∈ p.pipes_.toList, entry.1.2 ≠ fd := by
  simp [UserProcess.writeBuffer]

theorem PipeInv.agree (I : PipeInv tr s) : PipesAgree (holdings tr) s := by
  have hcount : ∀ b, (heldBy s.tables).count b =
      s.process_list_.countP fun p => HoldsBuffer (holdings tr) p b := by
    intro b
    have honce : ∀ p ∈ s.process_list_, (buffersOf p.pipes_).Nodup :=
      fun p hp => I.tables.once _ (mem_tables hp)
    have hflat : heldBy s.tables = s.process_list_.flatMap fun p => buffersOf p.pipes_ := by
      rw [heldBy, Kernel.tables, List.flatMap_map]
    rw [hflat, count_buffers honce]
    exact List.countP_congr fun p hp => by simp [I.holdsBuffer hp]
  refine ⟨fun p hp fd => ?_, fun p hp fd count => ?_, fun p hp fd cs => ?_, fun p hp b => ?_,
    fun b => ?_, fun b B hB => ?_⟩
  · simp [UserProcess.isPipe, I.mem_holdings hp]
  · refine wp_mono (I.wp_readFromPipe hp) fun r _ h => h.1.trans (readBuffer_none.trans ?_)
    simp only [I.mem_holdings hp]
    grind
  · refine wp_mono (I.wp_writeToPipe hp) fun r _ h => h.1.trans (writeBuffer_none.trans ?_)
    simp only [I.mem_holdings hp]
    grind
  · rw [I.holdsBuffer hp, buffersOf, List.mem_map]
    constructor
    · rintro ⟨key, hkey⟩
      exact ⟨(key, b), TreeMap.mem_toList_iff_getElem?_eq_some.mpr hkey, rfl⟩
    · rintro ⟨entry, hmem, rfl⟩
      exact ⟨entry.1, TreeMap.mem_toList_iff_getElem?_eq_some.mp hmem⟩
  · have hb := I.counted b
    rw [hcount] at hb
    constructor
    · rintro ⟨B, hB⟩
      rw [hB] at hb
      obtain ⟨p, hp, hheld⟩ := List.countP_pos_iff.mp hb.2
      exact ⟨p, hp, of_decide_eq_true hheld⟩
    · rintro ⟨p, hp, hheld⟩
      obtain ⟨B, hB, -⟩ := I.counted.live (mem_heldBy hp ((I.holdsBuffer hp b).mp hheld))
      exact ⟨B, hB⟩
  · have hb := I.counted b
    rw [hcount, hB] at hb
    exact hb.1

theorem pipes_agree (h : Runs step EndsKept boot tr s) :
    PipesAgree (holdings tr) s ∧ ∀ op, step s op ≠ .error .freedBuffer := by
  have I := pipeInv h
  exact ⟨I.agree, fun op herr => error_of_wp I.wp_act (step_error herr) rfl⟩

/-- A process opens a pipe, forks and exits; its child has the pipe. -/
theorem pipes_agree_fork : ∃ s tr, Runs step EndsKept boot tr s ∧ holdings tr 0 = [] ∧
    holdings tr 1 = [⟨0, some 5, some 6⟩] ∧ PipesAgree (holdings tr) s := by
  have hrun : (match execOk step EndsKept boot
        [.start true true, .pipe 0 0 8, .fork 0 true true true, .exit 0] with
      | some (_, tr) => holdings tr 0 == [] && holdings tr 1 == [⟨0, some 5, some 6⟩]
      | none => false) = true := by decide +kernel
  split at hrun
  · rename_i s tr hexec
    simp only [Bool.and_eq_true, beq_iff_eq] at hrun
    have h := runs_of_execOk boot _ hexec
    exact ⟨s, tr, h, hrun.1, hrun.2, (pipes_agree h).1⟩
  · cases hrun

/-- A process opens a pipe and closes the read end; it is a pipe still. -/
theorem closed_end_is_pipe : ∃ s tr, Runs step (fun _ _ => True) boot tr s ∧
    ¬PipesAgree (holdings tr) s := by
  have hrun : (match exec step boot [.start true true, .pipe 0 0 8, .close 0 5] with
      | .ok (s, tr) => holdings tr 0 == [⟨0, none, some 6⟩] &&
        s.process_list_.any fun p => p.pid_ == 0 && p.isPipe 5
      | .error _ => false) = true := by decide +kernel
  split at hrun
  · rename_i s tr hexec
    simp only [Bool.and_eq_true, beq_iff_eq, List.any_eq_true] at hrun
    obtain ⟨hholds, p, hp, hpid, hpipe⟩ := hrun
    refine ⟨s, tr, runs_of_exec step boot _ hexec, fun h => ?_⟩
    obtain ⟨e, he, hfd⟩ := (h.isPipe p hp 5).mp hpipe
    rw [hpid, hholds, List.mem_singleton] at he
    rw [he] at hfd
    exact absurd hfd (by decide)
  · cases hrun

end KPanic.Files

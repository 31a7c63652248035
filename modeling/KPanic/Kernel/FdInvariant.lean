import KPanic.Kernel.LocalFDs
import KPanic.Lib.MapList
import Mathlib.Data.List.Nodup
import Mathlib.Data.List.Pairwise

/-!
# The descriptor tables agree with `global_fd`

The descriptors that the processes name are those of `global_fd`, each named once. The invariant
says so for the two lists of numbers, up to their order.
-/

namespace KPanic.Files

open Std (TreeMap)
open Machine Wp

variable {s t : Kernel} {p p' : UserProcess} {fds_ : TreeMap ℤ ℤ} {fd g : ℤ} {n pid : ℕ}
  {allowed : Failure → Prop}

/-! ### Numbers -/

theorem uint32_int (n : ℕ) : uint32 (int n) = n % 2 ^ 32 := by
  simp [uint32, int]

theorem uint32_int_getFd (n : ℕ) : uint32 (int (getFd n)) = getFd n := by
  rw [uint32_int, getFd, Nat.mod_mod]

/-- The numbers in a table. -/
def numbers (fds_ : TreeMap ℤ ℤ) : List ℕ := fds_.toList.map fun entry => uint32 entry.2

theorem mem_numbers (h : fds_[fd]? = some g) : uint32 g ∈ numbers fds_ :=
  List.mem_map.mpr ⟨(fd, g), TreeMap.mem_toList_iff_getElem?_eq_some.mpr h, rfl⟩

theorem numbers_insert (h : fds_[fd]? = none) :
    (numbers (fds_.insert fd g)).Perm (uint32 g :: numbers fds_) :=
  (MapList.toList_insert h).map _

theorem numbers_erase (h : fds_[fd]? = some g) :
    (numbers fds_).Perm (uint32 g :: numbers (fds_.erase fd)) :=
  (MapList.toList_erase h).map _

theorem getGlobalFD_some (h : p.fds_[fd]? = some g) : p.getGlobalFD fd = uint32 g := by
  rw [UserProcess.getGlobalFD, h]

/-- The numbers of the global descriptors. -/
def Kernel.globals (s : Kernel) : List ℕ := s.global_fd.map getFd

/-- The numbers that the processes name. -/
def Kernel.entries (s : Kernel) : List ℕ := s.process_list_.flatMap fun p => numbers p.fds_

structure FdInv (s : Kernel) : Prop where
  entries : s.entries.Perm s.globals
  nodup : s.globals.Nodup
  valid : invalidFd ∉ s.globals
  pids : (s.process_list_.map UserProcess.pid_).Nodup
  fresh : ∀ p ∈ s.process_list_, p.pid_ < s.pid_counter_
  noPipes : ∀ p ∈ s.process_list_, p.pipes_.toList = []

/-- The next `n` descriptors get numbers that are not in use. -/
def Kernel.Room (s : Kernel) (n : ℕ) : Prop :=
  (s.globals ++ (List.range' s.fd_num_ n).map getFd).Nodup ∧
    invalidFd ∉ (List.range' s.fd_num_ n).map getFd

theorem FdInv.valid_entry (I : FdInv s) (hp : p ∈ s.process_list_) (h : p.fds_[fd]? = some g) :
    uint32 g ∈ s.globals :=
  I.entries.subset (List.mem_flatMap.mpr ⟨p, hp, mem_numbers h⟩)

/-- The table of `p` and those of the others. -/
theorem FdInv.split (I : FdInv s) (hp : p ∈ s.process_list_) :
    (numbers p.fds_ ++ (s.process_list_.filter fun q => q.pid_ ≠ p.pid_).flatMap
      fun q => numbers q.fds_).Perm s.globals :=
  ((MapList.perm_cons_filter I.pids hp).flatMap_right _).symm.trans I.entries

/-- A process is replaced by one whose table differs as `global_fd` does. -/
theorem FdInv.replace {d : UserProcess} (I : FdInv s) (hp : p ∈ s.process_list_)
    (hpid : d.pid_ = p.pid_) (hpipes : d.pipes_ = p.pipes_) {a b : List ℕ}
    (hlist : t.process_list_ = s.process_list_.map fun q => if q.pid_ = d.pid_ then d else q)
    (hcounter : t.pid_counter_ = s.pid_counter_)
    (hfds : (numbers d.fds_ ++ a).Perm (numbers p.fds_ ++ b))
    (hglobals : (t.globals ++ a).Perm (s.globals ++ b)) (hnodup : t.globals.Nodup)
    (hvalid : invalidFd ∉ t.globals) : FdInv t := by
  have hmem : ∀ q ∈ t.process_list_, q = d ∨ q ∈ s.process_list_ := by
    intro q hq
    rw [hlist, List.mem_map] at hq
    obtain ⟨r, hr, hrq⟩ := hq
    split at hrq
    · exact .inl hrq.symm
    · exact .inr (hrq ▸ hr)
  refine ⟨?_, hnodup, hvalid, ?_, ?_, ?_⟩
  · have hnew := (MapList.perm_replace I.pids hp hpid).flatMap_right fun q => numbers q.fds_
    rw [← hlist, List.flatMap_cons] at hnew
    refine (List.perm_append_right_iff a).mp (.trans ?_ hglobals.symm)
    refine (hnew.append_right a).trans (.trans ?_ ((I.split hp).append_right b))
    rw [List.append_assoc, List.append_assoc]
    refine (List.perm_append_comm.append_left _).trans ?_
    refine .trans ?_ (List.perm_append_comm.append_left _)
    rw [← List.append_assoc, ← List.append_assoc]
    exact hfds.append_right _
  · rw [hlist, MapList.map_key_replace]
    exact I.pids
  · intro q hq
    rw [hcounter]
    obtain rfl | hq := hmem q hq
    · rw [hpid]
      exact I.fresh p hp
    · exact I.fresh q hq
  · intro q hq
    obtain rfl | hq := hmem q hq
    · rw [hpipes]
      exact I.noPipes p hp
    · exact I.noPipes q hq

/-! ### The operations -/

theorem find_globals (h : n ∈ s.globals) :
    ∃ d ∈ s.global_fd, getFd d = n ∧ s.global_fd.find? (fun it => getFd it = n) = some d := by
  cases hfind : s.global_fd.find? fun it => getFd it = n with
  | none =>
    obtain ⟨d, hd, hn⟩ := List.mem_map.mp h
    exact absurd (decide_eq_true hn) (List.find?_eq_none.mp hfind d hd)
  | some d => exact ⟨d, List.mem_of_find?_eq_some hfind, by simpa using List.find?_some hfind, rfl⟩

theorem wp_close (hnodup : s.globals.Nodup) (h : n ∈ s.globals) :
    wp allowed (VfsSyscall.close n) (fun r t => r = 0 ∧ ∃ l, t = { s with global_fd := l } ∧
      s.globals.Perm (n :: l.map getFd)) s := by
  obtain ⟨d, hd, hn, hfind⟩ := find_globals h
  have hperm : s.global_fd.Perm (d :: s.global_fd.filter (· ≠ d)) :=
    MapList.perm_cons_filter (k := id) (by simpa using hnodup.of_map) hd
  simp only [VfsSyscall.close, VfsSyscall.getFileDescriptor, bind_assoc, pure_bind, wp_bind, wp_get,
    hfind, wp_modify, wp_pure]
  refine ⟨trivial, _, rfl, ?_⟩
  rw [← hn]
  exact hperm.map getFd

theorem wp_closeFds {fds : List (ℤ × ℤ)} {rest : List ℕ} (hnodup : s.globals.Nodup)
    (hvalid : invalidFd ∉ s.globals) (hp : ∀ e ∈ fds, p.fds_[e.1]? = some e.2)
    (h : s.globals.Perm (fds.map (fun e => uint32 e.2) ++ rest)) :
    wp allowed (closeFds p fds) (fun _ t => ∃ l, t = { s with global_fd := l } ∧
      (l.map getFd).Perm rest) s := by
  induction fds generalizing s with
  | nil => exact (wp_pure _).mpr ⟨s.global_fd, rfl, h⟩
  | cons e fds ih =>
    have hmem : uint32 e.2 ∈ s.globals := h.symm.subset (by simp)
    have hget : p.getGlobalFD e.1 ≠ invalidFd := by
      rw [getGlobalFD_some (hp e List.mem_cons_self)]
      exact fun heq => hvalid (heq ▸ hmem)
    rw [closeFds, if_neg hget]
    refine wp_seq (wp_close hnodup hmem) ?_
    rintro _ _ ⟨-, l, rfl, hl⟩
    have hsub : ∀ x ∈ l.map getFd, x ∈ s.globals :=
      fun x hx => hl.symm.subset (List.mem_cons_of_mem _ hx)
    refine wp_mono (ih (List.nodup_cons.mp (hl.nodup_iff.mp hnodup)).2
      (fun hx => hvalid (hsub _ hx)) (fun e' he' => hp e' (List.mem_cons_of_mem _ he'))
      ((List.perm_cons _).mp (hl.symm.trans h))) ?_
    rintro _ _ ⟨l', rfl, hl'⟩
    exact ⟨l', rfl, hl'⟩

theorem wp_copyFds {entries : List (ℤ × ℤ)} (hmem : ∀ e ∈ entries, uint32 e.2 ∈ s.globals)
    (hkeys : (entries.map Prod.fst).Nodup) (hnew : ∀ e ∈ entries, fds_[e.1]? = none) :
    wp allowed (copyFds entries fds_) (fun r t =>
      t = { s with
        fd_num_ := s.fd_num_ + entries.length
        global_fd := s.global_fd ++ List.range' s.fd_num_ entries.length } ∧
      (numbers r).Perm (numbers fds_ ++ (List.range' s.fd_num_ entries.length).map getFd) ∧
      ∀ fd : ℤ, fds_[fd]? = none → (∀ e ∈ entries, e.1 ≠ fd) → r[fd]? = none) s := by
  induction entries generalizing s fds_ with
  | nil => exact (wp_pure _).mpr ⟨by simp, by simp, fun fd hfd _ => hfd⟩
  | cons e entries ih =>
    obtain ⟨d, -, -, hfind⟩ := find_globals (hmem e List.mem_cons_self)
    rw [List.map_cons, List.nodup_cons] at hkeys
    have hother : ∀ e' ∈ entries, e'.1 ≠ e.1 :=
      fun e' he' heq => hkeys.1 (heq ▸ List.mem_map_of_mem he')
    simp only [copyFds, VfsSyscall.getFileDescriptor, bind_assoc, pure_bind, wp_bind, wp_get, hfind,
      addFileDescriptor, wp_set]
    refine wp_mono (ih (fun e' he' => ?_) hkeys.2 (fun e' he' => ?_)) ?_
    · rw [Kernel.globals, List.map_append]
      exact List.mem_append_left _ (hmem e' (List.mem_cons_of_mem _ he'))
    · rw [TreeMap.getElem?_insert, if_neg fun hc => hother e' he' (compare_eq_iff_eq.mp hc).symm]
      exact hnew e' (List.mem_cons_of_mem _ he')
    · rintro r _ ⟨rfl, hr, hkeep⟩
      refine ⟨?_, ?_, fun fd hfd hne => ?_⟩
      · simp only [List.length_cons, List.range'_succ, List.append_assoc, List.singleton_append]
        congr 1
        omega
      · refine hr.trans (((numbers_insert (hnew e List.mem_cons_self)).append_right _).trans ?_)
        rw [uint32_int_getFd, List.length_cons, List.range'_succ, List.map_cons]
        exact List.perm_middle.symm
      · refine hkeep fd ?_ fun e' he' => hne e' (List.mem_cons_of_mem _ he')
        rw [TreeMap.getElem?_insert, if_neg fun hc => hne e List.mem_cons_self (compare_eq_iff_eq.mp hc)]
        exact hfd

/-- The condition on a step. -/
def Tidy (s : Kernel) : Op → Prop
  | .start opens loads => opens = true → loads = true ∧ s.Room 1
  | .open pid path opens => path < USER_BREAK → ∀ p ∈ s.process_list_, p.pid_ = pid →
    opens = true ∧ s.Room 1 ∧ p.fds_[int (p.fd_num_ + 1)]? = none
  | .createprocess pid path _ _ _ => path < USER_BREAK → ∀ p ∈ s.process_list_, p.pid_ ≠ pid
  | .fork pid opens _ _ => ∀ p ∈ s.process_list_, p.pid_ = pid →
    opens = false ∧ p.fds_[p.fd_]? = none ∧ s.Room (p.fds_.toList.length + 1)
  | .pipe _ _ _ => False
  | .close _ _ | .read _ _ _ _ | .write _ _ _ _ | .exit _ => True

instance (s : Kernel) (n : ℕ) : Decidable (s.Room n) := inferInstanceAs (Decidable (_ ∧ _))

instance (s : Kernel) : ∀ op, Decidable (Tidy s op)
  | .start opens loads => inferInstanceAs (Decidable (opens = true → loads = true ∧ s.Room 1))
  | .open pid path opens => inferInstanceAs (Decidable (path < USER_BREAK →
    ∀ p ∈ s.process_list_, p.pid_ = pid →
      opens = true ∧ s.Room 1 ∧ p.fds_[int (p.fd_num_ + 1)]? = none))
  | .createprocess pid path _ _ _ =>
    inferInstanceAs (Decidable (path < USER_BREAK → ∀ p ∈ s.process_list_, p.pid_ ≠ pid))
  | .fork pid opens _ _ => inferInstanceAs (Decidable (∀ p ∈ s.process_list_, p.pid_ = pid →
    opens = false ∧ p.fds_[p.fd_]? = none ∧ s.Room (p.fds_.toList.length + 1)))
  | .pipe .. => inferInstanceAs (Decidable False)
  | .close .. | .read .. | .write .. | .exit _ => inferInstanceAs (Decidable True)

theorem wp_onProcess {m : UserProcess → Files (List Event)} {Q : List Event → Kernel → Prop}
    (hnone : Q [] s) (hsome : ∀ p ∈ s.process_list_, p.pid_ = pid → wp allowed (m p) Q s) :
    wp allowed (onProcess pid m) Q s := by
  simp only [onProcess, wp_bind, wp_get]
  cases hfind : s.process_list_.find? fun p => p.pid_ = pid with
  | none => exact (wp_pure _).mpr hnone
  | some p => exact hsome p (List.mem_of_find?_eq_some hfind) (by simpa using List.find?_some hfind)

theorem FdInv.not_isPipe (I : FdInv s) (hp : p ∈ s.process_list_) : p.isPipe fd = false := by
  rw [UserProcess.isPipe, I.noPipes p hp]
  rfl

theorem Kernel.Room.split (h : s.Room (n + 1)) : (s.globals ++ (List.range' s.fd_num_ n).map getFd ++
    [getFd (s.fd_num_ + n)]).Nodup ∧ invalidFd ∉ (List.range' s.fd_num_ n).map getFd ∧
    getFd (s.fd_num_ + n) ≠ invalidFd := by
  obtain ⟨hnodup, hvalid⟩ := h
  rw [List.range'_1_concat, List.map_append, List.map_singleton] at hnodup hvalid
  rw [List.mem_append, List.mem_singleton, not_or] at hvalid
  exact ⟨by rwa [List.append_assoc], hvalid.1, Ne.symm hvalid.2⟩

/-- A new process appears, with the new descriptors. -/
theorem FdInv.add (I : FdInv s) {l : List ℕ} (hlist : t.process_list_ = s.process_list_ ++ [p])
    (hglobals : t.globals = s.globals ++ l) (hp : (numbers p.fds_).Perm l)
    (hnodup : (s.globals ++ l).Nodup) (hvalid : invalidFd ∉ l) (hpid : p.pid_ = s.pid_counter_)
    (hcounter : t.pid_counter_ = s.pid_counter_ + 1) (hpipes : p.pipes_.toList = []) : FdInv t := by
  refine ⟨?_, hglobals ▸ hnodup, ?_, ?_, ?_, ?_⟩
  · rw [Kernel.entries, hlist, hglobals, List.flatMap_append, List.flatMap_singleton]
    exact I.entries.append hp
  · rw [hglobals, List.mem_append, not_or]
    exact ⟨I.valid, hvalid⟩
  · rw [hlist, List.map_append, List.map_singleton, List.nodup_append]
    refine ⟨I.pids, List.nodup_singleton _, fun a ha b hb heq => ?_⟩
    obtain ⟨q, hq, rfl⟩ := List.mem_map.mp ha
    have hlt := I.fresh q hq
    rw [List.mem_singleton] at hb
    omega
  · intro q hq
    rw [hlist, List.mem_append, List.mem_singleton] at hq
    rw [hcounter]
    obtain hq | rfl := hq
    · exact (I.fresh q hq).trans (Nat.lt_succ_self _)
    · omega
  · intro q hq
    rw [hlist, List.mem_append, List.mem_singleton] at hq
    obtain hq | rfl := hq
    · exact I.noPipes q hq
    · exact hpipes

theorem FdInv.newPID (I : FdInv s) : FdInv { s with pid_counter_ := s.pid_counter_ + 1 } :=
  ⟨I.entries, I.nodup, I.valid, I.pids, fun p hp => (I.fresh p hp).trans (Nat.lt_succ_self _),
    I.noPipes⟩

theorem FdInv.wp_start (I : FdInv s) {opens loads : Bool} (h : Tidy s (.start opens loads)) :
    wp allowed (createProcess opens loads) (fun _ => FdInv) s := by
  cases opens with
  | false =>
    simp only [createProcess, getNewPID, VfsSyscall.open, Bool.false_eq_true, ↓reduceIte, bind_assoc,
      pure_bind, wp_bind, wp_get, wp_set]
    rw [if_neg]
    · exact (wp_pure _).mpr I.newPID
    · rw [getGlobalFD_some (g := -1)]
      · exact fun hne => hne.1 (by decide)
      · simp [UserProcess.addLocalFD]
  | true =>
    obtain ⟨rfl, hroom⟩ := h rfl
    obtain ⟨hnodup, -, hne⟩ := hroom.split
    rw [List.range'_zero, List.map_nil, List.append_nil, Nat.add_zero] at hnodup
    simp only [createProcess, getNewPID, VfsSyscall.open, addFileDescriptor, ↓reduceIte, bind_assoc,
      pure_bind, wp_bind, wp_get, wp_set]
    rw [if_pos]
    · refine (wp_modify _ _).mpr (I.add rfl (l := [getFd s.fd_num_]) ?_ ?_ hnodup ?_ rfl rfl rfl)
      · simp [Kernel.globals]
      · have hempty : (∅ : TreeMap ℤ ℤ)[int (3 + 1)]? = none := TreeMap.getElem?_emptyc
        have hperm := numbers_insert (g := int (getFd s.fd_num_)) hempty
        rwa [uint32_int_getFd] at hperm
      · simpa using hne.symm
    · rw [getGlobalFD_some (g := int (getFd s.fd_num_)), uint32_int_getFd]
      · exact ⟨hne, trivial⟩
      · simp [UserProcess.addLocalFD]

theorem FdInv.wp_openFd (I : FdInv s) (hp : p ∈ s.process_list_) {path : ℕ} {opens : Bool}
    (h : Tidy s (.open p.pid_ path opens)) :
    wp allowed (Syscall.open p path opens) (fun _ => FdInv) s := by
  unfold Syscall.open
  refine wp_ite (fun _ => (wp_pure _).mpr I) fun hpath => ?_
  obtain ⟨rfl, hroom, hkey⟩ := h (by omega) p hp rfl
  obtain ⟨hnodup, -, hne⟩ := hroom.split
  rw [List.range'_zero, List.map_nil, List.append_nil, Nat.add_zero] at hnodup
  simp only [VfsSyscall.open, addFileDescriptor, setProcess, ↓reduceIte, bind_assoc, pure_bind, wp_bind,
    wp_get, wp_set, wp_modify]
  have hglobals : { s with fd_num_ := s.fd_num_ + 1, global_fd := s.global_fd ++ [s.fd_num_] }.globals =
      s.globals ++ [getFd s.fd_num_] := List.map_append
  refine I.replace hp (d := p.addLocalFD (int (getFd s.fd_num_))) rfl rfl rfl rfl
    (a := []) (b := [getFd s.fd_num_]) ?_ ?_ ?_ ?_
  · have hperm := numbers_insert (g := int (getFd s.fd_num_)) hkey
    rw [uint32_int_getFd] at hperm
    rw [List.append_nil]
    exact hperm.trans (List.perm_append_singleton _ _).symm
  · rw [List.append_nil]
    exact .of_eq hglobals
  · exact hglobals ▸ hnodup
  · have hmem : invalidFd ∉ s.globals ++ [getFd s.fd_num_] := by
      simpa using ⟨I.valid, hne.symm⟩
    exact hglobals ▸ hmem

theorem FdInv.wp_closeFd (I : FdInv s) (hp : p ∈ s.process_list_) {fd : ℕ} :
    wp allowed (Syscall.close p fd) (fun _ => FdInv) s := by
  unfold Syscall.close
  rw [I.not_isPipe hp, if_neg Bool.false_ne_true]
  cases hg : p.fds_[int fd]? with
  | none =>
    have hinvalid : p.getGlobalFD (int fd) = invalidFd := by
      rw [UserProcess.getGlobalFD, hg]
    rw [if_pos hinvalid, pure_bind]
    exact (wp_pure _).mpr I
  | some g =>
    have hmem := I.valid_entry hp hg
    have hvalid : uint32 g ≠ invalidFd := fun heq => I.valid (heq ▸ hmem)
    rw [getGlobalFD_some hg, if_neg hvalid]
    refine wp_seq (wp_close I.nodup hmem) ?_
    rintro _ _ ⟨rfl, l, rfl, hl⟩
    have hsub : ∀ x ∈ l.map getFd, x ∈ s.globals :=
      fun x hx => hl.symm.subset (List.mem_cons_of_mem _ hx)
    have hentry : UserProcess.closedEntry (int fd) p.pipes_.toList = none := by
      rw [I.noPipes p hp]
      rfl
    simp only [removeLocalFD, hentry, setProcess, ne_eq, reduceCtorEq, not_false_eq_true, ↓reduceIte,
      wp_bind, wp_modify, wp_pure]
    refine I.replace hp (d := { p with fds_ := p.fds_.erase (int fd) }) rfl rfl rfl rfl
      (a := [uint32 g]) (b := []) ?_ ?_ ?_ ?_
    · rw [List.append_nil]
      exact (List.perm_append_singleton _ _).trans (numbers_erase hg).symm
    · rw [List.append_nil]
      exact (List.perm_append_singleton _ _).trans hl.symm
    · exact (List.nodup_cons.mp (hl.nodup_iff.mp I.nodup)).2
    · exact fun hx => I.valid (hsub _ hx)

theorem FdInv.wp_fork (I : FdInv s) (hp : p ∈ s.process_list_) {opens opensAgain loads : Bool}
    (h : Tidy s (.fork p.pid_ opens opensAgain loads)) :
    wp (· = .nullThread) (createProcessOnFork p opens opensAgain loads) (fun _ => FdInv) s := by
  obtain ⟨rfl, hfd, hroom⟩ := h p hp rfl
  obtain ⟨hnodup, hvalid, hne⟩ := hroom.split
  simp only [createProcessOnFork, VfsSyscall.open, getNewPID, Bool.false_eq_true, ↓reduceIte, bind_assoc,
    pure_bind, wp_bind, wp_get, wp_set]
  refine wp_mono (wp_copyFds (fun e he => ?_) ?_ fun e _ => TreeMap.getElem?_emptyc) ?_
  · exact I.valid_entry hp (TreeMap.mem_toList_iff_getElem?_eq_some.mp he)
  · rw [TreeMap.map_fst_toList_eq_keys]
    exact TreeMap.nodup_keys
  rintro fds_ _ ⟨rfl, hfds, hkeep⟩
  rw [I.noPipes p hp]
  cases opensAgain with
  | false =>
    simp only [copyPipes, Bool.false_eq_true, ↓reduceIte, wp_pure]
    rw [if_pos]
    · exact (wp_throw _).mpr rfl
    · left
      rw [getGlobalFD_some (g := -1)]
      · decide
      · rw [TreeMap.getElem?_insert, if_pos Std.compare_self]
  | true =>
    have hchild : (fds_.insert p.fd_ (int (getFd (s.fd_num_ + p.fds_.toList.length))))[p.fd_]? =
        some (int (getFd (s.fd_num_ + p.fds_.toList.length))) := by
      rw [TreeMap.getElem?_insert, if_pos Std.compare_self]
    have hnone : fds_[p.fd_]? = none := by
      refine hkeep _ TreeMap.getElem?_emptyc fun e he heq => ?_
      rw [← heq, TreeMap.mem_toList_iff_getElem?_eq_some.mp he] at hfd
      cases hfd
    simp only [copyPipes, addFileDescriptor, ↓reduceIte, bind_assoc, pure_bind, wp_bind, wp_get, wp_set,
      wp_pure]
    rw [getGlobalFD_some hchild, uint32_int_getFd]
    refine wp_ite (fun _ => (wp_throw _).mpr rfl) fun _ => ?_
    simp only [wp_bind, wp_modify, wp_pure]
    refine I.add rfl (l := (List.range' s.fd_num_ p.fds_.toList.length).map getFd ++
      [getFd (s.fd_num_ + p.fds_.toList.length)]) ?_ ?_ ?_ ?_ rfl rfl (I.noPipes p hp)
    · simp [Kernel.globals]
    · have hperm := numbers_insert (g := int (getFd (s.fd_num_ + p.fds_.toList.length))) hnone
      rw [uint32_int_getFd] at hperm
      exact (hperm.trans (hfds.cons _)).trans (List.perm_append_singleton _ _).symm
    · rwa [← List.append_assoc]
    · rw [List.mem_append, List.mem_singleton, not_or]
      exact ⟨hvalid, hne.symm⟩

theorem FdInv.wp_destroy (I : FdInv s) (hp : p ∈ s.process_list_) :
    wp allowed (destroy p) (fun _ => FdInv) s := by
  refine wp_seq (wp_closeFds I.nodup I.valid
    (fun e he => TreeMap.mem_toList_iff_getElem?_eq_some.mp he) (I.split hp).symm) ?_
  rintro _ _ ⟨l, rfl, hl⟩
  rw [I.noPipes p hp]
  simp only [closePipes, pure_bind, wp_bind, wp_modify, wp_pure]
  have hsub : ∀ x ∈ l.map getFd, x ∈ s.globals := fun x hx =>
    (I.split hp).subset (List.mem_append_right _ (hl.subset hx))
  refine ⟨hl.symm, ?_, fun hx => I.valid (hsub _ hx), ?_, ?_, ?_⟩
  · exact hl.nodup_iff.mpr (List.nodup_append.mp ((I.split hp).nodup_iff.mpr I.nodup)).2.1
  · exact I.pids.sublist (List.filter_sublist.map _)
  · exact fun q hq => I.fresh q (List.mem_of_mem_filter hq)
  · exact fun q hq => I.noPipes q (List.mem_of_mem_filter hq)

/-- One step, under the condition. -/
theorem FdInv.wp_act (I : FdInv s) {op : Op} (h : Tidy s op) :
    wp (· = .nullThread) (act op) (fun _ => FdInv) s := by
  cases op with
  | start opens loads =>
    rw [act]
    exact wp_seq (I.wp_start h) fun _ _ I' => (wp_pure _).mpr I'
  | «open» pid path opens =>
    refine wp_onProcess I fun p hp hpid => ?_
    subst hpid
    exact wp_seq (I.wp_openFd hp h) fun _ _ I' => (wp_pure _).mpr I'
  | close pid fd => exact wp_onProcess I fun p hp _ => I.wp_closeFd hp
  | read pid fd buffer count =>
    refine wp_onProcess I fun p hp _ => ?_
    rw [Syscall.read, I.not_isPipe hp]
    simpa using I
  | write pid fd buffer cs =>
    refine wp_onProcess I fun p hp _ => ?_
    rw [Syscall.write, I.not_isPipe hp]
    simpa using I
  | createprocess pid path opens opensAgain loads =>
    refine wp_onProcess I fun p hp hpid => ?_
    have hpath : path ≥ USER_BREAK := Nat.not_lt.mp fun hlt => h hlt p hp hpid
    rw [Syscall.createprocess, if_pos hpath, pure_bind]
    exact (wp_pure _).mpr I
  | pipe pid read write => cases h
  | fork pid opens opensAgain loads =>
    refine wp_onProcess I fun p hp hpid => ?_
    subst hpid
    exact I.wp_fork hp h
  | exit pid => exact wp_onProcess I fun p hp _ => I.wp_destroy hp

/-! ### Runs -/

theorem step_ok {op : Op} {evs : List Event} (h : step s op = .ok (t, evs)) :
    (act op).run s = .ok (evs, t) := by
  unfold step at h
  cases hr : (act op).run s with
  | error e =>
    rw [hr] at h
    cases h
  | ok r =>
    rw [hr] at h
    cases h
    rfl

theorem step_error {op : Op} {e : Failure} (h : step s op = .error e) :
    (act op).run s = .error e := by
  unfold step at h
  cases hr : (act op).run s with
  | error e =>
    rw [hr] at h
    cases h
    rfl
  | ok r =>
    rw [hr] at h
    cases h

theorem boot_fdInv : FdInv boot :=
  ⟨.refl _, List.nodup_nil, List.not_mem_nil, List.nodup_nil, nofun, nofun⟩

theorem fdInv {tr : List Event} (h : Runs step Tidy boot tr s) : FdInv s :=
  h.invariant (I := fun _ s => FdInv s) boot_fdInv fun I hok hs => of_wp (I.wp_act hok) (step_ok hs)

/-- What the tables and `global_fd` have to do with each other. -/
structure FdsAgree (s : Kernel) : Prop where
  exist : ∀ p ∈ s.process_list_, ∀ fd g : ℤ, p.fds_[fd]? = some g →
    ∃ d ∈ s.global_fd, getFd d = uint32 g
  apart : ∀ p ∈ s.process_list_, ∀ q ∈ s.process_list_, ∀ fd fd' g g' : ℤ, p.fds_[fd]? = some g →
    q.fds_[fd']? = some g' → uint32 g = uint32 g' → p = q ∧ fd = fd'
  named : ∀ d ∈ s.global_fd, ∃ p ∈ s.process_list_, ∃ fd g : ℤ, p.fds_[fd]? = some g ∧ uint32 g = getFd d

theorem FdInv.agree (I : FdInv s) : FdsAgree s := by
  have hnodup := List.nodup_flatMap.mp (I.entries.nodup_iff.mpr I.nodup)
  have hsymm : Std.Symm (Function.onFun List.Disjoint fun p : UserProcess => numbers p.fds_) :=
    ⟨fun _ _ h => h.symm⟩
  refine ⟨fun p hp fd g hg => ?_, fun p hp q hq fd fd' g g' hg hg' heq => ?_, fun d hd => ?_⟩
  · obtain ⟨d, hd, hn⟩ := List.mem_map.mp (I.valid_entry hp hg)
    exact ⟨d, hd, hn⟩
  · have hpq : p = q := by
      by_contra hne
      exact hnodup.2.forall hp hq hne (mem_numbers hg) (heq ▸ mem_numbers hg')
    subst hpq
    have hpair := List.inj_on_of_nodup_map (hnodup.1 p hp)
      (TreeMap.mem_toList_iff_getElem?_eq_some.mpr hg)
      (TreeMap.mem_toList_iff_getElem?_eq_some.mpr hg') heq
    exact ⟨rfl, congrArg Prod.fst hpair⟩
  · obtain ⟨p, hp, hn⟩ := List.mem_flatMap.mp (I.entries.symm.subset (List.mem_map_of_mem hd))
    obtain ⟨⟨fd, g⟩, he, hg⟩ := List.mem_map.mp hn
    exact ⟨p, hp, fd, g, TreeMap.mem_toList_iff_getElem?_eq_some.mp he, hg⟩

/-- The tables agree with `global_fd` in every state of a run, no process fails to end, and without
processes there are no descriptors. -/
theorem fds_agree {tr : List Event} (h : Runs step Tidy boot tr s) :
    FdsAgree s ∧ (∀ (pid : ℕ) (e : Failure), step s (.exit pid) ≠ .error e) ∧
      (s.process_list_ = [] → s.global_fd = boot.global_fd) := by
  have I := fdInv h
  refine ⟨I.agree, fun pid e herr => ?_, fun hempty => ?_⟩
  · have hwp : wp (fun _ => False) (act (.exit pid)) (fun _ => FdInv) s :=
      wp_onProcess I fun p hp _ => I.wp_destroy hp
    exact error_of_wp hwp (step_error herr)
  · have hperm := I.entries
    rw [Kernel.entries, hempty, List.flatMap_nil, Kernel.globals, List.nil_perm] at hperm
    exact List.map_eq_nil_iff.mp hperm

/-- Two processes; the first opens a file and closes its program's descriptor. -/
theorem fds_agree_two : ∃ s tr, Runs step Tidy boot tr s ∧ s.global_fd = [4, 5] ∧ FdsAgree s := by
  have hrun : (match execOk step Tidy boot
        [.start true true, .start true true, .open 0 0 true, .close 0 4] with
      | some (s, _) => s.global_fd == [4, 5]
      | none => false) = true := by decide +kernel
  split at hrun
  · rename_i s tr hexec
    have h := runs_of_execOk boot _ hexec
    exact ⟨s, tr, h, beq_iff_eq.mp hrun, (fds_agree h).1⟩
  · cases hrun

/-- A process opens a file that does not exist and exits. -/
theorem open_fails : ∃ s tr, Runs step (fun _ _ => True) boot tr s ∧ ¬FdsAgree s ∧
    step s (.exit 0) = .error .noMappedGlobalDescriptor := by
  have hrun : (match exec step boot [.start true true, .open 0 0 false] with
      | .ok (s, _) => s.global_fd == [3] && (match step s (.exit 0) with
        | .ok _ => false
        | .error e => e == .noMappedGlobalDescriptor) &&
        s.process_list_.any fun p => p.fds_[(5 : ℤ)]? == some (-1)
      | .error _ => false) = true := by decide +kernel
  split at hrun
  · rename_i s tr hexec
    simp only [Bool.and_eq_true, beq_iff_eq, List.any_eq_true] at hrun
    obtain ⟨⟨hglobal, hexit⟩, p, hp, hfd⟩ := hrun
    refine ⟨s, tr, runs_of_exec step boot _ hexec, fun h => ?_, ?_⟩
    · obtain ⟨d, hd, hn⟩ := h.exist p hp 5 (-1) hfd
      rw [hglobal, List.mem_singleton] at hd
      rw [hd] at hn
      exact absurd hn (by decide)
    · split at hexit
      · cases hexit
      · rename_i e he
        rw [he, beq_iff_eq.mp hexit]
  · cases hrun

end KPanic.Files

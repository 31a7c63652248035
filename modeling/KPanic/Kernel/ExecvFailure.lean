import KPanic.Kernel.Execv

/-!
# When `execv` fails

By the time the program turns out not to load, the siblings have been cancelled and the file has
been opened, and nothing closes it.
-/

namespace KPanic.Execv

open Bytes
open Function

variable {s t : Kernel} {env : Env} {path : CString} {args : List CString} {a b c i : ℕ}
  {v : UInt8} {bs : List UInt8}

/-! ### Writing to the page -/

/-- All but the memory and the trace of the writes. -/
structure Same (s t : Kernel) : Prop where
  proc : t.proc = s.proc
  global_fd : t.global_fd = s.global_fd

theorem Same.trans {u : Kernel} (h : Same s t) (h' : Same t u) : Same s u :=
  ⟨h'.proc.trans h.proc, h'.global_fd.trans h.global_fd⟩

theorem same_writeBytes : Same s (writeBytes s a bs) := by
  induction bs generalizing s a with
  | nil => exact ⟨rfl, rfl⟩
  | cons v bs ih =>
    have hfirst : Same s (writeByte s a v) := ⟨rfl, rfl⟩
    exact hfirst.trans ih

theorem same_copyArgs : Same s (copyArgs a c i args s) := by
  induction args generalizing s c i with
  | nil => exact ⟨rfl, rfl⟩
  | cons arg args ih => exact (same_writeBytes.trans same_writeBytes).trans ih

theorem same_packArgs : Same s (packArgs s path args) := same_writeBytes.trans same_copyArgs

/-! ### Atomicity -/

/-- What a call that returns -1 has to leave alone. -/
structure Unchanged (s t : Kernel) : Prop where
  siblings : t.proc.siblings = s.proc.siblings
  currentThread : t.proc.currentThread = s.proc.currentThread
  loader_ : t.proc.loader_ = s.proc.loader_
  fds_ : t.proc.fds_ = s.proc.fds_
  global_fd : t.global_fd = s.global_fd

theorem Same.unchanged_iff {u : Kernel} (h : Same s u) : Unchanged s t ↔ Unchanged u t := by
  obtain ⟨hproc, hglobal⟩ := h
  constructor
  · intro h
    exact ⟨hproc ▸ h.siblings, hproc ▸ h.currentThread, hproc ▸ h.loader_, hproc ▸ h.fds_,
      hglobal ▸ h.global_fd⟩
  · intro h
    exact ⟨hproc ▸ h.siblings, hproc ▸ h.currentThread, hproc ▸ h.loader_, hproc ▸ h.fds_,
      hglobal ▸ h.global_fd⟩

theorem Same.unchanged (h : Same s t) : Unchanged s t := by
  obtain ⟨hproc, hglobal⟩ := h
  exact ⟨by rw [hproc], by rw [hproc], by rw [hproc], by rw [hproc], hglobal⟩

/-- The arguments for which `execv` returns at once. -/
def badArguments : Option CString → Option (List CString) → Prop
  | some path, some args => strlen path = 0 ∨ args = [] ∨ ∃ arg ∈ args, strlen arg = 0
  | _, _ => True

theorem filterMap_killThread {gone : ℕ → Bool} {l : List UserThread} :
    l.filterMap (killThread gone) = l ↔ ∀ t ∈ l, t.cancel_req_ = true ∧ gone t.tid_ = false := by
  induction l with
  | nil => exact iff_of_true rfl nofun
  | cons t l ih =>
    rw [List.forall_mem_cons, ← ih]
    cases hgone : gone t.tid_ with
    | true =>
      rw [List.filterMap_cons_none (by rw [killThread, if_pos hgone])]
      refine iff_of_false (fun heq => ?_) fun h => Bool.noConfusion h.1.2
      have hlength := List.length_filterMap_le (killThread gone) l
      rw [heq, List.length_cons] at hlength
      omega
    | false =>
      rw [List.filterMap_cons_some (by rw [killThread, if_neg (by simp [hgone])]), List.cons.injEq]
      refine and_congr_left fun _ => ?_
      obtain ⟨tid, cancel_req, start, registers⟩ := t
      simp [eq_comm]

/-- The arguments are good: the process is restructured. -/
theorem execv_good (h : ¬badArguments (some path) (some args)) :
    execv env (some path) (some args) s =
      restructureProcessForExecv env (argsPtr { s with written := [] } path args) args.length
        (packArgs { s with written := [] } path args) := by
  unfold badArguments at h
  simp only [not_or, not_exists, not_and] at h
  obtain ⟨hpath, hargs, hempty⟩ := h
  unfold execv
  simp only
  rw [if_neg hpath, if_neg, if_neg]
  · rw [List.any_eq_true]
    rintro ⟨arg, harg, h0⟩
    exact hempty arg harg (of_decide_eq_true h0)
  · obtain ⟨arg, rest, rfl⟩ := List.exists_cons_of_ne_nil hargs
    simpa using hempty arg List.mem_cons_self

theorem execv_bad {path : Option CString} {args : Option (List CString)}
    (h : badArguments path args) : (execv env path args s).2 = -1 ∧
      Same s (execv env path args s).1 := by
  have hstart : Same s { s with written := [] } := ⟨rfl, rfl⟩
  cases path with
  | none => exact ⟨rfl, hstart⟩
  | some path =>
    cases args with
    | none => exact ⟨rfl, hstart⟩
    | some args =>
      unfold execv
      simp only
      split
      · exact ⟨rfl, hstart⟩
      · split
        · exact ⟨rfl, hstart⟩
        · rename_i hpath hhead
          obtain h0 | rfl | ⟨arg, harg, h0⟩ := h
          · exact absurd h0 hpath
          · exact absurd rfl hhead
          · rw [if_pos (List.any_eq_true.mpr ⟨arg, harg, decide_eq_true h0⟩)]
            exact ⟨rfl, hstart.trans same_writeBytes⟩

theorem restructure_unchanged {argv argc : ℕ} :
    ((restructureProcessForExecv env argv argc s).2 = -1 →
      Unchanged s (restructureProcessForExecv env argv argc s).1) ↔
    loadExecutable env ≠ none ∨ (env.opens = false ∧
      ∀ t ∈ s.proc.siblings, t.cancel_req_ = true ∧ env.gone t.tid_ = false) := by
  cases hload : loadExecutable env with
  | some entry =>
    refine iff_of_true (fun h => ?_) (.inl (Option.some_ne_none _))
    unfold restructureProcessForExecv at h
    simp only [hload] at h
    cases h
  | none =>
    rw [← filterMap_killThread]
    unfold restructureProcessForExecv
    simp only [hload, ne_eq, not_true_eq_false, false_or, forall_const]
    unfold openFile killThreadsSiblings
    cases hopens : env.opens with
    | true =>
      refine iff_of_false (fun h => ?_) fun h => Bool.noConfusion h.1
      have hlength := congrArg List.length h.global_fd
      simp at hlength
    | false =>
      constructor
      · exact fun h => ⟨rfl, h.siblings⟩
      · exact fun h => ⟨h.2, rfl, rfl, rfl, rfl⟩

/-- Two threads and no open file. -/
def twoThreads : Kernel where
  proc := ⟨ARGS_SEGMENT_START, 5, ⟨3, ⟨4, update (fun _ => none) argsVpn (some 5)⟩⟩,
    ⟨0, false, 0, fun _ => 0⟩, [⟨1, false, 0, fun _ => 0⟩], []⟩
  frames := fun _ _ => 0
  global_fd := []
  fd_num_ := 3
  written := []

/-- The file `p` is there but no program. -/
def noProgram : Env :=
  ⟨true, none, fun _ => true, 6, 7, 8, ⟨STACK_SPACE_END + STACK_MAX_SIZE + 0x556, by decide⟩, 0⟩

end KPanic.Execv

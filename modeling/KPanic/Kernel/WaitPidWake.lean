import KPanic.Kernel.WaitPidDeadlock
import KPanic.Lib.PartialMap

/-!
# Waiting on the condition of a process

`waitForPid` looks the condition up in one critical section and waits on it in another. As long
as no process dies while a thread is between the two, the condition is alive when the thread
waits, and the thread is on its list until the process dies.
-/

namespace KPanic.WaitPid

open Function

namespace Registry

variable {s s' : Registry} {l : Label} {tr evs : List Event}

/-- No process dies while a thread holds its condition and has not yet gone to sleep on it. -/
def NoGap (s : Registry) : Label → Prop
  | .removeFromWaitPIDMap pid => ∀ t cond, s.pc t ≠ .gotCond pid cond
  | _ => True

structure Conds (s : Registry) : Prop where
  live : ∀ {p c}, s.waitpid_map_ p = some c → s.heap c ≠ none ∧ c < s.next_address
  distinct : ∀ {p q c}, s.waitpid_map_ p = some c → s.waitpid_map_ q = some c → p = q
  got : ∀ {t p c}, s.pc t = .gotCond p c → s.waitpid_map_ p = some c
  asleep : ∀ {t p c}, s.pc t = .sleeping p c →
    s.waitpid_map_ p = some c ∧ ∃ cond, s.heap c = some cond ∧ t ∈ cond.waiters_list_
  waiting : ∀ {t c cond}, s.heap c = some cond → t ∈ cond.waiters_list_ → ∃ p, s.pc t = .sleeping p c

theorem conds_start : Conds start where
  live h := by cases h
  distinct h := by cases h
  got h := by cases h
  asleep h := by cases h
  waiting h := by cases h

/-- A thread that slept on the condition is back in user space, the others are where they were. -/
theorem dropCond_pc {pid : Pid} {cond : ℕ} {c : Condition} (hheap : s.heap cond = some c) (t : Tid) :
    (s.dropCond pid cond).pc t = if t ∈ c.waiters_list_ then .user else s.pc t := by
  unfold dropCond broadcast
  rw [hheap]

theorem dropCond_heap {pid : Pid} {cond : ℕ} (c : ℕ) :
    (s.dropCond pid cond).heap c = if c = cond then none else s.heap c := by
  unfold dropCond broadcast
  split
  · simp [update_apply]
  · by_cases hc : c = cond
    · simp [hc]
    · simp [hc]

theorem dropCond_next (s : Registry) (pid : Pid) (cond : ℕ) :
    (s.dropCond pid cond).next_address = s.next_address := by
  unfold dropCond broadcast
  split <;> rfl

theorem Conds.effect (h : Conds s) (hwf : Wf s) (e : Effect s l evs s') (hok : NoGap s l) :
    Conds s' := by
  cases e with
  | nothing => exact h
  | newPid => exact ⟨h.live, h.distinct, h.got, h.asleep, h.waiting⟩
  | added pid hphase =>
    have hnone : s.waitpid_map_ pid = none := by
      by_contra hne
      have := hwf.mapped.mp hne
      rw [hphase] at this
      cases this
    have hold : ∀ {p c}, s.waitpid_map_ p = some c → p ≠ pid := by
      rintro p c hp rfl
      rw [hnone] at hp
      cases hp
    have hfresh : ∀ {p c}, s.waitpid_map_ p = some c → c ≠ s.next_address := fun hp =>
      Nat.ne_of_lt (h.live hp).2
    have hback : ∀ {p c}, update s.waitpid_map_ pid (some s.next_address) p = some c →
        (p = pid ∧ c = s.next_address) ∨ s.waitpid_map_ p = some c := by
      intro p c hp
      by_cases hpp : p = pid
      · exact .inl ⟨hpp, by simpa [hpp, eq_comm] using hp⟩
      · exact .inr (by simpa [hpp] using hp)
    refine ⟨fun {p c} hp => ?_, fun {p q c} hp hq => ?_, fun {t p c} hpc => ?_,
      fun {t p c} hpc => ?_, fun {t c cond} hc ht => ?_⟩
    · rcases hback hp with ⟨rfl, rfl⟩ | hp
      · exact ⟨by simp, Nat.lt_succ_self _⟩
      · exact ⟨by simpa [hfresh hp] using (h.live hp).1, Nat.lt_succ_of_lt (h.live hp).2⟩
    · rcases hback hp with ⟨rfl, rfl⟩ | hp'
      · rcases hback hq with ⟨rfl, -⟩ | hq'
        · rfl
        · exact absurd rfl (hfresh hq')
      · rcases hback hq with ⟨rfl, rfl⟩ | hq'
        · exact absurd rfl (hfresh hp')
        · exact h.distinct hp' hq'
    · have hp := h.got hpc
      simpa [hold hp] using hp
    · obtain ⟨hp, cond, hc, ht⟩ := h.asleep hpc
      exact ⟨by simpa [hold hp] using hp, cond, by simpa [hfresh hp] using hc, ht⟩
    · by_cases hcc : c = s.next_address
      · have hnil : cond = ⟨[]⟩ := by simpa [hcc, eq_comm] using hc
        rw [hnil] at ht
        cases ht
      · exact h.waiting (by simpa [hcc] using hc) ht
  | dropped pid cond hphase hcond =>
    obtain ⟨c, hheap⟩ := Option.ne_none_iff_exists'.mp (h.live hcond).1
    have hback : ∀ {p d}, (s.dropCond pid cond).waitpid_map_ p = some d →
        p ≠ pid ∧ s.waitpid_map_ p = some d := by
      intro p d hp
      rw [dropCond_waitpid_map_] at hp
      exact PartialMap.update_none_eq_some.mp hp
    have hne : ∀ {p d}, p ≠ pid → s.waitpid_map_ p = some d → d ≠ cond := by
      rintro p d hpp hp rfl
      exact hpp (h.distinct hp hcond)
    have hpc : ∀ {t p}, (s.dropCond pid cond).pc t = p → p ≠ .user →
        t ∉ c.waiters_list_ ∧ s.pc t = p := by
      intro t p ht hp
      rw [dropCond_pc hheap] at ht
      split_ifs at ht with hmem
      · exact absurd ht.symm hp
      · exact ⟨hmem, ht⟩
    have hkeep : ∀ {p d}, p ≠ pid → s.waitpid_map_ p = some d →
        (s.dropCond pid cond).waitpid_map_ p = some d := by
      intro p d hpp hp
      rw [dropCond_waitpid_map_]
      exact PartialMap.update_none_eq_some.mpr ⟨hpp, hp⟩
    refine ⟨fun {p d} hp => ?_, fun {p q d} hp hq => ?_, fun {t p d} ht => ?_,
      fun {t p d} ht => ?_, fun {t d w} hd hw => ?_⟩
    · obtain ⟨hpp, hp⟩ := hback hp
      rw [dropCond_heap, if_neg (hne hpp hp), dropCond_next]
      exact h.live hp
    · exact h.distinct (hback hp).2 (hback hq).2
    · have hgot := (hpc ht (by simp)).2
      have hpp : p ≠ pid := by
        rintro rfl
        exact hok t d hgot
      exact hkeep hpp (h.got hgot)
    · obtain ⟨hmem, hsleep⟩ := hpc ht (by simp)
      obtain ⟨hp, w, hd, hw⟩ := h.asleep hsleep
      have hpp : p ≠ pid := by
        rintro rfl
        obtain rfl : cond = d := Option.some.inj (hcond.symm.trans hp)
        obtain rfl : c = w := Option.some.inj (hheap.symm.trans hd)
        exact hmem hw
      exact ⟨hkeep hpp hp, w, by rw [dropCond_heap, if_neg (hne hpp hp), hd], hw⟩
    · rw [dropCond_heap] at hd
      split_ifs at hd with hdc
      obtain ⟨p, hp⟩ := h.waiting hd hw
      refine ⟨p, ?_⟩
      rw [dropCond_pc hheap, if_neg, hp]
      intro hmem
      obtain ⟨p', hp'⟩ := h.waiting hheap hmem
      rw [hp] at hp'
      cases hp'
      exact hdc rfl
  | got t current_pid pid cond pids hpc hne hcheck hcond hpids =>
    refine ⟨h.live, h.distinct, fun {u p c} hu => ?_, fun {u p c} hu => ?_, fun {u c w} hc hu => ?_⟩
    · by_cases hut : u = t
      · have heq : Pc.gotCond pid cond = .gotCond p c := by simpa [hut] using hu
        cases heq
        exact hcond
      · exact h.got (by simpa [hut] using hu)
    · by_cases hut : u = t
      · simp [hut] at hu
      · exact h.asleep (by simpa [hut] using hu)
    · obtain ⟨p, hp⟩ := h.waiting hc hu
      have hut : u ≠ t := by
        rintro rfl
        rw [hpc] at hp
        cases hp
      exact ⟨p, by simpa [hut] using hp⟩
  | slept t pid cond c hpc hheap =>
    have hcond := h.got hpc
    refine ⟨fun {p d} hp => ?_, h.distinct, fun {u p d} hu => ?_, fun {u p d} hu => ?_,
      fun {u d w} hd hu => ?_⟩
    · refine ⟨?_, (h.live hp).2⟩
      by_cases hdc : d = cond
      · simp [hdc]
      · simpa [hdc] using (h.live hp).1
    · by_cases hut : u = t
      · simp [hut] at hu
      · exact h.got (by simpa [hut] using hu)
    · by_cases hut : u = t
      · have heq : Pc.sleeping pid cond = .sleeping p d := by simpa [hut] using hu
        cases heq
        exact ⟨hcond, ⟨t :: c.waiters_list_⟩, by simp, by simp [hut]⟩
      · obtain ⟨hp, w, hd, hw⟩ := h.asleep (by simpa [hut] using hu)
        refine ⟨hp, ?_⟩
        by_cases hdc : d = cond
        · obtain rfl : c = w := Option.some.inj (by rw [← hheap, ← hdc, hd])
          exact ⟨⟨t :: c.waiters_list_⟩, by simp [hdc], List.mem_cons_of_mem _ hw⟩
        · exact ⟨w, by simpa [hdc] using hd, hw⟩
    · by_cases hdc : d = cond
      · have hw : w = ⟨t :: c.waiters_list_⟩ := by simpa [hdc, eq_comm] using hd
        rw [hw] at hu
        by_cases hut : u = t
        · exact ⟨pid, by simp [hut, hdc]⟩
        · obtain ⟨p, hp⟩ := h.waiting hheap ((List.mem_cons.mp hu).resolve_left hut)
          exact ⟨p, by simpa [hut, hdc] using hp⟩
      · obtain ⟨p, hp⟩ := h.waiting (by simpa [hdc] using hd) hu
        have hut : u ≠ t := by
          rintro rfl
          rw [hpc] at hp
          cases hp
        exact ⟨p, by simpa [hut] using hp⟩

theorem scanPids_error {w : Pid} {check : Pid → Answer} {pids : List Pid} {e : Panic}
    (hcheck : ∀ {q e}, check q = some (.error e) → e = .missingKey)
    (h : scanPids check w pids = some (.error e)) : e = .missingKey := by
  induction pids with
  | nil => cases h
  | cons q pids ih =>
    rw [scanPids] at h
    split at h
    · cases h
    · split at h
      · exact ih h
      · exact hcheck h

theorem check_error {w : Pid} {n : ℕ} {p : Pid} {e : Panic}
    (h : checkWaitPidDeadlock s.wait_pid_map_helper_ w n p = some (.error e)) :
    e = .missingKey := by
  induction n generalizing p e with
  | zero => cases h
  | succ n ih =>
    rw [checkWaitPidDeadlock] at h
    split at h
    · cases h
      rfl
    · exact scanPids_error (fun hq => ih hq) h

theorem conds_of_runs (h : Runs NoGap tr s) : Wf s ∧ Conds s := by
  refine h.invariant (I := fun _ s => Wf s ∧ Conds s) ⟨wf_start, conds_start⟩ ?_
  intro tr s l t evs hinv hok hstep
  have hspec := step_spec s l
  rw [hstep] at hspec
  exact ⟨hinv.1.effect hspec, hinv.2.effect hinv.1 hspec hok⟩

/-- A sleeper on the condition of `pid` returns from `waitForPid` when `pid` dies. -/
theorem Conds.woken (h : Conds s) {t : Tid} {pid : Pid} {cond : ℕ}
    (hpc : s.pc t = .sleeping pid cond) :
    (s.dropCond pid cond).pc t = .user ∧ .returned t pid ∈ (s.broadcast cond).2 := by
  obtain ⟨-, c, hheap, ht⟩ := h.asleep hpc
  refine ⟨by rw [dropCond_pc hheap, if_pos ht], ?_⟩
  unfold broadcast
  rw [hheap]
  exact List.mem_filterMap.mpr ⟨t, List.mem_reverse.mpr ht, by rw [hpc]⟩

/-- As long as no process dies in the gap: a thread that holds a condition holds the live
condition of its pid, no thread waits on a deleted one, and a sleeper stays on the list of the
live condition until the death of its pid wakes it. -/
theorem waitForPid_live (h : Runs NoGap tr s) :
    (∀ t pid cond, s.pc t = .gotCond pid cond →
      s.waitpid_map_ pid = some cond ∧ s.heap cond ≠ none) ∧
    (∀ l, s.step l ≠ .error .waitOnDeleted) ∧
    (∀ t pid cond, s.pc t = .sleeping pid cond →
      s.waitpid_map_ pid = some cond ∧ ∃ c, s.heap cond = some c ∧ t ∈ c.waiters_list_) ∧
    ∀ pid s' evs, s.phase pid = .alive → s.step (.removeFromWaitPIDMap pid) = .ok (s', evs) →
      ∀ t cond, s.pc t = .sleeping pid cond → s'.pc t = .user ∧ .returned t pid ∈ evs := by
  obtain ⟨hwf, hconds⟩ := conds_of_runs h
  refine ⟨fun t pid cond hpc => ⟨hconds.got hpc, (hconds.live (hconds.got hpc)).1⟩, ?_,
    fun t pid cond hpc => hconds.asleep hpc, ?_⟩
  · intro l hl
    have hspec := step_spec s l
    rw [hl] at hspec
    cases hspec with
    | check current_pid pid _ hcheck =>
      -- a failed look-up is a missing key, never a deleted condition
      cases check_error hcheck
    | deleted t pid cond hpc hheap => exact (hconds.live (hconds.got hpc)).1 hheap
  · intro pid s' evs hphase hstep t cond hpc
    have hmap := (hconds.asleep hpc).1
    rw [step, if_pos hphase, removeFromWaitPIDMap, hmap] at hstep
    cases hstep
    exact hconds.woken hpc

/-- Process 1 dies after thread 0 has looked its condition up. -/
theorem waits_on_deleted : ∃ tr s, Runs (fun _ _ => True) tr s ∧ s.phase 1 = .dead ∧
    s.pc 0 = .gotCond 1 1 ∧ s.heap 1 = none ∧ s.step (.wait 0) = .error .waitOnDeleted := by
  have hrun := Machine.runs_of_exec step start
    [.getNewPID, .addToWaitPIDMap 0, .getNewPID, .addToWaitPIDMap 1, .getCondToWait 0 0 1,
      .removeFromWaitPIDMap 1] rfl
  exact ⟨_, _, hrun, rfl, rfl, rfl, rfl⟩

/-- Thread 0 goes to sleep on the condition of process 1. -/
theorem waitForPid_live_two : ∃ tr s, Runs NoGap tr s ∧ s.pc 0 = .sleeping 1 1 ∧
    ∀ l, s.step l ≠ .error .waitOnDeleted := by
  have hrun : Runs NoGap _ _ :=
    .next (.next (.next (.next (.next (.next .start
      (l := Label.getNewPID) trivial rfl)
      (l := Label.addToWaitPIDMap 0) trivial rfl)
      (l := Label.getNewPID) trivial rfl)
      (l := Label.addToWaitPIDMap 1) trivial rfl)
      (l := Label.getCondToWait 0 0 1) trivial rfl)
      (l := Label.wait 0) trivial rfl
  exact ⟨_, _, hrun, rfl, (waitForPid_live hrun).2.1⟩

end Registry

end KPanic.WaitPid

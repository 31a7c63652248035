import KPanic.Kernel.JoinInvariant

/-!
# What a join delivers, and who is left waiting

The history of a run decides how often the value of a thread is handed out. That a woken thread
still finds the value, and that nobody keeps waiting for a dead thread, holds only as long as no
step takes the value from under a recorded waiter and no thread dies without leaving one.
-/

namespace KPanic.Threads

open Function

/-- The values that `t` stored in `exitThread`. -/
def exitValues (tr : List Event) (t : Tid) : List Ptr :=
  tr.filterMap fun
    | .exited tid v => if tid = t then some v else none
    | .joined _ _ _ => none

/-- The values with which `joinThread(t)` returned 0. -/
def joinValues (tr : List Event) (t : Tid) : List Ptr :=
  tr.filterMap fun
    | .exited _ _ => none
    | .joined _ tid v => if tid = t then some v else none

@[simp] theorem exitValues_append (tr tr' : List Event) (t : Tid) :
    exitValues (tr ++ tr') t = exitValues tr t ++ exitValues tr' t := List.filterMap_append

@[simp] theorem joinValues_append (tr tr' : List Event) (t : Tid) :
    joinValues (tr ++ tr') t = joinValues tr t ++ joinValues tr' t := List.filterMap_append

@[simp] theorem exitValues_exited (u t : Tid) (v : Ptr) :
    exitValues [.exited u v] t = if u = t then [v] else [] := by
  by_cases h : u = t <;> simp [exitValues, h]

@[simp] theorem exitValues_joined (c u t : Tid) (v : Ptr) :
    exitValues [.joined c u v] t = [] := rfl

@[simp] theorem joinValues_exited (u t : Tid) (v : Ptr) : joinValues [.exited u v] t = [] := rfl

@[simp] theorem joinValues_joined (c u t : Tid) (v : Ptr) :
    joinValues [.joined c u v] t = if u = t then [v] else [] := by
  by_cases h : u = t <;> simp [joinValues, h]

theorem mem_joinValues {tr : List Event} {c t : Tid} {v : Ptr} (h : .joined c t v ∈ tr) :
    v ∈ joinValues tr t := by
  rw [joinValues, List.mem_filterMap]
  exact ⟨_, h, by simp⟩

namespace UserProcess

variable {s s' : UserProcess} {l : Label} {tr evs : List Event}

/-- A thread stores a value once, and the value is either still stored or has been handed out. -/
structure History (tr : List Event) (s : UserProcess) : Prop where
  values : ∀ t, joinValues tr t ++ (s.ret_values_ t).toList = exitValues tr t
  once : ∀ t, (exitValues tr t).length ≤ 1
  passed : ∀ {t}, exitValues tr t ≠ [] → t < s.next_tid_ ∧ ¬(s.pc t).Local ∧ ∀ c u, s.pc t ≠ .wait c u

theorem History.effect (h : History tr s) (hwf : Wf s) (e : Effect s l evs s') :
    History (tr ++ evs) s' := by
  cases e with
  | nothing => simpa using h
  | goto id t f p b tids hf hold hnew =>
    rw [List.append_nil]
    refine ⟨h.values, h.once, fun {u} hu => ?_⟩
    have hut : u ≠ t := by
      rintro rfl
      exact (h.passed hu).2.1 hold
    simpa [hut] using h.passed hu
  | created tid hle =>
    rw [List.append_nil]
    refine ⟨h.values, h.once, fun {u} hu => ?_⟩
    obtain ⟨hlt, hpc⟩ := h.passed hu
    have hut : u < tid := Nat.lt_of_lt_of_le hlt hle
    refine ⟨Nat.lt_succ_of_lt hut, ?_⟩
    simpa [Nat.ne_of_lt hut] using hpc
  | exited tid retval th hpc hth hexited hret =>
    have hnil : exitValues tr tid = [] := by
      by_contra hne
      have := (h.passed hne).2.1
      rw [hpc] at this
      exact this trivial
    have hjoin : joinValues tr tid = [] := by
      have := h.values tid
      rw [hnil] at this
      exact (List.append_eq_nil_iff.mp this).1
    refine ⟨fun u => ?_, fun u => ?_, fun {u} hu => ?_⟩
    · rw [storeValue_ret_values_]
      by_cases hut : u = tid
      · simp [hut, hnil, hjoin]
      · have hne : tid ≠ u := fun heq => hut heq.symm
        simpa [hut, hne] using h.values u
    · by_cases hut : u = tid
      · simp [hut, hnil]
      · have hne : tid ≠ u := fun heq => hut heq.symm
        simpa [hne] using h.once u
    · rw [storeValue_pc, storeValue_next_tid_]
      by_cases hut : u = tid
      · subst hut
        refine ⟨hwf.lt_next (by rw [state_eq_of hth]; exact Option.some_ne_none _), ?_⟩
        simp [Pc.Local]
      · have hne : tid ≠ u := fun heq => hut heq.symm
        simpa [hut] using h.passed (by simpa [hne] using hu)
  | died t stale th hth hpc =>
    rw [List.append_nil]
    refine ⟨h.values, h.once, fun {u} hu => ?_⟩
    by_cases hut : u = t
    · subst hut
      refine ⟨(h.passed hu).1, ?_⟩
      simp [setPc, Pc.Local]
    · simpa [setPc, setState, modifyThread, hut] using h.passed hu
  | took t stale c tid rv p hpc hne hret hp =>
    refine ⟨fun u => ?_, fun u => ?_, fun {u} hu => ?_⟩
    · have hv := h.values u
      by_cases hut : u = tid
      · subst hut
        simpa [hret] using hv
      · have hne : tid ≠ u := fun heq => hut heq.symm
        simpa [hut, hne] using hv
    · simpa using h.once u
    · rw [exitValues_append, exitValues_joined, List.append_nil] at hu
      have hut : u ≠ t := by
        rintro rfl
        exact (h.passed hu).2.1 (by rw [hpc]; trivial)
      simpa [hut] using h.passed hu
  | slept t stale c tid target hpc hne hret htarget hexited hwait hdead =>
    rw [List.append_nil]
    refine ⟨h.values, h.once, fun {u} hu => ?_⟩
    have hut : u ≠ t := by
      rintro rfl
      exact (h.passed hu).2.1 (by rw [hpc]; trivial)
    simpa [setPc, setState, modifyThread, hut] using h.passed hu
  | woke t stale c tid w rv p hrun hpc hw hret hp =>
    refine ⟨fun u => ?_, fun u => ?_, fun {u} hu => ?_⟩
    · have hv := h.values u
      by_cases hut : u = tid
      · subst hut
        simpa [hret] using hv
      · have hne : tid ≠ u := fun heq => hut heq.symm
        simpa [hut, hne] using hv
    · simpa using h.once u
    · rw [exitValues_append, exitValues_joined, List.append_nil] at hu
      have hut : u ≠ t := by
        rintro rfl
        exact (h.passed hu).2.2 c tid hpc
      simpa [hut] using h.passed hu
  | destroyed t th hth hstate =>
    rw [List.append_nil]
    exact ⟨h.values, h.once, h.passed⟩

/-- No `joinThread(tid)` takes the fast path while a waiter for `tid` is recorded. -/
def NoStolenValue (s : UserProcess) : Label → Prop
  | .run t _ => ∀ c tid, s.pc t = .joinThread c tid → t ≠ tid → s.ret_values_ tid ≠ none →
      s.waiting_list_ tid = none
  | _ => True

/-- A waiter has been signalled exactly if there is a value for it. -/
def Signalled (s : UserProcess) : Prop :=
  ∀ {t w}, s.waiting_list_ t = some w → (w.cond_.waiters_list_ = [] ↔ s.ret_values_ t ≠ none)

theorem Signalled.effect (h : Signalled s) (hwf : Wf s) (e : Effect s l evs s')
    (hok : NoStolenValue s l) : Signalled s' := by
  cases e with
  | nothing => exact h
  | goto id t f p b tids hf hold hnew => exact h
  | created tid hle => exact h
  | exited tid retval th hpc hth hexited hret =>
    intro u w hw
    rw [storeValue_waiting] at hw
    rw [storeValue_ret_values_]
    by_cases hu : u = tid
    · rw [if_pos hu] at hw
      obtain ⟨v, hv, rfl⟩ := Option.map_eq_some_iff.mp hw
      rcases hwf.slept hv with ⟨hcond, -⟩ | ⟨hcond, -⟩
      · simp [hu, hcond]
      · simp [hu, hcond]
    · rw [if_neg hu] at hw
      simpa [hu] using h hw
  | died t stale th hth hpc => exact h
  | took t stale c tid rv p hpc hne hret hp =>
    intro u w hw
    have hu : u ≠ tid := by
      rintro rfl
      have hnone := hok c u hpc hne (by rw [hret]; exact Option.some_ne_none _)
      rw [show s.waiting_list_ u = some w from hw] at hnone
      cases hnone
    simpa [hu] using h hw
  | slept t stale c tid target hpc hne hret htarget hexited hwait hdead =>
    intro u w hw
    by_cases hu : u = tid
    · have hw' : w = ⟨t, ⟨[t]⟩⟩ := by
        simpa [setPc, setState, modifyThread, hu, eq_comm] using hw
      simp [hw', setPc, setState, modifyThread, hu, hret]
    · exact h (by simpa [setPc, setState, modifyThread, hu] using hw)
  | woke t stale c tid w rv p hrun hpc hw hret hp =>
    intro u v hv
    by_cases hu : u = tid
    · simp [hu] at hv
    · simpa [hu] using h (by simpa [hu] using hv)
  | destroyed t th hth hstate => exact h

structure Delivering (tr : List Event) (s : UserProcess) : Prop where
  wf : Wf s
  history : History tr s
  signalled : Signalled s

theorem delivering_of_runs {ok : UserProcess → Label → Prop} {tid : Tid} {main : UserThread}
    (hok : ∀ s l, ok s l → NoStolenValue s l) (h : Runs ok tid main tr s) : Delivering tr s := by
  refine h.invariant ⟨wf_start tid main, ⟨fun t => rfl, fun t => Nat.zero_le _, ?_⟩, ?_⟩ ?_
  · intro t ht
    exact absurd rfl ht
  · intro t w hw
    cases hw
  · intro tr s l t evs hinv hl hstep
    have hspec := step_spec s l
    rw [hstep] at hspec
    exact ⟨hinv.wf.effect hspec, hinv.history.effect hinv.wf hspec,
      Signalled.effect hinv.signalled hinv.wf hspec (hok _ _ hl)⟩

/-- A thread woken in `joinThread(tid)` finds itself and the value. -/
theorem Delivering.found (h : Delivering tr s) {t tid : Tid} {c : Caller}
    (hpc : s.pc t = .wait c tid) (hrun : s.isRunning t = true) :
    s.waiting_list_ tid ≠ none ∧ s.ret_values_ tid ≠ none := by
  obtain ⟨w, hw, rfl⟩ := h.wf.waits hpc
  refine ⟨by rw [hw]; exact Option.some_ne_none _, (h.signalled hw).mp ?_⟩
  rcases h.wf.slept hw with ⟨-, hsleep⟩ | ⟨hcond, -⟩
  · rw [state_of_isRunning hrun] at hsleep
    cases hsleep
  · exact hcond

theorem Delivering.no_failure (h : Delivering tr s) {e : Panic} : ¬Failure s l e := by
  intro hf
  cases hf with
  | endless t stale c tid hloop =>
    exact h.wf.joinDeadlock_terminates tid (Nat.lt_succ_self _) t hloop
  | erased t stale c tid hpc hw =>
    obtain ⟨w, hw', -⟩ := h.wf.waits hpc
    rw [hw] at hw'
    cases hw'
  | lost t stale c tid w hrun hpc hw hret => exact (h.found hpc hrun).2 hret

/-- As long as no fast path takes a value that a recorded waiter is owed: no assertion fails,
a woken thread finds its entry and the value, `joinThread` returns the value that the target
passed to `exitThread`, and returns 0 for a target at most once. -/
theorem joinThread_delivers {tid : Tid} {main : UserThread}
    (h : Runs NoStolenValue tid main tr s) :
    (∀ l e, s.step l ≠ .error e) ∧
    (∀ t c u, s.pc t = .wait c u → s.isRunning t = true →
      s.waiting_list_ u ≠ none ∧ s.ret_values_ u ≠ none) ∧
    (∀ c u v, .joined c u v ∈ tr → exitValues tr u = [v]) ∧
    ∀ u, (joinValues tr u).length ≤ 1 := by
  have hinv := delivering_of_runs (fun _ _ => id) h
  have hsub : ∀ u, (joinValues tr u).length ≤ (exitValues tr u).length := by
    intro u
    rw [← hinv.history.values u, List.length_append]
    exact Nat.le_add_right _ _
  refine ⟨?_, ?_, ?_, fun u => Nat.le_trans (hsub u) (hinv.history.once u)⟩
  · intro l e he
    have hspec := step_spec s l
    rw [he] at hspec
    exact hinv.no_failure hspec
  · intro t c u hpc hrun
    exact hinv.found hpc hrun
  · intro c u v hv
    have hmem : v ∈ exitValues tr u := by
      rw [← hinv.history.values u]
      exact List.mem_append_left _ (mem_joinValues hv)
    have hone := hinv.history.once u
    match hx : exitValues tr u, hone, hmem with
    | [x], _, hmem => rw [List.mem_singleton.mp hmem]

/-- Thread 2 takes the value between the signal for thread 0 and the wake-up of thread 0. -/
theorem joinThread_stolen : ∃ tr s,
    Runs (fun _ _ => True) 0 ⟨.Running, false, true, false⟩ tr s ∧
    (∃ c, s.pc 0 = .wait c 1) ∧ s.isRunning 0 = true ∧ s.ret_values_ 1 = none ∧
    s.step (.run 0 0) = .error .noReturnValue := by
  have hrun := Machine.runs_of_exec step (start 0 ⟨.Running, false, true, false⟩)
    [.createThread 0, .createThread 0, .callJoinThread 0 1, .run 0 0,
      .callExitThread 1 7, .run 1 0, .callJoinThread 2 1, .run 2 0] rfl
  exact ⟨_, _, hrun, ⟨.pthread_join, rfl⟩, rfl, rfl, rfl⟩

/-- Thread 0 joins thread 1, which exits with 7. -/
theorem joinThread_delivers_two : ∃ tr s,
    Runs NoStolenValue 0 ⟨.Running, false, true, false⟩ tr s ∧
    joinValues tr 1 = [7] ∧ ∀ l e, s.step l ≠ .error e := by
  have hrun : Runs NoStolenValue 0 ⟨.Running, false, true, false⟩ _ _ :=
    .next (.next (.next (.next (.next (.next .start
      (l := Label.createThread 0) trivial rfl)
      (l := Label.callJoinThread 0 1) trivial rfl)
      (l := Label.run 0 0) (by intro c tid _ _ hret; cases hret rfl) rfl)
      (l := Label.callExitThread 1 7) trivial rfl)
      (l := Label.run 1 0) (by intro c tid hpc; cases hpc) rfl)
      (l := Label.run 0 0) (by intro c tid hpc; cases hpc) rfl
  exact ⟨_, _, hrun, rfl, (joinThread_delivers hrun).1⟩

/-- `joinThread(tid)` of `t` gets as far as `cond->wait()`. -/
def WouldSleep (s : UserProcess) (t tid : Tid) : Prop :=
  t ≠ tid ∧ s.ret_values_ tid = none ∧ s.waiting_list_ tid = none ∧
    joinDeadlock s.waiting_list_ tid s.deadlockPasses t = some false

/-- `kill` ends no thread that is waited for, and nobody goes to sleep on a thread that is dead
without having stored a value. -/
def NoStranding (s : UserProcess) : Label → Prop
  | .run t stale => NoStolenValue s (.run t stale) ∧
      ((s.pc t = .kill ∧ s.called_exit_ = true) ∨ s.pc t = .exitLast → s.waiting_list_ t = none) ∧
      ∀ c tid target, s.pc t = .joinThread c tid → s.WouldSleep t tid →
        s.thread_list_ tid = some target → target.exited_ = false →
        target.state_ ≠ .ToBeDestroyed
  | _ => True

theorem NoStranding.noStolenValue (h : NoStranding s l) : NoStolenValue s l := by
  cases l with
  | run t stale => exact h.1
  | _ => trivial

def exited (s : UserProcess) (t : Tid) : Option Bool := (s.thread_list_ t).map (·.exited_)

/-- `t` has neither died nor passed `exitThread`. -/
def WillExit (s : UserProcess) (t : Tid) : Prop :=
  (s.state t = some .Running ∨ s.state t = some .Sleeping) ∧ s.exited t = some false

structure Attended (s : UserProcess) : Prop where
  waited : ∀ {t}, s.waiting_list_ t ≠ none → s.ret_values_ t ≠ none ∨ s.WillExit t
  exiting : ∀ {t v}, s.pc t = .exit v → s.exited t = some true

theorem exited_eq_of {th : UserThread} {t : Tid} (h : s.thread_list_ t = some th) :
    s.exited t = some th.exited_ := by
  rw [exited, h]
  rfl

theorem setState_exited (s : UserProcess) (t u : Tid) (st : ThreadState) :
    (s.setState t st).exited u = s.exited u :=
  PartialMap.map_modify (g := UserThread.exited_) (f := fun th : UserThread => { th with state_ := st }) (fun _ => rfl) _ t u

theorem alertWaiter_exited (s : UserProcess) (tid u : Tid) :
    (s.alertWaiter tid).exited u = s.exited u := by
  unfold alertWaiter signal
  split
  · split
    · rfl
    · exact setState_exited s _ u _
  · rfl

theorem storeValue_exited (s : UserProcess) (tid : Tid) (retval : Ptr) (u : Tid) :
    (s.storeValue tid retval).exited u =
      if u = tid then (s.exited u).map fun _ => true else s.exited u := by
  set s₁ := alertWaiter { s with ret_values_ := update s.ret_values_ tid (some retval) } tid with hs₁
  have halert : s₁.exited u = s.exited u := alertWaiter_exited _ tid u
  rw [← halert]
  show (update s₁.thread_list_ tid _ u).map _ = _
  by_cases hu : u = tid
  · subst hu
    rw [update_self, if_pos rfl, exited, Option.map_map, Option.map_map]
    rfl
  · rw [update_of_ne hu, if_neg hu]
    rfl

theorem WillExit.congr {u : Tid} (h : s.WillExit u) (hst : s'.state u = s.state u)
    (hex : s'.exited u = s.exited u) : s'.WillExit u := by
  rwa [WillExit, hst, hex]

/-- Waking a waiter keeps every other thread that will exit. -/
theorem WillExit.storeValue {tid u : Tid} {retval : Ptr} (h : s.WillExit u)
    (hu : u ≠ tid) : (s.storeValue tid retval).WillExit u := by
  refine ⟨?_, by rw [storeValue_exited, if_neg hu]; exact h.2⟩
  cases hw : s.waiting_list_ tid with
  | none =>
    rw [storeValue_state_none hw]
    exact h.1
  | some w =>
    rw [storeValue_state hw rfl]
    split
    · rcases h.1 with hst | hst <;> simp [hst]
    · exact h.1

theorem Attended.effect (h : Attended s) (hwf : Wf s) (e : Effect s l evs s')
    (hok : NoStranding s l) : Attended s' := by
  cases e with
  | nothing => exact h
  | goto id t f p b tids hf hold hnew =>
    have hst : ∀ u, (update s.thread_list_ id ((s.thread_list_ id).map f) u).map (·.state_) =
      s.state u := PartialMap.map_modify (fun th => (hf th).1) s.thread_list_ id
    have hex : ∀ u, (update s.thread_list_ id ((s.thread_list_ id).map f) u).map (·.exited_) =
      s.exited u := PartialMap.map_modify (fun th => (hf th).2) s.thread_list_ id
    constructor
    · intro u hu
      rw [WillExit, state, exited, hst, hex]
      exact h.waited hu
    · intro u v hpc
      rw [exited, hex]
      exact h.exiting ((update_pc_iff (by rintro heq; rw [heq] at hold; exact hold)
        (by rintro rfl; exact hnew)).mp hpc)
  | created tid hle =>
    constructor
    · intro u hu
      have hne : u ≠ tid := Nat.ne_of_lt (Nat.lt_of_lt_of_le (hwf.targets hu) hle)
      rcases h.waited hu with hret | hexit
      · exact .inl hret
      · exact .inr (hexit.congr (by simp [state, hne]) (by simp [exited, hne]))
    · intro u v hpc
      have hne : u ≠ tid := by
        rintro rfl
        simp at hpc
      have hex := h.exiting (t := u) (v := v) (by simpa [hne] using hpc)
      simpa [exited, hne] using hex
  | exited tid retval th hpc hth hexited hret =>
    constructor
    · intro u hu
      rw [storeValue_ret_values_]
      by_cases hut : u = tid
      · exact .inl (by simp [hut])
      · rw [storeValue_waiting, if_neg hut] at hu
        rcases h.waited hu with hret | hexit
        · exact .inl (by simpa [hut] using hret)
        · exact .inr (hexit.storeValue hut)
    · intro u v hpc'
      rw [storeValue_pc] at hpc'
      rw [storeValue_exited]
      by_cases hut : u = tid
      · rw [if_pos hut, hut, exited_eq_of hth]
        rfl
      · rw [if_neg hut]
        exact h.exiting (by simpa [hut] using hpc')
  | died t stale th hth hpc =>
    have hex : ∀ u, ((s.setState t .ToBeDestroyed).setPc t .gone).exited u = s.exited u :=
      fun u => setState_exited s t u _
    constructor
    · intro u hu
      by_cases hut : u = t
      · -- a thread that dies in `exitThread` has stored a value; `kill` is subject to the condition
        subst hut
        left
        rcases hpc with ⟨v, hpc⟩ | hkill
        · rcases h.waited hu with hret | ⟨-, hex'⟩
          · exact hret
          · rw [h.exiting hpc] at hex'
            cases hex'
        · exact absurd (hok.2.1 hkill) hu
      · rcases h.waited hu with hret | hexit
        · exact .inl hret
        · refine .inr (hexit.congr ?_ (hex u))
          exact (setState_state s t u _).trans (if_neg hut)
    · intro u v hpc'
      rw [hex]
      have hut : u ≠ t := by
        rintro rfl
        simp [setPc] at hpc'
      exact h.exiting (by simpa [setPc, setState, modifyThread, hut] using hpc')
  | took t stale c tid rv p hpc hne hret hp =>
    constructor
    · intro u hu
      have hut : u ≠ tid := by
        rintro rfl
        exact hu (hok.1 c u hpc hne (by rw [hret]; exact Option.some_ne_none _))
      rcases h.waited hu with hret' | hexit
      · exact .inl (by simpa [hut] using hret')
      · exact .inr hexit
    · intro u v hpc'
      refine h.exiting ((update_pc_iff ?_ ?_).mp hpc')
      · rw [hpc]
        simp
      · rintro rfl
        exact hp
  | slept t stale c tid target hpc hne hret htarget hexited hwait hdead =>
    have hlive := hok.2.2 c tid target hpc ⟨hne, hret, hwait, hdead⟩ htarget hexited
    set s₁ := { s with waiting_list_ := update s.waiting_list_ tid (some ⟨t, ⟨[t]⟩⟩) } with hs₁
    have hex : ∀ u, ((s₁.setState t .Sleeping).setPc t (.wait c tid)).exited u = s.exited u :=
      fun u => setState_exited s₁ t u _
    have hst : ∀ u, ((s₁.setState t .Sleeping).setPc t (.wait c tid)).state u =
        if u = t then (s.state u).map fun _ => .Sleeping else s.state u :=
      fun u => setState_state s₁ t u _
    have hkeep : ∀ {u}, s.WillExit u →
        ((s₁.setState t .Sleeping).setPc t (.wait c tid)).WillExit u := by
      intro u hu
      rw [WillExit, hex, hst]
      refine ⟨?_, hu.2⟩
      split
      · rcases hu.1 with h1 | h1 <;> simp [h1]
      · exact hu.1
    constructor
    · intro u hu
      by_cases hut : u = tid
      · right
        refine hkeep ⟨?_, by rw [hut, exited_eq_of htarget, hexited]⟩
        rw [hut, state_eq_of htarget]
        cases hstate : target.state_ with
        | Running => exact .inl rfl
        | Sleeping => exact .inr rfl
        | ToBeDestroyed => exact absurd hstate hlive
      · rcases h.waited (show s.waiting_list_ u ≠ none by
          simpa [hs₁, setPc, setState, modifyThread, hut] using hu) with hret' | hexit
        · exact .inl hret'
        · exact .inr (hkeep hexit)
    · intro u v hpc'
      rw [hex]
      exact h.exiting ((update_pc_iff (by rw [hpc]; simp) (by simp)).mp hpc')
  | woke t stale c tid w rv p hrun hpc hw hret hp =>
    constructor
    · intro u hu
      have hut : u ≠ tid := by
        rintro rfl
        simp at hu
      rcases h.waited (t := u) (by simpa [hut] using hu) with hret' | hexit
      · exact .inl (by simpa [hut] using hret')
      · exact .inr hexit
    · intro u v hpc'
      refine h.exiting ((update_pc_iff ?_ ?_).mp hpc')
      · rw [hpc]
        simp
      · rintro rfl
        exact hp
  | destroyed t th hth hstate =>
    constructor
    · intro u hu
      rcases h.waited hu with hret | hexit
      · exact .inl hret
      · have hut : u ≠ t := by
          rintro rfl
          have hst := hexit.1
          rw [state_eq_of hth, hstate] at hst
          simp at hst
        exact .inr (hexit.congr (by simp [state, hut]) (by simp [exited, hut]))
    · intro u v hpc
      have hpc : s.pc u = .exit v := hpc
      have hut : u ≠ t := by
        rintro rfl
        have halive := hwf.alive (t := u) (by rw [hpc]; simp)
        rw [state_eq_of hth, hstate] at halive
        simp at halive
      simpa [exited, hut] using h.exiting hpc

/-- As long as no step strands a waiter: a thread that is waited for will still exit, or has
stored its value and signalled the waiter. -/
theorem no_stranded_joiner {tid : Tid} {main : UserThread} (h : Runs NoStranding tid main tr s) :
    ∀ t w, s.waiting_list_ t = some w →
      (s.state t = some .Running ∨ s.state t = some .Sleeping) ∨
      (s.ret_values_ t ≠ none ∧ w.cond_.waiters_list_ = []) := by
  have hdeliver := delivering_of_runs (fun _ _ => NoStranding.noStolenValue) h
  have hattend : Wf s ∧ Attended s := by
    refine h.invariant (I := fun _ s => Wf s ∧ Attended s) ⟨wf_start tid main, ?_, ?_⟩ ?_
    · intro t ht
      exact absurd rfl ht
    · intro t v hpc
      by_cases ht : t = tid
      · simp [start, ht] at hpc
      · simp [start, ht] at hpc
    · intro tr s l t evs hinv hok hstep
      have hspec := step_spec s l
      rw [hstep] at hspec
      exact ⟨hinv.1.effect hspec, hinv.2.effect hinv.1 hspec hok⟩
  intro t w hw
  rcases hattend.2.waited (t := t) (by rw [hw]; exact Option.some_ne_none _) with hret | hexit
  · exact .inr ⟨hret, (hdeliver.signalled hw).mpr hret⟩
  · exact .inl hexit.1

/-- Thread 1 joins thread 0, thread 0 calls `kill`: the deadlock check refuses its join with
thread 1, and it dies without a value. -/
theorem stranded_by_kill : ∃ tr s,
    Runs (fun _ _ => True) 0 ⟨.Running, false, true, false⟩ tr s ∧
    (∃ w, s.waiting_list_ 0 = some w ∧ w.cond_.waiters_list_ = [1]) ∧
    s.state 0 = some .ToBeDestroyed ∧ s.ret_values_ 0 = none := by
  have hrun := Machine.runs_of_exec step (start 0 ⟨.Running, false, true, false⟩)
    [.createThread 0, .callJoinThread 1 0, .run 1 0, .callKill 0, .run 0 0, .run 0 0,
      .run 0 0, .run 0 0, .run 0 0, .run 0 0, .run 0 0, .run 0 0, .run 0 0] rfl
  exact ⟨_, _, hrun, ⟨_, rfl, rfl⟩, rfl, rfl⟩

/-- Thread 0 sleeps in `joinThread(1)` while thread 1 runs. -/
theorem no_stranded_joiner_two : ∃ tr s,
    Runs NoStranding 0 ⟨.Running, false, true, false⟩ tr s ∧
    ∃ w, s.waiting_list_ 1 = some w ∧
      ((s.state 1 = some .Running ∨ s.state 1 = some .Sleeping) ∨
        (s.ret_values_ 1 ≠ none ∧ w.cond_.waiters_list_ = [])) := by
  have hrun : Runs NoStranding 0 ⟨.Running, false, true, false⟩ _ _ :=
    .next (.next (.next .start
      (l := Label.createThread 0) trivial rfl)
      (l := Label.callJoinThread 0 1) trivial rfl)
      (l := Label.run 0 0) (by
        refine ⟨?_, ?_, ?_⟩
        · intro c tid _ _ hret
          cases hret rfl
        · intro _
          rfl
        · intro c tid target hpc _ htarget _
          cases hpc
          cases htarget
          simp) rfl
  exact ⟨_, _, hrun, _, rfl, no_stranded_joiner hrun 1 _ rfl⟩

end UserProcess

end KPanic.Threads

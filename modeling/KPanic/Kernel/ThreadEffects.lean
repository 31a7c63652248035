import KPanic.Kernel.Threads

/-!
# What a step of a thread can do

`step_spec` is the only place that looks inside `step`. A step either has one of the effects
below or fails one of the assertions; the invariants are proved from this list.
-/

namespace KPanic.Threads

open Function

/-- Not in `cond->wait()`, not past the critical section of `exitThread`, and not dead. -/
def Pc.Local : Pc → Prop
  | .wait _ _ => False
  | .exit _ => False
  | .gone => False
  | _ => True

namespace UserProcess

/-- `f` changes neither the state nor `exited_`. -/
def KeepsState (f : UserThread → UserThread) : Prop :=
  ∀ th, (f th).state_ = th.state_ ∧ (f th).exited_ = th.exited_

/-- What the critical section of `exitThread` does for a thread that has not exited. -/
def storeValue (s : UserProcess) (tid : Tid) (retval : Ptr) : UserProcess :=
  ((alertWaiter { s with ret_values_ := update s.ret_values_ tid (some retval) } tid).modifyThread
    tid fun th => { th with exited_ := true }).setPc tid (.exit retval)

inductive Effect (s : UserProcess) : Label → List Event → UserProcess → Prop
  | nothing {l} : Effect s l [] s
  | goto {l} (id t : Tid) (f : UserThread → UserThread) (p : Pc) (b : Bool) (tids : List Tid)
      (hf : KeepsState f) (hold : (s.pc t).Local) (hnew : p.Local) :
      Effect s l [] { s with
        thread_list_ := update s.thread_list_ id ((s.thread_list_ id).map f)
        pc := update s.pc t p
        called_exit_ := b
        tid_list_ := tids }
  | created {l} (tid : Tid) (hle : s.next_tid_ ≤ tid) :
      Effect s l [] { s with
        next_tid_ := tid + 1
        thread_list_ := update s.thread_list_ tid (some ⟨.Running, false, true, false⟩)
        pc := update s.pc tid .user }
  | exited {l} (tid : Tid) (retval : Ptr) (th : UserThread) (hpc : s.pc tid = .exitThread retval)
      (hth : s.thread_list_ tid = some th) (hexited : th.exited_ = false)
      (hret : s.ret_values_ tid = none) :
      Effect s l [.exited tid retval]
        (s.storeValue tid retval)
  | died (t stale : Tid) (th : UserThread) (hth : s.thread_list_ t = some th)
      (hpc : (∃ retval, s.pc t = .exit retval) ∨ (s.pc t = .kill ∧ s.called_exit_ = true) ∨
        s.pc t = .exitLast) :
      Effect s (.run t stale) [] ((s.setState t .ToBeDestroyed).setPc t .gone)
  | took (t stale : Tid) (c : Caller) (tid : Tid) (rv : Ptr) (p : Pc) (hpc : s.pc t = .joinThread c tid)
      (hne : t ≠ tid) (hret : s.ret_values_ tid = some rv) (hp : p.Local) :
      Effect s (.run t stale) [.joined t tid rv]
        { s with ret_values_ := update s.ret_values_ tid none, pc := update s.pc t p }
  | slept (t stale : Tid) (c : Caller) (tid : Tid) (target : UserThread)
      (hpc : s.pc t = .joinThread c tid) (hne : t ≠ tid) (hret : s.ret_values_ tid = none)
      (htarget : s.thread_list_ tid = some target) (hexited : target.exited_ = false)
      (hwait : s.waiting_list_ tid = none)
      (hdead : joinDeadlock s.waiting_list_ tid s.deadlockPasses t = some false) :
      Effect s (.run t stale) []
        (({ s with waiting_list_ := update s.waiting_list_ tid (some ⟨t, ⟨[t]⟩⟩) }.setState t
          .Sleeping).setPc t (.wait c tid))
  | woke (t stale : Tid) (c : Caller) (tid : Tid) (w : WaitingInfo) (rv : Ptr) (p : Pc)
      (hrun : s.isRunning t = true) (hpc : s.pc t = .wait c tid) (hw : s.waiting_list_ tid = some w)
      (hret : s.ret_values_ tid = some rv) (hp : p.Local) :
      Effect s (.run t stale) [.joined t tid rv]
        { s with
          waiting_list_ := update s.waiting_list_ tid none
          ret_values_ := update s.ret_values_ tid none
          pc := update s.pc t p }
  | destroyed {l} (t : Tid) (th : UserThread) (hth : s.thread_list_ t = some th)
      (hstate : th.state_ = .ToBeDestroyed) :
      Effect s l [] { s with thread_list_ := update s.thread_list_ t none }

inductive Failure (s : UserProcess) : Label → Panic → Prop
  | endless (t stale : Tid) (c : Caller) (tid : Tid)
      (hloop : joinDeadlock s.waiting_list_ tid s.deadlockPasses t = none) :
      Failure s (.run t stale) .endlessLoop
  | erased (t stale : Tid) (c : Caller) (tid : Tid) (hpc : s.pc t = .wait c tid)
      (hw : s.waiting_list_ tid = none) : Failure s (.run t stale) .waiterErased
  | lost (t stale : Tid) (c : Caller) (tid : Tid) (w : WaitingInfo) (hrun : s.isRunning t = true)
      (hpc : s.pc t = .wait c tid) (hw : s.waiting_list_ tid = some w)
      (hret : s.ret_values_ tid = none) : Failure s (.run t stale) .noReturnValue

/-- The step ends in an effect or in a failed assertion of the list. -/
def Spec (s : UserProcess) (l : Label) : Except Panic (UserProcess × List Event) → Prop
  | .ok (t, evs) => Effect s l evs t
  | .error e => Failure s l e

theorem keepsState_id : KeepsState id := fun _ => ⟨rfl, rfl⟩

theorem isRunning_iff {s : UserProcess} {t : Tid} :
    s.isRunning t = true ↔ ∃ th, s.thread_list_ t = some th ∧ th.state_ = .Running := by
  unfold isRunning
  cases s.thread_list_ t with
  | none => simp
  | some th => simp

theorem pc_of_inUser {s : UserProcess} {t : Tid} (h : s.inUser t = true) : s.pc t = .user := by
  unfold inUser at h
  split at h
  · assumption
  · cases h

/-- A change of `pc` and of fields that no invariant reads. -/
theorem goto_pc {s : UserProcess} {l : Label} {t : Tid} {p : Pc} (b : Bool) (tids : List Tid)
    (hold : (s.pc t).Local) (hnew : p.Local) :
    Effect s l [] { s with pc := update s.pc t p, called_exit_ := b, tid_list_ := tids } := by
  have h := Effect.goto (l := l) t t id p b tids keepsState_id hold hnew
  rwa [Option.map_id, id_eq, update_eq_self] at h

theorem goto_setPc {s : UserProcess} {l : Label} {t : Tid} {p : Pc}
    (hold : (s.pc t).Local) (hnew : p.Local) : Effect s l [] (s.setPc t p) :=
  goto_pc s.called_exit_ s.tid_list_ hold hnew

/-- A change of a thread's flags while `t` stays or moves. -/
theorem goto_modify {s : UserProcess} {l : Label} {t id : Tid} {p : Pc}
    {f : UserThread → UserThread} (hf : KeepsState f) (hold : (s.pc t).Local) (hnew : p.Local) :
    Effect s l [] ((s.modifyThread id f).setPc t p) :=
  Effect.goto id t f p s.called_exit_ s.tid_list_ hf hold hnew

theorem returnTo_eq (s : UserProcess) (t : Tid) (c : Caller) :
    ∃ p : Pc, p.Local ∧ s.returnTo t c = s.setPc t p := by
  cases c with
  | pthread_join => exact ⟨.user, trivial, rfl⟩
  | kill it => exact ⟨.joinLoop (it + 1), trivial, rfl⟩

theorem goto_returnTo {s : UserProcess} {l : Label} {t : Tid} {c : Caller}
    (hold : (s.pc t).Local) : Effect s l [] (s.returnTo t c) := by
  obtain ⟨p, hp, heq⟩ := returnTo_eq s t c
  rw [heq]
  exact goto_setPc hold hp

theorem exit_spec {s : UserProcess} {t stale : Tid} (hrun : s.isRunning t = true)
    (hpc : (∃ retval, s.pc t = .exit retval) ∨ (s.pc t = .kill ∧ s.called_exit_ = true) ∨
      s.pc t = .exitLast) :
    Spec s (.run t stale) (s.exit t) := by
  obtain ⟨th, hth, hstate⟩ := isRunning_iff.mp hrun
  rw [exit, hth]
  simp only [hstate]
  exact .died t stale th hth hpc

theorem exitThread_spec {s : UserProcess} {t stale : Tid} {retval : Ptr}
    (hpc : s.pc t = .exitThread retval) : Spec s (.run t stale) (s.exitThread t retval) := by
  unfold exitThread
  split
  · exact .nothing
  · rename_i th hth
    split
    · exact goto_setPc (by rw [hpc]; trivial) trivial
    · rename_i hnot
      have hnot : s.ret_values_ t = none ∧ th.exited_ = false := by simpa using hnot
      exact .exited t retval th hpc hth hnot.2 hnot.1

theorem joinThread_spec {s : UserProcess} {t stale tid : Tid} {c : Caller}
    (hpc : s.pc t = .joinThread c tid) : Spec s (.run t stale) (s.joinThread t tid c) := by
  have hlocal : (s.pc t).Local := by
    rw [hpc]
    trivial
  unfold joinThread
  split
  · exact goto_returnTo hlocal
  · rename_i hne
    split
    · rename_i rv hret
      obtain ⟨p, hp, heq⟩ := returnTo_eq { s with ret_values_ := update s.ret_values_ tid none } t c
      show Effect s _ _ (returnTo _ t c)
      rw [heq]
      exact .took t stale c tid rv p hpc hne hret hp
    · rename_i hret
      split
      · exact goto_returnTo hlocal
      · rename_i target htarget
        split
        · exact goto_returnTo hlocal
        · rename_i hexited
          split
          · exact goto_returnTo hlocal
          · rename_i hwait
            have hwait : s.waiting_list_ tid = none := by simpa using hwait
            have hexited : target.exited_ = false := by simpa using hexited
            split
            · rename_i hloop
              exact .endless t stale c tid hloop
            · exact goto_returnTo hlocal
            · rename_i hdead
              exact .slept t stale c tid target hpc hne hret htarget hexited hwait hdead

theorem joinWoken_spec {s : UserProcess} {t stale tid : Tid} {c : Caller}
    (hrun : s.isRunning t = true) (hpc : s.pc t = .wait c tid) :
    Spec s (.run t stale) (s.joinWoken t tid c) := by
  unfold joinWoken
  split
  · rename_i hw
    exact .erased t stale c tid hpc hw
  · rename_i w hw
    split
    · rename_i hret
      exact .lost t stale c tid w hrun hpc hw hret
    · rename_i rv hret
      obtain ⟨p, hp, heq⟩ := returnTo_eq { s with
        waiting_list_ := update s.waiting_list_ tid none
        ret_values_ := update s.ret_values_ tid none } t c
      show Effect s _ _ (returnTo _ t c)
      rw [heq]
      exact .woke t stale c tid w rv p hrun hpc hw hret hp

theorem keepsState_cancelReq : KeepsState fun th => { th with cancel_req_ := true } :=
  fun _ => ⟨rfl, rfl⟩

theorem cancelPass_effect {s : UserProcess} {l : Label} {t stale : Tid} {it : ℕ}
    (hold : (s.pc t).Local) : Effect s l [] (s.cancelPass t stale it) := by
  unfold cancelPass
  split
  · exact goto_setPc hold trivial
  · unfold cancelThread
    split
    · rename_i heq
      split at heq
      · cases heq
        have h := goto_pc (l := l) s.called_exit_ (s.tid_list_.eraseIdx it) hold hold
        rwa [update_eq_self] at h
      · split at heq <;> cases heq
    · rename_i heq
      split at heq
      · cases heq
        exact goto_setPc hold trivial
      · split at heq
        · cases heq
          exact goto_setPc hold trivial
        · cases heq
          exact goto_modify keepsState_cancelReq hold trivial

theorem cancelThread_effect {s : UserProcess} {l : Label} {t id : Tid} (hold : (s.pc t).Local) :
    Effect s l [] (s.cancelThread id).2 := by
  unfold cancelThread
  split
  · exact .nothing
  · split
    · exact .nothing
    · have h : Effect s l [] ((s.modifyThread id _).setPc t (s.pc t)) :=
        goto_modify keepsState_cancelReq hold hold
      rwa [setPc, show update (s.modifyThread id _).pc t (s.pc t) = s.pc from update_eq_self ..] at h

theorem skipUsed_ge (s : UserProcess) (n : ℕ) (tid : Tid) : tid ≤ s.skipUsed n tid := by
  induction n generalizing tid with
  | zero => exact Nat.le_refl tid
  | succ n ih =>
    rw [skipUsed]
    split
    · exact Nat.le_of_succ_le (ih (tid + 1))
    · exact Nat.le_refl tid

theorem createThread_effect {s : UserProcess} {l : Label} : Effect s l [] s.createThread := by
  unfold createThread
  split
  · exact .nothing
  · exact .created (s.skipUsed s.next_tid_ s.next_tid_) (skipUsed_ge s _ _)

theorem run_spec {s : UserProcess} {t stale : Tid} (hrun : s.isRunning t = true) :
    Spec s (.run t stale) (s.run t stale) := by
  unfold run
  split
  · exact .nothing
  · exact .nothing
  · rename_i retval hpc
    exact exitThread_spec hpc
  · rename_i retval hpc
    exact exit_spec hrun (.inl ⟨retval, hpc⟩)
  · rename_i c tid hpc
    exact joinThread_spec hpc
  · rename_i c tid hpc
    exact joinWoken_spec hrun hpc
  · rename_i hpc
    split
    · rename_i hcalled
      exact exit_spec hrun (.inr (.inl ⟨hpc, hcalled⟩))
    · exact goto_setPc (by rw [hpc]; trivial) trivial
  · rename_i hpc
    exact goto_pc true [] (by rw [hpc]; trivial) trivial
  · rename_i hpc
    exact goto_pc s.called_exit_ (s.tid_list_ ++ s.otherTids t) (by rw [hpc]; trivial) trivial
  · rename_i it hpc
    exact cancelPass_effect (by rw [hpc]; trivial)
  · rename_i it hpc
    have hlocal : (s.pc t).Local := by
      rw [hpc]
      trivial
    split
    · exact goto_setPc hlocal trivial
    · exact goto_setPc hlocal trivial
  · rename_i hpc
    exact exit_spec hrun (.inr (.inr hpc))

theorem inUser_ite {s s' : UserProcess} {l : Label} {t : Tid}
    (h : s.pc t = .user → Effect s l [] s') : Effect s l [] (if s.inUser t then s' else s) := by
  split
  · exact h (pc_of_inUser ‹_›)
  · exact .nothing

theorem step_spec (s : UserProcess) (l : Label) : Spec s l (s.step l) := by
  cases l with
  | createThread t => exact inUser_ite fun _ => createThread_effect
  | callExitThread t retval => exact inUser_ite fun h => goto_setPc (by rw [h]; trivial) trivial
  | callJoinThread t tid => exact inUser_ite fun h => goto_setPc (by rw [h]; trivial) trivial
  | callKill t => exact inUser_ite fun h => goto_setPc (by rw [h]; trivial) trivial
  | cancelThread t id =>
    exact inUser_ite fun h => cancelThread_effect (t := t) (by rw [h]; trivial)
  | deliverCancel t =>
    rw [step]
    split
    · exact .nothing
    · split
      · rename_i hguard
        simp only [Bool.and_eq_true] at hguard
        refine goto_modify (fun _ => ⟨rfl, rfl⟩) ?_ trivial
        rw [pc_of_inUser hguard.1.1]
        trivial
      · exact .nothing
  | run t stale =>
    rw [step]
    split
    · exact run_spec ‹_›
    · exact .nothing
  | destroy t =>
    rw [step]
    split
    · exact .nothing
    · rename_i th hth
      split
      · exact .destroyed t th hth ‹_›
      · exact .nothing

end UserProcess

end KPanic.Threads

import KPanic.Kernel.Scheduler

/-!
# Cancellation of threads

`UserThread.cpp`, `UserProcess::cancelThread`, and the places that direct a thread to `exitThread`:
`schedule`, `syscallHandler` and `enterPageFault`.
-/

namespace KPanic.Cancellation

open Function
open Machine
open Scheduling

/-! ### `UserThread.cpp` -/

/-- The constructor. -/
def newUserThread : Thread where
  isUser := true
  state_ := .Running
  switch_to_userspace_ := true
  time_to_wakeup_ := 0
  cancel_req_ := false
  cancelable_ := true
  cancelling := false

/-- The constructor for `fork` sets neither flag: they are what the memory holds. -/
def newForkedThread (cancel_req_ cancelable_ : Bool) : Thread where
  isUser := true
  state_ := .Running
  switch_to_userspace_ := true
  time_to_wakeup_ := 0
  cancel_req_ := cancel_req_
  cancelable_ := cancelable_
  cancelling := false

def isCancelableState (T : Thread) : Bool := T.state_ = .Sleeping || T.state_ = .Running

def receiveCancelRequest (T : Thread) : Thread := { T with cancel_req_ := true }

/-! ### The machine -/

/-- What a thread is doing in the kernel. -/
inductive Frame
  | syscall
  | pageFault (saved_switch_to_userspace : Bool)
  | exitThread
  deriving DecidableEq

/-- `stack t` is what the user thread `t` is doing in the kernel, the latest first. -/
structure Kernel where
  scheduler : Scheduler
  stack : ℕ → Option (List Frame)

namespace Kernel

def thread (s : Kernel) (t : ℕ) : Thread := s.scheduler.thread t

def setThread (s : Kernel) (t : ℕ) (T : Thread) (frames : List Frame) : Kernel where
  scheduler := { s.scheduler with thread := update s.scheduler.thread t T }
  stack := update s.stack t (some frames)

end Kernel

inductive Event
  | requested (t : ℕ)
  | entered (t : ℕ)
  | scheduled (t : ℕ)
  /-- The thread is directed to `exitThread((void*)-1)`. -/
  | directed (t : ℕ)
  deriving DecidableEq

inductive Stop
  | panic (e : Panic)
  | disabled

abbrev Result := Except Stop (Kernel × List Event)

/-- The current thread, if it is a user thread. -/
def withCurrent (s : Kernel) (f : ℕ → Thread → List Frame → Result) : Result :=
  match s.scheduler.currentThread with
  | none => .error .disabled
  | some t =>
    match s.stack t with
    | none => .error .disabled
    | some frames => f t (s.thread t) frames

/-- `syscallHandler`, up to the system call. -/
def syscallHandler (s : Kernel) : Result := withCurrent s fun t T frames =>
  if frames ≠ [] then .error .disabled
  else
    let T := { T with switch_to_userspace_ := false }
    if T.isUser && T.shouldCancel then
      .ok (s.setThread t T.setCancelled [.exitThread, .syscall], [.entered t, .directed t])
    else .ok (s.setThread t T [.syscall], [.entered t])

/-- The end of `syscallHandler`. -/
def leaveSyscall (s : Kernel) : Result := withCurrent s fun t T frames =>
  if frames = [.syscall] then .ok (s.setThread t { T with switch_to_userspace_ := true } [], [])
  else .error .disabled

/-- `enterPageFault`, up to `handlePageFault`. -/
def enterPageFault (s : Kernel) : Result := withCurrent s fun t T frames =>
  let saved_switch_to_userspace := T.switch_to_userspace_
  let T := { T with switch_to_userspace_ := false }
  if T.isUser && (T.shouldCancel && T.switch_to_userspace_) then
    .ok (s.setThread t T.setCancelled (.exitThread :: .pageFault saved_switch_to_userspace :: frames), [.directed t])
  else .ok (s.setThread t T (.pageFault saved_switch_to_userspace :: frames), [])

/-- The end of `enterPageFault`. -/
def leavePageFault (s : Kernel) : Result := withCurrent s fun t T frames =>
  match frames with
  | .pageFault saved_switch_to_userspace :: frames =>
    .ok (s.setThread t { T with switch_to_userspace_ := saved_switch_to_userspace } frames, [])
  | _ => .error .disabled

/-- `UserProcess::cancelThread`, for a thread of the process. -/
def cancelThread (s : Kernel) (target : ℕ) : Result :=
  match s.stack target with
  | none => .error .disabled
  | some frames =>
    if isCancelableState (s.thread target) then
      .ok (s.setThread target (receiveCancelRequest (s.thread target)) frames, [.requested target])
    else .ok (s, [])

/-- A thread that `schedule` cancels will run `internalThreadCancel`. -/
def directSelected (s : Kernel) : List Scheduler.Event → Kernel × List Event
  | [] => (s, [])
  | .scheduled t :: evs => let r := directSelected s evs; (r.1, .scheduled t :: r.2)
  | .cancelled t :: evs =>
    let r := directSelected { s with stack := update s.stack t ((s.stack t).map (.exitThread :: ·)) } evs
    (r.1, .directed t :: r.2)
  | _ :: evs => directSelected s evs

def onScheduler (s : Kernel) (r : Except Panic (Scheduler × List Scheduler.Event)) : Result :=
  match r with
  | .error e => .error (.panic e)
  | .ok (scheduler, evs) => .ok (directSelected { s with scheduler := scheduler } evs)

/-- The system call of the current thread calls `exitThread`. -/
def callExitThread (s : Kernel) : Result := withCurrent s fun t T frames =>
  if frames.head? = some .syscall then .ok (s.setThread t T (.exitThread :: frames), []) else .error .disabled

/-- Threads fall asleep, are woken up, and die. -/
def setState (s : Kernel) (t : ℕ) (state : ThreadState) : Result :=
  match s.stack t with
  | none => .error .disabled
  | some frames => .ok (s.setThread t { s.thread t with state_ := state } frames, [])

def sleepUntil (s : Kernel) (wakeup : ℕ) : Result := withCurrent s fun t T frames =>
  .ok (s.setThread t { T with time_to_wakeup_ := wakeup } frames, [])

inductive Act
  | newUserThread (t : ℕ)
  | newForkedThread (t : ℕ) (cancel_req_ cancelable_ : Bool)
  | addNewThread (t : ℕ)
  | cleanupDeadThreads
  | schedule (clock : ℕ → ℕ)
  | cancelThread (target : ℕ)
  | syscallHandler
  | leaveSyscall
  | enterPageFault
  | leavePageFault
  | exitThread
  | setState (t : ℕ) (state : ThreadState)
  | sleepUntil (wakeup : ℕ)

def step (s : Kernel) : Act → Result
  | .newUserThread t => if s.stack t = none then .ok (s.setThread t Cancellation.newUserThread [], []) else .error .disabled
  | .newForkedThread t cancel_req_ cancelable_ =>
    if s.stack t = none then .ok (s.setThread t (Cancellation.newForkedThread cancel_req_ cancelable_) [], [])
    else .error .disabled
  | .addNewThread t => onScheduler s (s.scheduler.addNewThread t)
  | .cleanupDeadThreads => onScheduler s s.scheduler.cleanupDeadThreads
  | .schedule clock => onScheduler s (s.scheduler.schedule clock)
  | .cancelThread target => Cancellation.cancelThread s target
  | .syscallHandler => Cancellation.syscallHandler s
  | .leaveSyscall => Cancellation.leaveSyscall s
  | .enterPageFault => Cancellation.enterPageFault s
  | .leavePageFault => Cancellation.leavePageFault s
  | .exitThread => callExitThread s
  | .setState t state => Cancellation.setState s t state
  | .sleepUntil wakeup => Cancellation.sleepUntil s wakeup

/-- No user thread has been created. -/
structure Boot (s : Kernel) : Prop where
  stack : ∀ t, s.stack t = none
  kernel : ∀ t, (s.thread t).isUser = false

/-- The memory that the fork constructor gets holds a `cancelable_` that is set. -/
def ForksCancelable (_ : Kernel) : Act → Prop
  | .newForkedThread _ _ cancelable_ => cancelable_ = true
  | _ => True

/-! ### The invariant -/

variable {s s₀ u : Kernel} {t : ℕ} {T T' : Thread} {frames frames' : List Frame} {tr evs : List Event}

/-- A request stays until the thread is directed to `exitThread`, and that happens once. -/
structure Tracked (tr : List Event) (t : ℕ) (T : Thread) (frames : List Frame) : Prop where
  user : T.isUser = true
  requested : .requested t ∈ tr → T.cancel_req_ = true
  cancelable : .exitThread ∉ frames → T.cancelable_ = true
  armed : T.cancelable_ = true → .directed t ∉ tr
  once : tr.count (.directed t) ≤ 1

/-- Nothing has happened to the thread. -/
structure Untouched (tr : List Event) (t : ℕ) (T : Thread) : Prop where
  kernel : T.isUser = false
  requested : .requested t ∉ tr
  directed : .directed t ∉ tr

/-- The events do not concern the thread. -/
def Quiet (t : ℕ) (evs : List Event) : Prop := .requested t ∉ evs ∧ .directed t ∉ evs

def SameFlags (T T' : Thread) : Prop :=
  T'.isUser = T.isUser ∧ T'.cancel_req_ = T.cancel_req_ ∧ T'.cancelable_ = T.cancelable_

theorem Tracked.quiet (h : Tracked tr t T frames) (hflags : SameFlags T T')
    (hexit : .exitThread ∈ frames → .exitThread ∈ frames') (hquiet : Quiet t evs) : Tracked (tr ++ evs) t T' frames' where
  user := hflags.1.trans h.user
  requested hmem := hflags.2.1.trans (h.requested ((List.mem_append.mp hmem).resolve_right hquiet.1))
  cancelable hnot := hflags.2.2.trans (h.cancelable fun hmem => hnot (hexit hmem))
  armed hc hmem := h.armed (hflags.2.2.symm.trans hc) ((List.mem_append.mp hmem).resolve_right hquiet.2)
  once := by
    rw [List.count_append, List.count_eq_zero.mpr hquiet.2]
    exact h.once

/-- The thread is directed to `exitThread`, which it does not leave. -/
theorem Tracked.directed (h : Tracked tr t T frames) (hcan : T.cancelable_ = true) (huser : T'.isUser = T.isUser)
    (hreq : T'.cancel_req_ = T.cancel_req_) (hnow : T'.cancelable_ = false) (hexit : .exitThread ∈ frames')
    (hevs : .requested t ∉ evs) (hone : evs.count (.directed t) = 1) : Tracked (tr ++ evs) t T' frames' where
  user := huser.trans h.user
  requested hmem := hreq.trans (h.requested ((List.mem_append.mp hmem).resolve_right hevs))
  cancelable hnot := absurd hexit hnot
  armed hc := by
    rw [hnow] at hc
    cases hc
  once := by
    rw [List.count_append, List.count_eq_zero.mpr (h.armed hcan), hone]

theorem Untouched.quiet (h : Untouched tr t T) (huser : T'.isUser = T.isUser) (hquiet : Quiet t evs) :
    Untouched (tr ++ evs) t T' :=
  ⟨huser.trans h.kernel, fun hmem => h.requested ((List.mem_append.mp hmem).resolve_right hquiet.1),
    fun hmem => h.directed ((List.mem_append.mp hmem).resolve_right hquiet.2)⟩

/-- The new thread has no request, and can be cancelled. -/
theorem Untouched.tracked (h : Untouched tr t T) (huser : T'.isUser = true) (hcan : T'.cancelable_ = true) :
    Tracked tr t T' [] :=
  ⟨huser, fun hmem => absurd hmem h.requested, fun _ => hcan, fun _ => h.directed,
    (List.count_eq_zero.mpr h.directed).trans_le (Nat.zero_le 1)⟩

structure CancelInv (tr : List Event) (s : Kernel) : Prop where
  untouched : ∀ t, s.stack t = none → Untouched tr t (s.thread t)
  tracked : ∀ t frames, s.stack t = some frames → Tracked tr t (s.thread t) frames

/-- A step concerns one thread. -/
theorem CancelInv.setThread (h : CancelInv tr s) (hT : Tracked (tr ++ evs) t T frames)
    (hothers : ∀ x ≠ t, Quiet x evs) : CancelInv (tr ++ evs) (s.setThread t T frames) where
  untouched x hx := by
    by_cases hxt : x = t
    · subst hxt
      unfold Kernel.setThread at hx
      dsimp only at hx
      rw [update_self] at hx
      cases hx
    · have hthread : (s.setThread t T frames).thread x = s.thread x := update_of_ne hxt _ _
      have hstack : (s.setThread t T frames).stack x = s.stack x := update_of_ne hxt _ _
      rw [hthread]
      exact (h.untouched x (hstack.symm.trans hx)).quiet rfl (hothers x hxt)
  tracked x frames' hx := by
    by_cases hxt : x = t
    · subst hxt
      have hthread : (s.setThread x T frames).thread x = T := update_self _ _ _
      have hstack : (s.setThread x T frames).stack x = some frames := update_self _ _ _
      obtain rfl := Option.some.inj (hstack.symm.trans hx)
      rw [hthread]
      exact hT
    · have hthread : (s.setThread t T frames).thread x = s.thread x := update_of_ne hxt _ _
      have hstack : (s.setThread t T frames).stack x = s.stack x := update_of_ne hxt _ _
      rw [hthread]
      exact (h.tracked x frames' (hstack.symm.trans hx)).quiet ⟨rfl, rfl, rfl⟩ id (hothers x hxt)

theorem withCurrent_ok {f : ℕ → Thread → List Frame → Result} (hs : withCurrent s f = .ok (u, evs)) :
    ∃ t frames, s.scheduler.currentThread = some t ∧ s.stack t = some frames ∧ f t (s.thread t) frames = .ok (u, evs) := by
  unfold withCurrent at hs
  cases hcur : s.scheduler.currentThread with
  | none =>
    rw [hcur] at hs
    cases hs
  | some t =>
    rw [hcur] at hs
    dsimp only at hs
    cases hstack : s.stack t with
    | none =>
      rw [hstack] at hs
      cases hs
    | some frames =>
      rw [hstack] at hs
      exact ⟨t, frames, rfl, hstack, hs⟩

theorem quiet_nil : Quiet t [] := ⟨List.not_mem_nil, List.not_mem_nil⟩

theorem CancelInv.quiet (h : CancelInv tr s) (ht : s.stack t = some frames) (hflags : SameFlags (s.thread t) T)
    (hexit : .exitThread ∈ frames → .exitThread ∈ frames') (hquiet : ∀ x, Quiet x evs) :
    CancelInv (tr ++ evs) (s.setThread t T frames') :=
  h.setThread ((h.tracked t frames ht).quiet hflags hexit (hquiet t)) fun x _ => hquiet x

theorem CancelInv.congr (h : CancelInv tr s) (hthread : u.scheduler.thread = s.scheduler.thread)
    (hstack : u.stack = s.stack) : CancelInv tr u := by
  have hat : ∀ x, u.thread x = s.thread x := congrFun hthread
  refine ⟨fun x hx => ?_, fun x frames hx => ?_⟩
  · rw [hat]
    exact h.untouched x ((congrFun hstack x).symm.trans hx)
  · rw [hat]
    exact h.tracked x frames ((congrFun hstack x).symm.trans hx)

/-- The flags of the threads stay. -/
theorem CancelInv.flags (h : CancelInv tr s) (hflags : ∀ x, SameFlags (s.thread x) (u.thread x))
    (hstack : u.stack = s.stack) (hquiet : ∀ x, Quiet x evs) : CancelInv (tr ++ evs) u := by
  refine ⟨fun x hx => ?_, fun x frames hx => ?_⟩
  · exact (h.untouched x ((congrFun hstack x).symm.trans hx)).quiet (hflags x).1 (hquiet x)
  · exact (h.tracked x frames ((congrFun hstack x).symm.trans hx)).quiet (hflags x) id (hquiet x)

theorem quiet_entered {x : ℕ} : Quiet x [.entered t] := by simp [Quiet]

theorem quiet_scheduled {x : ℕ} : Quiet x [.scheduled t] := by simp [Quiet]

theorem Aged.sameFlags {clock : ℕ → ℕ} (h : Aged clock T T') : SameFlags T T' := by
  obtain rfl | ⟨rfl, -⟩ := h
  · exact ⟨rfl, rfl, rfl⟩
  · exact ⟨rfl, rfl, rfl⟩

/-! ### One step -/

/-- What the system call entry does to the current thread. -/
theorem syscallHandler_ok (hs : syscallHandler s = .ok (u, evs)) : ∃ t, s.scheduler.currentThread = some t ∧ s.stack t = some [] ∧
    (((s.thread t).isUser && (s.thread t).shouldCancel) = true ∧ evs = [.entered t, .directed t] ∧
        u = s.setThread t { s.thread t with switch_to_userspace_ := false, cancelable_ := false } [.exitThread, .syscall] ∨
      ((s.thread t).isUser && (s.thread t).shouldCancel) = false ∧ evs = [.entered t] ∧
        u = s.setThread t { s.thread t with switch_to_userspace_ := false } [.syscall]) := by
  obtain ⟨t, frames, hcur, hstack, hf⟩ := withCurrent_ok hs
  split at hf
  · cases hf
  · rename_i hframes
    obtain rfl := not_not.mp hframes
    refine ⟨t, hcur, hstack, ?_⟩
    change (if ((s.thread t).isUser && (s.thread t).shouldCancel) = true then _ else _) = _ at hf
    cases hc : (s.thread t).isUser && (s.thread t).shouldCancel with
    | true =>
      rw [if_pos hc] at hf
      cases hf
      exact .inl ⟨rfl, rfl, rfl⟩
    | false =>
      rw [if_neg (by rw [Bool.not_eq_true]; exact hc)] at hf
      cases hf
      exact .inr ⟨rfl, rfl, rfl⟩

theorem CancelInv.syscallHandler (h : CancelInv tr s) (hs : Cancellation.syscallHandler s = .ok (u, evs)) :
    CancelInv (tr ++ evs) u := by
  obtain ⟨t, -, hstack, ⟨hcancel, rfl, rfl⟩ | ⟨-, rfl, rfl⟩⟩ := syscallHandler_ok hs
  · have hcan : (s.thread t).cancelable_ = true := by
      simp only [Thread.shouldCancel, Bool.and_eq_true] at hcancel
      exact hcancel.2.1
    refine h.setThread ((h.tracked t _ hstack).directed hcan rfl rfl rfl List.mem_cons_self (by simp) (by simp)) ?_
    intro x hx
    simp [Quiet, hx]
  · exact h.quiet hstack ⟨rfl, rfl, rfl⟩ (fun hmem => by cases hmem) fun x => quiet_entered

/-- A selected thread is directed to `exitThread` if it is in user mode and was cancelled. -/
theorem schedule_ok' {clock : ℕ → ℕ} (hs : step s (.schedule clock) = .ok (u, evs)) :
    u = s ∧ evs = [] ∨ ∃ t thread, (∀ x, SameFlags (s.thread x) (thread x) ∧
        (thread x).switch_to_userspace_ = (s.thread x).switch_to_userspace_) ∧
      (Scheduler.cancelsHere (thread t) = true ∧ evs = [.scheduled t, .directed t] ∧
          u.scheduler.thread = update thread t (thread t).setCancelled.prepareCancellation ∧
          u.stack = update s.stack t ((s.stack t).map (.exitThread :: ·)) ∨
        Scheduler.cancelsHere (thread t) = false ∧ evs = [.scheduled t] ∧ u.scheduler.thread = thread ∧ u.stack = s.stack) := by
  change onScheduler s (s.scheduler.schedule clock) = _ at hs
  cases hsched : s.scheduler.schedule clock with
  | error e =>
    rw [hsched] at hs
    cases hs
  | ok r =>
    obtain ⟨v, evs'⟩ := r
    rw [hsched] at hs
    obtain ⟨-, rfl, rfl⟩ | ⟨-, t, hsel⟩ := schedule_ok hsched
    · cases hs
      exact .inl ⟨rfl, rfl⟩
    · obtain ⟨thread, hage, hthread, rfl⟩ := hsel.effect
      refine .inr ⟨t, thread, fun x => ⟨Aged.sameFlags (hage x), ?_⟩, ?_⟩
      · obtain heq | ⟨heq, -⟩ := hage x
        · rw [heq]
          rfl
        · rw [heq]
          rfl
      · cases hc : Scheduler.cancelsHere (thread t) with
        | true =>
          rw [hc, if_pos rfl] at hs hthread
          cases hs
          exact .inl ⟨rfl, rfl, hthread, rfl⟩
        | false =>
          rw [hc, if_neg Bool.false_ne_true] at hs hthread
          cases hs
          rw [update_eq_self] at hthread
          exact .inr ⟨rfl, rfl, hthread, rfl⟩

theorem CancelInv.schedule {clock : ℕ → ℕ} (h : CancelInv tr s) (hs : step s (.schedule clock) = .ok (u, evs)) :
    CancelInv (tr ++ evs) u := by
  obtain ⟨rfl, rfl⟩ | ⟨t, thread, hflags, hcase⟩ := schedule_ok' hs
  · rw [List.append_nil]
    exact h
  · have hflags' : ∀ x, SameFlags (s.thread x) (thread x) := fun x => (hflags x).1
    obtain ⟨hcancel, rfl, hthread, hstack⟩ | ⟨-, rfl, hthread, hstack⟩ := hcase
    · simp only [Scheduler.cancelsHere, Thread.shouldCancel, Bool.and_eq_true] at hcancel
      obtain ⟨⟨huser, hcan, -⟩, -⟩ := hcancel
      cases ht : s.stack t with
      | none =>
        have hkernel := (h.untouched t ht).kernel
        rw [← (hflags' t).1, huser] at hkernel
        cases hkernel
      | some frames =>
        rw [ht, Option.map_some] at hstack
        -- The flags of all threads first, then the step of the selected one.
        have haged : CancelInv tr { s with scheduler := { s.scheduler with thread := thread } } := by
          rw [← List.append_nil tr]
          exact h.flags hflags' rfl fun x => quiet_nil
        have htracked : Tracked (tr ++ [.scheduled t, .directed t]) t (thread t).setCancelled.prepareCancellation
            (.exitThread :: frames) :=
          (haged.tracked t frames ht).directed hcan rfl rfl rfl List.mem_cons_self (by simp) (by simp)
        refine (haged.setThread htracked fun x hx => ?_).congr hthread hstack
        simp [Quiet, hx]
    · refine h.flags (fun x => ?_) hstack fun x => quiet_scheduled
      have hx : u.thread x = thread x := congrFun hthread x
      rw [hx]
      exact hflags' x

theorem CancelInv.create (h : CancelInv tr s) (ht : s.stack t = none) (huser : T.isUser = true)
    (hcan : T.cancelable_ = true) : CancelInv (tr ++ []) (s.setThread t T []) := by
  refine h.setThread ?_ fun x _ => quiet_nil
  rw [List.append_nil]
  exact (h.untouched t ht).tracked huser hcan

/-- A step that concerns one thread, and neither requests nor directs anything. -/
def Local (s u : Kernel) (evs : List Event) : Prop :=
  evs = [] ∧ ∃ t frames frames' T, s.stack t = some frames ∧ u = s.setThread t T frames' ∧
    SameFlags (s.thread t) T ∧ (Frame.exitThread ∈ frames → Frame.exitThread ∈ frames')

theorem CancelInv.local (h : CancelInv tr s) (hl : Local s u evs) : CancelInv (tr ++ evs) u := by
  obtain ⟨rfl, t, frames, frames', T, hstack, rfl, hflags, hexit⟩ := hl
  exact h.quiet hstack hflags hexit fun x => quiet_nil

theorem Local.not_directed (hl : Local s u evs) : .directed t ∉ evs := by
  rw [hl.1]
  exact List.not_mem_nil

theorem leaveSyscall_local (hs : leaveSyscall s = .ok (u, evs)) : Local s u evs := by
  obtain ⟨t, frames, -, hstack, hf⟩ := withCurrent_ok hs
  split at hf
  · rename_i hframes
    cases hf
    refine ⟨rfl, t, frames, [], _, hstack, rfl, ⟨rfl, rfl, rfl⟩, fun hmem => ?_⟩
    rw [hframes] at hmem
    simp at hmem
  · cases hf

/-- `switch_to_userspace_` is 0 when the page fault handler tests it. -/
theorem enterPageFault_local (hs : enterPageFault s = .ok (u, evs)) : Local s u evs := by
  obtain ⟨t, frames, -, hstack, hf⟩ := withCurrent_ok hs
  simp at hf
  exact ⟨hf.2, t, frames, _, _, hstack, hf.1.symm, ⟨rfl, rfl, rfl⟩, List.mem_cons_of_mem _⟩

theorem leavePageFault_local (hs : leavePageFault s = .ok (u, evs)) : Local s u evs := by
  obtain ⟨t, frames, -, hstack, hf⟩ := withCurrent_ok hs
  split at hf
  · rename_i frames'
    cases hf
    refine ⟨rfl, t, _, frames', _, hstack, rfl, ⟨rfl, rfl, rfl⟩, fun hmem => ?_⟩
    simpa using hmem
  · cases hf

theorem callExitThread_local (hs : callExitThread s = .ok (u, evs)) : Local s u evs := by
  obtain ⟨t, frames, -, hstack, hf⟩ := withCurrent_ok hs
  split at hf
  · cases hf
    exact ⟨rfl, t, frames, _, _, hstack, rfl, ⟨rfl, rfl, rfl⟩, List.mem_cons_of_mem _⟩
  · cases hf

theorem sleepUntil_local {wakeup : ℕ} (hs : sleepUntil s wakeup = .ok (u, evs)) : Local s u evs := by
  obtain ⟨t, frames, -, hstack, hf⟩ := withCurrent_ok hs
  cases hf
  exact ⟨rfl, t, frames, frames, _, hstack, rfl, ⟨rfl, rfl, rfl⟩, id⟩

theorem setState_local {state : ThreadState} (hs : setState s t state = .ok (u, evs)) : Local s u evs := by
  unfold setState at hs
  cases ht : s.stack t with
  | none =>
    rw [ht] at hs
    cases hs
  | some frames =>
    rw [ht] at hs
    cases hs
    exact ⟨rfl, t, frames, frames, _, ht, rfl, ⟨rfl, rfl, rfl⟩, id⟩

theorem onScheduler_ok {r : Except Panic (Scheduler × List Scheduler.Event)} (hs : onScheduler s r = .ok (u, evs)) :
    ∃ v evs', r = .ok (v, evs') ∧ directSelected { s with scheduler := v } evs' = (u, evs) := by
  cases r with
  | error e => cases hs
  | ok r => exact ⟨r.1, r.2, rfl, Except.ok.inj hs⟩

theorem CancelInv.step (h : CancelInv tr s) {act : Act} (hok : ForksCancelable s act)
    (hs : step s act = .ok (u, evs)) : CancelInv (tr ++ evs) u := by
  cases act with
  | newUserThread t =>
    change (if s.stack t = none then _ else _) = _ at hs
    split at hs
    · rename_i hnone
      cases hs
      exact h.create hnone rfl rfl
    · cases hs
  | newForkedThread t cancel_req_ cancelable_ =>
    change (if s.stack t = none then _ else _) = _ at hs
    split at hs
    · rename_i hnone
      cases hs
      exact h.create hnone rfl hok
    · cases hs
  | addNewThread t =>
    obtain ⟨v, evs', hv, hd⟩ := onScheduler_ok hs
    obtain ⟨-, hthread, rfl⟩ := addNewThread_ok hv
    cases hd
    rw [List.append_nil]
    exact h.congr hthread rfl
  | cleanupDeadThreads =>
    obtain ⟨v, evs', hv, hd⟩ := onScheduler_ok hs
    obtain ⟨-, hthread, rfl⟩ := cleanupDeadThreads_ok hv
    cases hd
    rw [List.append_nil]
    exact h.congr hthread rfl
  | schedule clock => exact h.schedule hs
  | cancelThread target =>
    change cancelThread s target = _ at hs
    unfold Cancellation.cancelThread at hs
    cases ht : s.stack target with
    | none =>
      rw [ht] at hs
      cases hs
    | some frames =>
      rw [ht] at hs
      dsimp only at hs
      split at hs
      · cases hs
        have htracked := h.tracked target frames ht
        refine h.setThread ⟨htracked.user, fun _ => rfl, htracked.cancelable, fun hcan hmem => ?_, ?_⟩ fun x hx => ?_
        · simp at hmem
          exact htracked.armed hcan hmem
        · rw [List.count_append]
          simpa using htracked.once
        · simp [Quiet, hx]
      · cases hs
        rw [List.append_nil]
        exact h
  | syscallHandler => exact h.syscallHandler hs
  | leaveSyscall => exact h.local (leaveSyscall_local hs)
  | enterPageFault => exact h.local (enterPageFault_local hs)
  | leavePageFault => exact h.local (leavePageFault_local hs)
  | exitThread => exact h.local (callExitThread_local hs)
  | setState t state => exact h.local (setState_local hs)
  | sleepUntil wakeup => exact h.local (sleepUntil_local hs)

theorem Boot.cancelInv (h : Boot s) : CancelInv [] s where
  untouched t _ := ⟨h.kernel t, List.not_mem_nil, List.not_mem_nil⟩
  tracked t frames ht := by
    rw [h.stack t] at ht
    cases ht

theorem cancelInv_of_runs (hb : Boot s₀) (hrun : Runs step ForksCancelable s₀ tr s) : CancelInv tr s :=
  hrun.invariant (I := CancelInv) hb.cancelInv fun h hok hs => h.step hok hs

/-! ### Cancellation -/

/-- Where a thread is directed to `exitThread`. -/
theorem directed_where {act : Act} (hs : step s act = .ok (u, evs)) (hmem : .directed t ∈ evs) :
    act = .syscallHandler ∧ s.scheduler.currentThread = some t ∧ s.stack t = some [] ∨
      (∃ clock, act = .schedule clock) ∧ (s.thread t).switch_to_userspace_ = true := by
  cases act with
  | syscallHandler =>
    obtain ⟨x, hcur, hstack, ⟨-, rfl, -⟩ | ⟨-, rfl, -⟩⟩ := syscallHandler_ok hs
    · simp at hmem
      rw [hmem]
      exact .inl ⟨rfl, hcur, hstack⟩
    · simp at hmem
  | schedule clock =>
    obtain ⟨rfl, rfl⟩ | ⟨x, thread, hflags, ⟨hcancel, rfl, -⟩ | ⟨-, rfl, -⟩⟩ := schedule_ok' hs
    · cases hmem
    · simp at hmem
      simp only [Scheduler.cancelsHere, Bool.and_eq_true] at hcancel
      rw [hmem, ← (hflags x).2]
      exact .inr ⟨⟨clock, rfl⟩, hcancel.2⟩
    · simp at hmem
  | newUserThread x =>
    change (if s.stack x = none then _ else _) = _ at hs
    split at hs
    · cases hs
      cases hmem
    · cases hs
  | newForkedThread x cancel_req_ cancelable_ =>
    change (if s.stack x = none then _ else _) = _ at hs
    split at hs
    · cases hs
      cases hmem
    · cases hs
  | addNewThread x =>
    obtain ⟨v, evs', hv, hd⟩ := onScheduler_ok hs
    obtain ⟨-, -, rfl⟩ := addNewThread_ok hv
    cases hd
    cases hmem
  | cleanupDeadThreads =>
    obtain ⟨v, evs', hv, hd⟩ := onScheduler_ok hs
    obtain ⟨-, -, rfl⟩ := cleanupDeadThreads_ok hv
    cases hd
    cases hmem
  | cancelThread target =>
    change cancelThread s target = _ at hs
    unfold cancelThread at hs
    cases ht : s.stack target with
    | none =>
      rw [ht] at hs
      cases hs
    | some frames =>
      rw [ht] at hs
      dsimp only at hs
      split at hs
      · cases hs
        simp at hmem
      · cases hs
        cases hmem
  | leaveSyscall => exact absurd hmem (leaveSyscall_local hs).not_directed
  | enterPageFault => exact absurd hmem (enterPageFault_local hs).not_directed
  | leavePageFault => exact absurd hmem (leavePageFault_local hs).not_directed
  | exitThread => exact absurd hmem (callExitThread_local hs).not_directed
  | setState x state => exact absurd hmem (setState_local hs).not_directed
  | sleepUntil wakeup => exact absurd hmem (sleepUntil_local hs).not_directed

/-- A thread that was cancelled, and has not started to exit, is directed to `exitThread` when it makes
its next system call, or is selected in user mode. -/
structure NextCancels (s : Kernel) (t : ℕ) : Prop where
  atCall : ∀ u evs, step s .syscallHandler = .ok (u, evs) → .entered t ∈ evs → .directed t ∈ evs
  atSchedule : ∀ clock u evs, step s (.schedule clock) = .ok (u, evs) → .scheduled t ∈ evs →
    (s.thread t).switch_to_userspace_ = true → .directed t ∈ evs

theorem CancelInv.nextCancels (h : CancelInv tr s) (ht : s.stack t = some frames) (hexit : .exitThread ∉ frames)
    (hreq : .requested t ∈ tr) : NextCancels s t := by
  have htracked := h.tracked t frames ht
  have huser := htracked.user
  have hshould : (s.thread t).shouldCancel = true := by
    rw [Thread.shouldCancel, htracked.cancelable hexit, htracked.requested hreq, Bool.and_self]
  refine ⟨fun u evs hs hentered => ?_, fun clock u evs hs hscheduled hswitch => ?_⟩
  · obtain ⟨x, -, -, ⟨-, rfl, -⟩ | ⟨hno, rfl, -⟩⟩ := syscallHandler_ok hs
    · simp at hentered
      simp [hentered]
    · simp at hentered
      rw [← hentered, huser, hshould] at hno
      cases hno
  · obtain ⟨rfl, rfl⟩ | ⟨x, thread, hflags, ⟨-, rfl, -⟩ | ⟨hno, rfl, -⟩⟩ := schedule_ok' hs
    · cases hscheduled
    · simp at hscheduled
      simp [hscheduled]
    · simp at hscheduled
      rw [← hscheduled] at hno
      obtain ⟨⟨huser', hreq', hcan'⟩, hswitch'⟩ := hflags t
      rw [Thread.shouldCancel] at hshould
      rw [Scheduler.cancelsHere, Thread.shouldCancel, huser', hcan', hreq', hswitch', huser, hshould, hswitch] at hno
      cases hno

/-- Every cancelled thread is directed to `exitThread`, once, at the entry of a system call or in user
mode. -/
theorem cancelled_once (hb : Boot s₀) (hrun : Runs step ForksCancelable s₀ tr s) :
    (∀ t frames, s.stack t = some frames → .exitThread ∉ frames → .requested t ∈ tr → NextCancels s t) ∧
    (∀ t, tr.count (.directed t) ≤ 1) ∧
    ∀ act t u evs, step s act = .ok (u, evs) → .directed t ∈ evs →
      act = .syscallHandler ∧ s.scheduler.currentThread = some t ∧ s.stack t = some [] ∨
        (∃ clock, act = .schedule clock) ∧ (s.thread t).switch_to_userspace_ = true := by
  have h := cancelInv_of_runs hb hrun
  refine ⟨fun t frames ht hexit hreq => h.nextCancels ht hexit hreq, fun t => ?_,
    fun act t u evs hs hmem => directed_where hs hmem⟩
  cases ht : s.stack t with
  | none => exact (List.count_eq_zero.mpr (h.untouched t ht).directed).trans_le (Nat.zero_le 1)
  | some frames => exact (h.tracked t frames ht).once

/-- No thread at all. -/
def noThreads : Kernel where
  scheduler := ⟨[], fun _ => ⟨false, .Running, false, 0, false, false, false⟩, none, false⟩
  stack _ := none

/-- A thread created by `fork` is selected, and another thread cancels it. -/
def cancelFork (cancelable_ : Bool) : List Act :=
  [.newForkedThread 0 false cancelable_, .addNewThread 0, .schedule fun _ => 0, .cancelThread 0]

def cancelForkEvents : List Event := [.scheduled 0, .requested 0]

instance (s : Kernel) : (act : Act) → Decidable (ForksCancelable s act)
  | .newForkedThread _ _ cancelable_ => inferInstanceAs (Decidable (cancelable_ = true))
  | .newUserThread _ | .addNewThread _ | .cleanupDeadThreads | .schedule _ | .cancelThread _ | .syscallHandler
  | .leaveSyscall | .enterPageFault | .leavePageFault | .exitThread | .setState _ _ | .sleepUntil _ => isTrue trivial

theorem cancelled_once_fork : ∃ s, Runs step ForksCancelable noThreads cancelForkEvents s ∧
    s.stack 0 = some [] ∧ NextCancels s 0 := by
  have hexec : execOk step ForksCancelable noThreads (cancelFork true) = some (_, cancelForkEvents) := rfl
  have hrun := runs_of_execOk noThreads (cancelFork true) hexec
  exact ⟨_, hrun, rfl, (cancelled_once ⟨fun _ => rfl, fun _ => rfl⟩ hrun).1 0 [] rfl List.not_mem_nil (by decide)⟩

/-- In zeroed memory, a thread created by `fork` is never cancelled. -/
theorem fork_not_cancelled : ∃ s, Runs step (fun _ _ => True) noThreads cancelForkEvents s ∧
    s.stack 0 = some [] ∧ .requested 0 ∈ cancelForkEvents ∧ ¬NextCancels s 0 := by
  have hexec : execOk step (fun _ _ => True) noThreads (cancelFork false) = some (_, cancelForkEvents) := rfl
  have hrun := runs_of_execOk noThreads (cancelFork false) hexec
  refine ⟨_, hrun, rfl, by decide, fun hnext => ?_⟩
  have hdirected := hnext.atCall _ _ rfl (by decide)
  exact absurd hdirected (by decide)

end KPanic.Cancellation

import Mathlib.Logic.Function.Basic
import KPanic.Lib.Machine

/-!
# `common/source/kernel/UserProcess.cpp`: the threads of one process

`createThread`, `exitThread`, `joinThread`, `cancelThread` and `kill` of one `UserProcess`, with
`UserThread::exit` and `Condition::wait`/`signal`. A step is one critical section under
`waiters_lock_` or `thread_list_lock_`, or one access to a field that no lock protects. `pc` says
where in the kernel a thread is. A label whose thread cannot take the step changes nothing.
-/

namespace KPanic.Threads

abbrev Tid := ℕ

/-- `void*` -/
abbrev Ptr := BitVec 64

inductive ThreadState
  | Running
  | Sleeping
  | ToBeDestroyed
  deriving DecidableEq

structure UserThread where
  state_ : ThreadState
  cancel_req_ : Bool
  cancelable_ : Bool
  exited_ : Bool

/-- The threads asleep on a condition, newest first. -/
structure Condition where
  waiters_list_ : List Tid

structure WaitingInfo where
  waiter_ : Tid
  cond_ : Condition

/-- Where `joinThread` returns to: user space, or the loop of `kill` at an iterator. -/
inductive Caller
  | pthread_join
  | kill (it : ℕ)

/-- Where a thread is. `exit` is after the critical section of `exitThread`; `wait` is in
`cond->wait()`, asleep or woken. The last six are the parts of `kill`. -/
inductive Pc
  | user
  | exitThread (retval : Ptr)
  | exit (retval : Ptr)
  | joinThread (c : Caller) (tid : Tid)
  | wait (c : Caller) (tid : Tid)
  | gone
  | kill
  | setCalledExit
  | collect
  | cancelLoop (it : ℕ)
  | joinLoop (it : ℕ)
  | exitLast

/-- The failed assertions, and the `while(true)` of `joinDeadlock` running on. -/
inductive Panic
  | exitTwice
  | waiterErased
  | noReturnValue
  | endlessLoop
  deriving DecidableEq

/-- `exited tid v`: `tid` stores `v` in `exitThread`. `joined caller tid v`: a `joinThread(tid)`
of `caller` returns 0 with the value `v`. -/
inductive Event
  | exited (tid : Tid) (retval : Ptr)
  | joined (caller tid : Tid) (rv : Ptr)

structure UserProcess where
  next_tid_ : Tid
  thread_list_ : Tid → Option UserThread
  waiting_list_ : Tid → Option WaitingInfo
  ret_values_ : Tid → Option Ptr
  called_exit_ : Bool
  tid_list_ : List Tid
  pc : Tid → Pc

/-- The first argument is the running thread. `run` performs the next step of its kernel code;
`stale` is what an iterator past the end of `tid_list_` would read. -/
inductive Label
  | createThread (t : Tid)
  | callExitThread (t : Tid) (retval : Ptr)
  | callJoinThread (t tid : Tid)
  | callKill (t : Tid)
  | cancelThread (t id : Tid)
  | deliverCancel (t : Tid)
  | run (t : Tid) (stale : Tid)
  | destroy (t : Tid)

namespace UserProcess

open Function

/-- A process with one thread. `fork` leaves the flags of this thread uninitialised. -/
def start (tid : Tid) (main : UserThread) : UserProcess where
  next_tid_ := tid + 1
  thread_list_ := update (fun _ => none) tid (some { main with state_ := .Running })
  waiting_list_ _ := none
  ret_values_ _ := none
  called_exit_ := false
  tid_list_ := []
  pc := update (fun _ => .gone) tid .user

def setPc (s : UserProcess) (t : Tid) (p : Pc) : UserProcess := { s with pc := update s.pc t p }

def modifyThread (s : UserProcess) (t : Tid) (f : UserThread → UserThread) : UserProcess :=
  { s with thread_list_ := update s.thread_list_ t ((s.thread_list_ t).map f) }

def setState (s : UserProcess) (t : Tid) (st : ThreadState) : UserProcess :=
  s.modifyThread t fun th => { th with state_ := st }

def isRunning (s : UserProcess) (t : Tid) : Bool :=
  match s.thread_list_ t with
  | some th => th.state_ == .Running
  | none => false

def inUser (s : UserProcess) (t : Tid) : Bool :=
  match s.pc t with
  | .user => s.isRunning t
  | _ => false

/-- The loop of `allocNextFreeTID`. -/
def skipUsed (s : UserProcess) : ℕ → Tid → Tid
  | 0, tid => tid
  | n + 1, tid => if (s.thread_list_ tid).isSome then skipUsed s n (tid + 1) else tid

def allocNextFreeTID (s : UserProcess) : Tid × UserProcess :=
  let tid := s.skipUsed s.next_tid_ s.next_tid_
  (tid, { s with next_tid_ := tid + 1 })

/-- `internalAddNewThread`, for a thread of the same process. -/
def createThread (s : UserProcess) : UserProcess :=
  if s.called_exit_ then s
  else
    let (tid, s) := s.allocNextFreeTID
    { s with
      thread_list_ := update s.thread_list_ tid (some ⟨.Running, false, true, false⟩)
      pc := update s.pc tid .user }

/-- `UserThread::exit` -/
def exit (s : UserProcess) (t : Tid) : Except Panic (UserProcess × List Event) :=
  match s.thread_list_ t with
  | none => .ok (s, [])
  | some th =>
    if th.state_ = .ToBeDestroyed then .error .exitTwice
    else .ok ((s.setState t .ToBeDestroyed).setPc t .gone, [])

/-- `cond_->signal()` on the condition of the thread that waits for `tid`. A thread enters the
waiters list and falls asleep in one step, so `Scheduler::wake` finds it sleeping. -/
def signal (s : UserProcess) (tid : Tid) (w : WaitingInfo) : UserProcess :=
  match w.cond_.waiters_list_.getLast? with
  | none => s
  | some sleeper =>
    { s.setState sleeper .Running with
      waiting_list_ := update s.waiting_list_ tid
        (some { w with cond_ := ⟨w.cond_.waiters_list_.dropLast⟩ }) }

def alertWaiter (s : UserProcess) (tid : Tid) : UserProcess :=
  match s.waiting_list_ tid with
  | some waiter => s.signal tid waiter
  | none => s

/-- The critical section of `exitThread`. -/
def exitThread (s : UserProcess) (tid : Tid) (retval : Ptr) :
    Except Panic (UserProcess × List Event) :=
  match s.thread_list_ tid with
  | none => .ok (s, [])
  | some current =>
    if (s.ret_values_ tid).isSome || current.exited_ then .ok (s.setPc tid .user, [])
    else
      let s := { s with ret_values_ := update s.ret_values_ tid (some retval) }
      let s := s.alertWaiter tid
      let s := s.modifyThread tid fun th => { th with exited_ := true }
      .ok (s.setPc tid (.exit retval), [.exited tid retval])

/-- `joinDeadlock`, with a bound on the passes of its loop; `none` if the bound is reached. -/
def joinDeadlock (waiting_list_ : Tid → Option WaitingInfo) (target : Tid) :
    ℕ → Tid → Option Bool
  | 0, _ => none
  | n + 1, nextWaiter =>
    match waiting_list_ nextWaiter with
    | some waiting_for_us =>
      if waiting_for_us.waiter_ = target then some true
      else joinDeadlock waiting_list_ target n waiting_for_us.waiter_
    | none => some false

/-- All targets are below `next_tid_`, so this many passes of the loop are enough. -/
def deadlockPasses (s : UserProcess) : ℕ := s.next_tid_ + 1

/-- Leave `joinThread`. -/
def returnTo (s : UserProcess) (caller : Tid) : Caller → UserProcess
  | .pthread_join => s.setPc caller .user
  | .kill it => s.setPc caller (.joinLoop (it + 1))

/-- `joinThread` up to `cond->wait()`. -/
def joinThread (s : UserProcess) (caller tid : Tid) (c : Caller) :
    Except Panic (UserProcess × List Event) :=
  if caller = tid then .ok (s.returnTo caller c, [])
  else
    match s.ret_values_ tid with
    | some rv =>
      let s := { s with ret_values_ := update s.ret_values_ tid none }
      .ok (s.returnTo caller c, [.joined caller tid rv])
    | none =>
      match s.thread_list_ tid with
      | none => .ok (s.returnTo caller c, [])
      | some target =>
        if target.exited_ then .ok (s.returnTo caller c, [])
        else if (s.waiting_list_ tid).isSome then .ok (s.returnTo caller c, [])
        else
          match joinDeadlock s.waiting_list_ tid s.deadlockPasses caller with
          | none => .error .endlessLoop
          | some true => .ok (s.returnTo caller c, [])
          | some false =>
            let s := { s with
              waiting_list_ := update s.waiting_list_ tid (some ⟨caller, ⟨[caller]⟩⟩) }
            .ok ((s.setState caller .Sleeping).setPc caller (.wait c tid), [])

/-- `joinThread` from the return of `cond->wait()`. -/
def joinWoken (s : UserProcess) (caller tid : Tid) (c : Caller) :
    Except Panic (UserProcess × List Event) :=
  match s.waiting_list_ tid with
  | none => .error .waiterErased
  | some _ =>
    match s.ret_values_ tid with
    | none => .error .noReturnValue
    | some rv =>
      let s := { s with
        waiting_list_ := update s.waiting_list_ tid none
        ret_values_ := update s.ret_values_ tid none }
      .ok (s.returnTo caller c, [.joined caller tid rv])

inductive CancelResult
  | received
  | noSuchThread
  | notCancelable
  deriving DecidableEq

/-- `cancelThread`; the results are 0, -1 and -2. -/
def cancelThread (s : UserProcess) (id : Tid) : CancelResult × UserProcess :=
  match s.thread_list_ id with
  | none => (.noSuchThread, s)
  | some target =>
    if target.state_ = .ToBeDestroyed then (.notCancelable, s)
    else (.received, s.modifyThread id fun th => { th with cancel_req_ := true })

/-- The tids of the other threads, in the order of the map. -/
def otherTids (s : UserProcess) (t : Tid) : List Tid :=
  (List.range s.next_tid_).filter fun tid => (s.thread_list_ tid).isSome && tid != t

/-- One pass of the first loop of `kill`. -/
def cancelPass (s : UserProcess) (t stale : Tid) (it : ℕ) : UserProcess :=
  if it = s.tid_list_.length then s.setPc t (.joinLoop 0)
  else
    match s.cancelThread (s.tid_list_.getD it stale) with
    | (.noSuchThread, s) => { s with tid_list_ := s.tid_list_.eraseIdx it }
    | (_, s) => s.setPc t (.cancelLoop (it + 1))

/-- The next step of the kernel code that `t` is in. -/
def run (s : UserProcess) (t stale : Tid) : Except Panic (UserProcess × List Event) :=
  match s.pc t with
  | .user => .ok (s, [])
  | .gone => .ok (s, [])
  | .exitThread retval => s.exitThread t retval
  | .exit _ => s.exit t
  | .joinThread c tid => s.joinThread t tid c
  | .wait c tid => s.joinWoken t tid c
  | .kill => if s.called_exit_ then s.exit t else .ok (s.setPc t .setCalledExit, [])
  | .setCalledExit =>
    .ok ({ s with called_exit_ := true, tid_list_ := [] }.setPc t .collect, [])
  | .collect =>
    .ok ({ s with tid_list_ := s.tid_list_ ++ s.otherTids t }.setPc t (.cancelLoop 0), [])
  | .cancelLoop it => .ok (s.cancelPass t stale it, [])
  | .joinLoop it =>
    if it = s.tid_list_.length then .ok (s.setPc t .exitLast, [])
    else .ok (s.setPc t (.joinThread (.kill it) (s.tid_list_.getD it stale)), [])
  | .exitLast => s.exit t

def step (s : UserProcess) : Label → Except Panic (UserProcess × List Event)
  | .createThread t => .ok (if s.inUser t then s.createThread else s, [])
  | .callExitThread t retval => .ok (if s.inUser t then s.setPc t (.exitThread retval) else s, [])
  | .callJoinThread t tid =>
    .ok (if s.inUser t then s.setPc t (.joinThread .pthread_join tid) else s, [])
  | .callKill t => .ok (if s.inUser t then s.setPc t .kill else s, [])
  | .cancelThread t id => .ok (if s.inUser t then (s.cancelThread id).2 else s, [])
  | .deliverCancel t =>
    match s.thread_list_ t with
    | none => .ok (s, [])
    | some th =>
      if s.inUser t && th.cancelable_ && th.cancel_req_ then
        .ok ((s.modifyThread t fun th => { th with cancelable_ := false }).setPc t
          (.exitThread (-1)), [])
      else .ok (s, [])
  | .run t stale => if s.isRunning t then s.run t stale else .ok (s, [])
  | .destroy t =>
    match s.thread_list_ t with
    | none => .ok (s, [])
    | some th =>
      if th.state_ = .ToBeDestroyed then
        .ok ({ s with thread_list_ := update s.thread_list_ t none }, [])
      else .ok (s, [])

/-- Any interleaving of the threads of a process, each step meeting `ok`. -/
abbrev Runs (ok : UserProcess → Label → Prop) (tid : Tid) (main : UserThread) :
    List Event → UserProcess → Prop :=
  Machine.Runs step ok (start tid main)

end UserProcess

end KPanic.Threads

import Mathlib.Logic.Function.Basic
import KPanic.Lib.Machine

/-!
# `Mutex.cpp`, `Condition.cpp` and `Lock.cpp`

The functions are flow charts: `Pc` says where a thread is in them, and `Pc.op` what it does next. Every
access to shared data is a step of its own. A thread that spins, in `lockWaitersList` or in
`Scheduler::wake`, takes no step until it gets through.
-/

namespace KPanic.Locks

open Function
open Machine

/-- A condition is given with its mutex. -/
inductive LockId
  | mutex (m : ℕ)
  | condition (c m : ℕ)
  deriving DecidableEq

/-! ### Places in the functions -/

/-- Who calls `sleepAndRelease`. -/
inductive Sleeper
  | acquire (m : ℕ)
  | wait (c m : ℕ) (re_acquire_mutex : Bool)
  deriving DecidableEq

def Sleeper.lock : Sleeper → LockId
  | .acquire m => .mutex m
  | .wait c m _ => .condition c m

/-- Who takes a thread from a list of waiters. `release` may be part of a `wait`. -/
inductive Waker
  | release (m : ℕ) (wait : Option (ℕ × Bool))
  | signal (c m : ℕ) (broadcast : Bool)
  deriving DecidableEq

def Waker.lock : Waker → LockId
  | .release m _ => .mutex m
  | .signal c m _ => .condition c m

inductive AcquirePc
  | doChecksBeforeWaiting
  | testSetLock
  | checkStillWaiting
  | lockWaitersList
  | testSetLockAgain
  | unlockWaitersList
  | doChecksAgain
  | assertNotHeld
  | pushFrontToHoldingList
  | setHeldBy
  deriving DecidableEq

inductive SleepPc
  | pushFront
  | unlockWaitersList
  | sleep
  | asleep
  deriving DecidableEq

inductive ReleasePc
  | checkInvalidRelease
  | removeFromHoldingList
  | clearHeldBy
  | clearMutex
  deriving DecidableEq

inductive WakePc
  | lockWaitersList
  | popBack
  | unlockWaitersList (thread_to_be_woken_up : Option ℕ)
  | wake (thread_to_be_woken_up : ℕ)
  deriving DecidableEq

inductive Pc
  | idle
  | acquire (m : ℕ) (p : AcquirePc)
  | sleepAndRelease (w : Sleeper) (p : SleepPc)
  | release (m : ℕ) (wait : Option (ℕ × Bool)) (p : ReleasePc)
  | wakeWaiter (w : Waker) (p : WakePc)
  | waitChecks (c m : ℕ) (re_acquire_mutex : Bool)
  | waitLockWaitersList (c m : ℕ) (re_acquire_mutex : Bool)
  | signalChecks (c m : ℕ) (broadcast : Bool)
  deriving DecidableEq

/-! ### What a thread does -/

inductive Op
  | stay
  | doChecksBeforeWaiting (m : ℕ) (next : Pc)
  | testSetLock (m : ℕ) (busy free : Pc)
  | checkStillWaiting (next : Pc)
  | lockWaitersList (l : LockId) (next : Pc)
  | unlockWaitersList (l : LockId) (next : Pc)
  | pushFront (l : LockId) (next : Pc)
  | popBack (l : LockId) (next : Option ℕ → Pc)
  | sleep (next : Pc)
  | resume (next : Pc)
  | wake (thread_to_wake : ℕ) (next : Pc)
  | assertNotHeld (m : ℕ) (next : Pc)
  | pushFrontToHoldingList (m : ℕ) (next : Pc)
  | setHeldBy (m : ℕ) (next : Pc)
  | checkInvalidRelease (m : ℕ) (next : Pc)
  | removeFromHoldingList (m : ℕ) (next : Pc)
  | clearHeldBy (m : ℕ) (next : Pc)
  | clearMutex (m : ℕ) (wait : Option (ℕ × Bool)) (next : Pc)
  | waitChecks (m : ℕ) (next : Pc)
  | signalChecks (m : ℕ) (next : Pc)

/-- `Mutex::acquire` -/
def acquire (m : ℕ) : AcquirePc → Op
  | .doChecksBeforeWaiting => .doChecksBeforeWaiting m (.acquire m .testSetLock)
  | .testSetLock => .testSetLock m (.acquire m .checkStillWaiting) (.acquire m .assertNotHeld)
  | .checkStillWaiting => .checkStillWaiting (.acquire m .lockWaitersList)
  | .lockWaitersList => .lockWaitersList (.mutex m) (.acquire m .testSetLockAgain)
  | .testSetLockAgain => .testSetLock m (.acquire m .doChecksAgain) (.acquire m .unlockWaitersList)
  | .unlockWaitersList => .unlockWaitersList (.mutex m) (.acquire m .assertNotHeld)
  | .doChecksAgain => .doChecksBeforeWaiting m (.sleepAndRelease (.acquire m) .pushFront)
  | .assertNotHeld => .assertNotHeld m (.acquire m .pushFrontToHoldingList)
  | .pushFrontToHoldingList => .pushFrontToHoldingList m (.acquire m .setHeldBy)
  | .setHeldBy => .setHeldBy m .idle

/-- Where a thread goes on after `sleepAndRelease`. -/
def Sleeper.resume : Sleeper → Pc
  | .acquire m => .acquire m .testSetLock
  | .wait _ m re_acquire_mutex => if re_acquire_mutex then .acquire m .doChecksBeforeWaiting else .idle

/-- `Lock::sleepAndRelease` -/
def sleepAndRelease (w : Sleeper) : SleepPc → Op
  | .pushFront => .pushFront w.lock (.sleepAndRelease w .unlockWaitersList)
  | .unlockWaitersList => .unlockWaitersList w.lock (.sleepAndRelease w .sleep)
  | .sleep => .sleep (.sleepAndRelease w .asleep)
  | .asleep => .resume w.resume

/-- `Mutex::release`, up to the reset of `mutex_` -/
def release (m : ℕ) (wait : Option (ℕ × Bool)) : ReleasePc → Op
  | .checkInvalidRelease => .checkInvalidRelease m (.release m wait .removeFromHoldingList)
  | .removeFromHoldingList => .removeFromHoldingList m (.release m wait .clearHeldBy)
  | .clearHeldBy => .clearHeldBy m (.release m wait .clearMutex)
  | .clearMutex => .clearMutex m wait (.wakeWaiter (.release m wait) .lockWaitersList)

/-- Where a thread goes on when it woke up a thread, or found none. -/
def Waker.resume (found : Bool) : Waker → Pc
  | .release _ none => .idle
  | .release m (some (c, re_acquire_mutex)) => .sleepAndRelease (.wait c m re_acquire_mutex) .pushFront
  | .signal c m broadcast =>
    if broadcast && found then .wakeWaiter (.signal c m broadcast) .lockWaitersList else .idle

/-- The rest of `Mutex::release`, and the loop of `Condition::signal` -/
def wakeWaiter (w : Waker) : WakePc → Op
  | .lockWaitersList => .lockWaitersList w.lock (.wakeWaiter w .popBack)
  | .popBack => .popBack w.lock fun thread_to_be_woken_up => .wakeWaiter w (.unlockWaitersList thread_to_be_woken_up)
  | .unlockWaitersList none => .unlockWaitersList w.lock (w.resume false)
  | .unlockWaitersList (some p) => .unlockWaitersList w.lock (.wakeWaiter w (.wake p))
  | .wake p => .wake p (w.resume true)

/-- What the thread does next. -/
def Pc.op : Pc → Op
  | .idle => .stay
  | .acquire m p => Locks.acquire m p
  | .sleepAndRelease w p => Locks.sleepAndRelease w p
  | .release m wait p => Locks.release m wait p
  | .wakeWaiter w p => Locks.wakeWaiter w p
  | .waitChecks c m re_acquire_mutex => .waitChecks m (.waitLockWaitersList c m re_acquire_mutex)
  | .waitLockWaitersList c m re_acquire_mutex =>
    .lockWaitersList (.condition c m) (.release m (some (c, re_acquire_mutex)) .checkInvalidRelease)
  | .signalChecks c m broadcast => .signalChecks m (.wakeWaiter (.signal c m broadcast) .lockWaitersList)

/-! ### The machine -/

inductive ThreadState
  | Running
  | Sleeping
  deriving DecidableEq

structure State where
  mutex_ : ℕ → Bool
  held_by_ : ℕ → Option ℕ
  waiters_list_ : LockId → List ℕ
  waiters_list_lock_ : LockId → Bool
  pc : ℕ → Pc
  state_ : ℕ → ThreadState
  lock_waiting_on_ : ℕ → Option LockId
  holding_lock_list_ : ℕ → List ℕ

inductive Panic
  | deadLock
  | stillWaiting
  | heldBy
  | invalidRelease
  | mutexNotHeld
  deriving DecidableEq

inductive Stop
  | panic (e : Panic)
  | disabled
  deriving DecidableEq

inductive Event
  | acquired (t m : ℕ)
  | releasing (t m : ℕ)
  /-- The wait on the condition released the mutex. -/
  | waiting (t c m : ℕ)
  | popped (t : ℕ) (l : LockId) (p : Option ℕ)
  | woken (t p : ℕ)
  deriving DecidableEq

abbrev Result := Except Stop (State × List Event)

namespace State

/-- A search that stops at the first hit, and may not come to an end. -/
def firstHit {α : Type} (f : α → Option Bool) : List α → Option Bool
  | [] => some false
  | a :: as =>
    match f a with
    | none => none
    | some true => some true
    | some false => firstHit f as

/-- Whether `checkForCircularDeadLock` fails its assertion; it makes `depth` nested calls at most. -/
def checkForCircularDeadLock (s : State) (start : ℕ) : ℕ → ℕ → Option Bool
  | 0, _ => none
  | depth + 1, thread_waiting =>
    firstHit (fun lock =>
      if lock = start then some true
      else firstHit (checkForCircularDeadLock s start depth) (s.waiters_list_ (.mutex lock)))
      (s.holding_lock_list_ thread_waiting)

/-- Whether `checkForDeadLock` fails its assertions. -/
def checkForDeadLock (s : State) (depth t m : ℕ) : Option Bool :=
  if s.held_by_ m = some t then some true else s.checkForCircularDeadLock m depth t

def doChecksBeforeWaiting (s : State) (depth t m : ℕ) : Option Stop :=
  if s.lock_waiting_on_ t ≠ none then some (.panic .stillWaiting)
  else
    match s.checkForDeadLock depth t m with
    | none => some .disabled
    | some true => some (.panic .deadLock)
    | some false => none

def assert (b : Bool) (e : Panic) : Option Stop := if b then none else some (.panic e)

/-- The assertions, and what the thread waits for. -/
def stops (s : State) (depth t : ℕ) : Op → Option Stop
  | .stay => some .disabled
  | .doChecksBeforeWaiting m _ => s.doChecksBeforeWaiting depth t m
  | .checkStillWaiting _ => assert (s.lock_waiting_on_ t = none) .stillWaiting
  | .lockWaitersList l _ => if s.waiters_list_lock_ l then some .disabled else none
  | .wake p _ => if s.state_ p ≠ .Sleeping then some .disabled else none
  | .assertNotHeld m _ => assert (s.held_by_ m = none) .heldBy
  | .checkInvalidRelease m _ => assert (s.held_by_ m = some t) .invalidRelease
  | .waitChecks m _ =>
    if s.held_by_ m ≠ some t ∨ s.holding_lock_list_ t = [] then some (.panic .mutexNotHeld)
    else assert (s.lock_waiting_on_ t = none) .stillWaiting
  | .signalChecks m _ => assert (s.held_by_ m = some t) .mutexNotHeld
  | _ => none

def goto (s : State) (t : ℕ) (pc : Pc) : State := { s with pc := update s.pc t pc }

def perform (s : State) (t : ℕ) : Op → State × List Event
  | .stay => (s, [])
  | .testSetLock m busy free =>
    if s.mutex_ m then (s.goto t busy, [])
    else ({ s with mutex_ := update s.mutex_ m true }.goto t free, [])
  | .lockWaitersList l next => ({ s with waiters_list_lock_ := update s.waiters_list_lock_ l true }.goto t next, [])
  | .unlockWaitersList l next => ({ s with waiters_list_lock_ := update s.waiters_list_lock_ l false }.goto t next, [])
  | .pushFront l next =>
    ({ s with
      lock_waiting_on_ := update s.lock_waiting_on_ t (some l)
      waiters_list_ := update s.waiters_list_ l (t :: s.waiters_list_ l) }.goto t next, [])
  | .popBack l next =>
    ({ s with waiters_list_ := update s.waiters_list_ l (s.waiters_list_ l).dropLast }.goto t
      (next (s.waiters_list_ l).getLast?), [.popped t l (s.waiters_list_ l).getLast?])
  | .sleep next => ({ s with state_ := update s.state_ t .Sleeping }.goto t next, [])
  | .resume next => ({ s with lock_waiting_on_ := update s.lock_waiting_on_ t none }.goto t next, [])
  | .wake p next => ({ s with state_ := update s.state_ p .Running }.goto t next, [.woken t p])
  | .pushFrontToHoldingList m next =>
    ({ s with holding_lock_list_ := update s.holding_lock_list_ t (m :: s.holding_lock_list_ t) }.goto t next, [])
  | .setHeldBy m next => ({ s with held_by_ := update s.held_by_ m (some t) }.goto t next, [.acquired t m])
  | .checkInvalidRelease m next => (s.goto t next, [.releasing t m])
  | .removeFromHoldingList m next =>
    ({ s with holding_lock_list_ := update s.holding_lock_list_ t ((s.holding_lock_list_ t).erase m) }.goto t next, [])
  | .clearHeldBy m next => ({ s with held_by_ := update s.held_by_ m none }.goto t next, [])
  | .clearMutex m wait next =>
    ({ s with mutex_ := update s.mutex_ m false }.goto t next, (wait.map fun w => .waiting t w.1 m).toList)
  | .doChecksBeforeWaiting _ next | .checkStillWaiting next | .assertNotHeld _ next | .waitChecks _ next
  | .signalChecks _ next => (s.goto t next, [])

end State

inductive Call
  | acquire (m : ℕ)
  | release (m : ℕ)
  | wait (c m : ℕ) (re_acquire_mutex : Bool)
  | signal (c m : ℕ) (broadcast : Bool)

def Call.start : Call → Pc
  | .acquire m => .acquire m .doChecksBeforeWaiting
  | .release m => .release m none .checkInvalidRelease
  | .wait c m re_acquire_mutex => .waitChecks c m re_acquire_mutex
  | .signal c m broadcast => .signalChecks c m broadcast

inductive Act
  | call (t : ℕ) (f : Call)
  | run (t depth : ℕ)

def step (s : State) : Act → Result
  | .call t f => if s.pc t = .idle then .ok (s.goto t f.start, []) else .error .disabled
  | .run t depth =>
    if s.state_ t = .Sleeping then .error .disabled
    else
      match s.stops depth t (s.pc t).op with
      | some e => .error e
      | none => .ok (s.perform t (s.pc t).op)

/-- No function has been called. -/
structure Boot (s : State) : Prop where
  mutex_ : ∀ m, s.mutex_ m = false
  held_by_ : ∀ m, s.held_by_ m = none
  waiters_list_ : ∀ l, s.waiters_list_ l = []
  waiters_list_lock_ : ∀ l, s.waiters_list_lock_ l = false
  pc : ∀ t, s.pc t = .idle
  state_ : ∀ t, s.state_ t = .Running
  lock_waiting_on_ : ∀ t, s.lock_waiting_on_ t = none
  holding_lock_list_ : ∀ t, s.holding_lock_list_ t = []

end KPanic.Locks

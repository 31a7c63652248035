import KPanic.Kernel.LockDeadlock

/-!
# `common/source/kernel/SpinLock.cpp`

The functions are flow charts, as those of the mutex are. A thread that finds the lock or the list of waiters taken takes no step until it
gets through. The kernel is running, and interrupts are enabled.
-/

namespace KPanic.SpinLocks

open Function
open Machine
open Locks.State (firstHit)

/-- What a thread does next. The places behind `testSetLock` up to `unlockWaitersListAgain` belong to a lock that was not free at once. -/
inductive Pc
  | idle
  /-- `acquire` -/
  | testSetLock (l : ℕ)
  | doChecksBeforeWaiting (l : ℕ)
  | setWaitingOn (l : ℕ)
  | lockWaitersList (l : ℕ)
  | pushFront (l : ℕ)
  | unlockWaitersList (l : ℕ)
  | testSetLockAgain (l : ℕ)
  | lockWaitersListAgain (l : ℕ)
  | removeFromWaitersList (l : ℕ)
  | unlockWaitersListAgain (l : ℕ)
  | clearWaitingOn (l : ℕ)
  /-- The end of `acquire` and of `acquireNonBlocking`. -/
  | setHeldBy (l : ℕ)
  | pushFrontToHoldingList (l : ℕ)
  /-- `acquireNonBlocking` -/
  | tryChecks (l : ℕ)
  | tryTestSetLock (l : ℕ)
  | assertNotHeld (l : ℕ)
  /-- `release` -/
  | checkInvalidRelease (l : ℕ)
  | removeFromHoldingList (l : ℕ)
  | clearHeldBy (l : ℕ)
  | clearLock (l : ℕ)
  deriving DecidableEq

structure State where
  lock_ : ℕ → Bool
  held_by_ : ℕ → Option ℕ
  waiters_list_ : ℕ → List ℕ
  waiters_list_lock_ : ℕ → Bool
  pc : ℕ → Pc
  lock_waiting_on_ : ℕ → Option ℕ
  holding_lock_list_ : ℕ → List ℕ

inductive Panic
  | deadLock
  | stillWaiting
  | heldBy
  | waitersListNotLocked
  | noWaiters
  | invalidRelease
  deriving DecidableEq

inductive Stop
  | panic (e : Panic)
  | disabled
  deriving DecidableEq

inductive Event
  | acquired (t l : ℕ)
  | refused (t l : ℕ)
  | released (t l : ℕ)
  deriving DecidableEq

abbrev Result := Except Stop (State × List Event)

namespace State

/-- Whether `checkForCircularDeadLock` fails its assertion; it makes `depth` nested calls at most. -/
def checkForCircularDeadLock (s : State) (start : ℕ) : ℕ → ℕ → Option Bool
  | 0, _ => none
  | depth + 1, thread_waiting =>
    firstHit (fun lock =>
      if lock = start then some true else firstHit (checkForCircularDeadLock s start depth) (s.waiters_list_ lock))
      (s.holding_lock_list_ thread_waiting)

def checkForDeadLock (s : State) (depth t l : ℕ) : Option Bool :=
  if s.held_by_ l = some t then some true else s.checkForCircularDeadLock l depth t

def goto (s : State) (t : ℕ) (pc : Pc) : State := { s with pc := update s.pc t pc }

def doChecksBeforeWaiting (s : State) (depth t l : ℕ) (next : Pc) : Result :=
  if s.lock_waiting_on_ t ≠ none then .error (.panic .stillWaiting)
  else
    match s.checkForDeadLock depth t l with
    | none => .error .disabled
    | some true => .error (.panic .deadLock)
    | some false => .ok (s.goto t next, [])

def testSetLock (s : State) (t l : ℕ) (next : Pc) (busy : Result) : Result :=
  if s.lock_ l then busy else .ok ({ s with lock_ := update s.lock_ l true }.goto t next, [])

def lockWaitersList (s : State) (t l : ℕ) (next : Pc) : Result :=
  if s.waiters_list_lock_ l then .error .disabled
  else .ok ({ s with waiters_list_lock_ := update s.waiters_list_lock_ l true }.goto t next, [])

def unlockWaitersList (s : State) (t l : ℕ) (next : Pc) : Result :=
  .ok ({ s with waiters_list_lock_ := update s.waiters_list_lock_ l false }.goto t next, [])

def perform (s : State) (depth t : ℕ) : Pc → Result
  | .idle => .error .disabled
  | .testSetLock l => s.testSetLock t l (.setHeldBy l) (.ok (s.goto t (.doChecksBeforeWaiting l), []))
  | .doChecksBeforeWaiting l => s.doChecksBeforeWaiting depth t l (.setWaitingOn l)
  | .setWaitingOn l => .ok ({ s with lock_waiting_on_ := update s.lock_waiting_on_ t (some l) }.goto t (.lockWaitersList l), [])
  | .lockWaitersList l => s.lockWaitersList t l (.pushFront l)
  | .pushFront l =>
    if s.waiters_list_lock_ l then
      .ok ({ s with waiters_list_ := update s.waiters_list_ l (t :: s.waiters_list_ l) }.goto t (.unlockWaitersList l), [])
    else .error (.panic .waitersListNotLocked)
  | .unlockWaitersList l => s.unlockWaitersList t l (.testSetLockAgain l)
  | .testSetLockAgain l => s.testSetLock t l (.lockWaitersListAgain l) (.error .disabled)
  | .lockWaitersListAgain l => s.lockWaitersList t l (.removeFromWaitersList l)
  | .removeFromWaitersList l =>
    if s.waiters_list_lock_ l = false then .error (.panic .waitersListNotLocked)
    else if s.waiters_list_ l = [] then .error (.panic .noWaiters)
    else .ok ({ s with waiters_list_ := update s.waiters_list_ l ((s.waiters_list_ l).erase t) }.goto t (.unlockWaitersListAgain l), [])
  | .unlockWaitersListAgain l => s.unlockWaitersList t l (.clearWaitingOn l)
  | .clearWaitingOn l => .ok ({ s with lock_waiting_on_ := update s.lock_waiting_on_ t none }.goto t (.setHeldBy l), [])
  | .setHeldBy l => .ok ({ s with held_by_ := update s.held_by_ l (some t) }.goto t (.pushFrontToHoldingList l), [])
  | .pushFrontToHoldingList l =>
    .ok ({ s with holding_lock_list_ := update s.holding_lock_list_ t (l :: s.holding_lock_list_ t) }.goto t .idle, [.acquired t l])
  | .tryChecks l => s.doChecksBeforeWaiting depth t l (.tryTestSetLock l)
  | .tryTestSetLock l => s.testSetLock t l (.assertNotHeld l) (.ok (s.goto t .idle, [.refused t l]))
  | .assertNotHeld l => if s.held_by_ l = none then .ok (s.goto t (.setHeldBy l), []) else .error (.panic .heldBy)
  | .checkInvalidRelease l =>
    if s.held_by_ l = some t then .ok (s.goto t (.removeFromHoldingList l), []) else .error (.panic .invalidRelease)
  | .removeFromHoldingList l =>
    .ok ({ s with holding_lock_list_ := update s.holding_lock_list_ t ((s.holding_lock_list_ t).erase l) }.goto t (.clearHeldBy l), [])
  | .clearHeldBy l => .ok ({ s with held_by_ := update s.held_by_ l none }.goto t (.clearLock l), [])
  | .clearLock l => .ok ({ s with lock_ := update s.lock_ l false }.goto t .idle, [.released t l])

end State

inductive Call
  | acquire (l : ℕ)
  | acquireNonBlocking (l : ℕ)
  | release (l : ℕ)

def Call.start : Call → Pc
  | .acquire l => .testSetLock l
  | .acquireNonBlocking l => .tryChecks l
  | .release l => .checkInvalidRelease l

inductive Act
  | call (t : ℕ) (f : Call)
  | run (t depth : ℕ)

def step (s : State) : Act → Result
  | .call t f => if s.pc t = .idle then .ok (s.goto t f.start, []) else .error .disabled
  | .run t depth => s.perform depth t (s.pc t)

/-- No function has been called. -/
structure Boot (s : State) : Prop where
  lock_ : ∀ l, s.lock_ l = false
  held_by_ : ∀ l, s.held_by_ l = none
  waiters_list_ : ∀ l, s.waiters_list_ l = []
  waiters_list_lock_ : ∀ l, s.waiters_list_lock_ l = false
  pc : ∀ t, s.pc t = .idle
  lock_waiting_on_ : ∀ t, s.lock_waiting_on_ t = none
  holding_lock_list_ : ∀ t, s.holding_lock_list_ t = []

end KPanic.SpinLocks

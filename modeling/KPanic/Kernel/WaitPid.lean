import Mathlib.Logic.Function.Basic
import KPanic.Lib.Machine

/-!
# `common/source/kernel/ProcessRegistry.cpp`: waiting for a process

`addToWaitPIDMap`, `removeFromWaitPIDMap`, `getCondToWait` and `checkWaitPidDeadlock`, with
`UserThread::waitForPid`. A step is one critical section under `waitpid_map_lock_`; a thread that
waits for a pid passes through two of them.
-/

namespace KPanic.WaitPid

abbrev Pid := ℕ
abbrev Tid := ℕ

inductive Panic
  | alreadyRegistered
  | notRegistered
  | missingKey
  | endlessRecursion
  | waitOnDeleted
  deriving DecidableEq

/-- The threads asleep on a condition, newest first. -/
structure Condition where
  waiters_list_ : List Tid

/-- Where a thread is in `waitForPid`: before it, between `getCondToWait` and `wait`, or asleep. -/
inductive Pc
  | user
  | gotCond (pid : Pid) (cond : ℕ)
  | sleeping (pid : Pid) (cond : ℕ)

/-- The life of a process, as far as the maps are concerned. -/
inductive Phase
  | unborn
  | constructing
  | alive
  | dead
  deriving DecidableEq

inductive Event
  | returned (t : Tid) (pid : Pid)
  | refused (t : Tid) (pid : Pid)

/-- `heap` holds the conditions that are allocated; an address is used once. -/
structure Registry where
  pid_counter_ : Pid
  phase : Pid → Phase
  waitpid_map_ : Pid → Option ℕ
  wait_pid_map_helper_ : Pid → Option (List Pid)
  last_dead_pid_ : Pid
  heap : ℕ → Option Condition
  next_address : ℕ
  pc : Tid → Pc

/-- The first argument of the last two is the running thread; `current_pid` is its process. -/
inductive Label
  | getNewPID
  | addToWaitPIDMap (pid : Pid)
  | removeFromWaitPIDMap (pid : Pid)
  | getCondToWait (t : Tid) (current_pid pid : Pid)
  | wait (t : Tid)

/-- The result of a look-up that recurses: `none` if the bound on the depth is reached. -/
abbrev Answer := Option (Except Panic Bool)

/-- The loop of `checkWaitPidDeadlock` over the pids that `pid_to_wait` waits for. -/
def scanPids (check : Pid → Answer) (waited_by : Pid) : List Pid → Answer
  | [] => some (.ok false)
  | pid :: pids =>
    if pid = waited_by then some (.ok true)
    else
      match check pid with
      | some (.ok false) => scanPids check waited_by pids
      | answer => answer

/-- `checkWaitPidDeadlock`, with a bound on the depth of the recursion; `true` is `-1U`. -/
def checkWaitPidDeadlock (wait_pid_map_helper_ : Pid → Option (List Pid)) (waited_by : Pid) :
    ℕ → Pid → Answer
  | 0, _ => none
  | n + 1, pid_to_wait =>
    match wait_pid_map_helper_ pid_to_wait with
    | none => some (.error .missingKey)
    | some pids => scanPids (checkWaitPidDeadlock wait_pid_map_helper_ waited_by n) waited_by pids

namespace Registry

open Function

def start : Registry where
  pid_counter_ := 0
  phase _ := .unborn
  waitpid_map_ _ := none
  wait_pid_map_helper_ _ := none
  last_dead_pid_ := 0
  heap _ := none
  next_address := 0
  pc _ := .user

/-- All registered pids are below `pid_counter_`, so this depth is enough. -/
def checkDepth (s : Registry) : ℕ := s.pid_counter_ + 1

def getNewPID (s : Registry) : Registry :=
  { s with
    pid_counter_ := s.pid_counter_ + 1
    phase := update s.phase s.pid_counter_ .constructing }

def addToWaitPIDMap (s : Registry) (pid : Pid) : Except Panic (Registry × List Event) :=
  if (s.waitpid_map_ pid).isSome then .error .alreadyRegistered
  else .ok ({ s with
    phase := update s.phase pid .alive
    waitpid_map_ := update s.waitpid_map_ pid (some s.next_address)
    wait_pid_map_helper_ := update s.wait_pid_map_helper_ pid (some [])
    heap := update s.heap s.next_address (some ⟨[]⟩)
    next_address := s.next_address + 1 }, [])

/-- `broadcast`: the sleepers return from `waitForPid`. -/
def broadcast (s : Registry) (cond : ℕ) : Registry × List Event :=
  match s.heap cond with
  | none => (s, [])
  | some c =>
    ({ s with
      heap := update s.heap cond (some ⟨[]⟩)
      pc := fun t => if t ∈ c.waiters_list_ then .user else s.pc t },
      c.waiters_list_.reverse.filterMap fun t =>
        match s.pc t with
        | .sleeping pid _ => some (.returned t pid)
        | _ => none)

/-- The critical section of `removeFromWaitPIDMap`, for the condition of `pid`. -/
def dropCond (s : Registry) (pid : Pid) (cond : ℕ) : Registry :=
  let s := (s.broadcast cond).1
  { s with
    phase := update s.phase pid .dead
    last_dead_pid_ := pid
    heap := update s.heap cond none
    waitpid_map_ := update s.waitpid_map_ pid none
    wait_pid_map_helper_ := update s.wait_pid_map_helper_ pid none }

def removeFromWaitPIDMap (s : Registry) (pid : Pid) : Except Panic (Registry × List Event) :=
  match s.waitpid_map_ pid with
  | none => .error .notRegistered
  | some cond => .ok (s.dropCond pid cond, (s.broadcast cond).2)

/-- `getCondToWait`, called from `waitForPid`; without a condition the latter returns -1. -/
def getCondToWait (s : Registry) (t : Tid) (current_pid pid : Pid) :
    Except Panic (Registry × List Event) :=
  match checkWaitPidDeadlock s.wait_pid_map_helper_ current_pid s.checkDepth pid with
  | none => .error .endlessRecursion
  | some (.error e) => .error e
  | some (.ok true) => .ok (s, [.refused t pid])
  | some (.ok false) =>
    match s.waitpid_map_ pid with
    | none => .ok (s, [.refused t pid])
    | some cond =>
      match s.wait_pid_map_helper_ current_pid with
      | none => .error .missingKey
      | some pids =>
        .ok ({ s with
          wait_pid_map_helper_ :=
            update s.wait_pid_map_helper_ current_pid (some (pids ++ [pid]))
          pc := update s.pc t (.gotCond pid cond) }, [])

/-- `waitpid_cond->wait(false)` -/
def wait (s : Registry) (t : Tid) (pid : Pid) (cond : ℕ) : Except Panic (Registry × List Event) :=
  match s.heap cond with
  | none => .error .waitOnDeleted
  | some c =>
    .ok ({ s with
      heap := update s.heap cond (some ⟨t :: c.waiters_list_⟩)
      pc := update s.pc t (.sleeping pid cond) }, [])

/-- A process registers once, at the end of its construction, and a thread waits only for pids
other than its own (`Syscall::waitpid`). A label that is not possible changes nothing. -/
def step (s : Registry) : Label → Except Panic (Registry × List Event)
  | .getNewPID => .ok (s.getNewPID, [])
  | .addToWaitPIDMap pid =>
    if s.phase pid = .constructing then s.addToWaitPIDMap pid else .ok (s, [])
  | .removeFromWaitPIDMap pid =>
    if s.phase pid = .alive then s.removeFromWaitPIDMap pid else .ok (s, [])
  | .getCondToWait t current_pid pid =>
    match s.pc t with
    | .user =>
      if s.phase current_pid = .alive ∧ pid ≠ current_pid then s.getCondToWait t current_pid pid
      else .ok (s, [])
    | _ => .ok (s, [])
  | .wait t =>
    match s.pc t with
    | .gotCond pid cond => s.wait t pid cond
    | _ => .ok (s, [])

/-- Any interleaving of any number of threads and processes, each step meeting `ok`. -/
abbrev Runs (ok : Registry → Label → Prop) : List Event → Registry → Prop :=
  Machine.Runs step ok start

end Registry

end KPanic.WaitPid

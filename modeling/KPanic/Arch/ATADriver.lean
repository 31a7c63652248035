import Mathlib.Algebra.Group.Nat.Defs
import Mathlib.Data.List.Range
import KPanic.Lib.Machine

/-!
# `arch/x86/common/source/ATADriver.cpp`: the queue of requests

The driver in a mode with interrupts. `addRequest` links a request before it starts it, and a start that
fails leaves the request in the list. Without such starts there is one request at a time, and the
interrupts are for that one.
-/

namespace KPanic.ATA

open Function
open Machine

inductive Cmd
  | BD_READ
  | BD_WRITE
  | other
  deriving DecidableEq

inductive Status
  | BD_QUEUED
  | BD_DONE
  | BD_ERROR
  deriving DecidableEq

structure BDRequest where
  cmd_ : Cmd
  num_block_ : ℕ
  status_ : Status
  blocks_done_ : ℕ
  next_request_ : Option ℕ

/-- The requests are numbered as `addRequest` is called with them. -/
structure ATADriver where
  request : ℕ → BDRequest
  request_list_ : Option ℕ
  request_list_tail_ : Option ℕ
  /-- The request of the call of `addRequest` that has the lock. -/
  lock_ : Option ℕ
  count : ℕ
  /-- The request whose command the controller was sent last, until that has ended. -/
  executing : Option ℕ

inductive Event
  /-- An interrupt, with the request that it is attributed to and the one that is executed. -/
  | irq (attributed executing : Option ℕ)
  | transferred (br block : ℕ)
  | accepted (br : ℕ)
  | refused (br : ℕ)
  | done (br : ℕ)
  | failed (br : ℕ)
  deriving DecidableEq

inductive Panic
  | nullPointer
  | notReturning
  deriving DecidableEq

namespace ATADriver

def setStatus (s : ATADriver) (br : ℕ) (status_ : Status) : ATADriver :=
  { s with request := update s.request br { s.request br with status_ := status_ } }

def setBlocksDone (s : ATADriver) (br bdone : ℕ) : ATADriver :=
  { s with request := update s.request br { s.request br with blocks_done_ := bdone } }

def setNextRequest (s : ATADriver) (br next : ℕ) : ATADriver :=
  { s with request := update s.request br { s.request br with next_request_ := some next } }

/-! ### Starting a request -/

/-- `timeout i` is whether the wait number `i` ends in a time-out. -/
def readSector (s : ATADriver) (br : ℕ) (timeout : ℕ → Bool) : ℤ × ATADriver × List Event :=
  if timeout 0 ∨ timeout 1 then (-1, s, [])
  else (0, { s with executing := some br }, [])

def writeSector (s : ATADriver) (br : ℕ) (timeout : ℕ → Bool) : ℤ × ATADriver × List Event :=
  if timeout 0 ∨ timeout 1 then (-1, s, [])
  else
    let s := { s with executing := some br }
    if timeout 2 then (-1, s, [])
    else if timeout 3 ∨ timeout 4 then (-1, s, [.transferred br 0])
    else (0, s, [.transferred br 0])

def start (s : ATADriver) (br : ℕ) (cmd_ : Cmd) (timeout : ℕ → Bool) : ℤ × ATADriver × List Event :=
  match cmd_ with
  | .BD_READ => s.readSector br timeout
  | .BD_WRITE => s.writeSector br timeout
  | .other => (-1, s, [])

def link (s : ATADriver) (br : ℕ) : Except Panic ATADriver :=
  match s.request_list_ with
  | none => .ok { s with request_list_ := some br, request_list_tail_ := some br }
  | some _ =>
    match s.request_list_tail_ with
    | none => .error .nullPointer
    | some tail => .ok { s.setNextRequest tail br with request_list_tail_ := some br }

/-- `addRequest` with a new request. A thread waits until the request is not queued any more; during boot
there is no thread. -/
def addRequest (s : ATADriver) (cmd_ : Cmd) (num_block_ : ℕ) (thread : Bool) (timeout : ℕ → Bool) :
    Except Panic (ATADriver × List Event) := do
  let br := s.count
  let s := { s with
    request := update s.request br ⟨cmd_, num_block_, .BD_QUEUED, 0, none⟩
    count := s.count + 1 }
  let s ← s.link br
  let r := s.start br cmd_ timeout
  if r.1 ≠ 0 then return (r.2.1.setStatus br .BD_ERROR, r.2.2 ++ [.refused br])
  else return ({ r.2.1 with lock_ := if thread then some br else none }, r.2.2 ++ [.accepted br])

/-- A call returns in which a thread waits. -/
def addRequestReturns (s : ATADriver) : Except Panic ATADriver :=
  match s.lock_ with
  | none => .error .notReturning
  | some br => if (s.request br).status_ = .BD_QUEUED then .error .notReturning else .ok { s with lock_ := none }

/-! ### Interrupts -/

def nextRequest (s : ATADriver) (br : ℕ) : ATADriver :=
  { s with request_list_ := (s.request br).next_request_ }

/-- The controller is reset. -/
def reset (s : ATADriver) : ATADriver := { s with executing := none }

/-- The controller has carried out the command. -/
def carriedOut (s : ATADriver) (br : ℕ) : ATADriver :=
  if s.executing = some br then { s with executing := none } else s

/-- `timeout` is whether `waitForController` is called in vain. -/
def serviceIRQ (s : ATADriver) (timeout : Bool) : ATADriver × List Event :=
  match s.request_list_ with
  | none => (s.reset, [.irq none s.executing])
  | some br =>
    let irq := .irq (some br) s.executing
    let blocks_done := (s.request br).blocks_done_
    match (s.request br).cmd_ with
    | .BD_READ =>
      if timeout then ((s.reset.setStatus br .BD_ERROR).nextRequest br, [irq, .failed br])
      else
        let s := s.setBlocksDone br ((blocks_done + 1) % 2 ^ 32)
        if (blocks_done + 1) % 2 ^ 32 = (s.request br).num_block_ then
          (((s.carriedOut br).setStatus br .BD_DONE).nextRequest br, [irq, .transferred br blocks_done, .done br])
        else (s, [irq, .transferred br blocks_done])
    | .BD_WRITE =>
      let blocks_done := (blocks_done + 1) % 2 ^ 32
      if blocks_done = (s.request br).num_block_ then
        (((s.carriedOut br).setStatus br .BD_DONE).nextRequest br, [irq, .done br])
      else if timeout then ((s.reset.setStatus br .BD_ERROR).nextRequest br, [irq, .failed br])
      else (s.setBlocksDone br blocks_done, [irq, .transferred br blocks_done])
    | .other => ((s.setStatus br .BD_ERROR).nextRequest br, [irq, .failed br])

end ATADriver

/-! ### Runs -/

inductive Call
  | addRequest (cmd_ : Cmd) (num_block_ : ℕ) (thread : Bool) (timeout : ℕ → Bool)
  | addRequestReturns
  | serviceIRQ (timeout : Bool)

def step (s : ATADriver) : Call → Except Panic (ATADriver × List Event)
  | .addRequest cmd_ num_block_ thread timeout => s.addRequest cmd_ num_block_ thread timeout
  | .addRequestReturns => s.addRequestReturns.map fun s => (s, [])
  | .serviceIRQ timeout => .ok (s.serviceIRQ timeout)

def created : ATADriver where
  request _ := ⟨.other, 0, .BD_DONE, 0, none⟩
  request_list_ := none
  request_list_tail_ := none
  lock_ := none
  count := 0
  executing := none

/-- A call of `addRequest` begins when the lock is free. -/
def Serial (s : ATADriver) : Call → Prop
  | .addRequest _ num_block_ _ _ => s.lock_ = none ∧ num_block_ < 2 ^ 32
  | .addRequestReturns => True
  | .serviceIRQ _ => True

instance (s : ATADriver) : DecidablePred (Serial s)
  | .addRequest _ _ _ _ => inferInstanceAs (Decidable (_ ∧ _))
  | .addRequestReturns => inferInstanceAs (Decidable True)
  | .serviceIRQ _ => inferInstanceAs (Decidable True)

/-! ### What is expected of the queue -/

/-- The requests that were accepted and have neither ended nor failed, behind those of `brs`. -/
def pendingFrom : List ℕ → List Event → List ℕ
  | brs, [] => brs
  | brs, .accepted br :: tr => pendingFrom (brs ++ [br]) tr
  | brs, .done br :: tr => pendingFrom (brs.erase br) tr
  | brs, .failed br :: tr => pendingFrom (brs.erase br) tr
  | brs, .refused _ :: tr => pendingFrom brs tr
  | brs, .transferred _ _ :: tr => pendingFrom brs tr
  | brs, .irq _ _ :: tr => pendingFrom brs tr

def pending (tr : List Event) : List ℕ := pendingFrom [] tr

/-- The list from `head` on. -/
def Chain (request : ℕ → BDRequest) : Option ℕ → List ℕ → Prop
  | none, [] => True
  | some br, x :: brs => br = x ∧ Chain request (request br).next_request_ brs
  | none, _ :: _ => False
  | some _, [] => False

def blockOf (br : ℕ) : Event → Option ℕ
  | .transferred x block => if x = br then some block else none
  | _ => none

/-- The blocks of the request that have been transferred. -/
def blocks (br : ℕ) (tr : List Event) : List ℕ := tr.filterMap (blockOf br)

structure QueueOk (tr : List Event) (s : ATADriver) : Prop where
  list : Chain s.request s.request_list_ (pending tr)
  attributed : ∀ br executing, Event.irq br executing ∈ tr → br = executing
  once : ∀ br, Event.done br ∈ tr → blocks br tr = List.range (s.request br).num_block_

/-- The request is a read or a write of some blocks, no other one is in the list, and no wait for the
controller ends in a time-out before the command is started. -/
def Starts (s : ATADriver) : Call → Prop
  | .addRequest cmd_ num_block_ _ timeout => s.request_list_ = none ∧ 0 < num_block_ ∧
    (cmd_ = .BD_READ ∧ (∀ i < 2, timeout i = false) ∨ cmd_ = .BD_WRITE ∧ ∀ i < 5, timeout i = false)
  | .addRequestReturns => True
  | .serviceIRQ _ => True

instance (s : ATADriver) : DecidablePred (Starts s)
  | .addRequest _ _ _ _ => inferInstanceAs (Decidable (_ ∧ _ ∧ _))
  | .addRequestReturns => inferInstanceAs (Decidable True)
  | .serviceIRQ _ => inferInstanceAs (Decidable True)

variable {s u : ATADriver} {tr tr' evs : List Event} {br num_block_ : ℕ} {cmd_ : Cmd} {thread : Bool}
  {timeout : ℕ → Bool} {c : Call}

/-! ### The events of a run -/

theorem pendingFrom_append (brs : List ℕ) (tr tr' : List Event) :
    pendingFrom brs (tr ++ tr') = pendingFrom (pendingFrom brs tr) tr' := by
  induction tr generalizing brs with
  | nil => rfl
  | cons e tr ih => cases e <;> exact ih _

theorem blocks_append (br : ℕ) (tr tr' : List Event) : blocks br (tr ++ tr') = blocks br tr ++ blocks br tr' :=
  List.filterMap_append

theorem blocks_eq_nil (h : ∀ block, Event.transferred br block ∉ tr) : blocks br tr = [] := by
  apply List.filterMap_eq_nil_iff.mpr
  intro e he
  cases e with
  | transferred x block =>
    have hx : x ≠ br := by
      rintro rfl
      exact h block he
    exact if_neg hx
  | irq _ _ | accepted _ | refused _ | done _ | failed _ => rfl

/-- One request is in the list, and it is the one that is executed. So many of its blocks have been
transferred as `blocks_done_` says, or one more if they are written. -/
structure Busy (br : ℕ) (tr : List Event) (s : ATADriver) : Prop where
  list : s.request_list_ = some br
  last : (s.request br).next_request_ = none
  executing : s.executing = some br
  pending : pending tr = [br]
  counted : br < s.count
  undone : Event.done br ∉ tr
  less : (s.request br).blocks_done_ < (s.request br).num_block_
  fits : (s.request br).num_block_ < 2 ^ 32
  moved : (s.request br).cmd_ = .BD_READ ∧ blocks br tr = List.range (s.request br).blocks_done_ ∨
    (s.request br).cmd_ = .BD_WRITE ∧ blocks br tr = List.range ((s.request br).blocks_done_ + 1)

structure Idle (tr : List Event) (s : ATADriver) : Prop where
  list : s.request_list_ = none
  executing : s.executing = none
  pending : pending tr = []

structure DriverInv (tr : List Event) (s : ATADriver) : Prop where
  phase : Idle tr s ∨ ∃ br, Busy br tr s
  attributed : ∀ br executing, Event.irq br executing ∈ tr → br = executing
  once : ∀ br, Event.done br ∈ tr → br < s.count ∧ blocks br tr = List.range (s.request br).num_block_
  counted : ∀ br block, Event.transferred br block ∈ tr → br < s.count

theorem driverInv_created : DriverInv [] created :=
  ⟨.inl ⟨rfl, rfl, rfl⟩, fun _ _ h => by simp at h, fun _ h => by simp at h, fun _ _ h => by simp at h⟩

theorem DriverInv.idle (h : DriverInv tr s) (hlist : s.request_list_ = none) : Idle tr s := by
  obtain hidle | ⟨br, hbusy⟩ := h.phase
  · exact hidle
  · rw [hbusy.list] at hlist
    cases hlist

theorem DriverInv.queueOk (h : DriverInv tr s) : QueueOk tr s := by
  refine ⟨?_, h.attributed, fun br hdone => (h.once br hdone).2⟩
  obtain hidle | ⟨br, hbusy⟩ := h.phase
  · rw [hidle.list, hidle.pending]
    trivial
  · rw [hbusy.list, hbusy.pending]
    refine ⟨rfl, ?_⟩
    rw [hbusy.last]
    trivial

/-- One more call. Its events are about requests that were not done. -/
theorem DriverInv.extend (h : DriverInv tr s) (hphase : Idle (tr ++ evs) u ∨ ∃ br, Busy br (tr ++ evs) u)
    (hcount : s.count ≤ u.count) (hnum : ∀ x < s.count, (u.request x).num_block_ = (s.request x).num_block_)
    (hirq : ∀ br executing, Event.irq br executing ∈ evs → br = executing)
    (hmoved : ∀ x block, Event.transferred x block ∈ evs → x < u.count ∧ Event.done x ∉ tr)
    (hdone : ∀ x, Event.done x ∈ evs → x < u.count ∧
      blocks x (tr ++ evs) = List.range (u.request x).num_block_) : DriverInv (tr ++ evs) u := by
  refine ⟨hphase, ?_, ?_, ?_⟩
  · intro br executing he
    obtain he | he := List.mem_append.mp he
    · exact h.attributed br executing he
    · exact hirq br executing he
  · intro x he
    obtain he | he := List.mem_append.mp he
    · obtain ⟨hlt, hblocks⟩ := h.once x he
      have hnone : blocks x evs = [] := blocks_eq_nil fun block hmem => (hmoved x block hmem).2 he
      rw [blocks_append, hnone, List.append_nil, hnum x hlt]
      exact ⟨hlt.trans_le hcount, hblocks⟩
    · exact hdone x he
  · intro x block he
    obtain he | he := List.mem_append.mp he
    · exact (h.counted x block he).trans_le hcount
    · exact (hmoved x block he).1

/-! ### `addRequest` -/

/-- A start that does not fail: the events, and what the call leaves. -/
theorem addRequest_starts (hlist : s.request_list_ = none)
    (hstart : cmd_ = .BD_READ ∧ (∀ i < 2, timeout i = false) ∨ cmd_ = .BD_WRITE ∧ ∀ i < 5, timeout i = false) :
    s.addRequest cmd_ num_block_ thread timeout = .ok ({ s with
      request := update s.request s.count ⟨cmd_, num_block_, .BD_QUEUED, 0, none⟩
      count := s.count + 1
      request_list_ := some s.count
      request_list_tail_ := some s.count
      executing := some s.count
      lock_ := if thread then some s.count else none },
      (if cmd_ = .BD_WRITE then [.transferred s.count 0] else []) ++ [.accepted s.count]) := by
  obtain ⟨rfl, htimeout⟩ | ⟨rfl, htimeout⟩ := hstart
  · have h0 := htimeout 0 (by decide)
    have h1 := htimeout 1 (by decide)
    simp [ATADriver.addRequest, ATADriver.link, hlist, ATADriver.start, ATADriver.readSector, h0, h1]
  · have h0 := htimeout 0 (by decide)
    have h1 := htimeout 1 (by decide)
    have h2 := htimeout 2 (by decide)
    have h3 := htimeout 3 (by decide)
    have h4 := htimeout 4 (by decide)
    simp [ATADriver.addRequest, ATADriver.link, hlist, ATADriver.start, ATADriver.writeSector, h0, h1, h2, h3, h4]

/-- The events of a start. -/
def startEvents (cmd_ : Cmd) (br : ℕ) : List Event :=
  (if cmd_ = .BD_WRITE then [.transferred br 0] else []) ++ [.accepted br]

theorem mem_startEvents {e : Event} (h : e ∈ startEvents cmd_ br) : e = .transferred br 0 ∨ e = .accepted br := by
  unfold startEvents at h
  obtain h | h := List.mem_append.mp h
  · left
    split at h
    · exact List.mem_singleton.mp h
    · cases h
  · right
    exact List.mem_singleton.mp h

theorem pendingFrom_startEvents (brs : List ℕ) (cmd_ : Cmd) (br : ℕ) :
    pendingFrom brs (startEvents cmd_ br) = brs ++ [br] := by
  cases cmd_ <;> rfl

theorem blocks_startEvents (cmd_ : Cmd) (br : ℕ) :
    blocks br (startEvents cmd_ br) = if cmd_ = .BD_WRITE then [0] else [] := by
  cases cmd_ <;> simp [startEvents, blocks, List.filterMap_cons, blockOf]

theorem DriverInv.addRequest (h : DriverInv tr s) (hserial : Serial s (.addRequest cmd_ num_block_ thread timeout))
    (hstarts : Starts s (.addRequest cmd_ num_block_ thread timeout)) :
    ∃ u, s.addRequest cmd_ num_block_ thread timeout = .ok (u, startEvents cmd_ s.count) ∧
      DriverInv (tr ++ startEvents cmd_ s.count) u := by
  obtain ⟨hlist, hpos, hstart⟩ := hstarts
  have hidle := h.idle hlist
  have hnew : ∀ block, Event.transferred s.count block ∉ tr := fun block he =>
    absurd (h.counted _ _ he) (lt_irrefl _)
  refine ⟨_, addRequest_starts hlist hstart, h.extend ?_ ?_ ?_ ?_ ?_ ?_⟩
  · right
    refine ⟨s.count, rfl, ?_, rfl, ?_, Nat.lt_succ_self _, ?_, ?_, ?_, ?_⟩
    · dsimp only
      rw [update_self]
    · rw [pending, pendingFrom_append, pendingFrom_startEvents]
      exact congrArg (· ++ [s.count]) hidle.pending
    · intro he
      obtain he | he := List.mem_append.mp he
      · exact absurd (h.once _ he).1 (lt_irrefl _)
      · obtain he | he := mem_startEvents he <;> cases he
    · dsimp only
      rw [update_self]
      exact hpos
    · dsimp only
      rw [update_self]
      exact hserial.2
    · dsimp only
      rw [update_self, blocks_append, blocks_eq_nil hnew, blocks_startEvents]
      obtain ⟨rfl, -⟩ | ⟨rfl, -⟩ := hstart
      · exact .inl ⟨rfl, rfl⟩
      · exact .inr ⟨rfl, rfl⟩
  · exact Nat.le_succ _
  · intro x hlt
    dsimp only
    rw [update_of_ne hlt.ne]
  · intro x executing he
    obtain he | he := mem_startEvents he <;> cases he
  · intro x block he
    obtain he | he := mem_startEvents he
    · cases he
      exact ⟨Nat.lt_succ_self _, fun hdone => absurd (h.once _ hdone).1 (lt_irrefl _)⟩
    · cases he
  · intro x he
    obtain he | he := mem_startEvents he <;> cases he

/-! ### `serviceIRQ` -/

/-- What an interrupt does to the request that is executed. -/
inductive Served (s : ATADriver) (br : ℕ) : ATADriver → List Event → Prop
  | moves (block bdone : ℕ) (hless : bdone < (s.request br).num_block_)
    (hbdone : bdone = (s.request br).blocks_done_ + 1)
    (hblock : (s.request br).cmd_ = .BD_READ ∧ block = (s.request br).blocks_done_ ∨
      (s.request br).cmd_ = .BD_WRITE ∧ block = (s.request br).blocks_done_ + 1) :
    Served s br (s.setBlocksDone br bdone) [.irq (some br) s.executing, .transferred br block]
  | ends (evs : List Event) (request : ℕ → BDRequest)
    (hrequest : ∀ x, (request x).num_block_ = (s.request x).num_block_)
    (hevs : evs = [.failed br] ∨
      (s.request br).num_block_ = (s.request br).blocks_done_ + 1 ∧
        ((s.request br).cmd_ = .BD_READ ∧ evs = [.transferred br (s.request br).blocks_done_, .done br] ∨
          (s.request br).cmd_ = .BD_WRITE ∧ evs = [.done br])) :
    Served s br { s with request := request, request_list_ := none, executing := none }
      (.irq (some br) s.executing :: evs)

theorem nextRequest_last (h : (s.request br).next_request_ = none) :
    s.nextRequest br = { s with request_list_ := none } := by
  rw [ATADriver.nextRequest, h]

theorem setStatus_same (s : ATADriver) (br x : ℕ) (status_ : Status) :
    ((s.setStatus br status_).request x).num_block_ = (s.request x).num_block_ ∧
      ((s.setStatus br status_).request x).next_request_ = (s.request x).next_request_ := by
  unfold ATADriver.setStatus
  dsimp only
  by_cases hx : x = br
  · subst hx
    rw [update_self]
    exact ⟨rfl, rfl⟩
  · rw [update_of_ne hx]
    exact ⟨rfl, rfl⟩

theorem setBlocksDone_same (s : ATADriver) (br bdone x : ℕ) :
    ((s.setBlocksDone br bdone).request x).num_block_ = (s.request x).num_block_ ∧
      ((s.setBlocksDone br bdone).request x).next_request_ = (s.request x).next_request_ ∧
      ((s.setBlocksDone br bdone).request x).cmd_ = (s.request x).cmd_ ∧
      ((s.setBlocksDone br bdone).request x).status_ = (s.request x).status_ := by
  unfold ATADriver.setBlocksDone
  dsimp only
  by_cases hx : x = br
  · subst hx
    rw [update_self]
    exact ⟨rfl, rfl, rfl, rfl⟩
  · rw [update_of_ne hx]
    exact ⟨rfl, rfl, rfl, rfl⟩

theorem serviceIRQ_served (h : Busy br tr s) (timeout : Bool) :
    Served s br (s.serviceIRQ timeout).1 (s.serviceIRQ timeout).2 := by
  have hless := h.less
  have hmod : ((s.request br).blocks_done_ + 1) % 2 ^ 32 = (s.request br).blocks_done_ + 1 := by
    have hfits := h.fits
    exact Nat.mod_eq_of_lt (by omega)
  have hfailed : (s.reset.setStatus br .BD_ERROR).nextRequest br =
      { s with request := (s.setStatus br .BD_ERROR).request, request_list_ := none, executing := none } :=
    nextRequest_last ((setStatus_same s.reset br br .BD_ERROR).2.trans h.last)
  have hdone : ∀ v : ATADriver, v.executing = some br → (v.request br).next_request_ = none →
      ((v.carriedOut br).setStatus br .BD_DONE).nextRequest br =
        { v with request := (v.setStatus br .BD_DONE).request, request_list_ := none, executing := none } := by
    intro v hexecuting hlast
    rw [ATADriver.carriedOut, if_pos hexecuting]
    exact nextRequest_last ((setStatus_same { v with executing := none } br br .BD_DONE).2.trans hlast)
  rw [ATADriver.serviceIRQ, h.list]
  dsimp only
  obtain ⟨hcmd, -⟩ | ⟨hcmd, -⟩ := h.moved
  · rw [hcmd]
    dsimp only
    cases timeout with
    | true =>
      rw [if_pos rfl, hfailed]
      exact .ends _ _ (fun x => (setStatus_same s br x _).1) (.inl rfl)
    | false =>
      rw [if_neg Bool.false_ne_true, hmod]
      by_cases hend : (s.request br).blocks_done_ + 1 = (s.request br).num_block_
      · have hnum := (setBlocksDone_same s br ((s.request br).blocks_done_ + 1) br).1
        rw [hnum, if_pos hend, hdone (s.setBlocksDone br _) h.executing
          ((setBlocksDone_same s br _ br).2.1.trans h.last)]
        refine .ends _ _ ?_ (.inr ⟨hend.symm, .inl ⟨hcmd, rfl⟩⟩)
        intro x
        exact (setStatus_same _ br x _).1.trans (setBlocksDone_same s br _ x).1
      · have hnum := (setBlocksDone_same s br ((s.request br).blocks_done_ + 1) br).1
        rw [hnum, if_neg hend]
        exact .moves _ _ (by omega) rfl (.inl ⟨hcmd, rfl⟩)
  · rw [hcmd]
    dsimp only
    rw [hmod]
    by_cases hend : (s.request br).blocks_done_ + 1 = (s.request br).num_block_
    · rw [if_pos hend, hdone s h.executing h.last]
      exact .ends _ _ (fun x => (setStatus_same s br x _).1) (.inr ⟨hend.symm, .inr ⟨hcmd, rfl⟩⟩)
    · rw [if_neg hend]
      cases timeout with
      | true =>
        rw [if_pos rfl, hfailed]
        exact .ends _ _ (fun x => (setStatus_same s br x _).1) (.inl rfl)
      | false =>
        rw [if_neg Bool.false_ne_true]
        exact .moves _ _ (by omega) rfl (.inr ⟨hcmd, rfl⟩)

/-- The events of an interrupt are about the request that is executed. -/
theorem Served.about (h : Served s br u evs) {e : Event} (he : e ∈ evs) :
    e = .irq (some br) s.executing ∨ (∃ block, e = .transferred br block) ∨ e = .failed br ∨ e = .done br := by
  cases h with
  | moves block bdone hless hbdone hblock =>
    simp only [List.mem_cons, List.not_mem_nil, or_false] at he
    obtain rfl | rfl := he
    · exact .inl rfl
    · exact .inr (.inl ⟨block, rfl⟩)
  | ends evs request hrequest hevs =>
    obtain rfl | he := List.mem_cons.mp he
    · exact .inl rfl
    · right
      obtain rfl | ⟨-, ⟨-, rfl⟩ | ⟨-, rfl⟩⟩ := hevs
      · exact .inr (.inl (List.mem_singleton.mp he))
      · obtain rfl | he := List.mem_cons.mp he
        · exact .inl ⟨_, rfl⟩
        · exact .inr (.inr (List.mem_singleton.mp he))
      · exact .inr (.inr (List.mem_singleton.mp he))

theorem Served.keeps (h : Served s br u evs) : u.count = s.count ∧
    ∀ x, (u.request x).num_block_ = (s.request x).num_block_ := by
  cases h with
  | moves block bdone hless hbdone hblock => exact ⟨rfl, fun x => (setBlocksDone_same s br bdone x).1⟩
  | ends evs request hrequest hevs => exact ⟨rfl, hrequest⟩

/-- Where the request ends, each of its blocks has been transferred once. -/
theorem Served.once (h : Served s br u evs) (hbusy : Busy br tr s) (hdone : Event.done br ∈ evs) :
    blocks br (tr ++ evs) = List.range (s.request br).num_block_ := by
  rw [blocks_append]
  cases h with
  | moves block bdone hless hbdone hblock => simp at hdone
  | ends evs request hrequest hevs =>
    obtain rfl | ⟨hnum, ⟨hcmd, rfl⟩ | ⟨hcmd, rfl⟩⟩ := hevs
    · simp at hdone
    · obtain ⟨-, hblocks⟩ | ⟨hcmd', -⟩ := hbusy.moved
      · rw [hblocks, hnum, List.range_succ]
        simp [blocks, List.filterMap_cons, blockOf]
      · rw [hcmd] at hcmd'
        cases hcmd'
    · obtain ⟨hcmd', -⟩ | ⟨-, hblocks⟩ := hbusy.moved
      · rw [hcmd] at hcmd'
        cases hcmd'
      · rw [hblocks, hnum]
        simp [blocks, List.filterMap_cons, blockOf]

theorem Served.phase (h : Served s br u evs) (hbusy : Busy br tr s) :
    Idle (tr ++ evs) u ∨ ∃ br, Busy br (tr ++ evs) u := by
  have hpending : ∀ evs, pending (tr ++ evs) = pendingFrom [br] evs := by
    intro evs
    rw [pending, pendingFrom_append]
    exact congrArg (pendingFrom · evs) hbusy.pending
  cases h with
  | moves block bdone hless hbdone hblock =>
    right
    obtain ⟨hnum, hnext, hcmd, -⟩ := setBlocksDone_same s br bdone br
    have hbd : ((s.setBlocksDone br bdone).request br).blocks_done_ = bdone := by
      rw [ATADriver.setBlocksDone]
      dsimp only
      rw [update_self]
    refine ⟨br, hbusy.list, hnext.trans hbusy.last, hbusy.executing, hpending _, hbusy.counted, ?_, ?_, ?_, ?_⟩
    · intro he
      obtain he | he := List.mem_append.mp he
      · exact hbusy.undone he
      · simp at he
    · rw [hbd, hnum]
      exact hless
    · rw [hnum]
      exact hbusy.fits
    · have hone : blocks br [.irq (some br) s.executing, .transferred br block] = [block] := by
        simp [blocks, List.filterMap_cons, blockOf]
      rw [hbd, hcmd, blocks_append, hone, hbdone]
      obtain ⟨hread, hblocks⟩ | ⟨hwrite, hblocks⟩ := hbusy.moved
      · obtain ⟨-, rfl⟩ | ⟨hwrite, -⟩ := hblock
        · left
          rw [hblocks, List.range_succ]
          exact ⟨hread, rfl⟩
        · rw [hread] at hwrite
          cases hwrite
      · obtain ⟨hread, -⟩ | ⟨-, rfl⟩ := hblock
        · rw [hwrite] at hread
          cases hread
        · right
          rw [hblocks]
          exact ⟨hwrite, List.range_succ.symm⟩
  | ends evs request hrequest hevs =>
    left
    refine ⟨rfl, rfl, ?_⟩
    rw [hpending]
    obtain rfl | ⟨-, ⟨-, rfl⟩ | ⟨-, rfl⟩⟩ := hevs <;> simp [pendingFrom]

theorem DriverInv.serviceIRQ (h : DriverInv tr s) (timeout : Bool) :
    DriverInv (tr ++ (s.serviceIRQ timeout).2) (s.serviceIRQ timeout).1 := by
  obtain hidle | ⟨br, hbusy⟩ := h.phase
  · have hserve : s.serviceIRQ timeout = (s.reset, [.irq none none]) := by
      rw [ATADriver.serviceIRQ, hidle.list, hidle.executing]
    rw [hserve]
    refine h.extend (.inl ⟨hidle.list, rfl, ?_⟩) le_rfl (fun _ _ => rfl) ?_ ?_ ?_
    · rw [pending, pendingFrom_append]
      exact hidle.pending
    · intro br executing he
      cases List.mem_singleton.mp he
      rfl
    · intro x block he
      cases List.mem_singleton.mp he
    · intro x he
      cases List.mem_singleton.mp he
  · have hserved := serviceIRQ_served hbusy timeout
    obtain ⟨hcount, hnum⟩ := hserved.keeps
    refine h.extend (hserved.phase hbusy) hcount.ge (fun x _ => hnum x) ?_ ?_ ?_
    · intro x executing he
      obtain heq | ⟨_, heq⟩ | heq | heq := hserved.about he <;> cases heq
      exact hbusy.executing.symm
    · intro x block he
      obtain heq | ⟨_, heq⟩ | heq | heq := hserved.about he <;> cases heq
      exact ⟨hcount ▸ hbusy.counted, hbusy.undone⟩
    · intro x he
      obtain heq | ⟨_, heq⟩ | heq | heq := hserved.about he <;> cases heq
      rw [hcount, hnum]
      exact ⟨hbusy.counted, hserved.once hbusy he⟩

/-! ### Runs -/

theorem addRequestReturns_ok (h : s.addRequestReturns = .ok u) : u = { s with lock_ := none } := by
  rw [ATADriver.addRequestReturns] at h
  split at h
  · cases h
  · split at h
    · cases h
    · exact (Except.ok.inj h).symm

theorem driverInv_run (hrun : Runs step (fun s c => Serial s c ∧ Starts s c) created tr s) : DriverInv tr s := by
  refine hrun.invariant driverInv_created ?_
  intro tr s c u evs h hok hs
  obtain ⟨hserial, hstarts⟩ := hok
  cases c with
  | addRequest cmd_ num_block_ thread timeout =>
    obtain ⟨v, hadd, hinv⟩ := h.addRequest hserial hstarts
    obtain ⟨rfl, rfl⟩ := Prod.mk.inj (Except.ok.inj (hadd.symm.trans hs))
    exact hinv
  | addRequestReturns =>
    simp only [step] at hs
    cases hret : s.addRequestReturns with
    | error e =>
      rw [hret] at hs
      cases hs
    | ok v =>
      rw [hret, addRequestReturns_ok hret] at hs
      cases hs
      rw [List.append_nil]
      refine ⟨h.phase.imp ?_ ?_, h.attributed, h.once, h.counted⟩
      · rintro ⟨hlist, hexecuting, hpending⟩
        exact ⟨hlist, hexecuting, hpending⟩
      · rintro ⟨br, hbusy⟩
        exact ⟨br, hbusy.list, hbusy.last, hbusy.executing, hbusy.pending, hbusy.counted, hbusy.undone, hbusy.less,
          hbusy.fits, hbusy.moved⟩
  | serviceIRQ timeout =>
    have hserve : s.serviceIRQ timeout = (u, evs) := Except.ok.inj hs
    have hinv := h.serviceIRQ timeout
    rw [hserve] at hinv
    exact hinv

/-- The call is made by a thread, and its start does not fail. -/
def StartsFromThread (s : ATADriver) : Call → Prop
  | .addRequest cmd_ num_block_ thread timeout => thread = true ∧ 0 < num_block_ ∧
    (cmd_ = .BD_READ ∧ (∀ i < 2, timeout i = false) ∨ cmd_ = .BD_WRITE ∧ ∀ i < 5, timeout i = false)
  | .addRequestReturns => True
  | .serviceIRQ _ => True

/-- The thread whose request is in the list has the lock, and waits. -/
def Waits (s : ATADriver) : Prop :=
  ∀ br, s.request_list_ = some br → s.lock_ = some br ∧ (s.request br).status_ = .BD_QUEUED

theorem Waits.starts (h : Waits s) (hserial : Serial s c) (hstarts : StartsFromThread s c) : Starts s c := by
  cases c with
  | addRequest cmd_ num_block_ thread timeout =>
    refine ⟨?_, hstarts.2⟩
    cases hlist : s.request_list_ with
    | none => rfl
    | some br =>
      have hlock := (h br hlist).1
      rw [hserial.1] at hlock
      cases hlock
  | addRequestReturns => trivial
  | serviceIRQ timeout => trivial

theorem Waits.step (h : Waits s) (hinv : DriverInv tr s) (hserial : Serial s c) (hthread : StartsFromThread s c)
    (hs : ATA.step s c = .ok (u, evs)) : Waits u := by
  cases c with
  | addRequest cmd_ num_block_ thread timeout =>
    obtain ⟨hlist, -, hstart⟩ := h.starts hserial hthread
    have hadd : s.addRequest cmd_ num_block_ thread timeout = .ok _ := addRequest_starts hlist hstart
    obtain ⟨rfl, -⟩ := Prod.mk.inj (Except.ok.inj (hadd.symm.trans hs))
    intro br hbr
    obtain rfl := Option.some.inj hbr
    dsimp only
    rw [hthread.1, update_self]
    exact ⟨rfl, rfl⟩
  | addRequestReturns =>
    simp only [ATA.step] at hs
    cases hret : s.addRequestReturns with
    | error e =>
      rw [hret] at hs
      cases hs
    | ok v =>
      intro br hbr
      rw [hret, addRequestReturns_ok hret] at hs
      cases hs
      obtain ⟨hlock, hqueued⟩ := h br hbr
      rw [ATADriver.addRequestReturns, hlock] at hret
      dsimp only at hret
      rw [if_pos hqueued] at hret
      cases hret
  | serviceIRQ timeout =>
    have hserve : s.serviceIRQ timeout = (u, evs) := Except.ok.inj hs
    obtain hidle | ⟨br, hbusy⟩ := hinv.phase
    · rw [ATADriver.serviceIRQ, hidle.list] at hserve
      obtain ⟨rfl, -⟩ := Prod.mk.inj hserve
      exact h
    · have hserved := serviceIRQ_served hbusy timeout
      rw [hserve] at hserved
      cases hserved with
      | moves block bdone hless hbdone hblock =>
        intro x hx
        obtain ⟨hlock, hqueued⟩ := h x hx
        exact ⟨hlock, (setBlocksDone_same s br bdone x).2.2.2.trans hqueued⟩
      | ends evs request hrequest hevs =>
        intro x hx
        cases hx

/-- Threads find the list empty, since the lock is held until the request is not queued any more. -/
theorem runs_of_threads (hrun : Runs step (fun s c => Serial s c ∧ StartsFromThread s c) created tr s) :
    Runs step (fun s c => Serial s c ∧ Starts s c) created tr s ∧ Waits s := by
  induction hrun with
  | start => exact ⟨.start, fun br hbr => by cases hbr⟩
  | next _ hok hs ih =>
    obtain ⟨hserial, hthread⟩ := hok
    have hstarts := ih.2.starts hserial hthread
    exact ⟨.next ih.1 ⟨hserial, hstarts⟩ hs, ih.2.step (driverInv_run ih.1) hserial hthread hs⟩

/-! ### Starts that fail -/

/-- A read, a write of two blocks, and interrupts between them. -/
def readThenWrite : List Call :=
  [.addRequest .BD_READ 1 true fun _ => false, .serviceIRQ false, .addRequestReturns,
    .addRequest .BD_WRITE 2 true fun _ => false, .serviceIRQ false, .serviceIRQ false]

/-- The start of a read fails, and another read of the same length is started. -/
def failedThenRead : List Call :=
  [.addRequest .BD_READ 1 true fun i => i = 0, .addRequest .BD_READ 1 true fun _ => false, .serviceIRQ false]

end KPanic.ATA

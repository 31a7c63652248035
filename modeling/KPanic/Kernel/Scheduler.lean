import Mathlib.Data.List.Rotate
import KPanic.Lib.Machine

/-!
# `common/source/kernel/Scheduler.cpp`

`schedule` takes the first thread of the list that is ready, and turns the list so that the threads
behind it come next. A call of `schedule` returns at once while another function has blocked it, so
the other functions are single steps.
-/

namespace KPanic.Scheduling

open Function
open Machine

inductive ThreadState
  | Running
  | Sleeping
  | ToBeDestroyed
  deriving DecidableEq

/-- A `Thread`, or a `UserThread` with what that adds. -/
structure Thread where
  isUser : Bool
  state_ : ThreadState
  switch_to_userspace_ : Bool
  time_to_wakeup_ : ℕ
  cancel_req_ : Bool
  cancelable_ : Bool
  /-- `kernel_registers_->rip` is the address of `internalThreadCancel`. -/
  cancelling : Bool
  deriving DecidableEq

namespace Thread

def schedulable (T : Thread) : Bool := T.state_ = .Running

def shouldCancel (T : Thread) : Bool := T.cancelable_ && T.cancel_req_

def setCancelled (T : Thread) : Thread := { T with cancelable_ := false }

def prepareCancellation (T : Thread) : Thread := { T with cancelling := true, switch_to_userspace_ := false }

def resetWakeUp (T : Thread) : Thread := { T with time_to_wakeup_ := 0 }

end Thread

structure Scheduler where
  threads_ : List ℕ
  thread : ℕ → Thread
  currentThread : Option ℕ
  block_scheduling_ : Bool

inductive Panic
  | noSchedulableThread
  | schedulingBlocked
  deriving DecidableEq

namespace Scheduler

/-! ### `schedule` -/

/-- `resetWakeUp`, for a user thread that need not wait any longer. -/
def wakeUp (time : ℕ) (T : Thread) : Thread :=
  if T.isUser ∧ T.time_to_wakeup_ ≠ 0 ∧ T.time_to_wakeup_ ≤ time then T.resetWakeUp else T

/-- The loop of `schedule`: how many threads it passes over, if it finds one. `clock i` is what
`getCurrentTime` returns at reading `i`. -/
def scan (clock : ℕ → ℕ) : ℕ → List ℕ → (ℕ → Thread) → Option ℕ × (ℕ → Thread)
  | _, [], thread => (none, thread)
  | i, t :: ts, thread =>
    let T := thread t
    if T.isUser ∧ T.time_to_wakeup_ ≠ 0 ∧ T.time_to_wakeup_ > clock i then
      let r := scan clock (i + 1) ts thread
      (r.1.map (· + 1), r.2)
    else
      let T := wakeUp (clock (i + 1)) T
      if T.schedulable then (some 0, update thread t T)
      else
        let r := scan clock (i + 2) ts (update thread t T)
        (r.1.map (· + 1), r.2)

/-- A thread in user mode can be cancelled when it is selected. -/
def cancelsHere (T : Thread) : Bool := T.isUser && T.shouldCancel && T.switch_to_userspace_

inductive Event
  | scheduled (t : ℕ)
  | cancelled (t : ℕ)
  | added (t : ℕ)
  | destroyed (ts : List ℕ)
  deriving DecidableEq

def schedule (s : Scheduler) (clock : ℕ → ℕ) : Except Panic (Scheduler × List Event) :=
  if s.block_scheduling_ then .ok (s, [])
  else
    match scan clock 0 s.threads_ s.thread with
    | (none, _) => .error .noSchedulableThread
    | (some k, thread) =>
      let t := s.threads_.getD k 0
      let T := thread t
      .ok ({ s with
        threads_ := s.threads_.rotate (k + 1)
        thread := update thread t (if cancelsHere T then T.setCancelled.prepareCancellation else T)
        currentThread := some t },
        .scheduled t :: if cancelsHere T then [.cancelled t] else [])

/-! ### The list of threads -/

def lockScheduling (s : Scheduler) : Except Panic Scheduler :=
  if s.block_scheduling_ then .error .schedulingBlocked else .ok { s with block_scheduling_ := true }

def unlockScheduling (s : Scheduler) : Scheduler := { s with block_scheduling_ := false }

def addNewThread (s : Scheduler) (t : ℕ) : Except Panic (Scheduler × List Event) := do
  let s ← s.lockScheduling
  return ({ s with threads_ := s.threads_ ++ [t] }.unlockScheduling, [.added t])

/-- The loop of `cleanupDeadThreads`: the threads to destroy, at most `n`, and the other ones. -/
def collect (thread : ℕ → Thread) : ℕ → List ℕ → List ℕ × List ℕ
  | _, [] => ([], [])
  | n, t :: ts =>
    if (thread t).state_ = .ToBeDestroyed then
      if n ≤ 1 then ([t], ts)
      else
        let r := collect thread (n - 1) ts
        (t :: r.1, r.2)
    else if n = 0 then ([], t :: ts)
    else
      let r := collect thread n ts
      (r.1, t :: r.2)

def cleanupDeadThreads (s : Scheduler) : Except Panic (Scheduler × List Event) := do
  let s ← s.lockScheduling
  let r := collect s.thread (min s.threads_.length 1024) s.threads_
  return ({ s with threads_ := r.2 }.unlockScheduling, [.destroyed r.1])

end Scheduler

/-! ### Runs -/

inductive Call
  | schedule (clock : ℕ → ℕ)
  | addNewThread (t : ℕ)
  | cleanupDeadThreads
  | lockScheduling
  | unlockScheduling
  /-- Between the calls the threads change their states. -/
  | threadsRun (thread : ℕ → Thread)

open Scheduler

def step (s : Scheduler) : Call → Except Panic (Scheduler × List Event)
  | .schedule clock => s.schedule clock
  | .addNewThread t => s.addNewThread t
  | .cleanupDeadThreads => s.cleanupDeadThreads
  | .lockScheduling => s.lockScheduling.map fun s => (s, [])
  | .unlockScheduling => .ok (s.unlockScheduling, [])
  | .threadsRun thread => .ok ({ s with thread := thread }, [])

/-! ### One call of `schedule` -/

variable {s s₀ u : Scheduler} {clock : ℕ → ℕ} {thread : ℕ → Thread} {T T' : Thread} {t : ℕ} {tr evs : List Event}

/-- The thread can be selected, whatever the time is. -/
def Ready (T : Thread) : Prop := T.state_ = .Running ∧ (T.isUser = true → T.time_to_wakeup_ = 0)

instance (T : Thread) : Decidable (Ready T) := inferInstanceAs (Decidable (_ ∧ _))

/-- The thread is schedulable, and it is not to be woken up later. -/
def Eligible (clock : ℕ → ℕ) (T : Thread) : Prop :=
  T.state_ = .Running ∧ (T.isUser = true → T.time_to_wakeup_ = 0 ∨ ∃ i, T.time_to_wakeup_ ≤ clock i)

/-- What the loop does to a thread that it looks at. -/
def Aged (clock : ℕ → ℕ) (T T' : Thread) : Prop := T' = T ∨ T' = T.resetWakeUp ∧ ∃ i, T.time_to_wakeup_ ≤ clock i

theorem Aged.ready (h : Aged clock T T') (hT : Ready T) : Ready T' := by
  obtain rfl | ⟨rfl, -⟩ := h
  · exact hT
  · exact ⟨hT.1, fun _ => rfl⟩

theorem Aged.eligible (h : Aged clock T T') (hT' : Eligible clock T') : Eligible clock T := by
  obtain rfl | ⟨rfl, hclock⟩ := h
  · exact hT'
  · exact ⟨hT'.1, fun _ => .inr hclock⟩

theorem Aged.update (h : Aged clock (thread t) T) (x : ℕ) : Aged clock (thread x) (update thread t T x) := by
  by_cases hx : x = t
  · rw [hx, update_self]
    exact h
  · rw [update_of_ne hx]
    exact .inl rfl

theorem aged_wakeUp (i : ℕ) (T : Thread) : Aged clock T (wakeUp (clock i) T) := by
  unfold wakeUp
  split
  · rename_i hreset
    exact .inr ⟨rfl, i, hreset.2.2⟩
  · exact .inl rfl

theorem Aged.state (h : Aged clock T T') : T'.state_ = T.state_ := by
  obtain rfl | ⟨rfl, -⟩ := h
  · rfl
  · rfl

theorem Aged.trans {T'' : Thread} (h : Aged clock T T') (h' : Aged clock T' T'') : Aged clock T T'' := by
  obtain rfl | ⟨rfl, hlater⟩ := h'
  · exact h
  · obtain rfl | ⟨rfl, hclock⟩ := h
    · exact .inr ⟨rfl, hlater⟩
    · exact .inr ⟨rfl, hclock⟩

/-- The loop stops at the first ready thread at the latest. -/
def Found (clock : ℕ → ℕ) (thread : ℕ → Thread) (ts : List ℕ) : Option ℕ → Prop
  | none => ∀ t ∈ ts, ¬Ready (thread t)
  | some k => ∃ pre t post, ts = pre ++ t :: post ∧ pre.length = k ∧ Eligible clock (thread t) ∧
    ∀ x ∈ pre, ¬Ready (thread x)

theorem Found.skip {ts : List ℕ} {r : Option ℕ} {thread' : ℕ → Thread} (h : Found clock thread' ts r)
    (hage : ∀ x, Aged clock (thread x) (thread' x)) (ht : ¬Ready (thread t)) :
    Found clock thread (t :: ts) (r.map (· + 1)) := by
  cases r with
  | none =>
    intro x hx
    obtain rfl | hx := List.mem_cons.mp hx
    · exact ht
    · exact fun hready => h x hx ((hage x).ready hready)
  | some k =>
    obtain ⟨pre, y, post, rfl, hlen, hy, hpre⟩ := h
    refine ⟨t :: pre, y, post, rfl, congrArg (· + 1) hlen, (hage y).eligible hy, fun x hx => ?_⟩
    obtain rfl | hx := List.mem_cons.mp hx
    · exact ht
    · exact fun hready => hpre x hx ((hage x).ready hready)

theorem scan_found (clock : ℕ → ℕ) (i : ℕ) (ts : List ℕ) (thread : ℕ → Thread) :
    Found clock thread ts (scan clock i ts thread).1 := by
  induction ts generalizing i thread with
  | nil => exact fun t ht => by cases ht
  | cons t ts ih =>
    rw [scan]
    dsimp only
    by_cases hwait : (thread t).isUser ∧ (thread t).time_to_wakeup_ ≠ 0 ∧ (thread t).time_to_wakeup_ > clock i
    · rw [if_pos hwait]
      exact (ih (i + 1) thread).skip (fun _ => .inl rfl) fun hready => hwait.2.1 (hready.2 hwait.1)
    · rw [if_neg hwait]
      have hage : Aged clock (thread t) (wakeUp (clock (i + 1)) (thread t)) := aged_wakeUp (i + 1) _
      by_cases hrun : (thread t).state_ = .Running
      · have hselect : (wakeUp (clock (i + 1)) (thread t)).schedulable = true := decide_eq_true (hage.state.trans hrun)
        rw [if_pos hselect]
        refine ⟨[], t, ts, rfl, rfl, ⟨hrun, fun huser => ?_⟩, fun x hx => by cases hx⟩
        by_cases hzero : (thread t).time_to_wakeup_ = 0
        · exact .inl hzero
        · exact .inr ⟨i, Nat.not_lt.mp fun hlater => hwait ⟨huser, hzero, hlater⟩⟩
      · have hpass : ¬(wakeUp (clock (i + 1)) (thread t)).schedulable = true :=
          fun h => hrun (hage.state.symm.trans (of_decide_eq_true h))
        rw [if_neg hpass]
        exact (ih (i + 2) _).skip hage.update fun hready => hrun hready.1

theorem scan_aged (clock : ℕ → ℕ) (i : ℕ) (ts : List ℕ) (thread : ℕ → Thread) (x : ℕ) :
    Aged clock (thread x) ((scan clock i ts thread).2 x) := by
  induction ts generalizing i thread with
  | nil => exact .inl rfl
  | cons t ts ih =>
    rw [scan]
    dsimp only
    split
    · exact ih (i + 1) thread
    · have hage : Aged clock (thread t) (wakeUp (clock (i + 1)) (thread t)) := aged_wakeUp (i + 1) _
      split
      · exact hage.update x
      · exact (hage.update x).trans (ih (i + 2) _)

theorem rotate_past (pre post : List ℕ) (t : ℕ) :
    (pre ++ t :: post).rotate (pre.length + 1) = post ++ (pre ++ [t]) := by
  have hsplit : pre ++ t :: post = (pre ++ [t]) ++ post := by simp
  have hlen : pre.length + 1 = (pre ++ [t]).length := by simp
  rw [hsplit, hlen, List.rotate_append_length_eq]

/-- A call that is not blocked selects a thread that is eligible, and turns the list past it. -/
structure Selected (clock : ℕ → ℕ) (s : Scheduler) (t : ℕ) (u : Scheduler) (evs : List Event) : Prop where
  place : ∃ pre post, s.threads_ = pre ++ t :: post ∧ u.threads_ = post ++ (pre ++ [t]) ∧
    ∀ x ∈ pre, ¬Ready (s.thread x)
  eligible : Eligible clock (s.thread t)
  current : u.currentThread = some t
  /-- The thread is cancelled if it is in user mode and should be. -/
  effect : ∃ thread, (∀ x, Aged clock (s.thread x) (thread x)) ∧
    u.thread = update thread t (if cancelsHere (thread t) then (thread t).setCancelled.prepareCancellation else thread t) ∧
    evs = .scheduled t :: if cancelsHere (thread t) then [.cancelled t] else []

theorem Selected.events (h : Selected clock s t u evs) : evs = [.scheduled t] ∨ evs = [.scheduled t, .cancelled t] := by
  obtain ⟨thread, -, -, rfl⟩ := h.effect
  split
  · exact .inr rfl
  · exact .inl rfl

theorem schedule_cases (clock : ℕ → ℕ) (hfree : s.block_scheduling_ = false) :
    (∃ t u evs, s.schedule clock = .ok (u, evs) ∧ Selected clock s t u evs) ∨
      s.schedule clock = .error .noSchedulableThread ∧ ∀ t ∈ s.threads_, ¬Ready (s.thread t) := by
  have hfound := scan_found clock 0 s.threads_ s.thread
  rw [Scheduler.schedule, hfree, if_neg Bool.false_ne_true]
  cases hscan : scan clock 0 s.threads_ s.thread with
  | mk r thread =>
    rw [hscan] at hfound
    cases r with
    | none => exact .inr ⟨rfl, hfound⟩
    | some k =>
      obtain ⟨pre, t, post, hlist, rfl, helig, hpre⟩ := hfound
      have hat : s.threads_.getD pre.length 0 = t := by simp [hlist]
      dsimp only
      refine .inl ⟨t, _, _, rfl, ⟨pre, post, hlist, ?_, hpre⟩, helig, congrArg some hat, thread, fun x => ?_, ?_, ?_⟩
      · dsimp only
        rw [hlist, rotate_past]
      · have hage := scan_aged clock 0 s.threads_ s.thread x
        rw [hscan] at hage
        exact hage
      · rw [hat]
      · rw [hat]

/-! ### The threads in the list -/

/-- Whether a thread has been added and not been destroyed. -/
def live (t : ℕ) : Prop → List Event → Prop
  | b, [] => b
  | b, .added x :: tr => live t (b ∨ x = t) tr
  | b, .destroyed ts :: tr => live t (b ∧ t ∉ ts) tr
  | b, .scheduled _ :: tr => live t b tr
  | b, .cancelled _ :: tr => live t b tr

theorem live_append {b : Prop} : live t b (tr ++ evs) ↔ live t (live t b tr) evs := by
  induction tr generalizing b with
  | nil => rfl
  | cons e tr ih =>
    cases e with
    | scheduled x => exact ih
    | cancelled x => exact ih
    | added x => exact ih
    | destroyed ts => exact ih

/-- A thread is added that is not in the list. -/
def AddsNew (s : Scheduler) (c : Call) : Prop := ∀ t, c = .addNewThread t → t ∉ s.threads_

/-- The list has each live thread once. -/
structure ListOk (s₀ : Scheduler) (tr : List Event) (s : Scheduler) : Prop where
  once : s.threads_.Nodup
  mem : ∀ t, t ∈ s.threads_ ↔ live t (t ∈ s₀.threads_) tr

theorem collect_perm (thread : ℕ → Thread) (n : ℕ) (ts : List ℕ) :
    ((collect thread n ts).1 ++ (collect thread n ts).2).Perm ts := by
  induction ts generalizing n with
  | nil => exact .nil
  | cons t ts ih =>
    rw [collect]
    split
    · split
      · exact .refl _
      · exact (ih (n - 1)).cons t
    · split
      · exact .refl _
      · exact List.perm_middle.trans ((ih n).cons t)

/-- Only threads that have ended are destroyed. -/
theorem collect_dead {n : ℕ} {ts : List ℕ} (ht : t ∈ (collect thread n ts).1) : (thread t).state_ = .ToBeDestroyed := by
  induction ts generalizing n with
  | nil => cases ht
  | cons x ts ih =>
    rw [collect] at ht
    split at ht
    · rename_i hdead
      split at ht
      · obtain rfl := List.mem_singleton.mp ht
        exact hdead
      · obtain rfl | ht := List.mem_cons.mp ht
        · exact hdead
        · exact ih ht
    · split at ht
      · cases ht
      · exact ih ht

/-- A thread that is kept stays as far in front, at least. -/
theorem collect_take {m n : ℕ} {ts : List ℕ} (ht : t ∈ ts.take m) (hlive : (thread t).state_ ≠ .ToBeDestroyed) :
    t ∈ (collect thread n ts).2.take m := by
  induction ts generalizing m n with
  | nil => simp at ht
  | cons x ts ih =>
    cases m with
    | zero => cases ht
    | succ m =>
      rw [List.take_succ_cons] at ht
      rw [collect]
      split
      · rename_i hdead
        obtain rfl | ht := List.mem_cons.mp ht
        · exact absurd hdead hlive
        · split
          · exact List.take_subset_take_left ts (Nat.le_succ m) ht
          · exact List.take_subset_take_left _ (Nat.le_succ m) (ih ht)
      · split
        · exact ht
        · obtain rfl | ht := List.mem_cons.mp ht
          · exact List.mem_cons_self
          · exact List.mem_cons_of_mem _ (ih ht)

theorem lockScheduling_ok (h : s.lockScheduling = .ok u) : u = { s with block_scheduling_ := true } := by
  unfold Scheduler.lockScheduling at h
  split at h
  · cases h
  · exact (Except.ok.inj h).symm

theorem addNewThread_ok (h : s.addNewThread t = .ok (u, evs)) :
    u.threads_ = s.threads_ ++ [t] ∧ u.thread = s.thread ∧ evs = [.added t] := by
  unfold Scheduler.addNewThread at h
  cases hlock : s.lockScheduling with
  | error e =>
    rw [hlock] at h
    cases h
  | ok v =>
    rw [hlock, lockScheduling_ok hlock] at h
    cases h
    exact ⟨rfl, rfl, rfl⟩

theorem cleanupDeadThreads_ok (h : s.cleanupDeadThreads = .ok (u, evs)) :
    u.threads_ = (collect s.thread (min s.threads_.length 1024) s.threads_).2 ∧ u.thread = s.thread ∧
      evs = [.destroyed (collect s.thread (min s.threads_.length 1024) s.threads_).1] := by
  unfold Scheduler.cleanupDeadThreads at h
  cases hlock : s.lockScheduling with
  | error e =>
    rw [hlock] at h
    cases h
  | ok v =>
    rw [hlock, lockScheduling_ok hlock] at h
    cases h
    exact ⟨rfl, rfl, rfl⟩

theorem schedule_ok (h : s.schedule clock = .ok (u, evs)) :
    s.block_scheduling_ = true ∧ u = s ∧ evs = [] ∨
      s.block_scheduling_ = false ∧ ∃ t, Selected clock s t u evs := by
  cases hblock : s.block_scheduling_ with
  | true =>
    rw [Scheduler.schedule, hblock, if_pos rfl] at h
    cases h
    exact .inl ⟨rfl, rfl, rfl⟩
  | false =>
    obtain ⟨t, v, evs', hok, hsel⟩ | ⟨herr, -⟩ := schedule_cases clock hblock
    · rw [hok] at h
      cases h
      exact .inr ⟨rfl, t, hsel⟩
    · rw [herr] at h
      cases h

theorem Selected.perm (h : Selected clock s t u evs) : u.threads_.Perm s.threads_ := by
  obtain ⟨pre, post, hs, hu, -⟩ := h.place
  rw [hs, hu]
  exact List.perm_append_comm.trans (by simp)

theorem Selected.quiet (h : Selected clock s t u evs) {x : ℕ} {b : Prop} : live x b evs ↔ b := by
  obtain hevs | hevs := h.events
  · rw [hevs]
    rfl
  · rw [hevs]
    rfl

theorem ListOk.step (h : ListOk s₀ tr s) {c : Call} (hnew : AddsNew s c) (hs : step s c = .ok (u, evs)) :
    ListOk s₀ (tr ++ evs) u := by
  cases c with
  | schedule clock =>
    obtain ⟨-, rfl, rfl⟩ | ⟨-, t, hsel⟩ := schedule_ok hs
    · rw [List.append_nil]
      exact h
    · refine ⟨hsel.perm.nodup_iff.mpr h.once, fun x => ?_⟩
      rw [live_append, hsel.quiet, hsel.perm.mem_iff, h.mem]
  | addNewThread t =>
    obtain ⟨hu, -, rfl⟩ := addNewThread_ok hs
    have hfresh := hnew t rfl
    refine ⟨?_, fun x => ?_⟩
    · rw [hu]
      exact List.nodup_append.mpr ⟨h.once, List.nodup_singleton t, fun x hx y hy hxy => by
        rw [List.mem_singleton] at hy
        rw [hxy, hy] at hx
        exact hfresh hx⟩
    · rw [hu, live_append, List.mem_append, List.mem_singleton, h.mem, eq_comm]
      rfl
  | cleanupDeadThreads =>
    obtain ⟨hu, -, rfl⟩ := cleanupDeadThreads_ok hs
    have hperm := collect_perm s.thread (min s.threads_.length 1024) s.threads_
    have hnodup := hperm.nodup_iff.mpr h.once
    rw [List.nodup_append] at hnodup
    refine ⟨?_, fun x => ?_⟩
    · rw [hu]
      exact hnodup.2.1
    · have hmem := hperm.mem_iff (a := x)
      rw [List.mem_append] at hmem
      rw [hu, live_append]
      change _ ↔ _ ∧ _
      rw [← h.mem, ← hmem]
      constructor
      · exact fun hx => ⟨.inr hx, fun hx' => hnodup.2.2 x hx' x hx rfl⟩
      · exact fun hx => hx.1.resolve_left hx.2
  | lockScheduling =>
    unfold KPanic.Scheduling.step at hs
    cases hlock : s.lockScheduling with
    | error e =>
      rw [hlock] at hs
      cases hs
    | ok v =>
      rw [hlock, lockScheduling_ok hlock] at hs
      cases hs
      rw [List.append_nil]
      exact ⟨h.once, h.mem⟩
  | unlockScheduling =>
    cases hs
    rw [List.append_nil]
    exact ⟨h.once, h.mem⟩
  | threadsRun thread =>
    cases hs
    rw [List.append_nil]
    exact ⟨h.once, h.mem⟩

/-! ### A ready thread is selected -/

/-- The thread is ready when `schedule` or `cleanupDeadThreads` looks at it. -/
def StaysReady (t : ℕ) (s : Scheduler) : Call → Prop
  | .schedule _ => Ready (s.thread t)
  | .cleanupDeadThreads => Ready (s.thread t)
  | _ => True

instance (t : ℕ) (s : Scheduler) (c : Call) : Decidable (StaysReady t s c) :=
  match c with
  | .schedule _ => inferInstanceAs (Decidable (Ready _))
  | .cleanupDeadThreads => inferInstanceAs (Decidable (Ready _))
  | .addNewThread _ => isTrue trivial
  | .lockScheduling => isTrue trivial
  | .unlockScheduling => isTrue trivial
  | .threadsRun _ => isTrue trivial

def isScheduled : Event → Bool
  | .scheduled _ => true
  | _ => false

/-- The calls of `schedule` that were not blocked. -/
def selections (tr : List Event) : ℕ := tr.countP isScheduled

/-- After `k` of the `n` calls the thread has been selected, or is one of the first `n - k`. -/
def Advanced (t n : ℕ) (tr : List Event) (s : Scheduler) : Prop :=
  .scheduled t ∈ tr ∨ t ∈ s.threads_.take (n - selections tr)

theorem take_turned {m x : ℕ} {pre post : List ℕ} (hx : x ∈ (pre ++ t :: post).take (m + 1)) (hpre : x ∉ pre)
    (hne : x ≠ t) : x ∈ (post ++ (pre ++ [t])).take m := by
  rw [List.take_append, List.mem_append] at hx
  have hrest := hx.resolve_left fun h => hpre (List.mem_of_mem_take h)
  cases hj : m + 1 - pre.length with
  | zero =>
    rw [hj] at hrest
    cases hrest
  | succ j =>
    rw [hj, List.take_succ_cons] at hrest
    have hpost := (List.mem_cons.mp hrest).resolve_left hne
    rw [List.take_append, List.mem_append]
    exact .inl (List.take_subset_take_left post (by omega) hpost)

theorem Advanced.step {n : ℕ} (h : Advanced t n tr s) {c : Call} (hready : StaysReady t s c)
    (hs : step s c = .ok (u, evs)) : Advanced t n (tr ++ evs) u := by
  obtain hdone | hplace := h
  · exact .inl (List.mem_append_left _ hdone)
  · unfold Advanced selections
    rw [List.countP_append]
    cases c with
    | schedule clock =>
      obtain ⟨-, rfl, rfl⟩ | ⟨-, x, hsel⟩ := schedule_ok hs
      · exact .inr hplace
      · have hcount : evs.countP isScheduled = 1 ∧ .scheduled x ∈ evs := by
          obtain hevs | hevs := hsel.events
          · rw [hevs]
            exact ⟨rfl, List.mem_cons_self⟩
          · rw [hevs]
            exact ⟨rfl, List.mem_cons_self⟩
        by_cases hx : t = x
        · subst hx
          exact .inl (List.mem_append_right _ hcount.2)
        · obtain ⟨pre, post, hlist, hu, hpre⟩ := hsel.place
          right
          rw [hu, hcount.1]
          cases hm : n - selections tr with
          | zero =>
            rw [hm] at hplace
            cases hplace
          | succ m =>
            have hless : n - (tr.countP isScheduled + 1) = m := by
              unfold selections at hm
              omega
            rw [hless]
            rw [hm, hlist] at hplace
            exact take_turned hplace (fun hmem => hpre t hmem hready) hx
    | addNewThread x =>
      obtain ⟨hu, -, rfl⟩ := addNewThread_ok hs
      right
      rw [hu, List.take_append, List.mem_append]
      exact .inl hplace
    | cleanupDeadThreads =>
      obtain ⟨hu, -, rfl⟩ := cleanupDeadThreads_ok hs
      right
      rw [hu]
      refine collect_take hplace fun hdead => ?_
      rw [hready.1] at hdead
      cases hdead
    | lockScheduling =>
      unfold KPanic.Scheduling.step at hs
      cases hlock : s.lockScheduling with
      | error e =>
        rw [hlock] at hs
        cases hs
      | ok v =>
        rw [hlock, lockScheduling_ok hlock] at hs
        cases hs
        exact .inr hplace
    | unlockScheduling =>
      cases hs
      exact .inr hplace
    | threadsRun thread =>
      cases hs
      exact .inr hplace

theorem selected_in_time (hmem : t ∈ s.threads_) (hrun : Runs step (StaysReady t) s tr u)
    (hcalls : s.threads_.length ≤ selections tr) : .scheduled t ∈ tr := by
  have hadvanced : Advanced t s.threads_.length tr u := by
    refine hrun.invariant (I := Advanced t s.threads_.length) (.inr ?_) fun h hok hs => h.step hok hs
    rw [selections, List.countP_nil, Nat.sub_zero, List.take_length]
    exact hmem
  obtain hdone | hplace := hadvanced
  · exact hdone
  · rw [Nat.sub_eq_zero_of_le hcalls] at hplace
    cases hplace

/-- The list has each live thread once, `schedule` selects eligible threads only, and a thread that
stays ready is selected in one of as many calls as there are threads in the list. -/
theorem schedule_starves_none (hnodup : s₀.threads_.Nodup) (hrun : Runs step AddsNew s₀ tr s) :
    (s.threads_.Nodup ∧ ∀ t, t ∈ s.threads_ ↔ live t (t ∈ s₀.threads_) tr) ∧
    (∀ u ts, s.cleanupDeadThreads = .ok (u, [.destroyed ts]) → ∀ t ∈ ts, (s.thread t).state_ = .ToBeDestroyed) ∧
    (∀ clock, s.block_scheduling_ = false → match s.schedule clock with
      | .ok (u, evs) => ∃ t ∈ s.threads_, Eligible clock (s.thread t) ∧ u.currentThread = some t ∧ .scheduled t ∈ evs
      | .error _ => ∀ t ∈ s.threads_, ¬Ready (s.thread t)) ∧
    ∀ t ∈ s.threads_, ∀ tr' u, Runs step (StaysReady t) s tr' u → s.threads_.length ≤ selections tr' →
      .scheduled t ∈ tr' := by
  have hlist : ListOk s₀ tr s := hrun.invariant (I := ListOk s₀) ⟨hnodup, fun _ => .rfl⟩ fun h hok hs => h.step hok hs
  refine ⟨⟨hlist.once, hlist.mem⟩, fun u ts hclean t ht => ?_, fun clock hfree => ?_, fun t ht tr' u hrun' hcalls => ?_⟩
  · obtain ⟨-, -, hevs⟩ := cleanupDeadThreads_ok hclean
    cases hevs
    exact collect_dead ht
  · obtain ⟨t, u, evs, hok, hsel⟩ | ⟨herr, hnone⟩ := schedule_cases (s := s) clock hfree
    · rw [hok]
      obtain ⟨pre, post, hplace, -⟩ := hsel.place
      refine ⟨t, by rw [hplace]; simp, hsel.eligible, hsel.current, ?_⟩
      obtain hevs | hevs := hsel.events
      · rw [hevs]
        exact List.mem_cons_self
      · rw [hevs]
        exact List.mem_cons_self
    · rw [herr]
      exact hnone
  · exact selected_in_time ht hrun' hcalls

/-- Two kernel threads. -/
def twoThreads : Scheduler where
  threads_ := [0, 1]
  thread _ := ⟨false, .Running, false, 0, false, false, false⟩
  currentThread := none
  block_scheduling_ := false

theorem schedule_starves_none_two : ∃ u tr, Runs step (StaysReady 1) twoThreads tr u ∧
    tr = [.scheduled 0, .scheduled 1] ∧ Event.scheduled 1 ∈ tr := by
  have hexec : execOk step (StaysReady 1) twoThreads [.schedule fun _ => 0, .schedule fun _ => 0] =
      some (_, [.scheduled 0, .scheduled 1]) := rfl
  have hrun := runs_of_execOk twoThreads _ hexec
  have hnodup : twoThreads.threads_.Nodup := by decide
  have hfair := (schedule_starves_none hnodup .start).2.2.2
  exact ⟨_, _, hrun, rfl, hfair 1 (by decide) _ _ hrun (by decide)⟩

end KPanic.Scheduling
